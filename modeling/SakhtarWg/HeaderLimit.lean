import SakhtarWg.Sniff

/-!
# The limit on HTTP headers

`http.ReadRequest` takes the lines of a request head from a `bufio.Reader`, whose buffer is
filled by one read at a time and may hold bytes that follow the head. The limit is checked on
everything that was read, so it leaves room for the head alone only when it also leaves room
for a whole buffer.
-/

namespace SakhtarWg.Proxy
open Fallible Streams

/-! ## Reading a request head -/

def bufferSize : ℕ := 4096

def maxConsecutiveEmptyReads : ℕ := 100

/-- The text up to and including the first newline, and what follows it. -/
def nextLine (l : Bytes) : Option (Bytes × Bytes) :=
  if 10 ∈ l then some (l.takeWhile (· ≠ 10) ++ [10], (l.dropWhile (· ≠ 10)).tail) else none

/-- A line of which nothing is left once its end is removed. -/
def blankLine (line : Bytes) : Bool := line = [10] || line = [13, 10]

/-- A `bufio.Reader` under the line reader of a request. -/
structure HeadReader where
  /-- Read from below and not yet consumed. -/
  buffered : Bytes
  /-- The error of the last read. -/
  err : Option StreamError
  /-- Reads in a row that delivered nothing. -/
  emptyReads : ℕ
  /-- The lines consumed so far. -/
  head : Bytes
  /-- The consumed pieces of a line that did not fit the buffer. -/
  line : Bytes

namespace HeadReader

/-- The line, a piece of it, or the read that has to come first. -/
def next (parseHead : Bytes → Except String Request) (q : HeadReader) :
    Move HeadReader (Except String Request) :=
  match nextLine q.buffered with
  | some (last, rest) =>
    let line := q.line ++ last
    if blankLine line then .done (parseHead (q.head ++ line))
    else .goto { q with buffered := rest, head := q.head ++ line, line := [] }
  | none =>
    match q.err with
    | some _ => .done (.error "unexpected EOF")
    | none =>
      if bufferSize ≤ q.buffered.length then
        -- a carriage return at the end of a full buffer stays for the newline that may follow
        let piece := if q.buffered.getLast? = some 13 then q.buffered.dropLast else q.buffered
        .goto { q with buffered := q.buffered.drop piece.length, line := q.line ++ piece }
      else .read (bufferSize - q.buffered.length)

/-- `fill`, one read at a time. -/
def feed (q : HeadReader) (got : Bytes × Option StreamError) : HeadReader :=
  let filled := { q with buffered := q.buffered ++ got.1 }
  match got.2 with
  | some e => { filled with err := some e, emptyReads := 0 }
  | none =>
    if got.1 ≠ [] then { filled with emptyReads := 0 }
    else if q.emptyReads + 1 = maxConsecutiveEmptyReads then
      { filled with err := some .noProgress, emptyReads := 0 }
    else { filled with emptyReads := q.emptyReads + 1 }

theorem feed_got (q : HeadReader) {got : Bytes} (hgot : got ≠ []) :
    q.feed (got, none) = { q with buffered := q.buffered ++ got, emptyReads := 0 } := by
  simp [feed, hgot]

end HeadReader

/-- `http.ReadRequest` on a new `bufio.Reader`: it consumes the head through its blank line,
and `parseHead` makes a request of it. -/
def readRequest (parseHead : Bytes → Except String Request) : Consumer (Except String Request) where
  State := HeadReader
  start := ⟨[], none, 0, [], []⟩
  next := HeadReader.next parseHead
  feed := HeadReader.feed

/-! ## Request heads -/

/-- A line with its newline. -/
def terminated (line : Bytes) : Bytes := line ++ [10]

/-- Lines that are not blank, and the blank line that ends them. -/
structure RequestHead where
  lines : List Bytes
  ending : Bytes
  nonblank : ∀ line ∈ lines, 10 ∉ line ∧ line ≠ [] ∧ line ≠ [13]
  blank : ending = [10] ∨ ending = [13, 10]

namespace RequestHead

/-- What stands before the blank line. -/
def body (head : RequestHead) : Bytes := head.lines.flatMap terminated

def bytes (head : RequestHead) : Bytes := head.body ++ head.ending

theorem ending_ne_nil (head : RequestHead) (more : Bytes) : head.ending ++ more ≠ [] := by
  rcases head.blank with h | h <;> simp [h]

end RequestHead

theorem nextLine_append {a b : Bytes} (h : 10 ∉ a) : nextLine (a ++ 10 :: b) = some (a ++ [10], b) := by
  have ha : ∀ c ∈ a, decide (c ≠ 10) = true := fun c hc => decide_eq_true fun heq => h (heq ▸ hc)
  rw [nextLine, if_pos (by simp), List.takeWhile_append_of_pos ha, List.dropWhile_append_of_pos ha]
  simp

theorem nextLine_of_not_mem {l : Bytes} (h : 10 ∉ l) : nextLine l = none := if_neg h

/-- A text splits in one way at its first newline. -/
theorem newline_split {a b c d : Bytes} (ha : 10 ∉ a) (hc : 10 ∉ c)
    (h : a ++ 10 :: b = c ++ 10 :: d) : a = c ∧ b = d := by
  have hlines := congrArg nextLine h
  rw [nextLine_append ha, nextLine_append hc, Option.some.injEq, Prod.mk.injEq] at hlines
  exact ⟨List.append_cancel_right hlines.1, hlines.2⟩

/-- A text without a newline lies before the first one. -/
theorem prefix_of_newline {a b c d : Bytes} (ha : 10 ∉ a) (h : a ++ b = c ++ 10 :: d) :
    a <+: c := by
  rcases List.append_eq_append_iff.mp h with ⟨e, rfl, -⟩ | ⟨e, rfl, he⟩
  · exact List.prefix_append a e
  · cases e with
    | nil => simp
    | cons x e =>
      cases he
      simp at ha

theorem mem_of_newline {a b c d : Bytes} (hle : c.length < a.length)
    (h : a ++ b = c ++ 10 :: d) : 10 ∈ a := by
  by_contra ha
  have hle' := (prefix_of_newline ha h).length_le
  omega

theorem flatMap_terminated_cons (first : Bytes) (others : List Bytes) (tail : Bytes) :
    (first :: others).flatMap terminated ++ tail =
      first ++ 10 :: (others.flatMap terminated ++ tail) := by
  simp [terminated]

theorem blankLine_terminated {line : Bytes} (hempty : line ≠ []) (hreturn : line ≠ [13]) :
    blankLine (terminated line) = false := by
  rw [blankLine, Bool.or_eq_false_iff, decide_eq_false_iff_not, decide_eq_false_iff_not]
  constructor
  · exact fun h => hempty (List.append_cancel_right (show line ++ [10] = [] ++ [10] from h))
  · exact fun h => hreturn (List.append_cancel_right (show line ++ [10] = [13] ++ [10] from h))

/-- The bytes of the buffer and what is still to come are the rest of a head: the line under way
and the lines after it, the blank line, and what follows the head. -/
structure Reading (head : RequestHead) (more : Bytes) (rest : List Bytes) (q : HeadReader)
    (unread : Bytes) : Prop where
  healthy : q.err = none
  small : q.buffered.length ≤ bufferSize
  done : q.head ++ rest.flatMap terminated = head.body
  todo : q.line ++ (q.buffered ++ unread) = rest.flatMap terminated ++ (head.ending ++ more)
  inside : q.line = [] ∨ ∃ first ∈ rest.head?, q.line <+: first
  lines : ∀ line ∈ rest, line ∈ head.lines

/-- The reader goes on by itself: it consumes bytes of its buffer. -/
def Advances (head : RequestHead) (more : Bytes) (parseHead : Bytes → Except String Request)
    (q : HeadReader) (unread : Bytes) : Prop :=
  ∃ q' rest', q.next parseHead = .goto q' ∧ Reading head more rest' q' unread ∧
    q'.head ++ (q'.line ++ q'.buffered) = q.head ++ (q.line ++ q.buffered) ∧
    q'.buffered.length < q.buffered.length

namespace Reading

variable {head : RequestHead} {more unread : Bytes} {rest : List Bytes} {q : HeadReader}
  {parseHead : Bytes → Except String Request}

/-- What was consumed lies before the blank line. -/
theorem consumed_le (h : Reading head more rest q unread) :
    q.head.length + q.line.length ≤ head.body.length := by
  have hdone := congrArg List.length h.done
  rw [List.length_append] at hdone
  rcases h.inside with hline | ⟨first, hfirst, hline⟩
  · rw [hline]
    simp only [List.length_nil]
    omega
  · cases rest with
    | nil => cases hfirst
    | cons line others =>
      cases hfirst
      have hle := hline.length_le
      simp only [List.flatMap_cons, List.length_append, terminated, List.length_cons] at hdone
      omega

theorem newline_not_mem_line (h : Reading head more rest q unread) : 10 ∉ q.line := by
  rcases h.inside with hline | ⟨first, hfirst, hline⟩
  · simp [hline]
  · have hmem := h.lines first (List.mem_of_mem_head? hfirst)
    exact fun hc => (head.nonblank first hmem).1 (hline.subset hc)

/-- With no line left to come, a newline in the buffer ends the head. -/
theorem of_ending (h : Reading head more [] q unread) (hmem : 10 ∈ q.buffered) :
    q.next parseHead = .done (parseHead head.bytes) := by
  obtain ⟨a, b, hbuffered, ha⟩ := List.eq_append_cons_of_mem hmem
  have hnext : nextLine q.buffered = some (a ++ [10], b) := by rw [hbuffered, nextLine_append ha]
  have hfront : 10 ∉ q.line ++ a := by simp [h.newline_not_mem_line, ha]
  have htodo : (q.line ++ a) ++ 10 :: (b ++ unread) = head.ending ++ more := by
    have htodo := h.todo
    rw [List.flatMap_nil, List.nil_append] at htodo
    rw [← htodo, hbuffered]
    simp
  have hdone := h.done
  rw [List.flatMap_nil, List.append_nil] at hdone
  have hending : q.line ++ (a ++ [10]) = head.ending := by
    rcases head.blank with hblank | hblank <;> rw [hblank] at htodo ⊢
    · obtain ⟨hempty, -⟩ := newline_split hfront List.not_mem_nil htodo
      rw [← List.append_assoc, hempty]
      rfl
    · obtain ⟨hreturn, -⟩ := @newline_split _ _ [13] more hfront (by decide) htodo
      rw [← List.append_assoc, hreturn]
      rfl
  have hblank : blankLine head.ending = true := by
    rcases head.blank with hblank | hblank <;> rw [hblank] <;> rfl
  simp only [HeadReader.next, hnext, hending, hblank, if_true, hdone]
  rfl

/-- Otherwise it ends the line under way. -/
theorem of_line {first : Bytes} {others : List Bytes}
    (h : Reading head more (first :: others) q unread) (hmem : 10 ∈ q.buffered) :
    Advances head more parseHead q unread := by
  obtain ⟨a, b, hbuffered, ha⟩ := List.eq_append_cons_of_mem hmem
  have hnext : nextLine q.buffered = some (a ++ [10], b) := by rw [hbuffered, nextLine_append ha]
  have hfront : 10 ∉ q.line ++ a := by simp [h.newline_not_mem_line, ha]
  have htodo : (q.line ++ a) ++ 10 :: (b ++ unread) =
      first ++ 10 :: (others.flatMap terminated ++ (head.ending ++ more)) := by
    rw [← flatMap_terminated_cons, ← h.todo, hbuffered]
    simp
  obtain ⟨hnewline, hnonempty, hreturn⟩ := head.nonblank first (h.lines first (by simp))
  obtain ⟨hfirst, hrest⟩ := newline_split hfront hnewline htodo
  have hlast : q.line ++ (a ++ [10]) = terminated first := by
    rw [← List.append_assoc, hfirst]
    rfl
  have hblank := blankLine_terminated hnonempty hreturn
  refine ⟨{ q with buffered := b, head := q.head ++ terminated first, line := [] }, others, ?_,
    ⟨h.healthy, ?_, ?_, hrest, .inl rfl, fun line hline => h.lines line (by simp [hline])⟩, ?_, ?_⟩
  · simp only [HeadReader.next, hnext, hlast, hblank, Bool.false_eq_true, if_false]
  · have hsmall := h.small
    rw [hbuffered, List.length_append, List.length_cons] at hsmall
    show b.length ≤ bufferSize
    omega
  · rw [← h.done, List.flatMap_cons, List.append_assoc]
  · simp [← hlast, hbuffered]
  · rw [hbuffered, List.length_append, List.length_cons]
    show b.length < _
    omega

/-- While the buffer holds no newline, the blank line is further on than the buffer. -/
theorem exists_first (h : Reading head more rest q unread) (hnone : 10 ∉ q.buffered)
    (hlong : 2 ≤ q.buffered.length) : ∃ first others, rest = first :: others := by
  cases rest with
  | cons first others => exact ⟨first, others, rfl⟩
  | nil =>
    have hline : q.line = [] := by
      rcases h.inside with hline | ⟨first, hfirst, -⟩
      · exact hline
      · cases hfirst
    have htodo := h.todo
    rw [hline, List.nil_append, List.flatMap_nil, List.nil_append] at htodo
    rcases head.blank with hblank | hblank <;> rw [hblank] at htodo
    · exact absurd (mem_of_newline (c := []) (by simpa using by omega) htodo) hnone
    · exact absurd (mem_of_newline (c := [13]) (by simpa using by omega) htodo) hnone

/-- A full buffer without a newline is a piece of the line under way. -/
theorem of_full (h : Reading head more rest q unread) (hnone : 10 ∉ q.buffered)
    (hfull : bufferSize ≤ q.buffered.length) :
    Advances head more parseHead q unread := by
  have hlong : 4096 ≤ q.buffered.length := hfull
  obtain ⟨first, others, rfl⟩ := h.exists_first hnone (by omega)
  obtain ⟨piece, hpiece, hnonempty, hle⟩ : ∃ piece,
      piece = (if q.buffered.getLast? = some 13 then q.buffered.dropLast else q.buffered) ∧
        0 < piece.length ∧ piece <+: q.buffered := by
    refine ⟨_, rfl, ?_, ?_⟩
    · split
      · rw [List.length_dropLast]
        omega
      · omega
    · split
      · exact List.dropLast_prefix q.buffered
      · exact List.prefix_rfl
  have hsplit : piece ++ q.buffered.drop piece.length = q.buffered :=
    (List.prefix_iff_eq_append.mp hle)
  have hinside : q.line ++ q.buffered <+: first := by
    have htodo := h.todo
    rw [flatMap_terminated_cons, ← List.append_assoc] at htodo
    exact prefix_of_newline (by simp [h.newline_not_mem_line, hnone]) htodo
  refine ⟨{ q with buffered := q.buffered.drop piece.length, line := q.line ++ piece },
    first :: others, ?_, ⟨h.healthy, ?_, h.done, ?_, .inr ⟨first, rfl, ?_⟩, h.lines⟩, ?_, ?_⟩
  · simp only [HeadReader.next, nextLine_of_not_mem hnone, h.healthy, if_pos hfull, ← hpiece]
  · have hsmall := h.small
    show (q.buffered.drop piece.length).length ≤ bufferSize
    rw [List.length_drop]
    omega
  · rw [← h.todo]
    show q.line ++ piece ++ (q.buffered.drop piece.length ++ unread) = _
    rw [List.append_assoc, ← List.append_assoc piece, hsplit]
  · exact ((List.prefix_append_right_inj q.line).mpr hle).trans hinside
  · show q.head ++ (q.line ++ piece ++ q.buffered.drop piece.length) = _
    rw [List.append_assoc, hsplit]
  · show (q.buffered.drop piece.length).length < _
    rw [List.length_drop]
    omega

theorem of_short (h : Reading head more rest q unread) (hnone : 10 ∉ q.buffered)
    (hroom : q.buffered.length < bufferSize) :
    unread ≠ [] ∧ q.next parseHead = .read (bufferSize - q.buffered.length) := by
  refine ⟨?_, ?_⟩
  · rintro rfl
    -- the newline that ends the head would have to be in the buffer
    have htodo := h.todo
    have hmem : 10 ∈ q.line ++ (q.buffered ++ []) := by
      rw [htodo]
      rcases head.blank with hblank | hblank <;> simp [hblank]
    rw [List.append_nil, List.mem_append] at hmem
    exact hmem.elim h.newline_not_mem_line hnone
  · simp only [HeadReader.next, nextLine_of_not_mem hnone, h.healthy, if_neg (Nat.not_le.mpr hroom)]

/-- What the reader does next while a head is under way. -/
theorem next_cases (parseHead : Bytes → Except String Request)
    (h : Reading head more rest q unread) :
    (rest = [] ∧ q.next parseHead = .done (parseHead head.bytes)) ∨
    Advances head more parseHead q unread ∨
    (10 ∉ q.buffered ∧ q.buffered.length < bufferSize ∧ unread ≠ [] ∧
      q.next parseHead = .read (bufferSize - q.buffered.length)) := by
  by_cases hmem : 10 ∈ q.buffered
  · cases rest with
    | nil => exact .inl ⟨rfl, h.of_ending hmem⟩
    | cons first others => exact .inr (.inl (h.of_line hmem))
  · by_cases hroom : q.buffered.length < bufferSize
    · exact .inr (.inr ⟨hmem, hroom, h.of_short hmem hroom⟩)
    · exact .inr (.inl (h.of_full hmem (Nat.not_lt.mp hroom)))

/-- Bytes that arrive go behind those in the buffer. -/
theorem feed {got : Bytes} (h : Reading head more rest q (got ++ unread)) (hgot : got ≠ [])
    (hroom : q.buffered.length + got.length ≤ bufferSize) :
    Reading head more rest (q.feed (got, none)) unread := by
  rw [q.feed_got hgot]
  refine ⟨h.healthy, ?_, h.done, ?_, h.inside, h.lines⟩
  · show (q.buffered ++ got).length ≤ bufferSize
    rw [List.length_append]
    exact hroom
  · rw [← h.todo, ← List.append_assoc q.buffered]

end Reading

/-! ## Runs -/

/-- The reader under the parser: the client's connection with its limit and the tee. -/
abbrev teed : Reader ((Conn × ℤ) × Bytes) := Conn.reader.limited.tee

theorem teed_read {c : Conn} {room : ℤ} {buffer : Bytes} {n : ℕ} (hroom : 0 < room) :
    teed.read ((c, room), buffer) n =
      ((c.read (min n room.toNat)).1,
        ((c.read (min n room.toNat)).2, room - (c.read (min n room.toNat)).1.1.length),
        buffer ++ (c.read (min n room.toNat)).1.1) := by
  simp only [teed, Reader.tee, Reader.limited, Conn.reader, if_neg (Int.not_le.mpr hroom)]

/-- The tee holds what the parser consumed and what it has in its buffer. -/
structure Pulled (limit : ℤ) (q : HeadReader) (t : (Conn × ℤ) × Bytes) : Prop where
  buffer : t.2 = q.head ++ (q.line ++ q.buffered)
  room : t.1.2 = limit + 1 - t.2.length

section
variable {parseHead : Bytes → Except String Request} {head : RequestHead} {more : Bytes}
  {rest : List Bytes} {limit : ℤ} {q q' : HeadReader} {t : (Conn × ℤ) × Bytes}

theorem Pulled.length_le (hpulled : Pulled limit q t) {unread : Bytes}
    (h : Reading head more rest q unread) : t.2.length ≤ head.body.length + bufferSize := by
  have hconsumed := h.consumed_le
  have hsmall := h.small
  rw [hpulled.buffer, List.length_append, List.length_append]
  omega

theorem Pulled.goto (hpulled : Pulled limit q t)
    (hsame : q'.head ++ (q'.line ++ q'.buffered) = q.head ++ (q.line ++ q.buffered)) :
    Pulled limit q' t :=
  ⟨hpulled.buffer.trans hsame.symm, hpulled.room⟩

theorem Pulled.feed {got : Bytes} {c : Conn} (hpulled : Pulled limit q t) (hgot : got ≠ []) :
    Pulled limit (q.feed (got, none)) ((c, t.1.2 - got.length), t.2 ++ got) := by
  rw [q.feed_got hgot]
  refine ⟨?_, ?_⟩
  · simp [hpulled.buffer]
  · show t.1.2 - got.length = limit + 1 - (t.2 ++ got).length
    rw [hpulled.room, List.length_append]
    omega

/-- One read of a connection that goes on, with room left below the limit. -/
theorem Reading.step_read (h : Reading head more rest q t.1.1.unread)
    (hpulled : Pulled limit q t) (hroom : (t.2.length : ℤ) ≤ limit)
    (hshort : q.buffered.length < bufferSize) (hunread : t.1.1.unread ≠ [])
    (hnext : q.next parseHead = .read (bufferSize - q.buffered.length)) :
    ∃ got c, (readRequest parseHead).step teed (q, t) =
        .inl (q.feed (got, none), (c, t.1.2 - got.length), t.2 ++ got) ∧
      t.1.1.read (min (bufferSize - q.buffered.length) t.1.2.toNat) = ((got, none), c) ∧
      t.1.1.unread = got ++ c.unread ∧ got ≠ [] ∧
      Reading head more rest (q.feed (got, none)) c.unread ∧
      Pulled limit (q.feed (got, none)) ((c, t.1.2 - got.length), t.2 ++ got) := by
  have hpositive : 0 < t.1.2 := by
    rw [hpulled.room]
    omega
  obtain ⟨got, c, hread, hgot, hlength, hrest⟩ :=
    Conn.read_next (n := min (bufferSize - q.buffered.length) t.1.2.toNat) (by omega) hunread
  refine ⟨got, c, ?_, hread, hrest, hgot, ?_, hpulled.feed hgot⟩
  · have hstep := Consumer.step_read (R := teed) (C := readRequest parseHead) (c := (q, t)) hnext
    rw [hstep]
    obtain ⟨⟨conn, room⟩, buffer⟩ := t
    have hteed := @teed_read conn room buffer (bufferSize - q.buffered.length) hpositive
    rw [hread] at hteed
    rw [hteed]
    rfl
  · rw [hrest] at h
    exact h.feed hgot (by omega)

/-- With room for the head and a whole buffer the parser reads the head and stays within the
limit. -/
theorem Reading.returns (hroom : head.body.length + bufferSize ≤ limit) {n : ℕ}
    (hn : 2 * t.1.1.unread.length + q.buffered.length ≤ n)
    (h : Reading head more rest q t.1.1.unread) (hpulled : Pulled limit q t) :
    ∃ fuel t', (readRequest parseHead).run teed fuel (q, t) = some (parseHead head.bytes, t') ∧
      t'.2.length ≤ limit := by
  -- every move takes bytes out of the buffer, or brings unread bytes into it
  induction n using Nat.strongRecOn generalizing q t rest with
  | _ n ih =>
    have hlength := hpulled.length_le h
    rcases h.next_cases parseHead with ⟨-, hnext⟩ | ⟨q', rest', hnext, h', hsame, hless⟩ |
      ⟨-, hshort, hunread, hnext⟩
    · exact ⟨1, t, Consumer.run_done (Consumer.step_done hnext) 0, by omega⟩
    · obtain ⟨fuel, t', hrun, hle⟩ :=
        ih _ (Nat.lt_of_lt_of_le (by omega) hn) (Nat.le_refl (2 * t.1.1.unread.length +
          q'.buffered.length)) h' (hpulled.goto hsame)
      exact ⟨fuel + 1, t', (Consumer.run_step (Consumer.step_goto hnext) fuel).trans hrun, hle⟩
    · obtain ⟨got, c, hstep, -, hrest, hgot, h', hpulled'⟩ :=
        h.step_read hpulled (by omega) hshort hunread hnext
      have hmore : 2 * c.unread.length + (q.feed (got, none)).buffered.length < n := by
        have hsplit := congrArg List.length hrest
        have hpos := List.length_pos_iff.mpr hgot
        rw [List.length_append] at hsplit
        rw [q.feed_got hgot, List.length_append]
        omega
      obtain ⟨fuel, t', hrun, hle⟩ := ih _ hmore (Nat.le_refl _) h' hpulled'
      exact ⟨fuel + 1, t', (Consumer.run_step hstep fuel).trans hrun, hle⟩

/-- Bytes that arrive one by one are consumed up to the blank line before it arrives. -/
theorem Reading.reaches_ending {segment : {segment : Bytes // segment ≠ []}}
    {ending : StreamError} {u : Bytes} {n : ℕ} (hn : 2 * u.length + q.buffered.length ≤ n)
    (hlimit : (head.body.length : ℤ) ≤ limit)
    (hconn : t.1.1 = ⟨Conn.singles u ++ [segment], ending⟩)
    (h : Reading head more rest q (u ++ segment.val)) (hpulled : Pulled limit q t)
    (hbody : t.2 ++ u = head.body) :
    ∃ q' t', (readRequest parseHead).Reaches teed (q, t) (q', t') ∧
      t'.1.1 = ⟨[segment], ending⟩ ∧ Reading head more [] q' segment.val ∧ q'.buffered = [] ∧
      Pulled limit q' t' := by
  induction n using Nat.strongRecOn generalizing q u rest t with
  | _ n ih =>
    have hle : (t.2.length : ℤ) ≤ limit := by
      rw [← hbody, List.length_append] at hlimit
      omega
    have hunread : t.1.1.unread = u ++ segment.val := by
      rw [hconn, Conn.unread_singles]
      simp
    have hparts : q.line ++ (q.buffered ++ u) = rest.flatMap terminated := by
      have hparts := h.done.trans hbody.symm
      rw [hpulled.buffer, List.append_assoc, List.append_assoc] at hparts
      exact (List.append_cancel_left hparts).symm
    by_cases hrest : rest = []
    · -- with no line left, the body is read and the buffer is empty
      subst hrest
      simp only [List.flatMap_nil, List.append_eq_nil_iff] at hparts
      obtain ⟨-, hempty, rfl⟩ := hparts
      exact ⟨q, t, .refl, hconn, h, hempty, hpulled⟩
    rcases h.next_cases parseHead with ⟨hnil, -⟩ | ⟨q', rest', hnext, h', hsame, hless⟩ |
      ⟨hnone, hshort, -, hnext⟩
    · exact absurd hnil hrest
    · obtain ⟨q'', t'', hreaches, hrest⟩ := ih _ (Nat.lt_of_lt_of_le (by omega) hn)
        (Nat.le_refl (2 * u.length + q'.buffered.length)) hconn h' (hpulled.goto hsame) hbody
      exact ⟨q'', t'', .head (Consumer.step_goto hnext) hreaches, hrest⟩
    · cases u with
      | nil =>
        -- the newline of a line that is left would be in the buffer
        obtain ⟨first, others, rfl⟩ := List.exists_cons_of_ne_nil hrest
        have hmem : 10 ∈ q.line ++ (q.buffered ++ []) := by
          rw [hparts]
          simp [terminated]
        rw [List.append_nil, List.mem_append] at hmem
        exact (hmem.elim h.newline_not_mem_line hnone).elim
      | cons b u =>
        obtain ⟨got, c, hstep, hread, hsplit, hgot, h', hpulled'⟩ :=
          Reading.step_read (hunread ▸ h) hpulled hle hshort (by rw [hunread]; simp) hnext
        have hroom := hpulled.room
        rw [hconn, Conn.read_single (by omega)] at hread
        cases hread
        have hlength : 2 * u.length + (q.feed ([b], none)).buffered.length < n := by
          rw [q.feed_got hgot, List.length_append]
          simp only [List.length_cons, List.length_nil] at hn ⊢
          omega
        rw [Conn.unread_singles, List.flatMap_singleton] at h'
        obtain ⟨q'', t'', hreaches, hrest⟩ := ih _ hlength (Nat.le_refl _) rfl h' hpulled'
          (by rw [← hbody]; simp)
        exact ⟨q'', t'', .head hstep hreaches, hrest⟩

/-- When the blank line and a buffer full of other bytes arrive at once, they are all read as
far as the limit lets them, which is one byte too many. -/
theorem Reading.overflows {segment : {segment : Bytes // segment ≠ []}} {ending : StreamError}
    (hmore : bufferSize ≤ more.length) (hsegment : segment.val = head.ending ++ more)
    (hlimit : (head.bytes.length : ℤ) ≤ limit) (hroom : limit < head.body.length + bufferSize)
    (hconn : t.1.1 = ⟨[segment], ending⟩) (h : Reading head more [] q segment.val)
    (hempty : q.buffered = []) (hpulled : Pulled limit q t) :
    ∃ fuel t', (readRequest parseHead).run teed fuel (q, t) = some (parseHead head.bytes, t') ∧
      limit < t'.2.length := by
  have hhead : q.head = head.body := by
    have hdone := h.done
    rwa [List.flatMap_nil, List.append_nil] at hdone
  have hline : q.line = [] := by
    rcases h.inside with hline | ⟨first, hfirst, -⟩
    · exact hline
    · cases hfirst
  have hbuffer : t.2 = head.body := by
    rw [hpulled.buffer, hhead, hline, hempty, List.append_nil, List.append_nil]
  have hleft := hpulled.room
  rw [hbuffer] at hleft
  rw [RequestHead.bytes, List.length_append] at hlimit
  have hunread : t.1.1.unread = segment.val := by
    rw [hconn]
    simp [Conn.unread]
  have hshort : q.buffered.length < bufferSize := by
    rw [hempty]
    decide
  obtain ⟨hne, hnext⟩ : segment.val ≠ [] ∧
      q.next parseHead = .read (bufferSize - q.buffered.length) :=
    h.of_short (by simp [hempty]) hshort
  obtain ⟨got, c, hstep, hread, hsplit, hgot, h', -⟩ :=
    Reading.step_read (hunread ▸ h) hpulled (by rw [hbuffer]; omega) hshort (hunread ▸ hne) hnext
  have htaken : got = segment.val.take t.1.2.toNat := by
    have hall : min (bufferSize - q.buffered.length) t.1.2.toNat = t.1.2.toNat := by
      rw [hempty, List.length_nil, hleft]
      omega
    rw [hall, hconn] at hread
    exact (congrArg (fun out => out.1.1) hread).symm
  have hlength : (got.length : ℤ) = limit + 1 - head.body.length := by
    rw [htaken, List.length_take, hsegment, List.length_append, hleft]
    omega
  have hmem : 10 ∈ (q.feed (got, none)).buffered := by
    have hending : head.ending <+: got := by
      rw [htaken, hsegment, List.prefix_take_iff, hleft]
      exact ⟨List.prefix_append _ _, by omega⟩
    rw [q.feed_got hgot, hempty, List.nil_append]
    apply hending.subset
    rcases head.blank with hblank | hblank <;> simp [hblank]
  refine ⟨2, _, (Consumer.run_step hstep 1).trans
    (Consumer.run_done (Consumer.step_done (h'.of_ending hmem)) 0), ?_⟩
  rw [List.length_append, hbuffer]
  omega

end

/-! ## The limit -/

section
variable {parseHead : Bytes → Except String Request} {head : RequestHead} {more : Bytes}
  {limit : ℤ} {c : Conn} {host : String}

/-- The connection is accepted, with this host. -/
def Accepts (parseHead : Bytes → Except String Request) (limit : ℤ) (c : Conn) (host : String) :
    Prop :=
  ∃ fuel pre c', peekHTTPHostLimit (readRequest parseHead) Conn.reader limit fuel c =
    some (.ok (host, pre), c')

theorem Accepts.result (h : Accepts parseHead limit c host) {fuel : ℕ}
    {out : Except String Request × (Conn × ℤ) × Bytes}
    (hrun : (readRequest parseHead).run teed fuel
      ((readRequest parseHead).start, (c, wrap64 (limit + 1)), []) = some out) :
    (out.2.2.length : ℤ) ≤ limit ∧ ∃ request, out.1 = .ok request := by
  obtain ⟨fuel', pre, c', hpeek⟩ := h
  obtain ⟨out', hrun', hresult⟩ := Option.map_eq_some_iff.mp hpeek
  obtain rfl := Consumer.run_unique hrun hrun'
  obtain ⟨hcheck, -⟩ := Prod.mk.inj hresult
  simp only [checkRequest, bind_eq_ok, require_eq_ok, decide_eq_true_eq] at hcheck
  obtain ⟨request, hrequest, _, hle, -⟩ := hcheck
  exact ⟨hle, request, hrequest⟩

theorem reading_start {unread : Bytes} (hunread : unread = head.bytes ++ more) :
    Reading head more head.lines (readRequest parseHead).start unread := by
  refine ⟨rfl, Nat.zero_le _, rfl, ?_, .inl rfl, fun _ h => h⟩
  rw [hunread, RequestHead.bytes, List.append_assoc]
  rfl

theorem pulled_start (c : Conn) :
    Pulled limit (readRequest parseHead).start ((c, limit + 1), []) := by
  refine ⟨rfl, ?_⟩
  show limit + 1 = limit + 1 - ((0 : ℕ) : ℤ)
  omega

theorem wrap64_of_lt {n : ℤ} (hlow : 0 ≤ n) (hhigh : n < 9223372036854775808) : wrap64 n = n := by
  unfold wrap64
  exact Int.bmod_eq_of_le (by omega) (by omega)

theorem accepts_of_room (hroom : head.body.length + bufferSize ≤ limit)
    (hlimit : limit < 9223372036854775807) {request : Request}
    (hparse : parseHead head.bytes = .ok request) (hhost : request.host ≠ "")
    (hc : head.bytes <+: c.unread) : Accepts parseHead limit c request.host := by
  obtain ⟨more, hmore⟩ := hc
  have hstart : Reading head more head.lines (readRequest parseHead).start c.unread :=
    reading_start hmore.symm
  obtain ⟨fuel, t, hrun, hle⟩ := Reading.returns hroom (Nat.le_refl _) hstart (pulled_start c)
  refine ⟨fuel, t.2, t.1.1, ?_⟩
  rw [peekHTTPHostLimit, wrap64_of_lt (by omega) (by omega), hrun, hparse, Option.map_some]
  have hcheck : checkRequest limit t.2 (.ok request) = .ok (request.host, t.2) := by
    simp only [checkRequest, bind_eq_ok, require_eq_ok, pure_eq_ok, decide_eq_true_eq]
    exact ⟨request, rfl, (), hle, (), hhost, rfl⟩
  rw [hcheck]

/-- A connection that delivers the lines byte by byte, and then the blank line with a buffer full
of other bytes. -/
def burst (head : RequestHead) : Conn :=
  ⟨Conn.singles head.body ++ [⟨head.ending ++ List.replicate bufferSize 0,
    head.ending_ne_nil _⟩], .eof⟩

theorem burst_unread (head : RequestHead) :
    (burst head).unread = head.bytes ++ List.replicate bufferSize 0 := by
  rw [burst, Conn.unread_singles, List.flatMap_singleton, RequestHead.bytes, List.append_assoc]

theorem burst_refused (hlength : (head.bytes.length : ℤ) ≤ limit)
    (hlimit : limit < 9223372036854775807) (hroom : limit < head.body.length + bufferSize) :
    ¬Accepts parseHead limit (burst head) host := by
  intro haccepts
  have hbody : (head.body.length : ℤ) ≤ limit := by
    rw [RequestHead.bytes, List.length_append] at hlength
    omega
  have hstart : Reading head (List.replicate bufferSize 0) head.lines
      (readRequest parseHead).start
      (head.body ++ (head.ending ++ List.replicate bufferSize 0)) :=
    reading_start (by rw [RequestHead.bytes, List.append_assoc])
  obtain ⟨q, t, hreaches, hconn, h, hempty, hpulled⟩ := Reading.reaches_ending (Nat.le_refl _) hbody
    (show ((burst head, limit + 1), ([] : Bytes)).1.1 = _ from rfl) hstart (pulled_start _)
    (List.nil_append _)
  obtain ⟨fuel, t', hrun, hmore⟩ := Reading.overflows (by simp) rfl hlength hroom hconn h hempty
    hpulled
  obtain ⟨fuel, hrun⟩ := hreaches.run hrun
  rw [← wrap64_of_lt (n := limit + 1) (by omega) (by omega)] at hrun
  have hle : (t'.2.length : ℤ) ≤ limit := (haccepts.result hrun).1
  omega

/-- The largest limit lets nothing through: its successor is negative. -/
theorem largest_refused : ¬Accepts parseHead 9223372036854775807 c host := by
  intro haccepts
  have hrun : (readRequest parseHead).run teed 2
      ((readRequest parseHead).start, (c, wrap64 (9223372036854775807 + 1)), []) =
        some (.error "unexpected EOF", (c, wrap64 (9223372036854775807 + 1)), []) := rfl
  obtain ⟨-, request, hrequest⟩ := haccepts.result hrun
  cases hrequest

end

/-- Connections that begin with the same request head of at most `limit` bytes are accepted alike
exactly when the limit leaves room for the lines of the head and a whole buffer. -/
theorem header_limit_iff {parseHead : Bytes → Except String Request} {head : RequestHead}
    {request : Request} {limit : ℤ} (hparse : parseHead head.bytes = .ok request)
    (hhost : request.host ≠ "") (hlength : (head.bytes.length : ℤ) ≤ limit)
    (hlimit : limit ≤ 9223372036854775807) :
    (∀ c₁ c₂ : Conn, head.bytes <+: c₁.unread → head.bytes <+: c₂.unread →
      ∃ host, Accepts parseHead limit c₁ host ∧ Accepts parseHead limit c₂ host) ↔
    head.body.length + bufferSize ≤ limit ∧ limit ≠ 9223372036854775807 := by
  have hburst : head.bytes <+: (burst head).unread := by
    rw [burst_unread]
    exact List.prefix_append _ _
  constructor
  · intro hall
    obtain ⟨host, haccepts, -⟩ := hall _ _ hburst hburst
    have hne : limit ≠ 9223372036854775807 := by
      rintro rfl
      exact largest_refused haccepts
    refine ⟨?_, hne⟩
    by_contra hroom
    exact burst_refused hlength (by omega) (by omega) haccepts
  · rintro ⟨hroom, hne⟩ c₁ c₂ h₁ h₂
    exact ⟨request.host, accepts_of_room hroom (by omega) hparse hhost h₁,
      accepts_of_room hroom (by omega) hparse hhost h₂⟩

def ascii (s : String) : Bytes := s.toList.map fun c => UInt8.ofNat c.toNat

/-- The head of a short upload. -/
def uploadHead : RequestHead where
  lines := [ascii "POST / HTTP/1.1\r", ascii "Host: example.com\r"]
  ending := ascii "\r\n"
  nonblank := by decide +kernel
  blank := by decide +kernel

/-- The head and its body in one segment. -/
def upload (body : Bytes) : Conn := ⟨[⟨uploadHead.bytes ++ body, List.cons_ne_nil _ _⟩], .eof⟩

theorem upload_begins (body : Bytes) : uploadHead.bytes <+: (upload body).unread := by
  refine ⟨body, ?_⟩
  rw [upload, Conn.unread, List.flatMap_singleton]

/-- A limit of two buffers has room for the head, with and without a body. -/
theorem header_limit_upload :
    ∃ host, Accepts (fun _ => .ok ⟨"example.com"⟩) 8192 (upload []) host ∧
      Accepts (fun _ => .ok ⟨"example.com"⟩) 8192 (upload (List.replicate 64 120)) host :=
  (@header_limit_iff (fun _ => .ok ⟨"example.com"⟩) uploadHead ⟨"example.com"⟩ 8192 rfl (by decide)
    (by decide +kernel) (by decide)).mpr ⟨by decide +kernel, by decide⟩ _ _ (upload_begins _)
    (upload_begins _)

/-- With a limit of 64 bytes the head is accepted alone, and refused when its body arrives in the
same segment. -/
theorem header_limit_body :
    (uploadHead.bytes.length : ℤ) ≤ 64 ∧
    Accepts (fun _ => .ok ⟨"example.com"⟩) 64 (upload []) "example.com" ∧
    ∀ host, ¬Accepts (fun _ => .ok ⟨"example.com"⟩) 64 (upload (List.replicate 64 120)) host := by
  refine ⟨by decide +kernel, ⟨5, uploadHead.bytes, ⟨[], .eof⟩, rfl⟩, fun host haccepts => ?_⟩
  have hread : ((readRequest fun _ => .ok ⟨"example.com"⟩).run teed 4
      (⟨[], none, 0, [], []⟩, (upload (List.replicate 64 120), wrap64 (64 + 1)), [])).map
        (fun out => out.2.2.length) = some 65 := by decide +kernel
  obtain ⟨out, hrun, hlength⟩ := Option.map_eq_some_iff.mp hread
  have hle := (haccepts.result hrun).1
  omega

end SakhtarWg.Proxy
