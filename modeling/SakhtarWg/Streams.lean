import Mathlib.Data.Int.Notation
import Mathlib.Data.List.Basic
import Mathlib.Logic.Relation

/-!
# Byte streams

Readers and writers as the operations of a stream: a reader is denoted by the bytes it has
not delivered yet, a writer by the bytes it has received. A consumer is any program that
learns about the world through the reads it makes.
-/

namespace SakhtarWg.Streams

abbrev Bytes := List UInt8

inductive StreamError
  | eof
  | noProgress
  | shortWrite
  | failed (message : String)
  deriving DecidableEq, Repr

/-! ## Readers -/

/-- One read delivers at most the bytes asked for, and they are the next ones. -/
structure Reader (σ : Type) where
  unread : σ → Bytes
  read : σ → ℕ → (Bytes × Option StreamError) × σ
  length_le : ∀ s n, (read s n).1.1.length ≤ n
  unread_eq : ∀ s n, unread s = (read s n).1.1 ++ unread (read s n).2

namespace Reader

variable {σ : Type} (R : Reader σ)

/-- `io.LimitReader`: the second component is how many bytes may still be delivered. -/
def limited : Reader (σ × ℤ) where
  unread s := R.unread s.1
  read s n :=
    if s.2 ≤ 0 then (([], some .eof), s)
    else
      let out := R.read s.1 (min n s.2.toNat)
      (out.1, (out.2, s.2 - out.1.1.length))
  length_le s n := by
    split
    · exact Nat.zero_le n
    · exact Nat.le_trans (R.length_le s.1 _) (Nat.min_le_left n _)
  unread_eq s n := by
    split
    · rfl
    · exact R.unread_eq s.1 _

/-- What the reads below keep, the limited reads keep. -/
theorem limited_inv {R : Reader σ} {I : σ → Prop} (hread : ∀ s n, I s → I (R.read s n).2)
    (s : σ × ℤ) (n : ℕ) (h : I s.1) : I (R.limited.read s n).2.1 := by
  simp only [limited]
  split
  · exact h
  · exact hread s.1 _ h

/-- `io.TeeReader` on a buffer: the second component is what the buffer holds. -/
def tee : Reader (σ × Bytes) where
  unread s := R.unread s.1
  read s n :=
    let out := R.read s.1 n
    (out.1, (out.2, s.2 ++ out.1.1))
  length_le s n := R.length_le s.1 n
  unread_eq s n := R.unread_eq s.1 n

/-- The buffer and the rest of the stream make up the same bytes before and after a read. -/
theorem tee_whole (s : σ × Bytes) (n : ℕ) :
    (R.tee.read s n).2.2 ++ R.unread (R.tee.read s n).2.1 = s.2 ++ R.unread s.1 := by
  show (s.2 ++ (R.read s.1 n).1.1) ++ R.unread (R.read s.1 n).2 = s.2 ++ R.unread s.1
  rw [List.append_assoc, ← R.unread_eq]

end Reader

/-! ## Connections -/

/-- A connection whose bytes arrive in segments, each with at least one byte, until it ends. A
read takes from the segment that has arrived. -/
structure Conn where
  segments : List {segment : Bytes // segment ≠ []}
  ending : StreamError

namespace Conn

def unread (c : Conn) : Bytes := c.segments.flatMap Subtype.val

def read (c : Conn) (n : ℕ) : (Bytes × Option StreamError) × Conn :=
  match c.segments with
  | [] => (([], some c.ending), c)
  | segment :: rest =>
    ((segment.val.take n, none),
      { c with segments :=
          if h : segment.val.drop n = [] then rest else ⟨segment.val.drop n, h⟩ :: rest })

def reader : Reader Conn where
  unread := unread
  read := read
  length_le c n := by
    unfold read
    split
    · exact Nat.zero_le n
    · exact List.length_take_le n _
  unread_eq c n := by
    unfold read
    split
    · rfl
    · rename_i segment rest hsegments
      have hsplit := List.take_append_drop n segment.val
      simp only [unread, hsegments, List.flatMap_cons]
      split
      · rename_i hempty
        rw [hempty, List.append_nil] at hsplit
        rw [hsplit]
      · rw [List.flatMap_cons, ← List.append_assoc, hsplit]

/-- A connection that has not ended delivers at least a byte. -/
theorem read_next {c : Conn} {n : ℕ} (hn : 0 < n) (hne : c.unread ≠ []) :
    ∃ got c', c.read n = ((got, none), c') ∧ got ≠ [] ∧ got.length ≤ n ∧
      c.unread = got ++ c'.unread := by
  have hlength := reader.length_le c n
  have hunread := reader.unread_eq c n
  cases hsegments : c.segments with
  | nil => simp [unread, hsegments] at hne
  | cons segment rest =>
    have hread : c.read n = ((segment.val.take n, none), (c.read n).2) := by
      simp only [read, hsegments]
    refine ⟨segment.val.take n, (c.read n).2, hread, ?_, ?_, ?_⟩
    · rw [Ne, List.take_eq_nil_iff]
      exact fun h => h.elim (by omega) segment.property
    · exact List.length_take_le n _
    · have htaken : (c.read n).1.1 = segment.val.take n := by rw [hread]
      exact htaken ▸ hunread

/-- Segments of one byte each. -/
def singles (l : Bytes) : List {segment : Bytes // segment ≠ []} :=
  l.map fun b => ⟨[b], List.cons_ne_nil b []⟩

theorem unread_singles (u : Bytes) (rest : List {segment : Bytes // segment ≠ []})
    (ending : StreamError) :
    unread ⟨singles u ++ rest, ending⟩ = u ++ rest.flatMap Subtype.val := by
  induction u with
  | nil => rfl
  | cons b u ih => exact congrArg (b :: ·) ih

theorem read_single {b : UInt8} {u : Bytes} {rest : List {segment : Bytes // segment ≠ []}}
    {ending : StreamError} {n : ℕ} (hn : 0 < n) :
    (⟨singles (b :: u) ++ rest, ending⟩ : Conn).read n =
      (([b], none), ⟨singles u ++ rest, ending⟩) := by
  obtain ⟨n, rfl⟩ := Nat.exists_eq_add_of_le' hn
  simp [read, singles]

end Conn

/-! ## Consumers -/

/-- What a consumer does next: ask for bytes, go on by itself, or return. -/
inductive Move (State α : Type)
  | read (n : ℕ)
  | goto (q : State)
  | done (a : α)

/-- A program whose only effect is to read. -/
structure Consumer (α : Type) where
  State : Type
  start : State
  next : State → Move State α
  feed : State → Bytes × Option StreamError → State

namespace Consumer

variable {α σ : Type} (C : Consumer α) (R : Reader σ)

def step (c : C.State × σ) : (C.State × σ) ⊕ α :=
  match C.next c.1 with
  | .read n => .inl (C.feed c.1 (R.read c.2 n).1, (R.read c.2 n).2)
  | .goto q => .inl (q, c.2)
  | .done a => .inr a

/-- The result and the reader it leaves, unless the steps run out. -/
def run : ℕ → C.State × σ → Option (α × σ)
  | 0, _ => none
  | fuel + 1, c =>
    match C.step R c with
    | .inl c' => run fuel c'
    | .inr a => some (a, c.2)

variable {C R}

theorem step_done {c : C.State × σ} {a : α} (h : C.next c.1 = .done a) : C.step R c = .inr a := by
  simp only [step, h]

theorem step_goto {c : C.State × σ} {q : C.State} (h : C.next c.1 = .goto q) :
    C.step R c = .inl (q, c.2) := by
  simp only [step, h]

theorem step_read {c : C.State × σ} {n : ℕ} (h : C.next c.1 = .read n) :
    C.step R c = .inl (C.feed c.1 (R.read c.2 n).1, (R.read c.2 n).2) := by
  simp only [step, h]

theorem run_step {c c' : C.State × σ} (h : C.step R c = .inl c') (fuel : ℕ) :
    C.run R (fuel + 1) c = C.run R fuel c' := by
  simp only [run, h]

theorem run_done {c : C.State × σ} {a : α} (h : C.step R c = .inr a) (fuel : ℕ) :
    C.run R (fuel + 1) c = some (a, c.2) := by
  simp only [run, h]

/-- More steps do not change a result. -/
theorem run_mono {fuel more : ℕ} (hle : fuel ≤ more) {c : C.State × σ} {out : α × σ}
    (h : C.run R fuel c = some out) : C.run R more c = some out := by
  induction fuel generalizing c more with
  | zero => cases h
  | succ fuel ih =>
    obtain ⟨more, rfl⟩ := Nat.exists_eq_add_of_le' (show 1 ≤ more by omega)
    cases hstep : C.step R c with
    | inl c' =>
      rw [run_step hstep] at h ⊢
      exact ih (by omega) h
    | inr a =>
      rw [run_done hstep] at h ⊢
      exact h

theorem run_unique {fuel fuel' : ℕ} {c : C.State × σ} {out out' : α × σ}
    (h : C.run R fuel c = some out) (h' : C.run R fuel' c = some out') : out = out' := by
  have hmore := run_mono (Nat.le_max_left fuel fuel') h
  have hmore' := run_mono (Nat.le_max_right fuel fuel') h'
  exact Option.some.inj (hmore.symm.trans hmore')

/-- What every read keeps, a whole run keeps. -/
theorem run_inv {I : σ → Prop} (hread : ∀ s n, I s → I (R.read s n).2) {fuel : ℕ}
    {c : C.State × σ} {out : α × σ} (h : C.run R fuel c = some out) (hI : I c.2) : I out.2 := by
  induction fuel generalizing c with
  | zero => cases h
  | succ fuel ih =>
    cases hstep : C.step R c with
    | inl c' =>
      rw [run_step hstep] at h
      apply ih h
      unfold step at hstep
      split at hstep
      · cases hstep
        exact hread c.2 _ hI
      · cases hstep
        exact hI
      · cases hstep
    | inr a =>
      rw [run_done hstep] at h
      cases h
      exact hI

/-- One configuration is reached from another without returning. -/
def Reaches (C : Consumer α) (R : Reader σ) : C.State × σ → C.State × σ → Prop :=
  Relation.ReflTransGen fun c c' => C.step R c = .inl c'

theorem Reaches.run {c c' : C.State × σ} (h : C.Reaches R c c') {fuel : ℕ} {out : α × σ}
    (hrun : C.run R fuel c' = some out) : ∃ fuel, C.run R fuel c = some out := by
  induction h using Relation.ReflTransGen.head_induction_on with
  | refl => exact ⟨fuel, hrun⟩
  | head hstep _ ih =>
    obtain ⟨fuel, hfuel⟩ := ih
    exact ⟨fuel + 1, (run_step hstep fuel).trans hfuel⟩

end Consumer

/-! ## Writers -/

/-- One write takes the first bytes of the data, as many as it says. -/
structure Writer (ω : Type) where
  received : ω → Bytes
  write : ω → Bytes → (ℕ × Option StreamError) × ω
  count_le : ∀ w data, (write w data).1.1 ≤ data.length
  received_eq : ∀ w data, received (write w data).2 = received w ++ data.take (write w data).1.1

section
variable {σ ω : Type} (R : Reader σ) (W : Writer ω)

/-- A write that is not made when there is nothing to write. -/
def forward (w : ω) (data : Bytes) : (ℕ × Option StreamError) × ω :=
  if data = [] then ((0, none), w) else W.write w data

/-- `io.Copy`: the bytes written and the first error other than the end of the stream. -/
def copy : ℕ → ℕ → σ → ω → Option ((ℕ × Option StreamError) × σ × ω)
  | 0, _, _, _ => none
  | fuel + 1, written, s, w =>
    let got := R.read s 32768
    let put := forward W w got.1.1
    let total := written + put.1.1
    match put.1.2 with
    | some e => some ((total, some e), got.2, put.2)
    | none =>
      if put.1.1 ≠ got.1.1.length then some ((total, some .shortWrite), got.2, put.2)
      else
        match got.1.2 with
        | some .eof => some ((total, none), got.2, put.2)
        | some e => some ((total, some e), got.2, put.2)
        | none => copy fuel total got.2 put.2

/-- Of the stream the writer got a first part, and all that is not left unless there was an
error. -/
def Sent (stream before : Bytes) (err : Option StreamError) (left after : Bytes) : Prop :=
  ∃ part, part <+: stream ∧ after = before ++ part ∧ (err = none → part ++ left = stream)

variable {R W}

theorem Sent.of_take {stream before after left : Bytes} {n : ℕ} (h : after = before ++ stream.take n)
    (err : StreamError) : Sent stream before (some err) left after :=
  ⟨stream.take n, List.take_prefix n stream, h, fun hnone => by cases hnone⟩

/-- What follows a part that was sent whole. -/
theorem Sent.after {part rest before middle left after : Bytes} {err : Option StreamError}
    (hmiddle : middle = before ++ part) (h : Sent rest middle err left after) :
    Sent (part ++ rest) before err left after := by
  obtain ⟨more, hmore, rfl, hleft⟩ := h
  refine ⟨part ++ more, List.prefix_append_right_inj part |>.mpr hmore, ?_, fun hnone => ?_⟩
  · rw [hmiddle, List.append_assoc]
  · rw [List.append_assoc, hleft hnone]

theorem forward_received (w : ω) (data : Bytes) :
    W.received (forward W w data).2 = W.received w ++ data.take (forward W w data).1.1 := by
  unfold forward
  split
  · simp
  · exact W.received_eq w data

theorem copy_sent {fuel written : ℕ} {s s' : σ} {w w' : ω} {n : ℕ} {err : Option StreamError}
    (h : copy R W fuel written s w = some ((n, err), s', w')) :
    Sent (R.unread s) (W.received w) err (R.unread s') (W.received w') := by
  induction fuel generalizing written s w with
  | zero => cases h
  | succ fuel ih =>
    have hunread := R.unread_eq s 32768
    have hreceived := forward_received (W := W) w (R.read s 32768).1.1
    have hle : (forward W w (R.read s 32768).1.1).1.1 ≤ (R.read s 32768).1.1.length := by
      unfold forward
      split
      · exact Nat.zero_le _
      · exact W.count_le w _
    simp only [copy] at h
    split at h
    · cases h
      rw [← List.take_append_of_le_length hle, ← hunread] at hreceived
      exact .of_take hreceived _
    · split at h
      · cases h
        rw [← List.take_append_of_le_length hle, ← hunread] at hreceived
        exact .of_take hreceived _
      · rename_i hwhole
        rw [not_not.mp hwhole, List.take_length] at hreceived
        rw [hunread]
        apply Sent.after hreceived
        split at h
        · cases h
          exact ⟨[], List.nil_prefix, by simp, fun _ => rfl⟩
        · cases h
          exact ⟨[], List.nil_prefix, by simp, fun _ => rfl⟩
        · exact ih h

end

end SakhtarWg.Streams
