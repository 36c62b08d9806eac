import SakhtarWg.Fallible
import SakhtarWg.Streams

/-!
# Sniffing the host

The proxy learns the host of a connection from its first bytes and then hands the whole
connection on: the bytes it read come back as a prefix that is written to the backend before
the rest is copied. The HTTP and TLS parsers are any consumers of the readers they are given.
-/

namespace SakhtarWg.Proxy
open Fallible Streams

/-- Arithmetic of `int64`. -/
def wrap64 (n : ℤ) : ℤ := Int.bmod n 18446744073709551616

/-- What is used of an `http.Request`. -/
structure Request where
  host : String
  deriving DecidableEq, Repr

def checkRequest (limit : ℤ) (buffer : Bytes) (parsed : Except String Request) :
    Except String (String × Bytes) := do
  let request ← parsed
  require (buffer.length ≤ limit) ("HTTP header exceeds " ++ toString limit ++ " bytes")
  require (request.host ≠ "") "HTTP request has no Host header"
  return (request.host, buffer)

def checkHello {Hello : Type} (limit : ℤ) (buffer : Bytes) (read : Except String (Option Hello)) :
    Except String (Option Hello × Bytes) := do
  let hello ← read
  require (buffer.length ≤ limit) ("ClientHello exceeds " ++ toString limit ++ " bytes")
  return (hello, buffer)

/-- The hello that the handshake reported, or the error it ended with. -/
def capturedHello {Hello : Type} : Option Hello × Option String → Except String (Option Hello)
  | (some hello, _) => .ok (some hello)
  | (none, some e) => .error e
  | (none, none) => .ok none

section
variable {σ Hello : Type}

/-- `peekHTTPHostLimit` and the connection it leaves. `readRequest` is `http.ReadRequest` on a
`bufio.Reader`. -/
def peekHTTPHostLimit (readRequest : Consumer (Except String Request)) (R : Reader σ) (limit : ℤ)
    (fuel : ℕ) (s : σ) : Option (Except String (String × Bytes) × σ) :=
  (readRequest.run R.limited.tee fuel (readRequest.start, (s, wrap64 (limit + 1)), [])).map
    fun out => (checkRequest limit out.2.2 out.1, out.2.1.1)

/-- `readClientHelloLimit`. `handshake` is `tls.Server` with the callback that captures the
hello. -/
def readClientHelloLimit (handshake : Consumer (Option Hello × Option String)) (R : Reader σ)
    (limit : ℤ) (fuel : ℕ) (s : σ) : Option (Except String (Option Hello) × σ) :=
  (handshake.run R.limited fuel (handshake.start, s, wrap64 (limit + 1))).map
    fun out => (capturedHello out.1, out.2.1)

def peekClientHelloLimit (handshake : Consumer (Option Hello × Option String)) (R : Reader σ)
    (limit : ℤ) (fuel : ℕ) (s : σ) : Option (Except String (Option Hello × Bytes) × σ) :=
  (readClientHelloLimit handshake R.limited.tee limit fuel ((s, wrap64 (limit + 1)), [])).map
    fun out => (checkHello limit out.2.2 out.1, out.2.1.1)

end

/-! ## The session -/

section
variable {σ ω : Type} (R : Reader σ) (W : Writer ω)

/-- The loop of `writeAll`; every round writes at least one byte. -/
def writeRounds : ℕ → Bytes → ω → (ℕ × Option StreamError) × ω
  | 0, _, w => ((0, none), w)
  | rounds + 1, data, w =>
    if data = [] then ((0, none), w)
    else
      let out := W.write w data
      match out.1.2 with
      | some e => ((out.1.1, some e), out.2)
      | none =>
        if out.1.1 = 0 then ((0, some .shortWrite), out.2)
        else
          let rest := writeRounds rounds (data.drop out.1.1) out.2
          ((out.1.1 + rest.1.1, rest.1.2), rest.2)

def writeAll (data : Bytes) (w : ω) : (ℕ × Option StreamError) × ω :=
  writeRounds W data.length data w

/-- What `runConnectionSession` sends from the client to the backend: the prefix, and then
everything that is still to come. -/
def clientToBackend (pre : Bytes) (fuel : ℕ) (s : σ) (w : ω) :
    Option ((ℕ × Option StreamError) × σ × ω) :=
  let out := if pre = [] then ((0, none), w) else writeAll W pre w
  match out.1.2 with
  | some e => some ((out.1.1, some e), s, out.2)
  | none => copy R W fuel out.1.1 s out.2

variable {R W}

theorem writeRounds_sent {rounds : ℕ} {data : Bytes} (hrounds : data.length ≤ rounds) (w : ω) :
    Sent data (W.received w) (writeRounds W rounds data w).1.2 []
      (W.received (writeRounds W rounds data w).2) := by
  induction rounds generalizing data w with
  | zero =>
    rw [List.length_eq_zero_iff.mp (Nat.le_zero.mp hrounds)]
    exact ⟨[], List.nil_prefix, by simp [writeRounds], fun _ => rfl⟩
  | succ rounds ih =>
    have hreceived := W.received_eq w data
    simp only [writeRounds]
    split
    · rename_i hempty
      exact ⟨[], List.nil_prefix, by simp, by simp [hempty]⟩
    · split
      · exact .of_take hreceived _
      · split
        · exact .of_take hreceived _
        · rename_i hcount
          have hlength : (data.drop (W.write w data).1.1).length ≤ rounds := by
            rw [List.length_drop]
            omega
          have hsent := Sent.after hreceived (ih hlength (W.write w data).2)
          rwa [List.take_append_drop] at hsent

theorem clientToBackend_sent {pre : Bytes} {fuel n : ℕ} {s s' : σ} {w w' : ω}
    {err : Option StreamError} (h : clientToBackend R W pre fuel s w = some ((n, err), s', w')) :
    Sent (pre ++ R.unread s) (W.received w) err (R.unread s') (W.received w') := by
  have hpre : Sent pre (W.received w)
      (if pre = [] then ((0, none), w) else writeAll W pre w).1.2 []
      (W.received (if pre = [] then ((0, none), w) else writeAll W pre w).2) := by
    split
    · rename_i hempty
      exact ⟨[], List.nil_prefix, by simp, by simp [hempty]⟩
    · exact writeRounds_sent (Nat.le_refl _) w
  obtain ⟨part, hpart, hreceived, hall⟩ := hpre
  simp only [clientToBackend] at h
  split at h
  · -- the prefix was not written whole
    cases h
    exact ⟨part, hpart.trans (List.prefix_append pre _), hreceived, fun hnone => by cases hnone⟩
  · rename_i hnone
    rw [show part = pre by simpa using hall hnone] at hreceived
    exact Sent.after hreceived (copy_sent h)

end

/-! ## Transparency -/

/-- The prefix is within the limit, the prefix and the unread bytes are the client's stream,
and whatever a session sends is the stream from its first byte on. -/
structure Transparent {σ : Type} (R : Reader σ) (limit : ℤ) (s : σ) (pre : Bytes) (s' : σ) :
    Prop where
  bounded : pre.length ≤ limit
  whole : pre ++ R.unread s' = R.unread s
  forwarded : ∀ (ω : Type) (W : Writer ω) (w w' : ω) (fuel n : ℕ) (err : Option StreamError)
    (s'' : σ), clientToBackend R W pre fuel s' w = some ((n, err), s'', w') →
      Sent (R.unread s) (W.received w) err (R.unread s'') (W.received w')

section
variable {σ Hello : Type} {R : Reader σ} {limit : ℤ} {fuel : ℕ} {s s' : σ} {pre : Bytes}

theorem Transparent.of_whole (hbounded : pre.length ≤ limit)
    (hwhole : pre ++ R.unread s' = R.unread s) : Transparent R limit s pre s' where
  bounded := hbounded
  whole := hwhole
  forwarded _ _ _ _ _ _ _ _ h := hwhole ▸ clientToBackend_sent h

/-- The buffer of the tee and what is left of the connection stay the client's stream. -/
theorem teed_whole (stream : Bytes) (t : (σ × ℤ) × Bytes) (n : ℕ)
    (h : t.2 ++ R.unread t.1.1 = stream) :
    (R.limited.tee.read t n).2.2 ++ R.unread (R.limited.tee.read t n).2.1.1 = stream :=
  (R.limited.tee_whole t n).trans h

theorem peekHTTPHostLimit_transparent {readRequest : Consumer (Except String Request)}
    {host : String}
    (h : peekHTTPHostLimit readRequest R limit fuel s = some (.ok (host, pre), s')) :
    Transparent R limit s pre s' := by
  obtain ⟨out, hrun, hout⟩ := Option.map_eq_some_iff.mp h
  have hwhole := Consumer.run_inv (teed_whole (R.unread s)) hrun (List.nil_append _)
  obtain ⟨hresult, rfl⟩ := Prod.mk.inj hout
  simp only [checkRequest, bind_eq_ok, require_eq_ok, pure_eq_ok, decide_eq_true_eq] at hresult
  obtain ⟨request, -, _, hlimit, _, -, hpair⟩ := hresult
  obtain ⟨-, rfl⟩ := Prod.mk.inj hpair
  exact .of_whole hlimit hwhole

theorem peekClientHelloLimit_transparent {handshake : Consumer (Option Hello × Option String)}
    {hello : Option Hello}
    (h : peekClientHelloLimit handshake R limit fuel s = some (.ok (hello, pre), s')) :
    Transparent R limit s pre s' := by
  obtain ⟨read, hread, hout⟩ := Option.map_eq_some_iff.mp h
  obtain ⟨out, hrun, rfl⟩ := Option.map_eq_some_iff.mp hread
  have hwhole := Consumer.run_inv (Reader.limited_inv (teed_whole (R.unread s))) hrun
    (List.nil_append _)
  obtain ⟨hresult, rfl⟩ := Prod.mk.inj hout
  simp only [checkHello, bind_eq_ok, require_eq_ok, pure_eq_ok, decide_eq_true_eq] at hresult
  obtain ⟨_, -, _, hlimit, hpair⟩ := hresult
  obtain ⟨-, rfl⟩ := Prod.mk.inj hpair
  exact .of_whole hlimit hwhole

end

/-- Neither sniffer loses, repeats or reorders a byte. -/
theorem sniffing_transparent {σ : Type} (R : Reader σ) (limit : ℤ) (fuel : ℕ) (s s' : σ)
    (pre : Bytes) :
    (∀ (readRequest : Consumer (Except String Request)) (host : String),
      peekHTTPHostLimit readRequest R limit fuel s = some (.ok (host, pre), s') →
      Transparent R limit s pre s') ∧
    (∀ (Hello : Type) (handshake : Consumer (Option Hello × Option String))
      (hello : Option Hello),
      peekClientHelloLimit handshake R limit fuel s = some (.ok (hello, pre), s') →
      Transparent R limit s pre s') :=
  ⟨fun _ _ h => peekHTTPHostLimit_transparent h, fun _ _ _ h => peekClientHelloLimit_transparent h⟩

/-- A parser that is content with one read. -/
def oneRead {α : Type} (n : ℕ) (a : α) : Consumer α where
  State := Bool
  start := false
  next q := if q then .done a else .read n
  feed _ _ := true

/-- Three bytes in two segments. -/
def twoSegments : Conn :=
  ⟨[⟨[71, 69], List.cons_ne_nil _ _⟩, ⟨[84], List.cons_ne_nil _ _⟩], .eof⟩

theorem sniffing_transparent_segments :
    Transparent Conn.reader 2 twoSegments [71, 69] ⟨[⟨[84], List.cons_ne_nil _ _⟩], .eof⟩ ∧
    Transparent Conn.reader 2 twoSegments [71]
      ⟨[⟨[69], List.cons_ne_nil _ _⟩, ⟨[84], List.cons_ne_nil _ _⟩], .eof⟩ :=
  ⟨(sniffing_transparent Conn.reader 2 2 _ _ _).1 (oneRead 4096 (.ok ⟨"example.com"⟩))
      "example.com" rfl,
    (sniffing_transparent Conn.reader 2 2 _ _ _).2 String (oneRead 1 (some "example.com", none))
      (some "example.com") rfl⟩

end SakhtarWg.Proxy
