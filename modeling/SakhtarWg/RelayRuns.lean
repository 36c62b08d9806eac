import SakhtarWg.Relay
import SakhtarWg.Sniff

/-!
# What a relayed session delivers

In every interleaving of the two copies, the watcher and the session itself each side gets a
first part of what the other side sends, a write side is shut down only after everything, and the
result counts what was delivered.
-/

namespace SakhtarWg.Relaying
open Streams Proxy

/-! ## One direction -/

/-- What is missing at the sink is held by the copy or unread, unless there was an error. -/
def Flow.Fits (f : Flow) (whole : Bytes) : Prop :=
  match f.copier with
  | .idle => f.count = 0 ∧ f.received ++ f.pre ++ f.unread = whole
  | .reading => f.received ++ f.unread = whole
  | .writing data ending =>
    f.received ++ data ++ f.unread = whole ∧ (ending = some .eof → f.unread = [])
  | .halfClosing | .reporting none | .reported none => f.received = whole
  | .reporting (some _) | .reported (some _) => True

/-- The sink has a first part of the whole; the copy has sent it all but for `base` bytes. -/
structure Flow.Sound (f : Flow) (whole : Bytes) (base : ℕ) : Prop where
  sent : f.received <+: whole
  count : f.received.length = base + f.count
  fits : f.Fits whole
  shut : f.shut = true → f.received = whole

/-- The copy is not started or is over. -/
def Flow.Quiet (f : Flow) : Prop := f.copier = .idle ∨ ∃ err, f.copier = .reported err

/-- The result that a copy has sent. -/
def Flow.reports (f : Flow) (d : Bool) : List DirectionResult :=
  match f.copier with
  | .reported err => [⟨d, f.count, err⟩]
  | _ => []

section
variable {f : Flow} {sourceClosed sinkClosed : Bool} {n : ℕ} {received data rest whole : Bytes}
  {base : ℕ} {ending : Option ReadEnd} {e : CopyEvent}

/-- The first of the bytes that are held go to the sink. -/
theorem moved (h : received ++ data ++ rest = whole) :
    received ++ data.take n ++ (data.drop n ++ rest) = whole := by
  rw [← h, List.append_assoc, ← List.append_assoc (data.take n), List.take_append_drop,
    List.append_assoc]

/-- Nothing is written to a sink that has everything. -/
theorem moved_whole (h : received ++ data ++ rest = whole) (hall : received = whole) :
    received ++ data.take n = whole := by
  rw [← hall, List.append_assoc] at h
  rw [(List.append_eq_nil_iff.mp (List.append_right_eq_self.mp h)).1, List.take_nil,
    List.append_nil, hall]

theorem Flow.fits_afterData (hf : f.copier = afterData ending)
    (hrest : f.received ++ f.unread = whole) (heof : ending = some .eof → f.unread = []) : f.Fits whole := by
  unfold Flow.Fits
  rw [hf]
  rcases ending with _ | _ | e
  · exact hrest
  · rw [heof rfl, List.append_nil] at hrest
    exact hrest
  · trivial

theorem canWrite_le {err : Option RelayError} (h : canWrite sinkClosed data n err = true) :
    n ≤ data.length := by
  simp only [canWrite, Bool.and_eq_true, decide_eq_true_eq] at h
  exact h.1

/-- A read that the copy has made. -/
theorem Flow.Sound.read (hf : f.Sound whole base) (h : f.copier = .reading)
    (hcan : canRead sourceClosed f.unread n ending = true) :
    Flow.Sound { f with
      unread := f.unread.drop n
      copier := if n = 0 then afterData ending else .writing (f.unread.take n) ending }
      whole base := by
  have hrest : f.received ++ f.unread = whole := by simpa [Flow.Fits, h] using hf.fits
  have heof : ending = some .eof → f.unread.drop n = [] := by
    rintro rfl
    simp only [canRead, Bool.and_eq_true, decide_eq_true_eq] at hcan
    rw [hcan.2, List.drop_length]
  refine ⟨hf.sent, hf.count, ?_, hf.shut⟩
  by_cases hn : n = 0
  · subst hn
    exact Flow.fits_afterData rfl hrest heof
  · simp only [Flow.Fits, if_neg hn]
    rw [List.append_assoc, List.take_append_drop]
    exact ⟨hrest, heof⟩

/-- A write that the copy has made. -/
theorem Flow.Sound.write {err : Option RelayError} (hf : f.Sound whole base)
    (h : f.copier = .writing data ending) (hcan : canWrite sinkClosed data n err = true) :
    Flow.Sound { f with
      received := f.received ++ data.take n
      count := f.count + n
      copier := afterWrite data ending n err } whole base := by
  have hle := canWrite_le hcan
  obtain ⟨hrest, heof⟩ : f.received ++ data ++ f.unread = whole ∧
      (ending = some .eof → f.unread = []) := by simpa [Flow.Fits, h] using hf.fits
  refine ⟨⟨_, moved hrest⟩, ?_, ?_, fun hshut => moved_whole hrest (hf.shut hshut)⟩
  · simp only [List.length_append, List.length_take_of_le hle, hf.count]
    omega
  · cases err with
    | some e => trivial
    | none =>
      by_cases hn : n = data.length
      · refine Flow.fits_afterData (if_pos hn) ?_ heof
        rw [hn, List.take_length]
        exact hrest
      · simp only [Flow.Fits, afterWrite, if_neg hn]

/-- A write before the copy starts. -/
theorem Flow.Sound.writePre (hf : f.Sound whole base) (h : f.copier = .idle)
    (hle : n ≤ f.pre.length) :
    (f.writePre n).Sound whole (base + n) := by
  obtain ⟨hcount, hrest⟩ : f.count = 0 ∧ f.received ++ f.pre ++ f.unread = whole := by
    simpa only [Flow.Fits, h] using hf.fits
  refine ⟨⟨_, moved hrest⟩, ?_, ?_, fun hshut => moved_whole hrest (hf.shut hshut)⟩
  · simp only [Flow.writePre, List.length_append, List.length_take_of_le hle, hf.count]
    omega
  · simp only [Flow.Fits, Flow.writePre, h]
    rw [List.append_assoc]
    exact ⟨hcount, moved hrest⟩

theorem Flow.Sound.step (hf : f.Sound whole base) :
    (f.step sourceClosed sinkClosed e).Sound whole base := by
  unfold Flow.step
  split
  · next h =>
    split
    · next hcan => exact hf.read h hcan
    · exact hf
  · next h =>
    split
    · next hcan => exact hf.write h hcan
    · exact hf
  · next h =>
    have hall : f.received = whole := by simpa [Flow.Fits, h] using hf.fits
    exact ⟨hf.sent, hf.count, hall, fun _ => hall⟩
  · exact hf

theorem Flow.step_quiet (h : f.Quiet) : f.step sourceClosed sinkClosed e = f := by
  rcases h with h | ⟨err, h⟩ <;> simp [Flow.step, h]

/-- A copy reports in a step of its own. -/
theorem Flow.reports_step (d : Bool) :
    (f.step sourceClosed sinkClosed e).reports d = f.reports d := by
  unfold Flow.step
  split
  · next n ending h =>
    split
    · rcases ending with _ | _ | _ <;> by_cases n = 0 <;> simp_all [Flow.reports, afterData]
    · rfl
  · next data ending n err h =>
    split
    · rcases ending with _ | _ | _ <;> cases err <;> by_cases n = data.length <;>
        simp_all [Flow.reports, afterData, afterWrite]
    · rfl
  · next h => simp [Flow.reports, h]
  · rfl

end

/-! ## The session -/

/-- The results of directions that the session has received. -/
def MainState.taken : MainState → List DirectionResult
  | .failing first | .awaitingSecond first => [first]
  | .tallying first second => [first, second]
  | _ => []

def reports (flow : Bool → Flow) : List DirectionResult :=
  (flow true).reports true ++ (flow false).reports false

/-- The result says what was delivered, and that everything was if it says completed. -/
structure Settled (whole : Bool → Bytes) (flow : Bool → Flow) (result : ConnectionSessionResult) :
    Prop where
  quiet : ∀ d, (flow d).Quiet
  bytes : result.clientBytes = (flow true).received.length ∧
    result.backendBytes = (flow false).received.length
  completed : result.outcome = .completed → ∀ d, (flow d).received = whole d

/-- What the state of the session says about its directions. -/
def MainState.Fits (whole : Bool → Bytes) (flow : Bool → Flow) (results : List DirectionResult) :
    MainState → Prop
  | .writing => (∀ d, (flow d).copier = .idle) ∧ (flow false).pre = [] ∧ results = []
  | .leaving result | .closing result | .returned result => Settled whole flow result
  | m => (m.taken ++ results).Perm (reports flow)

structure Sound (whole : Bool → Bytes) (r : Relay) : Prop where
  flows : ∀ d, (r.flow d).Sound (whole d) (sides r.clientBytes 0 d)
  stage : r.main.Fits whole r.flow r.results
  half : r.once ≠ .fresh → r.closed true = true
  closed : r.once = .finished → r.closed false = true
  returned : ∀ result, r.main = .returned result → r.once = .finished

variable {whole : Bool → Bytes} {flow : Bool → Flow} {results : List DirectionResult} {r : Relay}

/-- An error is never taken for completion. -/
theorem sessionOutcome_ne (cancelled : Bool) (e : RelayError) :
    sessionOutcome cancelled e ≠ .completed := by
  grind [sessionOutcome]

/-- The session gives up before the copies are started. -/
theorem Settled.early {bytes : ℕ} {cancelled : Bool}
    (hflows : ∀ d, (flow d).Sound (whole d) (sides bytes 0 d))
    (hidle : ∀ d, (flow d).copier = .idle) (e : RelayError) : Settled whole flow ⟨bytes, 0, 0, sessionOutcome cancelled e⟩ := by
  have hbytes : ∀ d, sides bytes 0 d = (flow d).received.length := by
    intro d
    have hfits := (hflows d).fits
    simp only [Flow.Fits, hidle d] at hfits
    rw [(hflows d).count, hfits.1, Nat.add_zero]
  exact ⟨fun d => .inl (hidle d), ⟨hbytes true, hbytes false⟩,
    fun h => absurd h (sessionOutcome_ne _ e)⟩

/-- A copy that is under way moves, and may report. -/
theorem MainState.Fits.move {m : MainState} {more : List DirectionResult}
    (h : m.Fits whole flow results) {d : Bool} {f : Flow} (hq : ¬(flow d).Quiet)
    (hmore : (reports flow ++ more).Perm (reports (Function.update flow d f))) :
    m.Fits whole (Function.update flow d f) (results ++ more) := by
  cases m with
  | writing => exact absurd (.inl (h.1 d)) hq
  | leaving _ | closing _ | returned _ => exact absurd (h.quiet d) hq
  | _ =>
    change (_ ++ (results ++ more)).Perm _
    rw [← List.append_assoc]
    exact (h.append_right _).trans hmore

/-- Two results that were sent are those of the two directions, in some order. -/
theorem reports_two {first second : DirectionResult}
    (h : ([first, second] ++ results).Perm (reports flow)) :
    ∃ err : Bool → Option RelayError, (∀ d, (flow d).copier = .reported (err d)) ∧
      ∃ d, first = ⟨d, (flow d).count, err d⟩ ∧ second = ⟨!d, (flow !d).count, err !d⟩ := by
  have hlength := h.length_eq
  unfold reports Flow.reports at h hlength
  cases ha : (flow true).copier with
  | reported a =>
    cases hb : (flow false).copier with
    | reported b =>
      simp only [ha, hb] at h hlength
      obtain rfl : results = [] := List.eq_nil_of_length_eq_zero (by simpa using hlength)
      refine ⟨sides a b, Bool.forall_bool.mpr ⟨hb, ha⟩, ?_⟩
      rcases List.mem_pair.mp (h.subset (List.mem_cons_self ..)) with rfl | rfl
      · exact ⟨true, rfl, by simpa [sides] using (List.perm_cons _).mp h⟩
      · exact ⟨false, rfl, by simpa [sides] using (List.perm_cons _).mp (h.trans (.swap ..))⟩
    | _ => simp [ha, hb] at hlength
  | _ => cases hb : (flow false).copier <;> simp [ha, hb] at hlength

theorem addDirection_completed {cancelled : Bool} {result : ConnectionSessionResult}
    {copied : DirectionResult} (h : (addDirection cancelled result copied).outcome = .completed) :
    copied.err = none ∧ result.outcome = .completed := by
  unfold addDirection at h
  cases herr : copied.err with
  | none => exact ⟨rfl, by simpa [herr] using h⟩
  | some e => exact absurd (by simpa [herr] using h) (sessionOutcome_ne cancelled e)

namespace Sound
variable (hs : Sound whole r)
include hs

/-- The session moves on and the directions stay. -/
theorem goto {finished : Bool} {m : MainState}
    (hstage : m.Fits whole r.flow results)
    (hreturned : ∀ result, m = .returned result → r.once = .finished) :
    Sound whole { r with finished := finished, results := results, main := m } :=
  ⟨hs.flows, hstage, hs.half, hs.closed, hreturned⟩

theorem closeStep : Sound whole r.closeStep := by
  unfold Relay.closeStep
  split
  · next h =>
    refine ⟨hs.flows, hs.stage, fun _ => rfl, nofun,
      fun result hresult => ?_⟩
    rw [hs.returned result hresult] at h
    cases h
  · next h =>
    exact ⟨hs.flows, hs.stage, fun _ => hs.half (by simp [h]), fun _ => rfl, fun _ _ => rfl⟩
  · exact hs

theorem copyStep (d : Bool) (e : CopyEvent) : Sound whole (r.copyStep d e) := by
  -- what is shown of the direction that moves, for both of them
  have hset : ∀ {f}, f.Sound (whole d) (sides r.clientBytes 0 d) →
      ∀ d', (Function.update r.flow d f d').Sound (whole d') (sides r.clientBytes 0 d') := by
    intro f hf
    exact (Function.forall_update_iff r.flow fun d' f => f.Sound (whole d')
      (sides r.clientBytes 0 d')).mpr ⟨hf, fun d' _ => hs.flows d'⟩
  unfold Relay.copyStep
  split
  · next err h =>
    refine ⟨hset ⟨(hs.flows d).sent, (hs.flows d).count, ?_, (hs.flows d).shut⟩,
      hs.stage.move (by simp [Flow.Quiet, h]) ?_, hs.half, hs.closed, hs.returned⟩
    · have hfits := (hs.flows d).fits
      unfold Flow.Fits at hfits ⊢
      rw [h] at hfits
      cases err <;> exact hfits
    · cases d <;> simp [reports, Flow.reports, h]
  · next e _ =>
    by_cases hq : (r.flow d).Quiet
    · rw [Flow.step_quiet hq, Relay.setFlow, Function.update_eq_self]
      exact hs
    · refine ⟨hset (hs.flows d).step, ?_, hs.half, hs.closed, hs.returned⟩
      rw [← List.append_nil (Relay.results _)]
      apply hs.stage.move hq
      cases d <;> simp [reports, Flow.reports_step]

theorem watchStep (preferDone : Bool) : Sound whole (r.watchStep preferDone) := by
  have hwatcher : ∀ w, Sound whole { r with watcher := w } := fun _ =>
    ⟨hs.flows, hs.stage, hs.half, hs.closed, hs.returned⟩
  unfold Relay.watchStep
  split
  · split
    · exact hwatcher .finished
    · split
      · exact hwatcher .closing
      · exact hs
  · split
    · exact hwatcher .finished
    · exact hs.closeStep
  · exact hs

/-- The copies are started when everything that was read before is written. -/
theorem launch (hmain : r.main = .writing) (hpre : (r.flow true).pre = []) :
    Sound whole r.launch := by
  have hstage := hs.stage
  rw [hmain] at hstage
  refine ⟨fun d => ⟨(hs.flows d).sent, (hs.flows d).count, ?_, (hs.flows d).shut⟩, ?_, hs.half,
    hs.closed, nofun⟩
  · have hfits := (hs.flows d).fits
    simp only [Flow.Fits, hstage.1 d] at hfits
    change (r.flow d).received ++ (r.flow d).unread = whole d
    cases d <;> simpa [hpre, hstage.2.1] using hfits.2
  · change (_ ++ r.results).Perm _
    rw [hstage.2.2]
    exact List.Perm.refl []

theorem wroteStep (n : ℕ) (err : Option RelayError) (hmain : r.main = .writing) :
    Sound whole (r.wroteStep n err) := by
  have hstage := hs.stage
  rw [hmain] at hstage
  unfold Relay.wroteStep
  split
  · next hcan =>
    have hle := canWrite_le hcan.2
    have hflows : ∀ d, (Function.update r.flow true ((r.flow true).writePre n) d).Sound (whole d)
        (sides (r.clientBytes + n) 0 d) :=
      Bool.forall_bool.mpr ⟨hs.flows false, (hs.flows true).writePre (hstage.1 true) hle⟩
    have hidle : ∀ d, (Function.update r.flow true ((r.flow true).writePre n) d).copier = .idle :=
      Bool.forall_bool.mpr ⟨hstage.1 false, hstage.1 true⟩
    split
    · exact ⟨hflows, .early hflows hidle _, hs.half, hs.closed, nofun⟩
    · exact ⟨hflows, .early hflows hidle .shortWrite, hs.half, hs.closed, nofun⟩
    · exact ⟨hflows, ⟨hidle, hstage.2⟩, hs.half, hs.closed, nofun⟩
  · exact hs

/-- The result is made of the two directions, whichever came first. -/
theorem tally {first second : DirectionResult} (hmain : r.main = .tallying first second) :
    Settled whole r.flow (r.tally first second) := by
  have hstage := hs.stage
  rw [hmain] at hstage
  obtain ⟨err, hreported, d, rfl, rfl⟩ := reports_two hstage
  have hbackend := (hs.flows true).count
  have hclient := (hs.flows false).count
  refine ⟨fun d => .inr ⟨_, hreported d⟩, ?_, fun h d' => ?_⟩
  · rw [hbackend, hclient]
    cases d <;> simp [Relay.tally, addDirection, sides]
  · -- completed means that neither direction had an error
    have hsecond := addDirection_completed h
    have hfirst := addDirection_completed hsecond.2
    have hnone : err d' = none := by
      by_cases hd : d' = d
      · rw [hd]
        exact hfirst.1
      · rw [Bool.eq_not_of_ne hd]
        exact hsecond.1
    have hfits := (hs.flows d').fits
    simp only [Flow.Fits, hreported d', hnone] at hfits
    exact hfits

theorem mainStep (elapsed : ℕ) : Sound whole (r.mainStep elapsed) := by
  have hstage := hs.stage
  unfold Relay.mainStep
  split
  · next hmain =>
    split
    · next hpre => exact hs.launch hmain hpre
    · exact hs
  · next first rest hmain hresults =>
    rw [hmain, hresults] at hstage
    split <;> exact hs.goto hstage nofun
  · next first hmain =>
    rw [hmain] at hstage
    split
    · exact hs.goto hstage nofun
    · exact hs.closeStep
  · next first second rest hmain hresults =>
    rw [hmain, hresults] at hstage
    exact hs.goto hstage nofun
  · next first second hmain =>
    exact hs.goto (hs.tally hmain) nofun
  · next result hmain =>
    rw [hmain] at hstage
    exact hs.goto ⟨hstage.quiet, hstage.bytes, hstage.completed⟩
      nofun
  · next result hmain =>
    rw [hmain] at hstage
    split
    · next hfinished => exact hs.goto hstage fun _ _ => hfinished
    · exact hs.closeStep
  · exact hs

/-- Every event keeps the session sound. -/
theorem step (e : RelayEvent) : Sound whole (r.step e) := by
  cases e with
  | cancel => exact ⟨hs.flows, hs.stage, hs.half, hs.closed, hs.returned⟩
  | close client =>
    refine ⟨hs.flows, hs.stage, fun h => ?_, fun h => ?_, hs.returned⟩
    · cases client <;> simp [Relay.step, Relay.close, hs.half h]
    · cases client <;> simp [Relay.step, Relay.close, hs.closed h]
  | copy d e => exact hs.copyStep d e
  | watch preferDone => exact hs.watchStep preferDone
  | wrote n err =>
    simp only [Relay.step]
    split
    · next hmain => exact hs.wroteStep n err hmain
    · exact hs
  | main elapsed => exact hs.mainStep elapsed

theorem run (events : List RelayEvent) : Sound whole (r.run events) := by
  induction events generalizing r with
  | nil => exact hs
  | cons e events ih => exact ih (hs.step e)

end Sound

theorem connected_sound (pre : Bytes) (source : Bool → Bytes) (halfCloser : Bool → Bool) :
    Sound (fun d => sides pre [] d ++ source d) (connected pre source halfCloser) := by
  refine ⟨fun d => ⟨List.nil_prefix, ?_, ⟨rfl, rfl⟩, nofun⟩,
    ⟨fun _ => rfl, rfl, rfl⟩, fun h => absurd rfl h, nofun, nofun⟩
  cases d <;> rfl

/-! ## Delivery -/

/-- Each side has received a first part of what the other side sends, all of it if its write side
was shut down. The session returns with both connections closed, no copy under way and the counts
of what was delivered, and as completed only if that was everything. -/
structure Delivered (whole : Bool → Bytes) (r : Relay) : Prop where
  sent : ∀ d, (r.flow d).received <+: whole d
  shut : ∀ d, (r.flow d).shut = true → (r.flow d).received = whole d
  returned : ∀ result, r.main = .returned result →
    (∀ client, r.closed client = true) ∧ Settled whole r.flow result

theorem Sound.delivered (hs : Sound whole r) : Delivered whole r := by
  refine ⟨fun d => (hs.flows d).sent, fun d => (hs.flows d).shut, fun result h => ⟨?_, ?_⟩⟩
  · have hfinished := hs.returned result h
    exact Bool.forall_bool.mpr ⟨hs.closed hfinished, hs.half (by simp [hfinished])⟩
  · have hstage := hs.stage
    rw [h] at hstage
    exact hstage

/-- A handler has learned the host of a connection and is left with its first bytes. -/
def Sniffed {σ : Type} (R : Reader σ) (limit : ℤ) (fuel : ℕ) (s : σ) (pre : Bytes) (s' : σ) :
    Prop :=
  (∃ readRequest host,
    peekHTTPHostLimit readRequest R limit fuel s = some (.ok (host, pre), s')) ∨
  ∃ (Hello : Type) (handshake : Consumer (Option Hello × Option String)) (hello : Option Hello),
    peekClientHelloLimit handshake R limit fuel s = some (.ok (hello, pre), s')

/-- From the first byte of the connection on, the backend gets what the client sends and the client
what the backend sends, whatever the connections, the context and the scheduler do. -/
theorem session_transparent {σ : Type} {R : Reader σ} {limit : ℤ} {fuel : ℕ} {s s' : σ}
    {pre : Bytes} (hsniffed : Sniffed R limit fuel s pre s') (fromBackend : Bytes) (halfCloser : Bool → Bool)
    (events : List RelayEvent) :
    Delivered (sides (R.unread s) fromBackend)
      ((connected pre (sides (R.unread s') fromBackend) halfCloser).run events) := by
  have hpre : pre ++ R.unread s' = R.unread s := by
    rcases hsniffed with ⟨_, _, h⟩ | ⟨_, _, _, h⟩
    · exact (peekHTTPHostLimit_transparent h).whole
    · exact (peekClientHelloLimit_transparent h).whole
  have hwhole : sides (R.unread s) fromBackend =
      fun d => sides pre [] d ++ sides (R.unread s') fromBackend d := by
    funext d
    cases d with
    | true => exact hpre.symm
    | false => rfl
  rw [hwhole]
  exact ((connected_sound pre _ halfCloser).run events).delivered

/-- Both directions end, the client's first, and everything is delivered. -/
def orderlyEvents : List RelayEvent :=
  [.wrote 2 none, .main 0, .copy true (.read 1 (some .eof)), .copy true (.write 1 none),
    .copy true .next, .copy true .next, .main 1, .copy false (.read 2 (some .eof)),
    .copy false (.write 2 none), .copy false .next, .copy false .next, .main 2, .main 3,
    .main 4, .main 5, .main 6, .main 7]

theorem session_transparent_orderly :
    ((connected [71, 69] (sides [84] [79, 75]) fun _ => true).run orderlyEvents).main =
        .returned ⟨3, 2, 4, .completed⟩ ∧
      Delivered (sides [71, 69, 84] [79, 75])
        ((connected [71, 69] (sides [84] [79, 75]) fun _ => true).run orderlyEvents) := by
  have hsniffed : Sniffed Conn.reader 2 2 twoSegments [71, 69]
      ⟨[⟨[84], List.cons_ne_nil _ _⟩], .eof⟩ :=
    .inl ⟨oneRead 4096 (.ok ⟨"example.com"⟩), "example.com", rfl⟩
  exact ⟨rfl, session_transparent hsniffed [79, 75] (fun _ => true) orderlyEvents⟩

end SakhtarWg.Relaying
