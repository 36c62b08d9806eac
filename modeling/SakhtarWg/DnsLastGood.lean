import SakhtarWg.DnsStale
import SakhtarWg.DnsAnswers

/-!
# Who carries the last good answer

A lookup that finds an expired answer takes it out of the shard and carries it to the
flight that it launches. While every flight of the key is launched by a call that carries
the answer, a failure of the resolver is covered for every call that shares the flight.
-/

namespace SakhtarWg.Dns
open Netip

variable {p : ValidPolicy}

/-! ## Runs of allowed steps -/

def Cache.runUnder (allowed : Cache p → Action → Bool) (c : Cache p) :
    List Action → Option (Cache p)
  | [] => some c
  | a :: rest => if allowed c a then (c.step a).bind fun c' => c'.runUnder allowed rest else none

theorem runUnder_inv {allowed : Cache p → Action → Bool} {I : Cache p → Prop}
    (hstep : ∀ c a c', I c → allowed c a = true → c.step a = some c' → I c')
    {actions : List Action} {c c' : Cache p} (h : I c)
    (hrun : c.runUnder allowed actions = some c') : I c' := by
  induction actions generalizing c with
  | nil =>
    cases hrun
    exact h
  | cons a actions ih =>
    simp only [Cache.runUnder, Option.ite_none_right_eq_some, Option.bind_eq_some_iff] at hrun
    obtain ⟨hok, d, hd, hrest⟩ := hrun
    exact ih (hstep c a d h hok hd) hrest

theorem runUnder_append {allowed : Cache p → Action → Bool} {first second : List Action}
    {c d c' : Cache p} (h : c.runUnder allowed first = some d)
    (h' : d.runUnder allowed second = some c') :
    c.runUnder allowed (first ++ second) = some c' := by
  induction first generalizing c with
  | nil =>
    cases h
    exact h'
  | cons a first ih =>
    simp only [Cache.runUnder, List.cons_append, Option.ite_none_right_eq_some,
      Option.bind_eq_some_iff] at h ⊢
    obtain ⟨hok, x, hx, hrest⟩ := h
    exact ⟨hok, x, hx, ih hrest⟩

/-- A flight of the key is launched by a call that carries this answer. -/
def launchesWith (k : Key) (r : Result) (deadline : ℤ) (c : Cache p) : Action → Bool
  | .start i now _ =>
    match c.calls[i]? with
    | some (.starting k' _ stale staleUntil _) =>
      k' ≠ k || !c.launches k now || (stale = r && staleUntil = deadline)
    | _ => true
  | _ => true

/-- A resolver call for the key fails transiently before the deadline. -/
def failsBefore (k : Key) (deadline : ℤ) (c : Cache p) : Action → Bool
  | .answer f answer now _ =>
    match c.heap[f]? with
    | some flight =>
      flight.key ≠ k ||
        ((p.normalizeResult (callResolver answer).1 (callResolver answer).2 now).1.rcode =
          .transient && now < deadline)
    | none => true
  | _ => true

def Action.cancels (i : ℕ) : Action → Bool
  | .cancel j _ => j = i
  | _ => false

/-! ## Flights that carry the answer -/

/-- A failure with the last good answer beside it. -/
structure Covered (r : Result) (deadline : ℤ) (entry : CacheEntry) : Prop where
  rcode : entry.result.rcode = .transient
  stale : entry.stale = r
  staleUntil : entry.staleUntil = deadline

/-- A flight that publishes the answer in place of a failure. -/
structure Carrying (r : Result) (deadline : ℤ) (x : Flight) : Prop where
  stale : x.stale = r
  staleUntil : x.staleUntil = deadline
  carried : ∀ entry now, x.carries entry now → Covered r deadline entry ∧ now < deadline
  closed : x.phase = .closed → x.result = r ∧ x.err = none

section
variable {r : Result} {deadline : ℤ}

theorem resolvedEntry_covered {p : Policy} {x : Flight} (hstale : x.stale = r)
    (huntil : x.staleUntil = deadline) (haddrs : r.addrs ≠ []) {answer : Answer} {now : ℤ}
    (hfail : (p.normalizeResult (callResolver answer).1 (callResolver answer).2 now).1.rcode =
      .transient) (hnow : now < deadline) :
    Covered r deadline (resolvedEntry p x answer now) := by
  subst hstale huntil
  simp only [resolvedEntry, hfail, reduceCtorEq, if_false, haddrs, hnow, ne_eq,
    not_false_eq_true, and_self, if_true]
  exact ⟨hfail, rfl, rfl⟩

theorem published_covered {p : Policy} (hpolicy : p.stalePolicy = .transient)
    (haddrs : r.addrs ≠ []) {x : Flight} {entry : CacheEntry} {now : ℤ}
    (h : Covered r deadline entry) (hnow : now < deadline) :
    (publishedFlight p x entry now).result = r ∧ (publishedFlight p x entry now).err = none := by
  have hserve : servesStale p entry now = true := by
    simp [servesStale, canServeStale, h.rcode, h.stale, h.staleUntil, hpolicy, haddrs, hnow]
  simp only [publishedFlight, hserve, if_true, h.stale, and_self]

theorem Carrying.move {p : Policy} (hpolicy : p.stalePolicy = .transient)
    (haddrs : r.addrs ≠ []) {f : ℕ} {x x' : Flight} {a : Action} (h : Carrying r deadline x)
    (hfail : ∀ answer now elapsed, a = .answer f answer now elapsed →
      (p.normalizeResult (callResolver answer).1 (callResolver answer).2 now).1.rcode =
        .transient ∧ now < deadline)
    (hmove : FlightMove p f x a x') : Carrying r deadline x' := by
  cases hmove with
  | stay => exact h
  | answer hphase =>
    obtain ⟨hrcode, hnow⟩ := hfail _ _ _ rfl
    refine ⟨h.stale, h.staleUntil, fun entry now' hc => ?_, fun hc => by cases hc⟩
    simp only [Flight.carries, Phase.inserting.injEq, reduceCtorEq, or_false] at hc
    rw [← hc.1, ← hc.2]
    exact ⟨resolvedEntry_covered h.stale h.staleUntil haddrs hrcode hnow, hnow⟩
  | insert hphase =>
    refine ⟨h.stale, h.staleUntil, fun entry now' hc => ?_, fun hc => by cases hc⟩
    simp only [Flight.carries, Phase.finishing.injEq, reduceCtorEq, false_or] at hc
    rw [← hc.1, ← hc.2]
    exact h.carried _ _ (.inl hphase)
  | finish hphase =>
    obtain ⟨hcovered, hnow⟩ := h.carried _ _ (.inr hphase)
    refine ⟨h.stale, h.staleUntil, fun entry now' hc => ?_, fun _ => ?_⟩
    · simp [Flight.carries, publishedFlight] at hc
    · exact published_covered hpolicy haddrs hcovered hnow

end

/-! ## What is left of the answer -/

section
variable (k : Key) (r : Result) (deadline : ℤ)

/-- A call that refreshes in the background hands out the answer. -/
def CallGood (c : Cache p) : Call → Prop
  | .starting k' _ stale _ refresh => k' = k → refresh = true → stale = r
  | .joined f stale refresh =>
      ∃ x, c.heap[f]? = some x ∧ (x.key = k → refresh = true → stale = r)
  | .taking _ _ _ | .waiting _ | .returned _ _ => True

/-- No other answer of the key is about: the entry is the answer or a failure that it covers,
and the flights carry it. `n` counts the calls that entered before. -/
structure LastGood (n : ℕ) (c : Cache p) : Prop where
  holds : Holds (fun k' e => k' = k → e.result = r ∨ Covered r deadline e)
    (fun x => x.key = k → x.phase ≠ .closed → Carrying r deadline x) c
  calls : ∀ (i : ℕ) call, n ≤ i → c.calls[i]? = some call → CallGood k r c call

/-- The call `i` waits for the flight `f` and gets the answer, or has got it. -/
structure Shares (i f : ℕ) (c : Cache p) : Prop where
  flight : ∃ x, c.heap[f]? = some x ∧ x.key = k ∧ Carrying r deadline x
  call : (∃ stale refresh, c.calls[i]? = some (.joined f stale refresh) ∧
      (refresh = true → stale = r)) ∨
    c.calls[i]? = some (.waiting f) ∨ c.calls[i]? = some (.returned r none)

end

section
variable {k : Key} {r : Result} {deadline : ℤ} {n : ℕ} {c c' : Cache p} {a : Action}

theorem lastGood_closed (p : Policy) :
    Closed p (fun k' e => k' = k → e.result = r ∨ Covered r deadline e)
      (fun x => x.key = k → x.phase ≠ .closed → Carrying r deadline x) where
  fresh k' q entry now _ _ hphase := absurd (freshFlight_phase p k' q entry now) hphase
  insert x entry now h hphase := by
    have hx : x.key = k → Carrying r deadline x := fun hk => h hk (by simp [hphase])
    refine ⟨fun hk => .inr ((hx hk).carried entry now (.inl hphase)).1, fun hk _ => ?_⟩
    refine ⟨(hx hk).stale, (hx hk).staleUntil, fun entry' now' hc => ?_, fun hc => by cases hc⟩
    simp only [Flight.carries, Phase.finishing.injEq, reduceCtorEq, false_or] at hc
    rw [← hc.1, ← hc.2]
    exact (hx hk).carried entry now (.inl hphase)
  finish x entry now _ _ _ hphase := absurd rfl hphase

theorem Taken.good {q : Query} {now : ℤ} {entry : CacheEntry} {found : Bool} {call : Call}
    (hpositive : r.rcode = .success) (h : Taken p.toPolicy k q now entry found call)
    (hentry : entry = {} ∨ entry.result = r ∨ Covered r deadline entry) (c : Cache p) :
    CallGood k r c call := by
  cases h with
  | hit | negative | stale | failed => trivial
  | expired | miss => exact fun _ hr => by cases hr
  | refresh hrcode hserve =>
    rcases hentry with rfl | rfl | hcovered
    · cases hrcode
    · rw [hpositive] at hrcode
      cases hrcode
    · exact fun _ _ => hcovered.stale

theorem Taken.other_key {k' : Key} {q : Query} {now : ℤ} {entry : CacheEntry} {found : Bool}
    {call : Call} (h : Taken p.toPolicy k' q now entry found call) (hne : k' ≠ k)
    (c : Cache p) : CallGood k r c call := by
  cases h with
  | hit | negative | stale | failed => trivial
  | expired | miss | refresh => exact fun hk => absurd hk hne

theorem FlightMove.key {p : Policy} {f : ℕ} {x x' : Flight} (h : FlightMove p f x a x') :
    x'.key = x.key := by
  cases h <;> rfl

theorem CallGood.stay (hmove : Move c a c') {call : Call} (h : CallGood k r c call) :
    CallGood k r c' call := by
  cases call with
  | taking | starting | waiting | returned => exact h
  | joined f stale refresh =>
    obtain ⟨x, hx, hgood⟩ := h
    obtain ⟨x', hx', hflight⟩ := hmove.flight hx
    exact ⟨x', hx', hflight.key ▸ hgood⟩

theorem CallMove.good (hboard : Board c) (hpositive : r.rcode = .success)
    (h : Holds (fun k' e => k' = k → e.result = r ∨ Covered r deadline e)
      (fun x => x.key = k → x.phase ≠ .closed → Carrying r deadline x) c)
    (hmove : Move c a c') {i : ℕ} {call call' : Call} (hcall : CallMove c c' i a call call')
    (hgood : CallGood k r c call) : CallGood k r c' call' := by
  cases hcall with
  | stay => exact hgood.stay hmove
  | @take k' _ _ _ _ _ _ htake hout =>
    by_cases hk : k' = k
    · subst hk
      apply hout.good hpositive
      rcases takeEntry_spec htake with ⟨-, hempty⟩ | ⟨hcached, -⟩
      · exact .inl hempty
      · exact .inr (h.cached _ _ hcached rfl)
    · exact hout.other_key hk c'
  | join hflight =>
    obtain ⟨x, hx, hkey, -⟩ := (hboard.live _ _).mp hflight
    obtain ⟨x', hx', hmoved⟩ := hmove.flight hx
    exact ⟨x', hx', fun hk => hgood (hkey ▸ hmoved.key ▸ hk)⟩
  | fresh hcached hheap =>
    refine ⟨_, hheap, fun hk => hgood ?_⟩
    rw [← hk]
    simp only [freshFlight]
    split_ifs <;> rfl
  | launch hflight hheap => exact ⟨_, hheap, hgood⟩
  | reject | ready | refresh | serve | wait | receive | cancel => trivial

theorem failsBefore_spec (hfail : failsBefore k deadline c a = true) {f : ℕ} {x : Flight}
    (hx : c.heap[f]? = some x) (hkey : x.key = k) (answer : Answer) (now elapsed : ℤ)
    (ha : a = .answer f answer now elapsed) :
    (p.normalizeResult (callResolver answer).1 (callResolver answer).2 now).1.rcode =
      .transient ∧ now < deadline := by
  subst ha
  simpa only [failsBefore, hx, hkey, ne_eq, not_true_eq_false, decide_false, Bool.false_or,
    Bool.and_eq_true, decide_eq_true_eq] using hfail

theorem LastGood.step (hpolicy : p.stalePolicy = .transient) (hpositive : r.rcode = .success)
    (haddrs : r.addrs ≠ []) (hboard : Board c) (h : LastGood k r deadline n c)
    (hlaunch : launchesWith k r deadline c a = true) (hfail : failsBefore k deadline c a = true)
    (hstep : c.step a = some c') : LastGood k r deadline n c' := by
  have hmove := step_move hstep
  refine ⟨h.holds.move (lastGood_closed p.toPolicy) hmove ?_ ?_, fun i call' hn hi => ?_⟩
  · intro i k' q stale staleUntil refresh now now' ha hcall hlaunches hk _
    subst ha hk
    simp only [launchesWith, hcall, hlaunches, ne_eq, not_true_eq_false, decide_false,
      Bool.not_true, Bool.false_or, Bool.and_eq_true, decide_eq_true_eq] at hlaunch
    exact ⟨hlaunch.1, hlaunch.2, fun entry now hc => by simp [Flight.carries] at hc,
      fun hc => by cases hc⟩
  · intro f x answer now elapsed ha hheap hphase hx hk _
    have hcarrying : Carrying r deadline x := hx hk (by simp [hphase])
    have hanswer : FlightMove p.toPolicy f x a
        { x with phase := .inserting (resolvedEntry p.toPolicy x answer now) now } := by
      rw [ha]
      exact .answer hphase
    exact hcarrying.move hpolicy haddrs (failsBefore_spec hfail hheap hk) hanswer
  · rcases hmove.call_of hi with ⟨call, hold, hcall⟩ | ⟨-, ⟨e, rfl⟩ | ⟨k', q, now, rfl⟩⟩
    · exact hcall.good hboard hpositive h.holds hmove (h.calls i call hn hold)
    · trivial
    · trivial

theorem Shares.step (hpolicy : p.stalePolicy = .transient) (haddrs : r.addrs ≠ []) {i f : ℕ}
    (h : Shares k r deadline i f c) (hfail : failsBefore k deadline c a = true)
    (hcancel : a.cancels i = false) (hstep : c.step a = some c') :
    Shares k r deadline i f c' := by
  have hmove := step_move hstep
  obtain ⟨x, hx, hkey, hcarrying⟩ := h.flight
  obtain ⟨x', hx', hflight⟩ := hmove.flight hx
  have hcarrying' : Carrying r deadline x' :=
    hcarrying.move hpolicy haddrs (failsBefore_spec hfail hx hkey) hflight
  refine ⟨⟨x', hx', hflight.key.trans hkey, hcarrying'⟩, ?_⟩
  rcases h.call with ⟨stale, refresh, hi, hgood⟩ | hi | hi
  · obtain ⟨call', hi', hcall⟩ := hmove.call hi
    rw [hi']
    cases hcall with
    | stay => exact .inl ⟨stale, refresh, rfl, hgood⟩
    | ready hheap hphase =>
      rw [hx] at hheap
      cases hheap
      obtain ⟨hresult, herr⟩ := hcarrying.closed hphase
      exact .inr (.inr (by rw [hresult, herr]))
    | refresh => exact .inr (.inr (by rw [hgood rfl]))
    | serve hheap =>
      rw [hx] at hheap
      cases hheap
      exact .inr (.inr (by rw [hcarrying.stale]))
    | wait => exact .inr (.inl rfl)
  · obtain ⟨call', hi', hcall⟩ := hmove.call hi
    rw [hi']
    cases hcall with
    | stay => exact .inr (.inl rfl)
    | receive hheap hphase =>
      rw [hx] at hheap
      cases hheap
      obtain ⟨hresult, herr⟩ := hcarrying.closed hphase
      exact .inr (.inr (by rw [hresult, herr]))
    | cancel => simp [Action.cancels] at hcancel
  · obtain ⟨call', hi', hcall⟩ := hmove.call hi
    rw [hi']
    cases hcall
    exact .inr (.inr rfl)

/-- A call that shares the flight has the answer, or gets it with its next step once the flight
is over. -/
theorem Shares.served {i f : ℕ} (h : Shares k r deadline i f c) :
    (∀ r' err, c.calls[i]? = some (.returned r' err) → r' = r ∧ err = none) ∧
      ((∃ x, c.heap[f]? = some x ∧ x.phase = .closed) →
        ∃ c', (c' = c ∨ c.step (.check i) = some c' ∨ c.step (.receive i) = some c') ∧
          c'.calls[i]? = some (.returned r none)) := by
  have hset : ∀ {call : Call} (call' : Call), c.calls[i]? = some call →
      (c.setCall i call').calls[i]? = some call' := by
    intro call call' hi
    simp only [Cache.setCall]
    rw [getElem?_replaced hi, if_pos rfl]
  refine ⟨fun r' err hi => ?_, fun hover => ?_⟩
  · rcases h.call with ⟨stale, refresh, hj, -⟩ | hj | hj <;> rw [hi] at hj <;> cases hj
    exact ⟨rfl, rfl⟩
  · obtain ⟨y, hy, hclosed⟩ := hover
    obtain ⟨x, hx, -, hcarrying⟩ := h.flight
    rw [hy] at hx
    cases hx
    obtain ⟨hresult, herr⟩ := hcarrying.closed hclosed
    rcases h.call with ⟨stale, refresh, hj, -⟩ | hj | hj
    · refine ⟨c.setCall i (.returned r none), .inr (.inl ?_), hset _ hj⟩
      simp [Cache.step, hj, hy, Cache.check, hclosed, hresult, herr]
    · refine ⟨c.setCall i (.returned r none), .inr (.inr ?_), hset _ hj⟩
      simp [Cache.step, hj, hy, hclosed, hresult, herr]
    · exact ⟨c, .inl rfl, hj⟩

/-- Nothing of the key is under way when the first call enters. -/
theorem LastGood.start {e : CacheEntry} (hboard : Board c) (hcached : c.cached k = some e)
    (hidle : c.flights.lookup k = none) : LastGood k e.result deadline c.calls.length c := by
  refine ⟨⟨fun k' e' he hk => ?_, fun f x hx hk hphase => ?_⟩, fun i call hn hi => ?_⟩
  · subst hk
    rw [hcached] at he
    cases he
    exact .inl rfl
  · have hlive := (hboard.live k f).mpr ⟨x, hx, hk, hphase⟩
    rw [hidle] at hlive
    cases hlive
  · have hlt := (List.getElem?_eq_some_iff.mp hi).1
    omega

end

/-- A call that has joined the flight of the key, in a run whose flights of the key carry the
answer. -/
theorem shares_of_joined {c₀ d c : Cache p} {k : Key} {e : CacheEntry} {before after : List Action}
    {i f : ℕ} {stale : Result} {refresh : Bool} (hreach : Cache.Reachable p c₀)
    (hpolicy : p.stalePolicy = .transient) (hcached : c₀.cached k = some e)
    (hpositive : e.result.rcode = .success) (hidle : c₀.flights.lookup k = none)
    (hbefore : c₀.runUnder (fun c a => launchesWith k e.result e.staleUntil c a &&
      failsBefore k e.staleUntil c a) before = some d)
    (hnew : c₀.calls.length ≤ i) (hjoined : d.calls[i]? = some (.joined f stale refresh))
    (hshared : d.flights.lookup k = some f)
    (hafter : d.runUnder (fun c a => failsBefore k e.staleUntil c a && !a.cancels i) after =
      some c) : Shares k e.result e.staleUntil i f c := by
  have haddrs : e.result.addrs ≠ [] := by
    rcases (hreach.formed.holds.cached k e hcached).result with (⟨-, h, -⟩ | ⟨h, -⟩) | ⟨h, -⟩
    · exact h
    · simp [hpositive] at h
    · simp [hpositive] at h
  obtain ⟨hboard, hgood⟩ : Board d ∧ LastGood k e.result e.staleUntil c₀.calls.length d := by
    refine runUnder_inv
      (I := fun c => Board c ∧ LastGood k e.result e.staleUntil c₀.calls.length c)
      (fun c a c' h hok hstep => ?_)
      ⟨hreach.board, LastGood.start hreach.board hcached hidle⟩ hbefore
    rw [Bool.and_eq_true] at hok
    exact ⟨h.1.move (step_move hstep),
      h.2.step hpolicy hpositive haddrs h.1 hok.1 hok.2 hstep⟩
  have hshares : Shares k e.result e.staleUntil i f d := by
    obtain ⟨x, hx, hkey, hphase⟩ := (hboard.live k f).mp hshared
    obtain ⟨x', hx', hstale⟩ := hgood.calls i _ hnew hjoined
    rw [hx] at hx'
    cases hx'
    exact ⟨⟨x, hx, hkey, hgood.holds.flights f x hx hkey hphase⟩,
      .inl ⟨stale, refresh, hjoined, hstale hkey⟩⟩
  refine runUnder_inv (fun c a c' h hok hstep => ?_) hshares hafter
  rw [Bool.and_eq_true, Bool.not_eq_true'] at hok
  exact h.step hpolicy haddrs hok.1 hok.2 hstep

/-! ## Calls that share a flight -/

/-- What `goodAnswer` leaves in the cache. -/
def lastGoodEntry : CacheEntry := { result := lastGood, staleUntil := 135 }

def aKey : Key := keyFor "a.example"

/-- A cache that holds the good answer, expired and within its window from 105 to 135. -/
def expiredAnswer : List Action :=
  enterAndStart (queryFor "a.example") 0 100 ++
    [.answer 0 goodAnswer 100 1, .insert 0 [] [], .finish 0, .check 0]

def timeout : Answer := .returned {} (some "timeout")

/-- A failure received at 112. -/
def failure : Result := { rcode := .transient, expiresAt := 114 }

/-- The same for a call that enters after another one was turned away. -/
theorem rejected_lookup_keeps_last_good {c₀ d₁ d₂ c : Cache p} {k : Key} {e : CacheEntry}
    {before later after : List Action} {i j f : ℕ} {stale : Result} {refresh : Bool}
    (hreach : Cache.Reachable p c₀) (hpolicy : p.stalePolicy = .transient)
    (hcached : c₀.cached k = some e) (hpositive : e.result.rcode = .success)
    (hidle : c₀.flights.lookup k = none)
    (hbefore : c₀.runUnder (fun c a => launchesWith k e.result e.staleUntil c a &&
      failsBefore k e.staleUntil c a) before = some d₁)
    (hnew : c₀.calls.length ≤ i)
    (hrejected : d₁.calls[i]? = some (.returned {} (some .pendingLimit)))
    (hlater : d₁.runUnder (fun c a => launchesWith k e.result e.staleUntil c a &&
      failsBefore k e.staleUntil c a) later = some d₂)
    (hentered : d₁.calls.length ≤ j) (hjoined : d₂.calls[j]? = some (.joined f stale refresh))
    (hshared : d₂.flights.lookup k = some f)
    (hafter : d₂.runUnder (fun c a => failsBefore k e.staleUntil c a && !a.cancels j) after =
      some c) :
    (∀ r err, c.calls[j]? = some (.returned r err) → r = e.result ∧ err = none) ∧
      ((∃ x, c.heap[f]? = some x ∧ x.phase = .closed) →
        ∃ c', (c' = c ∨ c.step (.check j) = some c' ∨ c.step (.receive j) = some c') ∧
          c'.calls[j]? = some (.returned e.result none)) := by
  have hlt : i < d₁.calls.length := (List.getElem?_eq_some_iff.mp hrejected).1
  exact (shares_of_joined hreach hpolicy hcached hpositive hidle (runUnder_append hbefore hlater)
    (by omega) hjoined hshared hafter).served

/-- Two other names fill the egress and one of the two lookups is turned away. The other one took
the answer; when a slot is free it launches the flight that a later call shares. -/
theorem rejected_lookup_keeps_last_good_later : ∃ c₀ d₁ d₂ c : Cache smallPolicy,
    c₀.cached aKey = some lastGoodEntry ∧
    d₁.calls[4]? = some (.returned {} (some .pendingLimit)) ∧
    d₂.calls[5]? = some (.joined 3 {} false) ∧
    ∃ r err, c.calls[5]? = some (.returned r err) ∧ r = lastGood ∧ err = none := by
  have hrun : (((newCache smallPolicy).run expiredAnswer).bind fun c₀ =>
      (c₀.runUnder (fun c a => launchesWith aKey lastGood 135 c a && failsBefore aKey 135 c a)
        (enterAndStart (queryFor "b.example") 1 110 ++ enterAndStart (queryFor "c.example") 2 110 ++
          [.resolve (queryFor "a.example") true 110, .take 3] ++
          enterAndStart (queryFor "a.example") 4 110)).bind fun d₁ =>
      (d₁.runUnder (fun c a => launchesWith aKey lastGood 135 c a && failsBefore aKey 135 c a)
        ([.answer 1 timeout 111 1, .insert 1 [] [], .finish 1, .start 3 111 111] ++
          enterAndStart (queryFor "a.example") 5 112)).bind fun d₂ =>
      (d₂.runUnder (fun c a => failsBefore aKey 135 c a && !a.cancels 5)
        [.check 5, .answer 3 timeout 113 1, .insert 3 [keyFor "b.example"] [], .finish 3,
          .receive 5]).map fun c =>
        decide (c₀.cached aKey = some lastGoodEntry ∧ c₀.flights.lookup aKey = none ∧
          c₀.calls.length = 1 ∧ d₁.calls[4]? = some (.returned {} (some .pendingLimit)) ∧
          d₁.calls.length = 5 ∧ d₂.calls[5]? = some (.joined 3 {} false) ∧
          d₂.flights.lookup aKey = some 3 ∧ c.calls[5]? = some (.returned lastGood none))) =
      some true := by
    decide +kernel
  obtain ⟨c₀, h₀, hrun⟩ := Option.bind_eq_some_iff.mp hrun
  obtain ⟨d₁, h₁, hrun⟩ := Option.bind_eq_some_iff.mp hrun
  obtain ⟨d₂, h₂, hrun⟩ := Option.bind_eq_some_iff.mp hrun
  obtain ⟨c, hc, hrun⟩ := Option.map_eq_some_iff.mp hrun
  rw [decide_eq_true_eq] at hrun
  obtain ⟨hcached, hidle, hlength, hrejected, hlength₁, hjoined, hshared, hcall⟩ := hrun
  have hserved := rejected_lookup_keeps_last_good (Cache.Reachable.new.run h₀) rfl hcached rfl hidle
    h₁ (by omega) hrejected h₂ (by omega) hjoined hshared hc
  exact ⟨c₀, d₁, d₂, c, hcached, hrejected, hjoined, _, _, hcall, hserved.1 _ _ hcall⟩

/-- The lookup that took the answer is turned away and drops it: the next one gets the error. -/
theorem rejected_lookup_loses_last_good : ∃ c₀ d c : Cache smallPolicy, ∃ err,
    Cache.Reachable smallPolicy c₀ ∧ smallPolicy.stalePolicy = .transient ∧
    c₀.cached aKey = some lastGoodEntry ∧ lastGood.expiresAt ≤ 110 ∧
    112 < lastGoodEntry.staleUntil ∧
    c₀.run (enterAndStart (queryFor "b.example") 1 110 ++
      enterAndStart (queryFor "c.example") 2 110 ++
      enterAndStart (queryFor "a.example") 3 110) = some d ∧
    d.calls[3]? = some (.returned {} (some .pendingLimit)) ∧
    d.run ([.answer 1 timeout 110 1, .insert 1 [] [], .finish 1] ++
      enterAndStart (queryFor "a.example") 4 111 ++
      [.check 4, .answer 3 timeout 112 1, .insert 3 [keyFor "b.example"] [], .finish 3,
        .receive 4]) = some c ∧
    (∀ cl, c.metrics.evictions cl = 0) ∧
    c.calls[4]? = some (.returned failure (some err)) := by
  have hrun : (((newCache smallPolicy).run expiredAnswer).bind fun c₀ =>
      (c₀.run (enterAndStart (queryFor "b.example") 1 110 ++
        enterAndStart (queryFor "c.example") 2 110 ++
        enterAndStart (queryFor "a.example") 3 110)).bind fun d =>
      (d.run ([.answer 1 timeout 110 1, .insert 1 [] [], .finish 1] ++
        enterAndStart (queryFor "a.example") 4 111 ++
        [.check 4, .answer 3 timeout 112 1, .insert 3 [keyFor "b.example"] [], .finish 3,
          .receive 4])).map fun c =>
        decide (c₀.cached aKey = some lastGoodEntry ∧
          d.calls[3]? = some (.returned {} (some .pendingLimit)) ∧
          c.metrics.evictions .positive = 0 ∧ c.metrics.evictions .negative = 0 ∧
          c.calls[4]? = some (.returned failure (some (.resolve "timeout"))))) = some true := by
    decide +kernel
  obtain ⟨c₀, h₀, hrun⟩ := Option.bind_eq_some_iff.mp hrun
  obtain ⟨d, hd, hrun⟩ := Option.bind_eq_some_iff.mp hrun
  obtain ⟨c, hc, hrun⟩ := Option.map_eq_some_iff.mp hrun
  rw [decide_eq_true_eq] at hrun
  obtain ⟨hcached, hrejected, hpositive, hnegative, hcall⟩ := hrun
  refine ⟨c₀, d, c, _, Cache.Reachable.new.run h₀, rfl, hcached, by decide, by decide, hd,
    hrejected, hc, fun cl => ?_, hcall⟩
  cases cl with
  | positive => exact hpositive
  | negative => exact hnegative

end SakhtarWg.Dns
