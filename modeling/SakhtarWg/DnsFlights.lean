import SakhtarWg.DnsMoves

/-!
# Flights

One resolution per key, a bounded number per egress. The board of registered flights
agrees with the flights that are under way in every reachable state.
-/

namespace SakhtarWg.Dns
open Netip FiniteMap

variable {p : ValidPolicy}

/-- The number of registered flights through an egress. -/
def Cache.flightsOf (c : Cache p) (egress : String) : ℕ :=
  groupSize Key.egress c.flights egress

/-- A flight of the key that is not over. -/
def Cache.Live (c : Cache p) (k : Key) (f : ℕ) : Prop :=
  ∃ flight, c.heap[f]? = some flight ∧ flight.key = k ∧ flight.phase ≠ .closed

structure Board (c : Cache p) : Prop where
  live : ∀ k f, c.flights.lookup k = some f ↔ c.Live k f
  pending : ∀ e, c.pendingByEgress.lookup e = tally (c.flightsOf e)
  bound : ∀ e, (c.flightsOf e : ℤ) ≤ p.maxPending
  metric : c.metrics.pending = c.flights.keys.length

theorem Board.new (p : ValidPolicy) : Board (newCache p) := by
  obtain ⟨-, -, hmax⟩ := Policy.capacity_pos p.valid
  refine ⟨fun k f => ?_, fun e => rfl, fun e => ?_, rfl⟩
  · simp [newCache, Cache.Live]
  · exact hmax.le

/-- A step that leaves the board and the set of live flights alone. -/
theorem Board.quiet {c c' : Cache p} (h : Board c) (hflights : c'.flights = c.flights)
    (hpending : c'.pendingByEgress = c.pendingByEgress)
    (hmetric : c'.metrics.pending = c.metrics.pending)
    (hlive : ∀ k f, c'.Live k f ↔ c.Live k f) : Board c' := by
  refine ⟨fun k f => ?_, fun e => ?_, fun e => ?_, ?_⟩
  · rw [hflights, h.live, hlive]
  · rw [hpending, h.pending, Cache.flightsOf, Cache.flightsOf, hflights]
  · rw [Cache.flightsOf, hflights]
    exact h.bound e
  · rw [hmetric, h.metric, hflights]

theorem Board.pending_getD {c : Cache p} (h : Board c) (e : String) :
    (c.pendingByEgress.lookup e).getD 0 = c.flightsOf e := by
  rw [h.pending, tally_getD]

theorem live_setFlight {c : Cache p} {f : ℕ} {flight : Flight} {phase : Phase}
    (hheap : c.heap[f]? = some flight) (hlive : flight.phase ≠ .closed)
    (hlive' : phase ≠ .closed) (k : Key) (g : ℕ) :
    (c.setFlight f { flight with phase := phase }).Live k g ↔ c.Live k g := by
  simp only [Cache.Live, Cache.setFlight, getElem?_replaced hheap]
  by_cases hg : f = g
  · subst hg
    simp [hheap, hlive, hlive']
  · simp [hg]

/-- Appending a flight adds at most that one to the live ones. -/
theorem live_append {c : Cache p} (flight : Flight) (k : Key) (g : ℕ) :
    (∃ x, (c.heap ++ [flight])[g]? = some x ∧ x.key = k ∧ x.phase ≠ .closed) ↔
      c.Live k g ∨ (g = c.heap.length ∧ flight.key = k ∧ flight.phase ≠ .closed) := by
  constructor
  · rintro ⟨x, hx, hkey, hphase⟩
    rcases getElem?_appended hx with hx | ⟨rfl, rfl⟩
    · exact .inl ⟨x, hx, hkey, hphase⟩
    · exact .inr ⟨rfl, hkey, hphase⟩
  · rintro (⟨x, hx, hkey, hphase⟩ | ⟨rfl, hkey, hphase⟩)
    · have hg : g < c.heap.length := (List.getElem?_eq_some_iff.mp hx).1
      exact ⟨x, by rw [List.getElem?_append_left hg, hx], hkey, hphase⟩
    · exact ⟨flight, by simp, hkey, hphase⟩

theorem Board.launch {c : Cache p} (h : Board c) {k : Key} (hflight : c.flights.lookup k = none)
    (hroom : (c.pendingByEgress.lookup k.egress).getD 0 < p.maxPending) {m : Metrics}
    (hm : m.pending = c.metrics.pending + 1) (flight : Flight) (hkey : flight.key = k)
    (hphase : flight.phase ≠ .closed) :
    Board { c with
      flights := c.flights.insert k c.heap.length
      pendingByEgress := c.pendingByEgress.insert k.egress
        ((c.pendingByEgress.lookup k.egress).getD 0 + 1)
      metrics := m
      heap := c.heap ++ [flight] } := by
  have hnew : k ∉ c.flights := AList.lookup_eq_none.mp hflight
  refine ⟨fun k' f => ?_, tally_insert h.pending _ hnew, fun e => ?_, ?_⟩
  · simp only [Cache.Live]
    rw [live_append]
    by_cases hk : k' = k
    · subst hk
      rw [AList.lookup_insert, ← h.live, hflight]
      simp [hkey, hphase, eq_comm]
    · rw [AList.lookup_insert_ne hk, h.live]
      simp [hkey, Ne.symm hk]
  · have hb := h.bound e
    rw [h.pending_getD] at hroom
    simp only [Cache.flightsOf, groupSize_insert _ hnew] at hb hroom ⊢
    split
    · rename_i he
      subst he
      push_cast
      omega
    · exact hb
  · simp only [hm, h.metric, AList.keys, AList.entries_insert_of_notMem hnew, List.keys_cons,
      List.length_cons, Nat.cast_add, Nat.cast_one]

theorem Board.finish {c : Cache p} (h : Board c) {f : ℕ} {flight flight' : Flight}
    (hheap : c.heap[f]? = some flight) (hlive : flight.phase ≠ .closed)
    (hclosed : flight'.phase = .closed) {m : Metrics} (hm : m.pending = c.metrics.pending - 1) :
    Board ({ c with
      flights := c.flights.erase flight.key
      pendingByEgress :=
        if (c.pendingByEgress.lookup flight.key.egress).getD 0 - 1 ≤ 0 then
          c.pendingByEgress.erase flight.key.egress
        else c.pendingByEgress.insert flight.key.egress
          ((c.pendingByEgress.lookup flight.key.egress).getD 0 - 1)
      metrics := m }.setFlight f flight') := by
  have hreg : c.flights.lookup flight.key = some f := (h.live _ _).mpr ⟨flight, hheap, rfl, hlive⟩
  have hmem : flight.key ∈ c.flights := AList.lookup_isSome.mp (by simp [hreg])
  refine ⟨fun k g => ?_, tally_erase h.pending hmem, fun e => ?_, ?_⟩
  · simp only [Cache.Live, Cache.setFlight, getElem?_replaced hheap]
    by_cases hk : k = flight.key
    · subst hk
      -- the flight that leaves was the only live one of its key
      have hother : f ≠ g → ¬ c.Live flight.key g := by
        intro hne hg
        rw [← h.live, hreg] at hg
        exact hne (Option.some.inj hg)
      rw [AList.lookup_erase]
      by_cases hg : f = g
      · simp [hg, hclosed]
      · have := hother hg
        simp only [Cache.Live] at this
        simpa [hg] using this
    · rw [AList.lookup_erase_ne hk, h.live, Cache.Live]
      by_cases hg : f = g
      · subst hg
        simp [hheap, hclosed, Ne.symm hk]
      · simp [hg]
  · have hb := h.bound e
    have hsize := groupSize_erase (g := Key.egress) hmem e
    simp only [Cache.flightsOf, Cache.setFlight] at hb ⊢
    omega
  · have hlen : c.flights.keys.length = (c.flights.erase flight.key).keys.length + 1 := by
      have := countKeys_erase (fun _ => true) hmem
      simpa [countKeys] using this
    simp only [Cache.setFlight, hm, h.metric]
    omega

theorem freshFlight_phase (p : Policy) (k : Key) (q : Query) (entry : CacheEntry) (now : ℤ) :
    (freshFlight p k q entry now).phase = .closed := by
  simp only [freshFlight]
  split_ifs <;> rfl

theorem freshFlight_serveStale (p : Policy) (k : Key) (q : Query) (entry : CacheEntry) (now : ℤ) :
    (freshFlight p k q entry now).serveStale = false := by
  simp only [freshFlight]
  split_ifs <;> rfl

theorem Board.move {c c' : Cache p} {a : Action} (h : Board c) (hmove : Move c a c') :
    Board c' := by
  cases hmove with
  | refuse | enter | join | ready | wait | receive | cancel | ignore =>
    exact h.quiet rfl rfl rfl fun _ _ => .rfl
  | take hcall htake hm hout => exact h.quiet rfl rfl hm fun _ _ => .rfl
  | reject hcall hflight hfull hm => exact h.quiet rfl rfl hm fun _ _ => .rfl
  | refresh hcall hheap hphase hm => exact h.quiet rfl rfl hm fun _ _ => .rfl
  | serve hcall hheap hphase hserve haddrs hm => exact h.quiet rfl rfl hm fun _ _ => .rfl
  | invalidate hkey => exact h.quiet rfl rfl (invalidate_keeps _ _).pending fun _ _ => .rfl
  | fresh hcall hflight hcached hfresh =>
    refine h.quiet rfl rfl rfl fun k f => ?_
    simp only [Cache.Live, Cache.setCall]
    rw [live_append]
    simp [freshFlight_phase]
    rfl
  | launch hcall hflight hexpired hroom =>
    exact (h.launch hflight hroom rfl _ rfl (by simp)).quiet rfl rfl rfl fun _ _ => .rfl
  | answer hheap hphase hm =>
    exact h.quiet rfl rfl hm fun k g =>
      live_setFlight hheap (by simp [hphase]) (by simp) k g
  | insert hheap hphase =>
    exact h.quiet rfl rfl (insert_pending _ _ _ _ _ _) fun k g =>
      live_setFlight hheap (by simp [hphase]) (by simp) k g
  | finish hheap hphase hm => exact h.finish hheap (by simp [hphase]) rfl hm

theorem Cache.Reachable.board {c : Cache p} (h : Cache.Reachable p c) : Board c := by
  induction h with
  | new => exact .new p
  | step _ hstep ih => exact ih.move (step_move hstep)

/-! ## The limit is never a stored answer -/

/-- What a flight that has its answer is about to store. -/
def Flight.carries (flight : Flight) (entry : CacheEntry) (now : ℤ) : Prop :=
  flight.phase = .inserting entry now ∨ flight.phase = .finishing entry now

def LimitFree (c : Cache p) : Prop :=
  Holds (fun _ e => e.err ≠ some .pendingLimit)
    (fun flight => flight.err ≠ some .pendingLimit ∧
      ∀ entry now, flight.carries entry now → entry.err ≠ some .pendingLimit) c

theorem resolvedEntry_err (p : Policy) (flight : Flight) (answer : Answer) (now : ℤ) :
    (resolvedEntry p flight answer now).err ≠ some .pendingLimit := by
  have hnorm : ∀ raw rawErr, (p.normalizeResult raw rawErr now).2 ≠ some .pendingLimit := by
    intro raw rawErr
    unfold Policy.normalizeResult
    split
    · simp
    · dsimp only
      split <;> simp
  simp only [resolvedEntry]
  split_ifs <;> exact hnorm _ _

theorem limitFree_closed (p : Policy) : Closed p (fun _ e => e.err ≠ some .pendingLimit)
    (fun flight => flight.err ≠ some .pendingLimit ∧
      ∀ entry now, flight.carries entry now → entry.err ≠ some .pendingLimit) where
  fresh k q entry now h := by
    refine ⟨?_, fun entry' now' hc => ?_⟩
    · simp only [freshFlight]
      split_ifs <;> simp [h]
    · simp [Flight.carries, freshFlight_phase] at hc
  insert flight entry now h hphase := by
    have hentry := h.2 entry now (.inl hphase)
    refine ⟨hentry, h.1, fun entry' now' hc => ?_⟩
    simp only [Flight.carries, Phase.finishing.injEq, reduceCtorEq, false_or] at hc
    rw [← hc.1]
    exact hentry
  finish flight entry now h hphase := by
    have hentry := h.2 entry now (.inr hphase)
    refine ⟨?_, fun entry' now' hc => ?_⟩
    · simp only [publishedFlight]
      split
      · simp
      · exact hentry
    · simp [Flight.carries, publishedFlight] at hc

theorem Cache.Reachable.limitFree {c : Cache p} (h : Cache.Reachable p c) : LimitFree c := by
  induction h with
  | new => exact ⟨fun k e he => by simp [Cache.cached, newCache] at he, fun f x hx => by cases hx⟩
  | step _ hstep ih =>
    refine Holds.move ih (limitFree_closed p.toPolicy) (step_move hstep)
      (fun _ _ _ _ _ _ _ _ _ _ _ => ⟨by simp, by simp [Flight.carries]⟩)
      fun f flight answer now _ _ _ _ h => ⟨h.1, fun entry now' hc => ?_⟩
    simp only [Flight.carries, Phase.inserting.injEq, reduceCtorEq, or_false] at hc
    rw [← hc.1]
    exact resolvedEntry_err p.toPolicy flight answer now

/-! ## Runs under a clock -/

/-- A cache, the time, and when each call entered. -/
structure Timed (p : ValidPolicy) where
  cache : Cache p
  clock : ℤ
  entered : List ℤ

/-- The readings of a section fall between the times before and after it. The second reading of
`startFlight` may be later: another goroutine can read the clock between the two. -/
def Action.Within (t t' : ℤ) : Action → Prop
  | .resolve _ _ now => t ≤ now ∧ now ≤ t'
  | .start _ now now' => t ≤ now ∧ now ≤ now' ∧ now ≤ t'
  | .answer _ _ now _ => t ≤ now ∧ now ≤ t'
  | _ => t ≤ t'

instance (t t' : ℤ) : (a : Action) → Decidable (a.Within t t')
  | .resolve _ _ now => inferInstanceAs (Decidable (t ≤ now ∧ now ≤ t'))
  | .start _ now now' => inferInstanceAs (Decidable (t ≤ now ∧ now ≤ now' ∧ now ≤ t'))
  | .answer _ _ now _ => inferInstanceAs (Decidable (t ≤ now ∧ now ≤ t'))
  | .take _ | .check _ | .receive _ | .cancel _ _ | .insert _ _ _ | .finish _ | .invalidate _ =>
    inferInstanceAs (Decidable (t ≤ t'))

/-- The reading that a new call takes on entry. -/
def Action.entry : Action → List ℤ
  | .resolve _ _ now => [now]
  | _ => []

/-- A step and the time after it. -/
def Timed.step (s : Timed p) (a : Action) (t' : ℤ) : Option (Timed p) :=
  if a.Within s.clock t' then
    (s.cache.step a).map fun c' => ⟨c', t', s.entered ++ a.entry⟩
  else none

/-- States reached under a clock that does not run backwards, by steps that are all allowed. -/
inductive Timed.Reachable (allowed : Timed p → Action → Bool) : Timed p → Prop
  | new (t : ℤ) : Timed.Reachable allowed ⟨newCache p, t, []⟩
  | step {s s' : Timed p} {a : Action} {t' : ℤ} : Timed.Reachable allowed s →
      allowed s a = true → s.step a t' = some s' → Timed.Reachable allowed s'

theorem Timed.step_eq_some {s s' : Timed p} {a : Action} {t' : ℤ} (h : s.step a t' = some s') :
    ∃ c', s.cache.step a = some c' ∧ a.Within s.clock t' ∧
      s' = ⟨c', t', s.entered ++ a.entry⟩ := by
  unfold Timed.step at h
  split at h
  · obtain ⟨c', hc', rfl⟩ := Option.map_eq_some_iff.mp h
    exact ⟨c', hc', ‹_›, rfl⟩
  · cases h

theorem Timed.Reachable.cache {allowed : Timed p → Action → Bool} {s : Timed p}
    (h : Timed.Reachable allowed s) : Cache.Reachable p s.cache := by
  induction h with
  | new t => exact .new
  | step _ _ hstep ih =>
    obtain ⟨c', hc', -, rfl⟩ := Timed.step_eq_some hstep
    exact ih.step hc'

/-- Allowed steps one after the other. -/
def Timed.run (allowed : Timed p → Action → Bool) (s : Timed p) :
    List (Action × ℤ) → Option (Timed p)
  | [] => some s
  | (a, t') :: rest =>
    if allowed s a then (s.step a t').bind fun s' => s'.run allowed rest else none

theorem Timed.Reachable.run {allowed : Timed p → Action → Bool} {actions : List (Action × ℤ)}
    {s s' : Timed p} (h : Timed.Reachable allowed s) (hrun : s.run allowed actions = some s') :
    Timed.Reachable allowed s' := by
  induction actions generalizing s with
  | nil =>
    cases hrun
    exact h
  | cons a actions ih =>
    simp only [Timed.run, Option.ite_none_right_eq_some, Option.bind_eq_some_iff] at hrun
    obtain ⟨hok, d, hd, hrest⟩ := hrun
    exact ih (h.step hok hd) hrest

theorem Action.Within.le {t t' : ℤ} {a : Action} (h : a.Within t t') : t ≤ t' := by
  cases a <;> simp only [Action.Within] at h <;> omega

/-- While the resolver is asked for a key, nothing fresh is cached for it. -/
def Asking (s : Timed p) : Prop :=
  ∀ (f : ℕ) flight, s.cache.heap[f]? = some flight → flight.phase = .resolving →
    ∀ entry, s.cache.cached flight.key = some entry → ¬ s.clock < entry.result.expiresAt

theorem Asking.step {s : Timed p} {a : Action} {c' : Cache p} {t' : ℤ} (h : Asking s)
    (hboard : Board s.cache) (hstep : s.cache.step a = some c') (hclock : a.Within s.clock t')
    (entered : List ℤ) : Asking ⟨c', t', entered⟩ := by
  have hle := hclock.le
  -- no entry comes, and no flight starts to ask
  have hquiet : (∀ k e, c'.cached k = some e → s.cache.cached k = some e) →
      (∀ (f : ℕ) x, c'.heap[f]? = some x → x.phase = .resolving →
        s.cache.heap[f]? = some x) → Asking ⟨c', t', entered⟩ := by
    intro hcached hheap f x hx hphase entry hentry
    have := h f x (hheap f x hx hphase) hphase entry (hcached _ _ hentry)
    dsimp only
    omega
  -- a replaced flight that does not ask
  have hreplaced : ∀ {f : ℕ} {x y : Flight}, s.cache.heap[f]? = some x → y.phase ≠ .resolving →
      ∀ (g : ℕ) z, (s.cache.heap.set f y)[g]? = some z → z.phase = .resolving →
        s.cache.heap[g]? = some z ∧ f ≠ g := by
    intro f x y hx hy g z hz hphase
    rw [getElem?_replaced hx] at hz
    split at hz
    · cases hz
      exact absurd hphase hy
    · exact ⟨hz, ‹_›⟩
  cases step_move hstep with
  | refuse | enter | join | reject | ready | refresh | serve | wait | receive | cancel | ignore =>
    exact hquiet (fun _ _ hk => hk) fun _ _ hx _ => hx
  | @take _ k _ now _ _ _ _ _ hcall htake hm hout =>
    have hkeeps := takeEntry_keeps p.toPolicy (s.cache.lock k) k now
    rw [htake] at hkeeps
    exact hquiet (fun _ _ hk => cached_of_keeps hkeeps hk) fun _ _ hx _ => hx
  | invalidate hkey =>
    exact hquiet (fun _ _ hk => cached_of_keeps (invalidate_keeps _ _) hk) fun _ _ hx _ => hx
  | fresh hcall hflight hcached hfresh =>
    refine hquiet (fun _ _ hk => hk) fun f x hx hphase => ?_
    rcases getElem?_appended hx with hx | ⟨-, rfl⟩
    · exact hx
    · rw [freshFlight_phase] at hphase
      cases hphase
  | launch hcall hflight hexpired hroom =>
    intro f x hx hphase entry hentry
    rcases getElem?_appended hx with hx | ⟨-, rfl⟩
    · have := h f x hx hphase entry hentry
      dsimp only
      omega
    · have := hexpired entry hentry
      obtain ⟨-, -, hnow⟩ := hclock
      dsimp only
      omega
  | answer hheap hphase hm =>
    exact hquiet (fun _ _ hk => hk) fun g x hx hx' => (hreplaced hheap (by simp) g x hx hx').1
  | finish hheap hphase hm =>
    exact hquiet (fun _ _ hk => hk) fun g x hx hx' =>
      (hreplaced hheap (by simp [publishedFlight]) g x hx hx').1
  | insert hheap hphase =>
    intro g x hx hx' entry hentry
    obtain ⟨hold, hne⟩ := hreplaced hheap (by simp) g x hx hx'
    rw [cached_setFlight] at hentry
    rcases cached_of_insert hentry with ⟨hkey, -⟩ | hentry
    · -- the flight that inserts is the only live one of its key
      have hf := (hboard.live _ _).mpr ⟨_, hheap, rfl, by simp [hphase]⟩
      have hg := (hboard.live _ _).mpr ⟨x, hold, hkey, by simp [hx']⟩
      rw [hf] at hg
      exact absurd (Option.some.inj hg) hne
    · have := h g x hold hx' entry hentry
      dsimp only
      omega

theorem Timed.Reachable.asking {allowed : Timed p → Action → Bool} {s : Timed p}
    (h : Timed.Reachable allowed s) : Asking s := by
  induction h with
  | new t => exact fun f flight hf => by cases hf
  | step hs _ hstep ih =>
    obtain ⟨c', hc', hclock, rfl⟩ := Timed.step_eq_some hstep
    exact ih.step hs.cache.board hc' hclock _

/-! ## The accounting of flights -/

/-- A step that adds a flight that asks the resolver is a start without a fresh entry. -/
theorem launch_expired {c c' : Cache p} {a : Action} (hmove : Move c a c') {f : ℕ}
    {flight : Flight} (hf : c'.heap[f]? = some flight) (hphase : flight.phase = .resolving)
    (hnew : c.heap.length ≤ f) : ∃ i now now', a = .start i now now' ∧
      ∀ entry, c'.cached flight.key = some entry → ¬ now < entry.result.expiresAt := by
  have hnone : c.heap[f]? = none := List.getElem?_eq_none hnew
  have hreplaced : ∀ (g : ℕ) (y : Flight), (c.heap.set g y)[f]? ≠ some flight := by
    intro g y hf
    rw [List.getElem?_eq_none (by simpa using hnew)] at hf
    cases hf
  cases hmove with
  | refuse | enter | take | join | reject | ready | refresh | serve | wait | receive | cancel
  | ignore | invalidate =>
    have : c.heap[f]? = some flight := hf
    rw [hnone] at this
    cases this
  | fresh hcall hflight hcached hfresh =>
    rcases getElem?_appended hf with hf | ⟨-, rfl⟩
    · rw [hnone] at hf
      cases hf
    · rw [freshFlight_phase] at hphase
      cases hphase
  | launch hcall hflight hexpired hroom =>
    rcases getElem?_appended hf with hf | ⟨-, rfl⟩
    · rw [hnone] at hf
      cases hf
    · exact ⟨_, _, _, rfl, hexpired⟩
  | answer | insert | finish => exact absurd hf (hreplaced _ _)

theorem Taken.err {p : Policy} {k : Key} {q : Query} {now : ℤ} {entry : CacheEntry}
    {found : Bool} {call : Call} (h : Taken p k q now entry found call) {r : Result} {e : Error}
    (hcall : call = .returned r (some e)) : entry.err = some e := by
  cases h with
  | failed => exact (Call.returned.inj hcall).2
  | hit | negative | stale | expired | refresh | miss => cases hcall

/-- A step that ends a call with the limit finds its egress full. -/
theorem limit_full {c c' : Cache p} {a : Action} (hboard : Board c) (hfree : LimitFree c)
    (hmove : Move c a c') {i : ℕ} {r : Result}
    (hi : c'.calls[i]? = some (.returned r (some .pendingLimit))) :
    c.calls[i]? = some (.returned r (some .pendingLimit)) ∨
      ∃ k q stale staleUntil refresh, c.calls[i]? = some (.starting k q stale staleUntil refresh) ∧
        (c.flightsOf k.egress : ℤ) = p.maxPending := by
  -- the call that the section moves gets something else, unless the section is the one that counts
  have hset : ∀ {j : ℕ} {old new : Call}, c.calls[j]? = some old →
      (c.calls.set j new)[i]? = some (.returned r (some .pendingLimit)) →
      c.calls[i]? = some (.returned r (some .pendingLimit)) ∨
        (j = i ∧ new = .returned r (some .pendingLimit)) := by
    intro j old new hj hi
    rw [getElem?_replaced hj] at hi
    split at hi
    · exact .inr ⟨‹_›, Option.some.inj hi⟩
    · exact .inl hi
  cases hmove with
  | answer | insert | finish | ignore | invalidate => exact .inl hi
  | refuse herr =>
    rcases getElem?_appended hi with hi | ⟨-, hi⟩
    · exact .inl hi
    · simp only [Call.returned.injEq, Option.some.injEq] at hi
      exact absurd hi.2.symm herr
  | enter hkey =>
    rcases getElem?_appended hi with hi | ⟨-, hi⟩
    · exact .inl hi
    · cases hi
  | join hcall | fresh hcall | launch hcall | wait hcall =>
    rcases hset hcall hi with hi | ⟨-, hi⟩
    · exact .inl hi
    · cases hi
  | refresh hcall | serve hcall | cancel hcall =>
    rcases hset hcall hi with hi | ⟨-, hi⟩
    · exact .inl hi
    · cases hi
  | ready hcall hheap | receive hcall hheap =>
    rcases hset hcall hi with hi | ⟨-, hi⟩
    · exact .inl hi
    · rw [Call.returned.injEq] at hi
      exact absurd hi.2 (hfree.flights _ _ hheap).1
  | take hcall htake hm hout =>
    rcases hset hcall hi with hi | ⟨-, hcase⟩
    · exact .inl hi
    · have herr := hout.err hcase
      rcases takeEntry_spec htake with ⟨-, rfl⟩ | ⟨hcached, -⟩
      · cases herr
      · exact absurd herr (hfree.cached _ _ hcached)
  | reject hcall hflight hfull hm =>
    rcases hset hcall hi with hi | ⟨rfl, hi⟩
    · exact .inl hi
    · rw [hboard.pending_getD] at hfull
      exact .inr ⟨_, _, _, _, _, hcall, le_antisymm (hboard.bound _) hfull⟩

/-- Flights are counted exactly and bounded for each egress; a key has one resolver call at a
time, made only while nothing fresh is cached; only an egress that is full turns a call away. -/
theorem singleflight {c : Cache p} (h : Cache.Reachable p c) :
    (∀ e, c.pendingByEgress.lookup e = tally (c.flightsOf e)) ∧
    (∀ e, (c.flightsOf e : ℤ) ≤ p.maxPending) ∧
    c.metrics.pending = c.flights.keys.length ∧
    -- one resolver call for each key
    (∀ (f g : ℕ) x y, c.heap[f]? = some x → c.heap[g]? = some y → x.phase = .resolving →
      y.phase = .resolving → x.key = y.key → f = g) ∧
    -- it starts without a fresh entry at the reading of the start, and at every later time
    (∀ a c', c.step a = some c' → ∀ (f : ℕ) x, c'.heap[f]? = some x → x.phase = .resolving →
      c.heap.length ≤ f → ∃ i now now', a = .start i now now' ∧
        ∀ entry, c'.cached x.key = some entry → ¬ now < entry.result.expiresAt) ∧
    (∀ s : Timed p, Timed.Reachable (fun _ _ => true) s → s.cache = c → Asking s) ∧
    -- the limit is an answer only of a full egress
    (∀ a c', c.step a = some c' → ∀ (i : ℕ) r,
      c'.calls[i]? = some (.returned r (some .pendingLimit)) →
      c.calls[i]? = some (.returned r (some .pendingLimit)) ∨
        ∃ k q stale staleUntil refresh,
          c.calls[i]? = some (.starting k q stale staleUntil refresh) ∧
            (c.flightsOf k.egress : ℤ) = p.maxPending) := by
  have hboard := h.board
  refine ⟨hboard.pending, hboard.bound, hboard.metric, ?_, ?_, fun s hs _ => hs.asking, ?_⟩
  · intro f g x y hx hy hphase hphase' hkey
    have hf := (hboard.live _ _).mpr ⟨x, hx, rfl, by simp [hphase]⟩
    have hg := (hboard.live _ _).mpr ⟨y, hy, hkey.symm, by simp [hphase']⟩
    rw [hf] at hg
    exact Option.some.inj hg
  · intro a c' hstep f x hx hphase hnew
    exact launch_expired (step_move hstep) hx hphase hnew
  · intro a c' hstep i r hi
    exact limit_full hboard h.limitFree (step_move hstep) hi

/-- A call up to its flight. -/
def enterAndStart (query : Query) (index : ℕ) (now : ℤ) : List Action :=
  [.resolve query true now, .take index, .start index now now]

/-- Two flights fill the direct egress and turn a third name away; another egress is free. -/
theorem singleflight_full : ∃ c : Cache smallPolicy, Cache.Reachable smallPolicy c ∧
    c.calls[3]? = some (.returned {} (some .pendingLimit)) ∧
    tally (c.flightsOf "direct") = some 2 ∧ tally (c.flightsOf "wg0") = some 1 := by
  let actions := enterAndStart (queryFor "a.example") 0 100 ++
    enterAndStart (queryFor "b.example") 1 101 ++
    enterAndStart ⟨"c.example", .any, "wg0", "system", 1⟩ 2 102 ++
    enterAndStart (queryFor "d.example") 3 103
  have hrun : (((newCache smallPolicy).run actions).map fun c =>
      (c.calls[3]?, c.pendingByEgress.lookup "direct", c.pendingByEgress.lookup "wg0")) =
        some (some (.returned {} (some .pendingLimit)), some 2, some 1) := by
    decide +kernel
  obtain ⟨c, hc, hm⟩ := Option.map_eq_some_iff.mp hrun
  have hreach := Cache.Reachable.new.run hc
  obtain ⟨hcall, hpending⟩ := Prod.mk.inj hm
  obtain ⟨hdirect, hwg⟩ := Prod.mk.inj hpending
  obtain ⟨hcount, -⟩ := singleflight hreach
  exact ⟨c, hreach, hcall, (hcount _).symm.trans hdirect, (hcount _).symm.trans hwg⟩

end SakhtarWg.Dns
