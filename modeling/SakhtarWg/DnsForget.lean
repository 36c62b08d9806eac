import SakhtarWg.DnsStale

/-!
# What the cache forgets

After an invalidation the addresses of the key that were cached before can only come
back through copies outside the shards: in a flight, or in a call that has looked the
key up and has not reached its flight.
-/

namespace SakhtarWg.Dns
open Netip

variable {p : ValidPolicy}

/-- The action completes a resolver call for the key with these addresses. -/
def Action.Produces (c : Cache p) (k : Key) (addrs : List Addr) : Action → Prop
  | .answer f reply now _ => ∃ flight, c.heap[f]? = some flight ∧ flight.key = k ∧
      (p.normalizeResult (callResolver reply).1 (callResolver reply).2 now).1.addrs = addrs
  | _ => False

/-- Some action of the run does. -/
def Cache.Produces (k : Key) (addrs : List Addr) : Cache p → List Action → Prop
  | _, [] => False
  | c, a :: rest => a.Produces c k addrs ∨ ∃ c', c.step a = some c' ∧ c'.Produces k addrs rest

/-- No copy of addresses of the key is under way outside the shards. -/
def Cache.noCopies (c : Cache p) (k : Key) : Bool :=
  (c.heap.all fun flight => flight.key ≠ k || flight.phase = .closed ||
    (flight.stale.addrs = [] && match flight.phase with
      | .inserting entry _ | .finishing entry _ =>
        entry.result.addrs = [] && entry.stale.addrs = []
      | .resolving | .closed => true)) &&
  c.calls.all fun
    | .starting k' _ stale _ _ => k' ≠ k || stale.addrs = []
    | _ => true

/-! ## Where addresses come from -/

section
variable (A : List Addr → Prop)

/-- The addresses of a result, if any, are among `A`. -/
def From (r : Result) : Prop := r.addrs ≠ [] → A r.addrs

structure EntryFrom (entry : CacheEntry) : Prop where
  result : From A entry.result
  stale : From A entry.stale

structure FlightFrom (flight : Flight) : Prop where
  stale : From A flight.stale
  carried : ∀ entry now, flight.carries entry now → EntryFrom A entry

theorem From.empty : From A {} := fun h => absurd rfl h

theorem EntryFrom.empty : EntryFrom A {} := ⟨.empty A, .empty A⟩

variable {A}

theorem resolvedEntry_from {p : Policy} {flight : Flight} (h : From A flight.stale)
    {answer : Answer} {now : ℤ}
    (hnew : A (p.normalizeResult (callResolver answer).1 (callResolver answer).2 now).1.addrs) :
    EntryFrom A (resolvedEntry p flight answer now) := by
  simp only [resolvedEntry]
  split_ifs
  · exact ⟨fun _ => hnew, .empty A⟩
  · exact ⟨fun _ => hnew, h⟩
  · exact ⟨fun _ => hnew, .empty A⟩

theorem published_from {p : Policy} {flight : Flight} {entry : CacheEntry} (h : EntryFrom A entry)
    (now : ℤ) : From A (publishedFlight p flight entry now).result := by
  simp only [publishedFlight]
  split
  · exact h.stale
  · exact h.result

theorem freshFlight_from {p : Policy} {k : Key} {q : Query} {entry : CacheEntry}
    (h : EntryFrom A entry) (now : ℤ) : From A (freshFlight p k q entry now).result := by
  simp only [freshFlight]
  split_ifs
  · exact h.stale
  · exact h.result
  · exact h.result

end

/-- Everything the cache holds for the key has its addresses from `A`. -/
structure Forgotten (A : List Addr → Prop) (k : Key) (c : Cache p) : Prop where
  holds : Holds (fun k' e => k' = k → EntryFrom A e)
    (fun flight => flight.key = k → flight.phase ≠ .closed → FlightFrom A flight) c
  starting : ∀ (i : ℕ) q stale staleUntil refresh,
    c.calls[i]? = some (.starting k q stale staleUntil refresh) → From A stale

theorem forgotten_closed (p : Policy) (A : List Addr → Prop) (k : Key) :
    Closed p (fun k' e => k' = k → EntryFrom A e)
      (fun flight => flight.key = k → flight.phase ≠ .closed → FlightFrom A flight) where
  fresh k' q entry now _ _ hphase := absurd (freshFlight_phase p k' q entry now) hphase
  insert flight entry now h hphase := by
    have hflight : flight.key = k → FlightFrom A flight := fun hk => h hk (by simp [hphase])
    refine ⟨fun hk => (hflight hk).carried entry now (.inl hphase), fun hk _ => ?_⟩
    refine ⟨(hflight hk).stale, fun entry' now' hc => ?_⟩
    simp only [Flight.carries, Phase.finishing.injEq, reduceCtorEq, false_or] at hc
    rw [← hc.1]
    exact (hflight hk).carried entry now (.inl hphase)
  finish flight entry now _ _ _ hphase := absurd rfl hphase

theorem Taken.from_entry {p : Policy} {k : Key} {q : Query} {now : ℤ} {entry : CacheEntry}
    {found : Bool} {call : Call} (h : Taken p k q now entry found call) {A : List Addr → Prop}
    (hentry : EntryFrom A entry) :
    (∃ r err, call = .returned r err ∧ From A r) ∨
      ∃ stale staleUntil refresh, call = .starting k q stale staleUntil refresh ∧
        From A stale := by
  cases h with
  | hit | negative | failed => exact .inl ⟨_, _, rfl, hentry.result⟩
  | stale => exact .inl ⟨_, _, rfl, hentry.stale⟩
  | expired => exact .inr ⟨_, _, _, rfl, hentry.result⟩
  | refresh => exact .inr ⟨_, _, _, rfl, hentry.stale⟩
  | miss => exact .inr ⟨_, _, _, rfl, .empty A⟩

theorem Taken.key {p : Policy} {k k' : Key} {q q' : Query} {now staleUntil : ℤ}
    {entry : CacheEntry} {found refresh : Bool} {call : Call} {stale : Result}
    (h : Taken p k q now entry found call)
    (hcall : call = .starting k' q' stale staleUntil refresh) : k = k' := by
  cases h <;> cases hcall <;> rfl

/-! ## One step -/

section
variable {A : List Addr → Prop} {k : Key} {c c' : Cache p} {a : Action}

theorem cached_from (h : Forgotten A k c) {w : Locked} {now : ℤ} {entry : CacheEntry}
    {found : Bool} (htake : (c.lock k).takeEntry p.toPolicy k now = (w, entry, found)) :
    EntryFrom A entry := by
  rcases takeEntry_spec htake with ⟨-, rfl⟩ | ⟨hcached, -⟩
  · exact .empty A
  · exact h.holds.cached k entry hcached rfl

theorem Forgotten.move (h : Forgotten A k c) (hmove : Move c a c')
    (hnew : ∀ addrs, a.Produces c k addrs → A addrs) : Forgotten A k c' := by
  have hholds : Holds (fun k' e => k' = k → EntryFrom A e)
      (fun flight => flight.key = k → flight.phase ≠ .closed → FlightFrom A flight) c' := by
    refine h.holds.move (forgotten_closed p.toPolicy A k) hmove ?_ ?_
    · intro i k' q stale staleUntil refresh _ _ _ hcall _ hk _
      subst hk
      exact ⟨h.starting i _ _ _ _ hcall, fun entry now hc => by simp [Flight.carries] at hc⟩
    · intro f flight answer now elapsed ha hheap hphase hflight hk _
      have hold : FlightFrom A flight := hflight hk (by simp [hphase])
      refine ⟨hold.stale, fun entry now' hc => ?_⟩
      simp only [Flight.carries, Phase.inserting.injEq, reduceCtorEq, or_false] at hc
      rw [← hc.1]
      apply resolvedEntry_from hold.stale
      apply hnew
      rw [ha]
      exact ⟨flight, hheap, hk, rfl⟩
  -- only `take` makes a call that starts
  have hset : ∀ {i j : ℕ} {old new : Call} {q stale staleUntil refresh},
      c.calls[i]? = some old →
      (c.calls.set i new)[j]? = some (.starting k q stale staleUntil refresh) →
      (∀ q stale staleUntil refresh, new = .starting k q stale staleUntil refresh → From A stale) →
      From A stale := by
    intro i j old new q stale staleUntil refresh hi hj hcase
    rw [getElem?_replaced hi] at hj
    split at hj
    · exact hcase _ _ _ _ (Option.some.inj hj)
    · exact h.starting _ _ _ _ _ hj
  refine ⟨hholds, fun j q stale staleUntil refresh hj => ?_⟩
  cases hmove with
  | answer | insert | finish | ignore | invalidate => exact h.starting j _ _ _ _ hj
  | refuse | enter =>
    rcases getElem?_appended hj with hj | ⟨-, hj⟩
    · exact h.starting j _ _ _ _ hj
    · cases hj
  | join hcall | fresh hcall | reject hcall | launch hcall | ready hcall | refresh hcall
  | serve hcall | wait hcall | receive hcall | cancel hcall =>
    exact hset hcall hj fun _ _ _ _ hn => by cases hn
  | @take i k' _ _ _ _ _ _ _ hcall htake hm hout =>
    refine hset hcall hj fun _ _ _ _ hn => ?_
    have hk : k' = k := hout.key hn
    subst hk
    rcases hout.from_entry (cached_from h htake) with ⟨_, _, hr, -⟩ | ⟨_, _, _, hs, hfrom⟩
    · rw [hr] at hn
      cases hn
    · rw [hs] at hn
      cases hn
      exact hfrom

/-! ## One call -/

/-- A flight of the key with addresses from `A` only. -/
structure CleanFlight (A : List Addr → Prop) (k : Key) (flight : Flight) : Prop extends
    FlightFrom A flight where
  key : flight.key = k
  closed : flight.phase = .closed → From A flight.result

theorem freshFlight_clean {p : Policy} {q : Query} {entry : CacheEntry} {now : ℤ}
    (h : EntryFrom A entry) : CleanFlight A k (freshFlight p k q entry now) := by
  refine ⟨⟨?_, fun entry' now' hc => ?_⟩, ?_, fun _ => freshFlight_from h now⟩
  · simp only [freshFlight]
    split_ifs <;> exact .empty A
  · simp [Flight.carries, freshFlight_phase] at hc
  · simp only [freshFlight]
    split_ifs <;> rfl

/-- How a call for the key stands that can only answer from `A`. -/
def CallFrom (A : List Addr → Prop) (k : Key) (c : Cache p) : Call → Prop
  | .taking k' _ _ => k' = k
  | .starting k' _ stale _ _ => k' = k ∧ From A stale
  | .joined f stale _ => From A stale ∧ ∃ flight, c.heap[f]? = some flight ∧ CleanFlight A k flight
  | .waiting f => ∃ flight, c.heap[f]? = some flight ∧ CleanFlight A k flight
  | .returned r _ => From A r

/-- Flights of the key stay clean. -/
theorem clean_move (hmove : Move c a c')
    (hnew : ∀ addrs, a.Produces c k addrs → A addrs) {f : ℕ} {flight : Flight}
    (hf : c.heap[f]? = some flight) (hclean : CleanFlight A k flight) :
    ∃ flight', c'.heap[f]? = some flight' ∧ CleanFlight A k flight' := by
  obtain ⟨flight', hf', hflight⟩ := hmove.flight hf
  refine ⟨flight', hf', ?_⟩
  cases hflight with
  | stay => exact hclean
  | answer hphase =>
    refine ⟨⟨hclean.stale, fun entry now hcarry => ?_⟩, hclean.key, by simp⟩
    simp only [Flight.carries, Phase.inserting.injEq, reduceCtorEq, or_false] at hcarry
    rw [← hcarry.1]
    exact resolvedEntry_from hclean.stale (hnew _ ⟨_, hf, hclean.key, rfl⟩)
  | insert hphase =>
    refine ⟨⟨hclean.stale, fun entry now hcarry => ?_⟩, hclean.key, by simp⟩
    simp only [Flight.carries, Phase.finishing.injEq, reduceCtorEq, false_or] at hcarry
    rw [← hcarry.1]
    exact hclean.carried _ _ (.inl hphase)
  | finish hphase =>
    refine ⟨⟨hclean.stale, fun entry now hcarry => ?_⟩, hclean.key, fun _ => ?_⟩
    · simp [Flight.carries, publishedFlight] at hcarry
    · exact published_from (hclean.carried _ _ (.inr hphase)) _

theorem CallFrom.move (h : Forgotten A k c) (hboard : Board c) (hmove : Move c a c')
    (hnew : ∀ addrs, a.Produces c k addrs → A addrs) {i : ℕ} {call : Call}
    (hi : c.calls[i]? = some call) (hcall : CallFrom A k c call) :
    ∃ call', c'.calls[i]? = some call' ∧ CallFrom A k c' call' := by
  obtain ⟨call', hi', hmoved⟩ := hmove.call hi
  refine ⟨call', hi', ?_⟩
  cases hmoved with
  | stay =>
    -- the call stands where it was, and the flight it waits for stays clean
    cases call with
    | taking | starting | returned => exact hcall
    | joined f stale refresh =>
      obtain ⟨hstale, flight, hf, hclean⟩ := hcall
      exact ⟨hstale, clean_move hmove hnew hf hclean⟩
    | waiting f =>
      obtain ⟨flight, hf, hclean⟩ := hcall
      exact clean_move hmove hnew hf hclean
  | take htake hout =>
    cases hcall
    rcases hout.from_entry (cached_from h htake) with ⟨_, _, rfl, hfrom⟩ | ⟨_, _, _, rfl, hfrom⟩
    · exact hfrom
    · exact ⟨rfl, hfrom⟩
  | join hflight =>
    obtain ⟨rfl, hstale⟩ := hcall
    obtain ⟨x, hx, hkey, hphase⟩ := (hboard.live _ _).mp hflight
    have hclean : CleanFlight A _ x :=
      ⟨h.holds.flights _ _ hx hkey hphase, hkey, fun hc => absurd hc hphase⟩
    exact ⟨hstale, clean_move hmove hnew hx hclean⟩
  | fresh hcached hheap =>
    obtain ⟨rfl, hstale⟩ := hcall
    exact ⟨hstale, _, hheap, freshFlight_clean (h.holds.cached _ _ hcached rfl)⟩
  | reject | cancel => exact .empty A
  | launch hflight hheap =>
    obtain ⟨rfl, hstale⟩ := hcall
    exact ⟨hstale, _, hheap, ⟨hstale, by simp [Flight.carries]⟩, rfl, by simp⟩
  | ready hheap hphase =>
    obtain ⟨-, x, hx, hclean⟩ := hcall
    rw [hheap] at hx
    cases hx
    exact hclean.closed hphase
  | refresh => exact hcall.1
  | serve hheap hserve haddrs =>
    obtain ⟨-, x, hx, hclean⟩ := hcall
    rw [hheap] at hx
    cases hx
    exact hclean.stale
  | wait =>
    obtain ⟨-, x, hx, hclean⟩ := hcall
    exact clean_move hmove hnew hx hclean
  | receive hheap hphase =>
    obtain ⟨x, hx, hclean⟩ := hcall
    rw [hheap] at hx
    cases hx
    exact hclean.closed hphase

end

/-! ## A run -/

section
variable {A : List Addr → Prop} {k : Key} {actions : List Action} {c c' : Cache p}

theorem run_cons {a : Action} (h : c.run (a :: actions) = some c') :
    ∃ d, c.step a = some d ∧ d.run actions = some c' := by
  simpa only [Cache.run, List.foldlM_cons, Option.bind_eq_bind, Option.bind_eq_some_iff] using h

theorem Forgotten.run (h : Forgotten A k c) (hrun : c.run actions = some c')
    (hnew : ∀ addrs, c.Produces k addrs actions → A addrs) : Forgotten A k c' := by
  induction actions generalizing c with
  | nil =>
    cases hrun
    exact h
  | cons a actions ih =>
    obtain ⟨d, hd, hrest⟩ := run_cons hrun
    exact ih (h.move (step_move hd) fun addrs ha => hnew addrs (.inl ha)) hrest
      fun addrs ha => hnew addrs (.inr ⟨d, hd, ha⟩)

theorem CallFrom.run (h : Forgotten A k c) (hreach : Cache.Reachable p c)
    (hrun : c.run actions = some c') (hnew : ∀ addrs, c.Produces k addrs actions → A addrs)
    {i : ℕ} {call : Call} (hi : c.calls[i]? = some call) (hcall : CallFrom A k c call) :
    ∃ call', c'.calls[i]? = some call' ∧ CallFrom A k c' call' := by
  induction actions generalizing c call with
  | nil =>
    cases hrun
    exact ⟨call, hi, hcall⟩
  | cons a actions ih =>
    obtain ⟨d, hd, hrest⟩ := run_cons hrun
    have hstep : ∀ addrs, a.Produces c k addrs → A addrs := fun addrs ha => hnew addrs (.inl ha)
    obtain ⟨call', hi', hcall'⟩ := hcall.move h hreach.board (step_move hd) hstep hi
    exact ih (h.move (step_move hd) hstep) (hreach.step hd) hrest
      (fun addrs ha => hnew addrs (.inr ⟨d, hd, ha⟩)) hi' hcall'

theorem produces_append {addrs : List Addr} {more : List Action} (hrun : c.run actions = some c')
    (h : c.Produces k addrs actions ∨ c'.Produces k addrs more) :
    c.Produces k addrs (actions ++ more) := by
  induction actions generalizing c with
  | nil =>
    cases hrun
    exact h.resolve_left id
  | cons a actions ih =>
    obtain ⟨d, hd, hrest⟩ := run_cons hrun
    rcases h with (h | ⟨d', hd', h⟩) | h
    · exact .inl h
    · rw [hd] at hd'
      cases hd'
      exact .inr ⟨d, hd, ih hrest (.inl h)⟩
    · exact .inr ⟨d, hd, ih hrest (.inr h)⟩

end

/-- Right after the invalidation nothing is left of the key when no copy was under way. -/
theorem forgotten_invalidate {c : Cache p} {k : Key} (h : c.noCopies k = true)
    (A : List Addr → Prop) : Forgotten A k (c.unlock k ((c.lock k).invalidate k)) := by
  have hempty : ∀ {r : Result}, r.addrs = [] → From A r := fun hr hne => absurd hr hne
  simp only [Cache.noCopies, Bool.and_eq_true, List.all_eq_true] at h
  obtain ⟨hheap, hcalls⟩ := h
  refine ⟨⟨fun k' e he hk => ?_, fun f flight hf hk hphase => ?_⟩, fun i q stale _ _ hi => ?_⟩
  · subst hk
    rw [cached_of_invalidate] at he
    cases he
  · have hflight := hheap flight (List.mem_of_getElem? hf)
    simp only [hk, hphase, ne_eq, not_true_eq_false, decide_false, Bool.false_or,
      Bool.and_eq_true, decide_eq_true_eq] at hflight
    refine ⟨hempty hflight.1, fun entry now hc => ?_⟩
    have hentry : entry.result.addrs = [] ∧ entry.stale.addrs = [] := by
      rcases hc with hc | hc <;>
        simpa only [hc, Bool.and_eq_true, decide_eq_true_eq] using hflight.2
    exact ⟨hempty hentry.1, hempty hentry.2⟩
  · have hcall := hcalls _ (List.mem_of_getElem? hi)
    simp only [ne_eq, not_true_eq_false, decide_false, Bool.false_or, decide_eq_true_eq] at hcall
    exact hempty hcall

/-- When no copy of the key's addresses is under way at an invalidation, whatever addresses a
later call for the key returns were produced by a resolver call that completed after it. -/
theorem invalidate_forgets {c₁ c₂ d c₃ : Cache p} {q q' : Query} {k : Key} {now : ℤ}
    {before after : List Action} (hreach : Cache.Reachable p c₁) (hkey : makeKey q = .ok k)
    (hcopies : c₁.noCopies k = true) (hinv : c₁.step (.invalidate q) = some c₂)
    (hbefore : c₂.run before = some d) (hkey' : makeKey q' = .ok k)
    (hafter : d.run (.resolve q' true now :: after) = some c₃) {r : Result} {err : Option Error}
    (hreturn : c₃.calls[d.calls.length]? = some (.returned r err)) (haddrs : r.addrs ≠ []) :
    c₂.Produces k r.addrs (before ++ .resolve q' true now :: after) := by
  have hreach₂ := hreach.step hinv
  simp only [Cache.step, hkey, Option.some.injEq] at hinv
  obtain ⟨d', hd', hrest⟩ := run_cons hafter
  have hspawn : d' = d.spawn (.taking k q' now) := by
    simp only [Cache.step, hkey', if_true, Option.some.injEq] at hd'
    exact hd'.symm
  let A : List Addr → Prop := fun addrs =>
    c₂.Produces k addrs (before ++ .resolve q' true now :: after)
  have hforgotten : Forgotten A k c₂ := hinv ▸ forgotten_invalidate hcopies A
  have hd : Forgotten A k d := hforgotten.run hbefore fun addrs ha =>
    produces_append hbefore (.inl ha)
  have hproduced : ∀ addrs, d'.Produces k addrs after → A addrs := fun addrs ha =>
    produces_append hbefore (.inr (.inr ⟨d', hd', ha⟩))
  have hd'forgotten : Forgotten A k d' := hd.move (step_move hd') fun addrs ha => absurd ha id
  have hcall : d'.calls[d.calls.length]? = some (.taking k q' now) := by
    rw [hspawn]
    exact List.getElem?_concat_length
  have hfrom : CallFrom A k d' (.taking k q' now) := rfl
  obtain ⟨call, hcall', hfrom'⟩ :=
    hfrom.run hd'forgotten ((hreach₂.run hbefore).step hd') hrest hproduced hcall
  rw [hreturn] at hcall'
  cases hcall'
  exact hfrom' haddrs

/-! ## Runs -/

/-- A call from its entry to the answer of its own flight. -/
def resolveAgain (index : ℕ) (now : ℤ) : List Action :=
  [.take index, .start index now now, .check index,
    .answer index (.returned { addrs := [.v4 0xc000020b], expiresAt := now + 5 } none) now 1,
    .insert index [] [], .finish index, .receive index]

theorem invalidate_forgets_again : ∃ c₁ c₂ c₃ : Cache smallPolicy, ∃ r,
    (c₁.cached (keyFor "a.example")).isSome = true ∧
    c₁.noCopies (keyFor "a.example") = true ∧
    c₁.step (.invalidate (queryFor "a.example")) = some c₂ ∧
    c₂.run (.resolve (queryFor "a.example") true 102 :: resolveAgain 1 102) = some c₃ ∧
    c₃.calls[1]? = some (.returned r none) ∧
    c₂.Produces (keyFor "a.example") r.addrs
      ([] ++ .resolve (queryFor "a.example") true 102 :: resolveAgain 1 102) := by
  have hrun : (((newCache smallPolicy).run (resolveOnce "a.example" 0 100 [])).bind fun c₁ =>
      (c₁.step (.invalidate (queryFor "a.example"))).bind fun c₂ =>
      (c₂.run (.resolve (queryFor "a.example") true 102 :: resolveAgain 1 102)).map fun c₃ =>
        ((c₁.cached (keyFor "a.example")).isSome, c₁.noCopies (keyFor "a.example"),
          c₂.calls.length, c₃.calls[1]?)) = some (true, true, 1,
            some (.returned { addrs := [.v4 0xc000020b], expiresAt := 107 } none)) := by
    decide +kernel
  obtain ⟨c₁, h₁, hrun⟩ := Option.bind_eq_some_iff.mp hrun
  obtain ⟨c₂, h₂, hrun⟩ := Option.bind_eq_some_iff.mp hrun
  obtain ⟨c₃, h₃, hrun⟩ := Option.map_eq_some_iff.mp hrun
  simp only [Prod.mk.injEq] at hrun
  obtain ⟨hcached, hcopies, hlength, hcall⟩ := hrun
  refine ⟨c₁, c₂, c₃, _, hcached, hcopies, h₂, h₃, hcall, ?_⟩
  rw [← hlength] at hcall
  exact invalidate_forgets (Cache.Reachable.new.run h₁) rfl hcopies h₂ rfl rfl h₃ hcall (by decide)

/-- A refresh that is under way hands the addresses out again after they were invalidated. -/
theorem invalidate_remembers : ∃ c₁ c₂ c₃ : Cache smallPolicy,
    Cache.Reachable smallPolicy c₁ ∧
    (c₁.cached (keyFor "a.example")).map (·.stale) = some lastGood ∧
    c₁.step (.invalidate (queryFor "a.example")) = some c₂ ∧
    c₂.run (enterAndStart (queryFor "a.example") 3 134 ++ [.check 3]) = some c₃ ∧
    c₃.calls[3]? = some (.returned lastGood none) ∧
    ¬ c₂.Produces (keyFor "a.example") lastGood.addrs
      (enterAndStart (queryFor "a.example") 3 134 ++ [.check 3]) := by
  have hrun : (((newCache smallPolicy).run (failingRefresh.map Prod.fst ++
        enterAndStart (queryFor "a.example") 2 133 ++ [.check 2])).bind fun c₁ =>
      (c₁.step (.invalidate (queryFor "a.example"))).bind fun c₂ =>
      (c₂.run (enterAndStart (queryFor "a.example") 3 134 ++ [.check 3])).map fun c₃ =>
        ((c₁.cached (keyFor "a.example")).map (·.stale), c₃.calls[3]?)) =
      some (some lastGood, some (.returned lastGood none)) := by
    decide +kernel
  obtain ⟨c₁, h₁, hrun⟩ := Option.bind_eq_some_iff.mp hrun
  obtain ⟨c₂, h₂, hrun⟩ := Option.bind_eq_some_iff.mp hrun
  obtain ⟨c₃, h₃, hrun⟩ := Option.map_eq_some_iff.mp hrun
  obtain ⟨hcached, hcall⟩ := Prod.mk.inj hrun
  refine ⟨c₁, c₂, c₃, Cache.Reachable.new.run h₁, hcached, h₂, h₃, hcall, ?_⟩
  simp [enterAndStart, Cache.Produces, Action.Produces]

end SakhtarWg.Dns
