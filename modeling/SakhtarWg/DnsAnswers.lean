import SakhtarWg.DnsCalls

/-!
# What the cache hands out

An answer comes from a fresh entry, from the last good answer beside a failure, or from a
flight. Whichever way it takes, it is complete: addresses that can be dialed, or a negative
answer, or a failure with its error.
-/

namespace SakhtarWg.Dns
open Netip

variable {p : ValidPolicy}

/-! ## Normalised answers -/

/-- Pairwise distinct, valid, zone-free and unmapped. -/
structure CleanAddrs (addrs : List Addr) : Prop where
  nodup : addrs.Nodup
  each : ∀ a ∈ addrs, a.isValid = true ∧ a.zone = "" ∧ a.is4In6 = false

def WellFormed (r : Result) : Prop :=
  (r.rcode = .success ∧ r.addrs ≠ [] ∧ CleanAddrs r.addrs) ∨
    ((r.rcode = .nxdomain ∨ r.rcode = .nodata) ∧ r.addrs = [])

theorem WellFormed.ne_transient {r : Result} (h : WellFormed r) : r.rcode ≠ .transient := by
  rcases h with ⟨h, -⟩ | ⟨h | h, -⟩ <;> simp [h]

theorem CleanAddrs.snoc {addrs : List Addr} (h : CleanAddrs addrs) {addr : Addr}
    (hvalid : addr.isValid = true) (hzone : addr.zone = "") (hnew : addr.unmap ∉ addrs) :
    CleanAddrs (addrs ++ [addr.unmap]) where
  nodup := by
    rw [List.nodup_append_comm]
    exact List.nodup_cons.mpr ⟨hnew, h.nodup⟩
  each := by
    intro a ha
    rcases List.mem_append.mp ha with ha | ha
    · exact h.each a ha
    · cases List.mem_singleton.mp ha
      exact ⟨by rw [Addr.unmap_isValid, hvalid], Addr.unmap_zone hzone, Addr.unmap_is4In6 addr⟩

theorem normalizeAddrs_clean (input : List Addr) : CleanAddrs (normalizeAddrs input) := by
  unfold normalizeAddrs
  have hfold : ∀ acc, CleanAddrs acc → CleanAddrs (input.foldl (fun result addr =>
      if addr.isValid = false ∨ addr.zone ≠ "" then result
      else if addr.unmap ∈ result then result
      else result ++ [addr.unmap]) acc) := by
    induction input with
    | nil => exact fun acc h => h
    | cons addr input ih =>
      intro acc h
      apply ih
      dsimp only
      split_ifs with hbad hseen
      · exact h
      · exact h
      · push Not at hbad
        exact h.snoc (by simpa using hbad.1) hbad.2 hseen
  exact hfold [] ⟨List.nodup_nil, by simp⟩

/-- The time an answer stored at `now` is fresh. -/
def Lifetime (p : Policy) (r : Result) (now : ℤ) : Prop :=
  (r.rcode = .success →
    p.minPositiveTTL ≤ r.expiresAt - now ∧ r.expiresAt - now ≤ p.maxPositiveTTL) ∧
  (r.rcode = .nxdomain ∨ r.rcode = .nodata → r.expiresAt - now = p.negativeTTL) ∧
  (r.rcode = .transient → r.expiresAt - now = p.transientFailureTTL)

theorem normalizeResult_spec (p : ValidPolicy) (raw : Result) (rawErr : Option String) (now : ℤ) :
    (WellFormed (p.normalizeResult raw rawErr now).1 ∨
      ((p.normalizeResult raw rawErr now).1.rcode = .transient ∧
        (p.normalizeResult raw rawErr now).2 ≠ none)) ∧
      Lifetime p.toPolicy (p.normalizeResult raw rawErr now).1 now := by
  obtain ⟨-, hmax⟩ := Policy.ttl_pos p.valid
  have hclean := normalizeAddrs_clean raw.addrs
  unfold Policy.normalizeResult
  cases rawErr with
  | some text => exact ⟨.inr ⟨rfl, by simp⟩, by simp [Lifetime]⟩
  | none =>
    dsimp only
    split
    · rename_i hrcode
      have hne : normalizeAddrs raw.addrs ≠ [] := by
        intro hempty
        split_ifs at hrcode with hcond
        exact hcond ⟨hrcode, hempty⟩
      refine ⟨.inl (.inl ⟨rfl, hne, hclean⟩), fun _ => ?_, by simp, by simp⟩
      dsimp only
      split_ifs <;> omega
    · exact ⟨.inl (.inr ⟨.inl rfl, rfl⟩), by simp [Lifetime]⟩
    · exact ⟨.inl (.inr ⟨.inr rfl, rfl⟩), by simp [Lifetime]⟩
    · exact ⟨.inr ⟨rfl, by simp⟩, by simp [Lifetime]⟩

/-! ## Entries, flights and calls -/

structure EntryFormed (entry : CacheEntry) : Prop where
  result : WellFormed entry.result ∨ (entry.result.rcode = .transient ∧ entry.err ≠ none)
  stale : entry.stale.addrs ≠ [] → WellFormed entry.stale

structure FlightFormed (p : Policy) (flight : Flight) : Prop where
  stale : flight.stale.addrs ≠ [] → WellFormed flight.stale
  carried : ∀ entry now, flight.carries entry now →
    EntryFormed entry ∧ Lifetime p entry.result now
  closed : flight.phase = .closed → flight.err = none → WellFormed flight.result

def CallFormed : Call → Prop
  | .taking _ _ _ | .waiting _ => True
  | .starting _ _ stale _ refresh => (stale.addrs ≠ [] → WellFormed stale) ∧
      (refresh = true → WellFormed stale)
  | .joined _ stale refresh => refresh = true → WellFormed stale
  | .returned r err => err = none → WellFormed r

/-- Everything the cache holds or has handed out is complete. -/
structure Formed (c : Cache p) : Prop where
  holds : Holds (fun _ e => EntryFormed e) (FlightFormed p.toPolicy) c
  calls : ∀ (i : ℕ) call, c.calls[i]? = some call → CallFormed call

theorem EntryFormed.served {p : Policy} {entry : CacheEntry} {now : ℤ} (h : EntryFormed entry)
    (hserve : canServeStale p entry now = true) : WellFormed entry.stale := by
  simp only [canServeStale, decide_eq_true_eq] at hserve
  exact h.stale hserve.2.1

theorem resolvedEntry_formed (p : ValidPolicy) {flight : Flight}
    (h : flight.stale.addrs ≠ [] → WellFormed flight.stale) (answer : Answer) (now : ℤ) :
    EntryFormed (resolvedEntry p.toPolicy flight answer now) ∧
      Lifetime p.toPolicy (resolvedEntry p.toPolicy flight answer now).result now := by
  obtain ⟨hresult, hlife⟩ :=
    normalizeResult_spec p (callResolver answer).1 (callResolver answer).2 now
  simp only [resolvedEntry]
  split_ifs
  · exact ⟨⟨hresult, fun hn => absurd rfl hn⟩, hlife⟩
  · exact ⟨⟨hresult, h⟩, hlife⟩
  · exact ⟨⟨hresult, fun hn => absurd rfl hn⟩, hlife⟩

theorem freshFlight_formed {p : Policy} {k : Key} {q : Query} {entry : CacheEntry} {now : ℤ}
    (h : EntryFormed entry) : (freshFlight p k q entry now).err = none →
      WellFormed (freshFlight p k q entry now).result := by
  simp only [freshFlight]
  split_ifs with hs ht
  · exact fun _ => h.served hs.2
  · intro herr
    rcases h.result with hformed | ⟨-, hfailed⟩
    · exact absurd ht hformed.ne_transient
    · exact absurd herr hfailed
  · exact fun _ => h.result.resolve_right fun hr => ht hr.1

theorem formed_closed (p : Policy) :
    Closed p (fun _ e => EntryFormed e) (FlightFormed p) where
  fresh k q entry now h := by
    refine ⟨?_, fun entry' now' hc => ?_, fun _ => freshFlight_formed h⟩
    · simp only [freshFlight]
      split_ifs <;> exact fun hn => absurd rfl hn
    · simp [Flight.carries, freshFlight_phase] at hc
  insert flight entry now h hphase := by
    have hentry := h.carried entry now (.inl hphase)
    refine ⟨hentry.1, h.stale, fun entry' now' hc => ?_, fun hc => by cases hc⟩
    simp only [Flight.carries, Phase.finishing.injEq, reduceCtorEq, false_or] at hc
    rw [← hc.1, ← hc.2]
    exact hentry
  finish flight entry now h hphase := by
    have hentry := (h.carried entry now (.inr hphase)).1
    refine ⟨h.stale, fun entry' now' hc => ?_, fun _ => ?_⟩
    · simp [Flight.carries, publishedFlight] at hc
    · simp only [publishedFlight]
      cases hs : servesStale p entry now with
      | true =>
        simp only [servesStale, decide_eq_true_eq] at hs
        exact fun _ => hentry.served hs.2
      | false =>
        intro herr
        exact hentry.result.resolve_right fun hr => hr.2 herr

theorem Taken.formed {k : Key} {q : Query} {now : ℤ} {entry : CacheEntry} {found : Bool}
    {call : Call} (h : Taken p.toPolicy k q now entry found call)
    (hentry : (found = false ∧ entry = {}) ∨ EntryFormed entry) : CallFormed call := by
  have hserved : canServeStale p.toPolicy entry now = true → WellFormed entry.stale := by
    intro hserve
    rcases hentry with ⟨-, rfl⟩ | hentry
    · simp [canServeStale] at hserve
    · exact hentry.served hserve
  have hfound : found = true → EntryFormed entry := by
    intro hf
    exact hentry.resolve_left fun hn => by simp [hn.1] at hf
  cases h with
  | hit hrcode =>
    exact fun _ => (hfound rfl).result.resolve_right fun hr => by simp [hr.1] at hrcode
  | negative hrcode =>
    exact fun _ => (hfound rfl).result.resolve_right fun hr => by simp [hr.1] at hrcode
  | stale _ hserve => exact fun _ => hserved hserve
  | failed hrcode =>
    intro herr
    exact (hfound rfl).result.resolve_right fun hr => hr.2 herr
  | expired hrcode huntil =>
    refine ⟨fun hne => ?_, by simp⟩
    rcases hentry with ⟨-, rfl⟩ | hentry
    · exact absurd rfl hne
    · exact hentry.result.resolve_right fun hr => by simp [hr.1] at hrcode
  | refresh _ hserve => exact ⟨fun _ => hserved hserve, fun _ => hserved hserve⟩
  | miss => exact ⟨fun hne => absurd rfl hne, by simp⟩

/-! ## One step -/

theorem CallMove.formed {c c' : Cache p} {i : ℕ} {a : Action} {call call' : Call}
    (h : Holds (fun _ e => EntryFormed e) (FlightFormed p.toPolicy) c)
    (hmove : CallMove c c' i a call call') (hcall : CallFormed call) : CallFormed call' := by
  cases hmove with
  | stay => exact hcall
  | take htake hout =>
    rcases takeEntry_spec htake with hempty | ⟨hcached, -⟩
    · exact hout.formed (.inl hempty)
    · exact hout.formed (.inr (h.cached _ _ hcached))
  | join | fresh | launch => exact hcall.2
  | reject | cancel => exact fun hn => by cases hn
  | ready hheap hphase => exact (h.flights _ _ hheap).closed hphase
  | receive hheap hphase => exact (h.flights _ _ hheap).closed hphase
  | refresh => exact fun _ => hcall rfl
  | serve hheap hserve haddrs => exact fun _ => (h.flights _ _ hheap).stale haddrs
  | wait => trivial

theorem Formed.move {c c' : Cache p} {a : Action} (h : Formed c) (hmove : Move c a c') :
    Formed c' := by
  refine ⟨h.holds.move (formed_closed p.toPolicy) hmove ?_ ?_, fun i call' hi => ?_⟩
  · intro i k q stale staleUntil refresh _ _ _ hcall _
    exact ⟨(h.calls i _ hcall).1, fun entry now hc => by simp [Flight.carries] at hc,
      fun hc => by cases hc⟩
  · intro f flight answer now elapsed _ _ _ hflight
    refine ⟨hflight.stale, fun entry now' hc => ?_, fun hc => by cases hc⟩
    simp only [Flight.carries, Phase.inserting.injEq, reduceCtorEq, or_false] at hc
    rw [← hc.1, ← hc.2]
    exact resolvedEntry_formed p hflight.stale answer now
  · rcases hmove.call_of hi with ⟨call, hold, hcall⟩ | ⟨-, ⟨e, rfl⟩ | ⟨k, q, now, rfl⟩⟩
    · exact hcall.formed h.holds (h.calls i call hold)
    · exact fun hn => by cases hn
    · trivial

theorem Cache.Reachable.formed {c : Cache p} (h : Cache.Reachable p c) : Formed c := by
  induction h with
  | new =>
    exact ⟨⟨fun k e he => by simp [Cache.cached, newCache] at he, fun f x hx => by cases hx⟩,
      fun i call hi => by cases hi⟩
  | step _ hstep ih => exact ih.move (step_move hstep)

/-! ## What callers see -/

theorem cached_insert (c : Cache p) (k : Key) (entry : CacheEntry) (now : ℤ)
    (sweep victims : List Key) :
    (c.unlock k ((c.lock k).insert k entry now sweep victims)).cached k = some entry := by
  simp only [Cache.cached, Cache.unlock, Function.update_self, insert_eq, Locked.write,
    AList.lookup_insert]

/-- Every answer without an error is well formed, a failure comes with its error, and an entry
is stored for the lifetime of its class. -/
theorem cache_answers {c : Cache p} (h : Cache.Reachable p c) :
    (∀ (i : ℕ) r err, c.calls[i]? = some (.returned r err) →
      (err = none → WellFormed r) ∧ (r.rcode = .transient → err ≠ none)) ∧
    ∀ f sweep victims c', c.step (.insert f sweep victims) = some c' →
      ∃ flight entry now, c.heap[f]? = some flight ∧ flight.phase = .inserting entry now ∧
        c'.cached flight.key = some entry ∧ Lifetime p.toPolicy entry.result now := by
  have hformed := h.formed
  refine ⟨fun i r err hi => ?_, fun f sweep victims c' hstep => ?_⟩
  · have hcall : err = none → WellFormed r := hformed.calls i _ hi
    exact ⟨hcall, fun hrcode herr => (hcall herr).ne_transient hrcode⟩
  · cases step_move hstep with
    | @insert _ flight entry now _ _ hheap hphase =>
      refine ⟨flight, entry, now, hheap, hphase, cached_insert c flight.key entry now _ _, ?_⟩
      exact ((hformed.holds.flights _ _ hheap).carried entry now (.inl hphase)).2

/-- A name resolved and asked for again: the answer is the one address, stored for the shortest
lifetime. -/
theorem cache_answers_again : ∃ c : Cache smallPolicy, ∃ r,
    c.calls[0]? = some (.returned r none) ∧ r.addrs = [.v4 0xc000020a] ∧ WellFormed r := by
  have hrun : ((newCache smallPolicy).run (resolveOnce "a.example" 0 100 [])).map
      (fun c => c.calls[0]?) =
        some (some (.returned { addrs := [.v4 0xc000020a], expiresAt := 105 } none)) := by
    decide +kernel
  obtain ⟨c, hc, hcall⟩ := Option.map_eq_some_iff.mp hrun
  exact ⟨c, _, hcall, rfl, ((cache_answers (Cache.Reachable.new.run hc)).1 0 _ _ hcall).1 rfl⟩

end SakhtarWg.Dns
