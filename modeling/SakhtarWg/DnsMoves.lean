import SakhtarWg.DnsCapacity

/-!
# What one section of the cache can do

The steps of the cache in inverted form: one case for every way through a critical
section, with what was tested on the way and the state it leaves. The invariants of
the flights and of the answers are proved from these cases.
-/

namespace SakhtarWg.Dns
open Netip

/-! ## The entries a section keeps -/

/-- Every entry afterwards was there before, and no flight came or went. -/
structure Locked.Keeps (w w' : Locked) : Prop where
  entries : ∀ j e, w'.shard.entries.lookup j = some e → w.shard.entries.lookup j = some e
  pending : w'.metrics.pending = w.metrics.pending

theorem Locked.Keeps.refl (w : Locked) : w.Keeps w := ⟨fun _ _ h => h, rfl⟩

theorem Locked.Keeps.trans {w₁ w₂ w₃ : Locked} (h : w₁.Keeps w₂) (h' : w₂.Keeps w₃) :
    w₁.Keeps w₃ :=
  ⟨fun j e he => h.entries j e (h'.entries j e he), h'.pending.trans h.pending⟩

theorem deleteLocked_keeps (w : Locked) (k : Key) (e : CacheEntry) :
    w.Keeps (w.deleteLocked k e) := by
  refine ⟨fun j e' h => ?_, rfl⟩
  by_cases hj : j = k
  · subst hj
    simp [Locked.deleteLocked] at h
  · simpa [Locked.deleteLocked, AList.lookup_erase_ne hj] using h

theorem sweepLocked_keeps (w : Locked) (now : ℤ) (limit : ℕ) (order : List Key) :
    w.Keeps (w.sweepLocked now limit order) := by
  unfold Locked.sweepLocked
  induction order.take limit generalizing w with
  | nil => exact .refl w
  | cons k ks ih =>
    rw [List.foldl_cons]
    split
    · split
      · exact (deleteLocked_keeps w k _).trans (ih _)
      · exact ih w
    · exact ih w

theorem evict_keeps (w : Locked) (c : Class) (order : List Key) : w.Keeps (w.evict c order) := by
  unfold Locked.evict
  split
  · rename_i k victim _
    exact ⟨(deleteLocked_keeps w k victim).entries, rfl⟩
  · exact .refl w

theorem beforeWrite_keeps (w : Locked) (k : Key) (entry : CacheEntry) (now : ℤ)
    (sweep victims : List Key) : w.Keeps (w.beforeWrite k entry now sweep victims) := by
  have hbefore : w.Keeps (w.beforeEvict k now sweep) := by
    simp only [Locked.beforeEvict]
    split
    · exact (sweepLocked_keeps w now 4 sweep).trans (deleteLocked_keeps _ k _)
    · exact sweepLocked_keeps w now 4 sweep
  simp only [Locked.beforeWrite]
  split
  · exact hbefore.trans (evict_keeps _ _ victims)
  · exact hbefore

theorem insert_lookup {w : Locked} {k : Key} {entry : CacheEntry} {now : ℤ}
    {sweep victims : List Key} {j : Key} {e : CacheEntry}
    (h : (w.insert k entry now sweep victims).shard.entries.lookup j = some e) :
    (j = k ∧ e = entry) ∨ w.shard.entries.lookup j = some e := by
  rw [insert_eq] at h
  by_cases hj : j = k
  · subst hj
    simp only [Locked.write, AList.lookup_insert, Option.some.injEq] at h
    exact .inl ⟨rfl, h.symm⟩
  · simp only [Locked.write, AList.lookup_insert_ne hj] at h
    exact .inr ((beforeWrite_keeps w k entry now sweep victims).entries j e h)

theorem insert_pending (w : Locked) (k : Key) (entry : CacheEntry) (now : ℤ)
    (sweep victims : List Key) :
    (w.insert k entry now sweep victims).metrics.pending = w.metrics.pending := by
  rw [insert_eq]
  exact (beforeWrite_keeps w k entry now sweep victims).pending

theorem takeEntry_keeps (p : Policy) (w : Locked) (k : Key) (now : ℤ) :
    w.Keeps (w.takeEntry p k now).1 := by
  unfold Locked.takeEntry
  split
  · exact .refl w
  · split
    · exact .refl w
    · split
      · exact .refl w
      · exact deleteLocked_keeps w k _

theorem invalidate_keeps (w : Locked) (k : Key) : w.Keeps (w.invalidate k) := by
  unfold Locked.invalidate
  split
  · exact .refl w
  · exact ⟨(deleteLocked_keeps w k _).entries, rfl⟩

theorem invalidate_lookup_self (w : Locked) (k : Key) :
    (w.invalidate k).shard.entries.lookup k = none := by
  unfold Locked.invalidate
  split
  · assumption
  · simp [Locked.deleteLocked]

/-- `takeEntry` hands out the entry that is cached, or the zero entry. -/
theorem takeEntry_spec {p : Policy} {w w' : Locked} {k : Key} {now : ℤ} {entry : CacheEntry}
    {found : Bool} (h : w.takeEntry p k now = (w', entry, found)) :
    (found = false ∧ entry = {}) ∨
      (w.shard.entries.lookup k = some entry ∧
        (found = true ↔ now < entry.result.expiresAt)) := by
  unfold Locked.takeEntry at h
  split at h
  · cases h
    exact .inl ⟨rfl, rfl⟩
  · rename_i e he
    split at h
    · rename_i hfresh
      cases h
      exact .inr ⟨he, by simpa using hfresh⟩
    · rename_i hfresh
      split at h <;> cases h <;> exact .inr ⟨he, by simpa using hfresh⟩

/-! ## The cached entry of a key -/

variable {p : ValidPolicy}

def Cache.cached (c : Cache p) (k : Key) : Option CacheEntry :=
  (c.shards (p.shardFor k)).entries.lookup k

theorem cached_unlock {c : Cache p} {k j : Key} {w : Locked} {e : CacheEntry} {X : Prop}
    (h : (c.unlock k w).cached j = some e)
    (hw : w.shard.entries.lookup j = some e →
      X ∨ (c.lock k).shard.entries.lookup j = some e) : X ∨ c.cached j = some e := by
  simp only [Cache.cached, Cache.unlock] at h
  by_cases hj : p.shardFor j = p.shardFor k
  · rw [hj, Function.update_self] at h
    rw [Cache.cached, hj]
    exact hw h
  · rw [Function.update_of_ne hj] at h
    exact .inr h

theorem cached_of_keeps {c : Cache p} {k j : Key} {w : Locked} {e : CacheEntry}
    (hw : (c.lock k).Keeps w) (h : (c.unlock k w).cached j = some e) : c.cached j = some e :=
  (cached_unlock (X := False) h fun h => .inr (hw.entries j e h)).resolve_left id

theorem cached_setFlight (c : Cache p) (f : ℕ) (x : Flight) (k : Key) :
    (c.setFlight f x).cached k = c.cached k := rfl

theorem cached_of_insert {c : Cache p} {k j : Key} {entry e : CacheEntry} {now : ℤ}
    {sweep victims : List Key}
    (h : (c.unlock k ((c.lock k).insert k entry now sweep victims)).cached j = some e) :
    (j = k ∧ e = entry) ∨ c.cached j = some e :=
  cached_unlock h insert_lookup

theorem cached_of_invalidate (c : Cache p) (k : Key) :
    (c.unlock k ((c.lock k).invalidate k)).cached k = none := by
  simp only [Cache.cached, Cache.unlock, Function.update_self]
  exact invalidate_lookup_self _ k

/-- The place of a call or a flight that is there, after it is replaced. -/
theorem getElem?_replaced {α : Type} {l : List α} {i : ℕ} {x : α} (h : l[i]? = some x) (y : α)
    (j : ℕ) : (l.set i y)[j]? = if i = j then some y else l[j]? := by
  have hi : i < l.length := (List.getElem?_eq_some_iff.mp h).1
  rw [List.getElem?_set]
  by_cases hj : i = j
  · rw [if_pos hj, if_pos hj, if_pos hi]
  · rw [if_neg hj, if_neg hj]

theorem getElem?_appended {α : Type} {l : List α} {x y : α} {j : ℕ}
    (h : (l ++ [x])[j]? = some y) : l[j]? = some y ∨ (j = l.length ∧ y = x) := by
  rw [List.getElem?_append] at h
  split at h
  · exact .inl h
  · rename_i hj
    rw [List.getElem?_singleton] at h
    split at h
    · rename_i hz
      cases h
      exact .inr ⟨by omega, rfl⟩
    · cases h

/-! ## The cases of a step -/

/-- What `Resolve` makes of the entry it took. -/
inductive Taken (p : Policy) (k : Key) (q : Query) (now : ℤ) (entry : CacheEntry) :
    Bool → Call → Prop
  | hit : entry.result.rcode = .success → Taken p k q now entry true (.returned entry.result none)
  | negative : entry.result.rcode = .nxdomain ∨ entry.result.rcode = .nodata →
      Taken p k q now entry true (.returned entry.result none)
  | stale : entry.result.rcode = .transient → canServeStale p entry now = true →
      Taken p k q now entry true (.returned entry.stale none)
  | failed : entry.result.rcode = .transient →
      Taken p k q now entry true (.returned entry.result entry.err)
  | expired {found : Bool} : entry.result.rcode = .success → now < entry.staleUntil →
      Taken p k q now entry found (.starting k q entry.result entry.staleUntil false)
  | refresh {found : Bool} : entry.result.rcode = .transient → canServeStale p entry now = true →
      Taken p k q now entry found (.starting k q entry.stale entry.staleUntil true)
  | miss {found : Bool} : Taken p k q now entry found (.starting k q {} 0 false)

/-- The entry that `runFlight` stores for an answer received at `now`. -/
def resolvedEntry (p : Policy) (flight : Flight) (answer : Answer) (now : ℤ) : CacheEntry :=
  let (raw, rawErr) := callResolver answer
  let (result, err) := p.normalizeResult raw rawErr now
  let entry : CacheEntry := { result := result, err := err }
  if result.rcode = .success then
    { entry with staleUntil := result.expiresAt + p.staleWindow }
  else if result.rcode = .transient ∧ flight.stale.addrs ≠ [] ∧ now < flight.staleUntil then
    { entry with stale := flight.stale, staleUntil := flight.staleUntil }
  else entry

/-- A finished flight serves its last good answer in place of a transient failure. -/
def servesStale (p : Policy) (entry : CacheEntry) (now : ℤ) : Bool :=
  entry.result.rcode = .transient ∧ canServeStale p entry now = true

/-- The flight once its outcome is published. -/
def publishedFlight (p : Policy) (flight : Flight) (entry : CacheEntry) (now : ℤ) : Flight :=
  { flight with
    phase := .closed
    result := if servesStale p entry now then entry.stale else entry.result
    err := if servesStale p entry now then none else entry.err }

/-- One case for every way through a section. The metrics are free but for the count of flights
that are pending. -/
inductive Move (c : Cache p) : Action → Cache p → Prop
  | refuse {q : Query} {hasResolver : Bool} {now : ℤ} {e : Error} (herr : e ≠ .pendingLimit) :
      Move c (.resolve q hasResolver now) (c.spawn (.returned {} (some e)))
  | enter {q : Query} {k : Key} {now : ℤ} (hkey : makeKey q = .ok k) :
      Move c (.resolve q true now) (c.spawn (.taking k q now))
  | take {i : ℕ} {k : Key} {q : Query} {now : ℤ} {w : Locked} {entry : CacheEntry}
      {found : Bool} {m : Metrics} {call : Call}
      (hcall : c.calls[i]? = some (.taking k q now))
      (htake : (c.lock k).takeEntry p.toPolicy k now = (w, entry, found))
      (hm : m.pending = c.metrics.pending) (hout : Taken p.toPolicy k q now entry found call) :
      Move c (.take i) ({ c.unlock k w with metrics := m }.setCall i call)
  | join {i f : ℕ} {k : Key} {q : Query} {stale : Result} {staleUntil now now' : ℤ}
      {refresh : Bool} (hcall : c.calls[i]? = some (.starting k q stale staleUntil refresh))
      (hflight : c.flights.lookup k = some f) :
      Move c (.start i now now') (c.setCall i (.joined f stale refresh))
  | fresh {i : ℕ} {k : Key} {q : Query} {stale : Result} {staleUntil now now' : ℤ}
      {refresh : Bool} {entry : CacheEntry}
      (hcall : c.calls[i]? = some (.starting k q stale staleUntil refresh))
      (hflight : c.flights.lookup k = none) (hcached : c.cached k = some entry)
      (hfresh : now < entry.result.expiresAt) :
      Move c (.start i now now')
        ({ c with heap := c.heap ++ [freshFlight p.toPolicy k q entry now'] }.setCall i
          (.joined c.heap.length stale refresh))
  | reject {i : ℕ} {k : Key} {q : Query} {stale : Result} {staleUntil now now' : ℤ}
      {refresh : Bool} {m : Metrics}
      (hcall : c.calls[i]? = some (.starting k q stale staleUntil refresh))
      (hflight : c.flights.lookup k = none)
      (hfull : p.maxPending ≤ (c.pendingByEgress.lookup k.egress).getD 0)
      (hm : m.pending = c.metrics.pending) :
      Move c (.start i now now')
        ({ c with metrics := m }.setCall i (.returned {} (some .pendingLimit)))
  | launch {i : ℕ} {k : Key} {q : Query} {stale : Result} {staleUntil now now' : ℤ}
      {refresh : Bool} (hcall : c.calls[i]? = some (.starting k q stale staleUntil refresh))
      (hflight : c.flights.lookup k = none)
      (hexpired : ∀ entry, c.cached k = some entry → ¬ now < entry.result.expiresAt)
      (hroom : (c.pendingByEgress.lookup k.egress).getD 0 < p.maxPending) :
      Move c (.start i now now')
        ({ c with
          flights := c.flights.insert k c.heap.length
          pendingByEgress := c.pendingByEgress.insert k.egress
            ((c.pendingByEgress.lookup k.egress).getD 0 + 1)
          metrics := { c.metrics with pending := c.metrics.pending + 1 }
          heap := c.heap ++ [Flight.mk k q stale staleUntil refresh .resolving {} none] }.setCall i
            (.joined c.heap.length stale refresh))
  | ready {i f : ℕ} {stale : Result} {refresh : Bool} {flight : Flight}
      (hcall : c.calls[i]? = some (.joined f stale refresh)) (hheap : c.heap[f]? = some flight)
      (hphase : flight.phase = .closed) :
      Move c (.check i) (c.setCall i (.returned flight.result flight.err))
  | refresh {i f : ℕ} {stale : Result} {flight : Flight} {m : Metrics}
      (hcall : c.calls[i]? = some (.joined f stale true)) (hheap : c.heap[f]? = some flight)
      (hphase : flight.phase ≠ .closed) (hm : m.pending = c.metrics.pending) :
      Move c (.check i) ({ c with metrics := m }.setCall i (.returned stale none))
  | serve {i f : ℕ} {stale : Result} {flight : Flight} {m : Metrics}
      (hcall : c.calls[i]? = some (.joined f stale false)) (hheap : c.heap[f]? = some flight)
      (hphase : flight.phase ≠ .closed) (hserve : flight.serveStale = true)
      (haddrs : flight.stale.addrs ≠ []) (hm : m.pending = c.metrics.pending) :
      Move c (.check i) ({ c with metrics := m }.setCall i (.returned flight.stale none))
  | wait {i f : ℕ} {stale : Result} {flight : Flight}
      (hcall : c.calls[i]? = some (.joined f stale false)) (hheap : c.heap[f]? = some flight)
      (hphase : flight.phase ≠ .closed) : Move c (.check i) (c.setCall i (.waiting f))
  | receive {i f : ℕ} {flight : Flight} (hcall : c.calls[i]? = some (.waiting f))
      (hheap : c.heap[f]? = some flight) (hphase : flight.phase = .closed) :
      Move c (.receive i) (c.setCall i (.returned flight.result flight.err))
  | cancel {i f : ℕ} {reason : String} (hcall : c.calls[i]? = some (.waiting f)) :
      Move c (.cancel i reason) (c.setCall i (.returned {} (some (.context reason))))
  | answer {f : ℕ} {flight : Flight} {answer : Answer} {now elapsed : ℤ} {m : Metrics}
      (hheap : c.heap[f]? = some flight) (hphase : flight.phase = .resolving)
      (hm : m.pending = c.metrics.pending) :
      Move c (.answer f answer now elapsed) ({ c with metrics := m }.setFlight f
        { flight with phase := .inserting (resolvedEntry p.toPolicy flight answer now) now })
  | insert {f : ℕ} {flight : Flight} {entry : CacheEntry} {now : ℤ} {sweep victims : List Key}
      (hheap : c.heap[f]? = some flight) (hphase : flight.phase = .inserting entry now) :
      Move c (.insert f sweep victims)
        ((c.unlock flight.key ((c.lock flight.key).insert flight.key entry now sweep
          victims)).setFlight f { flight with phase := .finishing entry now })
  | finish {f : ℕ} {flight : Flight} {entry : CacheEntry} {now : ℤ} {m : Metrics}
      (hheap : c.heap[f]? = some flight) (hphase : flight.phase = .finishing entry now)
      (hm : m.pending = c.metrics.pending - 1) :
      Move c (.finish f)
        ({ c with
          flights := c.flights.erase flight.key
          pendingByEgress :=
            if (c.pendingByEgress.lookup flight.key.egress).getD 0 - 1 ≤ 0 then
              c.pendingByEgress.erase flight.key.egress
            else c.pendingByEgress.insert flight.key.egress
              ((c.pendingByEgress.lookup flight.key.egress).getD 0 - 1)
          metrics := m }.setFlight f (publishedFlight p.toPolicy flight entry now))
  | ignore {q : Query} : Move c (.invalidate q) c
  | invalidate {q : Query} {k : Key} (hkey : makeKey q = .ok k) :
      Move c (.invalidate q) (c.unlock k ((c.lock k).invalidate k))

theorem makeKey_error {q : Query} {e : Error} (h : makeKey q = .error e) : e ≠ .pendingLimit := by
  simp only [makeKey, Fallible.require, bind, Except.bind] at h
  split at h
  · rename_i h'
    split at h'
    · cases h'
    · cases h'
      cases h
      simp
  · split at h
    · cases h
      simp
    · cases h

theorem afterTake_move (c : Cache p) (i : ℕ) (k : Key) (q : Query) (now : ℤ) (entry : CacheEntry)
    (found : Bool) : ∃ m call,
      c.afterTake i k q now entry found = { c with metrics := m }.setCall i call ∧
        m.pending = c.metrics.pending ∧ Taken p.toPolicy k q now entry found call := by
  unfold Cache.afterTake
  dsimp only
  cases found with
  | true =>
    rw [if_pos rfl]
    split
    · exact ⟨_, _, rfl, rfl, .hit ‹_›⟩
    · exact ⟨_, _, rfl, rfl, .negative (.inl ‹_›)⟩
    · exact ⟨_, _, rfl, rfl, .negative (.inr ‹_›)⟩
    · split
      · exact ⟨_, _, rfl, rfl, .stale ‹_› ‹_›⟩
      · exact ⟨_, _, rfl, rfl, .failed ‹_›⟩
    · rename_i hunknown
      rw [hunknown, if_neg (by simp), if_neg (by simp)]
      exact ⟨_, _, rfl, rfl, .miss⟩
  | false =>
    rw [if_neg (by simp)]
    split
    · rename_i h
      exact ⟨_, _, rfl, rfl, .expired h.1 h.2⟩
    · split
      · rename_i h
        exact ⟨_, _, rfl, rfl, .refresh h.1 h.2⟩
      · exact ⟨_, _, rfl, rfl, .miss⟩

theorem startFlight_move {c : Cache p} {i : ℕ} {k : Key} {q : Query} {stale : Result}
    {staleUntil : ℤ} {refresh : Bool} (now now' : ℤ)
    (hcall : c.calls[i]? = some (.starting k q stale staleUntil refresh)) :
    Move c (.start i now now') (c.startFlight i k q stale staleUntil refresh now now') := by
  unfold Cache.startFlight
  split
  · exact .join hcall ‹_›
  · rename_i hflight
    split
    · rename_i entry hentry
      obtain ⟨hcached, hfresh⟩ := Option.filter_eq_some_iff.mp hentry
      exact .fresh hcall hflight hcached (by simpa using hfresh)
    · rename_i hnone
      have hexpired : ∀ entry, c.cached k = some entry → ¬ now < entry.result.expiresAt := by
        intro entry hentry hfresh
        have := Option.filter_eq_none_iff.mp hnone entry hentry
        simp [hfresh] at this
      dsimp only
      split
      · exact .reject hcall hflight ‹_› rfl
      · exact .launch hcall hflight hexpired (by omega)

theorem check_move {c : Cache p} {i f : ℕ} {stale : Result} {refresh : Bool} {flight : Flight}
    (hcall : c.calls[i]? = some (.joined f stale refresh)) (hheap : c.heap[f]? = some flight) :
    Move c (.check i) (c.check i f flight stale refresh) := by
  unfold Cache.check
  split
  · exact .ready hcall hheap ‹_›
  · rename_i hphase
    split
    · rename_i hrefresh
      subst hrefresh
      exact .refresh hcall hheap hphase rfl
    · rename_i hrefresh
      rw [Bool.not_eq_true] at hrefresh
      subst hrefresh
      split
      · rename_i h
        exact .serve hcall hheap hphase h.1 h.2 rfl
      · exact .wait hcall hheap hphase

theorem finish_move {c : Cache p} {f : ℕ} {flight : Flight} {entry : CacheEntry} {now : ℤ}
    (hheap : c.heap[f]? = some flight) (hphase : flight.phase = .finishing entry now) :
    Move c (.finish f) (c.finish f flight entry now) := by
  have hmove := Move.finish (c := c) (m := { (if servesStale p.toPolicy entry now then
    c.request .stale else c).metrics with pending := c.metrics.pending - 1 }) hheap hphase rfl
  unfold publishedFlight servesStale at hmove
  unfold Cache.finish
  generalize decide (entry.result.rcode = .transient ∧
    canServeStale p.toPolicy entry now = true) = serve at hmove ⊢
  cases serve <;> exact hmove

/-- Every step is one of the cases. -/
theorem step_move {c c' : Cache p} {a : Action} (h : c.step a = some c') : Move c a c' := by
  cases a with
  | resolve query hasResolver now =>
    simp only [Cache.step] at h
    split at h
    · rename_i hres
      subst hres
      split at h
      · rename_i e he
        cases h
        exact .refuse (makeKey_error he)
      · rename_i k hk
        cases h
        exact .enter hk
    · cases h
      exact .refuse (by simp)
  | take i =>
    simp only [Cache.step] at h
    split at h
    · rename_i k q now hcall
      cases h
      cases htake : (c.lock k).takeEntry p.toPolicy k now with
      | mk w rest =>
        obtain ⟨entry, found⟩ := rest
        obtain ⟨m, call, heq, hm, hout⟩ := afterTake_move (c.unlock k w) i k q now entry found
        have hkeeps := takeEntry_keeps p.toPolicy (c.lock k) k now
        rw [htake] at hkeeps
        simp only [Cache.take, htake, heq]
        exact .take hcall htake (hm.trans hkeeps.pending) hout
    · cases h
  | start i now now' =>
    simp only [Cache.step] at h
    split at h
    · cases h
      exact startFlight_move now now' ‹_›
    · cases h
  | check i =>
    simp only [Cache.step] at h
    split at h
    · obtain ⟨flight, hheap, rfl⟩ := Option.map_eq_some_iff.mp h
      exact check_move ‹_› hheap
    · cases h
  | receive i =>
    simp only [Cache.step] at h
    split at h
    · split at h
      · split at h
        · cases h
          exact .receive ‹_› ‹_› ‹_›
        · cases h
      · cases h
    · cases h
  | cancel i reason =>
    simp only [Cache.step] at h
    split at h
    · cases h
      exact .cancel ‹_›
    · cases h
  | answer f answer now elapsed =>
    simp only [Cache.step] at h
    split at h
    · split at h
      · cases h
        exact .answer ‹_› ‹_› rfl
      · cases h
    · cases h
  | insert f sweep victims =>
    simp only [Cache.step] at h
    split at h
    · split at h
      · split at h
        · cases h
          exact .insert ‹_› ‹_›
        · cases h
      · cases h
    · cases h
  | finish f =>
    simp only [Cache.step] at h
    split at h
    · split at h
      · cases h
        exact finish_move ‹_› ‹_›
      · cases h
    · cases h
  | invalidate query =>
    simp only [Cache.step] at h
    split at h
    · cases h
      exact .ignore
    · cases h
      exact .invalidate ‹_›

/-- A start for the key launches a flight: none is registered, nothing fresh is cached and the
egress has room. -/
def Cache.launches (c : Cache p) (k : Key) (now : ℤ) : Bool :=
  (c.flights.lookup k).isNone && !(c.cached k).any (now < ·.result.expiresAt) &&
    (c.pendingByEgress.lookup k.egress).getD 0 < p.maxPending

theorem launches_iff {c : Cache p} {k : Key} {now : ℤ} : c.launches k now = true ↔
    c.flights.lookup k = none ∧
      (∀ entry, c.cached k = some entry → ¬ now < entry.result.expiresAt) ∧
      (c.pendingByEgress.lookup k.egress).getD 0 < p.maxPending := by
  simp only [Cache.launches, Bool.and_eq_true, Option.isNone_iff_eq_none, Bool.not_eq_true',
    Option.any_eq_false, decide_eq_true_eq, decide_eq_false_iff_not, and_assoc]

/-! ## Properties of all entries and flights -/

/-- Every cached entry and every flight has the property. -/
structure Holds (E : Key → CacheEntry → Prop) (F : Flight → Prop) (c : Cache p) : Prop where
  cached : ∀ k e, c.cached k = some e → E k e
  flights : ∀ (f : ℕ) flight, c.heap[f]? = some flight → F flight

/-- The ways to make an entry or to change a flight that depend on nothing else keep the
properties. -/
structure Closed (p : Policy) (E : Key → CacheEntry → Prop) (F : Flight → Prop) : Prop where
  fresh : ∀ k q entry now, E k entry → F (freshFlight p k q entry now)
  insert : ∀ flight entry now, F flight → flight.phase = .inserting entry now →
    E flight.key entry ∧ F { flight with phase := .finishing entry now }
  finish : ∀ flight entry now, F flight → flight.phase = .finishing entry now →
    F (publishedFlight p flight entry now)

theorem Holds.replaced {E : Key → CacheEntry → Prop} {F : Flight → Prop} {c : Cache p}
    (h : Holds E F c) {f : ℕ} {flight flight' : Flight} (hheap : c.heap[f]? = some flight)
    (hnew : F flight') (g : ℕ) (x : Flight) (hx : (c.heap.set f flight')[g]? = some x) : F x := by
  rw [getElem?_replaced hheap] at hx
  split at hx
  · cases hx
    exact hnew
  · exact h.flights g x hx

theorem Holds.appended {E : Key → CacheEntry → Prop} {F : Flight → Prop} {c : Cache p}
    (h : Holds E F c) {flight : Flight} (hnew : F flight) (g : ℕ) (x : Flight)
    (hx : (c.heap ++ [flight])[g]? = some x) : F x := by
  rcases getElem?_appended hx with hx | ⟨-, rfl⟩
  · exact h.flights g x hx
  · exact hnew

theorem Holds.move {E : Key → CacheEntry → Prop} {F : Flight → Prop} {c c' : Cache p} {a : Action}
    (h : Holds E F c) (hc : Closed p.toPolicy E F) (hmove : Move c a c')
    (hlaunch : ∀ (i : ℕ) k q stale staleUntil refresh now now', a = .start i now now' →
      c.calls[i]? = some (.starting k q stale staleUntil refresh) → c.launches k now = true →
        F ⟨k, q, stale, staleUntil, refresh, .resolving, {}, none⟩)
    (hanswer : ∀ (f : ℕ) flight answer now elapsed, a = .answer f answer now elapsed →
      c.heap[f]? = some flight → flight.phase = .resolving → F flight →
        F { flight with phase := .inserting (resolvedEntry p.toPolicy flight answer now) now }) :
    Holds E F c' := by
  cases hmove with
  | refuse | enter | join | reject | ready | refresh | serve | wait | receive | cancel | ignore =>
    exact ⟨h.cached, h.flights⟩
  | @take _ k q now _ _ _ _ _ hcall htake hm hout =>
    have hkeeps := takeEntry_keeps p.toPolicy (c.lock k) k now
    rw [htake] at hkeeps
    exact ⟨fun j e hj => h.cached j e (cached_of_keeps hkeeps hj), h.flights⟩
  | fresh hcall hflight hcached hfresh =>
    exact ⟨h.cached, h.appended (hc.fresh _ _ _ _ (h.cached _ _ hcached))⟩
  | launch hcall hflight hexpired hroom =>
    have hlaunches := launches_iff.mpr ⟨hflight, hexpired, hroom⟩
    exact ⟨h.cached, h.appended (hlaunch _ _ _ _ _ _ _ _ rfl hcall hlaunches)⟩
  | answer hheap hphase hm =>
    exact ⟨h.cached, h.replaced hheap
      (hanswer _ _ _ _ _ rfl hheap hphase (h.flights _ _ hheap))⟩
  | insert hheap hphase =>
    obtain ⟨hentry, hflight⟩ := hc.insert _ _ _ (h.flights _ _ hheap) hphase
    refine ⟨fun j e hj => ?_, h.replaced hheap hflight⟩
    rw [cached_setFlight] at hj
    rcases cached_of_insert hj with ⟨rfl, rfl⟩ | hj
    · exact hentry
    · exact h.cached j e hj
  | finish hheap hphase hm =>
    exact ⟨h.cached, h.replaced hheap (hc.finish _ _ _ (h.flights _ _ hheap) hphase)⟩
  | invalidate hkey =>
    exact ⟨fun j e hj => h.cached j e (cached_of_keeps (invalidate_keeps _ _) hj), h.flights⟩

end SakhtarWg.Dns
