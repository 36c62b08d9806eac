import SakhtarWg.DnsFlights

/-!
# Sweeping

An insertion sweeps a few entries that are past their expiry and past their stale horizon. Two runs
of the cache that sweep different entries, or none, are compared here: they keep agreeing on
everything that a caller or a resolver can see.
-/

namespace SakhtarWg.Dns

variable {p : ValidPolicy}

/-! ## Runs with other sweeps -/

/-- `insert` up to the eviction, with a sweep that visits the given keys. -/
def Locked.sweepVisiting (w : Locked) (k : Key) (now : ℤ) (visited : List Key) : Locked :=
  let w := w.sweepLocked now visited.length visited
  match w.shard.entries.lookup k with
  | some previous => w.deleteLocked k previous
  | none => w

def Locked.insertVisiting (w : Locked) (k : Key) (entry : CacheEntry) (now : ℤ)
    (visited victims : List Key) : Locked :=
  let w := w.sweepVisiting k now visited
  let c := entry.entryClass
  let w := if w.shard.capacity c ≤ w.shard.counts c then w.evict c victims else w
  w.write k entry

/-- A step of the cache in which an insertion sweeps the given keys. -/
def Cache.stepVisiting (c : Cache p) (visited : List Key) : Action → Option (Cache p)
  | .insert f _ victims =>
    match c.heap[f]? with
    | some flight =>
      match flight.phase with
      | .inserting entry now =>
        let k := flight.key
        some ((c.unlock k ((c.lock k).insertVisiting k entry now visited victims)).setFlight f
          { flight with phase := .finishing entry now })
      | _ => none
    | none => none
  | a => c.step a

/-- The keys that the sweep of an insertion visits: the first four of the iteration order. -/
def Action.visits : Action → List Key
  | .insert _ sweep _ => sweep.take 4
  | _ => []

/-- The insertion finds the capacity of its class reached after the sweep. -/
def Cache.evicts (c : Cache p) (visited : List Key) : Action → Bool
  | .insert f _ _ =>
    match c.heap[f]? with
    | some flight =>
      match flight.phase with
      | .inserting entry now =>
        let w := (c.lock flight.key).sweepVisiting flight.key now visited
        w.shard.capacity entry.entryClass ≤ w.shard.counts entry.entryClass
      | _ => false
    | none => false
  | _ => false

theorem insertVisiting_eq_insert (w : Locked) (k : Key) (entry : CacheEntry) (now : ℤ)
    (sweep victims : List Key) : w.insertVisiting k entry now (sweep.take 4) victims =
      w.insert k entry now sweep victims := by
  have hsweep : w.sweepVisiting k now (sweep.take 4) = w.beforeEvict k now sweep := by
    rw [Locked.sweepVisiting, Locked.beforeEvict, Locked.sweepLocked, List.take_length]
    rfl
  rw [insert_eq, Locked.insertVisiting, hsweep]
  rfl

/-- The code's own step is the one that visits the first four keys. -/
theorem step_visiting {c c' : Cache p} {a : Action} (h : c.step a = some c') :
    c.stepVisiting a.visits a = some c' := by
  cases a with
  | insert f sweep victims =>
    simp only [Cache.step] at h
    cases hf : c.heap[f]? with
    | none =>
      rw [hf] at h
      cases h
    | some flight =>
      rw [hf] at h
      cases hphase : flight.phase with
      | inserting entry now =>
        simp only [hphase, Option.ite_none_right_eq_some] at h
        simp only [Cache.stepVisiting, Action.visits, hf, hphase, insertVisiting_eq_insert]
        exact h.2
      | resolving => simp [hphase] at h
      | finishing entry now => simp [hphase] at h
      | closed => simp [hphase] at h
  | resolve query hasResolver now => exact h
  | take i => exact h
  | start i now now' => exact h
  | check i => exact h
  | receive i => exact h
  | cancel i reason => exact h
  | answer f answer now elapsed => exact h
  | finish f => exact h
  | invalidate query => exact h

/-! ## What callers and resolvers see -/

/-- The results and errors of the calls, the flights with the queries sent to resolvers and the
stale answers they carry, and the tables of the flights. -/
structure View where
  calls : List Call
  heap : List Flight
  flights : AList fun _ : Key => ℕ
  pendingByEgress : AList fun _ : String => ℤ

def Cache.view (c : Cache p) : View := ⟨c.calls, c.heap, c.flights, c.pendingByEgress⟩

def View.setCall (v : View) (i : ℕ) (call : Call) : View := { v with calls := v.calls.set i call }

def View.setFlight (v : View) (f : ℕ) (flight : Flight) : View :=
  { v with heap := v.heap.set f flight }

section
variable (c : Cache p)

@[simp] theorem view_request (r : Request) : (c.request r).view = c.view := rfl

@[simp] theorem view_unlock (k : Key) (w : Locked) : (c.unlock k w).view = c.view := rfl

@[simp] theorem view_setCall (i : ℕ) (call : Call) :
    (c.setCall i call).view = c.view.setCall i call := rfl

@[simp] theorem view_setFlight (f : ℕ) (flight : Flight) :
    (c.setFlight f flight).view = c.view.setFlight f flight := rfl

@[simp] theorem cached_request (r : Request) (k : Key) : (c.request r).cached k = c.cached k := rfl

@[simp] theorem cached_setCall (i : ℕ) (call : Call) (k : Key) :
    (c.setCall i call).cached k = c.cached k := rfl

theorem cached_unlock_eq (k : Key) (w : Locked) (j : Key) : (c.unlock k w).cached j =
    if p.shardFor j = p.shardFor k then w.shard.entries.lookup j else c.cached j := by
  simp only [Cache.cached, Cache.unlock]
  split
  · rename_i hj
    rw [hj, Function.update_self]
  · rename_i hj
    rw [Function.update_of_ne hj]

theorem lookup_lock {k j : Key} (hj : p.shardFor j = p.shardFor k) :
    (c.lock k).shard.entries.lookup j = c.cached j := by
  rw [Cache.cached, hj]
  rfl

end

theorem lookup_deleteLocked (w : Locked) (k : Key) (e : CacheEntry) (j : Key) :
    (w.deleteLocked k e).shard.entries.lookup j =
      if j = k then none else w.shard.entries.lookup j := by
  unfold Locked.deleteLocked
  split
  · rename_i hj
    rw [hj]
    exact AList.lookup_erase _ _
  · rename_i hj
    exact AList.lookup_erase_ne hj

/-! ### Looking a key up -/

/-- What `Resolve` does with what it finds for its key. -/
def takenCall (p : Policy) (k : Key) (q : Query) (now : ℤ) (entry : CacheEntry) (found : Bool) :
    Call :=
  let expired : Call :=
    if entry.result.rcode = .success ∧ now < entry.staleUntil then
      .starting k q entry.result entry.staleUntil false
    else if entry.result.rcode = .transient ∧ canServeStale p entry now = true then
      .starting k q entry.stale entry.staleUntil true
    else .starting k q {} 0 false
  if found then
    match entry.result.rcode with
    | .success => .returned entry.result none
    | .nxdomain | .nodata => .returned entry.result none
    | .transient =>
      if canServeStale p entry now then .returned entry.stale none
      else .returned entry.result entry.err
    | .unknown _ => expired
  else expired

/-- What stays cached after the look-up. -/
def takenRest (p : Policy) (now : ℤ) (cached : Option CacheEntry) : Option CacheEntry :=
  cached.filter fun entry => now < entry.result.expiresAt ∨
    (entry.result.rcode = .transient ∧ canServeStale p entry now = true)

theorem afterTake_view (c : Cache p) (i : ℕ) (k : Key) (q : Query) (now : ℤ) (entry : CacheEntry)
    (found : Bool) : (c.afterTake i k q now entry found).view =
      c.view.setCall i (takenCall p.toPolicy k q now entry found) := by
  unfold Cache.afterTake takenCall
  dsimp only
  cases found with
  | false =>
    simp only [Bool.false_eq_true, if_false]
    split_ifs <;> rfl
  | true =>
    simp only [if_true]
    cases hr : entry.result.rcode <;> simp only [reduceCtorEq, false_and, if_false] <;>
      first | rfl | (split_ifs <;> rfl)

theorem afterTake_cached (c : Cache p) (i : ℕ) (k : Key) (q : Query) (now : ℤ) (entry : CacheEntry)
    (found : Bool) (j : Key) : (c.afterTake i k q now entry found).cached j = c.cached j := by
  obtain ⟨m, call, heq, -⟩ := afterTake_move c i k q now entry found
  rw [heq]
  rfl

theorem takeEntry_lookup (q : Policy) (w : Locked) (k : Key) (now : ℤ) (j : Key) :
    (w.takeEntry q k now).1.shard.entries.lookup j =
      if j = k then takenRest q now (w.shard.entries.lookup k) else w.shard.entries.lookup j := by
  have hkept : ∀ cached, w.shard.entries.lookup k = cached → takenRest q now cached = cached →
      w.shard.entries.lookup j =
        if j = k then takenRest q now cached else w.shard.entries.lookup j := by
    intro cached hk hrest
    by_cases hj : j = k
    · rw [if_pos hj, hj, hk, hrest]
    · rw [if_neg hj]
  unfold Locked.takeEntry
  cases hk : w.shard.entries.lookup k with
  | none => exact hkept none hk rfl
  | some entry =>
    dsimp only
    by_cases hfresh : now < entry.result.expiresAt
    · rw [if_pos hfresh]
      exact hkept _ hk (Option.filter_some_pos (by simp [hfresh]))
    by_cases hstale : entry.result.rcode = .transient ∧ canServeStale q entry now = true
    · rw [if_neg hfresh, if_pos hstale]
      exact hkept _ hk (Option.filter_some_pos (by simp [hstale]))
    rw [if_neg hfresh, if_neg hstale, lookup_deleteLocked]
    have hgone : takenRest q now (some entry) = none :=
      Option.filter_some_neg (by simpa [hfresh] using hstale)
    rw [hgone]

theorem takeEntry_found (q : Policy) (w : Locked) (k : Key) (now : ℤ) :
    (w.takeEntry q k now).2 = ((w.shard.entries.lookup k).getD {},
      (w.shard.entries.lookup k).any (now < ·.result.expiresAt)) := by
  unfold Locked.takeEntry
  cases hk : w.shard.entries.lookup k with
  | none => rfl
  | some entry =>
    by_cases hfresh : now < entry.result.expiresAt
    · simp [hfresh]
    · simp only [if_neg hfresh]
      split <;> simp [hfresh]

theorem take_view (c : Cache p) (i : ℕ) (k : Key) (q : Query) (now : ℤ) :
    (c.take i k q now).view = c.view.setCall i (takenCall p.toPolicy k q now
      ((c.cached k).getD {}) ((c.cached k).any (now < ·.result.expiresAt))) := by
  have hfound := takeEntry_found p.toPolicy (c.lock k) k now
  rw [lookup_lock c rfl] at hfound
  have hentry := congrArg Prod.fst hfound
  have hfresh := congrArg Prod.snd hfound
  dsimp only at hentry hfresh
  rw [← hentry, ← hfresh]
  exact afterTake_view _ i k q now _ _

theorem take_cached (c : Cache p) (i : ℕ) (k : Key) (q : Query) (now : ℤ) (j : Key) :
    (c.take i k q now).cached j =
      if j = k then takenRest p.toPolicy now (c.cached k) else c.cached j := by
  have htake : (c.take i k q now).cached j =
      (c.unlock k ((c.lock k).takeEntry p.toPolicy k now).1).cached j :=
    afterTake_cached _ i k q now _ _ j
  rw [htake, cached_unlock_eq]
  split
  · rename_i hj
    rw [takeEntry_lookup, lookup_lock c rfl, lookup_lock c hj]
  · rename_i hj
    rw [if_neg (fun h => hj (by rw [h]))]

/-! ### Storing and dropping entries -/

theorem invalidate_cached (c : Cache p) (k j : Key) :
    (c.unlock k ((c.lock k).invalidate k)).cached j = if j = k then none else c.cached j := by
  rw [cached_unlock_eq]
  split
  · rename_i hj
    unfold Locked.invalidate
    cases hk : (c.lock k).shard.entries.lookup k with
    | none =>
      rw [lookup_lock c hj]
      split
      · rename_i he
        rw [he, ← lookup_lock c rfl, hk]
      · rfl
    | some entry =>
      exact (lookup_deleteLocked _ k entry j).trans (by rw [lookup_lock c hj])
  · rename_i hj
    rw [if_neg (fun h => hj (by rw [h]))]

/-- The sweep at `now` may delete the entry. -/
def Swept (now : ℤ) (entry : CacheEntry) : Prop :=
  entry.result.expiresAt ≤ now ∧ entry.staleUntil ≤ now

/-- What a sweep at `now` can turn the holding of a key into. -/
def Reduces (now : ℤ) (cached rest : Option CacheEntry) : Prop :=
  rest = cached ∨ (rest = none ∧ ∃ entry, cached = some entry ∧ Swept now entry)

/-- A sweep leaves each key alone or deletes an entry it is entitled to delete. -/
theorem sweepLocked_lookup (w : Locked) (now : ℤ) (limit : ℕ) (order : List Key) (j : Key) :
    Reduces now (w.shard.entries.lookup j)
      ((w.sweepLocked now limit order).shard.entries.lookup j) := by
  unfold Locked.sweepLocked
  induction order.take limit generalizing w with
  | nil => exact .inl rfl
  | cons k ks ih =>
    rw [List.foldl_cons]
    cases hk : w.shard.entries.lookup k with
    | none => exact ih w
    | some entry =>
      dsimp only
      by_cases hswept : ¬now < entry.result.expiresAt ∧ ¬now < entry.staleUntil
      · rw [if_pos hswept]
        have hdeleted := lookup_deleteLocked w k entry j
        by_cases hj : j = k
        · subst hj
          rw [if_pos rfl] at hdeleted
          refine .inr ⟨?_, entry, hk, by unfold Swept; omega⟩
          rcases ih (w.deleteLocked j entry) with h | ⟨h, -⟩
          · exact h.trans hdeleted
          · exact h
        · rw [if_neg hj] at hdeleted
          rw [← hdeleted]
          exact ih (w.deleteLocked k entry)
      · rw [if_neg hswept]
        exact ih w

theorem sweepVisiting_lookup (w : Locked) (k : Key) (now : ℤ) (visited : List Key) {j : Key}
    (hj : j ≠ k) : (w.sweepVisiting k now visited).shard.entries.lookup j =
      (w.sweepLocked now visited.length visited).shard.entries.lookup j := by
  unfold Locked.sweepVisiting
  dsimp only
  cases (w.sweepLocked now visited.length visited).shard.entries.lookup k with
  | none => rfl
  | some previous => exact (lookup_deleteLocked _ k previous j).trans (if_neg hj)

theorem insertVisiting_lookup (w : Locked) (k : Key) (entry : CacheEntry) (now : ℤ)
    (visited victims : List Key)
    (hroom : ¬(w.sweepVisiting k now visited).shard.capacity entry.entryClass ≤
      (w.sweepVisiting k now visited).shard.counts entry.entryClass) (j : Key) :
    (w.insertVisiting k entry now visited victims).shard.entries.lookup j =
      if j = k then some entry
      else (w.sweepLocked now visited.length visited).shard.entries.lookup j := by
  unfold Locked.insertVisiting Locked.write
  dsimp only
  rw [if_neg hroom]
  by_cases hj : j = k
  · rw [if_pos hj, hj]
    exact AList.lookup_insert _
  · rw [if_neg hj, AList.lookup_insert_ne hj, sweepVisiting_lookup w k now visited hj]

/-! ## Agreement -/

/-- What the cache holds for a key, if anything, could have been deleted by a sweep at one of the
given times. -/
def Gone (times : List ℤ) (cached : Option CacheEntry) : Prop :=
  ∀ entry ∈ cached, ∃ t ∈ times, Swept t entry

/-- Two caches agree on a key, or what each of them holds could have been swept. -/
def Alike (times : List ℤ) (cached cached' : Option CacheEntry) : Prop :=
  cached' = cached ∨ (Gone times cached ∧ Gone times cached')

theorem Gone.mono {times : List ℤ} {cached : Option CacheEntry} (h : Gone times cached)
    (later : List ℤ) : Gone (times ++ later) cached := by
  intro entry hentry
  obtain ⟨t, ht, hswept⟩ := h entry hentry
  exact ⟨t, List.mem_append_left later ht, hswept⟩

theorem gone_none (times : List ℤ) : Gone times none := fun _ h => by cases h

theorem Reduces.gone {now : ℤ} {cached rest : Option CacheEntry} (h : Reduces now cached rest)
    {times : List ℤ} (hgone : Gone times cached) : Gone (times ++ [now]) rest := by
  obtain rfl | ⟨rfl, -⟩ := h
  · exact hgone.mono [now]
  · exact gone_none _

/-- Sweeps of the two sides, each deleting what it likes, keep them alike. -/
theorem Alike.reduces {times : List ℤ} {now : ℤ} {cached cached' rest rest' : Option CacheEntry}
    (h : Alike times cached cached') (hrest : Reduces now cached rest)
    (hrest' : Reduces now cached' rest') : Alike (times ++ [now]) rest rest' := by
  have hswept : ∀ entry, Swept now entry → Gone (times ++ [now]) (some entry) := by
    intro entry hswept e he
    cases he
    exact ⟨now, by simp, hswept⟩
  obtain rfl | ⟨hgone, hgone'⟩ := h
  · obtain rfl | ⟨rfl, entry, rfl, hentry⟩ := hrest
    · obtain rfl | ⟨rfl, entry, rfl, hentry⟩ := hrest'
      · exact .inl rfl
      · exact .inr ⟨hswept entry hentry, gone_none _⟩
    · obtain rfl | ⟨rfl, -⟩ := hrest'
      · exact .inr ⟨gone_none _, hswept entry hentry⟩
      · exact .inl rfl
  · exact .inr ⟨hrest.gone hgone, hrest'.gone hgone'⟩

/-- A look-up after the sweeps treats what could have been swept as if it had been. -/
theorem Gone.taken {times : List ℤ} {cached : Option CacheEntry} (h : Gone times cached)
    {now : ℤ} (hnow : ∀ t ∈ times, t ≤ now) (q : Policy) (k : Key) (query : Query) :
    takenCall q k query now (cached.getD {}) (cached.any (now < ·.result.expiresAt)) =
        .starting k query {} 0 false ∧
      takenRest q now cached = none := by
  cases cached with
  | none =>
    refine ⟨?_, rfl⟩
    simp [takenCall]
  | some entry =>
    obtain ⟨t, ht, hexpired, hstale⟩ := h entry rfl
    have hle := hnow t ht
    have hfresh : ¬now < entry.result.expiresAt := by omega
    have huntil : ¬now < entry.staleUntil := by omega
    have hserve : canServeStale q entry now = false := by simp [canServeStale, huntil]
    refine ⟨?_, Option.filter_some_neg (by simp [hfresh, hserve])⟩
    simp [takenCall, hfresh, huntil, hserve]

theorem Gone.not_fresh {times : List ℤ} {cached : Option CacheEntry} (h : Gone times cached)
    {now : ℤ} (hnow : ∀ t ∈ times, t ≤ now) :
    cached.filter (fun entry => now < entry.result.expiresAt) = none := by
  cases cached with
  | none => rfl
  | some entry =>
    obtain ⟨t, ht, hexpired, -⟩ := h entry rfl
    have hle := hnow t ht
    exact Option.filter_some_neg (by simpa using by omega)

structure Agree (times : List ℤ) (c c' : Cache p) : Prop where
  view : c'.view = c.view
  cached : ∀ k, Alike times (c.cached k) (c'.cached k)

section
variable {times : List ℤ} {c c' d : Cache p}

theorem Agree.calls (h : Agree times c c') : c'.calls = c.calls := congrArg View.calls h.view

theorem Agree.heap (h : Agree times c c') : c'.heap = c.heap := congrArg View.heap h.view

theorem Agree.flights (h : Agree times c c') : c'.flights = c.flights :=
  congrArg View.flights h.view

theorem Agree.pendingByEgress (h : Agree times c c') : c'.pendingByEgress = c.pendingByEgress :=
  congrArg View.pendingByEgress h.view

/-- A step that stores and drops nothing. -/
theorem Agree.quiet (h : Agree times c c') {d' : Cache p} (hview : d'.view = d.view)
    (hcached : ∀ k, d.cached k = c.cached k) (hcached' : ∀ k, d'.cached k = c'.cached k) :
    Agree times d d' := by
  refine ⟨hview, fun k => ?_⟩
  rw [hcached, hcached']
  exact h.cached k

/-! ### One lemma per section -/

theorem Agree.resolve (h : Agree times c c') {query : Query} {hasResolver : Bool} {now : ℤ}
    (hstep : c.step (.resolve query hasResolver now) = some d) :
    ∃ d', c'.step (.resolve query hasResolver now) = some d' ∧ Agree times d d' := by
  have hspawn : ∀ call, Agree times (c.spawn call) (c'.spawn call) := fun call =>
    h.quiet (by simp only [Cache.view, Cache.spawn, h.calls, h.heap, h.flights, h.pendingByEgress])
      (fun _ => rfl) fun _ => rfl
  simp only [Cache.step] at hstep ⊢
  cases hasResolver with
  | false =>
    cases hstep
    exact ⟨_, rfl, hspawn _⟩
  | true =>
    simp only [if_true] at hstep ⊢
    cases hkey : makeKey query with
    | error e =>
      rw [hkey] at hstep
      cases hstep
      exact ⟨_, rfl, hspawn _⟩
    | ok k =>
      rw [hkey] at hstep
      cases hstep
      exact ⟨_, rfl, hspawn _⟩

theorem Agree.take (h : Agree times c c') {i : ℕ}
    (hbegun : ∀ k query now, c.calls[i]? = some (.taking k query now) → ∀ t ∈ times, t ≤ now)
    (hstep : c.step (.take i) = some d) :
    ∃ d', c'.step (.take i) = some d' ∧ Agree times d d' := by
  simp only [Cache.step] at hstep
  split at hstep
  · rename_i k query now hcall
    cases hstep
    have hnow := hbegun k query now hcall
    refine ⟨c'.take i k query now, by simp only [Cache.step, h.calls, hcall], ?_, fun j => ?_⟩
    · rw [take_view, take_view, h.view]
      obtain heq | ⟨hgone, hgone'⟩ := h.cached k
      · rw [heq]
      · rw [(hgone.taken hnow _ _ _).1, (hgone'.taken hnow _ _ _).1]
    · rw [take_cached, take_cached]
      by_cases hj : j = k
      · rw [if_pos hj, if_pos hj]
        obtain heq | ⟨hgone, hgone'⟩ := h.cached k
        · exact .inl (by rw [heq])
        · exact .inl (by rw [(hgone.taken hnow _ k query).2, (hgone'.taken hnow _ k query).2])
      · rw [if_neg hj, if_neg hj]
        exact h.cached j
  · cases hstep

theorem startFlight_cached (c : Cache p) (i : ℕ) (k : Key) (q : Query) (stale : Result)
    (staleUntil : ℤ) (refresh : Bool) (now now' : ℤ) (j : Key) :
    (c.startFlight i k q stale staleUntil refresh now now').cached j = c.cached j := by
  unfold Cache.startFlight
  dsimp only
  repeat' split
  all_goals rfl

theorem Agree.start (h : Agree times c c') {i : ℕ} {now now' : ℤ} (hnow : ∀ t ∈ times, t ≤ now)
    (hstep : c.step (.start i now now') = some d) :
    ∃ d', c'.step (.start i now now') = some d' ∧ Agree times d d' := by
  simp only [Cache.step] at hstep
  split at hstep
  · rename_i k query stale staleUntil refresh hcall
    cases hstep
    have hfresh : (c'.cached k).filter (fun entry => now < entry.result.expiresAt) =
        (c.cached k).filter fun entry => now < entry.result.expiresAt := by
      obtain heq | ⟨hgone, hgone'⟩ := h.cached k
      · rw [heq]
      · rw [hgone.not_fresh hnow, hgone'.not_fresh hnow]
    refine ⟨_, by simp only [Cache.step, h.calls, hcall], h.quiet ?_
      (startFlight_cached c i k query stale staleUntil refresh now now')
      (startFlight_cached c' i k query stale staleUntil refresh now now')⟩
    unfold Cache.cached at hfresh
    unfold Cache.startFlight
    rw [h.flights, hfresh, h.heap, h.pendingByEgress]
    cases c.flights.lookup k with
    | some f => simp only [view_setCall, h.view]
    | none =>
      cases ((c.shards (p.shardFor k)).entries.lookup k).filter
          (fun entry => now < entry.result.expiresAt) with
      | some entry =>
        simp only [Cache.view, Cache.setCall, h.calls]
      | none =>
        dsimp only
        split_ifs <;> simp only [Cache.view, Cache.setCall, Cache.request, h.calls]
  · cases hstep

theorem Agree.check (h : Agree times c c') {i : ℕ} (hstep : c.step (.check i) = some d) :
    ∃ d', c'.step (.check i) = some d' ∧ Agree times d d' := by
  simp only [Cache.step] at hstep
  split at hstep
  · rename_i f stale refresh hcall
    obtain ⟨flight, hflight, rfl⟩ := Option.map_eq_some_iff.mp hstep
    have hkeeps : ∀ (x : Cache p) k, (x.check i f flight stale refresh).cached k = x.cached k := by
      intro x k
      unfold Cache.check
      split_ifs <;> rfl
    refine ⟨c'.check i f flight stale refresh,
      by simp only [Cache.step, h.calls, hcall, h.heap, hflight, Option.map_some],
      h.quiet ?_ (hkeeps c) (hkeeps c')⟩
    unfold Cache.check
    split_ifs <;> simp only [view_setCall, view_request, h.view]
  · cases hstep

theorem Agree.receive (h : Agree times c c') {i : ℕ} (hstep : c.step (.receive i) = some d) :
    ∃ d', c'.step (.receive i) = some d' ∧ Agree times d d' := by
  simp only [Cache.step] at hstep
  split at hstep
  · rename_i f hcall
    split at hstep
    · rename_i flight hflight
      split at hstep
      · rename_i hclosed
        cases hstep
        refine ⟨c'.setCall i (.returned flight.result flight.err), ?_,
          h.quiet (by rw [view_setCall, view_setCall, h.view]) (fun _ => rfl) fun _ => rfl⟩
        simp only [Cache.step, h.calls, hcall, h.heap, hflight, hclosed, if_true]
      · cases hstep
    · cases hstep
  · cases hstep

theorem Agree.cancel (h : Agree times c c') {i : ℕ} {reason : String}
    (hstep : c.step (.cancel i reason) = some d) :
    ∃ d', c'.step (.cancel i reason) = some d' ∧ Agree times d d' := by
  simp only [Cache.step] at hstep
  split at hstep
  · rename_i f hcall
    cases hstep
    exact ⟨c'.setCall i (.returned {} (some (.context reason))),
      by simp only [Cache.step, h.calls, hcall],
      h.quiet (by rw [view_setCall, view_setCall, h.view]) (fun _ => rfl) fun _ => rfl⟩
  · cases hstep

theorem Agree.answer (h : Agree times c c') {f : ℕ} {answer : Answer} {now elapsed : ℤ}
    (hstep : c.step (.answer f answer now elapsed) = some d) :
    ∃ d', c'.step (.answer f answer now elapsed) = some d' ∧ Agree times d d' := by
  simp only [Cache.step] at hstep
  split at hstep
  · rename_i flight hflight
    split at hstep
    · rename_i hresolving
      cases hstep
      have hview : ∀ x : Cache p, (x.answer f flight answer now elapsed).view =
          x.view.setFlight f { flight with
            phase := .inserting (resolvedEntry p.toPolicy flight answer now) now } := fun _ => rfl
      refine ⟨c'.answer f flight answer now elapsed, ?_,
        h.quiet (by rw [hview, hview, h.view]) (fun _ => rfl) fun _ => rfl⟩
      simp only [Cache.step, h.heap, hflight, hresolving, if_true]
    · cases hstep
  · cases hstep

theorem Agree.finish (h : Agree times c c') {f : ℕ} (hstep : c.step (.finish f) = some d) :
    ∃ d', c'.step (.finish f) = some d' ∧ Agree times d d' := by
  simp only [Cache.step] at hstep
  split at hstep
  · rename_i flight hflight
    split at hstep
    · rename_i entry now hphase
      cases hstep
      have hkeeps : ∀ (x : Cache p) k, (x.finish f flight entry now).cached k = x.cached k := by
        intro x k
        unfold Cache.finish
        dsimp only
        split_ifs <;> rfl
      refine ⟨c'.finish f flight entry now, by simp only [Cache.step, h.heap, hflight, hphase],
        h.quiet ?_ (hkeeps c) (hkeeps c')⟩
      unfold Cache.finish
      cases decide (entry.result.rcode = .transient ∧
          canServeStale p.toPolicy entry now = true) <;>
        simp only [Cache.view, Cache.setFlight, Cache.request, if_true, Bool.false_eq_true,
          if_false, h.calls, h.heap, h.flights, h.pendingByEgress]
    · cases hstep
  · cases hstep

theorem Agree.invalidate (h : Agree times c c') {query : Query}
    (hstep : c.step (.invalidate query) = some d) :
    ∃ d', c'.step (.invalidate query) = some d' ∧ Agree times d d' := by
  simp only [Cache.step] at hstep ⊢
  cases hkey : makeKey query with
  | error e =>
    rw [hkey] at hstep
    cases hstep
    exact ⟨c', rfl, h⟩
  | ok k =>
    rw [hkey] at hstep
    cases hstep
    refine ⟨_, rfl, by rw [view_unlock, view_unlock, h.view], fun j => ?_⟩
    rw [invalidate_cached, invalidate_cached]
    by_cases hj : j = k
    · rw [if_pos hj, if_pos hj]
      exact .inl rfl
    · rw [if_neg hj, if_neg hj]
      exact h.cached j

/-- What an insertion without an eviction leaves of the other keys. -/
theorem insertVisiting_cached (c : Cache p) {f : ℕ} {sweep victims visited : List Key}
    {flight : Flight} {entry : CacheEntry} {now : ℤ} (hflight : c.heap[f]? = some flight)
    (hphase : flight.phase = .inserting entry now)
    (hroom : c.evicts visited (.insert f sweep victims) = false) (j : Key) :
    let d := c.unlock flight.key
      ((c.lock flight.key).insertVisiting flight.key entry now visited victims)
    if j = flight.key then d.cached j = some entry
    else Reduces now (c.cached j) (d.cached j) := by
  simp only [Cache.evicts, hflight, hphase, decide_eq_false_iff_not] at hroom
  have hlookup := insertVisiting_lookup (c.lock flight.key) flight.key entry now visited victims
    hroom j
  dsimp only
  rw [cached_unlock_eq]
  split
  · rename_i hj
    rw [if_pos (by rw [hj]), hlookup, if_pos hj]
  · rename_i hj
    rw [if_neg hj] at hlookup
    split
    · rename_i hshard
      rw [hlookup, ← lookup_lock c hshard]
      exact sweepLocked_lookup _ now _ visited j
    · exact .inl rfl

theorem Agree.insert (h : Agree times c c') {f : ℕ} {sweep victims sweep' victims' : List Key}
    {visited visited' : List Key}
    (hroom : c.evicts visited (.insert f sweep victims) = false)
    (hroom' : c'.evicts visited' (.insert f sweep' victims') = false)
    (hstep : c.stepVisiting visited (.insert f sweep victims) = some d) :
    ∃ d', c'.stepVisiting visited' (.insert f sweep' victims') = some d' ∧
      ∀ flight entry now, c.heap[f]? = some flight → flight.phase = .inserting entry now →
        Agree (times ++ [now]) d d' := by
  simp only [Cache.stepVisiting] at hstep
  split at hstep
  · rename_i flight hflight
    split at hstep
    · rename_i entry now hphase
      cases hstep
      refine ⟨(c'.unlock flight.key ((c'.lock flight.key).insertVisiting flight.key entry now
          visited' victims')).setFlight f { flight with phase := .finishing entry now },
        by simp only [Cache.stepVisiting, h.heap, hflight, hphase], ?_⟩
      intro flight₁ entry₁ now₁ hflight₁ hphase₁
      rw [hflight] at hflight₁
      cases hflight₁
      rw [hphase] at hphase₁
      cases hphase₁
      refine ⟨by simp only [view_setFlight, view_unlock, h.view], fun j => ?_⟩
      rw [cached_setFlight, cached_setFlight]
      have hleft := insertVisiting_cached c hflight hphase hroom j
      have hright := insertVisiting_cached c' (h.heap ▸ hflight) hphase hroom' j
      dsimp only at hleft hright
      split at hleft
      · rename_i hj
        rw [if_pos hj] at hright
        exact .inl (by rw [hleft, hright])
      · rename_i hj
        rw [if_neg hj] at hright
        exact (h.cached j).reduces hleft hright
    · cases hstep
  · cases hstep

/-! ### One lemma for all sections -/

/-- Actions that are the same up to the iteration orders of an insertion. -/
inductive Action.Same : Action → Action → Prop
  | rfl (a : Action) : Action.Same a a
  | insert (f : ℕ) (sweep victims sweep' victims' : List Key) :
      Action.Same (.insert f sweep victims) (.insert f sweep' victims')

/-- The time of the sweep that the action makes, if it is an insertion. -/
def Cache.sweepTimes (c : Cache p) : Action → List ℤ
  | .insert f _ _ =>
    match c.heap[f]? with
    | some flight =>
      match flight.phase with
      | .inserting _ now => [now]
      | _ => []
    | none => []
  | _ => []

/-- A call that looks its key up has begun after the sweeps at the given times. -/
def Cache.begun (c : Cache p) (times : List ℤ) : Action → Bool
  | .take i =>
    match c.calls[i]? with
    | some (.taking _ _ now) => times.all (· ≤ now)
    | _ => true
  | _ => true

theorem Action.Same.within {a a' : Action} (hsame : a.Same a') {t t' : ℤ}
    (h : a.Within t t') : a'.Within t t' := by
  cases hsame with
  | rfl => exact h
  | insert => exact h

theorem Agree.sweepTimes (h : Agree times c c') {a a' : Action} (hsame : a.Same a') :
    c'.sweepTimes a' = c.sweepTimes a := by
  cases hsame with
  | rfl =>
    unfold Cache.sweepTimes
    rw [h.heap]
  | insert =>
    unfold Cache.sweepTimes
    rw [h.heap]

theorem Agree.begun (h : Agree times c c') {a a' : Action} (hsame : a.Same a') :
    c'.begun times a' = c.begun times a := by
  cases hsame with
  | rfl =>
    unfold Cache.begun
    rw [h.calls]
  | insert => rfl

theorem Agree.stepVisiting (h : Agree times c c') {a a' : Action} (hsame : a.Same a') {t t' : ℤ}
    (htimes : ∀ x ∈ times, x ≤ t) (hclock : a.Within t t') (hbegun : c.begun times a = true)
    {visited visited' : List Key} (hroom : c.evicts visited a = false)
    (hroom' : c'.evicts visited' a' = false) (hstep : c.stepVisiting visited a = some d) :
    ∃ d', c'.stepVisiting visited' a' = some d' ∧ Agree (times ++ c.sweepTimes a) d d' := by
  have hquiet : ∀ {a}, (∃ d', c'.step a = some d' ∧ Agree times d d') →
      ∃ d', c'.step a = some d' ∧ Agree (times ++ []) d d' := by
    intro a h
    rwa [List.append_nil]
  have hinsert : ∀ f sweep victims sweep' victims',
      c.evicts visited (.insert f sweep victims) = false →
      c'.evicts visited' (.insert f sweep' victims') = false →
      c.stepVisiting visited (.insert f sweep victims) = some d →
      ∃ d', c'.stepVisiting visited' (.insert f sweep' victims') = some d' ∧
        Agree (times ++ c.sweepTimes (.insert f sweep victims)) d d' := by
    intro f sweep victims sweep' victims' hroom hroom' hstep
    obtain ⟨d', hd', hagree⟩ := h.insert hroom hroom' hstep
    refine ⟨d', hd', ?_⟩
    simp only [Cache.stepVisiting] at hstep
    split at hstep
    · rename_i flight hflight
      split at hstep
      · rename_i entry now hphase
        simp only [Cache.sweepTimes, hflight, hphase]
        exact hagree flight entry now hflight hphase
      · cases hstep
    · cases hstep
  cases hsame with
  | insert f sweep victims sweep' victims' =>
    exact hinsert f sweep victims sweep' victims' hroom hroom' hstep
  | rfl =>
    cases a with
    | insert f sweep victims => exact hinsert f sweep victims sweep victims hroom hroom' hstep
    | resolve query hasResolver now => exact hquiet (h.resolve hstep)
    | take i =>
      refine hquiet (h.take (fun k query now hcall => ?_) hstep)
      simpa [Cache.begun, hcall] using hbegun
    | start i now now' =>
      exact hquiet (h.start (fun x hx => (htimes x hx).trans hclock.1) hstep)
    | check i => exact hquiet (h.check hstep)
    | receive i => exact hquiet (h.receive hstep)
    | cancel i reason => exact hquiet (h.cancel hstep)
    | answer f answer now elapsed => exact hquiet (h.answer hstep)
    | finish f => exact hquiet (h.finish hstep)
    | invalidate query => exact hquiet (h.invalidate hstep)

end

/-! ## Runs -/

/-- A step with the time after it. Without other instructions an insertion sweeps as the code
does; instead it can be told which keys to visit, possibly none. -/
structure Turn where
  action : Action
  time : ℤ
  instead : Option (List Key) := none

def Turn.visited (turn : Turn) : List Key := turn.instead.getD turn.action.visits

structure Turn.Same (turn turn' : Turn) : Prop where
  action : turn.action.Same turn'.action
  time : turn'.time = turn.time

/-- A cache, the time, and the times of the sweeps made so far. -/
structure Sweeping (p : ValidPolicy) where
  cache : Cache p
  clock : ℤ
  swept : List ℤ

def Timed.sweeping (s : Timed p) : Sweeping p := ⟨s.cache, s.clock, []⟩

namespace Sweeping

def next (s : Sweeping p) (turn : Turn) : Option (Cache p) :=
  match turn.instead with
  | none => s.cache.step turn.action
  | some visited => s.cache.stepVisiting visited turn.action

/-- A turn under a clock that does not run backwards, without an eviction; a call that looks its
key up has begun after the sweeps made so far. -/
def step (s : Sweeping p) (turn : Turn) : Option (Sweeping p) :=
  if turn.action.Within s.clock turn.time ∧ s.cache.begun s.swept turn.action = true ∧
      s.cache.evicts turn.visited turn.action = false then
    (s.next turn).map fun c => ⟨c, turn.time, s.swept ++ s.cache.sweepTimes turn.action⟩
  else none

def run (s : Sweeping p) : List Turn → Option (Sweeping p)
  | [] => some s
  | turn :: rest => (s.step turn).bind fun e => e.run rest

/-- The turns come to an insertion that finds its capacity reached. -/
def evictsIn (s : Sweeping p) : List Turn → Bool
  | [] => false
  | turn :: rest =>
    s.cache.evicts turn.visited turn.action || (s.step turn).any fun e => e.evictsIn rest

theorem next_visiting {s : Sweeping p} {turn : Turn} {c : Cache p} (h : s.next turn = some c) :
    s.cache.stepVisiting turn.visited turn.action = some c := by
  unfold next at h
  unfold Turn.visited
  cases hinstead : turn.instead with
  | none =>
    rw [hinstead] at h
    exact step_visiting h
  | some visited =>
    rw [hinstead] at h
    exact h

theorem step_eq_some {s e : Sweeping p} {turn : Turn} (h : s.step turn = some e) :
    turn.action.Within s.clock turn.time ∧ s.cache.begun s.swept turn.action = true ∧
      s.cache.evicts turn.visited turn.action = false ∧
      ∃ c, s.cache.stepVisiting turn.visited turn.action = some c ∧
        e = ⟨c, turn.time, s.swept ++ s.cache.sweepTimes turn.action⟩ := by
  simp only [step, Option.ite_none_right_eq_some, Option.map_eq_some_iff] at h
  obtain ⟨⟨hclock, hbegun, hroom⟩, c, hc, rfl⟩ := h
  exact ⟨hclock, hbegun, hroom, c, next_visiting hc, rfl⟩

/-- Everything that was read from the clock lies in the past. -/
structure Past (s : Sweeping p) : Prop where
  swept : ∀ t ∈ s.swept, t ≤ s.clock
  inserting : ∀ flight ∈ s.cache.heap, ∀ entry now, flight.phase = .inserting entry now →
    now ≤ s.clock

end Sweeping

/-- The flights about to insert keep a reading that is not in the future. -/
theorem inserting_past {c c' : Cache p} {a : Action} {visited : List Key} {t t' : ℤ}
    (h : ∀ flight ∈ c.heap, ∀ entry now, flight.phase = .inserting entry now → now ≤ t)
    (hstep : c.stepVisiting visited a = some c') (hclock : a.Within t t') :
    ∀ flight ∈ c'.heap, ∀ entry now, flight.phase = .inserting entry now → now ≤ t' := by
  have hle := hclock.le
  have hkeep : c'.heap = c.heap →
      ∀ flight ∈ c'.heap, ∀ entry now, flight.phase = .inserting entry now → now ≤ t' := by
    intro heq flight hmem entry now hphase
    rw [heq] at hmem
    exact (h flight hmem entry now hphase).trans hle
  -- a new or replaced flight is not about to insert, or has just read the clock
  have hset : ∀ (f : ℕ) (x : Flight), (∀ entry now, x.phase = .inserting entry now → now ≤ t') →
      ∀ flight ∈ c.heap.set f x, ∀ entry now, flight.phase = .inserting entry now → now ≤ t' := by
    intro f x hx flight hmem entry now hphase
    obtain hmem | rfl := List.mem_or_eq_of_mem_set hmem
    · exact (h flight hmem entry now hphase).trans hle
    · exact hx entry now hphase
  have happend : ∀ x : Flight, (∀ entry now, x.phase = .inserting entry now → now ≤ t') →
      ∀ flight ∈ c.heap ++ [x], ∀ entry now, flight.phase = .inserting entry now → now ≤ t' := by
    intro x hx flight hmem entry now hphase
    obtain hmem | hmem := List.mem_append.mp hmem
    · exact (h flight hmem entry now hphase).trans hle
    · rw [List.mem_singleton] at hmem
      exact hx entry now (hmem ▸ hphase)
  have hmove : ∀ {a}, a.Within t t' → Move c a c' →
      ∀ flight ∈ c'.heap, ∀ entry now, flight.phase = .inserting entry now → now ≤ t' := by
    intro a hclock hmove
    cases hmove with
    | refuse | enter | take | join | reject | ready | refresh | serve | wait | receive | cancel
    | ignore | invalidate => exact hkeep rfl
    | fresh => exact happend _ fun entry now hphase => by simp [freshFlight_phase] at hphase
    | launch => exact happend _ fun entry now hphase => by cases hphase
    | insert => exact hset _ _ fun entry now hphase => by cases hphase
    | finish => exact hset _ _ fun entry now hphase => by simp [publishedFlight] at hphase
    | answer =>
      refine hset _ _ fun entry now hphase => ?_
      cases hphase
      exact hclock.2
  cases a with
  | insert f sweep victims =>
    simp only [Cache.stepVisiting] at hstep
    split at hstep
    · split at hstep
      · cases hstep
        exact hset _ _ fun entry now hphase => by cases hphase
      · cases hstep
    · cases hstep
  | resolve query hasResolver now => exact hmove hclock (step_move hstep)
  | take i => exact hmove hclock (step_move hstep)
  | start i now now' => exact hmove hclock (step_move hstep)
  | check i => exact hmove hclock (step_move hstep)
  | receive i => exact hmove hclock (step_move hstep)
  | cancel i reason => exact hmove hclock (step_move hstep)
  | answer f answer now elapsed => exact hmove hclock (step_move hstep)
  | finish f => exact hmove hclock (step_move hstep)
  | invalidate query => exact hmove hclock (step_move hstep)

theorem Timed.Reachable.inserting_past {allowed : Timed p → Action → Bool} {s : Timed p}
    (h : Timed.Reachable allowed s) :
    ∀ flight ∈ s.cache.heap, ∀ entry now, flight.phase = .inserting entry now → now ≤ s.clock := by
  induction h with
  | new t => exact fun flight hflight => by cases hflight
  | step hs _ hstep ih =>
    obtain ⟨c', hc', hclock, rfl⟩ := Timed.step_eq_some hstep
    exact Dns.inserting_past ih (step_visiting hc') hclock

namespace Sweeping

theorem Past.step {s e : Sweeping p} {turn : Turn} (h : Past s) (hstep : s.step turn = some e) :
    Past e := by
  obtain ⟨hclock, -, -, c, hc, rfl⟩ := step_eq_some hstep
  refine ⟨fun t ht => ?_, inserting_past h.inserting hc hclock⟩
  obtain ht | ht := List.mem_append.mp ht
  · exact (h.swept t ht).trans hclock.le
  · -- the time of this sweep was read before the insertion
    unfold Cache.sweepTimes at ht
    split at ht
    · split at ht
      · rename_i flight hflight
        split at ht
        · rename_i entry now hphase
          rw [List.mem_singleton.mp ht]
          exact (h.inserting flight (List.mem_of_getElem? hflight) entry now hphase).trans hclock.le
        · cases ht
      · cases ht
    · cases ht

structure Agrees (s s' : Sweeping p) : Prop where
  clock : s'.clock = s.clock
  swept : s'.swept = s.swept
  cache : Agree s.swept s.cache s'.cache

section
variable {s s' e : Sweeping p} {turn turn' : Turn}

theorem Agrees.visiting (h : Agrees s s') (hpast : Past s) (hsame : turn.Same turn')
    (hstep : s.step turn = some e) (hroom : s'.cache.evicts turn'.visited turn'.action = false) :
    ∃ c', s'.cache.stepVisiting turn'.visited turn'.action = some c' ∧
      Agrees e ⟨c', turn'.time, s'.swept ++ s'.cache.sweepTimes turn'.action⟩ := by
  obtain ⟨hclock, hbegun, hroom₁, c, hc, rfl⟩ := step_eq_some hstep
  obtain ⟨c', hc', hagree⟩ :=
    h.cache.stepVisiting hsame.action hpast.swept hclock hbegun hroom₁ hroom hc
  refine ⟨c', hc', hsame.time, ?_, hagree⟩
  simp only [h.swept, h.cache.sweepTimes hsame.action]

theorem Agrees.step (h : Agrees s s') (hpast : Past s) (hsame : turn.Same turn')
    (hstep : s.step turn = some e) {e' : Sweeping p} (hstep' : s'.step turn' = some e') :
    Agrees e e' := by
  obtain ⟨-, -, hroom, c', hc', rfl⟩ := step_eq_some hstep'
  obtain ⟨d', hd', hagree⟩ := h.visiting hpast hsame hstep hroom
  rw [hc'] at hd'
  cases hd'
  exact hagree

/-- A turn that does not follow the code's iteration order is enabled on the other side too. -/
theorem Agrees.enabled (h : Agrees s s') (hpast : Past s) (hsame : turn.Same turn')
    (hstep : s.step turn = some e) (hinstead : turn'.instead ≠ none)
    (hroom : s'.cache.evicts turn'.visited turn'.action = false) :
    ∃ e', s'.step turn' = some e' := by
  obtain ⟨hclock, hbegun, -⟩ := step_eq_some hstep
  obtain ⟨c', hc', -⟩ := h.visiting hpast hsame hstep hroom
  have hclock' : turn'.action.Within s'.clock turn'.time := by
    rw [h.clock, hsame.time]
    exact hsame.action.within hclock
  have hbegun' : s'.cache.begun s'.swept turn'.action = true := by
    rw [h.swept, h.cache.begun hsame.action]
    exact hbegun
  have hnext : s'.next turn' = some c' := by
    unfold Turn.visited at hc'
    unfold next
    cases hvisited : turn'.instead with
    | none => exact absurd hvisited hinstead
    | some visited =>
      rw [hvisited] at hc'
      exact hc'
  exact ⟨_, by rw [Sweeping.step, if_pos ⟨hclock', hbegun', hroom⟩, hnext, Option.map_some]⟩

end

theorem Agrees.run {turns turns' : List Turn} (hsame : List.Forall₂ Turn.Same turns turns')
    {s s' e e' : Sweeping p} (h : Agrees s s') (hpast : Past s) (hrun : s.run turns = some e)
    (hrun' : s'.run turns' = some e') : Agrees e e' := by
  induction hsame generalizing s s' with
  | nil =>
    cases hrun
    cases hrun'
    exact h
  | cons hturn _ ih =>
    obtain ⟨d, hd, hrest⟩ := Option.bind_eq_some_iff.mp hrun
    obtain ⟨d', hd', hrest'⟩ := Option.bind_eq_some_iff.mp hrun'
    exact ih (h.step hpast hturn hd hd') (hpast.step hd) hrest hrest'

theorem Agrees.run_enabled {turns turns' : List Turn}
    (hsame : List.Forall₂ Turn.Same turns turns') {s s' e : Sweeping p} (h : Agrees s s')
    (hpast : Past s) (hrun : s.run turns = some e)
    (hinstead : ∀ turn ∈ turns', turn.instead ≠ none) (hroom : s'.evictsIn turns' = false) :
    ∃ e', s'.run turns' = some e' := by
  induction hsame generalizing s s' with
  | nil => exact ⟨s', rfl⟩
  | @cons turn turn' rest rest' hturn _ ih =>
    obtain ⟨d, hd, hrest⟩ := Option.bind_eq_some_iff.mp hrun
    rw [evictsIn, Bool.or_eq_false_iff] at hroom
    obtain ⟨d', hd'⟩ := h.enabled hpast hturn hd (hinstead turn' (by simp)) hroom.1
    have hlater : d'.evictsIn rest' = false := by simpa [hd'] using hroom.2
    obtain ⟨e', he'⟩ := ih (h.step hpast hturn hd hd') (hpast.step hd) hrest
      (fun x hx => hinstead x (List.mem_cons_of_mem turn' hx)) hlater
    exact ⟨e', by rw [Sweeping.run, hd', Option.bind_some, he']⟩

end Sweeping

/-- Sweeping cannot be observed. From any reachable state, two runs with the same actions that
sweep as the code does under whatever iteration orders, or visit other entries, or none, show the
same calls with their results and errors, the same flights with the queries sent and the stale
answers carried. A run that is told what to sweep is not stuck unless it comes to an eviction. -/
theorem sweeping_unobservable {s : Timed p} (hs : Timed.Reachable (fun _ _ => true) s)
    {turns turns' : List Turn} (hsame : List.Forall₂ Turn.Same turns turns') {e : Sweeping p}
    (hrun : s.sweeping.run turns = some e) :
    (∀ e', s.sweeping.run turns' = some e' → e'.cache.view = e.cache.view) ∧
      ((∀ turn ∈ turns', turn.instead ≠ none) → s.sweeping.evictsIn turns' = false →
        ∃ e', s.sweeping.run turns' = some e') := by
  have hpast : s.sweeping.Past := ⟨fun t ht => absurd ht List.not_mem_nil, hs.inserting_past⟩
  have hagree : s.sweeping.Agrees s.sweeping := ⟨rfl, rfl, rfl, fun k => .inl rfl⟩
  refine ⟨fun e' hrun' => (hagree.run hsame hpast hrun hrun').cache.view, ?_⟩
  intro hinstead hroom
  exact hagree.run_enabled hsame hpast hrun hinstead hroom

/-- A name that does not exist is cached; the next answer's insertion comes after its expiry, and
another name is asked for. `instead` says what that insertion sweeps. -/
def expiryTurns (instead : Option (List Key)) : List Turn :=
  [⟨.resolve (queryFor "a.example") true 100, 100, instead⟩, ⟨.take 0, 100, instead⟩,
    ⟨.start 0 100 100, 100, instead⟩,
    ⟨.answer 0 (.returned { rcode := .nxdomain } none) 101 1, 101, instead⟩,
    ⟨.insert 0 [] [], 101, instead⟩, ⟨.finish 0, 101, instead⟩,
    ⟨.resolve (queryFor "b.example") true 200, 200, instead⟩, ⟨.take 1, 200, instead⟩,
    ⟨.start 1 200 200, 200, instead⟩,
    ⟨.answer 1 (.returned { addrs := [.v4 0xc000020a], expiresAt := 230 } none) 201 1, 201,
      instead⟩,
    ⟨.insert 1 [keyFor "a.example"] [], 201, instead⟩, ⟨.finish 1, 201, instead⟩,
    ⟨.resolve (queryFor "c.example") true 202, 202, instead⟩, ⟨.take 2, 202, instead⟩,
    ⟨.start 2 202 202, 202, instead⟩]

/-- The code sweeps the expired entry, the other run keeps it, and nobody can tell. -/
theorem sweeping_unobservable_expiry : ∃ e e' : Sweeping smallPolicy,
    (Timed.sweeping ⟨newCache smallPolicy, 100, []⟩).run (expiryTurns none) = some e ∧
    (Timed.sweeping ⟨newCache smallPolicy, 100, []⟩).run (expiryTurns (some [])) = some e' ∧
    e.cache.cached (keyFor "a.example") = none ∧
    e'.cache.cached (keyFor "a.example") ≠ none ∧
    e'.cache.view = e.cache.view := by
  have hcode : ((Timed.sweeping ⟨newCache smallPolicy, 100, []⟩).run (expiryTurns none)).map
      (fun e => (e.cache.cached (keyFor "a.example")).isSome) = some false := by
    decide +kernel
  have hlazy : ((Timed.sweeping ⟨newCache smallPolicy, 100, []⟩).run (expiryTurns (some []))).map
      (fun e => (e.cache.cached (keyFor "a.example")).isSome) = some true := by
    decide +kernel
  obtain ⟨e, he, hswept⟩ := Option.map_eq_some_iff.mp hcode
  obtain ⟨e', he', hkept⟩ := Option.map_eq_some_iff.mp hlazy
  have hsame : List.Forall₂ Turn.Same (expiryTurns none) (expiryTurns (some [])) := by
    simp only [expiryTurns, List.forall₂_cons, List.forall₂_nil_left_iff, and_true]
    repeat' constructor
  exact ⟨e, e', he, he', by simpa using hswept, by simpa [Option.isSome_iff_ne_none] using hkept,
    (sweeping_unobservable (.new 100) hsame he).1 e' he'⟩

end SakhtarWg.Dns
