import Mathlib.Algebra.Order.BigOperators.Group.Finset
import SakhtarWg.DnsCache
import SakhtarWg.FiniteMap

/-!
# Capacity accounting of the cache

What each section under a shard's lock does to the counters is said once, as a
frame on the locked view. The invariant of the whole cache follows for every
interleaving.
-/

namespace SakhtarWg.Dns
open Netip FiniteMap

def classCount (c : Class) (es : Entries) : ℕ := countWith (fun e => e.entryClass = c) es

/-- The counters of a shard describe its entries. -/
def Shard.Exact (s : Shard) : Prop := ∀ c, s.counts c = classCount c s.entries

/-- A section kept the counters exact and moved them together with the metrics. -/
structure Frame (w w' : Locked) : Prop where
  positiveCap : w'.shard.positiveCap = w.shard.positiveCap
  negativeCap : w'.shard.negativeCap = w.shard.negativeCap
  exact : w.shard.Exact → w'.shard.Exact
  drift : ∀ c, w'.metrics.entries c - w'.shard.counts c = w.metrics.entries c - w.shard.counts c

/-- A section that only removes entries. -/
structure Shrinks (w w' : Locked) : Prop extends Frame w w' where
  keys : ∀ k ∈ w'.shard.entries, k ∈ w.shard.entries
  counts : ∀ c, w'.shard.counts c ≤ w.shard.counts c

theorem Shrinks.refl (w : Locked) : Shrinks w w :=
  ⟨⟨rfl, rfl, id, fun _ => rfl⟩, fun _ h => h, fun _ => le_rfl⟩

theorem Shrinks.trans {w₁ w₂ w₃ : Locked} (h : Shrinks w₁ w₂) (h' : Shrinks w₂ w₃) :
    Shrinks w₁ w₃ :=
  ⟨⟨h'.positiveCap.trans h.positiveCap, h'.negativeCap.trans h.negativeCap,
    fun he => h'.exact (h.exact he), fun c => (h'.drift c).trans (h.drift c)⟩,
    fun k hk => h.keys k (h'.keys k hk), fun c => (h'.counts c).trans (h.counts c)⟩

theorem Frame.capacity {w w' : Locked} (h : Frame w w') (c : Class) :
    w'.shard.capacity c = w.shard.capacity c := by
  cases c
  · exact h.positiveCap
  · exact h.negativeCap

theorem deleteLocked_shrinks {w : Locked} {k : Key} {e : CacheEntry}
    (h : w.shard.entries.lookup k = some e) : Shrinks w (w.deleteLocked k e) := by
  have hcount (c : Class) := countWith_erase (fun e => decide (e.entryClass = c)) h
  refine ⟨⟨rfl, rfl, fun hex c => ?_, fun c => ?_⟩, fun j hj => ?_, fun c => ?_⟩
  · have h1 := hex c
    have h2 := hcount c
    by_cases hc : c = e.entryClass
    · subst hc
      simp only [Locked.deleteLocked, Function.update_self, classCount] at h1 h2 ⊢
      simp only [decide_true, if_true] at h2
      omega
    · simp only [Locked.deleteLocked, Function.update_of_ne hc, classCount] at h1 h2 ⊢
      simp only [Ne.symm hc, decide_false] at h2
      simpa [h2] using h1
  · by_cases hc : c = e.entryClass
    · subst hc
      simp only [Locked.deleteLocked, Metrics.addEntries, Function.update_self]
      omega
    · simp [Locked.deleteLocked, Metrics.addEntries, Function.update_of_ne hc]
  · exact (AList.mem_erase.mp hj).2
  · by_cases hc : c = e.entryClass
    · subst hc
      simp only [Locked.deleteLocked, Function.update_self]
      omega
    · simp [Locked.deleteLocked, Function.update_of_ne hc]

theorem sweepLocked_shrinks (w : Locked) (now : ℤ) (limit : ℕ) (order : List Key) :
    Shrinks w (w.sweepLocked now limit order) := by
  unfold Locked.sweepLocked
  induction order.take limit generalizing w with
  | nil => exact Shrinks.refl w
  | cons k ks ih =>
    rw [List.foldl_cons]
    split
    · rename_i e he
      split
      · exact (deleteLocked_shrinks he).trans (ih _)
      · exact ih w
    · exact ih w

theorem beforeEvict_shrinks (w : Locked) (k : Key) (now : ℤ) (order : List Key) :
    Shrinks w (w.beforeEvict k now order) := by
  simp only [Locked.beforeEvict]
  split
  · rename_i e he
    exact (sweepLocked_shrinks w now 4 order).trans (deleteLocked_shrinks he)
  · exact sweepLocked_shrinks w now 4 order

theorem beforeEvict_not_mem (w : Locked) (k : Key) (now : ℤ) (order : List Key) :
    k ∉ (w.beforeEvict k now order).shard.entries := by
  simp only [Locked.beforeEvict]
  split
  · simp [Locked.deleteLocked]
  · rename_i he
    exact AList.lookup_eq_none.mp he

/-- Eviction metrics are not part of the accounting. -/
theorem Shrinks.addEviction {w w' : Locked} (h : Shrinks w w') (c : Class) :
    Shrinks w { w' with metrics := w'.metrics.addEviction c } :=
  ⟨⟨h.positiveCap, h.negativeCap, h.exact, h.drift⟩, h.keys, h.counts⟩

theorem evict_shrinks (w : Locked) (c : Class) (order : List Key) :
    Shrinks w (w.evict c order) := by
  unfold Locked.evict
  split
  · rename_i k victim hfind
    obtain ⟨j, -, hj⟩ := List.exists_of_findSome?_eq_some hfind
    simp only [Option.bind_eq_some_iff, Option.ite_none_right_eq_some, Option.some.injEq,
      Prod.mk.injEq] at hj
    obtain ⟨e, he, -, rfl, rfl⟩ := hj
    exact (deleteLocked_shrinks he).addEviction c
  · exact Shrinks.refl w

/-- A loop over all keys evicts an entry of the class whenever there is one. -/
theorem evict_counts {w : Locked} (hex : w.shard.Exact) {c : Class} {order : List Key}
    (horder : ∀ k ∈ w.shard.entries, k ∈ order) (hpos : 0 < w.shard.counts c) :
    (w.evict c order).shard.counts c = w.shard.counts c - 1 := by
  obtain ⟨k, e, he, hc⟩ := exists_of_countWith_pos (q := fun e => decide (e.entryClass = c))
    (m := w.shard.entries) (by
      have := hex c
      simp only [classCount] at this
      omega)
  have hk : k ∈ order := horder k (AList.lookup_isSome.mp (by simp [he]))
  unfold Locked.evict
  split
  · rename_i j victim hfind
    obtain ⟨i, -, hi⟩ := List.exists_of_findSome?_eq_some hfind
    simp only [Option.bind_eq_some_iff, Option.ite_none_right_eq_some, Option.some.injEq,
      Prod.mk.injEq] at hi
    obtain ⟨e', -, rfl, -, rfl⟩ := hi
    simp [Locked.deleteLocked]
  · rename_i hnone
    have := List.findSome?_eq_none_iff.mp hnone k hk
    simp [he, of_decide_eq_true hc] at this

/-- `insert` up to the write of the new entry. -/
def Locked.beforeWrite (w : Locked) (k : Key) (entry : CacheEntry) (now : ℤ)
    (sweep victims : List Key) : Locked :=
  let w := w.beforeEvict k now sweep
  let c := entry.entryClass
  if w.shard.capacity c ≤ w.shard.counts c then w.evict c victims else w

def Locked.write (w : Locked) (k : Key) (entry : CacheEntry) : Locked :=
  let c := entry.entryClass
  { shard := { w.shard with
      entries := w.shard.entries.insert k entry
      counts := Function.update w.shard.counts c (w.shard.counts c + 1) }
    metrics := w.metrics.addEntries c 1 }

theorem insert_eq (w : Locked) (k : Key) (entry : CacheEntry) (now : ℤ)
    (sweep victims : List Key) :
    w.insert k entry now sweep victims =
      (w.beforeWrite k entry now sweep victims).write k entry := rfl

theorem write_frame {w : Locked} {k : Key} (entry : CacheEntry) (hk : k ∉ w.shard.entries) :
    Frame w (w.write k entry) := by
  have hcount (c : Class) := countWith_insert (fun e => decide (e.entryClass = c)) entry hk
  refine ⟨rfl, rfl, fun hex c => ?_, fun c => ?_⟩
  · have h1 := hex c
    have h2 := hcount c
    by_cases hc : c = entry.entryClass
    · subst hc
      simp only [Locked.write, Function.update_self, classCount] at h1 h2 ⊢
      simp only [decide_true, if_true] at h2
      omega
    · simp only [Locked.write, Function.update_of_ne hc, classCount] at h1 h2 ⊢
      simp only [Ne.symm hc, decide_false] at h2
      simpa [h2] using h1
  · by_cases hc : c = entry.entryClass
    · subst hc
      simp only [Locked.write, Metrics.addEntries, Function.update_self]
      omega
    · simp [Locked.write, Metrics.addEntries, Function.update_of_ne hc]

section
variable (w : Locked) (k : Key) (entry : CacheEntry) (now : ℤ) (sweep victims : List Key)

theorem beforeWrite_shrinks : Shrinks w (w.beforeWrite k entry now sweep victims) := by
  simp only [Locked.beforeWrite]
  split
  · exact (beforeEvict_shrinks w k now sweep).trans (evict_shrinks _ _ _)
  · exact beforeEvict_shrinks w k now sweep

theorem beforeWrite_not_mem :
    k ∉ (w.beforeWrite k entry now sweep victims).shard.entries := by
  have hk := beforeEvict_not_mem w k now sweep
  simp only [Locked.beforeWrite]
  split
  · exact fun h => hk ((evict_shrinks _ _ _).keys k h)
  · exact hk

theorem insert_frame : Frame w (w.insert k entry now sweep victims) := by
  have h1 := beforeWrite_shrinks w k entry now sweep victims
  have h2 := write_frame entry (beforeWrite_not_mem w k entry now sweep victims)
  rw [insert_eq]
  exact ⟨h2.positiveCap.trans h1.positiveCap, h2.negativeCap.trans h1.negativeCap,
    fun hex => h2.exact (h1.exact hex), fun c => (h2.drift c).trans (h1.drift c)⟩

theorem insert_keys {j : Key} (hj : j ∈ (w.insert k entry now sweep victims).shard.entries) :
    j = k ∨ j ∈ w.shard.entries := by
  rcases (AList.mem_insert _).mp hj with h | h
  · exact .inl h
  · exact .inr ((beforeWrite_shrinks w k entry now sweep victims).keys j h)

variable {w k entry now sweep victims}

/-- The write finds room: a full class has just lost one of its entries. -/
theorem insert_capped (hex : w.shard.Exact) (hcap : ∀ c, w.shard.counts c ≤ w.shard.capacity c)
    (hpos : ∀ c, 1 ≤ w.shard.capacity c)
    (hvictims : ∀ j ∈ (w.beforeEvict k now sweep).shard.entries, j ∈ victims) (c : Class) :
    (w.insert k entry now sweep victims).shard.counts c ≤
      (w.insert k entry now sweep victims).shard.capacity c := by
  have hbefore := beforeEvict_shrinks w k now sweep
  have hroom : (w.beforeWrite k entry now sweep victims).shard.counts entry.entryClass + 1 ≤
      w.shard.capacity entry.entryClass := by
    have hc1 := hbefore.counts entry.entryClass
    have hc2 := hcap entry.entryClass
    have hcapacity := hbefore.capacity entry.entryClass
    simp only [Locked.beforeWrite]
    split
    · rename_i hfull
      have := hpos entry.entryClass
      rw [evict_counts (hbefore.exact hex) hvictims (by omega)]
      omega
    · omega
  rw [(insert_frame w k entry now sweep victims).capacity, insert_eq]
  by_cases hc : c = entry.entryClass
  · subst hc
    simpa [Locked.write] using hroom
  · have h1 := (beforeWrite_shrinks w k entry now sweep victims).counts c
    have h2 := hcap c
    simp only [Locked.write, Function.update_of_ne hc]
    omega

end

theorem takeEntry_shrinks (p : Policy) (w : Locked) (k : Key) (now : ℤ) :
    Shrinks w (w.takeEntry p k now).1 := by
  unfold Locked.takeEntry
  split
  · exact Shrinks.refl w
  · rename_i e he
    split
    · exact Shrinks.refl w
    · split
      · exact Shrinks.refl w
      · exact deleteLocked_shrinks he

theorem invalidate_shrinks (w : Locked) (k : Key) : Shrinks w (w.invalidate k) := by
  unfold Locked.invalidate
  split
  · exact Shrinks.refl w
  · rename_i e he
    exact (deleteLocked_shrinks he).addEviction e.entryClass

/-! ## Distributing a capacity -/

theorem distributedCapacity_eq (total n : ℕ) (i : ℕ) :
    distributedCapacity total n i = (total / n : ℕ) + if i < total % n then 1 else 0 := by
  have h1 : (total : ℤ).tdiv n = (total / n : ℕ) := by
    rw [Int.tdiv_eq_ediv_of_nonneg (by omega)]
    exact (Int.natCast_ediv total n).symm
  have h2 : (total : ℤ).tmod n = (total % n : ℕ) := by
    rw [Int.tmod_eq_emod_of_nonneg (by omega)]
    exact (Int.natCast_emod total n).symm
  simp only [distributedCapacity, h1, h2, Nat.cast_lt]
  split <;> simp

theorem distributedCapacity_pos {total : ℤ} {n i : ℕ} (hn : 0 < n) (hle : (n : ℤ) ≤ total) :
    1 ≤ distributedCapacity total n i := by
  obtain ⟨t, rfl⟩ := Int.eq_ofNat_of_zero_le (a := total) (by omega)
  have hdiv : 1 ≤ t / n := (Nat.one_le_div_iff hn).mpr (by omega)
  rw [distributedCapacity_eq]
  split <;> omega

theorem sum_distributedCapacity {total : ℤ} {n : ℕ} (hn : 0 < n) (ht : 0 ≤ total) :
    ∑ i : Fin n, distributedCapacity total n i = total := by
  obtain ⟨t, rfl⟩ := Int.eq_ofNat_of_zero_le ht
  have hmod : t % n ≤ n := (Nat.mod_lt t hn).le
  have hcard : ((Finset.range n).filter fun i => i < t % n).card = t % n := by
    have : (Finset.range n).filter (fun i => i < t % n) = Finset.range (t % n) := by
      ext i
      simp only [Finset.mem_filter, Finset.mem_range]
      omega
    rw [this, Finset.card_range]
  simp only [distributedCapacity_eq]
  rw [Fin.sum_univ_eq_sum_range fun i => ((t / n : ℕ) : ℤ) + if i < t % n then 1 else 0,
    Finset.sum_add_distrib, Finset.sum_boole, hcard, Finset.sum_const, Finset.card_range,
    nsmul_eq_mul]
  have := Nat.div_add_mod t n
  push_cast
  exact_mod_cast this

/-! ## One step -/

/-- The accounting state of a cache: its shards and the entry metrics. -/
def Cache.Same {p : ValidPolicy} (c c' : Cache p) : Prop :=
  c'.shards = c.shards ∧ c'.metrics.entries = c.metrics.entries

/-- What a section under the lock of `k` may do. -/
inductive Section (k : Key) (w : Locked) : Locked → Prop
  | shrink {w' : Locked} : Shrinks w w' → Section k w w'
  | insert {entry : CacheEntry} {now : ℤ} {sweep victims : List Key} :
      (∀ j ∈ (w.beforeEvict k now sweep).shard.entries, j ∈ victims) →
      Section k w (w.insert k entry now sweep victims)

variable {p : ValidPolicy}

theorem afterTake_same (c : Cache p) (i : ℕ) (k : Key) (q : Query) (now : ℤ) (e : CacheEntry)
    (found : Bool) : c.Same (c.afterTake i k q now e found) := by
  unfold Cache.afterTake
  dsimp only
  split_ifs <;> (try split) <;> exact ⟨rfl, rfl⟩

theorem startFlight_same (c : Cache p) (i : ℕ) (k : Key) (q : Query) (stale : Result)
    (staleUntil : ℤ) (refresh : Bool) (now now' : ℤ) :
    c.Same (c.startFlight i k q stale staleUntil refresh now now') := by
  unfold Cache.startFlight
  split
  · exact ⟨rfl, rfl⟩
  · split
    · exact ⟨rfl, rfl⟩
    · dsimp only
      split <;> exact ⟨rfl, rfl⟩

theorem check_same (c : Cache p) (i f : ℕ) (flight : Flight) (stale : Result) (refresh : Bool) :
    c.Same (c.check i f flight stale refresh) := by
  unfold Cache.check
  split_ifs <;> exact ⟨rfl, rfl⟩

theorem finish_same (c : Cache p) (f : ℕ) (flight : Flight) (entry : CacheEntry) (now : ℤ) :
    c.Same (c.finish f flight entry now) := by
  unfold Cache.finish
  dsimp only
  split_ifs <;> exact ⟨rfl, rfl⟩

/-- Every step leaves the accounting alone or runs one section under one lock. -/
theorem step_cases {c c' : Cache p} {a : Action} (h : c.step a = some c') :
    c.Same c' ∨ ∃ k w, Section k (c.lock k) w ∧ (c.unlock k w).Same c' := by
  cases a with
  | resolve query hasResolver now =>
    simp only [Cache.step] at h
    split at h
    · split at h <;> cases h <;> exact .inl ⟨rfl, rfl⟩
    · cases h
      exact .inl ⟨rfl, rfl⟩
  | take i =>
    simp only [Cache.step] at h
    split at h
    · rename_i k query now _
      cases h
      exact .inr ⟨k, _, .shrink (takeEntry_shrinks p.toPolicy (c.lock k) k now),
        afterTake_same _ _ _ _ _ _ _⟩
    · cases h
  | start i now now' =>
    simp only [Cache.step] at h
    split at h
    · cases h
      exact .inl (startFlight_same _ _ _ _ _ _ _ _ _)
    · cases h
  | check i =>
    simp only [Cache.step] at h
    split at h
    · obtain ⟨flight, -, rfl⟩ := Option.map_eq_some_iff.mp h
      exact .inl (check_same _ _ _ _ _ _)
    · cases h
  | receive i =>
    simp only [Cache.step] at h
    split at h
    · split at h
      · split at h
        · cases h
          exact .inl ⟨rfl, rfl⟩
        · cases h
      · cases h
    · cases h
  | cancel i reason =>
    simp only [Cache.step] at h
    split at h
    · cases h
      exact .inl ⟨rfl, rfl⟩
    · cases h
  | answer f answer now elapsed =>
    simp only [Cache.step] at h
    split at h
    · split at h
      · cases h
        exact .inl ⟨rfl, rfl⟩
      · cases h
    · cases h
  | insert f sweep victims =>
    simp only [Cache.step] at h
    split at h
    · rename_i flight _
      split at h
      · rename_i entry now _
        split at h
        · rename_i horders
          cases h
          refine .inr ⟨flight.key, _, .insert (fun j hj => ?_), ⟨rfl, rfl⟩⟩
          exact horders.2.mem_iff.mpr (AList.mem_keys.mp hj)
        · cases h
      · cases h
    · cases h
  | finish f =>
    simp only [Cache.step] at h
    split at h
    · split at h
      · cases h
        exact .inl (finish_same _ _ _ _ _)
      · cases h
    · cases h
  | invalidate query =>
    simp only [Cache.step] at h
    split at h
    · cases h
      exact .inl ⟨rfl, rfl⟩
    · rename_i k _
      cases h
      exact .inr ⟨k, _, .shrink (invalidate_shrinks (c.lock k) k), ⟨rfl, rfl⟩⟩

/-! ## The invariant -/

def Policy.capacity (p : Policy) : Class → ℤ
  | .positive => p.positiveCapacity
  | .negative => p.negativeCapacity

structure Accounted (c : Cache p) : Prop where
  exact : ∀ i, (c.shards i).Exact
  capped : ∀ i cl, (c.shards i).counts cl ≤ (c.shards i).capacity cl
  placed : ∀ i, ∀ k ∈ (c.shards i).entries, p.shardFor k = i
  capacity : ∀ i cl, (c.shards i).capacity cl =
    distributedCapacity (p.toPolicy.capacity cl) p.shardCount i
  metrics : ∀ cl, c.metrics.entries cl = ∑ i, (c.shards i).counts cl

/-- No class has more shards than capacity. -/
theorem ValidPolicy.shardCount_le (p : ValidPolicy) (cl : Class) :
    (p.shardCount : ℤ) ≤ p.toPolicy.capacity cl := by
  obtain ⟨hp, hn, -⟩ := Policy.capacity_pos p.valid
  cases cl <;> simp only [Policy.capacity, Policy.shardCount, defaultShardCount] <;> omega

theorem Accounted.new (p : ValidPolicy) : Accounted (newCache p) := by
  have hcap : ∀ i cl, ((newCache p).shards i).capacity cl =
      distributedCapacity (p.toPolicy.capacity cl) p.shardCount i := by
    intro i cl
    cases cl <;> rfl
  refine ⟨fun i cl => rfl, fun i cl => ?_, fun i k hk => ?_, hcap, fun cl => ?_⟩
  · rw [hcap]
    have := distributedCapacity_pos (i := i) p.shardCount_pos (p.shardCount_le cl)
    exact le_trans (by simp [newCache]) this
  · exact absurd hk (AList.notMem_empty k)
  · simp [newCache, Metrics.zero]

theorem Accounted.capacity_pos {c : Cache p} (h : Accounted c) (i : Fin p.shardCount)
    (cl : Class) : 1 ≤ (c.shards i).capacity cl := by
  rw [h.capacity]
  exact distributedCapacity_pos p.shardCount_pos (p.shardCount_le cl)

theorem Accounted.same {c c' : Cache p} (h : Accounted c) (hs : c.Same c') : Accounted c' := by
  obtain ⟨hshards, hentries⟩ := hs
  refine ⟨?_, ?_, ?_, ?_, ?_⟩
  · simpa only [hshards] using h.exact
  · simpa only [hshards] using h.capped
  · simpa only [hshards] using h.placed
  · simpa only [hshards] using h.capacity
  · simpa only [hshards, hentries] using h.metrics

/-- What a section guarantees, whichever kind it is. -/
theorem Section.spec {k : Key} {w w' : Locked} (h : Section k w w') (hex : w.shard.Exact)
    (hcap : ∀ c, w.shard.counts c ≤ w.shard.capacity c) (hpos : ∀ c, 1 ≤ w.shard.capacity c) :
    Frame w w' ∧ (∀ c, w'.shard.counts c ≤ w'.shard.capacity c) ∧
      ∀ j ∈ w'.shard.entries, j = k ∨ j ∈ w.shard.entries := by
  cases h with
  | shrink h =>
    refine ⟨h.toFrame, fun c => ?_, fun j hj => .inr (h.keys j hj)⟩
    rw [h.toFrame.capacity]
    exact (h.counts c).trans (hcap c)
  | insert hvictims =>
    exact ⟨insert_frame _ _ _ _ _ _, insert_capped hex hcap hpos hvictims,
      fun j hj => insert_keys _ _ _ _ _ _ hj⟩

theorem Accounted.unlock {c : Cache p} (h : Accounted c) {k : Key} {w : Locked}
    (hs : Section k (c.lock k) w) : Accounted (c.unlock k w) := by
  obtain ⟨hframe, hcap, hkeys⟩ := hs.spec (h.exact _) (h.capped _) (h.capacity_pos _)
  -- every field speaks about the replaced shard or about one of the others
  refine ⟨fun i => ?_, fun i cl => ?_, fun i j hj => ?_, fun i cl => ?_, fun cl => ?_⟩
  · by_cases hi : i = p.shardFor k
    · subst hi
      simpa [Cache.unlock] using hframe.exact (h.exact _)
    · simpa [Cache.unlock, hi] using h.exact i
  · by_cases hi : i = p.shardFor k
    · subst hi
      simpa [Cache.unlock] using hcap cl
    · simpa [Cache.unlock, hi] using h.capped i cl
  · by_cases hi : i = p.shardFor k
    · subst hi
      rcases hkeys j (by simpa [Cache.unlock] using hj) with rfl | hj'
      · rfl
      · exact h.placed _ j hj'
    · exact h.placed i j (by simpa [Cache.unlock, hi] using hj)
  · by_cases hi : i = p.shardFor k
    · subst hi
      rw [← h.capacity]
      simpa [Cache.unlock, Cache.lock] using hframe.capacity cl
    · simpa [Cache.unlock, hi] using h.capacity i cl
  · have hsum := sum_update c.shards (p.shardFor k) w.shard fun s => s.counts cl
    have hdrift := hframe.drift cl
    have hmetrics := h.metrics cl
    simp only [Cache.unlock, hsum]
    simp only [Cache.lock] at hdrift
    omega

theorem Accounted.step {c c' : Cache p} {a : Action} (h : Accounted c)
    (hstep : c.step a = some c') : Accounted c' := by
  rcases step_cases hstep with hs | ⟨k, w, hsec, hs⟩
  · exact h.same hs
  · exact (h.unlock hsec).same hs

theorem Cache.Reachable.accounted {c : Cache p} (h : Cache.Reachable p c) : Accounted c := by
  induction h with
  | new => exact Accounted.new p
  | step _ hstep ih => exact ih.step hstep

/-- Counters, placement, capacities and metrics in every reachable state. -/
theorem cache_capacity {c : Cache p} (h : Cache.Reachable p c) :
    (∀ i cl, (c.shards i).counts cl = classCount cl (c.shards i).entries ∧
      (c.shards i).counts cl ≤ (c.shards i).capacity cl) ∧
    (∀ i, ∀ k ∈ (c.shards i).entries, p.shardFor k = i) ∧
    (∀ i cl, 1 ≤ (c.shards i).capacity cl) ∧
    (∀ cl, ∑ i, (c.shards i).capacity cl = p.toPolicy.capacity cl) ∧
    (∀ cl, c.metrics.entries cl = ∑ i, (classCount cl (c.shards i).entries : ℤ)) ∧
    ∀ cl, c.metrics.entries cl ≤ p.toPolicy.capacity cl := by
  have hacc := h.accounted
  have hsum : ∀ cl, ∑ i, (c.shards i).capacity cl = p.toPolicy.capacity cl := by
    intro cl
    simp only [hacc.capacity]
    exact sum_distributedCapacity p.shardCount_pos
      (le_trans (by omega) (p.shardCount_le cl))
  refine ⟨fun i cl => ⟨hacc.exact i cl, hacc.capped i cl⟩, hacc.placed, hacc.capacity_pos, hsum,
    fun cl => ?_, fun cl => ?_⟩
  · rw [hacc.metrics]
    exact Finset.sum_congr rfl fun i _ => hacc.exact i cl
  · rw [hacc.metrics, ← hsum cl]
    exact Finset.sum_le_sum fun i _ => hacc.capped i cl

/-! ## A run -/

def Cache.run (c : Cache p) (actions : List Action) : Option (Cache p) :=
  actions.foldlM Cache.step c

theorem Cache.Reachable.run {actions : List Action} {c c' : Cache p}
    (h : Cache.Reachable p c) (hrun : c.run actions = some c') : Cache.Reachable p c' := by
  induction actions generalizing c with
  | nil =>
    cases hrun
    exact h
  | cons a actions ih =>
    simp only [Cache.run, List.foldlM_cons, Option.bind_eq_bind, Option.bind_eq_some_iff] at hrun
    obtain ⟨d, hd, hrest⟩ := hrun
    exact ih (h.step hd) hrest

def smallPolicy : ValidPolicy where
  positiveCapacity := 1
  negativeCapacity := 1
  maxPending := 2
  minPositiveTTL := 5
  maxPositiveTTL := 60
  negativeTTL := 5
  transientFailureTTL := 2
  staleWindow := 30
  stalePolicy := .transient
  resolverTimeout := 5
  valid := rfl

def queryFor (host : String) : Query := ⟨host, .any, "direct", "system", 1⟩

def keyFor (host : String) : Key := ⟨host, .any, "direct", "system", 1⟩

/-- One name resolved from the first clock reading on, inserted in an empty or full shard. -/
def resolveOnce (host : String) (index : ℕ) (now : ℤ) (present : List Key) : List Action :=
  [.resolve (queryFor host) true now, .take index, .start index now now,
    .answer index (.returned { addrs := [.v4 0xc000020a], expiresAt := now + 5 } none) now 1,
    .insert index present present, .finish index, .check index]

/-- The second positive answer evicts the first: one entry stays. -/
theorem cache_capacity_evicts : ∃ c : Cache smallPolicy, Cache.Reachable smallPolicy c ∧
    c.metrics.evictions .positive = 1 ∧ c.metrics.entries .positive = 1 ∧
      c.metrics.entries .positive ≤ 1 := by
  let actions := resolveOnce "a.example" 0 100 [] ++ resolveOnce "b.example" 1 101 [keyFor "a.example"]
  have hrun : (((newCache smallPolicy).run actions).map fun c =>
      (c.metrics.evictions .positive, c.metrics.entries .positive)) = some (1, 1) := by
    decide +kernel
  obtain ⟨c, hc, hm⟩ := Option.map_eq_some_iff.mp hrun
  have hreach := Cache.Reachable.new.run hc
  obtain ⟨-, -, -, -, -, hle⟩ := cache_capacity hreach
  obtain ⟨he, hn⟩ := Prod.mk.inj hm
  exact ⟨c, hreach, he, hn, hle .positive⟩

end SakhtarWg.Dns
