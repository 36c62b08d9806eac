import Mathlib.Data.List.AList
import Mathlib.Algebra.BigOperators.Fin

/-!
# Counting in finite maps

How the number of entries with a property changes when one entry comes or goes,
and what happens to a sum over buckets when one bucket is replaced.
-/

namespace SakhtarWg.FiniteMap

variable {α : Type} {β : Type}

/-- The number of entries whose value has the property. -/
def countWith (q : β → Bool) (m : AList fun _ : α => β) : ℕ := m.entries.countP fun e => q e.2

@[simp] theorem countWith_empty (q : β → Bool) :
    countWith q (∅ : AList fun _ : α => β) = 0 := rfl

variable [DecidableEq α]

/-- The entry of a key and the entries without it. -/
theorem entries_perm_erase {m : AList fun _ : α => β} {k : α} {b : β}
    (h : m.lookup k = some b) : m.entries.Perm (⟨k, b⟩ :: (m.erase k).entries) := by
  have hk : k ∈ m.entries.keys := AList.lookup_isSome.mp (by simp [h])
  obtain ⟨b', l₁, l₂, hnot, hl, he⟩ := List.exists_of_kerase hk
  have hb : b' = b := by
    have hmem : (⟨k, b'⟩ : Sigma fun _ : α => β) ∈ m.entries := by simp [hl]
    have hlook : m.lookup k = some b' := (List.mem_dlookup_iff m.nodupKeys).mpr hmem
    rw [h] at hlook
    exact (Option.some.inj hlook).symm
  subst hb
  have hera : (m.erase k).entries = l₁ ++ l₂ := he
  rw [hera, hl]
  exact List.perm_middle

theorem countWith_erase (q : β → Bool) {m : AList fun _ : α => β} {k : α} {b : β}
    (h : m.lookup k = some b) :
    countWith q m = countWith q (m.erase k) + if q b then 1 else 0 := by
  rw [countWith, (entries_perm_erase h).countP_eq, List.countP_cons]
  rfl

theorem countWith_insert (q : β → Bool) {m : AList fun _ : α => β} {k : α} (b : β)
    (h : k ∉ m) : countWith q (m.insert k b) = countWith q m + if q b then 1 else 0 := by
  simp only [countWith, AList.entries_insert_of_notMem h, List.countP_cons]

theorem exists_of_countWith_pos {q : β → Bool} {m : AList fun _ : α => β}
    (h : 0 < countWith q m) : ∃ k b, m.lookup k = some b ∧ q b = true := by
  obtain ⟨⟨k, b⟩, hmem, hq⟩ := List.countP_pos_iff.mp h
  exact ⟨k, b, (List.mem_dlookup_iff m.nodupKeys).mpr hmem, hq⟩

/-- The number of keys with the property. -/
def countKeys (q : α → Bool) (m : AList fun _ : α => β) : ℕ := m.keys.countP q

omit [DecidableEq α] in
@[simp] theorem countKeys_empty (q : α → Bool) :
    countKeys q (∅ : AList fun _ : α => β) = 0 := rfl

theorem countKeys_insert (q : α → Bool) {m : AList fun _ : α => β} {k : α} (b : β)
    (h : k ∉ m) : countKeys q (m.insert k b) = countKeys q m + if q k then 1 else 0 := by
  have hkeys : (m.insert k b).keys = k :: m.keys := by
    simp only [AList.keys, AList.entries_insert_of_notMem h, List.keys_cons]
  rw [countKeys, hkeys, List.countP_cons]
  rfl

theorem countKeys_erase (q : α → Bool) {m : AList fun _ : α => β} {k : α} (h : k ∈ m) :
    countKeys q m = countKeys q (m.erase k) + if q k then 1 else 0 := by
  have hperm := List.perm_cons_erase (AList.mem_keys.mp h)
  rw [countKeys, countKeys, AList.keys_erase, hperm.countP_eq, List.countP_cons]

/-! ## Counts by group -/

section
variable {γ : Type} [DecidableEq γ] (g : α → γ)

/-- The number of keys in a group. -/
def groupSize (m : AList fun _ : α => β) (e : γ) : ℕ := countKeys (fun k => decide (g k = e)) m

/-- A count as a map keeps it: zero is no entry. -/
def tally (n : ℕ) : Option ℤ := if n = 0 then none else some n

theorem tally_getD (n : ℕ) : (tally n).getD 0 = n := by
  unfold tally
  split
  · rename_i hzero
    rw [hzero]
    rfl
  · rfl

variable {g}

theorem groupSize_insert {m : AList fun _ : α => β} {k : α} (b : β) (h : k ∉ m) (e : γ) :
    groupSize g (m.insert k b) e = groupSize g m e + if g k = e then 1 else 0 := by
  simpa [groupSize] using countKeys_insert (fun k => decide (g k = e)) b h

theorem groupSize_erase {m : AList fun _ : α => β} {k : α} (h : k ∈ m) (e : γ) :
    groupSize g m e = groupSize g (m.erase k) e + if g k = e then 1 else 0 := by
  simpa [groupSize] using countKeys_erase (fun k => decide (g k = e)) h

variable {counts : AList fun _ : γ => ℤ} {n : γ → ℕ}

/-- Counting one more under a key. -/
theorem tally_succ (h : ∀ e, counts.lookup e = tally (n e)) {k : γ} (e : γ) :
    (counts.insert k ((n k : ℤ) + 1)).lookup e = tally (n e + if k = e then 1 else 0) := by
  by_cases he : e = k
  · subst he
    rw [AList.lookup_insert, if_pos rfl, tally, if_neg (by omega)]
    rfl
  · rw [AList.lookup_insert_ne he, h, if_neg (Ne.symm he)]
    rfl

/-- Counting one less under a key that has an entry. -/
theorem tally_pred (h : ∀ e, counts.lookup e = tally (n e)) {k : γ} (hk : 0 < n k) (e : γ) :
    (if (n k : ℤ) - 1 = 0 then counts.erase k
      else counts.insert k ((n k : ℤ) - 1)).lookup e =
      tally (n e - if k = e then 1 else 0) := by
  by_cases he : e = k
  · subst he
    rw [if_pos rfl]
    split
    · rw [AList.lookup_erase, tally, if_pos (by omega)]
    · rw [AList.lookup_insert, tally, if_neg (by omega)]
      congr 1
      omega
  · rw [if_neg (Ne.symm he)]
    split
    · rw [AList.lookup_erase_ne he, h]
      rfl
    · rw [AList.lookup_insert_ne he, h]
      rfl

variable {m : AList fun _ : α => β}

theorem tally_insert (h : ∀ e, counts.lookup e = tally (groupSize g m e)) {k : α} (b : β)
    (hk : k ∉ m) (e : γ) :
    (counts.insert (g k) ((counts.lookup (g k)).getD 0 + 1)).lookup e =
      tally (groupSize g (m.insert k b) e) := by
  rw [groupSize_insert b hk, h (g k), tally_getD, tally_succ h]

theorem tally_erase (h : ∀ e, counts.lookup e = tally (groupSize g m e)) {k : α} (hk : k ∈ m)
    (e : γ) :
    (if (counts.lookup (g k)).getD 0 - 1 ≤ 0 then counts.erase (g k)
      else counts.insert (g k) ((counts.lookup (g k)).getD 0 - 1)).lookup e =
      tally (groupSize g (m.erase k) e) := by
  have hone := groupSize_erase (g := g) hk (g k)
  rw [if_pos rfl] at hone
  have hiff : ((groupSize g m (g k) : ℤ) - 1 ≤ 0) = ((groupSize g m (g k) : ℤ) - 1 = 0) := by
    apply propext
    omega
  rw [h (g k), tally_getD]
  simp only [hiff]
  rw [tally_pred h (by omega), groupSize_erase (g := g) hk e]
  congr 1
  omega

end

/-- Replacing one bucket changes a sum over buckets by that bucket's change. -/
theorem sum_update {n : ℕ} {γ : Type} (f : Fin n → γ) (i : Fin n) (x : γ) (g : γ → ℤ) :
    ∑ j, g (Function.update f i x j) = ∑ j, g (f j) - g (f i) + g x := by
  have hfun : (fun j => g (Function.update f i x j)) =
      Function.update (fun j => g (f j)) i (g x) := by
    funext j
    by_cases hj : j = i
    · subst hj
      simp
    · simp [hj]
  rw [hfun, Finset.sum_update_of_mem (Finset.mem_univ i),
    ← Finset.add_sum_erase _ _ (Finset.mem_univ i), Finset.sdiff_singleton_eq_erase]
  omega

end SakhtarWg.FiniteMap
