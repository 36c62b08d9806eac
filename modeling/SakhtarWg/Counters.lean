import Mathlib.Algebra.BigOperators.Group.List.Basic
import Mathlib.Algebra.Order.BigOperators.Group.List
import Mathlib.Tactic.Ring
import SakhtarWg.FiniteMap

/-!
# Counters by key

Maps from keys to amounts that are only added to. Sums over the keys with a property are what is
conserved: adding under a key, regrouping keys, and folding new keys into a reserve once the map
is full. The amounts are those of any commutative monoid, so that a count and a total duration
can go together.
-/

namespace SakhtarWg.Counters
open FiniteMap

variable {κ M : Type} [DecidableEq κ] [AddCommMonoid M]

/-- The amount under a key, zero when there is none. -/
def valueAt (m : AList fun _ : κ => M) (k : κ) : M := (m.lookup k).getD 0

def add (m : AList fun _ : κ => M) (k : κ) (x : M) : AList fun _ : κ => M :=
  m.insert k (valueAt m k + x)

/-- The sum of the amounts under the keys with the property. -/
def sumOver (q : κ → Bool) (m : AList fun _ : κ => M) : M :=
  ((m.entries.filter fun e => q e.1).map (·.2)).sum

omit [DecidableEq κ] in
@[simp] theorem sumOver_empty (q : κ → Bool) : sumOver q (∅ : AList fun _ : κ => M) = 0 := rfl

@[simp] theorem valueAt_empty (k : κ) : valueAt (∅ : AList fun _ : κ => M) k = 0 := rfl

section
variable (m : AList fun _ : κ => M) (k : κ) (x : M)

theorem valueAt_add (j : κ) : valueAt (add m k x) j = valueAt m j + if j = k then x else 0 := by
  unfold add
  by_cases hj : j = k
  · subst hj
    rw [valueAt, AList.lookup_insert, if_pos rfl, Option.getD_some]
  · rw [valueAt, AList.lookup_insert_ne hj, if_neg hj, add_zero]
    rfl

@[simp] theorem mem_add (j : κ) : j ∈ add m k x ↔ j = k ∨ j ∈ m := AList.mem_insert m

/-- What the entry of a key contributes to a sum. -/
theorem sumOver_erase (q : κ → Bool) :
    sumOver q m = (if q k then valueAt m k else 0) + sumOver q (m.erase k) := by
  cases h : m.lookup k with
  | none =>
    have hsame : m.erase k = m :=
      AList.ext (List.kerase_of_notMem_keys (AList.lookup_eq_none.mp h))
    rw [hsame, valueAt, h, Option.getD_none, ite_self, zero_add]
  | some b =>
    have hperm := (entries_perm_erase h).filter fun e => q e.1
    rw [sumOver, (hperm.map (·.2)).sum_eq, valueAt, h, Option.getD_some, List.filter_cons]
    cases q k with
    | false => simp [sumOver]
    | true => simp [sumOver]

omit [AddCommMonoid M] in
theorem erase_insert : (m.insert k x).erase k = m.erase k := by
  apply AList.ext
  change (⟨k, x⟩ :: m.entries.kerase k).kerase k = m.entries.kerase k
  exact List.kerase_cons_eq rfl

/-- Adding under a key adds to the sums that count the key. -/
theorem sumOver_add (q : κ → Bool) :
    sumOver q (add m k x) = sumOver q m + if q k then x else 0 := by
  have herase : (add m k x).erase k = m.erase k := erase_insert m k _
  rw [sumOver_erase _ k, sumOver_erase m k, herase, valueAt_add, if_pos rfl]
  cases q k with
  | false => simp
  | true =>
    simp only [if_true]
    exact add_right_comm _ _ _

/-- One counter is a sum over one key. -/
theorem sumOver_eq_valueAt : sumOver (fun j => decide (j = k)) m = valueAt m k := by
  have hrest : sumOver (fun j => decide (j = k)) (m.erase k) = 0 := by
    rw [sumOver, List.filter_eq_nil_iff.mpr]
    · rfl
    · intro e he
      have hkey : e.1 ∈ m.erase k := List.mem_keys_of_mem he
      simpa using (AList.mem_erase.mp hkey).1
  rw [sumOver_erase m k, hrest, add_zero]
  simp

/-- The amounts read off key by key. -/
theorem sum_valueAt_keys (q : κ → Bool) :
    ((m.keys.filter q).map (valueAt m)).sum = sumOver q m := by
  have hkeys : m.keys.filter q = (m.entries.filter fun e => q e.1).map Sigma.fst := by
    rw [AList.keys, List.keys, List.filter_map]
    rfl
  rw [hkeys, List.map_map, sumOver]
  congr 1
  apply List.map_congr_left
  intro e he
  have hlookup : m.lookup e.1 = some e.2 :=
    (List.mem_dlookup_iff m.nodupKeys).mpr (List.mem_of_mem_filter he)
  rw [Function.comp_apply, valueAt, hlookup, Option.getD_some]

end

/-! ## Regrouping -/

section
variable {ι : Type} (f : ι → κ) (g : ι → M)

/-- Each item of a list added under its key, in a map that starts with `m`. -/
def gather (m : AList fun _ : κ => M) (l : List ι) : AList fun _ : κ => M :=
  l.foldl (fun m i => add m (f i) (g i)) m

theorem sumOver_gather (q : κ → Bool) (m : AList fun _ : κ => M) (l : List ι) :
    sumOver q (gather f g m l) = sumOver q m + ((l.filter fun i => q (f i)).map g).sum := by
  induction l generalizing m with
  | nil => simp [gather]
  | cons i l ih =>
    change sumOver q (gather f g (add m (f i) (g i)) l) = _
    rw [ih, sumOver_add, List.filter_cons, add_assoc]
    cases q (f i) with
    | false => simp
    | true => simp

theorem mem_gather (m : AList fun _ : κ => M) (l : List ι) (k : κ) :
    k ∈ gather f g m l ↔ k ∈ m ∨ ∃ i ∈ l, f i = k := by
  induction l generalizing m with
  | nil => simp [gather]
  | cons i l ih =>
    change k ∈ gather f g (add m (f i) (g i)) l ↔ _
    rw [ih, mem_add]
    simp only [List.mem_cons, exists_eq_or_imp]
    constructor
    · rintro ((rfl | h) | h)
      · exact .inr (.inl rfl)
      · exact .inl h
      · exact .inr (.inr h)
    · rintro (h | rfl | h)
      · exact .inl (.inr h)
      · exact .inl (.inl rfl)
      · exact .inr h

end

/-! ## Assigning and mapping -/

section
variable {m : AList fun _ : κ => M}

/-- Each pair of a list assigned in turn. -/
def putAll (m : AList fun _ : κ => M) (l : List (κ × M)) : AList fun _ : κ => M :=
  l.foldl (fun m e => m.insert e.1 e.2) m

omit [AddCommMonoid M] in
theorem mem_putAll (l : List (κ × M)) (k : κ) :
    k ∈ putAll m l ↔ k ∈ m ∨ ∃ e ∈ l, e.1 = k := by
  induction l generalizing m with
  | nil => simp [putAll]
  | cons e l ih =>
    change k ∈ putAll (m.insert e.1 e.2) l ↔ _
    rw [ih, AList.mem_insert]
    simp only [List.mem_cons, exists_eq_or_imp]
    rw [or_comm (a := k = e.1), or_assoc, eq_comm]

theorem sumOver_insert_of_notMem {k : κ} (h : k ∉ m) (x : M) (q : κ → Bool) :
    sumOver q (m.insert k x) = sumOver q m + if q k then x else 0 := by
  have hadd : m.insert k x = add m k x := by
    rw [add, valueAt, AList.lookup_eq_none.mpr h, Option.getD_none, zero_add]
  rw [hadd, sumOver_add]

theorem sumOver_insert_of_neg {k : κ} {q : κ → Bool} (h : q k = false)
    (m : AList fun _ : κ => M) (x : M) : sumOver q (m.insert k x) = sumOver q m := by
  rw [sumOver_erase _ k, sumOver_erase m k, erase_insert, h]
  rfl

/-- Where the keys with a property are assigned only once, nothing is overwritten. -/
theorem sumOver_putAll {q : κ → Bool} {l : List (κ × M)}
    (honce : ((l.filter fun e => q e.1).map Prod.fst).Nodup)
    (hnew : ∀ e ∈ l, q e.1 = true → e.1 ∉ m) :
    sumOver q (putAll m l) = sumOver q m + ((l.filter fun e => q e.1).map Prod.snd).sum := by
  induction l generalizing m with
  | nil => simp [putAll]
  | cons e l ih =>
    change sumOver q (putAll (m.insert e.1 e.2) l) = _
    cases hq : q e.1 with
    | false =>
      rw [List.filter_cons_of_neg (by simp [hq])] at honce ⊢
      rw [ih honce, sumOver_insert_of_neg hq]
      intro e' he' hq'
      rw [AList.mem_insert]
      rintro (heq | hmem)
      · rw [heq, hq] at hq'
        cases hq'
      · exact hnew e' (List.mem_cons_of_mem e he') hq' hmem
    | true =>
      rw [List.filter_cons_of_pos (by exact hq)] at honce ⊢
      obtain ⟨hfirst, hrest⟩ := List.nodup_cons.mp honce
      rw [ih hrest, sumOver_insert_of_notMem (hnew e (by simp) hq), hq, if_pos rfl,
        List.map_cons, List.sum_cons, add_assoc]
      intro e' he' hq'
      rw [AList.mem_insert]
      rintro (heq | hmem)
      · refine hfirst (heq ▸ List.mem_map_of_mem (List.mem_filter.mpr ⟨he', hq'⟩))
      · exact hnew e' (List.mem_cons_of_mem e he') hq' hmem

omit [AddCommMonoid M] in
theorem lookup_putAll_of_ne {k : κ} {l : List (κ × M)} (h : ∀ e ∈ l, e.1 ≠ k) :
    (putAll m l).lookup k = m.lookup k := by
  induction l generalizing m with
  | nil => rfl
  | cons e l ih =>
    change (putAll (m.insert e.1 e.2) l).lookup k = _
    rw [ih fun e' he' => h e' (List.mem_cons_of_mem e he'),
      AList.lookup_insert_ne (Ne.symm (h e (by simp)))]

/-- Such a key has the value it was assigned. -/
theorem valueAt_putAll {q : κ → Bool} {l : List (κ × M)}
    (honce : ((l.filter fun e => q e.1).map Prod.fst).Nodup) {e : κ × M} (he : e ∈ l)
    (hq : q e.1 = true) : valueAt (putAll ∅ l) e.1 = e.2 := by
  obtain ⟨before, later, rfl⟩ := List.append_of_mem he
  have hlater : ∀ e' ∈ later, e'.1 ≠ e.1 := by
    intro e' he' heq
    rw [List.filter_append, List.filter_cons_of_pos (by exact hq), List.map_append,
      List.map_cons] at honce
    refine (List.nodup_cons.mp honce.of_append_right).1 (heq ▸ List.mem_map_of_mem ?_)
    exact List.mem_filter.mpr ⟨he', heq ▸ hq⟩
  have hsplit : putAll (∅ : AList fun _ : κ => M) (before ++ e :: later) =
      putAll ((putAll ∅ before).insert e.1 e.2) later := by
    unfold putAll
    rw [List.foldl_append, List.foldl_cons]
  rw [valueAt, hsplit, lookup_putAll_of_ne hlater, AList.lookup_insert, Option.getD_some]

/-- A function of key and value applied to all entries. -/
def mapValues {N : Type} (g : κ → M → N) (m : AList fun _ : κ => M) : AList fun _ : κ => N where
  entries := m.entries.map fun e => ⟨e.1, g e.1 e.2⟩
  nodupKeys := by
    have hkeys : (m.entries.map fun e => (⟨e.1, g e.1 e.2⟩ : Sigma fun _ : κ => N)).keys =
        m.entries.keys := by
      simp [List.keys, Function.comp_def]
    rw [List.NodupKeys, hkeys]
    exact m.nodupKeys

omit [DecidableEq κ] [AddCommMonoid M] in
theorem mem_mapValues {N : Type} (g : κ → M → N) (m : AList fun _ : κ => M) (k : κ) :
    k ∈ mapValues g m ↔ k ∈ m := by
  have hkeys : (mapValues g m).keys = m.keys := by
    simp [mapValues, AList.keys, List.keys, Function.comp_def]
  rw [AList.mem_keys, hkeys, ← AList.mem_keys]

omit [DecidableEq κ] in
theorem sumOver_split (q r : κ → Bool) (m : AList fun _ : κ => M) :
    sumOver q m = sumOver (fun k => q k && r k) m + sumOver (fun k => q k && !r k) m := by
  unfold sumOver
  induction m.entries with
  | nil => simp
  | cons e l ih =>
    simp only [List.filter_cons]
    cases q e.1 with
    | false => simpa using ih
    | true =>
      cases r e.1 with
      | false =>
        simp only [Bool.true_and, Bool.not_false, if_true, Bool.false_eq_true, if_false,
          List.map_cons, List.sum_cons] at ih ⊢
        rw [ih]
        exact add_left_comm _ _ _
      | true =>
        simp only [Bool.true_and, Bool.not_true, if_true, Bool.false_eq_true, if_false,
          List.map_cons, List.sum_cons] at ih ⊢
        rw [ih, add_assoc]

omit [DecidableEq κ] in
theorem sumOver_eq_zero {q : κ → Bool} (h : ∀ k ∈ m, q k = false) : sumOver q m = 0 := by
  have hnil : (m.entries.filter fun e => q e.1) = [] :=
    List.filter_eq_nil_iff.mpr fun e he => by simp [h e.1 (List.mem_keys_of_mem he)]
  rw [sumOver, hnil]
  rfl

/-- The amounts under different keys add up to a sum over these keys. -/
theorem sum_valueAt {keys : List κ} (h : keys.Nodup) :
    (keys.map (valueAt m)).sum = sumOver (fun k => decide (k ∈ keys)) m := by
  induction keys with
  | nil =>
    rw [sumOver_eq_zero fun k _ => by simp]
    rfl
  | cons k keys ih =>
    obtain ⟨hk, hrest⟩ := List.nodup_cons.mp h
    have hone : (fun j => decide (j ∈ k :: keys) && decide (j = k)) = fun j => decide (j = k) := by
      funext j
      by_cases hj : j = k
      · simp [hj]
      · simp [hj]
    have hother : (fun j => decide (j ∈ k :: keys) && !decide (j = k)) =
        fun j => decide (j ∈ keys) := by
      funext j
      by_cases hj : j = k
      · simp [hj, hk]
      · simp [hj]
    rw [List.map_cons, List.sum_cons, ih hrest,
      sumOver_split (fun j => decide (j ∈ k :: keys)) (fun j => decide (j = k)), hone, hother,
      sumOver_eq_valueAt]

end

/-- Summed differences: keys of the earlier map that are gone later are not subtracted. -/
theorem sumOver_delta (q : κ → Bool) (before after : AList fun _ : κ => ℤ) :
    sumOver q (mapValues (fun k v => v - valueAt before k) after) =
      sumOver q after - sumOver (fun k => q k && decide (k ∈ after)) before := by
  -- each key of the later map is looked up once in the earlier one
  have hgone : (((after.entries.filter fun e => q e.1).map fun e => valueAt before e.1)).sum =
      sumOver (fun k => q k && decide (k ∈ after)) before := by
    have hkeys : ((after.entries.filter fun e => q e.1).map fun e => valueAt before e.1) =
        (after.keys.filter q).map (valueAt before) := by
      rw [AList.keys, List.keys, List.filter_map, List.map_map]
      rfl
    have hmem : (fun k => decide (k ∈ after.keys.filter q)) =
        fun k => q k && decide (k ∈ after) := by
      funext k
      cases hq : q k <;> simp [hq, AList.mem_keys]
    rw [hkeys, sum_valueAt ((AList.keys_nodup after).filter q), hmem]
  rw [← hgone]
  simp only [sumOver, mapValues, List.filter_map, List.map_map]
  induction after.entries with
  | nil => rfl
  | cons e l ih =>
    cases hq : q e.1 with
    | false => simpa [List.filter_cons, hq] using ih
    | true =>
      simp only [List.filter_cons, Function.comp_apply, hq, if_true, List.map_cons,
        List.sum_cons] at ih ⊢
      rw [ih]
      ring

/-- Amounts that are not negative add up to zero only when all are zero. -/
theorem sumOver_eq_zero_iff {q : κ → Bool} {m : AList fun _ : κ => M} (φ : M →+ ℤ)
    (h : ∀ k ∈ m, q k = true → 0 ≤ φ (valueAt m k)) :
    φ (sumOver q m) = 0 ↔ ∀ k ∈ m, q k = true → φ (valueAt m k) = 0 := by
  have hnonneg : ∀ x ∈ (m.keys.filter q).map fun k => φ (valueAt m k), 0 ≤ x := by
    intro x hx
    obtain ⟨k, hk, rfl⟩ := List.mem_map.mp hx
    obtain ⟨hmem, hq⟩ := List.mem_filter.mp hk
    exact h k hmem hq
  have hsum : φ (sumOver q m) = ((m.keys.filter q).map fun k => φ (valueAt m k)).sum := by
    rw [← sum_valueAt_keys, map_list_sum, List.map_map]
    rfl
  rw [hsum]
  constructor
  · intro hzero k hk hq
    have hle := List.single_le_sum hnonneg (φ (valueAt m k))
      (List.mem_map_of_mem (List.mem_filter.mpr ⟨hk, hq⟩))
    have hpos := h k hk hq
    omega
  · intro hall
    refine List.sum_eq_zero fun x hx => ?_
    obtain ⟨k, hk, rfl⟩ := List.mem_map.mp hx
    obtain ⟨hmem, hq⟩ := List.mem_filter.mp hk
    exact hall k hmem hq

/-! ## A capped map -/

/-- An amount to be booked under its own key, or under a reserve key when its own is new and the
map is full. -/
structure Booking (κ M : Type) where
  own : κ
  reserve : κ
  amount : M

/-- The key an amount is booked under. -/
def place (cap : ℕ) (m : AList fun _ : κ => M) (b : Booking κ M) : κ :=
  if b.own ∉ m ∧ cap ≤ m.keys.length then b.reserve else b.own

def book (cap : ℕ) (m : AList fun _ : κ => M) (b : Booking κ M) : AList fun _ : κ => M :=
  add m (place cap m b) b.amount

section
variable {γ : Type} {cap : ℕ} {f : γ → Booking κ M} {m : AList fun _ : κ => M}

/-- A history of calls, each booked as `f` says. -/
def bookAll (cap : ℕ) (f : γ → Booking κ M) (m : AList fun _ : κ => M) (calls : List γ) :
    AList fun _ : κ => M :=
  calls.foldl (fun m call => book cap m (f call)) m

@[simp] theorem bookAll_nil : bookAll cap f m [] = m := rfl

@[simp] theorem bookAll_cons (call : γ) (calls : List γ) :
    bookAll cap f m (call :: calls) = bookAll cap f (book cap m (f call)) calls := rfl

theorem bookAll_append (calls later : List γ) :
    bookAll cap f m (calls ++ later) = bookAll cap f (bookAll cap f m calls) later :=
  List.foldl_append

omit [AddCommMonoid M] in
theorem place_of_mem {b : Booking κ M} (h : b.own ∈ m) : place cap m b = b.own :=
  if_neg fun hc => hc.1 h

omit [AddCommMonoid M] in
theorem place_eq (cap : ℕ) (m : AList fun _ : κ => M) (b : Booking κ M) :
    place cap m b = b.own ∨ place cap m b = b.reserve := by
  unfold place
  split
  · exact .inr rfl
  · exact .inl rfl

theorem mem_bookAll {k : κ} (h : k ∈ m) (calls : List γ) : k ∈ bookAll cap f m calls := by
  induction calls generalizing m with
  | nil => exact h
  | cons call calls ih => exact ih ((mem_add m _ _ k).mpr (.inr h))

/-- What the calls with the property add up to. -/
def amounts (f : γ → Booking κ M) (r : γ → Bool) (calls : List γ) : M :=
  ((calls.filter r).map fun call => (f call).amount).sum

omit [DecidableEq κ] in
theorem amounts_cons (r : γ → Bool) (call : γ) (calls : List γ) :
    amounts f r (call :: calls) = (if r call then (f call).amount else 0) + amounts f r calls := by
  unfold amounts
  rw [List.filter_cons]
  cases r call with
  | false => simp
  | true => simp

/-- A property that does not tell the own key from the reserve is conserved. -/
theorem sumOver_bookAll {q : κ → Bool} {r : γ → Bool} (hown : ∀ call, q (f call).own = r call)
    (hreserve : ∀ call, q (f call).reserve = r call) (calls : List γ) :
    sumOver q (bookAll cap f m calls) = sumOver q m + amounts f r calls := by
  induction calls generalizing m with
  | nil => exact (add_zero _).symm
  | cons call calls ih =>
    have hplace : q (place cap m (f call)) = r call := by
      obtain heq | heq := place_eq cap m (f call)
      · rw [heq, hown]
      · rw [heq, hreserve]
    rw [bookAll_cons, ih, book, sumOver_add, hplace, amounts_cons, add_assoc]

/-- A key that exists is added to by each call of its own, and by what the reserve takes. -/
theorem valueAt_bookAll_of_mem (cap : ℕ) (f : γ → Booking κ M) {k : κ} (hk : k ∈ m)
    (calls : List γ) :
    ∃ extra, valueAt (bookAll cap f m calls) k =
        valueAt m k + amounts f (fun call => (f call).own = k) calls + extra ∧
      ((∀ call, (f call).reserve ≠ k) → extra = 0) := by
  induction calls generalizing m with
  | nil => exact ⟨0, by simp [amounts], fun _ => rfl⟩
  | cons call calls ih =>
    have hmem : k ∈ book cap m (f call) := (mem_add m _ _ k).mpr (.inr hk)
    obtain ⟨extra, hextra, hzero⟩ := ih hmem
    rw [bookAll_cons, hextra, book, valueAt_add, amounts_cons]
    by_cases hown : (f call).own = k
    · -- its own key exists, so the cap does not matter
      have hplace : place cap m (f call) = k := by
        rw [place_of_mem (hown ▸ hk), hown]
      refine ⟨extra, ?_, hzero⟩
      rw [if_pos hplace.symm, if_pos (by simpa using hown), add_assoc (valueAt m k)]
    · refine ⟨(if k = place cap m (f call) then (f call).amount else 0) + extra, ?_, fun h => ?_⟩
      · rw [if_neg (c := decide ((f call).own = k) = true) (by simpa using hown), zero_add]
        ac_rfl
      · have hplace : k ≠ place cap m (f call) := by
          obtain heq | heq := place_eq cap m (f call)
          · rw [heq]
            exact Ne.symm hown
          · rw [heq]
            exact Ne.symm (h call)
        rw [if_neg hplace, zero_add]
        exact hzero h

/-- A key outside the reserve gets no more than the calls of its own bring. -/
theorem valueAt_bookAll_add (cap : ℕ) (m : AList fun _ : κ => M) {k : κ}
    (h : ∀ call, (f call).reserve ≠ k) (calls : List γ) :
    ∃ lost, valueAt (bookAll cap f m calls) k + lost =
      valueAt m k + amounts f (fun call => (f call).own = k) calls := by
  induction calls generalizing m with
  | nil => exact ⟨0, by simp [amounts]⟩
  | cons call calls ih =>
    obtain ⟨lost, hlost⟩ := ih (book cap m (f call))
    rw [book, valueAt_add] at hlost
    rw [bookAll_cons, amounts_cons]
    by_cases hplace : k = place cap m (f call)
    · have hown : (f call).own = k := by
        obtain heq | heq := place_eq cap m (f call)
        · rw [hplace, heq]
        · exact absurd (hplace.trans heq).symm (h call)
      refine ⟨lost, ?_⟩
      rw [if_pos hplace] at hlost
      rw [book, hlost, if_pos (by simpa using hown), add_assoc]
    · refine ⟨(if (f call).own = k then (f call).amount else 0) + lost, ?_⟩
      rw [if_neg hplace, add_zero] at hlost
      simp only [decide_eq_true_eq]
      rw [add_left_comm, book, hlost, add_left_comm]

/-- Every key is that of some call, or its reserve. -/
theorem exists_of_mem_bookAll {k : κ} {calls : List γ} (h : k ∈ bookAll cap f m calls) :
    k ∈ m ∨ ∃ call ∈ calls, k = (f call).own ∨ k = (f call).reserve := by
  induction calls generalizing m with
  | nil => exact .inl h
  | cons call calls ih =>
    obtain hk | ⟨other, hmem, hk⟩ := ih h
    · obtain rfl | hk := (mem_add m _ _ k).mp hk
      · exact .inr ⟨call, by simp, place_eq cap m (f call)⟩
      · exact .inl hk
    · exact .inr ⟨other, List.mem_cons_of_mem call hmem, hk⟩

/-- When few enough keys occur the cap is never reached. -/
theorem bookAll_of_few {keys : List κ} (hkeys : keys.length ≤ cap) {calls : List γ}
    (h : ∀ call ∈ calls, (f call).own ∈ keys) (hm : ∀ k ∈ m, k ∈ keys) :
    bookAll cap f m calls = gather (fun call => (f call).own) (fun call => (f call).amount) m
      calls := by
  induction calls generalizing m with
  | nil => rfl
  | cons call calls ih =>
    have hplace : place cap m (f call) = (f call).own := by
      refine if_neg fun hfull => ?_
      -- the keys of the map and the new one are different members of `keys`
      have hsub : ((f call).own :: m.keys).Subperm keys :=
        (List.nodup_cons.mpr ⟨hfull.1, AList.keys_nodup m⟩).subperm fun k hk => by
          obtain rfl | hk := List.mem_cons.mp hk
          · exact h call (by simp)
          · exact hm k hk
      have hlength := hsub.length_le
      rw [List.length_cons] at hlength
      omega
    rw [bookAll_cons, book, hplace]
    refine ih (fun other hmem => h other (List.mem_cons_of_mem call hmem)) fun k hk => ?_
    obtain rfl | hk := (mem_add m _ _ k).mp hk
    · exact h call (by simp)
    · exact hm k hk

/-! ### The bound -/

theorem countKeys_add (q : κ → Bool) (m : AList fun _ : κ => M) (k : κ) (x : M) :
    countKeys q (add m k x) = countKeys q m + if k ∉ m ∧ q k = true then 1 else 0 := by
  by_cases hk : k ∈ m
  · have hperm : (add m k x).keys.Perm m.keys := by
      rw [add, AList.keys_insert]
      exact (List.perm_cons_erase (AList.mem_keys.mp hk)).symm
    rw [countKeys, hperm.countP_eq, if_neg (fun h => h.1 hk)]
    rfl
  · rw [add, countKeys_insert q _ hk]
    simp [hk]

/-- Outside the reserve keys the map does not grow beyond its capacity. -/
theorem countKeys_bookAll_le {reserves : κ → Bool}
    (h : ∀ call, reserves (f call).reserve = true)
    (hm : countKeys (fun k => !reserves k) m ≤ cap) (calls : List γ) :
    countKeys (fun k => !reserves k) (bookAll cap f m calls) ≤ cap := by
  induction calls generalizing m with
  | nil => exact hm
  | cons call calls ih =>
    rw [bookAll_cons]
    apply ih
    rw [book, countKeys_add]
    split
    · rename_i hnew
      have hle : countKeys (fun k => !reserves k) m ≤ m.keys.length := List.countP_le_length
      by_cases hfull : (f call).own ∉ m ∧ cap ≤ m.keys.length
      · have hreserve : place cap m (f call) = (f call).reserve := if_pos hfull
        rw [hreserve] at hnew
        simp [h call] at hnew
      · have hplace : place cap m (f call) = (f call).own := if_neg hfull
        rw [hplace] at hnew
        have hroom : ¬cap ≤ m.keys.length := fun hc => hfull ⟨hnew.1, hc⟩
        omega
    · exact hm

theorem length_keys_bookAll_le (reserves : List κ) (h : ∀ call, (f call).reserve ∈ reserves)
    (calls : List γ) : (bookAll cap f ∅ calls).keys.length ≤ cap + reserves.length := by
  have hown : countKeys (fun k => !decide (k ∈ reserves)) (bookAll cap f ∅ calls) ≤ cap :=
    countKeys_bookAll_le (fun call => by simpa using h call) (by simp) calls
  have hreserve : countKeys (fun k => decide (k ∈ reserves)) (bookAll cap f ∅ calls) ≤
      reserves.length := by
    rw [countKeys, List.countP_eq_length_filter]
    refine ((AList.keys_nodup _).filter _).subperm ?_ |>.length_le
    intro k hk
    simpa using (List.mem_filter.mp hk).2
  have hsplit : (bookAll cap f ∅ calls).keys.length =
      countKeys (fun k => decide (k ∈ reserves)) (bookAll cap f ∅ calls) +
        countKeys (fun k => !decide (k ∈ reserves)) (bookAll cap f ∅ calls) := by
    simpa [countKeys] using List.length_eq_countP_add_countP (fun k => decide (k ∈ reserves))
      (l := (bookAll cap f ∅ calls).keys)
  omega

end

end SakhtarWg.Counters
