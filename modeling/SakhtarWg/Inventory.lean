import Mathlib.Data.List.Nodup

/-!
# Records with two keys

A collection whose records are known by a positive index and by a name, both unique.
Lookups go by name, updates by index.
-/

namespace SakhtarWg

/-- Where the keys are unique, looking a key up finds the element that has it. -/
theorem find?_key {α γ : Type} [DecidableEq γ] (key : α → γ) {l : List α}
    (hl : (l.map key).Nodup) {k : γ} {a : α} :
    l.find? (fun a => key a = k) = some a ↔ a ∈ l ∧ key a = k := by
  constructor
  · intro h
    exact ⟨List.mem_of_find?_eq_some h, by simpa using List.find?_some h⟩
  · rintro ⟨ha, rfl⟩
    cases hfind : l.find? (fun b => key b = key a) with
    | none => simpa using List.find?_eq_none.mp hfind a ha
    | some b =>
      have hkey : key b = key a := by simpa using List.find?_some hfind
      rw [List.inj_on_of_nodup_map hl (List.mem_of_find?_eq_some hfind) ha hkey]

structure Item (β : Type) where
  index : ℕ
  name : String
  attrs : β
  deriving DecidableEq

structure Inventory (β : Type) where
  items : List (Item β)
  names : (items.map Item.name).Nodup
  indices : (items.map Item.index).Nodup
  positive : ∀ i ∈ items, i.index ≠ 0

namespace Inventory

variable {β : Type}

def find (inv : Inventory β) (name : String) : Option (Item β) :=
  inv.items.find? fun i => i.name = name

def byIndex (inv : Inventory β) (index : ℕ) : Option (Item β) :=
  inv.items.find? fun i => i.index = index

/-! ## Lookups -/

theorem find_eq_some {inv : Inventory β} {name : String} {i : Item β} :
    inv.find name = some i ↔ i ∈ inv.items ∧ i.name = name := find?_key Item.name inv.names

theorem find_name {inv : Inventory β} {name : String} {i : Item β}
    (h : inv.find name = some i) : i.name = name := (find_eq_some.mp h).2

theorem find_eq_none {inv : Inventory β} {name : String} :
    inv.find name = none ↔ ∀ i ∈ inv.items, i.name ≠ name := by
  simp [find]

theorem byIndex_eq_some {inv : Inventory β} {index : ℕ} {i : Item β} :
    inv.byIndex index = some i ↔ i ∈ inv.items ∧ i.index = index :=
  find?_key Item.index inv.indices

theorem byIndex_of_find {inv : Inventory β} {name : String} {i : Item β}
    (h : inv.find name = some i) : inv.byIndex i.index = some i :=
  byIndex_eq_some.mpr ⟨(find_eq_some.mp h).1, rfl⟩

theorem eq_of_index {inv : Inventory β} {n m : String} {i j : Item β}
    (hi : inv.find n = some i) (hj : inv.find m = some j) (h : i.index = j.index) : i = j := by
  have := byIndex_of_find hi
  rw [h, byIndex_of_find hj] at this
  exact (Option.some.inj this).symm

/-- Records under different names have different indices. -/
theorem index_ne {inv : Inventory β} {n m : String} {i j : Item β} (hi : inv.find n = some i)
    (hj : inv.find m = some j) (h : n ≠ m) : i.index ≠ j.index := by
  intro he
  apply h
  rw [← find_name hi, ← find_name hj, eq_of_index hi hj he]

/-! ## Updates -/

/-- The record after its attributes are changed, if it is the one meant. -/
def updateAt (index : ℕ) (f : β → β) (i : Item β) : Item β :=
  if i.index = index then { i with attrs := f i.attrs } else i

@[simp] theorem updateAt_name (index : ℕ) (f : β → β) (i : Item β) :
    (updateAt index f i).name = i.name := by
  unfold updateAt
  split <;> rfl

@[simp] theorem updateAt_index (index : ℕ) (f : β → β) (i : Item β) :
    (updateAt index f i).index = i.index := by
  unfold updateAt
  split <;> rfl

theorem map_name_updateAt (index : ℕ) (f : β → β) (l : List (Item β)) :
    (l.map (updateAt index f)).map Item.name = l.map Item.name := by
  simp [Function.comp_def]

theorem map_index_updateAt (index : ℕ) (f : β → β) (l : List (Item β)) :
    (l.map (updateAt index f)).map Item.index = l.map Item.index := by
  simp [Function.comp_def]

theorem updateAt_positive {inv : Inventory β} {index : ℕ} {f : β → β} :
    ∀ i ∈ inv.items.map (updateAt index f), i.index ≠ 0 := by
  intro i hi
  obtain ⟨j, hj, rfl⟩ := List.mem_map.mp hi
  rw [updateAt_index]
  exact inv.positive j hj

def modify (inv : Inventory β) (index : ℕ) (f : β → β) : Inventory β where
  items := inv.items.map (updateAt index f)
  names := (map_name_updateAt index f inv.items).symm ▸ inv.names
  indices := (map_index_updateAt index f inv.items).symm ▸ inv.indices
  positive := updateAt_positive

/-- One more than every index in use. -/
def fresh (inv : Inventory β) : ℕ := inv.items.foldr (fun i n => max (i.index + 1) n) 1

theorem lt_foldr_max {l : List (Item β)} {i : Item β} (h : i ∈ l) :
    i.index < l.foldr (fun i n => max (i.index + 1) n) 1 := by
  induction l with
  | nil => cases h
  | cons j l ih =>
    simp only [List.foldr_cons]
    rcases List.mem_cons.mp h with rfl | h
    · omega
    · have := ih h
      omega

theorem ne_fresh {inv : Inventory β} : ∀ i ∈ inv.items, i.index ≠ inv.fresh := by
  intro i hi
  exact Nat.ne_of_lt (lt_foldr_max hi)

theorem nodup_map_append {γ : Type} {l : List (Item β)} (key : Item β → γ) {i : Item β}
    (h : (l.map key).Nodup) (hi : ∀ j ∈ l, key j ≠ key i) : ((l ++ [i]).map key).Nodup := by
  rw [List.map_append, List.nodup_append]
  refine ⟨h, by simp, ?_⟩
  intro a ha b hb
  obtain ⟨j, hj, rfl⟩ := List.mem_map.mp ha
  rw [List.mem_singleton.mp hb]
  exact hi j hj

theorem fresh_positive (inv : Inventory β) : inv.fresh ≠ 0 := by
  have h : ∀ l : List (Item β), l.foldr (fun i n => max (i.index + 1) n) 1 ≠ 0 := by
    intro l
    cases l with
    | nil => exact Nat.one_ne_zero
    | cons i l =>
      simp only [List.foldr_cons]
      omega
  exact h inv.items

theorem append_positive {inv : Inventory β} {i : Item β} (h : i.index ≠ 0) :
    ∀ j ∈ inv.items ++ [i], j.index ≠ 0 := by
  intro j hj
  rcases List.mem_append.mp hj with hj | hj
  · exact inv.positive j hj
  · rw [List.mem_singleton.mp hj]
    exact h

/-- Add a record under a new name; an existing name is left alone. -/
def insert (inv : Inventory β) (name : String) (attrs : β) : Inventory β :=
  if h : inv.find name = none then
    { items := inv.items ++ [⟨inv.fresh, name, attrs⟩]
      names := nodup_map_append Item.name inv.names (find_eq_none.mp h)
      indices := nodup_map_append Item.index inv.indices ne_fresh
      positive := append_positive inv.fresh_positive }
  else inv

def remove (inv : Inventory β) (index : ℕ) : Inventory β where
  items := inv.items.filter fun i => i.index ≠ index
  names := inv.names.sublist (List.filter_sublist.map _)
  indices := inv.indices.sublist (List.filter_sublist.map _)
  positive := fun i hi => inv.positive i (List.mem_of_mem_filter hi)

/-! ## Lookups after updates -/

theorem find_modify (inv : Inventory β) (index : ℕ) (f : β → β) (m : String) :
    (inv.modify index f).find m = (inv.find m).map (updateAt index f) := by
  rw [find, find, modify, List.find?_map]
  congr 2
  funext i
  simp

theorem find_modify_self {inv : Inventory β} {n : String} {i : Item β} (f : β → β)
    (h : inv.find n = some i) :
    (inv.modify i.index f).find n = some { i with attrs := f i.attrs } := by
  rw [find_modify, h]
  simp [updateAt]

theorem find_modify_ne {inv : Inventory β} {n m : String} {i : Item β} (f : β → β)
    (h : inv.find n = some i) (hne : m ≠ n) : (inv.modify i.index f).find m = inv.find m := by
  rw [find_modify]
  cases hm : inv.find m with
  | none => rfl
  | some j =>
    have := index_ne hm h hne
    simp [updateAt, this]

/-! ## Replacing the attributes of a record -/

theorem ext_items {a b : Inventory β} (h : a.items = b.items) : a = b := by
  cases a
  cases b
  cases h
  rfl

/-- The record under an index with other attributes. -/
def put (inv : Inventory β) (index : ℕ) (attrs : β) : Inventory β := inv.modify index fun _ => attrs

section
variable {inv : Inventory β} {n m : String} {i : Item β} (h : inv.find n = some i)
include h

theorem eq_of_mem_index {j : Item β} (hj : j ∈ inv.items) (hindex : j.index = i.index) : j = i :=
  List.inj_on_of_nodup_map inv.indices hj (find_eq_some.mp h).1 hindex

theorem modify_eq_put (f : β → β) : inv.modify i.index f = inv.put i.index (f i.attrs) := by
  apply ext_items
  apply List.map_congr_left
  intro j hj
  unfold updateAt
  split
  · rename_i hindex
    rw [eq_of_mem_index h hj hindex]
  · rfl

theorem put_self : inv.put i.index i.attrs = inv := by
  apply ext_items
  have hid : ∀ j ∈ inv.items, updateAt i.index (fun _ => i.attrs) j = j := by
    intro j hj
    unfold updateAt
    split
    · rename_i hindex
      rw [eq_of_mem_index h hj hindex]
    · rfl
  exact (List.map_congr_left hid).trans (List.map_id _)

theorem find_put_self (b : β) : (inv.put i.index b).find n = some ⟨i.index, i.name, b⟩ :=
  find_modify_self _ h

theorem find_put_ne (b : β) (hne : m ≠ n) : (inv.put i.index b).find m = inv.find m :=
  find_modify_ne _ h hne

/-- What is collected from the records is what the one record gives, if the others give
nothing. -/
theorem flatMap_only {γ : Type} {f : Item β → List γ}
    (hnil : ∀ j ∈ inv.items, j.index ≠ i.index → f j = []) : inv.items.flatMap f = f i := by
  obtain ⟨before, after, hitems⟩ := List.append_of_mem (find_eq_some.mp h).1
  have hidx := inv.indices
  rw [hitems, List.map_append, List.map_cons, List.nodup_append, List.nodup_cons] at hidx
  have hbefore : before.flatMap f = [] := by
    apply List.flatMap_eq_nil_iff.mpr
    intro j hj
    exact hnil j (by simp [hitems, hj])
      (hidx.2.2 _ (List.mem_map_of_mem hj) _ (List.mem_cons_self ..))
  have hafter : after.flatMap f = [] := by
    apply List.flatMap_eq_nil_iff.mpr
    intro j hj
    apply hnil j (by simp [hitems, hj])
    intro he
    exact hidx.2.1.1 (he ▸ List.mem_map_of_mem hj)
  rw [hitems, List.flatMap_append, List.flatMap_cons, hbefore, hafter, List.nil_append,
    List.append_nil]

end

@[simp] theorem put_put (inv : Inventory β) (k : ℕ) (a b : β) :
    (inv.put k a).put k b = inv.put k b := by
  apply ext_items
  simp only [put, modify, List.map_map]
  apply List.map_congr_left
  intro j _
  by_cases hj : j.index = k
  · simp [updateAt, hj]
  · simp [updateAt, hj]

end Inventory

end SakhtarWg
