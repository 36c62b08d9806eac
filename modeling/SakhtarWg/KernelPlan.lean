import SakhtarWg.Text
import SakhtarWg.Fallible

/-!
# Reserved kernel identifiers

The allocation check shared by the reconciler and its dry run. Routing selectors
are a mark under a mask; two selectors alias when some packet mark satisfies both.
-/

namespace SakhtarWg.Kernel
open Text Fallible

def routeProtocol : ℕ := 186

def rulePriorityMin : ℤ := 31000
def rulePriorityMax : ℤ := 31999

def fullMarkMask : BitVec 32 := ~~~0#32

/-! ## Selectors -/

/-- Two selectors that agree on their common bits are met by the union of their marks. -/
theorem exists_selected_iff {w : ℕ} {m k m' k' : BitVec w} (h : m &&& k = m) (h' : m' &&& k' = m') :
    (∃ p, p &&& k = m ∧ p &&& k' = m') ↔ m &&& (k &&& k') = m' &&& (k &&& k') := by
  constructor
  · rintro ⟨p, rfl, rfl⟩
    ext i
    simp only [BitVec.getElem_and]
    cases p[i] <;> cases k[i] <;> cases k'[i] <;> rfl
  · intro hcommon
    have hbits (i : ℕ) (hi : i < w) : (m[i] && k[i]) = m[i] ∧ (m'[i] && k'[i]) = m'[i] ∧
        (m[i] && (k[i] && k'[i])) = (m'[i] && (k[i] && k'[i])) := by
      simp only [← BitVec.getElem_and, h, h', hcommon, and_self]
    refine ⟨m ||| m', ?_, ?_⟩
    all_goals
      ext i hi
      have := hbits i hi
      simp only [BitVec.getElem_and, BitVec.getElem_or]
      revert this
      cases m[i] <;> cases m'[i] <;> cases k[i] <;> cases k'[i] <;> decide

/-! ## Allocations -/

structure Allocation where
  name : String
  mark : BitVec 32
  mask : BitVec 32
  table : ℤ
  priority : ℤ
  deriving DecidableEq

/-- The packet mark is routed to this tunnel. -/
def Allocation.selects (a : Allocation) (p : BitVec 32) : Bool := p &&& a.mask = a.mark

/-- The checks of one allocation on its own. -/
def Allocation.fields (index : ℕ) (a : Allocation) : Except String Unit := do
  require (a.name ≠ "") ("allocation #" ++ toString index ++ ": name is required")
  require (a.mark ≠ 0) ("tunnel " ++ quote a.name ++ ": fwmark must be non-zero")
  require (a.mask ≠ 0 ∧ a.mark &&& a.mask = a.mark)
    ("tunnel " ++ quote a.name ++ ": fwmark mask " ++ hex a.mask.toNat ++
      " does not select mark " ++ hex a.mark.toNat ++ " exactly")
  require (0 < a.table ∧ a.table ≠ 253 ∧ a.table ≠ 254 ∧ a.table ≠ 255)
    ("tunnel " ++ quote a.name ++ ": route table " ++ toString a.table ++ " is zero or reserved")
  require (rulePriorityMin ≤ a.priority ∧ a.priority ≤ rulePriorityMax)
    ("tunnel " ++ quote a.name ++ ": rule priority " ++ toString a.priority ++
      " is outside reserved range " ++ toString rulePriorityMin ++ "-" ++
      toString rulePriorityMax)

def overlapError (b a : Allocation) : String :=
  "tunnels " ++ quote b.name ++ " and " ++ quote a.name ++ ": fwmark/mask selectors overlap"

/-- The checks of an allocation against an earlier one. -/
def Allocation.against (a b : Allocation) : Except String Unit := do
  require (a.table ≠ b.table) ("tunnel " ++ quote a.name ++ ": route table " ++
    toString a.table ++ " already used by " ++ quote b.name)
  require (a.priority ≠ b.priority) ("tunnel " ++ quote a.name ++ ": rule priority " ++
    toString a.priority ++ " already used by " ++ quote b.name)
  require (a.mark &&& (a.mask &&& b.mask) ≠ b.mark &&& (a.mask &&& b.mask)) (overlapError b a)

def validateAllocation (earlier : List Allocation) (a : Allocation) :
    Except String (List Allocation) := do
  a.fields earlier.length
  earlier.forM a.against
  return earlier ++ [a]

def validateAllocations (allocations : List Allocation) : Except String Unit := do
  let _ ← allocations.foldlM validateAllocation []

/-! ## What an accepted list satisfies -/

structure Allocation.Valid (a : Allocation) : Prop where
  name : a.name ≠ ""
  mark : a.mark ≠ 0
  mask : a.mask ≠ 0
  own : a.mark &&& a.mask = a.mark
  table : 0 < a.table ∧ a.table ≠ 253 ∧ a.table ≠ 254 ∧ a.table ≠ 255
  priority : rulePriorityMin ≤ a.priority ∧ a.priority ≤ rulePriorityMax

theorem Allocation.fields_eq_ok {index : ℕ} {a : Allocation} {u : Unit} :
    a.fields index = .ok u ↔ a.Valid := by
  unfold Allocation.fields
  simp only [bind_eq_ok, require_eq_ok, decide_eq_true_eq, exists_and_left, exists_const]
  constructor
  · rintro ⟨h1, h2, h3, h4, h5⟩
    exact ⟨h1, h2, h3.1, h3.2, h4, h5⟩
  · rintro ⟨h1, h2, h3, h4, h5, h6⟩
    exact ⟨h1, h2, ⟨h3, h4⟩, h5, h6⟩

/-- Some packet mark is selected by both. -/
def Allocation.Overlaps (b a : Allocation) : Prop :=
  ∃ p, b.selects p = true ∧ a.selects p = true

theorem Allocation.overlaps_iff {a b : Allocation} (ha : a.Valid) (hb : b.Valid) :
    b.Overlaps a ↔ a.mark &&& (a.mask &&& b.mask) = b.mark &&& (a.mask &&& b.mask) := by
  rw [← exists_selected_iff ha.own hb.own]
  simp only [Overlaps, selects, decide_eq_true_eq]
  exact exists_congr fun p => and_comm

theorem Allocation.against_eq_ok {a b : Allocation} {u : Unit} (ha : a.Valid) (hb : b.Valid) :
    a.against b = .ok u ↔ a.table ≠ b.table ∧ a.priority ≠ b.priority ∧ ¬b.Overlaps a := by
  unfold Allocation.against
  simp only [bind_eq_ok, require_eq_ok, decide_eq_true_eq, exists_and_left, exists_const,
    Allocation.overlaps_iff ha hb, ne_eq]

theorem Allocation.against_eq_error {a b : Allocation} {e : String} (ha : a.Valid) (hb : b.Valid)
    (ht : a.table ≠ b.table) (hp : a.priority ≠ b.priority) (h : a.against b = .error e) :
    b.Overlaps a ∧ e = overlapError b a := by
  have hov : b.Overlaps a := by
    by_contra hno
    rw [(Allocation.against_eq_ok ha hb (u := ())).mpr ⟨ht, hp, hno⟩] at h
    cases h
  refine ⟨hov, ?_⟩
  have hc := (Allocation.overlaps_iff ha hb).mp hov
  simpa [Allocation.against, require, ht, hp, hc, bind, Except.bind, eq_comm] using h

/-- The two allocations, in list order, use different tables and priorities. -/
def Allocation.Apart (b a : Allocation) : Prop := a.table ≠ b.table ∧ a.priority ≠ b.priority

theorem validateAllocation_eq_ok {earlier later : List Allocation} {a : Allocation}
    (h : validateAllocation earlier a = .ok later) :
    a.Valid ∧ (∀ b ∈ earlier, a.against b = .ok ()) ∧ later = earlier ++ [a] := by
  unfold validateAllocation at h
  simp only [bind_eq_ok, pure_eq_ok, Allocation.fields_eq_ok, forM_eq_ok] at h
  obtain ⟨_, hv, _, hag, rfl⟩ := h
  exact ⟨hv, hag, rfl⟩

theorem validateAllocations_loop {l seen : List Allocation}
    (h : l.foldlM validateAllocation [] = .ok seen) :
    seen = l ∧ (∀ a ∈ l, a.Valid) ∧ l.Pairwise fun b a => b.Apart a ∧ ¬b.Overlaps a := by
  refine foldlM_ok (P := fun done seen => seen = done ∧ (∀ a ∈ done, a.Valid) ∧
    done.Pairwise fun b a => b.Apart a ∧ ¬b.Overlaps a) (by simp) ?_ h
  rintro done a seen later ⟨rfl, hv, hp⟩ hstep
  obtain ⟨ha, hag, rfl⟩ := validateAllocation_eq_ok hstep
  refine ⟨rfl, ?_, ?_⟩
  · intro b hb
    rcases List.mem_append.mp hb with hb | hb
    · exact hv b hb
    · rwa [List.mem_singleton.mp hb]
  · rw [List.pairwise_append]
    refine ⟨hp, List.pairwise_singleton _ _, ?_⟩
    intro b hb c hc
    obtain ⟨h1, h2, h3⟩ := (Allocation.against_eq_ok ha (hv b hb)).mp (hag b hb)
    rw [List.mem_singleton.mp hc]
    exact ⟨⟨h1, h2⟩, h3⟩

theorem validateAllocations_eq_ok {l : List Allocation} (h : validateAllocations l = .ok ()) :
    (∀ a ∈ l, a.Valid) ∧ l.Pairwise fun b a => b.Apart a ∧ ¬b.Overlaps a := by
  unfold validateAllocations at h
  rw [bind_eq_ok] at h
  obtain ⟨seen, hseen, -⟩ := h
  exact (validateAllocations_loop hseen).2

/-- With every other check met, a refusal names an overlapping pair. -/
theorem validateAllocations_eq_error {l : List Allocation} {e : String}
    (hvalid : ∀ a ∈ l, a.Valid) (happ : l.Pairwise Allocation.Apart)
    (h : validateAllocations l = .error e) :
    ∃ b a, [b, a].Sublist l ∧ b.Overlaps a ∧ e = overlapError b a := by
  have hloop : l.foldlM validateAllocation [] = .error e := by
    rcases bind_eq_error.mp h with h | ⟨_, _, h⟩
    · exact h
    · cases h
  obtain ⟨done, a, rest, seen, rfl, hdone, ha⟩ := foldlM_error hloop
  obtain ⟨rfl, -, -⟩ := validateAllocations_loop hdone
  have hva := hvalid a (by simp)
  have hag : seen.forM a.against = .error e := by
    rcases bind_eq_error.mp ha with h | ⟨_, _, h⟩
    · rw [(Allocation.fields_eq_ok (u := ())).mpr hva] at h
      cases h
    · rcases bind_eq_error.mp h with h | ⟨_, _, h⟩
      · exact h
      · cases h
  obtain ⟨b, hb, hba⟩ := forM_eq_error hag
  have hsub : [b, a].Sublist (seen ++ a :: rest) :=
    (List.singleton_sublist.mpr hb).append (List.singleton_sublist.mpr (by simp))
  obtain ⟨ht, hp⟩ := List.pairwise_iff_forall_sublist.mp happ hsub
  obtain ⟨hov, he⟩ := Allocation.against_eq_error hva (hvalid b (by simp [hb])) ht hp hba
  exact ⟨b, a, hsub, hov, he⟩

end SakhtarWg.Kernel
