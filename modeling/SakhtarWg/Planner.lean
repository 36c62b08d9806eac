import SakhtarWg.Inventory
import SakhtarWg.KernelPlan

/-!
# The ownership planner

A plan from snapshots of the current and the desired objects. A map is the list of its
values, each under its own key.
-/

namespace SakhtarWg.Kernel
open Text Fallible

inductive Action
  | add | update | delete
  deriving DecidableEq

def Action.text : Action → String
  | .add => "add"
  | .update => "update"
  | .delete => "delete"

inductive Kind
  | link | address | route | rule
  deriving DecidableEq

def Kind.text : Kind → String
  | .link => "link"
  | .address => "address"
  | .route => "route"
  | .rule => "rule"

structure Object where
  kind : Kind
  id : String
  value : String
  owned : Bool
  evidence : String
  allowAdopt : Bool
  deriving DecidableEq

def Object.key (o : Object) : String := o.kind.text ++ ":" ++ o.id

structure Operation where
  action : Action
  kind : Kind
  id : String
  before : String
  after : String
  evidence : String
  deriving DecidableEq

structure Drift where
  kind : Kind
  id : String
  blocking : Bool
  reason : String
  deriving DecidableEq

structure Plan where
  operations : List Operation
  drift : List Drift
  deriving DecidableEq

def Plan.hasBlockingDrift (p : Plan) : Bool := p.drift.any (·.blocking)

/-- One more object of a map under construction. -/
def indexObject (desired : Bool) (indexed : List Object) (o : Object) :
    Except String (List Object) := do
  require (o.id ≠ "") "object kind and id are required"
  require (!desired || o.evidence ≠ "") (o.key ++ " lacks ownership evidence")
  require (o.key ∉ indexed.map Object.key) ("duplicate object " ++ o.key)
  return indexed ++ [o]

def indexObjects (objects : List Object) (desired : Bool) : Except String (List Object) :=
  objects.foldlM (indexObject desired) []

def objectAt (objects : List Object) (key : String) : Option Object :=
  objects.find? fun o => o.key = key

/-- The operation for a key with these objects, if any. -/
def operationAt : Option Object → Option Object → Option Operation
  | none, some dst => some ⟨.add, dst.kind, dst.id, "", dst.value, dst.evidence⟩
  | some cur, none =>
    if cur.owned then some ⟨.delete, cur.kind, cur.id, cur.value, "", cur.evidence⟩ else none
  | some cur, some dst =>
    if !cur.owned then
      if dst.allowAdopt && cur.value = dst.value then
        some ⟨.update, dst.kind, dst.id, cur.value, dst.value, dst.evidence⟩
      else none
    else if cur.value ≠ dst.value then
      some ⟨.update, dst.kind, dst.id, cur.value, dst.value, cur.evidence⟩
    else none
  | none, none => none

def driftAt : Option Object → Option Object → Option Drift
  | some cur, some dst =>
    if !cur.owned && !(dst.allowAdopt && cur.value = dst.value) then
      some ⟨dst.kind, dst.id, true,
        "desired tuple collides with an object lacking ownership evidence"⟩
    else none
  | _, _ => none

/-- The keys of both maps, in ascending order. -/
def planKeys (held want : List Object) : List String :=
  sortStrings (held.map Object.key ++
    (want.map Object.key).filter fun k => k ∉ held.map Object.key)

def planDiff (current desired : List Object) : Except String Plan := do
  let held ← (indexObjects current false).mapError fun e => "current state: " ++ e
  let want ← (indexObjects desired true).mapError fun e => "desired state: " ++ e
  return ⟨(planKeys held want).filterMap fun k => operationAt (objectAt held k) (objectAt want k),
    (planKeys held want).filterMap fun k => driftAt (objectAt held k) (objectAt want k)⟩

/-! ## What a plan consists of -/

theorem Kind.text_colon (k : Kind) : ':' ∉ k.text.toList := by cases k <;> decide

theorem Kind.text_injective {k k' : Kind} (he : k.text = k'.text) : k = k' := by
  revert he
  cases k <;> cases k' <;> decide

theorem Object.key_inj {o p : Object} (he : o.key = p.key) : o.kind = p.kind ∧ o.id = p.id := by
  have htext : ∀ o : Object, o.key.toList = o.kind.text.toList ++ ':' :: o.id.toList := by
    intro o
    simp [Object.key]
  have hlist := congrArg String.toList he
  rw [htext, htext] at hlist
  obtain ⟨hkind, hid⟩ := append_sep_inj (Kind.text_colon _) (Kind.text_colon _) hlist
  exact ⟨Kind.text_injective (String.toList_inj.mp hkind), String.toList_inj.mp hid⟩

/-- Objects a map can be made of. -/
structure Indexable (desired : Bool) (objects : List Object) : Prop where
  id : ∀ o ∈ objects, o.id ≠ ""
  evidence : desired = true → ∀ o ∈ objects, o.evidence ≠ ""
  keys : (objects.map Object.key).Nodup

theorem indexObject_eq_ok {desired : Bool} {indexed out : List Object} {o : Object} :
    indexObject desired indexed o = .ok out ↔ (out = indexed ++ [o] ∧
      (∀ i ∈ indexed, i.key ≠ o.key) ∧ o.id ≠ "" ∧ (desired = true → o.evidence ≠ "")) := by
  unfold indexObject
  simp only [bind_eq_ok, require_eq_ok, pure_eq_ok, exists_and_left, exists_const,
    decide_eq_true_eq, Bool.or_eq_true, Bool.not_eq_true', List.mem_map, not_exists, not_and]
  constructor
  · rintro ⟨hid, hev, hnew, rfl⟩
    refine ⟨rfl, hnew, hid, fun hd => ?_⟩
    rcases hev with h | h
    · rw [h] at hd
      cases hd
    · exact h
  · rintro ⟨rfl, hnew, hid, hev⟩
    refine ⟨hid, ?_, hnew, rfl⟩
    cases desired with
    | false => exact .inl rfl
    | true => exact .inr (hev rfl)

theorem indexObjects_eq_ok {desired : Bool} {objects out : List Object} :
    indexObjects objects desired = .ok out ↔ out = objects ∧ Indexable desired objects := by
  unfold indexObjects
  rw [foldlM_collect_iff fun _ _ _ => indexObject_eq_ok]
  refine and_congr_right fun _ => ?_
  constructor
  · rintro ⟨hpair, hall⟩
    exact ⟨fun o ho => (hall o ho).1, fun hd o ho => (hall o ho).2 hd, List.pairwise_map.mpr hpair⟩
  · rintro ⟨hid, hev, hkeys⟩
    exact ⟨List.pairwise_map.mp hkeys, fun o ho => ⟨hid o ho, fun hd => hev hd o ho⟩⟩

theorem objectAt_eq_some {objects : List Object} (h : (objects.map Object.key).Nodup)
    {k : String} {o : Object} : objectAt objects k = some o ↔ o ∈ objects ∧ o.key = k :=
  find?_key Object.key h

theorem objectAt_eq_none {objects : List Object} {k : String} :
    objectAt objects k = none ↔ ∀ o ∈ objects, o.key ≠ k := by
  simp [objectAt]

theorem mem_planKeys {held want : List Object} {k : String} :
    k ∈ planKeys held want ↔ (objectAt held k).isSome = true ∨ (objectAt want k).isSome = true := by
  have hmem : ∀ objects : List Object,
      (objectAt objects k).isSome = true ↔ k ∈ objects.map Object.key := by
    intro objects
    simp [objectAt]
  rw [hmem, hmem, planKeys, mem_sortStrings, List.mem_append, List.mem_filter, decide_eq_true_eq]
  by_cases h : k ∈ held.map Object.key
  · simp [h]
  · simp [h]

theorem planKeys_nodup {held want : List Object} (hheld : (held.map Object.key).Nodup)
    (hwant : (want.map Object.key).Nodup) : (planKeys held want).Nodup := by
  apply (List.perm_insertionSort (· ≤ ·) _).nodup_iff.mpr
  rw [List.nodup_append]
  refine ⟨hheld, hwant.filter _, ?_⟩
  intro k hk k' hk' he
  rw [List.mem_filter, decide_eq_true_eq] at hk'
  exact hk'.2 (he ▸ hk)

theorem planDiff_eq_ok {current desired : List Object} {plan : Plan} :
    planDiff current desired = .ok plan ↔ Indexable false current ∧ Indexable true desired ∧
      plan = ⟨(planKeys current desired).filterMap fun k =>
          operationAt (objectAt current k) (objectAt desired k),
        (planKeys current desired).filterMap fun k =>
          driftAt (objectAt current k) (objectAt desired k)⟩ := by
  unfold planDiff
  simp only [bind_eq_ok, mapError_eq_ok, indexObjects_eq_ok, pure_eq_ok]
  constructor
  · rintro ⟨held, ⟨rfl, hcur⟩, want, ⟨rfl, hdes⟩, rfl⟩
    exact ⟨hcur, hdes, rfl⟩
  · rintro ⟨hcur, hdes, rfl⟩
    exact ⟨_, ⟨rfl, hcur⟩, _, ⟨rfl, hdes⟩, rfl⟩

section
variable {current desired : List Object} {plan : Plan} (h : planDiff current desired = .ok plan)
include h

theorem mem_operations {op : Operation} : op ∈ plan.operations ↔
    ∃ k, operationAt (objectAt current k) (objectAt desired k) = some op := by
  obtain ⟨-, -, rfl⟩ := planDiff_eq_ok.mp h
  simp only [List.mem_filterMap, mem_planKeys]
  constructor
  · rintro ⟨k, -, hop⟩
    exact ⟨k, hop⟩
  · rintro ⟨k, hop⟩
    refine ⟨k, ?_, hop⟩
    cases hcur : objectAt current k with
    | some cur => exact .inl rfl
    | none =>
      cases hdes : objectAt desired k with
      | some dst => exact .inr rfl
      | none =>
        rw [hcur, hdes] at hop
        cases hop

theorem mem_drift {d : Drift} : d ∈ plan.drift ↔
    ∃ k, driftAt (objectAt current k) (objectAt desired k) = some d := by
  obtain ⟨-, -, rfl⟩ := planDiff_eq_ok.mp h
  simp only [List.mem_filterMap, mem_planKeys]
  constructor
  · rintro ⟨k, -, hd⟩
    exact ⟨k, hd⟩
  · rintro ⟨k, hd⟩
    refine ⟨k, ?_, hd⟩
    cases hcur : objectAt current k with
    | some cur => exact .inl rfl
    | none =>
      rw [hcur] at hd
      cases hd

/-- The operations by the objects they are for. -/
theorem mem_operations_iff {op : Operation} : op ∈ plan.operations ↔
    (∃ w ∈ desired, (∀ c ∈ current, c.key ≠ w.key) ∧
      op = ⟨.add, w.kind, w.id, "", w.value, w.evidence⟩) ∨
    (∃ c ∈ current, c.owned = true ∧ (∀ w ∈ desired, w.key ≠ c.key) ∧
      op = ⟨.delete, c.kind, c.id, c.value, "", c.evidence⟩) ∨
    ∃ c ∈ current, ∃ w ∈ desired, c.key = w.key ∧
      ((c.owned = false ∧ w.allowAdopt = true ∧ c.value = w.value ∧
        op = ⟨.update, w.kind, w.id, c.value, w.value, w.evidence⟩) ∨
      (c.owned = true ∧ c.value ≠ w.value ∧
        op = ⟨.update, w.kind, w.id, c.value, w.value, c.evidence⟩)) := by
  obtain ⟨hcur, hdes, -⟩ := planDiff_eq_ok.mp h
  have hc : ∀ {k c}, objectAt current k = some c ↔ c ∈ current ∧ c.key = k :=
    objectAt_eq_some hcur.keys
  have hd : ∀ {k w}, objectAt desired k = some w ↔ w ∈ desired ∧ w.key = k :=
    objectAt_eq_some hdes.keys
  rw [mem_operations h]
  constructor
  · rintro ⟨k, hop⟩
    cases hck : objectAt current k with
    | none =>
      cases hdk : objectAt desired k with
      | none =>
        rw [hck, hdk] at hop
        cases hop
      | some w =>
        rw [hck, hdk] at hop
        cases hop
        obtain ⟨hw, rfl⟩ := hd.mp hdk
        exact .inl ⟨w, hw, objectAt_eq_none.mp hck, rfl⟩
    | some c =>
      obtain ⟨hmem, rfl⟩ := hc.mp hck
      cases hdk : objectAt desired c.key with
      | none =>
        rw [hck, hdk] at hop
        simp only [operationAt, Option.ite_none_right_eq_some, Option.some.injEq] at hop
        exact .inr (.inl ⟨c, hmem, hop.1, objectAt_eq_none.mp hdk, hop.2.symm⟩)
      | some w =>
        rw [hck, hdk] at hop
        obtain ⟨hw, hkey⟩ := hd.mp hdk
        refine .inr (.inr ⟨c, hmem, w, hw, hkey.symm, ?_⟩)
        cases hown : c.owned with
        | false =>
          simp only [operationAt, hown, Bool.not_false, if_true, Option.ite_none_right_eq_some,
            Bool.and_eq_true, decide_eq_true_eq, Option.some.injEq] at hop
          exact .inl ⟨rfl, hop.1.1, hop.1.2, hop.2.symm⟩
        | true =>
          simp only [operationAt, hown, Bool.not_true, Bool.false_eq_true, if_false,
            Option.ite_none_right_eq_some, Option.some.injEq] at hop
          exact .inr ⟨rfl, hop.1, hop.2.symm⟩
  · rintro (⟨w, hw, hnew, rfl⟩ | ⟨c, hmem, hown, hgone, rfl⟩ | ⟨c, hmem, w, hw, hkey, hop⟩)
    · refine ⟨w.key, ?_⟩
      rw [objectAt_eq_none.mpr hnew, hd.mpr ⟨hw, rfl⟩]
      rfl
    · refine ⟨c.key, ?_⟩
      rw [hc.mpr ⟨hmem, rfl⟩, objectAt_eq_none.mpr hgone]
      simp [operationAt, hown]
    · refine ⟨c.key, ?_⟩
      rw [hc.mpr ⟨hmem, rfl⟩, hd.mpr ⟨hw, hkey.symm⟩]
      rcases hop with ⟨hown, hadopt, hv, rfl⟩ | ⟨hown, hv, rfl⟩
      · simp [operationAt, hown, hadopt, hv]
      · simp [operationAt, hown, hv]

/-- An operation names the key it is for. -/
theorem operationAt_key {k : String} {op : Operation}
    (hop : operationAt (objectAt current k) (objectAt desired k) = some op) :
    op.kind.text ++ ":" ++ op.id = k := by
  obtain ⟨hcur, hdes, -⟩ := planDiff_eq_ok.mp h
  cases hc : objectAt current k with
  | none =>
    cases hd : objectAt desired k with
    | none =>
      rw [hc, hd] at hop
      cases hop
    | some dst =>
      rw [hc, hd] at hop
      cases hop
      exact ((objectAt_eq_some hdes.keys).mp hd).2
  | some cur =>
    have hck := ((objectAt_eq_some hcur.keys).mp hc).2
    cases hd : objectAt desired k with
    | none =>
      rw [hc, hd] at hop
      simp only [operationAt] at hop
      split at hop
      · cases hop
        exact hck
      · cases hop
    | some dst =>
      have hdk := ((objectAt_eq_some hdes.keys).mp hd).2
      rw [hc, hd] at hop
      simp only [operationAt] at hop
      split at hop
      · split at hop
        · cases hop
          exact hdk
        · cases hop
      · split at hop
        · cases hop
          exact hdk
        · cases hop

end

end SakhtarWg.Kernel
