import Mathlib.Data.List.Perm.Basic
import SakhtarWg.Planner

/-!
# Convergence of the ownership planner

What a plan does to the objects it was made from, key by key.
-/

namespace SakhtarWg.Kernel
open Text Fallible

def Operation.key (op : Operation) : String := op.kind.text ++ ":" ++ op.id

def Drift.key (d : Drift) : String := d.kind.text ++ ":" ++ d.id

/-- The object an addition makes. -/
def Operation.object (op : Operation) : Object :=
  ⟨op.kind, op.id, op.after, true, op.evidence, false⟩

/-- The objects once an operation has been carried out. -/
def Operation.apply (objects : List Object) (op : Operation) : List Object :=
  match op.action with
  | .add => objects.filter (fun o => o.key ≠ op.key) ++ [op.object]
  | .update => objects.map fun o =>
      if o.key = op.key then
        { o with value := op.after, owned := true, evidence := op.evidence }
      else o
  | .delete => objects.filter fun o => o.key ≠ op.key

def Plan.apply (plan : Plan) (objects : List Object) : List Object :=
  plan.operations.foldl Operation.apply objects

/-! ## One operation -/

/-- What an operation makes of the object under its own key. -/
def Operation.result (op : Operation) (held : Option Object) : Option Object :=
  match op.action with
  | .add => some op.object
  | .update => held.map fun o =>
      { o with value := op.after, owned := true, evidence := op.evidence }
  | .delete => none

theorem key_of_update (op : Operation) (o : Object) :
    Object.key (if o.key = op.key then
      { o with value := op.after, owned := true, evidence := op.evidence } else o) = o.key := by
  split <;> rfl

theorem apply_keys_nodup {objects : List Object} (h : (objects.map Object.key).Nodup)
    (op : Operation) : ((op.apply objects).map Object.key).Nodup := by
  have hfilter : ((objects.filter fun o => o.key ≠ op.key).map Object.key).Nodup :=
    h.sublist (List.filter_sublist.map _)
  cases ha : op.action with
  | add =>
    simp only [Operation.apply, ha, List.map_append, List.map_cons, List.map_nil]
    apply hfilter.append (List.nodup_singleton _)
    intro k hk hk'
    obtain ⟨o, ho, rfl⟩ := List.mem_map.mp hk
    rw [List.mem_filter, decide_eq_true_eq] at ho
    exact ho.2 (List.mem_singleton.mp hk')
  | update =>
    simp only [Operation.apply, ha, List.map_map]
    rw [show Object.key ∘ _ = Object.key from funext (key_of_update op)]
    exact h
  | delete =>
    simp only [Operation.apply, ha]
    exact hfilter

theorem objectAt_filter_ne {objects : List Object} {k k' : String} :
    objectAt (objects.filter fun o => o.key ≠ k') k =
      if k = k' then none else objectAt objects k := by
  unfold objectAt
  rw [List.find?_filter]
  split
  · rename_i he
    subst he
    simp
  · rename_i hne
    congr 1
    funext o
    by_cases ho : o.key = k
    · simp [ho, hne]
    · simp [ho]

theorem objectAt_append {objects : List Object} {o : Object} {k : String} :
    objectAt (objects ++ [o]) k = (objectAt objects k).or (if o.key = k then some o else none) := by
  simp only [objectAt, List.find?_append, List.find?_cons, List.find?_nil]
  by_cases h : o.key = k <;> simp [h]

theorem objectAt_update {objects : List Object} (op : Operation) {k : String} :
    objectAt (objects.map fun o => if o.key = op.key then
        { o with value := op.after, owned := true, evidence := op.evidence } else o) k =
      if k = op.key then (objectAt objects k).map fun o =>
        { o with value := op.after, owned := true, evidence := op.evidence }
      else objectAt objects k := by
  unfold objectAt
  rw [List.find?_map]
  have hkey : ((fun o : Object => decide (o.key = k)) ∘ fun o => if o.key = op.key then
      { o with value := op.after, owned := true, evidence := op.evidence } else o) =
      fun o => decide (o.key = k) := by
    funext o
    simp only [Function.comp, key_of_update]
  rw [hkey]
  cases hf : objects.find? fun o => decide (o.key = k) with
  | none => simp
  | some o =>
    have ho : o.key = k := by simpa using List.find?_some hf
    rw [Option.map_some, ho]
    split <;> rfl

/-- An operation changes the object under its own key and no other. -/
theorem objectAt_apply (objects : List Object) (op : Operation) (k : String) :
    objectAt (op.apply objects) k =
      if k = op.key then op.result (objectAt objects k) else objectAt objects k := by
  cases ha : op.action with
  | add =>
    simp only [Operation.apply, Operation.result, ha]
    rw [objectAt_append, objectAt_filter_ne]
    by_cases h : k = op.key
    · rw [if_pos h, if_pos h, if_pos (show op.object.key = k from h.symm)]
      rfl
    · rw [if_neg h, if_neg h, if_neg (show ¬ op.object.key = k from fun e => h e.symm),
        Option.or_none]
  | update =>
    simp only [Operation.apply, Operation.result, ha]
    exact objectAt_update op
  | delete =>
    simp only [Operation.apply, Operation.result, ha]
    exact objectAt_filter_ne

/-! ## A whole plan -/

theorem foldl_apply_keys_nodup (ops : List Operation) {objects : List Object}
    (h : (objects.map Object.key).Nodup) :
    ((ops.foldl Operation.apply objects).map Object.key).Nodup := by
  induction ops generalizing objects with
  | nil => exact h
  | cons op ops ih => exact ih (apply_keys_nodup h op)

/-- Operations chosen key by key act on each key by its own operation. -/
theorem objectAt_foldl_apply {choose : String → Option Operation}
    (hkey : ∀ k op, choose k = some op → op.key = k) {keys : List String} (hnodup : keys.Nodup)
    (objects : List Object) (k : String) :
    objectAt ((keys.filterMap choose).foldl Operation.apply objects) k =
      match choose k with
      | some op => if k ∈ keys then op.result (objectAt objects k) else objectAt objects k
      | none => objectAt objects k := by
  induction keys generalizing objects with
  | nil => cases choose k <;> simp
  | cons k' keys ih =>
    obtain ⟨hnew, hnodup⟩ := List.nodup_cons.mp hnodup
    cases hc : choose k' with
    | none =>
      rw [List.filterMap_cons_none hc, ih hnodup]
      cases hk : choose k with
      | none => rfl
      | some op =>
        have hne : k ≠ k' := by
          rintro rfl
          rw [hc] at hk
          cases hk
        simp [hne]
    | some op' =>
      have hop' := hkey k' op' hc
      rw [List.filterMap_cons_some hc, List.foldl_cons, ih hnodup, objectAt_apply, hop']
      by_cases he : k = k'
      · subst he
        simp [hc, hnew]
      · cases choose k <;> simp [he]

/-- The object a plan leaves under a key that held `cur` and is to hold `dst`. -/
def settled (cur dst : Option Object) : Option Object :=
  match operationAt cur dst with
  | some op => op.result cur
  | none => cur

section
variable {current desired : List Object} {plan : Plan} (h : planDiff current desired = .ok plan)
include h

theorem objectAt_plan_apply (k : String) :
    objectAt (plan.apply current) k = settled (objectAt current k) (objectAt desired k) := by
  obtain ⟨hcur, hdes, hplan⟩ := planDiff_eq_ok.mp h
  have hops : plan.operations = (planKeys current desired).filterMap fun k =>
      operationAt (objectAt current k) (objectAt desired k) := by
    rw [hplan]
  rw [Plan.apply, hops, objectAt_foldl_apply (fun k op hop => operationAt_key h hop)
    (planKeys_nodup hcur.keys hdes.keys), settled]
  cases hop : operationAt (objectAt current k) (objectAt desired k) with
  | none => rfl
  | some op =>
    -- a key with an operation is one of the plan's keys
    have hmem : k ∈ planKeys current desired := by
      rw [mem_planKeys]
      cases hc : objectAt current k with
      | some cur => exact .inl rfl
      | none =>
        cases hd : objectAt desired k with
        | some dst => exact .inr rfl
        | none =>
          rw [hc, hd] at hop
          cases hop
    exact if_pos hmem

theorem plan_apply_keys_nodup : ((plan.apply current).map Object.key).Nodup :=
  foldl_apply_keys_nodup _ (planDiff_eq_ok.mp h).1.keys

theorem mem_plan_apply {o : Object} : o ∈ plan.apply current ↔
    settled (objectAt current o.key) (objectAt desired o.key) = some o := by
  rw [← objectAt_plan_apply h, objectAt_eq_some (plan_apply_keys_nodup h)]
  simp

end

/-! ## What is left under a key -/

theorem driftAt_eq_some {cur dst : Option Object} {d : Drift} : driftAt cur dst = some d ↔
    ∃ c w, cur = some c ∧ dst = some w ∧ c.owned = false ∧
      ¬ (w.allowAdopt = true ∧ c.value = w.value) ∧
      d = ⟨w.kind, w.id, true,
        "desired tuple collides with an object lacking ownership evidence"⟩ := by
  cases cur with
  | none => simp [driftAt]
  | some c =>
    cases dst with
    | none => simp [driftAt]
    | some w =>
      simp only [driftAt, Option.ite_none_right_eq_some, Bool.and_eq_true, Bool.not_eq_true',
        ← Bool.not_eq_true, decide_eq_true_eq, Option.some.injEq]
      constructor
      · rintro ⟨⟨hown, hadopt⟩, rfl⟩
        exact ⟨c, w, rfl, rfl, hown, hadopt, rfl⟩
      · rintro ⟨_, _, rfl, rfl, hown, hadopt, rfl⟩
        exact ⟨⟨hown, hadopt⟩, rfl⟩

theorem settled_desired {cur : Option Object} {dst : Object} (h : driftAt cur (some dst) = none) :
    ∃ o, settled cur (some dst) = some o ∧ o.owned = true ∧ o.value = dst.value ∧
      ((∃ c, cur = some c ∧ o.id = c.id) ∨ o.id = dst.id) := by
  cases cur with
  | none => exact ⟨_, rfl, rfl, rfl, .inr rfl⟩
  | some cur =>
    cases hown : cur.owned with
    | true =>
      by_cases hv : cur.value = dst.value
      · exact ⟨cur, by simp [settled, operationAt, hown, hv], hown, hv, .inl ⟨cur, rfl, rfl⟩⟩
      · refine ⟨{ cur with value := dst.value, owned := true }, ?_, rfl, rfl, .inl ⟨cur, rfl, rfl⟩⟩
        simp [settled, operationAt, hown, hv, Operation.result]
    | false =>
      by_cases hadopt : dst.allowAdopt = true ∧ cur.value = dst.value
      · refine ⟨{ cur with value := dst.value, owned := true, evidence := dst.evidence }, ?_,
          rfl, rfl, .inl ⟨cur, rfl, rfl⟩⟩
        simp [settled, operationAt, hown, hadopt, Operation.result]
      · rw [driftAt_eq_some.mpr ⟨cur, dst, rfl, rfl, hown, hadopt, rfl⟩] at h
        cases h

theorem settled_owned {cur : Object} (h : cur.owned = true) : settled (some cur) none = none := by
  simp [settled, operationAt, h, Operation.result]

theorem settled_unowned {cur : Object} (h : cur.owned = false) :
    settled (some cur) none = some cur := by
  simp [settled, operationAt, h]

theorem settled_undesired {cur : Option Object} {o : Object} (h : settled cur none = some o) :
    ∃ c, cur = some c ∧ c = o ∧ c.owned = false := by
  cases cur with
  | none => cases h
  | some c =>
    cases hown : c.owned with
    | true =>
      rw [settled_owned hown] at h
      cases h
    | false =>
      rw [settled_unowned hown] at h
      exact ⟨c, rfl, Option.some.inj h, hown⟩

theorem operationAt_collision {c w : Object} (hown : c.owned = false)
    (hadopt : ¬ (w.allowAdopt = true ∧ c.value = w.value)) :
    operationAt (some c) (some w) = none := by
  simp [operationAt, hown, hadopt]

theorem settled_drift {cur dst : Option Object} {d : Drift} (h : driftAt cur dst = some d) :
    settled cur dst = cur := by
  obtain ⟨c, w, rfl, rfl, hown, hadopt, -⟩ := driftAt_eq_some.mp h
  rw [settled, operationAt_collision hown hadopt]

theorem operationAt_settled (cur dst : Option Object) : operationAt (settled cur dst) dst = none := by
  cases dst with
  | none =>
    cases cur with
    | none => rfl
    | some cur =>
      cases hown : cur.owned with
      | true =>
        rw [settled_owned hown]
        rfl
      | false =>
        rw [settled_unowned hown]
        simp [operationAt, hown]
  | some dst =>
    cases hd : driftAt cur (some dst) with
    | none =>
      obtain ⟨o, ho, hown, hv, -⟩ := settled_desired hd
      rw [ho]
      simp [operationAt, hown, hv]
    | some d =>
      rw [settled_drift hd]
      obtain ⟨c, w, rfl, hw, hown, hadopt, -⟩ := driftAt_eq_some.mp hd
      rw [hw, operationAt_collision hown hadopt]

theorem driftAt_settled (cur dst : Option Object) :
    driftAt (settled cur dst) dst = driftAt cur dst := by
  cases hd : driftAt cur dst with
  | some d => rw [settled_drift hd, hd]
  | none =>
    cases dst with
    | none => cases settled cur none <;> rfl
    | some dst =>
      obtain ⟨o, ho, hown, -⟩ := settled_desired hd
      rw [ho]
      simp [driftAt, hown]

theorem settled_id {cur dst : Option Object} {o : Object} (h : settled cur dst = some o) :
    (∃ c, cur = some c ∧ o.id = c.id) ∨ ∃ w, dst = some w ∧ o.id = w.id := by
  cases hd : driftAt cur dst with
  | some d =>
    rw [settled_drift hd] at h
    exact .inl ⟨o, h, rfl⟩
  | none =>
    cases dst with
    | some w =>
      obtain ⟨o', ho', -, -, hid⟩ := settled_desired hd
      rw [h] at ho'
      cases ho'
      exact hid.imp_right fun hw => ⟨w, rfl, hw⟩
    | none =>
      obtain ⟨c, rfl, rfl, -⟩ := settled_undesired h
      exact .inl ⟨c, rfl, rfl⟩

/-! ## The order of the keys -/

theorem planKeys_sorted (held want : List Object) : (planKeys held want).Pairwise (· ≤ ·) :=
  List.pairwise_insertionSort _ _

/-- What is chosen key by key depends only on the keys something is chosen for. -/
theorem filterMap_planKeys_congr {β : Type} {choose : String → Option β}
    {held want held' want' : List Object}
    (hheld : (held.map Object.key).Nodup) (hwant : (want.map Object.key).Nodup)
    (hheld' : (held'.map Object.key).Nodup) (hwant' : (want'.map Object.key).Nodup)
    (h : ∀ k, (choose k).isSome = true → (k ∈ planKeys held want ↔ k ∈ planKeys held' want')) :
    (planKeys held want).filterMap choose = (planKeys held' want').filterMap choose := by
  have hfilter : ∀ keys : List String,
      keys.filterMap choose = (keys.filter fun k => (choose k).isSome).filterMap choose := by
    intro keys
    rw [List.filterMap_filter]
    congr 1
    funext k
    cases choose k <;> rfl
  have hkeys : ((planKeys held want).filter fun k => (choose k).isSome) =
      (planKeys held' want').filter fun k => (choose k).isSome := by
    apply List.Perm.eq_of_pairwise (fun _ _ _ _ => String.le_antisymm)
      ((planKeys_sorted _ _).filter _) ((planKeys_sorted _ _).filter _)
    apply (List.perm_ext_iff_of_nodup ((planKeys_nodup hheld hwant).filter _)
      ((planKeys_nodup hheld' hwant').filter _)).mpr
    intro k
    rw [List.mem_filter, List.mem_filter]
    constructor
    · rintro ⟨hk, hsome⟩
      exact ⟨(h k hsome).mp hk, hsome⟩
    · rintro ⟨hk, hsome⟩
      exact ⟨(h k hsome).mpr hk, hsome⟩
  rw [hfilter, hkeys, ← hfilter]

theorem Indexable.perm {desired : Bool} {objects objects' : List Object}
    (hp : objects.Perm objects') (h : Indexable desired objects) : Indexable desired objects' where
  id o ho := h.id o (hp.mem_iff.mpr ho)
  evidence hd o ho := h.evidence hd o (hp.mem_iff.mpr ho)
  keys := (hp.map _).nodup_iff.mp h.keys

theorem objectAt_perm {objects objects' : List Object} (hp : objects.Perm objects')
    (h : (objects.map Object.key).Nodup) (k : String) :
    objectAt objects k = objectAt objects' k := by
  apply Option.ext
  intro o
  rw [objectAt_eq_some h, objectAt_eq_some ((hp.map _).nodup_iff.mp h), hp.mem_iff]

/-! ## Convergence -/

section
variable {current desired : List Object} {plan : Plan} (h : planDiff current desired = .ok plan)
include h

theorem drift_iff_current {d : Drift} : d ∈ plan.drift ↔
    ∃ w ∈ desired, ∃ c ∈ current, c.key = w.key ∧ c.owned = false ∧
      ¬ (w.allowAdopt = true ∧ c.value = w.value) ∧
      d = ⟨w.kind, w.id, true,
        "desired tuple collides with an object lacking ownership evidence"⟩ := by
  obtain ⟨hcur, hdes, -⟩ := planDiff_eq_ok.mp h
  rw [mem_drift h]
  simp only [driftAt_eq_some, objectAt_eq_some hcur.keys, objectAt_eq_some hdes.keys]
  constructor
  · rintro ⟨k, c, w, ⟨hc, hck⟩, ⟨hw, hwk⟩, hrest⟩
    exact ⟨w, hw, c, hc, hck.trans hwk.symm, hrest⟩
  · rintro ⟨w, hw, c, hc, hkey, hrest⟩
    exact ⟨w.key, c, w, ⟨hc, hkey⟩, ⟨hw, rfl⟩, hrest⟩

theorem desired_present {w : Object} (hw : w ∈ desired) (hd : ∀ d ∈ plan.drift, d.key ≠ w.key) :
    ∃ o ∈ plan.apply current, o.key = w.key ∧ o.owned = true ∧ o.value = w.value := by
  obtain ⟨-, hdes, -⟩ := planDiff_eq_ok.mp h
  have hat : objectAt desired w.key = some w := (objectAt_eq_some hdes.keys).mpr ⟨hw, rfl⟩
  have hnone : driftAt (objectAt current w.key) (some w) = none := by
    cases hdrift : driftAt (objectAt current w.key) (some w) with
    | none => rfl
    | some d =>
      apply absurd _ (hd d ((mem_drift h).mpr ⟨w.key, by rw [hat, hdrift]⟩))
      obtain ⟨_, _, -, hw', -, -, rfl⟩ := driftAt_eq_some.mp hdrift
      cases hw'
      rfl
  obtain ⟨o, ho, hown, hv, -⟩ := settled_desired hnone
  have ho' := objectAt_plan_apply h w.key
  rw [hat, ho, objectAt_eq_some (plan_apply_keys_nodup h)] at ho'
  exact ⟨o, ho'.1, ho'.2, hown, hv⟩

theorem owned_desired {o : Object} (ho : o ∈ plan.apply current) (hown : o.owned = true) :
    ∃ w ∈ desired, w.key = o.key := by
  obtain ⟨-, hdes, -⟩ := planDiff_eq_ok.mp h
  rw [mem_plan_apply h] at ho
  cases hw : objectAt desired o.key with
  | some w => exact ⟨w, (objectAt_eq_some hdes.keys).mp hw⟩
  | none =>
    -- what is left under a key that is not desired is not owned
    rw [hw] at ho
    obtain ⟨c, -, rfl, hnot⟩ := settled_undesired ho
    rw [hown] at hnot
    cases hnot

theorem unowned_kept {c : Object} (hc : c ∈ current) (hown : c.owned = false)
    (hadopt : ∀ w ∈ desired, w.key = c.key → ¬ (w.allowAdopt = true ∧ w.value = c.value)) :
    c ∈ plan.apply current := by
  obtain ⟨hcur, hdes, -⟩ := planDiff_eq_ok.mp h
  rw [mem_plan_apply h, (objectAt_eq_some hcur.keys).mpr ⟨hc, rfl⟩]
  cases hw : objectAt desired c.key with
  | none => exact settled_unowned hown
  | some w =>
    obtain ⟨hmem, hkey⟩ := (objectAt_eq_some hdes.keys).mp hw
    have hna : ¬ (w.allowAdopt = true ∧ c.value = w.value) := by
      rintro ⟨ha, hv⟩
      exact hadopt w hmem hkey ⟨ha, hv.symm⟩
    rw [settled, operationAt_collision hown hna]

theorem unowned_old {o : Object} (ho : o ∈ plan.apply current) (hown : o.owned = false) :
    o ∈ current ∧ ∀ w ∈ desired, w.key = o.key → ¬ (w.allowAdopt = true ∧ o.value = w.value) := by
  obtain ⟨hcur, hdes, -⟩ := planDiff_eq_ok.mp h
  rw [mem_plan_apply h] at ho
  cases hd : driftAt (objectAt current o.key) (objectAt desired o.key) with
  | some d =>
    rw [settled_drift hd, objectAt_eq_some hcur.keys] at ho
    obtain ⟨c, w', hc, hw', -, hna, -⟩ := driftAt_eq_some.mp hd
    refine ⟨ho.1, fun w hw hkey => ?_⟩
    rw [(objectAt_eq_some hdes.keys).mpr ⟨hw, hkey⟩] at hw'
    rw [(objectAt_eq_some hcur.keys).mpr ho] at hc
    cases hw'
    cases hc
    exact hna
  | none =>
    cases hw : objectAt desired o.key with
    | some w =>
      rw [hw] at ho hd
      obtain ⟨o', ho', hown', -⟩ := settled_desired hd
      rw [ho] at ho'
      cases ho'
      rw [hown] at hown'
      cases hown'
    | none =>
      refine ⟨?_, fun w hmem hkey => absurd hkey (objectAt_eq_none.mp hw w hmem)⟩
      rw [hw] at ho
      obtain ⟨c, hc, rfl, -⟩ := settled_undesired ho
      exact ((objectAt_eq_some hcur.keys).mp hc).1

theorem plan_apply_indexable : Indexable false (plan.apply current) where
  id o ho := by
    obtain ⟨hcur, hdes, -⟩ := planDiff_eq_ok.mp h
    obtain ⟨c, hc, hid⟩ | ⟨w, hw, hid⟩ := settled_id ((mem_plan_apply h).mp ho)
    · rw [hid]
      exact hcur.id c ((objectAt_eq_some hcur.keys).mp hc).1
    · rw [hid]
      exact hdes.id w ((objectAt_eq_some hdes.keys).mp hw).1
  evidence hd := by cases hd
  keys := plan_apply_keys_nodup h

theorem planDiff_again : planDiff (plan.apply current) desired = .ok ⟨[], plan.drift⟩ := by
  obtain ⟨hcur, hdes, hplan⟩ := planDiff_eq_ok.mp h
  refine planDiff_eq_ok.mpr ⟨plan_apply_indexable h, hdes, ?_⟩
  simp only [objectAt_plan_apply h, operationAt_settled, driftAt_settled, List.filterMap_none]
  have hdrift : plan.drift = (planKeys current desired).filterMap fun k =>
      driftAt (objectAt current k) (objectAt desired k) := by
    rw [hplan]
  rw [hdrift, filterMap_planKeys_congr hcur.keys hdes.keys (plan_apply_keys_nodup h) hdes.keys]
  intro k hk
  obtain ⟨d, hd⟩ := Option.isSome_iff_exists.mp hk
  obtain ⟨_, w, -, hw, -⟩ := driftAt_eq_some.mp hd
  simp [mem_planKeys, hw]

theorem planDiff_perm {current' desired' : List Object} (hc : current.Perm current')
    (hd : desired.Perm desired') : planDiff current' desired' = .ok plan := by
  obtain ⟨hcur, hdes, hplan⟩ := planDiff_eq_ok.mp h
  have hcur' := hcur.perm hc
  have hdes' := hdes.perm hd
  refine planDiff_eq_ok.mpr ⟨hcur', hdes', ?_⟩
  have hkeys : ∀ k, k ∈ planKeys current desired ↔ k ∈ planKeys current' desired' := by
    intro k
    rw [mem_planKeys, mem_planKeys, objectAt_perm hc hcur.keys, objectAt_perm hd hdes.keys]
  simp only [← objectAt_perm hc hcur.keys, ← objectAt_perm hd hdes.keys]
  rw [hplan, filterMap_planKeys_congr hcur.keys hdes.keys hcur'.keys hdes'.keys fun k _ => hkeys k,
    filterMap_planKeys_congr hcur.keys hdes.keys hcur'.keys hdes'.keys fun k _ => hkeys k]

end

/-- A plan brings every desired object into being, removes what is owned and no longer desired,
leaves the rest alone, and is found complete when planned again. -/
theorem planDiff_converges {current desired : List Object} {plan : Plan}
    (h : planDiff current desired = .ok plan) :
    -- a desired object without drift is there, owned and as desired
    (∀ w ∈ desired, (∀ d ∈ plan.drift, d.key ≠ w.key) →
      ∃ o ∈ plan.apply current, o.key = w.key ∧ o.owned = true ∧ o.value = w.value) ∧
    -- nothing owned is left that is not desired
    (∀ o ∈ plan.apply current, o.owned = true → ∃ w ∈ desired, w.key = o.key) ∧
    (∀ c ∈ current, c.owned = true → (∀ w ∈ desired, w.key ≠ c.key) →
      ∀ o ∈ plan.apply current, o.key ≠ c.key) ∧
    -- an unowned object stays as it is unless it is adopted, and none comes into being
    (∀ c ∈ current, c.owned = false →
      (∀ w ∈ desired, w.key = c.key → ¬ (w.allowAdopt = true ∧ w.value = c.value)) →
      c ∈ plan.apply current) ∧
    (∀ o ∈ plan.apply current, o.owned = false → o ∈ current) ∧
    -- drift is the collisions that remain, each of them blocking
    (∀ d, d ∈ plan.drift ↔ ∃ w ∈ desired, ∃ c ∈ current, c.key = w.key ∧ c.owned = false ∧
      ¬ (w.allowAdopt = true ∧ c.value = w.value) ∧ d = ⟨w.kind, w.id, true,
        "desired tuple collides with an object lacking ownership evidence"⟩) ∧
    (∀ d, d ∈ plan.drift ↔ ∃ w ∈ desired, ∃ o ∈ plan.apply current, o.key = w.key ∧
      o.owned = false ∧ d = ⟨w.kind, w.id, true,
        "desired tuple collides with an object lacking ownership evidence"⟩) ∧
    planDiff (plan.apply current) desired = .ok ⟨[], plan.drift⟩ ∧
    ∀ current' desired', current.Perm current' → desired.Perm desired' →
      planDiff current' desired' = .ok plan := by
  refine ⟨fun w => desired_present h, fun o => owned_desired h, ?_, fun c => unowned_kept h,
    fun o ho hown => (unowned_old h ho hown).1, fun d => drift_iff_current h, ?_,
    planDiff_again h, fun _ _ => planDiff_perm h⟩
  · intro c hc hown hnot o ho hkey
    obtain ⟨hcur, hdes, -⟩ := planDiff_eq_ok.mp h
    have hnone : objectAt desired c.key = none := objectAt_eq_none.mpr hnot
    rw [mem_plan_apply h, hkey, hnone, (objectAt_eq_some hcur.keys).mpr ⟨hc, rfl⟩,
      settled_owned hown] at ho
    cases ho
  · intro d
    rw [drift_iff_current h]
    constructor
    · rintro ⟨w, hw, c, hc, hkey, hown, hna, rfl⟩
      refine ⟨w, hw, c, unowned_kept h hc hown ?_, hkey, hown, rfl⟩
      rintro w' hw' hkey' ⟨ha, hv⟩
      have heq : w' = w :=
        List.inj_on_of_nodup_map (planDiff_eq_ok.mp h).2.1.keys hw' hw (hkey'.trans hkey)
      exact hna ⟨heq ▸ ha, (heq ▸ hv).symm⟩
    · rintro ⟨w, hw, o, ho, hkey, hown, rfl⟩
      obtain ⟨hmem, hna⟩ := unowned_old h ho hown
      exact ⟨w, hw, o, hmem, hkey, hown, hna w hw hkey.symm, rfl⟩

/-- One object each that is added, updated, deleted, adopted and in collision. -/
theorem planDiff_converges_mixed :
    ∃ plan, planDiff
        [⟨.route, "a", "via wg0", true, "protocol 186", false⟩,
          ⟨.route, "b", "via wg0", true, "protocol 186", false⟩,
          ⟨.link, "wg1", "wireguard", false, "", false⟩,
          ⟨.rule, "31000", "mark 1", false, "", false⟩]
        [⟨.rule, "31000", "mark 1", true, "priority range", false⟩,
          ⟨.link, "wg1", "wireguard", true, "adopted", true⟩,
          ⟨.route, "b", "via wg1", true, "protocol 186", false⟩,
          ⟨.address, "wg1", "10.0.0.1/24", true, "alias", false⟩] = .ok plan ∧
      plan.operations.map (·.action) = [.add, .update, .delete, .update] ∧
      plan.drift.map (·.id) = ["31000"] ∧
      planDiff (plan.apply
          [⟨.route, "a", "via wg0", true, "protocol 186", false⟩,
            ⟨.route, "b", "via wg0", true, "protocol 186", false⟩,
            ⟨.link, "wg1", "wireguard", false, "", false⟩,
            ⟨.rule, "31000", "mark 1", false, "", false⟩])
        [⟨.rule, "31000", "mark 1", true, "priority range", false⟩,
          ⟨.link, "wg1", "wireguard", true, "adopted", true⟩,
          ⟨.route, "b", "via wg1", true, "protocol 186", false⟩,
          ⟨.address, "wg1", "10.0.0.1/24", true, "alias", false⟩] = .ok ⟨[], plan.drift⟩ := by
  refine ⟨_, rfl, by decide +kernel, by decide +kernel, ?_⟩
  exact (planDiff_converges rfl).2.2.2.2.2.2.2.1

end SakhtarWg.Kernel
