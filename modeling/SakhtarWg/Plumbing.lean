import SakhtarWg.PlanConverge
import SakhtarWg.WgReads

/-!
# Route sets and rules

When the reconciler of a route set refuses, which operations it carries out otherwise, and
when it has none; the same for the policy rule of a tunnel.
-/

namespace SakhtarWg
open Text Netip Fallible Kernel Program

/-! ## Identifiers -/

theorem slash_not_mem_int (n : ℤ) : '/' ∉ (toString n).toList :=
  not_mem_toString_int (by decide) (by decide) n

theorem routeObject_key_eq {r s : Route} :
    (currentObject r).key = (desiredObject s).key ↔ routeID r = routeID s := by
  show "route" ++ ":" ++ routeID r = "route" ++ ":" ++ routeID s ↔ _
  exact String.append_right_inj _

theorem map_currentObject_key (routes : List Route) :
    (routes.map currentObject).map Object.key = (routes.map routeID).map ("route" ++ ":" ++ ·) := by
  simp only [List.map_map]
  rfl

theorem map_desiredObject_key (routes : List Route) :
    (routes.map desiredObject).map Object.key = (routes.map routeID).map ("route" ++ ":" ++ ·) := by
  simp only [List.map_map]
  rfl

theorem routeID_ne_empty (r : Route) : routeID r ≠ "" := by
  intro h
  have := congrArg String.toList h
  simp [routeID] at this

/-! ## The plan of a route set -/

/-- No route set is refused in which identifiers are unique and a desired one is not held by a
foreign route. -/
structure RouteSetOk (current desired : List Route) : Prop where
  unique : (current.map routeID).Nodup
  distinct : (desired.map routeID).Nodup
  free : ∀ r ∈ current, routeID r ∈ desired.map routeID → r.protocol = routeProtocol

theorem noteRoutes_eq_ok {name : String} {routes out : List Route} :
    routes.foldlM (noteRoute name) [] = .ok out ↔ out = routes ∧ (routes.map routeID).Nodup := by
  have hstep : ∀ seen r out, noteRoute name seen r = .ok out ↔
      out = seen ++ [r] ∧ (∀ s ∈ seen, routeID s ≠ routeID r) ∧ True := by
    intro seen r out
    unfold noteRoute
    simp only [bind_eq_ok, require_eq_ok, pure_eq_ok, decide_eq_true_eq, List.mem_map, not_exists,
      not_and, exists_and_left, exists_const, and_true]
    constructor
    · rintro ⟨hnew, rfl⟩
      exact ⟨rfl, hnew⟩
    · rintro ⟨rfl, hnew⟩
      exact ⟨hnew, rfl⟩
  rw [foldlM_collect_iff hstep]
  refine and_congr_right fun _ => ?_
  rw [List.Nodup, List.pairwise_map]
  exact ⟨And.left, fun h => ⟨h, fun _ _ => trivial⟩⟩

section
variable {name : String} {current desired : List Route} {plan : Plan}

theorem indexable_current : Indexable false (current.map currentObject) ↔
    (current.map routeID).Nodup := by
  have hkeys : ((current.map currentObject).map Object.key).Nodup ↔ (current.map routeID).Nodup := by
    rw [map_currentObject_key]
    exact List.nodup_map_iff fun a b h => (String.append_right_inj _).mp h
  constructor
  · intro h
    exact hkeys.mp h.keys
  · intro h
    refine ⟨fun o ho => ?_, (by simp), hkeys.mpr h⟩
    obtain ⟨r, -, rfl⟩ := List.mem_map.mp ho
    exact routeID_ne_empty r

theorem indexable_desired : Indexable true (desired.map desiredObject) ↔
    (desired.map routeID).Nodup := by
  have hkeys : ((desired.map desiredObject).map Object.key).Nodup ↔ (desired.map routeID).Nodup := by
    rw [map_desiredObject_key]
    exact List.nodup_map_iff fun a b h => (String.append_right_inj _).mp h
  constructor
  · intro h
    exact hkeys.mp h.keys
  · intro h
    refine ⟨fun o ho => ?_, fun _ o ho => ?_, hkeys.mpr h⟩
    · obtain ⟨r, -, rfl⟩ := List.mem_map.mp ho
      exact routeID_ne_empty r
    · obtain ⟨r, -, rfl⟩ := List.mem_map.mp ho
      show routeEvidence ≠ ""
      decide

/-- Every drift of a route plan blocks. -/
theorem hasBlockingDrift_iff (h : planDiff (current.map currentObject)
    (desired.map desiredObject) = .ok plan) :
    plan.hasBlockingDrift = false ↔ ∀ r ∈ current, routeID r ∈ desired.map routeID →
      r.protocol = routeProtocol := by
  unfold Plan.hasBlockingDrift
  rw [List.any_eq_false]
  constructor
  · intro hnone r hr hmem
    obtain ⟨w, hw, hid⟩ := List.mem_map.mp hmem
    by_contra hforeign
    refine hnone _ ((drift_iff_current h).mpr ⟨_, List.mem_map_of_mem hw, _,
      List.mem_map_of_mem hr, routeObject_key_eq.mpr hid.symm, ?_, ?_, rfl⟩) rfl
    · exact decide_eq_false hforeign
    · rintro ⟨hadopt, -⟩
      cases hadopt
  · intro hfree d hd
    obtain ⟨_, hw, _, hc, hkey, hown, -, rfl⟩ := (drift_iff_current h).mp hd
    obtain ⟨w, hmem, rfl⟩ := List.mem_map.mp hw
    obtain ⟨r, hr, rfl⟩ := List.mem_map.mp hc
    have hid := routeObject_key_eq.mp hkey
    exact absurd (hfree r hr (hid ▸ List.mem_map_of_mem hmem)) (of_decide_eq_false hown)

/-- The operation that adds a route. -/
def addOperation (r : Route) : Operation :=
  ⟨.add, .route, routeID r, "", protocolValue routeProtocol, routeEvidence⟩

/-- The operation that withdraws an owned route. -/
def deleteOperation (r : Route) : Operation :=
  ⟨.delete, .route, routeID r, protocolValue routeProtocol, "", routeEvidence⟩

/-- Routes are added and withdrawn, never changed. -/
theorem mem_routeOperations (h : planDiff (current.map currentObject)
    (desired.map desiredObject) = .ok plan) {op : Operation} : op ∈ plan.operations ↔
    (∃ r ∈ desired, routeID r ∉ current.map routeID ∧ op = addOperation r) ∨
      ∃ r ∈ current, r.protocol = routeProtocol ∧ routeID r ∉ desired.map routeID ∧
        op = deleteOperation r := by
  have hold : ∀ r : Route, (currentObject r).owned = true ↔ r.protocol = routeProtocol := by
    intro r
    exact decide_eq_true_iff
  have hdelete : ∀ r : Route, r.protocol = routeProtocol → deleteOperation r =
      ⟨.delete, .route, routeID r, (currentObject r).value, "", (currentObject r).evidence⟩ := by
    intro r hr
    simp [deleteOperation, currentObject, hr]
  rw [mem_operations_iff h]
  constructor
  · rintro (⟨_, hw, hnew, rfl⟩ | ⟨_, hc, hown, hgone, rfl⟩ | ⟨_, hc, _, hw, hkey, hop⟩)
    · obtain ⟨r, hr, rfl⟩ := List.mem_map.mp hw
      refine .inl ⟨r, hr, fun hmem => ?_, rfl⟩
      obtain ⟨s, hs, hid⟩ := List.mem_map.mp hmem
      exact hnew _ (List.mem_map_of_mem hs) (routeObject_key_eq.mpr hid)
    · obtain ⟨r, hr, rfl⟩ := List.mem_map.mp hc
      have hproto := (hold r).mp hown
      refine .inr ⟨r, hr, hproto, fun hmem => ?_, (hdelete r hproto).symm⟩
      obtain ⟨s, hs, hid⟩ := List.mem_map.mp hmem
      exact hgone _ (List.mem_map_of_mem hs) (routeObject_key_eq.mpr hid.symm).symm
    · obtain ⟨r, hr, rfl⟩ := List.mem_map.mp hc
      obtain ⟨s, hs, rfl⟩ := List.mem_map.mp hw
      rcases hop with ⟨-, hadopt, -⟩ | ⟨hown, hv, -⟩
      · cases hadopt
      · exact absurd (congrArg protocolValue ((hold r).mp hown)) hv
  · rintro (⟨r, hr, hnew, rfl⟩ | ⟨r, hr, hproto, hgone, rfl⟩)
    · refine .inl ⟨_, List.mem_map_of_mem hr, fun c hc hkey => hnew ?_, rfl⟩
      obtain ⟨s, hs, rfl⟩ := List.mem_map.mp hc
      exact routeObject_key_eq.mp hkey ▸ List.mem_map_of_mem hs
    · refine .inr (.inl ⟨_, List.mem_map_of_mem hr, (hold r).mpr hproto, fun w hw hkey => hgone ?_,
        hdelete r hproto⟩)
      obtain ⟨s, hs, rfl⟩ := List.mem_map.mp hw
      exact routeObject_key_eq.mp hkey.symm ▸ List.mem_map_of_mem hs

theorem routePlan_eq_ok : routePlan name current desired = .ok plan ↔
    planDiff (current.map currentObject) (desired.map desiredObject) = .ok plan ∧
      plan.hasBlockingDrift = false := by
  unfold routePlan
  simp only [bind_eq_ok, mapError_eq_ok]
  constructor
  · rintro ⟨p, hp, hrest⟩
    cases hd : p.drift with
    | nil =>
      rw [hd] at hrest
      cases hrest
      exact ⟨hp, by simp [Plan.hasBlockingDrift, hd]⟩
    | cons d ds =>
      rw [hd] at hrest
      simp only [bind_eq_ok, require_eq_ok, pure_eq_ok, Bool.not_eq_true'] at hrest
      obtain ⟨_, hblock, rfl⟩ := hrest
      exact ⟨hp, hblock⟩
  · rintro ⟨hp, hblock⟩
    refine ⟨plan, hp, ?_⟩
    cases hd : plan.drift with
    | nil => rfl
    | cons d ds => simp [hblock, require, bind, Except.bind, pure, Except.pure]

/-- A route set is planned unless it is refused. -/
theorem exists_routePlan : (∃ plan, (current.map routeID).Nodup ∧
    routePlan name current desired = .ok plan) ↔ RouteSetOk current desired := by
  constructor
  · rintro ⟨plan, hunique, hplan⟩
    obtain ⟨hdiff, hblock⟩ := routePlan_eq_ok.mp hplan
    exact ⟨hunique, indexable_desired.mp (planDiff_eq_ok.mp hdiff).2.1,
      (hasBlockingDrift_iff hdiff).mp hblock⟩
  · rintro ⟨hunique, hdistinct, hfree⟩
    have hdiff := planDiff_eq_ok.mpr
      ⟨indexable_current.mpr hunique, indexable_desired.mpr hdistinct, rfl⟩
    exact ⟨_, hunique, routePlan_eq_ok.mpr ⟨hdiff, (hasBlockingDrift_iff hdiff).mpr hfree⟩⟩

end

/-! ## Reconciling a route set -/

/-- The routes a set is reconciled against. -/
def routeSet (h : Host) (l : Link) (table : ℤ) (relevant : Route → Bool) : List Route :=
  (h.routeList .v4 ⟨some l.index, table, none⟩).filter relevant

section
variable {name : String} {l : Link} {table : ℤ} {desired : List Route} {relevant : Route → Bool}
  {h : Host}

theorem reconcileRouteSet_refused
    (hbad : ¬RouteSetOk (routeSet h l table relevant) desired) :
    ∃ e, (reconcileRouteSet name l table desired relevant).eval h = (.error e, h) := by
  unfold reconcileRouteSet
  rw [Net.eval_bind_ok (Net.check_eval (by rfl :
    h.call (.routeList .v4 ⟨some l.index, table, none⟩) = (.ok _, h)))]
  change ∃ e, (Net.ofExcept ((routeSet h l table relevant).foldlM (noteRoute name) []) >>= _).eval h =
    (.error e, h)
  cases hnote : (routeSet h l table relevant).foldlM (noteRoute name) [] with
  | error e => exact ⟨e, Net.eval_bind_error (ofExcept_eval h _)⟩
  | ok current =>
    obtain ⟨rfl, hunique⟩ := noteRoutes_eq_ok.mp hnote
    rw [Net.eval_bind_ok (ofExcept_eval h _)]
    cases hplan : routePlan name (routeSet h l table relevant) desired with
    | error e => exact ⟨e, Net.eval_bind_error (ofExcept_eval h _)⟩
    | ok plan => exact absurd (exists_routePlan.mp ⟨plan, hunique, hplan⟩) hbad

/-- A set that is not refused is brought up to date by the operations of its plan. -/
theorem reconcileRouteSet_eval (hok : RouteSetOk (routeSet h l table relevant) desired) :
    ∃ plan, planDiff ((routeSet h l table relevant).map currentObject)
        (desired.map desiredObject) = .ok plan ∧
      (reconcileRouteSet name l table desired relevant).eval h =
        ([Action.add, .delete].forM fun phase => plan.operations.forM
          (applyRouteOperation name (routeSet h l table relevant) desired phase)).eval h := by
  obtain ⟨plan, hunique, hplan⟩ := exists_routePlan.mpr hok
  refine ⟨plan, (routePlan_eq_ok.mp hplan).1, ?_⟩
  unfold reconcileRouteSet
  rw [Net.eval_bind_ok (Net.check_eval (by rfl :
    h.call (.routeList .v4 ⟨some l.index, table, none⟩) = (.ok _, h)))]
  change (Net.ofExcept ((routeSet h l table relevant).foldlM (noteRoute name) []) >>= _).eval h = _
  rw [noteRoutes_eq_ok.mpr ⟨rfl, hunique⟩, Net.eval_bind_ok (ofExcept_eval h _), hplan,
    Net.eval_bind_ok (ofExcept_eval h _)]

theorem reconcileRouteSet_settled (hok : RouteSetOk (routeSet h l table relevant) desired)
    (hadd : ∀ r ∈ desired, routeID r ∈ (routeSet h l table relevant).map routeID)
    (hdel : ∀ r ∈ routeSet h l table relevant, r.protocol = routeProtocol →
      routeID r ∈ desired.map routeID) :
    (reconcileRouteSet name l table desired relevant).eval h = (.ok (), h) := by
  obtain ⟨plan, hdiff, heval⟩ := @reconcileRouteSet_eval name l table desired relevant h hok
  have hops : plan.operations = [] := by
    apply List.eq_nil_iff_forall_not_mem.mpr
    intro op hop
    rcases (mem_routeOperations hdiff).mp hop with ⟨r, hr, hnew, -⟩ | ⟨r, hr, hproto, hgone, -⟩
    · exact hnew (hadd r hr)
    · exact hgone (hdel r hr hproto)
  rw [heval, hops]
  rfl

end

/-! ## Rules -/

section
variable {t : Tunnel} {h : Host}

/-- Where every rule at the priority is the desired one, nothing is replaced. -/
theorem replaceRules_exact {rules : List Rule}
    (hall : ∀ r ∈ rules, r.priority = t.rulePriority → ruleEqual r (markRule t) = true)
    (exact : List Rule) : rules.foldlM (replaceRule t) exact =
      pure (exact ++ rules.filter fun r => r.priority = t.rulePriority) := by
  induction rules generalizing exact with
  | nil => simp
  | cons r rules ih =>
    have hrest := ih fun s hs => hall s (List.mem_cons_of_mem _ hs)
    rw [List.foldlM_cons]
    by_cases hp : r.priority = t.rulePriority
    · have heq := hall r (List.mem_cons_self ..) hp
      simp [replaceRule, hp, heq, hrest]
    · simp [replaceRule, hp, hrest]

theorem reconcileRule_settled {r : Rule}
    (hone : h.rules.filter (fun r => r.priority = t.rulePriority) = [r])
    (heq : ruleEqual r (markRule t) = true) : (reconcileRule t).eval h = (.ok (), h) := by
  have hall : ∀ s ∈ h.rules, s.priority = t.rulePriority → ruleEqual s (markRule t) = true := by
    intro s hs hp
    have hmem : s ∈ h.rules.filter fun r => r.priority = t.rulePriority :=
      List.mem_filter.mpr ⟨hs, decide_eq_true hp⟩
    rw [hone, List.mem_singleton] at hmem
    rw [hmem, heq]
  unfold reconcileRule
  rw [Net.eval_bind_ok (Net.check_eval (by rfl : h.call .ruleList = (.ok h.rules, h))),
    replaceRules_exact hall, hone]
  rfl

end

/-! ## Addresses and sysctls -/

section
variable {x : Library} {t : Tunnel} {h : Host} {l : Link}

theorem reconcileAddress_settled {p : Prefix} {l' : Link} (hl : h.links.find t.name = some l')
    (hindex : l'.index = l.index) (hp : parseNet t.address = some p)
    (hconflict : conflictingAddress p (l'.attrs.addrs.filter Family.v4.admits) = none)
    (hhas : containsAddress (l'.attrs.addrs.filter Family.v4.admits) p = true) :
    (reconcileAddress x l t).eval h = (.ok (), h) := by
  unfold reconcileAddress parseAddress
  rw [hp, Net.eval_bind_ok (ofExcept_eval h _), ← hindex,
    Net.eval_bind_ok (Net.check_eval (addrList_call hl .v4))]
  simp only [hconflict, hhas, if_true]
  rfl

end

end SakhtarWg
