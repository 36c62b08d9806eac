import SakhtarWg.ConfigValid
import SakhtarWg.DryRun
import SakhtarWg.Plumbing

/-!
# What an empty plan says

The survey of a tunnel as a function of the host. Where the plan of the dry run has
neither operations nor drift, every tunnel has an owned link whose device, address,
routes and rule carry the texts the plan compares.
-/

namespace SakhtarWg
open Text Netip Fallible Kernel Program

variable {x : Library} {h : Host} {t u : Tunnel} {l : Link} {c : Config}

/-! ## Surveys -/

section
variable (x : Library)

theorem lookupLink_reads (name : String) : (lookupLink name).Reads := by
  intro h
  rw [lookupLink_eval]

theorem verifyAdoptionCandidate_reads (l : Link) (t : Tunnel) :
    (verifyAdoptionCandidate x l t).Reads := by
  unfold verifyAdoptionCandidate
  refine .bind (.ofExcept _) fun _ => .bind (.ofExcept _) fun _ => .bind (.check fun _ => rfl)
    fun _ => .bind (.ofExcept _) fun _ => .bind (.check fun _ => rfl) fun _ =>
    .bind (.ofExcept _) fun _ => .bind (.check fun _ => rfl) fun _ => .bind (.ofExcept _) fun _ =>
    .bind (.check fun _ => rfl) fun _ => .bind (deviceMatchesTunnel_reads x _ t) fun _ =>
    .ofExcept _

theorem configMatches_reads (l : Link) (t : Tunnel) : (configMatches x l t).Reads := by
  unfold configMatches
  split
  · exact .bind (.check fun _ => rfl) fun _ => deviceMatchesTunnel_reads x _ t
  · exact .pure _

theorem adoptable_reads (l : Link) (t : Tunnel) : (adoptable x l t).Reads := by
  unfold adoptable
  split
  · refine .bind (.attempt (verifyAdoptionCandidate_reads x l t)) fun r => ?_
    cases r with
    | ok _ => exact .pure _
    | error _ => exact .pure _
  · exact .pure _

theorem surveyTunnel_reads (t : Tunnel) : (surveyTunnel x t).Reads := by
  unfold surveyTunnel
  refine .bind (lookupLink_reads t.name) fun found => ?_
  cases found with
  | none => exact .pure _
  | some l =>
    exact .bind (configMatches_reads x l t) fun _ => .bind (adoptable_reads x l t) fun _ =>
      .bind (.check fun _ => rfl) fun _ => .bind (.check fun _ => rfl) fun _ => .pure _

theorem buildKernelPlan_reads (c : Config) : (buildKernelPlan x c).Reads := by
  unfold buildKernelPlan
  exact .bind (.mapM (surveyTunnel_reads x) _) fun _ => .bind (.check fun _ => rfl) fun _ =>
    .bind (.check fun _ => rfl) fun _ => .bind (.ofExcept _) fun _ => .pure _

end

/-- The IPv4 routes on a link, whatever their table. -/
def routesOn (l : Link) : List Route :=
  (l.attrs.listed.filter fun e => Family.v4.admits e.dst).map fun e => ⟨e, l.index⟩

theorem routeList_link (hl : h.links.find t.name = some l) (table : ℤ) :
    h.routeList .v4 ⟨some l.index, table, none⟩ =
      (routesOn l).filter fun r => table = 0 || table = r.table := by
  rw [routeList_on hl, routesOn, List.filter_map, List.filter_filter]
  congr 1
  apply List.filter_congr
  intro e _
  exact Bool.and_comm _ _

/-- The IPv4 addresses on a link. -/
def addressesOn (l : Link) : List Prefix := l.attrs.addrs.filter Family.v4.admits

/-- Only an unowned link is adopted. -/
theorem adoptable_owned (hown : linkOwned x l t = true) : (adoptable x l t).ask h = .ok false := by
  unfold adoptable
  simp only [hown, Bool.not_true, Bool.false_and, Bool.false_eq_true, if_false]
  rfl

/-- A survey finds no link, or one with what is on it. -/
theorem surveyTunnel_eq_ok {s : Survey} (hs : (surveyTunnel x t).ask h = .ok s) :
    (∃ adopt, s.desired = desiredLinkObject t adopt :: desiredAddressObject t ::
      desiredRouteObjects t) ∧
    (h.links.find t.name = none ∧ s.current = [] ∨ ∃ l same adopt,
      h.links.find t.name = some l ∧ (configMatches x l t).ask h = .ok same ∧
        (adoptable x l t).ask h = .ok adopt ∧
        s = surveyLink x l t same adopt (addressesOn l) (routesOn l)) := by
  unfold surveyTunnel at hs
  have hlook : (lookupLink t.name).ask h = .ok (h.links.find t.name) :=
    congrArg Prod.fst (lookupLink_eval h t.name)
  rw [Net.ask_bind (lookupLink_reads t.name), hlook] at hs
  cases hl : h.links.find t.name with
  | none =>
    rw [hl] at hs
    cases hs
    exact ⟨⟨false, rfl⟩, .inl ⟨rfl, rfl⟩⟩
  | some l =>
    rw [hl] at hs
    change Net.ask (configMatches x l t >>= _) h = .ok s at hs
    rw [Net.ask_bind (configMatches_reads x l t), bind_eq_ok] at hs
    obtain ⟨same, hsame, hs⟩ := hs
    rw [Net.ask_bind (adoptable_reads x l t), bind_eq_ok] at hs
    obtain ⟨adopt, hadopt, hs⟩ := hs
    rw [Net.ask, Net.eval_bind_ok (Net.check_eval (addrList_call hl .v4))] at hs
    unfold listAllRoutesOnLink at hs
    rw [Net.eval_bind_ok (Net.check_eval (by rfl :
      h.call (.routeList .v4 ⟨some l.index, 0, none⟩) = (.ok _, h))), routeList_link hl] at hs
    simp only [decide_true, Bool.true_or, List.filter_true] at hs
    cases hs
    exact ⟨⟨adopt, rfl⟩, .inr ⟨l, same, adopt, rfl, hsame, hadopt, rfl⟩⟩

/-! ## Empty plans -/

theorem mergeDrift_eq_nil {drift observed : List Drift} :
    mergeDrift drift observed = [] ↔ drift = [] ∧ observed = [] := by
  induction observed generalizing drift with
  | nil => simp [mergeDrift]
  | cons d observed ih =>
    have hstep : mergeDrift drift (d :: observed) = mergeDrift
      (if d.key ∈ drift.map Drift.key then drift else drift ++ [d]) observed := rfl
    rw [hstep, ih]
    cases drift with
    | nil => simp
    | cons e drift => split <;> simp

theorem sortDrift_eq_nil {drift : List Drift} : sortDrift drift = [] ↔ drift = [] := by
  unfold sortDrift
  rw [← List.length_eq_zero_iff, List.length_insertionSort, List.length_eq_zero_iff]

/-- What the dry run went through when its plan is empty. -/
structure EmptyPlan (x : Library) (c : Config) (h : Host) (surveys : List Survey) : Prop where
  surveyed : c.tunnels.mapM (fun t => (surveyTunnel x t).ask h) = .ok surveys
  diff : planDiff (currentObjects c surveys h.rules) (desiredObjects c surveys) = .ok ⟨[], []⟩
  drift : observedDrift c surveys h.links.items = []

theorem buildKernelPlan_empty : (buildKernelPlan x c).ask h = .ok ⟨[], []⟩ ↔
    ∃ surveys, EmptyPlan x c h surveys := by
  unfold buildKernelPlan
  rw [Net.ask_bind (.mapM (surveyTunnel_reads x) _), Net.ask_mapM (surveyTunnel_reads x), bind_eq_ok]
  have hrest : ∀ surveys, Net.ask (do
      let rules ← Net.check .ruleList fun e => "list policy rules for plan: " ++ e
      let links ← Net.check .linkList fun e => "list links for stale ownership markers: " ++ e
      let plan ← Net.ofExcept (planDiff (currentObjects c surveys rules) (desiredObjects c surveys))
      return { plan with drift := sortDrift (mergeDrift plan.drift
        (observedDrift c surveys links)) }) h = .ok ⟨[], []⟩ ↔
      planDiff (currentObjects c surveys h.rules) (desiredObjects c surveys) = .ok ⟨[], []⟩ ∧
        observedDrift c surveys h.links.items = [] := by
    intro surveys
    rw [Net.ask, Net.eval_bind_ok (Net.check_eval (by rfl : h.call .ruleList = (.ok h.rules, h))),
      Net.eval_bind_ok (Net.check_eval (by rfl : h.call .linkList = (.ok h.links.items, h)))]
    change Net.ask (Net.ofExcept _ >>= _) h = _ ↔ _
    rw [Net.ask_bind (.ofExcept _), bind_eq_ok]
    constructor
    · rintro ⟨⟨ops, drift⟩, hdiff, hplan⟩
      obtain ⟨rfl, hdrift⟩ := Plan.mk.inj (Except.ok.inj hplan)
      obtain ⟨rfl, hobserved⟩ := mergeDrift_eq_nil.mp (sortDrift_eq_nil.mp hdrift)
      exact ⟨hdiff, hobserved⟩
    · rintro ⟨hdiff, hobserved⟩
      refine ⟨_, hdiff, ?_⟩
      rw [hobserved]
      rfl
  simp only [hrest]
  constructor
  · rintro ⟨surveys, hsurveys, hdiff, hdrift⟩
    exact ⟨surveys, hsurveys, hdiff, hdrift⟩
  · rintro ⟨surveys, hsurveys, hdiff, hdrift⟩
    exact ⟨surveys, hsurveys, hdiff, hdrift⟩

/-! ## Objects by their keys -/

theorem slash_not_mem_name {name : String} (hname : interfaceNameOk name = true) :
    '/' ∉ name.toList :=
  fun hmem => nameChar_ne (interfaceNameOk_chars hname _ hmem) (by decide) rfl

/-- A planned route is known by its table, its link and its destination. -/
theorem plannedRouteID_inj {n m : String} (hn : interfaceNameOk n = true)
    (hm : interfaceNameOk m = true) {i j : ℤ} {d e : String}
    (he : plannedRouteID n i d = plannedRouteID m j e) : n = m ∧ i = j ∧ d = e := by
  have htext : ∀ (n : String) (i : ℤ) (d : String), (plannedRouteID n i d).toList =
      "table=".toList ++ ((toString i).toList ++ '/' :: ("link=".toList ++ (n.toList ++
        '/' :: ("dst=".toList ++ d.toList)))) := by
    intro n i d
    simp [plannedRouteID]
  have hlist := congrArg String.toList he
  rw [htext, htext, List.append_cancel_left_eq] at hlist
  obtain ⟨htable, hlist⟩ := append_sep_inj (slash_not_mem_int _) (slash_not_mem_int _) hlist
  rw [List.append_cancel_left_eq] at hlist
  obtain ⟨hname, hlist⟩ := append_sep_inj (slash_not_mem_name hn) (slash_not_mem_name hm) hlist
  rw [List.append_cancel_left_eq] at hlist
  exact ⟨String.toList_inj.mp hname, toString_int_injective (String.toList_inj.mp htable),
    String.toList_inj.mp hlist⟩

/-- The value of a rule tells what it selects. -/
theorem plannedRuleValue_inj {r s : Rule} (he : plannedRuleValue r = plannedRuleValue s) :
    r.mark = s.mark ∧ ruleMask r.mask = ruleMask s.mask ∧ r.table = s.table ∧
      r.protocol = s.protocol := by
  have hhex : ∀ (c : Char), (∀ d < 16, c ≠ d.digitChar) → c ≠ 'x' → ∀ n, c ∉ (hex n).toList := by
    intro c hc hx n hmem
    rw [hex_toList, List.mem_cons, List.mem_cons] at hmem
    rcases hmem with h0 | hx' | hmem
    · exact hc 0 (by decide) h0
    · exact hx hx'
    · exact not_mem_toDigits (by decide) (by decide) c hc hmem
  have htext : ∀ r : Rule, (plannedRuleValue r).toList = "mark=".toList ++
      ((hex r.mark.toNat).toList ++ '/' :: ((hex (ruleMask r.mask).toNat).toList ++
        ',' :: ("table=".toList ++ ((toString r.table).toList ++
          ',' :: ("protocol=".toList ++ (toString r.protocol).toList))))) := by
    intro r
    simp [plannedRuleValue]
  have hlist := congrArg String.toList he
  rw [htext, htext, List.append_cancel_left_eq] at hlist
  obtain ⟨hmark, hlist⟩ := append_sep_inj (hhex _ (by decide) (by decide) _)
    (hhex _ (by decide) (by decide) _) hlist
  obtain ⟨hmask, hlist⟩ := append_sep_inj (hhex _ (by decide) (by decide) _)
    (hhex _ (by decide) (by decide) _) hlist
  rw [List.append_cancel_left_eq] at hlist
  obtain ⟨htable, hlist⟩ := append_sep_inj (not_mem_toString_int (by decide) (by decide) _)
    (not_mem_toString_int (by decide) (by decide) _) hlist
  rw [List.append_cancel_left_eq] at hlist
  exact ⟨BitVec.eq_of_toNat_eq (hex_injective (String.toList_inj.mp hmark)),
    BitVec.eq_of_toNat_eq (hex_injective (String.toList_inj.mp hmask)),
    toString_int_injective (String.toList_inj.mp htable),
    toString_nat_injective (String.toList_inj.mp hlist)⟩

/-! ## What is observed and what is desired -/

/-- The objects a survey reports of a tunnel with a link. -/
inductive Observed (x : Library) (h : Host) (t : Tunnel) (l : Link) : Object → Prop
  | link {same adopt : Bool} (hsame : (configMatches x l t).ask h = .ok same)
      (hadopt : (adoptable x l t).ask h = .ok adopt) : Observed x h t l (linkObject x l t same adopt)
  | address {a : Prefix} (ha : a ∈ addressesOn l) : Observed x h t l (addressObject x l t a)
  | route {r : Route} (hr : r ∈ routesOn l) (hplanned : plannedRoute x l t r = true) :
      Observed x h t l (routeObject x l t r)

/-- The routes a tunnel asks for, by table and destination. -/
def desiredDestinations (t : Tunnel) : List (ℤ × String) :=
  (t.table, "0.0.0.0/0") :: t.routes.map fun r => (mainTable, canonicalCIDR r)

theorem desiredRouteObjects_eq (t : Tunnel) : desiredRouteObjects t =
    (desiredDestinations t).map fun d => desiredRouteObject t.name d.1 d.2 := by
  simp [desiredRouteObjects, desiredDestinations, Function.comp_def]

/-- The objects that are desired of a tunnel. -/
inductive Wanted (t : Tunnel) : Object → Prop
  | link (adopt : Bool) : Wanted t (desiredLinkObject t adopt)
  | address : Wanted t (desiredAddressObject t)
  | route {d : ℤ × String} (hd : d ∈ desiredDestinations t) :
      Wanted t (desiredRouteObject t.name d.1 d.2)
  | rule : Wanted t (desiredRuleObject t)

section
variable {surveys : List Survey}
  (hs : c.tunnels.mapM (fun t => (surveyTunnel x t).ask h) = .ok surveys)
include hs

theorem mem_currentObjects {o : Object} (ho : o ∈ currentObjects c surveys h.rules) :
    (∃ t ∈ c.tunnels, ∃ l, h.links.find t.name = some l ∧ Observed x h t l o) ∨
      ∃ t ∈ c.tunnels, ∃ r ∈ h.rules, r.priority = t.rulePriority ∧ o = ruleObject r := by
  rcases List.mem_append.mp ho with ho | ho
  · obtain ⟨s, hmem, ho⟩ := List.mem_flatMap.mp ho
    obtain ⟨t, ht, hask⟩ := mem_of_mapM_ok hs s hmem
    rcases (surveyTunnel_eq_ok hask).2 with ⟨-, hnil⟩ | ⟨l, same, adopt, hl, hsame, hadopt, rfl⟩
    · rw [hnil] at ho
      cases ho
    · refine .inl ⟨t, ht, l, hl, ?_⟩
      simp only [surveyLink, List.cons_append, List.mem_cons, List.mem_append, List.mem_map,
        List.mem_filter] at ho
      rcases ho with rfl | ⟨a, ha, rfl⟩ | ⟨r, ⟨hr, hplanned⟩, rfl⟩
      · exact .link hsame hadopt
      · exact .address ha
      · exact .route hr hplanned
  · obtain ⟨t, ht, ho⟩ := List.mem_flatMap.mp ho
    obtain ⟨r, hr, rfl⟩ := List.mem_map.mp ho
    obtain ⟨hr, hp⟩ := List.mem_filter.mp hr
    exact .inr ⟨t, ht, r, hr, of_decide_eq_true hp, rfl⟩

theorem mem_desiredObjects {o : Object} (ho : o ∈ desiredObjects c surveys) :
    ∃ t ∈ c.tunnels, Wanted t o := by
  rcases List.mem_append.mp ho with ho | ho
  · obtain ⟨s, hmem, ho⟩ := List.mem_flatMap.mp ho
    obtain ⟨t, ht, hask⟩ := mem_of_mapM_ok hs s hmem
    obtain ⟨adopt, hdes⟩ := (surveyTunnel_eq_ok hask).1
    rw [hdes, desiredRouteObjects_eq] at ho
    simp only [List.mem_cons, List.mem_map] at ho
    refine ⟨t, ht, ?_⟩
    rcases ho with rfl | rfl | ⟨d, hd, rfl⟩
    · exact .link adopt
    · exact .address
    · exact .route hd
  · obtain ⟨t, ht, rfl⟩ := List.mem_map.mp ho
    exact ⟨t, ht, .rule⟩

/-- Everything a tunnel asks for is desired; the link under one of the two permissions. -/
theorem wanted_mem (ht : t ∈ c.tunnels) :
    (∃ adopt, desiredLinkObject t adopt ∈ desiredObjects c surveys) ∧
      desiredAddressObject t ∈ desiredObjects c surveys ∧
      (∀ d ∈ desiredDestinations t,
        desiredRouteObject t.name d.1 d.2 ∈ desiredObjects c surveys) ∧
      desiredRuleObject t ∈ desiredObjects c surveys := by
  obtain ⟨s, hmem, hask⟩ := exists_of_mapM_ok hs t ht
  obtain ⟨adopt, hdes⟩ := (surveyTunnel_eq_ok hask).1
  have hin : ∀ o ∈ s.desired, o ∈ desiredObjects c surveys := fun o ho =>
    List.mem_append_left _ (List.mem_flatMap.mpr ⟨s, hmem, ho⟩)
  rw [hdes] at hin
  refine ⟨⟨adopt, hin _ (by simp)⟩, hin _ (by simp), fun d hd => hin _ ?_, ?_⟩
  · rw [desiredRouteObjects_eq]
    exact List.mem_cons_of_mem _ (List.mem_cons_of_mem _ (List.mem_map_of_mem hd))
  · exact List.mem_append_right _ (List.mem_map_of_mem ht)

end

/-! ## What every tunnel has -/

/-- The link of a tunnel as far as an empty plan vouches for it. -/
structure Matched (x : Library) (h : Host) (t : Tunnel) (l : Link) : Prop where
  found : h.links.find t.name = some l
  kind : l.attrs.kind = "wireguard"
  mode : ∃ mode, ownedLinkMode x l t = .ok mode
  device : (deviceMatchesTunnel x l.attrs.device t).ask h = .ok true
  address : ∃ a, addressesOn l = [a] ∧ addressKey a = canonicalAddress t.address
  owned : ∀ r ∈ routesOn l, plannedRoute x l t r = true →
    r.protocol = routeProtocol ∧ (r.table, routeDestination r) ∈ desiredDestinations t
  present : ∀ d ∈ desiredDestinations t, ∃ r ∈ routesOn l,
    r.protocol = routeProtocol ∧ (r.table, routeDestination r) = d
  distinct : (desiredDestinations t).Nodup
  rule : ∃ r, h.rules.filter (fun r => r.priority = t.rulePriority) = [r] ∧
    ruleEqual r (markRule t) = true

theorem linkValue_ne_drifted (kind : String) (mtu : ℤ) : "type=" ++ kind ++ ",mtu=" ++
    toString mtu ++ ",configuration=drifted" ≠ linkValue t := by
  intro he
  have hlist := congrArg String.toList he
  unfold linkValue at hlist
  simp only [String.toList_append] at hlist
  have hlen : ",configuration=drifted".toList.length = ",configuration=desired".toList.length := by
    decide
  have := List.append_inj_right' hlist hlen
  revert this
  decide

/-- Elements under one key that is used once. -/
theorem eq_singleton_of_key {α γ : Type} (key : α → γ) {l : List α} {a : α}
    (hn : (l.map key).Nodup) (ha : a ∈ l) (hall : ∀ b ∈ l, key b = key a) : l = [a] := by
  match l, ha with
  | [b], ha => rw [List.mem_singleton.mp ha]
  | b :: b' :: rest, _ =>
    have hb : key b = key b' := (hall b (by simp)).trans (hall b' (by simp)).symm
    simp [hb] at hn

theorem sublist_flatMap_of_mem {α γ : Type} {f : α → List γ} {l : List α} {a : α} (ha : a ∈ l) :
    (f a).Sublist (l.flatMap f) := by
  obtain ⟨before, after, rfl⟩ := List.append_of_mem ha
  rw [List.flatMap_append, List.flatMap_cons]
  exact (List.sublist_append_left _ _).trans (List.sublist_append_right _ _)

theorem Config.Valid.eq_of_name (hc : c.Valid) (ht : t ∈ c.tunnels) (hu : u ∈ c.tunnels)
    (he : t.name = u.name) : t = u := List.inj_on_of_nodup_map hc.names ht hu he

namespace EmptyPlan

variable {surveys : List Survey}

section
variable (hp : EmptyPlan x c h surveys)
include hp

/-- A desired object is there, owned and with the desired value. -/
theorem held {w : Object} (hw : w ∈ desiredObjects c surveys) :
    ∃ o ∈ currentObjects c surveys h.rules, o.key = w.key ∧ o.owned = true ∧ o.value = w.value :=
  desired_present hp.diff hw (by simp)

/-- An owned object is desired. -/
theorem wanted {o : Object} (ho : o ∈ currentObjects c surveys h.rules) (hown : o.owned = true) :
    ∃ t ∈ c.tunnels, ∃ w, Wanted t w ∧ w.key = o.key := by
  obtain ⟨w, hw, hkey⟩ := owned_desired hp.diff (show o ∈ Plan.apply ⟨[], []⟩ _ from ho) hown
  obtain ⟨t, ht, hwant⟩ := mem_desiredObjects hp.surveyed hw
  exact ⟨t, ht, w, hwant, hkey⟩

theorem current_keys : ((currentObjects c surveys h.rules).map Object.key).Nodup :=
  (planDiff_eq_ok.mp hp.diff).1.keys

theorem desired_keys : ((desiredObjects c surveys).map Object.key).Nodup :=
  (planDiff_eq_ok.mp hp.diff).2.1.keys

/-- The survey of a tunnel reports no drift. -/
theorem survey (ht : t ∈ c.tunnels) (hl : h.links.find t.name = some l) :
    ∃ same adopt, surveyLink x l t same adopt (addressesOn l) (routesOn l) ∈ surveys ∧
      (surveyLink x l t same adopt (addressesOn l) (routesOn l)).drift = [] := by
  obtain ⟨s, hmem, hask⟩ := exists_of_mapM_ok hp.surveyed t ht
  have hnone := (List.append_eq_nil_iff.mp hp.drift).1
  rcases (surveyTunnel_eq_ok hask).2 with ⟨hnil, -⟩ | ⟨l', same, adopt, hl', -, -, rfl⟩
  · rw [hl] at hnil
    cases hnil
  · rw [hl] at hl'
    cases hl'
    exact ⟨same, adopt, hmem, List.flatMap_eq_nil_iff.mp hnone _ hmem⟩

theorem rule (ht : t ∈ c.tunnels) :
    ∃ r, h.rules.filter (fun r => r.priority = t.rulePriority) = [r] ∧
      ruleEqual r (markRule t) = true := by
  obtain ⟨o, ho, hkey, hown, hvalue⟩ := hp.held (wanted_mem hp.surveyed ht).2.2.2
  obtain ⟨hkind, hid⟩ := Object.key_inj hkey
  rcases mem_currentObjects hp.surveyed ho with ⟨u, hu, l, hl, hobs⟩ | ⟨u, hu, r, hr, -, rfl⟩
  · cases hobs <;> cases hkind
  · have hpriority : r.priority = t.rulePriority :=
      toString_int_injective ((String.append_right_inj _).mp hid)
    have hmem : r ∈ h.rules.filter fun r => r.priority = t.rulePriority :=
      List.mem_filter.mpr ⟨hr, decide_eq_true hpriority⟩
    obtain ⟨hmark, hmask, htable, hproto⟩ := plannedRuleValue_inj hvalue
    refine ⟨r, eq_singleton_of_key (fun r => (ruleObject r).key) ?_ hmem ?_, ?_⟩
    · have hsub := (sublist_flatMap_of_mem (f := ruleObjects h.rules) ht).trans
        (List.sublist_append_right (surveys.flatMap (·.current)) _)
      have := hp.current_keys.sublist (hsub.map Object.key)
      rwa [ruleObjects, List.map_map] at this
    · intro s hs
      have hs := of_decide_eq_true (List.mem_filter.mp hs).2
      show "rule" ++ ":" ++ ruleID s.priority = "rule" ++ ":" ++ ruleID r.priority
      rw [hs, hpriority]
    · simp [ruleEqual, hmark, hmask, htable, hproto, hpriority, markRule]

end

section
variable (hp : EmptyPlan x c h surveys) (hc : c.Valid) (ht : t ∈ c.tunnels)
include hp hc ht

theorem link : ∃ l, h.links.find t.name = some l ∧ linkOwned x l t = true ∧
    (configMatches x l t).ask h = .ok true := by
  obtain ⟨adopt, hw⟩ := (wanted_mem hp.surveyed ht).1
  obtain ⟨o, ho, hkey, hown, hvalue⟩ := hp.held hw
  obtain ⟨hkind, hid⟩ := Object.key_inj hkey
  rcases mem_currentObjects hp.surveyed ho with ⟨u, hu, l, hl, hobs⟩ | ⟨u, hu, r, -, -, rfl⟩
  · cases hobs with
    | link hsame hadopt =>
      cases hc.eq_of_name hu ht hid
      have hlink : linkOwned x l t = true := hown
      rw [adoptable_owned hlink] at hadopt
      cases hadopt
      refine ⟨l, hl, hlink, ?_⟩
      rw [hsame]
      congr 1
      by_contra hdiff
      rw [Bool.not_eq_true] at hdiff
      simp only [linkObject, hdiff, Bool.and_false, Bool.or_false, Bool.false_eq_true, if_false,
        desiredLinkObject] at hvalue
      exact linkValue_ne_drifted _ _ hvalue
    | address ha => cases hkind
    | route hr hplanned => cases hkind
  · cases hkind

variable (hl : h.links.find t.name = some l) (hown : linkOwned x l t = true)
include hl hown

omit hc in
/-- On an owned link every address and every planned route is owned. -/
theorem all_owned : (∀ a ∈ addressesOn l, addressOwned x l t a = true) ∧
    ∀ r ∈ routesOn l, plannedRoute x l t r = true → routeOwned x l t r = true := by
  obtain ⟨same, adopt, -, hdrift⟩ := hp.survey ht hl
  simp only [surveyLink, hown, if_true, List.append_eq_nil_iff, List.map_eq_nil_iff,
    List.filter_eq_nil_iff, List.mem_filter, Bool.not_eq_true', Bool.not_eq_false, and_imp] at hdrift
  exact hdrift

theorem address : ∃ a, addressesOn l = [a] ∧ addressKey a = canonicalAddress t.address := by
  have hall : ∀ a ∈ addressesOn l, addressKey a = canonicalAddress t.address := by
    intro a ha
    have := (hp.all_owned ht hl hown).1 a ha
    simp only [addressOwned, Bool.and_eq_true, decide_eq_true_eq] at this
    exact this.2
  obtain ⟨same, adopt, hmem, -⟩ := hp.survey ht hl
  -- the surveyed addresses are objects under different keys
  have hkeys : ((addressesOn l).map fun a => (addressObject x l t a).key).Nodup := by
    have hsub := (sublist_flatMap_of_mem (f := fun s : Survey => s.current) hmem).trans
      (List.sublist_append_left _ (c.tunnels.flatMap (ruleObjects h.rules)))
    have hnodup := hp.current_keys.sublist (hsub.map Object.key)
    simp only [surveyLink, List.cons_append, List.map_cons, List.map_append, List.map_map,
      List.nodup_cons, List.nodup_append] at hnodup
    exact hnodup.2.1
  obtain ⟨o, ho, hkey, -, -⟩ := hp.held (wanted_mem hp.surveyed ht).2.1
  obtain ⟨hkind, hid⟩ := Object.key_inj hkey
  rcases mem_currentObjects hp.surveyed ho with ⟨u, hu, l', hl', hobs⟩ | ⟨u, hu, r, -, -, rfl⟩
  · cases hobs with
    | link => cases hkind
    | @address a ha =>
      have hname : u.name = t.name := by
        have hlist := congrArg String.toList hid
        simp only [addressObject, desiredAddressObject, String.toList_append] at hlist
        rw [List.append_assoc, List.append_assoc] at hlist
        exact String.toList_inj.mp (append_sep_inj (slash_not_mem_name (hc.tunnel u hu).name)
          (slash_not_mem_name (hc.tunnel t ht).name) hlist).1
      cases hc.eq_of_name hu ht hname
      rw [hl] at hl'
      cases hl'
      refine ⟨a, eq_singleton_of_key _ hkeys ha fun b hb => ?_, hall a ha⟩
      simp only [addressObject, Object.key, hall a ha, hall b hb]
    | route => cases hkind
  · cases hkind

theorem owned_route {r : Route} (hr : r ∈ routesOn l) (hplanned : plannedRoute x l t r = true) :
    r.protocol = routeProtocol ∧ (r.table, routeDestination r) ∈ desiredDestinations t := by
  have hroute := (hp.all_owned ht hl hown).2 r hr hplanned
  obtain ⟨same, adopt, hmem, -⟩ := hp.survey ht hl
  have hin : routeObject x l t r ∈ currentObjects c surveys h.rules := by
    refine List.mem_append_left _ (List.mem_flatMap.mpr ⟨_, hmem, ?_⟩)
    exact List.mem_append_right _ (List.mem_map_of_mem (List.mem_filter.mpr ⟨hr, hplanned⟩))
  obtain ⟨u, hu, w, hwant, hkey⟩ := hp.wanted hin hroute
  obtain ⟨hkind, hid⟩ := Object.key_inj hkey
  simp only [routeOwned, Bool.and_eq_true, decide_eq_true_eq] at hroute
  refine ⟨hroute.2, ?_⟩
  cases hwant with
  | link => cases hkind
  | address => cases hkind
  | rule => cases hkind
  | @route d hd =>
    obtain ⟨hname, htable, hdst⟩ := plannedRouteID_inj (hc.tunnel u hu).name (hc.tunnel t ht).name hid
    cases hc.eq_of_name hu ht hname
    rw [← htable, ← hdst]
    exact hd

omit hown in
theorem present_route {d : ℤ × String} (hd : d ∈ desiredDestinations t) :
    ∃ r ∈ routesOn l, r.protocol = routeProtocol ∧ (r.table, routeDestination r) = d := by
  obtain ⟨o, ho, hkey, howned, -⟩ := hp.held ((wanted_mem hp.surveyed ht).2.2.1 d hd)
  obtain ⟨hkind, hid⟩ := Object.key_inj hkey
  rcases mem_currentObjects hp.surveyed ho with ⟨u, hu, l', hl', hobs⟩ | ⟨u, hu, r, -, -, rfl⟩
  · cases hobs with
    | link => cases hkind
    | address => cases hkind
    | @route r hr hplanned =>
      obtain ⟨hname, htable, hdst⟩ :=
        plannedRouteID_inj (hc.tunnel u hu).name (hc.tunnel t ht).name hid
      cases hc.eq_of_name hu ht hname
      rw [hl] at hl'
      cases hl'
      simp only [routeObject, routeOwned, Bool.and_eq_true, decide_eq_true_eq] at howned
      exact ⟨r, hr, howned.2, Prod.ext htable hdst⟩
  · cases hkind

omit hc hl hown in
theorem destinations_nodup : (desiredDestinations t).Nodup := by
  obtain ⟨s, hmem, hask⟩ := exists_of_mapM_ok hp.surveyed t ht
  obtain ⟨adopt, hdes⟩ := (surveyTunnel_eq_ok hask).1
  have hsub := (sublist_flatMap_of_mem (f := fun s : Survey => s.desired) hmem).trans
    (List.sublist_append_left _ (c.tunnels.map desiredRuleObject))
  have hnodup := hp.desired_keys.sublist (hsub.map Object.key)
  simp only [hdes, List.map_cons, List.nodup_cons, desiredRouteObjects_eq, List.map_map] at hnodup
  exact hnodup.2.2.of_map

end

/-- Where the plan is empty, every tunnel has a matching link. -/
theorem matched (hp : EmptyPlan x c h surveys) (hc : c.Valid) (ht : t ∈ c.tunnels) :
    ∃ l, Matched x h t l := by
  obtain ⟨l, hl, hown, hsame⟩ := hp.link hc ht
  have hkind := hown
  simp only [linkOwned, Bool.and_eq_true, decide_eq_true_eq] at hkind
  have hdevice : (deviceMatchesTunnel x l.attrs.device t).ask h = .ok true := by
    unfold configMatches at hsame
    rw [if_pos hkind.2, Net.ask, Net.eval_bind_ok (Net.check_eval (device_call hl hkind.2))] at hsame
    exact hsame
  exact ⟨l, {
    found := hl
    kind := hkind.2
    mode := exists_ok_iff.mpr hkind.1
    device := hdevice
    address := hp.address hc ht hl hown
    owned := fun r hr hplanned => hp.owned_route hc ht hl hown hr hplanned
    present := fun d hd => hp.present_route hc ht hl hd
    distinct := hp.destinations_nodup ht
    rule := hp.rule ht }⟩

end EmptyPlan

end SakhtarWg
