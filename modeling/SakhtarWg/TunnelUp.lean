import SakhtarWg.Survey

/-!
# Bringing up what the plan vouches for

`tunnelUp` of a tunnel whose link an empty plan vouches for, on any host that agrees about
the tunnel: it sets the MTU, the up flag and the device of the link, may write the sysctl,
and then changes nothing more or refuses two routes of one destination.
-/

namespace SakhtarWg
open Text Netip Fallible Kernel Program

variable {x : Library} {h : Host} {t : Tunnel} {l : Link}

/-! ## Replacing a link -/

/-- The host with other attributes of one link. -/
def Host.putLink (h : Host) (index : ℕ) (i : Interface) : Host :=
  { h with links := h.links.put index i }

section
variable {n : String} (hl : h.links.find n = some l)
include hl

theorem Host.modifyLink_eq (f : Interface → Interface) :
    h.modifyLink l.index f = h.putLink l.index (f l.attrs) := by
  unfold Host.modifyLink Host.putLink
  rw [Inventory.modify_eq_put hl]

theorem Host.putLink_self : h.putLink l.index l.attrs = h := by
  unfold Host.putLink
  rw [Inventory.put_self hl]

theorem Host.find_putLink (i : Interface) :
    (h.putLink l.index i).links.find n = some ⟨l.index, l.name, i⟩ :=
  Inventory.find_put_self hl i

theorem Host.find_putLink_ne {m : String} (i : Interface) (hne : m ≠ n) :
    (h.putLink l.index i).links.find m = h.links.find m :=
  Inventory.find_put_ne hl i hne

theorem Host.linkSet_eq (f : Interface → Interface) :
    h.changed (h.linkSet l.index f) = (.ok (), h.putLink l.index (f l.attrs)) := by
  simp only [Host.linkSet, Host.linkAt_of_find hl, ← Host.modifyLink_eq hl]
  rfl

theorem configureDevice_call {cfg : WgConfig} (hkind : l.attrs.kind = "wireguard") :
    h.call (.configureDevice n cfg) =
      (.ok (), h.putLink l.index { l.attrs with device := Device.configured cfg }) := by
  have hdevice : h.deviceOf n = .ok l := by
    unfold Host.deviceOf
    rw [hl]
    exact if_pos hkind
  simp only [Host.call, Host.configureDevice, hdevice]
  exact congrArg (Prod.mk _) (Host.modifyLink_eq hl _)

end

@[simp] theorem Host.putLink_putLink (h : Host) (index : ℕ) (i j : Interface) :
    (h.putLink index i).putLink index j = h.putLink index j := by
  simp [Host.putLink]

/-! ## Route sets that hold what is desired -/

section
variable {name : String} {table : ℤ} {desired : List Route} {relevant : Route → Bool}

/-- Where every desired identifier is held by an owned route and no other route is owned, a set
is refused exactly for two routes under one identifier. -/
theorem reconcileRouteSet_held
    (hheld : ∀ d ∈ desired, ∃ r ∈ routeSet h l table relevant,
      r.protocol = routeProtocol ∧ routeID r = routeID d)
    (hdistinct : (desired.map routeID).Nodup)
    (howned : ∀ r ∈ routeSet h l table relevant, r.protocol = routeProtocol →
      routeID r ∈ desired.map routeID) :
    (((routeSet h l table relevant).map routeID).Nodup →
      (reconcileRouteSet name l table desired relevant).eval h = (.ok (), h)) ∧
    (¬((routeSet h l table relevant).map routeID).Nodup →
      ∃ e, (reconcileRouteSet name l table desired relevant).eval h = (.error e, h)) := by
  constructor
  · intro hunique
    refine reconcileRouteSet_settled ⟨hunique, hdistinct, fun r hr hid => ?_⟩ (fun d hd => ?_) howned
    · obtain ⟨d, hd, hid⟩ := List.mem_map.mp hid
      obtain ⟨s, hs, hproto, hsid⟩ := hheld d hd
      rwa [List.inj_on_of_nodup_map hunique hr hs (hid.symm.trans hsid.symm)]
    · obtain ⟨s, hs, -, hsid⟩ := hheld d hd
      exact hsid ▸ List.mem_map_of_mem hs
  · intro hdup
    exact reconcileRouteSet_refused fun hok => hdup hok.unique

end

/-- The routes of one table on a link have different destinations. -/
def DistinctRoutes (l : Link) (table : ℤ) : Prop :=
  (((routesOn l).filter fun r => r.table = table).map routeDestination).Nodup

/-- Identifiers within one table of a link differ as the destinations do. -/
theorem nodup_routeID_iff {table : ℤ} :
    (((routesOn l).filter fun r => r.table = table).map routeID).Nodup ↔ DistinctRoutes l table := by
  have hid : ((routesOn l).filter fun r => r.table = table).map routeID =
      (((routesOn l).filter fun r => r.table = table).map routeDestination).map
        ("table=" ++ toString table ++ "/link=" ++ toString l.index ++ "/dst=" ++ ·) := by
    rw [List.map_map]
    apply List.map_congr_left
    intro r hr
    obtain ⟨hmem, htable⟩ := List.mem_filter.mp hr
    obtain ⟨e, -, rfl⟩ := List.mem_map.mp hmem
    rw [Function.comp, ← of_decide_eq_true htable]
    rfl
  rw [hid]
  exact List.nodup_map_iff fun a b he => (String.append_right_inj _).mp he

/-- The owned routes on the link are the desired ones. -/
structure OwnRoutes (t : Tunnel) (l : Link) : Prop where
  owned : ∀ r ∈ routesOn l, r.protocol = routeProtocol →
    (r.table, routeDestination r) ∈ desiredDestinations t
  present : ∀ d ∈ desiredDestinations t, ∃ r ∈ routesOn l,
    r.protocol = routeProtocol ∧ (r.table, routeDestination r) = d

theorem routeID_eq {r s : Route} (htable : r.table = s.table) (hlink : r.link = s.link)
    (hdst : routeDestination r = routeDestination s) : routeID r = routeID s := by
  unfold routeID
  rw [htable, hlink, hdst]

theorem link_of_mem_routesOn {r : Route} (hr : r ∈ routesOn l) : r.link = l.index := by
  obtain ⟨e, -, rfl⟩ := List.mem_map.mp hr
  rfl

theorem routeDestination_default (link : Link) (table : ℤ) :
    routeDestination (ownedRoute link table defaultDst) = "0.0.0.0/0" := by
  show defaultDst.string = _
  decide

theorem mem_destinations_table {table : ℤ} {dst : String} (hne : table ≠ mainTable)
    (hmem : (table, dst) ∈ desiredDestinations t) : table = t.table ∧ dst = "0.0.0.0/0" := by
  rcases List.mem_cons.mp hmem with he | hmem
  · exact ⟨congrArg Prod.fst he, congrArg Prod.snd he⟩
  · obtain ⟨route, -, he⟩ := List.mem_map.mp hmem
    exact absurd (congrArg Prod.fst he).symm hne

/-- A destination in the main table is that of a static route. -/
theorem mem_destinations_main (htable : t.table ≠ mainTable) {dst : String}
    (hmem : (mainTable, dst) ∈ desiredDestinations t) :
    ∃ r ∈ t.routes, dst = canonicalCIDR r := by
  rcases List.mem_cons.mp hmem with he | hmem
  · exact absurd (congrArg Prod.fst he).symm htable
  · obtain ⟨r, hr, he⟩ := List.mem_map.mp hmem
    exact ⟨r, hr, (congrArg Prod.snd he).symm⟩

/-- A network that is accepted as IPv4 is read and rendered alike by the plan and by the
reconciler. -/
theorem parseNet_of_isIPv4Prefix {s : String} (hs : isIPv4Prefix s = true) :
    ∃ p, parseNet s = some p ∧ p.addr.is4 = true ∧ canonicalCIDR s = p.masked.string ∧
      canonicalAddress s = addressKey p := by
  obtain ⟨p, hp, h4⟩ := isIPv4Prefix_iff.mp hs
  have hcidr := (parseCIDR_of_parsePrefix hp h4).2
  refine ⟨p, ?_, h4, ?_, ?_⟩
  · simp [parseNet, hcidr, p.bits_le]
  · have hmapped : p.masked.addr.is4In6 = false := by
      cases ha : p.addr with
      | v4 v => simp [Prefix.masked, ha, Addr.masked, Addr.is4In6]
      | zero =>
        rw [ha] at h4
        cases h4
      | v6 v z =>
        rw [ha] at h4
        cases h4
    simp only [canonicalCIDR, hcidr, ipNetString]
    exact if_neg (by simpa [Prefix.masked] using hmapped)
  · simp [canonicalAddress, hcidr, addressKey]

/-- The static routes of a tunnel, in order. -/
theorem staticRoutes_ok (hvalid : t.Valid) (l : Link) :
    ∃ desired, t.routes.mapM (staticRoute x l t) = .ok desired ∧
      (∀ d ∈ desired, d.table = mainTable ∧ d.link = l.index) ∧
      desired.map routeDestination = t.routes.map canonicalCIDR := by
  have hstatic : ∀ r ∈ t.routes, ∃ p : Prefix, canonicalCIDR r = p.masked.string ∧
      staticRoute x l t r = .ok (ownedRoute l mainTable p.masked) := by
    intro r hr
    obtain ⟨p, hp, -, hcanon, -⟩ := parseNet_of_isIPv4Prefix (hvalid.routes r hr)
    exact ⟨p, hcanon, by simp [staticRoute, hp]⟩
  obtain ⟨desired, hdesired⟩ := exists_mapM_ok.mpr fun r hr =>
    let ⟨_, _, hp⟩ := hstatic r hr
    ⟨_, hp⟩
  refine ⟨desired, hdesired, fun d hd => ?_, map_of_mapM_ok (fun r hr d hok => ?_) hdesired⟩
  · obtain ⟨r, hr, hok⟩ := mem_of_mapM_ok hdesired d hd
    obtain ⟨p, -, hp⟩ := hstatic r hr
    rw [hp] at hok
    cases hok
    exact ⟨rfl, rfl⟩
  · obtain ⟨p, hcanon, hp⟩ := hstatic r hr
    rw [hp] at hok
    cases hok
    exact hcanon.symm

section
variable {l' : Link} (hl : h.links.find t.name = some l') (hindex : l'.index = l.index)
  (hr : OwnRoutes t l') (htable : t.table ≠ mainTable)
include hl hindex hr htable

/-- Off the main table only the table of the tunnel is looked at. -/
theorem policySet_eq : routeSet h l 0 (fun r => r.table ≠ mainTable &&
    (r.protocol = routeProtocol || r.table = t.table)) =
      (routesOn l').filter fun r => r.table = t.table := by
  unfold routeSet
  rw [← hindex, routeList_link hl, List.filter_filter]
  apply List.filter_congr
  intro r hmem
  by_cases hmain : r.table = mainTable
  · have : r.table ≠ t.table := fun he => htable (he ▸ hmain)
    simp [hmain, htable.symm]
  · by_cases hown : r.protocol = routeProtocol
    · have he := (mem_destinations_table hmain (hr.owned r hmem hown)).1
      simp [he, htable]
    · simp [hmain, hown]

theorem reconcileDefaultRoute_eval :
    (DistinctRoutes l' t.table → (reconcileDefaultRoute l t).eval h = (.ok (), h)) ∧
    (¬DistinctRoutes l' t.table → ∃ e, (reconcileDefaultRoute l t).eval h = (.error e, h)) := by
  have hset := policySet_eq hl hindex hr htable
  rw [← nodup_routeID_iff, ← hset]
  apply reconcileRouteSet_held
  · intro d hd
    rw [List.mem_singleton.mp hd]
    obtain ⟨r, hmem, hown, hdst⟩ := hr.present _ (List.mem_cons_self ..)
    obtain ⟨hrt, hrd⟩ := Prod.ext_iff.mp hdst
    refine ⟨r, ?_, hown, routeID_eq hrt ?_ (hrd.trans (routeDestination_default _ _).symm)⟩
    · rw [hset]
      exact List.mem_filter.mpr ⟨hmem, decide_eq_true hrt⟩
    · exact (link_of_mem_routesOn hmem).trans hindex
  · exact List.nodup_singleton _
  · intro r hmem hown
    rw [hset] at hmem
    obtain ⟨hmem, hrt⟩ := List.mem_filter.mp hmem
    have hrt : r.table = t.table := of_decide_eq_true hrt
    have hdst := (mem_destinations_table (hrt ▸ htable)
      (hr.owned r hmem hown)).2
    refine List.mem_singleton.mpr (routeID_eq hrt ?_ (hdst.trans (routeDestination_default _ _).symm))
    exact (link_of_mem_routesOn hmem).trans hindex

omit hr htable in
theorem mainSet_eq : routeSet h l mainTable (fun r => r.table = mainTable) =
    (routesOn l').filter fun r => r.table = mainTable := by
  unfold routeSet
  rw [← hindex, routeList_link hl, List.filter_filter]
  apply List.filter_congr
  intro r _
  by_cases hmain : r.table = mainTable
  · simp [hmain]
  · simp [hmain]

theorem reconcileRoutes_eval (hvalid : t.Valid) (hdistinct : (desiredDestinations t).Nodup) :
    (DistinctRoutes l' mainTable → (reconcileRoutes x l t).eval h = (.ok (), h)) ∧
    (¬DistinctRoutes l' mainTable → ∃ e, (reconcileRoutes x l t).eval h = (.error e, h)) := by
  obtain ⟨desired, hdesired, hfields, hdsts⟩ := staticRoutes_ok (x := x) hvalid l
  have hset := mainSet_eq hl hindex
  rw [← nodup_routeID_iff, ← hset]
  unfold reconcileRoutes
  rw [hdesired, Net.eval_bind_ok (ofExcept_eval h _)]
  apply reconcileRouteSet_held
  · intro d hd
    obtain ⟨htable, hlink⟩ := hfields d hd
    have hdst : routeDestination d ∈ t.routes.map canonicalCIDR := hdsts ▸ List.mem_map_of_mem hd
    obtain ⟨cidr, hcidr, hdst⟩ := List.mem_map.mp hdst
    obtain ⟨r, hmem, hown, he⟩ := hr.present (mainTable, canonicalCIDR cidr)
      (List.mem_cons_of_mem _ (List.mem_map_of_mem hcidr))
    obtain ⟨hrt, hrd⟩ := Prod.ext_iff.mp he
    refine ⟨r, ?_, hown, routeID_eq (hrt.trans htable.symm) ?_ (hrd.trans hdst)⟩
    · rw [hset]
      exact List.mem_filter.mpr ⟨hmem, decide_eq_true hrt⟩
    · rw [hlink, link_of_mem_routesOn hmem, hindex]
  · have hids : desired.map routeID = (t.routes.map canonicalCIDR).map
        ("table=" ++ toString mainTable ++ "/link=" ++ toString l.index ++ "/dst=" ++ ·) := by
      rw [← hdsts, List.map_map]
      apply List.map_congr_left
      intro d hd
      obtain ⟨htable, hlink⟩ := hfields d hd
      simp only [Function.comp, routeID, htable, hlink]
    have hcanon : (t.routes.map canonicalCIDR).Nodup := by
      have hpairs : ((t.routes.map canonicalCIDR).map (Prod.mk mainTable)).Nodup := by
        rw [List.map_map]
        exact (List.nodup_cons.mp hdistinct).2
      exact hpairs.of_map
    rw [hids]
    exact (List.nodup_map_iff fun a b he => (String.append_right_inj _).mp he).mpr hcanon
  · intro r hmem hown
    rw [hset] at hmem
    obtain ⟨hmem, hrt⟩ := List.mem_filter.mp hmem
    have hrt : r.table = mainTable := of_decide_eq_true hrt
    have hdes := hr.owned r hmem hown
    rw [hrt] at hdes
    obtain ⟨cidr, hcidr, hdst⟩ := mem_destinations_main htable hdes
    have hin : routeDestination r ∈ desired.map routeDestination := by
      rw [hdsts, hdst]
      exact List.mem_map_of_mem hcidr
    obtain ⟨d, hd, hdst⟩ := List.mem_map.mp hin
    obtain ⟨hdt, hlink⟩ := hfields d hd
    refine List.mem_map.mpr ⟨d, hd, routeID_eq (hdt.trans hrt.symm) ?_ hdst⟩
    rw [hlink, link_of_mem_routesOn hmem, hindex]

end

/-! ## The link that is brought up -/

/-- What `tunnelUp` makes of a link; an adopted device is left alone. -/
def raised (mode : LinkMode) (t : Tunnel) (cfg : WgConfig) (l : Link) : Link :=
  { l with attrs := { l.attrs with
      mtu := t.mtu
      device := if mode = .adopted then l.attrs.device else Device.configured cfg
      up := true } }

/-- A link without two routes of one destination; an adopted one has its MTU and is up. -/
structure Raisable (mode : LinkMode) (t : Tunnel) (cfg : WgConfig) (l : Link) : Prop where
  adopted : mode = .adopted → l.attrs.mtu = t.mtu ∧ l.attrs.up = true
  main : DistinctRoutes (raised mode t cfg l) mainTable
  table : DistinctRoutes (raised mode t cfg l) t.table

section
variable {mode : LinkMode} {cfg : WgConfig}

/-- Kernel routes appear when a link goes up. -/
theorem mem_routesOn_raised {r : Route} (hr : r ∈ routesOn l) :
    r ∈ routesOn (raised mode t cfg l) := by
  obtain ⟨e, he, rfl⟩ := List.mem_map.mp hr
  obtain ⟨hlisted, hv4⟩ := List.mem_filter.mp he
  refine List.mem_map_of_mem (List.mem_filter.mpr ⟨?_, hv4⟩)
  rcases List.mem_append.mp hlisted with hmem | hmem
  · exact List.mem_append_left _ hmem
  · apply List.mem_append_right
    unfold Interface.generated at hmem ⊢
    split at hmem
    · exact hmem
    · cases hmem

theorem generated_protocol {i : Interface} {e : RouteEntry} (he : e ∈ i.generated) :
    e.protocol = kernelProtocol := by
  unfold Interface.generated at he
  split at he
  · simp only [List.cons_append, List.mem_cons, List.mem_append, List.mem_map, connectedRoutes] at he
    rcases he with rfl | ⟨p, -, rfl⟩ | ⟨n, -, rfl⟩ <;> rfl
  · cases he

/-- No owned route appears with them. -/
theorem mem_routesOn_of_raised {r : Route} (hr : r ∈ routesOn (raised mode t cfg l))
    (hown : r.protocol = routeProtocol) : r ∈ routesOn l := by
  obtain ⟨e, he, rfl⟩ := List.mem_map.mp hr
  obtain ⟨hlisted, hv4⟩ := List.mem_filter.mp he
  refine List.mem_map_of_mem (List.mem_filter.mpr ⟨?_, hv4⟩)
  rcases List.mem_append.mp hlisted with hmem | hmem
  · exact List.mem_append_left _ hmem
  · have hkernel : kernelProtocol = routeProtocol := (generated_protocol hmem).symm.trans hown
    exact absurd hkernel (by decide)

theorem OwnRoutes.raised (hr : OwnRoutes t l) : OwnRoutes t (raised mode t cfg l) where
  owned := fun r hmem hown => hr.owned r (mem_routesOn_of_raised hmem hown) hown
  present := by
    intro d hd
    obtain ⟨r, hmem, hown, he⟩ := hr.present d hd
    exact ⟨r, mem_routesOn_raised hmem, hown, he⟩

/-- An owned route is always planned for. -/
theorem Matched.ownRoutes (hm : Matched x h t l) : OwnRoutes t l where
  owned := by
    intro r hr hown
    obtain ⟨m, hmode⟩ := hm.mode
    have howned : linkOwned x l t = true := by
      simp only [linkOwned, hmode, hm.kind, decide_true, Bool.and_true]
      rfl
    refine (hm.owned r hr ?_).2
    have hgen : addressGeneratedRoute (parseNet t.address) r = false := by
      unfold addressGeneratedRoute
      split
      · rfl
      · rw [hown]
        rfl
    simp [plannedRoute, routeOwned, howned, hown, hgen]
  present := hm.present

/-! ## The steps of `tunnelUp` -/

theorem setMTU_eval (hl : h.links.find t.name = some l) : (setMTU l t).eval h =
    (.ok (), h.putLink l.index { l.attrs with mtu := t.mtu }) := by
  unfold setMTU
  split
  · exact Net.check_eval (Host.linkSet_eq hl _)
  · rename_i hmtu
    rw [not_not] at hmtu
    rw [← hmtu]
    exact congrArg (Prod.mk _) (Host.putLink_self hl).symm

theorem configureTunnel_eval (hl : h.links.find t.name = some l)
    (hkind : l.attrs.kind = "wireguard") : (configureTunnel mode t cfg).eval h =
      (.ok (), h.putLink l.index { l.attrs with
        device := if mode = .adopted then l.attrs.device else Device.configured cfg }) := by
  unfold configureTunnel
  by_cases hmode : mode = .adopted
  · rw [if_neg (not_not.mpr hmode), if_pos hmode]
    exact congrArg (Prod.mk _) (Host.putLink_self hl).symm
  · rw [if_pos hmode, if_neg hmode]
    exact Net.check_eval (configureDevice_call hl hkind)

theorem requireSysctl_eval (key value : String) (wrap : String → String) :
    ∃ s, (requireSysctl key value wrap).eval h = (.ok (), { h with sysctls := s }) := by
  unfold requireSysctl
  rw [Net.eval_bind_ok (Net.check_eval (by rfl :
    h.call (.readSysctl key) = (.ok (h.sysctls key), h)))]
  split
  · exact ⟨h.sysctls, rfl⟩
  · exact ⟨_, rfl⟩

theorem Matched.config (hm : Matched x h t l) : ∃ cfg desired,
    (wgConfig x t).ask h = .ok cfg ∧ x.parseKey t.privateKey = .ok cfg.privateKey ∧
      cfg.peers = [desired] ∧ l.attrs.device.publicKey x = x.publicKey cfg.privateKey := by
  have hdevice := hm.device
  unfold deviceMatchesTunnel at hdevice
  rw [Net.ask_bind (wgConfig_reads x t), bind_eq_ok] at hdevice
  obtain ⟨cfg, hcfg, -⟩ := hdevice
  obtain ⟨hkey, desired, hpeer⟩ := wgConfig_eq_ok hcfg
  obtain ⟨same, hsame, hiff⟩ := deviceMatchesTunnel_ask (d := l.attrs.device) hcfg hpeer
  rw [hm.device] at hsame
  cases hsame
  exact ⟨cfg, desired, hcfg, hkey, hpeer, (hiff.mp rfl).1⟩

theorem ensureOwnedLink_eval (hm : Matched x h t l) : (ensureOwnedLink x t).eval h = (.ok l, h) := by
  obtain ⟨m, hmode⟩ := hm.mode
  obtain ⟨cfg, desired, -, hkey, -, hpublic⟩ := hm.config
  have hidentity : (verifyExistingKeyIdentity x t).eval h = (.ok (), h) := by
    unfold verifyExistingKeyIdentity
    rw [Net.eval_bind_ok (Net.check_eval (device_call hm.found hm.kind)), hkey]
    change (Net.ofExcept (.ok cfg.privateKey) >>= _).eval h = _
    rw [Net.eval_bind_ok (ofExcept_eval h _), hpublic, decide_eq_true rfl, Bool.or_true]
    rfl
  unfold ensureOwnedLink
  rw [Net.eval_bind_ok (lookupLink_eval h t.name), hm.found]
  simp only [hm.kind, hmode, decide_true]
  change ((do verifyExistingKeyIdentity x t; pure l) : Net Link).eval h = _
  rw [Net.eval_bind_ok hidentity]
  rfl

theorem verifyMode_eval (hm : Matched x h t l)
    (hadopted : mode = .adopted → l.attrs.mtu = t.mtu ∧ l.attrs.up = true) :
    (verifyMode x mode l t).eval h = (.ok (), h) := by
  unfold verifyMode
  split
  · rename_i hmode
    obtain ⟨hmtu, hup⟩ := hadopted hmode
    unfold verifyAdoptedLink
    simp only [hmtu, hup, decide_true, Bool.and_true]
    change (Net.check (.device t.name) _ >>= _).eval h = _
    rw [Net.eval_bind_ok (Net.check_eval (device_call hm.found hm.kind)), Net.eval_bind_ok
      ((deviceMatchesTunnel_reads x l.attrs.device t).eval_eq hm.device)]
    rfl
  · rfl

theorem verifyMode_refused (hmode : mode = .adopted)
    (hdrift : ¬(l.attrs.mtu = t.mtu ∧ l.attrs.up = true)) :
    ∃ e, (verifyMode x mode l t).eval h = (.error e, h) := by
  unfold verifyMode verifyAdoptedLink
  rw [if_pos hmode]
  have hfalse : (l.attrs.mtu = t.mtu && l.attrs.up) = false := by
    simpa [Bool.and_eq_true] using hdrift
  rw [hfalse]
  exact ⟨_, rfl⟩

theorem reconcileAddress_matched (hm : Matched x h t l) (hvalid : t.Valid) {h' : Host} {l' : Link}
    (hl : h'.links.find t.name = some l') (hindex : l'.index = l.index)
    (haddrs : l'.attrs.addrs = l.attrs.addrs) : (reconcileAddress x l t).eval h' = (.ok (), h') := by
  obtain ⟨p, hp, -, -, hcanon⟩ := parseNet_of_isIPv4Prefix hvalid.address
  obtain ⟨a, ha, hkey⟩ := hm.address
  have hsame : addressKey a = addressKey p := hkey.trans hcanon
  have hlist : l'.attrs.addrs.filter Family.v4.admits = [a] := haddrs ▸ ha
  apply reconcileAddress_settled hl hindex hp
  · rw [hlist]
    simp [conflictingAddress, hsame]
  · rw [hlist]
    simp [containsAddress, hsame]

theorem reconcilePlumbing_eval (hm : Matched x h t l) (hvalid : t.Valid)
    (htable : t.table ≠ mainTable) {h' : Host} {l' : Link} (hrules : h'.rules = h.rules)
    (hl : h'.links.find t.name = some l') (hindex : l'.index = l.index) (hr : OwnRoutes t l') :
    (DistinctRoutes l' mainTable ∧ DistinctRoutes l' t.table →
      (reconcilePlumbing x l t).eval h' = (.ok (), h')) ∧
    (¬(DistinctRoutes l' mainTable ∧ DistinctRoutes l' t.table) →
      ∃ e, (reconcilePlumbing x l t).eval h' = (.error e, h')) := by
  obtain ⟨r, hone, hequal⟩ := hm.rule
  have hrule : (reconcileRule t).eval h' = (.ok (), h') := by
    apply reconcileRule_settled _ hequal
    rw [hrules, hone]
  have hdefault := reconcileDefaultRoute_eval hl hindex hr htable
  have hroutes := reconcileRoutes_eval (x := x) hl hindex hr htable hvalid hm.distinct
  unfold reconcilePlumbing
  constructor
  · rintro ⟨hmain, hpolicy⟩
    rw [Net.eval_bind_ok (hdefault.1 hpolicy), Net.eval_bind_ok hrule]
    exact hroutes.1 hmain
  · intro hdup
    by_cases hpolicy : DistinctRoutes l' t.table
    · obtain ⟨e, he⟩ := hroutes.2 fun hmain => hdup ⟨hmain, hpolicy⟩
      refine ⟨e, ?_⟩
      rw [Net.eval_bind_ok (hdefault.1 hpolicy), Net.eval_bind_ok hrule, he]
    · obtain ⟨e, he⟩ := hdefault.2 hpolicy
      exact ⟨e, Net.eval_bind_error he⟩

/-- The host after `tunnelUp`. -/
def raisedHost (h : Host) (mode : LinkMode) (t : Tunnel) (cfg : WgConfig) (l : Link)
    (s : String → String) : Host :=
  { h.putLink l.index (raised mode t cfg l).attrs with sysctls := s }

/-- A link the plan vouches for is brought up where it can be; otherwise the call fails. -/
theorem tunnelUp_eval (hm : Matched x h t l) (hvalid : t.Valid) (htable : t.table ≠ mainTable)
    (hmode : ownedLinkMode x l t = .ok mode) (hcfg : (wgConfig x t).ask h = .ok cfg) :
    ∃ s, (Raisable mode t cfg l →
      (tunnelUp x t).eval h = (.ok (), raisedHost h mode t cfg l s)) ∧
    (¬Raisable mode t cfg l → ∃ e h', (tunnelUp x t).eval h = (.error e, h')) := by
  -- the hosts after the MTU, the device and the up flag are set
  let h₁ := h.putLink l.index { l.attrs with mtu := t.mtu }
  let h₂ := h.putLink l.index { l.attrs with
    mtu := t.mtu, device := if mode = .adopted then l.attrs.device else Device.configured cfg }
  let h₃ := h.putLink l.index (raised mode t cfg l).attrs
  have hmtu : (setMTU l t).eval h = (.ok (), h₁) := setMTU_eval hm.found
  have hfind₁ : h₁.links.find t.name = some ⟨l.index, l.name, _⟩ := Host.find_putLink hm.found _
  have haddress : (reconcileAddress x l t).eval h₁ = (.ok (), h₁) :=
    reconcileAddress_matched hm hvalid hfind₁ rfl rfl
  have hconfigure : (configureTunnel mode t cfg).eval h₁ = (.ok (), h₂) := by
    rw [configureTunnel_eval hfind₁ hm.kind]
    exact congrArg (Prod.mk _) (Host.putLink_putLink ..)
  have hfind₂ : h₂.links.find t.name = some ⟨l.index, l.name, _⟩ := Host.find_putLink hm.found _
  have hup : h₂.call (.linkSetUp l.index) = (.ok (), h₃) := by
    refine (Host.linkSet_eq hfind₂ _).trans ?_
    exact congrArg (Prod.mk _) (Host.putLink_putLink ..)
  obtain ⟨s, hsysctl⟩ := requireSysctl_eval (h := h₃) "net/ipv4/conf/all/src_valid_mark" "1"
    fun e => t.name ++ ": src_valid_mark: " ++ e
  have hfind₃ : (raisedHost h mode t cfg l s).links.find t.name = some (raised mode t cfg l) :=
    Host.find_putLink hm.found _
  have hplumbing := reconcilePlumbing_eval hm hvalid htable
    (rfl : (raisedHost h mode t cfg l s).rules = h.rules) hfind₃ rfl hm.ownRoutes.raised
  have hsteps : (mode = .adopted → l.attrs.mtu = t.mtu ∧ l.attrs.up = true) →
      (tunnelUp x t).eval h = (reconcilePlumbing x l t).eval (raisedHost h mode t cfg l s) := by
    intro hadopted
    unfold tunnelUp
    rw [Net.eval_bind_ok ((wgConfig_reads x t).eval_eq hcfg),
      Net.eval_bind_ok (ensureOwnedLink_eval hm), hmode, Net.eval_bind_ok (ofExcept_eval h _),
      Net.eval_bind_ok (verifyMode_eval hm hadopted), Net.eval_bind_ok hmtu,
      Net.eval_bind_ok haddress, Net.eval_bind_ok hconfigure, Net.eval_bind_ok (Net.check_eval hup),
      Net.eval_bind_ok hsysctl]
    rfl
  refine ⟨s, fun hr => ?_, fun hr => ?_⟩
  · rw [hsteps hr.adopted]
    exact hplumbing.1 ⟨hr.main, hr.table⟩
  · by_cases hadopted : mode = .adopted → l.attrs.mtu = t.mtu ∧ l.attrs.up = true
    · obtain ⟨e, he⟩ := hplumbing.2 fun hd => hr ⟨hadopted, hd.1, hd.2⟩
      exact ⟨e, _, (hsteps hadopted).trans he⟩
    · rw [Classical.not_imp] at hadopted
      obtain ⟨e, he⟩ := verifyMode_refused (x := x) (h := h) hadopted.1 hadopted.2
      refine ⟨e, h, ?_⟩
      unfold tunnelUp
      rw [Net.eval_bind_ok ((wgConfig_reads x t).eval_eq hcfg),
        Net.eval_bind_ok (ensureOwnedLink_eval hm), hmode, Net.eval_bind_ok (ofExcept_eval h _),
        Net.eval_bind_error he]

end

end SakhtarWg
