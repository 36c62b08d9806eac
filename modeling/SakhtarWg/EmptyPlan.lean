import SakhtarWg.TunnelUp

/-!
# Empty plans

An empty plan of the dry run against what `tunnelUp` then does for every tunnel. The plan
does not look at the MTU and the up flag of an owned link, and of its device only at what
`deviceMatchesTunnel` compares; it also looks past the routes that come with an address.
-/

namespace SakhtarWg
open Text Netip Fallible Kernel Program

variable {x : Library} {h h' : Host} {t : Tunnel} {l : Link} {mode : LinkMode} {cfg : WgConfig}

/-! ## Hosts that agree about a tunnel -/

theorem deviceMatchesTunnel_congr {d : Device} (he : h'.endpoints = h.endpoints) :
    (deviceMatchesTunnel x d t).ask h' = (deviceMatchesTunnel x d t).ask h := by
  unfold deviceMatchesTunnel
  rw [Net.ask_bind (wgConfig_reads x t), Net.ask_bind (wgConfig_reads x t), wgConfig_congr he]
  apply bind_congr
  intro compiled
  split
  · rfl
  · rfl

theorem Matched.agree (hm : Matched x h t l) (hl : h'.links.find t.name = h.links.find t.name)
    (hrules : h'.rules = h.rules) (he : h'.endpoints = h.endpoints) : Matched x h' t l where
  found := hl.trans hm.found
  kind := hm.kind
  mode := hm.mode
  device := (deviceMatchesTunnel_congr he).trans hm.device
  address := hm.address
  owned := hm.owned
  present := hm.present
  distinct := hm.distinct
  rule := hrules ▸ hm.rule

/-! ## Links with nothing left to do -/

/-- The link is as `tunnelUp` would leave it: the MTU, the up flag, the device of a link that
was created, and no two routes of the main table or the tunnel's own to one destination. -/
structure Settled (x : Library) (h : Host) (t : Tunnel) (l : Link) : Prop where
  mtu : l.attrs.mtu = t.mtu
  up : l.attrs.up = true
  device : ownedLinkMode x l t = .ok .created →
    ∃ cfg, (wgConfig x t).ask h = .ok cfg ∧ l.attrs.device = Device.configured cfg
  main : DistinctRoutes l mainTable
  table : DistinctRoutes l t.table

theorem settled_iff (hmode : ownedLinkMode x l t = .ok mode)
    (hcfg : (wgConfig x t).ask h = .ok cfg) :
    Settled x h t l ↔ raised mode t cfg l = l ∧ Raisable mode t cfg l := by
  constructor
  · intro hs
    have hraised : raised mode t cfg l = l := by
      have hdevice : (if mode = .adopted then l.attrs.device else Device.configured cfg) =
          l.attrs.device := by
        cases mode with
        | adopted => rfl
        | created =>
          obtain ⟨cfg', hcfg', hdevice⟩ := hs.device hmode
          rw [hcfg] at hcfg'
          cases hcfg'
          exact hdevice.symm
      unfold raised
      rw [hdevice, ← hs.mtu, ← hs.up]
    refine ⟨hraised, fun _ => ⟨hs.mtu, hs.up⟩, ?_, ?_⟩
    · rw [hraised]
      exact hs.main
    · rw [hraised]
      exact hs.table
  · rintro ⟨hraised, hr⟩
    have hattrs := congrArg Item.attrs hraised
    refine ⟨(congrArg Interface.mtu hattrs).symm, (congrArg Interface.up hattrs).symm, ?_, ?_, ?_⟩
    · intro hcreated
      rw [hmode] at hcreated
      cases hcreated
      exact ⟨cfg, hcfg, (congrArg Interface.device hattrs).symm⟩
    · exact hraised ▸ hr.main
    · exact hraised ▸ hr.table

/-! ## All tunnels -/

section
variable {mode : LinkMode} {s : String → String} (hl : h.links.find t.name = some l)
include hl

theorem find_raisedHost :
    (raisedHost h mode t cfg l s).links.find t.name = some (raised mode t cfg l) :=
  Host.find_putLink hl _

theorem find_raisedHost_ne {n : String} (hne : n ≠ t.name) :
    (raisedHost h mode t cfg l s).links.find n = h.links.find n :=
  Host.find_putLink_ne hl _ hne

theorem raisedHost_self (hraised : raised mode t cfg l = l) :
    raisedHost h mode t cfg l s = { h with sysctls := s } := by
  unfold raisedHost
  rw [hraised, Host.putLink_self hl]

end

/-- A run that succeeds has brought up every link, and no other link was touched. -/
theorem tunnelsUp_ok {tunnels : List Tunnel}
    (hvalid : ∀ t ∈ tunnels, t.Valid ∧ t.table ≠ mainTable)
    (hnames : (tunnels.map (·.name)).Nodup) (hm : ∀ t ∈ tunnels, ∃ l, Matched x h t l)
    (hrun : (tunnels.forM (tunnelUp x)).eval h = (.ok (), h')) :
    (∀ n, n ∉ tunnels.map (·.name) → h'.links.find n = h.links.find n) ∧
      ∀ t ∈ tunnels, ∀ l mode cfg, h.links.find t.name = some l →
        ownedLinkMode x l t = .ok mode → (wgConfig x t).ask h = .ok cfg →
        Raisable mode t cfg l ∧ h'.links.find t.name = some (raised mode t cfg l) := by
  induction tunnels generalizing h with
  | nil =>
    cases hrun
    exact ⟨fun _ _ => rfl, fun t ht => absurd ht List.not_mem_nil⟩
  | cons t tunnels ih =>
    obtain ⟨l, hmt⟩ := hm t (List.mem_cons_self ..)
    obtain ⟨mode, hmode⟩ := hmt.mode
    obtain ⟨cfg, -, hcfg, -⟩ := hmt.config
    obtain ⟨htv, htable⟩ := hvalid t (List.mem_cons_self ..)
    obtain ⟨s, hok, hfail⟩ := tunnelUp_eval hmt htv htable hmode hcfg
    change (tunnelUp x t >>= fun _ => tunnels.forM (tunnelUp x)).eval h = (.ok (), h') at hrun
    obtain ⟨_, h₁, hfirst, hrest⟩ := Net.eval_bind_eq_ok hrun
    -- the first tunnel did not fail
    have hraisable : Raisable mode t cfg l := by
      by_contra hno
      obtain ⟨e, h₂, herror⟩ := hfail hno
      rw [hfirst] at herror
      cases herror
    rw [hok hraisable] at hfirst
    cases hfirst
    rw [List.map_cons, List.nodup_cons] at hnames
    have hother : ∀ u ∈ tunnels, u.name ≠ t.name := fun u hu he =>
      hnames.1 (he ▸ List.mem_map_of_mem hu)
    obtain ⟨hframe, hall⟩ := ih (fun u hu => hvalid u (List.mem_cons_of_mem _ hu)) hnames.2
      (fun u hu => (hm u (List.mem_cons_of_mem _ hu)).imp fun _ hmu =>
        hmu.agree (find_raisedHost_ne hmt.found (hother u hu)) rfl rfl) hrest
    constructor
    · intro n hn
      rw [List.map_cons, List.mem_cons, not_or] at hn
      rw [hframe n hn.2, find_raisedHost_ne hmt.found hn.1]
    · intro u hu l' mode' cfg' hl' hmode' hcfg'
      rcases List.mem_cons.mp hu with rfl | hu
      · rw [hmt.found] at hl'
        cases hl'
        rw [hmode] at hmode'
        cases hmode'
        rw [hcfg] at hcfg'
        cases hcfg'
        exact ⟨hraisable, (hframe u.name hnames.1).trans (find_raisedHost hmt.found)⟩
      · have hsame : (wgConfig x u).ask (raisedHost h mode t cfg l s) = (wgConfig x u).ask h :=
          wgConfig_congr rfl
        refine hall u hu l' mode' cfg' ?_ hmode' (hsame.trans hcfg')
        rw [find_raisedHost_ne hmt.found (hother u hu), hl']

/-- Where nothing is left to do, only the sysctl may be written. -/
theorem tunnelsUp_settled {tunnels : List Tunnel}
    (hvalid : ∀ t ∈ tunnels, t.Valid ∧ t.table ≠ mainTable)
    (hs : ∀ t ∈ tunnels, ∃ l, Matched x h t l ∧ Settled x h t l) :
    ∃ s, (tunnels.forM (tunnelUp x)).eval h = (.ok (), { h with sysctls := s }) := by
  induction tunnels generalizing h with
  | nil => exact ⟨h.sysctls, rfl⟩
  | cons t tunnels ih =>
    obtain ⟨l, hmt, hst⟩ := hs t (List.mem_cons_self ..)
    obtain ⟨mode, hmode⟩ := hmt.mode
    obtain ⟨cfg, -, hcfg, -⟩ := hmt.config
    obtain ⟨htv, htable⟩ := hvalid t (List.mem_cons_self ..)
    obtain ⟨s, hok, -⟩ := tunnelUp_eval hmt htv htable hmode hcfg
    obtain ⟨hraised, hraisable⟩ := (settled_iff hmode hcfg).mp hst
    have hfirst := hok hraisable
    rw [raisedHost_self hmt.found hraised] at hfirst
    have hsame : ∀ u, (wgConfig x u).ask { h with sysctls := s } = (wgConfig x u).ask h := fun u =>
      wgConfig_congr rfl
    obtain ⟨s', hrest⟩ := ih (h := { h with sysctls := s })
      (fun u hu => hvalid u (List.mem_cons_of_mem _ hu)) fun u hu => by
        obtain ⟨l', hmu, hsu⟩ := hs u (List.mem_cons_of_mem _ hu)
        exact ⟨l', hmu.agree rfl rfl rfl, hsu.mtu, hsu.up, fun hcreated =>
          (hsu.device hcreated).imp fun cfg hc => ⟨(hsame u).trans hc.1, hc.2⟩, hsu.main, hsu.table⟩
    refine ⟨s', ?_⟩
    change (tunnelUp x t >>= fun _ => tunnels.forM (tunnelUp x)).eval h = _
    rw [Net.eval_bind_ok hfirst, hrest]

theorem Config.Valid.table_ne_main {c : Config} (hc : c.Valid) (ht : t ∈ c.tunnels) :
    t.table ≠ mainTable :=
  ((validateAllocations_eq_ok hc.allocations).1 t.allocation (List.mem_map_of_mem ht)).table.2.2.1

/-! ## One tunnel with one route -/

/-- Libraries that know one key. -/
def sampleLibrary : Library :=
  { sampleExternal with publicKey := fun _ => 1, fingerprint := fun _ => "key" }

def plannedFile : Config := sampleFile [sampleTunnel "wg0" 1 ["10.1.0.0/16"] []] ⟨false, [], ""⟩

/-- The tunnel with its defaults. -/
def plannedTunnel : Tunnel := (sampleTunnel "wg0" 1 ["10.1.0.0/16"] []).normalize 0

def plannedConfig : WgConfig :=
  ⟨0, [⟨0, "192.0.2.1:51820", [defaultDst], some 25000000000⟩]⟩

/-- The link as the daemon left it, with some MTU. -/
def plannedLink (mtu : ℤ) : Link where
  index := 1
  name := "wg0"
  attrs :=
    { kind := "wireguard"
      ifAlias := ownershipAlias sampleLibrary plannedTunnel .created
      mtu := mtu
      up := true
      addrs := (parseNet "10.0.0.2/32").toList
      routes := ⟨1, defaultDst, routeProtocol, none⟩ ::
        (parseNet "10.1.0.0/16").toList.map fun p => ⟨mainTable, p, routeProtocol, none⟩
      device := Device.configured plannedConfig }

theorem plannedLink_positive (mtu : ℤ) : ∀ l ∈ [plannedLink mtu], l.index ≠ 0 := by
  intro l hl
  rw [List.mem_singleton.mp hl]
  exact Nat.one_ne_zero

def plannedHost (mtu : ℤ) : Host where
  links := ⟨[plannedLink mtu], List.nodup_singleton _, List.nodup_singleton _,
    plannedLink_positive mtu⟩
  unbound := []
  rules := [markRule plannedTunnel]
  firewall := ∅
  sysctls := fun _ => "1"
  endpoints := fun _ => some "192.0.2.1:51820"
  published := none

theorem plannedFile_parse :
    plannedFile.parse sampleLibrary.toExternal = .ok plannedFile.normalize := by
  decide +kernel

theorem plannedHost_plan {mtu : ℤ} (hplan : ((buildKernelPlan sampleLibrary
    plannedFile.normalize).eval (plannedHost mtu)).1 = .ok ⟨[], []⟩) :
    (buildKernelPlan sampleLibrary plannedFile.normalize).eval (plannedHost mtu) =
      (.ok ⟨[], []⟩, plannedHost mtu) :=
  (buildKernelPlan_reads sampleLibrary plannedFile.normalize).eval_eq hplan

theorem plannedLink_settled :
    Settled sampleLibrary (plannedHost 1420) plannedTunnel (plannedLink 1420) where
  mtu := rfl
  up := rfl
  device := fun _ => ⟨plannedConfig, by decide +kernel, rfl⟩
  main := by
    unfold DistinctRoutes
    decide +kernel
  table := by
    unfold DistinctRoutes
    decide +kernel

/-! ## The plan against the run -/

/-- After an empty plan, `tunnelUp` of every tunnel succeeds and leaves links, addresses, routes
and rules as they are exactly where every link is settled. -/
theorem empty_plan_iff {decoded c : Config} (hc : decoded.parse x.toExternal = .ok c)
    (hplan : (buildKernelPlan x c).eval h = (.ok ⟨[], []⟩, h)) :
    (∃ s, (c.tunnels.forM (tunnelUp x)).eval h = (.ok (), { h with sysctls := s })) ↔
      ∀ t ∈ c.tunnels, ∃ l, h.links.find t.name = some l ∧ Settled x h t l := by
  have hcv := parse_valid hc
  have hvalid : ∀ t ∈ c.tunnels, t.Valid ∧ t.table ≠ mainTable := fun t ht =>
    ⟨hcv.tunnel t ht, hcv.table_ne_main ht⟩
  obtain ⟨surveys, hp⟩ := buildKernelPlan_empty.mp (congrArg Prod.fst hplan)
  have hm : ∀ t ∈ c.tunnels, ∃ l, Matched x h t l := fun t ht => hp.matched hcv ht
  constructor
  · rintro ⟨s, hrun⟩ t ht
    obtain ⟨l, hmt⟩ := hm t ht
    obtain ⟨mode, hmode⟩ := hmt.mode
    obtain ⟨cfg, -, hcfg, -⟩ := hmt.config
    obtain ⟨hraisable, hfind⟩ :=
      (tunnelsUp_ok hvalid hcv.names hm hrun).2 t ht l mode cfg hmt.found hmode hcfg
    have hraised : some l = some (raised mode t cfg l) := hmt.found.symm.trans hfind
    exact ⟨l, hmt.found, (settled_iff hmode hcfg).mpr ⟨(Option.some.inj hraised).symm, hraisable⟩⟩
  · intro hs
    apply tunnelsUp_settled hvalid
    intro t ht
    obtain ⟨l, hmt⟩ := hm t ht
    obtain ⟨l', hl', hst⟩ := hs t ht
    rw [hmt.found] at hl'
    cases hl'
    exact ⟨l, hmt, hst⟩

theorem empty_plan_settled :
    (buildKernelPlan sampleLibrary plannedFile.normalize).eval (plannedHost 1420) =
      (.ok ⟨[], []⟩, plannedHost 1420) ∧
    ∃ s, (plannedFile.normalize.tunnels.forM (tunnelUp sampleLibrary)).eval (plannedHost 1420) =
      (.ok (), { plannedHost 1420 with sysctls := s }) := by
  have hplan := @plannedHost_plan 1420 (by decide +kernel)
  refine ⟨hplan, (empty_plan_iff plannedFile_parse hplan).mpr fun t ht => ?_⟩
  rw [List.mem_singleton.mp (show t ∈ [plannedTunnel] from ht)]
  exact ⟨plannedLink 1420, rfl, plannedLink_settled⟩

/-- A link with another MTU escapes the plan, and `tunnelUp` changes it. -/
theorem empty_plan_mtu :
    plannedFile.parse sampleLibrary.toExternal = .ok plannedFile.normalize ∧
    (buildKernelPlan sampleLibrary plannedFile.normalize).eval (plannedHost 1280) =
      (.ok ⟨[], []⟩, plannedHost 1280) ∧
    ¬∃ s, (plannedFile.normalize.tunnels.forM (tunnelUp sampleLibrary)).eval (plannedHost 1280) =
      (.ok (), { plannedHost 1280 with sysctls := s }) := by
  refine ⟨plannedFile_parse, @plannedHost_plan 1280 (by decide +kernel), ?_⟩
  rintro ⟨s, hrun⟩
  have hafter : (((plannedFile.normalize.tunnels.forM (tunnelUp sampleLibrary)).eval
      (plannedHost 1280)).2.links.find "wg0").map (·.attrs.mtu) = some 1420 := by
    decide +kernel
  rw [hrun] at hafter
  have hbefore : ((plannedHost 1280).links.find "wg0").map (·.attrs.mtu) = some 1280 := rfl
  exact absurd (hbefore.symm.trans hafter) (by decide)

end SakhtarWg
