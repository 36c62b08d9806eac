import Mathlib.Data.List.Pairwise
import SakhtarWg.ConfigCheck

/-!
# What an accepted configuration satisfies

The facts about tunnels, routes and resolvers that the rest of the development
uses, collected from the checks of `validate`.
-/

namespace SakhtarWg
open Text Netip Fallible Kernel Proxy

/-- An IPv4 prefix by its text. -/
theorem isIPv4Prefix_iff {text : String} :
    isIPv4Prefix text = true ↔ ∃ p, parsePrefix text = some p ∧ p.addr.is4 = true := by
  unfold isIPv4Prefix
  cases parsePrefix text with
  | none => simp
  | some p => simp

/-- The masked text of a route. -/
def canonicalRoute (route : String) : String :=
  match parsePrefix route with
  | some p => p.masked.string
  | none => route

/-- A resolver server as the configuration admits it. -/
def IsHostPort (server : String) : Prop :=
  ∃ host port, splitHostPort server = some (host, port) ∧ host ≠ "" ∧ validPort port = true

structure Tunnel.Valid (t : Tunnel) : Prop where
  name : interfaceNameOk t.name = true
  address : isIPv4Prefix t.address = true
  fwmark : 0 < t.fwmark ∧ t.fwmark ≤ 4294967295
  table : 0 < t.table ∧ t.table ≤ 2147483647
  routes : ∀ r ∈ t.routes, isIPv4Prefix r = true
  routesNodup : (t.routes.map canonicalRoute).Nodup

structure Config.Valid (c : Config) : Prop where
  tunnel : ∀ t ∈ c.tunnels, t.Valid
  names : (c.tunnels.map (·.name)).Nodup
  fwmarks : (c.tunnels.map (·.fwmark)).Nodup
  tables : (c.tunnels.map (·.table)).Nodup
  allocations : validateAllocations (c.tunnels.map Tunnel.allocation) = .ok ()
  clients : ∀ s ∈ c.gateway.clientCIDRs, isIPv4Prefix s = true
  disjoint : c.gateway.enabled = true → ∀ t ∈ c.tunnels, ∀ u ∈ c.tunnels, t.name ≠ u.name →
    ∀ r ∈ t.routes, ∀ s ∈ u.routes, ∀ p q, parsePrefix r = some p → parsePrefix s = some q →
      p.overlaps q = false
  resolver : ∀ server ∈ c.proxy.resolver, IsHostPort server
  tunnelResolver : ∀ t ∈ c.tunnels, ∀ server ∈ t.resolver, IsHostPort server

/-! ## One section at a time -/

theorem validateRoute_eq_ok {t : Tunnel} {seen seen' : List String} {route : String}
    (h : t.validateRoute seen route = .ok seen') :
    seen' = seen ++ [canonicalRoute route] ∧ (∀ y ∈ seen, y ≠ canonicalRoute route) ∧
      isIPv4Prefix route = true := by
  unfold Tunnel.validateRoute at h
  cases hp : parsePrefix route with
  | none => simp [hp] at h
  | some p =>
    simp only [hp, bind_eq_ok, require_eq_ok, pure_eq_ok, decide_eq_true_eq] at h
    obtain ⟨_, h4, _, hnew, rfl⟩ := h
    have hcanon : canonicalRoute route = p.masked.string := by simp [canonicalRoute, hp]
    rw [hcanon]
    exact ⟨rfl, fun y hy he => hnew (he ▸ hy), isIPv4Prefix_iff.mpr ⟨p, hp, h4⟩⟩

theorem requireUnused_eq_ok {earlier : List Tunnel} {key : Tunnel → ℤ} {word : String}
    {t : Tunnel} {u : Unit} (h : requireUnused earlier key word t = .ok u) :
    ∀ v ∈ earlier, key v ≠ key t := by
  unfold requireUnused at h
  split at h
  · cases h
  · rename_i hnone
    intro v hv
    simpa using List.find?_eq_none.mp hnone v hv

theorem validateLink_eq_ok {x : External} {earlier : List Tunnel} {t : Tunnel} {u : Unit}
    (h : t.validateLink x earlier = .ok u) :
    (interfaceNameOk t.name = true ∧ isIPv4Prefix t.address = true ∧
      (0 < t.fwmark ∧ t.fwmark ≤ 4294967295) ∧ 0 < t.table ∧ t.table ≤ 2147483647) ∧
      ∀ v ∈ earlier, v.name ≠ t.name ∧ v.fwmark ≠ t.fwmark ∧ v.table ≠ t.table := by
  unfold Tunnel.validateLink at h
  simp only [bind_eq_ok, require_eq_ok, Bool.and_eq_true, decide_eq_true_eq] at h
  obtain ⟨_, -, _, hname, _, hnew, _, -, _, -, _, haddr, _, -, _, hmark, _, hmarks, _, htable,
    htables⟩ := h
  refine ⟨⟨hname, haddr, hmark, htable⟩, fun v hv => ⟨fun he => ?_, ?_, ?_⟩⟩
  · exact hnew (List.mem_map.mpr ⟨v, hv, he⟩)
  · exact requireUnused_eq_ok hmarks v hv
  · exact requireUnused_eq_ok htables v hv

/-- The checks of one tunnel on its own and against those before it. -/
theorem validateTunnel_eq_ok {x : External} {earlier out : List Tunnel} {t : Tunnel}
    (h : t.validate x earlier = .ok out) :
    out = earlier ++ [t] ∧
      (∀ u ∈ earlier, u.name ≠ t.name ∧ u.fwmark ≠ t.fwmark ∧ u.table ≠ t.table) ∧ t.Valid := by
  unfold Tunnel.validate at h
  simp only [bind_eq_ok, pure_eq_ok] at h
  obtain ⟨_, hlink, _, -, seen, hroutes, rfl⟩ := h
  obtain ⟨⟨hname, haddr, hmark, htable⟩, happart⟩ := validateLink_eq_ok hlink
  obtain ⟨-, hpair, hall⟩ := foldlM_collect canonicalRoute (· ≠ ·) (isIPv4Prefix · = true)
    (fun _ _ _ => validateRoute_eq_ok) hroutes
  exact ⟨rfl, happart, hname, haddr, hmark, htable, hall, hpair⟩

theorem validateGatewayRoute_eq_ok {earlier out : List (String × Prefix)}
    {route : String × Prefix} (h : validateGatewayRoute earlier route = .ok out) :
    out = earlier ++ [route] ∧
      ∀ other ∈ earlier, other.1 ≠ route.1 → other.2.overlaps route.2 = false := by
  unfold validateGatewayRoute at h
  split at h
  · cases h
  · rename_i hnone
    cases h
    refine ⟨rfl, fun other ho hne => ?_⟩
    have := List.find?_eq_none.mp hnone other ho
    simp only [Bool.and_eq_true, decide_eq_true_eq, not_and, Bool.not_eq_true] at this
    rw [Prefix.overlaps_comm]
    exact this (Ne.symm hne)

theorem validateHostPort_eq_ok {x : External} {addr : String} {u : Unit}
    (h : validateHostPort x addr false = .ok u) : IsHostPort addr := by
  unfold validateHostPort at h
  cases hs : splitHostPort addr with
  | none => simp [hs] at h
  | some parts =>
    obtain ⟨host, port⟩ := parts
    simp only [hs, bind_eq_ok, require_eq_ok, Bool.false_or, decide_eq_true_eq] at h
    obtain ⟨_, hhost, hport⟩ := h
    exact ⟨host, port, hs, hhost, hport⟩

theorem validateResolvers_eq_ok {x : External} {field : String} {resolvers : List String}
    {u : Unit} (h : validateResolvers x field resolvers = .ok u) :
    ∀ server ∈ resolvers, IsHostPort server := by
  unfold validateResolvers at h
  simp only [bind_eq_ok] at h
  obtain ⟨_, -, seen, hseen, -⟩ := h
  refine (foldlM_collect id (· ≠ ·) IsHostPort ?_ hseen).2.2
  intro seen server seen' hstep
  unfold validateResolver at hstep
  simp only [bind_eq_ok, mapError_eq_ok, require_eq_ok, decide_eq_true_eq, pure_eq_ok] at hstep
  obtain ⟨_, hport, _, hnew, rfl⟩ := hstep
  refine ⟨rfl, fun y hy he => hnew ?_, validateHostPort_eq_ok hport⟩
  rwa [← show y = server from he]

/-! ## The whole -/

/-- The static routes of two tunnels, found among the owned routes. -/
theorem mem_gatewayRoutes {c : Config} {t : Tunnel} {r : String} {p : Prefix}
    (ht : t ∈ c.tunnels) (hr : r ∈ t.routes) (hp : parsePrefix r = some p) :
    (t.name, p.masked) ∈ c.gatewayRoutes := by
  refine List.mem_flatMap.mpr ⟨t, ht, List.mem_filterMap.mpr ⟨r, hr, ?_⟩⟩
  simp [hp]

theorem validateTunnels_eq_ok {x : External} {c : Config} {u : Unit}
    (h : c.validateTunnels x = .ok u) :
    (∀ t ∈ c.tunnels, t.Valid) ∧
      c.tunnels.Pairwise (fun u t => u.name ≠ t.name ∧ u.fwmark ≠ t.fwmark ∧ u.table ≠ t.table) ∧
      validateAllocations (c.tunnels.map Tunnel.allocation) = .ok () ∧
      (c.gateway.enabled = true → c.gatewayRoutes.Pairwise
        fun a b => a.1 ≠ b.1 → a.2.overlaps b.2 = false) := by
  unfold Config.validateTunnels at h
  simp only [bind_eq_ok] at h
  obtain ⟨seen, htunnels, _, -, _, halloc, hgateway⟩ := h
  obtain ⟨-, hpair, hvalid⟩ := foldlM_collect id
    (fun u t : Tunnel => u.name ≠ t.name ∧ u.fwmark ≠ t.fwmark ∧ u.table ≠ t.table) Tunnel.Valid
    (fun _ _ _ => validateTunnel_eq_ok) htunnels
  rw [List.map_id] at hpair
  refine ⟨hvalid, hpair, halloc, fun henabled => ?_⟩
  rw [if_pos henabled] at hgateway
  simp only [bind_eq_ok] at hgateway
  obtain ⟨out, hout, -⟩ := hgateway
  have h := (foldlM_collect id
    (fun a b : String × Prefix => a.1 ≠ b.1 → a.2.overlaps b.2 = false) (fun _ => True)
    (fun _ _ _ h => ⟨(validateGatewayRoute_eq_ok h).1, (validateGatewayRoute_eq_ok h).2, trivial⟩)
    hout).2.1
  rwa [List.map_id] at h

/-- Acceptance changes the routing suffixes only. -/
theorem validate_eq_ok {x : External} {c d : Config} (h : c.validate x = .ok d) :
    ∃ rules, d = { c with proxy := { c.proxy with rules := rules } } := by
  unfold Config.validate at h
  simp only [bind_eq_ok, pure_eq_ok] at h
  obtain ⟨_, -, _, -, _, -, _, -, _, -, _, -, _, -, _, -, rules, -, rfl⟩ := h
  exact ⟨rules, rfl⟩

/-- Acceptance gives validity. -/
theorem validate_valid {x : External} {c d : Config} (h : c.validate x = .ok d) : d.Valid := by
  obtain ⟨rules, rfl⟩ := validate_eq_ok h
  unfold Config.validate at h
  simp only [bind_eq_ok] at h
  obtain ⟨_, -, _, -, _, -, _, htunnels, _, -, _, hgateway, _, -, _, -, _, hproxy, -⟩ := h
  obtain ⟨hvalid, hpair, halloc, hroutes⟩ := validateTunnels_eq_ok htunnels
  unfold Gateway.validate at hgateway
  simp only [bind_eq_ok, forM_eq_ok, require_eq_ok] at hgateway
  obtain ⟨_, hclients, -⟩ := hgateway
  unfold Config.validateProxy at hproxy
  simp only [bind_eq_ok, forM_eq_ok] at hproxy
  obtain ⟨_, -, _, -, _, -, _, -, _, -, _, hresolver, _, htunnelResolver, -⟩ := hproxy
  refine ⟨hvalid, ?_, ?_, ?_, halloc, hclients, ?_, validateResolvers_eq_ok hresolver,
    fun t ht => validateResolvers_eq_ok (htunnelResolver t ht)⟩
  · exact List.pairwise_map.mpr (hpair.imp fun h => h.1)
  · exact List.pairwise_map.mpr (hpair.imp fun h => h.2.1)
  · exact List.pairwise_map.mpr (hpair.imp fun h => h.2.2)
  · intro henabled t ht u hu hne r hr s hs p q hp hq
    have hsymm : Std.Symm fun a b : String × Prefix => a.1 ≠ b.1 → a.2.overlaps b.2 = false :=
      ⟨fun a b h hne => by rw [Prefix.overlaps_comm]; exact h (Ne.symm hne)⟩
    have h := (hroutes henabled).forall (mem_gatewayRoutes ht hr hp) (mem_gatewayRoutes hu hs hq)
      (fun he => hne (congrArg Prod.fst he)) hne
    rwa [Prefix.masked_overlaps, Prefix.overlaps_comm, Prefix.masked_overlaps,
      Prefix.overlaps_comm] at h

theorem parse_valid {x : External} {decoded c : Config} (h : decoded.parse x = .ok c) : c.Valid :=
  validate_valid h

/-! ## Small files -/

/-- Libraries that accept every key and name. -/
def sampleExternal : External where
  parseKey := fun _ => .ok 0
  parseRequestURI := fun _ => some ⟨"https", "example.net", false⟩
  toASCII := some
  describe := fun _ => "refused"

def sampleTunnel (name : String) (fwmark : ℤ) (routes : List String)
    (sources : List RouteSource) : Tunnel where
  name := name
  privateKey := "private"
  address := "10.0.0.2/32"
  mtu := 0
  fwmark := fwmark
  fwmarkMask := 0
  table := 0
  rulePriority := 0
  adoptExisting := false
  routes := routes
  routeSources := sources
  peer := ⟨"public", "peer.example.net:51820", [], 25⟩
  resolver := []

/-- A proxy section in which everything is left to its default. -/
def blankProxy : ProxySection :=
  ⟨"", "", "", [], 0, 0, 0, 0, 0, 0, 0, 0, ⟨[], []⟩, [], 0, 0, 0, 0, 0, 0, 0, 0, 0, "", 0, "", 0, []⟩

/-- A file with tunnels and a gateway and otherwise defaults. -/
def sampleFile (tunnels : List Tunnel) (gateway : Gateway) : Config where
  tunnels := tunnels
  groups := []
  proxy := blankProxy
  gateway := gateway
  routeRefresh := 0
  healthInterval := 0
  pfSync := ⟨false, "", 0, "", "", "", "", []⟩
  management := ⟨true, "", 0, 0, 0, 0, 0, false⟩
  healthProbe := ⟨false, "", "", 0, 0, 0, 0, 0, 0, 0⟩

end SakhtarWg
