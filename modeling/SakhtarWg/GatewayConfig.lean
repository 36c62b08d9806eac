import SakhtarWg.ConfigValid
import SakhtarWg.GatewayPolicy
import SakhtarWg.EgressGuard

/-!
# Firewall rulesets of a configuration

The two compilers applied to a configuration, and which configurations they accept.
-/

namespace SakhtarWg
open Text Netip Fallible Kernel Firewall

/-- The policy of the gateway: tunnels without routes are left out. -/
def Config.gatewayPolicy (c : Config) : Policy :=
  if c.gateway.enabled then
    ⟨c.gateway.clientCIDRs,
      (c.tunnels.filter fun t => t.routes ≠ []).map fun t => ⟨t.name, t.routes⟩⟩
  else ⟨[], []⟩

def compileGatewayRuleset (c : Config) : Except String Ruleset :=
  (compile c.gatewayPolicy).mapError fun e => "compile gateway firewall policy: " ++ e

def Tunnel.guard (t : Tunnel) : MarkGuard := ⟨t.name, BitVec.ofInt 32 t.fwmark, t.fwmarkMask⟩

def compileEgressGuardRuleset (c : Config) : Except String Ruleset := do
  let chain ← (compileEgressGuard (c.tunnels.map Tunnel.guard)).mapError
    fun e => "compile egress guard: " ++ e
  return ⟨[chain]⟩

/-! ## The gateway -/

/-- No prefix of one list overlaps a prefix of the other. -/
def RoutesApart (routes routes' : List String) : Prop :=
  ∀ r ∈ routes, ∀ s ∈ routes', ∀ p q, parsePrefix r = some p → parsePrefix s = some q →
    p.overlaps q = false

/-- What the gateway needs to know about a configuration besides its routes. -/
structure Config.Named (c : Config) : Prop where
  name : ∀ t ∈ c.tunnels, interfaceNameOk t.name = true
  names : (c.tunnels.map (·.name)).Nodup
  clients : ∀ s ∈ c.gateway.clientCIDRs, isIPv4Prefix s = true

theorem Config.Valid.named {c : Config} (h : c.Valid) : c.Named :=
  ⟨fun t ht => (h.tunnel t ht).name, h.names, h.clients⟩

theorem mem_gatewayTunnels {c : Config} (henabled : c.gateway.enabled = true) (p : TunnelPolicy) :
    p ∈ c.gatewayPolicy.tunnels ↔ ∃ t ∈ c.tunnels, t.routes ≠ [] ∧ p = ⟨t.name, t.routes⟩ := by
  simp [Config.gatewayPolicy, henabled, and_assoc, eq_comm (a := p)]

/-- A disabled gateway always compiles; an enabled one when the routes of its tunnels are IPv4
prefixes and those of different tunnels do not overlap. -/
theorem compileGatewayRuleset_iff {c : Config} (h : c.Named) :
    (∃ ruleset, compileGatewayRuleset c = .ok ruleset) ↔
      (c.gateway.enabled = true → (∀ t ∈ c.tunnels, ∀ r ∈ t.routes, isIPv4Prefix r = true) ∧
        ∀ t ∈ c.tunnels, ∀ u ∈ c.tunnels, t.name ≠ u.name → RoutesApart t.routes u.routes) := by
  simp only [compileGatewayRuleset, mapError_eq_ok]
  by_cases henabled : c.gateway.enabled = true
  · have hsub : ((c.gatewayPolicy.tunnels.map (·.interface)).Sublist
        (c.tunnels.map (·.name))) := by
      simp only [Config.gatewayPolicy, henabled, if_true, List.map_map]
      exact List.filter_sublist.map _
    rw [compile_iff (fun p hp => ?_) (h.names.sublist hsub) (fun s hs => ?_)]
    · simp only [henabled, forall_const, mem_gatewayTunnels henabled, isIPv4Prefix_iff]
      constructor
      · rintro ⟨hdest, hapart⟩
        refine ⟨fun t ht r hr => hdest _ ⟨t, ht, List.ne_nil_of_mem hr, rfl⟩ r hr, ?_⟩
        intro t ht u hu hne r hr s hs
        exact hapart _ ⟨t, ht, List.ne_nil_of_mem hr, rfl⟩ _ ⟨u, hu, List.ne_nil_of_mem hs, rfl⟩
          hne r hr s hs
      · rintro ⟨hroutes, hapart⟩
        constructor
        · rintro _ ⟨t, ht, -, rfl⟩
          exact hroutes t ht
        · rintro _ ⟨t, ht, -, rfl⟩ _ ⟨u, hu, -, rfl⟩ hne
          exact hapart t ht u hu hne
    · obtain ⟨t, ht, -, rfl⟩ := (mem_gatewayTunnels henabled p).mp hp
      exact validInterface_ok (h.name t ht)
    · refine isIPv4Prefix_iff.mp (h.clients s ?_)
      simpa [Config.gatewayPolicy, henabled] using hs
  · have hempty : c.gatewayPolicy = ⟨[], []⟩ := by simp [Config.gatewayPolicy, henabled]
    rw [hempty]
    exact iff_of_true ⟨_, rfl⟩ (fun h => absurd h henabled)

/-! ## The guard -/

theorem compileEgressGuardRuleset_total {c : Config} (h : c.Valid) :
    ∃ sorted : List MarkGuard, sorted.Perm (c.tunnels.map Tunnel.guard) ∧
      compileEgressGuardRuleset c = .ok ⟨[outputChainWith
        (if c.tunnels = [] then [] else loopbackRule :: sorted.map guardRule)]⟩ := by
  by_cases hne : c.tunnels = []
  · exact ⟨[], by simp [hne], by simp [compileEgressGuardRuleset, hne, compileEgressGuard]; rfl⟩
  · obtain ⟨sorted, hperm, hok⟩ := compileEgressGuard_total (c.tunnels.map Tunnel.guard)
      (by
        intro g hg
        obtain ⟨t, ht, rfl⟩ := List.mem_map.mp hg
        have hv := (validateAllocations_eq_ok h.allocations).1 _ (List.mem_map_of_mem ht)
        exact ⟨(h.tunnel t ht).name, hv.mark, hv.mask, hv.own⟩)
      (by simpa [Tunnel.guard, Function.comp_def] using h.names) (by simpa using hne)
    refine ⟨sorted, hperm, ?_⟩
    rw [compileEgressGuardRuleset, hok, if_neg hne]
    rfl

end SakhtarWg
