import SakhtarWg.HostEval
import SakhtarWg.PlanConverge

/-!
# The dry run

`buildKernelPlan` measures the kernel against the configuration. It renders the links,
addresses, routes and rules of every tunnel as texts and compares those; foreign objects
on an owned link and stale ownership markers are reported as drift.
-/

namespace SakhtarWg
open Text Netip Fallible Kernel Program

/-! ## Texts -/

def linkEvidence : String := "key-derived sakhtar-wg link alias"

def addressEvidence : String := "exact configured address on owned link"

def ruleEvidence : String := "reserved priority + rule protocol " ++ toString routeProtocol

def ownedEvidence (owned : Bool) (evidence : String) : String := if owned then evidence else ""

def plannedRouteID (name : String) (table : ℤ) (destination : String) : String :=
  "table=" ++ toString table ++ "/link=" ++ name ++ "/dst=" ++ destination

def plannedRuleValue (rule : Rule) : String :=
  "mark=" ++ hex rule.mark.toNat ++ "/" ++ hex (ruleMask rule.mask).toNat ++ ",table=" ++
    toString rule.table ++ ",protocol=" ++ toString rule.protocol

def canonicalCIDR (raw : String) : String :=
  match parseCIDR raw.toList with
  | some (a, n) => ipNetString a n
  | none => raw

def canonicalAddress (raw : String) : String :=
  match parseCIDR raw.toList with
  | some (a, n) => a.unmap.string ++ "/" ++ toString n
  | none => raw

/-! ## Desired objects -/

def linkValue (t : Tunnel) : String :=
  "type=wireguard,mtu=" ++ toString t.mtu ++ ",configuration=desired"

def desiredRouteObject (name : String) (table : ℤ) (destination : String) : Object :=
  ⟨.route, plannedRouteID name table destination, protocolValue routeProtocol, true,
    routeEvidence, false⟩

def desiredLinkObject (t : Tunnel) (adopt : Bool) : Object :=
  ⟨.link, t.name, linkValue t, true, linkEvidence, adopt⟩

def desiredAddressObject (t : Tunnel) : Object :=
  ⟨.address, t.name ++ "/" ++ canonicalAddress t.address, canonicalAddress t.address, true,
    addressEvidence, false⟩

def desiredRouteObjects (t : Tunnel) : List Object :=
  desiredRouteObject t.name t.table "0.0.0.0/0" ::
    t.routes.map fun r => desiredRouteObject t.name mainTable (canonicalCIDR r)

def ruleID (priority : ℤ) : String := "priority=" ++ toString priority

def desiredRuleObject (t : Tunnel) : Object :=
  ⟨.rule, ruleID t.rulePriority, plannedRuleValue (markRule t), true, ruleEvidence, false⟩

/-! ## Observed objects -/

/-- What is found of one tunnel. -/
structure Survey where
  current : List Object
  desired : List Object
  drift : List Drift

section
variable (x : Library)

def linkOwned (link : Link) (t : Tunnel) : Bool :=
  (ownedLinkMode x link t).toBool && link.attrs.kind = "wireguard"

def linkOwnershipEvidence (link : Link) (t : Tunnel) : String :=
  ownedEvidence (ownedLinkMode x link t).toBool linkEvidence

/-- The device of a WireGuard link is configured as desired. -/
def configMatches (link : Link) (t : Tunnel) : Net Bool :=
  if link.attrs.kind = "wireguard" then do
    let device ← Net.check (.device t.name) fun e => t.name ++ ": inspect wireguard config: " ++ e
    deviceMatchesTunnel x device t
  else pure false

/-- An unowned link that may be adopted. -/
def adoptable (link : Link) (t : Tunnel) : Net Bool :=
  if !linkOwned x link t && t.adoptExisting then do
    match ← Prog.attempt (verifyAdoptionCandidate x link t) with
    | .ok _ => return true
    | .error _ => return false
  else pure false

def linkObject (link : Link) (t : Tunnel) (same adopt : Bool) : Object :=
  ⟨.link, t.name,
    if (linkOwned x link t && same) || adopt then linkValue t
    else "type=" ++ link.attrs.kind ++ ",mtu=" ++ toString link.attrs.mtu ++
      ",configuration=drifted",
    linkOwned x link t, linkOwnershipEvidence x link t, false⟩

/-- An address on an owned link is owned if it is the configured one. -/
def addressOwned (link : Link) (t : Tunnel) (a : Prefix) : Bool :=
  linkOwned x link t && addressKey a = canonicalAddress t.address

def addressObject (link : Link) (t : Tunnel) (a : Prefix) : Object :=
  ⟨.address, t.name ++ "/" ++ addressKey a, addressKey a, addressOwned x link t a,
    ownedEvidence (addressOwned x link t a) addressEvidence, false⟩

def addressDrift (t : Tunnel) (a : Prefix) : Drift :=
  ⟨.address, t.name ++ "/" ++ addressKey a, false, "unattributed address on owned link is preserved"⟩

def routeOwned (link : Link) (t : Tunnel) (r : Route) : Bool :=
  linkOwned x link t && r.protocol = routeProtocol

/-- Routes of the main table and the table of the tunnel, and owned ones of any table; those
that come with the configured address are left out. -/
def plannedRoute (link : Link) (t : Tunnel) (r : Route) : Bool :=
  (r.table = mainTable || r.table = t.table || routeOwned x link t r) &&
    !addressGeneratedRoute (parseNet t.address) r

def routeObject (link : Link) (t : Tunnel) (r : Route) : Object :=
  ⟨.route, plannedRouteID t.name r.table (routeDestination r), protocolValue r.protocol,
    routeOwned x link t r, ownedEvidence (routeOwned x link t r) routeEvidence, false⟩

def routeDrift (t : Tunnel) (r : Route) : Drift :=
  ⟨.route, plannedRouteID t.name r.table (routeDestination r), false,
    "foreign route on owned link is preserved"⟩

def ruleObject (rule : Rule) : Object :=
  ⟨.rule, ruleID rule.priority, plannedRuleValue rule, rule.protocol = routeProtocol,
    ownedEvidence (rule.protocol = routeProtocol) ruleEvidence, false⟩

/-- The link, its addresses and its routes; what is on an owned link and not owned itself is
drift. -/
def surveyLink (link : Link) (t : Tunnel) (same adopt : Bool) (addresses : List Prefix)
    (routes : List Route) : Survey :=
  let planned := routes.filter (plannedRoute x link t)
  { current := linkObject x link t same adopt :: addresses.map (addressObject x link t) ++
      planned.map (routeObject x link t)
    desired := desiredLinkObject t adopt :: desiredAddressObject t :: desiredRouteObjects t
    drift :=
      if linkOwned x link t then
        (addresses.filter fun a => !addressOwned x link t a).map (addressDrift t) ++
          (planned.filter fun r => !routeOwned x link t r).map (routeDrift t)
      else [] }

def surveyTunnel (t : Tunnel) : Net Survey := do
  match ← lookupLink t.name with
  | none => return ⟨[], desiredLinkObject t false :: desiredAddressObject t ::
      desiredRouteObjects t, []⟩
  | some link => do
    let same ← configMatches x link t
    let adopt ← adoptable x link t
    let addresses ← Net.check (.addrList link.index .v4) fun e =>
      t.name ++ ": list addresses for plan: " ++ e
    let routes ← listAllRoutesOnLink link .v4 fun e => t.name ++ ": list routes for plan: " ++ e
    return surveyLink x link t same adopt addresses routes

/-! ## The plan -/

/-- Links with an ownership marker that no tunnel is named after. -/
def staleDrift (c : Config) (links : List Link) : List Drift :=
  (links.filter fun l => linkAliasPrefix.toList.isPrefixOf l.attrs.ifAlias.toList &&
    l.name ∉ c.tunnels.map (·.name)).map fun l =>
      ⟨.link, l.name, false,
        "owned marker is not in desired config; cleanup requires the last owning config"⟩

/-- Observed drift is added unless its object is already reported. -/
def mergeDrift (drift observed : List Drift) : List Drift :=
  observed.foldl (fun drift d => if d.key ∈ drift.map Drift.key then drift else drift ++ [d]) drift

/-- By kind and identifier. -/
def sortDrift (drift : List Drift) : List Drift :=
  drift.insertionSort fun a b =>
    if a.kind = b.kind then a.id ≤ b.id else a.kind.text ≤ b.kind.text

def ruleObjects (rules : List Rule) (t : Tunnel) : List Object :=
  (rules.filter fun r => r.priority = t.rulePriority).map ruleObject

def currentObjects (c : Config) (surveys : List Survey) (rules : List Rule) : List Object :=
  surveys.flatMap (·.current) ++ c.tunnels.flatMap (ruleObjects rules)

def desiredObjects (c : Config) (surveys : List Survey) : List Object :=
  surveys.flatMap (·.desired) ++ c.tunnels.map desiredRuleObject

def observedDrift (c : Config) (surveys : List Survey) (links : List Link) : List Drift :=
  surveys.flatMap (·.drift) ++ staleDrift c links

def buildKernelPlan (c : Config) : Net Plan := do
  let surveys ← c.tunnels.mapM (surveyTunnel x)
  let rules ← Net.check .ruleList fun e => "list policy rules for plan: " ++ e
  let links ← Net.check .linkList fun e => "list links for stale ownership markers: " ++ e
  let plan ← Net.ofExcept (planDiff (currentObjects c surveys rules) (desiredObjects c surveys))
  return { plan with drift := sortDrift (mergeDrift plan.drift (observedDrift c surveys links)) }

end

end SakhtarWg
