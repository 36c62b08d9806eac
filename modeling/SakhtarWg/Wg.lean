import SakhtarWg.Cidr
import SakhtarWg.Host
import SakhtarWg.Planner

/-!
# Tunnels in the kernel

The reconciler of one tunnel: its link and ownership alias, its address, its default
route with the policy rule, its static routes, and its removal.
-/

namespace SakhtarWg
open Text Netip Fallible Kernel Program

/-- Libraries the reconciler uses besides those of the configuration: the public key of a
private one, and the first half of the hexadecimal digest of a public key. -/
structure Library extends External where
  publicKey : BitVec 256 → BitVec 256
  fingerprint : BitVec 256 → String

abbrev Net := ExceptT String (Prog Cmd Cmd.Response)

namespace Net

/-- A call whose error the caller looks at. -/
def call (c : Sys) : Net (Except Errno c.Value) := ExceptT.lift (Prog.perform (Cmd.sys c))

/-- A call whose error is passed on in the caller's words. -/
def check (c : Sys) (wrap : String → String) : Net c.Value := do
  match ← call c with
  | .ok v => return v
  | .error e => throw (wrap e.message)

/-- A deletion for which a missing object is no error. -/
def delete (c : Sys) (wrap : String → String) : Net Unit := do
  match ← call c with
  | .ok _ => return ()
  | .error .noEnt => return ()
  | .error e => throw (wrap e.message)

def ofExcept {α : Type} (r : Except String α) : Net α := ExceptT.mk (pure r)

/-- Refuse with `e` unless the condition holds. -/
def require (c : Bool) (e : String) : Net Unit := ofExcept (Fallible.require c e)

/-- The error of a step as a list, for callers that carry on. -/
def collect (p : Net Unit) : Net (List String) := do
  match ← Prog.attempt p with
  | .ok _ => return []
  | .error e => return [e]

/-- Errors of the step under a heading. -/
def within {α : Type} (label : String) (p : Net α) : Net α := do
  match ← Prog.attempt p with
  | .ok a => return a
  | .error e => throw (label ++ ": " ++ e)

def whenever (c : Bool) (p : Net Unit) : Net Unit := if c then p else pure ()

def collectAll {α : Type} (f : α → Net Unit) : List α → Net (List String)
  | [] => return []
  | a :: l => do
    let errs ← collect (f a)
    let rest ← collectAll f l
    return errs ++ rest

end Net

/-- `errors.Join`. -/
def joinErrors (errs : List String) : Except String Unit :=
  if errs = [] then .ok () else .error (String.intercalate "\n" errs)

/-! ## Ownership -/

def linkAliasPrefix : String := "sakhtar-wg:v1:"

inductive LinkMode
  | created | adopted
  deriving DecidableEq

def LinkMode.text : LinkMode → String
  | .created => "created"
  | .adopted => "adopted"

section
variable (x : Library)

def ownershipAlias (t : Tunnel) (mode : LinkMode) : String :=
  match x.parseKey t.privateKey with
  | .error _ => linkAliasPrefix ++ mode.text ++ ":invalid"
  | .ok key => linkAliasPrefix ++ mode.text ++ ":" ++ x.fingerprint (x.publicKey key)

def ownedLinkMode (link : Link) (t : Tunnel) : Except String LinkMode :=
  match [LinkMode.created, .adopted].find? fun mode =>
    link.attrs.ifAlias = ownershipAlias x t mode with
  | some mode => .ok mode
  | none => .error (t.name ++ ": ownership alias " ++ quote link.attrs.ifAlias ++
      " does not match configured key identity")

/-! ## The WireGuard device -/

/-- `net.ParseCIDR`: an address with the length of its mask. -/
def parseNet (s : String) : Option Prefix :=
  match parseCIDR s.toList with
  | some (a, n) => if h : n ≤ a.bitLen then some ⟨a, n, h⟩ else none
  | none => none

def allowedPrefix (t : Tunnel) (cidr : String) : Except String Prefix :=
  match parseNet cidr with
  | some p => .ok p.masked
  | none => .error (t.name ++ ": allowed_ips " ++ quote cidr ++ ": " ++ x.describe cidr)

def wgConfig (t : Tunnel) : Net WgConfig := do
  let priv ← Net.ofExcept ((x.parseKey t.privateKey).mapError fun e =>
    t.name ++ ": private_key: " ++ e)
  let pub ← Net.ofExcept ((x.parseKey t.peer.publicKey).mapError fun e =>
    t.name ++ ": peer.public_key: " ++ e)
  let endpoint ← Net.check (.resolveUDPAddr t.peer.endpoint) fun e =>
    t.name ++ ": peer.endpoint " ++ quote t.peer.endpoint ++ ": " ++ e
  let allowed ← Net.ofExcept (t.peer.allowedIPs.mapM (allowedPrefix x t))
  let keepalive := if 0 < t.peer.keepalive then some (t.peer.keepalive * 1000000000) else none
  return ⟨priv, [⟨pub, endpoint, allowed, keepalive⟩]⟩

/-- The public key a device reports; an unset key reads as zero. -/
def Device.publicKey (d : Device) : BitVec 256 := (d.privateKey.map x.publicKey).getD 0

def verifyExistingKeyIdentity (t : Tunnel) : Net Unit := do
  let device ← Net.check (.device t.name) fun e => t.name ++ ": inspect wireguard identity: " ++ e
  let key ← Net.ofExcept ((x.parseKey t.privateKey).mapError fun e =>
    t.name ++ ": parse private key for identity: " ++ e)
  Net.require (device.publicKey x = 0 || device.publicKey x = x.publicKey key)
    (t.name ++ ": owned link has an unexpected WireGuard key identity")

def sortedPrefixes (prefixes : List Prefix) : String :=
  String.intercalate "," (sortStrings (prefixes.map fun p => ipNetString p.addr p.bits))

def deviceMatchesTunnel (device : Device) (t : Tunnel) : Net Bool := do
  let compiled ← wgConfig x t
  match device.peers, compiled.peers with
  | [current], [desired] =>
    return device.publicKey x = x.publicKey compiled.privateKey &&
      current.publicKey = desired.publicKey && current.keepalive = desired.keepalive.getD 0 &&
      current.endpoint = some desired.endpoint &&
      sortedPrefixes current.allowedIPs = sortedPrefixes desired.allowedIPs
  | _, _ => return false

/-! ## Links -/

def lookupLink (name : String) : Net (Option Link) := do
  match ← Net.call (.linkByName name) with
  | .ok l => return some l
  | .error .notFound => return none
  | .error e => throw (name ++ ": lookup link: " ++ e.message)

def listAllRoutesOnLink (link : Link) (family : Family) (wrap : String → String) :
    Net (List Route) :=
  Net.check (.routeList family ⟨some link.index, 0, none⟩) wrap

def linkGeneratedRoute (r : Route) : Bool :=
  r.protocol = 2 && r.table = 255 && r.dst.string = "ff00::/8"

/-- A rule that uses the priority, the mark or the table of the tunnel stands in the way. -/
def refuseRule (t : Tunnel) (rules : List Rule) : Except String Unit :=
  match rules.find? fun r =>
    r.priority = t.rulePriority || r.mark = BitVec.ofInt 32 t.fwmark || r.table = t.table with
  | some r => .error (t.name ++ ": adoption refused: conflicting policy rule at priority " ++
      toString r.priority)
  | none => .ok ()

def verifyAdoptionCandidate (link : Link) (t : Tunnel) : Net Unit := do
  Net.require (link.attrs.mtu = t.mtu) (t.name ++ ": adoption refused: MTU " ++
    toString link.attrs.mtu ++ " differs from desired " ++ toString t.mtu)
  Net.require link.attrs.up (t.name ++ ": adoption refused: existing link must already be up")
  let addresses ← Net.check (.addrList link.index .all) fun e =>
    t.name ++ ": inspect addresses before adoption: " ++ e
  Net.require (addresses = []) (t.name ++ ": adoption refused: existing link has " ++
    toString addresses.length ++ " address(es)")
  let routes ← listAllRoutesOnLink link .all fun e =>
    t.name ++ ": inspect routes before adoption: " ++ e
  let conflicting := routes.filter fun r => !linkGeneratedRoute r
  Net.require (conflicting = []) (t.name ++ ": adoption refused: existing link has " ++
    toString conflicting.length ++ " conflicting route(s)")
  let rules ← Net.check .ruleList fun e => t.name ++ ": inspect rules before adoption: " ++ e
  Net.ofExcept (refuseRule t rules)
  let device ← Net.check (.device t.name) fun e =>
    t.name ++ ": inspect WireGuard config before adoption: " ++ e
  let same ← deviceMatchesTunnel x device t
  Net.require same (t.name ++
    ": adoption refused: WireGuard key/peer configuration differs from desired state")

def verifyAdoptedLink (link : Link) (t : Tunnel) : Net Unit := do
  Net.require (link.attrs.mtu = t.mtu && link.attrs.up) (t.name ++
    ": adopted link MTU/up state drifted; refusing to mutate pre-existing link properties")
  let device ← Net.check (.device t.name) fun e =>
    t.name ++ ": inspect adopted WireGuard config: " ++ e
  let same ← deviceMatchesTunnel x device t
  Net.require same (t.name ++
    ": adopted WireGuard configuration drifted; refusing to overwrite pre-existing device state")

/-- A second lookup that has to find the link. -/
def relookup (name missing : String) : Net Link := do
  match ← lookupLink name with
  | some l => return l
  | none => throw missing

/-- Give up a link that was just created. -/
def abandon {α : Type} (index : ℕ) (err : String) : Net α := do
  match ← Net.call (.linkDel index) with
  | .ok _ => throw err
  | .error e => throw (err ++ "\n" ++ e.message)

/-- Create the link and mark it as owned; a link that cannot be marked is deleted. -/
def createLink (t : Tunnel) : Net Link := do
  let candidate ← Net.check (.linkAdd t.name t.mtu "wireguard") fun e =>
    t.name ++ ": create wireguard link: " ++ e
  match ← Prog.attempt (relookup t.name "link disappeared after creation") with
  | .error e => abandon candidate (t.name ++ ": look up newly-created link: " ++ e)
  | .ok created =>
    match ← Net.call (.linkSetAlias created.index (ownershipAlias x t .created)) with
    | .error e => abandon created.index (t.name ++ ": set ownership alias: " ++ e.message)
    | .ok _ =>
      match ← Prog.attempt (relookup t.name "link disappeared after alias update") with
      | .error e => abandon created.index (t.name ++ ": verify ownership alias: " ++ e)
      | .ok marked => return marked

/-- Take over a link that carries no alias and is configured exactly as desired. -/
def adoptLink (link : Link) (t : Tunnel) : Net Link := do
  Net.require (link.attrs.ifAlias = "") (t.name ++ ": existing link alias " ++
    quote link.attrs.ifAlias ++ " is foreign; refusing to overwrite metadata")
  verifyAdoptionCandidate x link t
  let _ ← Net.check (.linkSetAlias link.index (ownershipAlias x t .adopted)) fun e =>
    t.name ++ ": mark adopted link: " ++ e
  match ← Prog.attempt (relookup t.name "link disappeared after adoption") with
  | .error e => throw (t.name ++ ": verify adoption marker: " ++ e)
  | .ok marked => return marked

def ensureOwnedLink (t : Tunnel) : Net Link := do
  match ← lookupLink t.name with
  | none => createLink x t
  | some link =>
    Net.require (link.attrs.kind = "wireguard")
      (t.name ++ ": existing link is " ++ quote link.attrs.kind ++ ", not wireguard")
    match ownedLinkMode x link t with
    | .ok _ =>
      verifyExistingKeyIdentity x t
      return link
    | .error _ =>
      Net.require t.adoptExisting (t.name ++
        ": same-name link exists without the expected sakhtar-wg ownership marker")
      adoptLink x link t

/-! ## Addresses -/

/-- The address and the length of its mask, as the reconciler compares them. -/
def addressKey (p : Prefix) : String := p.addr.unmap.string ++ "/" ++ toString p.bits

/-- An address with the desired IP under another mask. -/
def conflictingAddress (desired : Prefix) (addresses : List Prefix) : Option Prefix :=
  addresses.find? fun a =>
    addressKey a ≠ addressKey desired && a.addr.unmap = desired.addr.unmap

def containsAddress (addresses : List Prefix) (desired : Prefix) : Bool :=
  addresses.any fun a => addressKey a = addressKey desired

/-- `netlink.ParseAddr` of the configured address. -/
def parseAddress (t : Tunnel) (wrap : String → String) : Except String Prefix :=
  match parseNet t.address with
  | some p => .ok p
  | none => .error (wrap (x.describe t.address))

/-- Addresses other than the desired one stay. -/
def reconcileAddress (link : Link) (t : Tunnel) : Net Unit := do
  let desired ← Net.ofExcept (parseAddress x t fun e =>
    t.name ++ ": address " ++ quote t.address ++ ": " ++ e)
  let addresses ← Net.check (.addrList link.index .v4) fun e =>
    t.name ++ ": list addresses: " ++ e
  match conflictingAddress desired addresses with
  | some a => throw (t.name ++ ": address " ++ a.string ++ " conflicts with desired " ++
      desired.string ++ "; ownership is ambiguous")
  | none =>
    if containsAddress addresses desired then return ()
    else Net.check (.addrAdd link.index desired) fun e =>
      t.name ++ ": add address " ++ desired.string ++ ": " ++ e

end

/-! ## Routes -/

def routeDestination (r : Route) : String := r.dst.string

def routeID (r : Route) : String :=
  "table=" ++ toString r.table ++ "/link=" ++ toString r.link ++ "/dst=" ++ routeDestination r

def routeEvidence : String := "route protocol " ++ toString routeProtocol ++ " + owned link alias"

def protocolValue (protocol : ℕ) : String := "protocol=" ++ toString protocol

def currentObject (r : Route) : Object :=
  ⟨.route, routeID r, protocolValue r.protocol, r.protocol = routeProtocol,
    if r.protocol = routeProtocol then routeEvidence else "", false⟩

def desiredObject (r : Route) : Object :=
  ⟨.route, routeID r, protocolValue routeProtocol, true, routeEvidence, false⟩

/-- Two routes under one identifier cannot be told apart. -/
def noteRoute (name : String) (seen : List Route) (r : Route) : Except String (List Route) := do
  require (routeID r ∉ seen.map routeID)
    (name ++ ": multiple routes occupy " ++ routeID r ++ "; refusing ambiguous reconciliation")
  return seen ++ [r]

/-- The plan for the listed routes, with the routes it is about. -/
def routePlan (name : String) (current desired : List Route) : Except String Plan := do
  let plan ← (planDiff (current.map currentObject) (desired.map desiredObject)).mapError fun e =>
    name ++ ": plan routes: " ++ e
  match plan.drift with
  | d :: _ =>
    require (!plan.hasBlockingDrift)
      (name ++ ": route ownership conflict at " ++ d.id ++ ": " ++ d.reason)
    return plan
  | [] => return plan

/-- What a map from identifiers to routes holds; an absent identifier gives the zero route. -/
def routeNamed (routes : List Route) (id : String) : Route :=
  (routes.find? fun r => routeID r = id).getD ⟨⟨0, ⟨.v4 0, 0, Nat.zero_le _⟩, 0, none⟩, 0⟩

def applyRouteOperation (name : String) (current desired : List Route) (phase : Action)
    (op : Operation) : Net Unit :=
  if op.action ≠ phase then pure ()
  else match op.action with
    | .add => Net.check (.routeAdd (routeNamed desired op.id)) fun e =>
        name ++ ": add route " ++ op.id ++ ": " ++ e
    | .delete => Net.delete (.routeDel (routeNamed current op.id)) fun e =>
        name ++ ": delete owned route " ++ op.id ++ ": " ++ e
    | .update => throw (name ++ ": unsupported route operation " ++ op.action.text)

/-- Additions precede withdrawals. -/
def reconcileRouteSet (name : String) (link : Link) (table : ℤ) (desired : List Route)
    (relevant : Route → Bool) : Net Unit := do
  let existing ← Net.check (.routeList .v4 ⟨some link.index, table, none⟩) fun e =>
    name ++ ": list routes: " ++ e
  let current ← Net.ofExcept ((existing.filter relevant).foldlM (noteRoute name) [])
  let plan ← Net.ofExcept (routePlan name current desired)
  [Action.add, .delete].forM fun phase =>
    plan.operations.forM (applyRouteOperation name current desired phase)

def defaultDst : Prefix := ⟨.v4 0, 0, Nat.zero_le _⟩

def ownedRoute (link : Link) (table : ℤ) (dst : Prefix) : Route :=
  ⟨⟨table, dst, routeProtocol, none⟩, link.index⟩

def reconcileDefaultRoute (link : Link) (t : Tunnel) : Net Unit :=
  reconcileRouteSet t.name link 0 [ownedRoute link t.table defaultDst] fun r =>
    r.table ≠ mainTable && (r.protocol = routeProtocol || r.table = t.table)

section
variable (x : Library)

def staticRoute (link : Link) (t : Tunnel) (cidr : String) : Except String Route :=
  match parseNet cidr with
  | some p => .ok (ownedRoute link mainTable p.masked)
  | none => .error (t.name ++ ": route " ++ quote cidr ++ ": " ++ x.describe cidr)

def reconcileRoutes (link : Link) (t : Tunnel) : Net Unit := do
  let desired ← Net.ofExcept (t.routes.mapM (staticRoute x link t))
  reconcileRouteSet t.name link mainTable desired fun r => r.table = mainTable

end

/-! ## Policy rules -/

def markRule (t : Tunnel) : Rule :=
  ⟨t.rulePriority, BitVec.ofInt 32 t.fwmark, some t.fwmarkMask, t.table, routeProtocol⟩

def ruleMask (mask : Option (BitVec 32)) : BitVec 32 := mask.getD fullMarkMask

def ruleEqual (a b : Rule) : Bool :=
  a.priority = b.priority && a.mark = b.mark && ruleMask a.mask = ruleMask b.mask &&
    a.table = b.table && a.protocol = b.protocol

/-- One listed rule: an exact one is kept, another owned one at the priority makes way. -/
def replaceRule (t : Tunnel) (exact : List Rule) (rule : Rule) : Net (List Rule) :=
  if rule.priority ≠ t.rulePriority then pure exact
  else if ruleEqual rule (markRule t) then pure (exact ++ [rule])
  else if rule.protocol ≠ routeProtocol then
    throw (t.name ++ ": rule priority " ++ toString t.rulePriority ++
      " is occupied by an unowned/conflicting rule")
  else do
    Net.delete (.ruleDel rule) fun e =>
      t.name ++ ": replace owned rule priority " ++ toString t.rulePriority ++ ": " ++ e
    return exact

def reconcileRule (t : Tunnel) : Net Unit := do
  let rules ← Net.check .ruleList fun e => t.name ++ ": list policy rules: " ++ e
  match ← rules.foldlM (replaceRule t) [] with
  | _ :: duplicates => duplicates.forM fun rule => Net.delete (.ruleDel rule) fun e =>
      t.name ++ ": delete duplicate owned rule priority " ++ toString t.rulePriority ++ ": " ++ e
  | [] => Net.check (.ruleAdd (markRule t)) fun e =>
      t.name ++ ": add policy rule priority " ++ toString t.rulePriority ++ " mark " ++
        hex (BitVec.ofInt 32 t.fwmark).toNat ++ "/" ++ hex t.fwmarkMask.toNat ++ " table " ++
        toString t.table ++ ": " ++ e

def deleteOwnedRule (t : Tunnel) : Net Unit := do
  let rules ← Net.check .ruleList fun e => t.name ++ ": list rules for cleanup: " ++ e
  (rules.filter fun rule => ruleEqual rule (markRule t)).forM fun rule =>
    Net.delete (.ruleDel rule) fun e => t.name ++ ": delete owned rule: " ++ e

/-! ## Up -/

/-- Read a sysctl and write it when it differs. -/
def requireSysctl (key value : String) (wrap : String → String) : Net Unit := do
  let current ← Net.check (.readSysctl key) wrap
  if String.ofList (trimSpaces current.toList) = value then return ()
  else Net.check (.writeSysctl key value) wrap

section
variable (x : Library)

def reconcilePlumbing (link : Link) (t : Tunnel) : Net Unit := do
  reconcileDefaultRoute link t
  reconcileRule t
  reconcileRoutes x link t

def setMTU (link : Link) (t : Tunnel) : Net Unit :=
  if link.attrs.mtu ≠ t.mtu then Net.check (.linkSetMTU link.index t.mtu) fun e =>
    t.name ++ ": set MTU " ++ toString t.mtu ++ ": " ++ e
  else pure ()

/-- An adopted device is checked and otherwise left alone. -/
def configureTunnel (mode : LinkMode) (t : Tunnel) (cfg : WgConfig) : Net Unit :=
  if mode ≠ .adopted then Net.check (.configureDevice t.name cfg) fun e =>
    t.name ++ ": configure wireguard: " ++ e
  else pure ()

def verifyMode (mode : LinkMode) (link : Link) (t : Tunnel) : Net Unit :=
  if mode = .adopted then verifyAdoptedLink x link t else pure ()

def tunnelUp (t : Tunnel) : Net Unit := do
  let cfg ← wgConfig x t
  let link ← ensureOwnedLink x t
  let mode ← Net.ofExcept (ownedLinkMode x link t)
  verifyMode x mode link t
  setMTU link t
  reconcileAddress x link t
  configureTunnel mode t cfg
  Net.check (.linkSetUp link.index) fun e => t.name ++ ": link up: " ++ e
  requireSysctl "net/ipv4/conf/all/src_valid_mark" "1" fun e =>
    t.name ++ ": src_valid_mark: " ++ e
  reconcilePlumbing x link t

/-! ## Down -/

def deleteOwnedRoute (t : Tunnel) (r : Route) : Net Unit :=
  Net.delete (.routeDel r) fun e =>
    t.name ++ ": delete owned route " ++ routeID r ++ ": " ++ e

def deleteOwnedRoutes (link : Link) (t : Tunnel) : Net Unit := do
  let routes ← listAllRoutesOnLink link .v4 fun e => t.name ++ ": list routes for cleanup: " ++ e
  let errs ← Net.collectAll (deleteOwnedRoute t)
    (routes.filter fun r => r.protocol = routeProtocol)
  Net.ofExcept (joinErrors errs)

/-- The route was derived by the kernel from this address. -/
def addressGeneratedRoute (address : Option Prefix) (r : Route) : Bool :=
  match address with
  | none => false
  | some a => r.protocol = 2 &&
      (r.src = some a.addr || r.dst.string = a.string || r.dst.addr = a.addr)

/-- Release an adopted link: its address goes, the marker last. -/
def releaseAdopted (link : Link) (t : Tunnel) (address : Except String Prefix)
    (addresses : Except String (List Prefix)) (cleanup : List String) : Net Unit := do
  let errs ← match address, addresses with
    | .ok a, .ok present =>
      if containsAddress present a then
        Net.collect (Net.delete (.addrDel link.index a) fun e =>
          t.name ++ ": delete owned address: " ++ e)
      else pure []
    | _, _ => pure []
  if cleanup ++ errs = [] then
    Net.check (.linkSetAlias link.index "") fun e => t.name ++ ": clear adoption marker: " ++ e
  else Net.ofExcept (joinErrors (cleanup ++ errs))

/-- Addresses that are not the tunnel's. -/
def foreignAddresses (t : Tunnel) (address : Option Prefix) (addresses : List Prefix) :
    List String :=
  (addresses.filter fun a => !address.any fun own => addressKey a = addressKey own).map fun a =>
    t.name ++ ": foreign address " ++ a.string ++ " prevents owned-link deletion"

def foreignRoutes (address : Option Prefix) (routes : List Route) : List Route :=
  routes.filter fun r => !addressGeneratedRoute address r && !linkGeneratedRoute r

/-- Delete a link the daemon created, unless something foreign is left on it. -/
def removeCreated (link : Link) (t : Tunnel) (address : Except String Prefix)
    (addresses : Except String (List Prefix)) (cleanup : List String) : Net Unit := do
  let own := address.toOption
  let addressErrs := (addresses.toOption.map (foreignAddresses t own)).getD []
  let routeErrs ← match ← Prog.attempt (listAllRoutesOnLink link .all fun e =>
      t.name ++ ": list routes before link delete: " ++ e) with
    | .error e => pure [e]
    | .ok routes =>
      if foreignRoutes own routes = [] then pure []
      else pure [t.name ++ ": " ++ toString (foreignRoutes own routes).length ++
        " foreign/unattributed route(s) prevent owned-link deletion"]
  if cleanup ++ addressErrs ++ routeErrs = [] then
    Net.delete (.linkDel link.index) fun e => t.name ++ ": delete owned link: " ++ e
  else Net.ofExcept (joinErrors (cleanup ++ addressErrs ++ routeErrs))

def errorList {α : Type} : Except String α → List String
  | .ok _ => []
  | .error e => [e]

/-- The part of `tunnelDown` for a link that is owned. -/
def ownedLinkDown (link : Link) (t : Tunnel) (mode : LinkMode) (cleanup : List String) :
    Net Unit := do
  let routeErrs ← Net.collect (deleteOwnedRoutes link t)
  let address := parseAddress x t fun e => t.name ++ ": parse owned address: " ++ e
  let addresses ← Prog.attempt (Net.check (.addrList link.index .v4) fun e =>
    t.name ++ ": list addresses before delete: " ++ e)
  let cleanup := cleanup ++ routeErrs ++ errorList address ++ errorList addresses
  match mode with
  | .adopted => releaseAdopted link t address addresses cleanup
  | .created => removeCreated link t address addresses cleanup

def tunnelDown (t : Tunnel) : Net Unit := do
  let cleanup ← Net.collect (deleteOwnedRule t)
  match ← Prog.attempt (lookupLink t.name) with
  | .error e => Net.ofExcept (joinErrors (cleanup ++ [e]))
  | .ok none => Net.ofExcept (joinErrors cleanup)
  | .ok (some link) =>
    match ownedLinkMode x link t with
    | .error e => Net.ofExcept (joinErrors (cleanup ++ [e]))
    | .ok mode => ownedLinkDown x link t mode cleanup

/-- The link of a tunnel when it is there and owned. -/
def withOwnedLink (t : Tunnel) (f : Link → Net Unit) : Net Unit := do
  match ← lookupLink t.name with
  | none => return ()
  | some link => do
    let _ ← Net.ofExcept (ownedLinkMode x link t)
    f link

def deleteExactOwnedAddress (t : Tunnel) : Net Unit :=
  withOwnedLink x t fun link => do
    let desired ← Net.ofExcept (parseAddress x t fun e =>
      t.name ++ ": parse address for exact cleanup: " ++ e)
    let addresses ← Net.check (.addrList link.index .v4) fun e =>
      t.name ++ ": list addresses for exact cleanup: " ++ e
    if containsAddress addresses desired then
      Net.delete (.addrDel link.index desired) fun e =>
        t.name ++ ": delete exact owned address " ++ addressKey desired ++ ": " ++ e
    else return ()

def deleteOwnedDefaultRoute (t : Tunnel) : Net Unit :=
  withOwnedLink x t fun link => do
    let routes ← Net.check (.routeList .v4 ⟨some link.index, t.table, none⟩) fun e =>
      t.name ++ ": list owned default route in table " ++ toString t.table ++ ": " ++ e
    let errs ← Net.collectAll
      (fun r => Net.delete (.routeDel r) fun e =>
        t.name ++ ": delete owned default route in table " ++ toString t.table ++ ": " ++ e)
      (routes.filter fun r => r.protocol = routeProtocol && routeDestination r = "0.0.0.0/0")
    Net.ofExcept (joinErrors errs)

/-! ## Reservations -/

/-- A policy rule where the daemon's own are expected. -/
def reservedRule (rule : Rule) : Bool :=
  (rulePriorityMin ≤ rule.priority && rule.priority ≤ rulePriorityMax) ||
    rule.protocol = routeProtocol

/-- The rule a configuration wants at a priority; the last tunnel wins. -/
def expectedRule (c : Config) (priority : ℤ) : Option Rule :=
  (c.tunnels.reverse.find? fun t => t.rulePriority = priority).map markRule

def reservedRules (c : Config) (rules : List Rule) : Except String Unit :=
  (rules.filter reservedRule).forM fun rule =>
    Fallible.require ((expectedRule c rule.priority).any (ruleEqual rule))
      ("policy-rule ownership conflict at reserved priority " ++ toString rule.priority)

/-- Routes under the reserved protocol have to leave through links with an ownership alias. -/
def reservedRoutes (links : List Link) (routes : List Route) : Except String Unit :=
  routes.forM fun r =>
    Fallible.require (links.any fun l => l.index = r.link &&
        linkAliasPrefix.toList.isPrefixOf l.attrs.ifAlias.toList)
      ("route protocol " ++ toString routeProtocol ++ " conflict at " ++ routeID r ++
        ": output link lacks sakhtar-wg ownership")

def validateKernelReservations (c : Config) : Net Unit := do
  let links ← Net.check .linkList fun e => "list links for ownership validation: " ++ e
  let routes ← Net.check (.routeList .v4 ⟨none, 0, some routeProtocol⟩) fun e =>
    "list reserved-protocol routes: " ++ e
  Net.ofExcept (reservedRoutes links routes)
  let rules ← Net.check .ruleList fun e => "list rules for ownership validation: " ++ e
  Net.ofExcept (reservedRules c rules)

end

end SakhtarWg
