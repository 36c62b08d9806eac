import SakhtarWg.Config
import SakhtarWg.Exec
import SakhtarWg.Inventory
import SakhtarWg.Netfilter

/-!
# The host

What the daemon sees of the kernel: links with their addresses, routes and WireGuard
device, policy rules, the packet filter and sysctls. Every call is answered from this
state; a call that fails changes nothing. Beside the routes that were added, the
kernel lists the ones it derives from the addresses of a link.
-/

namespace SakhtarWg
open Text Netip Firewall Program

inductive Errno
  | noEnt | notFound | exist | srch | noDev | netDown | addrNotAvail
  | noChain | badRule | noHost | io
  deriving DecidableEq

def Errno.message : Errno → String
  | .noEnt => "no such file or directory"
  | .notFound => "Link not found"
  | .exist => "file exists"
  | .srch => "no such process"
  | .noDev => "no such device"
  | .netDown => "network is down"
  | .addrNotAvail => "cannot assign requested address"
  | .noChain => "iptables: No chain/target/match by that name."
  | .badRule => "iptables: Bad rule (does a matching rule exist in that chain?)."
  | .noHost => "no such host"
  | .io => "input/output error"

/-! ## Objects -/

structure PeerConfig where
  publicKey : BitVec 256
  endpoint : String
  allowedIPs : List Prefix
  keepalive : Option ℤ
  deriving DecidableEq

/-- `wgtypes.Config`; peers and their prefixes are always replaced. -/
structure WgConfig where
  privateKey : BitVec 256
  peers : List PeerConfig
  deriving DecidableEq

structure DevicePeer where
  publicKey : BitVec 256
  /-- Zero when the peer has none. -/
  presharedKey : BitVec 256
  endpoint : Option String
  allowedIPs : List Prefix
  keepalive : ℤ
  deriving DecidableEq

/-- A WireGuard device. Its public key is computed from the private one where it is read. -/
structure Device where
  privateKey : Option (BitVec 256)
  peers : List DevicePeer
  deriving DecidableEq

def Device.blank : Device := ⟨none, []⟩

def Device.configured (c : WgConfig) : Device :=
  ⟨some c.privateKey,
    c.peers.map fun p => ⟨p.publicKey, 0, some p.endpoint, p.allowedIPs, p.keepalive.getD 0⟩⟩

/-- A route without its output link. -/
structure RouteEntry where
  table : ℤ
  dst : Prefix
  protocol : ℕ
  src : Option Addr
  deriving DecidableEq

/-- A route as it is listed; without an output link the index is zero. -/
structure Route extends RouteEntry where
  link : ℕ
  deriving DecidableEq

structure Rule where
  priority : ℤ
  mark : BitVec 32
  mask : Option (BitVec 32)
  table : ℤ
  protocol : ℕ
  deriving DecidableEq

structure Interface where
  kind : String
  ifAlias : String
  mtu : ℤ
  up : Bool
  addrs : List Prefix
  routes : List RouteEntry
  device : Device
  deriving DecidableEq

abbrev Link := Item Interface

def mainTable : ℤ := 254
def localTable : ℤ := 255

/-- The protocol of routes the kernel derives itself. -/
def kernelProtocol : ℕ := 2

/-! ## Derived routes -/

/-- The address itself, in the local table. -/
def localRoute (p : Prefix) : RouteEntry :=
  ⟨localTable, ⟨p.addr, p.addr.bitLen, Nat.le_refl _⟩, kernelProtocol, some p.addr⟩

/-- The networks of the addresses; a second address in a network adds none. -/
def connectedRoutes (addrs : List Prefix) : List RouteEntry :=
  let wide := addrs.filter fun p => p.bits < p.addr.bitLen
  (wide.map Prefix.masked).dedup.map fun network =>
    ⟨mainTable, network, kernelProtocol, (wide.find? fun p => p.masked = network).map (·.addr)⟩

theorem multicast_bits : 8 ≤ (Addr.v6 (0xff#128 <<< 120) "").bitLen := by decide

def multicastRoute : RouteEntry :=
  ⟨localTable, ⟨.v6 (0xff#128 <<< 120) "", 8, multicast_bits⟩, kernelProtocol, none⟩

def Interface.generated (i : Interface) : List RouteEntry :=
  if i.up then multicastRoute :: i.addrs.map localRoute ++ connectedRoutes i.addrs else []

def Interface.listed (i : Interface) : List RouteEntry := i.routes ++ i.generated

/-! ## State -/

structure Host where
  links : Inventory Interface
  /-- Routes without an output link. -/
  unbound : List RouteEntry
  rules : List Rule
  firewall : Tables
  sysctls : String → String
  /-- What an endpoint resolves to. -/
  endpoints : String → Option String
  /-- The configuration of the router new sessions read. -/
  published : Option Config

inductive Family
  | v4 | all
  deriving DecidableEq

def Family.admits : Family → Prefix → Bool
  | .v4, p => p.addr.is4
  | .all, _ => true

/-- Table zero asks for every table. -/
structure RouteFilter where
  link : Option ℕ
  table : ℤ
  protocol : Option ℕ

def RouteFilter.admits (f : RouteFilter) (r : Route) : Bool :=
  f.link.all (· = r.link) && (f.table = 0 || f.table = r.table) && f.protocol.all (· = r.protocol)

namespace Host

variable (h : Host)

def allRoutes : List Route :=
  h.links.items.flatMap (fun l => l.attrs.listed.map fun e => ⟨e, l.index⟩) ++
    h.unbound.map fun e => ⟨e, 0⟩

/-- Some route of the table has this destination, whatever its link. -/
def occupied (table : ℤ) (dst : Prefix) : Bool :=
  h.allRoutes.any fun r => r.table = table && r.dst = dst

def modifyLink (index : ℕ) (f : Interface → Interface) : Host :=
  { h with links := h.links.modify index f }

/-- The link, or the error of a call that names none. -/
def linkAt (index : ℕ) : Except Errno Link :=
  match h.links.byIndex index with
  | some l => .ok l
  | none => .error .noDev

/-! ## Calls -/

def linkByName (name : String) : Except Errno Link :=
  match h.links.find name with
  | some l => .ok l
  | none => .error .notFound

def linkAdd (name : String) (mtu : ℤ) (kind : String) : Except Errno (ℕ × Host) :=
  match h.links.find name with
  | some _ => .error .exist
  | none =>
    .ok (h.links.fresh,
      { h with links := h.links.insert name ⟨kind, "", mtu, false, [], [], Device.blank⟩ })

def linkDel (index : ℕ) : Except Errno Host := do
  let _ ← h.linkAt index
  return { h with links := h.links.remove index }

def linkSet (index : ℕ) (f : Interface → Interface) : Except Errno Host := do
  let _ ← h.linkAt index
  return h.modifyLink index f

def addrList (index : ℕ) (family : Family) : Except Errno (List Prefix) := do
  let l ← h.linkAt index
  return l.attrs.addrs.filter family.admits

def addrAdd (index : ℕ) (p : Prefix) : Except Errno Host := do
  let l ← h.linkAt index
  if p ∈ l.attrs.addrs then .error .exist
  else return h.modifyLink index fun i => { i with addrs := i.addrs ++ [p] }

def addrDel (index : ℕ) (p : Prefix) : Except Errno Host := do
  let l ← h.linkAt index
  if p ∈ l.attrs.addrs then return h.modifyLink index fun i => { i with addrs := i.addrs.erase p }
  else .error .addrNotAvail

def routeList (family : Family) (f : RouteFilter) : List Route :=
  h.allRoutes.filter fun r => family.admits r.dst && f.admits r

def routeAdd (r : Route) : Except Errno Host := do
  let l ← h.linkAt r.link
  if !l.attrs.up then .error .netDown
  else if h.occupied r.table r.dst then .error .exist
  else return h.modifyLink r.link fun i => { i with routes := i.routes ++ [r.toRouteEntry] }

def routeDel (r : Route) : Except Errno Host := do
  let l ← h.linkAt r.link
  if r.toRouteEntry ∈ l.attrs.routes then
    return h.modifyLink r.link fun i => { i with routes := i.routes.erase r.toRouteEntry }
  else .error .srch

def ruleAdd (r : Rule) : Except Errno Host :=
  if r ∈ h.rules then .error .exist else .ok { h with rules := h.rules ++ [r] }

def ruleDel (r : Rule) : Except Errno Host :=
  if r ∈ h.rules then .ok { h with rules := h.rules.erase r } else .error .noEnt

/-- The device of a WireGuard link. -/
def deviceOf (name : String) : Except Errno Link :=
  match h.links.find name with
  | some l => if l.attrs.kind = "wireguard" then .ok l else .error .noEnt
  | none => .error .noEnt

def configureDevice (name : String) (c : WgConfig) : Except Errno Host := do
  let l ← h.deviceOf name
  return h.modifyLink l.index fun i => { i with device := Device.configured c }

end Host

/-! ## Commands -/

inductive Sys
  | linkByName (name : String)
  | linkList
  | linkAdd (name : String) (mtu : ℤ) (kind : String)
  | linkDel (index : ℕ)
  | linkSetAlias (index : ℕ) (text : String)
  | linkSetMTU (index : ℕ) (mtu : ℤ)
  | linkSetUp (index : ℕ)
  | addrList (index : ℕ) (family : Family)
  | addrAdd (index : ℕ) (address : Prefix)
  | addrDel (index : ℕ) (address : Prefix)
  | routeList (family : Family) (filter : RouteFilter)
  | routeAdd (route : Route)
  | routeDel (route : Route)
  | ruleList
  | ruleAdd (rule : Rule)
  | ruleDel (rule : Rule)
  | device (name : String)
  | configureDevice (name : String) (config : WgConfig)
  | readSysctl (key : String)
  | writeSysctl (key value : String)
  | resolveUDPAddr (endpoint : String)
  | listRules (table chain : String)
  | restore (input : String)
  | insertJump (table hook comment target : String)
  | deleteJump (table hook comment target : String)

@[reducible] def Sys.Value : Sys → Type
  | .linkByName _ => Link
  | .linkList => List Link
  | .linkAdd _ _ _ => ℕ
  | .addrList _ _ => List Prefix
  | .routeList _ _ => List Route
  | .ruleList => List Rule
  | .device _ => Device
  | .readSysctl _ => String
  | .resolveUDPAddr _ => String
  | .listRules _ _ => List String
  | _ => Unit

/-- A call to the kernel, or a new router for the proxy. -/
inductive Cmd
  | sys (c : Sys)
  | publish (config : Config)

@[reducible] def Cmd.Response : Cmd → Type
  | .sys c => Except Errno c.Value
  | .publish _ => Unit

namespace Host

/-- The answer to a call that changes the state. -/
def changed (h : Host) : Except Errno Host → Except Errno Unit × Host
  | .ok h' => (.ok (), h')
  | .error e => (.error e, h)

def orErrno {α : Type} (e : Errno) : Option α → Except Errno α
  | some a => .ok a
  | none => .error e

/-- The call on the packet filter. -/
def filtered (h : Host) (e : Errno) (fw : Option Tables) : Except Errno Unit × Host :=
  h.changed ((orErrno e fw).map fun fw => { h with firewall := fw })

def call : (c : Sys) → Host → Except Errno c.Value × Host
  | .linkByName name, h => (h.linkByName name, h)
  | .linkList, h => (.ok h.links.items, h)
  | .linkAdd name mtu kind, h =>
    match h.linkAdd name mtu kind with
    | .ok (index, h') => (.ok index, h')
    | .error e => (.error e, h)
  | .linkDel index, h => h.changed (h.linkDel index)
  | .linkSetAlias index text, h => h.changed (h.linkSet index fun i => { i with ifAlias := text })
  | .linkSetMTU index mtu, h => h.changed (h.linkSet index fun i => { i with mtu := mtu })
  | .linkSetUp index, h => h.changed (h.linkSet index fun i => { i with up := true })
  | .addrList index family, h => (h.addrList index family, h)
  | .addrAdd index p, h => h.changed (h.addrAdd index p)
  | .addrDel index p, h => h.changed (h.addrDel index p)
  | .routeList family filter, h => (.ok (h.routeList family filter), h)
  | .routeAdd r, h => h.changed (h.routeAdd r)
  | .routeDel r, h => h.changed (h.routeDel r)
  | .ruleList, h => (.ok h.rules, h)
  | .ruleAdd r, h => h.changed (h.ruleAdd r)
  | .ruleDel r, h => h.changed (h.ruleDel r)
  | .device name, h => ((h.deviceOf name).map (·.attrs.device), h)
  | .configureDevice name c, h => h.changed (h.configureDevice name c)
  | .readSysctl key, h => (.ok (h.sysctls key), h)
  | .writeSysctl key value, h =>
    (.ok (), { h with sysctls := fun k => if k = key then value else h.sysctls k })
  | .resolveUDPAddr endpoint, h => (orErrno .noHost (h.endpoints endpoint), h)
  | .listRules table chain, h => (orErrno .noChain (h.firewall.listRules table chain), h)
  | .restore input, h => h.filtered .noChain (h.firewall.restore input)
  | .insertJump table hook comment target, h =>
    h.filtered .noChain (h.firewall.insertJump table hook comment target)
  | .deleteJump table hook comment target, h =>
    h.filtered .badRule (h.firewall.deleteJump table hook comment target)

end Host

/-- A host together with the calls that will fail: where the head is true the next call fails
with an I/O error, and after the last entry none does. -/
abbrev Faulty := Host × List Bool

def answer : (c : Cmd) → Faulty → c.Response × Faulty
  | .sys _, (h, true :: faults) => (.error .io, h, faults)
  | .sys c, (h, false :: faults) => ((h.call c).1, (h.call c).2, faults)
  | .sys c, (h, []) => ((h.call c).1, (h.call c).2, [])
  | .publish config, (h, faults) => ((), { h with published := some config }, faults)

end SakhtarWg
