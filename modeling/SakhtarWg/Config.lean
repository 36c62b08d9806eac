import SakhtarWg.Names
import SakhtarWg.KernelPlan
import SakhtarWg.Cidr
import SakhtarWg.HostName
import SakhtarWg.ProxyPolicy

/-!
# The configuration

The decoded file, its defaults and its validation. Integers are Go's `int`; a map is
an association list in some iteration order.
-/

namespace SakhtarWg
open Text Netip Fallible Kernel Proxy

/-- What `url.ParseRequestURI` returns, as far as it is looked at. -/
structure Url where
  scheme : String
  host : String
  user : Bool
  deriving DecidableEq

/-- Library functions the configuration is checked with. `describe` is the wording of a
library error about its argument. -/
structure External where
  parseKey : String → Except String (BitVec 256)
  parseRequestURI : String → Option Url
  toASCII : String → Option String
  describe : String → String

/-! ## Data -/

structure RouteSource where
  name : String
  url : String
  format : String
  via : String
  deriving DecidableEq

structure Peer where
  publicKey : String
  endpoint : String
  allowedIPs : List String
  keepalive : ℤ
  deriving DecidableEq

structure Tunnel where
  name : String
  privateKey : String
  address : String
  mtu : ℤ
  fwmark : ℤ
  fwmarkMask : BitVec 32
  table : ℤ
  rulePriority : ℤ
  adoptExisting : Bool
  routes : List String
  routeSources : List RouteSource
  peer : Peer
  resolver : List String
  deriving DecidableEq

structure Group where
  name : String
  members : List String
  healthyAfter : ℤ
  deriving DecidableEq

structure Gateway where
  enabled : Bool
  clientCIDRs : List String
  listListen : String
  deriving DecidableEq

structure HealthProbe where
  enabled : Bool
  endpoint : String
  via : String
  interval : ℤ
  timeout : ℤ
  jitterPercent : ℤ
  maxConcurrent : ℤ
  failAfter : ℤ
  recoverAfter : ℤ
  maxAge : ℤ
  deriving DecidableEq

structure Management where
  disabled : Bool
  listen : String
  readHeaderTimeout : ℤ
  writeTimeout : ℤ
  idleTimeout : ℤ
  shutdownTimeout : ℤ
  maxHeaderBytes : ℤ
  pprof : Bool
  deriving DecidableEq

structure PfSync where
  enabled : Bool
  sshHost : String
  sshPort : ℤ
  sshUser : String
  sshKey : String
  knownHosts : String
  fromTunnel : String
  keepNetworks : List String
  deriving DecidableEq

structure DestinationExceptions where
  directAllowCIDRs : List String
  tunnelAllowCIDRs : List (String × List String)
  deriving DecidableEq

structure ProxyRule where
  via : String
  suffixes : List String
  deriving DecidableEq

/-- The `proxy` section. -/
structure ProxySection where
  httpsListen : String
  httpListen : String
  default : String
  allowedSourceCIDRs : List String
  maxConnections : ℤ
  maxConnectionsPerSource : ℤ
  handshakeTimeout : ℤ
  dialTimeout : ℤ
  idleTimeout : ℤ
  shutdownGrace : ℤ
  maxClientHelloBytes : ℤ
  maxHTTPHeaderBytes : ℤ
  destinationPolicy : DestinationExceptions
  resolver : List String
  dnsCacheTTL : ℤ
  dnsPositiveCapacity : ℤ
  dnsNegativeCapacity : ℤ
  dnsMaxPending : ℤ
  dnsMinPositiveTTL : ℤ
  dnsMaxPositiveTTL : ℤ
  dnsNegativeTTL : ℤ
  dnsTransientFailureTTL : ℤ
  dnsStaleWindow : ℤ
  dnsStalePolicy : String
  dnsResolverTimeout : ℤ
  addressFamilyStrategy : String
  connectAttemptCap : ℤ
  rules : List ProxyRule
  deriving DecidableEq

structure Config where
  tunnels : List Tunnel
  groups : List Group
  proxy : ProxySection
  gateway : Gateway
  routeRefresh : ℤ
  healthInterval : ℤ
  pfSync : PfSync
  management : Management
  healthProbe : HealthProbe
  deriving DecidableEq

/-! ## Defaults -/

def orDefault (v d : ℤ) : ℤ := if v = 0 then d else v

def orText (s d : String) : String := if s = "" then d else s

def defaultResolver : String := "1.1.1.1:53"

def resolverOrDefault (l : List String) : List String := if l = [] then [defaultResolver] else l

def RouteSource.normalize (s : RouteSource) : RouteSource := { s with via := orText s.via "direct" }

def Tunnel.normalize (i : ℕ) (t : Tunnel) : Tunnel :=
  { t with
    table := orDefault t.table t.fwmark
    mtu := orDefault t.mtu 1420
    fwmarkMask := if t.fwmarkMask = 0 then fullMarkMask else t.fwmarkMask
    rulePriority := orDefault t.rulePriority (rulePriorityMin + i)
    peer := { t.peer with
      allowedIPs := if t.peer.allowedIPs = [] then ["0.0.0.0/0"] else t.peer.allowedIPs }
    routeSources := t.routeSources.map RouteSource.normalize }

def Group.normalize (g : Group) : Group := { g with healthyAfter := orDefault g.healthyAfter 180 }

/-- The default age is three intervals, in 64-bit arithmetic. -/
def HealthProbe.normalize (p : HealthProbe) : HealthProbe :=
  let interval := orDefault p.interval 30
  { p with
    interval := interval
    timeout := orDefault p.timeout 5
    jitterPercent := orDefault p.jitterPercent 20
    maxConcurrent := orDefault p.maxConcurrent 1
    failAfter := orDefault p.failAfter 2
    recoverAfter := orDefault p.recoverAfter 3
    maxAge := orDefault p.maxAge (Int.bmod (3 * interval) (2 ^ 64)) }

def Management.normalize (m : Management) : Management :=
  { m with
    listen := orText m.listen "127.0.0.1:9090"
    readHeaderTimeout := orDefault m.readHeaderTimeout 5
    writeTimeout := orDefault m.writeTimeout 10
    idleTimeout := orDefault m.idleTimeout 30
    shutdownTimeout := orDefault m.shutdownTimeout 5
    maxHeaderBytes := orDefault m.maxHeaderBytes 16384 }

def ProxyRule.normalize (r : ProxyRule) : ProxyRule :=
  { r with suffixes := r.suffixes.map fun s =>
      match s.toList with
      | '.' :: rest => String.ofList rest
      | _ => s }

def ProxySection.normalize (p : ProxySection) : ProxySection :=
  let maxPositive := orDefault p.dnsMaxPositiveTTL 300
  { p with
    dialTimeout := orDefault p.dialTimeout 10
    handshakeTimeout := orDefault p.handshakeTimeout 5
    shutdownGrace := orDefault p.shutdownGrace 10
    maxConnections := orDefault p.maxConnections 1024
    maxClientHelloBytes := orDefault p.maxClientHelloBytes 65536
    maxHTTPHeaderBytes := orDefault p.maxHTTPHeaderBytes 65536
    dnsPositiveCapacity := orDefault p.dnsPositiveCapacity 4096
    dnsNegativeCapacity := orDefault p.dnsNegativeCapacity 1024
    dnsMaxPending := orDefault p.dnsMaxPending 128
    dnsMinPositiveTTL := orDefault p.dnsMinPositiveTTL 5
    dnsMaxPositiveTTL := maxPositive
    dnsCacheTTL := orDefault p.dnsCacheTTL maxPositive
    dnsNegativeTTL := orDefault p.dnsNegativeTTL 20
    dnsTransientFailureTTL := orDefault p.dnsTransientFailureTTL 2
    dnsStaleWindow := orDefault p.dnsStaleWindow 3600
    dnsStalePolicy := orText p.dnsStalePolicy "transient"
    dnsResolverTimeout := orDefault p.dnsResolverTimeout 5
    addressFamilyStrategy := orText p.addressFamilyStrategy "interleave"
    connectAttemptCap := orDefault p.connectAttemptCap 4
    default := orText p.default "direct"
    resolver := resolverOrDefault p.resolver
    rules := p.rules.map ProxyRule.normalize }

def Config.normalize (c : Config) : Config :=
  { tunnels := c.tunnels.mapIdx Tunnel.normalize
    groups := c.groups.map Group.normalize
    proxy := c.proxy.normalize
    gateway := c.gateway
    routeRefresh := orDefault c.routeRefresh 21600
    healthInterval := orDefault c.healthInterval 10
    pfSync := c.pfSync
    management := c.management.normalize
    healthProbe := c.healthProbe.normalize }

/-! ## Checks -/

def maxDurationSeconds : ℤ := 9223372036

def validSeconds (seconds : ℤ) : Bool := 0 ≤ seconds && seconds ≤ maxDurationSeconds

def requireSeconds (field : String) (v : ℤ) : Except String Unit :=
  require (validSeconds v)
    (field ++ " must be between 0 and " ++ toString maxDurationSeconds ++ " seconds")

def requirePositiveSeconds (field : String) (v : ℤ) : Except String Unit :=
  require (validSeconds v && v ≠ 0)
    (field ++ " must be between 1 and " ++ toString maxDurationSeconds ++ " seconds")

def requireBetween (field : String) (lo hi v : ℤ) : Except String Unit :=
  require (lo ≤ v && v ≤ hi) (field ++ " must be between " ++ toString lo ++ " and " ++ toString hi)

def maxConfiguredConnections : ℤ := 1048576
def maxConfiguredProtocolBytes : ℤ := 262144
def maxDNSCapacity : ℤ := 1048576
def maxConnectAttemptCap : ℤ := 64
def maxResolvers : ℕ := 4

def validateHostPort (x : External) (addr : String) (emptyHostOK : Bool) : Except String Unit :=
  match splitHostPort addr with
  | none => .error (quote addr ++ " must be host:port: " ++ x.describe addr)
  | some (host, portText) => do
    require (emptyHostOK || host ≠ "") (quote addr ++ " requires a host")
    require (validPort portText) (quote addr ++ " has an invalid port")

def validateListener (x : External) (addr : String) : Except String Unit := do
  validateHostPort x addr true
  match splitHostPort addr with
  | none => return ()
  | some (host, _) =>
    if host = "" then return ()
    else
      require (!( '%' ∈ host.toList)) (quote addr ++ " must not contain an IPv6 zone")
      require (parseAddr host).isSome
        (quote addr ++ " listener host must be an IP literal or empty wildcard")

def listenerNeedsSourceACL (addr : String) : Bool :=
  match splitHostPort addr with
  | none => true
  | some (host, _) =>
    if host = "" then true
    else match parseAddr host with
      | none => true
      | some ip => !ip.unmap.isLoopback

def validateResolver (x : External) (field : String) (seen : List String) (resolver : String) :
    Except String (List String) := do
  (validateHostPort x resolver false).mapError fun e => field ++ ": " ++ e
  require (resolver ∉ seen) (field ++ " lists " ++ quote resolver ++ " twice")
  return seen ++ [resolver]

def validateResolvers (x : External) (field : String) (resolvers : List String) :
    Except String Unit := do
  require (resolvers.length ≤ maxResolvers)
    (field ++ " lists " ++ toString resolvers.length ++ " resolvers; at most " ++
      toString maxResolvers ++ " are allowed")
  let _ ← resolvers.foldlM (validateResolver x field) []

def isIPv4Prefix (text : String) : Bool :=
  match parsePrefix text with
  | some p => p.addr.is4
  | none => false

end SakhtarWg
