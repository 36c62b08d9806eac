import SakhtarWg.Config

/-!
# Validation

`validate` section by section, in the order of the source, with its messages.
-/

namespace SakhtarWg
open Text Netip Fallible Kernel Proxy

/-- The timeouts of the management listener; Go visits them in map order. -/
def Management.timeouts (m : Management) : List (String × ℤ) :=
  [("read_header_timeout", m.readHeaderTimeout), ("write_timeout", m.writeTimeout),
    ("idle_timeout", m.idleTimeout), ("shutdown_timeout", m.shutdownTimeout)]

def Management.validateListen (x : External) (m : Management) : Except String Unit :=
  if "unix:".toList.isPrefixOf m.listen.toList then
    let path := m.listen.toList.drop 5
    require (path.head? = some '/' && 2 ≤ path.length)
      "management.listen: Unix socket path must be absolute"
  else match splitHostPort m.listen with
    | none => .error ("management.listen: " ++ x.describe m.listen)
    | some (host, _) =>
      require ((parseIP host.toList).any fun ip => ip.unmap.isLoopback)
        "management.listen: TCP listener must use a loopback IP literal"

def Management.validate (x : External) (m : Management) : Except String Unit :=
  if m.disabled then .ok ()
  else do
    m.validateListen x
    m.timeouts.forM fun field => requirePositiveSeconds ("management." ++ field.1) field.2
    requireBetween "management.max_header_bytes" 1024 maxConfiguredProtocolBytes m.maxHeaderBytes

/-! ## Tunnels -/

def Tunnel.label (t : Tunnel) : String := "tunnel " ++ quote t.name

def Tunnel.allocation (t : Tunnel) : Allocation :=
  ⟨t.name, BitVec.ofInt 32 t.fwmark, t.fwmarkMask, t.table, t.rulePriority⟩

def requireUnused (earlier : List Tunnel) (key : Tunnel → ℤ) (word : String) (t : Tunnel) :
    Except String Unit :=
  match earlier.find? fun u => key u = key t with
  | some other => .error (t.label ++ ": " ++ word ++ " " ++ toString (key t) ++
      " already used by " ++ quote other.name)
  | none => .ok ()

def requireKey (x : External) (t : Tunnel) (field key : String) : Except String Unit := do
  require (key ≠ "") (t.label ++ ": " ++ field ++ " is required")
  let _ ← (x.parseKey key).mapError fun e => t.label ++ ": " ++ field ++ ": " ++ e

def Tunnel.validateRoute (t : Tunnel) (seen : List String) (route : String) :
    Except String (List String) :=
  match parsePrefix route with
  | none => .error (t.label ++ ": route " ++ quote route ++ ": must be an IPv4 prefix")
  | some p => do
    require p.addr.is4 (t.label ++ ": route " ++ quote route ++ ": must be an IPv4 prefix")
    require (p.masked.string ∉ seen) (t.label ++ ": duplicate route " ++ p.masked.string)
    return seen ++ [p.masked.string]

/-- Name, key, address and routing identifiers. -/
def Tunnel.validateLink (x : External) (earlier : List Tunnel) (t : Tunnel) :
    Except String Unit := do
  require (t.name ≠ "") ("tunnel #" ++ toString earlier.length ++ ": name is required")
  require (interfaceNameOk t.name)
    (t.label ++ ": name must be 1-15 letters, digits, '.', '_' or '-'")
  require (t.name ∉ earlier.map (·.name)) ("duplicate tunnel name " ++ quote t.name)
  requireKey x t "private_key" t.privateKey
  require (t.address ≠ "") (t.label ++ ": address is required")
  require (isIPv4Prefix t.address)
    (t.label ++ ": address " ++ quote t.address ++ " must be an IPv4 prefix")
  require (0 ≤ t.mtu) (t.label ++ ": mtu must be non-negative")
  require (0 < t.fwmark && t.fwmark ≤ 4294967295)
    (t.label ++ ": fwmark must be between 1 and 4294967295")
  requireUnused earlier (·.fwmark) "fwmark" t
  require (0 < t.table && t.table ≤ 2147483647)
    (t.label ++ ": table must be between 1 and 2147483647")
  requireUnused earlier (·.table) "table" t

def Tunnel.validatePeer (x : External) (t : Tunnel) : Except String Unit := do
  requireKey x t "peer.public_key" t.peer.publicKey
  require (t.peer.endpoint ≠ "") (t.label ++ ": peer.endpoint is required")
  (validateHostPort x t.peer.endpoint false).mapError fun e => t.label ++ ": peer.endpoint: " ++ e
  requireSeconds (t.label ++ ": peer.keepalive") t.peer.keepalive
  t.peer.allowedIPs.forM fun allowed => require (parseCIDR allowed.toList).isSome
    (t.label ++ ": allowed_ips " ++ quote allowed ++ ": " ++ x.describe allowed)

def Tunnel.validate (x : External) (earlier : List Tunnel) (t : Tunnel) :
    Except String (List Tunnel) := do
  t.validateLink x earlier
  t.validatePeer x
  let _ ← t.routes.foldlM t.validateRoute []
  return earlier ++ [t]

/-- The static routes with their owners. -/
def Config.gatewayRoutes (c : Config) : List (String × Prefix) :=
  c.tunnels.flatMap fun t => t.routes.filterMap fun r =>
    (parsePrefix r).map fun p => (t.name, p.masked)

def validateGatewayRoute (earlier : List (String × Prefix)) (route : String × Prefix) :
    Except String (List (String × Prefix)) :=
  match earlier.find? fun other => route.1 ≠ other.1 && route.2.overlaps other.2 with
  | some other => .error ("gateway routes " ++ other.2.string ++ " (" ++ other.1 ++ ") and " ++
      route.2.string ++ " (" ++ route.1 ++ ") overlap across tunnels")
  | none => .ok (earlier ++ [route])

/-! ## Other sections -/

def Config.tunnelNames (c : Config) : List String := c.tunnels.map (·.name)

def HealthProbe.validate (x : External) (names : List String) (p : HealthProbe) :
    Except String Unit :=
  if !p.enabled then .ok ()
  else match x.parseRequestURI p.endpoint with
    | none => .error "health_probe.endpoint must be an absolute http(s) URL"
    | some u => do
      require (u.host ≠ "" && (u.scheme = "http" || u.scheme = "https"))
        "health_probe.endpoint must be an absolute http(s) URL"
      require (!u.user) "health_probe.endpoint must not contain credentials"
      require (p.via = "" || p.via ∈ names)
        ("health_probe.via " ++ quote p.via ++ " is not a known tunnel")
      require (5 ≤ p.interval && validSeconds p.interval)
        "health_probe.interval must be at least 5 seconds"
      require (1 ≤ p.timeout && p.timeout < p.interval)
        "health_probe.timeout must be positive and less than health_probe.interval"
      requireBetween "health_probe.jitter_percent" 0 100 p.jitterPercent
      requireBetween "health_probe.max_concurrent" 1 8 p.maxConcurrent
      requireBetween "health_probe.fail_after" 1 10 p.failAfter
      requireBetween "health_probe.recover_after" 1 10 p.recoverAfter
      require (validSeconds p.maxAge && p.interval + p.timeout ≤ p.maxAge)
        "health_probe.max_age must be at least health_probe.interval + health_probe.timeout"

def RouteSource.validate (x : External) (names : List String) (owner : Tunnel)
    (seen : List String) (s : RouteSource) : Except String (List String) := do
  require (s.name ≠ "") (owner.label ++ ": route source: name is required")
  require (operationalNameRE s.name)
    ("route source name " ++ quote s.name ++ " must be 1-64 letters, digits, '.', '_' or '-'")
  require (s.name ∉ seen) ("duplicate route source name " ++ quote s.name)
  require (s.url ≠ "") ("route source " ++ quote s.name ++ ": url is required")
  require ((x.parseRequestURI s.url).any fun u =>
      (u.scheme = "http" || u.scheme = "https") && u.host ≠ "")
    ("route source " ++ quote s.name ++ ": url must be an absolute http(s) URL")
  require (s.format = "cidr-lines" || s.format = "ripe-prefixes")
    ("route source " ++ quote s.name ++ ": unknown format " ++ quote s.format ++
      " (want cidr-lines|ripe-prefixes)")
  require (s.via = "" || s.via = "direct" || s.via ∈ names)
    ("route source " ++ quote s.name ++ ": via " ++ quote s.via ++ " is not a known tunnel")
  return seen ++ [s.name]

def Gateway.validate (x : External) (g : Gateway) : Except String Unit := do
  g.clientCIDRs.forM fun c => require (isIPv4Prefix c)
    ("gateway.client_cidrs " ++ quote c ++ ": must be an IPv4 prefix")
  if g.listListen = "" then return ()
  else (validateHostPort x g.listListen true).mapError fun e => "gateway.list_listen: " ++ e

def PfSync.validate (x : External) (names : List String) (p : PfSync) : Except String Unit :=
  if !p.enabled then .ok ()
  else do
    require (p.sshHost ≠ "" && p.sshUser ≠ "" && p.sshKey ≠ "" && p.knownHosts ≠ "")
      "pfsync: ssh_host, ssh_user, ssh_key and known_hosts are required"
    require (0 ≤ p.sshPort && p.sshPort ≤ 65535)
      "pfsync: ssh_port must be between 1 and 65535 (or 0 for default)"
    require (p.fromTunnel ∈ names)
      ("pfsync: from_tunnel " ++ quote p.fromTunnel ++ " is not a known tunnel")
    p.keepNetworks.forM fun n => require (parseCIDR n.toList).isSome
      ("pfsync.keep_networks " ++ quote n ++ ": " ++ x.describe n)

def Group.validateMember (names : List String) (g : Group) (seen : List String) (m : String) :
    Except String (List String) := do
  require (m ∈ names)
    ("group " ++ quote g.name ++ ": member " ++ quote m ++ " is not a known tunnel")
  require (m ∉ seen) ("group " ++ quote g.name ++ ": duplicate member " ++ quote m)
  return seen ++ [m]

def Group.validate (names : List String) (earlier : List Group) (g : Group) :
    Except String (List Group) := do
  require (g.name ≠ "") ("group #" ++ toString earlier.length ++ ": name is required")
  require (operationalNameRE g.name)
    ("group name " ++ quote g.name ++ " must be 1-64 letters, digits, '.', '_' or '-'")
  require (g.name ∉ names) ("group " ++ quote g.name ++ ": name collides with a tunnel")
  require (g.name ∉ earlier.map (·.name)) ("duplicate group name " ++ quote g.name)
  require (g.members ≠ []) ("group " ++ quote g.name ++ ": at least one member is required")
  requireSeconds ("group " ++ quote g.name ++ ": healthy_after") g.healthyAfter
  let _ ← g.members.foldlM (g.validateMember names) []
  return earlier ++ [g]

/-! ## The proxy section -/

def ProxySection.validateTimes (p : ProxySection) : Except String Unit := do
  requireSeconds "proxy.dial_timeout" p.dialTimeout
  requireSeconds "proxy.handshake_timeout" p.handshakeTimeout
  requireSeconds "proxy.idle_timeout" p.idleTimeout
  requireSeconds "proxy.shutdown_grace" p.shutdownGrace
  requireSeconds "proxy.dns_cache_ttl" p.dnsCacheTTL
  requirePositiveSeconds "proxy.dns_min_positive_ttl" p.dnsMinPositiveTTL
  require (validSeconds p.dnsMaxPositiveTTL && p.dnsMinPositiveTTL ≤ p.dnsMaxPositiveTTL)
    ("proxy.dns_max_positive_ttl must be between dns_min_positive_ttl and " ++
      toString maxDurationSeconds ++ " seconds")
  require (p.dnsMinPositiveTTL ≤ p.dnsCacheTTL && p.dnsCacheTTL ≤ p.dnsMaxPositiveTTL)
    "proxy.dns_cache_ttl must be between dns_min_positive_ttl and dns_max_positive_ttl"
  requirePositiveSeconds "proxy.dns_negative_ttl" p.dnsNegativeTTL
  requirePositiveSeconds "proxy.dns_transient_failure_ttl" p.dnsTransientFailureTTL
  requireSeconds "proxy.dns_stale_window" p.dnsStaleWindow
  requirePositiveSeconds "proxy.dns_resolver_timeout" p.dnsResolverTimeout

def ProxySection.validateLimits (p : ProxySection) : Except String Unit := do
  requireBetween "proxy.dns_positive_capacity" 1 maxDNSCapacity p.dnsPositiveCapacity
  requireBetween "proxy.dns_negative_capacity" 1 maxDNSCapacity p.dnsNegativeCapacity
  requireBetween "proxy.dns_max_pending" 1 maxDNSCapacity p.dnsMaxPending
  require (p.dnsStalePolicy = "transient" || p.dnsStalePolicy = "never")
    "proxy.dns_stale_policy must be \"transient\" or \"never\""
  require (p.addressFamilyStrategy = "interleave" || p.addressFamilyStrategy = "ipv4_first" ||
      p.addressFamilyStrategy = "ipv6_first")
    ("proxy.address_family_strategy must be \"interleave\", \"ipv4_first\", or " ++
      "\"ipv6_first\"")
  requireBetween "proxy.connect_attempt_cap" 1 maxConnectAttemptCap p.connectAttemptCap
  requireBetween "proxy.max_connections" 1 maxConfiguredConnections p.maxConnections
  require (0 ≤ p.maxConnectionsPerSource && p.maxConnectionsPerSource ≤ p.maxConnections)
    "proxy.max_connections_per_source must be between 0 and proxy.max_connections"
  requireBetween "proxy.max_client_hello_bytes" 1 maxConfiguredProtocolBytes p.maxClientHelloBytes
  requireBetween "proxy.max_http_header_bytes" 1 maxConfiguredProtocolBytes p.maxHTTPHeaderBytes

def requirePolicyPrefix (field cidr : String) : Except String Unit := do
  let _ ← (parsePolicyPrefix cidr).mapError fun e => field ++ " " ++ quote cidr ++ ": " ++ e

def ProxySection.validateListen (x : External) (p : ProxySection) (field listen : String) :
    Except String Unit :=
  if listen = "" then .ok ()
  else do
    (validateListener x listen).mapError fun e => field ++ ": " ++ e
    require (!(listenerNeedsSourceACL listen && p.allowedSourceCIDRs = []))
      (field ++ " " ++ quote listen ++ " is wildcard or non-loopback; " ++
        "proxy.allowed_source_cidrs is required and must be non-empty")

/-- An egress name: direct, a tunnel or a group. -/
def Config.validVia (c : Config) (via : String) : Bool :=
  via = "" || via = "direct" || via ∈ c.tunnelNames || via ∈ c.groups.map (·.name)

def validateSuffix (x : External) (i j : ℕ) (suffix : String) : Except String String := do
  let field := "proxy.rules[" ++ toString i ++ "].suffixes[" ++ toString j ++ "]"
  let (normalized, isIP) ← (canonicalHost x.toASCII suffix false).mapError
    fun e => field ++ " is invalid: " ++ e
  require (!isIP) (field ++ " is invalid: IP literals cannot be routing suffixes")
  return normalized

/-- A rule with its suffixes in canonical form. -/
def Config.validateRule (x : External) (c : Config) (rule : ProxyRule × ℕ) :
    Except String ProxyRule := do
  require (c.validVia rule.1.via) ("proxy.rules[" ++ toString rule.2 ++ "].via " ++
    quote rule.1.via ++ " is not a known tunnel")
  let suffixes ← rule.1.suffixes.zipIdx.mapM fun s => validateSuffix x rule.2 s.2 s.1
  return { rule.1 with suffixes := suffixes }

def Config.validateDestinations (c : Config) : Except String Unit := do
  c.proxy.destinationPolicy.directAllowCIDRs.forM
    (requirePolicyPrefix "proxy.destination_policy.direct_allow_cidrs")
  c.proxy.destinationPolicy.tunnelAllowCIDRs.forM fun entry => do
    require (entry.1 ∈ c.tunnelNames) ("proxy.destination_policy.tunnel_allow_cidrs " ++
      quote entry.1 ++ " is not a known tunnel")
    entry.2.forM (requirePolicyPrefix
      ("proxy.destination_policy.tunnel_allow_cidrs[" ++ quote entry.1 ++ "]"))

def Config.validateProxy (x : External) (c : Config) : Except String (List ProxyRule) := do
  c.proxy.validateTimes
  c.proxy.validateLimits
  c.proxy.allowedSourceCIDRs.forM (requirePolicyPrefix "proxy.allowed_source_cidrs")
  c.proxy.validateListen x "proxy.https_listen" c.proxy.httpsListen
  c.proxy.validateListen x "proxy.http_listen" c.proxy.httpListen
  validateResolvers x "proxy.resolver" c.proxy.resolver
  c.tunnels.forM fun t => validateResolvers x ("tunnels[" ++ t.name ++ "].resolver") t.resolver
  c.validateDestinations
  require (c.validVia c.proxy.default)
    ("proxy.default " ++ quote c.proxy.default ++ " is not a known tunnel")
  c.proxy.rules.zipIdx.mapM (c.validateRule x)

/-! ## The whole -/

/-- The checks on tunnels, identifiers and static gateway routes. -/
def Config.validateTunnels (x : External) (c : Config) : Except String Unit := do
  let _ ← c.tunnels.foldlM (Tunnel.validate x) []
  c.healthProbe.validate x c.tunnelNames
  validateAllocations (c.tunnels.map Tunnel.allocation)
  if c.gateway.enabled then
    let _ ← c.gatewayRoutes.foldlM validateGatewayRoute []
  return ()

/-- Accepts a configuration and returns it with canonical suffixes. -/
def Config.validate (x : External) (c : Config) : Except String Config := do
  requireSeconds "route_refresh" c.routeRefresh
  requireSeconds "health_interval" c.healthInterval
  c.management.validate x
  c.validateTunnels x
  let _ ← (c.tunnels.flatMap fun t => t.routeSources.map fun s => (t, s)).foldlM
    (fun seen s => s.2.validate x c.tunnelNames s.1 seen) []
  c.gateway.validate x
  c.pfSync.validate x c.tunnelNames
  let _ ← c.groups.foldlM (Group.validate c.tunnelNames) []
  let rules ← c.validateProxy x
  return { c with proxy := { c.proxy with rules := rules } }

/-- `parseConfig` after the YAML decoder. -/
def Config.parse (x : External) (decoded : Config) : Except String Config :=
  decoded.normalize.validate x

end SakhtarWg
