import SakhtarWg.ConfigValid
import SakhtarWg.ProxyDial

/-!
# Resolving and fetching through a tunnel

The resolver of an egress asks each configured server over UDP and then over TCP.
Route sources and probes dial through the same egress with their own client.
-/

namespace SakhtarWg
open Netip Program Proxy

/-! ## What the router takes from the configuration -/

def positiveOr (value fallback : ℤ) : ℤ := if value ≤ 0 then fallback else value

/-- `durationSeconds`, in nanoseconds. -/
def durationSeconds (value fallback : ℤ) : ℤ := positiveOr value fallback * 1000000000

namespace Config

/-- The mark of an egress name; an unknown name is the unmarked egress. -/
def markFor (c : Config) (via : String) : ℤ :=
  if via = "direct" ∨ via = "" then 0
  else match c.tunnels.find? fun t => t.name = via with
    | some t => t.fwmark
    | none => 0

/-- The tunnel's own servers, else those of the proxy. -/
def resolversFor (c : Config) (mark : ℤ) : List String :=
  match c.tunnels.find? fun t => t.fwmark = mark && t.resolver ≠ [] with
  | some t => t.resolver
  | none => resolverOrDefault c.proxy.resolver

/-- The entry written last for a mark, as assignments to a map leave it. -/
def tunnelOf (c : Config) (mark : ℤ) : Option Tunnel :=
  c.tunnels.reverse.find? fun t => t.fwmark = mark

def newDestinationPolicy (c : Config) : DestinationPolicy where
  allowByMark mark :=
    match c.tunnelOf mark with
    | some t => mustPolicyPrefixes ((c.proxy.destinationPolicy.tunnelAllowCIDRs.lookup t.name).getD [])
    | none =>
      if mark = 0 then mustPolicyPrefixes c.proxy.destinationPolicy.directAllowCIDRs else []

def strategy (c : Config) : AddressFamilyStrategy :=
  if c.proxy.addressFamilyStrategy = "ipv4_first" then .ipv4First
  else if c.proxy.addressFamilyStrategy = "ipv6_first" then .ipv6First
  else .interleave

def selector (c : Config) : RotatingSelector := ⟨c.strategy, positiveOr c.proxy.connectAttemptCap 4⟩

def router (c : Config) : Router where
  destination := c.newDestinationPolicy
  selector := c.selector
  connectAttemptCap := positiveOr c.proxy.connectAttemptCap 4
  hasResolver mark := mark = 0 || (c.tunnelOf mark).isSome
  egressNames mark := (c.tunnelOf mark).map (·.name)

end Config

/-! ## The resolver of one egress -/

structure TunnelResolver where
  servers : List String
  mark : ℤ
  timeout : ℤ
  allowed : Addr → Bool

def Config.tunnelResolver (c : Config) (mark : ℤ) : TunnelResolver where
  servers := c.resolversFor mark
  mark := mark
  timeout := durationSeconds c.proxy.dnsResolverTimeout 5
  allowed addr := c.newDestinationPolicy.addressAllowed addr mark []

/-- The shorter of the context's deadline and a timeout from now. -/
def withTimeout (deadline : Option ℤ) (timeout : ℤ) : Dialing (Option ℤ) := do
  let now ← Env.getNow
  return some (match deadline with
    | some d => min d (now + timeout)
    | none => now + timeout)

namespace TunnelResolver

variable (r : TunnelResolver)

def acceptable (addrs : List Addr) : Bool := addrs.any r.allowed

/-- Every call of the `Dial` hook of the Go resolver dials the same server. -/
def dialServer (server : String) (deadline : Option ℤ) : ℕ → Dialing Unit
  | 0 => pure ()
  | n + 1 => do
    let _ ← Env.connect r.mark server deadline
    dialServer server deadline n

/-- One lookup by the Go resolver of a server, over UDP or TCP. -/
def exchange (server : String) (tcp : Bool) (deadline : Option ℤ) (network : LookupNetwork)
    (host : String) : Dialing (Except LookupError (List Addr)) := do
  let n ← Env.countExchanges server tcp
  r.dialServer server deadline n
  match ← Env.takeAnswer network host with
  | .ok addrs => return .ok addrs.1
  | .error e => return .error e

/-- Whether the answer over UDP is worth asking again over TCP. -/
def retry : Except LookupError (List Addr) → Bool
  | .ok addrs => !r.acceptable addrs
  | .error e => e.timeout

def lookupServer (deadline : Option ℤ) (server : String) (network : LookupNetwork)
    (host : String) : Dialing (Except LookupError (List Addr)) := do
  let udp ← attemptDeadline deadline 2
  let first ← r.exchange server false udp network host
  if r.retry first then
    match ← Env.getCtxErr deadline with
    | some _ => return first
    | none =>
      match ← r.exchange server true deadline network host with
      | .ok addrs => return .ok addrs
      | .error e =>
        match first with
        | .ok addrs => return .ok addrs
        | .error _ => return .error e
  else return first

/-- The loop over servers with the failures so far and the last denied answer. A denied answer is
handed on in the end rather than an error. -/
def lookupFrom (deadline : Option ℤ) (network : LookupNetwork) (host : String) :
    List String → List (LookupError ⊕ Err) → List Addr →
      Dialing (Except (List (LookupError ⊕ Err)) (List Addr))
  | [], errs, poisoned => pure (conclude errs poisoned)
  | server :: rest, errs, poisoned => do
    match ← Env.getCtxErr deadline with
    | some e => return conclude (errs ++ [.inr e]) poisoned
    | none =>
      let slice ← attemptDeadline deadline (rest.length + 1)
      match ← r.lookupServer slice server network host with
      | .ok addrs =>
        if r.acceptable addrs then return .ok addrs
        else lookupFrom deadline network host rest errs addrs
      | .error e =>
        if e.notFound then return .error [.inl e]
        else lookupFrom deadline network host rest (errs ++ [.inl e]) poisoned
where
  conclude (errs : List (LookupError ⊕ Err)) (poisoned : List Addr) :
      Except (List (LookupError ⊕ Err)) (List Addr) :=
    if poisoned ≠ [] then .ok poisoned else .error errs

/-- A lookup for any family asks for IPv4 only. -/
def ip4Only : LookupNetwork → LookupNetwork
  | .ip => .ip4
  | network => network

def lookupNetIP (deadline : Option ℤ) (network : LookupNetwork) (host : String) :
    Dialing (Except (List (LookupError ⊕ Err)) (List Addr)) := do
  let deadline ← withTimeout deadline r.timeout
  r.lookupFrom deadline (ip4Only network) host r.servers [] []

end TunnelResolver

/-! ## The client of route sources and probes -/

/-- The `DialContext` of the HTTP transport for an egress name. -/
def Config.dialVia (c : Config) (via : String) (deadline : Option ℤ) (addr : String) :
    Dialing (Except Err Unit) :=
  let mark := c.markFor via
  if mark = 0 then Env.connect 0 addr deadline
  else match splitHostPort addr with
    | none => pure (.error (.text "invalid address"))
    | some (host, port) =>
      match parseAddr host with
      | some parsed =>
        if !egressFamilyAllowed parsed mark then pure (.error errNoIPv4Candidate)
        else if !c.newDestinationPolicy.addressAllowed parsed mark [] then pure (.error .denied)
        else Env.connect mark addr deadline
      | none => do
        let resolveDeadline ← withTimeout deadline (durationSeconds c.proxy.dnsResolverTimeout 5)
        match ← (c.tunnelResolver mark).lookupNetIP resolveDeadline .ip4 host with
        | .error _ => return .error (.text "lookup failed")
        | .ok addrs =>
          let candidates ← Router.select c.router addrs mark []
          if candidates = [] then return .error .denied
          else dialCandidates deadline candidates port c.router.connectAttemptCap false via mark

end SakhtarWg
