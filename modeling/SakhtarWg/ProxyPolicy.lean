import SakhtarWg.Prefix
import SakhtarWg.Fallible

/-!
# Destination policy of the proxy

Which addresses an egress may reach: addresses that are not globally meaningful
are denied unless the egress lists an exception.
-/

namespace SakhtarWg.Proxy
open Text Netip Fallible

def defaultDeniedDestinationPrefixes : List Prefix :=
  ["192.0.2.0/24", "198.51.100.0/24", "203.0.113.0/24", "2001:db8::/32", "198.18.0.0/15",
    "2001:2::/48"].filterMap parsePrefix

theorem unmapped_bits_le (p : Prefix) : p.bits - 96 ≤ p.addr.unmap.bitLen := by
  have := p.bits_le.trans p.addr.bitLen_le_unmap
  omega

/-- An IPv4-mapped prefix is translated to the IPv4 prefix it covers. -/
def parsePolicyPrefix (raw : String) : Except String Prefix :=
  match parsePrefix raw with
  | none => .error ("netip.ParsePrefix(" ++ quote raw ++ "): unable to parse")
  | some p =>
    if p.addr.zone ≠ "" then .error "zones are not allowed"
    else if p.addr.is4In6 then
      if 96 ≤ p.bits then
        .ok (Prefix.masked ⟨p.addr.unmap, p.bits - 96, unmapped_bits_le p⟩)
      else .error "IPv4-mapped prefixes broader than /96 are ambiguous"
    else .ok p.masked

/-- Texts that strict validation has already accepted. -/
def mustPolicyPrefixes (raw : List String) : List Prefix :=
  raw.filterMap fun text => (parsePolicyPrefix text).toOption

/-- The exceptions of each egress, by its mark; the unmarked egress is mark zero. -/
structure DestinationPolicy where
  allowByMark : ℤ → List Prefix

def DestinationPolicy.addressAllowed (p : DestinationPolicy) (addr : Addr) (mark : ℤ)
    (self : List Addr) : Bool :=
  if addr.isValid = false ∨ addr.zone ≠ "" then false
  else
    let addr := addr.unmap
    if addr.isUnspecified ∨ addr.isMulticast then false
    else if addr ∈ self then false
    else
      let denied := addr.isLoopback || addr.isPrivate || addr.isLinkLocalUnicast ||
        addr.isLinkLocalMulticast || defaultDeniedDestinationPrefixes.any (·.contains addr)
      if denied then (p.allowByMark mark).any (·.contains addr) else true

/-- The names that always mean the local host or the local link. -/
def DestinationPolicy.requestedHostAllowed (p : DestinationPolicy) (host : String) (isIP : Bool)
    (mark : ℤ) (self : List Addr) : Bool :=
  if isIP then
    match parseAddr host with
    | some addr => p.addressAllowed addr mark self
    | none => false
  else
    host ∉ ["localhost", "localhost.localdomain", "ip6-localhost", "ip6-loopback",
      "broadcasthost"] && !(".localhost".toList.isSuffixOf host.toList) &&
      !(".local".toList.isSuffixOf host.toList)

end SakhtarWg.Proxy
