import Mathlib.Data.List.Dedup
import SakhtarWg.ConfigValid

/-!
# The route updater

The parsers of fetched lists, and the merge of last-good fetched CIDRs with the
static routes of a configuration.
-/

namespace SakhtarWg
open Text Netip Fallible

/-! ## Parsers -/

def maxSourceBytes : ℕ := 8388608

/-- The entry of one line: no comment, cut at the first blank, comma or semicolon. -/
def cidrOfLine (line : List Char) : Option String :=
  let line := trimSpaces line
  if line = [] ∨ line.head? = some '#' then none
  else normalizeIPv4CIDR
    (String.ofList (line.takeWhile fun c => c ≠ ' ' && c ≠ '\t' && c ≠ ',' && c ≠ ';'))

def parseCIDRLines (body : String) : Except String (List String) := do
  require (byteLen body ≤ maxSourceBytes)
    ("CIDR source exceeds " ++ toString maxSourceBytes ++ " bytes")
  let out := (splitOn '\n' body.toList).filterMap cidrOfLine
  require (out ≠ []) "no IPv4 CIDRs parsed"
  return out

/-- `decode` extracts `data.prefixes[].prefix` from the JSON document. -/
def parseRIPEPrefixes (decode : String → Except String (List String)) (body : String) :
    Except String (List String) := do
  require (byteLen body ≤ maxSourceBytes)
    ("RIPE source exceeds " ++ toString maxSourceBytes ++ " bytes")
  let prefixes ← decode body
  let out := prefixes.filterMap normalizeIPv4CIDR
  require (out ≠ []) "no IPv4 prefixes in RIPE data"
  return out

/-- The body of a source read in its format. -/
def parseSource (decode : String → Except String (List String)) (format body : String) :
    Except String (List String) :=
  if format = "cidr-lines" then parseCIDRLines body
  else if format = "ripe-prefixes" then parseRIPEPrefixes decode body
  else .error ("unknown format " ++ quote format)

/-! ## Merging -/

/-- `MergeDedup` of one list: sorted, without duplicates. -/
def sortDedup (l : List String) : List String := sortStrings l.dedup

theorem mem_sortDedup {l : List String} {s : String} : s ∈ sortDedup l ↔ s ∈ l := by
  rw [sortDedup, mem_sortStrings, List.mem_dedup]

/-- The static configuration and the last good CIDRs of each source. -/
structure RouteUpdater where
  base : Config
  fetched : String → List String

namespace RouteUpdater

/-- The fetched CIDRs of a tunnel's sources. -/
def fetchedFor (u : RouteUpdater) (t : Tunnel) : List String :=
  t.routeSources.flatMap fun s => u.fetched s.name

def mergeTunnel (u : RouteUpdater) (t : Tunnel) : Tunnel :=
  { t with routes := sortDedup (t.routes.filterMap normalizeIPv4CIDR ++ u.fetchedFor t) }

def mergeBase (u : RouteUpdater) (base : Config) : Config :=
  { base with tunnels := base.tunnels.map u.mergeTunnel }

def merge (u : RouteUpdater) : Config := u.mergeBase u.base

def setBase (u : RouteUpdater) (base : Config) : RouteUpdater := { u with base := base }

/-- A successful fetch replaces the set of its source. -/
def record (u : RouteUpdater) (source : String) (cidrs : List String) : RouteUpdater :=
  { u with fetched := Function.update u.fetched source (sortDedup cidrs) }

end RouteUpdater

def hasRouteSources (c : Config) : Bool := c.tunnels.any fun t => t.routeSources ≠ []

def needsRouteUpdater (c : Config) : Bool := hasRouteSources c || c.pfSync.enabled

section
variable (u : RouteUpdater)

/-- The routes of a merged tunnel: static routes in canonical form, and what was fetched. -/
theorem mem_mergeTunnel {t : Tunnel} (h : ∀ r ∈ t.routes, isIPv4Prefix r = true) {s : String} :
    s ∈ (u.mergeTunnel t).routes ↔
      (∃ r ∈ t.routes, ∃ p, parsePrefix r = some p ∧ s = p.masked.string) ∨
        s ∈ u.fetchedFor t := by
  simp only [RouteUpdater.mergeTunnel, mem_sortDedup, List.mem_append, List.mem_filterMap]
  apply or_congr_left
  constructor
  · rintro ⟨r, hr, hs⟩
    obtain ⟨p, hp, h4⟩ := isIPv4Prefix_iff.mp (h r hr)
    rw [normalizeIPv4CIDR_eq hp h4] at hs
    exact ⟨r, hr, p, hp, (Option.some.inj hs).symm⟩
  · rintro ⟨r, hr, p, hp, rfl⟩
    obtain ⟨q, hq, h4⟩ := isIPv4Prefix_iff.mp (h r hr)
    obtain rfl := Option.some.inj (hp.symm.trans hq)
    exact ⟨r, hr, normalizeIPv4CIDR_eq hp h4⟩

/-- Each route of a merged tunnel denotes what an original text denotes, and conversely. -/
theorem mergeTunnel_denotes {t : Tunnel} (h : ∀ r ∈ t.routes, isIPv4Prefix r = true) :
    (∀ s ∈ (u.mergeTunnel t).routes, ∃ r ∈ t.routes ++ u.fetchedFor t,
      ∀ q, parsePrefix s = some q → ∃ p, parsePrefix r = some p ∧ (q = p ∨ q = p.masked)) ∧
    ∀ r ∈ t.routes ++ u.fetchedFor t, ∃ s ∈ (u.mergeTunnel t).routes,
      ∀ p, parsePrefix r = some p → ∃ q, parsePrefix s = some q ∧ (q = p ∨ q = p.masked) := by
  have hback : ∀ r ∈ t.routes, ∀ p, parsePrefix r = some p →
      parsePrefix p.masked.string = some p.masked := by
    intro r hr p hp
    obtain ⟨q, hq, h4⟩ := isIPv4Prefix_iff.mp (h r hr)
    obtain rfl := Option.some.inj (hp.symm.trans hq)
    exact parsePrefix_string (by simpa using h4)
  constructor
  · intro s hs
    rcases (mem_mergeTunnel u h).mp hs with ⟨r, hr, p, hp, rfl⟩ | hs
    · refine ⟨r, by simp [hr], fun q hq => ⟨p, hp, .inr ?_⟩⟩
      exact (Option.some.inj ((hback r hr p hp).symm.trans hq)).symm
    · exact ⟨s, by simp [hs], fun q hq => ⟨q, hq, .inl rfl⟩⟩
  · intro r hr
    rcases List.mem_append.mp hr with hr | hr
    · obtain ⟨p, hp, -⟩ := isIPv4Prefix_iff.mp (h r hr)
      refine ⟨p.masked.string, (mem_mergeTunnel u h).mpr (.inl ⟨r, hr, p, hp, rfl⟩),
        fun p' hp' => ⟨p.masked, hback r hr p hp, .inr ?_⟩⟩
      rw [Option.some.inj (hp.symm.trans hp')]
    · exact ⟨r, (mem_mergeTunnel u h).mpr (.inr hr), fun p hp => ⟨p, hp, .inl rfl⟩⟩

end

end SakhtarWg
