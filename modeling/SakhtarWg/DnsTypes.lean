import Mathlib.Data.List.AList
import SakhtarWg.Netip
import SakhtarWg.Fallible

/-!
# DNS queries, results and policy

The types of the resolution cache. Instants are nanoseconds counted from the zero
value of `time.Time`, so a zero instant is the Go zero value; durations are
nanoseconds.
-/

namespace SakhtarWg.Dns
open Text Netip Fallible

inductive RCode
  | success | nxdomain | nodata | transient | unknown (code : UInt8)
  deriving DecidableEq

def RCode.string : RCode → String
  | .success => "positive"
  | .nxdomain => "nxdomain"
  | .nodata => "nodata"
  | .transient => "transient"
  | .unknown _ => "unknown"

inductive Family
  | any | ipv4 | ipv6 | unknown (code : UInt8)
  deriving DecidableEq

def Family.byte : Family → UInt8
  | .any => 0
  | .ipv4 => 1
  | .ipv6 => 2
  | .unknown code => code

/-- A resolver's answer; the default is the Go zero value. -/
structure Result where
  addrs : List Addr := []
  expiresAt : ℤ := 0
  rcode : RCode := .success
  deriving DecidableEq

/-- Every input that can change what a resolver means. -/
structure Query where
  host : String
  family : Family
  egress : String
  resolver : String
  generation : UInt64
  deriving DecidableEq

structure Key where
  host : String
  family : Family
  egress : String
  resolver : String
  generation : UInt64
  deriving DecidableEq

inductive Error
  | nilResolver
  | key (text : String)
  | pendingLimit
  | resolve (text : String)
  | context (text : String)
  deriving DecidableEq

/-- The class `unicode.IsSpace`. -/
def isSpace (c : Char) : Bool :=
  isBlank c || c.toNat ∈ [0x85, 0xa0, 0x1680, 0x2028, 0x2029, 0x202f, 0x205f, 0x3000] ||
    (0x2000 ≤ c.toNat && c.toNat ≤ 0x200a)

/-- Without one trailing dot, in lower case; names reaching the cache are ASCII. -/
def lowerHost (host : String) : List Char :=
  let l := host.toList
  (if l.getLast? = some '.' then l.dropLast else l).map Char.toLower

def makeKey (q : Query) : Except Error Key := do
  let host := lowerHost q.host
  require (host ≠ [] ∧ (host.head?.map isSpace) ≠ some true ∧
    (host.getLast?.map isSpace) ≠ some true)
    (Error.key "dns: invalid empty or whitespace hostname")
  match q.family with
  | .unknown code => throw (.key ("dns: invalid address family " ++ toString code.toNat))
  | family => return ⟨String.ofList host, family, q.egress, q.resolver, q.generation⟩

inductive StalePolicy
  | never | transient | unsupported (text : String)
  deriving DecidableEq

structure Policy where
  positiveCapacity : ℤ
  negativeCapacity : ℤ
  maxPending : ℤ
  minPositiveTTL : ℤ
  maxPositiveTTL : ℤ
  negativeTTL : ℤ
  transientFailureTTL : ℤ
  staleWindow : ℤ
  stalePolicy : StalePolicy
  resolverTimeout : ℤ
  deriving DecidableEq

def Policy.validate (p : Policy) : Except String Unit := do
  require (0 < p.positiveCapacity) "dns: positive capacity must be greater than zero"
  require (0 < p.negativeCapacity) "dns: negative capacity must be greater than zero"
  require (0 < p.maxPending) "dns: max pending must be greater than zero"
  require (0 < p.minPositiveTTL) "dns: minimum positive TTL must be greater than zero"
  require (p.minPositiveTTL ≤ p.maxPositiveTTL)
    "dns: maximum positive TTL must be at least the minimum"
  require (0 < p.negativeTTL) "dns: negative TTL must be greater than zero"
  require (0 < p.transientFailureTTL) "dns: transient failure TTL must be greater than zero"
  require (0 ≤ p.staleWindow) "dns: stale window must not be negative"
  match p.stalePolicy with
  | .unsupported text => throw ("dns: unsupported stale policy " ++ quote text)
  | _ => pure ()
  require (0 < p.resolverTimeout) "dns: resolver timeout must be greater than zero"

theorem Policy.capacity_pos {p : Policy} (h : p.validate = .ok ()) :
    0 < p.positiveCapacity ∧ 0 < p.negativeCapacity ∧ 0 < p.maxPending := by
  unfold Policy.validate at h
  simp only [bind_eq_ok, require_eq_ok, decide_eq_true_eq] at h
  obtain ⟨-, h1, -, h2, -, h3, -⟩ := h
  exact ⟨h1, h2, h3⟩

theorem Policy.ttl_pos {p : Policy} (h : p.validate = .ok ()) :
    0 < p.minPositiveTTL ∧ p.minPositiveTTL ≤ p.maxPositiveTTL := by
  unfold Policy.validate at h
  simp only [bind_eq_ok, require_eq_ok, decide_eq_true_eq] at h
  obtain ⟨-, -, -, -, -, -, -, h1, -, h2, -⟩ := h
  exact ⟨h1, h2⟩

/-! ## Normalising answers -/

/-- What the resolver did: it returned, with or without an error, or it panicked. -/
inductive Answer
  | returned (result : Result) (err : Option String)
  | panicked
  deriving DecidableEq

def callResolver : Answer → Result × Option String
  | .returned result err => (result, err)
  | .panicked => ({}, some "resolver panicked")

/-- Valid unzoned addresses, unmapped, each once, in first-occurrence order. -/
def normalizeAddrs (input : List Addr) : List Addr :=
  input.foldl (fun result addr =>
    if addr.isValid = false ∨ addr.zone ≠ "" then result
    else if addr.unmap ∈ result then result
    else result ++ [addr.unmap]) []

/-- The stored form of an answer received at `now`. -/
def Policy.normalizeResult (p : Policy) (result : Result) (err : Option String) (now : ℤ) :
    Result × Option Error :=
  match err with
  | some text =>
    ({ rcode := .transient, expiresAt := now + p.transientFailureTTL }, some (.resolve text))
  | none =>
    let addrs := normalizeAddrs result.addrs
    let rcode := if result.rcode = .success ∧ addrs = [] then .nodata else result.rcode
    match rcode with
    | .success =>
      let ttl := result.expiresAt - now
      let ttl := if ttl < p.minPositiveTTL then p.minPositiveTTL else ttl
      let ttl := if p.maxPositiveTTL < ttl then p.maxPositiveTTL else ttl
      ({ addrs := addrs, expiresAt := now + ttl, rcode := .success }, none)
    | .nxdomain => ({ rcode := .nxdomain, expiresAt := now + p.negativeTTL }, none)
    | .nodata => ({ rcode := .nodata, expiresAt := now + p.negativeTTL }, none)
    | _ => ({ rcode := .transient, expiresAt := now + p.transientFailureTTL },
        some (.resolve "resolver returned invalid response class"))

end SakhtarWg.Dns
