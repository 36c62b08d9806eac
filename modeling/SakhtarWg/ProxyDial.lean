import SakhtarWg.DnsTypes
import SakhtarWg.Prefix
import SakhtarWg.Program
import SakhtarWg.ProxyPolicy
import SakhtarWg.ProxySelect

/-!
# Dialing a backend

The failover loop over egresses with the attempt loop inside it, as a program over
its environment: the context, the clock, the resolution cache, the shared cursor of
the selector and the dial function.
-/

namespace SakhtarWg.Proxy
open Netip Program

/-- Errors as far as `errors.Is` looks at them. -/
inductive Err
  | denied
  | text (message : String)
  | wrap (label : String) (e : Err)
  | join (es : List Err)

/-- `errors.Is(err, errDestinationDenied)`. -/
def Err.isDenied : Err → Bool
  | .denied => true
  | .text _ => false
  | .wrap _ e => e.isDenied
  | .join es => anyDenied es
where
  anyDenied : List Err → Bool
    | [] => false
    | e :: es => e.isDenied || anyDenied es

def errDeniedAnswer : Err := .wrap "resolver answered only denied addresses" .denied

def errNoIPv4Candidate : Err :=
  .text "tunnel egress is IPv4-only and the destination has no IPv4 address"

/-- The families a lookup asks for. -/
inductive LookupNetwork
  | ip | ip4 | ip6
  deriving DecidableEq

/-- The addresses `net.Resolver` may return: for `ip4` only IPv4 ones, possibly mapped. -/
abbrev LookupNetwork.Answer (network : LookupNetwork) : Type :=
  { addrs : List Addr // network = .ip4 → ∀ a ∈ addrs, a.unmap.is4 = true }

/-- A lookup error as the resolver's callers classify it. -/
structure LookupError where
  timeout : Bool
  notFound : Bool
  deriving DecidableEq

/-- What the dial path asks of its environment. A context is known by its deadline. The Go
resolver decides how often it dials a server during an exchange, and what the lookup returns. -/
inductive Env
  | ctxErr (deadline : Option ℤ)
  | now
  | resolve (mark : ℤ) (host : String) (deadline : Option ℤ)
  | invalidate (mark : ℤ) (host : String)
  | sequence
  | dial (mark : ℤ) (address : String) (deadline : Option ℤ)
  | record (success : Bool) (egress : String)
  | exchanges (server : String) (tcp : Bool)
  | answer (network : LookupNetwork) (host : String)

abbrev Env.Response : Env → Type
  | .ctxErr _ => Option Err
  | .now => ℤ
  | .resolve _ _ _ => Except Err Dns.Result
  | .invalidate _ _ => Unit
  | .sequence => UInt64
  | .dial _ _ _ => Except Err Unit
  | .record _ _ => Unit
  | .exchanges _ _ => ℕ
  | .answer network _ => Except LookupError network.Answer

abbrev Dialing := Prog Env Env.Response

namespace Env

def getCtxErr (deadline : Option ℤ) : Dialing (Option Err) := Prog.perform (Env.ctxErr deadline)

def getNow : Dialing ℤ := Prog.perform Env.now

def askResolver (mark : ℤ) (host : String) (deadline : Option ℤ) :
    Dialing (Except Err Dns.Result) := Prog.perform (Env.resolve mark host deadline)

def drop (mark : ℤ) (host : String) : Dialing Unit := Prog.perform (Env.invalidate mark host)

def nextSequence : Dialing UInt64 := Prog.perform Env.sequence

def connect (mark : ℤ) (address : String) (deadline : Option ℤ) : Dialing (Except Err Unit) :=
  Prog.perform (Env.dial mark address deadline)

/-- `metrics.record`, unless there are no metrics. -/
def count (metrics success : Bool) (egress : String) : Dialing Unit :=
  if metrics then Prog.perform (Env.record success egress) else pure ()

def countExchanges (server : String) (tcp : Bool) : Dialing ℕ :=
  Prog.perform (Env.exchanges server tcp)

def takeAnswer (network : LookupNetwork) (host : String) :
    Dialing (Except LookupError network.Answer) := Prog.perform (Env.answer network host)

end Env

/-- The parts of a router that dialing reads. -/
structure Router where
  destination : DestinationPolicy
  selector : RotatingSelector
  connectAttemptCap : ℤ
  hasResolver : ℤ → Bool
  egressNames : ℤ → Option String

def Router.egressName (rt : Router) (mark : ℤ) : String :=
  if mark = 0 then "direct"
  else match rt.egressNames mark with
    | some name => if name ≠ "" then name else "mark-" ++ toString mark
    | none => "mark-" ++ toString mark

def egressFamilyAllowed (addr : Addr) (mark : ℤ) : Bool := mark = 0 || addr.unmap.is4

def egressFamilyCandidates (addrs : List Addr) (mark : ℤ) : List Addr :=
  if mark = 0 then addrs else addrs.filter (egressFamilyAllowed · mark)

/-! ## Budgets -/

def minAttemptTimeout : ℤ := 1000000000

def budgetSlice (remaining : ℤ) (attemptsLeft : ℕ) : ℤ :=
  if remaining ≤ 0 then 0
  else
    let slice := if 1 < attemptsLeft then remaining.tdiv attemptsLeft else remaining
    min (max slice minAttemptTimeout) remaining

/-- The context of one attempt: a slice of what is left, when there is a deadline. -/
def attemptDeadline (deadline : Option ℤ) (attemptsLeft : ℕ) : Dialing (Option ℤ) :=
  match deadline with
  | none => pure none
  | some d => do
    let now ← Env.getNow
    let slice := budgetSlice (d - now) attemptsLeft
    let now' ← Env.getNow
    return some (min d (now' + slice))

/-! ## One egress -/

/-- The attempt loop; `errs` are the failures so far. -/
def dialEach (deadline : Option ℤ) (port : String) (metrics : Bool) (egress : String) (mark : ℤ) :
    List Addr → List Err → Dialing (Except Err Unit)
  | [], errs =>
    pure (.error (if errs = [] then .text "proxy: no dialable addresses" else .join errs))
  | candidate :: rest, errs => do
    match ← Env.getCtxErr deadline with
    | some e => return .error (.join (errs ++ [e]))
    | none =>
      let address := joinHostPort candidate.string port
      let attempt ← attemptDeadline deadline (rest.length + 1)
      match ← Env.connect mark address attempt with
      | .ok _ =>
        Env.count metrics true egress
        return .ok ()
      | .error e =>
        Env.count metrics false egress
        dialEach deadline port metrics egress mark rest (errs ++ [.wrap address e])

def dialCandidates (deadline : Option ℤ) (candidates : List Addr) (port : String)
    (attemptCap : ℤ) (metrics : Bool) (egress : String) (mark : ℤ) :
    Dialing (Except Err Unit) :=
  if attemptCap ≤ 0 then
    pure (.error (.text "proxy: connect attempt cap must be greater than zero"))
  else dialEach deadline port metrics egress mark (candidates.take attemptCap.toNat) []

/-- A call of the shared selector; it draws from the cursor unless its cap is not positive. -/
def Router.select (rt : Router) (input : List Addr) (mark : ℤ) (self : List Addr) :
    Dialing (List Addr) :=
  if rt.selector.maxAttempts ≤ 0 then pure []
  else do
    let sequence ← Env.nextSequence
    return rt.selector.select sequence input (rt.destination.addressAllowed · mark self)

def backendCandidates (rt : Router) (deadline : Option ℤ) (host : String) (isIP : Bool)
    (mark : ℤ) (self : List Addr) : Dialing (Except Err (List Addr)) :=
  if isIP then
    match parseAddr host with
    | none => pure (.error .denied)
    | some addr =>
      if egressFamilyAllowed addr mark then do
        let selected ← rt.select [addr] mark self
        return if selected = [] then .error .denied else .ok selected
      else pure (.error errNoIPv4Candidate)
  else if rt.hasResolver mark then do
    match ← Env.askResolver mark host deadline with
    | .error e => return .error e
    | .ok result =>
      if result.rcode ≠ .success then
        return .error (.text ("DNS " ++ result.rcode.string ++ " for " ++ host))
      else
        let family := egressFamilyCandidates result.addrs mark
        if family = [] then return .error errNoIPv4Candidate
        else
          let allowed ← rt.select family mark self
          if allowed = [] then
            Env.drop mark host
            return .error errDeniedAnswer
          else return .ok allowed
  else pure (.error (.text ("no resolver for egress mark " ++ toString mark)))

def dialBackend (rt : Router) (deadline : Option ℤ) (host : String) (isIP : Bool) (port : String)
    (mark : ℤ) (self : List Addr) : Dialing (Except Err Unit) := do
  match ← backendCandidates rt deadline host isIP mark self with
  | .error e => return .error e
  | .ok candidates =>
    match ← dialCandidates deadline candidates port rt.connectAttemptCap true
        (rt.egressName mark) mark with
    | .ok _ => return .ok ()
    | .error e =>
      if isIP then return .error e
      else
        Env.drop mark host
        return .error e

/-! ## All egresses -/

/-- The result when no egress connected: a denial only if every egress denied. -/
def conclude (denied failed : List Err) : Err :=
  if failed ≠ [] then .join failed
  else if denied ≠ [] then .join denied
  else .text "proxy: no egress to dial"

/-- The failover loop; `denied` and `failed` collect the errors of earlier egresses. -/
def dialEgressesFrom (rt : Router) (deadline : Option ℤ) (host : String) (isIP : Bool)
    (port : String) (self : List Addr) :
    List ℤ → List Err → List Err → Dialing (Except Err Unit)
  | [], denied, failed => pure (.error (conclude denied failed))
  | mark :: rest, denied, failed => do
    match ← Env.getCtxErr deadline with
    | some e => return .error (conclude denied (failed ++ [e]))
    | none =>
      let egress ← attemptDeadline deadline (rest.length + 1)
      match ← dialBackend rt egress host isIP port mark self with
      | .ok _ => return .ok ()
      | .error e =>
        let e := Err.wrap ("egress " ++ rt.egressName mark) e
        if e.isDenied then
          dialEgressesFrom rt deadline host isIP port self rest (denied ++ [e]) failed
        else dialEgressesFrom rt deadline host isIP port self rest denied (failed ++ [e])

def dialEgresses (rt : Router) (deadline : Option ℤ) (host : String) (isIP : Bool)
    (port : String) (marks : List ℤ) (self : List Addr) : Dialing (Except Err Unit) :=
  dialEgressesFrom rt deadline host isIP port self marks [] []

end SakhtarWg.Proxy
