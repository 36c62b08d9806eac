import SakhtarWg.GatewayConfig
import SakhtarWg.Wg

/-!
# Dedicated chains

Installing and removing the chains of the gateway and of the egress guard. A chain is
taken for owned when every rule in it carries the owner's comment and every jump to
it the chain's.
-/

namespace SakhtarWg
open Text Fallible Firewall Program

structure ChainInspection where
  chain : Chain
  present : Bool
  ownedRules : ℕ
  ownedJumps : ℕ
  deriving DecidableEq

namespace Firewall

/-- The comment, bare or quoted, occurs in the rule. -/
def hasComment (rule comment : String) : Bool :=
  containsText rule.toList ("--comment " ++ comment).toList ||
    containsText rule.toList ("--comment \"" ++ comment ++ "\"").toList

def ruleIsOwned (rule : String) : Bool := hasComment rule ownerComment

/-- The listed rules of a chain. -/
def ruleLines (chain : String) (lines : List String) : List String :=
  (lines.map fun line => String.ofList (trimSpaces line.toList)).filter fun line =>
    ("-A " ++ chain ++ " ").toList.isPrefixOf line.toList

def countRules (c : Chain) (lines : List String) : Except String ℕ := do
  require ((ruleLines c.name lines).all ruleIsOwned)
    (c.table ++ "/" ++ c.name ++ " contains a rule without sakhtar-wg ownership proof")
  return (ruleLines c.name lines).length

def jumpLines (c : Chain) (lines : List String) : List String :=
  (ruleLines c.hook lines).filter fun line => jumpsTo line c.name

def countJumps (c : Chain) (lines : List String) : Except String ℕ := do
  require ((jumpLines c lines).all fun line => hasComment line c.comment)
    (c.table ++ "/" ++ c.hook ++ " has a foreign jump to reserved chain " ++ c.name)
  return (jumpLines c lines).length

end Firewall

/-- The message says that the chain is not there. -/
def saysMissing (message : String) : Bool :=
  containsText (message.toList.map Char.toLower) "no chain/target/match".toList ||
    containsText (message.toList.map Char.toLower) "does not exist".toList

def listChain (table chain : String) : Net (Option (List String)) := do
  match ← Net.call (.listRules table chain) with
  | .ok lines => return some lines
  | .error e =>
    if saysMissing e.message then return none
    else throw ("iptables -t " ++ table ++ " -S " ++ chain ++ ": exit status 1: " ++ e.message)

def inspectChain (c : Chain) : Net ChainInspection := do
  let body ← listChain c.table c.name
  let ownedRules ← Net.ofExcept (countRules c (body.getD []))
  let hook ← listChain c.table c.hook
  let ownedJumps ← Net.ofExcept (countJumps c (hook.getD []))
  Net.require (!(body.isSome && ownedRules = 0 && ownedJumps = 0))
    (c.table ++ "/" ++ c.name ++ " already exists without ownership evidence")
  return ⟨c, body.isSome, ownedRules, ownedJumps⟩

def inspectFirewallOwnership (r : Ruleset) : Net (List ChainInspection) :=
  r.chains.mapM inspectChain

def runRestore (input : String) (wrap : String → String) : Net Unit :=
  Net.check (.restore input) fun e => wrap ("iptables-restore: exit status 1: " ++ e)

def deleteJump (c : Chain) (wrap : String → String) : Net Unit :=
  Net.check (.deleteJump c.table c.hook c.comment c.name) fun e =>
    wrap ("iptables -t " ++ c.table ++ " -D " ++ c.hook ++ " " ++ jumpRule c.comment c.name ++
      ": exit status 1: " ++ e)

/-- Leave exactly one jump in the hook. -/
def installJump (i : ChainInspection) : Net Unit :=
  if i.ownedJumps = 0 then
    Net.check (.insertJump i.chain.table i.chain.hook i.chain.comment i.chain.name) fun e =>
      "install " ++ i.chain.table ++ " jump: iptables -t " ++ i.chain.table ++ " -I " ++
        i.chain.hook ++ " 1 " ++ jumpRule i.chain.comment i.chain.name ++ ": exit status 1: " ++ e
  else
    (List.replicate (i.ownedJumps - 1) ()).forM fun _ =>
      deleteJump i.chain fun e => "deduplicate " ++ i.chain.table ++ " jump: " ++ e

def installOwnedChains (r : Ruleset) (inspections : List ChainInspection) : Net Unit := do
  runRestore r.restoreInput fun e => "replace owned firewall ruleset: " ++ e
  let errs ← Net.collectAll installJump inspections
  Net.ofExcept (joinErrors errs)

def removeJumps (i : ChainInspection) : Net Unit :=
  (List.replicate i.ownedJumps ()).forM fun _ =>
    deleteJump i.chain fun e => "remove " ++ i.chain.table ++ " jump: " ++ e

/-- The transaction that deletes the chains that are there. -/
def removalInput (inspections : List ChainInspection) : String :=
  String.join ((inspections.filter (·.present)).map fun i =>
    "*" ++ i.chain.table ++ "\n-F " ++ i.chain.name ++ "\n-X " ++ i.chain.name ++ "\nCOMMIT\n")

/-- The jumps go first, so that no hook points at a chain being flushed. -/
def removeOwnedChains (inspections : List ChainInspection) : Net Unit := do
  let errs ← Net.collectAll removeJumps inspections
  if errs ≠ [] then Net.ofExcept (joinErrors errs)
  else if removalInput inspections = "" then return ()
  else runRestore (removalInput inspections) fun e => "delete owned firewall chains: " ++ e

/-! ## Gateway and guard -/

def gatewayUp (c : Config) : Net Unit :=
  if !c.gateway.enabled then pure ()
  else do
    let ruleset ← Net.ofExcept (compileGatewayRuleset c)
    let inspections ← inspectFirewallOwnership ruleset
    requireSysctl "net/ipv4/ip_forward" "1" fun e => "enable ip_forward: " ++ e
    installOwnedChains ruleset inspections

def gatewayDown (c : Config) : Net Unit := do
  let ruleset ← Net.ofExcept (compileGatewayRuleset c)
  let inspections ← inspectFirewallOwnership ruleset
  removeOwnedChains inspections

def egressGuardUp (c : Config) : Net Unit := do
  let ruleset ← Net.ofExcept (compileEgressGuardRuleset c)
  let inspections ← Net.within "egress guard" (inspectFirewallOwnership ruleset)
  Net.within "egress guard" (installOwnedChains ruleset inspections)

def egressGuardDown (c : Config) : Net Unit := do
  let ruleset ← Net.ofExcept (compileEgressGuardRuleset c)
  let inspections ← Net.within "egress guard" (inspectFirewallOwnership ruleset)
  Net.within "egress guard" (removeOwnedChains inspections)

end SakhtarWg
