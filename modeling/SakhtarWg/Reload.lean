import SakhtarWg.Chains
import SakhtarWg.MainLoop

/-!
# Startup, reload and shutdown

The kernel work of the main loop: bringing everything up, converging to a new
configuration with a rollback on failure, refreshing routes, repairing drift and
tearing down. Log lines and the recorded status are left out.
-/

namespace SakhtarWg
open Fallible Program

/-- Resolver overrides do not touch the kernel. -/
def sameTunnelSpec (a b : Tunnel) : Bool := { a with resolver := [] } = { b with resolver := [] }

/-- A map from names to tunnels keeps the last one of a name. -/
def Config.tunnelNamed (c : Config) (name : String) : Option Tunnel :=
  c.tunnels.reverse.find? fun t => t.name = name

/-- The fields the policy rule of a tunnel is made of differ. -/
def allocationChanged (prev t : Tunnel) : Bool :=
  prev.rulePriority ≠ t.rulePriority || prev.fwmark ≠ t.fwmark ||
    prev.fwmarkMask ≠ t.fwmarkMask || prev.table ≠ t.table

/-- A new router for the sessions to come. -/
def publish (c : Config) : Net Unit := ExceptT.lift (Prog.perform (Cmd.publish c))

section
variable (x : Library)

def teardown (c : Config) : Net Unit := do
  let gateway ← Net.collect (gatewayDown c)
  let tunnels ← Net.collectAll (tunnelDown x) c.tunnels
  let guard ← Net.collect (egressGuardDown c)
  Net.ofExcept (joinErrors (gateway ++ tunnels ++ guard))

/-! ## Startup -/

/-- A failed step of the startup takes down what is up and ends the process. -/
def orTeardown (c : Config) (p : Net Unit) : Net Unit := do
  match ← Prog.attempt p with
  | .ok _ => return ()
  | .error e =>
    let cleanup ← Net.collect (teardown x c)
    throw (String.intercalate "\n" (e :: cleanup))

def startUp (c : Config) : Net Unit := do
  Net.within "kernel ownership allocation" (validateKernelReservations c)
  Net.within "gateway policy preflight" (Net.ofExcept (gatewayPreflight c))
  Net.within "egress guard" (orTeardown x c (egressGuardUp c))
  c.tunnels.forM fun t => Net.within ("bring up " ++ t.name) (orTeardown x c (tunnelUp x t))
  Net.within "gateway" (orTeardown x c (gatewayUp c))
  publish c

/-! ## Reload -/

/-- A tunnel that is not as it was: bring it up, then withdraw what the old one left behind. -/
def replaceTunnel (prev t : Tunnel) : Net Unit := do
  Net.within ("apply tunnel " ++ t.name) (tunnelUp x t)
  Net.whenever (prev.address ≠ t.address)
    (Net.within ("remove old address from " ++ t.name) (deleteExactOwnedAddress x prev))
  Net.whenever (prev.table ≠ t.table)
    (Net.within ("remove old default route from " ++ t.name) (deleteOwnedDefaultRoute x prev))
  Net.whenever (allocationChanged prev t)
    (Net.within ("remove old rule from " ++ t.name) (deleteOwnedRule prev))

/-- An unchanged tunnel: the device is left alone, the plumbing around it is not. -/
def refreshTunnel (t : Tunnel) : Net Unit := do
  match ← Net.within ("inspect tunnel " ++ t.name) (lookupLink t.name) with
  | none => Net.within ("apply tunnel " ++ t.name) (tunnelUp x t)
  | some link => Net.within ("reconcile tunnel " ++ t.name) (reconcilePlumbing x link t)

def convergeTunnel (old : Config) (t : Tunnel) : Net Unit :=
  match old.tunnelNamed t.name with
  | some prev => if sameTunnelSpec prev t then refreshTunnel x t else replaceTunnel x prev t
  | none => Net.within ("apply tunnel " ++ t.name) (tunnelUp x t)

def convergeGateway (old next : Config) : Net Unit :=
  if old.gateway.enabled && !next.gateway.enabled then
    Net.within "disable gateway" (gatewayDown old)
  else Net.within "apply gateway" (gatewayUp next)

/-- The part of a reload that is rolled back when it fails. -/
def converge (old next : Config) : Net Unit := do
  next.tunnels.forM (convergeTunnel x old)
  egressGuardUp next
  convergeGateway old next

/-- Withdraw what a failed reload may have left of one tunnel. -/
def undoTunnel (old : Config) (t : Tunnel) : Net (List String) :=
  match old.tunnelNamed t.name with
  | none => Net.collect (Net.within ("remove uncommitted " ++ t.name) (tunnelDown x t))
  | some previous => do
    let sameKey := decide (previous.privateKey = t.privateKey)
    let address ← Net.collect (Net.whenever (sameKey && previous.address ≠ t.address)
      (Net.within ("remove uncommitted address from " ++ t.name) (deleteExactOwnedAddress x t)))
    let rule ← Net.collect (Net.whenever (sameKey && allocationChanged previous t)
      (Net.within ("remove uncommitted rule from " ++ t.name) (deleteOwnedRule t)))
    let route ← Net.collect (Net.whenever (sameKey && previous.table ≠ t.table)
      (Net.within ("remove uncommitted default route from " ++ t.name)
        (deleteOwnedDefaultRoute x t)))
    return address ++ rule ++ route

def undoTunnels (old : Config) : List Tunnel → Net (List String)
  | [] => return []
  | t :: rest => do
    let errs ← undoTunnel x old t
    let more ← undoTunnels old rest
    return errs ++ more

def repairGateway (old attempted : Config) : Net Unit :=
  if old.gateway.enabled then Net.within "repair gateway" (gatewayUp old)
  else Net.within "remove uncommitted gateway" (gatewayDown attempted)

/-- The repair errors of a rollback. -/
def rollbackRepairs (old attempted : Config) : Net (List String) := do
  let undone ← undoTunnels x old attempted.tunnels
  let repaired ← Net.collectAll (fun t => Net.within ("repair " ++ t.name) (tunnelUp x t))
    old.tunnels
  let gateway ← Net.collect (repairGateway old attempted)
  let guard ← Net.collect (Net.within "repair egress guard" (egressGuardUp old))
  return undone ++ repaired ++ gateway ++ guard

def rollbackKernelApply (old attempted : Config) (applyErr : String) : Net Unit := do
  let repair ← rollbackRepairs x old attempted
  throw (String.intercalate "\n" (applyErr :: repair))

/-- Once the router is published, tunnels that are gone are taken down; errors are only logged. -/
def commitReload (old next : Config) : Net Unit := do
  publish next
  let _ ← Net.collectAll (tunnelDown x)
    (old.tunnels.filter fun t => t.name ∉ next.tunnels.map (·.name))
  return ()

def applyReload (old next : Config) : Net Unit := do
  Net.within "current kernel ownership is ambiguous" (validateKernelReservations old)
  Net.ofExcept (reloadPreflight next)
  match ← Prog.attempt (converge x old next) with
  | .error e => rollbackKernelApply x old next e
  | .ok _ => commitReload x old next

/-! ## Refresh and repair -/

/-- One tunnel of a route refresh; the link has to be there and owned. -/
def refreshRoutes (t : Tunnel) : Net Unit := do
  match ← lookupLink t.name with
  | none => throw (t.name ++ ": link not found")
  | some link => do
    let _ ← Net.ofExcept (ownedLinkMode x link t)
    reconcilePlumbing x link t

/-- The errors of a route refresh. A policy that does not compile stops it at once. -/
def applyRoutes (c : Config) : Net (List String) :=
  match gatewayPreflight c with
  | .error e => return [e]
  | .ok _ => do
    let tunnels ← Net.collectAll (refreshRoutes x) c.tunnels
    let guard ← Net.collect (egressGuardUp c)
    let gateway ← Net.collect (gatewayUp c)
    return tunnels ++ guard ++ gateway

def reapplyTunnel (t : Tunnel) : Net Unit := do
  match ← lookupLink t.name with
  | none => tunnelUp x t
  | some link => reconcilePlumbing x link t

def reapplyOwnedState (c : Config) : Net Unit := do
  let guard ← Net.collect (egressGuardUp c)
  let tunnels ← Net.collectAll (reapplyTunnel x) c.tunnels
  let gateway ← Net.collect (Net.within "gateway" (gatewayUp c))
  Net.ofExcept (joinErrors (guard ++ tunnels ++ gateway))

end

end SakhtarWg
