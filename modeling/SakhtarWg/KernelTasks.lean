import SakhtarWg.ChainOwnership
import SakhtarWg.TunnelFrame

/-!
# The tasks of the main loop

The start, a reload, a route refresh, a repair and the end are the programs the daemon runs
on the kernel, one after another. A property that is kept by the operations on tunnels and
by those on the packet filter holds in every host that a sequence of tasks passes through.
-/

namespace SakhtarWg
open Fallible Firewall Kernel Program

variable {P : Host → Prop} {x : Library} {c old next : Config}

/-! ## The packet filter -/

/-- The property is kept by replacing and removing the chains of the ruleset and by setting
and deleting the jumps to them. -/
structure FilterLicence (P : Host → Prop) (r : Ruleset) : Prop where
  replace : ∀ h, P h → P (h.call (.restore r.restoreInput)).2
  remove : ∀ h inspections, (∀ i ∈ inspections, i.chain ∈ r.chains) → P h →
    P (h.call (.restore (removalInput inspections))).2
  hook : ∀ h, ∀ c ∈ r.chains, P h →
    P (h.call (.insertJump c.table c.hook c.comment c.name)).2
  unhook : ∀ h, ∀ c ∈ r.chains, P h →
    P (h.call (.deleteJump c.table c.hook c.comment c.name)).2

theorem keeps_listChain (h₀ : Host) (table chain : String) :
    (listChain table chain).Keeps (· = h₀) fun lines =>
      lines = h₀.firewall.listRules table chain := by
  rintro n h rfl
  apply Within.bind (P := fun r h' => h' = h ∧
    (r = (h.call (.listRules table chain)).1 ∨ r = .error .io))
  · exact Within.call rfl ⟨rfl, .inl rfl⟩ fun _ => ⟨rfl, .inr rfl⟩
  · rintro r h' ⟨rfl, rfl | rfl⟩
    · simp only [Host.call]
      cases hlist : h'.firewall.listRules table chain <;> exact Within.pure ⟨rfl, rfl⟩
    · exact Within.throw rfl

/-- Whatever fails, an inspection that returns has counted the jumps that are there. -/
theorem keeps_inspectJumps (h₀ : Host) (c : Chain) :
    (inspectChain c).Keeps (· = h₀) fun i =>
      i.chain = c ∧ i.ownedJumps = (hookJumps h₀.firewall c).length := by
  refine .next (keeps_listChain h₀ _ _) fun _ => .next .result fun _ =>
    .bind (keeps_listChain h₀ _ _) fun hook hhook => .bind (.ofExcept
      (Q := fun count => count = (hookJumps h₀.firewall c).length) ?_) fun _ hcount =>
    .next .require fun _ => .pure ⟨rfl, hcount⟩
  intro count hcount
  simp only [countJumps, bind_eq_ok, pure_eq_ok] at hcount
  obtain ⟨-, -, rfl⟩ := hcount
  rw [hhook]
  rfl

theorem keeps_inspectFirewallOwnership (r : Ruleset) :
    (inspectFirewallOwnership r).Keeps P fun is => ∀ i ∈ is, i.chain ∈ r.chains := by
  have hchain : ∀ c, (inspectChain c).Keeps P fun i => c = i.chain := fun c =>
    .ofReads (fun h => keeps_inspectJumps h c) fun _ _ hi => hi.1.symm
  apply (Net.Keeps.mapM hchain).mono
  intro inspections hall i hi
  have hchains : r.chains = inspections.map (·.chain) :=
    List.forall₂_eq_eq_eq ▸ List.forall₂_map_right_iff.mpr hall
  exact hchains ▸ List.mem_map_of_mem hi

namespace FilterLicence

variable {r : Ruleset} (L : FilterLicence P r) {inspections : List ChainInspection}
  (hmem : ∀ i ∈ inspections, i.chain ∈ r.chains)
include L

theorem deleteJumps {c : Chain} (hc : c ∈ r.chains) {count : ℕ} {wrap : String → String} :
    Net.Stays P ((List.replicate count ()).forM fun _ => deleteJump c wrap) :=
  .forM fun _ _ => .check fun h => L.unhook h c hc

include hmem

theorem installOwnedChains : (installOwnedChains r inspections).Stays P := by
  refine .next (.check L.replace) fun _ => .next (.collectAll fun i hi => ?_) fun _ => .result
  exact .ite (.check fun h => L.hook h i.chain (hmem i hi)) (L.deleteJumps (hmem i hi))

theorem removeOwnedChains : (removeOwnedChains inspections).Stays P := by
  apply Net.Keeps.next (.collectAll fun i hi => L.deleteJumps (hmem i hi))
  intro errs
  exact .ite .result (.ite (.pure trivial) (.check fun h => L.remove h inspections hmem))

end FilterLicence

theorem stays_gatewayUp (L : Licence P)
    (hr : ∀ r, compileGatewayRuleset c = .ok r → FilterLicence P r) : (gatewayUp c).Stays P :=
  .ite (.pure trivial) (.bind (.ofExcept hr) fun r Lr =>
    .bind (keeps_inspectFirewallOwnership r) fun _ hmem =>
    .next L.requireSysctl fun _ => Lr.installOwnedChains hmem)

theorem stays_gatewayDown (hr : ∀ r, compileGatewayRuleset c = .ok r → FilterLicence P r) :
    (gatewayDown c).Stays P :=
  .bind (.ofExcept hr) fun r Lr => .bind (keeps_inspectFirewallOwnership r) fun _ hmem =>
    Lr.removeOwnedChains hmem

theorem stays_egressGuardUp (hr : ∀ r, compileEgressGuardRuleset c = .ok r → FilterLicence P r) :
    (egressGuardUp c).Stays P :=
  .bind (.ofExcept hr) fun r Lr => .bind (keeps_inspectFirewallOwnership r).within fun _ hmem =>
    (Lr.installOwnedChains hmem).within

theorem stays_egressGuardDown (hr : ∀ r, compileEgressGuardRuleset c = .ok r → FilterLicence P r) :
    (egressGuardDown c).Stays P :=
  .bind (.ofExcept hr) fun r Lr => .bind (keeps_inspectFirewallOwnership r).within fun _ hmem =>
    (Lr.removeOwnedChains hmem).within

/-! ## Start and end -/

/-- The property is kept by the operations for a configuration, the removal of the guard apart. -/
structure ConfigLicence (P : Host → Prop) (c : Config) : Prop extends Licence P where
  gatewayUp : (gatewayUp c).Stays P
  gatewayDown : (gatewayDown c).Stays P
  guardUp : (egressGuardUp c).Stays P

theorem Licence.validateKernelReservations (L : Licence P) :
    (validateKernelReservations c).Stays P :=
  .next (L.check rfl) fun _ => .next (L.check rfl) fun _ => .next .result fun _ =>
    .next (L.check rfl) fun _ => .result

theorem ConfigLicence.teardown (L : ConfigLicence P c) (hdown : (egressGuardDown c).Stays P) :
    (teardown x c).Stays P :=
  .next (.collect L.gatewayDown) fun _ => .next (.collectAll fun _ _ => L.tunnelDown) fun _ =>
    .next (.collect hdown) fun _ => .result

theorem stays_orTeardown (hdown : (teardown x c).Stays P) {p : Net Unit} (hp : p.Stays P) :
    (orTeardown x c p).Stays P := by
  refine .next hp.attempt fun r => ?_
  cases r with
  | ok _ => exact .pure trivial
  | error e => exact .next (.collect hdown) fun _ => .throw

theorem ConfigLicence.startUp (L : ConfigLicence P c) (hdown : (SakhtarWg.teardown x c).Stays P)
    (hpublish : ∀ h, P h → P { h with published := some c }) : (startUp x c).Stays P :=
  .next L.validateKernelReservations.within fun _ => .next (.within .result) fun _ =>
    .next (stays_orTeardown hdown L.guardUp).within fun _ =>
    .next (.forM fun _ _ => (stays_orTeardown hdown L.tunnelUp).within) fun _ =>
    .next (stays_orTeardown hdown L.gatewayUp).within fun _ => .publish hpublish

/-! ## Reload -/

theorem Licence.convergeTunnel (L : Licence P) {t : Tunnel} : (convergeTunnel x old t).Stays P := by
  unfold SakhtarWg.convergeTunnel
  split
  · split
    · refine .next L.lookupLink.within fun o => ?_
      cases o with
      | none => exact L.tunnelUp.within
      | some l => exact L.reconcilePlumbing.within
    · exact .next L.tunnelUp.within fun _ =>
        .next (.whenever L.deleteExactOwnedAddress.within) fun _ =>
        .next (.whenever L.deleteOwnedDefaultRoute.within) fun _ =>
        .whenever L.deleteOwnedRule.within
  · exact L.tunnelUp.within

theorem stays_convergeGateway (hdown : (gatewayDown old).Stays P) (hup : (gatewayUp next).Stays P) :
    (convergeGateway old next).Stays P := .ite hdown.within hup.within

theorem Licence.undoTunnel (L : Licence P) {t : Tunnel} : (undoTunnel x old t).Stays P := by
  unfold SakhtarWg.undoTunnel
  split
  · exact .collect L.tunnelDown.within
  · exact .next (.collect (.whenever L.deleteExactOwnedAddress.within)) fun _ =>
      .next (.collect (.whenever L.deleteOwnedRule.within)) fun _ =>
      .next (.collect (.whenever L.deleteOwnedDefaultRoute.within)) fun _ => .pure trivial

theorem Licence.undoTunnels (L : Licence P) {tunnels : List Tunnel} :
    (undoTunnels x old tunnels).Stays P := by
  induction tunnels with
  | nil => exact .pure trivial
  | cons t rest ih => exact .next L.undoTunnel fun _ => .next ih fun _ => .pure trivial

theorem stays_rollbackKernelApply (Lold : ConfigLicence P old) (Lnext : ConfigLicence P next)
    {applyErr : String} : (rollbackKernelApply x old next applyErr).Stays P := by
  have hgateway : (repairGateway old next).Stays P :=
    .ite Lold.gatewayUp.within Lnext.gatewayDown.within
  have hrepairs : (rollbackRepairs x old next).Stays P :=
    .next Lnext.undoTunnels fun _ => .next (.collectAll fun _ _ => Lold.tunnelUp.within) fun _ =>
      .next (.collect hgateway) fun _ => .next (.collect Lold.guardUp.within) fun _ => .pure trivial
  exact .next hrepairs fun _ => .throw

theorem stays_applyReload (Lold : ConfigLicence P old) (Lnext : ConfigLicence P next)
    (hpublish : ∀ h, P h → P { h with published := some next }) :
    (applyReload x old next).Stays P := by
  have hconverge : (converge x old next).Stays P :=
    .next (.forM fun _ _ => Lnext.convergeTunnel) fun _ => .next Lnext.guardUp fun _ =>
      stays_convergeGateway Lold.gatewayDown Lnext.gatewayUp
  refine .next Lold.validateKernelReservations.within fun _ => .next .result fun _ =>
    .next hconverge.attempt fun r => ?_
  cases r with
  | error e => exact stays_rollbackKernelApply Lold Lnext
  | ok _ =>
    exact .next (.publish hpublish) fun _ => .next (.collectAll fun _ _ => Lold.tunnelDown) fun _ =>
      .pure trivial

/-! ## Refresh and repair -/

theorem ConfigLicence.applyRoutes (L : ConfigLicence P c) : (applyRoutes x c).Stays P := by
  unfold SakhtarWg.applyRoutes
  split
  · exact .pure trivial
  · refine .next (.collectAll fun _ _ => .next L.lookupLink fun o => ?_) fun _ =>
      .next (.collect L.guardUp) fun _ => .next (.collect L.gatewayUp) fun _ => .pure trivial
    cases o with
    | none => exact .throw
    | some l => exact .next .result fun _ => L.reconcilePlumbing

theorem ConfigLicence.reapplyOwnedState (L : ConfigLicence P c) :
    (reapplyOwnedState x c).Stays P := by
  refine .next (.collect L.guardUp) fun _ => .next (.collectAll fun _ _ =>
    .next L.lookupLink fun o => ?_) fun _ => .next (.collect L.gatewayUp.within) fun _ => .result
  cases o with
  | none => exact L.tunnelUp
  | some l => exact L.reconcilePlumbing

/-! ## Sequences of tasks -/

inductive KernelTask
  | start (c : Config)
  | reload (old next : Config)
  | refresh (c : Config)
  | repair (c : Config)
  | stop (c : Config)

namespace KernelTask

def program (x : Library) : KernelTask → Net Unit
  | .start c => startUp x c
  | .reload old next => applyReload x old next
  | .refresh c => do
    let _ ← applyRoutes x c
    return ()
  | .repair c => reapplyOwnedState x c
  | .stop c => teardown x c

/-- The configurations a task works with. -/
def configs : KernelTask → List Config
  | .reload old next => [old, next]
  | .start c | .refresh c | .repair c | .stop c => [c]

/-- Whether the task may take the guard down: an end, or a start that fails. -/
def unguards : KernelTask → Bool
  | .start _ | .stop _ => true
  | _ => false

end KernelTask

/-- The hosts a sequence of tasks passes through, each task with the calls of it that fail. -/
def taskHosts (x : Library) (h : Host) : List (KernelTask × List Bool) → List Host
  | [] => [h]
  | (task, faults) :: rest =>
    (task.program x).hosts h faults ++ taskHosts x ((task.program x).final h faults) rest

theorem KernelTask.stays {task : KernelTask} (L : ∀ c ∈ task.configs, ConfigLicence P c)
    (hdown : task.unguards = true → ∀ c ∈ task.configs, (egressGuardDown c).Stays P)
    (hpublish : ∀ h c, P h → P { h with published := some c }) :
    (task.program x).Stays P := by
  cases task with
  | start c =>
    have Lc := L c (.head _)
    exact Lc.startUp (Lc.teardown (hdown rfl c (.head _))) fun h => hpublish h c
  | reload old next =>
    exact stays_applyReload (L old (.head _))
      (L next (.tail old (.head _))) fun h => hpublish h next
  | refresh c => exact .next (L c (.head _)).applyRoutes fun _ => .pure trivial
  | repair c => exact (L c (.head _)).reapplyOwnedState
  | stop c => exact (L c (.head _)).teardown (hdown rfl c (.head _))

/-- What every task of a sequence keeps holds in every host of the sequence. -/
theorem taskHosts_keep {tasks : List (KernelTask × List Bool)} {h : Host}
    (htasks : ∀ task ∈ tasks, (task.1.program x).Stays P) (hP : P h) :
    ∀ h' ∈ taskHosts x h tasks, P h' := by
  induction tasks generalizing h with
  | nil =>
    intro h' hmem
    rw [List.mem_singleton.mp hmem]
    exact hP
  | cons task rest ih =>
    intro h' hmem
    have hfirst := (htasks task (.head _)).hosts hP task.2
    rcases List.mem_append.mp hmem with hmem | hmem
    · exact hfirst h' hmem
    · apply ih (fun t ht => htasks t (List.mem_cons_of_mem _ ht)) _ h' hmem
      exact hfirst _ (Net.final_mem_hosts _ _ _)

end SakhtarWg
