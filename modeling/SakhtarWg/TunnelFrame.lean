import SakhtarWg.Keeps
import SakhtarWg.Plumbing
import SakhtarWg.Reload

/-!
# What the operations on a tunnel leave alone

One walk through the reconciler of a tunnel. It never reaches the packet filter, and the
policy rules it adds and deletes are of its own protocol. A property that does not look at
links, devices, routes and sysctls and is kept by such changes of rules is kept by every
operation on a tunnel.
-/

namespace SakhtarWg
open Fallible Kernel Program

/-- Calls that neither change a policy rule nor reach the packet filter. -/
def Sys.plain : Sys → Bool
  | .ruleAdd _ | .ruleDel _ | .restore _ | .insertJump _ _ _ _ | .deleteJump _ _ _ _ => false
  | _ => true

/-- The property is kept by what the operations on tunnels do. -/
structure Licence (P : Host → Prop) : Prop where
  plain : ∀ h c, Sys.plain c = true → P h → P (h.call c).2
  ruleAdd : ∀ h r, r.protocol = routeProtocol → P h → P (h.call (.ruleAdd r)).2
  ruleDel : ∀ h r, r.protocol = routeProtocol → P h → P (h.call (.ruleDel r)).2

namespace Licence

variable {P : Host → Prop} (L : Licence P) {x : Library} {t : Tunnel} {l : Link}
include L

theorem check {c : Sys} {wrap : String → String} (hc : c.plain = true) :
    (Net.check c wrap).Stays P := .check fun h => L.plain h c hc

theorem delete {c : Sys} {wrap : String → String} (hc : c.plain = true) :
    (Net.delete c wrap).Stays P := .delete fun h => L.plain h c hc

theorem requireSysctl {key value : String} {wrap : String → String} :
    (requireSysctl key value wrap).Stays P :=
  .next (L.check rfl) fun _ => .ite (.pure trivial) (L.check rfl)

/-! ## Links -/

theorem wgConfig : (wgConfig x t).Stays P :=
  .next .result fun _ => .next .result fun _ => .next (L.check rfl) fun _ =>
    .next .result fun _ => .pure trivial

theorem deviceMatchesTunnel {d : Device} : (deviceMatchesTunnel x d t).Stays P := by
  refine .next L.wgConfig fun _ => ?_
  split <;> exact .pure trivial

theorem verifyAdoptionCandidate : (verifyAdoptionCandidate x l t).Stays P :=
  .next .require fun _ => .next .require fun _ => .next (L.check rfl) fun _ =>
    .next .require fun _ => .next (L.check rfl) fun _ => .next .require fun _ =>
    .next (L.check rfl) fun _ => .next .result fun _ => .next (L.check rfl) fun _ =>
    .next L.deviceMatchesTunnel fun _ => .require

theorem verifyMode {mode : LinkMode} : (verifyMode x mode l t).Stays P :=
  .ite (.next .require fun _ => .next (L.check rfl) fun _ =>
    .next L.deviceMatchesTunnel fun _ => .require) (.pure trivial)

theorem lookupLink {name : String} : (lookupLink name).Stays P := by
  refine .next (.call fun h => L.plain h _ rfl) fun r => ?_
  cases r with
  | ok l => exact .pure trivial
  | error e =>
    cases e with
    | notFound => exact .pure trivial
    | _ => exact .throw

theorem relookup {name missing : String} : (relookup name missing).Stays P := by
  refine .next L.lookupLink fun o => ?_
  cases o with
  | some l => exact .pure trivial
  | none => exact .throw

theorem abandon {α : Type} {index : ℕ} {err : String} : (abandon index err : Net α).Stays P := by
  refine .next (.call fun h => L.plain h _ rfl) fun r => ?_
  cases r <;> exact .throw

theorem createLink : (createLink x t).Stays P := by
  refine .next (L.check rfl) fun candidate => .next L.relookup.attempt fun r => ?_
  cases r with
  | error e => exact L.abandon
  | ok created =>
    refine .next (.call fun h => L.plain h _ rfl) fun r => ?_
    cases r with
    | error e => exact L.abandon
    | ok _ =>
      refine .next L.relookup.attempt fun r => ?_
      cases r with
      | error e => exact L.abandon
      | ok marked => exact .pure trivial

theorem adoptLink : (adoptLink x l t).Stays P := by
  refine .next .require fun _ => .next L.verifyAdoptionCandidate fun _ =>
    .next (L.check rfl) fun _ => .next L.relookup.attempt fun r => ?_
  cases r with
  | error e => exact .throw
  | ok marked => exact .pure trivial

theorem ensureOwnedLink : (ensureOwnedLink x t).Stays P := by
  refine .next L.lookupLink fun o => ?_
  cases o with
  | none => exact L.createLink
  | some l =>
    refine .next .require fun _ => ?_
    cases ownedLinkMode x l t with
    | ok mode =>
      exact .next (.next (L.check rfl) fun _ => .next .result fun _ => .require) fun _ =>
        .pure trivial
    | error e => exact .next .require fun _ => L.adoptLink

theorem withOwnedLink {f : Link → Net Unit} (hf : ∀ l, (f l).Stays P) :
    (withOwnedLink x t f).Stays P := by
  refine .next L.lookupLink fun o => ?_
  cases o with
  | none => exact .pure trivial
  | some l => exact .next .result fun _ => hf l

/-! ## Routes and rules -/

theorem reconcileRouteSet {name : String} {table : ℤ} {desired : List Route}
    {relevant : Route → Bool} : (reconcileRouteSet name l table desired relevant).Stays P := by
  refine .next (L.check rfl) fun existing => .next .result fun current => .next .result fun plan =>
    .forM fun phase _ => .forM fun op _ => .ite (.pure trivial) ?_
  split
  · exact L.check rfl
  · exact L.delete rfl
  · exact .throw

theorem deleteRule {rule : Rule} {wrap : String → String}
    (hrule : ruleEqual rule (markRule t) = true) : (Net.delete (.ruleDel rule) wrap).Stays P := by
  simp only [ruleEqual, Bool.and_eq_true, decide_eq_true_eq] at hrule
  exact .delete fun h => L.ruleDel h rule hrule.2

/-- The rules that are kept equal the desired one; others make way if they are owned. -/
theorem reconcileRule : (reconcileRule t).Stays P := by
  refine .next (L.check rfl) fun rules => ?_
  apply Net.Keeps.bind (.foldlM
    (S := fun exact : List Rule => ∀ rule ∈ exact, ruleEqual rule (markRule t) = true) ?_
    (List.forall_mem_nil _))
  · intro kept hkept
    cases kept with
    | nil => exact .check fun h => L.ruleAdd h _ rfl
    | cons first duplicates =>
      exact .forM fun rule hrule => L.deleteRule (hkept rule (List.mem_cons_of_mem _ hrule))
  · intro kept hkept rule
    apply Net.Keeps.ite (.pure hkept)
    split
    · next hequal =>
      exact .pure (List.forall_mem_append.mpr ⟨hkept, List.forall_mem_singleton.mpr hequal⟩)
    · split
      · exact .throw
      · next hprotocol =>
        exact .next (.delete fun h => L.ruleDel h rule (not_not.mp hprotocol)) fun _ => .pure hkept

theorem deleteOwnedRule : (deleteOwnedRule t).Stays P :=
  .next (L.check rfl) fun _ => .forM fun _ hrule => L.deleteRule (List.mem_filter.mp hrule).2

theorem reconcilePlumbing : (reconcilePlumbing x l t).Stays P :=
  .next L.reconcileRouteSet fun _ => .next L.reconcileRule fun _ =>
    .next .result fun _ => L.reconcileRouteSet

/-! ## Up and down -/

theorem reconcileAddress : (reconcileAddress x l t).Stays P := by
  refine .next .result fun desired => .next (L.check rfl) fun addresses => ?_
  split
  · exact .throw
  · exact .ite (.pure trivial) (L.check rfl)

theorem tunnelUp : (tunnelUp x t).Stays P :=
  .next L.wgConfig fun _ => .next L.ensureOwnedLink fun _ => .next .result fun _ =>
    .next L.verifyMode fun _ => .next (.ite (L.check rfl) (.pure trivial)) fun _ =>
    .next L.reconcileAddress fun _ => .next (.ite (L.check rfl) (.pure trivial)) fun _ =>
    .next (L.check rfl) fun _ => .next L.requireSysctl fun _ => L.reconcilePlumbing

section
variable {address : Except String Netip.Prefix} {addresses : Except String (List Netip.Prefix)}
  {cleanup : List String}

theorem releaseAdopted : (releaseAdopted l t address addresses cleanup).Stays P := by
  unfold SakhtarWg.releaseAdopted
  split
  · split
    · exact .next (.collect (L.delete rfl)) fun _ => .ite (L.check rfl) .result
    · exact .ite (L.check rfl) .result
  · exact .ite (L.check rfl) .result

theorem removeCreated : (removeCreated l t address addresses cleanup).Stays P := by
  refine .next (.attempt (L.check rfl)) fun r => ?_
  cases r with
  | error e => exact .ite (L.delete rfl) .result
  | ok routes =>
    simp only
    split <;> exact .ite (L.delete rfl) .result

end

theorem tunnelDown : (tunnelDown x t).Stays P := by
  refine .next (.collect L.deleteOwnedRule) fun cleanup => .next L.lookupLink.attempt fun r => ?_
  cases r with
  | error e => exact .result
  | ok o =>
    cases o with
    | none => exact .result
    | some l =>
      simp only
      split
      · exact .result
      · next mode _ =>
        have hroutes : (deleteOwnedRoutes l t).Stays P := .next (L.check rfl) fun _ =>
          .next (.collectAll fun _ _ => L.delete rfl) fun _ => .result
        refine .next (.collect hroutes) fun _ => .next (.attempt (L.check rfl)) fun _ => ?_
        cases mode with
        | adopted => exact L.releaseAdopted
        | created => exact L.removeCreated

theorem deleteExactOwnedAddress : (deleteExactOwnedAddress x t).Stays P :=
  L.withOwnedLink fun _ => .next .result fun _ => .next (L.check rfl) fun _ =>
    .ite (L.delete rfl) (.pure trivial)

theorem deleteOwnedDefaultRoute : (deleteOwnedDefaultRoute x t).Stays P :=
  L.withOwnedLink fun _ => .next (L.check rfl) fun _ =>
    .next (.collectAll fun _ _ => L.delete rfl) fun _ => .result

end Licence

end SakhtarWg
