import SakhtarWg.ChainInterruption
import SakhtarWg.EmptyPlan
import SakhtarWg.KernelTasks

/-!
# Rules that are not the daemon's

Besides its dedicated chains the daemon changes the chains they are hooked into, and of
those only the jump itself; of the policy rules it changes those of its own protocol.
Every other chain and every other rule, with its place among its neighbours, is the same in
all the hosts a run passes through, whichever calls fail.
-/

namespace SakhtarWg
open Fallible Firewall Iptables Kernel Program

variable {P : Host → Prop} {h₀ h : Host} {r : Ruleset}

/-! ## Calls -/

theorem Host.changed_keeps {r : Except Errno Host} (hP : P h)
    (hr : ∀ h', r = .ok h' → P h') : P (h.changed r).2 := by
  cases r with
  | ok h' => exact hr h' rfl
  | error e => exact hP

theorem Host.filtered_keeps {e : Errno} {result : Option Tables}
    (hP : P h) (hresult : ∀ fw, result = some fw → P { h with firewall := fw }) :
    P (h.filtered e result).2 := by
  cases result with
  | none => exact hP
  | some fw => exact hresult fw rfl

/-- The policy rules that are not of the daemon's protocol. -/
def foreignRules (rules : List Rule) : List Rule := rules.filter fun r => r.protocol ≠ routeProtocol

/-- The packet filter, the router and the policy rules of others are the same. -/
def Alike (h h' : Host) : Prop :=
  h'.firewall = h.firewall ∧ h'.published = h.published ∧
    foreignRules h'.rules = foreignRules h.rules

/-- A call on a link, a device, a route or a sysctl leaves all rules and the router alone. -/
theorem Host.call_plain (h : Host) {c : Sys} (hc : c.plain = true) : Alike h (h.call c).2 := by
  cases c with
  | ruleAdd | ruleDel | restore | insertJump | deleteJump => cases hc
  | linkAdd name =>
    simp only [Host.call, Host.linkAdd]
    cases h.links.find name <;> exact ⟨rfl, rfl, rfl⟩
  | linkDel | linkSetAlias | linkSetMTU | linkSetUp | addrAdd | addrDel | routeAdd | routeDel
  | configureDevice =>
    apply Host.changed_keeps (P := Alike h) ⟨rfl, rfl, rfl⟩
    intro h' hok
    simp only [Host.linkDel, Host.linkSet, Host.addrAdd, Host.addrDel, Host.routeAdd,
      Host.routeDel, Host.configureDevice, bind_eq_ok, pure, Except.pure] at hok
    grind [Host.modifyLink, Alike]
  | _ => exact ⟨rfl, rfl, rfl⟩

/-- What does not look at links, devices, routes, sysctls and the daemon's own policy rules is
kept by the operations on tunnels. -/
theorem licence_of_alike (hP : ∀ h h', Alike h h' → P h → P h') : Licence P where
  plain h _ hc := hP h _ (h.call_plain hc)
  ruleAdd h r hr := by
    apply hP h _ (Host.changed_keeps (P := Alike h) ⟨rfl, rfl, rfl⟩ _)
    intro h' hok
    unfold Host.ruleAdd at hok
    split at hok
    · cases hok
    · rw [← Except.ok.inj hok]
      exact ⟨rfl, rfl, by simp [foreignRules, hr]⟩
  ruleDel h r hr := by
    apply hP h _ (Host.changed_keeps (P := Alike h) ⟨rfl, rfl, rfl⟩ _)
    intro h' hok
    unfold Host.ruleDel at hok
    split at hok
    · rw [← Except.ok.inj hok]
      refine ⟨rfl, rfl, ?_⟩
      rw [foreignRules, ← List.erase_filter, List.erase_of_not_mem]
      · rfl
      · simp [hr]
    · cases hok

/-- The operations on a compiled ruleset change its chains and, in their hooks, the jumps. -/
theorem filterLicence_of_lookup (hr : r.Compiled)
    (hchains : ∀ h fw, P h → (∀ k, (∀ c ∈ r.chains, k ≠ (c.table, c.name)) →
      fw.lookup k = h.firewall.lookup k) → P { h with firewall := fw })
    (hhook : ∀ h, ∀ c ∈ r.chains, ∀ rules rules', P h →
      h.firewall.lookup (c.table, c.hook) = some rules →
      rules' = jumpRule c.comment c.name :: rules ∨
        rules' = rules.erase (jumpRule c.comment c.name) →
      P { h with firewall := h.firewall.insert (c.table, c.hook) rules' }) :
    FilterLicence P r where
  replace h hP := by
    apply Host.filtered_keeps hP
    intro fw hfw
    rw [Tables.restore_ruleset _ hr.printable] at hfw
    rw [← Option.some.inj hfw]
    exact hchains h _ hP (Tables.lookup_replace_of_notMem _ _)
  remove h inspections hmem hP := by
    apply Host.filtered_keeps hP
    intro fw hfw
    apply hchains h fw hP
    intro k hk
    rw [Tables.lookup_restore_removal (fun i hi => hr.printable _ (hmem i hi)) hfw k]
    apply if_neg
    intro hin
    obtain ⟨c, hc, rfl⟩ := List.mem_map.mp hin
    obtain ⟨i, hi, rfl⟩ := List.mem_map.mp hc
    exact hk _ (hmem i (List.mem_of_mem_filter hi)) rfl
  hook h c hc hP := by
    apply Host.filtered_keeps hP
    intro fw hfw
    unfold Tables.insertJump at hfw
    split at hfw
    · next rules _ hrules _ =>
      rw [← Option.some.inj hfw]
      exact hhook h c hc rules _ hP hrules (.inl rfl)
    · cases hfw
  unhook h c hc hP := by
    apply Host.filtered_keeps hP
    intro fw hfw
    obtain ⟨rules, hrules, rfl⟩ := deleteJump_eq_some hfw
    exact hhook h c hc rules _ hP hrules (.inr rfl)

/-! ## Foreign rules -/

/-- Table and name of the dedicated chains. -/
def dedicatedNames : List (String × String) := dedicatedChains.map fun d => (d.1, d.2.2.1)

/-- The rule is the jump of a dedicated chain that is hooked into the chain `k`. -/
def isOwnJump (k : String × String) (rule : String) : Bool :=
  dedicatedChains.any fun d => (d.1, d.2.1) = k && rule = jumpRule d.2.2.2 d.2.2.1

def foreignPart (k : String × String) (rules : List String) : List String :=
  rules.filter fun rule => !isOwnJump k rule

/-- Chains of other names exist on both hosts or on neither, with the same foreign rules, and
the foreign policy rules are the same. -/
structure Untouched (h h' : Host) : Prop where
  filter : ∀ k ∉ dedicatedNames,
    (h'.firewall.lookup k).map (foreignPart k) = (h.firewall.lookup k).map (foreignPart k)
  policy : foreignRules h'.rules = foreignRules h.rules

theorem untouched_licence : Licence (Untouched h₀) :=
  licence_of_alike fun _ _ hh hu => ⟨hh.1 ▸ hu.filter, hh.2.2.trans hu.policy⟩

/-- A jump comes or goes and the foreign rules of the hook stay. -/
theorem foreignPart_jump {c : Chain} (hc : Dedicated c) {rules rules' : List String}
    (h : rules' = jumpRule c.comment c.name :: rules ∨
      rules' = rules.erase (jumpRule c.comment c.name)) :
    foreignPart (c.table, c.hook) rules' = foreignPart (c.table, c.hook) rules := by
  have hown : isOwnJump (c.table, c.hook) (jumpRule c.comment c.name) = true :=
    List.any_eq_true.mpr ⟨_, hc, by simp⟩
  rcases h with rfl | rfl
  · simp [foreignPart, hown]
  · rw [foreignPart, ← List.erase_filter, List.erase_of_not_mem]
    · rfl
    · simp [hown]

theorem untouched_filterLicence (hr : r.Compiled) :
    FilterLicence (Untouched h₀) r := by
  apply filterLicence_of_lookup hr
  · intro h fw hu hlookup
    refine ⟨?_, hu.policy⟩
    intro k hk
    rw [hlookup k, hu.filter k hk]
    rintro c hc rfl
    exact hk (List.mem_map.mpr ⟨_, hr.dedicated c hc, rfl⟩)
  · intro h c hc rules rules' hu hrules hjump
    refine ⟨?_, hu.policy⟩
    intro k hk
    by_cases heq : k = (c.table, c.hook)
    · subst heq
      rw [AList.lookup_insert, ← hu.filter _ hk, hrules]
      exact congrArg some (foreignPart_jump (hr.dedicated c hc) hjump)
    · rw [AList.lookup_insert_ne heq]
      exact hu.filter k hk

/-! ## Runs -/

/-- Chains of other names, the other rules of the hooks and the policy rules of other protocols
are the same, in their order, in every host a run passes through. -/
theorem foreign_rules_untouched (x : Library) {tasks : List (KernelTask × List Bool)}
    (hnamed : ∀ task ∈ tasks, ∀ c ∈ task.1.configs, c.Named) (h : Host) :
    ∀ h' ∈ taskHosts x h tasks, Untouched h h' := by
  apply taskHosts_keep (P := Untouched h) _ ⟨fun _ _ => rfl, rfl⟩
  intro task htask
  apply KernelTask.stays
  · intro c hc
    have hgateway : ∀ r, compileGatewayRuleset c = .ok r →
        FilterLicence (Untouched h) r := fun r hr =>
      untouched_filterLicence (compileGatewayRuleset_compiled (hnamed _ htask c hc) hr)
    exact ⟨untouched_licence, stays_gatewayUp untouched_licence hgateway,
      stays_gatewayDown hgateway, stays_egressGuardUp fun r hr =>
        untouched_filterLicence (compileEgressGuardRuleset_eq_ok (hnamed _ htask c hc) hr).1⟩
  · intro _ c hc
    exact stays_egressGuardDown fun r hr =>
      untouched_filterLicence (compileEgressGuardRuleset_eq_ok (hnamed _ htask c hc) hr).1
  · exact fun _ _ hu => ⟨hu.filter, hu.policy⟩

/-- A host with rules of others: a policy rule, a chain and two rules of `OUTPUT`. -/
def sharedHost : Host :=
  { filterHost (((∅ : Tables).insert ("filter", "OUTPUT") ["-o eth1 -j DROP", "-j LOG"]).insert
      ("filter", "DOCKER") ["-j RETURN"]) with
    rules := [⟨100, 7, none, 254, 4⟩]
    endpoints := fun _ => some "192.0.2.1:51820" }

abbrev planned : Config := plannedFile.normalize

theorem planned_named : planned.Named := (parse_valid plannedFile_parse).named

/-- One tunnel is brought up and taken down on that host. -/
theorem foreign_rules_untouched_shared :
    planned.Named ∧ ∀ h' ∈ taskHosts sampleLibrary sharedHost
        [(.start planned, []), (.stop planned, [])],
      Untouched sharedHost h' := by
  refine ⟨planned_named, foreign_rules_untouched sampleLibrary ?_ sharedHost⟩
  simp [KernelTask.configs, planned_named]

end SakhtarWg
