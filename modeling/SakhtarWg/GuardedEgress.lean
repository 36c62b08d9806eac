import SakhtarWg.ForeignRules
import SakhtarWg.JumpOrder

/-!
# The guard while sessions run

The guard chain is replaced in one transaction and spare jumps are deleted one by one, so
that no instant of a reload, a refresh or a repair is without the guard, and a
configuration is published only when its own guard is up.
-/

namespace SakhtarWg
open Fallible Firewall Iptables Program

/-! ## Cover -/

/-- The packet carries the mark and is about to leave by another interface. -/
def Strays (g : MarkGuard) (p : Packet) : Prop :=
  p.outIface ≠ "lo" ∧ p.mark &&& g.mask = g.mark ∧ p.outIface ≠ g.interface

def Rejects (body : List String) (guards : List MarkGuard) : Prop :=
  ∀ g ∈ guards, ∀ p, Strays g p → ∃ o, evaluate body p = some o ∧ o.verdict = some rejectTarget

def guardJump : String := jumpRule (ownerComment ++ ":filter-output") outputChain

/-- The rules of `OUTPUT`, none without the chain. -/
def outputRules (fw : Tables) : List String := (fw.lookup ("filter", "OUTPUT")).getD []

/-- The guard chain rejects what strays from each of the guards, and `OUTPUT` jumps to it. -/
structure Covered (guards : List MarkGuard) (fw : Tables) : Prop where
  body : ∃ body, fw.lookup ("filter", outputChain) = some body ∧ Rejects body guards
  hook : guardJump ∈ outputRules fw

/-- Nobody else jumps to the guard chain, on conditions of their own for instance. -/
def SoleJump (fw : Tables) : Prop :=
  ∀ rule ∈ outputRules fw, ownedJump (outputChainWith []) rule = true → rule = guardJump

variable {S : Option Config → Prop} {o : Option Config} {guards wanted : List MarkGuard}
  {fw fw' : Tables} {n : ℕ} {h : Host} {c : Config} {x : Library}

theorem rejects_guardRules {sorted : List MarkGuard} (hperm : sorted.Perm guards)
    (hnames : ∀ g ∈ sorted, interfaceNameOk g.interface = true) :
    Rejects (loopbackRule :: sorted.map guardRule) guards := by
  intro g hg p hstrays
  obtain ⟨o, ho, hreject, -⟩ := evaluate_guard sorted hnames p
  exact ⟨o, ho, hreject.mpr ⟨hstrays.1, g, hperm.mem_iff.mpr hg, hstrays.2⟩⟩

/-- A compiled guard rejects what strays from any tunnel of its configuration. -/
theorem guardRuleset_rejects (hc : c.Named) {r : Ruleset}
    (h : compileEgressGuardRuleset c = .ok r) :
    r.Compiled ∧ ∃ rules, r = ⟨[outputChainWith rules]⟩ ∧ Rejects rules c.guards := by
  obtain ⟨hcompiled, sorted, hperm, hnames, rfl⟩ := compileEgressGuardRuleset_eq_ok hc h
  refine ⟨hcompiled, _, rfl, fun g hg => ?_⟩
  rw [if_neg (List.ne_nil_of_mem hg)]
  exact rejects_guardRules hperm hnames g hg

/-- With no other jump the inspection counts the copies of the daemon's own. -/
theorem SoleJump.count (h : SoleJump fw) (rules : List String) :
    (hookJumps fw (outputChainWith rules)).length = (outputRules fw).count guardJump := by
  have hdedicated : Dedicated (outputChainWith rules) := by
    simp [outputChainWith, Dedicated, dedicatedChains]
  cases hlookup : fw.lookup ("filter", "OUTPUT") with
  | none =>
    simp [hookJumps, Tables.listRules, outputChainWith, outputRules, hlookup, jumpLines, ruleLines]
  | some hook =>
    have hrules : outputRules fw = hook := congrArg (·.getD []) hlookup
    rw [hookJumps_of_lookup (c := outputChainWith rules) hlookup, jumpLines_length, hrules,
      List.count]
    apply List.countP_congr
    intro rule hrule
    rw [beq_iff_eq]
    constructor
    · exact h rule (hrules ▸ hrule)
    · rintro rfl
      exact hdedicated.ownedJump

/-! ## The state of the guard -/

/-- The guards are covered, the jump is the only one, and the router is as said. -/
structure Guarding (S : Option Config → Prop) (guards : List MarkGuard) (fw : Tables)
    (published : Option Config) : Prop where
  published : S published
  sole : SoleJump fw
  covered : Covered guards fw

abbrev Upheld (S : Option Config → Prop) (guards : List MarkGuard) (h : Host) : Prop :=
  Guarding S guards h.firewall h.published

/-- Another body is in place, under a hook that may have lost spare jumps. -/
theorem Guarding.rebuild (hg : Guarding S guards fw o) {body : List String}
    (hbody : fw'.lookup ("filter", outputChain) = some body) (hrejects : Rejects body wanted)
    (hsub : outputRules fw' ⊆ outputRules fw) (hjump : guardJump ∈ outputRules fw') :
    Guarding S wanted fw' o :=
  ⟨hg.published, fun rule hrule => hg.sole rule (hsub hrule), ⟨body, hbody, hrejects⟩, hjump⟩

theorem Guarding.narrow (hg : Guarding S guards fw o) (hsub : wanted ⊆ guards) :
    Guarding S wanted fw o := by
  obtain ⟨body, hbody, hrejects⟩ := hg.covered.body
  exact hg.rebuild hbody (fun g hmem => hrejects g (hsub hmem)) (List.Subset.refl _) hg.covered.hook

theorem Guarding.congr (hg : Guarding S guards fw o)
    (hbody : fw'.lookup ("filter", outputChain) = fw.lookup ("filter", outputChain))
    (hhook : fw'.lookup ("filter", "OUTPUT") = fw.lookup ("filter", "OUTPUT")) :
    Guarding S guards fw' o := by
  obtain ⟨body, hlookup, hrejects⟩ := hg.covered.body
  have hrules : outputRules fw' = outputRules fw := congrArg (·.getD []) hhook
  exact hg.rebuild (hbody.trans hlookup) hrejects (hrules ▸ List.Subset.refl _)
    (hrules ▸ hg.covered.hook)

/-! ## Replacing the guard -/

theorem Host.filtered_ok {h' : Host} {e : Errno} {result : Option Tables} {v : Unit}
    (heq : h.filtered e result = (.ok v, h')) :
    ∃ fw, result = some fw ∧ h' = { h with firewall := fw } := by
  cases result with
  | none => cases heq
  | some fw => exact ⟨fw, rfl, (Prod.ext_iff.mp heq).2.symm⟩

/-- Deleting a copy of the jump that is not the last. -/
theorem Guarding.deleteJump {k : ℕ} (hg : Upheld S guards h)
    (hcount : (outputRules h.firewall).count guardJump = k + 2) (rules : List String)
    (wrap : String → String) :
    Within (fun h _ => Upheld S guards h) n h (deleteJump (outputChainWith rules) wrap)
      (fun _ h => Upheld S guards h ∧ (outputRules h.firewall).count guardJump = k + 1)
      (Upheld S guards) := by
  apply Within.check hg _ fun _ => hg
  intro _ h' hcall
  obtain ⟨fw, hfw, rfl⟩ := Host.filtered_ok hcall
  obtain ⟨hook, hhook, rfl⟩ : ∃ hook, h.firewall.lookup ("filter", "OUTPUT") = some hook ∧
      fw = h.firewall.insert ("filter", "OUTPUT") (hook.erase guardJump) := deleteJump_eq_some hfw
  have hbefore : outputRules h.firewall = hook := congrArg (·.getD []) hhook
  have hafter : outputRules (h.firewall.insert ("filter", "OUTPUT") (hook.erase guardJump)) =
      hook.erase guardJump := by simp [outputRules]
  have herase : (hook.erase guardJump).count guardJump = k + 1 := by
    rw [List.count_erase_self, ← hbefore, hcount]
    rfl
  obtain ⟨body, hbody, hrejects⟩ := hg.covered.body
  refine ⟨hg.rebuild ((AList.lookup_insert_ne (by decide)).trans hbody) hrejects ?_ ?_, ?_⟩
  · rw [hafter, hbefore]
    exact List.erase_subset
  · rw [hafter]
    apply List.count_pos_iff.mp
    omega
  · rw [hafter, herase]

/-- All copies of the jump but one are deleted. -/
theorem Guarding.installJump (hg : Upheld S guards h) {rules : List String} {i : ChainInspection}
    (hi : i.chain = outputChainWith rules)
    (hcount : (outputRules h.firewall).count guardJump = i.ownedJumps) :
    Within (fun h _ => Upheld S guards h) n h (installJump i) (fun _ => Upheld S guards)
      (Upheld S guards) := by
  have hpos : 0 < i.ownedJumps := hcount ▸ List.count_pos_iff.mpr hg.covered.hook
  unfold SakhtarWg.installJump
  rw [if_neg (by omega), hi]
  -- after `done` deletions there are that many copies fewer
  apply (Within.forM (I := fun done h => Upheld S guards h ∧
    (outputRules h.firewall).count guardJump = i.ownedJumps - done.length) _ ?_ ⟨hg, hcount⟩).mono
    (fun _ _ hdone => hdone.1) fun _ hE => hE
  intro done u todo hl h' hdone
  have hlen := congrArg List.length hl
  rw [List.length_replicate, List.length_append, List.length_cons] at hlen
  obtain ⟨k, hk⟩ : ∃ k, i.ownedJumps - done.length = k + 2 :=
    ⟨i.ownedJumps - done.length - 2, by omega⟩
  rw [List.length_append, List.length_singleton, show i.ownedJumps - (done.length + 1) = k + 1 by
    omega]
  exact hdone.1.deleteJump (hdone.2.trans hk) rules _

/-- Raising the guard of a configuration. The cover of guards of the configuration holds all
along; once the guard is up the cover is that of the configuration. -/
theorem within_egressGuardUp (hc : c.Named) (hsub : guards ⊆ c.guards) (hg : Upheld S guards h) :
    Within (fun h _ => Upheld S guards h) n h (egressGuardUp c) (fun _ => Upheld S c.guards)
      (Upheld S guards) := by
  apply Within.bind (Within.ofExcept (Q := fun r h' => compileEgressGuardRuleset c = .ok r ∧ h = h')
    (fun r hr => ⟨hr, rfl⟩) fun _ _ => hg)
  rintro r _ ⟨hr, rfl⟩
  obtain ⟨hcompiled, body, rfl, hrejects⟩ := guardRuleset_rejects hc hr
  have hinspect := Net.Keeps.mapM (l := [outputChainWith body]) (keeps_inspectJumps h)
  apply Within.bind (Within.within
    ((hinspect.during rfl fun h' _ hh => hh ▸ hg).mono (fun _ _ hi => hi) fun h' hh => hh ▸ hg))
  rintro inspections _ ⟨hh, hall⟩
  rw [hh]
  cases hall with
  | @cons _ i _ _ hi hnil =>
  cases hnil
  -- the replacement is one transaction, which leaves the jumps as they are
  have hreplace : Within (fun h _ => Upheld S guards h) n h
      (runRestore (Ruleset.restoreInput ⟨[outputChainWith body]⟩) fun e =>
        "replace owned firewall ruleset: " ++ e)
      (fun _ h' => Upheld S c.guards h' ∧
        (outputRules h'.firewall).count guardJump = i.ownedJumps) (Upheld S guards) := by
    apply Within.check hg _ fun _ => hg
    intro _ h' hcall
    obtain ⟨fw, hfw, rfl⟩ := Host.filtered_ok hcall
    rw [Tables.restore_ruleset _ hcompiled.printable] at hfw
    obtain rfl := Option.some.inj hfw
    have hrules : outputRules (h.firewall.replace [outputChainWith body]) =
        outputRules h.firewall :=
      congrArg (·.getD []) (hcompiled.lookup_hook _ (.head _))
    refine ⟨hg.rebuild (Tables.lookup_replace _ hcompiled.tables (.head _))
      hrejects (hrules ▸ List.Subset.refl _) (hrules ▸ hg.covered.hook), ?_⟩
    change (outputRules (h.firewall.replace _)).count guardJump = _
    rw [hrules, hi.2, hg.sole.count]
  apply Within.within
  apply Within.bind hreplace
  rintro _ h₁ ⟨h1, hcount⟩
  have hinstall := (h1.installJump (n := n) hi.1 hcount).weaken fun _ _ hP => hP.narrow hsub
  have hinstalls : Within (fun h _ => Upheld S guards h) n h₁ (Net.collectAll installJump [i])
      (fun _ => Upheld S c.guards) (Upheld S guards) := by
    apply Within.bind (hinstall.collect.mono (fun _ _ hE => hE.elim And.right And.right)
      fun _ hE => hE)
    intro errs h₂ h2
    exact Within.bind (P := fun _ => Upheld S c.guards) (Within.pure h2)
      fun _ _ h3 => Within.pure h3
  apply Within.bind hinstalls
  intro errs h₂ h2
  exact Within.ofExcept (fun _ _ => h2) fun _ _ => h2.narrow hsub

/-! ## The other operations -/

theorem upheld_licence : Licence (Upheld S guards) :=
  licence_of_alike fun _ _ hh hg => by
    rw [Upheld, hh.1, hh.2.1]
    exact hg

/-- The chains of the gateway and their hooks are apart from the guard. -/
theorem upheld_gateway (hc : c.Named) {r : Ruleset} (hr : compileGatewayRuleset c = .ok r) :
    FilterLicence (Upheld S guards) r := by
  have hcompiled := compileGatewayRuleset_compiled hc hr
  -- no chain of the gateway is the guard's, and none is hooked into `OUTPUT`
  have hapart : ∀ chain ∈ r.chains, ∀ k ∈ [("filter", outputChain), ("filter", "OUTPUT")],
      k ≠ (chain.table, chain.name) ∧ k ≠ (chain.table, chain.hook) := by
    have hall : ∀ d ∈ dedicatedChains, d.2.1 ≠ "OUTPUT" →
        ∀ k ∈ [("filter", outputChain), ("filter", "OUTPUT")],
          k ≠ (d.1, d.2.2.1) ∧ k ≠ (d.1, d.2.1) := by decide
    intro chain hchain
    apply hall _ (hcompiled.dedicated chain hchain)
    unfold compileGatewayRuleset at hr
    rw [mapError_eq_ok] at hr
    obtain ⟨_, _, _, _, _, _, rfl⟩ := compile_eq_ok hr
    revert chain
    simp [assemble]
  apply filterLicence_of_lookup hcompiled
  · intro h fw hg hlookup
    exact hg.congr (hlookup _ fun chain hchain => (hapart chain hchain _ (by simp)).1)
      (hlookup _ fun chain hchain => (hapart chain hchain _ (by simp)).1)
  · intro h chain hchain _ _ hg _ _
    exact hg.congr (AList.lookup_insert_ne (hapart chain hchain _ (by simp)).2)
      (AList.lookup_insert_ne (hapart chain hchain _ (by simp)).2)

/-- Every operation for a configuration keeps a cover of guards of the configuration. -/
theorem upheld_config (hc : c.Named) (hsub : guards ⊆ c.guards) :
    ConfigLicence (Upheld S guards) c := by
  refine ⟨upheld_licence, stays_gatewayUp upheld_licence fun _ => upheld_gateway hc,
    stays_gatewayDown fun _ => upheld_gateway hc, ?_⟩
  intro n h hg
  apply (within_egressGuardUp hc hsub hg).mono
  · exact fun _ _ hup => ⟨hup.narrow hsub, trivial⟩
  · exact fun _ hE => hE

/-! ## Runs -/

/-- A cover of guards that every later configuration keeps is never lowered, by no reload, refresh
or repair and whichever calls fail. -/
theorem guard_never_lowered (x : Library) (hsole : SoleJump h.firewall)
    (hcovered : Covered guards h.firewall) {tasks : List (KernelTask × List Bool)}
    (htasks : ∀ task ∈ tasks, task.1.unguards = false ∧
      ∀ c ∈ task.1.configs, c.Named ∧ guards ⊆ c.guards) :
    ∀ h' ∈ taskHosts x h tasks, Covered guards h'.firewall := by
  intro h' hmem
  refine (taskHosts_keep (P := Upheld (fun _ => True) guards) ?_ ⟨trivial, hsole, hcovered⟩ h'
    hmem).covered
  intro task htask
  apply KernelTask.stays
  · intro c hc
    exact upheld_config ((htasks task htask).2 c hc).1 ((htasks task htask).2 c hc).2
  · intro hunguards
    rw [(htasks task htask).1] at hunguards
    cases hunguards
  · exact fun _ _ hg => ⟨trivial, hg.sole, hg.covered⟩

section
variable {old next : Config} {common : List MarkGuard}

/-- The guard of the next configuration is up when everything else has converged. -/
theorem within_converge (hold : old.Named) (hnext : next.Named) (hcnext : common ⊆ next.guards)
    (hg : Upheld S common h) :
    Within (fun h _ => Upheld S common h) n h (converge x old next)
      (fun _ => Upheld S next.guards) (Upheld S common) := by
  have htunnels : Net.Stays (Upheld S common) (next.tunnels.forM (convergeTunnel x old)) :=
    .forM fun _ _ => upheld_licence.convergeTunnel
  apply Within.bind (htunnels.during hg fun _ _ hP => hP)
  intro _ h₁ h1
  apply Within.bind (within_egressGuardUp hnext hcnext h1.1)
  intro _ h₂ h2
  have hgateway : (convergeGateway old next).Stays (Upheld S next.guards) :=
    stays_convergeGateway (stays_gatewayDown fun _ => upheld_gateway hold)
      (stays_gatewayUp upheld_licence fun _ => upheld_gateway hnext)
  exact (hgateway.during h2 fun _ _ hP => hP.narrow hcnext).mono (fun _ _ hP => hP.1)
    fun _ hE => hE.narrow hcnext

/-- The old configuration with the guards it shares, or the next one with all of its own. -/
def Handing (old next : Config) (common : List MarkGuard) (h : Host) : Prop :=
  Upheld (· = some old) common h ∨ Upheld (· = some next) next.guards h

theorem within_applyReload (hold : old.Named) (hnext : next.Named) (hcold : common ⊆ old.guards)
    (hcnext : common ⊆ next.guards) (hg : Upheld (· = some old) common h) :
    Within (fun h _ => Handing old next common h) n h (applyReload x old next)
      (fun _ => Handing old next common) (Handing old next common) := by
  have Lold := upheld_config (S := (· = some old)) hold hcold
  apply Within.bind ((Lold.validateKernelReservations.within.during hg fun _ _ => .inl).mono
    (fun _ _ hP => hP) fun _ => .inl)
  intro _ h₁ h1
  apply Within.bind (Within.ofExcept (Q := fun _ => Upheld (· = some old) common)
    (fun _ _ => h1.1) fun _ _ => .inl h1.1)
  intro _ h₂ h2
  apply Within.bind ((within_converge hold hnext hcnext h2).weaken fun _ _ => .inl).attempt
  intro r h₃ h3
  cases r with
  | error e =>
    exact ((stays_rollbackKernelApply Lold (upheld_config hnext hcnext)).during h3
      fun _ _ => .inl).mono (fun _ _ hP => .inl hP.1) fun _ => .inl
  | ok _ =>
    apply Within.bind (P := fun _ => Upheld (· = some next) next.guards)
    · intro faults hf
      exact ⟨.inl (h3.narrow hcnext), hf, rfl, h3.sole, h3.covered⟩
    · intro _ h₄ h4
      have hdown := Net.Keeps.collectAll (P := Upheld (· = some next) next.guards)
        (l := old.tunnels.filter fun t => t.name ∉ next.tunnels.map (·.name))
        fun t _ => upheld_licence.tunnelDown (x := x) (t := t)
      exact Within.bind ((hdown.during h4 fun _ _ => .inr).mono (fun _ _ hP => hP) fun _ => .inr)
        fun _ _ h5 => Within.pure (.inr h5.1)

/-- At every instant of a reload either the old configuration is published and the guards it shares
with the next one are covered, or the next one is published and all of its guards are. -/
theorem guard_before_publish (x : Library) (hold : old.Named) (hnext : next.Named)
    (hpublished : h.published = some old) (hsole : SoleJump h.firewall)
    (hcovered : Covered old.guards h.firewall) (faults : List Bool) :
    ∀ h' ∈ (applyReload x old next).hosts h faults,
      h'.published = some old ∧
        Covered (old.guards.filter fun g => g ∈ next.guards) h'.firewall ∨
      h'.published = some next ∧ Covered next.guards h'.firewall := by
  have hold' : Upheld (· = some old) old.guards h := ⟨hpublished, hsole, hcovered⟩
  have hrun := within_applyReload (x := x) (n := faults.count true) hold hnext
    (List.filter_subset_self ..) (fun g hg => of_decide_eq_true (List.mem_filter.mp hg).2)
    (hold'.narrow (List.filter_subset_self ..))
  intro h' hmem
  exact (hrun.hosts le_rfl h' hmem).imp (fun hg => ⟨hg.published, hg.covered⟩)
    fun hg => ⟨hg.published, hg.covered⟩

end

/-! ## A sample host -/

/-- A second tunnel beside the first. -/
def widerFile : Config :=
  sampleFile [sampleTunnel "wg0" 1 ["10.1.0.0/16"] [], sampleTunnel "wg1" 2 ["10.2.0.0/16"] []]
    ⟨false, [], ""⟩

abbrev wider : Config := widerFile.normalize

theorem wider_named : wider.Named := by
  have hparse : widerFile.parse sampleExternal = .ok wider := by decide +kernel
  exact (parse_valid hparse).named

/-- The first tunnel is up beside the rules of others. -/
def startedHost : Host :=
  { sharedHost with
    firewall := (sharedHost.firewall.insert ("filter", outputChain)
      (loopbackRule :: planned.guards.map guardRule)).insert ("filter", "OUTPUT")
        (guardJump :: outputRules sharedHost.firewall)
    published := some planned }

theorem startedHost_upheld : Upheld (· = some planned) planned.guards startedHost := by
  have hhook : outputRules startedHost.firewall = guardJump :: outputRules sharedHost.firewall := by
    simp [startedHost, outputRules]
  have hbody : startedHost.firewall.lookup ("filter", outputChain) =
      some (loopbackRule :: planned.guards.map guardRule) := by
    rw [startedHost, AList.lookup_insert_ne (by decide), AList.lookup_insert]
  have hrejects := rejects_guardRules (.refl planned.guards)
    (List.forall_mem_map.mpr planned_named.name)
  refine ⟨rfl, ?_, ⟨_, hbody, hrejects⟩, ?_⟩
  · rw [SoleJump, hhook]
    decide +kernel
  · rw [hhook]
    exact List.mem_cons_self ..

/-- A second tunnel is added and taken away, and a refresh fails. -/
theorem guard_never_lowered_wider :
    planned.guards ⊆ wider.guards ∧ ∀ h' ∈ taskHosts sampleLibrary startedHost
        [(.reload planned wider, []), (.reload wider planned, []),
          (.refresh planned, [false, true])],
      Covered planned.guards h'.firewall := by
  have hsub : planned.guards ⊆ wider.guards := by decide +kernel
  refine ⟨hsub, guard_never_lowered sampleLibrary startedHost_upheld.sole
    startedHost_upheld.covered ?_⟩
  simp [KernelTask.unguards, KernelTask.configs, planned_named, wider_named, hsub]

/-- The second tunnel is added. -/
theorem guard_before_publish_wider :
    Covered planned.guards startedHost.firewall ∧
    ∀ h' ∈ (applyReload sampleLibrary planned wider).hosts startedHost [],
      h'.published = some planned ∧
        Covered (planned.guards.filter fun g => g ∈ wider.guards) h'.firewall ∨
      h'.published = some wider ∧ Covered wider.guards h'.firewall :=
  ⟨startedHost_upheld.covered, guard_before_publish sampleLibrary planned_named wider_named
    startedHost_upheld.published startedHost_upheld.sole startedHost_upheld.covered []⟩

end SakhtarWg
