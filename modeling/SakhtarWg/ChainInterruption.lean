import SakhtarWg.CompiledRules

/-!
# Interrupted installs and removals

An install replaces the chains in one transaction and then inserts the jumps one by one;
a removal deletes the jumps and then the chains. What an inspection finds in between
depends on whether the chains have rules: a chain without rules and without a jump
carries no evidence of its owner.
-/

namespace SakhtarWg
open Text Fallible Iptables Firewall Program

/-- The ownership of every chain of the ruleset can be established. -/
def Inspectable (r : Ruleset) (h : Host) : Prop :=
  ∃ inspections, ((inspectFirewallOwnership r).eval h).1 = .ok inspections

/-- None of the chains is there, and nothing jumps to one. -/
def Absent (r : Ruleset) (h : Host) : Prop :=
  ∀ c ∈ r.chains, h.firewall.lookup (c.table, c.name) = none ∧ hookJumps h.firewall c = []

/-- Every chain holds its rules, and its hook jumps to it once. -/
def Installed (r : Ruleset) (h : Host) : Prop :=
  ∀ c ∈ r.chains, h.firewall.lookup (c.table, c.name) = some c.rules ∧
    ∃ front back, h.firewall.lookup (c.table, c.hook) =
        some (front ++ jumpRule c.comment c.name :: back) ∧
      jumpLines c ((front ++ back).map (ruleLine c.hook)) = []

/-- Whatever calls fail and wherever the run stops, the chains stay inspectable. -/
def Survives (r : Ruleset) (Start : Ruleset → Host → Prop)
    (run : List ChainInspection → Net Unit) : Prop :=
  ∀ h inspections, Start r h → ((inspectFirewallOwnership r).eval h).1 = .ok inspections →
    ∀ faults, ∀ h' ∈ (run inspections).hosts h faults, Inspectable r h'

/-- Installing and removing the ruleset can be interrupted anywhere. -/
def Interruptible (r : Ruleset) : Prop :=
  Survives r Absent (installOwnedChains r) ∧ Survives r Installed removeOwnedChains

/-! ## Inspectable tables -/

theorem inspectable_iff {r : Ruleset} {h : Host} :
    Inspectable r h ↔ ∀ c ∈ r.chains, ∃ i, inspectTables h.firewall c = .ok i := by
  unfold Inspectable
  rw [inspectFirewallOwnership_eval]
  exact exists_mapM_ok

namespace Firewall

/-- Every jump of the hook to the chain carries the chain's comment. -/
def JumpsMarked (fw : Tables) (c : Chain) : Prop :=
  ∀ line ∈ hookJumps fw c, hasComment line c.comment = true

theorem hookJumps_congr {fw fw' : Tables} {c : Chain}
    (h : fw'.lookup (c.table, c.hook) = fw.lookup (c.table, c.hook)) :
    hookJumps fw' c = hookJumps fw c := by
  simp [hookJumps, Tables.listRules, h]

theorem bodyLines_of_none {fw : Tables} {c : Chain} (h : fw.lookup (c.table, c.name) = none) :
    bodyLines fw c = [] := by
  simp [bodyLines, Tables.listRules, h, ruleLines]

theorem inspectTables_of_rules {fw : Tables} {c : Chain} {rules : List String}
    (hbody : fw.lookup (c.table, c.name) = some rules) (howned : ∀ rule ∈ rules, OwnedRule rule)
    (hne : rules ≠ []) (hjumps : JumpsMarked fw c) : ∃ i, inspectTables fw c = .ok i := by
  have hlines := bodyLines_owned hbody howned
  refine ⟨_, inspectTables_eq_ok.mpr ⟨?_, hjumps, ?_, rfl⟩⟩
  · intro line hline
    rw [hlines] at hline
    obtain ⟨rule, hrule, rfl⟩ := List.mem_map.mp hline
    exact (howned rule hrule).ruleIsOwned_line c.name
  · rintro ⟨-, hempty, -⟩
    rw [hlines, List.map_eq_nil_iff] at hempty
    exact hne hempty

theorem inspectTables_of_none {fw : Tables} {c : Chain}
    (hbody : fw.lookup (c.table, c.name) = none) (hjumps : JumpsMarked fw c) :
    ∃ i, inspectTables fw c = .ok i := by
  refine ⟨_, inspectTables_eq_ok.mpr ⟨?_, hjumps, ?_, rfl⟩⟩
  · simp [bodyLines_of_none hbody]
  · simp [hbody]

/-- A chain without rules that nothing jumps to proves nothing. -/
theorem inspectTables_refuses {fw : Tables} {c : Chain}
    (hbody : fw.lookup (c.table, c.name) = some []) (hjumps : hookJumps fw c = []) :
    ¬∃ i, inspectTables fw c = .ok i := by
  rintro ⟨i, hi⟩
  obtain ⟨-, -, hevidence, -⟩ := inspectTables_eq_ok.mp hi
  have hlines : bodyLines fw c = [] := bodyLines_owned hbody (by simp)
  exact hevidence ⟨by simp [hbody], hlines, hjumps⟩

/-- Different chains of a compiled ruleset lie in different tables. -/
theorem Ruleset.Compiled.eq_of_table {r : Ruleset} (hr : r.Compiled) {c d : Chain}
    (hc : c ∈ r.chains) (hd : d ∈ r.chains) (h : c.table = d.table) : c = d :=
  List.inj_on_of_nodup_map hr.tables hc hd h

/-- Every chain holds its rules, and the jumps to it are marked. -/
def Held (r : Ruleset) (fw : Tables) : Prop :=
  ∀ c ∈ r.chains, fw.lookup (c.table, c.name) = some c.rules ∧ JumpsMarked fw c

/-- Rewriting the hook of one chain with marked jumps. -/
theorem Held.insert_hook {r : Ruleset} (hr : r.Compiled) {fw : Tables} (h : Held r fw) {c : Chain}
    (hc : c ∈ r.chains) {rules : List String}
    (hmarked : ∀ line ∈ jumpLines c (rules.map (ruleLine c.hook)),
      hasComment line c.comment = true) : Held r (fw.insert (c.table, c.hook) rules) := by
  intro d hd
  obtain ⟨hbody, hjumps⟩ := h d hd
  by_cases htable : d.table = c.table
  · obtain rfl := hr.eq_of_table hd hc htable
    have hkey : (d.table, d.name) ≠ (d.table, d.hook) := by
      intro he
      exact (hr.dedicated d hd).name_ne_hook (Prod.ext_iff.mp he).2
    refine ⟨by rw [AList.lookup_insert_ne hkey, hbody], ?_⟩
    intro line hline
    rw [hookJumps_of_lookup (AList.lookup_insert _)] at hline
    exact hmarked line hline
  · have hkey : ∀ name, (d.table, name) ≠ (c.table, c.hook) := by
      intro name he
      exact htable (Prod.ext_iff.mp he).1
    refine ⟨by rw [AList.lookup_insert_ne (hkey _), hbody], ?_⟩
    intro line hline
    rw [hookJumps_congr (AList.lookup_insert_ne (hkey _))] at hline
    exact hjumps line hline

/-! ## Transactions -/

theorem Ruleset.Compiled.printable {r : Ruleset} (hr : r.Compiled) :
    ∀ c ∈ r.chains, c.Printable := by
  have hall : ∀ x ∈ dedicatedChains, '\n' ∉ x.1.toList ∧ '\n' ∉ x.2.2.1.toList ∧
      ' ' ∉ x.2.2.1.toList := by decide +kernel
  intro c hc
  obtain ⟨htable, hname, hblank⟩ := hall _ (hr.dedicated c hc)
  exact ⟨htable, hname, hblank,
    fun rule hrule => (hr.owned c hc rule hrule).printed.newline_not_mem⟩

theorem Tables.lookup_replace_of_notMem (fw : Tables) (chains : List Chain) (k : String × String)
    (h : ∀ c ∈ chains, k ≠ (c.table, c.name)) : (fw.replace chains).lookup k = fw.lookup k := by
  induction chains generalizing fw with
  | nil => rfl
  | cons c cs ih =>
    have hrest := ih (fw.insert (c.table, c.name) c.rules) fun d hd => h d (by simp [hd])
    exact hrest.trans (AList.lookup_insert_ne (h c (by simp)))

/-- A replaced chain holds its rules. -/
theorem Tables.lookup_replace (fw : Tables) {chains : List Chain}
    (htables : (chains.map (·.table)).Nodup) {c : Chain} (hc : c ∈ chains) :
    (fw.replace chains).lookup (c.table, c.name) = some c.rules := by
  induction chains generalizing fw with
  | nil => cases hc
  | cons d ds ih =>
    rw [List.map_cons, List.nodup_cons] at htables
    rcases List.mem_cons.mp hc with rfl | hc
    · have hkey : ∀ e ∈ ds, (c.table, c.name) ≠ (e.table, e.name) := by
        intro e he heq
        exact htables.1 (List.mem_map.mpr ⟨e, he, (Prod.ext_iff.mp heq).1.symm⟩)
      exact (Tables.lookup_replace_of_notMem _ ds _ hkey).trans (AList.lookup_insert _)
    · exact ih (fw.insert (d.table, d.name) d.rules) htables.2 hc

/-- The transaction of a compiled ruleset leaves the hooks alone. -/
theorem Ruleset.Compiled.lookup_hook {r : Ruleset} (hr : r.Compiled) (fw : Tables) {c : Chain}
    (hc : c ∈ r.chains) :
    (fw.replace r.chains).lookup (c.table, c.hook) = fw.lookup (c.table, c.hook) := by
  apply Tables.lookup_replace_of_notMem
  intro d hd heq
  obtain ⟨htable, hname⟩ := Prod.ext_iff.mp heq
  obtain rfl := hr.eq_of_table hc hd htable
  exact (hr.dedicated c hc).name_ne_hook hname.symm

/-- The lines of the transaction that deletes a chain. -/
def Chain.removalLines (c : Chain) : List (List Char) :=
  ['*' :: c.table.toList, "-F ".toList ++ c.name.toList, "-X ".toList ++ c.name.toList,
    "COMMIT".toList]

theorem removalInput_toList (inspections : List ChainInspection) :
    (removalInput inspections).toList =
      unlines ((inspections.filter (·.present)).flatMap fun i => i.chain.removalLines) := by
  rw [removalInput, String.toList_join]
  induction inspections.filter (·.present) with
  | nil => rfl
  | cons i is ih =>
    rw [List.map_cons, List.flatMap_cons, ih]
    simp [unlines, Chain.removalLines]

/-- Once its lines are carried out the chain is gone and nothing else has changed. -/
theorem Chain.foldlM_removalLines {c : Chain} {s s' : String × Tables}
    (h : c.removalLines.foldlM Tables.restoreLine s = some s') (k : String × String) :
    s'.2.lookup k = if k = (c.table, c.name) then none else s.2.lookup k := by
  have hflush : "-F ".toList ++ c.name.toList = '-' :: 'F' :: ' ' :: c.name.toList := by simp
  have hdelete : "-X ".toList ++ c.name.toList = '-' :: 'X' :: ' ' :: c.name.toList := by simp
  unfold removalLines at h
  rw [hflush, hdelete] at h
  simp only [List.foldlM_cons, List.foldlM_nil, Tables.restoreLine, Option.bind_eq_bind,
    Option.bind_some, String.ofList_toList, Option.bind_eq_some_iff, Option.map_eq_some_iff,
    Tables.flush, Tables.deleteChain, Option.ite_none_right_eq_some] at h
  obtain ⟨_, ⟨fw, ⟨-, hfw⟩, rfl⟩, _, ⟨fw', ⟨-, hfw'⟩, rfl⟩, hcommit⟩ := h
  cases hfw
  cases hfw'
  simp at hcommit
  subst hcommit
  by_cases hk : k = (c.table, c.name)
  · subst hk
    simp
  · rw [if_neg hk, AList.lookup_erase_ne hk, AList.lookup_insert_ne hk]

theorem foldlM_removalLines {chains : List Chain} {s s' : String × Tables}
    (h : (chains.flatMap Chain.removalLines).foldlM Tables.restoreLine s = some s')
    (k : String × String) :
    s'.2.lookup k =
      if k ∈ chains.map fun c => (c.table, c.name) then none else s.2.lookup k := by
  induction chains generalizing s with
  | nil =>
    cases h
    simp
  | cons c cs ih =>
    rw [List.flatMap_cons, List.foldlM_append] at h
    obtain ⟨t, hc, hcs⟩ := Option.bind_eq_some_iff.mp h
    rw [ih hcs, Chain.foldlM_removalLines hc k, List.map_cons]
    by_cases hk : k = (c.table, c.name)
    · simp [hk]
    · simp [hk]

/-- A removal that succeeds deletes the chains it names and leaves the rest. -/
theorem Tables.lookup_restore_removal {fw fw' : Tables} {inspections : List ChainInspection}
    (hprint : ∀ i ∈ inspections, i.chain.Printable)
    (h : fw.restore (removalInput inspections) = some fw') (k : String × String) :
    fw'.lookup k =
      if k ∈ ((inspections.filter (·.present)).map (·.chain)).map fun c => (c.table, c.name)
      then none else fw.lookup k := by
  have hlines : ∀ line ∈ ((inspections.filter (·.present)).map (·.chain)).flatMap
      Chain.removalLines, '\n' ∉ line := by
    intro line hline
    obtain ⟨c, hc, hline⟩ := List.mem_flatMap.mp hline
    obtain ⟨i, hi, rfl⟩ := List.mem_map.mp hc
    have hp := hprint i (List.mem_of_mem_filter hi)
    simp only [Chain.removalLines, List.mem_cons, List.not_mem_nil, or_false] at hline
    rcases hline with rfl | rfl | rfl | rfl
    · simp [hp.table]
    · simp [hp.name]
    · simp [hp.name]
    · decide
  rw [Tables.restore, removalInput_toList, ← List.flatMap_map, splitOn_unlines hlines,
    List.foldlM_append] at h
  obtain ⟨s, hs, rfl⟩ := Option.map_eq_some_iff.mp h
  obtain ⟨t, ht, hend⟩ := Option.bind_eq_some_iff.mp hs
  cases hend
  exact foldlM_removalLines ht k

end Firewall

/-! ## Runs -/

section
variable {r : Ruleset} {n : ℕ} {h : Host}

theorem Host.filtered_eq_ok {h h' : Host} {e : Errno} {fw : Option Tables} {v : Unit}
    (heq : h.filtered e fw = (.ok v, h')) : fw = some h'.firewall := by
  cases fw with
  | none => cases heq
  | some fw =>
    cases heq
    rfl

theorem deleteJump_eq_some {fw fw' : Tables} {table hook comment name : String}
    (h : fw.deleteJump table hook comment name = some fw') :
    ∃ rules, fw.lookup (table, hook) = some rules ∧
      fw' = fw.insert (table, hook) (rules.erase (jumpRule comment name)) := by
  unfold Tables.deleteJump at h
  split at h
  · next rules hrules =>
    split at h
    · exact ⟨rules, hrules, (Option.some.inj h).symm⟩
    · cases h
  · cases h

theorem chain_mem_of_inspected {inspections : List ChainInspection}
    (hi : ((inspectFirewallOwnership r).eval h).1 = .ok inspections) :
    ∀ i ∈ inspections, i.chain ∈ r.chains := by
  rw [inspectFirewallOwnership_eval] at hi
  intro i hmem
  obtain ⟨c, hc, hok⟩ := mem_of_mapM_ok hi i hmem
  obtain ⟨-, -, -, rfl⟩ := inspectTables_eq_ok.mp hok
  exact hc

variable (hr : r.Compiled) (hfull : ∀ c ∈ r.chains, c.rules ≠ [])
include hr hfull

theorem Firewall.Held.inspectable (hheld : Held r h.firewall) : Inspectable r h := by
  rw [inspectable_iff]
  intro c hc
  obtain ⟨hbody, hjumps⟩ := hheld c hc
  exact inspectTables_of_rules hbody (hr.owned c hc) (hfull c hc) hjumps

theorem within_deleteJump {c : Chain} (hc : c ∈ r.chains) (wrap : String → String)
    (hheld : Held r h.firewall) :
    Within (fun h _ => Inspectable r h) n h (deleteJump c wrap)
      (fun _ h => Held r h.firewall) (fun h => Held r h.firewall) := by
  apply Within.check (hheld.inspectable hr hfull)
  · intro _ h' hcall
    obtain ⟨rules, hrules, hfw⟩ := deleteJump_eq_some (Host.filtered_eq_ok hcall)
    rw [hfw]
    apply hheld.insert_hook hr hc
    intro line hline
    apply (hheld c hc).2 line
    rw [hookJumps_of_lookup hrules]
    exact (jumpLines_sublist c (List.erase_sublist.map _)).subset hline
  · intro _
    exact hheld

/-- Deleting any number of jumps. -/
theorem within_deleteJumps {c : Chain} (hc : c ∈ r.chains) (wrap : String → String) (count : ℕ)
    (hheld : Held r h.firewall) :
    Within (fun h _ => Inspectable r h) n h
      ((List.replicate count ()).forM fun _ => deleteJump c wrap)
      (fun _ h => Held r h.firewall) (fun h => Held r h.firewall) := by
  apply Within.forM (I := fun _ h => Held r h.firewall) _ _ hheld
  intro _ _ _ _ h hheld
  exact within_deleteJump hr hfull hc wrap hheld

theorem within_installJump {i : ChainInspection} (hi : i.chain ∈ r.chains)
    (hheld : Held r h.firewall) :
    Within (fun h _ => Inspectable r h) n h (installJump i)
      (fun _ h => Held r h.firewall) (fun h => Held r h.firewall) := by
  unfold installJump
  split
  · apply Within.check (hheld.inspectable hr hfull)
    · intro _ h' hcall
      have hfw := Host.filtered_eq_ok hcall
      unfold Tables.insertJump at hfw
      split at hfw
      · rename_i rules _ hrules _
        rw [← Option.some.inj hfw]
        apply hheld.insert_hook hr hi
        intro line hline
        obtain ⟨hjump, hcomment⟩ := (hr.dedicated _ hi).jump
        rw [List.map_cons, ← List.singleton_append, jumpLines_append, hjump] at hline
        rcases List.mem_append.mp hline with hline | hline
        · rw [List.mem_singleton.mp hline]
          exact hcomment
        · apply (hheld _ hi).2 line
          rw [hookJumps_of_lookup hrules]
          exact hline
      · cases hfw
    · intro _
      exact hheld
  · exact within_deleteJumps hr hfull hi _ _ hheld

/-- An install keeps the chains inspectable, whatever it starts from. -/
theorem within_installOwnedChains {inspections : List ChainInspection}
    (hmem : ∀ i ∈ inspections, i.chain ∈ r.chains) (hinit : Inspectable r h) :
    Within (fun h _ => Inspectable r h) n h (installOwnedChains r inspections)
      (fun _ h => Inspectable r h) (Inspectable r) := by
  apply Within.bind (P := fun _ h => Held r h.firewall)
  · apply Within.check hinit
    · intro _ h' hcall
      have hfw := Host.filtered_eq_ok hcall
      rw [Tables.restore_ruleset _ hr.printable] at hfw
      rw [← Option.some.inj hfw]
      intro c hc
      refine ⟨Tables.lookup_replace _ hr.tables hc, ?_⟩
      intro line hline
      rw [hookJumps_congr (hr.lookup_hook _ hc)] at hline
      obtain ⟨i, hi⟩ := inspectable_iff.mp hinit c hc
      exact (inspectTables_eq_ok.mp hi).2.1 line hline
    · intro _
      exact hinit
  · intro _ h' hheld
    apply Within.bind (Within.collectAll (I := fun _ h => Held r h.firewall)
      (E := fun h => Held r h.firewall) inspections ?_ ?_ hheld)
    · intro errs h'' herrs
      have hheld'' : Held r h''.firewall := by
        rcases herrs with ⟨-, hheld⟩ | ⟨-, hheld⟩
        · exact hheld
        · exact hheld
      have hdone := hheld''.inspectable hr hfull
      exact Within.ofExcept (fun _ _ => hdone) fun _ _ => hdone
    · intro done i todo hl h hheld
      exact within_installJump hr hfull (hmem i (by simp [hl])) hheld
    · intro i hi h hheld
      exact within_installJump hr hfull (hmem i hi) hheld

/-- The last step of a removal takes the chains away, and with them what had to be proved. -/
theorem within_deleteChains {inspections : List ChainInspection}
    (hmem : ∀ i ∈ inspections, i.chain ∈ r.chains) (wrap : String → String)
    (hheld : Held r h.firewall) :
    Within (fun h _ => Inspectable r h) n h (runRestore (removalInput inspections) wrap)
      (fun _ h => Inspectable r h) (Inspectable r) := by
  have hbefore := hheld.inspectable hr hfull
  apply Within.check hbefore
  · intro _ h' hcall
    have hlookup := Tables.lookup_restore_removal (fun i hi => hr.printable _ (hmem i hi))
      (Host.filtered_eq_ok hcall)
    rw [inspectable_iff]
    intro c hc
    have hhook : h'.firewall.lookup (c.table, c.hook) = h.firewall.lookup (c.table, c.hook) := by
      rw [hlookup, if_neg]
      intro hk
      obtain ⟨d, hd, heq⟩ := List.mem_map.mp hk
      obtain ⟨i, hi, rfl⟩ := List.mem_map.mp hd
      obtain ⟨htable, hname⟩ := Prod.ext_iff.mp heq
      have hi' := hmem i (List.mem_of_mem_filter hi)
      have hsame := hr.eq_of_table hi' hc htable
      rw [hsame] at hname
      exact (hr.dedicated c hc).name_ne_hook hname
    have hjumps : JumpsMarked h'.firewall c := by
      intro line hline
      rw [hookJumps_congr hhook] at hline
      exact (hheld c hc).2 line hline
    have hname := hlookup (c.table, c.name)
    split at hname
    · exact inspectTables_of_none hname hjumps
    · rw [(hheld c hc).1] at hname
      exact inspectTables_of_rules hname (hr.owned c hc) (hfull c hc) hjumps
  · intro _
    exact hbefore

theorem within_removeOwnedChains {inspections : List ChainInspection}
    (hmem : ∀ i ∈ inspections, i.chain ∈ r.chains) (hheld : Held r h.firewall) :
    Within (fun h _ => Inspectable r h) n h (removeOwnedChains inspections)
      (fun _ h => Inspectable r h) (Inspectable r) := by
  apply Within.bind (Within.collectAll (I := fun _ h => Held r h.firewall)
    (E := fun h => Held r h.firewall) inspections ?_ ?_ hheld)
  · intro errs h' herrs
    have hheld' : Held r h'.firewall := by
      rcases herrs with ⟨-, hheld⟩ | ⟨-, hheld⟩
      · exact hheld
      · exact hheld
    have hdone := hheld'.inspectable hr hfull
    split
    · exact Within.ofExcept (fun _ _ => hdone) fun _ _ => hdone
    · split
      · exact Within.pure hdone
      · exact within_deleteChains hr hfull hmem _ hheld'
  · intro done i todo hl h hheld
    exact within_deleteJumps hr hfull (hmem i (by simp [hl])) _ _ hheld
  · intro i hi h hheld
    exact within_deleteJumps hr hfull (hmem i hi) _ _ hheld

end

/-- An installed ruleset has its rules and marked jumps. -/
theorem Installed.held {r : Ruleset} (hr : r.Compiled) {h : Host} (hi : Installed r h) :
    Held r h.firewall := by
  intro c hc
  obtain ⟨hbody, front, back, hhook, hother⟩ := hi c hc
  refine ⟨hbody, ?_⟩
  intro line hline
  obtain ⟨hjump, hcomment⟩ := (hr.dedicated c hc).jump
  rw [List.map_append, jumpLines_append, List.append_eq_nil_iff] at hother
  rw [hookJumps_of_lookup hhook, List.map_append, List.map_cons, jumpLines_append,
    ← List.singleton_append, jumpLines_append, hjump, hother.1, hother.2] at hline
  simp only [List.nil_append, List.append_nil, List.mem_singleton] at hline
  rw [hline]
  exact hcomment

theorem interruptible_of_rules {r : Ruleset} (hr : r.Compiled)
    (hfull : ∀ c ∈ r.chains, c.rules ≠ []) : Interruptible r := by
  constructor
  · intro h inspections _ hi faults
    exact (within_installOwnedChains hr hfull (chain_mem_of_inspected hi) ⟨_, hi⟩).hosts le_rfl
  · intro h inspections hstart hi faults
    exact (within_removeOwnedChains hr hfull (chain_mem_of_inspected hi)
      (hstart.held hr)).hosts le_rfl

/-! ## Chains without rules -/

/-- A host with nothing but the empty hooks of the ruleset. -/
def bareHost (r : Ruleset) : Host :=
  filterHost (Tables.replace ∅ (r.chains.map fun c => { c with name := c.hook, rules := [] }))

theorem bareHost_lookup_hook {r : Ruleset} (hr : r.Compiled) {c : Chain} (hc : c ∈ r.chains) :
    (bareHost r).firewall.lookup (c.table, c.hook) = some [] := by
  have hmem := List.mem_map_of_mem (f := fun c : Chain => { c with name := c.hook, rules := [] }) hc
  exact Tables.lookup_replace ∅ (by simpa [Function.comp_def] using hr.tables) hmem

theorem bareHost_absent {r : Ruleset} (hr : r.Compiled) : Absent r (bareHost r) := by
  intro c hc
  constructor
  · apply (Tables.lookup_replace_of_notMem ∅ _ _ ?_).trans (AList.lookup_empty _)
    intro d hd heq
    obtain ⟨e, he, rfl⟩ := List.mem_map.mp hd
    obtain ⟨htable, hname⟩ := Prod.ext_iff.mp heq
    obtain rfl := hr.eq_of_table hc he htable
    exact (hr.dedicated c hc).name_ne_hook hname
  · rw [hookJumps_of_lookup (bareHost_lookup_hook hr hc)]
    rfl

/-- Between the transaction and the jumps an empty chain belongs to nobody. -/
theorem interrupted_install {r : Ruleset} (hr : r.Compiled) {c : Chain} (hc : c ∈ r.chains)
    (hempty : c.rules = []) :
    ∃ inspections, ((inspectFirewallOwnership r).eval (bareHost r)).1 = .ok inspections ∧
      ∃ h ∈ (installOwnedChains r inspections).hosts (bareHost r) [], ¬Inspectable r h := by
  have habsent := bareHost_absent hr
  obtain ⟨inspections, hi⟩ : Inspectable r (bareHost r) := by
    rw [inspectable_iff]
    intro d hd
    obtain ⟨hbody, hjumps⟩ := habsent d hd
    exact inspectTables_of_none hbody (by simp [JumpsMarked, hjumps])
  let after : Host := { bareHost r with firewall := (bareHost r).firewall.replace r.chains }
  have hrestore : (bareHost r).call (.restore r.restoreInput) = (.ok (), after) := by
    change (bareHost r).filtered .noChain ((bareHost r).firewall.restore r.restoreInput) = _
    rw [Tables.restore_ruleset _ hr.printable]
    rfl
  refine ⟨inspections, hi, after,
    Net.mem_hosts_bind (Net.check_eval hrestore) (Net.mem_hosts_self _ _ _), ?_⟩
  intro hafter
  refine inspectTables_refuses ?_ ?_ (inspectable_iff.mp hafter c hc)
  · rw [Tables.lookup_replace _ hr.tables hc, hempty]
  · rw [hookJumps_congr (hr.lookup_hook _ hc)]
    exact (habsent c hc).2

theorem interruptible_iff {r : Ruleset} (hr : r.Compiled) :
    Interruptible r ↔ ∀ c ∈ r.chains, c.rules ≠ [] := by
  constructor
  · intro hsurvives c hc hempty
    obtain ⟨inspections, hi, h, hpassed, hnot⟩ := interrupted_install hr hc hempty
    exact hnot (hsurvives.1 _ _ (bareHost_absent hr) hi [] h hpassed)
  · exact interruptible_of_rules hr

/-! ## Configurations -/

theorem canonicalPrefixes_ne_nil {raw out : List String} (h : canonicalPrefixes raw = .ok out) :
    out ≠ [] ↔ raw ≠ [] := by
  obtain ⟨hall, hmem⟩ := canonicalPrefixes_eq_ok h
  constructor
  · intro hne
    obtain ⟨s, hs⟩ := List.exists_mem_of_ne_nil _ hne
    obtain ⟨r, hr, -⟩ := (hmem s).mp hs
    exact List.ne_nil_of_mem hr
  · intro hne
    obtain ⟨r, hr⟩ := List.exists_mem_of_ne_nil _ hne
    obtain ⟨p, hp, -⟩ := hall r hr
    exact List.ne_nil_of_mem ((hmem _).mpr ⟨r, hr, p, hp, rfl⟩)

/-- The gateway's chains all have rules when some client may reach some destination. -/
theorem compile_rules_ne_nil {policy : Policy} {r : Ruleset} (h : compile policy = .ok r) :
    (∀ c ∈ r.chains, c.rules ≠ []) ↔
      policy.clientCIDRs ≠ [] ∧ ∃ t ∈ policy.tunnels, t.destinations ≠ [] := by
  obtain ⟨clients, tunnels, b, hclients, hperm, hb, rfl⟩ := compile_eq_ok h
  have hdest : ∀ t ∈ tunnels, (destinationsOf t ≠ [] ↔ t.destinations ≠ []) :=
    fun t ht => canonicalPrefixes_ne_nil (hb.canonical t ht)
  rw [← canonicalPrefixes_ne_nil hclients]
  simp only [assemble, List.forall_mem_cons, List.not_mem_nil, false_implies, implies_true,
    and_true]
  constructor
  · rintro ⟨-, hnat, -⟩
    obtain ⟨rule, hrule⟩ := List.exists_mem_of_ne_nil _ hnat
    simp only [mem_sortStrings, hb.nat, List.mem_flatMap, List.mem_map] at hrule
    obtain ⟨t, ht, x, hx, -⟩ := hrule
    obtain ⟨hc, hd⟩ := List.mem_product.mp hx
    exact ⟨List.ne_nil_of_mem hc, t, hperm.mem_iff.mp ht, (hdest t ht).mp (List.ne_nil_of_mem hd)⟩
  · rintro ⟨hc, t, ht, hd⟩
    have ht' := hperm.mem_iff.mpr ht
    obtain ⟨c, hc⟩ := List.exists_mem_of_ne_nil _ hc
    obtain ⟨d, hd⟩ := List.exists_mem_of_ne_nil _ ((hdest t ht').mpr hd)
    have hx : (c, d) ∈ clients ×ˢ destinationsOf t := List.mem_product.mpr ⟨hc, hd⟩
    refine ⟨?_, ?_, ?_⟩
    · apply List.ne_nil_of_mem (a := sourceDropRule c)
      simp only [List.mem_append, terminalDrops, List.mem_flatMap]
      exact .inl (.inr ⟨c, hc, by simp⟩)
    · apply List.ne_nil_of_mem (a := masqueradeRule c d t.interface)
      simp only [mem_sortStrings, hb.nat, List.mem_flatMap, List.mem_map]
      exact ⟨t, ht', _, hx, rfl⟩
    · apply List.ne_nil_of_mem (a := clampRule c d t.interface)
      simp only [mem_sortStrings, hb.mangle, List.mem_flatMap, List.mem_map]
      exact ⟨t, ht', _, hx, rfl⟩

theorem compileGatewayRuleset_compiled {c : Config} (hc : c.Named) {r : Ruleset}
    (h : compileGatewayRuleset c = .ok r) : r.Compiled := by
  apply compile_compiled (mapError_eq_ok.mp h)
  intro t ht
  by_cases henabled : c.gateway.enabled = true
  · obtain ⟨u, hu, -, rfl⟩ := (mem_gatewayTunnels henabled t).mp ht
    exact hc.name u hu
  · simp [Config.gatewayPolicy, henabled] at ht

def Config.guards (c : Config) : List MarkGuard := c.tunnels.map Tunnel.guard

/-- The compiled guard is one dedicated chain, with a rule for each tunnel if there are any. -/
theorem compileEgressGuardRuleset_eq_ok {c : Config} (hc : c.Named) {r : Ruleset}
    (h : compileEgressGuardRuleset c = .ok r) :
    r.Compiled ∧ ∃ sorted : List MarkGuard, sorted.Perm c.guards ∧
      (∀ g ∈ sorted, interfaceNameOk g.interface = true) ∧
      r = ⟨[outputChainWith (if c.guards = [] then [] else
        loopbackRule :: sorted.map guardRule)]⟩ := by
  unfold compileEgressGuardRuleset at h
  simp only [bind_eq_ok, pure_eq_ok, mapError_eq_ok] at h
  obtain ⟨chain, hchain, rfl⟩ := h
  have hnames : ∀ g ∈ c.guards, interfaceNameOk g.interface = true :=
    List.forall_mem_map.mpr hc.name
  refine ⟨(Produced.shaped (.inr ⟨_, chain, hchain, hnames, rfl⟩)).compiled, ?_⟩
  obtain ⟨sorted, hperm, -, rfl⟩ := compileEgressGuard_eq_ok hchain
  exact ⟨sorted, hperm, fun g hg => hnames g (hperm.mem_iff.mp hg), rfl⟩

theorem compileEgressGuardRuleset_compiled {c : Config} (hc : c.Valid) {r : Ruleset}
    (h : compileEgressGuardRuleset c = .ok r) :
    r.Compiled ∧ ((∀ chain ∈ r.chains, chain.rules ≠ []) ↔ c.tunnels ≠ []) := by
  obtain ⟨hcompiled, sorted, -, -, rfl⟩ := compileEgressGuardRuleset_eq_ok hc.named h
  refine ⟨hcompiled, ?_⟩
  by_cases hne : c.tunnels = []
  · simp [hne, outputChainWith, Config.guards]
  · simp [hne, outputChainWith, Config.guards]

/-- Ownership survives an interruption exactly when no chain is empty: for the gateway when it is
enabled with clients and with some routed tunnel, for the guard when there are tunnels. -/
theorem ownership_survives {c : Config} (hc : c.Valid) :
    (∀ r, compileGatewayRuleset c = .ok r → (Interruptible r ↔
      c.gateway.enabled = true ∧ c.gateway.clientCIDRs ≠ [] ∧ ∃ t ∈ c.tunnels, t.routes ≠ [])) ∧
    ∀ r, compileEgressGuardRuleset c = .ok r → (Interruptible r ↔ c.tunnels ≠ []) := by
  constructor
  · intro r h
    rw [interruptible_iff (compileGatewayRuleset_compiled hc.named h),
      compile_rules_ne_nil (mapError_eq_ok.mp h)]
    by_cases henabled : c.gateway.enabled = true
    · simp [Config.gatewayPolicy, henabled]
    · simp [Config.gatewayPolicy, henabled]
  · intro r h
    obtain ⟨hcompiled, hrules⟩ := compileEgressGuardRuleset_compiled hc h
    rw [interruptible_iff hcompiled, hrules]

/-- A gateway for the given clients with one routed tunnel. -/
def forwardingFile (clients : List String) : Config :=
  sampleFile [sampleTunnel "wg0" 1 ["1.0.0.0/8"] []] ⟨true, clients, ""⟩

theorem ownership_survives_forwarding : ∃ c r g,
    (forwardingFile ["192.168.0.0/16"]).parse sampleExternal = .ok c ∧
    compileGatewayRuleset c = .ok r ∧ compileEgressGuardRuleset c = .ok g ∧
    Interruptible r ∧ Interruptible g := by
  have hload : (forwardingFile ["192.168.0.0/16"]).parse sampleExternal =
      .ok (forwardingFile ["192.168.0.0/16"]).normalize := by decide +kernel
  have hvalid := parse_valid hload
  obtain ⟨r, hr⟩ := (compileGatewayRuleset_iff hvalid.named).mpr fun _ =>
    ⟨by decide +kernel, by
      intro t ht u hu hne
      obtain rfl := List.mem_singleton.mp ht
      obtain rfl := List.mem_singleton.mp hu
      exact absurd rfl hne⟩
  obtain ⟨sorted, -, hg⟩ := compileEgressGuardRuleset_total hvalid
  obtain ⟨hgateway, hguard⟩ := ownership_survives hvalid
  exact ⟨_, r, _, hload, hr, hg, (hgateway r hr).mpr (by decide +kernel),
    (hguard _ hg).mpr (by decide +kernel)⟩

/-- An enabled gateway without clients has empty chains; an install that stops before its first
jump leaves chains nobody can claim. -/
theorem empty_chains_unowned : ∃ c r inspections,
    (forwardingFile []).parse sampleExternal = .ok c ∧ compileGatewayRuleset c = .ok r ∧
    Absent r (bareHost r) ∧
    ((inspectFirewallOwnership r).eval (bareHost r)).1 = .ok inspections ∧
    ∃ h ∈ (installOwnedChains r inspections).hosts (bareHost r) [], ¬Inspectable r h := by
  have hload : (forwardingFile []).parse sampleExternal =
      .ok (forwardingFile []).normalize := by decide +kernel
  have hvalid := parse_valid hload
  obtain ⟨r, hr⟩ := (compileGatewayRuleset_iff hvalid.named).mpr fun _ =>
    ⟨by decide +kernel, by
      intro t ht u hu hne
      obtain rfl := List.mem_singleton.mp ht
      obtain rfl := List.mem_singleton.mp hu
      exact absurd rfl hne⟩
  have hcompiled := compileGatewayRuleset_compiled hvalid.named hr
  have hsome : ¬∀ c ∈ r.chains, c.rules ≠ [] := by
    rw [compile_rules_ne_nil (mapError_eq_ok.mp hr)]
    decide +kernel
  push Not at hsome
  obtain ⟨c, hc, hempty⟩ := hsome
  obtain ⟨inspections, hi, hstop⟩ := interrupted_install hcompiled hc hempty
  exact ⟨_, r, inspections, hload, hr, bareHost_absent hcompiled, hi, hstop⟩

end SakhtarWg
