import Mathlib.Data.List.Dedup
import SakhtarWg.CompiledRules

/-!
# Firewall drift

The plan compares the dedicated chains with the compiled ones as sets of normalised rule
texts and counts the jumps to them. An empty plan therefore says nothing about repeated
rules, about their order, about what stands in front of the jump, and about rules whose
text only resembles a compiled one.
-/

namespace SakhtarWg
open Text Fallible Iptables Firewall Program

inductive FirewallAction
  | add | delete
  deriving DecidableEq

structure FirewallOperation where
  action : FirewallAction
  object : String
  deriving DecidableEq

/-- The rule without quotation marks and with single blanks. -/
def canonicalFirewallRule (rule : String) : String :=
  unwords (stringFields (String.ofList (rule.toList.filter (· ≠ '"'))))

/-- The normalised rules of a listing. -/
def currentRules (c : Chain) (lines : List String) : List String :=
  ((ruleLines c.name lines).map fun line => canonicalFirewallRule
    (String.ofList (line.toList.drop ("-A " ++ c.name ++ " ").toList.length))).dedup

/-- The operations for one chain, given its normalised rules. -/
def chainOperations (wanted : Bool) (i : ChainInspection) (current : List String) :
    List FirewallOperation :=
  let name := i.chain.table ++ "/" ++ i.chain.name
  let jump := i.chain.table ++ "/" ++ i.chain.hook ++ "/owned-jump"
  let desired := if wanted then (i.chain.rules.map canonicalFirewallRule).dedup else []
  let wantJump := if wanted then 1 else 0
  (if !i.present && wanted then [⟨.add, name⟩] else []) ++
    (desired.filter (· ∉ current)).map (fun rule => ⟨.add, name ++ "/" ++ rule⟩) ++
    (current.filter (· ∉ desired)).map (fun rule => ⟨.delete, name ++ "/" ++ rule⟩) ++
    List.replicate (wantJump - i.ownedJumps) ⟨.add, jump⟩ ++
    List.replicate (i.ownedJumps - wantJump) ⟨.delete, jump⟩ ++
    (if !wanted && i.present then [⟨.delete, name⟩] else [])

def planChain (wanted : Bool) (i : ChainInspection) : Net (List FirewallOperation) := do
  let lines ← if i.present then listChain i.chain.table i.chain.name else pure none
  return chainOperations wanted i (currentRules i.chain (lines.getD []))

/-- The live chains against the compiled ones; without `wanted` their removal is planned. -/
def planOwnedChains (r : Ruleset) (wanted : Bool) : Net (List FirewallOperation) := do
  let inspections ← inspectFirewallOwnership r
  let operations ← inspections.mapM (planChain wanted)
  return operations.flatten

/-! ## Enforcement -/

/-- The target of the rule is the chain. -/
def Jumps (chain rule : String) : Prop :=
  ∃ front a back, arguments rule = front ++ .bare "-j" :: a :: back ∧ a.text = chain

/-- The rule is the jump an install puts into the hook. -/
def IsJump (c : Chain) (rule : String) : Prop :=
  argumentTexts rule = words (jumpRule c.comment c.name) ∧ Jumps c.name rule

/-- The chain holds exactly the compiled rules, in an order that gives every packet the compiled
verdict, and its hook jumps to it once, before anything else. -/
structure Enforces (c : Chain) (live hook : List String) : Prop where
  rules : (live.map argumentTexts).Perm (c.rules.map words)
  verdict : ∀ p, evaluatePrinted live p = evaluate c.rules p
  jump : ∃ first rest, hook = first :: rest ∧ IsJump c first ∧ ∀ rule ∈ rest, ¬Jumps c.name rule

/-- What the plan does not look at: every rule is what its normal form says, none is listed
twice, no rule is shadowed, and the hook starts with the jump. -/
structure Orderly (c : Chain) (live hook : List String) : Prop where
  reads : ∀ rule ∈ live,
    argumentTexts rule ≠ [] ∧ argumentTexts rule = words (canonicalFirewallRule rule)
  once : (live.map canonicalFirewallRule).Nodup
  order : ∀ rs, live.mapM readPrinted = some rs → Unshadowed rs
  top : ∃ first rest, hook = first :: rest ∧ IsJump c first

/-! ## Normal forms -/

theorem canonical_of_arguments {rule : String} {ws : List String} (h : argumentTexts rule = ws)
    (hplain : ∀ w ∈ ws, Plain w) : canonicalFirewallRule rule = unwords ws := by
  rw [canonicalFirewallRule, stringFields_unquoted h hplain]

theorem arguments_plain {ws : List String} (h : ∀ w ∈ ws, Plain w) :
    argumentsFrom [] ws = ws.map .bare := by
  induction ws with
  | nil => rfl
  | cons w ws ih =>
    rw [List.forall_mem_cons] at h
    have hopen : opened w = none := by
      cases ho : opened w with
      | none => rfl
      | some rest => exact absurd (by simpa [unwords] using h.1) (not_plain_of_opened [] ho)
    simp only [argumentsFrom, hopen, ih h.2, List.map_cons]

theorem argumentTexts_printed {ws : List String} (h : ∀ w ∈ ws, Plain w) :
    argumentTexts (unwords ws) = ws := by
  rw [argumentTexts, arguments, words_unwords ws fun w hw => (h w hw).isWord, arguments_plain h,
    List.map_map]
  exact List.map_id ws

/-- A printed rule is its own normal form. -/
theorem Iptables.Printed.canonical {rule : String} (h : Printed rule) :
    canonicalFirewallRule rule = rule := by
  obtain ⟨ws, -, hws, rfl⟩ := h
  exact canonical_of_arguments (argumentTexts_printed hws) hws

theorem canonical_of_spaces {rule : String} (h : ∀ c ∈ rule.toList, isSpace c = true) :
    canonicalFirewallRule rule = "" := by
  have hfields : spaceFields (rule.toList.filter (· ≠ '"')) = [] :=
    spaceFields_append_spaces [] fun c hc => h c (List.mem_of_mem_filter hc)
  rw [canonicalFirewallRule, stringFields, String.toList_ofList, hfields]
  rfl

theorem canonical_trimRight (rule : String) :
    canonicalFirewallRule (String.ofList (trimRight rule.toList)) = canonicalFirewallRule rule := by
  obtain ⟨m, hm, hsplit⟩ := trimRight_spec rule.toList
  have hfields : spaceFields (rule.toList.filter (· ≠ '"')) =
      spaceFields ((trimRight rule.toList).filter (· ≠ '"')) := by
    conv_lhs => rw [hsplit]
    rw [List.filter_append]
    exact spaceFields_append_spaces _ fun c hc => hm c (List.mem_of_mem_filter hc)
  rw [canonicalFirewallRule, canonicalFirewallRule, stringFields, stringFields,
    String.toList_ofList, String.toList_ofList, String.toList_ofList, hfields]

/-! ## Listings -/

/-- A rule that is nothing but spaces is not listed. -/
theorem ruleLines_cons_spaces {chain : String} (hchain : Plain chain) {rule : String}
    (lines : List String) (h : ∀ c ∈ rule.toList, isSpace c = true) :
    ruleLines chain (ruleLine chain rule :: lines) = ruleLines chain lines := by
  have hhead : (ruleLine chain rule).toList =
      ('-' :: ("A " ++ chain).toList) ++ (' ' :: rule.toList) := by simp [ruleLine]
  have hlast : trimRight ('-' :: ("A " ++ chain).toList) = '-' :: ("A " ++ chain).toList := by
    have hprinted : Printed (unwords ["-A", chain]) := by
      refine ⟨_, by simp, ?_, rfl⟩
      simp only [List.forall_mem_cons]
      exact ⟨by decide, hchain, by simp⟩
    have htext : (unwords ["-A", chain]).toList = '-' :: ("A " ++ chain).toList := by
      simp [unwords]
    rw [← htext]
    exact hprinted.trimRight
  have htrim : trimSpaces (ruleLine chain rule).toList = '-' :: ("A " ++ chain).toList := by
    rw [hhead, List.cons_append, trimSpaces_of_head (by decide), ← List.cons_append,
      trimRight_of_spaces, hlast]
    rw [List.forall_mem_cons]
    exact ⟨by decide, h⟩
  have hshort : ("-A " ++ chain ++ " ").toList.isPrefixOf ('-' :: ("A " ++ chain).toList) =
      false := by
    rw [Bool.eq_false_iff, Ne, List.isPrefixOf_iff_prefix]
    intro hprefix
    have hlength := hprefix.length_le
    simp at hlength
  rw [ruleLines, List.map_cons, htrim, List.filter_cons, if_neg]
  · rfl
  · rw [String.toList_ofList, hshort]
    simp

/-- The normal forms the plan sees. -/
theorem mem_currentRules {c : Chain} (hname : Plain c.name) (live : List String) (x : String) :
    x ∈ currentRules c (live.map (ruleLine c.name)) ↔
      ∃ rule ∈ live, (∃ ch ∈ rule.toList, isSpace ch = false) ∧
        x = canonicalFirewallRule rule := by
  have hdrop : ∀ rule : String, canonicalFirewallRule (String.ofList
      ((ruleLine c.name rule).toList.drop ("-A " ++ c.name ++ " ").toList.length)) =
        canonicalFirewallRule rule := by
    intro rule
    rw [ruleLine_toList, List.drop_left, String.ofList_toList]
  rw [currentRules, List.mem_dedup, List.mem_map]
  induction live with
  | nil => simp [ruleLines]
  | cons rule live ih =>
    by_cases hvisible : ∃ ch ∈ rule.toList, isSpace ch = false
    · rw [List.map_cons, ruleLines_cons c.name _ hvisible, List.exists_mem_cons_iff,
        List.exists_mem_cons_iff, hdrop, canonical_trimRight]
      apply or_congr _ ih
      rw [and_iff_right hvisible, eq_comm]
    · have hspaces : ∀ ch ∈ rule.toList, isSpace ch = true := by
        intro ch hch
        by_contra hspace
        exact hvisible ⟨ch, hch, by simpa using hspace⟩
      rw [List.map_cons, ruleLines_cons_spaces hname _ hspaces, List.exists_mem_cons_iff]
      apply ih.trans
      exact (or_iff_right fun h => hvisible h.1).symm

/-! ## The empty plan -/

theorem planChain_eval (h : Host) (wanted : Bool) (i : ChainInspection) :
    (planChain wanted i).eval h = (.ok (chainOperations wanted i (currentRules i.chain
      ((if i.present then h.firewall.listRules i.chain.table i.chain.name else none).getD []))),
        h) := by
  unfold planChain
  cases i.present with
  | true =>
    rw [if_pos rfl, Net.eval_bind_ok (listChain_eval h _ _)]
    rfl
  | false => rfl

theorem chainOperations_eq_nil {i : ChainInspection} {current : List String} :
    chainOperations true i current = [] ↔
      i.present = true ∧ (∀ rule ∈ i.chain.rules, canonicalFirewallRule rule ∈ current) ∧
        (∀ x ∈ current, ∃ rule ∈ i.chain.rules, canonicalFirewallRule rule = x) ∧
        i.ownedJumps = 1 := by
  have hcount : 1 - i.ownedJumps = 0 ∧ i.ownedJumps - 1 = 0 ↔ i.ownedJumps = 1 := by omega
  simp only [chainOperations, List.append_eq_nil_iff, List.map_eq_nil_iff, List.filter_eq_nil_iff,
    List.mem_dedup, List.mem_map, List.replicate_eq_nil_iff, if_true]
  cases i.present with
  | false => simp
  | true => simp [and_assoc, hcount]

theorem planOwnedChains_eval (h : Host) (r : Ruleset) :
    (planOwnedChains r true).eval h = (do
      let inspections ← r.chains.mapM (inspectTables h.firewall)
      return (inspections.map fun i => chainOperations true i (currentRules i.chain
        ((if i.present then h.firewall.listRules i.chain.table i.chain.name else none).getD
          []))).flatten, h) := by
  unfold planOwnedChains
  apply Net.eval_bind_reads (inspectFirewallOwnership_eval h r)
  intro inspections
  have hloop := Net.eval_mapM_reads (planChain_eval h true) inspections
  rw [mapM_ok fun _ _ => rfl] at hloop
  rw [Net.eval_bind_ok hloop]
  rfl

/-- What an empty plan says about a chain. -/
structure Unplanned (fw : Tables) (c : Chain) (live hook : List String) : Prop where
  body : fw.lookup (c.table, c.name) = some live
  hooked : fw.lookup (c.table, c.hook) = some hook
  listed : ∀ rule ∈ c.rules,
    canonicalFirewallRule rule ∈ currentRules c (live.map (ruleLine c.name))
  known : ∀ x ∈ currentRules c (live.map (ruleLine c.name)),
    ∃ rule ∈ c.rules, canonicalFirewallRule rule = x
  jumps : (jumpLines c (hook.map (ruleLine c.hook))).length = 1

theorem exists_unplanned {h : Host} {r : Ruleset}
    (hplan : ((planOwnedChains r true).eval h).1 = .ok []) {c : Chain} (hc : c ∈ r.chains) :
    ∃ live hook, Unplanned h.firewall c live hook := by
  rw [planOwnedChains_eval, bind_eq_ok] at hplan
  obtain ⟨inspections, hi, hempty⟩ := hplan
  obtain ⟨i, himem, hinspect⟩ := exists_of_mapM_ok hi c hc
  have hnone := List.flatten_eq_nil_iff.mp (pure_eq_ok.mp hempty) _ (List.mem_map_of_mem himem)
  obtain ⟨-, -, -, rfl⟩ := inspectTables_eq_ok.mp hinspect
  obtain ⟨hpresent, hlisted, hknown, hjumps⟩ := chainOperations_eq_nil.mp hnone
  simp only at hpresent hlisted hknown hjumps
  obtain ⟨live, hlive⟩ := Option.isSome_iff_exists.mp hpresent
  have hlines : ((if (h.firewall.lookup (c.table, c.name)).isSome = true then
      h.firewall.listRules c.table c.name else none).getD []) = live.map (ruleLine c.name) := by
    rw [if_pos hpresent]
    simp [Tables.listRules, hlive, ruleLine]
  rw [hlines] at hlisted hknown
  cases hhook : h.firewall.lookup (c.table, c.hook) with
  | none =>
    have hzero : hookJumps h.firewall c = [] := by
      simp [hookJumps, Tables.listRules, hhook, jumpLines, ruleLines]
    rw [hzero] at hjumps
    cases hjumps
  | some hook =>
    rw [hookJumps_of_lookup hhook] at hjumps
    exact ⟨live, hook, hlive, hhook, hlisted, hknown, hjumps⟩

/-! ## Jumps are counted -/

theorem jumpsToWords_cons {chain : String} (w : String) {l : List String}
    (h : jumpsToWords chain l = true) : jumpsToWords chain (w :: l) = true := by
  cases l with
  | nil => cases h
  | cons v l => rw [jumpsToWords, h, Bool.or_true]

theorem jumpsToWords_append {chain : String} (x : List String) {l : List String}
    (h : jumpsToWords chain l = true) : jumpsToWords chain (x ++ l) = true := by
  induction x with
  | nil => exact h
  | cons w x ih => exact jumpsToWords_cons w ih

/-- A word in quotes is one field. -/
theorem spaceFields_shows {f w : String} (h : Shows f w) (hw : Plain w) :
    spaceFields f.toList = [f.toList] := by
  rcases h with rfl | rfl
  · exact hw.spaceFields
  · apply spaceFields_word (by simp)
    intro c hc
    simp only [String.toList_append, List.mem_append] at hc
    rcases hc with (hc | hc) | hc
    · have hquote : c = '"' := by simpa using hc
      subst hquote
      decide
    · exact hw.isSpace_eq_false c hc
    · have hquote : c = '"' := by simpa using hc
      subst hquote
      decide

theorem Jumps.words_split {chain rule : String} (h : Jumps chain rule) (hchain : Plain chain) :
    ∃ x f y, words rule = x ++ "-j" :: f :: y ∧ Shows f chain := by
  obtain ⟨front, a, back, heq, rfl⟩ := h
  exact neighbours_show hchain (words rule) [] front heq

theorem Jumps.visible {chain rule : String} (h : Jumps chain rule) (hchain : Plain chain) :
    ∃ c ∈ rule.toList, isSpace c = false := by
  obtain ⟨x, f, y, hwords, -⟩ := h.words_split hchain
  have hmem : "-j" ∈ words rule := by simp [hwords]
  obtain ⟨field, hfield, htext⟩ := List.mem_map.mp hmem
  refine ⟨'-', mem_of_mem_fields hfield '-' ?_, by decide⟩
  rw [← String.toList_ofList (l := field), htext]
  simp

/-- A rule of the hook whose target is the chain is counted. -/
theorem Jumps.counted {c : Chain} (hname : Plain c.name) {rule : String}
    (h : Jumps c.name rule) : (jumpLines c [ruleLine c.hook rule]).length = 1 := by
  obtain ⟨x, f, y, hwords, hf⟩ := h.words_split hname
  have hfields : fields rule.toList = x.map String.toList ++ "-j".toList :: f.toList ::
      y.map String.toList := by
    have := congrArg (List.map String.toList) hwords
    simpa [words, Function.comp_def] using this
  have hdash : Plain "-j" := by decide
  obtain ⟨m, hm, hsplit⟩ := trimRight_spec rule.toList
  have htrim : spaceFields (trimRight rule.toList) = spaceFields rule.toList := by
    conv_rhs => rw [hsplit]
    exact (spaceFields_append_spaces _ hm).symm
  have hline : (ruleLine c.hook (String.ofList (trimRight rule.toList))).toList =
      ("-A " ++ c.hook).toList ++ ' ' :: trimRight rule.toList := by
    simp [ruleLine]
  have hjump : jumpsTo (ruleLine c.hook (String.ofList (trimRight rule.toList))) c.name = true := by
    rw [jumpsTo, stringFields, hline, spaceFields_space _ _ (by decide), htrim,
      spaceFields_eq rule.toList, hfields, List.flatMap_append, List.flatMap_cons,
      List.flatMap_cons, spaceFields_shows hf hname, hdash.spaceFields]
    simp only [List.map_append, List.map_cons, List.cons_append, List.nil_append,
      String.ofList_toList]
    apply jumpsToWords_append
    apply jumpsToWords_append
    simp [jumpsToWords, trimQuotes_shows hf hname]
  rw [jumpLines, ruleLines_cons c.hook [] (h.visible hname), List.filter_cons, if_pos hjump]
  rfl

/-- Where one line is counted and the first rule jumps, no other rule does. -/
theorem no_other_jump {c : Chain} (hname : Plain c.name) {first : String} {rest : List String}
    (hfirst : Jumps c.name first)
    (hcount : (jumpLines c ((first :: rest).map (ruleLine c.hook))).length = 1) :
    ∀ rule ∈ rest, ¬Jumps c.name rule := by
  intro rule hrule hjump
  obtain ⟨front, back, rfl⟩ := List.append_of_mem hrule
  have hlines : (first :: (front ++ rule :: back)).map (ruleLine c.hook) =
      [ruleLine c.hook first] ++ (front.map (ruleLine c.hook) ++
        ([ruleLine c.hook rule] ++ back.map (ruleLine c.hook))) := by simp
  rw [hlines, jumpLines_append, jumpLines_append, jumpLines_append, List.length_append,
    List.length_append, List.length_append, hfirst.counted hname, hjump.counted hname] at hcount
  omega

/-! ## Plans and enforcement -/

theorem mapM_readPrinted {live : List String}
    (h : ∀ rule ∈ live, argumentTexts rule = words (canonicalFirewallRule rule)) :
    live.mapM readPrinted = loadChain (live.map canonicalFirewallRule) := by
  rw [loadChain_eq_mapM]
  induction live with
  | nil => rfl
  | cons rule live ih =>
    rw [List.forall_mem_cons] at h
    have hread : readPrinted rule = parseRule (canonicalFirewallRule rule) := by
      rw [readPrinted, h.1]
      rfl
    rw [List.map_cons, List.mapM_cons, List.mapM_cons, hread, ih h.2]

section
variable {c : Chain} {live hook : List String}
  (hreads : ∀ rule ∈ live, argumentTexts rule = words (canonicalFirewallRule rule))
  (hperm : (live.map canonicalFirewallRule).Perm c.rules)
include hreads hperm

/-- For the compiled rules in any order, verdicts are kept exactly when nothing is shadowed. -/
theorem verdict_iff_unshadowed {tiers : List Iptables.Rule} (hload : loadChain c.rules = some tiers)
    (htiered : Tiered tiers) : (∀ p, evaluatePrinted live p = evaluate c.rules p) ↔
      ∀ rs, live.mapM readPrinted = some rs → Unshadowed rs := by
  obtain ⟨rs, hrs, hsame⟩ := loadChain_perm hperm hload
  rw [← mapM_readPrinted hreads] at hrs
  have hiff := run_eq_iff_unshadowed (fun r => hsame.mem_iff) htiered
  simp only [evaluatePrinted, evaluate, hrs, hload, Option.map_some, Option.some.injEq,
    forall_eq']
  exact hiff

end

section
variable {r : Ruleset} (hr : r.Shaped) {c : Chain} (hc : c ∈ r.chains) {fw : Tables}
  {live hook : List String} (hu : Unplanned fw c live hook)
include hr hc

/-- Rules with the arguments of compiled ones have them as normal forms. -/
theorem canonical_of_rules (hrules : (live.map argumentTexts).Perm (c.rules.map words)) :
    (∀ rule ∈ live,
      argumentTexts rule ≠ [] ∧ argumentTexts rule = words (canonicalFirewallRule rule)) ∧
    (live.map canonicalFirewallRule).Perm c.rules := by
  have hcompiled : ∀ s ∈ c.rules, ∃ ws, ws ≠ [] ∧ (∀ w ∈ ws, Plain w) ∧ s = unwords ws :=
    fun s hs => (hr.compiled.owned c hc s hs).printed
  have hkey : ∀ rule ∈ live, ∃ ws, ws ≠ [] ∧ (∀ w ∈ ws, Plain w) ∧ argumentTexts rule = ws ∧
      canonicalFirewallRule rule = unwords ws := by
    intro rule hrule
    obtain ⟨s, hs, hwords⟩ := List.mem_map.mp (hrules.mem_iff.mp (List.mem_map_of_mem hrule))
    obtain ⟨ws, hne, hplain, rfl⟩ := hcompiled s hs
    rw [words_unwords ws fun w hw => (hplain w hw).isWord] at hwords
    exact ⟨ws, hne, hplain, hwords.symm, canonical_of_arguments hwords.symm hplain⟩
  constructor
  · intro rule hrule
    obtain ⟨ws, hne, hplain, harg, hcanon⟩ := hkey rule hrule
    rw [harg, hcanon, words_unwords ws fun w hw => (hplain w hw).isWord]
    exact ⟨hne, rfl⟩
  · have hlive : live.map canonicalFirewallRule = (live.map argumentTexts).map unwords := by
      rw [List.map_map]
      apply List.map_congr_left
      intro rule hrule
      obtain ⟨ws, -, -, harg, hcanon⟩ := hkey rule hrule
      rw [hcanon, Function.comp_apply, harg]
    have hback : (c.rules.map words).map unwords = c.rules := by
      rw [List.map_map]
      apply (List.map_congr_left _).trans (List.map_id _)
      intro s hs
      obtain ⟨ws, -, hplain, rfl⟩ := hcompiled s hs
      rw [Function.comp_apply, words_unwords ws fun w hw => (hplain w hw).isWord]
      rfl
    rw [hlive, ← hback]
    exact hrules.map unwords

include hu

/-- With an empty plan, readable rules listed once are the compiled ones. -/
theorem Unplanned.perm
    (hreads : ∀ rule ∈ live,
      argumentTexts rule ≠ [] ∧ argumentTexts rule = words (canonicalFirewallRule rule))
    (honce : (live.map canonicalFirewallRule).Nodup) :
    (live.map canonicalFirewallRule).Perm c.rules := by
  have hname := (hr.compiled.dedicated c hc).plain.2.1
  have hself : ∀ s ∈ c.rules, canonicalFirewallRule s = s :=
    fun s hs => (hr.compiled.owned c hc s hs).printed.canonical
  rw [List.perm_ext_iff_of_nodup honce (hr.nodup c hc)]
  intro s
  constructor
  · intro hs
    obtain ⟨rule, hrule, rfl⟩ := List.mem_map.mp hs
    obtain ⟨hne, hwords⟩ := hreads rule hrule
    have hvisible : ∃ ch ∈ rule.toList, isSpace ch = false := by
      by_contra hnone
      push Not at hnone
      rw [canonical_of_spaces fun ch hch => by simpa using hnone ch hch] at hwords
      exact hne hwords
    obtain ⟨s, hs, heq⟩ := hu.known _ ((mem_currentRules hname live _).mpr
      ⟨rule, hrule, hvisible, rfl⟩)
    rw [hself s hs] at heq
    exact heq ▸ hs
  · intro hs
    have hlisted := hu.listed s hs
    rw [hself s hs, mem_currentRules hname] at hlisted
    obtain ⟨rule, hrule, -, heq⟩ := hlisted
    exact List.mem_map.mpr ⟨rule, hrule, heq.symm⟩

theorem enforces_iff_orderly : Enforces c live hook ↔ Orderly c live hook := by
  obtain ⟨tiers, hload, htiered⟩ := hr.tiered c hc
  have hname := (hr.compiled.dedicated c hc).plain.2.1
  constructor
  · intro h
    obtain ⟨hreads, hperm⟩ := canonical_of_rules hr hc h.rules
    refine ⟨hreads, hperm.nodup_iff.mpr (hr.nodup c hc), ?_, ?_⟩
    · exact (verdict_iff_unshadowed (fun rule hrule => (hreads rule hrule).2) hperm hload
        htiered).mp h.verdict
    · obtain ⟨first, rest, hhook, hfirst, -⟩ := h.jump
      exact ⟨first, rest, hhook, hfirst⟩
  · intro h
    have hreads : ∀ rule ∈ live, argumentTexts rule = words (canonicalFirewallRule rule) :=
      fun rule hrule => (h.reads rule hrule).2
    have hperm := hu.perm hr hc h.reads h.once
    refine ⟨?_, (verdict_iff_unshadowed hreads hperm hload htiered).mpr h.order, ?_⟩
    · have hlive : live.map argumentTexts = (live.map canonicalFirewallRule).map words := by
        rw [List.map_map]
        apply List.map_congr_left
        intro rule hrule
        rw [Function.comp_apply, hreads rule hrule]
      rw [hlive]
      exact hperm.map words
    · obtain ⟨first, rest, rfl, hfirst⟩ := h.top
      exact ⟨first, rest, rfl, hfirst, no_other_jump hname hfirst.2 hu.jumps⟩

end

/-- With an empty plan the live firewall enforces a chain exactly when, besides what the plan
compares, its rules are readable, distinct and in order and its hook starts with the jump. -/
theorem empty_plan_enforces {r : Ruleset} (hr : Produced r) {h : Host}
    (hplan : ((planOwnedChains r true).eval h).1 = .ok []) :
    ∀ c ∈ r.chains, ∃ live hook, h.firewall.lookup (c.table, c.name) = some live ∧
      h.firewall.lookup (c.table, c.hook) = some hook ∧
      (Enforces c live hook ↔ Orderly c live hook) := by
  intro c hc
  obtain ⟨live, hook, hu⟩ := exists_unplanned hplan hc
  exact ⟨live, hook, hu.body, hu.hooked, enforces_iff_orderly hr.shaped hc hu⟩

/-! ## Planned states -/

/-- The plan is empty whenever the chains hold the compiled rules in some order and one jump
leads to each. -/
theorem plan_empty {r : Ruleset} (hr : r.Compiled) {h : Host}
    (hlive : ∀ c ∈ r.chains, ∃ live hook, h.firewall.lookup (c.table, c.name) = some live ∧
      h.firewall.lookup (c.table, c.hook) = some hook ∧ (∀ s, s ∈ live ↔ s ∈ c.rules) ∧
      jumpLines c (hook.map (ruleLine c.hook)) = [ruleLine c.hook (jumpRule c.comment c.name)]) :
    ((planOwnedChains r true).eval h).1 = .ok [] := by
  have hchain : ∀ c ∈ r.chains, ∃ i, inspectTables h.firewall c = .ok i ∧
      chainOperations true i (currentRules i.chain
        ((if i.present then h.firewall.listRules i.chain.table i.chain.name else none).getD
          [])) = [] := by
    intro c hc
    obtain ⟨live, hook, hbody, hhook, hmem, hjumps⟩ := hlive c hc
    have howned : ∀ rule ∈ live, OwnedRule rule :=
      fun rule hrule => hr.owned c hc rule ((hmem rule).mp hrule)
    have hname := (hr.dedicated c hc).plain.2.1
    have hself : ∀ s ∈ live, canonicalFirewallRule s = s :=
      fun s hs => (howned s hs).printed.canonical
    have hcurrent : ∀ x, x ∈ currentRules c (live.map (ruleLine c.name)) ↔ x ∈ live := by
      intro x
      rw [mem_currentRules hname]
      constructor
      · rintro ⟨rule, hrule, -, hx⟩
        rw [hx, hself rule hrule]
        exact hrule
      · intro hx
        exact ⟨x, hx, (howned x hx).printed.exists_visible, (hself x hx).symm⟩
    have hlines : h.firewall.listRules c.table c.name = some (live.map (ruleLine c.name)) := by
      simp [Tables.listRules, hbody, ruleLine]
    have hhooks := hookJumps_of_lookup hhook
    rw [hjumps] at hhooks
    refine ⟨_, inspectTables_eq_ok.mpr ⟨?_, ?_, ?_, rfl⟩, ?_⟩
    · rw [bodyLines_owned hbody howned]
      intro line hline
      obtain ⟨rule, hrule, rfl⟩ := List.mem_map.mp hline
      exact (howned rule hrule).ruleIsOwned_line c.name
    · rw [hhooks, List.forall_mem_singleton]
      exact (hr.dedicated c hc).jump.2
    · simp [hhooks]
    · rw [chainOperations_eq_nil]
      simp only [hbody, Option.isSome_some, if_true, hlines, Option.getD_some, hcurrent, hhooks]
      refine ⟨trivial, ?_, ?_, rfl⟩
      · intro s hs
        rw [hself s ((hmem s).mpr hs)]
        exact (hmem s).mpr hs
      · intro x hx
        exact ⟨x, (hmem x).mp hx, hself x hx⟩
  obtain ⟨inspections, hi⟩ := exists_mapM_ok.mpr fun c hc => (hchain c hc).imp fun _ h => h.1
  rw [planOwnedChains_eval, bind_eq_ok]
  refine ⟨inspections, hi, pure_eq_ok.mpr (List.flatten_eq_nil_iff.mpr ?_)⟩
  intro ops hops
  obtain ⟨i, himem, rfl⟩ := List.mem_map.mp hops
  obtain ⟨c, hc, hok⟩ := mem_of_mapM_ok hi i himem
  obtain ⟨i', hok', hnone⟩ := hchain c hc
  rw [hok] at hok'
  obtain rfl := Except.ok.inj hok'
  exact hnone

theorem isJump_jumpRule {c : Chain} (h : Dedicated c) : IsJump c (jumpRule c.comment c.name) := by
  obtain ⟨-, hname, hcomment⟩ := h.plain
  have hplain : ∀ w ∈ ["-m", "comment", "--comment", c.comment, "-j", c.name], Plain w := by
    simp only [List.forall_mem_cons]
    exact ⟨by decide, by decide, by decide, hcomment, by decide, hname, by simp⟩
  have hwords := words_unwords _ fun w hw => (hplain w hw).isWord
  constructor
  · rw [jumpRule_eq, hwords, argumentTexts_printed hplain]
  · refine ⟨["-m", "comment", "--comment", c.comment].map .bare, .bare c.name, [], ?_, rfl⟩
    rw [jumpRule_eq, arguments, hwords, arguments_plain hplain]
    rfl

/-- The compiled chain behind its jump is in order. -/
theorem orderly_installed {r : Ruleset} (hr : r.Shaped) {c : Chain} (hc : c ∈ r.chains) :
    Orderly c c.rules [jumpRule c.comment c.name] := by
  have hself : ∀ s ∈ c.rules, canonicalFirewallRule s = s :=
    fun s hs => (hr.compiled.owned c hc s hs).printed.canonical
  have hmap : c.rules.map canonicalFirewallRule = c.rules :=
    (List.map_congr_left hself).trans (List.map_id _)
  have hreads : ∀ rule ∈ c.rules,
      argumentTexts rule ≠ [] ∧ argumentTexts rule = words (canonicalFirewallRule rule) := by
    intro rule hrule
    rw [hself rule hrule]
    obtain ⟨ws, hne, hplain, rfl⟩ := (hr.compiled.owned c hc rule hrule).printed
    rw [argumentTexts_printed hplain, words_unwords ws fun w hw => (hplain w hw).isWord]
    exact ⟨hne, rfl⟩
  refine ⟨hreads, by rw [hmap]; exact hr.nodup c hc, ?_, ?_⟩
  · intro rs hrs
    obtain ⟨tiers, hload, htiered⟩ := hr.tiered c hc
    rw [mapM_readPrinted fun rule hrule => (hreads rule hrule).2, hmap, hload] at hrs
    rw [← Option.some.inj hrs]
    exact (run_eq_iff_unshadowed (fun _ => Iff.rfl) htiered).mp fun _ => rfl
  · exact ⟨_, [], rfl, isJump_jumpRule (hr.compiled.dedicated c hc)⟩

/-! ## One guarded tunnel -/

def soleGuard : MarkGuard := ⟨"wg0", 1, 0xffffffff⟩

def soleChain : Chain := outputChainWith [loopbackRule, guardRule soleGuard]

/-- A host whose guard chain and output hook hold the given rules. -/
def guardedHost (live hook : List String) : Host :=
  filterHost (((∅ : Tables).insert ("filter", "OUTPUT") hook).insert ("filter", outputChain) live)

theorem soleChain_compiled : compileEgressGuard [soleGuard] = .ok soleChain := by decide +kernel

theorem soleChain_produced : Produced ⟨[soleChain]⟩ :=
  .inr ⟨_, _, soleChain_compiled, by decide, rfl⟩

theorem guardedHost_body (live hook : List String) :
    (guardedHost live hook).firewall.lookup (soleChain.table, soleChain.name) = some live :=
  AList.lookup_insert _

theorem guardedHost_hook (live hook : List String) :
    (guardedHost live hook).firewall.lookup (soleChain.table, soleChain.hook) = some hook := by
  apply (AList.lookup_insert_ne _).trans (AList.lookup_insert _)
  decide

/-- The plan does not see the order of the rules, nor rules that stand beside the jump. -/
theorem guardedHost_plan {live front : List String} (hlive : live.Perm soleChain.rules)
    (hfront : jumpLines soleChain (front.map (ruleLine soleChain.hook)) = []) :
    ((planOwnedChains ⟨[soleChain]⟩ true).eval (guardedHost live
      (front ++ [jumpRule soleChain.comment soleChain.name]))).1 = .ok [] := by
  apply plan_empty soleChain_produced.shaped.compiled
  simp only [List.forall_mem_singleton]
  refine ⟨_, _, guardedHost_body _ _, guardedHost_hook _ _, fun s => hlive.mem_iff, ?_⟩
  have hjump := (soleChain_produced.shaped.compiled.dedicated soleChain (by simp)).jump.1
  rw [List.map_append, jumpLines_append, List.map_singleton, hjump, hfront, List.nil_append]

theorem empty_plan_enforces_installed :
    ((planOwnedChains ⟨[soleChain]⟩ true).eval (guardedHost soleChain.rules
      [jumpRule soleChain.comment soleChain.name])).1 = .ok [] ∧
    Enforces soleChain soleChain.rules [jumpRule soleChain.comment soleChain.name] := by
  have hplan := @guardedHost_plan _ [] (List.Perm.refl soleChain.rules) rfl
  obtain ⟨live, hook, hlive, hhook, hiff⟩ :=
    empty_plan_enforces soleChain_produced hplan soleChain (by simp)
  rw [guardedHost_body] at hlive
  rw [guardedHost_hook] at hhook
  obtain rfl := Option.some.inj hlive
  obtain rfl := Option.some.inj hhook
  exact ⟨hplan, hiff.mpr (orderly_installed soleChain_produced.shaped (by simp))⟩

/-- Marked loopback traffic is rejected when the two rules have changed places, and everything
passes the guard when a rule of the hook accepts it first; the plan is empty in both cases. -/
theorem empty_plan_disordered :
    compileEgressGuard [soleGuard] = .ok soleChain ∧
    (((planOwnedChains ⟨[soleChain]⟩ true).eval (guardedHost soleChain.rules.reverse
        [jumpRule soleChain.comment soleChain.name])).1 = .ok [] ∧
      evaluatePrinted soleChain.rules.reverse ⟨0, 0, "", "lo", 1, .new, none⟩ ≠
        evaluate soleChain.rules ⟨0, 0, "", "lo", 1, .new, none⟩) ∧
    ((planOwnedChains ⟨[soleChain]⟩ true).eval (guardedHost soleChain.rules
        ["-j ACCEPT", jumpRule soleChain.comment soleChain.name])).1 = .ok [] ∧
      ¬IsJump soleChain "-j ACCEPT" := by
  refine ⟨soleChain_compiled, ⟨?_, by decide +kernel⟩, ?_, ?_⟩
  · exact @guardedHost_plan _ [] (List.reverse_perm _) rfl
  · exact @guardedHost_plan _ ["-j ACCEPT"] (List.Perm.refl _) (by decide +kernel)
  · intro h
    have htexts := h.1
    revert htexts
    decide +kernel

end SakhtarWg
