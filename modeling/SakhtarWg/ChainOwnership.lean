import Mathlib.Data.List.ProdSigma
import SakhtarWg.Chains
import SakhtarWg.HostEval
import SakhtarWg.RuleArguments

/-!
# Ownership of the dedicated chains

What an inspection reads off the packet filter, and that the compiled rules and jumps
prove their own ownership.
-/

namespace SakhtarWg
open Text Netip Fallible Iptables Firewall Program

/-! ## Inspections as functions of the tables -/

namespace Firewall

/-- The inspection of a chain, given the tables it reads. -/
def inspectTables (fw : Tables) (c : Chain) : Except String ChainInspection := do
  let ownedRules ← countRules c ((fw.listRules c.table c.name).getD [])
  let ownedJumps ← countJumps c ((fw.listRules c.table c.hook).getD [])
  require (!((fw.listRules c.table c.name).isSome && ownedRules = 0 && ownedJumps = 0))
    (c.table ++ "/" ++ c.name ++ " already exists without ownership evidence")
  return ⟨c, (fw.listRules c.table c.name).isSome, ownedRules, ownedJumps⟩

/-- The rule lines of a chain and the jump lines of its hook in the tables. -/
def bodyLines (fw : Tables) (c : Chain) : List String :=
  ruleLines c.name ((fw.listRules c.table c.name).getD [])

def hookJumps (fw : Tables) (c : Chain) : List String :=
  jumpLines c ((fw.listRules c.table c.hook).getD [])

theorem inspectTables_eq_ok {fw : Tables} {c : Chain} {i : ChainInspection} :
    inspectTables fw c = .ok i ↔
      (∀ line ∈ bodyLines fw c, ruleIsOwned line = true) ∧
      (∀ line ∈ hookJumps fw c, hasComment line c.comment = true) ∧
      ¬((fw.lookup (c.table, c.name)).isSome = true ∧ bodyLines fw c = [] ∧
        hookJumps fw c = []) ∧
      i = ⟨c, (fw.lookup (c.table, c.name)).isSome, (bodyLines fw c).length,
        (hookJumps fw c).length⟩ := by
  have hsome : (fw.listRules c.table c.name).isSome = (fw.lookup (c.table, c.name)).isSome := by
    simp [Tables.listRules]
  simp only [inspectTables, countRules, countJumps, bind_eq_ok, require_eq_ok, pure_eq_ok, hsome,
    List.all_eq_true]
  constructor
  · rintro ⟨_, ⟨_, hbody, rfl⟩, _, ⟨_, hhook, rfl⟩, _, hevidence, rfl⟩
    refine ⟨hbody, hhook, ?_, rfl⟩
    rintro ⟨hpresent, hrules, hjumps⟩
    have hrules' : (ruleLines c.name ((fw.listRules c.table c.name).getD [])).length = 0 := by
      rw [List.length_eq_zero_iff]
      exact hrules
    have hjumps' : (jumpLines c ((fw.listRules c.table c.hook).getD [])).length = 0 := by
      rw [List.length_eq_zero_iff]
      exact hjumps
    simp [hpresent, hrules', hjumps'] at hevidence
  · rintro ⟨hbody, hhook, hevidence, rfl⟩
    refine ⟨_, ⟨(), hbody, rfl⟩, _, ⟨(), hhook, rfl⟩, (), ?_, rfl⟩
    rw [Bool.not_eq_true', Bool.eq_false_iff]
    intro hall
    simp only [Bool.and_eq_true, decide_eq_true_eq, List.length_eq_zero_iff] at hall
    exact hevidence ⟨hall.1.1, hall.1.2, hall.2⟩

end Firewall

theorem listChain_eval (h : Host) (table chain : String) :
    (listChain table chain).eval h = (.ok (h.firewall.listRules table chain), h) := by
  have hmissing : saysMissing Errno.noChain.message = true := by decide
  have hcall : (Net.call (.listRules table chain)).eval h =
      (.ok (Host.orErrno .noChain (h.firewall.listRules table chain)), h) := rfl
  unfold listChain
  rw [Net.eval_bind_ok hcall]
  cases h.firewall.listRules table chain with
  | some lines => rfl
  | none =>
    simp only [Host.orErrno, hmissing, if_true]
    rfl

theorem inspectChain_eval (h : Host) (c : Chain) :
    (inspectChain c).eval h = (inspectTables h.firewall c, h) := by
  unfold inspectChain
  rw [Net.eval_bind_ok (listChain_eval h c.table c.name)]
  apply Net.eval_bind_reads (ofExcept_eval h _)
  intro ownedRules
  rw [Net.eval_bind_ok (listChain_eval h c.table c.hook)]
  apply Net.eval_bind_reads (ofExcept_eval h _)
  intro ownedJumps
  apply Net.eval_bind_reads (ofExcept_eval h _)
  intro _
  rfl

/-- The inspection of a ruleset is a function of the tables. -/
theorem inspectFirewallOwnership_eval (h : Host) (r : Ruleset) :
    (inspectFirewallOwnership r).eval h = (r.chains.mapM (inspectTables h.firewall), h) :=
  Net.eval_mapM_reads (inspectChain_eval h) r.chains

/-- A host of which only the packet filter matters. -/
def filterHost (fw : Tables) : Host where
  links := ⟨[], List.nodup_nil, List.nodup_nil, List.forall_mem_nil _⟩
  unbound := []
  rules := []
  firewall := fw
  sysctls := fun _ => "0"
  endpoints := fun _ => none
  published := none

/-! ## Rules that prove their ownership -/

namespace Firewall

theorem plain_of_name {s : String} (h : interfaceNameOk s = true) : Plain s := by
  refine plain_iff.mpr ⟨interfaceNameOk_ne h, fun c hc => ?_⟩
  have hname := interfaceNameOk_chars h c hc
  have hrange := nameChar_range hname
  exact plainChar_iff.mpr ⟨by omega, by omega, nameChar_ne hname (by decide),
    nameChar_ne hname (by decide), nameChar_ne hname (by decide)⟩

theorem digitChar_plain : ∀ d < 16, plainChar d.digitChar = true := by decide

theorem digits_plain {b n : ℕ} (hb : 1 < b) (hb' : b ≤ 16) :
    ∀ c ∈ Nat.toDigits b n, plainChar c = true := by
  intro c hc
  obtain ⟨d, hd, rfl⟩ := isDigit_of_mem_toDigits hb hb' hc
  exact digitChar_plain d hd

theorem plain_of_canonical {s : String} (h : IsCanonical s) : Plain s := by
  refine plain_iff.mpr ⟨fun he => h.isWord.1 (by simp [he]), fun c hc => ?_⟩
  obtain ⟨p, h4, -, rfl⟩ := h
  obtain ⟨a, n, hn, rfl⟩ := Prefix.eq_of4 h4
  rw [Prefix.string_toList_of4] at hc
  rcases List.mem_append.mp hc with h | h
  · rcases formatIPv4_chars a h with rfl | ⟨d, hd, rfl⟩
    · decide
    · exact digitChar_plain d hd
  · rcases List.mem_cons.mp h with rfl | h
    · decide
    · exact digits_plain (by norm_num) (by norm_num) c h

theorem hex_plain (n : ℕ) : ∀ c ∈ (hex n).toList, plainChar c = true := by
  intro c hc
  rw [hex_toList] at hc
  simp only [List.mem_cons] at hc
  rcases hc with rfl | rfl | hc
  · decide
  · decide
  · exact digits_plain (by norm_num) (by norm_num) c hc

theorem plain_markSelector (mark mask : BitVec 32) : Plain (markSelector mark mask) := by
  refine plain_iff.mpr ⟨fun he => (markSelector_isWord mark mask).1 (by simp [he]), fun c hc => ?_⟩
  unfold markSelector at hc
  split at hc
  · exact hex_plain _ c hc
  · simp only [String.toList_append, List.mem_append] at hc
    rcases hc with (h | h) | h
    · exact hex_plain _ c h
    · have hslash : c = '/' := by simpa using h
      subst hslash
      decide
    · exact hex_plain _ c h

/-- The rule is printed from plain words: options, the owner's comment and a target. -/
structure Owned (rule : String) (opts target : List String) : Prop where
  plain : ∀ w ∈ opts ++ target, Plain w
  text : rule = unwords (opts ++ "-m" :: "comment" :: "--comment" :: ownerComment :: target)

def OwnedRule (rule : String) : Prop := ∃ opts target, Owned rule opts target

section
variable {rule : String} {opts target : List String} (h : Owned rule opts target)
include h

theorem Owned.plainWords :
    ∀ w ∈ opts ++ "-m" :: "comment" :: "--comment" :: ownerComment :: target, Plain w := by
  have hconst : ∀ w ∈ ["-m", "comment", "--comment", ownerComment], Plain w := by decide
  have hplain := h.plain
  simp only [List.forall_mem_append, List.forall_mem_cons] at hconst hplain ⊢
  obtain ⟨h1, h2, h3, h4, -⟩ := hconst
  exact ⟨hplain.1, h1, h2, h3, h4, hplain.2⟩

theorem Owned.words_eq :
    words rule = opts ++ "-m" :: "comment" :: "--comment" :: ownerComment :: target := by
  rw [h.text, words_unwords _ fun w hw => (h.plainWords w hw).isWord]

end

theorem OwnedRule.printed {rule : String} (h : OwnedRule rule) : Printed rule := by
  obtain ⟨opts, target, h⟩ := h
  exact ⟨_, by simp, h.plainWords, h.text⟩

section
variable {c d i : String} (hc : Plain c) (hd : Plain d) (hi : Plain i)

include hc hd hi

theorem owned_forward :
    Owned (forwardRule c d i) ["-s", c, "-d", d, "-o", i] ["-j", "ACCEPT"] := by
  refine ⟨?_, forwardRule_eq c d i⟩
  simp only [List.cons_append, List.nil_append, List.forall_mem_cons]
  exact ⟨by decide, hc, by decide, hd, by decide, hi, by decide⟩

theorem owned_return : Owned (returnRule c d i)
    ["-s", d, "-d", c, "-i", i, "-m", "conntrack", "--ctstate", "RELATED,ESTABLISHED"]
    ["-j", "ACCEPT"] := by
  refine ⟨?_, returnRule_eq c d i⟩
  simp only [List.cons_append, List.nil_append, List.forall_mem_cons]
  exact ⟨by decide, hd, by decide, hc, by decide, hi, by decide⟩

theorem owned_masquerade :
    Owned (masqueradeRule c d i) ["-s", c, "-d", d, "-o", i] ["-j", "MASQUERADE"] := by
  refine ⟨?_, masqueradeRule_eq c d i⟩
  simp only [List.cons_append, List.nil_append, List.forall_mem_cons]
  exact ⟨by decide, hc, by decide, hd, by decide, hi, by decide⟩

theorem owned_clamp : Owned (clampRule c d i)
    ["-s", c, "-d", d, "-o", i, "-p", "tcp", "-m", "tcp", "--tcp-flags", "SYN,RST", "SYN"]
    ["-j", "TCPMSS", "--clamp-mss-to-pmtu"] := by
  refine ⟨?_, clampRule_eq c d i⟩
  simp only [List.cons_append, List.nil_append, List.forall_mem_cons]
  exact ⟨by decide, hc, by decide, hd, by decide, hi, by decide⟩

end

theorem owned_sourceDrop {c : String} (hc : Plain c) :
    Owned (sourceDropRule c) ["-s", c] ["-j", "DROP"] := by
  refine ⟨?_, sourceDropRule_eq c⟩
  simp only [List.cons_append, List.nil_append, List.forall_mem_cons]
  exact ⟨by decide, hc, by decide⟩

theorem owned_targetDrop {c : String} (hc : Plain c) :
    Owned (targetDropRule c) ["-d", c] ["-j", "DROP"] := by
  refine ⟨?_, targetDropRule_eq c⟩
  simp only [List.cons_append, List.nil_append, List.forall_mem_cons]
  exact ⟨by decide, hc, by decide⟩

theorem owned_destinationDrop {d i : String} (hd : Plain d) (hi : Plain i) :
    Owned (destinationDropRule d i) ["-d", d, "-o", i] ["-j", "DROP"] := by
  refine ⟨?_, destinationDropRule_eq d i⟩
  simp only [List.cons_append, List.nil_append, List.forall_mem_cons]
  exact ⟨by decide, hd, by decide, hi, by decide⟩

theorem owned_loopback : Owned loopbackRule ["-o", "lo"] ["-j", "RETURN"] :=
  ⟨by decide, loopbackRule_eq⟩

theorem owned_guard {g : MarkGuard} (hi : Plain g.interface) : Owned (guardRule g)
    ["!", "-o", g.interface, "-m", "mark", "--mark", markSelector g.mark g.mask]
    ["-j", "REJECT", "--reject-with", "icmp-port-unreachable"] := by
  refine ⟨?_, guardRule_eq g⟩
  simp only [List.cons_append, List.nil_append, List.forall_mem_cons]
  exact ⟨by decide, by decide, hi, by decide, by decide, by decide,
    plain_markSelector g.mark g.mask, by decide⟩

/-! ## Listed rules -/

/-- The line a rule of a chain is listed as. -/
def ruleLine (chain rule : String) : String := "-A " ++ chain ++ " " ++ rule

theorem ruleLine_toList (chain rule : String) :
    (ruleLine chain rule).toList = ("-A " ++ chain ++ " ").toList ++ rule.toList := by
  rw [ruleLine, String.toList_append]

/-- A line is listed without the spaces at its end. -/
theorem trimSpaces_ruleLine (chain : String) {rule : String}
    (h : ∃ c ∈ rule.toList, isSpace c = false) :
    trimSpaces (ruleLine chain rule).toList =
      ("-A " ++ chain ++ " ").toList ++ trimRight rule.toList := by
  have hhead : (ruleLine chain rule).toList =
      '-' :: ("A " ++ chain ++ " ").toList ++ rule.toList := by
    simp [ruleLine]
  have hdash : '-' :: ("A " ++ chain ++ " ").toList = ("-A " ++ chain ++ " ").toList := by simp
  rw [hhead, List.cons_append, trimSpaces_of_head (by decide), ← List.cons_append,
    trimRight_append h, hdash]

theorem ruleLines_cons (chain : String) {rule : String} (lines : List String)
    (h : ∃ c ∈ rule.toList, isSpace c = false) :
    ruleLines chain (ruleLine chain rule :: lines) =
      ruleLine chain (String.ofList (trimRight rule.toList)) :: ruleLines chain lines := by
  have htrim : String.ofList (trimSpaces (ruleLine chain rule).toList) =
      ruleLine chain (String.ofList (trimRight rule.toList)) := by
    apply String.toList_inj.mp
    rw [trimSpaces_ruleLine chain h, ruleLine_toList, String.toList_ofList, String.toList_ofList]
  have hfront : ("-A " ++ chain ++ " ").toList.isPrefixOf
      (ruleLine chain (String.ofList (trimRight rule.toList))).toList = true := by
    rw [List.isPrefixOf_iff_prefix, ruleLine_toList]
    exact List.prefix_append _ _
  rw [ruleLines, List.map_cons, htrim, List.filter_cons, if_pos hfront]
  rfl

theorem OwnedRule.ruleIsOwned_line {rule : String} (h : OwnedRule rule) (chain : String) :
    ruleIsOwned (ruleLine chain rule) = true := by
  obtain ⟨opts, target, -, rfl⟩ := h
  obtain ⟨a, b, hab⟩ := unwords_infix (opts ++ ["-m", "comment"]) "--comment" ownerComment target
  have hlist : opts ++ ["-m", "comment"] ++ "--comment" :: ownerComment :: target =
      opts ++ "-m" :: "comment" :: "--comment" :: ownerComment :: target := by simp
  rw [hlist] at hab
  have hline : (ruleLine chain (unwords
      (opts ++ "-m" :: "comment" :: "--comment" :: ownerComment :: target))).toList =
      (("-A " ++ chain ++ " ").toList ++ a) ++ ("--comment " ++ ownerComment).toList ++ b := by
    rw [ruleLine_toList, hab]
    simp
  rw [ruleIsOwned, hasComment, hline, containsText_append, Bool.true_or]

theorem ruleLines_printed (chain : String) {rules : List String}
    (h : ∀ rule ∈ rules, Printed rule) :
    ruleLines chain (rules.map (ruleLine chain)) = rules.map (ruleLine chain) := by
  induction rules with
  | nil => rfl
  | cons rule rules ih =>
    have hrule := h rule (by simp)
    rw [List.map_cons, ruleLines_cons chain _ hrule.exists_visible, hrule.trimRight,
      String.ofList_toList, ih fun r hr => h r (by simp [hr])]

/-- The body of a chain that holds owned rules. -/
theorem bodyLines_owned {fw : Tables} {c : Chain} {rules : List String}
    (hbody : fw.lookup (c.table, c.name) = some rules) (h : ∀ rule ∈ rules, OwnedRule rule) :
    bodyLines fw c = rules.map (ruleLine c.name) := by
  have hlist : fw.listRules c.table c.name = some (rules.map (ruleLine c.name)) := by
    simp [Tables.listRules, hbody, ruleLine]
  rw [bodyLines, hlist]
  exact ruleLines_printed c.name fun rule hrule => (h rule hrule).printed

/-! ## Jumps -/

/-- Table, hook, name and comment of the four chains the daemon keeps to itself. -/
def dedicatedChains : List (String × String × String × String) :=
  [("filter", "FORWARD", filterChain, ownerComment ++ ":filter-forward"),
    ("nat", "POSTROUTING", natChain, ownerComment ++ ":nat-postrouting"),
    ("mangle", "FORWARD", mangleChain, ownerComment ++ ":mangle-forward"),
    ("filter", "OUTPUT", outputChain, ownerComment ++ ":filter-output")]

def Dedicated (c : Chain) : Prop := (c.table, c.hook, c.name, c.comment) ∈ dedicatedChains

theorem hookJumps_of_lookup {fw : Tables} {c : Chain} {rules : List String}
    (h : fw.lookup (c.table, c.hook) = some rules) :
    hookJumps fw c = jumpLines c (rules.map (ruleLine c.hook)) := by
  have hlist : fw.listRules c.table c.hook = some (rules.map (ruleLine c.hook)) := by
    simp [Tables.listRules, h, ruleLine]
  rw [hookJumps, hlist]
  rfl

theorem jumpLines_append (c : Chain) (l m : List String) :
    jumpLines c (l ++ m) = jumpLines c l ++ jumpLines c m := by
  simp [jumpLines, ruleLines]

theorem jumpLines_sublist (c : Chain) {l m : List String} (h : l.Sublist m) :
    (jumpLines c l).Sublist (jumpLines c m) :=
  ((h.map _).filter _).filter _

theorem jumpRule_eq (comment target : String) : jumpRule comment target =
    unwords ["-m", "comment", "--comment", comment, "-j", target] := by
  apply String.toList_inj.mp
  unfold jumpRule
  simp only [String.toList_append, unwords_toList_cons, unwords_toList_singleton]
  simp

theorem Dedicated.plain {c : Chain} (h : Dedicated c) :
    Plain c.hook ∧ Plain c.name ∧ Plain c.comment := by
  have hall : ∀ x ∈ dedicatedChains, Plain x.2.1 ∧ Plain x.2.2.1 ∧ Plain x.2.2.2 := by
    decide +kernel
  exact hall _ h

theorem trimQuotes_shows {f w : String} (h : Shows f w) (hw : Plain w) : trimQuotes f = w := by
  have hkeep : ∀ l m : List Char, l ≠ [] → (∀ c ∈ l, c ≠ '"') →
      (l ++ m).dropWhile (· = '"') = l ++ m := by
    intro l m hne hl
    obtain ⟨c, l, rfl⟩ := List.exists_cons_of_ne_nil hne
    rw [List.cons_append, List.dropWhile_cons_of_neg (by simpa using hl c (by simp))]
  have hback : w.toList.reverse.dropWhile (· = '"') = w.toList.reverse := by
    have := hkeep w.toList.reverse [] (by simpa using hw.toList_ne_nil) (by simpa using hw.ne_quote)
    rwa [List.append_nil] at this
  rcases h with rfl | rfl
  · have hfront := hkeep f.toList [] hw.toList_ne_nil hw.ne_quote
    rw [List.append_nil] at hfront
    rw [trimQuotes, hfront, hback, List.reverse_reverse, String.ofList_toList]
  · have htext : ("\"" ++ w ++ "\"").toList = '"' :: (w.toList ++ ['"']) := by simp
    rw [trimQuotes, htext, List.dropWhile_cons_of_pos (by simp),
      hkeep _ _ hw.toList_ne_nil hw.ne_quote, List.reverse_append, List.reverse_singleton,
      List.singleton_append, List.dropWhile_cons_of_pos (by simp), hback, List.reverse_reverse,
      String.ofList_toList]

section
variable {c : Chain} (h : Dedicated c)
include h

theorem Dedicated.jump_printed : Printed (jumpRule c.comment c.name) := by
  obtain ⟨-, hname, hcomment⟩ := h.plain
  refine ⟨_, by simp, ?_, jumpRule_eq c.comment c.name⟩
  simp only [List.forall_mem_cons]
  exact ⟨by decide, by decide, by decide, hcomment, by decide, hname, by simp⟩

theorem Dedicated.jumpsTo_line :
    jumpsTo (ruleLine c.hook (jumpRule c.comment c.name)) c.name = true := by
  obtain ⟨hhook, hname, hcomment⟩ := h.plain
  have hline : ruleLine c.hook (jumpRule c.comment c.name) =
      unwords ["-A", c.hook, "-m", "comment", "--comment", c.comment, "-j", c.name] := by
    apply String.toList_inj.mp
    rw [ruleLine_toList, jumpRule_eq]
    simp only [String.toList_append, unwords_toList_cons, unwords_toList_singleton]
    simp
  have hwords : ∀ w ∈ ["-A", c.hook, "-m", "comment", "--comment", c.comment, "-j", c.name],
      Plain w := by
    simp only [List.forall_mem_cons]
    exact ⟨by decide, hhook, by decide, by decide, by decide, hcomment, by decide, hname, by simp⟩
  rw [jumpsTo, hline, stringFields_unwords _ fun w hw =>
    ⟨(plain_iff.mp (hwords w hw)).1, (hwords w hw).isSpace_eq_false⟩]
  simp [jumpsToWords, trimQuotes_shows (.inl rfl) hname]

/-- The jump of a dedicated chain is counted and carries the chain's comment. -/
theorem Dedicated.jump :
    jumpLines c [ruleLine c.hook (jumpRule c.comment c.name)] =
        [ruleLine c.hook (jumpRule c.comment c.name)] ∧
      hasComment (ruleLine c.hook (jumpRule c.comment c.name)) c.comment = true := by
  constructor
  · have hlines : ruleLines c.hook ([jumpRule c.comment c.name].map (ruleLine c.hook)) =
        [jumpRule c.comment c.name].map (ruleLine c.hook) :=
      ruleLines_printed c.hook (by simpa using h.jump_printed)
    rw [List.map_singleton] at hlines
    rw [jumpLines, hlines, List.filter_cons, if_pos h.jumpsTo_line, List.filter_nil]
  · obtain ⟨a, b, hab⟩ := unwords_infix ["-m", "comment"] "--comment" c.comment ["-j", c.name]
    have hline : (ruleLine c.hook (jumpRule c.comment c.name)).toList =
        (("-A " ++ c.hook ++ " ").toList ++ a) ++ ("--comment " ++ c.comment).toList ++ b := by
      rw [ruleLine_toList, jumpRule_eq]
      rw [List.cons_append, List.cons_append, List.nil_append] at hab
      rw [hab]
      simp
    rw [hasComment, hline, containsText_append, Bool.true_or]

end

theorem Dedicated.name_ne_hook {c : Chain} (h : Dedicated c) : c.name ≠ c.hook := by
  have hall : ∀ x ∈ dedicatedChains, x.2.2.1 ≠ x.2.1 := by decide +kernel
  exact hall _ h

/-! ## Compiled rulesets -/

/-- What both compilers give: dedicated chains of different tables whose rules are owned. -/
structure Ruleset.Compiled (r : Ruleset) : Prop where
  dedicated : ∀ c ∈ r.chains, Dedicated c
  tables : (r.chains.map (·.table)).Nodup
  owned : ∀ c ∈ r.chains, ∀ rule ∈ c.rules, OwnedRule rule

theorem compile_compiled {policy : Policy} {r : Ruleset} (h : compile policy = .ok r)
    (hnames : ∀ t ∈ policy.tunnels, interfaceNameOk t.interface = true) : r.Compiled := by
  obtain ⟨clients, tunnels, b, hclients, hperm, hb, rfl⟩ := compile_eq_ok h
  have hclient : ∀ c ∈ clients, Plain c :=
    fun c hc => plain_of_canonical (canonicalPrefixes_canonical hclients hc)
  have hdest : ∀ t ∈ tunnels, ∀ d ∈ destinationsOf t, Plain d :=
    fun t ht d hd => plain_of_canonical (canonicalPrefixes_canonical (hb.canonical t ht) hd)
  have hiface : ∀ t ∈ tunnels, Plain t.interface :=
    fun t ht => plain_of_name (hnames t (hperm.mem_iff.mp ht))
  refine ⟨by simp [assemble, Dedicated, dedicatedChains], by simp [assemble], ?_⟩
  intro c hc rule hrule
  simp only [assemble, List.mem_cons, List.not_mem_nil, or_false] at hc
  rcases hc with rfl | rfl | rfl
  · simp only [List.mem_append, mem_sortStrings, hb.filter, hb.drops, terminalDrops,
      List.mem_flatMap, List.mem_map, List.mem_cons, List.not_mem_nil, or_false] at hrule
    rcases hrule with (⟨t, ht, x, hx, rfl | rfl⟩ | ⟨c, hc, rfl | rfl⟩) | ⟨t, ht, d, hd, rfl⟩
    · obtain ⟨hxc, hxd⟩ := List.mem_product.mp hx
      exact ⟨_, _, owned_forward (hclient _ hxc) (hdest t ht _ hxd) (hiface t ht)⟩
    · obtain ⟨hxc, hxd⟩ := List.mem_product.mp hx
      exact ⟨_, _, owned_return (hclient _ hxc) (hdest t ht _ hxd) (hiface t ht)⟩
    · exact ⟨_, _, owned_sourceDrop (hclient c hc)⟩
    · exact ⟨_, _, owned_targetDrop (hclient c hc)⟩
    · exact ⟨_, _, owned_destinationDrop (hdest t ht d hd) (hiface t ht)⟩
  · simp only [mem_sortStrings, hb.nat, List.mem_flatMap, List.mem_map] at hrule
    obtain ⟨t, ht, x, hx, rfl⟩ := hrule
    obtain ⟨hxc, hxd⟩ := List.mem_product.mp hx
    exact ⟨_, _, owned_masquerade (hclient _ hxc) (hdest t ht _ hxd) (hiface t ht)⟩
  · simp only [mem_sortStrings, hb.mangle, List.mem_flatMap, List.mem_map] at hrule
    obtain ⟨t, ht, x, hx, rfl⟩ := hrule
    obtain ⟨hxc, hxd⟩ := List.mem_product.mp hx
    exact ⟨_, _, owned_clamp (hclient _ hxc) (hdest t ht _ hxd) (hiface t ht)⟩

theorem guard_compiled {sorted : List MarkGuard} (hnames : ∀ g ∈ sorted, Plain g.interface)
    (rules : List String) (hrules : ∀ rule ∈ rules, rule ∈ loopbackRule :: sorted.map guardRule) :
    Ruleset.Compiled ⟨[outputChainWith rules]⟩ := by
  refine ⟨by simp [outputChainWith, Dedicated, dedicatedChains], by simp, ?_⟩
  intro c hc rule hrule
  rw [List.mem_singleton.mp hc] at hrule
  rcases List.mem_cons.mp (hrules rule hrule) with rfl | hmem
  · exact ⟨_, _, owned_loopback⟩
  · obtain ⟨g, hg, rfl⟩ := List.mem_map.mp hmem
    exact ⟨_, _, owned_guard (hnames g hg)⟩

end Firewall

end SakhtarWg
