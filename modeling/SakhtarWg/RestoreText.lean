import SakhtarWg.ChainInterruption
import SakhtarWg.CompiledRules

/-!
# Reading a transaction back

The text handed to `iptables-restore`, read line by line. Rule bodies are assembled from interface
names that only have to be free of white space and quotes, and from prefixes; the reader recovers
the chains they were assembled for.
-/

namespace SakhtarWg.Firewall
open Text Fallible

/-! ## The reader -/

/-- One line of a transaction. -/
inductive Directive
  | table (name : String)
  | declare (chain policy : String)
  | flush (chain : String)
  | append (chain rule : String)
  | commit
  deriving DecidableEq

def readDirective : List Char → Option Directive
  | '*' :: table => some (.table (String.ofList table))
  | ':' :: declaration =>
    (cut ' ' declaration).map fun p => .declare (String.ofList p.1) (String.ofList p.2)
  | '-' :: 'F' :: ' ' :: chain => some (.flush (String.ofList chain))
  | '-' :: 'A' :: ' ' :: rest =>
    (cut ' ' rest).map fun p => .append (String.ofList p.1) (String.ofList p.2)
  | line => if line = "COMMIT".toList then some .commit else none

/-- What a transaction says between a table header and its `COMMIT`, in the order of the lines. -/
structure Block where
  table : String
  declared : List (String × String)
  flushed : List String
  appended : List (String × String)
  deriving DecidableEq

/-- The blocks that are closed and the one that is open. -/
abbrev Reading := List Block × Option Block

def Reading.next : Reading → Directive → Option Reading
  | (done, none), .table name => some (done, some ⟨name, [], [], []⟩)
  | (done, some b), .declare chain policy =>
    some (done, some { b with declared := b.declared ++ [(chain, policy)] })
  | (done, some b), .flush chain => some (done, some { b with flushed := b.flushed ++ [chain] })
  | (done, some b), .append chain rule =>
    some (done, some { b with appended := b.appended ++ [(chain, rule)] })
  | (done, some b), .commit => some (done ++ [b], none)
  | _, _ => none

/-- A header, a command outside a block or a block without its `COMMIT` is refused; empty lines
are skipped. -/
def readTransaction (text : String) : Option (List Block) := do
  let directives ← ((splitOn '\n' text.toList).filter (· ≠ [])).mapM readDirective
  let (done, pending) ← directives.foldlM Reading.next ([], none)
  if pending = none then some done else none

/-! ## The chains of a transaction -/

/-- The block that replaces a chain. -/
def Chain.block (c : Chain) : Block :=
  ⟨c.table, [(c.name, "- [0:0]")], [c.name], c.rules.map fun rule => (c.name, rule)⟩

def Chain.directives (c : Chain) : List Directive :=
  .table c.table :: .declare c.name "- [0:0]" :: .flush c.name ::
    c.rules.map (Directive.append c.name) ++ [.commit]

theorem mapM_append_some {α β : Type} {f : α → Option β} {l m : List α} {l' m' : List β}
    (hl : l.mapM f = some l') (hm : m.mapM f = some m') : (l ++ m).mapM f = some (l' ++ m') := by
  rw [List.mapM_append, hl, hm]
  rfl

/-- Every line of a printable chain says one thing. -/
theorem Chain.mapM_restoreLines {c : Chain} (h : c.Printable) :
    c.restoreLines.mapM readDirective = some c.directives := by
  have hdeclare : readDirective (':' :: c.name.toList ++ " - [0:0]".toList) =
      some (.declare c.name "- [0:0]") := by
    have hcut := cut_append ' ' c.name.toList "- [0:0]".toList h.blank
    have hline : ':' :: c.name.toList ++ " - [0:0]".toList =
        ':' :: (c.name.toList ++ ' ' :: "- [0:0]".toList) := by simp
    rw [hline]
    simp only [readDirective, hcut, Option.map_some, String.ofList_toList]
  have happend : ∀ rules : List String,
      (rules.map fun rule => "-A ".toList ++ c.name.toList ++ ' ' :: rule.toList).mapM
        readDirective = some (rules.map (Directive.append c.name)) := by
    intro rules
    induction rules with
    | nil => rfl
    | cons rule rules ih =>
      have hcut := cut_append ' ' c.name.toList rule.toList h.blank
      have hline : "-A ".toList ++ c.name.toList ++ ' ' :: rule.toList =
          '-' :: 'A' :: ' ' :: (c.name.toList ++ ' ' :: rule.toList) := by simp
      rw [List.map_cons, List.mapM_cons, ih, hline]
      simp only [readDirective, hcut, Option.map_some, String.ofList_toList]
      rfl
  have hheader : [('*' :: c.table.toList), ':' :: c.name.toList ++ " - [0:0]".toList,
      "-F ".toList ++ c.name.toList].mapM readDirective =
        some [.table c.table, .declare c.name "- [0:0]", .flush c.name] := by
    have hflush : "-F ".toList ++ c.name.toList = '-' :: 'F' :: ' ' :: c.name.toList := by simp
    rw [List.mapM_cons, List.mapM_cons, hdeclare, hflush]
    simp [readDirective]
  have hcommit : ["COMMIT".toList].mapM readDirective = some [.commit] := by decide
  have hlines := mapM_append_some (mapM_append_some hheader (happend c.rules)) hcommit
  simpa [restoreLines, directives] using hlines

theorem Reading.appends (done : List Block) (b : Block) (chain : String) (rules : List String) :
    (rules.map (Directive.append chain)).foldlM Reading.next (done, some b) =
      some (done, some { b with appended := b.appended ++ rules.map fun rule => (chain, rule) }) := by
  induction rules generalizing b with
  | nil => simp
  | cons rule rules ih =>
    rw [List.map_cons, List.foldlM_cons]
    simp only [Reading.next, Option.bind_eq_bind, Option.bind_some]
    rw [ih]
    simp

theorem Chain.foldlM_directives (c : Chain) (done : List Block) :
    c.directives.foldlM Reading.next (done, none) = some (done ++ [c.block], none) := by
  unfold directives
  simp only [List.cons_append, List.foldlM_cons, Reading.next, Option.bind_eq_bind,
    Option.bind_some, List.foldlM_append, Reading.appends]
  simp [block]

/-- A printable ruleset is read back block by block. -/
theorem Ruleset.readTransaction_restoreInput {r : Ruleset} (h : ∀ c ∈ r.chains, c.Printable) :
    readTransaction r.restoreInput = some (r.chains.map Chain.block) := by
  have hlines : ∀ line ∈ r.chains.flatMap Chain.restoreLines, '\n' ∉ line ∧ line ≠ [] := by
    intro line hline
    obtain ⟨c, hc, hline⟩ := List.mem_flatMap.mp hline
    refine ⟨Chain.newline_not_mem_restoreLines (h c hc) line hline, ?_⟩
    simp only [Chain.restoreLines, List.cons_append, List.mem_cons, List.mem_append, List.mem_map,
      List.not_mem_nil, or_false] at hline
    rcases hline with rfl | rfl | rfl | ⟨rule, -, rfl⟩ | rfl <;> simp
  have hfilter : (r.chains.flatMap Chain.restoreLines ++ [[]]).filter (· ≠ []) =
      r.chains.flatMap Chain.restoreLines := by
    rw [List.filter_append, List.filter_eq_self.mpr fun line hline => by
      simpa using (hlines line hline).2]
    simp
  have hread : (r.chains.flatMap Chain.restoreLines).mapM readDirective =
      some (r.chains.flatMap Chain.directives) := by
    revert h
    induction r.chains with
    | nil => exact fun _ => rfl
    | cons c cs ih =>
      intro h
      rw [List.flatMap_cons, List.flatMap_cons]
      exact mapM_append_some (Chain.mapM_restoreLines (h c (by simp)))
        (ih fun d hd => h d (by simp [hd]))
  have hblocks : ∀ (chains : List Chain) (done : List Block),
      (chains.flatMap Chain.directives).foldlM Reading.next (done, none) =
        some (done ++ chains.map Chain.block, none) := by
    intro chains
    induction chains with
    | nil => simp
    | cons c cs ih =>
      intro done
      rw [List.flatMap_cons, List.foldlM_append, Chain.foldlM_directives]
      simp only [Option.bind_eq_bind, Option.bind_some]
      rw [ih]
      simp
  unfold readTransaction
  rw [Ruleset.restoreInput_toList, splitOn_unlines fun line hline => (hlines line hline).1, hfilter,
    hread]
  simp only [Option.bind_eq_bind, Option.bind_some]
  rw [hblocks]
  simp

/-! ## Admitted texts stay on their line -/

theorem newline_not_mem_unwords {ws : List String} (h : ∀ w ∈ ws, '\n' ∉ w.toList) :
    '\n' ∉ (unwords ws).toList := by
  induction ws with
  | nil => decide
  | cons w ws ih =>
    cases ws with
    | nil => exact h w (by simp)
    | cons v vs =>
      rw [unwords_toList_cons]
      have hrest := ih fun u hu => h u (by simp [hu])
      simp [h w (by simp), hrest]

theorem validInterface_newline {name : String} (h : validInterface name = .ok ()) :
    '\n' ∉ name.toList := by
  unfold validInterface at h
  rw [require_eq_ok] at h
  intro hmem
  have hany : containsAny name [' ', '\t', '\r', '\n', '"', '\''] = true :=
    List.any_eq_true.mpr ⟨'\n', hmem, by decide⟩
  simp [hany] at h

theorem canonical_newline {s : String} (h : IsCanonical s) : '\n' ∉ s.toList := fun hmem =>
  absurd (h.isWord.2 _ hmem) (by decide)

theorem markSelector_newline (mark mask : BitVec 32) : '\n' ∉ (markSelector mark mask).toList :=
  fun hmem => absurd ((markSelector_isWord mark mask).2 _ hmem) (by decide)

/-- The tunnels of a compiled policy passed the check of their names. -/
theorem compile_validInterface {policy : Policy} {r : Ruleset} (h : compile policy = .ok r) :
    ∀ t ∈ policy.tunnels, validInterface t.interface = .ok () := by
  unfold compile at h
  simp only [bind_eq_ok, pure_eq_ok, mapError_eq_ok] at h
  obtain ⟨clients, -, b, hb, -⟩ := h
  have hall := foldlM_ok (f := Build.tunnel clients)
    (P := fun done _ => ∀ t ∈ done, validInterface t.interface = .ok ()) (by simp) (by
      intro done t b b' hdone ht u hu
      unfold Build.tunnel at ht
      simp only [bind_eq_ok] at ht
      obtain ⟨_, hvalid, -⟩ := ht
      rcases List.mem_append.mp hu with hu | hu
      · exact hdone u hu
      · rw [List.mem_singleton.mp hu]
        exact hvalid) hb
  intro t ht
  exact hall t ((List.perm_insertionSort _ _).mem_iff.mpr ht)

theorem compileEgressGuard_validInterface {guards : List MarkGuard} {chain : Chain}
    (h : compileEgressGuard guards = .ok chain) :
    ∀ g ∈ guards, validInterface g.interface = .ok () := by
  unfold compileEgressGuard at h
  split at h
  · rename_i hnil
    simp [hnil]
  · simp only [bind_eq_ok, pure_eq_ok] at h
    obtain ⟨acc, hacc, -⟩ := h
    have hall := foldlM_ok (f := appendGuard)
      (P := fun done _ => ∀ g ∈ done, validInterface g.interface = .ok ()) (by simp) (by
        intro done g acc acc' hdone hg u hu
        unfold appendGuard at hg
        simp only [bind_eq_ok] at hg
        obtain ⟨_, hvalid, -⟩ := hg
        rcases List.mem_append.mp hu with hu | hu
        · exact hdone u hu
        · rw [List.mem_singleton.mp hu]
          exact hvalid) hacc
    intro g hg
    exact hall g ((List.perm_insertionSort _ _).mem_iff.mpr hg)

/-- The words of a rule that are not names, prefixes or marks. -/
def optionWords : List String :=
  ["!", "-s", "-d", "-o", "-i", "-p", "tcp", "-m", "conntrack", "--ctstate", "RELATED,ESTABLISHED",
    "--tcp-flags", "SYN,RST", "SYN", "comment", "--comment", ownerComment, "-j", "ACCEPT",
    "MASQUERADE", "TCPMSS", "--clamp-mss-to-pmtu", "DROP", "mark", "--mark", "REJECT",
    "--reject-with", "icmp-port-unreachable", "RETURN", "lo"]

theorem newline_not_mem_rule {given ws : List String} (hgiven : ∀ w ∈ given, '\n' ∉ w.toList)
    (h : ∀ w ∈ ws, w ∈ given ∨ w ∈ optionWords) : '\n' ∉ (unwords ws).toList := by
  have hfixed : ∀ w ∈ optionWords, '\n' ∉ w.toList := by decide +kernel
  apply newline_not_mem_unwords
  intro w hw
  exact (h w hw).elim (hgiven w) (hfixed w)

section
variable {c d i : String}

/-- The rules a compiler assembles from texts without newlines. -/
theorem newline_not_mem_rules (h : ∀ w ∈ [c, d, i], '\n' ∉ w.toList) : ∀ rule ∈
    [forwardRule c d i, returnRule c d i, masqueradeRule c d i, clampRule c d i, sourceDropRule c,
      targetDropRule c, destinationDropRule d i], '\n' ∉ rule.toList := by
  rw [forwardRule_eq, returnRule_eq, masqueradeRule_eq, clampRule_eq, sourceDropRule_eq,
    targetDropRule_eq, destinationDropRule_eq]
  intro rule hrule
  simp only [List.mem_cons, List.not_mem_nil, or_false] at hrule
  rcases hrule with rfl | rfl | rfl | rfl | rfl | rfl | rfl <;>
    exact newline_not_mem_rule h (by simp [optionWords])

end

theorem newline_not_mem_guardRule {g : MarkGuard} (hi : '\n' ∉ g.interface.toList) :
    '\n' ∉ (guardRule g).toList := by
  rw [guardRule_eq]
  refine @newline_not_mem_rule [g.interface, markSelector g.mark g.mask] _ ?_ (by simp [optionWords])
  simp [hi, markSelector_newline]

theorem newline_not_mem_loopbackRule : '\n' ∉ loopbackRule.toList := by
  rw [loopbackRule_eq]
  exact @newline_not_mem_rule [] _ (by simp) (by simp [optionWords])

theorem compile_printable {policy : Policy} {r : Ruleset} (h : compile policy = .ok r) :
    ∀ c ∈ r.chains, c.Printable := by
  have hvalid := compile_validInterface h
  obtain ⟨clients, tunnels, b, hclients, hperm, hb, rfl⟩ := compile_eq_ok h
  have hclient : ∀ c ∈ clients, '\n' ∉ c.toList :=
    fun c hc => canonical_newline (canonicalPrefixes_canonical hclients hc)
  have hdest : ∀ t ∈ tunnels, ∀ d ∈ destinationsOf t, '\n' ∉ d.toList :=
    fun t ht d hd => canonical_newline (canonicalPrefixes_canonical (hb.canonical t ht) hd)
  have hiface : ∀ t ∈ tunnels, '\n' ∉ t.interface.toList :=
    fun t ht => validInterface_newline (hvalid t (hperm.mem_iff.mp ht))
  -- the rules of one tunnel and one pair of prefixes
  have hrule : ∀ t ∈ tunnels, ∀ x ∈ clients ×ˢ destinationsOf t, ∀ rule ∈
      [forwardRule x.1 x.2 t.interface, returnRule x.1 x.2 t.interface,
        masqueradeRule x.1 x.2 t.interface, clampRule x.1 x.2 t.interface, sourceDropRule x.1,
        targetDropRule x.1, destinationDropRule x.2 t.interface], '\n' ∉ rule.toList := by
    intro t ht x hx
    obtain ⟨hxc, hxd⟩ := List.mem_product.mp hx
    apply newline_not_mem_rules
    simp [hclient _ hxc, hdest t ht _ hxd, hiface t ht]
  intro c hc
  simp only [assemble, List.mem_cons, List.not_mem_nil, or_false] at hc
  rcases hc with rfl | rfl | rfl
  · refine ⟨(by decide : '\n' ∉ "filter".toList), (by decide : '\n' ∉ filterChain.toList),
      (by decide : ' ' ∉ filterChain.toList), fun rule hmem => ?_⟩
    simp only [List.mem_append, mem_sortStrings, hb.filter, hb.drops, terminalDrops,
      List.mem_flatMap, List.mem_map, List.mem_cons, List.not_mem_nil, or_false] at hmem
    rcases hmem with (⟨t, ht, x, hx, rfl | rfl⟩ | ⟨c, hc, rfl | rfl⟩) | ⟨t, ht, d, hd, rfl⟩
    · exact hrule t ht x hx _ (by simp)
    · exact hrule t ht x hx _ (by simp)
    · exact @newline_not_mem_rules c c c (by simp [hclient c hc]) _ (by simp)
    · exact @newline_not_mem_rules c c c (by simp [hclient c hc]) _ (by simp)
    · exact @newline_not_mem_rules d d t.interface (by simp [hdest t ht d hd, hiface t ht]) _
        (by simp)
  · refine ⟨(by decide : '\n' ∉ "nat".toList), (by decide : '\n' ∉ natChain.toList),
      (by decide : ' ' ∉ natChain.toList), fun rule hmem => ?_⟩
    simp only [mem_sortStrings, hb.nat, List.mem_flatMap, List.mem_map] at hmem
    obtain ⟨t, ht, x, hx, rfl⟩ := hmem
    exact hrule t ht x hx _ (by simp)
  · refine ⟨(by decide : '\n' ∉ "mangle".toList), (by decide : '\n' ∉ mangleChain.toList),
      (by decide : ' ' ∉ mangleChain.toList), fun rule hmem => ?_⟩
    simp only [mem_sortStrings, hb.mangle, List.mem_flatMap, List.mem_map] at hmem
    obtain ⟨t, ht, x, hx, rfl⟩ := hmem
    exact hrule t ht x hx _ (by simp)

theorem compileEgressGuard_printable {guards : List MarkGuard} {chain : Chain}
    (h : compileEgressGuard guards = .ok chain) : chain.Printable := by
  have hvalid := compileEgressGuard_validInterface h
  obtain ⟨sorted, hperm, -, rfl⟩ := compileEgressGuard_eq_ok h
  refine ⟨(by decide : '\n' ∉ "filter".toList), (by decide : '\n' ∉ outputChain.toList),
    (by decide : ' ' ∉ outputChain.toList), fun rule hmem => ?_⟩
  by_cases hnil : guards = []
  · simp [outputChainWith, hnil] at hmem
  · simp only [outputChainWith, if_neg hnil, List.mem_cons, List.mem_map] at hmem
    rcases hmem with rfl | ⟨g, hg, rfl⟩
    · exact newline_not_mem_loopbackRule
    · exact newline_not_mem_guardRule (validInterface_newline (hvalid g (hperm.mem_iff.mp hg)))

/-! ## What the transaction says -/

/-- The rulesets whose text is handed to `iptables-restore`. -/
def Returned (r : Ruleset) : Prop :=
  (∃ policy, compile policy = .ok r) ∨
    ∃ guards chain, compileEgressGuard guards = .ok chain ∧ r = ⟨[chain]⟩

theorem Returned.printable {r : Ruleset} (h : Returned r) : ∀ c ∈ r.chains, c.Printable := by
  rcases h with ⟨policy, h⟩ | ⟨guards, chain, h, rfl⟩
  · exact compile_printable h
  · simpa using compileEgressGuard_printable h

theorem Returned.tables_nodup {r : Ruleset} (h : Returned r) : (r.chains.map (·.table)).Nodup := by
  rcases h with ⟨policy, h⟩ | ⟨guards, chain, h, rfl⟩
  · obtain ⟨clients, tunnels, b, -, -, -, rfl⟩ := compile_eq_ok h
    simp [assemble]
  · simp

/-- The transaction says the chains of its ruleset with their rules in order, each rule on one line,
and names no other chain; carried out without a flush, it replaces the bodies of these chains and
leaves every other chain as it was. -/
theorem restoreInput_says_ruleset {r : Ruleset} (h : Returned r) :
    readTransaction r.restoreInput = some (r.chains.map Chain.block) ∧
    ∀ fw : Tables, ∃ fw' : Tables, fw.restore r.restoreInput = some fw' ∧
      (∀ c ∈ r.chains, fw'.lookup (c.table, c.name) = some c.rules) ∧
      ∀ table chain, (∀ c ∈ r.chains, (table, chain) ≠ (c.table, c.name)) →
        fw'.lookup (table, chain) = fw.lookup (table, chain) := by
  refine ⟨Ruleset.readTransaction_restoreInput h.printable, fun fw => ?_⟩
  refine ⟨fw.replace r.chains, Tables.restore_ruleset fw h.printable, fun c hc => ?_, ?_⟩
  · exact Tables.lookup_replace fw h.tables_nodup hc
  · intro table chain hne
    exact Tables.lookup_replace_of_notMem fw r.chains (table, chain) hne

/-- A policy whose interface names hold what looks like options and comments. -/
def oddPolicy : Policy := ⟨["10.0.0.0/24"], [⟨"-A;#x", ["192.0.2.0/24"]⟩]⟩

theorem restoreInput_says_odd_ruleset : ∃ r, compile oddPolicy = .ok r ∧ r.chains.length = 3 ∧
    readTransaction r.restoreInput = some (r.chains.map Chain.block) := by
  obtain ⟨r, hr⟩ : ∃ r, compile oddPolicy = .ok r := exists_ok_iff.mpr (by decide +kernel)
  obtain ⟨clients, tunnels, b, -, -, -, hshape⟩ := compile_eq_ok hr
  exact ⟨r, hr, by simp [hshape, assemble], (restoreInput_says_ruleset (.inl ⟨_, hr⟩)).1⟩

end SakhtarWg.Firewall
