import Mathlib.Data.List.AList
import SakhtarWg.FirewallPlan

/-!
# The packet filter

The chains of every table with their rules as texts, and the commands the daemon
changes them with: `iptables -S`, `-I`, `-D` and `iptables-restore --noflush`.
-/

namespace SakhtarWg.Firewall
open Text

/-- The rules of each chain, by table and chain. -/
abbrev Tables := AList fun _ : String × String => List String

/-- The rule of a hook that jumps to a dedicated chain. -/
def jumpRule (comment target : String) : String :=
  "-m comment --comment " ++ comment ++ " -j " ++ target

/-- `strings.Trim` with a quotation mark. -/
def trimQuotes (w : String) : String :=
  String.ofList ((w.toList.dropWhile (· = '"')).reverse.dropWhile (· = '"')).reverse

def jumpsToWords (chain : String) : List String → Bool
  | w :: v :: rest => (w = "-j" && trimQuotes v = chain) || jumpsToWords chain (v :: rest)
  | _ => false

def jumpsTo (rule chain : String) : Bool := jumpsToWords chain (stringFields rule)

namespace Tables

variable (fw : Tables)

/-- The rule lines `iptables -S` prints for a chain. -/
def listRules (table chain : String) : Option (List String) :=
  (fw.lookup (table, chain)).map fun rules => rules.map fun rule => "-A " ++ chain ++ " " ++ rule

/-- `iptables -I hook 1`: both the hook and the target have to exist. -/
def insertJump (table hook comment target : String) : Option Tables :=
  match fw.lookup (table, hook), fw.lookup (table, target) with
  | some rules, some _ => some (fw.insert (table, hook) (jumpRule comment target :: rules))
  | _, _ => none

/-- `iptables -D` by specification removes the first match. -/
def deleteJump (table hook comment target : String) : Option Tables :=
  match fw.lookup (table, hook) with
  | some rules =>
    if jumpRule comment target ∈ rules then
      some (fw.insert (table, hook) (rules.erase (jumpRule comment target)))
    else none
  | none => none

/-- Some rule of the table jumps to the chain. -/
def referenced (table chain : String) : Bool :=
  fw.entries.any fun e => e.1.1 = table && e.2.any fun rule => jumpsTo rule chain

/-- `-F`. -/
def flush (table chain : String) : Option Tables :=
  if (fw.lookup (table, chain)).isSome then some (fw.insert (table, chain) []) else none

/-- `-X`: the chain has to be empty and without references. -/
def deleteChain (table chain : String) : Option Tables :=
  if fw.lookup (table, chain) = some [] ∧ fw.referenced table chain = false then
    some (fw.erase (table, chain))
  else none

/-- `-A`. -/
def append (table chain rule : String) : Option Tables :=
  (fw.lookup (table, chain)).map fun rules => fw.insert (table, chain) (rules ++ [rule])

/-- One line of a transaction, with the table it is about. A declared chain starts empty. -/
def restoreLine (s : String × Tables) (line : List Char) : Option (String × Tables) :=
  match line with
  | [] => some s
  | '*' :: table => some (String.ofList table, s.2)
  | ':' :: decl => (cut ' ' decl).map fun p => (s.1, s.2.insert (s.1, String.ofList p.1) [])
  | '-' :: 'F' :: ' ' :: chain => (s.2.flush s.1 (String.ofList chain)).map fun fw => (s.1, fw)
  | '-' :: 'X' :: ' ' :: chain =>
    (s.2.deleteChain s.1 (String.ofList chain)).map fun fw => (s.1, fw)
  | '-' :: 'A' :: ' ' :: rest =>
    (cut ' ' rest).bind fun p =>
      (s.2.append s.1 (String.ofList p.1) (String.ofList p.2)).map fun fw => (s.1, fw)
  | _ => if line = "COMMIT".toList then some s else none

/-- `iptables-restore`: every line is carried out, or nothing is. -/
def restore (input : String) : Option Tables :=
  ((splitOn '\n' input.toList).foldlM restoreLine ("", fw)).map (·.2)

end Tables

/-! ## Transactions by line -/

/-- The lines, each ended by a newline. -/
def unlines (lines : List (List Char)) : List Char := lines.flatMap fun line => line ++ ['\n']

theorem splitOn_unlines {lines : List (List Char)} (h : ∀ line ∈ lines, '\n' ∉ line) :
    splitOn '\n' (unlines lines) = lines ++ [[]] := by
  induction lines with
  | nil => rfl
  | cons line lines ih =>
    have hline := h line (by simp)
    have hrest := ih fun l hl => h l (by simp [hl])
    have hcons : unlines (line :: lines) = line ++ '\n' :: unlines lines := by simp [unlines]
    rw [hcons, splitOn_append '\n' _ _ hline, hrest]
    rfl

/-- The lines of the transaction that replaces a chain. -/
def Chain.restoreLines (c : Chain) : List (List Char) :=
  ('*' :: c.table.toList) :: (':' :: c.name.toList ++ " - [0:0]".toList) ::
    ("-F ".toList ++ c.name.toList) ::
    c.rules.map (fun rule => "-A ".toList ++ c.name.toList ++ ' ' :: rule.toList) ++
    ["COMMIT".toList]

theorem Chain.restoreInput_toList (c : Chain) :
    c.restoreInput.toList = unlines c.restoreLines := by
  have hrules : ∀ rules : List String,
      (String.join (rules.map fun rule => "-A " ++ c.name ++ " " ++ rule ++ "\n")).toList =
        unlines (rules.map fun rule => "-A ".toList ++ c.name.toList ++ ' ' :: rule.toList) := by
    intro rules
    rw [String.toList_join]
    induction rules with
    | nil => rfl
    | cons rule rules ih =>
      simp only [List.map_cons, List.flatMap_cons, unlines] at ih ⊢
      rw [ih]
      simp
  unfold restoreInput restoreLines
  simp only [String.toList_append, hrules]
  simp [unlines]

theorem Ruleset.restoreInput_toList (r : Ruleset) :
    r.restoreInput.toList = unlines (r.chains.flatMap Chain.restoreLines) := by
  rw [restoreInput, String.toList_join]
  induction r.chains with
  | nil => rfl
  | cons c cs ih =>
    rw [List.map_cons, List.flatMap_cons, ih, Chain.restoreInput_toList]
    simp [unlines]

/-! ## Replacing chains -/

/-- The texts of a chain fit on the lines of a transaction. -/
structure Chain.Printable (c : Chain) : Prop where
  table : '\n' ∉ c.table.toList
  name : '\n' ∉ c.name.toList
  blank : ' ' ∉ c.name.toList
  rules : ∀ rule ∈ c.rules, '\n' ∉ rule.toList

def Tables.replace (fw : Tables) (chains : List Chain) : Tables :=
  chains.foldl (fun fw c => fw.insert (c.table, c.name) c.rules) fw

theorem Chain.newline_not_mem_restoreLines {c : Chain} (h : c.Printable) :
    ∀ line ∈ c.restoreLines, '\n' ∉ line := by
  have hname := h.name
  have htable := h.table
  intro line hline
  simp only [restoreLines, List.cons_append, List.mem_cons, List.mem_append, List.mem_map,
    List.not_mem_nil, or_false] at hline
  rcases hline with rfl | rfl | rfl | ⟨rule, hrule, rfl⟩ | rfl
  · simp [htable]
  · simp [hname]
  · simp [hname]
  · simp [hname, h.rules rule hrule]
  · decide

theorem Tables.restoreLine_append {fw : Tables} {table chain : String} {rules : List String}
    (hblank : ' ' ∉ chain.toList) (h : fw.lookup (table, chain) = some rules) (rule : String) :
    restoreLine (table, fw) ("-A ".toList ++ chain.toList ++ ' ' :: rule.toList) =
      some (table, fw.insert (table, chain) (rules ++ [rule])) := by
  have hcut := cut_append ' ' chain.toList rule.toList hblank
  have hline : "-A ".toList ++ chain.toList ++ ' ' :: rule.toList =
      '-' :: 'A' :: ' ' :: (chain.toList ++ ' ' :: rule.toList) := by simp
  rw [hline]
  simp only [restoreLine, hcut, Option.bind_some]
  rw [String.ofList_toList, String.ofList_toList, Tables.append, h]
  rfl

/-- Appending the rules one by one. -/
theorem Tables.foldlM_append {table chain : String} (hblank : ' ' ∉ chain.toList)
    (rules done : List String) (fw : Tables) :
    (rules.map fun rule => "-A ".toList ++ chain.toList ++ ' ' :: rule.toList).foldlM restoreLine
        (table, fw.insert (table, chain) done) =
      some (table, fw.insert (table, chain) (done ++ rules)) := by
  induction rules generalizing done with
  | nil => simp
  | cons rule rules ih =>
    rw [List.map_cons, List.foldlM_cons,
      restoreLine_append hblank (AList.lookup_insert _) rule]
    simp only [Option.bind_eq_bind, Option.bind_some, AList.insert_insert]
    rw [ih]
    simp

theorem Tables.restoreLine_commit (s : String × Tables) :
    restoreLine s "COMMIT".toList = some s := by
  have hline : "COMMIT".toList = ['C', 'O', 'M', 'M', 'I', 'T'] := by simp
  unfold restoreLine
  rw [hline]
  exact if_pos hline.symm

theorem Chain.foldlM_restoreLines {c : Chain} (h : c.Printable) (s : String × Tables) :
    c.restoreLines.foldlM Tables.restoreLine s =
      some (c.table, s.2.insert (c.table, c.name) c.rules) := by
  have hdecl : Tables.restoreLine (c.table, s.2) (':' :: c.name.toList ++ " - [0:0]".toList) =
      some (c.table, s.2.insert (c.table, c.name) []) := by
    have hcut := cut_append ' ' c.name.toList "- [0:0]".toList h.blank
    have hline : ':' :: c.name.toList ++ " - [0:0]".toList =
        ':' :: (c.name.toList ++ ' ' :: "- [0:0]".toList) := by simp
    rw [hline]
    simp only [Tables.restoreLine, hcut, Option.map_some]
    rw [String.ofList_toList]
  have hflush : Tables.restoreLine (c.table, s.2.insert (c.table, c.name) [])
      ("-F ".toList ++ c.name.toList) = some (c.table, s.2.insert (c.table, c.name) []) := by
    have hline : "-F ".toList ++ c.name.toList = '-' :: 'F' :: ' ' :: c.name.toList := by simp
    rw [hline]
    simp [Tables.restoreLine, Tables.flush, AList.insert_insert]
  unfold restoreLines
  simp only [List.cons_append, List.foldlM_cons, List.foldlM_append]
  rw [show Tables.restoreLine s ('*' :: c.table.toList) = some (c.table, s.2) by
    simp [Tables.restoreLine]]
  simp only [Option.bind_eq_bind, Option.bind_some]
  rw [show ':' :: (c.name.toList ++ " - [0:0]".toList) =
    ':' :: c.name.toList ++ " - [0:0]".toList by simp, hdecl]
  simp only [Option.bind_some]
  rw [hflush]
  simp only [Option.bind_some]
  rw [Tables.foldlM_append h.blank]
  simp only [List.nil_append, Option.bind_some, Tables.restoreLine_commit, List.foldlM_nil]
  rfl

/-- The transaction of a ruleset replaces its chains. -/
theorem Tables.restore_ruleset (fw : Tables) {r : Ruleset} (h : ∀ c ∈ r.chains, c.Printable) :
    fw.restore r.restoreInput = some (fw.replace r.chains) := by
  have hlines : ∀ line ∈ r.chains.flatMap Chain.restoreLines, '\n' ∉ line := by
    intro line hline
    obtain ⟨c, hc, hline⟩ := List.mem_flatMap.mp hline
    exact Chain.newline_not_mem_restoreLines (h c hc) line hline
  have hfold : ∀ (chains : List Chain) (s : String × Tables), (∀ c ∈ chains, c.Printable) →
      ∃ table, (chains.flatMap Chain.restoreLines).foldlM restoreLine s =
        some (table, s.2.replace chains) := by
    intro chains
    induction chains with
    | nil => exact fun s _ => ⟨s.1, rfl⟩
    | cons c cs ih =>
      intro s hcs
      rw [List.flatMap_cons, List.foldlM_append, Chain.foldlM_restoreLines (hcs c (by simp))]
      exact ih _ fun c hc => hcs c (by simp [hc])
  obtain ⟨table, hfold⟩ := hfold r.chains ("", fw) h
  rw [restore, Ruleset.restoreInput_toList, splitOn_unlines hlines, List.foldlM_append, hfold]
  rfl

end SakhtarWg.Firewall
