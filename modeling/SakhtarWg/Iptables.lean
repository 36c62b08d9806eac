import SakhtarWg.Prefix

/-!
# Packet filter chains

The fragment of the `iptables` rule language that appears in the development:
how a rule text is read, which packets it matches, and first-match evaluation of
a chain. It knows nothing about who writes the rules.
-/

namespace SakhtarWg.Iptables
open Text Netip

inductive CtState
  | new | established | related | invalid | untracked
  deriving DecidableEq, Repr

inductive TcpFlag
  | fin | syn | rst | psh | ack | urg
  deriving DecidableEq, Repr

/-- The part of a packet the rules look at; `tcp` is absent for other protocols. -/
structure Packet where
  src : BitVec 32
  dst : BitVec 32
  inIface : String
  outIface : String
  mark : BitVec 32
  state : CtState
  tcp : Option (List TcpFlag)
  deriving DecidableEq

inductive Target
  | accept | drop | return | masquerade | clampMss | reject (code : String)
  deriving DecidableEq

inductive Match
  | source (p : Prefix)
  | destination (p : Prefix)
  | inIface (name : String)
  | outIface (inverted : Bool) (name : String)
  | tcp
  | tcpFlags (examined set : List TcpFlag)
  | ctstate (states : List CtState)
  | mark (value mask : BitVec 32)
  | comment (text : String)
  deriving DecidableEq

structure Rule where
  conditions : List Match
  target : Target
  deriving DecidableEq

/-! ## Matching -/

/-- A trailing `+` in the pattern matches any continuation of the name. -/
def ifaceMatches (pattern name : String) : Bool :=
  match pattern.toList.reverse with
  | '+' :: stem => stem.reverse.isPrefixOf name.toList
  | _ => pattern = name

def Match.holds (p : Packet) : Match → Bool
  | .source c => c.contains (.v4 p.src)
  | .destination c => c.contains (.v4 p.dst)
  | .inIface name => ifaceMatches name p.inIface
  | .outIface inverted name => ifaceMatches name p.outIface != inverted
  | .tcp => p.tcp.isSome
  | .tcpFlags examined set =>
    match p.tcp with
    | some flags => examined.all fun f => decide (f ∈ flags) == decide (f ∈ set)
    | none => false
  | .ctstate states => p.state ∈ states
  | .mark value mask => p.mark &&& mask = value
  | .comment _ => true

def Rule.holds (p : Packet) (r : Rule) : Bool := r.conditions.all (Match.holds p)

/-- What a chain does to a packet: the terminating verdict, none when the packet falls
off the end, and whether its segment size was clamped on the way. -/
structure Outcome where
  verdict : Option Target
  clamped : Bool
  deriving DecidableEq

/-- First-match evaluation; `TCPMSS` alters the packet and evaluation goes on. -/
def run (p : Packet) : List Rule → Outcome
  | [] => ⟨none, false⟩
  | r :: rs =>
    if r.holds p then
      match r.target with
      | .clampMss => { run p rs with clamped := true }
      | t => ⟨some t, false⟩
    else run p rs

/-- A block of rules with one terminating target decides by any match in it. -/
theorem run_append_uniform {rs : List Rule} {t : Target} (ht : t ≠ .clampMss)
    (h : ∀ r ∈ rs, r.target = t) (p : Packet) (rest : List Rule) :
    run p (rs ++ rest) = if ∃ r ∈ rs, r.holds p = true then ⟨some t, false⟩ else run p rest := by
  induction rs with
  | nil => simp
  | cons r rs ih =>
    have hr := h r (by simp)
    have hrec := ih fun x hx => h x (by simp [hx])
    by_cases hm : r.holds p = true
    · cases t <;> simp_all [run]
    · simp [run, hm, hrec]

theorem run_uniform {rs : List Rule} {t : Target} (ht : t ≠ .clampMss)
    (h : ∀ r ∈ rs, r.target = t) (p : Packet) :
    run p rs = if ∃ r ∈ rs, r.holds p = true then ⟨some t, false⟩ else ⟨none, false⟩ := by
  have := run_append_uniform ht h p []
  simpa [run] using this

/-- A chain of clamping rules never ends the traversal. -/
theorem run_clamp {rs : List Rule} (h : ∀ r ∈ rs, r.target = .clampMss) (p : Packet) :
    run p rs = ⟨none, decide (∃ r ∈ rs, r.holds p = true)⟩ := by
  induction rs with
  | nil => simp [run]
  | cons r rs ih =>
    have hr := h r (by simp)
    have hrec := ih fun x hx => h x (by simp [hx])
    by_cases hm : r.holds p = true <;> simp [run, hm, hr, hrec]

/-! ## Order -/

/-- The target keeps the packet from passing. -/
def Target.refuses : Target → Bool
  | .drop => true
  | .reject _ => true
  | _ => false

/-- No refusing rule takes a packet away from a later rule that lets it pass. -/
def Unshadowed (rs : List Rule) : Prop :=
  ∀ front r back, rs = front ++ r :: back → r.target.refuses = true →
    ∀ s ∈ back, s.target.refuses = false → ∀ p, r.holds p = true → s.holds p = true →
      ∃ e ∈ front, e.target.refuses = false ∧ e.holds p = true

/-- A block that lets packets pass, followed by one that refuses them; or clamping rules only. -/
def Tiered (rs : List Rule) : Prop :=
  (∀ r ∈ rs, r.target = .clampMss) ∨
    ∃ t u l m, rs = l ++ m ∧ t ≠ .clampMss ∧ t.refuses = false ∧ u.refuses = true ∧
      (∀ r ∈ l, r.target = t) ∧ ∀ r ∈ m, r.target = u

/-- With terminating targets the first match decides. -/
theorem run_find {rs : List Rule} (h : ∀ r ∈ rs, r.target ≠ .clampMss) (p : Packet) :
    run p rs = ⟨(rs.find? (Rule.holds p)).map (·.target), false⟩ := by
  induction rs with
  | nil => rfl
  | cons r rs ih =>
    have hr := h r (by simp)
    have hrec := ih fun x hx => h x (by simp [hx])
    by_cases hm : r.holds p = true
    · rw [List.find?_cons_of_pos hm]
      unfold run
      rw [if_pos hm]
      cases ht : r.target <;> simp_all
    · rw [List.find?_cons_of_neg hm, ← hrec, run, if_neg hm]

section
variable {rs : List Rule} {t u : Target} (ht : t.refuses = false) (hu : u.refuses = true)
  (htargets : ∀ r ∈ rs, r.target = t ∨ r.target = u)
include ht hu htargets

/-- Where nothing is shadowed, a packet passes when any passing rule matches it. -/
theorem find_target_of_unshadowed (h : Unshadowed rs) (p : Packet) :
    (rs.find? (Rule.holds p)).map (·.target) =
      if ∃ r ∈ rs, r.target = t ∧ r.holds p = true then some t
      else if ∃ r ∈ rs, r.target = u ∧ r.holds p = true then some u else none := by
  have htu : t ≠ u := by
    rintro rfl
    rw [ht] at hu
    cases hu
  cases hfind : rs.find? (Rule.holds p) with
  | none =>
    rw [List.find?_eq_none] at hfind
    rw [if_neg, if_neg]
    · rfl
    · rintro ⟨r, hr, -, hm⟩
      exact hfind r hr hm
    · rintro ⟨r, hr, -, hm⟩
      exact hfind r hr hm
  | some r =>
    obtain ⟨hm, front, back, hsplit, hfront⟩ := List.find?_eq_some_iff_append.mp hfind
    have hr : r ∈ rs := by simp [hsplit]
    rcases htargets r hr with hrt | hru
    · rw [if_pos ⟨r, hr, hrt, hm⟩, Option.map_some, hrt]
    · -- a later passing match would be shadowed by `r`
      rw [if_neg, if_pos ⟨r, hr, hru, hm⟩, Option.map_some, hru]
      rintro ⟨s, hs, hst, hsm⟩
      rw [hsplit, List.mem_append, List.mem_cons] at hs
      rcases hs with hs | rfl | hs
      · simpa [hsm] using hfront s hs
      · exact htu (hst.symm.trans hru)
      · obtain ⟨e, he, -, hem⟩ := h front r back hsplit (hru ▸ hu) s hs (hst ▸ ht) p hm hsm
        simpa [hem] using hfront e he

/-- Conversely, a shadowed rule shows in the target of some packet. -/
theorem unshadowed_of_find_target
    (h : ∀ p, (∃ r ∈ rs, r.target = t ∧ r.holds p = true) →
      (rs.find? (Rule.holds p)).map (·.target) = some t) : Unshadowed rs := by
  intro front r back hsplit hr s hs hst p hrm hsm
  have hs' : s ∈ rs := by simp [hsplit, hs]
  have hpass : s.target = t := by
    rcases htargets s hs' with hst' | hsu
    · exact hst'
    · rw [hsu, hu] at hst
      cases hst
  by_contra hnone
  push Not at hnone
  have hfound := h p ⟨s, hs', hpass, hsm⟩
  obtain ⟨e, he, het⟩ := Option.map_eq_some_iff.mp hfound
  -- the first match lies in `front` or is `r`, and neither lets the packet pass
  have hmem : e ∈ front ++ [r] := by
    rw [hsplit, ← List.singleton_append, ← List.append_assoc, List.find?_append] at he
    have hsome : ((front ++ [r]).find? (Rule.holds p)).isSome = true := by
      rw [List.find?_isSome]
      exact ⟨r, by simp, hrm⟩
    obtain ⟨e', he'⟩ := Option.isSome_iff_exists.mp hsome
    rw [he', Option.some_or] at he
    rw [← Option.some.inj he]
    exact List.mem_of_find?_eq_some he'
  have hem := List.find?_some he
  rcases List.mem_append.mp hmem with hfront | hlast
  · exact hnone e hfront (het ▸ ht) hem
  · rw [List.mem_singleton.mp hlast] at het
    rw [het, ht] at hr
    cases hr

end

/-- Passing rules in front of refusing ones are not shadowed. -/
theorem unshadowed_append {l m : List Rule} (hl : ∀ r ∈ l, r.target.refuses = false)
    (hm : ∀ r ∈ m, r.target.refuses = true) : Unshadowed (l ++ m) := by
  intro front r back hsplit hr s hs hst
  have hback : ∀ a, m = a ++ back → False := by
    rintro a rfl
    rw [hm s (List.mem_append_right _ hs)] at hst
    cases hst
  rcases List.append_eq_append_iff.mp hsplit with ⟨a, rfl, hma⟩ | ⟨a, rfl, hra⟩
  · exact (hback (a ++ [r]) (by simp [hma])).elim
  · cases a with
    | nil => exact (hback [r] (by simpa using hra.symm)).elim
    | cons b bs =>
      obtain ⟨rfl, -⟩ := List.cons.inj hra
      rw [hl r (by simp)] at hr
      cases hr

/-- Rules with the members of a tiered list do what it does exactly when nothing is shadowed. -/
theorem run_eq_iff_unshadowed {rs tiers : List Rule} (hmem : ∀ r, r ∈ rs ↔ r ∈ tiers)
    (h : Tiered tiers) : (∀ p, run p rs = run p tiers) ↔ Unshadowed rs := by
  rcases h with hclamp | ⟨t, u, l, m, rfl, hclamp, ht, hu, hl, hm⟩
  · have hclamp' : ∀ r ∈ rs, r.target = .clampMss := fun r hr => hclamp r ((hmem r).mp hr)
    apply iff_of_true
    · intro p
      rw [run_clamp hclamp, run_clamp hclamp']
      simp only [hmem]
    · intro front r back hsplit hr
      rw [hclamp' r (by simp [hsplit])] at hr
      cases hr
  · have htargets : ∀ r ∈ l ++ m, r.target = t ∨ r.target = u := by
      intro r hr
      rcases List.mem_append.mp hr with hr | hr
      · exact .inl (hl r hr)
      · exact .inr (hm r hr)
    have hterminal : ∀ r ∈ l ++ m, r.target ≠ .clampMss := by
      intro r hr
      rcases htargets r hr with he | he
      · rw [he]
        exact hclamp
      · rw [he]
        rintro rfl
        cases hu
    have htargets' : ∀ r ∈ rs, r.target = t ∨ r.target = u := fun r hr =>
      htargets r ((hmem r).mp hr)
    have htiers : Unshadowed (l ++ m) :=
      unshadowed_append (fun r hr => hl r hr ▸ ht) fun r hr => hm r hr ▸ hu
    have hfind := find_target_of_unshadowed ht hu htargets htiers
    simp only [← hmem] at hfind
    simp only [run_find hterminal, run_find fun r hr => hterminal r ((hmem r).mp hr), hfind,
      Outcome.mk.injEq, and_true]
    constructor
    · intro hsame
      apply unshadowed_of_find_target ht hu htargets'
      intro p hpass
      rw [hsame p, if_pos hpass]
    · intro hun
      exact find_target_of_unshadowed ht hu htargets' hun

/-! ## Reading rule texts -/

def readState (l : List Char) : Option CtState :=
  match String.ofList l with
  | "NEW" => some .new
  | "ESTABLISHED" => some .established
  | "RELATED" => some .related
  | "INVALID" => some .invalid
  | "UNTRACKED" => some .untracked
  | _ => none

def readFlag (l : List Char) : Option TcpFlag :=
  match String.ofList l with
  | "FIN" => some .fin
  | "SYN" => some .syn
  | "RST" => some .rst
  | "PSH" => some .psh
  | "ACK" => some .ack
  | "URG" => some .urg
  | _ => none

/-- A comma-separated list. -/
def readList {α : Type} (read : List Char → Option α) (s : String) : Option (List α) :=
  (splitOn ',' s.toList).mapM read

/-- A mark with an optional mask; an absent mask is full. -/
def readMark (s : String) : Option (BitVec 32 × BitVec 32) :=
  match cut '/' s.toList with
  | none =>
    match readHex s.toList with
    | some v => if v < 2 ^ 32 then some (BitVec.ofNat 32 v, BitVec.allOnes 32) else none
    | none => none
  | some (value, mask) =>
    match readHex value, readHex mask with
    | some v, some m =>
      if v < 2 ^ 32 ∧ m < 2 ^ 32 then some (BitVec.ofNat 32 v, BitVec.ofNat 32 m) else none
    | _, _ => none

/-- An interface argument has to fit the kernel's name field. -/
def readIface (s : String) : Option String :=
  if s = "" ∨ 15 < byteLen s then none else some s

def readTarget : List String → Option Target
  | ["ACCEPT"] => some .accept
  | ["DROP"] => some .drop
  | ["RETURN"] => some .return
  | ["MASQUERADE"] => some .masquerade
  | ["TCPMSS", "--clamp-mss-to-pmtu"] => some .clampMss
  | ["REJECT", "--reject-with", code] => some (.reject code)
  | _ => none

/-- Options are consumed with their arguments from left to right; the target ends the rule. -/
def readRule : List String → Option Rule
  | "-s" :: a :: rest => add ((parsePrefix a).map .source) (readRule rest)
  | "-d" :: a :: rest => add ((parsePrefix a).map .destination) (readRule rest)
  | "-i" :: a :: rest => add ((readIface a).map .inIface) (readRule rest)
  | "-o" :: a :: rest => add ((readIface a).map (.outIface false)) (readRule rest)
  | "!" :: "-o" :: a :: rest => add ((readIface a).map (.outIface true)) (readRule rest)
  | "-p" :: "tcp" :: rest => add (some .tcp) (readRule rest)
  | "-m" :: _ :: rest => readRule rest
  | "--tcp-flags" :: a :: b :: rest =>
    add ((readList readFlag a).bind fun l => (readList readFlag b).map (.tcpFlags l)) (readRule rest)
  | "--ctstate" :: a :: rest => add ((readList readState a).map .ctstate) (readRule rest)
  | "--mark" :: a :: rest => add ((readMark a).map fun v => .mark v.1 v.2) (readRule rest)
  | "--comment" :: a :: rest => add (some (.comment a)) (readRule rest)
  | "-j" :: rest => (readTarget rest).map fun t => ⟨[], t⟩
  | _ => none
where
  add (m : Option Match) (r : Option Rule) : Option Rule :=
    m.bind fun m => r.map fun r => { r with conditions := m :: r.conditions }

open readRule in
/-- The equations of `readRule`, one for each option. -/
theorem readRule_options :
    (∀ a rest, readRule ("-s" :: a :: rest) = add ((parsePrefix a).map .source) (readRule rest)) ∧
    (∀ a rest,
      readRule ("-d" :: a :: rest) = add ((parsePrefix a).map .destination) (readRule rest)) ∧
    (∀ a rest, readRule ("-i" :: a :: rest) = add ((readIface a).map .inIface) (readRule rest)) ∧
    (∀ a rest,
      readRule ("-o" :: a :: rest) = add ((readIface a).map (.outIface false)) (readRule rest)) ∧
    (∀ a rest, readRule ("!" :: "-o" :: a :: rest) =
      add ((readIface a).map (.outIface true)) (readRule rest)) ∧
    (∀ rest, readRule ("-p" :: "tcp" :: rest) = add (some .tcp) (readRule rest)) ∧
    (∀ a rest, readRule ("-m" :: a :: rest) = readRule rest) ∧
    (∀ a b rest, readRule ("--tcp-flags" :: a :: b :: rest) = add
      ((readList readFlag a).bind fun l => (readList readFlag b).map (.tcpFlags l))
      (readRule rest)) ∧
    (∀ a rest, readRule ("--ctstate" :: a :: rest) =
      add ((readList readState a).map .ctstate) (readRule rest)) ∧
    (∀ a rest, readRule ("--mark" :: a :: rest) =
      add ((readMark a).map fun v => .mark v.1 v.2) (readRule rest)) ∧
    (∀ a rest,
      readRule ("--comment" :: a :: rest) = add (some (.comment a)) (readRule rest)) ∧
    ∀ rest, readRule ("-j" :: rest) = (readTarget rest).map fun t => ⟨[], t⟩ := by
  simp [readRule]

def parseRule (text : String) : Option Rule := readRule (words text)

/-- The rules of a chain, when every line is well formed. -/
def loadChain (texts : List String) : Option (List Rule) :=
  if texts.all fun s => (parseRule s).isSome then some (texts.filterMap parseRule) else none

/-- Evaluation of a chain given by its rule texts. -/
def evaluate (texts : List String) (p : Packet) : Option Outcome :=
  (loadChain texts).map (run p)

theorem loadChain_eq {texts : List String} (h : ∀ s ∈ texts, (parseRule s).isSome = true) :
    loadChain texts = some (texts.filterMap parseRule) := by
  rw [loadChain, if_pos (List.all_eq_true.mpr h)]

/-- The rule text is well formed, has target `t` and matches the packets of `P`. -/
def Reads (text : String) (t : Target) (P : Packet → Prop) : Prop :=
  ∃ r, parseRule text = some r ∧ r.target = t ∧ ∀ p, r.holds p = true ↔ P p

/-- The same for the words of a rule, or of its tail from some option on. -/
def ReadsWords (ws : List String) (t : Target) (P : Packet → Prop) : Prop :=
  (∀ w ∈ ws, IsWord w.toList) ∧
    ∃ r, readRule ws = some r ∧ r.target = t ∧ ∀ p, r.holds p = true ↔ P p

/-- A command line printed word by word is read word by word. -/
theorem ReadsWords.reads {text : String} {ws : List String} {t : Target} {P : Packet → Prop}
    (h : ReadsWords ws t P) (htext : text = unwords ws) : Reads text t P := by
  obtain ⟨hwords, r, hr, ht, hP⟩ := h
  refine ⟨r, ?_, ht, hP⟩
  rw [htext, parseRule, words_unwords ws hwords, hr]

theorem readsWords_jump {ws : List String} {t : Target} (hws : ∀ w ∈ ws, IsWord w.toList)
    (ht : readTarget ws = some t) : ReadsWords ("-j" :: ws) t fun _ => True := by
  refine ⟨?_, ⟨[], t⟩, by simp [readRule_options, ht], rfl, by simp [Rule.holds]⟩
  rw [List.forall_mem_cons]
  exact ⟨by decide, hws⟩

/-- Every option puts its words in front and its condition in conjunction. -/
theorem ReadsWords.add {ws : List String} {t : Target} {P Q : Packet → Prop}
    (h : ReadsWords ws t P) (opt : List String) (m : Match)
    (hopt : ∀ w ∈ opt, IsWord w.toList)
    (hread : ∀ ws, readRule (opt ++ ws) = readRule.add (some m) (readRule ws))
    (hQ : ∀ p, m.holds p = true ↔ Q p) : ReadsWords (opt ++ ws) t fun p => Q p ∧ P p := by
  obtain ⟨hwords, r, hr, ht, hP⟩ := h
  refine ⟨?_, ⟨m :: r.conditions, r.target⟩, ?_, ht, ?_⟩
  · intro w hw
    rcases List.mem_append.mp hw with h | h
    · exact hopt w h
    · exact hwords w h
  · rw [hread, hr]
    rfl
  · intro p
    have : r.conditions.all (Match.holds p) = true ↔ P p := hP p
    simp only [Rule.holds, List.all_cons, Bool.and_eq_true, hQ, this]

section
variable {ws : List String} {t : Target} {P : Packet → Prop} (h : ReadsWords ws t P)
include h

theorem ReadsWords.module {m : String} (hm : IsWord m.toList) :
    ReadsWords ("-m" :: m :: ws) t P := by
  obtain ⟨hwords, r, hr, hrest⟩ := h
  refine ⟨?_, r, by simpa [readRule_options] using hr, hrest⟩
  simp only [List.forall_mem_cons]
  exact ⟨by decide, hm, hwords⟩

theorem ReadsWords.comment {text : String} (hw : IsWord text.toList) :
    ReadsWords ("--comment" :: text :: ws) t P := by
  have := h.add ["--comment", text] (.comment text) (Q := fun _ => True)
    (by simp only [List.forall_mem_cons]; exact ⟨by decide, hw, by simp⟩)
    (fun ws => by simp [readRule_options]) (fun p => by simp [Match.holds])
  simpa using this

theorem ReadsWords.source {a : String} {c : Prefix} (hw : IsWord a.toList)
    (hc : parsePrefix a = some c) :
    ReadsWords ("-s" :: a :: ws) t fun p => c.contains (.v4 p.src) = true ∧ P p :=
  h.add ["-s", a] (.source c)
    (by simp only [List.forall_mem_cons]; exact ⟨by decide, hw, by simp⟩)
    (fun ws => by simp [readRule_options, hc]) (fun p => Iff.rfl)

theorem ReadsWords.destination {a : String} {c : Prefix} (hw : IsWord a.toList)
    (hc : parsePrefix a = some c) :
    ReadsWords ("-d" :: a :: ws) t fun p => c.contains (.v4 p.dst) = true ∧ P p :=
  h.add ["-d", a] (.destination c)
    (by simp only [List.forall_mem_cons]; exact ⟨by decide, hw, by simp⟩)
    (fun ws => by simp [readRule_options, hc]) (fun p => Iff.rfl)

theorem ReadsWords.inIface {a : String} (hw : IsWord a.toList) (ha : readIface a = some a) :
    ReadsWords ("-i" :: a :: ws) t fun p => ifaceMatches a p.inIface = true ∧ P p :=
  h.add ["-i", a] (.inIface a)
    (by simp only [List.forall_mem_cons]; exact ⟨by decide, hw, by simp⟩)
    (fun ws => by simp [readRule_options, ha]) (fun p => Iff.rfl)

theorem ReadsWords.outIface {a : String} (hw : IsWord a.toList) (ha : readIface a = some a) :
    ReadsWords ("-o" :: a :: ws) t fun p => ifaceMatches a p.outIface = true ∧ P p :=
  h.add ["-o", a] (.outIface false a)
    (by simp only [List.forall_mem_cons]; exact ⟨by decide, hw, by simp⟩)
    (fun ws => by simp [readRule_options, ha]) (fun p => by simp [Match.holds])

theorem ReadsWords.notOutIface {a : String} (hw : IsWord a.toList) (ha : readIface a = some a) :
    ReadsWords ("!" :: "-o" :: a :: ws) t fun p => ifaceMatches a p.outIface = false ∧ P p :=
  h.add ["!", "-o", a] (.outIface true a)
    (by simp only [List.forall_mem_cons]; exact ⟨by decide, by decide, hw, by simp⟩)
    (fun ws => by simp [readRule_options, ha]) (fun p => by simp [Match.holds])

theorem ReadsWords.mark {a : String} {v m : BitVec 32} (hw : IsWord a.toList)
    (ha : readMark a = some (v, m)) :
    ReadsWords ("--mark" :: a :: ws) t fun p => p.mark &&& m = v ∧ P p :=
  h.add ["--mark", a] (.mark v m)
    (by simp only [List.forall_mem_cons]; exact ⟨by decide, hw, by simp⟩)
    (fun ws => by simp [readRule_options, ha]) (fun p => by simp [Match.holds])

theorem ReadsWords.ctstate {a : String} {states : List CtState} (hw : IsWord a.toList)
    (ha : readList readState a = some states) :
    ReadsWords ("--ctstate" :: a :: ws) t fun p => p.state ∈ states ∧ P p :=
  h.add ["--ctstate", a] (.ctstate states)
    (by simp only [List.forall_mem_cons]; exact ⟨by decide, hw, by simp⟩)
    (fun ws => by simp [readRule_options, ha]) (fun p => by simp [Match.holds])

theorem ReadsWords.tcp : ReadsWords ("-p" :: "tcp" :: ws) t fun p => p.tcp.isSome = true ∧ P p :=
  h.add ["-p", "tcp"] .tcp (by decide) (fun ws => by simp [readRule_options]) (fun p => Iff.rfl)

theorem ReadsWords.tcpFlags {a b : String} {examined set : List TcpFlag} (hw : IsWord a.toList)
    (hw' : IsWord b.toList) (ha : readList readFlag a = some examined)
    (hb : readList readFlag b = some set) :
    ReadsWords ("--tcp-flags" :: a :: b :: ws) t fun p =>
      (Match.tcpFlags examined set).holds p = true ∧ P p :=
  h.add ["--tcp-flags", a, b] (.tcpFlags examined set)
    (by simp only [List.forall_mem_cons]; exact ⟨by decide, hw, hw', by simp⟩)
    (fun ws => by simp [readRule_options, ha, hb]) (fun p => Iff.rfl)

end

theorem Reads.congr {text : String} {t : Target} {P Q : Packet → Prop} (h : Reads text t P)
    (hPQ : ∀ p, P p ↔ Q p) : Reads text t Q := by
  obtain ⟨r, hr, ht, hP⟩ := h
  exact ⟨r, hr, ht, fun p => (hP p).trans (hPQ p)⟩

/-- Some rule of the block matches the packet. -/
def hits (texts : List String) (p : Packet) : Prop :=
  ∃ s ∈ texts, ∃ r, parseRule s = some r ∧ r.holds p = true

theorem hits_iff {ι : Type} {texts : List String} {t : Target} (I : ι → Prop) (text : ι → String)
    (P : ι → Packet → Prop) (hmem : ∀ s, s ∈ texts ↔ ∃ i, I i ∧ s = text i)
    (hreads : ∀ i, I i → Reads (text i) t (P i)) (p : Packet) :
    hits texts p ↔ ∃ i, I i ∧ P i p := by
  constructor
  · rintro ⟨s, hs, r, hr, hp⟩
    obtain ⟨i, hi, rfl⟩ := (hmem s).mp hs
    obtain ⟨r', hr', -, hP⟩ := hreads i hi
    rw [hr] at hr'
    obtain rfl := Option.some.inj hr'
    exact ⟨i, hi, (hP p).mp hp⟩
  · rintro ⟨i, hi, hp⟩
    obtain ⟨r, hr, -, hP⟩ := hreads i hi
    exact ⟨text i, (hmem _).mpr ⟨i, hi, rfl⟩, r, hr, (hP p).mpr hp⟩

theorem hits_congr {l m : List String} (h : ∀ s, s ∈ l ↔ s ∈ m) (p : Packet) :
    hits l p ↔ hits m p := by
  simp only [hits, h]

theorem hits_append (l m : List String) (p : Packet) :
    hits (l ++ m) p ↔ hits l p ∨ hits m p := by
  simp only [hits, List.mem_append, or_and_right, exists_or]

/-- Every rule of the block is well formed and has target `t`. -/
def Uniform (texts : List String) (t : Target) : Prop :=
  ∀ s ∈ texts, ∃ r, parseRule s = some r ∧ r.target = t

theorem uniform_of_reads {ι : Type} {texts : List String} {t : Target} (I : ι → Prop)
    (text : ι → String) (P : ι → Packet → Prop) (hmem : ∀ s, s ∈ texts ↔ ∃ i, I i ∧ s = text i)
    (hreads : ∀ i, I i → Reads (text i) t (P i)) : Uniform texts t := by
  intro s hs
  obtain ⟨i, hi, rfl⟩ := (hmem s).mp hs
  obtain ⟨r, hr, ht, -⟩ := hreads i hi
  exact ⟨r, hr, ht⟩

theorem Uniform.append {l m : List String} {t : Target} (hl : Uniform l t) (hm : Uniform m t) :
    Uniform (l ++ m) t := by
  intro s hs
  rcases List.mem_append.mp hs with h | h
  · exact hl s h
  · exact hm s h

theorem Uniform.congr {l m : List String} {t : Target} (hm : Uniform m t)
    (h : ∀ s, s ∈ l ↔ s ∈ m) : Uniform l t :=
  fun s hs => hm s ((h s).mp hs)

section
variable {texts : List String} {t : Target} (h : Uniform texts t)
include h

theorem Uniform.isSome : ∀ s ∈ texts, (parseRule s).isSome = true := by
  intro s hs
  obtain ⟨r, hr, -⟩ := h s hs
  simp [hr]

theorem Uniform.target : ∀ r ∈ texts.filterMap parseRule, r.target = t := by
  intro r hr
  obtain ⟨s, hs, hrs⟩ := List.mem_filterMap.mp hr
  obtain ⟨r', hr', ht⟩ := h s hs
  rw [hrs] at hr'
  rw [Option.some.inj hr', ht]

end

theorem exists_holds_iff_hits (texts : List String) (p : Packet) :
    (∃ r ∈ texts.filterMap parseRule, r.holds p = true) ↔ hits texts p := by
  simp only [hits, List.mem_filterMap]
  constructor
  · rintro ⟨r, ⟨s, hs, hr⟩, hp⟩
    exact ⟨s, hs, r, hr, hp⟩
  · rintro ⟨s, hs, r, hr, hp⟩
    exact ⟨r, ⟨s, hs, hr⟩, hp⟩

/-- Two blocks in a row, each with one terminating target. -/
theorem evaluate_append {l m : List String} {t u : Target} (ht : t ≠ .clampMss)
    (hu : u ≠ .clampMss) (hl : Uniform l t) (hm : Uniform m u) (p : Packet) :
    ∃ o, evaluate (l ++ m) p = some o ∧ o.clamped = false ∧
      (hits l p → o.verdict = some t) ∧ (¬hits l p → hits m p → o.verdict = some u) ∧
      (¬hits l p → ¬hits m p → o.verdict = none) := by
  have hload : loadChain (l ++ m) = some (l.filterMap parseRule ++ m.filterMap parseRule) := by
    rw [loadChain_eq, List.filterMap_append]
    intro s hs
    rcases List.mem_append.mp hs with h | h
    · exact hl.isSome s h
    · exact hm.isSome s h
  refine ⟨_, by rw [evaluate, hload]; rfl, ?_⟩
  rw [run_append_uniform ht hl.target, run_uniform hu hm.target, ← exists_holds_iff_hits l,
    ← exists_holds_iff_hits m]
  by_cases h1 : ∃ r ∈ l.filterMap parseRule, r.holds p = true
  · rw [if_pos h1]
    exact ⟨rfl, fun _ => rfl, fun h => absurd h1 h, fun h => absurd h1 h⟩
  · rw [if_neg h1]
    by_cases h2 : ∃ r ∈ m.filterMap parseRule, r.holds p = true
    · rw [if_pos h2]
      exact ⟨rfl, fun h => absurd h h1, fun _ _ => rfl, fun _ h => absurd h2 h⟩
    · rw [if_neg h2]
      exact ⟨rfl, fun h => absurd h h1, fun _ h => absurd h h2, fun _ _ => rfl⟩

/-- One block with a terminating target. -/
theorem evaluate_uniform {l : List String} {t : Target} (ht : t ≠ .clampMss) (hl : Uniform l t)
    (p : Packet) :
    ∃ o, evaluate l p = some o ∧ o.clamped = false ∧
      (hits l p → o.verdict = some t) ∧ (¬hits l p → o.verdict = none) := by
  obtain ⟨o, ho, hc, h1, -, h3⟩ := evaluate_append ht ht hl (m := []) (by simp [Uniform]) p
  rw [List.append_nil] at ho
  exact ⟨o, ho, hc, h1, fun h => h3 h (by simp [hits])⟩

/-- A block of clamping rules. -/
theorem evaluate_clamp {l : List String} (hl : Uniform l .clampMss) (p : Packet) :
    ∃ o, evaluate l p = some o ∧ o.verdict = none ∧ (o.clamped = true ↔ hits l p) := by
  refine ⟨_, by rw [evaluate, loadChain_eq hl.isSome]; rfl, ?_⟩
  simp only [run_clamp hl.target, ← exists_holds_iff_hits, decide_eq_true_eq, true_and]

/-! ## Arguments -/

theorem hex_isWord (n : ℕ) : IsWord (hex n).toList := by
  rw [hex_toList]
  refine ⟨by simp, ?_⟩
  intro c hc
  have hdig : ∀ d < 16, isBlank d.digitChar = false := by decide
  simp only [List.mem_cons] at hc
  rcases hc with rfl | rfl | hc
  · decide
  · decide
  · obtain ⟨d, hd, rfl⟩ := isDigit_of_mem_toDigits (by norm_num) (by norm_num) hc
    exact hdig d hd

theorem slash_not_mem_hex (n : ℕ) : '/' ∉ (hex n).toList := by
  rw [hex_toList]
  have hd : '/' ∉ Nat.toDigits 16 n := not_mem_toDigits (by norm_num) (by norm_num) _ (by decide)
  simp [hd]

theorem readMark_full (v : BitVec 32) :
    readMark (hex v.toNat) = some (v, BitVec.allOnes 32) := by
  rw [readMark, (cut_eq_none '/' _).mpr (slash_not_mem_hex _)]
  simp [readHex_hex, v.isLt]

theorem readMark_masked (v m : BitVec 32) :
    readMark (hex v.toNat ++ "/" ++ hex m.toNat) = some (v, m) := by
  have hl : (hex v.toNat ++ "/" ++ hex m.toNat).toList =
      (hex v.toNat).toList ++ '/' :: (hex m.toNat).toList := by simp
  rw [readMark, hl, cut_append '/' _ _ (slash_not_mem_hex _)]
  simp [readHex_hex, v.isLt, m.isLt]

end SakhtarWg.Iptables
