import SakhtarWg.AddrText
import SakhtarWg.EgressNames
import SakhtarWg.LabelSuffix

/-!
# Host routing

The suffix table of a router and its lookup, which walks over the host and tries the rest
after every dot. The table keeps the first value of a suffix, so the lookup is the
documented rule: the longest suffix wins, and the earliest rule among equal ones.
-/

namespace SakhtarWg
open Text Netip Fallible LabelSuffix Proxy

/-! ## The suffix table -/

structure SuffixMatcher (α : Type) where
  values : AList fun _ : String => α

namespace SuffixMatcher

variable {α : Type}

def new : SuffixMatcher α := ⟨∅⟩

/-- Whether the value was installed is returned beside the table. -/
def addFirst (m : SuffixMatcher α) (suffix : String) (value : α) : SuffixMatcher α × Bool :=
  if suffix ∈ m.values then (m, false) else (⟨m.values.insert suffix value⟩, true)

/-- The loop of the lookup, one character at a time: at a boundary the rest is tried, and right
after a dot is the next boundary. -/
def lookupFrom (m : SuffixMatcher α) (boundary : Bool) : List Char → Option α
  | [] => none
  | c :: cs =>
    match if boundary then m.values.lookup (String.ofList (c :: cs)) else none with
    | some value => some value
    | none => m.lookupFrom (c = '.') cs

def lookup (m : SuffixMatcher α) (host : String) : Option α := m.lookupFrom true host.toList

theorem lookupFrom_eq (m : SuffixMatcher α) (boundary : Bool) (cs : List Char) :
    m.lookupFrom boundary cs =
      (rests '.' boundary cs).findSome? fun rest => m.values.lookup (String.ofList rest) := by
  induction cs generalizing boundary with
  | nil => rfl
  | cons c cs ih =>
    rw [lookupFrom, rests, ih, List.findSome?_append]
    cases boundary with
    | false => rfl
    | true =>
      simp only [if_true, List.findSome?_singleton]
      cases m.values.lookup (String.ofList (c :: cs)) <;> rfl

/-- The values of a list of entries, the first one of each suffix. -/
def addAll (m : SuffixMatcher α) (entries : List (String × α)) : SuffixMatcher α :=
  entries.foldl (fun m e => (m.addFirst e.1 e.2).1) m

theorem addFirst_lookup (m : SuffixMatcher α) (suffix s : String) (value : α) :
    (m.addFirst suffix value).1.values.lookup s =
      (m.values.lookup s).or (if suffix = s then some value else none) := by
  unfold addFirst
  by_cases hs : suffix = s
  · subst hs
    rw [if_pos rfl]
    split
    · rename_i hmem
      obtain ⟨v, hv⟩ := Option.isSome_iff_exists.mp (AList.lookup_isSome.mpr hmem)
      rw [hv]
      rfl
    · rename_i hmem
      rw [AList.lookup_insert, AList.lookup_eq_none.mpr hmem]
      rfl
  · rw [if_neg hs, Option.or_none]
    split
    · rfl
    · exact AList.lookup_insert_ne (Ne.symm hs)

theorem addAll_lookup (m : SuffixMatcher α) (entries : List (String × α)) (s : String) :
    (m.addAll entries).values.lookup s = (m.values.lookup s).or
      (firstValue (entries.map fun e => (e.1.toList, e.2)) s.toList) := by
  induction entries generalizing m with
  | nil => simp [addAll, firstValue]
  | cons e entries ih =>
    have hfirst : firstValue ((e :: entries).map fun e => (e.1.toList, e.2)) s.toList =
        (if e.1 = s then some e.2 else none).or
          (firstValue (entries.map fun e => (e.1.toList, e.2)) s.toList) := by
      simp only [firstValue, List.map_cons, List.find?_cons, String.toList_inj]
      by_cases he : e.1 = s
      · simp [he]
      · simp [he]
    rw [addAll, List.foldl_cons, ← addAll, ih, addFirst_lookup, hfirst, Option.or_assoc]

end SuffixMatcher

/-! ## The router's rules -/

/-- Every configured pair of a suffix and the egress of its rule, in the order of the file. -/
def Config.suffixRules (c : Config) : List (String × String) :=
  c.proxy.rules.flatMap fun rule => rule.suffixes.map fun s => (s, rule.via)

/-- The table that `newRouterGeneration` fills. -/
def Config.suffixMatcher (c : Config) (hm : Option Health.Monitor) : SuffixMatcher MarkRef :=
  c.proxy.rules.foldl (fun m rule =>
    rule.suffixes.foldl (fun m s => (m.addFirst s (c.markRefFor hm rule.via)).1) m) .new

/-- A host that has no canonical form is looked up as it is. -/
def Config.route (x : External) (c : Config) (hm : Option Health.Monitor) (host : String) :
    MarkRef :=
  let host := match canonicalHost x.toASCII host false with
    | .ok (normalized, _) => normalized
    | .error _ => host
  match (c.suffixMatcher hm).lookup host with
  | some ref => ref
  | none => c.markRefFor hm c.proxy.default

/-- The documented rule, by a scan over all pairs. -/
def Config.scannedRoute (c : Config) (hm : Option Health.Monitor) (name : String) : MarkRef :=
  match scan '.' (c.suffixRules.map fun e => (e.1.toList, e.2)) name.toList with
  | some (_, via) => c.markRefFor hm via
  | none => c.markRefFor hm c.proxy.default

/-- Rule `i` and its suffix `s` decide the name: no suffix that ends the name is longer, and no
earlier rule has the same one. -/
structure Config.Decides (c : Config) (name : String) (i : ℕ) (rule : ProxyRule) (s : String) :
    Prop where
  index : c.proxy.rules[i]? = some rule
  suffix : s ∈ rule.suffixes
  ends : EndsWith '.' name.toList s.toList
  longest : ∀ r ∈ c.proxy.rules, ∀ s' ∈ r.suffixes, EndsWith '.' name.toList s'.toList →
    s'.toList.length ≤ s.toList.length
  earliest : ∀ j < i, ∀ r, c.proxy.rules[j]? = some r → s ∉ r.suffixes

theorem suffixMatcher_eq (c : Config) (hm : Option Health.Monitor) : c.suffixMatcher hm =
    SuffixMatcher.new.addAll (c.suffixRules.map fun e => (e.1, c.markRefFor hm e.2)) := by
  simp only [Config.suffixMatcher, SuffixMatcher.addAll, Config.suffixRules, List.foldl_map,
    List.foldl_flatMap]

/-- Whatever the names, the walk over the host agrees with the scan over the rules. -/
theorem suffixMatcher_lookup (c : Config) (hm : Option Health.Monitor)
    (hne : ∀ e ∈ c.suffixRules, e.1.toList ≠ []) (name : String) :
    (c.suffixMatcher hm).lookup name =
      (scan '.' (c.suffixRules.map fun e => (e.1.toList, e.2)) name.toList).map
        fun e => c.markRefFor hm e.2 := by
  have hvalues : (fun rest => (c.suffixMatcher hm).values.lookup (String.ofList rest)) =
      Option.map (c.markRefFor hm) ∘
        firstValue (c.suffixRules.map fun e => (e.1.toList, e.2)) := by
    funext rest
    rw [suffixMatcher_eq, SuffixMatcher.addAll_lookup]
    simp [SuffixMatcher.new, firstValue, List.find?_map, Function.comp_def]
  have hwords : ∀ e ∈ c.suffixRules.map fun e => (e.1.toList, e.2), e.1 ≠ [] := by
    intro e he
    obtain ⟨pair, hpair, rfl⟩ := List.mem_map.mp he
    exact hne pair hpair
  rw [SuffixMatcher.lookup, SuffixMatcher.lookupFrom_eq, hvalues, ← List.map_findSome?,
    walk_eq_scan hwords, Option.map_map]
  rfl

/-! ## Accepted files -/

theorem parse_suffixes {x : External} {decoded c : Config} (h : decoded.parse x = .ok c) :
    ∀ rule ∈ c.proxy.rules, ∀ s ∈ rule.suffixes, CanonicalName s := by
  unfold Config.parse Config.validate at h
  simp only [bind_eq_ok, pure_eq_ok] at h
  obtain ⟨_, -, _, -, _, -, _, -, _, -, _, -, _, -, _, -, rules, hproxy, rfl⟩ := h
  unfold Config.validateProxy at hproxy
  simp only [bind_eq_ok] at hproxy
  obtain ⟨_, -, _, -, _, -, _, -, _, -, _, -, _, -, _, -, _, -, hrules⟩ := hproxy
  intro rule hrule s hs
  obtain ⟨raw, -, hraw⟩ := mem_of_mapM_ok hrules rule hrule
  simp only [Config.validateRule, bind_eq_ok, pure_eq_ok] at hraw
  obtain ⟨_, -, suffixes, hsuffixes, rfl⟩ := hraw
  obtain ⟨text, -, htext⟩ := mem_of_mapM_ok hsuffixes s hs
  simp only [validateSuffix, bind_eq_ok, mapError_eq_ok, require_eq_ok, pure_eq_ok] at htext
  obtain ⟨⟨name, isIP⟩, hname, _, hisIP, rfl⟩ := htext
  rw [Bool.not_eq_true'] at hisIP
  subst hisIP
  exact canonicalHost_name hname

/-- The rest after a dot has the same last label. -/
theorem splitOn_getLast?_endsWith {w rest : List Char} (h : EndsWith '.' w rest) :
    (splitOn '.' rest).getLast? = (splitOn '.' w).getLast? := by
  rcases h with rfl | ⟨before, rfl⟩
  · rfl
  · rw [splitOn_sep, List.getLast?_append, List.getLast?_eq_some_getLast (splitOn_ne_nil '.' rest)]
    rfl

theorem formatIPv4_last (a : BitVec 32) :
    ∃ l ∈ (splitOn '.' (formatIPv4 a).toList).getLast?, l.all isDecimal = true := by
  refine ⟨Nat.toDigits 10 (Addr.octet a 3), ?_, ?_⟩
  · rw [formatIPv4_toList, splitOn_append _ _ _ (dot_not_mem_digits _),
      splitOn_append _ _ _ (dot_not_mem_digits _), splitOn_append _ _ _ (dot_not_mem_digits _),
      splitOn_of_not_mem _ _ (dot_not_mem_digits _)]
    rfl
  · have hdigits : ∀ n < 256, (Nat.toDigits 10 n).all isDecimal = true := by decide +kernel
    exact hdigits _ (octet_lt a 3)

/-- No routing suffix ends the text of a literal: a dotted quad has a numeric last label, and an
IPv6 text has a colon and no dot. -/
theorem not_literal_of_canonical {s : String} (h : CanonicalName s) {ip : Addr}
    (hvalid : ip.isValid = true) (hzone : ip.zone = "") :
    ¬ EndsWith '.' ip.unmap.string.toList s.toList := by
  have hunmap : ip.unmap.isValid = true := by rw [Addr.unmap_isValid, hvalid]
  have hzone' : ip.unmap.zone = "" := Addr.unmap_zone hzone
  have hmapped : ip.unmap.is4In6 = false := Addr.unmap_is4In6 ip
  generalize ip.unmap = addr at hunmap hzone' hmapped
  intro hends
  cases addr with
  | zero => cases hunmap
  | v4 a =>
    obtain ⟨l, hl, hall⟩ := formatIPv4_last a
    have hlast := h.last l (by rw [splitOn_getLast?_endsWith hends]; exact hl)
    rw [hall] at hlast
    cases hlast
  | v6 a zone =>
    cases hzone'
    obtain ⟨hcolon, hchars⟩ := formatIPv6_chars a
    have htext : (Addr.v6 a "").string = formatIPv6 a "" := by simp only [Addr.string, hmapped]; rfl
    rw [htext] at hends
    rcases hends with heq | hdot
    · rw [← heq] at hcolon
      rcases h.chars ':' hcolon with h | h | h
      · exact absurd h (by decide)
      · cases h
      · cases h
    · have hmem : '.' ∈ (formatIPv6 a "").toList := hdot.subset (by simp)
      rcases hchars '.' hmem with h | ⟨d, hd, h⟩
      · cases h
      · revert d
        decide

/-! ## The documented rule -/

/-- The first pair with a suffix comes from the earliest rule that has it. -/
theorem firstValue_rules {rules : List ProxyRule} {s via : String}
    (h : firstValue (rules.flatMap fun rule => rule.suffixes.map fun s => (s.toList, rule.via))
      s.toList = some via) :
    ∃ (i : ℕ) (rule : ProxyRule), rules[i]? = some rule ∧ s ∈ rule.suffixes ∧ rule.via = via ∧
      ∀ j < i, ∀ r, rules[j]? = some r → s ∉ r.suffixes := by
  induction rules with
  | nil => cases h
  | cons rule rules ih =>
    have hown : firstValue (rule.suffixes.map fun s => (s.toList, rule.via)) s.toList =
        if s ∈ rule.suffixes then some rule.via else none := by
      have hmem : s.toList ∈ rule.suffixes.map String.toList ↔ s ∈ rule.suffixes := by
        simp [String.toList_inj]
      have hconst := firstValue_const (rule.suffixes.map String.toList) rule.via s.toList
      rw [List.map_map] at hconst
      simp only [hmem] at hconst
      exact hconst
    rw [List.flatMap_cons, firstValue_append, hown] at h
    by_cases hs : s ∈ rule.suffixes
    · rw [if_pos hs] at h
      exact ⟨0, rule, rfl, hs, Option.some.inj h, fun j hj => by omega⟩
    · rw [if_neg hs, Option.none_or] at h
      obtain ⟨i, rule', hi, hs', hvia, hearliest⟩ := ih h
      refine ⟨i + 1, rule', hi, hs', hvia, fun j hj r hr => ?_⟩
      cases j with
      | zero =>
        cases hr
        exact hs
      | succ j => exact hearliest j (by omega) r hr

theorem suffixRules_toList (c : Config) : (c.suffixRules.map fun e => (e.1.toList, e.2)) =
    c.proxy.rules.flatMap fun rule => rule.suffixes.map fun s => (s.toList, rule.via) := by
  simp only [Config.suffixRules, List.map_flatMap, List.map_map, Function.comp_def]

theorem mem_suffixRules {c : Config} {e : List Char × String} :
    e ∈ (c.suffixRules.map fun e => (e.1.toList, e.2)) ↔
      ∃ rule ∈ c.proxy.rules, ∃ s ∈ rule.suffixes, e = (s.toList, rule.via) := by
  rw [suffixRules_toList]
  simp [List.mem_flatMap, eq_comm]

/-- A scan that finds something has found the pair that decides the name. -/
theorem scan_decides {c : Config} {name : String} {word : List Char} {via : String}
    (h : scan '.' (c.suffixRules.map fun e => (e.1.toList, e.2)) name.toList = some (word, via)) :
    ∃ i rule s, c.Decides name i rule s ∧ rule.via = via := by
  have hbest := (scan_spec '.' _ _).1 word via h
  have hfirst := hbest.first
  rw [suffixRules_toList, ← String.toList_ofList (l := word)] at hfirst
  obtain ⟨i, rule, hi, hs, hvia, hearliest⟩ := firstValue_rules hfirst
  refine ⟨i, rule, String.ofList word, ⟨hi, hs, ?_, fun r hr s' hs' hends => ?_, hearliest⟩, hvia⟩
  · rw [String.toList_ofList]
    exact hbest.ends
  · rw [String.toList_ofList]
    exact hbest.longest (s'.toList, r.via) (mem_suffixRules.mpr ⟨r, hr, s', hs', rfl⟩) hends

/-- In every accepted file a host goes where the documented rule sends it: to the egress of the
longest suffix that ends its canonical form, of the earliest rule among equal suffixes, and to
the default when there is none; a literal always goes to the default. -/
theorem route_longest_suffix {x : External} {decoded c : Config} (h : decoded.parse x = .ok c)
    (hm : Option Health.Monitor) {host name : String} {isIP : Bool}
    (hhost : canonicalHost x.toASCII host false = .ok (name, isIP)) :
    ((∃ i rule s, c.Decides name i rule s ∧ c.route x hm host = c.markRefFor hm rule.via) ∨
      ((∀ rule ∈ c.proxy.rules, ∀ s ∈ rule.suffixes, ¬ EndsWith '.' name.toList s.toList) ∧
        c.route x hm host = c.markRefFor hm c.proxy.default)) ∧
    (isIP = true → c.route x hm host = c.markRefFor hm c.proxy.default) ∧
    c.route x hm host = c.scannedRoute hm name := by
  have hnames := parse_suffixes h
  have hlookup := suffixMatcher_lookup c hm (fun e he => by
    obtain ⟨rule, hrule, he⟩ := List.mem_flatMap.mp he
    obtain ⟨s, hs, rfl⟩ := List.mem_map.mp he
    exact (hnames rule hrule s hs).nonempty) name
  have hroute : c.route x hm host = c.scannedRoute hm name := by
    simp only [Config.route, hhost, hlookup, Config.scannedRoute]
    cases scan '.' (c.suffixRules.map fun e => (e.1.toList, e.2)) name.toList <;> rfl
  cases hscan : scan '.' (c.suffixRules.map fun e => (e.1.toList, e.2)) name.toList with
  | some found =>
    obtain ⟨word, via⟩ := found
    obtain ⟨i, rule, s, hdecides, rfl⟩ := scan_decides hscan
    refine ⟨.inl ⟨i, rule, s, hdecides, ?_⟩, fun hip => ?_, hroute⟩
    · rw [hroute, Config.scannedRoute, hscan]
    · subst hip
      obtain ⟨text, ip, hparse, hzone, rfl⟩ := canonicalHost_literal hhost
      obtain ⟨hvalid, hnozone⟩ := parseAddr_zone hparse hzone
      have hname := hnames rule (List.mem_of_getElem? hdecides.index) s hdecides.suffix
      exact absurd hdecides.ends (not_literal_of_canonical hname hvalid hnozone)
  | none =>
    have hdefault : c.route x hm host = c.markRefFor hm c.proxy.default := by
      rw [hroute, Config.scannedRoute, hscan]
    refine ⟨.inr ⟨fun rule hrule s hs => ?_, hdefault⟩, fun _ => hdefault, hroute⟩
    exact (scan_spec '.' _ _).2 hscan (s.toList, rule.via)
      (mem_suffixRules.mpr ⟨rule, hrule, s, hs, rfl⟩)

/-- Rules that overlap: the longer suffix comes second, and a duplicate third. -/
def routedFile : Config :=
  { sampleFile [sampleTunnel "wg0" 51 [] [], sampleTunnel "wg1" 52 [] []] ⟨false, [], ""⟩ with
    proxy := { blankProxy with
      default := "wg0"
      rules := [⟨"wg1", [".Example.com"]⟩, ⟨"direct", ["api.example.com"]⟩,
        ⟨"wg0", ["example.com"]⟩] } }

theorem route_longest_suffix_overlap : ∃ c, routedFile.parse sampleExternal = .ok c ∧
    c.scannedRoute none "www.api.example.com" = .static 0 ∧
    c.route sampleExternal none "WWW.api.example.com." = .static 0 ∧
    c.route sampleExternal none "notexample.com" = .static 51 := by
  have hparse : (routedFile.parse sampleExternal).map (fun c =>
      (c.scannedRoute none "www.api.example.com", c.scannedRoute none "notexample.com")) =
        .ok (.static 0, .static 51) := by
    decide +kernel
  obtain ⟨c, hc, hroutes⟩ := map_eq_ok.mp hparse
  obtain ⟨hwww, hnot⟩ := Prod.mk.inj hroutes
  have hhost : canonicalHost sampleExternal.toASCII "WWW.api.example.com." false =
      .ok ("www.api.example.com", false) := by decide +kernel
  have hother : canonicalHost sampleExternal.toASCII "notexample.com" false =
      .ok ("notexample.com", false) := by decide +kernel
  obtain ⟨-, -, hroute⟩ := route_longest_suffix hc none hhost
  obtain ⟨-, -, hroute'⟩ := route_longest_suffix hc none hother
  exact ⟨c, hc, hwww, hroute.trans hwww, hroute'.trans hnot⟩

end SakhtarWg
