import Mathlib.Algebra.Field.Rat
import SakhtarWg.Netfilter
import SakhtarWg.RegistryNames

/-!
# The metrics as the load generator reads them

The load generator fetches the exposition before and after a run and compares the two. It reads
line by line and knows a series only by the text before the value. Numbers are whole ones here,
as they are in the registry.
-/

namespace SakhtarWg.Loadgen
open Counters Text Observability Firewall

/-! ## The reader -/

/-- No more than this is read of a body. -/
def bodyLimit : ℕ := 8 * 2 ^ 20

def maxScanTokenSize : ℕ := 64 * 1024

/-- `bufio.ScanLines`: a newline at the end does not begin another line. -/
def scanLines (body : List Char) : List (List Char) :=
  let pieces := splitOn '\n' body
  if pieces.getLast? = some [] then pieces.dropLast else pieces

def dropCR (line : List Char) : List Char :=
  if line.getLast? = some '\r' then line.dropLast else line

/-- `strconv.ParseFloat` on whole numbers in decimal. -/
def parseFloat : List Char → Option ℤ
  | '+' :: digits => (readNat 10 digits).map fun n : ℕ => (n : ℤ)
  | '-' :: digits => (readNat 10 digits).map fun n : ℕ => -(n : ℤ)
  | digits => (readNat 10 digits).map fun n : ℕ => (n : ℤ)

/-- The series and the value of a line, if it has them. -/
def readSample (text : List Char) : Option (List Char × ℤ) :=
  let line := trimSpaces text
  if line = [] ∨ line.head? = some '#' then none
  else
    match spaceFields line with
    | [series, value] =>
      if "sakhtar_wg_".toList.isPrefixOf series then (parseFloat value).map fun v => (series, v)
      else none
    | _ => none

/-- The values by series, and whether a line was too long to go on. -/
def scrapeMetrics (body : List Char) : (AList fun _ : List Char => ℤ) × Bool :=
  let lines := scanLines (body.take bodyLimit)
  let tokens := (lines.takeWhile fun line => line.length < maxScanTokenSize).map dropCR
  (putAll ∅ (tokens.filterMap readSample), lines.any fun line => maxScanTokenSize ≤ line.length)

structure MetricComparison where
  before : AList fun _ : List Char => ℤ
  after : AList fun _ : List Char => ℤ
  delta : AList fun _ : List Char => ℤ
  dnsResolutions : ℤ
  rejections : ℤ
  dnsQPS : Option ℚ

def resolutionsMetric (series : List Char) : Bool :=
  "sakhtar_wg_dns_resolutions_total".toList.isPrefixOf series

def rejectionsMetric (series : List Char) : Bool :=
  "sakhtar_wg_proxy_rejections_total".toList.isPrefixOf series

def compareMetrics (before after : AList fun _ : List Char => ℤ) (duration : ℚ) :
    MetricComparison :=
  let delta := mapValues (fun series value => value - valueAt before series) after
  let resolutions := sumOver resolutionsMetric delta
  { before := before
    after := after
    delta := delta
    dnsResolutions := resolutions
    rejections := sumOver rejectionsMetric delta
    dnsQPS := if 0 < duration then some (resolutions / duration) else none }

theorem mem_delta {before after : AList fun _ : List Char => ℤ} {duration : ℚ}
    {series : List Char} : series ∈ (compareMetrics before after duration).delta ↔
      series ∈ after := mem_mapValues _ _ _

/-! ## One line -/

/-- Neither a space nor a control character. -/
def visible (c : Char) : Bool := 33 ≤ c.toNat && c.toNat ≤ 126

theorem isSpace_of_visible {c : Char} (h : visible c = true) : isSpace c = false := by
  simp only [visible, Bool.and_eq_true, decide_eq_true_eq] at h
  exact isSpace_eq_false h.1 h.2

theorem visible_of_nameChar {c : Char} (h : nameChar c = true) : visible c = true := by
  have := nameChar_range h
  simp only [visible, Bool.and_eq_true, decide_eq_true_eq]
  omega

theorem plainWord_chars {w : String} (h : plainWord w = true) :
    ∀ c ∈ w.toList, nameChar c = true := by
  simp only [plainWord, Bool.and_eq_true, List.all_eq_true] at h
  exact h.1

theorem plainWord_length {w : String} (h : plainWord w = true) : w.toList.length ≤ 64 := by
  simp only [plainWord, Bool.and_eq_true, decide_eq_true_eq] at h
  exact h.2

/-- Nothing in a plain word is escaped. -/
theorem labelText_plain {label : String × String} (h : plainWord label.2 = true) :
    labelText label = label.1.toList ++ '=' :: '"' :: label.2.toList ++ ['"'] := by
  have hescape : label.2.toList.flatMap escapeChar = label.2.toList := by
    have hchars := plainWord_chars h
    generalize label.2.toList = l at hchars
    induction l with
    | nil => rfl
    | cons c l ih =>
      have hc := hchars c (by simp)
      have hchar : escapeChar c = [c] := by
        rw [escapeChar, if_neg (nameChar_ne hc (by decide)), if_neg (nameChar_ne hc (by decide)),
          if_neg (nameChar_ne hc (by decide))]
      rw [List.flatMap_cons, hchar, ih fun d hd => hchars d (List.mem_cons_of_mem c hd)]
      rfl
  rw [labelText, hescape]

section
variable {label : String × String} (hkey : plainWord label.1 = true)
  (hword : plainWord label.2 = true)
include hkey hword

theorem labelText_visible : ∀ c ∈ labelText label, visible c = true := by
  have hfirst : ∀ c ∈ label.1.toList, visible c = true :=
    fun c hc => visible_of_nameChar (plainWord_chars hkey c hc)
  have hsecond : ∀ c ∈ label.2.toList, visible c = true :=
    fun c hc => visible_of_nameChar (plainWord_chars hword c hc)
  have hsigns : visible '=' = true ∧ visible '"' = true := by decide
  rw [labelText_plain hword]
  simp only [List.forall_mem_append, List.forall_mem_cons, List.not_mem_nil, false_implies,
    implies_true, and_true]
  exact ⟨⟨hfirst, hsigns.1, hsigns.2, hsecond⟩, hsigns.2⟩

theorem labelText_length : (labelText label).length ≤ 131 := by
  have hfirst := plainWord_length hkey
  have hsecond := plainWord_length hword
  rw [labelText_plain hword]
  simp only [List.length_append, List.length_cons, List.length_nil]
  omega

end

theorem labels_visible {l : List (String × String)}
    (h : ∀ label ∈ l, plainWord label.1 = true ∧ plainWord label.2 = true) :
    ∀ c ∈ labels l, visible c = true := by
  have htext : ∀ label ∈ l, ∀ c ∈ labelText label, visible c = true :=
    fun label hlabel => labelText_visible (h label hlabel).1 (h label hlabel).2
  have hsigns : visible '\x7b' = true ∧ visible ',' = true ∧ visible '\x7d' = true := by decide
  cases l with
  | nil => simp [labels]
  | cons first rest =>
    simp only [labels, List.forall_mem_append, List.forall_mem_cons, List.not_mem_nil,
      false_implies, implies_true, and_true, List.mem_flatMap]
    refine ⟨⟨⟨hsigns.1, htext first (by simp)⟩, ?_⟩, hsigns.2.2⟩
    intro c hc
    obtain ⟨label, hlabel, hc⟩ := hc
    obtain rfl | hc := List.mem_cons.mp hc
    · exact hsigns.2.1
    · exact htext label (List.mem_cons_of_mem first hlabel) c hc

theorem labels_length {l : List (String × String)}
    (h : ∀ label ∈ l, plainWord label.1 = true ∧ plainWord label.2 = true) :
    (labels l).length ≤ 132 * l.length + 1 := by
  have htext : ∀ label ∈ l, (labelText label).length ≤ 131 :=
    fun label hlabel => labelText_length (h label hlabel).1 (h label hlabel).2
  cases l with
  | nil => simp [labels]
  | cons first rest =>
    have hfirst := htext first (by simp)
    have hrest : (rest.map fun label => (',' :: labelText label).length).sum ≤
        rest.length • 132 := by
      have hlength : (rest.map fun label => (',' :: labelText label).length).length =
          rest.length := List.length_map _
      rw [← hlength]
      refine List.sum_le_card_nsmul _ 132 fun n hn => ?_
      obtain ⟨label, hlabel, rfl⟩ := List.mem_map.mp hn
      have := htext label (List.mem_cons_of_mem first hlabel)
      rw [List.length_cons]
      omega
    simp only [labels, List.length_append, List.length_cons, List.length_nil, List.length_flatMap,
      smul_eq_mul] at hrest ⊢
    omega

/-! ### The value -/

theorem length_toDigits_le {n k : ℕ} (h : n < 10 ^ (k + 1)) :
    (Nat.toDigits 10 n).length ≤ k + 1 := by
  induction k generalizing n with
  | zero => rw [Nat.toDigits_eq_if (by decide), if_pos (by omega), List.length_singleton]
  | succ k ih =>
    rw [Nat.toDigits_eq_if (by decide)]
    split
    · simp
    · have hdiv : n / 10 < 10 ^ (k + 1) := by
        rw [pow_succ] at h
        omega
      rw [List.length_append, List.length_singleton]
      exact Nat.succ_le_succ (ih hdiv)

theorem visible_toDigits (n : ℕ) : ∀ c ∈ Nat.toDigits 10 n, visible c = true := by
  intro c hc
  obtain ⟨d, hd, rfl⟩ := isDigit_of_mem_toDigits (by decide) (by decide) hc
  have hall : ∀ d < 16, visible d.digitChar = true := by decide
  exact hall d hd

/-- The text of a value is its digits, after a sign if it is negative. -/
theorem toString_toList_cases (v : ℤ) :
    (toString v).toList = Nat.toDigits 10 v.natAbs ∧ 0 ≤ v ∨
      (toString v).toList = '-' :: Nat.toDigits 10 v.natAbs ∧ v < 0 := by
  cases v with
  | ofNat n => exact .inl ⟨Nat.toList_repr, Int.natCast_nonneg n⟩
  | negSucc n =>
    refine .inr ⟨?_, Int.negSucc_lt_zero n⟩
    change ("-" ++ (n + 1).repr).toList = _
    rw [String.toList_append, Nat.toList_repr]
    rfl

theorem visible_toString (v : ℤ) : ∀ c ∈ (toString v).toList, visible c = true := by
  obtain ⟨htext, -⟩ | ⟨htext, -⟩ := toString_toList_cases v
  · rw [htext]
    exact visible_toDigits _
  · rw [htext]
    exact List.forall_mem_cons.mpr ⟨by decide, visible_toDigits _⟩

theorem toString_ne_nil (v : ℤ) : (toString v).toList ≠ [] := by
  obtain ⟨htext, -⟩ | ⟨htext, -⟩ := toString_toList_cases v
  · rw [htext]
    exact Nat.toDigits_ne_nil
  · rw [htext]
    exact List.cons_ne_nil _ _

theorem toString_length {v : ℤ} (h : v.natAbs < 2 ^ 64) : (toString v).toList.length ≤ 21 := by
  have hdigits : (Nat.toDigits 10 v.natAbs).length ≤ 20 :=
    length_toDigits_le (h.trans_le (by norm_num))
  obtain ⟨htext, -⟩ | ⟨htext, -⟩ := toString_toList_cases v
  · rw [htext]
    omega
  · rw [htext, List.length_cons]
    omega

/-- The reader gets the value back. -/
theorem parseFloat_toString (v : ℤ) : parseFloat (toString v).toList = some v := by
  have hread : readNat 10 (Nat.toDigits 10 v.natAbs) = some v.natAbs :=
    readNat_toDigits (by decide) (by decide) _
  obtain ⟨htext, hv⟩ | ⟨htext, hv⟩ := toString_toList_cases v
  · -- digits do not begin with a sign, so the last case of the reader applies
    have hsign : ∀ c, (∀ d < 16, c ≠ d.digitChar) →
        ∀ digits, Nat.toDigits 10 v.natAbs ≠ c :: digits := by
      intro c hc digits heq
      exact not_mem_toDigits (b := 10) (n := v.natAbs) (by decide) (by decide) c hc (by simp [heq])
    rw [htext]
    unfold parseFloat
    split
    · exact absurd ‹_› (hsign '+' (by decide) _)
    · exact absurd ‹_› (hsign '-' (by decide) _)
    · rw [hread, Option.map_some, Int.natAbs_of_nonneg hv]
  · rw [htext, parseFloat, hread, Option.map_some, Int.ofNat_natAbs_of_nonpos hv.le, neg_neg]

/-! ### The line -/

section
variable {s : Sample} (h : s.Plain)
include h

theorem metric_plain : plainWord s.name = true ∧
    "sakhtar_wg_".toList.isPrefixOf s.name.toList = true := by
  have hname := h.1
  simp only [plainMetric, Bool.and_eq_true] at hname
  exact ⟨hname.1.1.1, hname.1.1.2⟩

theorem series_visible : ∀ c ∈ s.series, visible c = true := by
  rw [Sample.series, List.forall_mem_append]
  exact ⟨fun c hc => visible_of_nameChar (plainWord_chars (metric_plain h).1 c hc),
    labels_visible h.2.2⟩

theorem series_metric : "sakhtar_wg_".toList.isPrefixOf s.series = true := by
  have hname := (metric_plain h).2
  rw [List.isPrefixOf_iff_prefix] at hname ⊢
  exact hname.trans (List.prefix_append _ _)

theorem series_head : ∃ rest, s.series = 's' :: rest := by
  obtain ⟨rest, hrest⟩ := List.isPrefixOf_iff_prefix.mp (series_metric h)
  exact ⟨_, hrest.symm⟩

omit h in
theorem line_getLast : ∃ c, visible c = true ∧ s.line.getLast? = some c := by
  have hne := toString_ne_nil s.value
  refine ⟨(toString s.value).toList.getLast hne, visible_toString _ _ (List.getLast_mem hne), ?_⟩
  have hline : s.line = (s.series ++ [' ']) ++ (toString s.value).toList := by simp [Sample.line]
  rw [hline, List.getLast?_append_of_ne_nil _ hne, List.getLast?_eq_some_getLast hne]

/-- What is written for a sample is read as its series and its value. -/
theorem readSample_line : readSample s.line = some (s.series, s.value) := by
  obtain ⟨rest, hrest⟩ := series_head h
  have hhead : s.line.head? = some 's' := by
    rw [Sample.line, hrest]
    rfl
  have htrim : trimSpaces s.line = s.line := by
    obtain ⟨c, hc, hlast⟩ := line_getLast (s := s)
    refine trimSpaces_of_ends (fun d hd => ?_) fun d hd => ?_
    · rw [hhead] at hd
      cases hd
      decide
    · rw [hlast] at hd
      cases hd
      exact isSpace_of_visible hc
  have hfields : spaceFields s.line = [s.series, (toString s.value).toList] := by
    rw [Sample.line, spaceFields_space _ _ (by decide),
      spaceFields_word (by rw [hrest]; exact List.cons_ne_nil _ _)
        fun c hc => isSpace_of_visible (series_visible h c hc),
      spaceFields_word (toString_ne_nil _) fun c hc => isSpace_of_visible (visible_toString _ c hc)]
    rfl
  have hvisible : ¬(s.line = [] ∨ s.line.head? = some '#') := by
    rw [hhead]
    rintro (hnil | hcomment)
    · rw [hnil] at hhead
      cases hhead
    · cases hcomment
  simp only [readSample, htrim, if_neg hvisible, hfields, series_metric h, if_true,
    parseFloat_toString, Option.map_some]

omit h in
theorem dropCR_line : dropCR s.line = s.line := by
  obtain ⟨c, hc, hlast⟩ := line_getLast (s := s)
  refine if_neg fun hcr => ?_
  rw [hlast] at hcr
  cases hcr
  exact absurd hc (by decide)

theorem newline_notMem_line : '\n' ∉ s.line := by
  rw [Sample.line, List.mem_append, List.mem_cons]
  rintro (hseries | hblank | hvalue)
  · exact absurd (series_visible h _ hseries) (by decide)
  · exact absurd hblank (by decide)
  · exact absurd (visible_toString _ _ hvalue) (by decide)

theorem line_length (hvalue : s.value.natAbs < 2 ^ 64) : s.line.length < 500 := by
  have hname := plainWord_length (metric_plain h).1
  have hlabels := labels_length h.2.2
  have hshort := h.2.1
  have htext := toString_length hvalue
  simp only [Sample.line, Sample.series, List.length_append, List.length_cons]
  omega

end

/-! ## A whole body -/

section
variable {r : Registry} {process : Process}

/-- A body that is read to its end: its values are machine words and it is short enough. -/
structure Readable (r : Registry) (process : Process) : Prop where
  values : ∀ s ∈ r.samples process, s.value.natAbs < 2 ^ 64
  length : (r.writePrometheus process).length ≤ bodyLimit

/-- Any body of up to sixteen thousand lines is short enough. -/
theorem Readable.of_few (hplain : r.Plain)
    (hvalues : ∀ s ∈ r.samples process, s.value.natAbs < 2 ^ 64)
    (hfew : (r.samples process).length ≤ 16000) : Readable r process := by
  refine ⟨hvalues, ?_⟩
  have hlines : ((r.samples process).map fun s => (s.line ++ ['\n']).length).sum ≤
      ((r.samples process).map fun s => (s.line ++ ['\n']).length).length • 500 := by
    refine List.sum_le_card_nsmul _ 500 fun n hn => ?_
    obtain ⟨s, hs, rfl⟩ := List.mem_map.mp hn
    have := line_length (hplain.samples process s hs) (hvalues s hs)
    rw [List.length_append, List.length_singleton]
    omega
  rw [List.length_map, smul_eq_mul] at hlines
  have hlimit : bodyLimit = 8388608 := rfl
  have hlength : (r.writePrometheus process).length =
      ((r.samples process).map fun s => (s.line ++ ['\n']).length).sum := List.length_flatMap
  omega

/-- The samples as they are read. -/
def readings (r : Registry) (process : Process) : List (List Char × ℤ) :=
  (r.samples process).map fun s => (s.series, s.value)

theorem scrapeMetrics_writePrometheus (hplain : r.Plain) (h : Readable r process) :
    scrapeMetrics (r.writePrometheus process) = (putAll ∅ (readings r process), false) := by
  have hsamples := hplain.samples process
  have hbody : r.writePrometheus process = unlines ((r.samples process).map Sample.line) := by
    rw [unlines, List.flatMap_map]
    rfl
  have hlines : scanLines ((r.writePrometheus process).take bodyLimit) =
      (r.samples process).map Sample.line := by
    have hnewline : ∀ line ∈ (r.samples process).map Sample.line, '\n' ∉ line := by
      intro line hline
      obtain ⟨s, hs, rfl⟩ := List.mem_map.mp hline
      exact newline_notMem_line (hsamples s hs)
    rw [List.take_of_length_le h.length, hbody, scanLines, splitOn_unlines hnewline]
    simp
  -- no line stops the scanner
  have hshort : ∀ line ∈ (r.samples process).map Sample.line, line.length < maxScanTokenSize := by
    intro line hline
    obtain ⟨s, hs, rfl⟩ := List.mem_map.mp hline
    exact (line_length (hsamples s hs) (h.values s hs)).trans (by decide)
  have htokens : ((r.samples process).map Sample.line).takeWhile
      (fun line => line.length < maxScanTokenSize) = (r.samples process).map Sample.line :=
    List.takeWhile_eq_self_iff.mpr fun line hline => by simpa using hshort line hline
  have hread : (((r.samples process).map Sample.line).map dropCR).filterMap readSample =
      readings r process := by
    rw [List.map_map, List.filterMap_map, readings, ← List.filterMap_eq_map]
    refine List.filterMap_congr fun s hs => ?_
    rw [Function.comp_apply, Function.comp_apply, dropCR_line, readSample_line (hsamples s hs)]
    rfl
  have hlong : ((r.samples process).map Sample.line).any
      (fun line => maxScanTokenSize ≤ line.length) = false := by
    rw [List.any_eq_false]
    intro line hline
    simpa using hshort line hline
  simp only [scrapeMetrics, hlines, htokens, hread, hlong]

end

/-! ## Which series are counted -/

/-- A text without an opening brace begins a series only where it begins the metric's name. -/
theorem prefix_name_of_series {s : Sample} {w : List Char} (hw : '\x7b' ∉ w)
    (h : w <+: s.series) : w <+: s.name.toList := by
  have hname : s.name.toList <+: s.series := List.prefix_append _ _
  obtain hbegins | ⟨t, rfl⟩ := List.prefix_or_prefix_of_prefix h hname
  · exact hbegins
  · -- otherwise the text goes on into the labels, which begin with a brace
    have ht : t <+: labels s.labels := (List.prefix_append_right_inj _).mp h
    cases t with
    | nil => rw [List.append_nil]
    | cons c t =>
      obtain ⟨rest, hrest⟩ := ht
      cases hlabels : s.labels with
      | nil =>
        rw [hlabels] at hrest
        cases hrest
      | cons label more =>
        rw [hlabels] at hrest
        have hc : c = '\x7b' := (List.cons.inj hrest).1
        exact absurd (by simp [hc]) hw

section
variable {s : Sample} (h : s.Plain)
include h

theorem resolutionsMetric_series :
    resolutionsMetric s.series = decide (s.name = resolutionName) := by
  by_cases hname : s.name = resolutionName
  · have hbegins : resolutionName.toList <+: s.series :=
      hname ▸ List.prefix_append s.name.toList (labels s.labels)
    rw [decide_eq_true hname]
    exact List.isPrefixOf_iff_prefix.mpr hbegins
  · rw [decide_eq_false hname, Bool.eq_false_iff]
    intro hmetric
    have hbegins : resolutionName.toList.isPrefixOf s.name.toList = true :=
      List.isPrefixOf_iff_prefix.mpr
        (prefix_name_of_series (by decide) (List.isPrefixOf_iff_prefix.mp hmetric))
    have hplain := h.1
    simp only [plainMetric, hbegins, Bool.and_eq_true, Bool.not_true, Bool.false_or,
      decide_eq_true_eq] at hplain
    exact hname hplain.2

/-- The daemon has no metric of the name that rejections are looked up under. -/
theorem rejectionsMetric_series : rejectionsMetric s.series = false := by
  rw [Bool.eq_false_iff]
  intro hmetric
  have hbegins := List.isPrefixOf_iff_prefix.mpr
    (prefix_name_of_series (by decide) (List.isPrefixOf_iff_prefix.mp hmetric))
  have hplain := h.1
  simp only [plainMetric, hbegins, Bool.and_eq_true, Bool.not_true, Bool.false_eq_true,
    and_false, false_and] at hplain

end

/-- The series of the resolutions counted under a key. -/
def resolutionText (key : String) : List Char :=
  let parts := fixedParts key 2
  resolutionName.toList ++ labels [("outcome", enum (parts.getD 0 "") resolutionKinds),
    ("egress_class", if parts.getD 1 "" = "direct" then "direct" else "marked"),
    ("egress", parts.getD 1 "")]

theorem series_resolutionSample (r : Registry) (key : String) :
    (r.resolutionSample key).series = resolutionText key := by
  simp only [Sample.series, Registry.resolutionSample, resolutionText]

/-- Three labels with the same names are told apart by their text. -/
theorem labels_three_inj {a b c : String} {u v w u' v' w' : String}
    (h : ∀ x ∈ [u, v, w, u', v', w'], plainWord x = true)
    (heq : labels [(a, u), (b, v), (c, w)] = labels [(a, u'), (b, v'), (c, w')]) :
    u = u' ∧ v = v' ∧ w = w' := by
  simp only [List.mem_cons, List.not_mem_nil, or_false, forall_eq_or_imp, forall_eq] at h
  obtain ⟨hu, hv, hw, hu', hv', hw'⟩ := h
  have hquote : ∀ {x : String}, plainWord x = true → '"' ∉ x.toList := by
    intro x hx hmem
    exact absurd (plainWord_chars hx _ hmem) (by decide)
  simp only [labels, @labelText_plain (_, u) hu, @labelText_plain (_, v) hv,
    @labelText_plain (_, w) hw, @labelText_plain (_, u') hu', @labelText_plain (_, v') hv',
    @labelText_plain (_, w') hw', List.flatMap_cons, List.flatMap_nil, List.append_nil,
    List.append_assoc, List.cons_append, List.nil_append, List.cons.injEq,
    List.append_cancel_left_eq, true_and] at heq
  -- what is left is the values with their closing quotes
  obtain ⟨hfirst, heq⟩ := append_sep_inj (hquote hu) (hquote hu') heq
  simp only [List.cons.injEq, List.append_cancel_left_eq, true_and] at heq
  obtain ⟨hsecond, heq⟩ := append_sep_inj (hquote hv) (hquote hv') heq
  simp only [List.cons.injEq, List.append_cancel_left_eq, true_and] at heq
  obtain ⟨hthird, -⟩ := append_sep_inj (hquote hw) (hquote hw') heq
  exact ⟨String.toList_injective hfirst, String.toList_injective hsecond,
    String.toList_injective hthird⟩

section
variable {r : Registry} (hplain : r.Plain) {key : String} (hkey : key ∈ r.resolutionSeries)
include hplain hkey

/-- A key is spelled by its outcome and its egress, which are printed as they are. -/
theorem resolution_key_spelled : ∃ outcome egress, plainWord outcome = true ∧
    plainWord egress = true ∧ key = outcome ++ "|" ++ egress ∧
    resolutionText key = resolutionName.toList ++ labels [("outcome", outcome),
      ("egress_class", if egress = "direct" then "direct" else "marked"), ("egress", egress)] := by
  obtain ⟨m, hm⟩ := hplain.resolutions
  obtain ⟨old, -, hparts, hspell⟩ := resolutionSeries_key hm hkey
  refine ⟨_, _, ?_, ?_, hspell, ?_⟩
  · rw [hparts, Registry.resolutionLabels, List.getD_cons_zero]
    exact plainWord_enum (by decide) _
  · rw [hparts, Registry.resolutionLabels, List.getD_cons_succ, List.getD_cons_zero]
    exact r.knownEgress_plain (plainWord_egressIdentity _)
  · have houtcome : enum ((fixedParts key 2).getD 0 "") resolutionKinds =
        (fixedParts key 2).getD 0 "" := by
      rw [hparts, Registry.resolutionLabels, List.getD_cons_zero]
      exact enum_idem _ _
    simp only [resolutionText, houtcome]

/-- Different keys, also of different registries, are different series. -/
theorem resolutionText_inj {r' : Registry} (hplain' : r'.Plain) {key' : String}
    (hkey' : key' ∈ r'.resolutionSeries) (heq : resolutionText key = resolutionText key') :
    key = key' := by
  obtain ⟨outcome, egress, houtcome, hegress, hspell, htext⟩ := resolution_key_spelled hplain hkey
  obtain ⟨outcome', egress', houtcome', hegress', hspell', htext'⟩ :=
    resolution_key_spelled hplain' hkey'
  rw [htext, htext'] at heq
  have hclass : ∀ e : String, plainWord (if e = "direct" then "direct" else "marked") = true := by
    intro e
    split <;> decide
  obtain ⟨hfirst, -, hthird⟩ := labels_three_inj (by simp [*]) (List.append_cancel_left heq)
  rw [hspell, hspell', hfirst, hthird]

end

/-! ## Resolutions in a scrape -/

/-- The resolutions recorded, of any outcome and egress. -/
def totalResolutions (r : Registry) : ℕ := (sumOver (fun _ => true) r.dns.resolutions).1

def totalRejected (r : Registry) : ℕ := sumOver (fun _ => true) r.proxy.rejected

section
variable {r : Registry} (hplain : r.Plain) (process : Process)
include hplain

theorem filter_readings : (readings r process).filter (fun e => resolutionsMetric e.1) =
    (sortedKeys r.resolutionSeries).map fun key =>
      (resolutionText key, ((valueAt r.resolutionSeries key).1 : ℤ)) := by
  have hfilter : (r.samples process).filter (fun s => resolutionsMetric s.series) =
      (sortedKeys r.resolutionSeries).map r.resolutionSample := by
    refine Eq.trans ?_ (@Registry.filter_resolution r process)
    exact List.filter_congr fun s hs => resolutionsMetric_series (hplain.samples process s hs)
  rw [readings, List.filter_map]
  change List.map _ ((r.samples process).filter fun s => resolutionsMetric s.series) = _
  rw [hfilter, List.map_map]
  refine List.map_congr_left fun key _ => ?_
  rw [Function.comp_apply, series_resolutionSample]
  rfl

theorem readings_once :
    (((readings r process).filter fun e => resolutionsMetric e.1).map Prod.fst).Nodup := by
  rw [filter_readings hplain, List.map_map]
  exact List.Nodup.map_on (fun key hkey key' hkey' heq =>
    resolutionText_inj hplain (mem_sortedKeys.mp hkey) hplain (mem_sortedKeys.mp hkey') heq)
    ((sortStrings_perm _).nodup_iff.mpr (AList.keys_nodup _))

/-- The scraped resolutions add up to those recorded. -/
theorem sumOver_readings :
    sumOver resolutionsMetric (putAll ∅ (readings r process)) = (totalResolutions r : ℤ) := by
  obtain ⟨m, hm⟩ := hplain.resolutions
  have htotal := (resolution_accounts hm).total
  rw [sumOver_putAll (readings_once hplain process) fun _ _ _ => AList.notMem_empty _,
    sumOver_empty, zero_add, filter_readings hplain, List.map_map, totalResolutions, hm,
    sumOver_regroup, ← htotal, List.map_map]
  rfl

theorem mem_readings {series : List Char} :
    series ∈ putAll ∅ (readings r process) ∧ resolutionsMetric series = true ↔
      ∃ key ∈ r.resolutionSeries, resolutionText key = series := by
  have hfilter : (∃ e ∈ (readings r process).filter (fun e => resolutionsMetric e.1),
      e.1 = series) ↔ ∃ key ∈ r.resolutionSeries, resolutionText key = series := by
    rw [filter_readings hplain]
    simp only [List.mem_map, mem_sortedKeys, exists_exists_and_eq_and]
  rw [← hfilter, mem_putAll]
  constructor
  · rintro ⟨hnone | ⟨e, he, rfl⟩, hmetric⟩
    · exact absurd hnone (AList.notMem_empty _)
    · exact ⟨e, List.mem_filter.mpr ⟨he, hmetric⟩, rfl⟩
  · rintro ⟨e, he, rfl⟩
    obtain ⟨he, hmetric⟩ := List.mem_filter.mp he
    exact ⟨.inr ⟨e, he, rfl⟩, hmetric⟩

theorem valueAt_readings {key : String} (hkey : key ∈ r.resolutionSeries) :
    valueAt (putAll ∅ (readings r process)) (resolutionText key) =
      (valueAt r.resolutionSeries key).1 := by
  have hmem : (resolutionText key, ((valueAt r.resolutionSeries key).1 : ℤ)) ∈
      (readings r process).filter fun e => resolutionsMetric e.1 := by
    rw [filter_readings hplain]
    exact List.mem_map_of_mem (mem_sortedKeys.mpr hkey)
  obtain ⟨hmem, hmetric⟩ := List.mem_filter.mp hmem
  have hvalue := valueAt_putAll (readings_once hplain process) hmem hmetric
  exact hvalue

end

/-! ## Comparing two scrapes -/

/-- Each outcome and egress that resolutions were counted for before still has a series. -/
def KeepsSeries (before after : Registry) : Prop :=
  ∀ old ∈ before.dns.resolutions, 0 < (valueAt before.dns.resolutions old).1 →
    ∃ new ∈ after.dns.resolutions, after.resolutionFold new = before.resolutionFold old

/-- A series that is gone loses what was counted for it. -/
theorem keepsSeries_iff (before after : Registry) : KeepsSeries before after ↔
    ∀ key ∈ before.resolutionSeries, key ∉ after.resolutionSeries →
      (valueAt before.resolutionSeries key).1 = 0 := by
  let count : ℕ × ℤ →+ ℤ := (Nat.castAddMonoidHom ℤ).comp (AddMonoidHom.fst ℕ ℤ)
  have hcount : ∀ x, count x = (x.1 : ℤ) := fun _ => rfl
  -- a series adds up what is counted under the keys folded into it
  have hvalue : ∀ key, (valueAt before.resolutionSeries key).1 = 0 ↔
      ∀ old ∈ before.dns.resolutions, before.resolutionFold old = key →
        (valueAt before.dns.resolutions old).1 = 0 := by
    intro key
    have hzero := sumOver_eq_zero_iff (q := fun old => decide (before.resolutionFold old = key))
      (m := before.dns.resolutions) count fun _ _ _ => Int.natCast_nonneg _
    simp only [hcount, Int.natCast_eq_zero, decide_eq_true_eq] at hzero
    rw [← hzero, ← sumOver_eq_valueAt, resolutionSeries_eq, sumOver_regroup]
  have hafter : ∀ key, key ∈ after.resolutionSeries ↔
      ∃ new ∈ after.dns.resolutions, after.resolutionFold new = key := by
    intro key
    rw [resolutionSeries_eq, mem_regroup]
  have hbefore : ∀ key, key ∈ before.resolutionSeries ↔
      ∃ old ∈ before.dns.resolutions, before.resolutionFold old = key := by
    intro key
    rw [resolutionSeries_eq, mem_regroup]
  constructor
  · intro hkeeps key _ hgone
    rw [hvalue]
    intro old hold hfold
    by_contra hne
    obtain ⟨new, hnew, hsame⟩ := hkeeps old hold (Nat.pos_of_ne_zero hne)
    exact hgone ((hafter key).mpr ⟨new, hnew, hsame.trans hfold⟩)
  · intro hall old hold hpos
    rw [← hafter]
    by_contra hgone
    have hzero := hall _ ((hbefore _).mpr ⟨old, hold, rfl⟩) hgone
    have := (hvalue _).mp hzero old hold rfl
    omega

section
variable {before after : Registry} (hbefore : before.Plain) (hafter : after.Plain)
  (process process' : Process) (duration : ℚ)
include hbefore hafter

/-- The derived number of resolutions is right when no counted series is gone. -/
theorem dnsResolutions_iff : (compareMetrics (putAll ∅ (readings before process))
    (putAll ∅ (readings after process')) duration).dnsResolutions =
      (totalResolutions after : ℤ) - totalResolutions before ↔ KeepsSeries before after := by
  rw [keepsSeries_iff]
  have hold := sumOver_readings hbefore process
  have hnew := sumOver_readings hafter process'
  have hmem := @mem_readings before hbefore process
  have hmem' := @mem_readings after hafter process'
  have hvalue := @valueAt_readings before hbefore process
  generalize putAll ∅ (readings before process) = old at *
  generalize putAll ∅ (readings after process') = new at *
  have hzero := sumOver_eq_zero_iff (q := fun k => resolutionsMetric k && !decide (k ∈ new))
    (m := old) (AddMonoidHom.id ℤ) (fun series hseries hq => by
      simp only [Bool.and_eq_true] at hq
      obtain ⟨key, hkey, rfl⟩ := hmem.mp ⟨hseries, hq.1⟩
      rw [AddMonoidHom.id_apply, hvalue hkey]
      exact Int.natCast_nonneg _)
  rw [sumOver_split resolutionsMetric (fun k => decide (k ∈ new))] at hold
  simp only [AddMonoidHom.id_apply] at hzero
  -- the comparison falls short by what was counted for series that are gone
  have hlost : (compareMetrics old new duration).dnsResolutions =
      (totalResolutions after : ℤ) - totalResolutions before ↔
        sumOver (fun k => resolutionsMetric k && !decide (k ∈ new)) old = 0 := by
    have hderived : (compareMetrics old new duration).dnsResolutions = _ := sumOver_delta _ _ _
    rw [hderived, hnew, ← hold]
    constructor
    · intro h
      omega
    · intro h
      rw [h, add_zero]
  rw [hlost, hzero]
  constructor
  · intro hall key hkey hgone
    obtain ⟨hin, hq⟩ := hmem.mpr ⟨key, hkey, rfl⟩
    have hout : resolutionText key ∉ new := by
      intro hout
      obtain ⟨key', hkey', heq⟩ := hmem'.mp ⟨hout, hq⟩
      rw [resolutionText_inj hbefore hkey hafter hkey' heq.symm] at hgone
      exact hgone hkey'
    have := hall _ hin (by simp [hq, hout])
    rw [hvalue hkey] at this
    exact_mod_cast this
  · intro hall series hseries hq
    simp only [Bool.and_eq_true, Bool.not_eq_true', decide_eq_false_iff_not] at hq
    obtain ⟨key, hkey, rfl⟩ := hmem.mp ⟨hseries, hq.1⟩
    have hgone : key ∉ after.resolutionSeries := fun hkey' =>
      hq.2 (hmem'.mpr ⟨key, hkey', rfl⟩).1
    rw [hvalue hkey, hall key hkey hgone]
    rfl

omit hbefore in
/-- Rejections are looked for under a name that is never written. -/
theorem rejections_eq_zero : (compareMetrics (putAll ∅ (readings before process))
    (putAll ∅ (readings after process')) duration).rejections = 0 := by
  unfold compareMetrics
  apply sumOver_eq_zero
  intro series hseries
  rw [mem_mapValues, mem_putAll] at hseries
  obtain hnone | ⟨e, he, rfl⟩ := hseries
  · exact absurd hnone (AList.notMem_empty _)
  · obtain ⟨s, hs, rfl⟩ := List.mem_map.mp he
    exact rejectionsMetric_series (hafter.samples process' s hs)

end

/-- What a comparison is to say about the state before a run and the state after it. -/
structure ReadsBack (before after : Registry) (process : Process) (c : MetricComparison) :
    Prop where
  delta : ∀ s ∈ after.samples process, s.series ∈ c.delta
  resolutions : c.dnsResolutions = (totalResolutions after : ℤ) - totalResolutions before
  rejections : c.rejections = (totalRejected after : ℤ) - totalRejected before

/-- The comparison of two scrapes. -/
def compared (before after : Registry) (process process' : Process) (duration : ℚ) :
    MetricComparison :=
  compareMetrics (scrapeMetrics (before.writePrometheus process)).1
    (scrapeMetrics (after.writePrometheus process')).1 duration

theorem compared_eq {before after : Registry} {process process' : Process}
    (hbefore : before.Reachable) (hafter : after.Reachable) (hread : Readable before process)
    (hread' : Readable after process') (duration : ℚ) :
    compared before after process process' duration =
      compareMetrics (putAll ∅ (readings before process)) (putAll ∅ (readings after process'))
        duration := by
  rw [compared, scrapeMetrics_writePrometheus hbefore.plain hread,
    scrapeMetrics_writePrometheus hafter.plain hread']

/-- For any two states of a running daemon, every series after the run gets a difference. The
resolutions are right as long as no counted series is gone, and the rejections as long as there
are none. -/
theorem compared_reads_back_iff {before after : Registry} {process process' : Process}
    (hbefore : before.Reachable) (hafter : after.Reachable) (hread : Readable before process)
    (hread' : Readable after process') (duration : ℚ) :
    ReadsBack before after process' (compared before after process process' duration) ↔
      KeepsSeries before after ∧ totalRejected after = totalRejected before := by
  have hresolutions := dnsResolutions_iff hbefore.plain hafter.plain process process' duration
  have hrejections := @rejections_eq_zero before after hafter.plain process process' duration
  rw [compared_eq hbefore hafter hread hread']
  constructor
  · intro h
    have hnone := h.rejections
    rw [hrejections] at hnone
    exact ⟨hresolutions.mp h.resolutions, by omega⟩
  · rintro ⟨hkeeps, hnone⟩
    refine ⟨fun s hs => ?_, hresolutions.mpr hkeeps, ?_⟩
    · rw [mem_delta, mem_putAll]
      exact .inr ⟨(s.series, s.value), List.mem_map_of_mem hs, rfl⟩
    · rw [hrejections, hnone, sub_self]

/-! ### Three runs -/

def fresh : Process := ⟨0, 1, 0, none, 0⟩

/-- One tunnel, and five resolutions that went through it. -/
def resolving : Registry := (newRegistry.apply (.setWG [⟨"wg0", "recent", 1, 0, 0⟩])).apply
  (.setDNS { newRegistry.dns with resolutions := AList.singleton "positive|wg0" (5, 2) })

/-- Two more resolutions. -/
def resolvingMore : Registry := resolving.apply
  (.setDNS { newRegistry.dns with resolutions := AList.singleton "positive|wg0" (7, 3) })

/-- A reload has taken the tunnel away. -/
def reloaded : Registry := resolving.apply (.setWG [])

/-- One session was rejected. -/
def rejecting : Registry := newRegistry.apply (.setProxy
  { newRegistry.proxy with accepted := 1, rejected := AList.singleton "tls|overload|loopback" 1 })

theorem resolving_reachable : resolving.Reachable :=
  .step (.step .new fun snapshot h => by
    rw [List.mem_singleton.mp h]
    decide) trivial

theorem keys_resolving : resolving.dns.resolutions.keys = ["positive|wg0"] := by decide +kernel

theorem readable_of_samples {r : Registry} (hr : r.Reachable)
    (h : (r.samples fresh).length ≤ 16000 ∧ ∀ s ∈ r.samples fresh, s.value.natAbs < 2 ^ 64) :
    Readable r fresh := .of_few hr.plain h.2 h.1

theorem compared_reads_back_more :
    ReadsBack resolving resolvingMore fresh (compared resolving resolvingMore fresh fresh 1) := by
  have hmore : resolvingMore.Reachable := .step resolving_reachable trivial
  refine (compared_reads_back_iff resolving_reachable hmore
    (readable_of_samples resolving_reachable (by decide +kernel))
    (readable_of_samples hmore (by decide +kernel)) 1).mpr ⟨?_, by decide +kernel⟩
  intro old hold _
  rw [AList.mem_keys, keys_resolving, List.mem_singleton] at hold
  subst hold
  exact ⟨"positive|wg0", by decide +kernel, by decide +kernel⟩

/-- A reload that drops a tunnel looks like five resolutions, and a rejection like nothing. -/
theorem compared_misreads :
    (resolving.Reachable ∧ reloaded.Reachable ∧
      totalResolutions reloaded = totalResolutions resolving ∧
      ¬ReadsBack resolving reloaded fresh (compared resolving reloaded fresh fresh 1)) ∧
    rejecting.Reachable ∧ totalRejected rejecting = totalRejected newRegistry + 1 ∧
      ¬ReadsBack newRegistry rejecting fresh (compared newRegistry rejecting fresh fresh 1) := by
  have hreloaded : reloaded.Reachable := .step resolving_reachable fun _ h => by cases h
  have hrejecting : rejecting.Reachable := .step .new trivial
  have hone : totalRejected rejecting = totalRejected newRegistry + 1 := by decide +kernel
  refine ⟨⟨resolving_reachable, hreloaded, by decide +kernel, fun h => ?_⟩, hrejecting, hone,
    fun h => ?_⟩
  · rw [compared_eq resolving_reachable hreloaded
      (readable_of_samples resolving_reachable (by decide +kernel))
      (readable_of_samples hreloaded (by decide +kernel))] at h
    have hkeeps := (dnsResolutions_iff resolving_reachable.plain hreloaded.plain _ _ _).mp
      h.resolutions
    obtain ⟨new, hnew, hfold⟩ := hkeeps "positive|wg0" (by decide +kernel) (by decide +kernel)
    -- the name is still in the counters, but it is exposed as another egress now
    have hkeys : new ∈ resolving.dns.resolutions.keys := hnew
    rw [keys_resolving, List.mem_singleton] at hkeys
    subst hkeys
    revert hfold
    decide +kernel
  · rw [compared_eq .new hrejecting (readable_of_samples .new (by decide +kernel))
      (readable_of_samples hrejecting (by decide +kernel))] at h
    have hnone := h.rejections
    rw [rejections_eq_zero hrejecting.plain, hone] at hnone
    omega

end SakhtarWg.Loadgen
