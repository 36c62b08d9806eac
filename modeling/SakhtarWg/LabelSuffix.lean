import Mathlib.Data.List.Basic
import Mathlib.Data.List.Infix

/-!
# The longest entry that ends a word

Words over an alphabet with a separator. An entry ends a word when it is the whole word or
follows one of its separators. The best entry of a list is the longest one that ends the
word, the first among equals; a scan over the list finds it, and so does a walk over the
word that looks every rest up.
-/

namespace SakhtarWg.LabelSuffix

variable {σ α : Type} (sep : σ)

/-- The rest is the whole word or starts right after a separator. -/
def EndsWith (w rest : List σ) : Prop := rest = w ∨ (sep :: rest) <:+ w

variable [DecidableEq σ]

instance (w rest : List σ) : Decidable (EndsWith sep w rest) :=
  inferInstanceAs (Decidable (rest = w ∨ (sep :: rest) <:+ w))

/-- The rests that start after a separator, the longest first, with the word itself when it
stands at a boundary. Empty rests are left out. -/
def rests (boundary : Bool) : List σ → List (List σ)
  | [] => []
  | c :: cs => (if boundary then [c :: cs] else []) ++ rests (c = sep) cs

/-- The value of the first entry with this word. -/
def firstValue (entries : List (List σ × α)) (rest : List σ) : Option α :=
  (entries.find? fun e => e.1 = rest).map Prod.snd

/-- One more entry: it replaces the one found so far when it is longer. -/
def better (w : List σ) (found : Option (List σ × α)) (e : List σ × α) : Option (List σ × α) :=
  if EndsWith sep w e.1 ∧ found.all (fun b => b.1.length < e.1.length) then some e else found

/-- The naive scan over all entries. -/
def scan (entries : List (List σ × α)) (w : List σ) : Option (List σ × α) :=
  entries.foldl (better sep w) none

/-- The longest entry that ends the word, the first among equals. -/
structure Best (entries : List (List σ × α)) (w rest : List σ) (v : α) : Prop where
  first : firstValue entries rest = some v
  ends : EndsWith sep w rest
  longest : ∀ e ∈ entries, EndsWith sep w e.1 → e.1.length ≤ rest.length

variable {sep}

/-! ## Rests of a word -/

theorem mem_rests {boundary : Bool} {w rest : List σ} : rest ∈ rests sep boundary w ↔
    rest ≠ [] ∧ ((boundary = true ∧ rest = w) ∨ (sep :: rest) <:+ w) := by
  induction w generalizing boundary with
  | nil =>
    simp only [rests, List.not_mem_nil, List.suffix_nil, reduceCtorEq, or_false, false_iff,
      not_and]
    intro hne _ hnil
    exact hne hnil
  | cons c cs ih =>
    have hself : rest ∈ (if boundary then [c :: cs] else []) ↔
        boundary = true ∧ rest = c :: cs := by
      cases boundary <;> simp
    rw [rests, List.mem_append, hself, ih, List.suffix_cons_iff, List.cons.injEq,
      decide_eq_true_eq, @eq_comm _ sep c]
    constructor
    · rintro (⟨hb, rfl⟩ | ⟨hne, h⟩)
      · exact ⟨by simp, .inl ⟨hb, rfl⟩⟩
      · exact ⟨hne, .inr h⟩
    · rintro ⟨hne, h | h⟩
      · exact .inl h
      · exact .inr ⟨hne, h⟩

theorem mem_rests_true {w rest : List σ} :
    rest ∈ rests sep true w ↔ rest ≠ [] ∧ EndsWith sep w rest := by
  rw [mem_rests]
  simp [EndsWith]

theorem rests_decreasing (boundary : Bool) (w : List σ) :
    (rests sep boundary w).Pairwise fun r s => s.length < r.length := by
  induction w generalizing boundary with
  | nil => exact List.Pairwise.nil
  | cons c cs ih =>
    have htail : ∀ r ∈ rests sep (decide (c = sep)) cs, r.length < (c :: cs).length := by
      intro r hr
      have hle : r.length ≤ cs.length := by
        rcases (mem_rests.mp hr).2 with ⟨-, rfl⟩ | h
        · exact le_rfl
        · exact ((List.suffix_cons sep r).trans h).length_le
      simp only [List.length_cons]
      omega
    rw [rests]
    cases boundary with
    | false => exact ih _
    | true => exact List.pairwise_cons.mpr ⟨htail, ih _⟩

/-! ## The scan -/

theorem firstValue_append (entries more : List (List σ × α)) (rest : List σ) :
    firstValue (entries ++ more) rest =
      (firstValue entries rest).or (firstValue more rest) := by
  rw [firstValue, firstValue, List.find?_append]
  cases entries.find? fun e => e.1 = rest <;> rfl

/-- Entries that all have one value. -/
theorem firstValue_const (words : List (List σ)) (v : α) (rest : List σ) :
    firstValue (words.map fun w => (w, v)) rest = if rest ∈ words then some v else none := by
  induction words with
  | nil => rfl
  | cons w words ih =>
    rw [List.map_cons, ← List.singleton_append, firstValue_append, ih]
    by_cases hw : w = rest
    · simp [firstValue, hw]
    · simp [firstValue, hw, Ne.symm hw]

theorem firstValue_eq_none {entries : List (List σ × α)} {rest : List σ} :
    firstValue entries rest = none ↔ ∀ e ∈ entries, e.1 ≠ rest := by
  simp [firstValue]

variable (sep) in
/-- What the scan has found is the best entry of those it has seen. -/
theorem scan_spec (entries : List (List σ × α)) (w : List σ) :
    (∀ rest v, scan sep entries w = some (rest, v) → Best sep entries w rest v) ∧
      (scan sep entries w = none → ∀ e ∈ entries, ¬ EndsWith sep w e.1) := by
  induction entries using List.reverseRecOn with
  | nil => exact ⟨fun _ _ h => (by cases h), fun _ e he => (by cases he)⟩
  | append_singleton entries e ih =>
    obtain ⟨word, value⟩ := e
    have hstep : scan sep (entries ++ [(word, value)]) w =
        better sep w (scan sep entries w) (word, value) := by
      rw [scan, List.foldl_append]
      rfl
    rw [hstep, better]
    split
    · rename_i hbetter
      obtain ⟨hends, hlonger⟩ := hbetter
      -- whatever was found so far is shorter than the new entry
      have hshorter : ∀ x ∈ entries, EndsWith sep w x.1 → x.1.length < word.length := by
        intro x hx hxe
        cases hfound : scan sep entries w with
        | none => exact absurd hxe (ih.2 hfound x hx)
        | some b =>
          have hle := (ih.1 b.1 b.2 hfound).longest x hx hxe
          rw [hfound] at hlonger
          simp only [Option.all_some, decide_eq_true_eq] at hlonger
          omega
      refine ⟨fun rest v h => ?_, fun h => by cases h⟩
      simp only [Option.some.injEq, Prod.mk.injEq] at h
      obtain ⟨rfl, rfl⟩ := h
      refine ⟨?_, hends, fun x hx hxe => ?_⟩
      · have hnone : firstValue entries word = none := by
          rw [firstValue_eq_none]
          intro x hx heq
          have := hshorter x hx (heq ▸ hends)
          rw [heq] at this
          omega
        rw [firstValue_append, hnone]
        simp [firstValue]
      · rcases List.mem_append.mp hx with hx | hx
        · exact (hshorter x hx hxe).le
        · cases List.mem_singleton.mp hx
          exact le_rfl
    · rename_i hworse
      refine ⟨fun rest v h => ?_, fun h => ?_⟩
      · have hbest := ih.1 rest v h
        refine ⟨?_, hbest.ends, fun x hx hxe => ?_⟩
        · rw [firstValue_append, hbest.first]
          rfl
        · rcases List.mem_append.mp hx with hx | hx
          · exact hbest.longest x hx hxe
          · cases List.mem_singleton.mp hx
            rw [h] at hworse
            simp only [Option.all_some, decide_eq_true_eq, not_and, not_lt] at hworse
            exact hworse hxe
      · intro x hx hxe
        rcases List.mem_append.mp hx with hx | hx
        · exact ih.2 h x hx hxe
        · cases List.mem_singleton.mp hx
          rw [h] at hworse
          exact hworse ⟨hxe, rfl⟩

/-! ## The walk -/

omit [DecidableEq σ] in
/-- A search along rests that get shorter stops at the longest one that has a value. -/
theorem findSome?_longest {f : List σ → Option α} {l : List (List σ)} {rest : List σ} {v : α}
    (hl : l.Pairwise fun r s => s.length < r.length) (hmem : rest ∈ l) (hv : f rest = some v)
    (hnone : ∀ r ∈ l, rest.length < r.length → f r = none) : l.findSome? f = some v := by
  induction l with
  | nil => cases hmem
  | cons r l ih =>
    obtain ⟨hr, hl⟩ := List.pairwise_cons.mp hl
    rcases List.mem_cons.mp hmem with rfl | hmem
    · rw [List.findSome?_cons, hv]
    · rw [List.findSome?_cons, hnone r (by simp) (hr rest hmem)]
      exact ih hl hmem fun r' hr' => hnone r' (by simp [hr'])

/-- The walk over the word finds what the scan over the entries finds. -/
theorem walk_eq_scan {entries : List (List σ × α)} (hne : ∀ e ∈ entries, e.1 ≠ [])
    (w : List σ) :
    (rests sep true w).findSome? (firstValue entries) = (scan sep entries w).map Prod.snd := by
  obtain ⟨hsome, hnone⟩ := scan_spec sep entries w
  cases hscan : scan sep entries w with
  | none =>
    rw [Option.map_none, List.findSome?_eq_none_iff]
    intro r hr
    rw [firstValue_eq_none]
    intro e he heq
    exact hnone hscan e he (heq ▸ (mem_rests_true.mp hr).2)
  | some b =>
    obtain ⟨rest, v⟩ := b
    have hbest := hsome rest v hscan
    have hmem : ∃ e ∈ entries, e.1 = rest := by
      by_contra hno
      push Not at hno
      have := hbest.first
      rw [firstValue_eq_none.mpr hno] at this
      cases this
    obtain ⟨e, he, rfl⟩ := hmem
    refine findSome?_longest (rests_decreasing true w)
      (mem_rests_true.mpr ⟨hne e he, hbest.ends⟩) hbest.first fun r hr hlonger => ?_
    rw [firstValue_eq_none]
    intro x hx heq
    have := hbest.longest x hx (heq ▸ (mem_rests_true.mp hr).2)
    rw [heq] at this
    omega

end SakhtarWg.LabelSuffix
