import SakhtarWg.Redaction

/-!
# The passes piece by piece

Where a match of each pattern can begin and how far it can reach, so that the text of a message can
be cut at its parts and the parts followed through the three passes.
-/

namespace SakhtarWg.Redaction
open Scan

/-! ## User information -/

theorem fold_eq_colon {c : Char} (h : fold c = ':') : c = ':' := by
  unfold fold at h
  split at h
  · exact absurd h (by decide)
  · split at h
    · exact absurd h (by decide)
    · unfold Char.toLower at h
      split at h
      · -- an upper-case letter becomes a lower-case one
        rename_i hupper
        have hval := congrArg (fun d : Char => d.val.toNat) h
        have hA : 65 ≤ c.val.toNat := UInt32.le_iff_toNat_le.mp hupper.1
        have hZ : c.val.toNat ≤ 90 := UInt32.le_iff_toNat_le.mp hupper.2
        have hshift : ('a'.val - 'A'.val).toNat = 32 := rfl
        have hcolon : ':'.val.toNat = 58 := rfl
        simp only [UInt32.toNat_add, hshift, hcolon] at hval
        omega
      · exact h

/-- The letters of a scheme. -/
theorem scheme_letters {scheme : List Char} (hs : IsScheme scheme) {c : Char} (hc : c ∈ scheme) :
    fold c ∈ ['h', 't', 'p', 's', ':', '/'] := by
  have hall : ∀ l ∈ ["https://".toList, "http://".toList], ∀ d ∈ l,
      d ∈ ['h', 't', 'p', 's', ':', '/'] := by
    decide
  exact hall _ hs _ (List.mem_map_of_mem hc)

theorem scheme_begin {scheme : List Char} (hs : IsScheme scheme) :
    ∃ c d rest, scheme = c :: d :: rest ∧ fold c = 'h' ∧ fold d = 't' ∧ ':' ∈ rest := by
  unfold IsScheme at hs
  match scheme, hs with
  | [], hs => exact absurd hs (by decide)
  | [c], hs => simp at hs
  | c :: d :: rest, hs =>
    simp only [List.map_cons, List.mem_cons, List.not_mem_nil, or_false] at hs
    refine ⟨c, d, rest, rfl, ?_⟩
    have hcolon : ':' ∈ rest.map fold → ':' ∈ rest := by
      intro h
      obtain ⟨e, he, hfold⟩ := List.mem_map.mp h
      rwa [← fold_eq_colon hfold]
    rcases hs with hs | hs
    · obtain ⟨hc, hd, hrest⟩ : fold c = 'h' ∧ fold d = 't' ∧
          rest.map fold = ['t', 'p', 's', ':', '/', '/'] := by
        simpa using hs
      exact ⟨hc, hd, hcolon (by rw [hrest]; decide)⟩
    · obtain ⟨hc, hd, hrest⟩ : fold c = 'h' ∧ fold d = 't' ∧
          rest.map fold = ['t', 'p', ':', '/', '/'] := by
        simpa using hs
      exact ⟨hc, hd, hcolon (by rw [hrest]; decide)⟩

theorem credentialURL_idle {c : Char} (h : fold c ≠ 'h') : Idle credentialURL c := by
  intro before l
  by_contra hne
  obtain ⟨m, hm⟩ := Option.ne_none_iff_exists'.mp hne
  obtain ⟨scheme, user, rest, hs, -, -, hl, -⟩ := credentialURL_eq_some.mp hm
  obtain ⟨d, e, rest', rfl, hd, -⟩ := scheme_begin hs
  cases hl
  exact h hd

/-- Where a match can neither reach nor be cut short: behind white space, and in front of white
space that comes before any `@`. -/
def Cuts (y b : List Char) : Prop :=
  (∃ c ∈ y.getLast?, isWhite c = true) ∨ b = [] ∨
    ∃ b₁ c b₂, b = b₁ ++ c :: b₂ ∧ isWhite c = true ∧ '@' ∉ b₁

theorem credentialURL_append {before : Option Char} {y b : List Char} (h : Cuts y b) :
    credentialURL before (y ++ b) =
      (credentialURL before y).map fun m => { m with rest := m.rest ++ b } := by
  cases hy : credentialURL before y with
  | some m =>
    obtain ⟨scheme, user, rest, hs, hne, huser, rfl, rfl⟩ := credentialURL_eq_some.mp hy
    exact credentialURL_eq_some.mpr ⟨scheme, user, rest ++ b, hs, hne, huser, by simp, rfl⟩
  | none =>
    rw [Option.map_none]
    by_contra hsome
    obtain ⟨m, hm⟩ := Option.ne_none_iff_exists'.mp hsome
    obtain ⟨scheme, user, rest, hs, hne, huser, hl, -⟩ := credentialURL_eq_some.mp hm
    have hwhite : ∀ c ∈ scheme ++ user ++ ['@'], isWhite c = false := by
      intro c hc
      simp only [List.mem_append, List.mem_singleton] at hc
      rcases hc with (hc | hc) | rfl
      · by_contra hw
        exact white_forall (fold · ∉ ['h', 't', 'p', 's', ':', '/']) (by decide)
          (Bool.not_eq_false _ ▸ hw) (scheme_letters hs hc)
      · have := huser c hc
        simp only [isUser, Bool.not_eq_true', Bool.or_eq_false_iff] at this
        exact this.2
      · decide
    have hsplit : y ++ b = scheme ++ user ++ ['@'] ++ rest := by simpa using hl
    -- the match lies in the first part, where there is none
    obtain ⟨z, rfl, -⟩ : ∃ z, y = scheme ++ user ++ ['@'] ++ z ∧ rest = z ++ b := by
      rcases h with ⟨c, hc, hcw⟩ | rfl | ⟨b₁, c, b₂, rfl, hcw, hat⟩
      · exact within hsplit (.inl ⟨c, hc, fun hmem => by simp [hwhite c hmem] at hcw⟩)
      · exact within hsplit (.inr (by simp))
      · have hfirst : y ++ b₁ ++ c :: b₂ = scheme ++ user ++ ['@'] ++ rest := by
          rw [List.append_assoc]
          exact hsplit
        obtain ⟨z, hz, hrest⟩ := within hfirst (.inr fun d hd hmem => by
          cases hd
          simp [hwhite c hmem] at hcw)
        rcases List.append_eq_append_iff.mp hz with ⟨w, hw, rfl⟩ | ⟨w, rfl, rfl⟩
        · -- the part behind would hold the `@`
          rcases List.eq_nil_or_concat w with rfl | ⟨w, d, rfl⟩
          · exact ⟨[], by simpa using hw.symm, by simpa using hrest⟩
          · rw [List.concat_eq_append, ← List.append_assoc] at hw
            have hd := List.singleton_inj.mp (List.append_inj' hw rfl).2
            exact absurd (by simp [← hd]) hat
        · exact ⟨w, rfl, by rw [hrest, List.append_assoc]⟩
    have hmatch := @credentialURL_eq_some before (scheme ++ user ++ ['@'] ++ z) _ |>.mpr
      ⟨scheme, user, z, hs, hne, huser, by simp, rfl⟩
    rw [hy] at hmatch
    cases hmatch

/-- A text that is replaced on its own. -/
theorem urls_append {before : Option Char} {a b : List Char}
    (h : b = [] ∨ ∃ b₁ c b₂, b = b₁ ++ c :: b₂ ∧ isWhite c = true ∧ '@' ∉ b₁) :
    replaceFrom credentialURL before 0 (a ++ b) =
      replaceFrom credentialURL before 0 a ++ replaceFrom credentialURL (lastOr before a) 0 b :=
  replaceFrom_append credentialURL_sound fun _ _ _ _ => credentialURL_append (.inr h)

/-- Text in front that holds no match, up to white space. -/
theorem urls_quiet_of_white {before : Option Char} {t : List Char}
    (hfree : Quiet credentialURL before t []) (hlast : ∀ c ∈ t.getLast?, isWhite c = true)
    (b : List Char) : Quiet credentialURL before t b := by
  intro x y hxy hy
  have hnone := hfree x y hxy hy
  rw [List.append_nil] at hnone
  obtain ⟨c, hc, hct⟩ := exists_last hxy hy
  rw [credentialURL_append (.inl ⟨c, hc, hlast c hct⟩), hnone]
  rfl

/-- Text without a colon that ends with no letter of a scheme. -/
theorem urls_quiet_of_plain {before : Option Char} {t : List Char} (hcolon : ':' ∉ t)
    (hlast : ∀ c ∈ t.getLast?, fold c ∉ ['h', 't', 'p', 's', ':', '/']) (b : List Char) :
    Quiet credentialURL before t b := by
  intro x y hxy hy
  by_contra hne
  obtain ⟨m, hm⟩ := Option.ne_none_iff_exists'.mp hne
  obtain ⟨scheme, user, rest, hs, -, -, hl, -⟩ := credentialURL_eq_some.mp hm
  obtain ⟨c, hc, hct⟩ := exists_last hxy hy
  obtain ⟨z, rfl, -⟩ := within hl (.inl ⟨c, hc, fun hmem => hlast c hct (scheme_letters hs hmem)⟩)
  obtain ⟨d, e, rest', rfl, -, -, hmem⟩ := scheme_begin hs
  exact hcolon (by simp [hxy, hmem])

/-- Key names hold no beginning of a scheme. -/
theorem urls_quiet_of_key {before : Option Char} {key : List Char} (hkey : key.map fold ∈ keyNames)
    (b : List Char) : Quiet credentialURL before key b := by
  intro x y hxy hy
  by_contra hne
  obtain ⟨m, hm⟩ := Option.ne_none_iff_exists'.mp hne
  obtain ⟨scheme, user, rest, hs, -, -, hl, -⟩ := credentialURL_eq_some.mp hm
  obtain ⟨d, e, rest', rfl, hd, he, -⟩ := scheme_begin hs
  rw [hxy, List.map_append] at hkey
  match y, hy with
  | [c], _ =>
    -- no name ends with the first letter
    have hend : ∀ name ∈ keyNames, name.getLast? ≠ some 'h' := by decide
    simp only [List.cons_append, List.nil_append, List.cons.injEq] at hl
    refine hend _ hkey ?_
    rw [List.getLast?_append]
    simp [hl.1, hd]
  | c :: c' :: y, _ =>
    have hinside : ∀ name ∈ keyNames, ¬['h', 't'] <:+: name := by decide +kernel
    simp only [List.cons_append, List.cons.injEq] at hl
    refine hinside _ hkey ⟨x.map fold, y.map fold, ?_⟩
    simp [hl.1, hl.2.1, hd, he]

theorem urls_idle_of_white {c : Char} (h : isWhite c = true) : Idle credentialURL c :=
  credentialURL_idle (white_forall (fold · ≠ 'h') (by decide) h)

theorem urls_idle_of_separator {c : Char} (h : isSeparator c = true) : Idle credentialURL c :=
  credentialURL_idle (separator_forall (fold · ≠ 'h') (by decide) h)

/-! ## Assignments -/

theorem assignment_idle {c : Char} (h : ¬IsLetter c) : Idle secretAssignment c := by
  intro before l
  by_contra hne
  obtain ⟨m, hm⟩ := Option.ne_none_iff_exists'.mp hne
  obtain ⟨key, white, separator, white', value, rest, hopens, -, -, -, hl, -⟩ :=
    secretAssignment_eq_some.mp hm
  obtain ⟨d, key', rfl⟩ := List.exists_cons_of_ne_nil (key_ne_nil hopens.name)
  cases hl
  exact h (isLetter_of_mem hopens.name List.mem_cons_self)

/-- A text that is an assignment up to some point of its value. -/
def OpenWith (before : Option Char) (y kept : List Char) : Prop :=
  ∃ key white separator white' value, Opens before key white separator white' ∧
    (∀ c ∈ value, isValue c = true) ∧ y = key ++ white ++ separator :: (white' ++ value) ∧
    kept = key ++ white ++ [separator]

/-- A text that goes on with a character of a value, in front of which no key name can be read. -/
structure Goes (y b : List Char) : Prop where
  ne_nil : b ≠ []
  value : ∀ c ∈ b.head?, isValue c = true
  separator : ∀ c ∈ b.head?, isSeparator c = false
  apart : (∀ c ∈ y.getLast?, ¬IsLetter c) ∨ ∀ c ∈ b.head?, ¬IsLetter c

theorem Goes.white {y b : List Char} (h : Goes y b) : ∀ c ∈ b.head?, isWhite c = false := by
  intro c hc
  have := h.value c hc
  simp only [isValue, Bool.not_eq_true', Bool.or_eq_false_iff] at this
  exact this.1.1

theorem Goes.suffix {t x y b : List Char} (h : Goes t b) (hxy : t = x ++ y) : Goes y b := by
  refine ⟨h.ne_nil, h.value, h.separator, h.apart.imp (fun hlast c hc => hlast c ?_) id⟩
  obtain ⟨d, hd, hdt⟩ := exists_last hxy (List.ne_nil_of_mem (List.mem_of_getLast? hc))
  rw [Option.mem_def] at hc hd
  rw [hc] at hd
  cases hd
  exact hdt

/-- The value of an open assignment takes in what follows. -/
theorem OpenWith.match {before : Option Char} {y kept b : List Char} (h : OpenWith before y kept)
    (hb : b ≠ []) (hvalue : ∀ c ∈ b.head?, isValue c = true) :
    secretAssignment before (y ++ b) =
      some ⟨y ++ b.takeWhile isValue, kept ++ redacted, b.dropWhile isValue⟩ := by
  obtain ⟨key, white, separator, white', value, hopens, hvalues, rfl, rfl⟩ := h
  obtain ⟨v, rest, rfl, hv, hrest, htake, hdrop⟩ := exists_run isValue b
  rw [htake, hdrop]
  have hne : v ≠ [] := by
    rintro rfl
    obtain ⟨c, rest, rfl⟩ := List.exists_cons_of_ne_nil hb
    have := hvalue c rfl
    rw [hrest c rfl] at this
    cases this
  refine secretAssignment_eq_some.mpr ⟨key, white, separator, white', value ++ v, rest, hopens,
    by simp [hne], ?_, hrest, by simp, by simp⟩
  rw [List.forall_mem_append]
  exact ⟨hvalues, hv⟩

/-- A finished assignment stays as it is. -/
theorem assignment_append {before : Option Char} {y b : List Char} {m : Match Char}
    (h : secretAssignment before y = some m) (hrest : m.rest ≠ []) :
    secretAssignment before (y ++ b) = some { m with rest := m.rest ++ b } := by
  obtain ⟨key, white, separator, white', value, rest, hopens, hne, hvalue, hstop, rfl, rfl⟩ :=
    secretAssignment_eq_some.mp h
  refine secretAssignment_eq_some.mpr ⟨key, white, separator, white', value, rest ++ b, hopens, hne,
    hvalue, ?_, by simp, rfl⟩
  rwa [List.head?_append_of_ne_nil _ hrest]

/-- A match that ends with the text is open. -/
theorem openWith_of_match {before : Option Char} {y : List Char} {m : Match Char}
    (h : secretAssignment before y = some m) (hrest : m.rest = []) :
    ∃ kept, m.out = kept ++ redacted ∧ OpenWith before y kept := by
  obtain ⟨key, white, separator, white', value, rest, hopens, -, hvalue, -, rfl, rfl⟩ :=
    secretAssignment_eq_some.mp h
  obtain rfl : rest = [] := hrest
  exact ⟨key ++ white ++ [separator], by simp, key, white, separator, white', value, hopens, hvalue,
    by simp, rfl⟩

theorem OpenWith.ne_nil {before : Option Char} {y kept : List Char} (h : OpenWith before y kept) :
    y ≠ [] := by
  obtain ⟨key, white, separator, white', value, -, -, rfl, -⟩ := h
  simp

/-- What is open is not finished. -/
theorem OpenWith.rest_nil {before : Option Char} {y kept : List Char} {m : Match Char}
    (h : OpenWith before y kept) (hm : secretAssignment before y = some m) : m.rest = [] := by
  by_contra hrest
  -- one more character of a value would both be taken and be left
  have htaken := h.match (b := ['-']) (by simp) (by simp [isValue, isWhite])
  have hleft := (assignment_append (b := ['-']) hm hrest).symm.trans htaken
  have hrests := congrArg (Option.map Match.rest) hleft
  simp [isValue, isWhite] at hrests

/-- What is neither an assignment nor open does not become one. -/
theorem assignment_none {before : Option Char} {y b : List Char} (hy : y ≠ [])
    (hnone : secretAssignment before y = none) (hopen : ∀ kept, ¬OpenWith before y kept)
    (hb : Goes y b) : secretAssignment before (y ++ b) = none := by
  by_contra hne
  obtain ⟨m, hm⟩ := Option.ne_none_iff_exists'.mp hne
  obtain ⟨key, white, separator, white', value, rest, hopens, hvne, hvalue, hstop, hl, -⟩ :=
    secretAssignment_eq_some.mp hm
  obtain ⟨c, b', rfl⟩ := List.exists_cons_of_ne_nil hb.ne_nil
  have hcw : isWhite c = false := hb.white c rfl
  have hcs : isSeparator c = false := hb.separator c rfl
  -- the end of the text is looked for part by part
  have hkey : y ++ c :: b' = key ++ (white ++ (separator :: (white' ++ (value ++ rest)))) := by
    simpa using hl
  obtain ⟨y₁, rfl, hy₁⟩ : ∃ z, y = key ++ z ∧
      white ++ (separator :: (white' ++ (value ++ rest))) = z ++ c :: b' := by
    refine within hkey ?_
    rcases hb.apart with hlast | hhead
    · obtain ⟨d, hd, -⟩ := exists_last (List.nil_append y).symm hy
      exact .inl ⟨d, hd, fun hmem => hlast d hd (isLetter_of_mem hopens.name hmem)⟩
    · exact .inr fun d hd hmem => hhead d hd (isLetter_of_mem hopens.name hmem)
  obtain ⟨y₂, rfl, hy₂⟩ := within hy₁.symm (.inr fun d hd hmem => by
    cases hd
    rw [hopens.white c hmem] at hcw
    cases hcw)
  cases y₂ with
  | nil =>
    rw [List.nil_append, List.cons.injEq] at hy₂
    rw [← hy₂.1, hopens.separator] at hcs
    cases hcs
  | cons s y₃ =>
    rw [List.cons_append, List.cons.injEq] at hy₂
    obtain ⟨rfl, hy₃⟩ := hy₂
    obtain ⟨y₄, rfl, hy₄⟩ := within hy₃.symm (.inr fun d hd hmem => by
      cases hd
      rw [hopens.white' c hmem] at hcw
      cases hcw)
    rcases List.append_eq_append_iff.mp hy₄ with ⟨z, rfl, hz⟩ | ⟨z, rfl, -⟩
    · -- a value that ends before the text does
      cases z with
      | nil =>
        exact hopen _ ⟨key, white, separator, white', value, hopens, hvalue, by simp, rfl⟩
      | cons d z =>
        have hmatch := (@secretAssignment_eq_some before (key ++ (white ++ separator ::
          (white' ++ (value ++ d :: z)))) _).mpr ⟨key, white, separator, white', value, d :: z,
            hopens, hvne, hvalue, by simpa [hz] using hstop, by simp, rfl⟩
        rw [hnone] at hmatch
        cases hmatch
    · exact hopen _ ⟨key, white, separator, white', y₄, hopens,
        (List.forall_mem_append.mp hvalue).1, by simp, rfl⟩

/-- The character before makes no difference where no key name begins. -/
theorem assignments_before {before before' : Option Char} {l : List Char}
    (h : ∀ c ∈ l.head?, ¬IsLetter c) :
    replaceFrom secretAssignment before 0 l = replaceFrom secretAssignment before' 0 l := by
  cases l with
  | nil => simp
  | cons c l =>
    apply replaceFrom_before
    rw [assignment_idle (h c rfl) before l, assignment_idle (h c rfl) before' l]

theorem assignments_before_word {c : Char} (hc : isWord c = false) (l : List Char) :
    replaceFrom secretAssignment (some c) 0 l = replaceFrom secretAssignment none 0 l := by
  apply replaceFrom_before
  simp [secretAssignment, boundary, hc]

/-- Text without a separator whose end no assignment can go over. -/
theorem assignments_quiet_of_plain {before : Option Char} {t : List Char}
    (hseparator : ∀ c ∈ t, isSeparator c = false)
    (hlast : ∀ c ∈ t.getLast?, ¬IsLetter c ∧ isWhite c = false) (b : List Char) :
    Quiet secretAssignment before t b := by
  intro x y hxy hy
  by_contra hne
  obtain ⟨m, hm⟩ := Option.ne_none_iff_exists'.mp hne
  obtain ⟨key, white, separator, white', value, rest, hopens, -, -, -, hl, -⟩ :=
    secretAssignment_eq_some.mp hm
  obtain ⟨c, hc, hct⟩ := exists_last hxy hy
  have hout : c ∉ key ++ white := by
    intro hmem
    rcases List.mem_append.mp hmem with hmem | hmem
    · exact (hlast c hct).1 (isLetter_of_mem hopens.name hmem)
    · exact Bool.false_ne_true ((hlast c hct).2.symm.trans (hopens.white c hmem))
  obtain ⟨z, rfl, hz⟩ := within (hl.trans (by simp :
    _ = key ++ white ++ (separator :: (white' ++ (value ++ rest))))) (.inl ⟨c, hc, hout⟩)
  cases z with
  | nil =>
    rw [List.append_nil] at hc
    exact hout (List.mem_of_getLast? hc)
  | cons d z =>
    rw [List.cons_append, List.cons.injEq] at hz
    have hd := hseparator d (by simp [hxy])
    rw [← hz.1, hopens.separator] at hd
    cases hd

theorem dropWhile_not_letter (b : List Char) : ∀ c ∈ (b.dropWhile isValue).head?, ¬IsLetter c := by
  intro c hc hletter
  obtain ⟨-, rest, -, -, hstop, -, hdrop⟩ := exists_run isValue b
  rw [hdrop] at hc
  have hvalue := hstop c hc
  rw [isValue_of_letter hletter] at hvalue
  cases hvalue

/-! ### A text in front of a dash -/

theorem dash_not_letter (b : List Char) : ∀ c ∈ ('-' :: b).head?, ¬IsLetter c := by
  intro c hc
  cases hc
  decide

theorem goes_dash (t b : List Char) : Goes t ('-' :: b) :=
  ⟨by simp, by simp [isValue, isWhite], by simp [isSeparator], .inr (dash_not_letter b)⟩

/-- Going through a text from the left, the last assignment is one that is still open at its
end. -/
inductive EndsOpen : Option Char → List Char → Prop
  | here {before : Option Char} {t kept : List Char} (h : OpenWith before t kept) :
    EndsOpen before t
  | miss {before : Option Char} {c : Char} {t : List Char}
    (h : secretAssignment before (c :: t) = none) (ht : EndsOpen (some c) t) :
    EndsOpen before (c :: t)
  | hit {before : Option Char} {t : List Char} {m : Match Char}
    (h : secretAssignment before t = some m) (ht : EndsOpen (lastOr before m.text) m.rest) :
    EndsOpen before t

theorem not_endsOpen_nil (before : Option Char) : ¬EndsOpen before [] := by
  intro h
  cases h with
  | here ho => exact OpenWith.ne_nil ho rfl
  | hit hm =>
    obtain ⟨hne, hsplit⟩ := secretAssignment_sound _ _ _ hm
    exact hne (List.append_eq_nil_iff.mp hsplit.symm).1

/-- A text is replaced on its own up to a dash, or it ends in an assignment that takes the dash and
what comes with it. -/
theorem assignments_run (before : Option Char) (t : List Char) :
    (¬EndsOpen before t ∧ ∃ w, ('-' ∉ t → '-' ∉ w) ∧ ∀ b,
      replaceFrom secretAssignment before 0 (t ++ '-' :: b) =
        w ++ replaceFrom secretAssignment none 0 ('-' :: b)) ∨
    (EndsOpen before t ∧ ∃ w, ('-' ∉ t → '-' ∉ w) ∧ ∀ b,
      replaceFrom secretAssignment before 0 (t ++ '-' :: b) =
        w ++ redacted ++ replaceFrom secretAssignment none 0 (('-' :: b).dropWhile isValue)) := by
  -- an open assignment at some position takes the dash
  have hopen : ∀ (before : Option Char) (t kept : List Char), OpenWith before t kept →
      ('-' ∉ t → '-' ∉ kept) ∧ ∀ b, replaceFrom secretAssignment before 0 (t ++ '-' :: b) =
        kept ++ redacted ++ replaceFrom secretAssignment none 0 (('-' :: b).dropWhile isValue) := by
    intro before t kept h
    refine ⟨?_, fun b => ?_⟩
    · obtain ⟨key, white, separator, white', value, -, -, rfl, rfl⟩ := h
      simp only [List.mem_append, List.mem_cons, not_or]
      tauto
    · rw [replaceFrom_match secretAssignment_sound (h.match (goes_dash t b).ne_nil
        (goes_dash t b).value)]
      congr 1
      exact assignments_before (dropWhile_not_letter _)
  induction before, t using scan_induct secretAssignment_sound with
  | nil before =>
    refine .inl ⟨not_endsOpen_nil before, [], by simp, fun b => ?_⟩
    rw [List.nil_append, List.nil_append]
    exact assignments_before (dash_not_letter b)
  | miss before c t hm ih =>
    by_cases ho : ∃ kept, OpenWith before (c :: t) kept
    · obtain ⟨kept, ho⟩ := ho
      exact .inr ⟨.here ho, kept, hopen _ _ _ ho⟩
    · have hstep : ∀ b, replaceFrom secretAssignment before 0 (c :: t ++ '-' :: b) =
          c :: replaceFrom secretAssignment (some c) 0 (t ++ '-' :: b) := fun b =>
        replaceFrom_miss (assignment_none (List.cons_ne_nil c t) hm (not_exists.mp ho)
          (goes_dash _ b))
      rcases ih with ⟨hclosed, w, hw, hrun⟩ | ⟨hends, w, hw, hrun⟩
      · refine .inl ⟨fun hends => ?_, c :: w, ?_, fun b => by rw [hstep, hrun, List.cons_append]⟩
        · cases hends with
          | here h => exact ho ⟨_, h⟩
          | miss _ ht => exact hclosed ht
          | hit h => exact absurd (hm.symm.trans h) (by simp)
        · simp only [List.mem_cons, not_or]
          exact fun h => ⟨h.1, hw h.2⟩
      · refine .inr ⟨.miss hm hends, c :: w, ?_, fun b => by rw [hstep, hrun]; rfl⟩
        simp only [List.mem_cons, not_or]
        exact fun h => ⟨h.1, hw h.2⟩
  | hit before t m hm hsplit ih =>
    by_cases hrest : m.rest = []
    · obtain ⟨kept, -, ho⟩ := openWith_of_match hm hrest
      exact .inr ⟨.here ho, kept, hopen _ _ _ ho⟩
    · have hstep : ∀ b, replaceFrom secretAssignment before 0 (t ++ '-' :: b) =
          m.out ++ replaceFrom secretAssignment (lastOr before m.text) 0 (m.rest ++ '-' :: b) :=
        fun b => replaceFrom_match secretAssignment_sound (assignment_append hm hrest)
      have hout : '-' ∉ t → '-' ∉ m.out ∧ '-' ∉ m.rest := by
        obtain ⟨key, white, separator, white', value, rest, -, -, -, -, rfl, rfl⟩ :=
          secretAssignment_eq_some.mp hm
        simp only [List.mem_append, List.mem_cons, not_or]
        intro h
        exact ⟨⟨h.1.1, h.1.2.1, by decide⟩, h.2⟩
      rcases ih with ⟨hclosed, w, hw, hrun⟩ | ⟨hends, w, hw, hrun⟩
      · refine .inl ⟨fun hends => ?_, m.out ++ w, fun h => ?_, fun b => by
          rw [hstep, hrun, List.append_assoc]⟩
        · cases hends with
          | here ho => exact hrest (OpenWith.rest_nil ho hm)
          | miss h => exact absurd (hm.symm.trans h) (by simp)
          | hit h ht =>
            cases hm.symm.trans h
            exact hclosed ht
        · rw [List.mem_append, not_or]
          exact ⟨(hout h).1, hw (hout h).2⟩
      · refine .inr ⟨.hit hm hends, m.out ++ w, fun h => ?_, fun b => by
          rw [hstep, hrun, List.append_assoc, List.append_assoc, List.append_assoc]⟩
        rw [List.mem_append, not_or]
        exact ⟨(hout h).1, hw (hout h).2⟩

/-! ### A text in front of a word -/

/-- The text ends in an assignment that has no value yet. -/
def Dangling (t : List Char) : Prop :=
  ∃ x key white separator white', t = x ++ (key ++ white ++ separator :: white') ∧
    Opens (lastOr none x) key white separator white'

section
variable {before : Option Char} {t b : List Char}

theorem OpenWith.kept_begins {y kept : List Char} (h : OpenWith before y kept) : kept <+: y := by
  obtain ⟨key, white, separator, white', value, -, -, rfl, rfl⟩ := h
  exact ⟨white' ++ value, by simp⟩

theorem dangling_iff (hlast : ∀ c ∈ t.getLast?, isWhite c = true) :
    Dangling t ↔ ∃ x y kept, t = x ++ y ∧ OpenWith (lastOr none x) y kept := by
  constructor
  · rintro ⟨x, key, white, separator, white', rfl, hopens⟩
    exact ⟨x, _, _, rfl, key, white, separator, white', [], hopens, by simp, by simp, rfl⟩
  · rintro ⟨x, y, kept, rfl, key, white, separator, white', value, hopens, hvalue, rfl, -⟩
    -- the text ends with white space, so there is no value
    obtain rfl : value = [] := by
      by_contra hne
      obtain ⟨c, hc, hct⟩ := exists_last (t := x ++ (key ++ white ++ separator :: (white' ++ value)))
        (by simp : _ = x ++ (key ++ white ++ separator :: white') ++ value) hne
      have hv := hvalue c (List.mem_of_getLast? hc)
      simp [isValue, hlast c hct] at hv
    exact ⟨x, key, white, separator, white', by simp, hopens⟩

theorem goes_of_white (hlast : ∀ c ∈ t.getLast?, isWhite c = true) (hb : b ≠ [])
    (hvalue : ∀ c ∈ b.head?, isValue c = true ∧ isSeparator c = false) : Goes t b :=
  ⟨hb, fun c hc => (hvalue c hc).1, fun c hc => (hvalue c hc).2,
    .inl fun c hc => not_letter_of_white (hlast c hc)⟩

theorem assignments_quiet_of_white (hfree : Quiet secretAssignment none t [])
    (hlast : ∀ c ∈ t.getLast?, isWhite c = true) (hd : ¬Dangling t) (hb : Goes t b) :
    Quiet secretAssignment none t b := by
  intro x y hxy hy
  have hnone := hfree x y hxy hy
  rw [List.append_nil] at hnone
  refine assignment_none hy hnone (fun kept ho => hd ?_) (hb.suffix hxy)
  exact (dangling_iff hlast).mpr ⟨x, y, kept, hxy, ho⟩

/-- The first open assignment of a text without finished ones. -/
theorem exists_first_open (hfree : Quiet secretAssignment before t [])
    (ho : ∃ x y kept, t = x ++ y ∧ OpenWith (lastOr before x) y kept) :
    ∃ x y kept, t = x ++ y ∧ OpenWith (lastOr before x) y kept ∧
      ∀ b, Goes t b → Quiet secretAssignment before x (y ++ b) := by
  induction t generalizing before with
  | nil =>
    obtain ⟨x, y, kept, hxy, ho⟩ := ho
    simp at hxy
    exact absurd hxy.2 ho.ne_nil
  | cons c t ih =>
    by_cases hfirst : ∃ kept, OpenWith before (c :: t) kept
    · obtain ⟨kept, hfirst⟩ := hfirst
      exact ⟨[], c :: t, kept, rfl, hfirst, fun b _ => Quiet.nil _⟩
    · have hnone := hfree [] (c :: t) rfl (by simp)
      rw [List.append_nil] at hnone
      have hfree' : Quiet secretAssignment (some c) t [] := by
        intro x y hxy hy
        have := hfree (c :: x) y (by rw [hxy, List.cons_append]) hy
        rwa [lastOr_cons] at this
      obtain ⟨x, y, kept, hxy, ho⟩ := ho
      cases x with
      | nil =>
        rw [List.nil_append] at hxy
        exact absurd ⟨kept, hxy ▸ ho⟩ hfirst
      | cons d x =>
        rw [List.cons_append, List.cons.injEq] at hxy
        obtain ⟨rfl, hxy⟩ := hxy
        rw [lastOr_cons] at ho
        obtain ⟨x, y, kept, rfl, ho, hquiet⟩ := ih hfree' ⟨x, y, kept, hxy, ho⟩
        refine ⟨c :: x, y, kept, rfl, by rwa [lastOr_cons], fun b hb => Quiet.cons ?_ ?_⟩
        · have := assignment_none (List.cons_ne_nil c _) hnone (not_exists.mp hfirst) hb
          simpa using this
        · exact hquiet b (hb.suffix (x := [c]) rfl)

/-- An assignment without a value takes the word that follows. -/
theorem assignments_dangling (hfree : Quiet secretAssignment none t [])
    (hlast : ∀ c ∈ t.getLast?, isWhite c = true) (hd : Dangling t) :
    ∃ kept, kept <+: t ∧ ∀ b, Goes t b → replaceFrom secretAssignment none 0 (t ++ b) =
      kept ++ redacted ++ replaceFrom secretAssignment none 0 (b.dropWhile isValue) := by
  obtain ⟨x, y, kept, rfl, ho, hquiet⟩ := exists_first_open hfree ((dangling_iff hlast).mp hd)
  refine ⟨x ++ kept, ?_, fun b hb => ?_⟩
  · rw [List.prefix_append_right_inj]
    exact ho.kept_begins
  · rw [List.append_assoc, replaceFrom_quiet (hquiet b hb),
      replaceFrom_match secretAssignment_sound (ho.match hb.ne_nil hb.value),
      @assignments_before _ none _ (dropWhile_not_letter b)]
    simp

end

/-! ## PEM blocks -/

theorem marker_begins {literal l : List Char} {m : List Char × List Char}
    (h : marker literal l = some m) : literal <+: l := by
  obtain ⟨label, -, -, hm, hl⟩ := marker_eq_some.mp (h : _ = some (m.1, m.2))
  exact ⟨label ++ dashes ++ m.2, by simp [hl, hm]⟩

theorem pem_begins {before : Option Char} {l : List Char} {m : Match Char}
    (h : pemMaterial before l = some m) : beginLiteral <+: l := by
  unfold pemMaterial at h
  split at h
  · cases h
  · rename_i hmarker
    exact marker_begins hmarker

theorem pem_eq_none {before : Option Char} {l : List Char} (h : ¬beginLiteral <+: l) :
    pemMaterial before l = none := by
  by_contra hne
  obtain ⟨m, hm⟩ := Option.ne_none_iff_exists'.mp hne
  exact h (pem_begins hm)

theorem pem_idle {c : Char} (h : c ≠ '-') : Idle pemMaterial c := by
  intro before l
  apply pem_eq_none
  rintro ⟨rest, hrest⟩
  rw [beginLiteral_eq, List.cons_append, List.cons.injEq] at hrest
  exact h hrest.1.symm

section
variable {before : Option Char} {t b : List Char}

theorem pem_quiet_of_no_dash (h : '-' ∉ t) (b : List Char) : Quiet pemMaterial before t b :=
  Quiet.of_idle (fun _ hc => pem_idle fun he => h (he ▸ hc)) b

/-- Text that holds no beginning of a block, in front of something no beginning goes on with. -/
theorem pem_quiet_of_head (h : ¬beginLiteral <:+: t) (hb : ∀ c ∈ b.head?, c ∉ beginLiteral) :
    Quiet pemMaterial before t b := by
  intro x y hxy hy
  apply pem_eq_none
  rintro ⟨rest, hrest⟩
  obtain ⟨z, rfl, -⟩ := within hrest.symm (.inr hb)
  exact h ⟨x, z, by simp [hxy]⟩

/-- Text that holds no five dashes, in front of something other than a dash. -/
theorem pem_quiet_of_no_dashes (h : ¬dashes <:+: t) (hb : ∀ c ∈ b.head?, c ≠ '-') :
    Quiet pemMaterial before t b := by
  intro x y hxy hy
  apply pem_eq_none
  rintro ⟨rest, hrest⟩
  have hdashes : y ++ b = dashes ++ (['B', 'E', 'G', 'I', 'N', ' '] ++ rest) := by
    rw [← hrest, beginLiteral_eq, dashes_eq]
    rfl
  obtain ⟨z, rfl, -⟩ := within hdashes (.inr fun c hc hmem =>
    hb c hc ((by decide : ∀ c ∈ dashes, c = '-') c hmem))
  exact h ⟨x, z, by simp [hxy]⟩

theorem pem_quiet_of_white (h : ¬beginLiteral <:+: t)
    (hlast : ∀ c ∈ t.getLast?, isWhite c = true) (b : List Char) :
    Quiet pemMaterial before t b := by
  intro x y hxy hy
  apply pem_eq_none
  rintro ⟨rest, hrest⟩
  rcases List.append_eq_append_iff.mp hrest with ⟨z, rfl, -⟩ | ⟨z, hz, -⟩
  · exact h ⟨x, z, by simp [hxy]⟩
  · -- white space comes last in the beginning of a block
    have hfirst : ∀ k < 11, ∀ c ∈ beginLiteral.take k, isWhite c = false := by decide
    obtain ⟨c, hc, hct⟩ := exists_last hxy hy
    by_cases hzn : z = []
    · subst hzn
      rw [List.append_nil] at hz
      exact h ⟨x, [], by simp [hxy, hz]⟩
    · have hlength : y.length < 11 := by
        have := congrArg List.length hz
        rw [List.length_append] at this
        have hpos := List.length_pos_iff.mpr hzn
        rw [beginLiteral_eq] at this
        simp only [List.length_cons, List.length_nil] at this
        omega
      have hmem : c ∈ beginLiteral.take y.length := by
        rw [hz, List.take_left]
        exact List.mem_of_getLast? hc
      have hw := hfirst _ hlength c hmem
      rw [hlast c hct] at hw
      cases hw

/-- No literal of five dashes and `d` begins in five dashes with neither a dash nor `d` behind
them. -/
theorem dashes_not_begin {literal : List Char} {d : Char} (hlong : 6 ≤ literal.length)
    (hfirst : ∀ k < 6, ∀ c ∈ literal[k]?, c = '-' ∨ c = d)
    (hb : ∀ c ∈ b.head?, c ≠ '-' ∧ c ≠ d) {x y : List Char} (hxy : dashes = x ++ y) :
    ¬literal <+: y ++ b := by
  rintro ⟨rest, hrest⟩
  have hlength : y.length < 6 := by
    have := congrArg List.length hxy
    rw [dashes_eq, List.length_append] at this
    simp only [List.length_cons, List.length_nil] at this
    omega
  -- what comes behind `y` is one of the first six characters of the literal
  have hc := List.getElem?_eq_getElem (Nat.lt_of_lt_of_le hlength hlong)
  have hhead : b.head? = some (literal[y.length]) := by
    rw [← hc, ← List.getElem?_append_left (Nat.lt_of_lt_of_le hlength hlong), hrest,
      List.getElem?_append_right (Nat.le_refl _), Nat.sub_self, List.head?_eq_getElem?]
  obtain ⟨hdash, hd⟩ := hb _ hhead
  exact (hfirst _ hlength _ hc).elim hdash hd

theorem pem_quiet_of_dashes (hb : ∀ c ∈ b.head?, c ≠ '-' ∧ c ≠ 'B') :
    Quiet pemMaterial before dashes b := fun _ _ hxy _ =>
  pem_eq_none (dashes_not_begin (by decide) (by decide) hb hxy)

theorem upToMarker_skip {literal : List Char}
    (h : ∀ x y, t = x ++ y → y ≠ [] → ¬literal <+: y ++ b) :
    upToMarker literal (t ++ b) = (upToMarker literal b).map fun m => (t ++ m.1, m.2) := by
  induction t with
  | nil => simp
  | cons c t ih =>
    have hnone : marker literal (c :: (t ++ b)) = none := by
      by_contra hne
      obtain ⟨m, hm⟩ := Option.ne_none_iff_exists'.mp hne
      exact h [] (c :: t) rfl (by simp) (marker_begins hm)
    rw [List.cons_append, upToMarker, hnone, ih fun x y hxy hy =>
      h (c :: x) y (by rw [hxy, List.cons_append]) hy, Option.map_map]
    rfl

theorem not_begins_of_no_dash (ht : '-' ∉ t) {x y : List Char} (hxy : t = x ++ y) (hy : y ≠ []) :
    ¬endLiteral <+: y ++ b := by
  rintro ⟨rest, hrest⟩
  obtain ⟨c, y, rfl⟩ := List.exists_cons_of_ne_nil hy
  rw [endLiteral_eq] at hrest
  simp only [List.cons_append, List.cons.injEq] at hrest
  exact ht (by simp [hxy, ← hrest.1])

/-- The label of a block is not empty and has neither dashes nor separators. -/
structure IsLabel (label : List Char) : Prop where
  ne_nil : label ≠ []
  dash : '-' ∉ label
  separator : ∀ c ∈ label, isSeparator c = false

/-- A block before its body. -/
def pemBefore (label : List Char) : List Char := beginLiteral ++ label ++ dashes

/-- A block behind its body. -/
def pemAfter (label : List Char) : List Char := endLiteral ++ label ++ dashes

theorem marker_header {label : List Char} (hl : IsLabel label) (l : List Char) :
    marker beginLiteral (pemBefore label ++ l) = some (pemBefore label, l) :=
  marker_eq_some.mpr ⟨label, hl.ne_nil, hl.dash, rfl, rfl⟩

/-- A block whose markers are whole is replaced. -/
theorem pem_hides {label label' body post : List Char} (hl : IsLabel label) (hl' : IsLabel label')
    (hbody : '-' ∉ body) : replaceFrom pemMaterial before 0
      (pemBefore label ++ (body ++ (pemAfter label' ++ post))) =
        redacted ++ replaceFrom pemMaterial none 0 post := by
  have hfooter : marker endLiteral (pemAfter label' ++ post) = some (pemAfter label', post) :=
    marker_eq_some.mpr ⟨label', hl'.ne_nil, hl'.dash, rfl, rfl⟩
  have hend : upToMarker endLiteral (pemAfter label' ++ post) = some (pemAfter label', post) := by
    have hcons : ∃ c l, pemAfter label' ++ post = c :: l := by
      rw [pemAfter, endLiteral_eq]
      exact ⟨_, _, rfl⟩
    obtain ⟨c, l, hcl⟩ := hcons
    rw [hcl] at hfooter ⊢
    rw [upToMarker, hfooter]
  have hmatch : pemMaterial before (pemBefore label ++ (body ++ (pemAfter label' ++ post))) =
      some ⟨pemBefore label ++ (body ++ pemAfter label'), redacted, post⟩ := by
    rw [pemMaterial, marker_header hl]
    dsimp only
    rw [upToMarker_skip fun x y hxy hy => not_begins_of_no_dash hbody hxy hy, hend]
    rfl
  rw [replaceFrom_match pemMaterial_sound hmatch]
  exact congrArg (redacted ++ ·) (replaceFrom_before rfl)

/-- Without its end a block reaches into what follows, or is no block. -/
theorem pem_unended {label tail post : List Char} (hl : IsLabel label) (htail : '-' ∉ tail)
    (hpost : ∀ c ∈ post.head?, isWhite c = true) {m : Match Char}
    (hm : pemMaterial before (pemBefore label ++ (tail ++ (dashes ++ post))) = some m) :
    m.out = redacted ∧ m.rest.length < post.length := by
  have hdashes : ∀ x y, dashes = x ++ y → y ≠ [] → ¬endLiteral <+: y ++ post := fun x y hxy _ =>
    @dashes_not_begin post endLiteral 'E' (by decide) (by decide)
      (fun c hc => white_forall (fun c => c ≠ '-' ∧ c ≠ 'E') (by decide) (hpost c hc)) x y hxy
  rw [pemMaterial, marker_header hl] at hm
  dsimp only at hm
  rw [upToMarker_skip fun x y hxy hy => not_begins_of_no_dash htail hxy hy,
    upToMarker_skip hdashes] at hm
  cases hrest : upToMarker endLiteral post with
  | none =>
    rw [hrest] at hm
    cases hm
  | some found =>
    obtain ⟨body, rest⟩ := found
    rw [hrest] at hm
    cases hm
    obtain ⟨hne, rfl⟩ := upToMarker_append hrest
    refine ⟨rfl, ?_⟩
    dsimp only
    rw [List.length_append]
    have := List.length_pos_iff.mpr hne
    omega

theorem pem_out_length (before : Option Char) (l : List Char) (m : Match Char)
    (h : pemMaterial before l = some m) : m.out.length ≤ m.text.length := by
  unfold pemMaterial at h
  split at h
  · cases h
  · rename_i header l' hheader
    obtain ⟨label, -, -, rfl, rfl⟩ := marker_eq_some.mp hheader
    split at h
    · cases h
    · cases h
      rw [redacted_eq, beginLiteral_eq]
      simp only [List.length_append, List.length_cons, List.length_nil]
      omega

end

end SakhtarWg.Redaction
