import Mathlib.Data.List.Basic
import Mathlib.Data.List.Infix
import Mathlib.Data.List.Sort
import Mathlib.Data.List.TakeWhile

/-!
# Text

Strings are Lean strings; scanning is done on their character lists. This module
holds what the parsers and printers of the development share: splitting at a
separator, splitting into blank-separated fields, and reading back the digits
that `Nat.toDigits` prints. It knows nothing about the daemon.
-/

namespace SakhtarWg.Text

/-! ## Splitting at a separator -/

/-- All pieces between the separators, `n` separators giving `n + 1` pieces. -/
def splitOn (sep : Char) : List Char → List (List Char)
  | [] => [[]]
  | c :: cs =>
    if c = sep then [] :: splitOn sep cs
    else match splitOn sep cs with
      | [] => [[c]]
      | w :: ws => (c :: w) :: ws

theorem splitOn_ne_nil (sep : Char) (l : List Char) : splitOn sep l ≠ [] := by
  cases l with
  | nil => simp [splitOn]
  | cons c cs =>
    unfold splitOn
    split
    · simp
    · split <;> simp

theorem splitOn_of_not_mem (sep : Char) (l : List Char) (h : sep ∉ l) :
    splitOn sep l = [l] := by
  induction l with
  | nil => rfl
  | cons c cs ih =>
    simp only [List.mem_cons, not_or] at h
    simp [splitOn, ih h.2, Ne.symm h.1]

/-- The pieces before and after a separator. -/
theorem splitOn_sep (sep : Char) (l m : List Char) :
    splitOn sep (l ++ sep :: m) = splitOn sep l ++ splitOn sep m := by
  induction l with
  | nil => simp [splitOn]
  | cons c cs ih =>
    by_cases hc : c = sep
    · simp [splitOn, hc, ih]
    · obtain ⟨w, ws, hws⟩ := List.exists_cons_of_ne_nil (splitOn_ne_nil sep cs)
      simp [splitOn, hc, ih, hws]

theorem splitOn_append (sep : Char) (w l : List Char) (h : sep ∉ w) :
    splitOn sep (w ++ sep :: l) = w :: splitOn sep l := by
  rw [splitOn_sep, splitOn_of_not_mem sep w h]
  rfl

/-- Every character is a separator or lies in a piece. -/
theorem mem_of_splitOn (sep : Char) {c : Char} {l : List Char} (h : c ∈ l) :
    c = sep ∨ ∃ w ∈ splitOn sep l, c ∈ w := by
  induction l with
  | nil => cases h
  | cons d cs ih =>
    by_cases hd : d = sep
    · rcases List.mem_cons.mp h with rfl | h
      · exact .inl hd
      · obtain h | ⟨w, hw, hc⟩ := ih h
        · exact .inl h
        · exact .inr ⟨w, by simp [splitOn, hd, hw], hc⟩
    · obtain ⟨w, ws, hws⟩ := List.exists_cons_of_ne_nil (splitOn_ne_nil sep cs)
      have hsplit : splitOn sep (d :: cs) = (d :: w) :: ws := by simp [splitOn, hd, hws]
      rw [hsplit]
      rcases List.mem_cons.mp h with rfl | h
      · exact .inr ⟨c :: w, by simp, by simp⟩
      · obtain h | ⟨v, hv, hc⟩ := ih h
        · exact .inl h
        · rw [hws] at hv
          rcases List.mem_cons.mp hv with rfl | hv
          · exact .inr ⟨d :: v, by simp, by simp [hc]⟩
          · exact .inr ⟨v, by simp [hv], hc⟩

/-- The text before and after the first separator. -/
def cut (sep : Char) : List Char → Option (List Char × List Char)
  | [] => none
  | c :: cs =>
    if c = sep then some ([], cs)
    else (cut sep cs).map fun p => (c :: p.1, p.2)

theorem cut_append (sep : Char) (w l : List Char) (h : sep ∉ w) :
    cut sep (w ++ sep :: l) = some (w, l) := by
  induction w with
  | nil => simp [cut]
  | cons c cs ih =>
    simp only [List.mem_cons, not_or] at h
    simp [cut, ih h.2, Ne.symm h.1]

/-- A text splits in one way at its first separator. -/
theorem append_sep_inj {sep : Char} {w w' l l' : List Char} (h : sep ∉ w) (h' : sep ∉ w')
    (he : w ++ sep :: l = w' ++ sep :: l') : w = w' ∧ l = l' := by
  have hcut := congrArg (cut sep) he
  rw [cut_append sep w l h, cut_append sep w' l' h', Option.some.injEq, Prod.mk.injEq] at hcut
  exact hcut

theorem cut_eq_none (sep : Char) (l : List Char) : cut sep l = none ↔ sep ∉ l := by
  induction l with
  | nil => simp [cut]
  | cons c cs ih =>
    by_cases hc : c = sep
    · simp [cut, hc]
    · simp [cut, hc, ih, Ne.symm hc]

theorem cut_eq_some {sep : Char} {l a b : List Char} (h : cut sep l = some (a, b)) :
    l = a ++ sep :: b ∧ sep ∉ a := by
  induction l generalizing a b with
  | nil => simp [cut] at h
  | cons c cs ih =>
    by_cases hc : c = sep
    · simp only [cut, if_pos hc, Option.some.injEq, Prod.mk.injEq] at h
      obtain ⟨rfl, rfl⟩ := h
      simp [hc]
    · simp only [cut, if_neg hc, Option.map_eq_some_iff, Prod.mk.injEq] at h
      obtain ⟨p, hp, rfl, rfl⟩ := h
      obtain ⟨he, hn⟩ := ih hp
      exact ⟨by rw [he]; rfl, by simp [hn, Ne.symm hc]⟩

/-- The text before and after the last separator. -/
def cutLast (sep : Char) (l : List Char) : Option (List Char × List Char) :=
  (cut sep l.reverse).map fun p => (p.2.reverse, p.1.reverse)

theorem cutLast_append (sep : Char) (w l : List Char) (h : sep ∉ l) :
    cutLast sep (w ++ sep :: l) = some (w, l) := by
  have hr : (w ++ sep :: l).reverse = l.reverse ++ sep :: w.reverse := by simp
  rw [cutLast, hr, cut_append sep _ _ (by simpa using h)]
  simp

theorem cutLast_eq_some {sep : Char} {l a b : List Char} (h : cutLast sep l = some (a, b)) :
    l = a ++ sep :: b ∧ sep ∉ b := by
  simp only [cutLast, Option.map_eq_some_iff, Prod.mk.injEq] at h
  obtain ⟨p, hp, rfl, rfl⟩ := h
  obtain ⟨he, hn⟩ := cut_eq_some hp
  refine ⟨?_, by simpa using hn⟩
  have := congrArg List.reverse he
  simpa using this

/-! ## Blank-separated fields -/

/-- ASCII white space, the class at which command lines are cut. -/
def isBlank (c : Char) : Bool :=
  c = ' ' || c = '\t' || c = '\n' || c = '\x0b' || c = '\x0c' || c = '\r'

/-- The scan carries the open field reversed. -/
def fieldsFrom (open_ : List Char) : List Char → List (List Char)
  | [] => if open_ = [] then [] else [open_.reverse]
  | c :: cs =>
    if isBlank c then
      if open_ = [] then fieldsFrom [] cs else open_.reverse :: fieldsFrom [] cs
    else fieldsFrom (c :: open_) cs

/-- The maximal blank-free pieces, from left to right. -/
def fields (l : List Char) : List (List Char) := fieldsFrom [] l

/-- A word: non-empty and without blanks. -/
def IsWord (w : List Char) : Prop := w ≠ [] ∧ ∀ c ∈ w, isBlank c = false

-- the quantifier is decided along the list, not over all characters
instance (w : List Char) : Decidable (IsWord w) :=
  @instDecidableAnd _ _ _ (List.decidableBAll (fun c => isBlank c = false) w)

theorem fieldsFrom_append (w cs acc : List Char) (h : ∀ c ∈ w, isBlank c = false) :
    fieldsFrom acc (w ++ cs) = fieldsFrom (w.reverse ++ acc) cs := by
  induction w generalizing acc with
  | nil => rfl
  | cons c w ih =>
    have hc : isBlank c = false := h c (by simp)
    simp only [List.cons_append, fieldsFrom, hc, List.reverse_cons, List.append_assoc]
    exact ih (c :: acc) fun d hd => h d (by simp [hd])

theorem fields_word_append {w : List Char} (hw : IsWord w) (cs : List Char) :
    fields (w ++ ' ' :: cs) = w :: fields cs := by
  rw [fields, fieldsFrom_append w _ [] hw.2]
  simp [fieldsFrom, isBlank, hw.1, fields]

theorem fields_word {w : List Char} (hw : IsWord w) : fields w = [w] := by
  have h := fieldsFrom_append w [] [] hw.2
  rw [List.append_nil] at h
  simp [fields, h, fieldsFrom, hw.1]

theorem fieldsFrom_nil_of_ne {acc : List Char} (h : acc ≠ []) :
    fieldsFrom acc [] = [acc.reverse] := by
  simp [fieldsFrom, h]

theorem fieldsFrom_cons_blank {b : Char} (hb : isBlank b = true) (acc m : List Char) :
    fieldsFrom acc (b :: m) = fieldsFrom acc [] ++ fields m := by
  by_cases hacc : acc = []
  · simp [fieldsFrom, hb, hacc, fields]
  · simp [fieldsFrom, hb, hacc, fields]

theorem fieldsFrom_cons_word {c : Char} (hc : isBlank c = false) (acc m : List Char) :
    fieldsFrom acc (c :: m) = fieldsFrom (c :: acc) m := by
  simp [fieldsFrom, hc]

/-- A blank separates the fields before it from those after it. -/
theorem fields_blank (l m : List Char) {b : Char} (hb : isBlank b = true) :
    fields (l ++ b :: m) = fields l ++ fields m := by
  suffices h : ∀ acc, fieldsFrom acc (l ++ b :: m) = fieldsFrom acc l ++ fields m from h []
  induction l with
  | nil => exact fun acc => fieldsFrom_cons_blank hb acc m
  | cons c l ih =>
    intro acc
    cases hc : isBlank c with
    | true =>
      rw [List.cons_append, fieldsFrom_cons_blank hc, fieldsFrom_cons_blank hc, fields, ih,
        List.append_assoc]
      rfl
    | false => rw [List.cons_append, fieldsFrom_cons_word hc, fieldsFrom_cons_word hc, ih]

/-- Fields are made of characters of the text. -/
theorem mem_of_mem_fields {l f : List Char} (hf : f ∈ fields l) : ∀ c ∈ f, c ∈ l := by
  suffices h : ∀ acc : List Char, ∀ f ∈ fieldsFrom acc l, ∀ c ∈ f, c ∈ acc ∨ c ∈ l by
    intro c hc
    simpa using h [] f hf c hc
  have hnil : ∀ acc : List Char, ∀ f ∈ fieldsFrom acc [], ∀ c ∈ f, c ∈ acc := by
    intro acc f hf c hc
    by_cases hne : acc = []
    · simp [fieldsFrom, hne] at hf
    · rw [fieldsFrom_nil_of_ne hne, List.mem_singleton] at hf
      rw [hf] at hc
      exact List.mem_reverse.mp hc
  clear hf
  induction l with
  | nil => exact fun acc f hf c hc => .inl (hnil acc f hf c hc)
  | cons b l ih =>
    intro acc f hf c hc
    cases hb : isBlank b with
    | true =>
      rw [fieldsFrom_cons_blank hb] at hf
      rcases List.mem_append.mp hf with hf | hf
      · exact .inl (hnil acc f hf c hc)
      · have hrest := ih [] f hf c hc
        exact .inr (List.mem_cons_of_mem _ (by simpa using hrest))
    | false =>
      rw [fieldsFrom_cons_word hb] at hf
      have hrest := ih (b :: acc) f hf c hc
      rw [List.mem_cons, or_assoc, or_left_comm] at hrest
      simpa using hrest

/-- Deleting characters other than blanks deletes them in the fields. -/
theorem fields_filter {keep : Char → Bool} (hkeep : ∀ c, isBlank c = true → keep c = true)
    (l : List Char) :
    fields (l.filter keep) = ((fields l).map (·.filter keep)).filter (!·.isEmpty) := by
  suffices h : ∀ acc : List Char, fieldsFrom (acc.filter keep) (l.filter keep) =
      ((fieldsFrom acc l).map (·.filter keep)).filter (!·.isEmpty) from h []
  have hnil : ∀ acc : List Char, fieldsFrom (acc.filter keep) [] =
      ((fieldsFrom acc []).map (·.filter keep)).filter (!·.isEmpty) := by
    intro acc
    by_cases hne : acc = []
    · simp [hne, fieldsFrom]
    · rw [fieldsFrom_nil_of_ne hne, List.map_singleton, List.filter_reverse]
      cases hacc : acc.filter keep with
      | nil => rfl
      | cons c cs =>
        rw [fieldsFrom_nil_of_ne (by simp)]
        simp
  induction l with
  | nil => exact hnil
  | cons c l ih =>
    intro acc
    cases hc : isBlank c with
    | true =>
      rw [List.filter_cons_of_pos (hkeep c hc), fieldsFrom_cons_blank hc, fieldsFrom_cons_blank hc,
        hnil, fields, ← List.filter_nil (p := keep), ih, List.map_append, List.filter_append]
      rfl
    | false =>
      rw [fieldsFrom_cons_word hc, ← ih]
      cases hk : keep c with
      | true =>
        rw [List.filter_cons_of_pos hk, List.filter_cons_of_pos hk, fieldsFrom_cons_word hc]
      | false =>
        rw [List.filter_cons_of_neg (by simp [hk]), List.filter_cons_of_neg (by simp [hk])]

/-- `unicode.IsSpace`. -/
def isSpace (c : Char) : Bool :=
  isBlank c || c.toNat ∈ [0x85, 0xa0, 0x1680, 0x2028, 0x2029, 0x202f, 0x205f, 0x3000] ||
    (0x2000 ≤ c.toNat && c.toNat ≤ 0x200a)

theorem isSpace_eq_false {c : Char} (h : 33 ≤ c.toNat) (h' : c.toNat ≤ 126) :
    isSpace c = false := by
  have hne : ∀ d : Char, d.toNat < 33 → c ≠ d := by
    rintro d hd rfl
    omega
  have hblank : isBlank c = false := by
    simp [isBlank, hne ' ' (by decide), hne '\t' (by decide), hne '\n' (by decide),
      hne '\x0b' (by decide), hne '\x0c' (by decide), hne '\r' (by decide)]
  simp only [isSpace, hblank, List.mem_cons, List.not_mem_nil, or_false, Bool.false_or,
    Bool.or_eq_false_iff, Bool.and_eq_false_iff, decide_eq_false_iff_not]
  omega

/-- Every space as an ASCII blank. -/
def blankSpaces (l : List Char) : List Char := l.map fun c => if isSpace c then ' ' else c

/-- `strings.Fields` on characters. -/
def spaceFields (l : List Char) : List (List Char) := fields (blankSpaces l)

/-- It cuts the fields between ASCII blanks further. -/
theorem spaceFields_eq (l : List Char) : spaceFields l = (fields l).flatMap spaceFields := by
  suffices h : ∀ acc : List Char,
      spaceFields (acc.reverse ++ l) = (fieldsFrom acc l).flatMap spaceFields from h []
  have hnil : ∀ acc : List Char,
      spaceFields acc.reverse = (fieldsFrom acc []).flatMap spaceFields := by
    intro acc
    by_cases hne : acc = []
    · simp [hne, fieldsFrom, spaceFields, blankSpaces, fields]
    · simp [fieldsFrom_nil_of_ne hne]
  induction l with
  | nil =>
    intro acc
    rw [List.append_nil, hnil]
  | cons c l ih =>
    intro acc
    cases hc : isBlank c with
    | true =>
      have hsplit : blankSpaces (acc.reverse ++ c :: l) =
          blankSpaces acc.reverse ++ ' ' :: blankSpaces l := by
        simp [blankSpaces, isSpace, hc]
      rw [spaceFields, hsplit, fields_blank _ _ (by decide), fieldsFrom_cons_blank hc,
        List.flatMap_append, ← hnil]
      exact congrArg _ (ih [])
    | false =>
      rw [fieldsFrom_cons_word hc, ← ih]
      simp

/-- A word without spaces of any kind is a field. -/
theorem spaceFields_word {w : List Char} (hne : w ≠ []) (h : ∀ c ∈ w, isSpace c = false) :
    spaceFields w = [w] := by
  have hsame : blankSpaces w = w := by
    rw [blankSpaces, List.map_congr_left (g := id) (fun c hc => by simp [h c hc]), List.map_id]
  rw [spaceFields, hsame]
  apply fields_word ⟨hne, fun c hc => ?_⟩
  have hspace := h c hc
  simp only [isSpace, Bool.or_eq_false_iff] at hspace
  exact hspace.1.1

theorem spaceFields_space (l m : List Char) {c : Char} (hc : isSpace c = true) :
    spaceFields (l ++ c :: m) = spaceFields l ++ spaceFields m := by
  have hsplit : blankSpaces (l ++ c :: m) = blankSpaces l ++ ' ' :: blankSpaces m := by
    simp [blankSpaces, hc]
  rw [spaceFields, hsplit, fields_blank _ _ (by decide)]
  rfl

theorem spaceFields_append_spaces (l : List Char) {m : List Char}
    (hm : ∀ c ∈ m, isSpace c = true) : spaceFields (l ++ m) = spaceFields l := by
  induction m generalizing l with
  | nil => rw [List.append_nil]
  | cons c m ih =>
    have hrest := ih [] fun d hd => hm d (by simp [hd])
    rw [spaceFields_space l m (hm c (by simp)), ← List.nil_append m, hrest]
    exact List.append_nil _

/-- `strings.TrimSpace` on characters. -/
def trimSpaces (l : List Char) : List Char :=
  ((l.dropWhile isSpace).reverse.dropWhile isSpace).reverse

theorem trimSpaces_of_ends {l : List Char} (hhead : ∀ c ∈ l.head?, isSpace c = false)
    (hlast : ∀ c ∈ l.getLast?, isSpace c = false) : trimSpaces l = l := by
  have hfront : ∀ m : List Char, (∀ c ∈ m.head?, isSpace c = false) → m.dropWhile isSpace = m := by
    intro m hm
    cases m with
    | nil => rfl
    | cons c cs => rw [List.dropWhile_cons_of_neg (by simpa using hm c (by simp))]
  rw [trimSpaces, hfront l hhead, hfront l.reverse (by simpa using hlast), List.reverse_reverse]

/-- Without the spaces at the end. -/
def trimRight (l : List Char) : List Char := (l.reverse.dropWhile isSpace).reverse

theorem trimRight_append {l m : List Char} (h : ∃ c ∈ m, isSpace c = false) :
    trimRight (l ++ m) = l ++ trimRight m := by
  have hne : (m.reverse.dropWhile isSpace).isEmpty = false := by
    obtain ⟨c, hc, hspace⟩ := h
    rw [List.isEmpty_eq_false_iff, Ne, List.dropWhile_eq_nil_iff]
    intro hall
    rw [hall c (by simpa using hc)] at hspace
    cases hspace
  rw [trimRight, List.reverse_append, List.dropWhile_append, hne]
  simp [trimRight]

theorem trimRight_of_spaces {l m : List Char} (h : ∀ c ∈ m, isSpace c = true) :
    trimRight (l ++ m) = trimRight l := by
  have hnil : m.reverse.dropWhile isSpace = [] := by
    rw [List.dropWhile_eq_nil_iff]
    intro c hc
    exact h c (by simpa using hc)
  rw [trimRight, List.reverse_append, List.dropWhile_append, hnil]
  rfl

/-- Only spaces are cut off. -/
theorem trimRight_spec (l : List Char) :
    ∃ m, (∀ c ∈ m, isSpace c = true) ∧ l = trimRight l ++ m := by
  refine ⟨(l.reverse.takeWhile isSpace).reverse, ?_, ?_⟩
  · intro c hc
    rw [List.mem_reverse] at hc
    exact List.mem_takeWhile_imp hc
  · rw [trimRight, ← List.reverse_append, List.takeWhile_append_dropWhile, List.reverse_reverse]

theorem trimSpaces_of_head {c : Char} {l : List Char} (hc : isSpace c = false) :
    trimSpaces (c :: l) = trimRight (c :: l) := by
  rw [trimSpaces, List.dropWhile_cons_of_neg (by simp [hc])]
  rfl

/-- `strings.ContainsAny`. -/
def containsAny (s : String) (chars : List Char) : Bool := s.toList.any (· ∈ chars)

/-- `strings.Contains`. -/
def containsText (l part : List Char) : Bool := l.tails.any fun rest => part.isPrefixOf rest

theorem containsText_append (l part m : List Char) : containsText (l ++ part ++ m) part = true := by
  apply List.any_eq_true.mpr
  refine ⟨part ++ m, ?_, ?_⟩
  · rw [List.mem_tails, List.append_assoc]
    exact List.suffix_append l (part ++ m)
  · rw [List.isPrefixOf_iff_prefix]
    exact List.prefix_append part m

/-- The words of a command line, joined as they are printed. -/
def unwords : List String → String
  | [] => ""
  | [w] => w
  | w :: v :: ws => w ++ " " ++ unwords (v :: ws)

theorem unwords_toList_cons (w v : String) (ws : List String) :
    (unwords (w :: v :: ws)).toList = w.toList ++ ' ' :: (unwords (v :: ws)).toList := by
  simp [unwords]

theorem unwords_toList_singleton (w : String) : (unwords [w]).toList = w.toList := rfl

/-- The words of a printed command line. -/
def words (s : String) : List String := (fields s.toList).map String.ofList

theorem words_unwords (ws : List String) (h : ∀ w ∈ ws, IsWord w.toList) :
    words (unwords ws) = ws := by
  induction ws with
  | nil => rfl
  | cons w ws ih =>
    have hw := h w (by simp)
    cases ws with
    | nil => simp [words, unwords, fields_word hw]
    | cons v vs =>
      have hrec := ih fun u hu => h u (by simp [hu])
      simp only [words, unwords_toList_cons, fields_word_append hw, List.map_cons,
        String.ofList_toList] at hrec ⊢
      rw [hrec]

/-- `strings.Fields`. -/
def stringFields (s : String) : List String := (spaceFields s.toList).map String.ofList

theorem stringFields_unwords (ws : List String)
    (h : ∀ w ∈ ws, w ≠ "" ∧ ∀ c ∈ w.toList, isSpace c = false) :
    stringFields (unwords ws) = ws := by
  induction ws with
  | nil => rfl
  | cons w ws ih =>
    obtain ⟨hne, hspace⟩ := h w (by simp)
    have hw := spaceFields_word (by simpa using hne) hspace
    cases ws with
    | nil => simp [stringFields, unwords, hw]
    | cons v vs =>
      have hrec := ih fun u hu => h u (by simp [hu])
      simp only [stringFields, unwords_toList_cons] at hrec ⊢
      rw [spaceFields_space _ _ (by decide), hw, List.map_append, hrec]
      simp

/-- The length of a text in bytes. -/
def byteLen (s : String) : ℕ := s.toList.foldr (fun c n => c.utf8Size + n) 0

theorem byteLen_of_ascii {s : String} (h : ∀ c ∈ s.toList, c.toNat < 128) :
    byteLen s = s.toList.length := by
  unfold byteLen
  generalize s.toList = l at h
  induction l with
  | nil => rfl
  | cons c cs ih =>
    have hlt : c.val.toNat < 128 := h c (by simp)
    have hc : c.utf8Size = 1 :=
      Char.utf8Size_eq_one_iff.mpr (UInt32.le_iff_toNat_le.mpr (Nat.lt_succ_iff.mp hlt))
    rw [List.foldr_cons, hc, ih fun d hd => h d (by simp [hd]), List.length_cons]
    omega

/-! ## Digits -/

/-- The value of a digit character in a base up to sixteen. -/
def digitValue (c : Char) : Option ℕ :=
  if '0' ≤ c ∧ c ≤ '9' then some (c.toNat - '0'.toNat)
  else if 'a' ≤ c ∧ c ≤ 'f' then some (c.toNat - 'a'.toNat + 10)
  else if 'A' ≤ c ∧ c ≤ 'F' then some (c.toNat - 'A'.toNat + 10)
  else none

theorem digitValue_range {c : Char} (h : (digitValue c).isSome = true) :
    48 ≤ c.toNat ∧ c.toNat ≤ 102 := by
  have hle : ∀ a b : Char, a ≤ b ↔ a.toNat ≤ b.toNat := fun a b => Iff.rfl
  have hval : '0'.toNat = 48 ∧ '9'.toNat = 57 ∧ 'a'.toNat = 97 ∧ 'f'.toNat = 102 ∧
      'A'.toNat = 65 ∧ 'F'.toNat = 70 := by decide
  obtain ⟨h1, h2, h3, h4, h5, h6⟩ := hval
  unfold digitValue at h
  simp only [hle] at h
  split at h
  · omega
  · split at h
    · omega
    · split at h
      · omega
      · cases h

theorem digitValue_digitChar {n : ℕ} (h : n < 16) : digitValue n.digitChar = some n := by
  revert n
  decide

/-- Positional value of a text made of digits of base `b` only. -/
def readFrom (b : ℕ) (acc : ℕ) : List Char → Option ℕ
  | [] => some acc
  | c :: cs =>
    match digitValue c with
    | some d => if d < b then readFrom b (b * acc + d) cs else none
    | none => none

/-- A non-empty text of digits of base `b`; leading zeros are allowed. -/
def readNat (b : ℕ) (l : List Char) : Option ℕ := if l = [] then none else readFrom b 0 l

/-- `strconv.Atoi` with a 64-bit `int`. -/
def atoi (s : String) : Option ℤ :=
  let inRange (n : ℤ) : Option ℤ :=
    if -9223372036854775808 ≤ n ∧ n < 9223372036854775808 then some n else none
  match s.toList with
  | '+' :: ds => (readNat 10 ds).bind fun n => inRange n
  | '-' :: ds => (readNat 10 ds).bind fun n => inRange (-n)
  | ds => (readNat 10 ds).bind fun n => inRange n

theorem readFrom_append (b acc : ℕ) (l m : List Char) :
    readFrom b acc (l ++ m) = (readFrom b acc l).bind fun n => readFrom b n m := by
  induction l generalizing acc with
  | nil => rfl
  | cons c cs ih =>
    simp only [List.cons_append, readFrom]
    cases digitValue c with
    | none => rfl
    | some d =>
      by_cases hd : d < b
      · simp only [hd, if_true, ih]
      · simp [hd]

theorem readFrom_toDigits {b : ℕ} (hb : 1 < b) (hb' : b ≤ 16) (n : ℕ) :
    readFrom b 0 (Nat.toDigits b n) = some n := by
  induction n using Nat.strong_induction_on with
  | _ n ih =>
    rw [Nat.toDigits_eq_if hb]
    split
    · rename_i h
      simp [readFrom, digitValue_digitChar (lt_of_lt_of_le h hb'), h]
    · rename_i h
      have hpos : 0 < n := by omega
      have hmod : n % b < b := Nat.mod_lt _ (by omega)
      rw [readFrom_append, ih _ (Nat.div_lt_self hpos hb)]
      simp [readFrom, digitValue_digitChar (lt_of_lt_of_le hmod hb'), hmod, Nat.div_add_mod]

theorem readNat_toDigits {b : ℕ} (hb : 1 < b) (hb' : b ≤ 16) (n : ℕ) :
    readNat b (Nat.toDigits b n) = some n := by
  rw [readNat, if_neg Nat.toDigits_ne_nil, readFrom_toDigits hb hb']

theorem isDigit_of_mem_toDigits {b n : ℕ} (hb : 1 < b) (hb' : b ≤ 16) {c : Char}
    (h : c ∈ Nat.toDigits b n) : ∃ d < 16, c = d.digitChar := by
  induction n using Nat.strong_induction_on with
  | _ n ih =>
    rw [Nat.toDigits_eq_if hb] at h
    split at h
    · exact ⟨n, by omega, by simpa using h⟩
    · rcases List.mem_append.mp h with h | h
      · exact ih _ (Nat.div_lt_self (by omega) hb) h
      · exact ⟨n % b, (Nat.mod_lt _ (by omega)).trans_le hb', by simpa using h⟩

theorem not_mem_toDigits {b n : ℕ} (hb : 1 < b) (hb' : b ≤ 16) (c : Char)
    (hc : ∀ d < 16, c ≠ d.digitChar) : c ∉ Nat.toDigits b n := by
  intro h
  obtain ⟨d, hd, he⟩ := isDigit_of_mem_toDigits hb hb' h
  exact hc d hd he

/-- The digits of an integer contain no separator. -/
theorem not_mem_toString_int {c : Char} (hc : ∀ d < 16, c ≠ d.digitChar) (hminus : c ≠ '-')
    (n : ℤ) : c ∉ (toString n).toList := by
  have hdigits : ∀ m : ℕ, c ∉ m.repr.toList := by
    intro m
    rw [Nat.toList_repr]
    exact not_mem_toDigits (by decide) (by decide) c hc
  cases n with
  | ofNat m => exact hdigits m
  | negSucc m =>
    show c ∉ ("-" ++ (m + 1).repr).toList
    rw [String.toList_append, List.mem_append]
    rintro (h | h)
    · exact hminus (by simpa using h)
    · exact hdigits (m + 1) h

theorem toString_nat_injective {m n : ℕ} (h : toString m = toString n) : m = n := by
  have hdigits : Nat.toDigits 10 m = Nat.toDigits 10 n := by
    rw [← Nat.toList_repr, ← Nat.toList_repr]
    exact congrArg String.toList h
  have hread := congrArg (readNat 10) hdigits
  rw [readNat_toDigits (by decide) (by decide), readNat_toDigits (by decide) (by decide)] at hread
  exact Option.some.inj hread

theorem toString_int_injective {m n : ℤ} (h : toString m = toString n) : m = n := by
  -- a sign is no digit
  have hsign : ∀ k : ℕ, '-' ∉ (toString k).toList := by
    intro k
    show '-' ∉ k.repr.toList
    rw [Nat.toList_repr]
    exact not_mem_toDigits (by decide) (by decide) '-' (by decide)
  have hneg : ∀ k : ℕ, toString (Int.negSucc k) = "-" ++ toString (k + 1) := fun _ => rfl
  cases m with
  | ofNat m =>
    cases n with
    | ofNat n => exact congrArg Int.ofNat (toString_nat_injective h)
    | negSucc n =>
      rw [hneg] at h
      exact absurd (by rw [show toString m = _ from h]; simp) (hsign m)
  | negSucc m =>
    cases n with
    | ofNat n =>
      rw [hneg] at h
      exact absurd (by rw [show toString n = _ from h.symm]; simp) (hsign n)
    | negSucc n =>
      rw [hneg, hneg, String.append_right_inj] at h
      rw [Nat.succ.inj (toString_nat_injective h)]

/-! ## Sorting -/

/-- Ascending order of texts, as `sort.Strings` leaves them. -/
def sortStrings (l : List String) : List String := l.insertionSort (· ≤ ·)

theorem sortStrings_perm (l : List String) : (sortStrings l).Perm l :=
  List.perm_insertionSort (· ≤ ·) l

theorem sortStrings_eq_of_perm {l l' : List String} (h : l.Perm l') :
    sortStrings l = sortStrings l' :=
  List.Perm.eq_of_pairwise (fun _ _ _ _ => String.le_antisymm)
    (List.pairwise_insertionSort (· ≤ ·) l) (List.pairwise_insertionSort (· ≤ ·) l')
    ((sortStrings_perm l).trans (h.trans (sortStrings_perm l').symm))

theorem mem_sortStrings {l : List String} {s : String} : s ∈ sortStrings l ↔ s ∈ l :=
  (List.perm_insertionSort _ l).mem_iff

/-! ## Formatting verbs -/

/-- The verb `%#x` on an unsigned number. -/
def hex (n : ℕ) : String := "0x" ++ String.ofList (Nat.toDigits 16 n)

/-- One character under `%q`; characters beyond ASCII are taken to be printable. -/
def quoteChar (c : Char) : List Char :=
  if c = '"' ∨ c = '\\' then ['\\', c]
  else if c = '\x07' then ['\\', 'a']
  else if c = '\x08' then ['\\', 'b']
  else if c = '\x0c' then ['\\', 'f']
  else if c = '\n' then ['\\', 'n']
  else if c = '\r' then ['\\', 'r']
  else if c = '\t' then ['\\', 't']
  else if c = '\x0b' then ['\\', 'v']
  else if c.toNat < 32 ∨ c.toNat = 127 then
    ['\\', 'x', (c.toNat / 16).digitChar, (c.toNat % 16).digitChar]
  else [c]

/-- The verb `%q`. -/
def quote (s : String) : String := "\"" ++ String.ofList (s.toList.flatMap quoteChar) ++ "\""

/-- A number in the `0x` notation. -/
def readHex : List Char → Option ℕ
  | '0' :: 'x' :: l => readNat 16 l
  | _ => none

theorem hex_toList (n : ℕ) : (hex n).toList = '0' :: 'x' :: Nat.toDigits 16 n := by
  simp [hex]

theorem hex_injective {m n : ℕ} (h : hex m = hex n) : m = n := by
  have hd := congrArg String.toList h
  rw [hex_toList, hex_toList, List.cons.injEq, List.cons.injEq] at hd
  have hr := congrArg (readNat 16) hd.2.2
  rw [readNat_toDigits (by decide) (by decide), readNat_toDigits (by decide) (by decide)] at hr
  exact Option.some.inj hr

theorem readHex_hex (n : ℕ) : readHex (hex n).toList = some n := by
  rw [hex_toList]
  exact readNat_toDigits (by decide) (by decide) n

end SakhtarWg.Text
