import SakhtarWg.Iptables

/-!
# Printed rules

How the rules of a chain are printed and read back: arguments with a blank between
them, an argument with unusual characters in quotes. Words without such characters
are printed as they are.
-/

namespace SakhtarWg.Iptables
open Text

/-! ## Plain words -/

/-- A visible character with no meaning in a quoted string. -/
def plainChar (c : Char) : Bool :=
  33 ≤ c.toNat && c.toNat ≤ 126 && c ≠ '"' && c ≠ '\\' && c ≠ '\''

/-- A word of such characters. -/
def Plain (s : String) : Prop := (!s.toList.isEmpty && s.toList.all plainChar) = true

instance (s : String) : Decidable (Plain s) := inferInstanceAs (Decidable (_ = true))

theorem plain_iff {s : String} : Plain s ↔ s ≠ "" ∧ ∀ c ∈ s.toList, plainChar c = true := by
  simp [Plain]

theorem plainChar_iff {c : Char} : plainChar c = true ↔
    33 ≤ c.toNat ∧ c.toNat ≤ 126 ∧ c ≠ '"' ∧ c ≠ '\\' ∧ c ≠ '\'' := by
  simp [plainChar, and_assoc]

theorem plainChar_isSpace {c : Char} (h : plainChar c = true) : isSpace c = false := by
  obtain ⟨hlo, hhi, -⟩ := plainChar_iff.mp h
  exact isSpace_eq_false hlo hhi

section
variable {s : String} (h : Plain s)
include h

theorem Plain.isSpace_eq_false : ∀ c ∈ s.toList, isSpace c = false :=
  fun c hc => plainChar_isSpace ((plain_iff.mp h).2 c hc)

theorem Plain.ne_quote : ∀ c ∈ s.toList, c ≠ '"' :=
  fun c hc => (plainChar_iff.mp ((plain_iff.mp h).2 c hc)).2.2.1

theorem Plain.toList_ne_nil : s.toList ≠ [] := by
  simpa using (plain_iff.mp h).1

theorem Plain.isWord : IsWord s.toList := by
  refine ⟨h.toList_ne_nil, fun c hc => ?_⟩
  have hspace := h.isSpace_eq_false c hc
  simp only [isSpace, Bool.or_eq_false_iff] at hspace
  exact hspace.1.1

theorem Plain.spaceFields : spaceFields s.toList = [s.toList] :=
  spaceFields_word h.toList_ne_nil h.isSpace_eq_false

end

/-- Two neighbouring words are printed with one blank between them. -/
theorem unwords_infix (front : List String) (v w : String) (back : List String) :
    ∃ a b, (unwords (front ++ v :: w :: back)).toList = a ++ (v ++ " " ++ w).toList ++ b := by
  induction front with
  | nil =>
    cases back with
    | nil => exact ⟨[], [], by simp [unwords]⟩
    | cons u us => exact ⟨[], ' ' :: (unwords (u :: us)).toList, by simp [unwords]⟩
  | cons u us ih =>
    obtain ⟨a, b, hab⟩ := ih
    have hcons : (unwords (u :: us ++ v :: w :: back)).toList =
        u.toList ++ ' ' :: (unwords (us ++ v :: w :: back)).toList := by
      cases us with
      | nil => exact unwords_toList_cons u v (w :: back)
      | cons x xs => exact unwords_toList_cons u x (xs ++ v :: w :: back)
    exact ⟨u.toList ++ ' ' :: a, b, by rw [hcons, hab]; simp⟩

/-- A rule printed from plain words. -/
def Printed (rule : String) : Prop := ∃ ws, ws ≠ [] ∧ (∀ w ∈ ws, Plain w) ∧ rule = unwords ws

section
variable {rule : String} (h : Printed rule)
include h

theorem Printed.exists_visible : ∃ c ∈ rule.toList, isSpace c = false := by
  obtain ⟨ws, hne, hws, rfl⟩ := h
  obtain ⟨w, ws, rfl⟩ := List.exists_cons_of_ne_nil hne
  obtain ⟨c, hc⟩ := List.exists_mem_of_ne_nil _ (hws w (by simp)).toList_ne_nil
  refine ⟨c, ?_, (hws w (by simp)).isSpace_eq_false c hc⟩
  cases ws with
  | nil => exact hc
  | cons v vs =>
    rw [unwords_toList_cons]
    exact List.mem_append_left _ hc

theorem Printed.trimRight : trimRight rule.toList = rule.toList := by
  obtain ⟨ws, hne, hws, rfl⟩ := h
  induction ws with
  | nil => exact absurd rfl hne
  | cons w ws ih =>
    have hw := hws w (by simp)
    cases ws with
    | nil =>
      have hkeep : w.toList.reverse.dropWhile isSpace = w.toList.reverse := by
        rw [List.dropWhile_eq_self_iff]
        intro hpos
        have hlast := List.mem_reverse.mp (List.getElem_mem hpos)
        simpa using hw.isSpace_eq_false _ hlast
      rw [unwords_toList_singleton, Text.trimRight, hkeep, List.reverse_reverse]
    | cons v vs =>
      have hws' : ∀ u ∈ v :: vs, Plain u := fun u hu => hws u (List.mem_cons_of_mem _ hu)
      have hrest := ih (by simp) hws'
      have hvisible := Printed.exists_visible ⟨v :: vs, by simp, hws', rfl⟩
      have hsplit : w.toList ++ ' ' :: (unwords (v :: vs)).toList =
          (w.toList ++ [' ']) ++ (unwords (v :: vs)).toList := by simp
      rw [unwords_toList_cons, hsplit, trimRight_append hvisible, hrest]

theorem Printed.newline_not_mem : '\n' ∉ rule.toList := by
  obtain ⟨ws, -, hws, rfl⟩ := h
  have hword : ∀ w ∈ ws, '\n' ∉ w.toList := by
    intro w hw hmem
    have hplain := (plain_iff.mp (hws w hw)).2 _ hmem
    revert hplain
    decide
  clear hws
  induction ws with
  | nil => simp [unwords]
  | cons w ws ih =>
    have hrest := ih fun v hv => hword v (by simp [hv])
    cases ws with
    | nil => exact hword w (by simp)
    | cons v vs =>
      rw [unwords_toList_cons]
      simp only [List.mem_append, List.mem_cons, not_or]
      exact ⟨hword w (by simp), by decide, hrest⟩

end

/-! ## Arguments -/

/-- An argument as it is printed. Options are never in quotes. -/
inductive Argument
  | bare (word : String)
  | quoted (word : String)
  deriving DecidableEq

def Argument.text : Argument → String
  | .bare w => w
  | .quoted w => w

/-- The rest of a word that opens a string. -/
def opened (w : String) : Option (List Char) :=
  match w.toList with
  | '"' :: rest => some rest
  | _ => none

/-- The text ends a string: its last quotation mark is not escaped. -/
def closes (w : List Char) : Bool :=
  match w.reverse with
  | '"' :: rest => (rest.takeWhile (· = '\\')).length % 2 = 0
  | _ => false

/-- The words of a string opened before come first. A string of several words, or one that is
never closed, is kept as it is printed, and so are escapes. -/
def argumentsFrom : List String → List String → List Argument
  | [], [] => []
  | [], w :: ws =>
    match opened w with
    | none => .bare w :: argumentsFrom [] ws
    | some rest =>
      if closes rest then .quoted (String.ofList rest.dropLast) :: argumentsFrom [] ws
      else argumentsFrom [w] ws
  | u :: us, [] => [.quoted (unwords (u :: us))]
  | u :: us, w :: ws =>
    if closes w.toList then .quoted (unwords (u :: us ++ [w])) :: argumentsFrom [] ws
    else argumentsFrom (u :: us ++ [w]) ws

/-- The arguments of a printed rule. -/
def arguments (rule : String) : List Argument := argumentsFrom [] (words rule)

def argumentTexts (rule : String) : List String := (arguments rule).map Argument.text

/-- A rule as the packet filter prints it, and a chain of such rules. -/
def readPrinted (rule : String) : Option Rule := readRule (argumentTexts rule)

def evaluatePrinted (rules : List String) (p : Packet) : Option Outcome :=
  (rules.mapM readPrinted).map (run p)

/-- The word, bare or in quotes. -/
def Shows (f w : String) : Prop := f = w ∨ f = "\"" ++ w ++ "\""

theorem opened_eq_some {w : String} {rest : List Char} (h : opened w = some rest) :
    w.toList = '"' :: rest := by
  unfold opened at h
  split at h
  · rename_i hw
    rw [hw, Option.some.inj h]
  · cases h

theorem closes_eq_true {w : List Char} (h : closes w = true) : w = w.dropLast ++ ['"'] := by
  unfold closes at h
  split at h
  · rename_i rest hw
    have hrev : w = rest.reverse ++ ['"'] := by
      rw [← List.reverse_reverse w, hw, List.reverse_cons]
    rw [hrev, List.dropLast_concat]
  · cases h

/-- A string closed in the word that opens it. -/
theorem shows_of_closes {w : String} {rest : List Char} (h : opened w = some rest)
    (hclose : closes rest = true) : Shows w (String.ofList rest.dropLast) := by
  right
  apply String.toList_inj.mp
  rw [opened_eq_some h, closes_eq_true hclose]
  simp

theorem not_plain_of_opened {u : String} (us : List String) {rest : List Char}
    (h : opened u = some rest) : ¬Plain (unwords (u :: us)) := by
  intro hplain
  refine hplain.ne_quote '"' ?_ rfl
  cases us with
  | nil =>
    rw [unwords_toList_singleton, opened_eq_some h]
    exact List.mem_cons_self ..
  | cons v vs =>
    rw [unwords_toList_cons, opened_eq_some h]
    exact List.mem_cons_self ..

/-- A string that is still open ends up as an argument that is not plain. -/
theorem argumentsFrom_open {u : String} {rest : List Char} (h : opened u = some rest)
    (us ws : List String) :
    ∃ w back, argumentsFrom (u :: us) ws = .quoted w :: back ∧ ¬Plain w := by
  induction ws generalizing us with
  | nil => exact ⟨_, _, rfl, not_plain_of_opened us h⟩
  | cons w ws ih =>
    rw [argumentsFrom]
    split
    · exact ⟨_, _, rfl, not_plain_of_opened (us ++ [w]) h⟩
    · exact ih (us ++ [w])

/-- Plain arguments are printed one to a word. -/
theorem forall₂_shows {l ws : List String} (h : (argumentsFrom [] l).map Argument.text = ws)
    (hplain : ∀ w ∈ ws, Plain w) : List.Forall₂ Shows l ws := by
  induction l generalizing ws with
  | nil =>
    subst h
    exact .nil
  | cons f l ih =>
    rw [argumentsFrom] at h
    cases hopen : opened f with
    | none =>
      simp only [hopen, List.map_cons] at h
      subst h
      rw [List.forall_mem_cons] at hplain
      exact .cons (.inl rfl) (ih rfl hplain.2)
    | some rest =>
      simp only [hopen] at h
      by_cases hclose : closes rest = true
      · rw [if_pos hclose, List.map_cons] at h
        subst h
        rw [List.forall_mem_cons] at hplain
        exact .cons (shows_of_closes hopen hclose) (ih rfl hplain.2)
      · rw [if_neg hclose] at h
        obtain ⟨w, back, heq, hnot⟩ := argumentsFrom_open hopen [] l
        rw [heq, List.map_cons] at h
        subst h
        exact absurd (hplain w (by simp [Argument.text])) hnot

theorem filter_quote_of_shows {f w : String} (h : Shows f w) (hw : Plain w) :
    f.toList.filter (· ≠ '"') = w.toList := by
  have hkeep : w.toList.filter (· ≠ '"') = w.toList := by
    rw [List.filter_eq_self]
    intro c hc
    simpa using hw.ne_quote c hc
  rcases h with rfl | rfl
  · exact hkeep
  · rw [String.toList_append, String.toList_append, List.filter_append, List.filter_append, hkeep]
    simp

/-- Deleting the quotation marks of plain arguments leaves their words. -/
theorem stringFields_unquoted {rule : String} {ws : List String} (h : argumentTexts rule = ws)
    (hplain : ∀ w ∈ ws, Plain w) :
    stringFields (String.ofList (rule.toList.filter (· ≠ '"'))) = ws := by
  have hkeep : ∀ c, isBlank c = true → decide (c ≠ '"') = true := by
    intro c hc
    rw [decide_eq_true_eq]
    rintro rfl
    revert hc
    decide
  have hfields : ∀ (fs ws : List String), List.Forall₂ Shows fs ws → (∀ w ∈ ws, Plain w) →
      ((fs.map String.toList).map (·.filter (· ≠ '"'))).filter (!·.isEmpty) =
        ws.map String.toList := by
    intro fs ws hall
    induction hall with
    | nil => simp
    | cons hshow hrest ih =>
      intro hws
      rw [List.forall_mem_cons] at hws
      rw [List.map_cons, List.map_cons, filter_quote_of_shows hshow hws.1, List.filter_cons_of_pos,
        ih hws.2, List.map_cons]
      simpa using hws.1.toList_ne_nil
  have hwords : fields rule.toList = (words rule).map String.toList := by
    simp [words, Function.comp_def]
  rw [stringFields, String.toList_ofList, spaceFields_eq, fields_filter hkeep, hwords,
    hfields _ _ (forall₂_shows h hplain) hplain]
  clear h
  induction ws with
  | nil => rfl
  | cons w ws ih =>
    rw [List.forall_mem_cons] at hplain
    rw [List.map_cons, List.flatMap_cons, hplain.1.spaceFields, List.map_append, ih hplain.2]
    simp

/-! ## Neighbouring arguments -/

theorem head_shows {l : List String} {a : Argument} {rest : List Argument}
    (h : argumentsFrom [] l = a :: rest) (ha : Plain a.text) :
    ∃ f l', l = f :: l' ∧ Shows f a.text := by
  cases l with
  | nil => cases h
  | cons f l =>
    refine ⟨f, l, rfl, ?_⟩
    rw [argumentsFrom] at h
    cases hopen : opened f with
    | none =>
      simp only [hopen] at h
      obtain ⟨rfl, -⟩ := List.cons.inj h
      exact .inl rfl
    | some tail =>
      simp only [hopen] at h
      split at h
      · rename_i hclose
        obtain ⟨rfl, -⟩ := List.cons.inj h
        exact shows_of_closes hopen hclose
      · obtain ⟨w, back, heq, hnot⟩ := argumentsFrom_open hopen [] l
        rw [heq] at h
        obtain ⟨rfl, -⟩ := List.cons.inj h
        exact absurd ha hnot

/-- An option and the plain argument after it stand in neighbouring words. -/
theorem neighbours_show {w : String} {a : Argument} {back : List Argument} (ha : Plain a.text)
    (l : List String) (openWords : List String) (front : List Argument)
    (h : argumentsFrom openWords l = front ++ .bare w :: a :: back) :
    ∃ x f y, l = x ++ w :: f :: y ∧ Shows f a.text := by
  induction l generalizing openWords front with
  | nil =>
    cases openWords with
    | nil => simp [argumentsFrom] at h
    | cons u us =>
      have hlength := congrArg List.length h
      simp [argumentsFrom] at hlength
      omega
  | cons g l ih =>
    -- the argument of `g` is in front, or it is the option itself
    have hlater : ∀ first, first :: argumentsFrom [] l = front ++ .bare w :: a :: back →
        first ≠ .bare w → ∃ x f y, g :: l = x ++ w :: f :: y ∧ Shows f a.text := by
      intro first heq hne
      cases front with
      | nil => exact absurd (List.cons.inj heq).1 hne
      | cons e front =>
        obtain ⟨x, f, y, rfl, hf⟩ := ih [] front (List.cons.inj heq).2
        exact ⟨g :: x, f, y, rfl, hf⟩
    have hopen : ∀ open_, argumentsFrom open_ l = front ++ .bare w :: a :: back →
        ∃ x f y, g :: l = x ++ w :: f :: y ∧ Shows f a.text := by
      intro open_ heq
      obtain ⟨x, f, y, rfl, hf⟩ := ih open_ front heq
      exact ⟨g :: x, f, y, rfl, hf⟩
    cases openWords with
    | nil =>
      rw [argumentsFrom] at h
      cases hg : opened g with
      | none =>
        simp only [hg] at h
        by_cases hgw : g = w
        · subst hgw
          cases front with
          | nil =>
            obtain ⟨f, l', rfl, hf⟩ := head_shows (List.cons.inj h).2 ha
            exact ⟨[], f, l', rfl, hf⟩
          | cons e front =>
            obtain ⟨x, f, y, rfl, hf⟩ := ih [] front (List.cons.inj h).2
            exact ⟨g :: x, f, y, rfl, hf⟩
        · exact hlater _ h (by simpa using hgw)
      | some rest =>
        simp only [hg] at h
        split at h
        · exact hlater _ h (by simp)
        · exact hopen _ h
    | cons u us =>
      rw [argumentsFrom] at h
      split at h
      · exact hlater _ h (by simp)
      · exact hopen _ h

end SakhtarWg.Iptables
