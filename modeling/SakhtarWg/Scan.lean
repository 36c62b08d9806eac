import Mathlib.Data.List.Basic

/-!
# Replacing matches in a text

Matches of a pattern are found from left to right and do not overlap. A pattern looks at the
symbol before a position and at everything from there on, so a match can depend on text far behind
it; the lemmas here say where a text may be cut and its parts replaced on their own.
-/

namespace SakhtarWg.Scan
variable {α : Type}

/-- A match at the beginning of a text: the text matched, what stands for it, and what follows. -/
structure Match (α : Type) where
  text : List α
  out : List α
  rest : List α

/-- A pattern is given the symbol before a position and the text from there on. -/
abbrev Pattern (α : Type) := Option α → List α → Option (Match α)

/-- The scan at a position, with the number of symbols left of the match before it. -/
def replaceFrom (p : Pattern α) : Option α → ℕ → List α → List α
  | _, _, [] => []
  | _, k + 1, c :: l => replaceFrom p (some c) k l
  | before, 0, c :: l =>
    match p before (c :: l) with
    | some m => m.out ++ replaceFrom p (some c) (m.text.length - 1) l
    | none => c :: replaceFrom p (some c) 0 l

def replaceAll (p : Pattern α) (l : List α) : List α := replaceFrom p none 0 l

/-- A match is a non-empty beginning of the text. -/
def Sound (p : Pattern α) : Prop :=
  ∀ before l m, p before l = some m → m.text ≠ [] ∧ l = m.text ++ m.rest

/-- The symbol before what follows `t`. -/
def lastOr (before : Option α) (t : List α) : Option α := t.getLast?.or before

@[simp] theorem lastOr_nil (before : Option α) : lastOr before [] = before := rfl

@[simp] theorem lastOr_append (before : Option α) (t u : List α) :
    lastOr before (t ++ u) = lastOr (lastOr before t) u := by
  unfold lastOr
  rw [List.getLast?_append]
  cases u.getLast? with
  | none => rfl
  | some c => rfl

@[simp] theorem lastOr_cons (before : Option α) (c : α) (t : List α) :
    lastOr before (c :: t) = lastOr (some c) t := lastOr_append before [c] t

section
variable {p : Pattern α} {before : Option α}

@[simp] theorem replaceFrom_nil (k : ℕ) : replaceFrom p before k [] = [] := by
  cases k <;> rfl

theorem replaceFrom_skip (a b : List α) (before : Option α) :
    replaceFrom p before a.length (a ++ b) = replaceFrom p (lastOr before a) 0 b := by
  induction a generalizing before with
  | nil => rfl
  | cons c a ih =>
    rw [lastOr_cons, ← ih]
    rfl

/-- At a match, its replacement and then the scan of what follows. -/
theorem replaceFrom_match (hp : Sound p) {l : List α} {m : Match α} (h : p before l = some m) :
    replaceFrom p before 0 l = m.out ++ replaceFrom p (lastOr before m.text) 0 m.rest := by
  obtain ⟨hne, hl⟩ := hp before l m h
  obtain ⟨c, text, htext⟩ := List.exists_cons_of_ne_nil hne
  rw [htext, List.cons_append] at hl
  subst hl
  rw [replaceFrom, h]
  dsimp only
  rw [htext, List.length_cons, Nat.add_sub_cancel, replaceFrom_skip, lastOr_cons]

/-- The symbol before matters at the first position only. -/
theorem replaceFrom_before {before' : Option α} {l : List α} (h : p before l = p before' l) :
    replaceFrom p before 0 l = replaceFrom p before' 0 l := by
  cases l with
  | nil => rfl
  | cons c l => rw [replaceFrom, replaceFrom, h]

theorem replaceFrom_miss {c : α} {l : List α} (h : p before (c :: l) = none) :
    replaceFrom p before 0 (c :: l) = c :: replaceFrom p (some c) 0 l := by
  rw [replaceFrom, h]

/-! ## Cutting a text -/

/-- No match begins in `t` when `b` follows it. -/
def Quiet (p : Pattern α) (before : Option α) (t b : List α) : Prop :=
  ∀ x y, t = x ++ y → y ≠ [] → p (lastOr before x) (y ++ b) = none

theorem Quiet.nil (b : List α) : Quiet p before [] b := by
  intro x y h hy
  simp at h
  exact absurd h.2 hy

theorem Quiet.cons {c : α} {t b : List α} (hc : p before (c :: (t ++ b)) = none)
    (ht : Quiet p (some c) t b) : Quiet p before (c :: t) b := by
  intro x y h hy
  cases x with
  | nil =>
    rw [List.nil_append] at h
    subst h
    exact hc
  | cons d x =>
    rw [List.cons_append, List.cons.injEq] at h
    obtain ⟨rfl, h⟩ := h
    rw [lastOr_cons]
    exact ht x y h hy

/-- The end of a text is the end of each part that reaches it. -/
theorem exists_last {t x y : List α} (h : t = x ++ y) (hy : y ≠ []) :
    ∃ c ∈ y.getLast?, c ∈ t.getLast? := by
  refine ⟨y.getLast hy, List.getLast?_eq_some_getLast hy, ?_⟩
  rw [h, List.getLast?_append, List.getLast?_eq_some_getLast hy]
  rfl

/-- A symbol no match begins with. -/
def Idle (p : Pattern α) (c : α) : Prop := ∀ before l, p before (c :: l) = none

theorem Quiet.of_idle {t : List α} (h : ∀ c ∈ t, Idle p c) (b : List α) : Quiet p before t b := by
  intro x y hxy hy
  obtain ⟨c, y, rfl⟩ := List.exists_cons_of_ne_nil hy
  exact h c (by simp [hxy]) _ _

/-- What begins in a text and cannot hold the symbol at its end, or the symbol behind it, lies in
the text. -/
theorem within {t b x rest : List α} (h : t ++ b = x ++ rest)
    (hcut : (∃ c ∈ t.getLast?, c ∉ x) ∨ ∀ c ∈ b.head?, c ∉ x) :
    ∃ z, t = x ++ z ∧ rest = z ++ b := by
  rcases List.append_eq_append_iff.mp h with ⟨z, rfl, rfl⟩ | ⟨z, rfl, rfl⟩
  · cases z with
    | nil => exact ⟨[], by simp, rfl⟩
    | cons c z =>
      rcases hcut with ⟨d, hd, hdx⟩ | hb
      · exact absurd (List.mem_append_left _ (List.mem_of_getLast? hd)) hdx
      · exact absurd (by simp) (hb c rfl)
  · exact ⟨z, rfl, rfl⟩

theorem Quiet.append {t u b : List α} (ht : Quiet p before t (u ++ b))
    (hu : Quiet p (lastOr before t) u b) : Quiet p before (t ++ u) b := by
  induction t generalizing before with
  | nil => exact hu
  | cons c t ih =>
    refine Quiet.cons ?_ (ih ?_ ?_)
    · simpa using ht [] (c :: t) rfl (by simp)
    · intro x y h hy
      have := ht (c :: x) y (by rw [h, List.cons_append]) hy
      rwa [lastOr_cons] at this
    · rwa [lastOr_cons] at hu

theorem replaceFrom_quiet {t b : List α} (h : Quiet p before t b) :
    replaceFrom p before 0 (t ++ b) = t ++ replaceFrom p (lastOr before t) 0 b := by
  induction t generalizing before with
  | nil => rfl
  | cons c t ih =>
    have hc : p before (c :: (t ++ b)) = none := h [] (c :: t) rfl (by simp)
    rw [List.cons_append, replaceFrom_miss hc, List.cons_append, lastOr_cons, ih]
    intro x y hxy hy
    have := h (c :: x) y (by rw [hxy, List.cons_append]) hy
    rwa [lastOr_cons] at this

theorem replaceFrom_quiet_nil {t : List α} (h : Quiet p before t []) :
    replaceFrom p before 0 t = t := by
  have := replaceFrom_quiet h
  rwa [List.append_nil, replaceFrom_nil, List.append_nil] at this

/-- Induction along a scan: the rest of a text is what follows a match, or a symbol at which there
is none. -/
theorem scan_induct (hp : Sound p) {motive : Option α → List α → Prop}
    (nil : ∀ before, motive before [])
    (miss : ∀ before c l, p before (c :: l) = none → motive (some c) l → motive before (c :: l))
    (hit : ∀ before l m, p before l = some m → l = m.text ++ m.rest →
      motive (lastOr before m.text) m.rest → motive before l)
    (before : Option α) (l : List α) : motive before l := by
  induction hn : l.length using Nat.strongRecOn generalizing before l with
  | _ n ih =>
    cases l with
    | nil => exact nil before
    | cons c l =>
      cases hm : p before (c :: l) with
      | none => exact miss before c l hm (ih l.length (by simp [← hn]) _ l rfl)
      | some m =>
        obtain ⟨hne, hsplit⟩ := hp _ _ _ hm
        refine hit before _ m hm hsplit (ih m.rest.length ?_ _ m.rest rfl)
        have hpos := List.length_pos_iff.mpr hne
        rw [← hn, hsplit, List.length_append]
        omega

/-- A text that a match neither crosses nor needs more of can be replaced on its own. -/
theorem replaceFrom_append (hp : Sound p) {a b : List α}
    (h : ∀ x y, a = x ++ y → y ≠ [] → p (lastOr before x) (y ++ b) =
      (p (lastOr before x) y).map fun m => { m with rest := m.rest ++ b }) :
    replaceFrom p before 0 (a ++ b) =
      replaceFrom p before 0 a ++ replaceFrom p (lastOr before a) 0 b := by
  revert h
  induction before, a using scan_induct hp with
  | nil before =>
    intro _
    rfl
  | miss before c a hm ih =>
    intro h
    have hfirst := h [] (c :: a) rfl (by simp)
    rw [lastOr_nil, hm, List.cons_append] at hfirst
    rw [List.cons_append, replaceFrom_miss hfirst, replaceFrom_miss hm, List.cons_append,
      lastOr_cons, ih fun x y hxy hy => ?_]
    have hrest := h (c :: x) y (by rw [hxy, List.cons_append]) hy
    rwa [lastOr_cons] at hrest
  | hit before a m hm hsplit ih =>
    intro h
    have hfirst := h [] a rfl (by rw [hsplit]; simp [(hp _ _ _ hm).1])
    rw [lastOr_nil, hm] at hfirst
    have ih := ih fun x y hxy hy => by
      have hrest := h (m.text ++ x) y (by rw [hsplit, hxy, List.append_assoc]) hy
      rwa [lastOr_append] at hrest
    rw [replaceFrom_match hp hfirst, replaceFrom_match hp hm, List.append_assoc]
    dsimp only
    rw [ih, ← lastOr_append, ← hsplit]

/-! ## What a replacement leaves -/

theorem replaceFrom_forall (hp : Sound p) {P : α → Prop}
    (hout : ∀ before l m, p before l = some m → (∀ c ∈ m.text, P c) → ∀ c ∈ m.out, P c)
    {l : List α} (hl : ∀ c ∈ l, P c) : ∀ c ∈ replaceFrom p before 0 l, P c := by
  revert hl
  induction before, l using scan_induct hp with
  | nil before => simp
  | miss before c l hm ih =>
    intro hl
    rw [List.forall_mem_cons] at hl
    rw [replaceFrom_miss hm, List.forall_mem_cons]
    exact ⟨hl.1, ih hl.2⟩
  | hit before l m hm hsplit ih =>
    intro hl
    rw [hsplit, List.forall_mem_append] at hl
    rw [replaceFrom_match hp hm, List.forall_mem_append]
    exact ⟨hout _ _ _ hm hl.1, ih hl.2⟩

theorem replaceFrom_ne_nil (hp : Sound p)
    (hout : ∀ before l m, p before l = some m → m.out ≠ []) {l : List α} (hl : l ≠ []) :
    replaceFrom p before 0 l ≠ [] := by
  obtain ⟨c, l, rfl⟩ := List.exists_cons_of_ne_nil hl
  cases hm : p before (c :: l) with
  | none =>
    rw [replaceFrom_miss hm]
    exact List.cons_ne_nil _ _
  | some m =>
    rw [replaceFrom_match hp hm]
    simp [hout _ _ _ hm]

theorem replaceFrom_length_le (hp : Sound p)
    (hout : ∀ before l m, p before l = some m → m.out.length ≤ m.text.length) (l : List α) :
    (replaceFrom p before 0 l).length ≤ l.length := by
  induction before, l using scan_induct hp with
  | nil before => simp
  | miss before c l hm ih =>
    rw [replaceFrom_miss hm, List.length_cons, List.length_cons]
    exact Nat.succ_le_succ ih
  | hit before l m hm hsplit ih =>
    rw [replaceFrom_match hp hm, hsplit, List.length_append, List.length_append]
    exact Nat.add_le_add (hout _ _ _ hm) ih

end

end SakhtarWg.Scan
