import Mathlib.Data.List.Basic

/-!
# Fallible computations

`Except` stands for a function that returns an error. These rules take a
successful run apart, and carry an invariant over a loop that stops at the first
error.
-/

namespace SakhtarWg.Fallible

variable {ε ε' α β : Type}

theorem bind_eq_ok {x : Except ε α} {f : α → Except ε β} {b : β} :
    (x >>= f) = .ok b ↔ ∃ a, x = .ok a ∧ f a = .ok b := by
  cases x with
  | error e => simp [bind, Except.bind]
  | ok a => simp [bind, Except.bind]

theorem bind_eq_error {x : Except ε α} {f : α → Except ε β} {e : ε} :
    (x >>= f) = .error e ↔ x = .error e ∨ ∃ a, x = .ok a ∧ f a = .error e := by
  cases x with
  | error e => simp [bind, Except.bind]
  | ok a => simp [bind, Except.bind]

theorem map_eq_ok {x : Except ε α} {f : α → β} {b : β} :
    f <$> x = .ok b ↔ ∃ a, x = .ok a ∧ f a = b := by
  cases x <;> simp [Functor.map, Except.map]

theorem mapError_eq_ok {x : Except ε α} {f : ε → ε'} {a : α} :
    x.mapError f = .ok a ↔ x = .ok a := by
  cases x <;> simp [Except.mapError]

theorem pure_eq_ok {a b : α} : (pure a : Except ε α) = .ok b ↔ a = b := by
  simp [pure, Except.pure]

theorem exists_ok_iff {x : Except ε α} : (∃ a, x = .ok a) ↔ x.toBool = true := by
  cases x <;> simp [Except.toBool]

/-- Refuse with `e` unless the condition holds. -/
def require (c : Bool) (e : ε) : Except ε Unit := if c then .ok () else .error e

@[simp] theorem require_eq_ok {c : Bool} {e : ε} {u : Unit} :
    require c e = .ok u ↔ c = true := by
  cases c <;> simp [require]

theorem forM_eq_ok {f : α → Except ε Unit} {l : List α} {u : Unit} :
    l.forM f = .ok u ↔ ∀ x ∈ l, f x = .ok () := by
  induction l with
  | nil => simp [pure_eq_ok]
  | cons x xs ih =>
    change (f x >>= fun _ => xs.forM f) = .ok u ↔ _
    rw [bind_eq_ok, List.forall_mem_cons]
    constructor
    · rintro ⟨_, hx, hxs⟩
      exact ⟨hx, ih.mp hxs⟩
    · rintro ⟨hx, hxs⟩
      exact ⟨(), hx, ih.mpr hxs⟩

theorem forM_eq_error {f : α → Except ε Unit} {l : List α} {e : ε} (h : l.forM f = .error e) :
    ∃ x ∈ l, f x = .error e := by
  induction l with
  | nil => cases h
  | cons x xs ih =>
    change (f x >>= fun _ => xs.forM f) = .error e at h
    cases hx : f x with
    | error e' =>
      rw [hx] at h
      exact ⟨x, by simp, hx.trans h⟩
    | ok u =>
      rw [hx] at h
      obtain ⟨y, hy, hf⟩ := ih h
      exact ⟨y, by simp [hy], hf⟩

theorem mapM_ok {f : α → Except ε β} {g : α → β} {l : List α} (h : ∀ x ∈ l, f x = .ok (g x)) :
    l.mapM f = .ok (l.map g) := by
  induction l with
  | nil => rfl
  | cons x xs ih =>
    rw [List.mapM_cons, h x (by simp), ih fun y hy => h y (List.mem_cons_of_mem _ hy)]
    rfl

theorem mem_of_mapM_ok {f : α → Except ε β} {l : List α} {out : List β} (h : l.mapM f = .ok out) :
    ∀ b ∈ out, ∃ x ∈ l, f x = .ok b := by
  induction l generalizing out with
  | nil =>
    cases h
    simp
  | cons x xs ih =>
    simp only [List.mapM_cons, bind_eq_ok, pure_eq_ok] at h
    obtain ⟨b, hb, bs, hbs, rfl⟩ := h
    rw [List.forall_mem_cons]
    refine ⟨⟨x, by simp, hb⟩, fun b' hb' => ?_⟩
    obtain ⟨y, hy, hf⟩ := ih hbs b' hb'
    exact ⟨y, by simp [hy], hf⟩

theorem exists_of_mapM_ok {f : α → Except ε β} {l : List α} {out : List β}
    (h : l.mapM f = .ok out) : ∀ x ∈ l, ∃ b ∈ out, f x = .ok b := by
  induction l generalizing out with
  | nil => simp
  | cons x xs ih =>
    simp only [List.mapM_cons, bind_eq_ok, pure_eq_ok] at h
    obtain ⟨b, hb, bs, hbs, rfl⟩ := h
    rw [List.forall_mem_cons]
    refine ⟨⟨b, by simp, hb⟩, fun y hy => ?_⟩
    obtain ⟨b', hb', hf⟩ := ih hbs y hy
    exact ⟨b', by simp [hb'], hf⟩

/-- What the outputs tell of their inputs, in order. -/
theorem map_of_mapM_ok {γ : Type} {f : α → Except ε β} {g : β → γ} {key : α → γ} {l : List α}
    {out : List β} (hf : ∀ x ∈ l, ∀ b, f x = .ok b → g b = key x) (h : l.mapM f = .ok out) :
    out.map g = l.map key := by
  induction l generalizing out with
  | nil =>
    cases h
    rfl
  | cons x l ih =>
    simp only [List.mapM_cons, bind_eq_ok, pure_eq_ok] at h
    obtain ⟨b, hb, bs, hbs, rfl⟩ := h
    rw [List.map_cons, List.map_cons, hf x (by simp) b hb,
      ih (fun y hy => hf y (List.mem_cons_of_mem _ hy)) hbs]

theorem exists_mapM_ok {f : α → Except ε β} {l : List α} :
    (∃ out, l.mapM f = .ok out) ↔ ∀ x ∈ l, ∃ b, f x = .ok b := by
  induction l with
  | nil => exact iff_of_true ⟨[], rfl⟩ (by simp)
  | cons x xs ih =>
    rw [List.forall_mem_cons, ← ih]
    simp only [List.mapM_cons, bind_eq_ok, pure_eq_ok]
    constructor
    · rintro ⟨_, b, hb, bs, hbs, -⟩
      exact ⟨⟨b, hb⟩, bs, hbs⟩
    · rintro ⟨⟨b, hb⟩, bs, hbs⟩
      exact ⟨b :: bs, b, hb, bs, hbs, rfl⟩

/-- A map whose function succeeds on some inputs, with a known value. -/
theorem mapM_iff {f : α → Except ε β} {P : α → Prop} {g : α → β}
    (hf : ∀ x b, f x = .ok b ↔ P x ∧ b = g x) {l : List α} {out : List β} :
    l.mapM f = .ok out ↔ (∀ x ∈ l, P x) ∧ out = l.map g := by
  constructor
  · intro h
    have hP : ∀ x ∈ l, P x := by
      intro x hx
      obtain ⟨b, -, hb⟩ := exists_of_mapM_ok h x hx
      exact ((hf x b).mp hb).1
    rw [mapM_ok fun x hx => (hf x _).mpr ⟨hP x hx, rfl⟩] at h
    exact ⟨hP, (Except.ok.inj h).symm⟩
  · rintro ⟨hP, rfl⟩
    exact mapM_ok fun x hx => (hf x _).mpr ⟨hP x hx, rfl⟩

/-- A loop that fails fails at some element, after a successful run over those before it. -/
theorem foldlM_error {f : β → α → Except ε β} {l : List α} {b : β} {e : ε}
    (h : l.foldlM f b = .error e) :
    ∃ done x rest c, l = done ++ x :: rest ∧ done.foldlM f b = .ok c ∧ f c x = .error e := by
  induction l generalizing b with
  | nil => cases h
  | cons x xs ih =>
    rw [List.foldlM_cons] at h
    cases hx : f b x with
    | error e' =>
      rw [hx] at h
      exact ⟨[], x, xs, b, rfl, rfl, hx.trans h⟩
    | ok c =>
      rw [hx] at h
      obtain ⟨done, y, rest, d, rfl, hd, hy⟩ := ih h
      refine ⟨x :: done, y, rest, d, rfl, ?_, hy⟩
      rw [List.foldlM_cons, hx]
      exact hd

/-- An invariant of the processed part and the accumulator survives a successful loop. -/
theorem foldlM_ok {f : β → α → Except ε β} {P : List α → β → Prop} {l : List α} {b b' : β}
    (h0 : P [] b)
    (hstep : ∀ done x b b', P done b → f b x = .ok b' → P (done ++ [x]) b')
    (h : l.foldlM f b = .ok b') : P l b' := by
  suffices hgen : ∀ (l done : List α) (b : β), P done b → l.foldlM f b = .ok b' →
      P (done ++ l) b' by simpa using hgen l [] b h0 h
  intro l
  induction l with
  | nil =>
    intro done b hP h
    rw [List.foldlM_nil, pure_eq_ok] at h
    simpa [h] using hP
  | cons x xs ih =>
    intro done b hP h
    rw [List.foldlM_cons, bind_eq_ok] at h
    obtain ⟨c, hc, hrest⟩ := h
    have := ih (done ++ [x]) c (hstep done x b c hP hc) hrest
    simpa using this

/-- A loop that compares each element with those collected before it. -/
theorem foldlM_collect {f : List β → α → Except ε (List β)} (key : α → β) (R : β → β → Prop)
    (Q : α → Prop)
    (hstep : ∀ seen x seen', f seen x = .ok seen' →
      seen' = seen ++ [key x] ∧ (∀ y ∈ seen, R y (key x)) ∧ Q x)
    {l : List α} {out : List β} (h : l.foldlM f [] = .ok out) :
    out = l.map key ∧ (l.map key).Pairwise R ∧ ∀ x ∈ l, Q x := by
  refine foldlM_ok (P := fun done seen =>
    seen = done.map key ∧ (done.map key).Pairwise R ∧ ∀ x ∈ done, Q x) (by simp) ?_ h
  rintro done x seen seen' ⟨rfl, hpair, hQ⟩ hx
  obtain ⟨rfl, hR, hQx⟩ := hstep _ x _ hx
  refine ⟨by simp, ?_, ?_⟩
  · rw [List.map_append, List.pairwise_append]
    exact ⟨hpair, by simp, by simpa using hR⟩
  · intro y hy
    rcases List.mem_append.mp hy with hy | hy
    · exact hQ y hy
    · rw [List.mem_singleton.mp hy]
      exact hQx

/-- A loop that collects its elements succeeds exactly when each one passes. -/
theorem foldlM_collect_iff {f : List α → α → Except ε (List α)} {R : α → α → Prop} {Q : α → Prop}
    (hstep : ∀ seen x out, f seen x = .ok out ↔
      out = seen ++ [x] ∧ (∀ y ∈ seen, R y x) ∧ Q x) {l out : List α} :
    l.foldlM f [] = .ok out ↔ out = l ∧ l.Pairwise R ∧ ∀ x ∈ l, Q x := by
  constructor
  · intro h
    have hc := foldlM_collect id R Q (fun seen x out => (hstep seen x out).mp) h
    rwa [List.map_id] at hc
  · rintro ⟨rfl, hpair, hQ⟩
    suffices hloop : ∀ todo done, out = done ++ todo → todo.foldlM f done = .ok out from
      hloop out [] rfl
    intro todo
    induction todo with
    | nil =>
      intro done h
      rw [h, List.append_nil]
      rfl
    | cons x todo ih =>
      intro done h
      have hR : ∀ y ∈ done, R y x := by
        intro y hy
        rw [h, List.pairwise_append] at hpair
        exact hpair.2.2 y hy x (List.mem_cons_self ..)
      rw [List.foldlM_cons, (hstep done x _).mpr ⟨rfl, hR, hQ x (by simp [h])⟩]
      exact ih (done ++ [x]) (by simp [h])

/-- A loop whose every step succeeds under the invariant succeeds as a whole. -/
theorem foldlM_total {f : β → α → Except ε β} {P : List α → β → Prop} {l : List α} {b : β}
    (h0 : P [] b)
    (hstep : ∀ done x rest b, l = done ++ x :: rest → P done b →
      ∃ b', f b x = .ok b' ∧ P (done ++ [x]) b') :
    ∃ b', l.foldlM f b = .ok b' ∧ P l b' := by
  suffices hgen : ∀ (m done : List α) (b : β), l = done ++ m → P done b →
      ∃ b', m.foldlM f b = .ok b' ∧ P (done ++ m) b' by simpa using hgen l [] b rfl h0
  intro m
  induction m with
  | nil =>
    intro done b _ hP
    exact ⟨b, rfl, by simpa using hP⟩
  | cons x xs ih =>
    intro done b hl hP
    obtain ⟨c, hc, hPc⟩ := hstep done x xs b hl hP
    obtain ⟨b', hb', hP'⟩ := ih (done ++ [x]) c (by simp [hl]) hPc
    refine ⟨b', ?_, by simpa using hP'⟩
    rw [List.foldlM_cons, bind_eq_ok]
    exact ⟨c, hc, hb'⟩

end SakhtarWg.Fallible
