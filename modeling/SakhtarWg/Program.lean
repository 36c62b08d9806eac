import Mathlib.Data.List.Basic

/-!
# Programs with effects

A program issues commands and continues with the responses. Which responses are
possible is left to the reader of the program: any response at all, or those of a
state machine the commands act on.
-/

namespace SakhtarWg.Program

/-- A program over commands `C`, command `c` being answered by an `R c`. -/
inductive Prog (C : Type) (R : C → Type) (α : Type) : Type
  | pure (a : α) : Prog C R α
  | call (c : C) (k : R c → Prog C R α) : Prog C R α

variable {C : Type} {R : C → Type} {α β γ : Type}

namespace Prog

def bind (p : Prog C R α) (f : α → Prog C R β) : Prog C R β :=
  match p with
  | .pure a => f a
  | .call c k => .call c fun r => (k r).bind f

instance : Monad (Prog C R) where
  pure := Prog.pure
  bind := Prog.bind

theorem bind_pure' (p : Prog C R α) : p.bind .pure = p := by
  induction p with
  | pure a => rfl
  | call c k ih =>
    simp only [bind]
    congr
    funext r
    exact ih r

theorem bind_assoc' (p : Prog C R α) (f : α → Prog C R β) (g : β → Prog C R γ) :
    (p.bind f).bind g = p.bind fun a => (f a).bind g := by
  induction p with
  | pure a => rfl
  | call c k ih =>
    simp only [bind]
    congr
    funext r
    exact ih r

instance : LawfulMonad (Prog C R) :=
  LawfulMonad.mk' _ bind_pure' (fun _ _ => rfl) bind_assoc'

/-- A single command. -/
def perform (c : C) : Prog C R (R c) := .call c .pure

/-! ## Traces -/

/-- The program can issue the commands of the trace, receive its responses, and return. -/
inductive Runs : Prog C R α → List (Sigma R) → α → Prop
  | pure (a : α) : Runs (.pure a) [] a
  | call {c : C} {k : R c → Prog C R α} {r : R c} {t : List (Sigma R)} {a : α} :
      Runs (k r) t a → Runs (.call c k) (⟨c, r⟩ :: t) a

theorem runs_pure {a b : α} {t : List (Sigma R)} :
    Runs (Pure.pure a : Prog C R α) t b ↔ t = [] ∧ b = a := by
  constructor
  · intro h
    cases h
    exact ⟨rfl, rfl⟩
  · rintro ⟨rfl, rfl⟩
    exact .pure b

theorem runs_perform {c : C} {t : List (Sigma R)} {r : R c} :
    Runs (perform c) t r ↔ t = [⟨c, r⟩] := by
  constructor
  · intro h
    cases h with
    | call h =>
      cases h
      rfl
  · rintro rfl
    exact .call (.pure r)

theorem runs_perform_bind {c : C} {f : R c → Prog C R α} {t : List (Sigma R)} {a : α} :
    Runs (perform c >>= f) t a ↔ ∃ r u, t = ⟨c, r⟩ :: u ∧ Runs (f r) u a := by
  constructor
  · intro h
    cases h with
    | call h => exact ⟨_, _, rfl, h⟩
  · rintro ⟨r, u, rfl, h⟩
    exact .call h

theorem runs_bind {p : Prog C R α} {f : α → Prog C R β} {t : List (Sigma R)} {b : β} :
    Runs (p >>= f) t b ↔ ∃ u v a, t = u ++ v ∧ Runs p u a ∧ Runs (f a) v b := by
  induction p generalizing t with
  | pure a =>
    constructor
    · intro h
      exact ⟨[], t, a, rfl, .pure a, h⟩
    · rintro ⟨u, v, a', rfl, hp, hf⟩
      cases hp
      exact hf
  | call c k ih =>
    constructor
    · intro h
      cases h with
      | call h =>
        obtain ⟨u, v, a, rfl, hp, hf⟩ := (ih _).mp h
        exact ⟨_ :: u, v, a, rfl, .call hp, hf⟩
    · rintro ⟨u, v, a, rfl, hp, hf⟩
      cases hp with
      | call hp => exact .call ((ih _).mpr ⟨_, v, a, rfl, hp, hf⟩)

/-! ## Triples

Whatever the responses are, every command issued meets `A` and the result meets `Q`. -/

def Safe (A : C → Prop) (p : Prog C R α) (Q : α → Prop) : Prop :=
  ∀ t a, p.Runs t a → (∀ e ∈ t, A e.1) ∧ Q a

theorem Safe.pure {A : C → Prop} {Q : α → Prop} {a : α} (h : Q a) :
    Safe A (Pure.pure a : Prog C R α) Q := by
  intro t b hrun
  obtain ⟨rfl, rfl⟩ := runs_pure.mp hrun
  exact ⟨by simp, h⟩

theorem Safe.perform {A : C → Prop} {c : C} (h : A c) :
    Safe A (Prog.perform c : Prog C R (R c)) fun _ => True := by
  intro t a hrun
  cases hrun with
  | call hrun =>
    cases hrun
    exact ⟨by simpa using h, trivial⟩

theorem Safe.bind {A : C → Prop} {p : Prog C R α} {f : α → Prog C R β} {P : α → Prop}
    {Q : β → Prop} (hp : Safe A p P) (hf : ∀ a, P a → Safe A (f a) Q) : Safe A (p >>= f) Q := by
  intro t b hrun
  obtain ⟨u, v, a, rfl, hu, hv⟩ := runs_bind.mp hrun
  obtain ⟨hA, hPa⟩ := hp u a hu
  obtain ⟨hA', hQ⟩ := hf a hPa v b hv
  refine ⟨fun e he => ?_, hQ⟩
  rcases List.mem_append.mp he with he | he
  · exact hA e he
  · exact hA' e he

/-- The trace obtained by answering every command from a state. -/
def trace {σ : Type} (answer : (c : C) → σ → R c × σ) : Prog C R α → σ → List (Sigma R) × α
  | .pure a, _ => ([], a)
  | .call c k, s =>
    let (r, s) := answer c s
    let (t, a) := trace answer (k r) s
    (⟨c, r⟩ :: t, a)

theorem runs_trace {σ : Type} (answer : (c : C) → σ → R c × σ) (p : Prog C R α) (s : σ) :
    Runs p (trace answer p s).1 (trace answer p s).2 := by
  induction p generalizing s with
  | pure a => exact .pure a
  | call c k ih => exact .call (ih _ _)

theorem answered_of_mem_trace {σ : Type} (answer : (c : C) → σ → R c × σ) {p : Prog C R α} {s : σ}
    {x : Sigma R} (h : x ∈ (trace answer p s).1) : ∃ s', x.2 = (answer x.1 s').1 := by
  induction p generalizing s with
  | pure a => cases h
  | call c k ih =>
    rcases List.mem_cons.mp h with rfl | h
    · exact ⟨s, rfl⟩
    · exact ih _ h

end Prog

end SakhtarWg.Program
