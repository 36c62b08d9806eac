import SakhtarWg.Program

/-!
# Programs on a machine

A machine answers every command from its state. The result of a program, the final
state and the commands issued on the way are then determined, and a triple speaks
of all three.
-/

namespace SakhtarWg.Program.Prog

variable {C : Type} {R : C → Type} {α β ε σ : Type}

section
variable (answer : (c : C) → σ → R c × σ)

def exec : Prog C R α → σ → α × σ
  | .pure a, s => (a, s)
  | .call c k, s => exec (k (answer c s).1) (answer c s).2

/-- The commands issued, each with the state it is issued in. -/
def steps : Prog C R α → σ → List (σ × C)
  | .pure _, _ => []
  | .call c k, s => (s, c) :: steps (k (answer c s).1) (answer c s).2

/-- Every command issued from `s` meets `A`, and the result and the final state meet `Q`. -/
def Guarded (A : σ → C → Prop) : Prog C R α → σ → (α → σ → Prop) → Prop
  | .pure a, s, Q => Q a s
  | .call c k, s, Q => A s c ∧ Guarded A (k (answer c s).1) (answer c s).2 Q

end

variable {answer : (c : C) → σ → R c × σ} {A B : σ → C → Prop}

theorem guarded_iff (p : Prog C R α) (s : σ) (Q : α → σ → Prop) :
    p.Guarded answer A s Q ↔
      (∀ e ∈ p.steps answer s, A e.1 e.2) ∧ Q (p.exec answer s).1 (p.exec answer s).2 := by
  induction p generalizing s with
  | pure a => simp [Guarded, steps, exec]
  | call c k ih => simp [Guarded, steps, exec, ih, and_assoc]

theorem exec_bind (p : Prog C R α) (f : α → Prog C R β) (s : σ) :
    (p >>= f).exec answer s = (f (p.exec answer s).1).exec answer (p.exec answer s).2 := by
  induction p generalizing s with
  | pure a => rfl
  | call c k ih => exact ih _ _

theorem steps_bind (p : Prog C R α) (f : α → Prog C R β) (s : σ) :
    (p >>= f).steps answer s =
      p.steps answer s ++ (f (p.exec answer s).1).steps answer (p.exec answer s).2 := by
  induction p generalizing s with
  | pure a => rfl
  | call c k ih => exact congrArg _ (ih _ _)

theorem guarded_bind {p : Prog C R α} {f : α → Prog C R β} {s : σ} {Q : β → σ → Prop} :
    (p >>= f).Guarded answer A s Q ↔
      p.Guarded answer A s fun a s => (f a).Guarded answer A s Q := by
  induction p generalizing s with
  | pure a => exact Iff.rfl
  | call c k ih => exact and_congr Iff.rfl (ih _)

theorem Guarded.mono {p : Prog C R α} {s : σ} {P Q : α → σ → Prop}
    (h : p.Guarded answer A s P) (hPQ : ∀ a s, P a s → Q a s) : p.Guarded answer A s Q := by
  rw [guarded_iff] at h ⊢
  exact ⟨h.1, hPQ _ _ h.2⟩

/-! ## Programs that may fail -/

/-- A postcondition for each way a program ends. -/
def Ends (Q : α → σ → Prop) (E : σ → Prop) : Except ε α → σ → Prop
  | .ok a, s => Q a s
  | .error _, s => E s

theorem Ends.mono {P Q : α → σ → Prop} {E F : σ → Prop} {r : Except ε α} {s : σ}
    (h : Ends P E r s) (hQ : ∀ a, P a s → Q a s) (hE : E s → F s) : Ends Q F r s := by
  cases r with
  | ok a => exact hQ a h
  | error e => exact hE h

/-- Run a fallible program and hand on how it ended. -/
def attempt (p : ExceptT ε (Prog C R) α) : ExceptT ε (Prog C R) (Except ε α) :=
  ExceptT.mk (p.run >>= fun r => Pure.pure (.ok r))

end SakhtarWg.Program.Prog
