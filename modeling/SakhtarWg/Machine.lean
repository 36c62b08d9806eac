import Mathlib.Data.List.Basic

/-!
# Runs of a state machine

A machine is a step function; a run is a list of events. A property may be asked of
every state of a run, a condition of every step before it is taken.
-/

namespace SakhtarWg.Machine

variable {σ ε : Type} (step : σ → ε → σ)

/-- The property holds at the start and after every event. -/
def Always (P : σ → Prop) : σ → List ε → Prop
  | s, [] => P s
  | s, e :: es => P s ∧ Always P (step s e) es

instance decidableAlways {P : σ → Prop} [DecidablePred P] :
    (s : σ) → (es : List ε) → Decidable (Always step P s es)
  | s, [] => inferInstanceAs (Decidable (P s))
  | s, e :: es => @instDecidableAnd (P s) _ _ (decidableAlways (step s e) es)

/-- The condition holds of every event and the state it is taken in. -/
def Throughout (Q : σ → ε → Prop) : σ → List ε → Prop
  | _, [] => True
  | s, e :: es => Q s e ∧ Throughout Q (step s e) es

/-- What every step keeps holds in every state of a run. -/
theorem always_of_inv {I P : σ → Prop} (hinv : ∀ s e, I s → I (step s e)) (hP : ∀ s, I s → P s)
    (es : List ε) {s : σ} (hI : I s) : Always step P s es := by
  induction es generalizing s with
  | nil => exact hP s hI
  | cons e es ih => exact ⟨hP s hI, ih (hinv s e hI)⟩

/-- When one step keeps the property exactly under the condition, so does a whole run. The
invariant `I` is what the steps need to know about the state. -/
theorem always_iff_throughout {I P : σ → Prop} {Q : σ → ε → Prop}
    (hinv : ∀ s e, I s → I (step s e))
    (hstep : ∀ s e, I s → P s → (P (step s e) ↔ Q s e)) (es : List ε) {s : σ} (hI : I s)
    (hP : P s) : Always step P s es ↔ Throughout step Q s es := by
  induction es generalizing s with
  | nil => exact iff_of_true hP trivial
  | cons e es ih =>
    have hnext : Always step P (step s e) es → P (step s e) := by
      intro h
      cases es with
      | nil => exact h
      | cons e' es => exact h.1
    constructor
    · intro h
      have hPe := hnext h.2
      exact ⟨(hstep s e hI hP).mp hPe, (ih (hinv s e hI) hPe).mp h.2⟩
    · intro h
      have hPe := (hstep s e hI hP).mpr h.1
      exact ⟨hP, (ih (hinv s e hI) hPe).mpr h.2⟩

end SakhtarWg.Machine
