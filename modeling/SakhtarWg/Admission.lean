import SakhtarWg.FiniteMap
import SakhtarWg.Netip

/-!
# Admission of client connections

The counters of the connection limits, with the release functions that were handed out
for them. A release function runs its body once, however often it is called.
-/

namespace SakhtarWg.Proxy
open Netip FiniteMap

/-- A map that was not made yet is empty. -/
structure AdmissionControl where
  active : ℤ
  perSource : AList fun _ : Addr => ℤ

namespace AdmissionControl

/-- What indexing the map gives: zero for a source without an entry. -/
def count (a : AdmissionControl) (source : Addr) : ℤ := (a.perSource.lookup source).getD 0

/-- The counters after a granted admission, or a refusal. -/
def acquire (a : AdmissionControl) (source : Addr) (maximum perSourceMaximum : ℤ) :
    Option AdmissionControl :=
  if maximum ≤ 0 ∨ a.active ≥ maximum then none
  else if perSourceMaximum > 0 ∧ a.count source ≥ perSourceMaximum then none
  else some ⟨a.active + 1, a.perSource.insert source (a.count source + 1)⟩

/-- The body of a release function. -/
def release (a : AdmissionControl) (source : Addr) : AdmissionControl :=
  ⟨a.active - 1,
    if a.count source - 1 = 0 then a.perSource.erase source
    else a.perSource.insert source (a.count source - 1)⟩

end AdmissionControl

/-- A release function, and whether its `sync.Once` has run. -/
structure Permit where
  source : Addr
  released : Bool
  deriving DecidableEq

/-- The counters and every release function handed out so far, the oldest first. -/
structure Admissions where
  control : AdmissionControl
  permits : List Permit

inductive AdmissionEvent
  | acquire (source : Addr) (maximum perSourceMaximum : ℤ)
  | release (permit : ℕ)

namespace Admissions

def empty : Admissions := ⟨⟨0, ∅⟩, []⟩

/-- Each event is one critical section of the mutex. -/
def step (s : Admissions) : AdmissionEvent → Admissions
  | .acquire source maximum perSourceMaximum =>
    match s.control.acquire source maximum perSourceMaximum with
    | some control => ⟨control, s.permits ++ [⟨source, false⟩]⟩
    | none => s
  | .release i =>
    match s.permits[i]? with
    | some permit =>
      if permit.released then s
      else ⟨s.control.release permit.source, s.permits.set i { permit with released := true }⟩
    | none => s

def run (s : Admissions) (events : List AdmissionEvent) : Admissions := events.foldl step s

/-- The admissions that were granted and not released. -/
def held (s : Admissions) : ℕ := s.permits.countP fun p => !p.released

def heldBy (s : Admissions) (source : Addr) : ℕ :=
  s.permits.countP fun p => !p.released && decide (p.source = source)

/-- The counters are those of the admissions held; a source without one has no entry. -/
structure Exact (s : Admissions) : Prop where
  active : s.control.active = s.held
  perSource : ∀ a, s.control.perSource.lookup a = tally (s.heldBy a)

theorem Exact.count {s : Admissions} (h : s.Exact) (a : Addr) :
    s.control.count a = s.heldBy a := by
  rw [AdmissionControl.count, h.perSource, tally_getD]

/-! ## One event -/

/-- A new permit counts for whatever it satisfies. -/
theorem heldBy_granted (control : AdmissionControl) (s : Admissions) (source a : Addr) :
    heldBy ⟨control, s.permits ++ [⟨source, false⟩]⟩ a =
      s.heldBy a + if source = a then 1 else 0 := by
  simp only [heldBy, List.countP_append, List.countP_singleton, Bool.not_false, Bool.true_and,
    decide_eq_true_eq]

theorem Exact.granted {s : Admissions} (h : s.Exact) (source : Addr) :
    Exact ⟨⟨s.control.active + 1,
      s.control.perSource.insert source (s.control.count source + 1)⟩,
      s.permits ++ [⟨source, false⟩]⟩ where
  active := by
    rw [h.active]
    simp [held]
  perSource := by
    intro a
    rw [h.count, heldBy_granted, tally_succ h.perSource]

section
variable {s : Admissions} {i : ℕ} {permit : Permit} (hi : s.permits[i]? = some permit)
  (hheld : permit.released = false)
include hi

/-- Marking a permit as released takes it out of a count of permits held. -/
theorem countP_release (q : Permit → Bool) (hq : q { permit with released := true } = false) :
    s.permits.countP q = (s.permits.set i { permit with released := true }).countP q +
      if q permit then 1 else 0 := by
  obtain ⟨hlt, rfl⟩ := List.getElem?_eq_some_iff.mp hi
  have hpos : q s.permits[i] = true → 0 < s.permits.countP q := by
    intro h
    exact List.countP_pos_iff.mpr ⟨_, List.getElem_mem hlt, h⟩
  rw [List.countP_set hlt, hq]
  split
  · have := hpos ‹_›
    simp only [Bool.false_eq_true, if_false]
    omega
  · simp

include hheld

theorem held_released (control : AdmissionControl) :
    s.held = held ⟨control, s.permits.set i { permit with released := true }⟩ + 1 := by
  have h := countP_release hi (fun p => !p.released) rfl
  rw [hheld] at h
  exact h

theorem heldBy_released (control : AdmissionControl) (a : Addr) :
    s.heldBy a = heldBy ⟨control, s.permits.set i { permit with released := true }⟩ a +
      if permit.source = a then 1 else 0 := by
  have h := countP_release hi (fun p => !p.released && decide (p.source = a)) rfl
  simp only [hheld, Bool.not_false, Bool.true_and, decide_eq_true_eq] at h
  exact h

theorem Exact.released (h : s.Exact) :
    Exact ⟨s.control.release permit.source, s.permits.set i { permit with released := true }⟩ where
  active := by
    have hone := held_released hi hheld (s.control.release permit.source)
    show s.control.active - 1 = _
    rw [h.active, hone]
    omega
  perSource := by
    intro a
    have hone := heldBy_released hi hheld (s.control.release permit.source) permit.source
    rw [if_pos rfl] at hone
    show AList.lookup a (if s.control.count permit.source - 1 = 0 then _ else _) = _
    rw [h.count, tally_pred h.perSource (by omega),
      heldBy_released hi hheld (s.control.release permit.source) a, Nat.add_sub_cancel]

end

theorem Exact.step {s : Admissions} (h : s.Exact) (event : AdmissionEvent) :
    (s.step event).Exact := by
  cases event with
  | acquire source maximum perSourceMaximum =>
    simp only [Admissions.step]
    split
    · rename_i control hgranted
      unfold AdmissionControl.acquire at hgranted
      split at hgranted
      · cases hgranted
      · split at hgranted
        · cases hgranted
        · cases hgranted
          exact h.granted source
    · exact h
  | release i =>
    simp only [Admissions.step]
    split
    · rename_i permit hi
      split
      · exact h
      · rename_i hheld
        exact h.released hi (Bool.eq_false_iff.mpr hheld)
    · exact h

theorem empty_exact : empty.Exact where
  active := rfl
  perSource := fun _ => rfl

/-! ## Whole runs -/

theorem Exact.run {s : Admissions} (h : s.Exact) (events : List AdmissionEvent) :
    (s.run events).Exact := by
  induction events generalizing s with
  | nil => exact h
  | cons e events ih => exact ih (h.step e)

theorem acquire_isSome_iff {s : Admissions} (h : s.Exact) {source : Addr}
    {maximum perSourceMaximum : ℤ} :
    (s.control.acquire source maximum perSourceMaximum).isSome ↔
      s.control.active < maximum ∧
        (0 < perSourceMaximum → s.control.count source < perSourceMaximum) := by
  have hactive : 0 ≤ s.control.active := by
    rw [h.active]
    omega
  unfold AdmissionControl.acquire
  split
  · rename_i hfull
    simp only [Option.isSome_none, Bool.false_eq_true, false_iff, not_and]
    omega
  · split
    · rename_i hsource
      simp only [Option.isSome_none, Bool.false_eq_true, false_iff, not_and]
      omega
    · simp only [Option.isSome_some, true_iff]
      omega

theorem step_refused {s : Admissions} {source : Addr} {maximum perSourceMaximum : ℤ}
    (h : s.control.acquire source maximum perSourceMaximum = none) :
    s.step (.acquire source maximum perSourceMaximum) = s := by
  simp only [step, h]

theorem step_released {s : Admissions} {i : ℕ} {permit : Permit}
    (hi : s.permits[i]? = some permit) (h : permit.released = true) :
    s.step (.release i) = s := by
  simp only [step, hi, h, if_true]

end Admissions

end SakhtarWg.Proxy
