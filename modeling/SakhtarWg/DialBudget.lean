import Mathlib.Algebra.BigOperators.Intervals
import Mathlib.Tactic.Linarith
import SakhtarWg.DialRuns

/-!
# The dial budget

Every attempt gets a slice of what is left. The slices never add up to more than the budget, and
a budget of one minimal slice per attempt starves none of them, whatever the earlier ones used.
The same holds for the attempt loop inside the failover loop.
-/

namespace SakhtarWg.Proxy
open Netip Program

/-! ## One slice -/

theorem minAttemptTimeout_pos : 0 < minAttemptTimeout := by decide

theorem budgetSlice_nonneg (remaining : ℤ) (n : ℕ) : 0 ≤ budgetSlice remaining n := by
  have := minAttemptTimeout_pos
  unfold budgetSlice
  split
  · exact le_refl 0
  · dsimp only
    omega

theorem budgetSlice_le {remaining : ℤ} (h : 0 ≤ remaining) (n : ℕ) :
    budgetSlice remaining n ≤ remaining := by
  unfold budgetSlice
  split
  · exact h
  · exact min_le_right _ _

/-- The last attempt gets everything left. -/
theorem budgetSlice_one {remaining : ℤ} (h : 0 ≤ remaining) :
    budgetSlice remaining 1 = remaining := by
  unfold budgetSlice
  split
  · omega
  · exact min_eq_right (le_max_left _ _)

section
variable {remaining q : ℤ} {n : ℕ}

theorem budgetSlice_eq_div (hq : minAttemptTimeout ≤ q) (h : ((n + 1 : ℕ) : ℤ) * q ≤ remaining) :
    budgetSlice remaining (n + 1) = remaining / (n + 1 : ℕ) := by
  have hmin := minAttemptTimeout_pos
  have hpos : 0 < remaining := by
    have : 0 < ((n + 1 : ℕ) : ℤ) * q := mul_pos (by positivity) (by omega)
    omega
  have hq' : q ≤ remaining / (n + 1 : ℕ) := by
    apply Int.le_ediv_of_mul_le (by positivity)
    rwa [mul_comm]
  have hle : remaining / (n + 1 : ℕ) ≤ remaining := Int.ediv_le_self _ hpos.le
  have hslice : (if 1 < n + 1 then remaining.tdiv (n + 1 : ℕ) else remaining) =
      remaining / (n + 1 : ℕ) := by
    split
    · exact Int.tdiv_eq_ediv_of_nonneg hpos.le
    · have hn : n = 0 := by omega
      simp [hn]
  unfold budgetSlice
  rw [if_neg (by omega), hslice]
  dsimp only
  omega

/-- An ample budget gives every attempt at least its even share. -/
theorem le_budgetSlice (hq : minAttemptTimeout ≤ q) (h : ((n + 1 : ℕ) : ℤ) * q ≤ remaining) :
    q ≤ budgetSlice remaining (n + 1) := by
  rw [budgetSlice_eq_div hq h]
  apply Int.le_ediv_of_mul_le (by positivity)
  rwa [mul_comm]

/-- Whatever an attempt uses of its slice, the budget stays ample for those after it. -/
theorem ample_after_slice (hq : minAttemptTimeout ≤ q)
    (h : ((n + 1 : ℕ) : ℤ) * q ≤ remaining) {used : ℤ}
    (hused : used ≤ budgetSlice remaining (n + 1)) : (n : ℤ) * q ≤ remaining - used := by
  have hshare := le_budgetSlice hq h
  rw [budgetSlice_eq_div hq h] at hused hshare
  have hmul : ((n + 1 : ℕ) : ℤ) * (remaining / (n + 1 : ℕ)) ≤ remaining :=
    Int.mul_ediv_self_le (by positivity)
  have hrest : (n : ℤ) * q ≤ n * (remaining / (n + 1 : ℕ)) :=
    Int.mul_le_mul_of_nonneg_left hshare (by positivity)
  push_cast at hmul hrest hused ⊢
  linarith

end

/-! ## A sequence of attempts -/

/-- What is left of the budget before attempt `i`. -/
def remainingBefore (budget : ℤ) (used : ℕ → ℤ) (i : ℕ) : ℤ :=
  budget - ∑ j ∈ Finset.range i, used j

/-- Every one of `n` attempts uses some amount up to its slice. -/
def WithinSlices (budget : ℤ) (n : ℕ) (used : ℕ → ℤ) : Prop :=
  ∀ i < n, 0 ≤ used i ∧ used i ≤ budgetSlice (remainingBefore budget used i) (n - i)

section
variable {budget : ℤ} {n : ℕ} {used : ℕ → ℤ}

theorem remainingBefore_succ (i : ℕ) :
    remainingBefore budget used (i + 1) = remainingBefore budget used i - used i := by
  rw [remainingBefore, remainingBefore, Finset.sum_range_succ]
  omega

theorem remainingBefore_nonneg (hbudget : 0 ≤ budget) (h : WithinSlices budget n used) {i : ℕ}
    (hi : i ≤ n) : 0 ≤ remainingBefore budget used i := by
  induction i with
  | zero => simpa [remainingBefore] using hbudget
  | succ i ih =>
    have hrem := ih (by omega)
    have hslice := budgetSlice_le hrem (n - i)
    have hused := (h i (by omega)).2
    rw [remainingBefore_succ]
    omega

theorem remainingBefore_ample {q : ℤ} (hq : minAttemptTimeout ≤ q)
    (hample : (n : ℤ) * q ≤ budget) (h : WithinSlices budget n used) {i : ℕ} (hi : i ≤ n) :
    ((n - i : ℕ) : ℤ) * q ≤ remainingBefore budget used i := by
  induction i with
  | zero => simpa [remainingBefore] using hample
  | succ i ih =>
    have hleft : n - i = n - (i + 1) + 1 := by omega
    have hrem := ih (by omega)
    have hused := (h i (by omega)).2
    rw [hleft] at hrem hused
    rw [remainingBefore_succ]
    exact ample_after_slice hq hrem hused

theorem le_ediv_of_ample (hn : 1 ≤ n) (hample : (n : ℤ) * minAttemptTimeout ≤ budget) :
    minAttemptTimeout ≤ budget / n ∧ (n : ℤ) * (budget / n) ≤ budget := by
  have hpos : (0 : ℤ) < n := by exact_mod_cast hn
  refine ⟨Int.le_ediv_of_mul_le hpos ?_, Int.mul_ediv_self_le hpos.ne'⟩
  rwa [mul_comm]

end

/-! ## A run against the clock -/

/-- Commands that take no time and do not read the clock. -/
def Env.instant : Env → Bool
  | .now | .ctxErr _ | .dial _ _ _ => false
  | _ => true

/-- The trace from `clock` to `stop` when only dials take time: the clock is read as it is, a
context reports no error before its deadline, and no dial outlasts its own. `slices` is the time
each dial was given. -/
inductive Timed : ℤ → Trace → List ℤ → ℤ → Prop
  | nil (clock : ℤ) : Timed clock [] [] clock
  | now {clock : ℤ} {t : Trace} {slices : List ℤ} {stop : ℤ} (h : Timed clock t slices stop) :
      Timed clock (⟨.now, clock⟩ :: t) slices stop
  | ctxErr {clock : ℤ} {t : Trace} {slices : List ℤ} {stop : ℤ} {deadline : Option ℤ}
      {r : Option Err} (hr : ∀ d, deadline = some d → clock < d → r = none)
      (h : Timed clock t slices stop) : Timed clock (⟨.ctxErr deadline, r⟩ :: t) slices stop
  | dial {clock : ℤ} {t : Trace} {slices : List ℤ} {stop : ℤ} {mark : ℤ} {address : String}
      {d : ℤ} {r : Except Err Unit} {used : ℤ} (hnonneg : 0 ≤ used)
      (hused : used ≤ max 0 (d - clock)) (h : Timed (clock + used) t slices stop) :
      Timed clock (⟨.dial mark address (some d), r⟩ :: t) ((d - clock) :: slices) stop
  | other {clock : ℤ} {t : Trace} {slices : List ℤ} {stop : ℤ} {e : Sigma Env.Response}
      (he : e.1.instant = true) (h : Timed clock t slices stop) : Timed clock (e :: t) slices stop

theorem Timed.split {clock stop : ℤ} {t u : Trace} {slices : List ℤ}
    (h : Timed clock (t ++ u) slices stop) :
    ∃ before after mid, slices = before ++ after ∧ Timed clock t before mid ∧
      Timed mid u after stop := by
  induction t generalizing clock slices with
  | nil => exact ⟨[], slices, clock, rfl, .nil clock, h⟩
  | cons e t ih =>
    cases h with
    | now h =>
      obtain ⟨before, after, mid, rfl, h1, h2⟩ := ih h
      exact ⟨before, after, mid, rfl, .now h1, h2⟩
    | ctxErr hr h =>
      obtain ⟨before, after, mid, rfl, h1, h2⟩ := ih h
      exact ⟨before, after, mid, rfl, .ctxErr hr h1, h2⟩
    | dial hnonneg hused h =>
      obtain ⟨before, after, mid, rfl, h1, h2⟩ := ih h
      exact ⟨_ :: before, after, mid, rfl, .dial hnonneg hused h1, h2⟩
    | other he h =>
      obtain ⟨before, after, mid, rfl, h1, h2⟩ := ih h
      exact ⟨before, after, mid, rfl, .other he h1, h2⟩

/-- Commands that take no time leave the clock where it is. -/
theorem Timed.instant {clock stop : ℤ} {t : Trace} {slices : List ℤ}
    (h : Timed clock t slices stop) (hall : ∀ e ∈ t, e.1.instant = true) :
    stop = clock ∧ slices = [] := by
  induction h with
  | nil => exact ⟨rfl, rfl⟩
  | now h ih => exact absurd (hall _ List.mem_cons_self) (by simp [Env.instant])
  | ctxErr hr h ih => exact absurd (hall _ List.mem_cons_self) (by simp [Env.instant])
  | dial hnonneg hused h ih => exact absurd (hall _ List.mem_cons_self) (by simp [Env.instant])
  | other he h ih => exact ih fun e he' => hall e (List.mem_cons_of_mem _ he')

/-- A slice computed at `clock` is what `budgetSlice` says, and ends within the deadline. -/
theorem attemptDeadline_timed {clock stop d : ℤ} {n : ℕ} {w : Trace} {slices : List ℤ}
    {attempt : Option ℤ} (h : (attemptDeadline (some d) n).Runs w attempt)
    (ht : Timed clock w slices stop) (hd : clock ≤ d) :
    stop = clock ∧ slices = [] ∧ attempt = some (clock + budgetSlice (d - clock) n) := by
  obtain ⟨now, u, rfl, hu⟩ := Prog.runs_perform_bind.mp h
  obtain ⟨now', v, rfl, hv⟩ := Prog.runs_perform_bind.mp hu
  obtain ⟨rfl, rfl⟩ := Prog.runs_pure.mp hv
  cases ht with
  | other he ht => simp [Env.instant] at he
  | now ht =>
    cases ht with
    | other he ht => simp [Env.instant] at he
    | now ht =>
      cases ht
      have hslice := budgetSlice_le (sub_nonneg.mpr hd) n
      refine ⟨rfl, rfl, ?_⟩
      rw [min_eq_right (by omega)]

theorem Timed.skip {clock stop : ℤ} {t u : Trace} {slices : List ℤ}
    (h : Timed clock (t ++ u) slices stop) (hall : ∀ e ∈ t, e.1.instant = true) :
    Timed clock u slices stop := by
  obtain ⟨before, after, mid, rfl, h1, h2⟩ := h.split
  obtain ⟨rfl, rfl⟩ := h1.instant hall
  exact h2

theorem recorded_instant (metrics success : Bool) (egress : String) :
    ∀ e ∈ recorded metrics success egress, e.1.instant = true := by
  cases metrics <;> simp [recorded, Env.instant]

/-- One round of the attempt loop uses some amount up to the slice it gives to its dial. -/
theorem attempt_timed {clock stop d : ℤ} {n : ℕ} {w z : Trace} {slices : List ℤ}
    {attempt : Option ℤ} {mark : ℤ} {address : String} {r : Except Err Unit}
    (hw : (attemptDeadline (some d) n).Runs w attempt)
    (ht : Timed clock (⟨.ctxErr (some d), none⟩ :: (w ++ ⟨.dial mark address attempt, r⟩ :: z))
      slices stop) (hd : clock ≤ d) :
    ∃ used rest, 0 ≤ used ∧ used ≤ budgetSlice (d - clock) n ∧
      slices = budgetSlice (d - clock) n :: rest ∧ Timed (clock + used) z rest stop := by
  cases ht with
  | other he ht => simp [Env.instant] at he
  | ctxErr hr ht =>
    obtain ⟨before, after, mid, rfl, h1, h2⟩ := ht.split
    obtain ⟨rfl, rfl, rfl⟩ := attemptDeadline_timed hw h1 hd
    have hnonneg := budgetSlice_nonneg (d - mid) n
    cases h2 with
    | other he ht => simp [Env.instant] at he
    | dial h0 hused h2 =>
      refine ⟨_, _, h0, by omega, ?_, h2⟩
      rw [List.nil_append, add_sub_cancel_left]

/-- The attempt loop ends within its deadline; with an ample budget it dials every candidate
until one connects, each with a slice of at least `q`. -/
theorem dialEach_timed {d : ℤ} {port egress : String} {metrics : Bool} {mark : ℤ}
    {candidates : List Addr} {errs : List Err} {t : Trace} {r : Except Err Unit}
    {clock stop : ℤ} {slices : List ℤ}
    (h : (dialEach (some d) port metrics egress mark candidates errs).Runs t r)
    (ht : Timed clock t slices stop) (hd : clock ≤ d) :
    stop ≤ d ∧ ∀ q, minAttemptTimeout ≤ q → (candidates.length : ℤ) * q ≤ d - clock →
      (∀ s ∈ slices, q ≤ s) ∧ ∃ k, dialsOf t = dialsThrough mark port (candidates.take k) ∧
        (r ≠ .ok () → candidates.length ≤ k) := by
  induction candidates generalizing errs t clock slices with
  | nil =>
    obtain ⟨rfl, -⟩ := Prog.runs_pure.mp h
    cases ht
    exact ⟨hd, fun q _ _ => ⟨by simp, 0, rfl, fun _ => le_refl _⟩⟩
  | cons candidate rest ih =>
    rcases dialEach_cons_runs.mp h with ⟨e, rfl, -⟩ | ⟨w, attempt, u, hw, rfl, hu⟩
    · -- the context is over: not so while the budget is ample
      cases ht with
      | other he ht => simp [Env.instant] at he
      | ctxErr hr ht =>
        cases ht
        refine ⟨hd, fun q hq hample => ?_⟩
        have hmin := minAttemptTimeout_pos
        have hpos : 0 < ((candidate :: rest).length : ℤ) * q :=
          mul_pos (by simp only [List.length_cons]; positivity) (by omega)
        cases hr d rfl (by omega)
    · have hquiet := attemptDeadline_quiet _ _ w _ hw
      have hslice := budgetSlice_le (sub_nonneg.mpr hd) (rest.length + 1)
      rcases hu with ⟨rfl, rfl⟩ | ⟨e, z, rfl, hz⟩
      · obtain ⟨used, after, h0, hused, rfl, hafter⟩ := attempt_timed hw ht hd
        obtain ⟨rfl, rfl⟩ := hafter.instant (recorded_instant _ _ _)
        refine ⟨by omega, fun q hq hample => ⟨?_, 1, ?_, fun hne => absurd rfl hne⟩⟩
        · simpa using le_budgetSlice hq hample
        · show dialsOf (w ++ _ :: recorded _ _ _) = _
          rw [dialsOf_append, hquiet]
          show _ :: dialsOf (recorded _ _ _) = _
          rw [recorded_quiet]
          rfl
      · obtain ⟨used, after, h0, hused, rfl, hafter⟩ := attempt_timed hw ht hd
        obtain ⟨hstop, hall⟩ := ih hz (hafter.skip (recorded_instant _ _ _)) (by omega)
        refine ⟨hstop, fun q hq hample => ?_⟩
        have hleft := ample_after_slice hq hample hused
        obtain ⟨hslices, k, hk, hlen⟩ := hall q hq (by omega)
        refine ⟨?_, k + 1, ?_, fun hne => by have := hlen hne; simpa using this⟩
        · simpa using ⟨le_budgetSlice hq hample, hslices⟩
        · show dialsOf (w ++ _ :: (recorded _ _ _ ++ z)) = _
          rw [dialsOf_append, hquiet]
          show _ :: dialsOf (recorded _ _ _ ++ z) = _
          rw [dialsOf_append, recorded_quiet, hk]
          rfl

/-! ## One egress -/

theorem perform_instant {e : Env} (h : e.instant = true) :
    Prog.Safe (fun e => e.instant = true) (Prog.perform e : Dialing e.Response) fun _ => True :=
  Prog.Safe.perform h

theorem select_instant (rt : Router) (input : List Addr) (mark : ℤ) (self : List Addr) :
    Prog.Safe (fun e => e.instant = true) (rt.select input mark self) fun _ => True := by
  unfold Router.select
  split
  · exact Prog.Safe.pure trivial
  · exact Prog.Safe.bind (perform_instant (rfl : Env.sequence.instant = true))
      fun _ _ => Prog.Safe.pure trivial

/-- Finding candidates takes no time and reads no clock. -/
theorem backendCandidates_instant (rt : Router) (deadline : Option ℤ) (host : String)
    (isIP : Bool) (mark : ℤ) (self : List Addr) :
    Prog.Safe (fun e => e.instant = true) (backendCandidates rt deadline host isIP mark self)
      fun _ => True := by
  unfold backendCandidates
  split
  · split
    · exact Prog.Safe.pure trivial
    · split
      · exact (select_instant _ _ _ _).bind fun _ _ => Prog.Safe.pure trivial
      · exact Prog.Safe.pure trivial
  · split
    · refine Prog.Safe.bind (perform_instant
        (rfl : (Env.resolve mark host deadline).instant = true)) fun answer _ => ?_
      cases answer with
      | error e => exact Prog.Safe.pure trivial
      | ok result =>
        dsimp only
        split
        · exact Prog.Safe.pure trivial
        · split
          · exact Prog.Safe.pure trivial
          · refine (select_instant _ _ _ _).bind fun allowed _ => ?_
            split
            · exact Prog.Safe.bind (perform_instant
                (rfl : (Env.invalidate mark host).instant = true)) fun _ _ => Prog.Safe.pure trivial
            · exact Prog.Safe.pure trivial
    · exact Prog.Safe.pure trivial

theorem droppedAfter_instant (isIP : Bool) (mark : ℤ) (host : String) (r : Except Err Unit) :
    ∀ e ∈ droppedAfter isIP mark host r, e.1.instant = true := by
  cases r <;> cases isIP <;> simp [droppedAfter, Env.instant]

/-- The candidates an egress may dial. -/
def Visit.attempts (rt : Router) (v : Visit) : List Addr :=
  match v.found with
  | .ok candidates => candidates.take rt.connectAttemptCap.toNat
  | .error _ => []

/-- Until one connects, every candidate of the egress was dialed, in order. -/
def Visit.Exhaustive (rt : Router) (port : String) (v : Visit) : Prop :=
  ∃ k, dialsOf v.trace = dialsThrough v.mark port ((v.attempts rt).take k) ∧
    (v.result ≠ .ok () → (v.attempts rt).length ≤ k)

section
variable {rt : Router} {host : String} {isIP : Bool} {port : String} {self : List Addr}

theorem Visit.timed {v : Visit} (hv : v.Of rt host isIP port self) {d clock stop : ℤ}
    {slices : List ℤ} (hdeadline : v.deadline = some d) (ht : Timed clock v.trace slices stop)
    (hd : clock ≤ d) :
    stop ≤ d ∧ ∀ q, minAttemptTimeout ≤ q → ((v.attempts rt).length : ℤ) * q ≤ d - clock →
      (∀ s ∈ slices, q ≤ s) ∧ v.Exhaustive rt port := by
  have hquiet : dialsOf v.lookup = [] := (backendCandidates_runs hv.lookup).1
  have hafter := ht.skip ((backendCandidates_instant _ _ _ _ _ _ _ _ hv.lookup).1)
  have hdials : dialsOf v.trace = dialsOf v.dialing := by
    rw [Visit.trace, dialsOf_append, hquiet, List.nil_append]
  cases hfound : v.found with
  | error e =>
    obtain ⟨hnil, -⟩ := hv.none_found e hfound
    rw [hnil] at hafter hdials
    cases hafter
    have hnone : v.attempts rt = [] := by rw [Visit.attempts, hfound]
    refine ⟨hd, fun q _ _ => ⟨by simp, 0, ?_, fun _ => by simp [hnone]⟩⟩
    rw [hdials, hnone]
    rfl
  | ok candidates =>
    have hsome : v.attempts rt = candidates.take rt.connectAttemptCap.toNat := by
      rw [Visit.attempts, hfound]
    obtain ⟨u, hu, hdialing⟩ := dialFound_runs.mp (hv.dialing candidates hfound)
    rw [hdialing] at hafter hdials
    rw [dialsOf_append, droppedAfter_quiet, List.append_nil] at hdials
    obtain ⟨before, after, mid, rfl, h1, h2⟩ := hafter.split
    obtain ⟨rfl, rfl⟩ := h2.instant (droppedAfter_instant _ _ _ _)
    rw [List.append_nil, Visit.Exhaustive, hdials, hsome]
    unfold dialCandidates at hu
    split at hu
    · rename_i hcap
      obtain ⟨rfl, -⟩ := Prog.runs_pure.mp hu
      cases h1
      refine ⟨hd, fun q _ _ => ⟨by simp, 0, rfl, fun _ => ?_⟩⟩
      rw [Int.toNat_of_nonpos hcap]
      simp
    · rw [hdeadline] at hu
      exact dialEach_timed hu h1 hd

/-! ## All egresses -/

/-- The failover loop ends within its deadline; with an ample budget it visits every egress until
one connects, and every egress dials with slices of at least `q`. -/
theorem Failover.timed {D : ℤ} {marks : List ℤ} {visits : List Visit} {ended : Option Err}
    {t : Trace} (h : Failover rt (some D) host isIP port self marks visits ended t)
    {clock stop : ℤ} {slices : List ℤ} (ht : Timed clock t slices stop) (hD : clock ≤ D) :
    stop ≤ D ∧ ∀ Q q : ℤ, minAttemptTimeout ≤ Q → minAttemptTimeout ≤ q →
      (∀ v ∈ visits, ((v.attempts rt).length : ℤ) * q ≤ Q) →
      (marks.length : ℤ) * Q ≤ D - clock →
      (∀ s ∈ slices, q ≤ s) ∧ (∀ v ∈ visits, v.Exhaustive rt port) ∧ ended = none := by
  induction h generalizing clock slices with
  | exhausted =>
    cases ht
    exact ⟨hD, fun Q q _ _ _ _ => ⟨by simp, by simp, rfl⟩⟩
  | stopped mark rest e =>
    cases ht with
    | other he ht => simp [Env.instant] at he
    | ctxErr hr ht =>
      cases ht
      refine ⟨hD, fun Q q hQ hq hvisits hample => ?_⟩
      have hmin := minAttemptTimeout_pos
      have hpos : 0 < ((mark :: rest).length : ℤ) * Q :=
        mul_pos (by simp only [List.length_cons]; positivity) (by omega)
      cases hr D rfl (by omega)
  | @connected v rest w hv hw hr =>
    cases ht with
    | other he ht => simp [Env.instant] at he
    | ctxErr _ ht =>
      obtain ⟨before, after, mid, rfl, h1, h2⟩ := ht.split
      obtain ⟨rfl, rfl, hdeadline⟩ := attemptDeadline_timed hw h1 hD
      have hnonneg := budgetSlice_nonneg (D - mid) (rest.length + 1)
      have hle := budgetSlice_le (sub_nonneg.mpr hD) (rest.length + 1)
      obtain ⟨hstop, hall⟩ := Visit.timed hv hdeadline h2 (by omega)
      refine ⟨by omega, fun Q q hQ hq hvisits hample => ?_⟩
      have hshare := le_budgetSlice hQ hample
      have hv' := hvisits v (by simp)
      obtain ⟨hslices, hex⟩ := hall q hq (by omega)
      exact ⟨by simpa using hslices, by simpa using hex, rfl⟩
  | @failed v rest w visits ended t e hv hw hr hrest ih =>
    cases ht with
    | other he ht => simp [Env.instant] at he
    | ctxErr _ ht =>
      obtain ⟨before, after, mid, rfl, h1, h2⟩ := ht.split
      obtain ⟨rfl, rfl, hdeadline⟩ := attemptDeadline_timed hw h1 hD
      obtain ⟨inner, outer, mid', rfl, h3, h4⟩ := h2.split
      have hnonneg := budgetSlice_nonneg (D - mid) (rest.length + 1)
      have hle := budgetSlice_le (sub_nonneg.mpr hD) (rest.length + 1)
      obtain ⟨hstop, hall⟩ := Visit.timed hv hdeadline h3 (by omega)
      obtain ⟨hend, hrest'⟩ := ih h4 (by omega)
      refine ⟨hend, fun Q q hQ hq hvisits hample => ?_⟩
      have hshare := le_budgetSlice hQ hample
      have hused : mid' - mid ≤ budgetSlice (D - mid) (rest.length + 1) := by omega
      have hleft := ample_after_slice hQ hample hused
      have hv' := hvisits v (by simp)
      obtain ⟨hslices, hex⟩ := hall q hq (by omega)
      obtain ⟨hslices', hex', hnone⟩ := hrest' Q q hQ hq
        (fun u hu => hvisits u (List.mem_cons_of_mem _ hu)) (by omega)
      refine ⟨?_, ?_, hnone⟩
      · simp only [List.nil_append, List.mem_append]
        rintro s (hs | hs)
        · exact hslices s hs
        · exact hslices' s hs
      · simp only [List.mem_cons]
        rintro u (rfl | hu)
        · exact hex
        · exact hex' u hu

end

/-- The slices of a timed run are those of its dials. -/
theorem Timed.length_slices {clock stop : ℤ} {t : Trace} {slices : List ℤ}
    (h : Timed clock t slices stop) : slices.length = (dialsOf t).length := by
  induction h with
  | nil => rfl
  | now h ih => exact ih
  | ctxErr hr h ih => exact ih
  | dial h0 hused h ih => exact congrArg (· + 1) ih
  | @other clock t slices stop e he h ih =>
    obtain ⟨c, r⟩ := e
    cases c with
    | dial => cases he
    | _ => exact ih

/-- Every dial uses up its slice; the state is the clock. -/
def blackhole : (e : Env) → ℤ → e.Response × ℤ
  | .ctxErr (some d), clock =>
    (if clock < d then none else some (.text "context deadline exceeded"), clock)
  | .ctxErr none, clock => (none, clock)
  | .now, clock => (clock, clock)
  | .resolve _ _ _, clock => (.ok { rcode := .success, addrs := [.v4 0x01010101, .v4 0x02020202] },
      clock)
  | .dial _ _ (some d), clock => (.error (.text "i/o timeout"), max clock d)
  | .dial _ _ none, clock => (.error (.text "i/o timeout"), clock)
  | .invalidate _ _, clock => ((), clock)
  | .sequence, clock => (0, clock)
  | .record _ _, clock => ((), clock)
  | .exchanges _ _, clock => (1, clock)
  | .answer _ _, clock => (.error ⟨true, false⟩, clock)

/-- Every dial has a deadline. -/
def Env.bounded : Env → Bool
  | .dial _ _ deadline => deadline.isSome
  | _ => true

theorem blackhole_timed {α : Type} (p : Dialing α) (clock : ℤ)
    (h : ∀ e ∈ (Prog.trace blackhole p clock).1, e.1.bounded = true) :
    ∃ slices stop, Timed clock (Prog.trace blackhole p clock).1 slices stop := by
  induction p generalizing clock with
  | pure a => exact ⟨[], clock, .nil clock⟩
  | call c k ih =>
    obtain ⟨slices, stop, htimed⟩ := ih (blackhole c clock).1 (blackhole c clock).2
      fun e he => h e (List.mem_cons_of_mem _ he)
    cases c with
    | now => exact ⟨slices, stop, .now htimed⟩
    | ctxErr deadline =>
      cases deadline with
      | none => exact ⟨slices, stop, .ctxErr (by simp) htimed⟩
      | some d =>
        refine ⟨slices, stop, .ctxErr ?_ htimed⟩
        rintro d' ⟨⟩ hlt
        exact if_pos hlt
    | dial mark address deadline =>
      cases deadline with
      | none => exact absurd (h _ List.mem_cons_self) (by simp [Env.bounded])
      | some d =>
        have hclock : max clock d = clock + max 0 (d - clock) := by omega
        refine ⟨(d - clock) :: slices, stop, .dial (le_max_left 0 (d - clock)) le_rfl ?_⟩
        rw [← hclock]
        exact htimed
    | _ => exact ⟨slices, stop, .other rfl htimed⟩

end SakhtarWg.Proxy
