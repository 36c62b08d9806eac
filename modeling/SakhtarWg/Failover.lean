import Mathlib.Data.List.Induction
import SakhtarWg.GroupIndependence

/-!
# Failover

The preference among the members of a group, with the choice published as the first mark
of the order; and the probe verdict behind it, which two counters keep and which is the
same as looking back over the last results of the tunnel.
-/

namespace SakhtarWg.Health
open Fallible

/-! ## The order of a group -/

/-- The documented preference: the usable members; or else the first recent member and everybody
behind it; or else the primary and everybody behind it. -/
structure Preferred (recent usable : Member → Bool) (members : List Member) (sel : Selection) :
    Prop where
  ready : (∃ m ∈ members, usable m = true) →
    sel.state = "ready" ∧ sel.order = memberMarks (members.filter usable) ∧
      sel.order.head? = some sel.chosen
  degraded : (∀ m ∈ members, usable m = false) → (∃ m ∈ members, recent m = true) →
    sel.state = "degraded" ∧ ∃ front m back, members = front ++ m :: back ∧
      (∀ x ∈ front, recent x = false) ∧ recent m = true ∧ sel.chosen = m.mark ∧
      sel.order = m.mark :: memberMarks (front ++ back)
  primary : (∀ m ∈ members, recent m = false) →
    sel.state = "degraded" ∧ sel.order = memberMarks members ∧ sel.order.head? = some sel.chosen

section
variable {signal : String → SessionSignal} {judge : String → ProbeVerdict} {members : List Member}

theorem not_usable_of_not_recent {m : Member} (h : m.recent signal = false) :
    m.usable signal judge = false := by
  simp [Member.usable, h]

theorem selectMember_preferred (h : members ≠ []) :
    Preferred (·.recent signal) (·.usable signal judge) members
      (selectMember signal judge members) := by
  rcases @selectMember_cases signal judge members h with
    ⟨m, rest, hfilter, hchosen, hstate, horder⟩ |
    ⟨hnone, front, m, back, hsplit, hfront, hm, hchosen, hstate, horder⟩ |
    ⟨hnone, m, rest, hsplit, hchosen, hstate, horder⟩
  · have hm : m ∈ members.filter (·.usable signal judge) := by simp [hfilter]
    obtain ⟨hmem, husable⟩ := List.mem_filter.mp hm
    constructor
    · intro _
      exact ⟨hstate, by rw [horder, hfilter], by rw [horder, hchosen]; rfl⟩
    · intro hall _
      exact absurd husable (by simp [hall m hmem])
    · intro hall
      exact absurd husable (by simp [not_usable_of_not_recent (hall m hmem)])
  · constructor
    · rintro ⟨x, hx, husable⟩
      have hx' : x ∈ members.filter (·.usable signal judge) := List.mem_filter.mpr ⟨hx, husable⟩
      rw [hnone] at hx'
      cases hx'
    · intro _ _
      exact ⟨hstate, front, m, back, hsplit, hfront, hm, hchosen, horder⟩
    · intro hall
      exact absurd hm (by simp [hall m (by simp [hsplit])])
  · constructor
    · rintro ⟨x, hx, husable⟩
      exact absurd husable (by simp [not_usable_of_not_recent (hnone x hx)])
    · rintro - ⟨x, hx, hrecent⟩
      exact absurd hrecent (by simp [hnone x hx])
    · intro _
      exact ⟨hstate, horder, by rw [horder, hchosen, hsplit]; rfl⟩

/-- The choice heads its order, which repeats no mark if the members do not. -/
theorem selectMember_order (h : members ≠ []) (hnodup : (memberMarks members).Nodup) :
    (selectMember signal judge members).order.head? =
        some (selectMember signal judge members).chosen ∧
      (selectMember signal judge members).order.Nodup := by
  rcases @selectMember_cases signal judge members h with
    ⟨m, rest, hfilter, hchosen, -, horder⟩ | ⟨-, front, m, back, hsplit, -, -, hchosen, -, horder⟩ |
    ⟨-, m, rest, hsplit, hchosen, -, horder⟩
  · refine ⟨by rw [horder, hchosen]; rfl, ?_⟩
    rw [horder, ← hfilter]
    exact hnodup.sublist (List.filter_sublist.map _)
  · refine ⟨by rw [horder, hchosen]; rfl, ?_⟩
    rw [hsplit, memberMarks, List.map_append, List.map_cons] at hnodup
    rw [horder, memberMarks, List.map_append]
    exact List.nodup_middle.mp hnodup
  · exact ⟨by rw [horder, hchosen, hsplit]; rfl, by rw [horder]; exact hnodup⟩

end

/-- Every selection follows the preference, and after every poll each group's active mark is the
first of its order, which is not empty and repeats no mark. -/
theorem failover_preference :
    (∀ (signal : String → SessionSignal) (tracker : Option ProbeTracker) (now : ℤ)
      (members : List Member), members ≠ [] →
      Preferred (fun m => signal m.tunnel = .recent)
        (fun m => signal m.tunnel = .recent && (verdict tracker m.tunnel now).eligible) members
        (selectMember signal (fun tunnel => verdict tracker tunnel now) members)) ∧
    ∀ (cfg : Settings) (m : Monitor), newMonitor cfg = .ok m →
      (∀ g ∈ cfg.groups, (memberMarks g.members).Nodup) →
      ∀ (events : List Event) (devices : Devices) (now : ℤ),
        ∀ s ∈ ((m.run events).poll devices now).groups,
          s.order.head? = some s.active ∧ s.order ≠ [] ∧ s.order.Nodup := by
  constructor
  · intro signal tracker now members h
    exact @selectMember_preferred signal (fun tunnel => verdict tracker tunnel now) members h
  · intro cfg m hm hmarks events devices now s hs
    obtain ⟨hvalid, rfl⟩ := newMonitor_eq_ok.mp hm
    obtain ⟨old, hold, rfl⟩ := List.mem_map.mp hs
    have hg : old.group ∈ cfg.groups := by
      rw [← (run_ordered hvalid events).1]
      exact List.mem_map_of_mem hold
    have hne := (hvalid.group _ hg).2.1
    obtain ⟨hhead, hnodup⟩ := selectMember_order hne (hmarks _ hg)
    exact ⟨hhead, (selectMember_covers _ _ hne).1, hnodup⟩

/-- Two tunnels, of which only the second has a recent handshake. -/
theorem failover_preference_second :
    let members : List Member := [⟨"wg0", 51⟩, ⟨"wg1", 52⟩]
    let signal := fun tunnel : String =>
      if tunnel = "wg1" then SessionSignal.recent else .idleUnknown
    let sel := selectMember signal (fun tunnel => verdict none tunnel 0) members
    sel.state = "ready" ∧ sel.order = [52] ∧ sel.order.head? = some sel.chosen ∧
    ∃ m, newMonitor ⟨1, [⟨"group", members, 1⟩], none⟩ = .ok m ∧
      ∀ devices now, ∀ s ∈ (m.poll devices now).groups, s.order.head? = some s.active := by
  intro members signal sel
  let cfg : Settings := ⟨1, [⟨"group", members, 1⟩], none⟩
  have hnew : newMonitor cfg = .ok cfg.monitor := rfl
  have hmarks : ∀ g ∈ cfg.groups, (memberMarks g.members).Nodup := by decide
  obtain ⟨hselect, hpoll⟩ := failover_preference
  obtain ⟨hstate, horder, hhead⟩ := (hselect signal none 0 members (by decide)).ready (by decide)
  refine ⟨hstate, horder.trans (by decide), hhead, _, hnew, fun devices now s hs => ?_⟩
  exact (hpoll cfg _ hnew hmarks [] devices now s hs).1

/-! ## Probe windows -/

/-- One result of the probe of a tunnel. -/
structure ProbeResult where
  tunnel : String
  success : Bool
  time : ℤ

def ProbeTracker.recordAll (t : ProbeTracker) (results : List ProbeResult) : ProbeTracker :=
  results.foldl (fun t r => t.record r.tunnel r.success r.time) t

/-- The results of one tunnel, the latest first. -/
def resultsOf (tunnel : String) (results : List ProbeResult) : List Bool :=
  ((results.filter (·.tunnel = tunnel)).map (·.success)).reverse

/-- The last `k` results exist and all have the value. -/
def lastAll (k : ℤ) (value : Bool) (latest : List Bool) : Bool :=
  k ≤ latest.length && (latest.take k.toNat).all (· = value)

/-- The verdict by looking back: enough successes, or enough failures, or what it was before the
latest result; the first result is believed. -/
def windowPassing (policy : ProbePolicy) : List Bool → Bool
  | [] => false
  | latest :: earlier =>
    if lastAll policy.recoverAfter true (latest :: earlier) then true
    else if lastAll policy.failAfter false (latest :: earlier) then false
    else if earlier = [] then latest
    else windowPassing policy earlier

/-- How often the value was seen without interruption until now. -/
def streak (value : Bool) (latest : List Bool) : ℕ := (latest.takeWhile (· = value)).length

theorem le_streak_iff {n : ℕ} {value : Bool} {latest : List Bool} :
    n ≤ streak value latest ↔ n ≤ latest.length ∧ (latest.take n).all (· = value) = true := by
  induction latest generalizing n with
  | nil => simp [streak]
  | cons r latest ih =>
    cases n with
    | zero => simp
    | succ n =>
      have hih := @ih n
      unfold streak at hih ⊢
      by_cases hr : r = value
      · subst hr
        simp [hih]
      · simp [hr]

theorem lastAll_iff {k : ℤ} (hk : 1 ≤ k) {value : Bool} {latest : List Bool} :
    lastAll k value latest = true ↔ k ≤ streak value latest := by
  obtain ⟨n, rfl⟩ := Int.eq_ofNat_of_zero_le (show 0 ≤ k by omega)
  rw [lastAll, Bool.and_eq_true, decide_eq_true_eq, Int.toNat_natCast, Int.ofNat_le, Int.ofNat_le,
    le_streak_iff]

@[simp] theorem streak_cons (value r : Bool) (latest : List Bool) :
    streak value (r :: latest) = if r = value then streak value latest + 1 else 0 := by
  by_cases hr : r = value
  · simp [streak, hr]
  · simp [streak, hr]

theorem ProbePolicy.validate_eq_ok {policy : ProbePolicy} (h : policy.validate = .ok ()) :
    1 ≤ policy.failAfter ∧ 1 ≤ policy.recoverAfter := by
  simp only [ProbePolicy.validate, require_eq_ok, Bool.not_eq_true', Bool.or_eq_false_iff,
    decide_eq_false_iff_not] at h
  omega

/-- The counters hold the two streaks, and the flag is the verdict by looking back. -/
structure Counted (policy : ProbePolicy) (latest : List Bool) (s : ProbeState) : Prop where
  successes : s.successes = streak true latest
  failures : s.failures = streak false latest
  passing : s.passing = windowPassing policy latest

section
variable {policy : ProbePolicy} (h : policy.validate = .ok ())
include h

theorem windowPassing_cons (r : Bool) (latest : List Bool) :
    windowPassing policy (r :: latest) =
      if policy.recoverAfter ≤ streak true (r :: latest) then true
      else if policy.failAfter ≤ streak false (r :: latest) then false
      else if latest = [] then r
      else windowPassing policy latest := by
  obtain ⟨hfail, hrecover⟩ := ProbePolicy.validate_eq_ok h
  simp only [windowPassing, lastAll_iff hfail, lastAll_iff hrecover]

theorem counted_first (success : Bool) (time : ℤ) :
    Counted policy [success] ⟨time, success, boolCount (!success), boolCount success⟩ := by
  obtain ⟨hfail, hrecover⟩ := ProbePolicy.validate_eq_ok h
  have hfail' : ¬policy.failAfter ≤ 0 := by omega
  have hrecover' : ¬policy.recoverAfter ≤ 0 := by omega
  cases success with
  | true => exact ⟨rfl, rfl, by simp [windowPassing_cons h, hfail']⟩
  | false => exact ⟨rfl, rfl, by simp [windowPassing_cons h, hrecover']⟩

theorem Counted.record {latest : List Bool} {s : ProbeState} (hs : Counted policy latest s)
    (hne : latest ≠ []) (success : Bool) (time : ℤ) :
    Counted policy (success :: latest) (s.record policy success time) := by
  obtain ⟨hfail, hrecover⟩ := ProbePolicy.validate_eq_ok h
  have hfail' : ¬policy.failAfter ≤ 0 := by omega
  have hrecover' : ¬policy.recoverAfter ≤ 0 := by omega
  cases success with
  | true =>
    refine ⟨by simp [ProbeState.record, hs.successes], by simp [ProbeState.record], ?_⟩
    simp [windowPassing_cons h, ProbeState.record, hs.successes, hs.passing, hne, hfail']
  | false =>
    refine ⟨by simp [ProbeState.record], by simp [ProbeState.record, hs.failures], ?_⟩
    simp [windowPassing_cons h, ProbeState.record, hs.failures, hs.passing, hne, hrecover']

/-- After any results the tracker has counted those of every tunnel on their own. -/
theorem recordAll_counted (results : List ProbeResult) (tunnel : String) :
    let t := ProbeTracker.recordAll ⟨policy, ∅⟩ results
    t.policy = policy ∧ ((t.byTunnel.lookup tunnel = none ∧ resultsOf tunnel results = []) ∨
      ∃ s, t.byTunnel.lookup tunnel = some s ∧ resultsOf tunnel results ≠ [] ∧
        Counted policy (resultsOf tunnel results) s) := by
  induction results using List.reverseRecOn with
  | nil => exact ⟨rfl, .inl ⟨rfl, rfl⟩⟩
  | append_singleton results r ih =>
    have hrun : ProbeTracker.recordAll ⟨policy, ∅⟩ (results ++ [r]) =
        (ProbeTracker.recordAll ⟨policy, ∅⟩ results).record r.tunnel r.success r.time := by
      simp [ProbeTracker.recordAll]
    obtain ⟨hpolicy, ih⟩ := ih
    dsimp only
    rw [hrun]
    refine ⟨hpolicy, ?_⟩
    by_cases hr : r.tunnel = tunnel
    · subst hr
      have hresults : resultsOf r.tunnel (results ++ [r]) =
          r.success :: resultsOf r.tunnel results := by
        simp [resultsOf]
      right
      rw [hresults]
      rcases ih with ⟨hnone, hempty⟩ | ⟨s, hsome, hne, hcounted⟩
      · rw [hempty]
        exact ⟨_, by rw [ProbeTracker.record, hnone]; exact AList.lookup_insert _, by simp,
          counted_first h r.success r.time⟩
      · refine ⟨_, by rw [ProbeTracker.record, hsome]; exact AList.lookup_insert _, by simp, ?_⟩
        rw [hpolicy]
        exact hcounted.record h hne r.success r.time
    · have hresults : resultsOf tunnel (results ++ [r]) = resultsOf tunnel results := by
        simp [resultsOf, hr]
      rw [hresults, ProbeTracker.record_lookup_ne _ (Ne.symm hr)]
      exact ih

end

/-- Trackers with the same policy that hold the same of a tunnel go on to hold the same. -/
theorem recordAll_congr {t t' : ProbeTracker} {tunnel : String} (hpolicy : t.policy = t'.policy)
    (hheld : t.byTunnel.lookup tunnel = t'.byTunnel.lookup tunnel) (results : List ProbeResult) :
    (t.recordAll results).policy = (t'.recordAll results).policy ∧
      (t.recordAll results).byTunnel.lookup tunnel =
        (t'.recordAll results).byTunnel.lookup tunnel := by
  induction results generalizing t t' with
  | nil => exact ⟨hpolicy, hheld⟩
  | cons r results ih =>
    apply @ih (t.record r.tunnel r.success r.time) (t'.record r.tunnel r.success r.time) hpolicy
    by_cases hr : r.tunnel = tunnel
    · subst hr
      rw [ProbeTracker.record, ProbeTracker.record, AList.lookup_insert, AList.lookup_insert, hheld,
        hpolicy]
    · rw [ProbeTracker.record_lookup_ne _ (Ne.symm hr), ProbeTracker.record_lookup_ne _ (Ne.symm hr)]
      exact hheld

/-- After any results of any tunnels the flag of a tunnel is what looking back over its own results
gives, and a snapshot restored into a fresh tracker keeps it and every verdict to come. -/
theorem passing_by_window {policy : ProbePolicy} (h : policy.validate = .ok ())
    (results : List ProbeResult) (tunnel : String) :
    let t := ProbeTracker.recordAll ⟨policy, ∅⟩ results
    (resultsOf tunnel results ≠ [] → ∃ s, t.byTunnel.lookup tunnel = some s ∧
      s.passing = windowPassing policy (resultsOf tunnel results)) ∧
    ∀ tunnels, tunnel ∈ tunnels →
      let restored := ProbeTracker.restore ⟨policy, ∅⟩ (t.snapshot tunnels)
      restored.byTunnel.lookup tunnel = t.byTunnel.lookup tunnel ∧
        ∀ later now, verdict (some (restored.recordAll later)) tunnel now =
          verdict (some (t.recordAll later)) tunnel now := by
  intro t
  obtain ⟨hpolicy, hcounted⟩ := recordAll_counted h results tunnel
  constructor
  · intro hne
    rcases hcounted with ⟨-, hempty⟩ | ⟨s, hsome, -, hcounted⟩
    · exact absurd hempty hne
    · exact ⟨s, hsome, hcounted.passing⟩
  · intro tunnels hmem restored
    have hheld : restored.byTunnel.lookup tunnel = t.byTunnel.lookup tunnel := by
      rw [ProbeTracker.restore_lookup, ProbeTracker.snapshot_find, if_pos hmem]
      rfl
    refine ⟨hheld, fun later now => ?_⟩
    obtain ⟨hpolicy', hheld'⟩ := @recordAll_congr restored t tunnel hpolicy.symm hheld later
    rw [verdict, verdict, hheld', hpolicy']

theorem passing_by_window_recovered :
    let policy : ProbePolicy := ⟨1, 2, 3⟩
    let results : List ProbeResult :=
      [⟨"wg0", false, 0⟩, ⟨"wg0", true, 1⟩, ⟨"wg1", false, 1⟩, ⟨"wg0", true, 2⟩, ⟨"wg0", true, 3⟩]
    windowPassing policy (resultsOf "wg0" results) = true ∧
      ∃ s, (ProbeTracker.recordAll ⟨policy, ∅⟩ results).byTunnel.lookup "wg0" = some s ∧
        s.passing = true := by
  intro policy results
  obtain ⟨s, hs, hpassing⟩ :=
    (@passing_by_window policy rfl results "wg0").1 (by decide)
  have hwindow : windowPassing policy (resultsOf "wg0" results) = true := by decide
  exact ⟨hwindow, s, hs, hpassing.trans hwindow⟩

end SakhtarWg.Health
