import SakhtarWg.Aggregate
import SakhtarWg.Machine

/-!
# The pfSense mirror

The syncer pushes the aggregated networks over a channel whose acknowledgement can be lost, and
skips the push when the set equals the last one it saw acknowledged. A push that is applied
without such a report leaves the remote with a set the syncer does not know of.
-/

namespace SakhtarWg.Mirror
open RouteSet Machine

structure PfSyncer where
  keep : List String
  last : List String
  deriving DecidableEq

def PfSyncer.desired (p : PfSyncer) (cidrs : List String) : List String :=
  aggregateIPv4 (p.keep ++ cidrs)

def rejects (out : String) : Bool := "ERR".toList.isPrefixOf out.toList

/-- What becomes of one push: whether the remote applies the set, and what the command returns.
The command reports success only of a set that was applied. -/
structure PushOutcome where
  applied : Bool
  out : String
  err : Option String
  acknowledged : err = none → rejects out = false → applied = true

def PushOutcome.succeeds (o : PushOutcome) : Bool := o.err = none && !rejects o.out

/-- What a call records. -/
inductive Report
  | tooFew (count : ℕ)
  | skipped
  | failure (err : String)
  | rejected (out : String)
  | success
  deriving DecidableEq

/-- The syncer after a call, its report, and the set that was pushed, if one was. -/
structure Reconciled where
  syncer : PfSyncer
  report : Report
  pushed : Option (List String)
  deriving DecidableEq

def PfSyncer.reconcile (p : PfSyncer) (cidrs : List String) (o : PushOutcome) : Reconciled :=
  let desired := p.desired cidrs
  if desired.length < 5 then ⟨p, .tooFew desired.length, none⟩
  else if p.last = desired then ⟨p, .skipped, none⟩
  else
    match o.err with
    | some e => ⟨p, .failure e, some desired⟩
    | none =>
      if rejects o.out then ⟨p, .rejected o.out, some desired⟩
      else ⟨{ p with last := desired }, .success, some desired⟩

/-- The syncer, the set the remote last applied, and every set pushed so far. -/
structure Link where
  syncer : PfSyncer
  remote : Option (List String)
  pushed : List (List String)
  deriving DecidableEq

structure Call where
  cidrs : List String
  outcome : PushOutcome

def step (s : Link) (c : Call) : Link :=
  let r := s.syncer.reconcile c.cidrs c.outcome
  ⟨r.syncer, if c.outcome.applied then r.pushed.or s.remote else s.remote,
    r.pushed.toList ++ s.pushed⟩

/-- Nothing is known of the remote at first. -/
def start (keep : List String) (remote : Option (List String)) : Link := ⟨⟨keep, []⟩, remote, []⟩

/-- Whatever the next call is, if it skips then the remote has the desired set. -/
def Link.Agrees (s : Link) : Prop :=
  ∀ cidrs o, (s.syncer.reconcile cidrs o).report = .skipped →
    s.remote = some (s.syncer.desired cidrs)

def Link.Guarded (s : Link) : Prop := ∀ networks ∈ s.pushed, 5 ≤ networks.length

/-- The condition on a call that pushes: once a set has been acknowledged, a set is applied only
with a report of success. -/
def Acknowledged (s : Link) (c : Call) : Prop :=
  s.syncer.last ≠ [] → (s.syncer.reconcile c.cidrs c.outcome).pushed ≠ none →
    c.outcome.applied = true → c.outcome.succeeds = true

/-! ## One call -/

/-- What a call can do. -/
inductive Outcome (p : PfSyncer) (cidrs : List String) (o : PushOutcome) : Reconciled → Prop
  | idle (report : Report) (hskip : report = .skipped ↔
      5 ≤ (p.desired cidrs).length ∧ p.last = p.desired cidrs) :
    Outcome p cidrs o ⟨p, report, none⟩
  | unknown (report : Report) (hreport : report ≠ .skipped)
      (hlength : 5 ≤ (p.desired cidrs).length) (hnew : p.last ≠ p.desired cidrs)
      (hsucceeds : o.succeeds = false) :
    Outcome p cidrs o ⟨p, report, some (p.desired cidrs)⟩
  | done (hlength : 5 ≤ (p.desired cidrs).length) (hnew : p.last ≠ p.desired cidrs)
      (hsucceeds : o.succeeds = true) (happlied : o.applied = true) :
    Outcome p cidrs o ⟨{ p with last := p.desired cidrs }, .success, some (p.desired cidrs)⟩

theorem PfSyncer.reconcile_outcome (p : PfSyncer) (cidrs : List String) (o : PushOutcome) :
    Outcome p cidrs o (p.reconcile cidrs o) := by
  unfold PfSyncer.reconcile
  dsimp only
  by_cases hfew : (p.desired cidrs).length < 5
  · rw [if_pos hfew]
    exact .idle _ (iff_of_false (by simp) (by omega))
  · rw [if_neg hfew]
    by_cases hlast : p.last = p.desired cidrs
    · rw [if_pos hlast]
      exact .idle _ (iff_of_true rfl ⟨by omega, hlast⟩)
    · rw [if_neg hlast]
      cases herr : o.err with
      | some e =>
        exact .unknown _ (by simp) (by omega) hlast (by simp [PushOutcome.succeeds, herr])
      | none =>
        by_cases hrejects : rejects o.out = true
        · simp only [hrejects, if_true]
          exact .unknown _ (by simp) (by omega) hlast (by simp [PushOutcome.succeeds, hrejects])
        · rw [Bool.not_eq_true] at hrejects
          simp only [hrejects, Bool.false_eq_true, if_false]
          exact .done (by omega) hlast (by simp [PushOutcome.succeeds, herr, hrejects])
            (o.acknowledged herr hrejects)

theorem PfSyncer.skipped_iff (p : PfSyncer) (cidrs : List String) (o : PushOutcome) :
    (p.reconcile cidrs o).report = .skipped ↔
      5 ≤ (p.desired cidrs).length ∧ p.last = p.desired cidrs := by
  have houtcome := p.reconcile_outcome cidrs o
  generalize p.reconcile cidrs o = r at houtcome
  cases houtcome with
  | idle report hskip => exact hskip
  | unknown report hreport hlength hnew hsucceeds => exact iff_of_false hreport fun h => hnew h.2
  | done hlength hnew hsucceeds happlied => exact iff_of_false (by simp) fun h => hnew h.2

/-- The set the syncer remembers was desired once, and large enough to be pushed. -/
structure Link.Inv (s : Link) : Prop where
  last : s.syncer.last ≠ [] →
    5 ≤ s.syncer.last.length ∧ ∃ cidrs, s.syncer.desired cidrs = s.syncer.last
  guarded : s.Guarded

theorem Link.Inv.step {s : Link} (h : s.Inv) (c : Call) : (step s c).Inv := by
  have houtcome := s.syncer.reconcile_outcome c.cidrs c.outcome
  unfold Mirror.step
  generalize s.syncer.reconcile c.cidrs c.outcome = r at houtcome
  have hpush : 5 ≤ (s.syncer.desired c.cidrs).length →
      ∀ networks ∈ s.syncer.desired c.cidrs :: s.pushed, 5 ≤ networks.length := fun hlength =>
    List.forall_mem_cons.mpr ⟨hlength, h.guarded⟩
  cases houtcome with
  | idle report hskip => exact ⟨h.last, h.guarded⟩
  | unknown report hreport hlength hnew hsucceeds => exact ⟨h.last, hpush hlength⟩
  | done hlength hnew hsucceeds happlied =>
    exact ⟨fun _ => ⟨hlength, c.cidrs, rfl⟩, hpush hlength⟩

/-- Agreement in terms of the two memories. -/
theorem Link.Inv.agrees_iff {s : Link} (h : s.Inv) :
    s.Agrees ↔ (s.syncer.last ≠ [] → s.remote = some s.syncer.last) := by
  constructor
  · intro hagrees hne
    obtain ⟨hlength, cidrs, hdesired⟩ := h.last hne
    rw [← hdesired]
    apply hagrees cidrs ⟨true, "", none, fun _ _ => rfl⟩
    rw [PfSyncer.skipped_iff, hdesired]
    exact ⟨hlength, rfl⟩
  · intro hremote cidrs o hskipped
    obtain ⟨hlength, hlast⟩ := (s.syncer.skipped_iff cidrs o).mp hskipped
    rw [← hlast]
    apply hremote
    intro hnil
    rw [← hlast, hnil] at hlength
    exact absurd hlength (by decide)

/-- One call keeps the two sides in agreement exactly under the condition. -/
theorem Link.Inv.agrees_step {s : Link} (h : s.Inv) (hagrees : s.Agrees) (c : Call) :
    (Mirror.step s c).Agrees ↔ Acknowledged s c := by
  rw [(h.step c).agrees_iff]
  have hremote := h.agrees_iff.mp hagrees
  have houtcome := s.syncer.reconcile_outcome c.cidrs c.outcome
  unfold Mirror.step Acknowledged
  generalize s.syncer.reconcile c.cidrs c.outcome = r at houtcome
  cases houtcome with
  | idle report hskip =>
    refine iff_of_true (fun hne => ?_) (fun _ hpushed => absurd rfl hpushed)
    simpa using hremote hne
  | unknown report hreport hlength hnew hsucceeds =>
    -- the remote has changed if the set was applied all the same
    refine imp_congr_right fun hne => ?_
    cases happlied : c.outcome.applied with
    | false => exact iff_of_true (hremote hne) (fun _ h => by cases h)
    | true =>
      refine iff_of_false (fun heq => hnew ?_) fun h => ?_
      · exact (Option.some.inj heq).symm
      · have hyes := h (by simp) rfl
        rw [hsucceeds] at hyes
        cases hyes
  | done hlength hnew hsucceeds happlied =>
    refine iff_of_true (fun _ => ?_) (fun _ _ _ => hsucceeds)
    dsimp only
    rw [if_pos happlied]
    rfl

/-! ## Every sequence of calls -/

/-- In every state of every run a call that skips is right, and no push had fewer than five
networks, iff every push after the first acknowledged one is applied only with a report of
success. -/
theorem mirror_agrees_iff (keep : List String) (remote : Option (List String))
    (calls : List Call) :
    Always step (fun s => s.Agrees ∧ s.Guarded) (start keep remote) calls ↔
      Throughout step Acknowledged (start keep remote) calls := by
  have hstart : (start keep remote).Inv :=
    ⟨fun hne => absurd rfl hne, fun _ hmem => by cases hmem⟩
  apply always_iff_throughout step (I := Link.Inv) (fun s c h => h.step c)
  · intro s c h hagrees
    rw [← h.agrees_step hagrees.1 c]
    exact and_iff_left (h.step c).guarded
  · exact hstart
  · exact ⟨hstart.agrees_iff.mpr fun hne => absurd rfl hne, hstart.guarded⟩

def firstSet : List String :=
  ["10.0.0.1/32", "10.0.0.3/32", "10.0.0.5/32", "10.0.0.7/32", "10.0.0.9/32"]

def secondSet : List String :=
  ["10.0.1.1/32", "10.0.1.3/32", "10.0.1.5/32", "10.0.1.7/32", "10.0.1.9/32"]

/-- A set that is acknowledged, and another that is applied although the command times out. -/
def lostReply : List Call :=
  [⟨firstSet, true, "OK", none, fun _ _ => rfl⟩,
    ⟨secondSet, true, "", some "signal: killed", fun _ _ => rfl⟩]

/-- Going back to the first set is then skipped, while the remote has the second. -/
theorem mirror_diverges :
    ((lostReply.foldl step (start [] none)).syncer.reconcile firstSet
      ⟨true, "OK", none, fun _ _ => rfl⟩).report = .skipped ∧
    (lostReply.foldl step (start [] none)).remote = some secondSet ∧
    (lostReply.foldl step (start [] none)).syncer.desired firstSet = firstSet := by
  refine ⟨?_, ?_, ?_⟩
  · decide +kernel
  · decide +kernel
  · decide +kernel

end SakhtarWg.Mirror
