import SakhtarWg.DialSafety

/-!
# What a run of the dial path consists of

The loops of `ProxyDial` say what they do next by recursion. Here each of them is inverted once:
a run of the attempt loop is a context check, a slice, a dial and the rest of the loop; a run of
the failover loop is a sequence of visits, one for each egress it reached.
-/

namespace SakhtarWg.Proxy
open Netip Program

/-! ## Looking at the context and at the clock -/

/-- The commands that do something, rather than look at the context or the clock. -/
def Env.acts : Env → Bool
  | .ctxErr _ | .now => false
  | _ => true

def actionsOf (t : Trace) : Trace := t.filter (·.1.acts)

theorem actionsOf_append (t u : Trace) : actionsOf (t ++ u) = actionsOf t ++ actionsOf u :=
  List.filter_append _ _

theorem actionsOf_reads {w : Trace} (h : ∀ x ∈ w, x.1 = .now) : actionsOf w = [] := by
  rw [actionsOf, List.filter_eq_nil_iff]
  intro x hx
  rw [h x hx]
  simp [Env.acts]

theorem dialsOf_actionsOf (t : Trace) : dialsOf (actionsOf t) = dialsOf t := by
  induction t with
  | nil => rfl
  | cons x t ih =>
    obtain ⟨c, r⟩ := x
    cases c with
    | dial mark address deadline => exact congrArg ((mark, address) :: ·) ih
    | _ => exact ih

theorem attemptDeadline_reads {deadline : Option ℤ} {n : ℕ} {w : Trace} {attempt : Option ℤ}
    (h : (attemptDeadline deadline n).Runs w attempt) : ∀ x ∈ w, x.1 = .now := by
  unfold attemptDeadline at h
  split at h
  · obtain ⟨rfl, -⟩ := Prog.runs_pure.mp h
    simp
  · obtain ⟨now, u, rfl, hu⟩ := Prog.runs_perform_bind.mp h
    obtain ⟨now', v, rfl, hv⟩ := Prog.runs_perform_bind.mp hu
    obtain ⟨rfl, -⟩ := Prog.runs_pure.mp hv
    simp

/-! ## One attempt -/

/-- What the metrics see of an attempt. -/
def recorded (metrics success : Bool) (egress : String) : Trace :=
  if metrics then [⟨.record success egress, ()⟩] else []

theorem count_runs {metrics success : Bool} {egress : String} {t : Trace} {r : Unit} :
    (Env.count metrics success egress).Runs t r ↔ t = recorded metrics success egress := by
  cases metrics
  · exact Prog.runs_pure.trans (and_iff_left rfl)
  · exact Prog.runs_perform.trans (by simp [recorded])

theorem recorded_quiet (metrics success : Bool) (egress : String) :
    dialsOf (recorded metrics success egress) = [] := by
  cases metrics <;> rfl

section
variable {deadline : Option ℤ} {port egress : String} {metrics : Bool} {mark : ℤ}
  {errs : List Err} {t : Trace} {r : Except Err Unit}

/-- One round of the attempt loop. -/
theorem dialEach_cons_runs {candidate : Addr} {rest : List Addr} :
    (dialEach deadline port metrics egress mark (candidate :: rest) errs).Runs t r ↔
      (∃ e, t = [⟨.ctxErr deadline, some e⟩] ∧ r = .error (.join (errs ++ [e]))) ∨
      ∃ w attempt u, (attemptDeadline deadline (rest.length + 1)).Runs w attempt ∧
        t = ⟨.ctxErr deadline, none⟩ :: (w ++ u) ∧
        ((u = ⟨.dial mark (joinHostPort candidate.string port) attempt, .ok ()⟩ ::
            recorded metrics true egress ∧ r = .ok ()) ∨
          ∃ e z, u = ⟨.dial mark (joinHostPort candidate.string port) attempt, .error e⟩ ::
              (recorded metrics false egress ++ z) ∧
            (dialEach deadline port metrics egress mark rest
              (errs ++ [.wrap (joinHostPort candidate.string port) e])).Runs z r) := by
  rw [dialEach, Env.getCtxErr, Prog.runs_perform_bind]
  constructor
  · rintro ⟨stop, v, rfl, hv⟩
    cases stop with
    | some e =>
      obtain ⟨rfl, rfl⟩ := Prog.runs_pure.mp hv
      exact .inl ⟨e, rfl, rfl⟩
    | none =>
      obtain ⟨w, x, attempt, rfl, hw, hx⟩ := Prog.runs_bind.mp hv
      obtain ⟨conn, y, rfl, hy⟩ := Prog.runs_perform_bind.mp hx
      refine .inr ⟨w, attempt, _, hw, rfl, ?_⟩
      cases conn with
      | ok _ =>
        obtain ⟨u, z, _, rfl, hu, hz⟩ := Prog.runs_bind.mp hy
        obtain ⟨rfl, rfl⟩ := Prog.runs_pure.mp hz
        rw [count_runs.mp hu, List.append_nil]
        exact .inl ⟨rfl, rfl⟩
      | error e =>
        obtain ⟨u, z, _, rfl, hu, hz⟩ := Prog.runs_bind.mp hy
        rw [count_runs.mp hu]
        exact .inr ⟨e, z, rfl, hz⟩
  · rintro (⟨e, rfl, rfl⟩ | ⟨w, attempt, u, hw, rfl, hu⟩)
    · exact ⟨some e, [], rfl, .pure _⟩
    · refine ⟨none, w ++ u, rfl, Prog.runs_bind.mpr ⟨w, u, attempt, rfl, hw, ?_⟩⟩
      refine Prog.runs_perform_bind.mpr ?_
      rcases hu with ⟨rfl, rfl⟩ | ⟨e, z, rfl, hz⟩
      · refine ⟨.ok (), _, rfl, Prog.runs_bind.mpr ⟨_, [], (), ?_, count_runs.mpr rfl, .pure _⟩⟩
        rw [List.append_nil]
      · exact ⟨.error e, _, rfl, Prog.runs_bind.mpr ⟨_, z, (), rfl, count_runs.mpr rfl, hz⟩⟩

end

/-! ## Candidates -/

/-- A router as `newRouter` builds it: one positive cap for the selector and for the attempts. -/
structure Router.Built (rt : Router) : Prop where
  cap_pos : 1 ≤ rt.connectAttemptCap
  cap_eq : rt.selector.maxAttempts = rt.connectAttemptCap

section
variable (rt : Router) (deadline : Option ℤ) (host : String) (mark : ℤ) (self : List Addr)

/-- What the shared selector returns for the number it drew. -/
def Router.selected (sequence : UInt64) (input : List Addr) : List Addr :=
  rt.selector.select sequence input (rt.destination.addressAllowed · mark self)

/-- The ways the search for candidates can go, with its trace and its result. -/
inductive Lookup : Bool → Trace → Except Err (List Addr) → Prop
  | malformed (hparse : parseAddr host = none) : Lookup true [] (.error .denied)
  | otherFamily {addr : Addr} (hparse : parseAddr host = some addr)
      (hfamily : egressFamilyAllowed addr mark = false) :
      Lookup true [] (.error errNoIPv4Candidate)
  | literalDenied {addr : Addr} {sequence : UInt64} (hparse : parseAddr host = some addr)
      (hfamily : egressFamilyAllowed addr mark = true)
      (hnone : rt.selected mark self sequence [addr] = []) :
      Lookup true [⟨.sequence, sequence⟩] (.error .denied)
  | literal {addr : Addr} {sequence : UInt64} (hparse : parseAddr host = some addr)
      (hfamily : egressFamilyAllowed addr mark = true)
      (hsome : rt.selected mark self sequence [addr] ≠ []) :
      Lookup true [⟨.sequence, sequence⟩] (.ok (rt.selected mark self sequence [addr]))
  | noResolver (hno : rt.hasResolver mark = false) :
      Lookup false [] (.error (.text ("no resolver for egress mark " ++ toString mark)))
  | failed {e : Err} : Lookup false [⟨.resolve mark host deadline, .error e⟩] (.error e)
  | negative {result : Dns.Result} (hrcode : result.rcode ≠ .success) :
      Lookup false [⟨.resolve mark host deadline, .ok result⟩]
        (.error (.text ("DNS " ++ result.rcode.string ++ " for " ++ host)))
  | noFamily {result : Dns.Result} (hrcode : result.rcode = .success)
      (hfamily : egressFamilyCandidates result.addrs mark = []) :
      Lookup false [⟨.resolve mark host deadline, .ok result⟩] (.error errNoIPv4Candidate)
  | answerDenied {result : Dns.Result} {sequence : UInt64} (hrcode : result.rcode = .success)
      (hfamily : egressFamilyCandidates result.addrs mark ≠ [])
      (hnone : rt.selected mark self sequence (egressFamilyCandidates result.addrs mark) = []) :
      Lookup false [⟨.resolve mark host deadline, .ok result⟩, ⟨.sequence, sequence⟩,
        ⟨.invalidate mark host, ()⟩] (.error errDeniedAnswer)
  | answer {result : Dns.Result} {sequence : UInt64} (hrcode : result.rcode = .success)
      (hsome : rt.selected mark self sequence (egressFamilyCandidates result.addrs mark) ≠ []) :
      Lookup false [⟨.resolve mark host deadline, .ok result⟩, ⟨.sequence, sequence⟩]
        (.ok (rt.selected mark self sequence (egressFamilyCandidates result.addrs mark)))

end

section
variable {rt : Router} {deadline : Option ℤ} {host : String} {mark : ℤ} {self : List Addr}

theorem Router.Built.select_runs (hrt : rt.Built) {input : List Addr} {t : Trace}
    {selected : List Addr} (h : (rt.select input mark self).Runs t selected) :
    ∃ sequence, t = [⟨.sequence, sequence⟩] ∧ selected = rt.selected mark self sequence input := by
  have hcap : ¬ rt.selector.maxAttempts ≤ 0 := by
    have := hrt.cap_pos
    rw [hrt.cap_eq]
    omega
  rw [Router.select, if_neg hcap] at h
  obtain ⟨sequence, u, rfl, hu⟩ := Prog.runs_perform_bind.mp h
  obtain ⟨rfl, rfl⟩ := Prog.runs_pure.mp hu
  exact ⟨sequence, rfl, rfl⟩

theorem backendCandidates_lookup (hrt : rt.Built) {isIP : Bool} {t : Trace}
    {r : Except Err (List Addr)}
    (h : (backendCandidates rt deadline host isIP mark self).Runs t r) :
    Lookup rt deadline host mark self isIP t r := by
  unfold backendCandidates at h
  cases isIP with
  | true =>
    rw [if_pos rfl] at h
    split at h
    · rename_i hparse
      obtain ⟨rfl, rfl⟩ := Prog.runs_pure.mp h
      exact .malformed hparse
    · rename_i addr hparse
      split at h
      · rename_i hfamily
        obtain ⟨u, v, selected, rfl, hu, hv⟩ := Prog.runs_bind.mp h
        obtain ⟨rfl, rfl⟩ := Prog.runs_pure.mp hv
        obtain ⟨sequence, rfl, rfl⟩ := hrt.select_runs hu
        split
        · rename_i hnone
          exact .literalDenied hparse hfamily hnone
        · rename_i hsome
          exact .literal hparse hfamily hsome
      · rename_i hfamily
        obtain ⟨rfl, rfl⟩ := Prog.runs_pure.mp h
        exact .otherFamily hparse (by simpa using hfamily)
  | false =>
    rw [if_neg (by simp)] at h
    split at h
    · obtain ⟨answer, u, rfl, hu⟩ := Prog.runs_perform_bind.mp h
      cases answer with
      | error e =>
        obtain ⟨rfl, rfl⟩ := Prog.runs_pure.mp hu
        exact .failed
      | ok result =>
        dsimp only at hu
        split at hu
        · rename_i hrcode
          obtain ⟨rfl, rfl⟩ := Prog.runs_pure.mp hu
          exact .negative hrcode
        · rename_i hrcode
          rw [not_not] at hrcode
          split at hu
          · rename_i hfamily
            obtain ⟨rfl, rfl⟩ := Prog.runs_pure.mp hu
            exact .noFamily hrcode hfamily
          · rename_i hfamily
            obtain ⟨v, w, selected, rfl, hv, hw⟩ := Prog.runs_bind.mp hu
            obtain ⟨sequence, rfl, rfl⟩ := hrt.select_runs hv
            split at hw
            · rename_i hnone
              obtain ⟨_, x, rfl, hx⟩ := Prog.runs_perform_bind.mp hw
              obtain ⟨rfl, rfl⟩ := Prog.runs_pure.mp hx
              exact .answerDenied hrcode hfamily hnone
            · rename_i hsome
              obtain ⟨rfl, rfl⟩ := Prog.runs_pure.mp hw
              exact .answer hrcode hsome
    · rename_i hno
      obtain ⟨rfl, rfl⟩ := Prog.runs_pure.mp h
      exact .noResolver (by simpa using hno)

end

/-! ## One egress -/

/-- The second half of `dialBackend`: the candidates are there. -/
def dialFound (rt : Router) (deadline : Option ℤ) (host : String) (isIP : Bool) (port : String)
    (mark : ℤ) (candidates : List Addr) : Dialing (Except Err Unit) := do
  match ← dialCandidates deadline candidates port rt.connectAttemptCap true
      (rt.egressName mark) mark with
  | .ok _ => return .ok ()
  | .error e =>
    if isIP then return .error e
    else
      Env.drop mark host
      return .error e

/-- The invalidation after the dials: a name whose candidates gave no connection. -/
def droppedAfter (isIP : Bool) (mark : ℤ) (host : String) : Except Err Unit → Trace
  | .ok _ => []
  | .error _ => if isIP then [] else [⟨.invalidate mark host, ()⟩]

theorem droppedAfter_quiet (isIP : Bool) (mark : ℤ) (host : String) (r : Except Err Unit) :
    dialsOf (droppedAfter isIP mark host r) = [] := by
  cases r <;> cases isIP <;> rfl

theorem dialFound_runs {rt : Router} {deadline : Option ℤ} {host : String} {isIP : Bool}
    {port : String} {mark : ℤ} {candidates : List Addr} {t : Trace} {r : Except Err Unit} :
    (dialFound rt deadline host isIP port mark candidates).Runs t r ↔
      ∃ u, (dialCandidates deadline candidates port rt.connectAttemptCap true
        (rt.egressName mark) mark).Runs u r ∧ t = u ++ droppedAfter isIP mark host r := by
  rw [dialFound, Prog.runs_bind]
  constructor
  · rintro ⟨u, v, conn, rfl, hu, hv⟩
    cases conn with
    | ok _ =>
      obtain ⟨rfl, rfl⟩ := Prog.runs_pure.mp hv
      exact ⟨u, hu, rfl⟩
    | error e =>
      cases isIP
      · obtain ⟨_, w, rfl, hw⟩ := Prog.runs_perform_bind.mp hv
        obtain ⟨rfl, rfl⟩ := Prog.runs_pure.mp hw
        exact ⟨u, hu, rfl⟩
      · obtain ⟨rfl, rfl⟩ := Prog.runs_pure.mp hv
        exact ⟨u, hu, rfl⟩
  · rintro ⟨u, hu, rfl⟩
    refine ⟨u, _, r, rfl, hu, ?_⟩
    cases r with
    | ok _ => exact .pure _
    | error e =>
      cases isIP
      · exact .call (.pure _)
      · exact .pure _

/-- One egress as the failover loop visits it: its context, the search for candidates and the
dials. -/
structure Visit where
  mark : ℤ
  deadline : Option ℤ
  lookup : Trace
  found : Except Err (List Addr)
  dialing : Trace
  result : Except Err Unit

def Visit.trace (v : Visit) : Trace := v.lookup ++ v.dialing

/-- The visit is a run of `dialBackend`. -/
structure Visit.Of (rt : Router) (host : String) (isIP : Bool) (port : String)
    (selfValues : List Addr) (v : Visit) : Prop where
  lookup : (backendCandidates rt v.deadline host isIP v.mark selfValues).Runs v.lookup v.found
  none_found : ∀ e, v.found = .error e → v.dialing = [] ∧ v.result = .error e
  dialing : ∀ candidates, v.found = .ok candidates →
    (dialFound rt v.deadline host isIP port v.mark candidates).Runs v.dialing v.result

theorem dialBackend_runs_iff {rt : Router} {deadline : Option ℤ} {host : String} {isIP : Bool}
    {port : String} {mark : ℤ} {self : List Addr} {t : Trace} {r : Except Err Unit} :
    (dialBackend rt deadline host isIP port mark self).Runs t r ↔
      ∃ v : Visit, v.Of rt host isIP port self ∧ v.mark = mark ∧ v.deadline = deadline ∧
        v.trace = t ∧ v.result = r := by
  rw [dialBackend, Prog.runs_bind]
  constructor
  · rintro ⟨u, v, found, rfl, hu, hv⟩
    refine ⟨⟨mark, deadline, u, found, v, r⟩, ?_, rfl, rfl, rfl, rfl⟩
    cases found with
    | error e =>
      obtain ⟨rfl, rfl⟩ := Prog.runs_pure.mp hv
      refine ⟨hu, ?_, by simp⟩
      rintro e' ⟨⟩
      exact ⟨rfl, rfl⟩
    | ok candidates =>
      refine ⟨hu, by simp, ?_⟩
      rintro candidates' ⟨⟩
      exact hv
  · rintro ⟨v, hv, rfl, rfl, rfl, rfl⟩
    refine ⟨v.lookup, v.dialing, v.found, rfl, hv.lookup, ?_⟩
    cases hfound : v.found with
    | error e =>
      obtain ⟨hnil, herr⟩ := hv.none_found e hfound
      rw [hnil, herr]
      exact .pure _
    | ok candidates => exact hv.dialing candidates hfound

/-! ## All egresses -/

section
variable (rt : Router) (deadline : Option ℤ) (host : String) (isIP : Bool) (port : String)
  (self : List Addr)

/-- The visits of a run of the failover loop, the context error that stopped it, and its trace. -/
inductive Failover : List ℤ → List Visit → Option Err → Trace → Prop
  | exhausted : Failover [] [] none []
  | stopped (mark : ℤ) (rest : List ℤ) (e : Err) :
      Failover (mark :: rest) [] (some e) [⟨.ctxErr deadline, some e⟩]
  | connected {v : Visit} {rest : List ℤ} {w : Trace} (hv : v.Of rt host isIP port self)
      (hw : (attemptDeadline deadline (rest.length + 1)).Runs w v.deadline)
      (hr : v.result = .ok ()) :
      Failover (v.mark :: rest) [v] none (⟨.ctxErr deadline, none⟩ :: (w ++ v.trace))
  | failed {v : Visit} {rest : List ℤ} {w : Trace} {visits : List Visit} {stop : Option Err}
      {t : Trace} {e : Err} (hv : v.Of rt host isIP port self)
      (hw : (attemptDeadline deadline (rest.length + 1)).Runs w v.deadline)
      (hr : v.result = .error e) (hrest : Failover rest visits stop t) :
      Failover (v.mark :: rest) (v :: visits) stop
        (⟨.ctxErr deadline, none⟩ :: (w ++ (v.trace ++ t)))

/-- The error of a visit as the failover loop keeps it. -/
def Router.egressErr (mark : ℤ) (e : Err) : Err := .wrap ("egress " ++ rt.egressName mark) e

/-- What the loop returns after these visits, from the errors of earlier egresses. -/
def outcome (stop : Option Err) : List Visit → List Err → List Err → Except Err Unit
  | [], denied, failed =>
    .error (conclude denied (match stop with
      | some e => failed ++ [e]
      | none => failed))
  | v :: visits, denied, failed =>
    match v.result with
    | .ok _ => .ok ()
    | .error e =>
      if e.isDenied then outcome stop visits (denied ++ [rt.egressErr v.mark e]) failed
      else outcome stop visits denied (failed ++ [rt.egressErr v.mark e])

end

section
variable {rt : Router} {deadline : Option ℤ} {host : String} {isIP : Bool} {port : String}
  {self : List Addr} {t : Trace} {r : Except Err Unit}

/-- A run of the failover loop is a sequence of visits. -/
theorem dialEgressesFrom_visits {marks : List ℤ} {denied failed : List Err}
    (h : (dialEgressesFrom rt deadline host isIP port self marks denied failed).Runs t r) :
    ∃ visits stop, Failover rt deadline host isIP port self marks visits stop t ∧
      r = outcome rt stop visits denied failed := by
  induction marks generalizing denied failed t with
  | nil =>
    obtain ⟨rfl, rfl⟩ := Prog.runs_pure.mp h
    exact ⟨[], none, .exhausted, rfl⟩
  | cons mark rest ih =>
    rw [dialEgressesFrom, Env.getCtxErr, Prog.runs_perform_bind] at h
    obtain ⟨stop, u, rfl, hu⟩ := h
    cases stop with
    | some e =>
      obtain ⟨rfl, rfl⟩ := Prog.runs_pure.mp hu
      exact ⟨[], some e, .stopped mark rest e, rfl⟩
    | none =>
      obtain ⟨w, x, egress, rfl, hw, hx⟩ := Prog.runs_bind.mp hu
      obtain ⟨y, z, conn, rfl, hy, hz⟩ := Prog.runs_bind.mp hx
      obtain ⟨v, hv, rfl, rfl, rfl, rfl⟩ := dialBackend_runs_iff.mp hy
      cases hr : v.result with
      | ok _ =>
        rw [hr] at hz
        obtain ⟨rfl, rfl⟩ := Prog.runs_pure.mp hz
        refine ⟨[v], none, ?_, by simp [outcome, hr]⟩
        rw [List.append_nil]
        exact .connected hv hw hr
      | error e =>
        rw [hr] at hz
        have hnext : ∃ denied' failed',
            (dialEgressesFrom rt deadline host isIP port self rest denied' failed').Runs z r ∧
            ∀ visits stop, outcome rt stop (v :: visits) denied failed =
              outcome rt stop visits denied' failed' := by
          dsimp only at hz
          split at hz
          · rename_i hden
            exact ⟨_, _, hz, fun visits stop => by
              rw [outcome, hr]
              exact if_pos hden⟩
          · rename_i hden
            exact ⟨_, _, hz, fun visits stop => by
              rw [outcome, hr]
              exact if_neg hden⟩
        obtain ⟨denied', failed', hz', hout⟩ := hnext
        obtain ⟨visits, stop, hvisits, hres⟩ := ih hz'
        exact ⟨v :: visits, stop, .failed hv hw hr hvisits, hres.trans (hout visits stop).symm⟩

theorem dialEgresses_visits {marks : List ℤ}
    (h : (dialEgresses rt deadline host isIP port marks self).Runs t r) :
    ∃ visits stop, Failover rt deadline host isIP port self marks visits stop t ∧
      r = outcome rt stop visits [] [] :=
  dialEgressesFrom_visits h

/-! What the visits of a run have in common. -/

variable {marks : List ℤ} {visits : List Visit} {stop : Option Err}

theorem Failover.visited (h : Failover rt deadline host isIP port self marks visits stop t) :
    ∀ v ∈ visits, v.Of rt host isIP port self := by
  induction h with
  | exhausted => simp
  | stopped => simp
  | connected hv => simpa using hv
  | failed hv _ _ _ ih => simpa using ⟨hv, ih⟩

/-- The egresses are visited in order, from the first. -/
theorem Failover.in_order (h : Failover rt deadline host isIP port self marks visits stop t) :
    visits.map (·.mark) <+: marks := by
  induction h with
  | exhausted => simp
  | stopped => simp
  | connected => simp
  | failed _ _ _ _ ih => simpa using ih

/-- Only the last visit can have connected. -/
theorem Failover.failed_before (h : Failover rt deadline host isIP port self marks visits stop t) :
    ∀ v ∈ visits.dropLast, v.result ≠ .ok () := by
  induction h with
  | exhausted => simp
  | stopped => simp
  | connected => simp
  | @failed v rest w visits stop t e hv hw hr hrest ih =>
    cases visits with
    | nil => simp
    | cons v' visits =>
      simp only [List.dropLast_cons_cons, List.mem_cons]
      rintro u (rfl | hu)
      · rw [hr]
        simp
      · exact ih u hu

theorem Failover.all_visited (h : Failover rt deadline host isIP port self marks visits none t)
    (hfailed : ∀ v ∈ visits, v.result ≠ .ok ()) : visits.map (·.mark) = marks := by
  generalize hstop : (none : Option Err) = stop at h
  induction h with
  | exhausted => rfl
  | stopped => cases hstop
  | @connected v rest w hv hw hr => exact absurd hr (hfailed v (by simp))
  | @failed v rest w visits stop t e hv hw hr hrest ih =>
    rw [List.map_cons, ih (fun u hu => hfailed u (by simp [hu])) hstop]

/-- What is done during the run is what the visits do. -/
theorem Failover.actions (h : Failover rt deadline host isIP port self marks visits stop t) :
    actionsOf t = visits.flatMap fun v => actionsOf v.trace := by
  induction h with
  | exhausted => rfl
  | stopped => rfl
  | @connected v rest w hv hw hr =>
    show actionsOf (w ++ v.trace) = _
    rw [actionsOf_append, actionsOf_reads (attemptDeadline_reads hw)]
    simp
  | @failed v rest w visits stop t e hv hw hr hrest ih =>
    show actionsOf (w ++ (v.trace ++ t)) = _
    rw [actionsOf_append, actionsOf_reads (attemptDeadline_reads hw), actionsOf_append, ih]
    rfl

theorem Failover.dials (h : Failover rt deadline host isIP port self marks visits stop t) :
    dialsOf t = visits.flatMap fun v => dialsOf v.trace := by
  have hsplit : ∀ l : List Visit, dialsOf (l.flatMap fun v => actionsOf v.trace) =
      l.flatMap fun v => dialsOf v.trace := by
    intro l
    induction l with
    | nil => rfl
    | cons v l ih => rw [List.flatMap_cons, dialsOf_append, ih, dialsOf_actionsOf, List.flatMap_cons]
  rw [← dialsOf_actionsOf, h.actions, hsplit]

/-- The loop connects when a visit did. -/
theorem outcome_eq_ok {denied failed : List Err} :
    outcome rt stop visits denied failed = .ok () ↔ ∃ v ∈ visits, v.result = .ok () := by
  induction visits generalizing denied failed with
  | nil => simp [outcome]
  | cons v visits ih =>
    rw [outcome]
    cases hr : v.result with
    | ok _ => simp [hr]
    | error e =>
      dsimp only
      split <;> simp [hr, ih]

end

end SakhtarWg.Proxy
