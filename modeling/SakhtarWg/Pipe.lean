import SakhtarWg.DialOutcome
import SakhtarWg.TunnelResolver

/-!
# A proxied request

`pipe` checks the requested host against the policy of the first egress, then dials through each
egress of the order with that egress's own policy.
-/

namespace SakhtarWg.Proxy
open Netip Program

/-- The reasons `pipe` rejects for. -/
inductive RejectionReason
  | destinationDenied | dialError
  deriving DecidableEq

/-- How `pipe` leaves a request: rejected, dropped because its session is over, or connected. -/
inductive Piped
  | rejected (reason : RejectionReason)
  | closed
  | connected
  deriving DecidableEq

/-- `pipe` with the order `mark :: rest` its route has published; `ctx` is the session's. -/
def pipe (rt : Router) (dialTimeout : ℤ) (ctx : Option ℤ) (host : String) (isIP : Bool)
    (port : String) (mark : ℤ) (rest : List ℤ) (self : List Addr) : Dialing Piped :=
  if rt.destination.requestedHostAllowed host isIP mark self = false then
    pure (.rejected .destinationDenied)
  else do
    let dialCtx ← withTimeout ctx dialTimeout
    match ← dialEgresses rt dialCtx host isIP port (mark :: rest) self with
    | .ok _ => return .connected
    | .error e =>
      match ← Env.getCtxErr ctx with
      | some _ => return .closed
      | none => return .rejected (if e.isDenied then .destinationDenied else .dialError)

/-- What became of the dial, read off the context check after it. -/
def Piped.after (stopped : Option Err) : Except Err Unit → Piped
  | .ok _ => .connected
  | .error e =>
    match stopped with
    | some _ => .closed
    | none => .rejected (if e.isDenied then .destinationDenied else .dialError)

section
variable {rt : Router} {dialTimeout : ℤ} {ctx : Option ℤ} {host : String} {isIP : Bool}
  {port : String} {mark : ℤ} {rest : List ℤ} {self : List Addr} {t : Trace} {r : Piped}

/-- A request that passes the first check is dialed, within a trace of its own. -/
theorem pipe_runs
    (h : (pipe rt dialTimeout ctx host isIP port mark rest self).Runs t r)
    (hallowed : rt.destination.requestedHostAllowed host isIP mark self = true) :
    ∃ dialCtx u dialed stopped,
      (dialEgresses rt dialCtx host isIP port (mark :: rest) self).Runs u dialed ∧
      (∀ x ∈ u, x ∈ t) ∧ dialsOf t = dialsOf u ∧ r = Piped.after stopped dialed := by
  rw [pipe, if_neg (by simp [hallowed])] at h
  obtain ⟨w, v, dialCtx, rfl, hw, hv⟩ := Prog.runs_bind.mp h
  obtain ⟨u, z, dialed, rfl, hu, hz⟩ := Prog.runs_bind.mp hv
  have hquiet : dialsOf w = [] := by
    obtain ⟨now, x, rfl, hx⟩ := Prog.runs_perform_bind.mp hw
    obtain ⟨rfl, -⟩ := Prog.runs_pure.mp hx
    rfl
  have hdials : dialsOf z = [] → dialsOf (w ++ (u ++ z)) = dialsOf u := by
    intro hz'
    rw [dialsOf_append, dialsOf_append, hquiet, hz', List.nil_append, List.append_nil]
  refine ⟨dialCtx, u, dialed, ?_⟩
  cases dialed with
  | ok _ =>
    obtain ⟨rfl, rfl⟩ := Prog.runs_pure.mp hz
    exact ⟨none, hu, by simp +contextual, hdials rfl, rfl⟩
  | error e =>
    obtain ⟨stopped, y, rfl, hy⟩ := Prog.runs_perform_bind.mp hz
    refine ⟨stopped, hu, by simp +contextual, ?_, ?_⟩
    · cases stopped <;> obtain ⟨rfl, -⟩ := Prog.runs_pure.mp hy <;> exact hdials rfl
    · cases stopped <;> obtain ⟨-, rfl⟩ := Prog.runs_pure.mp hy <;> rfl

end

/-! ## An IPv4 literal -/

section
variable {deadline : Option ℤ} {port egress : String} {metrics : Bool} {mark : ℤ}
  {candidates : List Addr} {errs : List Err} {t : Trace} {r : Except Err Unit}

/-- The attempt loop connects through a candidate it dialed. -/
theorem dialEach_connected
    (h : (dialEach deadline port metrics egress mark candidates errs).Runs t (.ok ())) :
    ∃ c ∈ candidates, ∃ d, ⟨.dial mark (joinHostPort c.string port) d, .ok ()⟩ ∈ t := by
  induction candidates generalizing errs t with
  | nil => cases (Prog.runs_pure.mp h).2
  | cons candidate rest ih =>
    rcases dialEach_cons_runs.mp h with ⟨e, -, hr⟩ | ⟨w, attempt, u, hw, rfl, hu⟩
    · cases hr
    · rcases hu with ⟨rfl, -⟩ | ⟨e, z, rfl, hz⟩
      · exact ⟨candidate, List.mem_cons_self, attempt, by simp⟩
      · obtain ⟨c, hc, d, hmem⟩ := ih hz
        exact ⟨c, List.mem_cons_of_mem _ hc, d, by simp [hmem]⟩

/-- The first candidate is dialed unless the context is over. -/
theorem dialEach_first {candidate : Addr} {rest : List Addr}
    (h : (dialEach deadline port metrics egress mark (candidate :: rest) errs).Runs t r) :
    (mark, joinHostPort candidate.string port) ∈ dialsOf t ∨
      ∃ d e, ⟨.ctxErr d, some e⟩ ∈ t := by
  rcases dialEach_cons_runs.mp h with ⟨e, rfl, -⟩ | ⟨w, attempt, u, hw, rfl, hu⟩
  · exact .inr ⟨deadline, e, List.mem_cons_self⟩
  · refine .inl (List.mem_filterMap.mpr ?_)
    rcases hu with ⟨rfl, -⟩ | ⟨e, z, rfl, hz⟩
    · exact ⟨⟨.dial mark (joinHostPort candidate.string port) attempt, .ok ()⟩, by simp, rfl⟩
    · exact ⟨⟨.dial mark (joinHostPort candidate.string port) attempt, .error e⟩, by simp, rfl⟩

end

section
variable {rt : Router} {deadline : Option ℤ} {host port : String} {self : List Addr} {a : BitVec 32}

/-- Every candidate of a literal is the literal. -/
theorem Lookup.literal_candidates {mark : ℤ} {t : Trace} {r : Except Err (List Addr)}
    {candidates : List Addr} (h : Lookup rt deadline host mark self true t r)
    (hparse : parseAddr host = some (.v4 a)) (hr : r = .ok candidates) :
    candidates ≠ [] ∧ ∀ c ∈ candidates, c = .v4 a := by
  cases h with
  | @literal addr sequence hparse' hfamily hsome =>
    cases hr
    obtain rfl : addr = .v4 a := by
      rw [hparse] at hparse'
      exact (Option.some.inj hparse').symm
    refine ⟨hsome, fun c hc => ?_⟩
    obtain ⟨-, b, hb, -, -, rfl⟩ := select_origin _ _ _ _ hc
    rw [List.mem_singleton.mp hb]
    rfl
  | _ => cases hr

/-- A literal the policy allows is found. -/
theorem Lookup.found_of_allowed {mark : ℤ} {t : Trace} {r : Except Err (List Addr)}
    (h : Lookup rt deadline host mark self true t r) (hrt : rt.Built)
    (hparse : parseAddr host = some (.v4 a))
    (hallowed : rt.destination.addressAllowed (.v4 a) mark self = true) :
    ∃ candidates, r = .ok candidates := by
  cases h with
  | literal => exact ⟨_, rfl⟩
  | malformed hnone => simp [hparse] at hnone
  | otherFamily hsome hfamily =>
    rw [hparse] at hsome
    cases hsome
    simp [egressFamilyAllowed, Addr.unmap, Addr.is4] at hfamily
  | literalDenied hsome _ hnone =>
    rw [hparse] at hsome
    cases hsome
    rw [(hrt.selected_eq_nil_iff _ _).mp hnone _ List.mem_cons_self] at hallowed
    cases hallowed

variable {v : Visit}

/-- An egress that allows the literal dials it, unless its context is over. -/
theorem Visit.dials_literal (hv : v.Of rt host true port self) (hrt : rt.Built)
    (hparse : parseAddr host = some (.v4 a))
    (hallowed : rt.destination.addressAllowed (.v4 a) v.mark self = true) :
    (v.mark, joinHostPort (Addr.v4 a).string port) ∈ dialsOf v.trace ∨
      ∃ d e, ⟨.ctxErr d, some e⟩ ∈ v.trace := by
  have hlookup := backendCandidates_lookup hrt hv.lookup
  obtain ⟨candidates, hfound⟩ := hlookup.found_of_allowed hrt hparse hallowed
  obtain ⟨hne, hall⟩ := hlookup.literal_candidates hparse hfound
  obtain ⟨u, hu, hdialing⟩ := hv.attempts_run hrt hfound
  obtain ⟨c, rest, rfl⟩ := List.exists_cons_of_ne_nil hne
  rw [hall c List.mem_cons_self] at hu
  rcases dialEach_first hu with hdial | ⟨d, e, hctx⟩
  · refine .inl ?_
    rw [Visit.trace, hdialing, dialsOf_append, dialsOf_append]
    exact List.mem_append_right _ (List.mem_append_left _ hdial)
  · exact .inr ⟨d, e, by simp [Visit.trace, hdialing, hctx]⟩

theorem Visit.connects_literal (hv : v.Of rt host true port self) (hrt : rt.Built)
    (hparse : parseAddr host = some (.v4 a)) (hok : v.result = .ok ()) :
    ∃ d, ⟨.dial v.mark (joinHostPort (Addr.v4 a).string port) d, .ok ()⟩ ∈ v.trace := by
  cases hfound : v.found with
  | error e =>
    rw [(hv.none_found e hfound).2] at hok
    cases hok
  | ok candidates =>
    obtain ⟨-, hall⟩ := (backendCandidates_lookup hrt hv.lookup).literal_candidates hparse hfound
    obtain ⟨u, hu, hdialing⟩ := hv.attempts_run hrt hfound
    rw [hok] at hu
    obtain ⟨c, hc, d, hmem⟩ := dialEach_connected hu
    rw [hall c hc] at hmem
    exact ⟨d, by simp [Visit.trace, hdialing, hmem]⟩

/-- In the failover order an egress that allows the literal dials it, unless an earlier one
connected or a context was over. -/
theorem Failover.dials_literal {marks : List ℤ} {visits : List Visit} {stop : Option Err}
    {t : Trace} (h : Failover rt deadline host true port self marks visits stop t)
    (hrt : rt.Built) (hparse : parseAddr host = some (.v4 a)) {before after : List ℤ} {mark : ℤ}
    (hmarks : marks = before ++ mark :: after)
    (hallowed : rt.destination.addressAllowed (.v4 a) mark self = true) :
    (mark, joinHostPort (Addr.v4 a).string port) ∈ dialsOf t ∨
      (∃ m ∈ before, ∃ d, ⟨.dial m (joinHostPort (Addr.v4 a).string port) d, .ok ()⟩ ∈ t) ∨
      ∃ d e, ⟨.ctxErr d, some e⟩ ∈ t := by
  induction h generalizing before with
  | exhausted => simp at hmarks
  | stopped m rest e => exact .inr (.inr ⟨deadline, e, List.mem_cons_self⟩)
  | @connected v rest w hv hw hr =>
    cases before with
    | nil =>
      obtain ⟨rfl, -⟩ := List.cons.inj hmarks
      rcases Visit.dials_literal hv hrt hparse hallowed with hdial | ⟨d, e, hctx⟩
      · refine .inl ?_
        show _ ∈ dialsOf (w ++ v.trace)
        rw [dialsOf_append]
        exact List.mem_append_right _ hdial
      · exact .inr (.inr ⟨d, e, by simp [hctx]⟩)
    | cons m before =>
      obtain ⟨rfl, -⟩ := List.cons.inj hmarks
      obtain ⟨d, hmem⟩ := Visit.connects_literal hv hrt hparse hr
      exact .inr (.inl ⟨v.mark, List.mem_cons_self, d, by simp [hmem]⟩)
  | @failed v rest w visits stop t e hv hw hr hrest ih =>
    cases before with
    | nil =>
      obtain ⟨rfl, -⟩ := List.cons.inj hmarks
      rcases Visit.dials_literal hv hrt hparse hallowed with hdial | ⟨d, e, hctx⟩
      · refine .inl ?_
        show _ ∈ dialsOf (w ++ (v.trace ++ t))
        rw [dialsOf_append, dialsOf_append]
        exact List.mem_append_right _ (List.mem_append_left _ hdial)
      · exact .inr (.inr ⟨d, e, by simp [hctx]⟩)
    | cons m before =>
      obtain ⟨rfl, hrest'⟩ := List.cons.inj hmarks
      rcases ih hrest' with hdial | ⟨m, hm, d, hmem⟩ | ⟨d, e, hctx⟩
      · refine .inl ?_
        show _ ∈ dialsOf (w ++ (v.trace ++ t))
        rw [dialsOf_append, dialsOf_append]
        exact List.mem_append_right _ (List.mem_append_right _ hdial)
      · exact .inr (.inl ⟨m, List.mem_cons_of_mem _ hm, d, by simp [hmem]⟩)
      · exact .inr (.inr ⟨d, e, by simp [hctx]⟩)

end

/-- What is asked of a request for an IPv4 literal: it is rejected as denied exactly when every
egress of the order denies the address, and every egress that allows it dials it, unless an
earlier one connects or the budget or the session ends. -/
def DeniedByAll (rt : Router) (a : BitVec 32) (port : String) (marks : List ℤ) (self : List Addr)
    (t : Trace) (r : Piped) : Prop :=
  (r = .rejected .destinationDenied ↔
    ∀ mark ∈ marks, rt.destination.addressAllowed (.v4 a) mark self = false) ∧
  ∀ before mark after, marks = before ++ mark :: after →
    rt.destination.addressAllowed (.v4 a) mark self = true →
    (mark, joinHostPort (Addr.v4 a).string port) ∈ dialsOf t ∨
      (∃ m ∈ before, ∃ d, ⟨.dial m (joinHostPort (Addr.v4 a).string port) d, .ok ()⟩ ∈ t) ∨
      ∃ d e, ⟨.ctxErr d, some e⟩ ∈ t

/-- The first egress speaks for all: the request is treated as it should be exactly when that
egress allows the address or none does. -/
theorem pipe_denied_by_all_iff (rt : Router) (hrt : rt.Built) (dialTimeout : ℤ) (ctx : Option ℤ)
    (host : String) (a : BitVec 32) (hparse : parseAddr host = some (.v4 a)) (port : String)
    (mark : ℤ) (rest : List ℤ) (self : List Addr) {t : Trace} {r : Piped}
    (h : (pipe rt dialTimeout ctx host true port mark rest self).Runs t r)
    (hext : ∀ x ∈ t, external x = true) :
    DeniedByAll rt a port (mark :: rest) self t r ↔
      (rt.destination.addressAllowed (.v4 a) mark self = true ∨
        ∀ m ∈ mark :: rest, rt.destination.addressAllowed (.v4 a) m self = false) := by
  have hrequested : rt.destination.requestedHostAllowed host true mark self =
      rt.destination.addressAllowed (.v4 a) mark self := by
    simp [DestinationPolicy.requestedHostAllowed, hparse]
  cases hfirst : rt.destination.addressAllowed (.v4 a) mark self with
  | false =>
    -- rejected before any other egress is asked
    rw [pipe, if_pos (hrequested.trans hfirst)] at h
    obtain ⟨rfl, rfl⟩ := Prog.runs_pure.mp h
    rw [or_iff_right Bool.false_ne_true]
    refine ⟨fun hall => hall.1.mp rfl, fun hall => ⟨⟨fun _ => hall, fun _ => rfl⟩, ?_⟩⟩
    intro before m after hmarks hallowed
    rw [hall m (by simp [hmarks])] at hallowed
    cases hallowed
  | true =>
    obtain ⟨dialCtx, u, dialed, stopped, hu, hsub, hdials, rfl⟩ :=
      pipe_runs h (hrequested.trans hfirst)
    obtain ⟨visits, ended, hvisits, rfl⟩ := dialEgresses_visits hu
    refine iff_of_true ⟨?_, fun before m after hmarks hallowed => ?_⟩ (.inl rfl)
    · -- a denial after the check would need the first egress to deny
      refine iff_of_false (fun hrejected => ?_) fun hall => ?_
      · cases hout : outcome rt ended visits [] [] with
        | ok _ =>
          rw [hout] at hrejected
          cases hrejected
        | error e =>
          rw [hout] at hrejected
          have hdenied : e.isDenied = true := by
            cases stopped with
            | some _ => cases hrejected
            | none =>
              by_contra hnot
              simp [Piped.after, hnot] at hrejected
          obtain ⟨-, hmap, hall⟩ := (hvisits.isDenied_iff hrt (by simp [hparse])
            (fun x hx => hext x (hsub x hx)) hout).mp hdenied
          obtain ⟨v, hv, hvmark⟩ := List.mem_map.mp (hmap ▸ List.mem_cons_self : mark ∈
            visits.map (·.mark))
          have hv' := hall v hv
          rw [Visit.Denied, DeniedBy, if_pos rfl, hvmark] at hv'
          obtain ⟨addr, haddr, -, hno⟩ := hv'
          rw [hparse] at haddr
          cases haddr
          rw [hfirst] at hno
          cases hno
      · rw [hall mark List.mem_cons_self] at hfirst
        cases hfirst
    · rw [hdials]
      rcases hvisits.dials_literal hrt hparse hmarks hallowed with hdial | ⟨m', hm', d, hmem⟩ |
        ⟨d, e, hctx⟩
      · exact .inl hdial
      · exact .inr (.inl ⟨m', hm', d, hsub _ hmem⟩)
      · exact .inr (.inr ⟨d, e, hsub _ hctx⟩)

/-- A router of two tunnels; only the one at mark 8 has an exception for private addresses. -/
def groupRouter : Router :=
  { sampleRouter with
    destination := ⟨fun mark => if mark = 8 then mustPolicyPrefixes ["10.0.0.0/8"] else []⟩ }

theorem groupRouter_built : groupRouter.Built := ⟨by decide, rfl⟩

/-- Both members are dialed when the one with the exception comes first. -/
theorem pipe_denied_by_all_exception_first :
    ∃ (t : Trace) (r : Piped),
      (pipe groupRouter 10000000000 none "10.1.2.3" true "443" 8 [7] []).Runs t r ∧
      DeniedByAll groupRouter 0x0a010203 "443" [8, 7] [] t r :=
  ⟨_, _, Prog.runs_trace sampleAnswer _ (),
    (pipe_denied_by_all_iff groupRouter groupRouter_built 10000000000 none "10.1.2.3" 0x0a010203
      (by decide +kernel) "443" 8 [7] [] (Prog.runs_trace sampleAnswer _ ())
      (by decide +kernel)).mpr (.inl (by decide +kernel))⟩

/-- When it comes second, the request is rejected as denied though that member allows it. -/
theorem pipe_denied_by_first :
    ¬ ∀ (rt : Router) (dialTimeout : ℤ) (ctx : Option ℤ) (host : String) (a : BitVec 32)
      (port : String) (mark : ℤ) (rest : List ℤ) (self : List Addr) (t : Trace) (r : Piped),
      rt.Built → parseAddr host = some (.v4 a) →
      (pipe rt dialTimeout ctx host true port mark rest self).Runs t r →
      (∀ x ∈ t, external x = true) → DeniedByAll rt a port (mark :: rest) self t r := by
  intro hclaim
  have hcheck : groupRouter.destination.requestedHostAllowed "10.1.2.3" true 7 [] = false := by
    decide +kernel
  have hrun : (pipe groupRouter 10000000000 none "10.1.2.3" true "443" 7 [8] []).Runs []
      (.rejected .destinationDenied) := by
    rw [pipe, if_pos hcheck]
    exact .pure _
  have hall := (hclaim groupRouter 10000000000 none "10.1.2.3" 0x0a010203 "443" 7 [8] [] [] _
    groupRouter_built (by decide +kernel) hrun (by simp)).1.mp rfl 8 (by simp)
  have hallowed : groupRouter.destination.addressAllowed (.v4 0x0a010203) 8 [] = true := by
    decide +kernel
  rw [hallowed] at hall
  cases hall

end SakhtarWg.Proxy
