import SakhtarWg.DialRuns
import SakhtarWg.TunnelResolver

/-!
# The fallback of the tunnel resolver

A server is asked over UDP and, when that timed out or brought only denied addresses, over TCP.
The servers are scanned in order for the first answer worth having. While the context lives, what
a lookup returns is a function of what the exchanges gave.
-/

namespace SakhtarWg
open Netip Program Proxy

/-- What one lookup by the Go resolver gives. -/
abbrev Outcome := Except LookupError (List Addr)

/-! ## The exchanges of a run -/

structure Exchange where
  server : String
  tcp : Bool
  outcome : Outcome

/-- The next outcome of a trace. -/
def nextOutcome : Trace → Option Outcome
  | [] => none
  | ⟨.answer _ _, .ok addrs⟩ :: _ => some (.ok addrs.1)
  | ⟨.answer _ _, .error e⟩ :: _ => some (.error e)
  | _ :: t => nextOutcome t

/-- Each exchange begun in a trace, with the outcome that follows it. -/
def exchangesOf : Trace → List Exchange
  | [] => []
  | ⟨.exchanges server tcp, _⟩ :: t =>
    ((nextOutcome t).map (Exchange.mk server tcp)).toList ++ exchangesOf t
  | _ :: t => exchangesOf t

/-- What was asked of one server. -/
structure Turn where
  server : String
  udp : Outcome
  tcp : Option Outcome

/-- The exchange over TCP that follows an exchange over UDP. -/
def tcpFirst : List Exchange → Option Outcome
  | ⟨_, true, outcome⟩ :: _ => some outcome
  | _ => none

/-- An exchange over UDP begins the turn of a server. -/
def turnsOf : List Exchange → List Turn
  | [] => []
  | ⟨server, false, outcome⟩ :: rest => ⟨server, outcome, tcpFirst rest⟩ :: turnsOf rest
  | ⟨_, true, _⟩ :: rest => turnsOf rest

/-- The turns of the servers in a run. -/
def turns (t : Trace) : List Turn := turnsOf (exchangesOf t)

/-- Commands that belong to no exchange: the context, the clock and the dials. -/
def Aside (t : Trace) : Prop :=
  ∀ x ∈ t, (∃ deadline, x.1 = .ctxErr deadline) ∨ x.1 = .now ∨
    ∃ mark address deadline, x.1 = .dial mark address deadline

theorem exchangesOf_aside {w : Trace} (h : Aside w) (t : Trace) :
    exchangesOf (w ++ t) = exchangesOf t ∧ nextOutcome (w ++ t) = nextOutcome t := by
  induction w with
  | nil => exact ⟨rfl, rfl⟩
  | cons x w ih =>
    obtain ⟨c, a⟩ := x
    have htail := ih fun y hy => h y (List.mem_cons_of_mem _ hy)
    obtain ⟨_, hc⟩ | hc | ⟨_, _, _, hc⟩ := h _ List.mem_cons_self
    all_goals
      change c = _ at hc
      subst hc
      exact htail

namespace TunnelResolver
variable (r : TunnelResolver)

/-! ## The specification -/

/-- The result of a server: over TCP when UDP timed out, and also when UDP brought only denied
addresses and TCP answered. -/
def serverResult (udp tcp : Outcome) : Outcome :=
  match udp, tcp with
  | .error e, _ => if e.timeout then tcp else udp
  | .ok addrs, .ok _ => if r.acceptable addrs then udp else tcp
  | .ok _, .error _ => udp

/-- An acceptable answer, or a name that does not exist: the scan ends. -/
def settles : Outcome → Bool
  | .ok addrs => r.acceptable addrs
  | .error e => e.notFound

def failures (results : List Outcome) : List (LookupError ⊕ Err) :=
  results.filterMap fun
    | .ok _ => none
    | .error e => some (.inl e)

/-- A single outcome as the lookup reports it. -/
def report : Outcome → Except (List (LookupError ⊕ Err)) (List Addr)
  | .ok addrs => .ok addrs
  | .error e => .error [.inl e]

/-- The first result that settles the lookup, else the last answer, else the failures. -/
def fallback (results : List Outcome) : Except (List (LookupError ⊕ Err)) (List Addr) :=
  match results.find? r.settles with
  | some result => report result
  | none =>
    match (results.filterMap Except.toOption).getLast? with
    | some addrs => .ok addrs
    | none => .error (failures results)

/-- What is asked of a server with the given outcomes. -/
def turn (server : String) (assigned : Outcome × Outcome) : Turn where
  server := server
  udp := assigned.1
  tcp := if r.retry assigned.1 then some assigned.2 else none

/-- An answer brings at least one address. -/
def Answers (o : Outcome) : Prop := ∀ addrs, o = .ok addrs → addrs ≠ []

/-- The context has not run out at any of the checks. -/
def Live (t : Trace) : Prop := ∀ deadline e, ⟨.ctxErr deadline, some e⟩ ∉ t

/-- Every exchange of the run gave what is assigned to its server. -/
def Assigned (taken : List Turn) (assigned : List (Outcome × Outcome)) : Prop :=
  ∀ i (hi : i < taken.length), ∃ a, assigned[i]? = some a ∧ taken[i].udp = a.1 ∧
    ∀ tcp, taken[i].tcp = some tcp → tcp = a.2

variable {r}

theorem serverResult_eq_udp {udp : Outcome} (h : r.retry udp = false) (tcp : Outcome) :
    r.serverResult udp tcp = udp := by
  cases udp with
  | error e => simp_all [retry, serverResult]
  | ok addrs => cases tcp <;> simp_all [retry, serverResult]

theorem serverResult_answers {udp tcp : Outcome} (hudp : Answers udp) (htcp : Answers tcp) :
    Answers (r.serverResult udp tcp) := by
  unfold serverResult
  split
  · split
    · exact htcp
    · exact hudp
  · split
    · exact hudp
    · exact htcp
  · exact hudp

theorem Assigned.cons {x : Turn} {xs : List Turn} {assigned : List (Outcome × Outcome)}
    (h : Assigned (x :: xs) assigned) : ∃ a rest, assigned = a :: rest ∧ x.udp = a.1 ∧
      (∀ tcp, x.tcp = some tcp → tcp = a.2) ∧ Assigned xs rest := by
  obtain ⟨a, ha, hudp, htcp⟩ := h 0 (Nat.succ_pos _)
  cases assigned with
  | nil => cases ha
  | cons a' rest =>
    cases ha
    refine ⟨a, rest, rfl, hudp, htcp, fun i hi => ?_⟩
    exact h (i + 1) (Nat.succ_lt_succ hi)

/-! ## One server -/

section
variable {server host : String} {network : LookupNetwork} {deadline : Option ℤ} {t u : Trace}

theorem dialServer_aside {n : ℕ} {x : Unit} (h : (r.dialServer server deadline n).Runs t x) :
    Aside t := by
  induction n generalizing t with
  | zero =>
    obtain ⟨rfl, -⟩ := Prog.runs_pure.mp h
    simp [Aside]
  | succ n ih =>
    obtain ⟨conn, v, rfl, hv⟩ := Prog.runs_perform_bind.mp h
    intro x hx
    rcases List.mem_cons.mp hx with rfl | hx
    · exact .inr (.inr ⟨_, _, _, rfl⟩)
    · exact ih hv x hx

theorem attemptDeadline_aside {n : ℕ} {attempt : Option ℤ}
    (h : (attemptDeadline deadline n).Runs t attempt) : Aside t := fun x hx =>
  .inr (.inl (attemptDeadline_reads h x hx))

theorem exchange_runs {tcp : Bool} {o : Outcome}
    (h : (r.exchange server tcp deadline network host).Runs t o) (u : Trace) :
    exchangesOf (t ++ u) = ⟨server, tcp, o⟩ :: exchangesOf u := by
  obtain ⟨n, v, rfl, hv⟩ := Prog.runs_perform_bind.mp h
  obtain ⟨w, x, _, rfl, hw, hx⟩ := Prog.runs_bind.mp hv
  obtain ⟨answer, y, rfl, hy⟩ := Prog.runs_perform_bind.mp hx
  have haside := dialServer_aside hw
  have hnext : ∀ z : Trace, exchangesOf (⟨.exchanges server tcp, n⟩ :: (w ++ z)) =
      ((nextOutcome z).map (Exchange.mk server tcp)).toList ++ exchangesOf z := by
    intro z
    obtain ⟨hexchanges, hout⟩ := exchangesOf_aside haside z
    rw [exchangesOf, hexchanges, hout]
  rw [List.cons_append, List.append_assoc, hnext]
  cases answer with
  | ok addrs =>
    obtain ⟨rfl, rfl⟩ := Prog.runs_pure.mp hy
    rfl
  | error e =>
    obtain ⟨rfl, rfl⟩ := Prog.runs_pure.mp hy
    rfl

/-- While the context lives, a server is asked over UDP, then over TCP exactly when that is worth
asking again. -/
theorem lookupServer_runs {o : Outcome}
    (h : (r.lookupServer deadline server network host).Runs t o) (hlive : Live t) :
    ∃ udp tcp, o = r.serverResult udp tcp ∧ ∀ u, exchangesOf (t ++ u) =
      ⟨server, false, udp⟩ ::
        ((if r.retry udp then [⟨server, true, tcp⟩] else []) ++ exchangesOf u) := by
  obtain ⟨w, v, slice, rfl, hw, hv⟩ := Prog.runs_bind.mp h
  obtain ⟨x, y, udp, rfl, hx, hy⟩ := Prog.runs_bind.mp hv
  have hfirst : ∀ z, exchangesOf (w ++ (x ++ y) ++ z) = ⟨server, false, udp⟩ ::
      exchangesOf (y ++ z) := by
    intro z
    rw [List.append_assoc, (exchangesOf_aside (attemptDeadline_aside hw) _).1, List.append_assoc,
      exchange_runs hx]
  by_cases hretry : r.retry udp = true
  · rw [if_pos hretry] at hy
    obtain ⟨stop, z, rfl, hz⟩ := Prog.runs_perform_bind.mp hy
    cases stop with
    | some e => exact absurd (by simp) (hlive deadline e)
    | none =>
      obtain ⟨z₁, z₂, tcp, rfl, hz₁, hz₂⟩ := Prog.runs_bind.mp hz
      have hlast : z₂ = [] ∧ o = r.serverResult udp tcp := by
        cases udp with
        | ok addrs =>
          have hdenied : r.acceptable addrs = false := by simpa [retry] using hretry
          cases tcp with
          | ok addrs' =>
            obtain ⟨rfl, rfl⟩ := Prog.runs_pure.mp hz₂
            simp [serverResult, hdenied]
          | error e =>
            -- a failure over TCP does not take a denied answer away
            exact Prog.runs_pure.mp hz₂
        | error e =>
          have htimeout : e.timeout = true := hretry
          have hresult : r.serverResult (.error e) tcp = tcp := if_pos htimeout
          rw [hresult]
          cases tcp <;> exact Prog.runs_pure.mp hz₂
      obtain ⟨rfl, rfl⟩ := hlast
      refine ⟨udp, tcp, rfl, fun u => ?_⟩
      rw [hfirst, if_pos hretry, List.append_nil, List.cons_append, exchangesOf,
        exchange_runs hz₁]
      · rfl
      · simp
  · rw [if_neg hretry] at hy
    obtain ⟨rfl, rfl⟩ := Prog.runs_pure.mp hy
    refine ⟨o, o, ?_, fun u => ?_⟩
    · rw [serverResult_eq_udp (Bool.not_eq_true _ ▸ hretry)]
    · rw [hfirst, if_neg hretry]
      rfl

end

/-! ## The scan -/

section
variable {host : String} {network : LookupNetwork} {deadline : Option ℤ} {t : Trace}
  {res : Except (List (LookupError ⊕ Err)) (List Addr)}

/-- The specification from the middle of the scan. -/
def fallbackFrom (r : TunnelResolver) (errs : List (LookupError ⊕ Err)) (poisoned : List Addr)
    (results : List Outcome) : Except (List (LookupError ⊕ Err)) (List Addr) :=
  match results.find? r.settles with
  | some result => report result
  | none => lookupFrom.conclude (errs ++ failures results)
      ((results.filterMap Except.toOption).getLastD poisoned)

theorem fallbackFrom_start {results : List Outcome} (h : ∀ o ∈ results, Answers o) :
    r.fallbackFrom [] [] results = r.fallback results := by
  unfold fallbackFrom fallback
  cases results.find? r.settles with
  | some o => rfl
  | none =>
    dsimp only
    rw [List.getLastD_eq_getLast?, List.nil_append]
    cases hlast : (results.filterMap Except.toOption).getLast? with
    | none => rfl
    | some addrs =>
      obtain ⟨o, ho, hok⟩ := List.mem_filterMap.mp (List.mem_of_getLast? hlast)
      cases o with
      | error e => cases hok
      | ok addrs' =>
        cases hok
        exact if_pos (h _ ho addrs rfl)

theorem fallbackFrom_cons {errs : List (LookupError ⊕ Err)} {poisoned : List Addr} {o : Outcome}
    {results : List Outcome} (h : r.settles o = false) :
    r.fallbackFrom errs poisoned (o :: results) =
      r.fallbackFrom (errs ++ failures [o]) (o.toOption.getD poisoned) results := by
  have hfailures : errs ++ failures (o :: results) = errs ++ failures [o] ++ failures results := by
    rw [List.append_assoc, failures, failures, failures, ← List.filterMap_append]
    rfl
  have hanswers : ((o :: results).filterMap Except.toOption).getLastD poisoned =
      (results.filterMap Except.toOption).getLastD (o.toOption.getD poisoned) := by
    cases o with
    | ok addrs => exact List.getLastD_cons ..
    | error e => rfl
  rw [fallbackFrom, List.find?_cons_of_neg (by simp [h]), hfailures, hanswers, fallbackFrom]

/-- The scan begins with an exchange over UDP, if with any. -/
theorem lookupFrom_begins {servers : List String} {errs : List (LookupError ⊕ Err)}
    {poisoned : List Addr} (h : (r.lookupFrom deadline network host servers errs poisoned).Runs t res)
    (hlive : Live t) : tcpFirst (exchangesOf t) = none := by
  cases servers with
  | nil =>
    obtain ⟨rfl, -⟩ := Prog.runs_pure.mp h
    rfl
  | cons server rest =>
    obtain ⟨stop, v, rfl, hv⟩ := Prog.runs_perform_bind.mp h
    cases stop with
    | some e => exact absurd List.mem_cons_self (hlive deadline e)
    | none =>
      obtain ⟨w, x, slice, rfl, hw, hx⟩ := Prog.runs_bind.mp hv
      obtain ⟨y, z, o, rfl, hy, -⟩ := Prog.runs_bind.mp hx
      have hlive' : Live y := fun d e hmem => hlive d e (by simp [hmem])
      obtain ⟨udp, tcp, -, hturn⟩ := lookupServer_runs hy hlive'
      have hskip : exchangesOf (⟨.ctxErr deadline, none⟩ :: (w ++ (y ++ z))) =
          exchangesOf (y ++ z) := (exchangesOf_aside (attemptDeadline_aside hw) _).1
      rw [hskip, hturn]
      rfl

/-- One round of the scan, while the context lives. -/
theorem lookupFrom_cons_runs {server : String} {rest : List String}
    {errs : List (LookupError ⊕ Err)} {poisoned : List Addr}
    (h : (r.lookupFrom deadline network host (server :: rest) errs poisoned).Runs t res)
    (hlive : Live t) :
    ∃ a : Outcome × Outcome,
      (r.settles (r.serverResult a.1 a.2) = true ∧ turns t = [r.turn server a] ∧
        res = report (r.serverResult a.1 a.2)) ∨
      (r.settles (r.serverResult a.1 a.2) = false ∧
        ∃ u, turns t = r.turn server a :: turns u ∧ Live u ∧
          (r.lookupFrom deadline network host rest (errs ++ failures [r.serverResult a.1 a.2])
            ((r.serverResult a.1 a.2).toOption.getD poisoned)).Runs u res) := by
  obtain ⟨stop, v, rfl, hv⟩ := Prog.runs_perform_bind.mp h
  cases stop with
  | some e => exact absurd List.mem_cons_self (hlive deadline e)
  | none =>
    obtain ⟨w, x, slice, rfl, hw, hx⟩ := Prog.runs_bind.mp hv
    obtain ⟨y, z, o, rfl, hy, hz⟩ := Prog.runs_bind.mp hx
    have hlive' : Live y := fun d e hmem => hlive d e (by simp [hmem])
    have hlive'' : Live z := fun d e hmem => hlive d e (by simp [hmem])
    obtain ⟨udp, tcp, rfl, hturn⟩ := lookupServer_runs hy hlive'
    have hturns : tcpFirst (exchangesOf z) = none →
        turns (⟨.ctxErr deadline, none⟩ :: (w ++ (y ++ z))) =
          r.turn server (udp, tcp) :: turns z := by
      intro hbegins
      have hskip : exchangesOf (⟨.ctxErr deadline, none⟩ :: (w ++ (y ++ z))) =
          exchangesOf (y ++ z) := (exchangesOf_aside (attemptDeadline_aside hw) _).1
      rw [turns, hskip, hturn, turnsOf, turn]
      by_cases hretry : r.retry udp = true
      · simp only [if_pos hretry]
        rfl
      · simp only [if_neg hretry, List.nil_append, hbegins]
        rfl
    refine ⟨(udp, tcp), ?_⟩
    dsimp only
    generalize r.serverResult udp tcp = o at hz ⊢
    cases hsettles : r.settles o with
    | true =>
      refine .inl ⟨rfl, ?_⟩
      have hlast : z = [] ∧ res = report o := by
        cases o with
        | ok addrs =>
          have hok : r.acceptable addrs = true := hsettles
          simp only [hok, if_true] at hz
          exact Prog.runs_pure.mp hz
        | error e =>
          have hnone : e.notFound = true := hsettles
          simp only [hnone, if_true] at hz
          exact Prog.runs_pure.mp hz
      obtain ⟨rfl, rfl⟩ := hlast
      exact ⟨hturns rfl, rfl⟩
    | false =>
      refine .inr ⟨rfl, z, ?_⟩
      have hrest : (r.lookupFrom deadline network host rest (errs ++ failures [o])
          (o.toOption.getD poisoned)).Runs z res := by
        cases o with
        | ok addrs =>
          have hdenied : r.acceptable addrs = false := hsettles
          simp only [hdenied, Bool.false_eq_true, if_false] at hz
          rw [failures, List.filterMap_cons_none rfl, List.filterMap_nil, List.append_nil]
          exact hz
        | error e =>
          have hother : e.notFound = false := hsettles
          simp only [hother, Bool.false_eq_true, if_false] at hz
          exact hz
      exact ⟨hturns (lookupFrom_begins hrest hlive''), hlive'', hrest⟩

theorem lookupFrom_runs {servers : List String} {assigned : List (Outcome × Outcome)}
    {errs : List (LookupError ⊕ Err)} {poisoned : List Addr}
    (hlength : assigned.length = servers.length)
    (h : (r.lookupFrom deadline network host servers errs poisoned).Runs t res)
    (hlive : Live t) (hassigned : Assigned (turns t) assigned) :
    turns t <+: List.zipWith r.turn servers assigned ∧
      res = r.fallbackFrom errs poisoned (assigned.map fun a => r.serverResult a.1 a.2) := by
  induction servers generalizing assigned errs poisoned t with
  | nil =>
    obtain ⟨rfl, rfl⟩ := Prog.runs_pure.mp h
    obtain rfl := List.length_eq_zero_iff.mp hlength
    exact ⟨ List.nil_prefix, by simp [fallbackFrom, failures]⟩
  | cons server rest ih =>
    obtain ⟨a, hround⟩ := lookupFrom_cons_runs h hlive
    have hsame : ∀ a' : Outcome × Outcome, (r.turn server a).udp = a'.1 →
        (∀ tcp, (r.turn server a).tcp = some tcp → tcp = a'.2) →
        r.turn server a = r.turn server a' ∧
          r.serverResult a.1 a.2 = r.serverResult a'.1 a'.2 := by
      rintro ⟨udp', tcp'⟩ rfl htcp
      by_cases hretry : r.retry a.1 = true
      · obtain rfl : a.2 = tcp' := htcp a.2 (if_pos hretry)
        exact ⟨rfl, rfl⟩
      · refine ⟨by simp only [turn, if_neg hretry], ?_⟩
        rw [Bool.not_eq_true] at hretry
        rw [serverResult_eq_udp hretry]
        exact (serverResult_eq_udp hretry tcp').symm
    rcases hround with ⟨hsettles, hturns, rfl⟩ | ⟨hother, u, hturns, hu, hrest⟩
    · rw [hturns] at hassigned ⊢
      obtain ⟨a', rest', rfl, hudp, htcp, -⟩ := hassigned.cons
      obtain ⟨hturn, hresult⟩ := hsame a' hudp htcp
      rw [hresult] at hsettles ⊢
      refine ⟨hturn ▸ List.prefix_append _ _, ?_⟩
      rw [fallbackFrom, List.map_cons, List.find?_cons_of_pos hsettles]
    · rw [hturns] at hassigned ⊢
      obtain ⟨a', rest', rfl, hudp, htcp, hassigned'⟩ := hassigned.cons
      obtain ⟨hturn, hresult⟩ := hsame a' hudp htcp
      rw [hresult] at hother hrest
      obtain ⟨hinit, rfl⟩ := ih (Nat.succ.inj hlength) hrest hu hassigned'
      refine ⟨?_, ?_⟩
      · rw [List.zipWith_cons_cons, hturn, List.prefix_cons_inj]
        exact hinit
      · rw [List.map_cons, fallbackFrom_cons hother]

/-- An exchange of a turn that brought an acceptable answer settles the lookup. -/
theorem settles_of_acceptable {server : String} {a : Outcome × Outcome} {answer : List Addr}
    (hmade : (r.turn server a).udp = .ok answer ∨ (r.turn server a).tcp = some (.ok answer))
    (hok : r.acceptable answer = true) : r.settles (r.serverResult a.1 a.2) = true := by
  obtain ⟨udp, tcp⟩ := a
  rcases hmade with rfl | htcp
  · rw [serverResult_eq_udp (by simp [retry, hok])]
    exact hok
  · -- the exchange over TCP was made, so its answer replaces what came over UDP
    obtain ⟨hretry, rfl⟩ : r.retry udp = true ∧ tcp = .ok answer := by
      simpa [turn] using htcp
    cases udp with
    | error e =>
      have htimeout : e.timeout = true := hretry
      simpa [serverResult, settles, htimeout] using hok
    | ok addrs =>
      have hdenied : r.acceptable addrs = false := by simpa [retry] using hretry
      simpa [serverResult, settles, hdenied] using hok

theorem fallback_denied {results : List Outcome} {addrs : List Addr}
    (h : r.fallback results = .ok addrs) (hdenied : r.acceptable addrs = false) :
    ∀ o ∈ results, r.settles o = false := by
  unfold fallback at h
  split at h
  · rename_i o ho
    have hsettles := List.find?_some ho
    cases o with
    | ok addrs' =>
      cases h
      rw [settles, hdenied] at hsettles
      cases hsettles
    | error e => cases h
  · rename_i hnone
    intro o ho
    simpa using List.find?_eq_none.mp hnone o ho

theorem fallback_ne_nil {results : List Outcome} (h : results ≠ []) :
    r.fallback results ≠ .error [] := by
  unfold fallback
  split
  · rename_i o _
    cases o <;> simp [report]
  · split
    · simp
    · rename_i hnone
      obtain ⟨o, rest, rfl⟩ := List.exists_cons_of_ne_nil h
      cases o with
      | ok addrs => simp [Except.toOption] at hnone
      | error e => simp [failures]

/-- While the context lives, a lookup returns what its specification makes of the outcomes assigned
to the servers, and asks no server out of turn. A denied answer is returned only when no exchange
that was made brought an acceptable one. -/
theorem lookupNetIP_eq_fallback (r : TunnelResolver) (hservers : r.servers ≠ [])
    (assigned : List (Outcome × Outcome)) (hlength : assigned.length = r.servers.length)
    (hanswers : ∀ a ∈ assigned, Answers a.1 ∧ Answers a.2)
    (deadline : Option ℤ) (network : LookupNetwork) (host : String) (t : Trace)
    (res : Except (List (LookupError ⊕ Err)) (List Addr))
    (h : (r.lookupNetIP deadline network host).Runs t res) (hlive : Live t)
    (hassigned : Assigned (turns t) assigned) :
    res = r.fallback (assigned.map fun a => r.serverResult a.1 a.2) ∧ res ≠ .error [] ∧
      turns t <+: List.zipWith r.turn r.servers assigned ∧
      ∀ addrs, res = .ok addrs → r.acceptable addrs = false →
        ∀ x ∈ turns t, ∀ answer, x.udp = .ok answer ∨ x.tcp = some (.ok answer) →
          r.acceptable answer = false := by
  obtain ⟨now, u, rfl, hu⟩ := Prog.runs_perform_bind.mp h
  have hlive' : Live u := fun d e hmem => hlive d e (List.mem_cons_of_mem _ hmem)
  obtain ⟨hturns, hres⟩ := lookupFrom_runs hlength hu hlive' hassigned
  rw [fallbackFrom_start] at hres
  · refine ⟨hres, ?_, hturns, ?_⟩
    · rw [hres]
      refine fallback_ne_nil ?_
      simpa [← List.length_eq_zero_iff, hlength] using hservers
    · intro addrs hok hdenied x hx answer hmade
      obtain ⟨server, a, ha, rfl⟩ : ∃ server a, a ∈ assigned ∧ x = r.turn server a := by
        obtain ⟨i, hi, rfl⟩ := List.mem_iff_getElem.mp (hturns.subset hx)
        rw [List.getElem_zipWith]
        exact ⟨_, _, List.getElem_mem _, rfl⟩
      have hopen := fallback_denied (hres ▸ hok) hdenied _ (List.mem_map_of_mem ha)
      by_contra hacceptable
      rw [Bool.not_eq_false] at hacceptable
      rw [settles_of_acceptable hmade hacceptable] at hopen
      cases hopen
  · intro o ho
    obtain ⟨a, ha, rfl⟩ := List.mem_map.mp ho
    exact serverResult_answers (hanswers a ha).1 (hanswers a ha).2

end

/-- Two servers, and one address that is denied. -/
def poisonedResolver : TunnelResolver where
  servers := ["192.0.2.53:53", "198.51.100.53:53"]
  mark := 100
  timeout := 5000000000
  allowed addr := addr ≠ .v4 0x0a000001

/-- The first server is poisoned over UDP and denies the name over TCP, the second times out. -/
def poisonedOutcomes : List (Outcome × Outcome) :=
  [(.ok [.v4 0x0a000001], .error ⟨false, true⟩), (.error ⟨true, false⟩, .error ⟨true, false⟩)]

/-- A network in which these are the outcomes, counting the answers it has given. -/
def poisonedNetwork : (c : Env) → ℕ → c.Response × ℕ
  | .ctxErr _, n => (none, n)
  | .now, n => (0, n)
  | .resolve _ _ _, n => (.error (.text "unused"), n)
  | .invalidate _ _, n => ((), n)
  | .sequence, n => (0, n)
  | .dial _ _ _, n => (.ok (), n)
  | .record _ _, n => ((), n)
  | .exchanges _ _, n => (1, n)
  | .answer _ _, 0 => (.ok ⟨[.v4 0x0a000001], by simp [Addr.unmap, Addr.is4]⟩, 1)
  | .answer _ _, 1 => (.error ⟨false, true⟩, 2)
  | .answer _ _, n => (.error ⟨true, false⟩, n + 1)

/-- The denied answer is handed on. -/
theorem lookupNetIP_eq_fallback_poisoned :
    ((poisonedResolver.lookupNetIP none .ip "example.com").trace poisonedNetwork 0).2 =
        poisonedResolver.fallback
          (poisonedOutcomes.map fun a => poisonedResolver.serverResult a.1 a.2) ∧
      ((poisonedResolver.lookupNetIP none .ip "example.com").trace poisonedNetwork 0).2 =
        .ok [.v4 0x0a000001] := by
  refine ⟨(lookupNetIP_eq_fallback poisonedResolver (by simp [poisonedResolver]) poisonedOutcomes
    rfl ?_ none .ip "example.com" _ _ (Prog.runs_trace poisonedNetwork _ 0) ?_ ?_).1, rfl⟩
  · simp [poisonedOutcomes, Answers]
  · intro deadline e hmem
    obtain ⟨n, hn⟩ := Prog.answered_of_mem_trace poisonedNetwork hmem
    cases hn
  · intro i hi
    match i, hi with
    | 0, _ => exact ⟨_, rfl, rfl, fun tcp htcp => (Option.some.inj htcp).symm⟩
    | 1, _ => exact ⟨_, rfl, rfl, fun tcp htcp => (Option.some.inj htcp).symm⟩

end TunnelResolver
end SakhtarWg
