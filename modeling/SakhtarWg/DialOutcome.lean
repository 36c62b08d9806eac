import SakhtarWg.AddrText
import SakhtarWg.DialRuns
import SakhtarWg.SelectOrder

/-!
# How dialing fails

An egress that gave no connection either denied the destination, or never had a candidate, or
failed to dial. The failover loop reports a denial only when every egress denied, and the cached
answer of a name is dropped after its candidates failed, or after the context ended among them.
-/

namespace SakhtarWg.Proxy
open Netip Program

/-! ## Dropping an answer -/

section
variable {rt : Router} {deadline : Option ℤ} {host : String} {mark : ℤ} {self : List Addr}
  {isIP : Bool} {t : Trace} {candidates : List Addr}

/-- A search that finds candidates drops nothing and finds no more than the cap. -/
theorem Lookup.found {r : Except Err (List Addr)}
    (h : Lookup rt deadline host mark self isIP t r) (hr : r = .ok candidates) :
    (∀ m n, ⟨.invalidate m n, ()⟩ ∉ t) ∧ candidates.length ≤ rt.selector.maxAttempts.toNat := by
  cases h with
  | literal hparse hfamily hsome =>
    cases hr
    exact ⟨by simp, select_length _ _ _ _⟩
  | answer hrcode hsome =>
    cases hr
    exact ⟨by simp, select_length _ _ _ _⟩
  | _ => cases hr

theorem Lookup.no_ctxErr {r : Except Err (List Addr)}
    (h : Lookup rt deadline host mark self isIP t r) (d : Option ℤ) (e : Option Err) :
    ⟨.ctxErr d, e⟩ ∉ t := by
  cases h <;> simp

end

/-- Dialed through the egress, and the dial returned an error. -/
def FailedDial (t : Trace) (mark : ℤ) (address : String) : Prop :=
  ∃ attempt e, ⟨.dial mark address attempt, .error e⟩ ∈ t

section
variable {deadline : Option ℤ} {port egress : String} {metrics : Bool} {mark : ℤ}
  {candidates : List Addr} {errs : List Err} {t : Trace} {r : Except Err Unit}

theorem mem_recorded {metrics success : Bool} {egress : String} {x : Sigma Env.Response}
    (h : x ∈ recorded metrics success egress) : x.1 = .record success egress := by
  cases metrics
  · cases h
  · rw [List.mem_singleton.mp h]

/-- The attempt loop drops nothing. -/
theorem dialEach_no_invalidate
    (h : (dialEach deadline port metrics egress mark candidates errs).Runs t r) :
    ∀ m n, ⟨.invalidate m n, ()⟩ ∉ t := by
  intro m n
  induction candidates generalizing errs t with
  | nil =>
    obtain ⟨rfl, -⟩ := Prog.runs_pure.mp h
    simp
  | cons candidate rest ih =>
    rcases dialEach_cons_runs.mp h with ⟨e, rfl, -⟩ | ⟨w, attempt, u, hw, rfl, hu⟩
    · simp
    · have hw' : ⟨.invalidate m n, ()⟩ ∉ w := fun hmem => by
        cases attemptDeadline_reads hw _ hmem
      have hrec : ∀ s, ⟨.invalidate m n, ()⟩ ∉ recorded metrics s egress := fun s hmem => by
        cases mem_recorded hmem
      rcases hu with ⟨rfl, -⟩ | ⟨e, z, rfl, hz⟩
      · simp [hw', hrec]
      · simp [hw', hrec, ih hz]

/-- Without a context error the loop returns no connection only after every candidate failed. -/
theorem dialEach_failed
    (h : (dialEach deadline port metrics egress mark candidates errs).Runs t r)
    (hr : r ≠ .ok ()) (hctx : ∀ e, ⟨.ctxErr deadline, some e⟩ ∉ t) :
    ∀ a ∈ candidates, FailedDial t mark (joinHostPort a.string port) := by
  induction candidates generalizing errs t with
  | nil => simp
  | cons candidate rest ih =>
    rcases dialEach_cons_runs.mp h with ⟨e, rfl, -⟩ | ⟨w, attempt, u, hw, rfl, hu⟩
    · exact absurd List.mem_cons_self (hctx e)
    · rcases hu with ⟨-, rfl⟩ | ⟨e, z, rfl, hz⟩
      · exact absurd rfl hr
      · have hrest := ih hz fun e' hmem => hctx e' (by simp [hmem])
        intro a ha
        rcases List.mem_cons.mp ha with rfl | ha
        · exact ⟨attempt, e, by simp⟩
        · obtain ⟨attempt', e', hmem⟩ := hrest a ha
          exact ⟨attempt', e', by simp [hmem]⟩

/-- A context error ends the loop with a candidate left. -/
theorem dialEach_stopped
    (h : (dialEach deadline port metrics egress mark candidates errs).Runs t r) {e : Err}
    (hctx : ⟨.ctxErr deadline, some e⟩ ∈ t) :
    r ≠ .ok () ∧ ∃ k < candidates.length,
      dialsOf t = dialsThrough mark port (candidates.take k) := by
  induction candidates generalizing errs t with
  | nil =>
    obtain ⟨rfl, -⟩ := Prog.runs_pure.mp h
    cases hctx
  | cons candidate rest ih =>
    rcases dialEach_cons_runs.mp h with ⟨e', rfl, rfl⟩ | ⟨w, attempt, u, hw, rfl, hu⟩
    · exact ⟨by simp, 0, by simp, rfl⟩
    · have hquiet := attemptDeadline_quiet _ _ w _ hw
      have hw' : ⟨.ctxErr deadline, some e⟩ ∉ w := fun hmem => by
        cases attemptDeadline_reads hw _ hmem
      have hrec : ∀ s, ⟨.ctxErr deadline, some e⟩ ∉ recorded metrics s egress := fun s hmem => by
        cases mem_recorded hmem
      rcases hu with ⟨rfl, -⟩ | ⟨e', z, rfl, hz⟩
      · simp [hw', hrec] at hctx
      · have hmem : ⟨.ctxErr deadline, some e⟩ ∈ z := by simpa [hw', hrec] using hctx
        obtain ⟨hne, k, hk, hdials⟩ := ih hz hmem
        refine ⟨hne, k + 1, by simpa using hk, ?_⟩
        show dialsOf (w ++ _ :: (recorded _ _ _ ++ z)) = _
        rw [dialsOf_append, hquiet]
        show _ :: dialsOf (recorded _ _ _ ++ z) = _
        rw [dialsOf_append, recorded_quiet, hdials]
        rfl

end

/-- Different dialable addresses are dialed under different names. -/
theorem joinHostPort_injective {rt : Router} {self : List Addr} {mark : ℤ} {port : String}
    {a b : Addr} (ha : Dialable rt self mark a) (hb : Dialable rt self mark b)
    (h : joinHostPort a.string port = joinHostPort b.string port) : a = b := by
  have hreads : ∀ {x : Addr}, Dialable rt self mark x → parseAddr x.string = some x := by
    rintro x ⟨hvalid, hzone, hmapped, -, -⟩
    exact parseAddr_string hvalid hzone hmapped
  have hparse := hreads ha
  have hparse' := hreads hb
  have hsame : a.string = b.string → a = b := by
    intro hstring
    rw [hstring, hparse'] at hparse
    exact (Option.some.inj hparse).symm
  -- an address with a colon is bracketed, and one without does not begin with a bracket
  have hmixed : ∀ {x : Addr}, Dialable rt self mark x → ':' ∉ x.string.toList →
      ∀ l, x.string.toList ++ ':' :: port.toList ≠ '[' :: l := by
    intro x hx hcolon l heq
    have h4 := (parseAddr_is4 (hreads hx)).mpr hcolon
    cases x with
    | v4 v =>
      have hopen : '[' ∉ (formatIPv4 v).toList := not_mem_formatIPv4 v _ (by decide) (by decide)
      cases htext : (formatIPv4 v).toList with
      | nil => simp [Addr.string, htext] at heq
      | cons c rest =>
        rw [htext] at hopen
        simp only [Addr.string, htext, List.cons_append, List.cons.injEq] at heq
        exact hopen (by simp [heq.1])
    | _ => cases h4
  have hlist := congrArg String.toList h
  unfold joinHostPort at hlist
  split at hlist
  · rename_i hca
    split at hlist
    · apply hsame
      rw [← String.toList_inj]
      simpa using hlist
    · rename_i hcb
      refine absurd ?_ (hmixed hb hcb (a.string.toList ++ ']' :: ':' :: port.toList))
      simpa using hlist.symm
  · rename_i hca
    split at hlist
    · rename_i hcb
      refine absurd ?_ (hmixed ha hca (b.string.toList ++ ']' :: ':' :: port.toList))
      simpa using hlist
    · apply hsame
      rw [← String.toList_inj]
      simpa using hlist

/-- The candidates selected for the egress. -/
def Visit.candidates (v : Visit) : List Addr :=
  match v.found with
  | .ok candidates => candidates
  | .error _ => []

theorem failedDial_mem_dialsOf {t : Trace} {mark : ℤ} {address : String}
    (h : FailedDial t mark address) : (mark, address) ∈ dialsOf t := by
  obtain ⟨attempt, e, hmem⟩ := h
  exact List.mem_filterMap.mpr ⟨_, hmem, rfl⟩

section
variable {rt : Router} {host : String} {isIP : Bool} {port : String} {self : List Addr} {v : Visit}

/-- Dropping the answer was justified: every candidate was dialed and failed. -/
def Visit.DropJustified (host port : String) (v : Visit) : Prop :=
  ⟨.invalidate v.mark host, ()⟩ ∈ v.trace →
    ∀ a ∈ v.candidates, FailedDial v.trace v.mark (joinHostPort a.string port)

/-- The attempts of a built router are all its candidates. -/
theorem Visit.Of.attempts_run (hv : v.Of rt host isIP port self) (hrt : rt.Built)
    {candidates : List Addr} (hfound : v.found = .ok candidates) :
    ∃ u, (dialEach v.deadline port true (rt.egressName v.mark) v.mark candidates []).Runs u
      v.result ∧ v.dialing = u ++ droppedAfter isIP v.mark host v.result := by
  have hcap := hrt.cap_pos
  have hlen := ((backendCandidates_lookup hrt hv.lookup).found hfound).2
  obtain ⟨u, hu, hdialing⟩ := dialFound_runs.mp (hv.dialing candidates hfound)
  rw [hrt.cap_eq] at hlen
  rw [dialCandidates, if_neg (by omega), List.take_of_length_le hlen] at hu
  exact ⟨u, hu, hdialing⟩

theorem Visit.dropJustified_iff (hv : v.Of rt host isIP port self) (hrt : rt.Built) :
    v.DropJustified host port ↔
      (isIP = false → ∀ e, ⟨.ctxErr v.deadline, some e⟩ ∉ v.trace) := by
  have hlookup := backendCandidates_lookup hrt hv.lookup
  cases hfound : v.found with
  | error e =>
    -- no candidate, and no context check
    have hnone : v.candidates = [] := by rw [Visit.candidates, hfound]
    have htrace : v.trace = v.lookup := by
      rw [Visit.trace, (hv.none_found e hfound).1, List.append_nil]
    refine ⟨fun _ _ e => ?_, fun _ _ => by simp [hnone]⟩
    rw [htrace]
    exact hlookup.no_ctxErr _ _
  | ok candidates =>
    have hsome : v.candidates = candidates := by rw [Visit.candidates, hfound]
    obtain ⟨u, hu, hdialing⟩ := hv.attempts_run hrt hfound
    have hctx : ∀ e, ⟨.ctxErr v.deadline, some e⟩ ∈ v.trace ↔
        ⟨.ctxErr v.deadline, some e⟩ ∈ u := by
      intro e
      have hdropped : ⟨.ctxErr v.deadline, some e⟩ ∉ droppedAfter isIP v.mark host v.result := by
        cases v.result <;> cases isIP <;> simp [droppedAfter]
      simp [Visit.trace, hdialing, hlookup.no_ctxErr, hdropped]
    have hdrop : ⟨.invalidate v.mark host, ()⟩ ∈ v.trace ↔ isIP = false ∧ v.result ≠ .ok () := by
      have hinv := (hlookup.found hfound).1 v.mark host
      have hinv' := dialEach_no_invalidate hu v.mark host
      rw [Visit.trace, hdialing]
      cases v.result <;> cases isIP <;> simp [droppedAfter, hinv, hinv']
    rw [Visit.DropJustified, hdrop, hsome]
    constructor
    · intro hjust hip e he
      obtain ⟨hne, k, hk, hdials⟩ := dialEach_stopped hu ((hctx e).mp he)
      -- the candidate after the last dialed one was not dialed
      obtain ⟨hquiet, hcandidates⟩ := backendCandidates_runs hv.lookup
      obtain ⟨hnodup, hdialable⟩ := hcandidates candidates hfound
      have hmem := failedDial_mem_dialsOf (hjust ⟨hip, hne⟩ _ (List.getElem_mem hk))
      have hdropped : dialsOf (droppedAfter isIP v.mark host v.result) = [] :=
        droppedAfter_quiet _ _ _ _
      rw [Visit.trace, hdialing, dialsOf_append, dialsOf_append, hquiet, hdropped, hdials,
        List.nil_append, List.append_nil, dialsThrough] at hmem
      obtain ⟨a, ha, haddr⟩ := List.mem_map.mp hmem
      have hsub := List.mem_of_mem_take ha
      have heq := joinHostPort_injective (hdialable a hsub)
        (hdialable _ (List.getElem_mem hk)) (congrArg Prod.snd haddr)
      obtain ⟨i, hi, hai⟩ := List.mem_iff_getElem.mp ha
      rw [List.getElem_take, heq] at hai
      have hik := hnodup.getElem_inj_iff.mp hai
      rw [List.length_take] at hi
      omega
    · rintro hcond ⟨hip, hne⟩ a ha
      obtain ⟨attempt, e, hmem⟩ :=
        dialEach_failed hu hne (fun e he => hcond hip e ((hctx e).mpr he)) a ha
      exact ⟨attempt, e, by simp [Visit.trace, hdialing, hmem]⟩

end

/-- An invalidation of the host means that every candidate of its answer failed, exactly when the
context reported no error among the attempts. -/
theorem dialBackend_drop_justified_iff (rt : Router) (hrt : rt.Built) (deadline : Option ℤ)
    (host : String) (isIP : Bool) (port : String) (mark : ℤ) (self : List Addr) {t : Trace}
    {r : Except Err Unit} (h : (dialBackend rt deadline host isIP port mark self).Runs t r) :
    ∃ v : Visit, v.Of rt host isIP port self ∧ v.mark = mark ∧ v.deadline = deadline ∧
      v.trace = t ∧ v.result = r ∧
      ((⟨.invalidate mark host, ()⟩ ∈ t →
          ∀ a ∈ v.candidates, FailedDial t mark (joinHostPort a.string port)) ↔
        (isIP = false → ∀ e, ⟨.ctxErr deadline, some e⟩ ∉ t)) := by
  obtain ⟨v, hv, rfl, rfl, rfl, rfl⟩ := dialBackend_runs_iff.mp h
  exact ⟨v, hv, rfl, rfl, rfl, rfl, Visit.dropJustified_iff hv hrt⟩

/-- The errors a context reported. -/
def contextErrors (deadline : Option ℤ) (t : Trace) : List Err :=
  t.filterMap fun
    | ⟨.ctxErr d, some e⟩ => if d = deadline then some e else none
    | _ => none

theorem mem_contextErrors {deadline : Option ℤ} {t : Trace} {e : Err} :
    e ∈ contextErrors deadline t ↔ ⟨.ctxErr deadline, some e⟩ ∈ t := by
  rw [contextErrors, List.mem_filterMap]
  constructor
  · rintro ⟨⟨c, r⟩, hmem, hx⟩
    cases c with
    | ctxErr d =>
      cases r with
      | none => cases hx
      | some e' =>
        dsimp only at hx
        split at hx
        · rename_i hd
          cases hx
          rwa [← hd]
        · cases hx
    | _ => cases hx
  · intro hmem
    exact ⟨_, hmem, if_pos rfl⟩

theorem sampleRouter_built : sampleRouter.Built := ⟨by decide, rfl⟩

/-- Every candidate of the answer fails, and the answer is dropped. -/
theorem dialBackend_drop_all_failed :
    ∃ (t : Trace) (r : Except Err Unit),
      (dialBackend sampleRouter none "example.com" false "443" 7 []).Runs t r ∧
      dialsOf t = [(7, "192.0.1.1:443"), (7, "192.0.1.2:443")] ∧
      ∃ v : Visit, v.trace = t ∧ (⟨.invalidate 7 "example.com", ()⟩ ∈ t →
        ∀ a ∈ v.candidates, FailedDial t 7 (joinHostPort a.string "443")) := by
  have hrun := Prog.runs_trace sampleAnswer
    (dialBackend sampleRouter none "example.com" false "443" 7 []) ()
  obtain ⟨v, -, -, -, htrace, -, hiff⟩ := dialBackend_drop_justified_iff sampleRouter
    sampleRouter_built none "example.com" false "443" 7 [] hrun
  have hnone : (contextErrors none (Prog.trace sampleAnswer (dialBackend sampleRouter none
      "example.com" false "443" 7 []) ()).1).length = 0 := by
    decide +kernel
  refine ⟨_, _, hrun, by decide +kernel, v, htrace, hiff.mpr fun _ e he => ?_⟩
  rw [← mem_contextErrors, List.length_eq_zero_iff.mp hnone] at he
  cases he

/-- The environment of `sampleAnswer` whose context is cancelled after the first check. -/
def cancelledAnswer : (e : Env) → ℕ → e.Response × ℕ
  | .ctxErr _, checks => (if checks = 0 then none else some (.text "context canceled"), checks + 1)
  | e, checks => ((sampleAnswer e ()).1, checks)

/-- The session is cancelled after the first of two candidates failed: the second was never
dialed, and the answer is dropped. -/
theorem dialBackend_drop_unjustified :
    ¬ ∀ (rt : Router) (deadline : Option ℤ) (host : String) (isIP : Bool) (port : String)
      (mark : ℤ) (self : List Addr) (t : Trace) (r : Except Err Unit), rt.Built →
      (dialBackend rt deadline host isIP port mark self).Runs t r →
      ∃ v : Visit, v.Of rt host isIP port self ∧ v.mark = mark ∧ v.deadline = deadline ∧
        v.trace = t ∧ v.result = r ∧ (⟨.invalidate mark host, ()⟩ ∈ t →
          ∀ a ∈ v.candidates, FailedDial t mark (joinHostPort a.string port)) := by
  intro hclaim
  have hbroken : (contextErrors none (Prog.trace cancelledAnswer (dialBackend sampleRouter none
      "example.com" false "443" 7 []) 0).1).length = 1 := by
    decide +kernel
  obtain ⟨e, he⟩ := List.length_eq_one_iff.mp hbroken
  obtain ⟨v, hv, hmark, hdeadline, htrace, -, hjust⟩ := hclaim sampleRouter none "example.com"
    false "443" 7 [] _ _ sampleRouter_built (Prog.runs_trace cancelledAnswer _ 0)
  have hmem : ⟨.ctxErr none, some e⟩ ∈ v.trace := by
    rw [htrace, ← mem_contextErrors, he]
    exact List.mem_singleton_self e
  have hdrop : v.DropJustified "example.com" "443" := by
    rw [Visit.DropJustified, hmark, htrace]
    exact hjust
  exact (Visit.dropJustified_iff hv sampleRouter_built).mp hdrop rfl e (hdeadline ▸ hmem)

/-! ## Denials -/

/-- Errors that come from outside never wrap a denial. -/
def external : Sigma Env.Response → Bool
  | ⟨.ctxErr _, some e⟩ => !e.isDenied
  | ⟨.resolve _ _ _, .error e⟩ => !e.isDenied
  | ⟨.dial _ _ _, .error e⟩ => !e.isDenied
  | _ => true

theorem isDenied_join (es : List Err) : (Err.join es).isDenied = es.any Err.isDenied := by
  show Err.isDenied.anyDenied es = _
  induction es with
  | nil => rfl
  | cons e es ih => rw [Err.isDenied.anyDenied, ih, List.any_cons]

@[simp] theorem isDenied_wrap (label : String) (e : Err) :
    (Err.wrap label e).isDenied = e.isDenied := rfl

theorem isDenied_join_eq_false {es : List Err} (h : ∀ e ∈ es, e.isDenied = false) :
    (Err.join es).isDenied = false := by
  rw [isDenied_join, List.any_eq_false]
  simpa using h

/-- The egress denied the destination: the literal, of a family it carries, is not allowed; or
the answer is positive and has addresses of such a family, none of them allowed. -/
def DeniedBy (rt : Router) (host : String) (isIP : Bool) (self : List Addr) (mark : ℤ)
    (deadline : Option ℤ) (t : Trace) : Prop :=
  if isIP then
    ∃ addr, parseAddr host = some addr ∧ egressFamilyAllowed addr mark = true ∧
      rt.destination.addressAllowed addr mark self = false
  else
    ∃ result : Dns.Result, ⟨.resolve mark host deadline, .ok result⟩ ∈ t ∧
      result.rcode = .success ∧ egressFamilyCandidates result.addrs mark ≠ [] ∧
      ∀ a ∈ egressFamilyCandidates result.addrs mark,
        rt.destination.addressAllowed a mark self = false

def Visit.Denied (rt : Router) (host : String) (isIP : Bool) (self : List Addr) (v : Visit) :
    Prop := DeniedBy rt host isIP self v.mark v.deadline v.lookup

/-- The policy looks through the mapping. -/
theorem addressAllowed_unmap (p : DestinationPolicy) {a : Addr} (hvalid : a.isValid = true)
    (hzone : a.zone = "") (mark : ℤ) (self : List Addr) :
    p.addressAllowed a.unmap mark self = p.addressAllowed a mark self := by
  have hzone' := Addr.unmap_zone hzone
  unfold DestinationPolicy.addressAllowed
  simp [hvalid, hzone, hzone']

theorem addressAllowed_eq_false (p : DestinationPolicy) {a : Addr}
    (h : ¬(a.isValid = true ∧ a.zone = "")) (mark : ℤ) (self : List Addr) :
    p.addressAllowed a mark self = false := by
  unfold DestinationPolicy.addressAllowed
  rw [if_pos]
  by_contra hboth
  simp only [not_or, Bool.not_eq_false, not_not] at hboth
  exact h hboth

section
variable {rt : Router} {deadline : Option ℤ} {host : String} {mark : ℤ} {self : List Addr}
  {isIP : Bool} {t : Trace} {port : String}

/-- Nothing is selected when the policy allows nothing of the input. -/
theorem Router.Built.selected_eq_nil_iff (hrt : rt.Built) (sequence : UInt64) (input : List Addr) :
    rt.selected mark self sequence input = [] ↔
      ∀ a ∈ input, rt.destination.addressAllowed a mark self = false := by
  have hcap := hrt.cap_pos
  rw [← hrt.cap_eq] at hcap
  rw [Router.selected, select_eq_nil_iff _ _ _ _ hcap]
  refine forall₂_congr fun a ha => ?_
  by_cases hok : a.isValid = true ∧ a.zone = ""
  · rw [addressAllowed_unmap _ hok.1 hok.2]
    simp [hok]
  · rw [addressAllowed_eq_false _ hok]
    simp only [iff_true]
    exact fun hvalid hzone => absurd ⟨hvalid, hzone⟩ hok

/-- The attempt loop never reports a denial of its own. -/
theorem dialEach_not_denied {egress : String} {metrics : Bool} {candidates : List Addr}
    {errs : List Err} {e : Err}
    (h : (dialEach deadline port metrics egress mark candidates errs).Runs t (.error e))
    (hext : ∀ x ∈ t, external x = true) (herrs : ∀ e ∈ errs, e.isDenied = false) :
    e.isDenied = false := by
  induction candidates generalizing errs t with
  | nil =>
    obtain ⟨-, heq⟩ := Prog.runs_pure.mp h
    cases heq
    split
    · rfl
    · exact isDenied_join_eq_false herrs
  | cons candidate rest ih =>
    rcases dialEach_cons_runs.mp h with ⟨e', rfl, heq⟩ | ⟨w, attempt, u, hw, rfl, hu⟩
    · cases heq
      apply isDenied_join_eq_false
      intro x hx
      rcases List.mem_append.mp hx with hx | hx
      · exact herrs x hx
      · rw [List.mem_singleton.mp hx]
        simpa [external] using hext _ List.mem_cons_self
    · rcases hu with ⟨-, heq⟩ | ⟨e', z, rfl, hz⟩
      · cases heq
      · refine ih hz (fun x hx => hext x (by simp [hx])) fun x hx => ?_
        rcases List.mem_append.mp hx with hx | hx
        · exact herrs x hx
        · have hdial : external ⟨.dial mark (joinHostPort candidate.string port) attempt,
            .error e'⟩ = true := hext _ (by simp)
          rw [List.mem_singleton.mp hx]
          simpa [external] using hdial

/-- The search fails with a denial exactly when the egress denied. -/
theorem Lookup.isDenied_iff {r : Except Err (List Addr)}
    (h : Lookup rt deadline host mark self isIP t r) (hrt : rt.Built)
    (hip : isIP = true → (parseAddr host).isSome = true) (hext : ∀ x ∈ t, external x = true) :
    (∃ e, r = .error e ∧ e.isDenied = true) ↔ DeniedBy rt host isIP self mark deadline t := by
  unfold DeniedBy
  cases h with
  | malformed hparse => simp [hparse] at hip
  | otherFamily hparse hfamily =>
    simp [hparse, hfamily, errNoIPv4Candidate, Err.isDenied]
  | literalDenied hparse hfamily hnone =>
    have hall := (hrt.selected_eq_nil_iff _ _).mp hnone
    simpa [hparse, hfamily, Err.isDenied] using hall
  | literal hparse hfamily hsome =>
    rw [ne_eq, hrt.selected_eq_nil_iff] at hsome
    simpa [hparse, hfamily] using hsome
  | noResolver => simp [Err.isDenied]
  | failed =>
    have he := hext _ List.mem_cons_self
    simp only [external, Bool.not_eq_true'] at he
    simp [he]
  | negative hrcode =>
    simp [Err.isDenied, hrcode]
  | noFamily hrcode hfamily =>
    simp [errNoIPv4Candidate, Err.isDenied, hfamily]
  | answerDenied hrcode hfamily hnone =>
    have hall := (hrt.selected_eq_nil_iff _ _).mp hnone
    simpa [errDeniedAnswer, Err.isDenied, hrcode, hfamily] using hall
  | answer hrcode hsome =>
    rw [ne_eq, hrt.selected_eq_nil_iff] at hsome
    simpa [hrcode] using fun _ => hsome

/-- The error of a visit is a denial exactly when the egress denied. -/
theorem Visit.isDenied_iff {v : Visit} (hv : v.Of rt host isIP port self) (hrt : rt.Built)
    (hip : isIP = true → (parseAddr host).isSome = true) (hext : ∀ x ∈ v.trace, external x = true) :
    (∃ e, v.result = .error e ∧ e.isDenied = true) ↔ v.Denied rt host isIP self := by
  have hlookup := backendCandidates_lookup hrt hv.lookup
  have hdenied := hlookup.isDenied_iff hrt hip fun x hx => hext x (List.mem_append_left _ hx)
  rw [Visit.Denied, ← hdenied]
  cases hfound : v.found with
  | error e =>
    rw [(hv.none_found e hfound).2]
    simp
  | ok candidates =>
    obtain ⟨u, hu, hdialing⟩ := hv.attempts_run hrt hfound
    refine ⟨?_, by simp⟩
    rintro ⟨e, he, hdeny⟩
    rw [he] at hu
    have hnot := dialEach_not_denied hu
      (fun x hx => hext x (by simp [Visit.trace, hdialing, hx])) (by simp)
    rw [hnot] at hdeny
    cases hdeny

end

/-! ## Classifying the whole run -/

/-- Only denials and no failure make a denial. -/
theorem conclude_isDenied_iff {denied failed : List Err} (hdenied : ∀ e ∈ denied, e.isDenied = true)
    (hfailed : ∀ e ∈ failed, e.isDenied = false) :
    (conclude denied failed).isDenied = true ↔ failed = [] ∧ denied ≠ [] := by
  unfold conclude
  by_cases hf : failed = []
  · rw [if_neg (by simpa using hf)]
    by_cases hd : denied = []
    · simp [hd, Err.isDenied]
    · obtain ⟨e, rest, rfl⟩ := List.exists_cons_of_ne_nil hd
      simp [hf, isDenied_join, hdenied e List.mem_cons_self]
  · rw [if_pos hf, isDenied_join_eq_false hfailed]
    simp [hf]

theorem outcome_isDenied_iff {rt : Router} {stop : Option Err} {visits : List Visit}
    {denied failed : List Err} {e : Err}
    (hout : outcome rt stop visits denied failed = .error e)
    (hstop : ∀ e', stop = some e' → e'.isDenied = false)
    (hdenied : ∀ e ∈ denied, e.isDenied = true) (hfailed : ∀ e ∈ failed, e.isDenied = false) :
    e.isDenied = true ↔ stop = none ∧ failed = [] ∧ (denied ≠ [] ∨ visits ≠ []) ∧
      ∀ v ∈ visits, ∃ e', v.result = .error e' ∧ e'.isDenied = true := by
  induction visits generalizing denied failed with
  | nil =>
    cases hout
    cases stop with
    | none => simp [conclude_isDenied_iff hdenied hfailed]
    | some e' =>
      have hfailed' : ∀ x ∈ failed ++ [e'], x.isDenied = false := by
        simpa [or_imp, forall_and] using ⟨hfailed, hstop e' rfl⟩
      rw [conclude_isDenied_iff hdenied hfailed']
      simp
  | cons v visits ih =>
    rw [outcome] at hout
    cases hr : v.result with
    | ok _ =>
      rw [hr] at hout
      cases hout
    | error e' =>
      rw [hr] at hout
      dsimp only at hout
      by_cases hden : e'.isDenied = true
      · -- one more denial
        rw [if_pos hden] at hout
        have hdenied' : ∀ x ∈ denied ++ [rt.egressErr v.mark e'], x.isDenied = true := by
          simpa [or_imp, forall_and] using ⟨hdenied, hden⟩
        rw [ih hout hdenied' hfailed]
        simp [hr, hden]
      · -- one failure makes the whole a failure
        rw [if_neg hden] at hout
        have hfailed' : ∀ x ∈ failed ++ [rt.egressErr v.mark e'], x.isDenied = false := by
          simpa [or_imp, forall_and] using ⟨hfailed, by simpa [Router.egressErr] using hden⟩
        rw [ih hout hdenied hfailed']
        simp [hr, hden]

section
variable {rt : Router} {deadline : Option ℤ} {host : String} {isIP : Bool} {port : String}
  {self : List Addr} {marks : List ℤ} {visits : List Visit} {t : Trace}

theorem Failover.mem_trace {stop : Option Err}
    (h : Failover rt deadline host isIP port self marks visits stop t) :
    ∀ v ∈ visits, ∀ x ∈ v.trace, x ∈ t := by
  induction h with
  | exhausted => simp
  | stopped => simp
  | connected => simp +contextual
  | failed hv hw hr hrest ih =>
    simp only [List.mem_cons, List.mem_append]
    rintro v (rfl | hv') x hx
    · exact .inr (.inr (.inl hx))
    · exact .inr (.inr (.inr (ih v hv' x hx)))

/-- A context error stops the loop before some egress. -/
theorem Failover.stopped_early {e : Err}
    (h : Failover rt deadline host isIP port self marks visits (some e) t) :
    visits.length < marks.length ∧ ⟨.ctxErr deadline, some e⟩ ∈ t := by
  generalize hstop : some e = stop at h
  induction h with
  | exhausted => cases hstop
  | stopped mark rest e' =>
    cases hstop
    simp
  | connected => cases hstop
  | failed hv hw hr hrest ih =>
    obtain ⟨hlt, hmem⟩ := ih hstop
    exact ⟨by simpa using hlt, by simp [hmem]⟩

/-- The error of the failover loop is a denial exactly when every egress was visited and
denied. -/
theorem Failover.isDenied_iff {stop : Option Err} {e : Err}
    (h : Failover rt deadline host isIP port self marks visits stop t) (hrt : rt.Built)
    (hip : isIP = true → (parseAddr host).isSome = true) (hext : ∀ x ∈ t, external x = true)
    (hout : outcome rt stop visits [] [] = .error e) :
    e.isDenied = true ↔ marks ≠ [] ∧ visits.map (·.mark) = marks ∧
      ∀ v ∈ visits, v.Denied rt host isIP self := by
  have hstop : ∀ e', stop = some e' → e'.isDenied = false := by
    rintro e' rfl
    simpa [external] using hext _ h.stopped_early.2
  have hvisit : ∀ v ∈ visits,
      ((∃ e', v.result = .error e' ∧ e'.isDenied = true) ↔ v.Denied rt host isIP self) :=
    fun v hv => Visit.isDenied_iff (h.visited v hv) hrt hip
      fun x hx => hext x (h.mem_trace v hv x hx)
  have hnone : ∀ v ∈ visits, v.result ≠ .ok () := by
    intro v hv hok
    rw [outcome_eq_ok.mpr ⟨v, hv, hok⟩] at hout
    cases hout
  have hcomplete : stop = none ↔ visits.map (·.mark) = marks := by
    cases stop with
    | none => simpa using h.all_visited hnone
    | some e' =>
      simp only [reduceCtorEq, false_iff]
      intro hmap
      have hlt := h.stopped_early.1
      rw [← hmap, List.length_map] at hlt
      omega
  rw [outcome_isDenied_iff hout hstop (by simp) (by simp), hcomplete,
    forall₂_congr hvisit]
  constructor
  · rintro ⟨hmap, -, hne, hall⟩
    refine ⟨?_, hmap, hall⟩
    rw [← hmap]
    simpa using hne
  · rintro ⟨hne, hmap, hall⟩
    refine ⟨hmap, rfl, .inr ?_, hall⟩
    rintro rfl
    exact hne (by simpa using hmap.symm)

end

end SakhtarWg.Proxy
