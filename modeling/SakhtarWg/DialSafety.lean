import SakhtarWg.ProxyDial

/-!
# No denied address is dialed

Every trace of the dial path splits into one segment per attempted egress. Within a
segment the dialed addresses are distinct, capped, and allowed for that egress.
-/

namespace SakhtarWg.Proxy
open Netip Program

abbrev Trace := List (Sigma Env.Response)

/-- The marks and addresses handed to the dial function, in order. -/
def dialsOf (t : Trace) : List (ℤ × String) :=
  t.filterMap fun e => match e.1 with
    | .dial mark address _ => some (mark, address)
    | _ => none

theorem dialsOf_append (t u : Trace) : dialsOf (t ++ u) = dialsOf t ++ dialsOf u :=
  List.filterMap_append

/-- The program never dials. -/
def Quiet {α : Type} (p : Dialing α) : Prop := ∀ t a, p.Runs t a → dialsOf t = []

theorem Quiet.pure {α : Type} (a : α) : Quiet (pure a : Dialing α) := by
  intro t b h
  rw [(Prog.runs_pure.mp h).1]
  rfl

theorem Quiet.bind {α β : Type} {p : Dialing α} {f : α → Dialing β} (hp : Quiet p)
    (hf : ∀ a, Quiet (f a)) : Quiet (p >>= f) := by
  intro t b h
  obtain ⟨u, v, a, rfl, hu, hv⟩ := Prog.runs_bind.mp h
  rw [dialsOf_append, hp u a hu, hf a v b hv]
  rfl

/-- A single command other than a dial. -/
theorem Quiet.perform {e : Env} (h : ∀ m a d, e ≠ .dial m a d) :
    Quiet (Prog.perform e : Dialing e.Response) := by
  intro t a hrun
  cases hrun with
  | call hrun =>
    cases hrun
    cases e with
    | dial m address d => exact absurd rfl (h m address d)
    | _ => rfl

theorem connect_dials {mark : ℤ} {address : String} {deadline : Option ℤ} {t : Trace}
    {r : Except Err Unit} (h : (Env.connect mark address deadline).Runs t r) :
    dialsOf t = [(mark, address)] := by
  cases h with
  | call h =>
    cases h
    rfl

theorem getCtxErr_quiet (deadline : Option ℤ) : Quiet (Env.getCtxErr deadline) :=
  Quiet.perform (by simp)

theorem getNow_quiet : Quiet Env.getNow := Quiet.perform (by simp)

theorem count_quiet (metrics success : Bool) (egress : String) :
    Quiet (Env.count metrics success egress) := by
  unfold Env.count
  split
  · exact Quiet.perform (by simp)
  · exact Quiet.pure ()

theorem drop_quiet (mark : ℤ) (host : String) : Quiet (Env.drop mark host) :=
  Quiet.perform (by simp)

theorem attemptDeadline_quiet (deadline : Option ℤ) (n : ℕ) :
    Quiet (attemptDeadline deadline n) := by
  unfold attemptDeadline
  split
  · exact Quiet.pure _
  · exact getNow_quiet.bind fun _ => getNow_quiet.bind fun _ => Quiet.pure _

/-! ## Candidates -/

/-- What may be handed to the dial function of an egress. -/
structure Dialable (rt : Router) (self : List Addr) (mark : ℤ) (a : Addr) : Prop where
  valid : a.isValid = true
  zone : a.zone = ""
  unmapped : a.is4In6 = false
  allowed : rt.destination.addressAllowed a mark self = true
  ipv4 : mark ≠ 0 → a.is4 = true

theorem select_quiet (rt : Router) (input : List Addr) (mark : ℤ) (self : List Addr) :
    Quiet (rt.select input mark self) := by
  unfold Router.select
  split
  · exact Quiet.pure _
  · exact (Quiet.perform (by simp) : Quiet Env.nextSequence).bind fun _ => Quiet.pure _

/-- The selector returns distinct dialable addresses when its input fits the egress. -/
theorem select_dialable {rt : Router} {input : List Addr} {mark : ℤ} {self : List Addr}
    {t : Trace} {selected : List Addr} (h : (rt.select input mark self).Runs t selected)
    (hfamily : ∀ a ∈ input, egressFamilyAllowed a mark = true) :
    selected.Nodup ∧ ∀ a ∈ selected, Dialable rt self mark a := by
  unfold Router.select at h
  split at h
  · obtain ⟨-, rfl⟩ := Prog.runs_pure.mp h
    simp
  · obtain ⟨u, v, sequence, -, -, hv⟩ := Prog.runs_bind.mp h
    obtain ⟨-, rfl⟩ := Prog.runs_pure.mp hv
    refine ⟨select_nodup _ _ _ _, fun a ha => ?_⟩
    obtain ⟨hallowed, b, hb, hvalid, hzone, rfl⟩ := select_origin _ _ _ _ ha
    refine ⟨by simpa using hvalid, Addr.unmap_zone hzone, by simp, hallowed, fun hm => ?_⟩
    simpa [egressFamilyAllowed, hm] using hfamily b hb

theorem egressFamilyCandidates_allowed (addrs : List Addr) (mark : ℤ) :
    ∀ a ∈ egressFamilyCandidates addrs mark, egressFamilyAllowed a mark = true := by
  intro a ha
  unfold egressFamilyCandidates at ha
  split at ha
  · rename_i hm
    simp [egressFamilyAllowed, hm]
  · exact (List.mem_filter.mp ha).2

section
variable {rt : Router} {deadline : Option ℤ} {host : String} {isIP : Bool} {mark : ℤ}
  {self : List Addr} {t : Trace}

/-- Finding candidates dials nothing, and what it returns is distinct and dialable. -/
theorem backendCandidates_runs {r : Except Err (List Addr)}
    (h : (backendCandidates rt deadline host isIP mark self).Runs t r) :
    dialsOf t = [] ∧ ∀ candidates, r = .ok candidates →
      candidates.Nodup ∧ ∀ a ∈ candidates, Dialable rt self mark a := by
  unfold backendCandidates at h
  split at h
  · -- an IP literal
    split at h
    · obtain ⟨rfl, rfl⟩ := Prog.runs_pure.mp h
      exact ⟨rfl, by simp⟩
    · rename_i addr _
      split at h
      · rename_i hfamily
        obtain ⟨u, v, selected, rfl, hu, hv⟩ := Prog.runs_bind.mp h
        obtain ⟨rfl, rfl⟩ := Prog.runs_pure.mp hv
        refine ⟨by simpa using select_quiet _ _ _ _ u _ hu, fun candidates hc => ?_⟩
        have hsel := select_dialable hu (by simpa using hfamily)
        split at hc
        · cases hc
        · cases hc
          exact hsel
      · obtain ⟨rfl, rfl⟩ := Prog.runs_pure.mp h
        exact ⟨rfl, by simp⟩
  · split at h
    · -- a name: the answer is whatever the cache returned
      obtain ⟨u, v, answer, rfl, hu, hv⟩ := Prog.runs_bind.mp h
      have hq : dialsOf u = [] :=
        (Quiet.perform (by simp) : Quiet (Env.askResolver mark host deadline)) u _ hu
      rw [dialsOf_append, hq, List.nil_append]
      cases answer with
      | error e =>
        obtain ⟨rfl, rfl⟩ := Prog.runs_pure.mp hv
        exact ⟨rfl, by simp⟩
      | ok result =>
        dsimp only at hv
        split at hv
        · obtain ⟨rfl, rfl⟩ := Prog.runs_pure.mp hv
          exact ⟨rfl, by simp⟩
        · split at hv
          · obtain ⟨rfl, rfl⟩ := Prog.runs_pure.mp hv
            exact ⟨rfl, by simp⟩
          · obtain ⟨w, x, allowed, rfl, hw, hx⟩ := Prog.runs_bind.mp hv
            have hsel := select_dialable hw (egressFamilyCandidates_allowed _ _)
            rw [dialsOf_append, select_quiet _ _ _ _ w _ hw, List.nil_append]
            split at hx
            · obtain ⟨y, z, _, rfl, hy, hz⟩ := Prog.runs_bind.mp hx
              obtain ⟨rfl, rfl⟩ := Prog.runs_pure.mp hz
              exact ⟨by simpa using drop_quiet _ _ y _ hy, by simp⟩
            · obtain ⟨rfl, rfl⟩ := Prog.runs_pure.mp hx
              refine ⟨rfl, fun candidates hc => ?_⟩
              cases hc
              exact hsel
    · obtain ⟨rfl, rfl⟩ := Prog.runs_pure.mp h
      exact ⟨rfl, by simp⟩

end

/-! ## One egress -/

/-- Dialing the addresses through the egress, as the dial function sees it. -/
def dialsThrough (mark : ℤ) (port : String) (addrs : List Addr) : List (ℤ × String) :=
  addrs.map fun a => (mark, joinHostPort a.string port)

/-- The attempt loop dials its candidates in order and may stop anywhere. -/
theorem dialEach_runs {deadline : Option ℤ} {port egress : String} {metrics : Bool} {mark : ℤ}
    {candidates : List Addr} {errs : List Err} {t : Trace} {r : Except Err Unit}
    (h : (dialEach deadline port metrics egress mark candidates errs).Runs t r) :
    ∃ n, dialsOf t = dialsThrough mark port (candidates.take n) := by
  induction candidates generalizing errs t with
  | nil =>
    obtain ⟨rfl, -⟩ := Prog.runs_pure.mp h
    exact ⟨0, rfl⟩
  | cons candidate rest ih =>
    unfold dialEach at h
    obtain ⟨u, v, stop, rfl, hu, hv⟩ := Prog.runs_bind.mp h
    rw [dialsOf_append, getCtxErr_quiet deadline u _ hu, List.nil_append]
    cases stop with
    | some e =>
      obtain ⟨rfl, -⟩ := Prog.runs_pure.mp hv
      exact ⟨0, rfl⟩
    | none =>
      obtain ⟨w, x, attempt, rfl, hw, hx⟩ := Prog.runs_bind.mp hv
      obtain ⟨y, z, conn, rfl, hy, hz⟩ := Prog.runs_bind.mp hx
      rw [dialsOf_append, attemptDeadline_quiet _ _ w _ hw, List.nil_append, dialsOf_append,
        connect_dials hy]
      cases conn with
      | ok _ =>
        obtain ⟨y', z', _, rfl, hy', hz'⟩ := Prog.runs_bind.mp hz
        obtain ⟨rfl, -⟩ := Prog.runs_pure.mp hz'
        rw [List.append_nil, count_quiet _ _ _ y' _ hy']
        exact ⟨1, rfl⟩
      | error e =>
        obtain ⟨y', z', _, rfl, hy', hz'⟩ := Prog.runs_bind.mp hz
        obtain ⟨n, hn⟩ := ih hz'
        rw [dialsOf_append, count_quiet _ _ _ y' _ hy', hn]
        exact ⟨n + 1, rfl⟩

/-- What one egress dials: distinct dialable addresses, no more than the attempt cap. -/
def EgressDials (rt : Router) (self : List Addr) (port : String) (mark : ℤ) (t : Trace) : Prop :=
  ∃ addrs : List Addr, dialsOf t = dialsThrough mark port addrs ∧ addrs.Nodup ∧
    addrs.length ≤ rt.connectAttemptCap.toNat ∧ ∀ a ∈ addrs, Dialable rt self mark a

theorem EgressDials.of_quiet {rt : Router} {self : List Addr} {port : String} {mark : ℤ}
    {t : Trace} (h : dialsOf t = []) : EgressDials rt self port mark t :=
  ⟨[], by simp [h, dialsThrough], by simp, by simp, by simp⟩

theorem dialCandidates_runs {rt : Router} {self : List Addr} {deadline : Option ℤ}
    {candidates : List Addr} {port egress : String} {metrics : Bool} {mark : ℤ} {t : Trace}
    {r : Except Err Unit}
    (h : (dialCandidates deadline candidates port rt.connectAttemptCap metrics egress mark).Runs
      t r)
    (hnodup : candidates.Nodup) (hdialable : ∀ a ∈ candidates, Dialable rt self mark a) :
    EgressDials rt self port mark t := by
  unfold dialCandidates at h
  split at h
  · obtain ⟨rfl, -⟩ := Prog.runs_pure.mp h
    exact EgressDials.of_quiet rfl
  · obtain ⟨n, hn⟩ := dialEach_runs h
    have hsub : ((candidates.take rt.connectAttemptCap.toNat).take n).Sublist candidates :=
      (List.take_sublist _ _).trans (List.take_sublist _ _)
    refine ⟨_, hn, hnodup.sublist hsub, ?_, fun a ha => hdialable a (hsub.subset ha)⟩
    simp only [List.length_take]
    omega

theorem dialBackend_runs {rt : Router} {deadline : Option ℤ} {host : String} {isIP : Bool}
    {port : String} {mark : ℤ} {self : List Addr} {t : Trace} {r : Except Err Unit}
    (h : (dialBackend rt deadline host isIP port mark self).Runs t r) :
    EgressDials rt self port mark t := by
  unfold dialBackend at h
  obtain ⟨u, v, found, rfl, hu, hv⟩ := Prog.runs_bind.mp h
  obtain ⟨hquiet, hcandidates⟩ := backendCandidates_runs hu
  simp only [EgressDials, dialsOf_append, hquiet, List.nil_append]
  cases found with
  | error e =>
    obtain ⟨rfl, -⟩ := Prog.runs_pure.mp hv
    exact EgressDials.of_quiet rfl
  | ok candidates =>
    obtain ⟨hnodup, hdialable⟩ := hcandidates candidates rfl
    obtain ⟨w, x, conn, rfl, hw, hx⟩ := Prog.runs_bind.mp hv
    obtain ⟨addrs, haddrs, hrest⟩ := dialCandidates_runs hw hnodup hdialable
    refine ⟨addrs, ?_, hrest⟩
    rw [dialsOf_append, haddrs]
    cases conn with
    | ok _ =>
      obtain ⟨rfl, -⟩ := Prog.runs_pure.mp hx
      exact List.append_nil _
    | error e =>
      dsimp only at hx
      split at hx
      · obtain ⟨rfl, -⟩ := Prog.runs_pure.mp hx
        exact List.append_nil _
      · obtain ⟨y, z, _, rfl, hy, hz⟩ := Prog.runs_bind.mp hx
        obtain ⟨rfl, -⟩ := Prog.runs_pure.mp hz
        rw [List.append_nil, drop_quiet _ _ y _ hy, List.append_nil]

/-! ## All egresses -/

/-- The trace falls into segments, one for each egress that was reached, in order. -/
def Segmented (rt : Router) (self : List Addr) (port : String) (marks : List ℤ) (t : Trace) :
    Prop :=
  ∃ segments : List Trace, t = segments.flatten ∧ segments.length ≤ marks.length ∧
    ∀ x ∈ marks.zip segments, EgressDials rt self port x.1 x.2

theorem Segmented.nil (rt : Router) (self : List Addr) (port : String) (marks : List ℤ) :
    Segmented rt self port marks [] :=
  ⟨[], rfl, by simp, by simp⟩

theorem Segmented.cons {rt : Router} {self : List Addr} {port : String} {mark : ℤ}
    {marks : List ℤ} {t u : Trace} (ht : EgressDials rt self port mark t)
    (hu : Segmented rt self port marks u) : Segmented rt self port (mark :: marks) (t ++ u) := by
  obtain ⟨segments, rfl, hlen, hall⟩ := hu
  refine ⟨t :: segments, rfl, by simpa using hlen, ?_⟩
  simp only [List.zip_cons_cons, List.mem_cons]
  rintro x (rfl | hx)
  · exact ht
  · exact hall x hx

theorem dialEgressesFrom_runs {rt : Router} {deadline : Option ℤ} {host : String} {isIP : Bool}
    {port : String} {self : List Addr} {marks : List ℤ} {denied failed : List Err} {t : Trace}
    {r : Except Err Unit}
    (h : (dialEgressesFrom rt deadline host isIP port self marks denied failed).Runs t r) :
    Segmented rt self port marks t := by
  induction marks generalizing denied failed t with
  | nil =>
    obtain ⟨rfl, -⟩ := Prog.runs_pure.mp h
    exact Segmented.nil _ _ _ _
  | cons mark rest ih =>
    unfold dialEgressesFrom at h
    obtain ⟨u, v, stop, rfl, hu, hv⟩ := Prog.runs_bind.mp h
    have hquiet := getCtxErr_quiet deadline u _ hu
    cases stop with
    | some e =>
      obtain ⟨rfl, -⟩ := Prog.runs_pure.mp hv
      exact Segmented.cons (.of_quiet hquiet) (Segmented.nil _ _ _ _)
    | none =>
      obtain ⟨w, x, egress, rfl, hw, hx⟩ := Prog.runs_bind.mp hv
      obtain ⟨y, z, conn, rfl, hy, hz⟩ := Prog.runs_bind.mp hx
      have hseg : EgressDials rt self port mark (u ++ (w ++ y)) := by
        obtain ⟨addrs, haddrs, hrest⟩ := dialBackend_runs hy
        refine ⟨addrs, ?_, hrest⟩
        simp only [dialsOf_append, hquiet, attemptDeadline_quiet _ _ w _ hw, haddrs,
          List.nil_append]
      have hassoc : u ++ (w ++ (y ++ z)) = u ++ (w ++ y) ++ z := by simp
      rw [hassoc]
      refine Segmented.cons hseg ?_
      cases conn with
      | ok _ =>
        obtain ⟨rfl, -⟩ := Prog.runs_pure.mp hz
        exact Segmented.nil _ _ _ _
      | error e =>
        dsimp only at hz
        split at hz
        · exact ih hz
        · exact ih hz

/-- Whatever the environment answers, only dialable addresses are dialed through an egress, each
once, and no more of them than the attempt cap. -/
theorem dialEgresses_safe (rt : Router) (deadline : Option ℤ) (host : String) (isIP : Bool)
    (port : String) (marks : List ℤ) (self : List Addr) {t : Trace} {r : Except Err Unit}
    (h : (dialEgresses rt deadline host isIP port marks self).Runs t r) :
    ∃ segments : List Trace, t = segments.flatten ∧ segments.length ≤ marks.length ∧
      ∀ x ∈ marks.zip segments, ∃ addrs : List Addr,
        dialsOf x.2 = addrs.map (fun a => (x.1, joinHostPort a.string port)) ∧
        addrs.Nodup ∧ addrs.length ≤ rt.connectAttemptCap.toNat ∧
        ∀ a ∈ addrs, a.isValid = true ∧ a.zone = "" ∧ a.is4In6 = false ∧
          rt.destination.addressAllowed a x.1 self = true ∧ (x.1 ≠ 0 → a.is4 = true) := by
  obtain ⟨segments, ht, hlen, hall⟩ := dialEgressesFrom_runs h
  refine ⟨segments, ht, hlen, fun x hx => ?_⟩
  obtain ⟨addrs, haddrs, hnodup, hcap, hdialable⟩ := hall x hx
  refine ⟨addrs, haddrs, hnodup, hcap, fun a ha => ?_⟩
  obtain ⟨h1, h2, h3, h4, h5⟩ := hdialable a ha
  exact ⟨h1, h2, h3, h4, h5⟩

/-- A router with one tunnel at mark 7 and no exceptions. -/
def sampleRouter : Router where
  destination := ⟨fun _ => []⟩
  selector := ⟨.ipv4First, 3⟩
  connectAttemptCap := 3
  hasResolver := fun _ => true
  egressNames := fun _ => none

/-- An environment whose resolver mixes families, mapped and private addresses and whose
tunnel is down. -/
def sampleAnswer : (e : Env) → Unit → e.Response × Unit
  | .ctxErr _, s => (none, s)
  | .now, s => (0, s)
  | .resolve _ _ _, s =>
    (.ok { rcode := .success, addrs := ["10.0.0.1", "192.0.1.1", "2606::1", "::ffff:192.0.1.1",
      "fe80::1%eth0", "192.0.1.2"].filterMap parseAddr }, s)
  | .invalidate _ _, s => ((), s)
  | .sequence, s => (0, s)
  | .dial mark _ _, s => (if mark = 7 then .error (.text "unreachable") else .ok (), s)
  | .record _ _, s => ((), s)
  | .exchanges _ _, s => (1, s)
  | .answer _ _, s => (.error ⟨true, false⟩, s)

/-- Both addresses fail over the tunnel, then the direct egress connects. -/
theorem dialEgresses_safe_failover :
    ∃ t r, (dialEgresses sampleRouter none "example.com" false "443" [7, 0] []).Runs t r ∧
      dialsOf t = [(7, "192.0.1.1:443"), (7, "192.0.1.2:443"), (0, "192.0.1.1:443")] ∧
      ∃ segments : List Trace, t = segments.flatten ∧ segments.length ≤ [(7 : ℤ), 0].length ∧
        ∀ x ∈ [(7 : ℤ), 0].zip segments, ∃ addrs : List Addr,
          dialsOf x.2 = addrs.map (fun a => (x.1, joinHostPort a.string "443")) ∧
          addrs.Nodup ∧ addrs.length ≤ sampleRouter.connectAttemptCap.toNat ∧
          ∀ a ∈ addrs, a.isValid = true ∧ a.zone = "" ∧ a.is4In6 = false ∧
            sampleRouter.destination.addressAllowed a x.1 [] = true ∧
            (x.1 ≠ 0 → a.is4 = true) :=
  ⟨_, _, Prog.runs_trace sampleAnswer _ (), by decide +kernel,
    dialEgresses_safe _ _ _ _ _ _ _ (Prog.runs_trace sampleAnswer _ ())⟩

end SakhtarWg.Proxy
