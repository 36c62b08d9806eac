import SakhtarWg.Wg

/-!
# Reasoning about host programs

Triples for programs of which at most a given number of calls fail on top of those the
host itself refuses. With none left the run is determined.
-/

namespace SakhtarWg
open Program

variable {α β : Type} {A : Host → Cmd → Prop} {n : ℕ} {h : Host}

/-! ## Calls -/

/-- A refused call changes nothing. -/
theorem Host.call_error {h : Host} {c : Sys} {e : Errno} (he : (h.call c).1 = .error e) :
    (h.call c).2 = h := by
  have hchanged : ∀ r : Except Errno Host, (h.changed r).1 = .error e → (h.changed r).2 = h := by
    intro r hr
    cases r with
    | ok h' => cases hr
    | error _ => rfl
  cases c with
  | linkAdd name mtu kind =>
    simp only [Host.call] at he ⊢
    split at he
    · cases he
    · rfl
  | linkDel => exact hchanged _ he
  | linkSetAlias => exact hchanged _ he
  | linkSetMTU => exact hchanged _ he
  | linkSetUp => exact hchanged _ he
  | addrAdd => exact hchanged _ he
  | addrDel => exact hchanged _ he
  | routeAdd => exact hchanged _ he
  | routeDel => exact hchanged _ he
  | ruleAdd => exact hchanged _ he
  | ruleDel => exact hchanged _ he
  | configureDevice => exact hchanged _ he
  | restore => exact hchanged _ he
  | insertJump => exact hchanged _ he
  | deleteJump => exact hchanged _ he
  | writeSysctl => cases he
  | _ => rfl

/-! ## Triples -/

/-- From `h`, with at most `n` more failing calls, the program ends in `Q`, or with an error
in `E`. Every command meets `A` in the host it is issued to. -/
def Within (A : Host → Cmd → Prop) (n : ℕ) (h : Host) (p : Net α) (Q : α → Host → Prop)
    (E : Host → Prop) : Prop :=
  ∀ faults : List Bool, faults.count true ≤ n →
    p.run.Guarded answer (fun s c => A s.1 c) (h, faults) fun r s =>
      s.2.count true ≤ n ∧ Prog.Ends (fun a (s : Faulty) => Q a s.1) (fun s => E s.1) r s

namespace Within

variable {Q : α → Host → Prop} {E : Host → Prop}

theorem mono {P : α → Host → Prop} {F : Host → Prop} {p : Net α} (hp : Within A n h p P F)
    (hQ : ∀ a h, P a h → Q a h) (hE : ∀ h, F h → E h) : Within A n h p Q E := by
  intro faults hf
  apply (hp faults hf).mono
  intro r s hr
  exact ⟨hr.1, hr.2.mono (fun a => hQ a s.1) (hE s.1)⟩

theorem pure {a : α} (ha : Q a h) : Within A n h (Pure.pure a) Q E := fun _ hf => ⟨hf, ha⟩

theorem throw {e : String} (he : E h) : Within A n h (throw e : Net α) Q E := fun _ hf => ⟨hf, he⟩

theorem bind {P : β → Host → Prop} {p : Net β} {f : β → Net α} (hp : Within A n h p P E)
    (hf : ∀ b h, P b h → Within A n h (f b) Q E) : Within A n h (p >>= f) Q E := by
  intro faults hfaults
  rw [ExceptT.run_bind, Prog.guarded_bind]
  apply (hp faults hfaults).mono
  rintro r ⟨h', faults'⟩ ⟨hcount, hr⟩
  cases r with
  | ok b => exact hf b h' hr faults' hcount
  | error e => exact ⟨hcount, hr⟩

theorem ofExcept {r : Except String α} (hok : ∀ a, r = .ok a → Q a h)
    (herror : ∀ e, r = .error e → E h) : Within A n h (Net.ofExcept r) Q E := by
  intro faults hf
  cases r with
  | ok a => exact ⟨hf, hok a rfl⟩
  | error e => exact ⟨hf, herror e rfl⟩

/-- A call fails because the host refuses it, or because one of the failures strikes. -/
theorem call {c : Sys} {Q : Except Errno c.Value → Host → Prop} (hA : A h (.sys c))
    (hanswer : Q (h.call c).1 (h.call c).2) (hfault : 0 < n → Q (.error .io) h) :
    Within A n h (Net.call c) Q E := by
  intro faults hf
  rcases faults with _ | ⟨_ | _, faults⟩
  · exact ⟨hA, hf, hanswer⟩
  · rw [List.count_cons_of_ne (by decide)] at hf
    exact ⟨hA, hf, hanswer⟩
  · rw [List.count_cons_self] at hf
    exact ⟨hA, by change faults.count true ≤ n; omega, hfault (by omega)⟩

theorem check {c : Sys} {wrap : String → String} {Q : c.Value → Host → Prop}
    (hA : A h (.sys c)) (hok : ∀ v h', h.call c = (.ok v, h') → Q v h')
    (herror : (0 < n ∨ ∃ e, (h.call c).1 = .error e) → E h) :
    Within A n h (Net.check c wrap) Q E := by
  apply bind (P := fun r h' => (∃ v, r = .ok v ∧ Q v h') ∨ ((∃ e, r = .error e) ∧ E h'))
  · apply call hA
    · cases hr : (h.call c).1 with
      | ok v => exact .inl ⟨v, rfl, hok v _ (Prod.ext hr rfl)⟩
      | error e =>
        rw [Host.call_error hr]
        exact .inr ⟨⟨e, rfl⟩, herror (.inr ⟨e, hr⟩)⟩
    · intro hn
      exact .inr ⟨⟨_, rfl⟩, herror (.inl hn)⟩
  · rintro r h' (⟨v, rfl, hv⟩ | ⟨⟨e, rfl⟩, he⟩)
    · exact pure hv
    · exact throw he

theorem attempt {p : Net α} {F : Host → Prop} (hp : Within A n h p Q E) :
    Within A n h (Prog.attempt p) (fun r h => Prog.Ends Q E r h) F := by
  intro faults hf
  unfold Prog.attempt
  rw [ExceptT.run_mk, Prog.guarded_bind]
  apply (hp faults hf).mono
  rintro r s ⟨hcount, hr⟩
  refine ⟨hcount, ?_⟩
  cases r with
  | ok a => exact hr
  | error e => exact hr

theorem within {label : String} {p : Net α} (hp : Within A n h p Q E) :
    Within A n h (Net.within label p) Q E := by
  apply bind hp.attempt
  intro r h' hr
  cases r with
  | ok a => exact pure hr
  | error e => exact throw hr

theorem collect {p : Net Unit} {Q E F : Host → Prop} (hp : Within A n h p (fun _ => Q) E) :
    Within A n h (Net.collect p)
      (fun errs h => errs = [] ∧ Q h ∨ errs ≠ [] ∧ E h) F := by
  apply bind hp.attempt
  intro r h' hr
  cases r with
  | ok a => exact pure (.inl ⟨rfl, hr⟩)
  | error e => exact pure (.inr ⟨by simp, hr⟩)

/-- A loop that stops at the first error, with an invariant about the part it has done. -/
theorem forM {I : List β → Host → Prop} {f : β → Net Unit} (l : List β)
    (hstep : ∀ done b todo, l = done ++ b :: todo → ∀ h, I done h →
      Within A n h (f b) (fun _ => I (done ++ [b])) E) (hinit : I [] h) :
    Within A n h (l.forM f) (fun _ => I l) E := by
  suffices hloop : ∀ todo done h, l = done ++ todo → I done h →
      Within A n h (todo.forM f) (fun _ => I l) E from hloop l [] h rfl hinit
  intro todo
  induction todo with
  | nil =>
    intro done h hl hI
    rw [List.append_nil] at hl
    exact pure (hl ▸ hI)
  | cons b todo ih =>
    intro done h hl hI
    apply bind (hstep done b todo hl h hI)
    intro _ h' hI'
    exact ih (done ++ [b]) h' (by simp [hl]) hI'

/-- A loop that carries on after errors. -/
theorem collectAll {I : List β → Host → Prop} {E F : Host → Prop} {f : β → Net Unit} (l : List β)
    (hstep : ∀ done b todo, l = done ++ b :: todo → ∀ h, I done h →
      Within A n h (f b) (fun _ => I (done ++ [b])) E)
    (herror : ∀ b ∈ l, ∀ h, E h → Within A n h (f b) (fun _ => E) E) (hinit : I [] h) :
    Within A n h (Net.collectAll f l)
      (fun errs h => errs = [] ∧ I l h ∨ errs ≠ [] ∧ E h) F := by
  have hafter : ∀ todo, (∀ b ∈ todo, b ∈ l) → ∀ h, E h →
      Within A n h (Net.collectAll f todo) (fun _ h => E h) F := by
    intro todo
    induction todo with
    | nil =>
      intro _ h hE
      exact pure hE
    | cons b todo ih =>
      intro hmem h hE
      apply bind (herror b (hmem b (by simp)) h hE).collect
      intro errs h' hr
      have hE' : E h' := by
        rcases hr with ⟨-, hE'⟩ | ⟨-, hE'⟩
        · exact hE'
        · exact hE'
      apply bind (ih (fun c hc => hmem c (by simp [hc])) h' hE')
      intro rest h'' hE''
      exact pure hE''
  suffices hloop : ∀ todo done h, l = done ++ todo → I done h →
      Within A n h (Net.collectAll f todo)
        (fun errs h => errs = [] ∧ I l h ∨ errs ≠ [] ∧ E h) F from hloop l [] h rfl hinit
  intro todo
  induction todo with
  | nil =>
    intro done h hl hI
    rw [List.append_nil] at hl
    exact pure (.inl ⟨rfl, hl ▸ hI⟩)
  | cons b todo ih =>
    intro done h hl hI
    apply bind (hstep done b todo hl h hI).collect
    rintro errs h' (⟨rfl, hI'⟩ | ⟨hne, hE⟩)
    · apply bind (ih (done ++ [b]) h' (by simp [hl]) hI')
      intro rest h'' hrest
      exact pure hrest
    · apply bind (hafter todo (fun c hc => by simp [hl, hc]) h' hE)
      intro rest h'' hE''
      exact pure (.inr ⟨by simp [hne], hE''⟩)

end Within

/-! ## Runs without failures -/

/-- The result and the final host when no call fails but those the host refuses. -/
def Net.eval (p : Net α) (h : Host) : Except String α × Host :=
  ((p.run.exec answer (h, [])).1, (p.run.exec answer (h, [])).2.1)

theorem exec_faultless (p : Prog Cmd Cmd.Response α) (h : Host) :
    (p.exec answer (h, [])).2 = ((p.exec answer (h, [])).2.1, []) := by
  induction p generalizing h with
  | pure a => rfl
  | call c k ih =>
    cases c with
    | sys c => exact ih _ _
    | publish config => exact ih _ _

/-- The run behind an evaluation. -/
theorem Net.exec_of_eval {p : Net α} {r : Except String α} {h' : Host}
    (heval : p.eval h = (r, h')) : p.run.exec answer (h, []) = (r, h', []) := by
  obtain ⟨hresult, hhost⟩ := Prod.ext_iff.mp heval
  exact Prod.ext hresult ((exec_faultless p.run h).trans (congrArg (·, []) hhost))

theorem Net.eval_bind_ok {p : Net β} {f : β → Net α} {h' : Host} {b : β}
    (hp : p.eval h = (.ok b, h')) : (p >>= f).eval h = (f b).eval h' := by
  simp only [Net.eval, ExceptT.run_bind, Prog.exec_bind, Net.exec_of_eval hp]

theorem Net.eval_bind_error {p : Net β} {f : β → Net α} {h' : Host} {e : String}
    (hp : p.eval h = (.error e, h')) : (p >>= f).eval h = (.error e, h') := by
  simp only [Net.eval, ExceptT.run_bind, Prog.exec_bind, Net.exec_of_eval hp]
  rfl

/-- A step that only reads, followed by a step that only reads. -/
theorem Net.eval_bind_reads {p : Net β} {f : β → Net α} {r : Except String β}
    {g : β → Except String α} (hp : p.eval h = (r, h))
    (hf : ∀ b, (f b).eval h = (g b, h)) : (p >>= f).eval h = (r >>= g, h) := by
  cases r with
  | ok b => rw [Net.eval_bind_ok hp, hf b]; rfl
  | error e => exact Net.eval_bind_error hp

/-- A loop of steps that only read. -/
theorem Net.eval_mapM_reads {f : β → Net α} {g : β → Except String α}
    (hf : ∀ b, (f b).eval h = (g b, h)) (l : List β) : (l.mapM f).eval h = (l.mapM g, h) := by
  induction l with
  | nil => rfl
  | cons b l ih =>
    rw [List.mapM_cons, List.mapM_cons]
    apply Net.eval_bind_reads (hf b)
    intro a
    apply Net.eval_bind_reads ih
    intro as
    rfl

/-- Every host a program passes through: before each command, and at the end. -/
def Net.hosts (p : Net α) (h : Host) (faults : List Bool) : List Host :=
  (p.run.steps answer (h, faults)).map (·.1.1) ++ [(p.run.exec answer (h, faults)).2.1]

/-- A property that holds before every command and at the end holds throughout. -/
theorem Within.hosts {P : Host → Prop} {p : Net α}
    (hp : Within (fun h _ => P h) n h p (fun _ h => P h) P) {faults : List Bool}
    (hf : faults.count true ≤ n) : ∀ h' ∈ p.hosts h faults, P h' := by
  obtain ⟨hsteps, -, hend⟩ := (Prog.guarded_iff _ _ _).mp (hp faults hf)
  intro h' hmem
  rcases List.mem_append.mp hmem with hmem | hmem
  · obtain ⟨e, he, rfl⟩ := List.mem_map.mp hmem
    exact hsteps e he
  · rw [List.mem_singleton.mp hmem]
    cases hr : (p.run.exec answer (h, faults)).1 with
    | ok a =>
      rw [hr] at hend
      exact hend
    | error e =>
      rw [hr] at hend
      exact hend

/-- What a successful run ends in. -/
theorem Within.of_ok {Q : α → Host → Prop} {E : Host → Prop} {p : Net α} (hp : Within A n h p Q E)
    {faults : List Bool} (hf : faults.count true ≤ n) {a : α}
    (hrun : (p.run.exec answer (h, faults)).1 = .ok a) :
    Q a (p.run.exec answer (h, faults)).2.1 := by
  obtain ⟨-, -, hend⟩ := (Prog.guarded_iff _ _ _).mp (hp faults hf)
  rw [hrun] at hend
  exact hend

theorem Net.mem_hosts_self (p : Net α) (h : Host) (faults : List Bool) :
    h ∈ p.hosts h faults := by
  unfold Net.hosts
  cases p.run with
  | pure a => exact List.mem_cons_self ..
  | call c k => exact List.mem_cons_self ..

/-- After a step that succeeds, the program passes through the hosts of the rest. -/
theorem Net.mem_hosts_bind {p : Net β} {f : β → Net α} {h' x : Host} {b : β}
    (hp : p.eval h = (.ok b, h')) (hx : x ∈ (f b).hosts h' []) : x ∈ (p >>= f).hosts h [] := by
  unfold Net.hosts at hx ⊢
  simp only [ExceptT.run_bind, Prog.steps_bind, Prog.exec_bind, Net.exec_of_eval hp,
    List.map_append, List.append_assoc]
  exact List.mem_append_right _ hx

end SakhtarWg
