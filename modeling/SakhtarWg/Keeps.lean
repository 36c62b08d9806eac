import SakhtarWg.HostLogic

/-!
# Properties a program keeps

A property of the host that is kept by every call a program makes holds in all the hosts
the program passes through, whichever calls fail. What a step returns may be carried along
as a fact that does not mention the host, so it is still true when a later call relies on it.
-/

namespace SakhtarWg
open Program

variable {α β γ : Type} {P : Host → Prop}

/-- From a host with `P` the program passes through hosts with `P` only, and a result it
returns meets `Q`. -/
def Net.Keeps (P : Host → Prop) (p : Net α) (Q : α → Prop) : Prop :=
  ∀ n h, P h → Within (fun h _ => P h) n h p (fun a h => P h ∧ Q a) P

/-- As `Keeps`, with nothing said about the result. -/
abbrev Net.Stays (P : Host → Prop) (p : Net α) : Prop := p.Keeps P fun _ => True

theorem Within.weaken {A B : Host → Cmd → Prop} {n : ℕ} {h : Host} {p : Net α}
    {Q : α → Host → Prop} {E : Host → Prop} (hp : Within A n h p Q E)
    (hAB : ∀ h c, A h c → B h c) : Within B n h p Q E := by
  intro faults hf
  have hrun := (Prog.guarded_iff _ _ _).mp (hp faults hf)
  exact (Prog.guarded_iff _ _ _).mpr ⟨fun e he => hAB _ _ (hrun.1 e he), hrun.2⟩

namespace Net.Keeps

variable {Q R : α → Prop} {c : Sys} {wrap : String → String}

theorem mono {p : Net α} (hp : p.Keeps P R) (h : ∀ a, R a → Q a) : p.Keeps P Q := fun n host hP =>
  (hp n host hP).mono (fun a _ ha => ⟨ha.1, h a ha.2⟩) fun _ he => he

theorem pure {a : α} (ha : Q a) : (Pure.pure a : Net α).Keeps P Q :=
  fun _ _ hP => Within.pure ⟨hP, ha⟩

theorem throw {e : String} : (throw e : Net α).Keeps P Q := fun _ _ hP => Within.throw hP

theorem bind {S : β → Prop} {p : Net β} {f : β → Net α} (hp : p.Keeps P S)
    (hf : ∀ b, S b → (f b).Keeps P Q) : (p >>= f).Keeps P Q := fun n h hP =>
  Within.bind (hp n h hP) fun b h' hb => hf b hb.2 n h' hb.1

/-- A step whose result nothing is known about. -/
theorem next {S : β → Prop} {p : Net β} {f : β → Net α} (hp : p.Keeps P S)
    (hf : ∀ b, (f b).Keeps P Q) : (p >>= f).Keeps P Q := bind hp fun b _ => hf b

theorem ofExcept {r : Except String α} (h : ∀ a, r = .ok a → Q a) : (Net.ofExcept r).Keeps P Q :=
  fun _ _ hP => Within.ofExcept (fun a ha => ⟨hP, h a ha⟩) fun _ _ => hP

theorem result {r : Except String α} : (Net.ofExcept r).Stays P := ofExcept fun _ _ => trivial

theorem require {c : Bool} {e : String} : (Net.require c e).Stays P := result

theorem ite {c : Prop} [Decidable c] {p q : Net α} (hp : p.Keeps P Q) (hq : q.Keeps P Q) :
    Net.Keeps P (if c then p else q) Q := by
  split
  · exact hp
  · exact hq

theorem publish {c : Config} (hc : ∀ h, P h → P { h with published := some c }) :
    Net.Stays P (ExceptT.lift (Prog.perform (Cmd.publish c)) : Net Unit) :=
  fun _ h hP _ hf => ⟨hP, hf, hc h hP, trivial⟩

theorem call (hc : ∀ h, P h → P (h.call c).2) : (Net.call c).Stays P :=
  fun _ h hP => Within.call hP ⟨hc h hP, trivial⟩ fun _ => ⟨hP, trivial⟩

theorem check (hc : ∀ h, P h → P (h.call c).2) : (Net.check c wrap).Stays P := by
  apply next (call hc)
  intro r
  cases r with
  | ok v => exact pure trivial
  | error e => exact throw

theorem delete (hc : ∀ h, P h → P (h.call c).2) : (Net.delete c wrap).Stays P := by
  apply next (call hc)
  intro r
  cases r with
  | ok v => exact pure trivial
  | error e =>
    cases e with
    | noEnt => exact pure trivial
    | _ => exact throw

theorem attempt {p : Net α} (hp : p.Keeps P Q) :
    Net.Keeps P (Prog.attempt p) fun r => ∀ a, r = .ok a → Q a := by
  intro n h hP
  apply Within.mono (hp n h hP).attempt
  · intro r h' hr
    cases r with
    | ok a => exact ⟨hr.1, fun b hb => Except.ok.inj hb ▸ hr.2⟩
    | error e => exact ⟨hr, fun b hb => by cases hb⟩
  · exact fun _ he => he

theorem within {label : String} {p : Net α} (hp : p.Keeps P Q) : (Net.within label p).Keeps P Q :=
  fun n h hP => (hp n h hP).within

theorem whenever {c : Bool} {p : Net Unit} (hp : p.Stays P) : (Net.whenever c p).Stays P := by
  cases c with
  | true => exact hp
  | false => exact pure trivial

theorem collect {p : Net Unit} (hp : p.Stays P) : (Net.collect p).Stays P := by
  apply next hp.attempt
  intro r
  cases r <;> exact pure trivial

/-- What a program that only reads finds out of the host it runs on. -/
theorem ofReads {p : Net α} {F : Host → α → Prop} (hp : ∀ h, p.Keeps (· = h) (F h))
    (hF : ∀ h a, F h a → Q a) : p.Keeps P Q := fun n h hP =>
  ((hp h n h rfl).weaken fun _ _ hh => hh ▸ hP).mono (fun a _ ha => ⟨ha.1 ▸ hP, hF h a ha.2⟩)
    fun _ hh => hh ▸ hP

/-! ## Loops -/

theorem forM {f : β → Net Unit} {l : List β} (hf : ∀ b ∈ l, (f b).Stays P) :
    (l.forM f).Stays P := by
  induction l with
  | nil => exact pure trivial
  | cons b l ih =>
    apply next (hf b (.head _))
    exact fun _ => ih fun c hc => hf c (.tail b hc)

theorem foldlM {S : γ → Prop} {f : γ → β → Net γ} {l : List β}
    (hf : ∀ acc, S acc → ∀ b, (f acc b).Keeps P S) {start : γ} (hstart : S start) :
    (l.foldlM f start).Keeps P S := by
  induction l generalizing start with
  | nil => exact pure hstart
  | cons b l ih =>
    rw [List.foldlM_cons]
    exact bind (hf start hstart b) fun acc hacc => ih hacc

/-- What is known of each result by the element it is for. -/
theorem mapM {S : β → γ → Prop} {f : β → Net γ} {l : List β}
    (hf : ∀ b, (f b).Keeps P (S b)) : (l.mapM f).Keeps P fun out => List.Forall₂ S l out := by
  induction l with
  | nil => exact pure .nil
  | cons b l ih =>
    rw [List.mapM_cons]
    exact bind (hf b) fun c hc => bind ih fun out hout => pure (.cons hc hout)

theorem collectAll {f : β → Net Unit} {l : List β} (hf : ∀ b ∈ l, (f b).Stays P) :
    (Net.collectAll f l).Stays P := by
  induction l with
  | nil => exact pure trivial
  | cons b l ih =>
    apply next (collect (hf b (.head _)))
    exact fun _ => next (ih fun c hc => hf c (.tail b hc)) fun _ => pure trivial

/-! ## Runs -/

/-- A program that keeps the property, as a step of a longer one. -/
theorem during {p : Net α} (hp : p.Keeps P Q) {A : Host → Cmd → Prop} {n : ℕ} {h : Host} (hP : P h)
    (hA : ∀ h c, P h → A h c) : Within A n h p (fun a h => P h ∧ Q a) P :=
  (hp n h hP).weaken hA

/-- The property holds in every host the program passes through. -/
theorem hosts {p : Net α} (hp : p.Keeps P Q) {h : Host} (hP : P h) (faults : List Bool) :
    ∀ h' ∈ p.hosts h faults, P h' :=
  ((hp (faults.count true) h hP).mono (fun _ _ ha => ha.1) fun _ he => he).hosts le_rfl

end Net.Keeps

/-- The host a program leaves behind. -/
def Net.final (p : Net α) (h : Host) (faults : List Bool) : Host :=
  (p.run.exec answer (h, faults)).2.1

theorem Net.final_mem_hosts (p : Net α) (h : Host) (faults : List Bool) :
    p.final h faults ∈ p.hosts h faults := by
  simp [Net.hosts, Net.final]

end SakhtarWg
