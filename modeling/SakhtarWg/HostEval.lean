import SakhtarWg.HostLogic

/-!
# Determined runs

One equation for each way a program is put together, programs that only read, and runs
in which the kernel accepts every change it is asked for.
-/

namespace SakhtarWg
open Program

variable {α β : Type} {h h' : Host} {c : Sys}

/-! ## Steps -/

theorem ofExcept_eval (h : Host) (r : Except String α) : (Net.ofExcept r).eval h = (r, h) := rfl

theorem Net.call_eval (h : Host) (c : Sys) :
    (Net.call c).eval h = (.ok (h.call c).1, (h.call c).2) := rfl

theorem Net.check_eval {wrap : String → String} {v : c.Value} (hcall : h.call c = (.ok v, h')) :
    (Net.check c wrap).eval h = (.ok v, h') := by
  have heval := Net.call_eval h c
  rw [hcall] at heval
  unfold Net.check
  rw [Net.eval_bind_ok heval]
  rfl

theorem Net.check_refused {wrap : String → String} {e : Errno} (hcall : (h.call c).1 = .error e) :
    (Net.check c wrap).eval h = (.error (wrap e.message), h) := by
  have heval := Net.call_eval h c
  rw [hcall, Host.call_error hcall] at heval
  unfold Net.check
  rw [Net.eval_bind_ok heval]
  rfl

theorem Net.attempt_eval (p : Net α) (h : Host) :
    Net.eval (Prog.attempt p) h = (.ok (p.eval h).1, (p.eval h).2) := by
  unfold Net.eval Prog.attempt
  rw [ExceptT.run_mk, Prog.exec_bind]
  rfl

/-- The errors a step leaves for a caller that carries on. -/
def errorsOf : Except String Unit → List String
  | .ok _ => []
  | .error e => [e]

theorem Net.collect_eval (p : Net Unit) (h : Host) :
    (Net.collect p).eval h = (.ok (errorsOf (p.eval h).1), (p.eval h).2) := by
  unfold Net.collect
  rw [Net.eval_bind_ok (Net.attempt_eval p h)]
  cases (p.eval h).1 with
  | ok a => rfl
  | error e => rfl

/-- A sequence that succeeds went through its first step. -/
theorem Net.eval_bind_eq_ok {p : Net β} {f : β → Net α} {a : α}
    (hok : (p >>= f).eval h = (.ok a, h')) :
    ∃ b h₁, p.eval h = (.ok b, h₁) ∧ (f b).eval h₁ = (.ok a, h') := by
  cases hr : (p.eval h).1 with
  | ok b =>
    have hp : p.eval h = (.ok b, (p.eval h).2) := Prod.ext hr rfl
    rw [Net.eval_bind_ok hp] at hok
    exact ⟨b, _, hp, hok⟩
  | error e =>
    rw [Net.eval_bind_error (Prod.ext hr rfl : p.eval h = (.error e, (p.eval h).2))] at hok
    cases hok

/-! ## Reading -/

/-- The program leaves every host as it is. -/
def Net.Reads (p : Net α) : Prop := ∀ h, (p.eval h).2 = h

/-- What a program that only reads finds out. -/
def Net.ask (p : Net α) (h : Host) : Except String α := (p.eval h).1

namespace Net.Reads

theorem eval {p : Net α} (hp : p.Reads) (h : Host) : p.eval h = (p.ask h, h) := Prod.ext rfl (hp h)

theorem eval_eq {p : Net α} (hp : p.Reads) {r : Except String α} (hask : p.ask h = r) :
    p.eval h = (r, h) := Prod.ext hask (hp h)

theorem ofExcept (r : Except String α) : (Net.ofExcept r).Reads := fun _ => rfl

theorem pure (a : α) : (Pure.pure a : Net α).Reads := fun _ => rfl

theorem throw (e : String) : (throw e : Net α).Reads := fun _ => rfl

theorem bind {p : Net β} {f : β → Net α} (hp : p.Reads) (hf : ∀ b, (f b).Reads) :
    (p >>= f).Reads := by
  intro h
  rw [Net.eval_bind_reads (hp.eval h) fun b => (hf b).eval h]

theorem attempt {p : Net α} (hp : p.Reads) : Net.Reads (Prog.attempt p) := by
  intro h
  rw [Net.attempt_eval]
  exact hp h

theorem call (hc : ∀ h : Host, (h.call c).2 = h) : (Net.call c).Reads := hc

theorem check {wrap : String → String} (hc : ∀ h : Host, (h.call c).2 = h) :
    (Net.check c wrap).Reads := by
  apply bind (call hc)
  intro r
  cases r with
  | ok v => exact pure v
  | error e => exact throw _

theorem mapM {f : β → Net α} (hf : ∀ b, (f b).Reads) (l : List β) : (l.mapM f).Reads := by
  induction l with
  | nil => exact pure _
  | cons b l ih =>
    rw [List.mapM_cons]
    apply bind (hf b)
    intro a
    apply bind ih
    intro as
    exact pure _

end Net.Reads

theorem Net.ask_bind {p : Net β} {f : β → Net α} (hp : p.Reads) (h : Host) :
    (p >>= f).ask h = p.ask h >>= fun b => (f b).ask h := by
  unfold Net.ask
  cases hr : (p.eval h).1 with
  | ok b =>
    rw [Net.eval_bind_ok (Prod.ext hr (hp h) : p.eval h = (.ok b, h))]
    rfl
  | error e =>
    rw [Net.eval_bind_error (Prod.ext hr (hp h) : p.eval h = (.error e, h))]
    rfl

theorem Net.ask_mapM {f : β → Net α} (hf : ∀ b, (f b).Reads) (l : List β) (h : Host) :
    (l.mapM f).ask h = l.mapM fun b => (f b).ask h := by
  unfold Net.ask
  rw [Net.eval_mapM_reads (fun b => (hf b).eval h)]
  rfl

end SakhtarWg
