import HmmOS.Lib.Outcome

/-! # Programs that ask an environment

A program returns, stops, or asks a question and goes on with the answer. Conditions
on the questions are proved along the program, for all answers at once.
-/
namespace HmmOS.Lib

/-- A program with questions `r : ρ`, answers in `β r`, results in `α` and reasons `ε` to stop. -/
inductive Interaction (ρ : Type) (β : ρ → Type) (ε α : Type) where
  | ret (a : α)
  | stop (e : ε)
  | ask (r : ρ) (k : β r → Interaction ρ β ε α)

namespace Interaction
variable {ρ : Type} {β : ρ → Type} {ε ε' α γ δ : Type}

def bind (p : Interaction ρ β ε α) (f : α → Interaction ρ β ε γ) : Interaction ρ β ε γ :=
  match p with
  | ret a => f a
  | stop e => stop e
  | ask r k => ask r fun b => (k b).bind f

instance : Monad (Interaction ρ β ε) where
  pure := ret
  bind := bind

def call (r : ρ) : Interaction ρ β ε (β r) := ask r ret

def lift : Except ε α → Interaction ρ β ε α
  | .ok a => ret a
  | .error e => stop e

@[simp] theorem ask_bind (r : ρ) (k : β r → Interaction ρ β ε α) (f : α → Interaction ρ β ε γ) :
    (ask r k >>= f) = ask r fun b => k b >>= f := rfl

theorem bind_ret (p : Interaction ρ β ε α) : p.bind ret = p := by
  induction p with
  | ret a => rfl
  | stop e => rfl
  | ask r k ih =>
    rw [bind]
    congr
    funext b
    exact ih b

theorem bind_bind (p : Interaction ρ β ε α) (f : α → Interaction ρ β ε γ)
    (g : γ → Interaction ρ β ε δ) : (p.bind f).bind g = p.bind fun a => (f a).bind g := by
  induction p with
  | ret a => rfl
  | stop e => rfl
  | ask r k ih =>
    rw [bind, bind, bind]
    congr
    funext b
    exact ih b

instance : LawfulMonad (Interaction ρ β ε) :=
  LawfulMonad.mk' _ bind_ret (fun _ _ => rfl) bind_bind

section Run
variable (answer : ∀ r, Except ε (β r))

def run : Interaction ρ β ε α → Except ε α
  | ret a => .ok a
  | stop e => .error e
  | ask r k => answer r >>= fun b => run (k b)

/-- The questions of a run, up to one that has no answer. -/
def asked : Interaction ρ β ε α → List ρ
  | ret _ => []
  | stop _ => []
  | ask r k =>
    r :: match answer r with
      | .ok b => asked (k b)
      | .error _ => []

variable {answer}

@[simp] theorem run_call (r : ρ) : (call r : Interaction ρ β ε (β r)).run answer = answer r := by
  rw [call, run]
  cases answer r with
  | ok b => rfl
  | error e => rfl

@[simp] theorem run_lift (x : Except ε α) : (lift x : Interaction ρ β ε α).run answer = x := by
  cases x with
  | ok a => rfl
  | error e => rfl

@[simp] theorem run_bind (p : Interaction ρ β ε α) (f : α → Interaction ρ β ε γ) :
    (p >>= f).run answer = p.run answer >>= fun a => (f a).run answer := by
  induction p with
  | ret a => rfl
  | stop e => rfl
  | ask r k ih =>
    rw [ask_bind, run, run, bind_assoc]
    exact bind_congr ih

/-- The questions of the second program are asked if the first one returns. -/
theorem asked_bind (p : Interaction ρ β ε α) (f : α → Interaction ρ β ε γ) : (p >>= f).asked answer =
    p.asked answer ++ match p.run answer with
      | .ok a => (f a).asked answer
      | .error _ => [] := by
  induction p with
  | ret a => rfl
  | stop e => rfl
  | ask r k ih =>
    rw [ask_bind, asked, asked, run, List.cons_append]
    cases answer r with
    | ok b => exact congrArg _ (ih b)
    | error e => rfl

end Run

section Exec
variable {τ : Type}

/-- A run against a machine whose state the questions change, if it does not stop. -/
def exec (act : τ → ∀ r, Option (β r × τ)) : Interaction ρ β ε α → τ → Option (α × τ)
  | ret a, m => some (a, m)
  | stop _, _ => none
  | ask r k, m => (act m r).bind fun x => exec act (k x.1) x.2

theorem exec_bind (act : τ → ∀ r, Option (β r × τ)) (p : Interaction ρ β ε α)
    (f : α → Interaction ρ β ε γ) (m : τ) :
    (p >>= f).exec act m = (p.exec act m).bind fun x => (f x.1).exec act x.2 := by
  induction p generalizing m with
  | ret a => rfl
  | stop e => rfl
  | ask r k ih =>
    rw [ask_bind, exec, exec, Option.bind_assoc]
    exact Option.bind_congr fun x _ => ih x.1 x.2

end Exec

/-- Every question that the program may ask satisfies `P`, whatever the answers are. -/
def Always (P : ρ → Prop) : Interaction ρ β ε α → Prop
  | ret _ => True
  | stop _ => True
  | ask r k => P r ∧ ∀ b, Always P (k b)

namespace Always
variable {P : ρ → Prop} {p : Interaction ρ β ε α}

theorem call {r : ρ} (h : P r) : Always P (call r : Interaction ρ β ε (β r)) :=
  ⟨h, fun _ => trivial⟩

theorem lift (x : Except ε α) : Always P (lift x : Interaction ρ β ε α) := by
  cases x with
  | ok a => trivial
  | error e => trivial

theorem bind {f : α → Interaction ρ β ε γ} (hp : Always P p) (hf : ∀ a, Always P (f a)) :
    Always P (p >>= f) := by
  induction p with
  | ret a => exact hf a
  | stop e => trivial
  | ask r k ih => exact ⟨hp.1, fun b => ih b (hp.2 b)⟩

theorem asked (hp : Always P p) {answer : ∀ r, Except ε (β r)} {r : ρ} (hr : r ∈ p.asked answer) : P r := by
  induction p with
  | ret a => cases hr
  | stop e => cases hr
  | ask q k ih =>
    rw [Interaction.asked, List.mem_cons] at hr
    rcases hr with rfl | hr
    · exact hp.1
    · cases hans : answer q with
      | ok b =>
        rw [hans] at hr
        exact ih b (hp.2 b) hr
      | error e =>
        rw [hans] at hr
        cases hr

end Always

section Keeps
variable {σ : Type} {step : σ → ρ → Option σ} {s t u : σ}

/-- The questions drive a machine from `s` to `t` without a wrong step, whatever the answers are. -/
def Keeps (step : σ → ρ → Option σ) (t : σ) : σ → Interaction ρ β ε α → Prop
  | s, ret _ => s = t
  | _, stop _ => True
  | s, ask r k => ∃ s', step s r = some s' ∧ ∀ b, Keeps step t s' (k b)

theorem Keeps.bind {p : Interaction ρ β ε α} {f : α → Interaction ρ β ε γ} (hp : Keeps step t s p)
    (hf : ∀ a, Keeps step u t (f a)) : Keeps step u s (p >>= f) := by
  induction p generalizing s with
  | ret a => exact hp ▸ hf a
  | stop e => trivial
  | ask r k ih =>
    obtain ⟨s', hs, hk⟩ := hp
    exact ⟨s', hs, fun b => ih b (hk b)⟩

/-- Along a run against a second machine, the states of the two stay related. -/
theorem Keeps.exec {τ : Type} (rel : σ → τ → Prop) {act : τ → ∀ r, Option (β r × τ)} {p : Interaction ρ β ε α}
    {a : α} {m m' : τ} (hp : Keeps step t s p)
    (hstep : ∀ s r s' m x, step s r = some s' → rel s m → act m r = some x → rel s' x.2) (hm : rel s m)
    (hrun : p.exec act m = some (a, m')) : rel t m' := by
  induction p generalizing s m with
  | ret b =>
    obtain ⟨-, rfl⟩ := Prod.mk.inj (Option.some.inj hrun)
    exact hp ▸ hm
  | stop e => cases hrun
  | ask r k ih =>
    obtain ⟨s', hs, hk⟩ := hp
    obtain ⟨x, hx, hrun⟩ := Option.bind_eq_some_iff.mp hrun
    exact ih x.1 (hk x.1) (hstep s r s' m x hs hm hx) hrun

theorem Keeps.asked {p : Interaction ρ β ε α} (hp : Keeps step t s p) (answer : ∀ r, Except ε (β r)) :
    ((p.asked answer).foldlM step s).isSome := by
  induction p generalizing s with
  | ret a => rfl
  | stop e => rfl
  | ask r k ih =>
    obtain ⟨s', hs, hk⟩ := hp
    rw [Interaction.asked, List.foldlM_cons, hs]
    cases answer r with
    | ok b => exact ih b (hk b)
    | error e => rfl

end Keeps

end Interaction

end HmmOS.Lib
