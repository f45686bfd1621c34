import Mathlib.Tactic.Common

/-! # Outcomes of computations that may stop

`Ensures allowed x P`: the computation `x` stops only for an allowed reason, and
what it returns satisfies `P`.
-/
namespace HmmOS.Lib
variable {ε α β : Type} {allowed : ε → Prop}

def Ensures (allowed : ε → Prop) (x : Except ε α) (P : α → Prop) : Prop :=
  match x with
  | .ok a => P a
  | .error e => allowed e

@[simp] theorem ok_bind (x : α) (f : α → Except ε β) : (Except.ok x >>= f) = f x := rfl

theorem bind_eq_ok {x : Except ε α} {f : α → Except ε β} {b : β} (h : (x >>= f) = .ok b) :
    ∃ a, x = .ok a ∧ f a = .ok b := by
  cases x with
  | ok a => exact ⟨a, rfl, h⟩
  | error e => cases h

theorem toOption_bind (x : Except ε α) (f : α → Except ε β) :
    (x >>= f).toOption = x.toOption.bind fun a => (f a).toOption := by
  cases x with
  | ok a => rfl
  | error e => rfl

theorem eq_ok_get {x : Except ε α} (h : x.toOption.isSome = true) : x = .ok (x.toOption.get h) := by
  cases x with
  | ok a => rfl
  | error e => cases h

namespace Ensures

variable {P : α → Prop} {x : Except ε α}

theorem pure {a : α} (h : P a) : Ensures allowed (Pure.pure a) P := h

theorem stop {e : ε} (h : allowed e) : Ensures allowed (.error e) P := h

theorem mono {Q : α → Prop} (h : Ensures allowed x P) (hq : ∀ a, P a → Q a) : Ensures allowed x Q := by
  cases x with
  | ok a => exact hq a h
  | error e => exact h

theorem bind {f : α → Except ε β} {Q : β → Prop} (h : Ensures allowed x P)
    (hf : ∀ a, P a → Ensures allowed (f a) Q) : Ensures allowed (x >>= f) Q := by
  cases x with
  | ok a => exact hf a h
  | error e => exact h

theorem of_ok (h : ∃ a, x = .ok a ∧ P a) : Ensures allowed x P := by
  obtain ⟨a, rfl, ha⟩ := h
  exact ha

theorem ok (h : Ensures allowed x P) {a : α} (hx : x = .ok a) : P a := by
  rw [hx] at h
  exact h

theorem error (h : Ensures allowed x P) {e : ε} (hx : x = .error e) : allowed e := by
  rw [hx] at h
  exact h

end Ensures

end HmmOS.Lib
