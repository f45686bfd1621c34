import Mathlib.Data.Nat.Notation
import Mathlib.Tactic.Common

/-! # Loops that end at the first turn that fails -/
namespace HmmOS.Lib

variable {σ : Type*}

def turns (step : ℕ → σ → Option (σ × Bool)) : ℕ → ℕ → σ → Option (σ × Bool)
  | 0, _, s => some (s, true)
  | n + 1, i, s => (step i s).bind fun r => if r.2 then turns step n (i + 1) r.1 else some (r.1, false)

/-- `Inv i` holds before turn `i`, and `Stop i` after it if it fails. -/
theorem turns_spec (Inv : ℕ → σ → Prop) {Stop : ℕ → σ → Prop} {step : ℕ → σ → Option (σ × Bool)} {n i : ℕ} {s : σ}
    (hstep : ∀ j, i ≤ j → j < i + n → ∀ s, Inv j s →
      ∃ s' ok, step j s = some (s', ok) ∧ (ok = true ∧ Inv (j + 1) s' ∨ ok = false ∧ Stop j s')) (h : Inv i s) :
    ∃ k ≤ n, ∃ s', turns step n i s = some (s', decide (k = n)) ∧
      (k = n ∧ Inv (i + k) s' ∨ k < n ∧ Stop (i + k) s') := by
  induction n generalizing i s with
  | zero => exact ⟨0, Nat.le_refl 0, s, rfl, .inl ⟨rfl, h⟩⟩
  | succ n ih =>
    obtain ⟨s', ok, hturn, ⟨rfl, hnext⟩ | ⟨rfl, hstop⟩⟩ := hstep i (Nat.le_refl i) (by omega) s h
    · obtain ⟨k, hk, s'', hrest, hcase⟩ := ih (fun j hj hlt => hstep j (by omega) (by omega)) hnext
      rw [show i + 1 + k = i + (k + 1) by omega] at hcase
      refine ⟨k + 1, by omega, s'', ?_, hcase.imp (And.imp_left (by omega)) (And.imp_left (by omega))⟩
      simp [turns, hturn, hrest]
    · exact ⟨0, Nat.zero_le _, s', by simp [turns, hturn], .inr ⟨Nat.succ_pos n, hstop⟩⟩

end HmmOS.Lib
