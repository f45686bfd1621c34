import Mathlib.Logic.Function.Basic

/-! # Named objects and what each of them stands for -/
namespace HmmOS.Lib.Slots
open Function

variable {ι α β : Type*} {R : α → β → Prop} {f : ι → Option α} {g : ι → Option β}

/-- The same names are in use, each for related objects. -/
def Related (R : α → β → Prop) (f : ι → Option α) (g : ι → Option β) : Prop := ∀ i, Option.Rel R (f i) (g i)

theorem Related.of_right (h : Related R f g) {i : ι} {b : β} (hi : g i = some b) : ∃ a, f i = some a ∧ R a b := by
  have hrel := h i
  generalize f i = x at hrel ⊢
  rw [hi] at hrel
  cases hrel with
  | some hab => exact ⟨_, rfl, hab⟩

theorem Related.eq_none (h : Related R f g) {i : ι} (hi : g i = none) : f i = none := by
  have hrel := h i
  generalize f i = x at hrel ⊢
  rw [hi] at hrel
  cases hrel
  rfl

theorem Related.update [DecidableEq ι] (h : Related R f g) {i : ι} {x : Option α} {y : Option β}
    (hxy : Option.Rel R x y) : Related R (update f i x) (update g i y) := by
  intro k
  by_cases hk : k = i
  · rw [hk, update_self, update_self]
    exact hxy
  · rw [update_of_ne hk, update_of_ne hk]
    exact h k

theorem Related.swap [DecidableEq ι] (h : Related R f g) (i j : ι) :
    Related R (Function.update (Function.update f i (f j)) j (f i))
      (Function.update (Function.update g i (g j)) j (g i)) :=
  (h.update (h j)).update (h i)

end HmmOS.Lib.Slots
