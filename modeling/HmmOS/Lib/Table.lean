import Mathlib.Data.List.AList
import Mathlib.Logic.Function.Basic

/-! # Tables and their indexes

A table has an entry, or none, at each place. An index of it finds the place by the key of
its entry, and stays right when an entry and its key come or go together.
-/
namespace HmmOS.Lib
open Function
variable {κ ι τ : Type*} {index : κ → Option ι} {key : ι → Option κ} {k : κ} {i : ι}

def Indexes (index : κ → Option ι) (key : ι → Option κ) : Prop := ∀ k i, index k = some i ↔ key i = some k

theorem indexes_empty : Indexes (fun _ : κ => (none : Option ι)) fun _ => none := fun _ _ => iff_of_false nofun nofun

section Update
variable [DecidableEq κ] [DecidableEq ι]

theorem Indexes.insert (h : Indexes index key) (hk : index k = none) (hi : key i = none) :
    Indexes (update index k (some i)) (update key i (some k)) := by
  intro k' i'
  rw [update_apply, update_apply]
  split_ifs with hk' hi' hi'
  · rw [hk', hi']
    exact iff_of_true rfl rfl
  · rw [hk', ← h, hk]
    simp [Ne.symm hi']
  · rw [hi', h, hi]
    simp [Ne.symm hk']
  · exact h k' i'

theorem Indexes.erase (h : Indexes index key) (hi : key i = some k) :
    Indexes (update index k none) (update key i none) := by
  intro k' i'
  rw [update_apply, update_apply]
  split_ifs with hk' hi' hi'
  · exact iff_of_false nofun nofun
  · rw [hk', ← h, (h k i).mpr hi]
    simp [Ne.symm hi']
  · rw [hi', h, hi]
    simp [Ne.symm hk']
  · exact h k' i'

end Update

section Table
variable {table : ι → Option τ} {f : τ → κ} {t t' : τ}

theorem Indexes.find (h : Indexes index (Option.map f ∘ table)) : index k = some i ↔ ∃ t, table i = some t ∧ f t = k :=
  (h k i).trans Option.map_eq_some_iff

theorem Indexes.set [DecidableEq ι] (h : Indexes index (Option.map f ∘ table)) (hi : table i = some t) (ht : f t' = f t) :
    Indexes index (Option.map f ∘ update table i (some t')) := by
  rw [comp_update, Option.map_some, ht, ← Option.map_some, ← hi]
  exact (congrArg (Indexes index) (update_eq_self i _)).mpr h

end Table

section Lookup
variable [DecidableEq κ]

theorem lookup_insert_eq (m : AList fun _ : κ => ι) : (m.insert k i).lookup = update m.lookup k (some i) := by
  funext k'
  rw [update_apply]
  split_ifs with hk
  · rw [hk, AList.lookup_insert]
  · exact AList.lookup_insert_ne hk

theorem lookup_erase_eq (m : AList fun _ : κ => ι) : (m.erase k).lookup = update m.lookup k none := by
  funext k'
  rw [update_apply]
  split_ifs with hk
  · rw [hk, AList.lookup_erase]
  · exact AList.lookup_erase_ne hk

end Lookup

section Places
variable [DecidableEq ι] {α β : Type*}

/-- What holds at every place holds after a change at one of them. -/
theorem forall_update₂ {P : α → β → Prop} {f : ι → α} {g : ι → β} {a : α} {b : β}
    (h : ∀ j, P (f j) (g j)) (hi : P a b) (j : ι) : P (update f i a j) (update g i b j) := by
  rw [update_apply, update_apply]
  split_ifs
  · exact hi
  · exact h j

variable {R : α → α → Prop} {f : ι → Option α} {x : Option α}

theorem update_ne_none_iff {P Q : ι → Prop} (h : ∀ j, f j ≠ none ↔ P j) (hQ : ∀ j, j ≠ i → (Q j ↔ P j))
    (hi : Q i ↔ x ≠ none) (j : ι) : update f i x j ≠ none ↔ Q j := by
  rw [update_apply]
  split_ifs with hj
  · rw [hj, hi]
  · rw [hQ j hj, h]

variable (hR : ∀ a, R a a)
include hR

theorem kept_update (hi : ∀ a, f i = some a → ∃ b, x = some b ∧ R a b) (j : ι) (a : α) (hj : f j = some a) :
    ∃ b, update f i x j = some b ∧ R a b := by
  rw [update_apply]
  split_ifs with h
  · exact hi a (h ▸ hj)
  · exact ⟨a, hj, hR a⟩

theorem kept_of_update (hi : ∀ a, x = some a → ∃ b, f i = some b ∧ R a b) (j : ι) (a : α)
    (hj : update f i x j = some a) : ∃ b, f j = some b ∧ R a b := by
  rw [update_apply] at hj
  split_ifs at hj with h
  · exact h ▸ hi a hj
  · exact ⟨a, hj, hR a⟩

end Places

end HmmOS.Lib
