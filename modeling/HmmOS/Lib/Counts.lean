import Mathlib.Data.Set.Card

/-! # Counters of sets

A counter is exact when it is the number of elements of a set. One more or one
less element keeps it exact.
-/
namespace HmmOS.Lib
variable {α : Type*} {n : ℕ} {s : Set α} {a : α}

/-- `n` is the number of elements of `s`. -/
def Counts (n : ℕ) (s : Set α) : Prop := s.encard = n

theorem Counts.zero_iff : Counts 0 s ↔ s = ∅ := by
  rw [Counts, Nat.cast_zero, Set.encard_eq_zero]

theorem Counts.pos_of_mem (h : Counts n s) (ha : a ∈ s) : 0 < n := by
  rcases Nat.eq_zero_or_pos n with rfl | hn
  · rw [Counts.zero_iff.mp h] at ha
    exact absurd ha (Set.notMem_empty a)
  · exact hn

theorem Counts.insert (h : Counts n s) (ha : a ∉ s) : Counts (n + 1) (insert a s) := by
  rw [Counts, Set.encard_insert_of_notMem ha, h, Nat.cast_add, Nat.cast_one]

theorem Counts.of_nodup {l : List α} (h : l.Nodup) : Counts l.length {b | b ∈ l} := by
  induction l with
  | nil => exact Counts.zero_iff.mpr (by simp)
  | cons a l ih =>
    have hset : {b | b ∈ a :: l} = Insert.insert a {b | b ∈ l} := by
      ext b
      simp
    rw [hset]
    exact (ih h.of_cons).insert h.notMem

theorem Counts.erase (h : Counts n s) (ha : a ∈ s) : Counts (n - 1) (s \ {a}) := by
  have hpos := h.pos_of_mem ha
  have hsum := Set.encard_sdiff_singleton_add_one ha
  rw [h] at hsum
  have hn : (n : ℕ∞) = ((n - 1 : ℕ) : ℕ∞) + 1 := by
    exact_mod_cast (Nat.sub_add_cancel hpos).symm
  rw [hn] at hsum
  exact ENat.add_left_injective_of_ne_top ENat.one_ne_top hsum

theorem Counts.preimage (h : Counts n s) (e : Equiv.Perm α) : Counts n (Set.preimage e s) := by
  rw [Counts, Set.encard_preimage_of_bijective e.bijective]
  exact h

end HmmOS.Lib
