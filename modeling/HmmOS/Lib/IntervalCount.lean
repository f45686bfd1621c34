import Mathlib.Order.Interval.Finset.Nat

/-! # Counting in an interval

How many numbers of an interval have a property, and how that changes when a block of them
gains or loses it.
-/
namespace HmmOS.Lib
variable {p q : ℕ → Bool} {s e k c : ℕ}

/-- The numbers `s ≤ k < e` for which `p` holds. -/
def countIn (p : ℕ → Bool) (s e : ℕ) : ℕ := ((Finset.Ico s e).filter fun k => p k).card

theorem countIn_le (p : ℕ → Bool) (s e : ℕ) : countIn p s e ≤ e - s := by
  rw [← Nat.card_Ico]
  exact Finset.card_filter_le _ _

theorem countIn_congr (h : ∀ k, s ≤ k → k < e → p k = q k) : countIn p s e = countIn q s e := by
  unfold countIn
  congr 1
  apply Finset.filter_congr
  intro k hk
  rw [h k (Finset.mem_Ico.mp hk).1 (Finset.mem_Ico.mp hk).2]

theorem countIn_or (h : ∀ k, p k = true → q k = false) :
    countIn (fun k => p k || q k) s e = countIn p s e + countIn q s e := by
  unfold countIn
  rw [← Finset.card_union_of_disjoint, ← Finset.filter_or]
  · congr 1
    apply Finset.filter_congr
    intro k _
    rw [Bool.or_eq_true]
  · apply Finset.disjoint_filter.mpr
    intro k _ hp hq
    rw [h k hp] at hq
    cases hq

theorem countIn_interval (b c s e : ℕ) : countIn (fun k => decide (b ≤ k ∧ k < c)) s e = min c e - max b s := by
  have hinter : (Finset.Ico s e).filter (fun k => decide (b ≤ k ∧ k < c) = true) =
      Finset.Ico (max b s) (min c e) := by
    ext k
    simp only [Finset.mem_filter, Finset.mem_Ico, decide_eq_true_eq, max_le_iff, lt_min_iff]
    tauto
  rw [countIn, hinter, Nat.card_Ico]

/-- A block that loses a property is missing from the count. -/
theorem countIn_add_block (hs : s ≤ k) (he : k + c ≤ e)
    (hin : ∀ j, k ≤ j → j < k + c → p j = true ∧ q j = false)
    (hout : ∀ j, ¬ (k ≤ j ∧ j < k + c) → q j = p j) : countIn q s e + c = countIn p s e := by
  have hunion : (Finset.Ico s e).filter (fun j => p j) =
      (Finset.Ico s e).filter (fun j => q j) ∪ Finset.Ico k (k + c) := by
    ext j
    simp only [Finset.mem_filter, Finset.mem_union, Finset.mem_Ico]
    by_cases hj : k ≤ j ∧ j < k + c
    · exact iff_of_true ⟨by omega, (hin j hj.1 hj.2).1⟩ (.inr hj)
    · rw [hout j hj]
      exact ⟨.inl, fun h => h.resolve_right hj⟩
  have hdisj : Disjoint ((Finset.Ico s e).filter fun j => q j) (Finset.Ico k (k + c)) := by
    apply Finset.disjoint_left.mpr
    intro j hj hjk
    have hq := (Finset.mem_filter.mp hj).2
    rw [(hin j (Finset.mem_Ico.mp hjk).1 (Finset.mem_Ico.mp hjk).2).2] at hq
    cases hq
  unfold countIn
  rw [hunion, Finset.card_union_of_disjoint hdisj, Nat.card_Ico, Nat.add_sub_cancel_left]

end HmmOS.Lib
