import Mathlib.Tactic

/-! # Circular arrays

An array of `n` entries that is read from some entry on, around its end. Moving
the start by one entry renumbers the entries, and nothing else.
-/
namespace HmmOS.Lib.CircularArray
variable {β : Type*} {f : ℕ → β} {start n j k : ℕ} {x : β}

def entry (f : ℕ → β) (start n j : ℕ) : β := f ((start + j) % n)

theorem index_inj (hj : j < n) (hk : k < n) (h : (start + j) % n = (start + k) % n) : j = k := by
  have hmod : j % n = k % n := Nat.ModEq.add_left_cancel' start h
  rwa [Nat.mod_eq_of_lt hj, Nat.mod_eq_of_lt hk] at hmod

theorem entry_update (hj : j < n) (hk : k < n) :
    entry (Function.update f ((start + j) % n) x) start n k = if k = j then x else entry f start n k := by
  unfold entry
  by_cases hkj : k = j
  · rw [hkj, Function.update_self, if_pos rfl]
  · rw [Function.update_of_ne fun h => hkj (index_inj hk hj h), if_neg hkj]

theorem exists_index {i : ℕ} (hs : start < n) (hi : i < n) : ∃ j < n, (start + j) % n = i := by
  refine ⟨(i + (n - start)) % n, Nat.mod_lt _ (by omega), ?_⟩
  have hsum : start + (i + (n - start)) = i + n := by omega
  rw [Nat.add_mod_mod, hsum, Nat.add_mod_right, Nat.mod_eq_of_lt hi]

theorem entry_next : entry f ((start + 1) % n) n j = entry f start n (j + 1) := by
  unfold entry
  rw [Nat.mod_add_mod]
  congr 2
  omega

theorem entry_prev (hn : 0 < n) : entry f ((start + n - 1) % n) n (j + 1) = entry f start n j := by
  unfold entry
  have hsum : start + n - 1 + (j + 1) = start + j + n := by omega
  rw [Nat.mod_add_mod, hsum, Nat.add_mod_right]

theorem entry_zero (hj : j < n) : entry f 0 n j = f j := by
  rw [entry, Nat.zero_add, Nat.mod_eq_of_lt hj]

end HmmOS.Lib.CircularArray
