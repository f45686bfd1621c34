import Mathlib.Data.Nat.Bitwise
import Mathlib.Tactic.Ring
import Mathlib.Tactic.NormNum
import Mathlib.Order.Bounds.Basic

/-! # Unsigned machine words as naturals

A `w`-bit word is a natural number below `2^w`; arithmetic wraps modulo `2^w`.
-/
namespace HmmOS.Lib.Word

def add (w a b : ℕ) : ℕ := (a + b) % 2 ^ w

def sub (w a b : ℕ) : ℕ := (a + (2 ^ w - b % 2 ^ w)) % 2 ^ w

def mul (w a b : ℕ) : ℕ := (a * b) % 2 ^ w

def compl (w a : ℕ) : ℕ := 2 ^ w - (a % 2 ^ w + 1)

def ofInt (w : ℕ) (x : ℤ) : ℕ := (x % 2 ^ w).toNat

theorem ofInt_natCast {w n : ℕ} (h : n < 2 ^ w) : ofInt w n = n := by
  have hmod : (n : ℤ) % 2 ^ w = n := by
    exact_mod_cast Nat.mod_eq_of_lt h
  rw [ofInt, hmod, Int.toNat_natCast]

theorem bmod_natCast {n : ℕ} (h : n < 2 ^ 31) : Int.bmod n (2 ^ 32) = n :=
  Int.bmod_eq_of_le (by omega) (by omega)

theorem bmod_natCast_neg {n : ℕ} (hge : 2 ^ 31 ≤ n) (hlt : n < 2 ^ 32) : Int.bmod n (2 ^ 32) < 0 := by
  rw [Int.bmod_def, Int.emod_eq_of_lt (by omega) (by omega), if_neg (by omega)]
  omega

theorem add_of_lt {w a b : ℕ} (h : a + b < 2 ^ w) : add w a b = a + b :=
  Nat.mod_eq_of_lt h

theorem add_one_ne_zero_iff {w a : ℕ} (ha : a < 2 ^ w) : add w a 1 ≠ 0 ↔ a + 1 < 2 ^ w := by
  constructor
  · intro hne
    by_contra hge
    have hfull : a + 1 = 2 ^ w := by omega
    exact hne (by rw [add, hfull, Nat.mod_self])
  · intro hlt
    rw [add_of_lt hlt]
    exact Nat.succ_ne_zero a

theorem mul_of_lt {w a b : ℕ} (h : a * b < 2 ^ w) : mul w a b = a * b :=
  Nat.mod_eq_of_lt h

theorem sub_of_le {w a b : ℕ} (hba : b ≤ a) (ha : a < 2 ^ w) : sub w a b = a - b := by
  have hb : b % 2 ^ w = b := Nat.mod_eq_of_lt (hba.trans_lt ha)
  have he : a + (2 ^ w - b) = a - b + 2 ^ w := by omega
  rw [sub, hb, he, Nat.add_mod_right, Nat.mod_eq_of_lt (by omega)]

theorem mul_lt (w a b : ℕ) : mul w a b < 2 ^ w := Nat.mod_lt _ (Nat.two_pow_pos w)

theorem and_compl_mask {w k n : ℕ} (hk : k ≤ w) (hn : n < 2 ^ w) :
    n &&& compl w (2 ^ k - 1) = n / 2 ^ k * 2 ^ k := by
  have hpow : 2 ^ k ≤ 2 ^ w := Nat.pow_le_pow_right (by omega) hk
  have hmask : (2 ^ k - 1) % 2 ^ w = 2 ^ k - 1 := Nat.mod_eq_of_lt (by omega)
  rw [← Nat.shiftRight_eq_div_pow, ← Nat.shiftLeft_eq, compl, hmask]
  apply Nat.eq_of_testBit_eq
  intro i
  rw [Nat.testBit_and, Nat.testBit_two_pow_sub_succ (by omega), Nat.testBit_two_pow_sub_one,
    Nat.testBit_shiftLeft, Nat.testBit_shiftRight]
  by_cases hi : i < k
  · have hik : ¬ i ≥ k := by omega
    simp [hi, hik]
  · have hk' : k + (i - k) = i := by omega
    by_cases hw : i < w
    · simp [hi, hw, hk', Nat.le_of_not_lt hi]
    · have hz : n.testBit i = false := Nat.testBit_lt_two_pow
        (hn.trans_le (Nat.pow_le_pow_right (by omega) (by omega)))
      simp [hk', hz]

theorem and_mask (k n : ℕ) : n &&& (2 ^ k - 1) = n % 2 ^ k := Nat.and_two_pow_sub_one_eq_mod n k

theorem and_sub_one_eq_zero_iff {n : ℕ} (hn : n ≠ 0) : n &&& (n - 1) = 0 ↔ ∃ k, n = 2 ^ k := by
  constructor
  · intro hand
    by_contra hne
    have hle : 2 ^ n.log2 ≤ n := Nat.log2_self_le hn
    have hlt : n < 2 ^ (n.log2 + 1) := Nat.lt_log2_self
    -- Without a power of two both numbers have the highest bit.
    have hpred : 2 ^ n.log2 ≤ n - 1 := by
      have hstrict : 2 ^ n.log2 ≠ n := fun h => hne ⟨n.log2, h.symm⟩
      omega
    have hbit : (n &&& (n - 1)).testBit n.log2 = true := by
      rw [Nat.testBit_and, Nat.testBit_of_two_pow_le_and_two_pow_add_one_gt hle hlt,
        Nat.testBit_of_two_pow_le_and_two_pow_add_one_gt hpred (by omega), Bool.and_true]
    simp [hand] at hbit
  · rintro ⟨k, rfl⟩
    rw [and_mask, Nat.mod_self]

theorem isGreatest_floor {n d : ℕ} (hd : 0 < d) : IsGreatest {m | d ∣ m ∧ m ≤ n} (n / d * d) := by
  refine ⟨⟨Nat.dvd_mul_left _ _, Nat.div_mul_le_self _ _⟩, ?_⟩
  rintro _ ⟨⟨q, rfl⟩, hm⟩
  rw [Nat.mul_comm]
  exact Nat.mul_le_mul_right _ ((Nat.le_div_iff_mul_le hd).mpr (Nat.mul_comm d q ▸ hm))

theorem isLeast_ceil {n d : ℕ} (hd : 0 < d) : IsLeast {m | d ∣ m ∧ n ≤ m} ((n + (d - 1)) / d * d) := by
  have hdiv := Nat.div_add_mod' (n + (d - 1)) d
  have hmod := Nat.mod_lt (n + (d - 1)) hd
  refine ⟨⟨Nat.dvd_mul_left _ _, by omega⟩, ?_⟩
  rintro _ ⟨⟨q, rfl⟩, hm⟩
  rw [Nat.mul_comm]
  refine Nat.mul_le_mul_left d (Nat.le_of_lt_succ ((Nat.div_lt_iff_lt_mul hd).mpr ?_))
  rw [Nat.succ_mul, Nat.mul_comm q]
  omega

end HmmOS.Lib.Word
