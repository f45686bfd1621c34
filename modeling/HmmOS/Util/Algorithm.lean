import HmmOS.Lib.Word
import HmmOS.Common.Memdefs

/-! # Power-of-two rounding and range tests

The bit-twiddling helpers of `util/algorithm.h`. Rounding works on 64-bit
words; the range tests are templates and take the width of their type.
-/
namespace HmmOS.Util.Algorithm
open Lib

def pow2 (n : ℕ) : Bool := n != 0 && (n &&& Word.sub 64 n 1) == 0

def ceilPow2 (divisor n : ℕ) : ℕ :=
  Word.add 64 (Word.sub 64 n 1) divisor &&& Word.compl 64 (Word.sub 64 divisor 1)

def floorPow2 (divisor n : ℕ) : ℕ := n &&& Word.compl 64 (Word.sub 64 divisor 1)

def alignedPow2 (divisor n : ℕ) : Bool := (n &&& Word.sub 64 divisor 1) == 0

/-- Ranges are given by their start and end. -/
def rangeOverlaps (base1 end1 base2 end2 : ℕ) (inclusive : Bool) : Bool :=
  if inclusive then base1 ≤ end2 && base2 ≤ end1 else base1 < end2 && base2 < end1

/-- Ranges are given by their start and length, added in the template's type. -/
def rangeOverlaps2 (w base1 len1 base2 len2 : ℕ) (inclusive : Bool) : Bool :=
  rangeOverlaps base1 (Word.add w base1 len1) base2 (Word.add w base2 len2) inclusive

def rangeSubsumes (base1 end1 base2 end2 : ℕ) (inclusive : Bool) : Bool :=
  if inclusive then base1 ≤ base2 && end1 ≥ end2 else base1 < base2 && end1 > end2

def rangeSubsumes2 (w base1 len1 base2 len2 : ℕ) (inclusive : Bool) : Bool :=
  rangeSubsumes base1 (Word.add w base1 len1) base2 (Word.add w base2 len2) inclusive

variable {k n : ℕ}

theorem sub_one_two_pow (hk : k < 64) : Word.sub 64 (2 ^ k) 1 = 2 ^ k - 1 :=
  Word.sub_of_le Nat.one_le_two_pow (Nat.pow_lt_pow_right (by omega) hk)

theorem floorPow2_two_pow (hk : k < 64) (hn : n < 2 ^ 64) : floorPow2 (2 ^ k) n = n / 2 ^ k * 2 ^ k := by
  rw [floorPow2, sub_one_two_pow hk, Word.and_compl_mask hk.le hn]

theorem ceilPow2_two_pow (hk : k < 64) (hn : n + (2 ^ k - 1) < 2 ^ 64) :
    ceilPow2 (2 ^ k) n = (n + (2 ^ k - 1)) / 2 ^ k * 2 ^ k := by
  have hpos := Nat.two_pow_pos k
  have hadd : Word.add 64 (Word.sub 64 n 1) (2 ^ k) = n + (2 ^ k - 1) := by
    unfold Word.add Word.sub
    omega
  rw [ceilPow2, sub_one_two_pow hk, hadd, Word.and_compl_mask hk.le hn]

theorem alignedPow2_two_pow (hk : k < 64) : alignedPow2 (2 ^ k) n = true ↔ 2 ^ k ∣ n := by
  rw [alignedPow2, sub_one_two_pow hk, Word.and_mask, beq_iff_eq, Nat.dvd_iff_mod_eq_zero]

theorem pow2_iff (hn : n < 2 ^ 64) : pow2 n = true ↔ ∃ k, n = 2 ^ k := by
  rw [pow2, Bool.and_eq_true, bne_iff_ne, beq_iff_eq]
  constructor
  · rintro ⟨hne, hand⟩
    rw [Word.sub_of_le (by omega) hn] at hand
    exact (Word.and_sub_one_eq_zero_iff hne).mp hand
  · rintro ⟨k, rfl⟩
    have hpos := Nat.two_pow_pos k
    rw [Word.sub_of_le (by omega) hn]
    exact ⟨by omega, (Word.and_sub_one_eq_zero_iff (by omega)).mpr ⟨k, rfl⟩⟩

/-- Rounding is to the nearest multiple below and above, unless the multiple above is `2^64`. -/
theorem pow2_rounding (hn : n < 2 ^ 64) :
    (pow2 n = true ↔ ∃ k, n = 2 ^ k) ∧ ∀ divisor < 2 ^ 64, pow2 divisor = true →
      IsGreatest {m | divisor ∣ m ∧ m ≤ n} (floorPow2 divisor n) ∧
      (∀ m < 2 ^ 64, IsLeast {m | divisor ∣ m ∧ n ≤ m} m → ceilPow2 divisor n = m) ∧
      (alignedPow2 divisor n = true ↔ divisor ∣ n) := by
  refine ⟨pow2_iff hn, fun divisor hd hpow => ?_⟩
  obtain ⟨k, rfl⟩ := (pow2_iff hd).mp hpow
  have hk : k < 64 := (Nat.pow_lt_pow_iff_right (by omega)).mp hd
  have hpos := Nat.two_pow_pos k
  refine ⟨floorPow2_two_pow hk hn ▸ Word.isGreatest_floor hpos, fun m hm hleast => ?_, alignedPow2_two_pow hk⟩
  -- The next multiple after `m` is at most `2^64`, which is a multiple as well.
  have hroom : 2 ^ k ≤ 2 ^ 64 - m :=
    Nat.le_of_dvd (by omega) (Nat.dvd_sub (Nat.pow_dvd_pow 2 hk.le) hleast.1.1)
  have hnm := hleast.1.2
  rw [ceilPow2_two_pow hk (by omega)]
  exact (Word.isLeast_ceil hpos).unique hleast

/-- The last multiple of the page size below `2^64` is its own ceiling. -/
theorem pow2_rounding_lastPage : ceilPow2 4096 (2 ^ 64 - 4096) = 2 ^ 64 - 4096 :=
  ((pow2_rounding (n := 2 ^ 64 - 4096) (by decide)).2 4096 (by decide) (by decide)).2.1 _ (by decide)
    ⟨⟨by decide, le_rfl⟩, fun _ h => h.2⟩

abbrev floorPg : ℕ → ℕ := floorPow2 pgSz
abbrev ceilPg : ℕ → ℕ := ceilPow2 pgSz

def pgAligned (addr : ℕ) : Bool := (addr &&& (pgSz - 1)) == 0

theorem floorPg_eq (hn : n < 2 ^ 64) : floorPg n = n / 4096 * 4096 :=
  floorPow2_two_pow (k := 12) (by omega) hn

theorem ceilPg_eq (hn : n + 4095 < 2 ^ 64) : ceilPg n = (n + 4095) / 4096 * 4096 :=
  ceilPow2_two_pow (k := 12) (by omega) hn

/-- In the last page of the 64-bit address space rounding up wraps to zero. -/
theorem ceilPg_wraps (hn : n < 2 ^ 64) (hl : 2 ^ 64 ≤ n + 4095) : ceilPg n = 0 := by
  have hadd : Word.add 64 (Word.sub 64 n 1) pgSz = n + 4095 - 2 ^ 64 := by
    simp only [Word.add, Word.sub, pgSz_eq]
    omega
  exact (Word.and_compl_mask (k := 12) (by omega) (by omega)).trans (by omega)

theorem pgAligned_iff : pgAligned n = true ↔ n % 4096 = 0 := by
  rw [pgAligned, beq_iff_eq]
  exact (Word.and_mask 12 n).symm ▸ Iff.rfl

theorem rangeOverlaps2_exclusive {w b1 l1 b2 l2 : ℕ} (h1 : b1 + l1 < 2 ^ w) (h2 : b2 + l2 < 2 ^ w) :
    rangeOverlaps2 w b1 l1 b2 l2 false = true ↔ b1 < b2 + l2 ∧ b2 < b1 + l1 := by
  simp [rangeOverlaps2, rangeOverlaps, Word.add_of_lt h1, Word.add_of_lt h2]

theorem rangeSubsumes2_inclusive {w b1 l1 b2 l2 : ℕ} (h1 : b1 + l1 < 2 ^ w) (h2 : b2 + l2 < 2 ^ w) :
    rangeSubsumes2 w b1 l1 b2 l2 true = true ↔ b1 ≤ b2 ∧ b2 + l2 ≤ b1 + l1 := by
  simp [rangeSubsumes2, rangeSubsumes, Word.add_of_lt h1, Word.add_of_lt h2]

end HmmOS.Util.Algorithm
