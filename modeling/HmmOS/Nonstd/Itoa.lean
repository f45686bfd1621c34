import HmmOS.Lib.SwapReverse
import HmmOS.Lib.Word
import Mathlib.Data.Nat.Digits.Lemmas

/-! # Numerals

`_utoa` writes the digits of a number from the last one on and reverses them in
place. `_itoa` puts a sign before the digits of the absolute value.
-/
namespace HmmOS.Nonstd
open Lib

/-- `digit + (digit >= 10 ? 'a' - 10 : '0')`. -/
def utoaDigit (digit : ℕ) : Char := Char.ofNat (digit + if digit ≥ 10 then 'a'.toNat - 10 else '0'.toNat)

/-- The loop over digits, which ends after 64 turns at most. -/
def utoaLoop (radix : ℕ) : ℕ → ℕ → List Char → List Char
  | 0, _, buf => buf
  | fuel + 1, val, buf =>
    if val = 0 then buf
    else utoaLoop radix fuel (val / radix) (buf ++ [utoaDigit (val % radix)])

/-- `_utoa`: the characters in the buffer, or nothing for a radix that it does not know. -/
def utoa (val radix : ℕ) : Option (List Char) :=
  if val = 0 then some ['0']
  else if radix = 2 ∨ radix = 8 ∨ radix = 10 ∨ radix = 16 then
    let buf := utoaLoop radix 64 val []
    some (swapReverse buf (buf.length / 2))
  else none

/-- `_itoa`; the negation is one of unsigned numbers. -/
def itoa (val : ℤ) : Option (List Char) :=
  if val < 0 then (utoa (Word.sub 64 0 (Word.ofInt 64 val)) 10).map ('-' :: ·)
  else utoa (Word.ofInt 64 val) 10

/-- The digits of radix 16, and their first ones for a smaller radix. -/
def digitChars : List Char :=
  ['0', '1', '2', '3', '4', '5', '6', '7', '8', '9', 'a', 'b', 'c', 'd', 'e', 'f']

def readNumeral (radix : ℕ) (s : List Char) : ℕ :=
  s.foldl (fun n c => radix * n + digitChars.idxOf c) 0

def readInteger : List Char → ℤ
  | '-' :: s => -readNumeral 10 s
  | s => readNumeral 10 s

def numeral (radix val : ℕ) : List Char :=
  if val = 0 then ['0'] else ((Nat.digits radix val).map utoaDigit).reverse

def decimal (val : ℤ) : List Char :=
  if val < 0 then '-' :: numeral 10 val.natAbs else numeral 10 val.natAbs

structure IsNumeral (radix : ℕ) (s : List Char) (val : ℕ) : Prop where
  length_pos : 1 ≤ s.length
  length_le : s.length ≤ 64
  digits : ∀ c ∈ s, c ∈ digitChars.take radix
  leading : s.head? = some '0' → val = 0 ∧ s = ['0']
  value : readNumeral radix s = val

theorem utoaDigit_spec {d : ℕ} (h : d < 16) :
    utoaDigit d ∈ digitChars.take (d + 1) ∧ digitChars.idxOf (utoaDigit d) = d ∧
      (utoaDigit d = '0' → d = 0) ∧ utoaDigit d ≠ '-' := by
  revert d
  decide

theorem utoaLoop_eq {radix : ℕ} (hr : 1 < radix) (fuel : ℕ) {val : ℕ} (hval : val < radix ^ fuel)
    (buf : List Char) : utoaLoop radix fuel val buf = buf ++ (Nat.digits radix val).map utoaDigit := by
  induction fuel generalizing val buf with
  | zero =>
    obtain rfl : val = 0 := by simpa using hval
    simp [utoaLoop]
  | succ fuel ih =>
    rw [utoaLoop]
    split_ifs with hzero
    · simp [hzero]
    · have hdiv : val / radix < radix ^ fuel := by
        rw [Nat.div_lt_iff_lt_mul (by omega), ← Nat.pow_succ]
        exact hval
      rw [ih hdiv, Nat.digits_def' hr (Nat.pos_of_ne_zero hzero), List.map_cons, List.append_assoc,
        List.singleton_append]

theorem utoa_eq {val radix : ℕ} (hval : val < 2 ^ 64) (hr : radix ∈ [2, 8, 10, 16]) :
    utoa val radix = some (numeral radix val) := by
  have hradix : radix = 2 ∨ radix = 8 ∨ radix = 10 ∨ radix = 16 := by simpa using hr
  have hpow : val < radix ^ 64 := hval.trans_le (Nat.pow_le_pow_left (by omega) 64)
  rw [utoa, numeral]
  split_ifs with hzero
  · rfl
  · simp only [utoaLoop_eq (show 1 < radix by omega) 64 hpow, List.nil_append]
    rw [swapReverse_half]

theorem itoa_eq {val : ℤ} (hlo : -2 ^ 63 ≤ val) (hhi : val < 2 ^ 63) : itoa val = some (decimal val) := by
  have habs : val.natAbs < 2 ^ 64 := by omega
  rw [itoa, decimal]
  split_ifs with hneg
  · have hsub : Word.sub 64 0 (Word.ofInt 64 val) = val.natAbs := by
      rw [Word.sub, Word.ofInt]
      omega
    rw [hsub, utoa_eq habs (by simp)]
    rfl
  · have hcast : Word.ofInt 64 val = val.natAbs := by
      rw [Word.ofInt]
      omega
    rw [hcast, utoa_eq habs (by simp)]

theorem readNumeral_numeral {radix : ℕ} (hr : 1 < radix) (hle : radix ≤ 16) (val : ℕ) :
    readNumeral radix (numeral radix val) = val := by
  rw [numeral, readNumeral]
  split_ifs with hzero
  · rw [hzero]
    rfl
  · have hofDigits : ∀ l : List ℕ, (∀ d ∈ l, d < radix) →
        ((l.map utoaDigit).reverse.foldl (fun n c => radix * n + digitChars.idxOf c) 0) =
          Nat.ofDigits radix l := by
      intro l hl
      rw [List.foldl_reverse, List.foldr_map]
      induction l with
      | nil => rfl
      | cons d l ih =>
        have hd := hl d (List.mem_cons_self ..)
        rw [List.foldr_cons, ih fun e he => hl e (List.mem_cons_of_mem _ he),
          (utoaDigit_spec (hd.trans_le hle)).2.1, Nat.ofDigits_cons, Nat.add_comm]
    rw [hofDigits _ fun d hd => Nat.digits_lt_base hr hd, Nat.ofDigits_digits]

theorem isNumeral_numeral {radix val : ℕ} (hval : val < 2 ^ 64) (hr : radix ∈ [2, 8, 10, 16]) :
    IsNumeral radix (numeral radix val) val := by
  have hradix : radix = 2 ∨ radix = 8 ∨ radix = 10 ∨ radix = 16 := by simpa using hr
  have hpow : val < radix ^ 64 := hval.trans_le (Nat.pow_le_pow_left (by omega) 64)
  have hvalue : readNumeral radix (numeral radix val) = val :=
    readNumeral_numeral (by omega) (by omega) val
  rw [numeral] at hvalue ⊢
  split_ifs at hvalue ⊢ with hzero
  · refine ⟨le_rfl, by decide, ?_, fun _ => ⟨hzero, rfl⟩, hvalue⟩
    rcases hradix with rfl | rfl | rfl | rfl <;> simp [digitChars]
  · have hne : Nat.digits radix val ≠ [] := Nat.digits_ne_nil_iff_ne_zero.mpr hzero
    have hdigit : ∀ d ∈ Nat.digits radix val, d < radix :=
      fun d hd => Nat.digits_lt_base (by omega) hd
    refine ⟨?_, ?_, ?_, ?_, hvalue⟩
    · rw [List.length_reverse, List.length_map]
      exact List.length_pos_iff.mpr hne
    · simpa using (Nat.digits_length_le_iff (by omega) val).mpr hpow
    · intro c hc
      obtain ⟨d, hd, rfl⟩ := List.mem_map.mp (List.mem_reverse.mp hc)
      have hlt := hdigit d hd
      have hmem := (utoaDigit_spec (show d < 16 by omega)).1
      exact (List.take_prefix_take_left (show d + 1 ≤ radix by omega)).subset hmem
    · -- the first character is the last digit, which is not zero
      intro hhead
      rw [List.head?_reverse, List.getLast?_map, List.getLast?_eq_some_getLast hne, Option.map_some,
        Option.some.injEq] at hhead
      have hlast := List.getLast_mem hne
      have hlt := hdigit _ hlast
      exact absurd ((utoaDigit_spec (show _ < 16 by omega)).2.2.1 hhead)
        (Nat.getLast_digit_ne_zero radix hzero)

theorem head_numeral_ne_minus {val : ℕ} (hval : val < 2 ^ 64) : (numeral 10 val).head? ≠ some '-' := by
  intro hhead
  have hmem := (isNumeral_numeral hval (by simp)).digits '-' (List.mem_of_head? hhead)
  revert hmem
  decide

theorem readInteger_of_unsigned {s : List Char} (h : s.head? ≠ some '-') :
    readInteger s = readNumeral 10 s := by
  cases s with
  | nil => rfl
  | cons c s =>
    rw [readInteger]
    rintro s' ⟨⟩
    exact h rfl

/-- `_utoa` writes a numeral of its argument, and what `_itoa` writes reads back as its argument. -/
theorem utoa_itoa_read (val : UInt64) (z : Int64) {radix : ℕ} (hr : radix ∈ [2, 8, 10, 16]) :
    (∃ s, utoa val.toNat radix = some s ∧ IsNumeral radix s val.toNat) ∧
      ∃ s, itoa z.toInt = some s ∧ readInteger s = z.toInt ∧ (s.head? = some '-' ↔ z.toInt < 0) := by
  refine ⟨⟨_, utoa_eq val.toNat_lt hr, isNumeral_numeral val.toNat_lt hr⟩, _,
    itoa_eq z.le_toInt z.toInt_lt, ?_⟩
  have hlo := z.le_toInt
  have hhi := z.toInt_lt
  have hminus := @head_numeral_ne_minus z.toInt.natAbs (by omega)
  have hread := readNumeral_numeral (show 1 < 10 by decide) (by decide) z.toInt.natAbs
  rw [decimal]
  split_ifs with hneg
  · rw [readInteger, hread]
    exact ⟨by omega, by simp [hneg]⟩
  · rw [readInteger_of_unsigned hminus, hread]
    exact ⟨by omega, by simp [hneg, hminus]⟩

theorem utoa_itoa_read_min : (∃ s, utoa (UInt64.toNat 0xFFFFFFFFFFFFFFFF) 16 = some s ∧
      IsNumeral 16 s (UInt64.toNat 0xFFFFFFFFFFFFFFFF)) ∧
    ∃ s, itoa Int64.minValue.toInt = some s ∧ readInteger s = Int64.minValue.toInt ∧
      (s.head? = some '-' ↔ Int64.minValue.toInt < 0) :=
  utoa_itoa_read 0xFFFFFFFFFFFFFFFF Int64.minValue (by decide)

example : itoa (-2 ^ 63) = some
    ['-', '9', '2', '2', '3', '3', '7', '2', '0', '3', '6', '8', '5', '4', '7', '7', '5', '8', '0', '8'] := by
  decide

end HmmOS.Nonstd
