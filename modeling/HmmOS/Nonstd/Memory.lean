import HmmOS.Lib.Word
import Mathlib.Algebra.Group.Nat.Defs
import Mathlib.Data.Nat.Notation
import Mathlib.Logic.Function.Basic
import Mathlib.Tactic.Common

/-! # Byte memories

Memory as a map from addresses to bytes, with `memcpy`, `memset` and `memmove`.
-/
namespace HmmOS.Nonstd
open Lib Function

abbrev Bytes := ℕ → UInt8

def memcpy (mem : Bytes) (dst : ℕ) (src : Bytes) (n : ℕ) : Bytes :=
  fun a => if dst ≤ a ∧ a < dst + n then src (a - dst) else mem a

def memset (mem : Bytes) (dst : ℕ) (value : UInt8) (n : ℕ) : Bytes :=
  fun a => if dst ≤ a ∧ a < dst + n then value else mem a

theorem memcpy_of_mem {mem src : Bytes} {dst n a : ℕ} (hl : dst ≤ a) (hu : a < dst + n) :
    memcpy mem dst src n a = src (a - dst) := if_pos ⟨hl, hu⟩

theorem memcpy_of_not_mem {mem src : Bytes} {dst n a : ℕ} (h : ¬ (dst ≤ a ∧ a < dst + n)) :
    memcpy mem dst src n a = mem a := if_neg h

theorem memcpy_append (mem src : Bytes) (dst m n : ℕ) :
    memcpy (memcpy mem dst src m) (dst + m) (fun i => src (m + i)) n = memcpy mem dst src (m + n) := by
  funext a
  by_cases hn : dst + m ≤ a ∧ a < dst + m + n
  · rw [memcpy_of_mem hn.1 hn.2, memcpy_of_mem (by omega) (by omega)]
    congr 1
    omega
  · rw [memcpy_of_not_mem hn]
    by_cases hm : dst ≤ a ∧ a < dst + m
    · rw [memcpy_of_mem hm.1 hm.2, memcpy_of_mem hm.1 (by omega)]
    · rw [memcpy_of_not_mem hm, memcpy_of_not_mem (by omega)]

section Memmove
variable (dest src : ℕ)

def moveByte (i : ℕ) (mem : Bytes) : Bytes := update mem (Word.add 32 dest i) (mem (Word.add 32 src i))

/-- The loop from the first byte to the last. -/
def moveUp : ℕ → Bytes → Bytes
  | 0, mem => mem
  | n + 1, mem => moveByte dest src n (moveUp n mem)

/-- The loop from the last byte to the first. -/
def moveDown : ℕ → Bytes → Bytes
  | 0, mem => mem
  | n + 1, mem => moveDown n (moveByte dest src n mem)

def memmove (n : ℕ) (mem : Bytes) : Bytes :=
  if src > dest then moveUp dest src n mem else if src < dest then moveDown dest src n mem else mem

end Memmove

section Moved
variable {mem : Bytes} {dest src n : ℕ}

@[simp] theorem memcpy_zero (mem src : Bytes) (dest : ℕ) : memcpy mem dest src 0 = mem := by
  funext a
  exact memcpy_of_not_mem (by omega)

theorem memcpy_congr {src src' : Bytes} (h : ∀ i < n, src i = src' i) :
    memcpy mem dest src n = memcpy mem dest src' n := by
  funext a
  simp only [memcpy]
  split_ifs with ha
  · exact h _ (by omega)
  · rfl

theorem memcpy_succ (mem src : Bytes) (dest n : ℕ) :
    memcpy mem dest src (n + 1) = update (memcpy mem dest src n) (dest + n) (src n) := by
  funext a
  rw [update_apply]
  split_ifs with ha
  · rw [ha, memcpy_of_mem (by omega) (by omega), Nat.add_sub_cancel_left]
  · simp only [memcpy]
    congr 1
    simp only [eq_iff_iff]
    omega

theorem memcpy_update (mem src : Bytes) (dest n : ℕ) (v : UInt8) :
    memcpy (update mem (dest + n) v) dest src n = update (memcpy mem dest src n) (dest + n) v := by
  funext a
  by_cases ha : a = dest + n
  · rw [ha, memcpy_of_not_mem (by omega), update_self, update_self]
  · rw [update_of_ne ha, memcpy, memcpy, update_of_ne ha]

theorem moveByte_eq {i : ℕ} (hdest : dest + i < 2 ^ 32) (hsrc : src + i < 2 ^ 32) :
    moveByte dest src i mem = update mem (dest + i) (mem (src + i)) := by
  rw [moveByte, Word.add_of_lt hdest, Word.add_of_lt hsrc]

theorem moveUp_eq (hdest : dest + n ≤ 2 ^ 32) (hsrc : src + n ≤ 2 ^ 32) (h : dest < src) :
    moveUp dest src n mem = memcpy mem dest (fun i => mem (src + i)) n := by
  induction n with
  | zero => rw [moveUp, memcpy_zero]
  | succ n ih =>
    -- the bytes written so far lie below the byte that is read
    rw [moveUp, ih (by omega) (by omega), moveByte_eq (by omega) (by omega), memcpy_of_not_mem (by omega),
      memcpy_succ]

theorem moveDown_eq (hdest : dest + n ≤ 2 ^ 32) (hsrc : src + n ≤ 2 ^ 32) (h : src < dest) :
    moveDown dest src n mem = memcpy mem dest (fun i => mem (src + i)) n := by
  induction n generalizing mem with
  | zero => rw [moveDown, memcpy_zero]
  | succ n ih =>
    -- the byte written first lies above the bytes that are still to be read
    have hrest : ∀ i < n, moveByte dest src n mem (src + i) = mem (src + i) := by
      intro i hi
      rw [moveByte_eq (by omega) (by omega), update_of_ne (by omega)]
    rw [moveDown, ih (by omega) (by omega), memcpy_congr hrest, moveByte_eq (by omega) (by omega),
      memcpy_update, memcpy_succ]

theorem memmove_eq (hdest : dest + n ≤ 2 ^ 32) (hsrc : src + n ≤ 2 ^ 32) :
    memmove dest src n mem = memcpy mem dest (fun i => mem (src + i)) n := by
  rw [memmove]
  split_ifs with hup hdown
  · exact moveUp_eq hdest hsrc hup
  · exact moveDown_eq hdest hsrc hdown
  · obtain rfl : src = dest := by omega
    funext a
    by_cases ha : src ≤ a ∧ a < src + n
    · rw [memcpy_of_mem ha.1 ha.2, Nat.add_sub_cancel' ha.1]
    · rw [memcpy_of_not_mem ha]

/-- Whether or not the two ranges overlap. -/
theorem memmove_moves (mem : Bytes) (hdest : dest + n ≤ 2 ^ 32) (hsrc : src + n ≤ 2 ^ 32) :
    (∀ i < n, memmove dest src n mem (dest + i) = mem (src + i)) ∧
      ∀ a, ¬ (dest ≤ a ∧ a < dest + n) → memmove dest src n mem a = mem a := by
  rw [memmove_eq hdest hsrc]
  constructor
  · intro i hi
    rw [memcpy_of_mem (by omega) (by omega), Nat.add_sub_cancel_left]
  · exact fun a ha => memcpy_of_not_mem ha

/-- Three bytes are moved up by one, to the end of the address space. -/
theorem memmove_moves_overlap :
    memmove (2 ^ 32 - 3) (2 ^ 32 - 4) 3 (fun a => UInt8.ofNat (a % 7)) (2 ^ 32 - 1) =
      UInt8.ofNat ((2 ^ 32 - 2) % 7) :=
  (memmove_moves (fun a => UInt8.ofNat (a % 7)) (by decide) (by decide)).1 2 (by decide)

end Moved

def le32 (mem : Bytes) (a : ℕ) : ℕ :=
  (mem a).toNat + 2 ^ 8 * (mem (a + 1)).toNat + 2 ^ 16 * (mem (a + 2)).toNat +
    2 ^ 24 * (mem (a + 3)).toNat

theorem le32_offset {mem : Bytes} (base a : ℕ) : le32 (fun i => mem (base + i)) a = le32 mem (base + a) := by
  simp only [le32, Nat.add_assoc]

theorem le32_congr {mem mem' : Bytes} {a b : ℕ} (h : ∀ i < 4, mem (a + i) = mem' (b + i)) :
    le32 mem a = le32 mem' b := by
  have hfirst : mem a = mem' b := h 0 (by omega)
  rw [le32, le32, hfirst, h 1 (by omega), h 2 (by omega), h 3 (by omega)]

theorem le32_lt (mem : Bytes) (a : ℕ) : le32 mem a < 2 ^ 32 := by
  have h0 := (mem a).toNat_lt
  have h1 := (mem (a + 1)).toNat_lt
  have h2 := (mem (a + 2)).toNat_lt
  have h3 := (mem (a + 3)).toNat_lt
  rw [le32]
  omega

end HmmOS.Nonstd
