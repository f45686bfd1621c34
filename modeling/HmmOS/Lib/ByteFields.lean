import Mathlib.Algebra.Group.Nat.Defs
import Mathlib.Data.Nat.Notation
import Mathlib.Tactic.Common
import Mathlib.Tactic.Ring

/-! # Numbers in a memory of bytes

Little-endian numbers of any width at any address, and bit fields of a number.
-/
namespace HmmOS.Lib.ByteFields

/-- The number in the `k` bytes from `a` on. -/
def load (mem : ℕ → UInt8) : ℕ → ℕ → ℕ
  | _, 0 => 0
  | a, k + 1 => (mem a).toNat + 256 * load mem (a + 1) k

def store (mem : ℕ → UInt8) (a k v : ℕ) : ℕ → UInt8 :=
  fun x => if a ≤ x ∧ x < a + k then UInt8.ofNat (v / 256 ^ (x - a)) else mem x

def field (v lo w : ℕ) : ℕ := v / 2 ^ lo % 2 ^ w

def setField (v lo w x : ℕ) : ℕ :=
  v % 2 ^ lo + 2 ^ lo * (x % 2 ^ w) + 2 ^ (lo + w) * (v / 2 ^ (lo + w))

section Memory
variable {mem mem' : ℕ → UInt8} {a b k n v x : ℕ}

theorem store_of_mem (hl : a ≤ x) (hu : x < a + k) :
    store mem a k v x = UInt8.ofNat (v / 256 ^ (x - a)) := if_pos ⟨hl, hu⟩

theorem store_of_not_mem (h : x < a ∨ a + k ≤ x) : store mem a k v x = mem x :=
  if_neg (by omega)

theorem load_congr (h : ∀ i < k, mem (a + i) = mem' (b + i)) : load mem a k = load mem' b k := by
  induction k generalizing a b with
  | zero => rfl
  | succ k ih =>
    have hfirst : mem a = mem' b := h 0 (Nat.succ_pos k)
    rw [load, load, hfirst, ih]
    intro i hi
    rw [Nat.add_right_comm a 1 i, Nat.add_right_comm b 1 i]
    exact h (i + 1) (Nat.succ_lt_succ hi)

theorem load_of_digits (h : ∀ i < k, mem (a + i) = UInt8.ofNat (v / 256 ^ i)) : load mem a k = v % 256 ^ k := by
  induction k generalizing a v with
  | zero => rw [load, Nat.pow_zero, Nat.mod_one]
  | succ k ih =>
    have hfirst : mem a = UInt8.ofNat v := by simpa using h 0 (Nat.succ_pos k)
    have hrest : load mem (a + 1) k = v / 256 % 256 ^ k := by
      apply ih
      intro i hi
      rw [Nat.add_right_comm, Nat.add_assoc, h (i + 1) (Nat.succ_lt_succ hi), Nat.div_div_eq_div_mul,
        Nat.pow_succ']
    have hbyte : (UInt8.ofNat v).toNat = v % 256 := UInt8.toNat_ofNat'
    rw [load, hfirst, hrest, hbyte, Nat.pow_succ', Nat.mod_mul]

theorem load_store : load (store mem a k v) a k = v % 256 ^ k := by
  apply load_of_digits
  intro i hi
  rw [store_of_mem (Nat.le_add_right a i) (by omega), Nat.add_sub_cancel_left]

theorem load_store_of_apart (h : a + k ≤ b ∨ b + n ≤ a) : load (store mem b n v) a k = load mem a k := by
  apply load_congr
  intro i hi
  exact store_of_not_mem (by omega)

theorem load_eq_zero (h : ∀ i < k, mem (a + i) = 0) : load mem a k = 0 := by
  rw [load_of_digits (v := 0), Nat.zero_mod]
  intro i hi
  rw [h i hi, Nat.zero_div]
  rfl

end Memory

end HmmOS.Lib.ByteFields
