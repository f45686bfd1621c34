import HmmOS.Nonstd.Memory

/-! # strncpy

The counter of `strncpy` is decremented in the conditions of two loops. It ends one
byte early, and a counter of zero wraps. The name of an inode is stored with it.
-/
namespace HmmOS.Nonstd

/-- `while (*src && --n)`, from the character `i` on: the bytes that are written, and the counter at the
end. -/
def strncpyChars (src : Bytes) : ℕ → ℕ → List UInt8 × ℕ
  | _, 0 => ([], 0)
  | i, n + 1 =>
    if src i = 0 then ([], n + 1)
    else if n = 0 then ([], 0)
    else
      let r := strncpyChars src (i + 1) n
      (src i :: r.1, r.2)

/-- `strncpy`: the bytes that are written to `dst[0]`, `dst[1]` and so on. -/
def strncpy (src : Bytes) (n : ℕ) : List UInt8 :=
  let r :=
    if n = 0 ∧ src 0 ≠ 0 then
      -- `--n` wraps to the largest number
      let r := strncpyChars src 1 (2 ^ 32 - 1)
      (src 0 :: r.1, r.2)
    else strncpyChars src 0 n
  -- `if (n) while (--n)`
  r.1 ++ List.replicate (r.2 - 1) 0

/-- The constructor of `fat32::Inode` on its name: an array of 13 bytes, with its earlier contents. -/
def inodeName (old : List UInt8) (name : Bytes) : List UInt8 :=
  strncpy name 13 ++ old.drop (strncpy name 13).length

structure CString (src : Bytes) (len : ℕ) : Prop where
  nul : src len = 0
  chars : ∀ i < len, src i ≠ 0

/-- The first characters of a string, followed by zero bytes: `n` bytes in all. -/
def padded (src : Bytes) (len n : ℕ) : List UInt8 :=
  (List.range n).map fun i => if i < len then src i else 0

section Strncpy
variable {src : Bytes} {len : ℕ}

theorem CString.nul_iff (h : CString src len) {i : ℕ} (hi : i ≤ len) : src i = 0 ↔ i = len := by
  constructor
  · intro hnul
    by_contra hne
    exact h.chars i (by omega) hnul
  · rintro rfl
    exact h.nul

/-- The loop stops one character before the counter would have it. -/
theorem strncpyChars_eq (h : CString src len) {i n : ℕ} (hi : i ≤ len) : strncpyChars src i (n + 1) =
      ((List.range (min (len - i) n)).map fun k => src (i + k), n + 1 - (len - i)) := by
  induction n generalizing i with
  | zero =>
    simp only [strncpyChars, h.nul_iff hi, if_true]
    split_ifs with hlen
    · simp [hlen]
    · simp
      omega
  | succ n ih =>
    rw [strncpyChars]
    simp only [h.nul_iff hi, Nat.succ_ne_zero, if_false]
    split_ifs with hlen
    · simp [hlen]
    · have hmin : min (len - i) (n + 1) = min (len - (i + 1)) n + 1 := by omega
      rw [ih (by omega), hmin, List.range_succ_eq_map, List.map_cons, List.map_map]
      apply Prod.ext
      · simp only [Nat.add_zero, List.cons.injEq, true_and]
        apply List.map_congr_left
        intro k _
        congr 1
        omega
      · omega

theorem strncpy_eq (h : CString src len) (n : ℕ) : strncpy src (n + 1) = padded src len n := by
  have hsplit : padded src len n =
      (List.range (min len n)).map src ++ List.replicate (n - len) 0 := by
    apply List.ext_getElem
    · simp [padded]
      omega
    · intro i h1 h2
      simp only [padded, List.getElem_map, List.getElem_range, List.getElem_append, List.length_map,
        List.length_range, List.getElem_replicate]
      simp only [padded, List.length_map, List.length_range] at h1
      split_ifs <;> first | rfl | omega
  rw [strncpy, if_neg (by simp), strncpyChars_eq h (Nat.zero_le len), hsplit]
  simp only [Nat.sub_zero, Nat.zero_add]
  congr 2
  omega

theorem length_padded (n : ℕ) : (padded src len n).length = n := by
  simp [padded]

/-- A counter of zero fills the address space, unless the string is empty. -/
theorem strncpy_zero (h : CString src len) : strncpy src 0 = [] ↔ len = 0 := by
  rw [strncpy]
  constructor
  · intro hnil
    by_contra hpos
    rw [if_pos ⟨rfl, h.chars 0 (by omega)⟩] at hnil
    simp at hnil
  · rintro rfl
    rw [if_neg (by simp [h.nul])]
    rfl

/-- `strncpy` writes the `n` bytes that it should only when there is nothing to write. -/
theorem strncpy_exact_iff (h : CString src len) (n : ℕ) :
    (strncpy src n = padded src len n ↔ n = 0 ∧ len = 0) ∧
      (len = 12 → ∀ old : List UInt8, old.length = 13 →
        (inodeName old src = padded src len 13 ↔ old[12]? = some 0)) := by
  constructor
  · cases n with
    | zero =>
      have hnil : padded src len 0 = [] := rfl
      rw [hnil, strncpy_zero h]
      simp
    | succ n =>
      simp only [Nat.add_one_ne_zero, false_and, iff_false]
      intro heq
      have hlen := congrArg List.length heq
      rw [strncpy_eq h, length_padded, length_padded] at hlen
      omega
  · rintro rfl old hold
    have hlast : padded src 12 13 = padded src 12 12 ++ [0] := by
      simp [padded, List.range_succ]
    have hdrop : old.drop 12 = old[12]?.toList := by
      rw [List.drop_eq_getElem_cons (by omega), List.drop_of_length_le (by omega)]
      simp [hold]
    rw [inodeName, strncpy_eq h, length_padded, hlast, List.append_cancel_left_eq, hdrop]
    cases old[12]? <;> simp

end Strncpy

def fullName : Bytes := fun i =>
  [70, 73, 76, 69, 78, 65, 77, 69, 46, 84, 88, 84].getD i 0

/-- Nothing is written for the empty string, and a name of 12 characters ends in the array only if its
last byte was zero before. -/
theorem strncpy_exact_fullName : strncpy (fun _ => 0) 0 = padded (fun _ => 0) 0 0 ∧
    inodeName (List.replicate 13 0) fullName = padded fullName 12 13 := by
  have hempty : CString (fun _ => 0) 0 := ⟨rfl, fun i hi => absurd hi (Nat.not_lt_zero i)⟩
  have hfull : CString fullName 12 := ⟨rfl, by decide⟩
  exact ⟨(strncpy_exact_iff hempty 0).1.mpr ⟨rfl, rfl⟩,
    ((strncpy_exact_iff hfull 13).2 rfl (List.replicate 13 0) rfl).mpr rfl⟩

/-- The 13th byte of the array is not written. -/
theorem inodeName_unterminated : strncpy fullName 13 = padded fullName 12 12 ∧
    strncpy fullName 13 ≠ padded fullName 12 13 ∧
    (inodeName (List.replicate 13 0xFF) fullName)[12]? = some 0xFF := by
  decide

end HmmOS.Nonstd
