import Mathlib.Algebra.Group.Nat.Defs
import Mathlib.Order.Nat
import Mathlib.Data.Int.Notation
import Mathlib.Tactic.Common

/-! # String views

Positions are 32-bit numbers, but `substr` takes its start as a signed one; they agree
on strings of less than `2^31` characters.
-/
namespace HmmOS.Nonstd.StringView

def nul : Char := Char.ofNat 0

def npos : ℕ := 2 ^ 32 - 1

/-- `strncmp`, which stops at a zero byte. -/
def strncmp : List Char → List Char → ℕ → ℤ
  | _, _, 0 => 0
  | s1, s2, n + 1 =>
    let c1 := s1.headD nul
    let c2 := s2.headD nul
    if c1 ≠ nul ∧ c2 ≠ nul ∧ c1 = c2 then strncmp s1.tail s2.tail n
    else (c1.toNat : ℤ) - c2.toNat

def eq (lhs rhs : List Char) : Bool :=
  lhs.length == rhs.length && strncmp lhs rhs lhs.length == 0

def find (s : List Char) (needle : Char) : ℕ := (s.idxOf? needle).getD npos

/-- The loop of `rfind(char)`, which has the first `i` characters to go. -/
def rfindFrom (s : List Char) (needle : Char) : ℕ → ℕ
  | 0 => npos
  | i + 1 => if s[i]? = some needle then i else rfindFrom s needle i

def rfind (s : List Char) (needle : Char) : ℕ := rfindFrom s needle s.length

/-- The view that `substr` returns of one of `size` characters, by its offset and its length: both
arguments are cropped. -/
def substrRange (size : ℕ) (start : ℤ) (count : ℕ) : ℕ × ℕ :=
  let start := if start < 0 then 0 else start.toNat
  let start := if start > size then size else start
  let count := if count = npos ∨ (start + count) % 2 ^ 32 > size then size - start else count
  (start, count)

/-- `substr`, whose start is converted to `int32_t`. -/
def substr (s : List Char) (start count : ℕ) : List Char :=
  let r := substrRange s.length (Int.bmod start (2 ^ 32)) count
  (s.drop r.1).take r.2

/-- `util::path::left_partition_path`: the text before the first slash and the text after it. -/
def leftPartitionPath (path : List Char) : List Char × List Char :=
  let sep := find path '/'
  if sep ≠ npos then (substr path 0 sep, substr path (sep + 1) npos) else (path, [])

/-- `util::path::partition_path`: the text before the last slash and the text after it. -/
def partitionPath (path : List Char) : List Char × List Char :=
  let sep := rfind path '/'
  if sep ≠ npos then (substr path 0 sep, substr path (sep + 1) npos) else ([], path)

theorem strncmp_eq_zero {s1 s2 : List Char} (hlen : s1.length = s2.length) (h1 : nul ∉ s1) :
    strncmp s1 s2 s1.length = 0 ↔ s1 = s2 := by
  induction s1 generalizing s2 with
  | nil =>
    rw [List.length_nil, strncmp, List.length_eq_zero_iff.mp hlen.symm]
    simp
  | cons c1 s1 ih =>
    cases s2 with
    | nil => cases hlen
    | cons c2 s2 =>
      have hc : c1 ≠ nul := fun h => h1 (h ▸ List.mem_cons_self)
      have ih := ih (Nat.succ.inj hlen) fun h => h1 (List.mem_cons_of_mem _ h)
      rw [List.length_cons, strncmp]
      by_cases hcc : c1 = c2
      · subst hcc
        simp [hc, ih]
      · simp only [List.headD_cons, hcc, and_false, if_false, List.cons.injEq, false_and, iff_false]
        intro h
        exact hcc (Char.toNat_inj.mp (by omega))

theorem eq_iff {lhs rhs : List Char} (h : nul ∉ lhs) : eq lhs rhs = true ↔ lhs = rhs := by
  simp only [eq, Bool.and_eq_true, beq_iff_eq]
  constructor
  · rintro ⟨hlen, hcmp⟩
    exact (strncmp_eq_zero hlen h).mp hcmp
  · rintro rfl
    exact ⟨rfl, (strncmp_eq_zero rfl h).mpr rfl⟩

theorem substr_eq {s : List Char} {start count : ℕ} (hs : s.length < 2 ^ 31)
    (hstart : start ≤ s.length) : substr s start count = (s.drop start).take count := by
  have hmod : Int.bmod start (2 ^ 32) = start := Int.bmod_eq_of_le (by omega) (by omega)
  simp only [substr, substrRange, hmod, Int.toNat_natCast]
  rw [if_neg (show ¬ ((start : ℤ) < 0) by omega), if_neg (show ¬ (start > s.length) by omega)]
  split_ifs with hcrop
  · have hlen : s.length - start ≤ count := by
      rcases hcrop with hcrop | hcrop
      · rw [hcrop, npos]
        omega
      · omega
    have hdrop : (s.drop start).length = s.length - start := List.length_drop
    rw [List.take_of_length_le hdrop.le, List.take_of_length_le (hdrop ▸ hlen)]
  · rfl

/-- The offset and the length of the slice from `start`, cropped to the view, over exact integers. -/
def slice (size : ℕ) (start : ℤ) (count : ℕ) : ℕ × ℕ :=
  let first := min start.toNat size
  (first, min (first + count) size - first)

/-- Apart from `npos`, the end of the range must not wrap. -/
theorem substrRange_exact_iff {size : ℕ} (hsize : size < 2 ^ 31) (start : Int32) (count : UInt32) :
    (substrRange size start.toInt count.toNat = slice size start.toInt count.toNat ∧
        (substrRange size start.toInt count.toNat).1 + (substrRange size start.toInt count.toNat).2 ≤ size) ↔
      count.toNat = npos ∨ min start.toInt.toNat size + count.toNat < 2 ^ 32 := by
  generalize hfirst : min start.toInt.toNat size = first
  have hlt := count.toNat_lt
  generalize count.toNat = count at hlt ⊢
  have hstart : substrRange size start.toInt count =
      (first, if count = npos ∨ (first + count) % 2 ^ 32 > size then size - first else count) := by
    have hclamp : (if (if start.toInt < 0 then 0 else start.toInt.toNat) > size then size
        else if start.toInt < 0 then 0 else start.toInt.toNat) = first := by
      split_ifs <;> omega
    simp only [substrRange, hclamp]
  rw [hstart, slice, hfirst, npos]
  by_cases hcrop : count = 2 ^ 32 - 1 ∨ (first + count) % 2 ^ 32 > size
  · simp only [if_pos hcrop, Prod.mk.injEq, true_and]
    omega
  · simp only [if_neg hcrop, Prod.mk.injEq, true_and]
    omega

theorem substrRange_exact_wholeView : substrRange 5 (-1) npos = slice 5 (-1) npos :=
  ((substrRange_exact_iff (show 5 < 2 ^ 31 by decide) (-1) 0xFFFFFFFF).mpr (.inl (by decide))).1

/-- From position 2 of `"hello"` with a count of `2^32 - 2`. -/
theorem substrRange_wraps : substrRange 5 (2 : Int32).toInt (0xFFFFFFFE : UInt32).toNat = (2, 2 ^ 32 - 2) ∧
    slice 5 (2 : Int32).toInt (0xFFFFFFFE : UInt32).toNat = (2, 3) := by
  decide

theorem leftPartitionPath_eq {path : List Char} (h : path.length < 2 ^ 31) :
    leftPartitionPath path = (path.takeWhile (· ≠ '/'), (path.dropWhile (· ≠ '/')).drop 1) := by
  have htake := @List.takeWhile_eq_take_findIdx_not _ path (· ≠ '/')
  have hdrop := @List.dropWhile_eq_drop_findIdx_not _ path (· ≠ '/')
  have hidx : path.findIdx (fun a => !decide (a ≠ '/')) = path.idxOf '/' := by
    congr 1
    funext a
    simp [Bool.beq_eq_decide_eq]
  rw [htake, hdrop, hidx]
  by_cases hmem : '/' ∈ path
  · have hlt : path.idxOf '/' < path.length := List.idxOf_lt_length_iff.mpr hmem
    have hfind : find path '/' = path.idxOf '/' := by
      rw [find, List.idxOf?, List.findIdx?_eq_some_iff_findIdx_eq.mpr ⟨hlt, rfl⟩]
      rfl
    have hnpos : path.idxOf '/' < npos := by
      rw [npos]
      omega
    have hrest : (path.drop (path.idxOf '/' + 1)).length ≤ npos := by
      rw [List.length_drop, npos]
      omega
    rw [leftPartitionPath, hfind, if_pos hnpos.ne, substr_eq h (Nat.zero_le _), substr_eq h hlt, List.drop_zero,
      List.take_of_length_le hrest, List.drop_drop]
  · have hlen : path.idxOf '/' = path.length := List.idxOf_eq_length hmem
    have hfind : find path '/' = npos := by
      rw [find, List.idxOf?_eq_none_iff.mpr hmem]
      rfl
    rw [leftPartitionPath, hfind, hlen]
    simp

theorem rfindFrom_spec (s : List Char) (needle : Char) (n : ℕ) :
    (rfindFrom s needle n = npos ∧ ∀ i < n, s[i]? ≠ some needle) ∨
      (rfindFrom s needle n < n ∧ s[rfindFrom s needle n]? = some needle ∧
        ∀ i < n, rfindFrom s needle n < i → s[i]? ≠ some needle) := by
  induction n with
  | zero => simp [rfindFrom]
  | succ n ih =>
    rw [rfindFrom]
    split_ifs with hn
    · right
      refine ⟨Nat.lt_succ_self n, hn, fun i hi hni => ?_⟩
      omega
    · have hlast : ∀ i < n + 1, i ≠ n → i < n := fun i hi hne => by omega
      rcases ih with ⟨heq, hnone⟩ | ⟨hlt, hsome, hafter⟩
      · left
        refine ⟨heq, fun i hi => ?_⟩
        by_cases hin : i = n
        · rwa [hin]
        · exact hnone i (hlast i hi hin)
      · right
        refine ⟨Nat.lt_succ_of_lt hlt, hsome, fun i hi hri => ?_⟩
        by_cases hin : i = n
        · rwa [hin]
        · exact hafter i (hlast i hi hin) hri

theorem partitionPath_spec {path : List Char} (h : path.length < 2 ^ 31) :
    ('/' ∉ path ∧ partitionPath path = ([], path)) ∨
      (path = (partitionPath path).1 ++ '/' :: (partitionPath path).2 ∧ '/' ∉ (partitionPath path).2) := by
  rw [partitionPath]
  rcases rfindFrom_spec path '/' path.length with ⟨heq, hnone⟩ | ⟨hlt, hsome, hafter⟩
  · left
    rw [rfind, heq, if_neg (not_not.mpr rfl)]
    refine ⟨fun hmem => ?_, rfl⟩
    obtain ⟨i, hi⟩ := List.mem_iff_getElem?.mp hmem
    exact hnone i (List.getElem?_eq_some_iff.mp hi).1 hi
  · right
    rw [← rfind] at hlt hsome hafter
    have hnpos : rfind path '/' ≠ npos := by
      rw [npos]
      omega
    have hrest : (path.drop (rfind path '/' + 1)).length ≤ npos := by
      rw [List.length_drop, npos]
      omega
    rw [if_pos hnpos, substr_eq h (Nat.zero_le _), substr_eq h hlt, List.drop_zero,
      List.take_of_length_le hrest]
    constructor
    · obtain ⟨hi, hget⟩ := List.getElem?_eq_some_iff.mp hsome
      have hdrop := List.drop_eq_getElem_cons hi
      rw [hget] at hdrop
      rw [← hdrop, List.take_append_drop]
    · intro hmem
      obtain ⟨i, hi⟩ := List.mem_iff_getElem?.mp hmem
      rw [List.getElem?_drop] at hi
      exact hafter _ (List.getElem?_eq_some_iff.mp hi).1 (by omega) hi

end HmmOS.Nonstd.StringView
