import Mathlib.Data.List.Basic

/-! # Reversal by swaps

The elements of an array are swapped with their mirror images, from the middle
outwards. An array of odd length keeps its middle element.
-/
namespace HmmOS.Lib
variable {α : Type*}

def swapAt (l : List α) (i j : ℕ) : List α :=
  match l[i]?, l[j]? with
  | some x, some y => (l.set i y).set j x
  | _, _ => l

/-- Swap the elements before `m` with their mirror images, the one next to `m` first. -/
def swapReverse (l : List α) : ℕ → List α
  | 0 => l
  | m + 1 => swapReverse (swapAt l m (l.length - 1 - m)) m

theorem length_swapAt (l : List α) (i j : ℕ) : (swapAt l i j).length = l.length := by
  unfold swapAt
  split <;> simp

theorem getElem?_swapAt {l : List α} {i j : ℕ} (hi : i < l.length) (hj : j < l.length) (k : ℕ) :
    (swapAt l i j)[k]? = if k = j then l[i]? else if k = i then l[j]? else l[k]? := by
  rw [swapAt, List.getElem?_eq_getElem hi, List.getElem?_eq_getElem hj]
  simp only [List.getElem?_set, List.length_set, hi, hj, if_true, eq_comm]

/-- The outer elements have changed places, and the inner ones are where they were. -/
theorem getElem?_swapReverse (l : List α) {m : ℕ} (hm : 2 * m ≤ l.length) {k : ℕ} (hk : k < l.length) :
    (swapReverse l m)[k]? = if k < m ∨ l.length - m ≤ k then l[l.length - 1 - k]? else l[k]? := by
  induction m generalizing l with
  | zero => rw [swapReverse, if_neg (by omega)]
  | succ m ih =>
    have hlen := length_swapAt l m (l.length - 1 - m)
    have hget := @getElem?_swapAt α l m (l.length - 1 - m) (by omega) (by omega)
    rw [swapReverse, ih _ (by omega) (by omega), hlen, hget, hget]
    by_cases hleft : k = m
    · rw [hleft, if_neg (by omega), if_neg (by omega), if_pos rfl, if_pos (by omega)]
    · by_cases hright : k = l.length - 1 - m
      · have hmirror : l.length - 1 - k = m := by omega
        rw [if_neg (by omega), if_pos hright, if_pos (by omega), hmirror]
      · split_ifs <;> first | rfl | omega

theorem swapReverse_half (l : List α) : swapReverse l (l.length / 2) = l.reverse := by
  have hlen : ∀ (l : List α) (m : ℕ), (swapReverse l m).length = l.length := by
    intro l m
    induction m generalizing l with
    | zero => rfl
    | succ m ih => rw [swapReverse, ih, length_swapAt]
  apply List.ext_getElem?
  intro k
  by_cases hk : k < l.length
  · rw [getElem?_swapReverse l (by omega) hk, List.getElem?_reverse hk]
    split_ifs with houter
    · rfl
    · have hmiddle : l.length - 1 - k = k := by omega
      rw [hmiddle]
  · rw [List.getElem?_eq_none (by rw [hlen]; omega), List.getElem?_eq_none (by simpa using hk)]

end HmmOS.Lib
