import Mathlib.Data.List.Basic
import Mathlib.Tactic

/-! # Moving selected elements to the front by swaps

A single pass swaps every element that satisfies `p` into the next slot of a growing
front part.
-/
namespace HmmOS.Lib.FrontSwap
variable {α : Type*} (p : α → Bool)

/-- Visit index `i`; the state is the array and the size of its front part. -/
def step (s : List α × ℕ) (i : ℕ) : List α × ℕ :=
  match s.1[i]?, s.1[s.2]? with
  | some x, some y => if p x then ((s.1.set i y).set s.2 x, s.2 + 1) else s
  | _, _ => s

def pass (l : List α) : List α × ℕ := (List.range l.length).foldl (step p) (l, 0)

structure Visited (l : List α) (i : ℕ) (s : List α × ℕ) : Prop where
  count_le : s.2 ≤ i
  front : s.1.take s.2 = (l.take i).filter p
  rest : s.1.drop i = l.drop i
  perm : s.1.Perm l

theorem Visited.init (l : List α) : Visited p l 0 (l, 0) :=
  ⟨le_rfl, by simp, rfl, .refl _⟩

theorem set_set_perm {l : List α} {i j : ℕ} {x y : α} (hi : l[i]? = some x) (hj : l[j]? = some y) :
    ((l.set i y).set j x).Perm l := by
  obtain ⟨hil, rfl⟩ := List.getElem?_eq_some_iff.mp hi
  obtain ⟨hjl, rfl⟩ := List.getElem?_eq_some_iff.mp hj
  exact List.set_set_perm hil hjl

variable {p} {l : List α}

theorem Visited.step {i : ℕ} {s : List α × ℕ} (hi : i < l.length) (h : Visited p l i s) :
    Visited p l (i + 1) (step p s i) := by
  obtain ⟨m, c⟩ := s
  obtain ⟨hc, hf, hr, hp⟩ := h
  dsimp only at hc hf hr hp
  have hlen : m.length = l.length := hp.length_eq
  have hx : m[i]? = some l[i] := by
    have h0 := congrArg (fun d => d[0]?) hr
    simpa [List.getElem?_drop, hi] using h0
  have hy : m[c]? = some m[c] := by simp [show c < m.length by omega]
  have hrest : m.drop (i + 1) = l.drop (i + 1) := by
    rw [← List.drop_drop, hr, List.drop_drop]
  simp only [FrontSwap.step, hx, hy]
  by_cases hpx : p l[i]
  · refine ⟨by simp [hpx, hc], ?_, ?_, ?_⟩
    · have hcl : c < ((m.set i m[c]).set c l[i]).length := by simp; omega
      simp only [hpx, if_true]
      rw [← List.take_concat_get' _ _ hcl, List.take_set_of_le (by omega), List.take_set_of_le hc,
        hf, List.take_succ_eq_append_getElem hi, List.filter_append]
      simp [hpx]
    · simp only [hpx, if_true]
      rw [List.drop_set_of_lt (by omega), List.drop_set_of_lt (by omega), hrest]
    · simp only [hpx, if_true]
      exact (set_set_perm hx hy).trans hp
  · refine ⟨by simp [hpx]; omega, ?_, by simp [hpx, hrest], by simpa [hpx] using hp⟩
    simp only [hpx, Bool.false_eq_true, if_false]
    rw [hf, List.take_succ_eq_append_getElem hi, List.filter_append]
    simp [hpx]

theorem visited_foldl {i : ℕ} (hi : i ≤ l.length) :
    Visited p l i ((List.range i).foldl (FrontSwap.step p) (l, 0)) := by
  induction i with
  | zero => exact Visited.init p l
  | succ i ih =>
    rw [List.range_succ, List.foldl_append]
    exact (ih (by omega)).step hi

theorem visited_pass (l : List α) : Visited p l l.length (pass p l) := visited_foldl le_rfl

theorem pass_take (l : List α) : (pass p l).1.take (pass p l).2 = l.filter p := by
  simpa using (visited_pass (p := p) l).front

theorem pass_perm (l : List α) : (pass p l).1.Perm l := (visited_pass l).perm

end HmmOS.Lib.FrontSwap
