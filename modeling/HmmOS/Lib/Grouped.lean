import Mathlib.Data.List.Basic
import Mathlib.Tactic.Common

/-! # Lists whose classes are contiguous

In a grouped list the elements of one class stand next to each other.
-/
namespace HmmOS.Lib
variable {ν β : Type*} {b b' : ν → β} {n p : ν} {i : β} {xs l r : List ν}

/-- If the class of an element occurs later in the list, it occurs right after the element. -/
def Grouped (b : ν → β) : List ν → Prop
  | [] => True
  | x :: xs => (∀ y ∈ xs, b y = b x → xs.head?.map b = some (b x)) ∧ Grouped b xs

def firstOf [DecidableEq β] (b : ν → β) (i : β) (xs : List ν) : Option ν := xs.find? (fun a => b a = i)

theorem Grouped.congr (h : Grouped b xs) (hb : ∀ a ∈ xs, b' a = b a) : Grouped b' xs := by
  induction xs with
  | nil => trivial
  | cons x xs ih =>
    rcases h with ⟨h1, h2⟩
    refine ⟨fun y hy he => ?_, ih h2 (fun a ha => hb a (by simp [ha]))⟩
    rw [hb y (by simp [hy]), hb x (by simp)] at he
    have hhead := h1 y hy he
    cases xs with
    | nil => simp at hy
    | cons z zs =>
      rw [hb x (by simp)]
      simpa [hb z (by simp)] using hhead

theorem Grouped.erase (h : Grouped b (l ++ n :: r)) : Grouped b (l ++ r) := by
  induction l with
  | nil => exact h.2
  | cons x l ih =>
    rw [List.cons_append, Grouped] at h
    rcases h with ⟨h1, h2⟩
    rw [List.cons_append, Grouped]
    refine ⟨fun y hy he => ?_, ih h2⟩
    have hhead := h1 y (by simp only [List.mem_append, List.mem_cons] at hy ⊢; tauto) he
    cases l with
    | cons z l => exact hhead
    | nil =>
      -- the removed element followed `x`, so it had the class of `x`
      simp only [List.nil_append, List.head?_cons, Option.map_some, Option.some.injEq] at hhead hy ⊢
      rw [← hhead]
      exact h2.1 y hy (he.trans hhead.symm)

theorem Grouped.insert (h : Grouped b (l ++ p :: r)) (hb : b n = b p) : Grouped b (l ++ n :: p :: r) := by
  induction l with
  | nil => exact ⟨fun _ _ _ => by simp [hb], h⟩
  | cons x l ih =>
    rw [List.cons_append, Grouped] at h
    rcases h with ⟨h1, h2⟩
    rw [List.cons_append, Grouped]
    refine ⟨fun y hy he => ?_, ih h2⟩
    have hhead : (l ++ p :: r).head?.map b = some (b x) := by
      by_cases hyn : y = n
      · exact h1 p (by simp) (by rw [← hb, ← hyn, he])
      · apply h1 y _ he
        simp only [List.mem_append, List.mem_cons] at hy ⊢
        tauto
    cases l with
    | nil => simpa [hb] using hhead
    | cons z l => exact hhead

theorem Grouped.cons (h : Grouped b xs) (hn : ∀ a ∈ xs, b a ≠ b n) : Grouped b (n :: xs) :=
  ⟨fun y hy he => absurd he (hn y hy), h⟩

theorem Grouped.of_append (h : Grouped b (l ++ r)) : Grouped b r := by
  induction l with
  | nil => exact h
  | cons x l ih => exact ih h.2

variable [DecidableEq β]

/-- Scanning from the first element of a class reaches all of it. -/
theorem Grouped.mem_takeWhile (h : Grouped b (p :: r)) {a : ν} (ha : a ∈ p :: r) (hb : b a = b p) :
    a ∈ (p :: r).takeWhile (fun x => b x = b p) := by
  induction r generalizing p with
  | nil => simpa using ha
  | cons q r ih =>
    rw [List.takeWhile_cons_of_pos (by simp)]
    rcases List.mem_cons.mp ha with rfl | ha
    · simp
    · have hq : b q = b p := by simpa using h.1 a ha hb
      have hmem := ih h.2 ha (hb.trans hq.symm)
      rw [hq] at hmem
      exact List.mem_cons_of_mem _ hmem

theorem firstOf_eq_none : firstOf b i xs = none ↔ ∀ a ∈ xs, b a ≠ i := by
  simp [firstOf]

theorem firstOf_eq_some (h : firstOf b i xs = some p) :
    ∃ l r, xs = l ++ p :: r ∧ b p = i ∧ ∀ a ∈ l, b a ≠ i := by
  rcases List.find?_eq_some_iff_append.mp h with ⟨hp, l, r, rfl, hl⟩
  exact ⟨l, r, rfl, by simpa using hp, fun a ha => by simpa using hl a ha⟩

theorem firstOf_congr (hb : ∀ a ∈ xs, b' a = b a) : firstOf b' i xs = firstOf b i xs := by
  induction xs with
  | nil => rfl
  | cons x xs ih =>
    have htail := ih fun a ha => hb a (by simp [ha])
    unfold firstOf at htail ⊢
    rw [List.find?_cons, List.find?_cons, hb x (by simp), htail]

theorem firstOf_insert (hl : ∀ a ∈ l, b a ≠ b n) :
    firstOf b i (l ++ n :: r) = if i = b n then some n else firstOf b i (l ++ r) := by
  unfold firstOf
  split_ifs with hi
  · subst hi
    have hnone : l.find? (fun a => b a = b n) = none := by simpa using hl
    simp [hnone]
  · simp [Ne.symm hi]

/-- No element before the first one of a class is in it. -/
theorem ne_of_firstOf (h : firstOf b (b n) (l ++ n :: r) = some n) (hn : n ∉ l) : ∀ a ∈ l, b a ≠ b n := by
  intro a ha he
  rw [firstOf, List.find?_append] at h
  cases hf : l.find? (fun x => b x = b n) with
  | none => exact absurd he (by simpa using List.find?_eq_none.mp hf a ha)
  | some q =>
    obtain rfl : q = n := by simpa [hf] using h
    exact hn (List.mem_of_find?_eq_some hf)

/-- Removing an element that is not the first of its class leaves the first elements as they are. -/
theorem firstOf_erase_of_ne (hp : firstOf b (b n) (l ++ n :: r) ≠ some n) :
    firstOf b i (l ++ r) = firstOf b i (l ++ n :: r) := by
  unfold firstOf at hp ⊢
  rw [List.find?_append, List.find?_append, List.find?_cons]
  by_cases hi : b n = i
  · subst hi
    cases hl : l.find? (fun a => b a = b n) with
    | none => simp [hl] at hp
    | some x => simp
  · simp [hi]

/-- What is left of a class when its first element goes is what follows that element. -/
theorem firstOf_erase (h : Grouped b (l ++ n :: r)) (hl : ∀ a ∈ l, b a ≠ b n) : firstOf b i (l ++ r) =
      if i = b n then (if r.head?.map b = some (b n) then r.head? else none)
      else firstOf b i (l ++ n :: r) := by
  unfold firstOf
  rw [List.find?_append, List.find?_append, List.find?_cons]
  split_ifs with hi hr
  · subst hi
    have hnone : l.find? (fun a => b a = b n) = none := by simpa using hl
    rcases Option.map_eq_some_iff.mp hr with ⟨q, hq, hbq⟩
    cases r with
    | nil => simp at hq
    | cons q' r =>
      obtain rfl : q' = q := by simpa using hq
      simp [hnone, hbq]
  · subst hi
    have hgroup := h.of_append
    have hnone : ∀ a ∈ l ++ r, b a ≠ b n := by
      intro a ha he
      rcases List.mem_append.mp ha with ha | ha
      · exact hl a ha he
      · exact hr (hgroup.1 a ha he)
    rw [← List.find?_append]
    exact firstOf_eq_none.mpr hnone
  · simp [Ne.symm hi]

end HmmOS.Lib
