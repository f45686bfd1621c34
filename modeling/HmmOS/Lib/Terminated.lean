import Mathlib.Data.List.TakeWhile
import Mathlib.Tactic.Common

/-! # Terminated arrays

An array of fixed capacity whose last element is not present.
-/
namespace HmmOS.Lib
variable {α : Type*} {present : α → Bool} {cap k : ℕ} {a : List α} {f : α → α}

structure Terminated (present : α → Bool) (cap : ℕ) (a : List α) : Prop where
  length : a.length = cap
  last : ∃ x, a[cap - 1]? = some x ∧ present x = false

theorem Terminated.split (h : Terminated present cap a) :
    ∃ x rest, present x = false ∧ a = a.takeWhile present ++ x :: rest := by
  cases hdrop : a.dropWhile present with
  | nil =>
    obtain ⟨x, hx, hnot⟩ := h.last
    have hall := List.dropWhile_eq_nil_iff.mp hdrop x (List.mem_of_getElem? hx)
    rw [hnot] at hall
    cases hall
  | cons x rest =>
    refine ⟨x, rest, ?_, ?_⟩
    · have hhead := List.head_dropWhile_not present (l := a) (by rw [hdrop]; exact List.cons_ne_nil _ _)
      simpa only [hdrop, List.head_cons] using hhead
    · rw [← hdrop, List.takeWhile_append_dropWhile]

theorem Terminated.modify (h : Terminated present cap a) (hk : k + 1 < cap) :
    Terminated present cap (a.modify k f) where
  length := (List.length_modify ..).trans h.length
  last := by
    obtain ⟨x, hx, hnot⟩ := h.last
    have hne : k ≠ cap - 1 := by omega
    exact ⟨x, by rw [List.getElem?_modify, hx, Option.map_eq_map, Option.map_some, if_neg hne], hnot⟩

theorem modify_append_length (es rest : List α) (x : α) :
    (es ++ x :: rest).modify es.length f = es ++ f x :: rest := by
  induction es with
  | nil => rfl
  | cons y es ih => exact congrArg (y :: ·) ih

/-- A present element in the place of the one that stopped the scan: the scan sees it after all that
it saw before. -/
theorem Terminated.modify_scan (h : Terminated present cap a)
    (hf : ∀ x, present x = false → present (f x) = true) : ∃ x, present x = false ∧
      a.takeWhile present ++ [f x] <+: (a.modify (a.takeWhile present).length f).takeWhile present ∧
      ∀ y ∈ a.modify (a.takeWhile present).length f, y ∈ a ∨ y = f x := by
  obtain ⟨x, rest, hx, hsplit⟩ := h.split
  have hmodify : a.modify (a.takeWhile present).length f = a.takeWhile present ++ f x :: rest := by
    conv_lhs => rw [hsplit]
    rw [List.takeWhile_append_of_pos fun y hy => List.mem_takeWhile_imp hy,
      List.takeWhile_cons_of_neg (by simp [hx]), List.append_nil, modify_append_length]
  rw [hmodify]
  refine ⟨x, hx, ?_, ?_⟩
  · rw [List.takeWhile_append_of_pos fun y hy => List.mem_takeWhile_imp hy,
      List.takeWhile_cons_of_pos (hf x hx)]
    exact ⟨rest.takeWhile present, by simp⟩
  · intro y hy
    rw [List.mem_append, List.mem_cons] at hy
    rw [hsplit, List.mem_append, List.mem_cons]
    tauto

end HmmOS.Lib
