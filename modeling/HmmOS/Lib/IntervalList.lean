import Mathlib.Tactic

/-! # Sorted lists of disjoint intervals

The elements of a list stand for intervals `[lo x, hi x)`, each before the next.
-/
namespace HmmOS.Lib.IntervalList
variable {α : Type*} (lo hi : α → ℕ)

/-- Every interval ends before the next one starts. -/
def Separated (l : List α) : Prop := l.Pairwise fun x y => hi x ≤ lo y

/-- `[a, b)` and the interval of `x` have a point in common, if both are nonempty. -/
def Meets (a b : ℕ) (x : α) : Prop := a < hi x ∧ lo x < b

instance (a b : ℕ) (x : α) : Decidable (Meets lo hi a b x) := inferInstanceAs (Decidable (_ ∧ _))

/-- The position for `[a, b)`, unless it meets an interval on the way there. -/
def place (a b : ℕ) : List α → Option ℕ
  | [] => some 0
  | x :: l =>
    if Meets lo hi a b x then none
    else if a < lo x then some 0
    else (place a b l).map (· + 1)

variable {lo hi} {a b k : ℕ} {l : List α}

theorem place_some (hl : Separated lo hi l) (hne : ∀ x ∈ l, lo x < hi x) (hab : a < b)
    (h : place lo hi a b l = some k) : (∀ x ∈ l.take k, hi x ≤ a) ∧ ∀ x ∈ l.drop k, b ≤ lo x := by
  induction l generalizing k with
  | nil => exact ⟨by simp, by simp⟩
  | cons y l ih =>
    have hy := hne y (by simp)
    rw [place] at h
    split_ifs at h with hm hlt
    · -- `y` and all that follows lie behind
      have hby : b ≤ lo y := by
        by_contra hb
        exact hm ⟨hlt.trans hy, by omega⟩
      obtain rfl := Option.some.inj h
      refine ⟨by simp, fun x hx => ?_⟩
      rcases List.mem_cons.mp hx with rfl | hx
      · exact hby
      · have := List.rel_of_pairwise_cons hl hx
        omega
    · obtain ⟨j, hj, rfl⟩ := Option.map_eq_some_iff.mp h
      obtain ⟨hbefore, hafter⟩ := ih hl.of_cons (fun x hx => hne x (by simp [hx])) hj
      refine ⟨fun x hx => ?_, hafter⟩
      rcases List.mem_cons.mp hx with rfl | hx
      · by_contra hlt'
        exact hm ⟨by omega, by omega⟩
      · exact hbefore x hx

theorem place_none_iff (hl : Separated lo hi l) (hne : ∀ x ∈ l, lo x < hi x) (hab : a < b) :
    place lo hi a b l = none ↔ ∃ x ∈ l, Meets lo hi a b x := by
  constructor
  · intro h
    induction l with
    | nil => simp [place] at h
    | cons y l ih =>
      rw [place] at h
      split_ifs at h with hm hlt
      · exact ⟨y, by simp, hm⟩
      · obtain ⟨x, hx, hmx⟩ := ih hl.of_cons (fun x hx => hne x (by simp [hx]))
          (Option.map_eq_none_iff.mp h)
        exact ⟨x, by simp [hx], hmx⟩
  · rintro ⟨x, hx, hm⟩
    cases hp : place lo hi a b l with
    | none => rfl
    | some k =>
      obtain ⟨hbefore, hafter⟩ := place_some hl hne hab hp
      rw [← List.take_append_drop k l] at hx
      rcases List.mem_append.mp hx with hx | hx
      · exact absurd hm.1 (not_lt.mpr (hbefore x hx))
      · exact absurd hm.2 (not_lt.mpr (hafter x hx))

theorem place_le (h : place lo hi a b l = some k) : k ≤ l.length := by
  induction l generalizing k with
  | nil => exact (Option.some.inj h) ▸ le_rfl
  | cons y l ih =>
    rw [place] at h
    split_ifs at h with hm hlt
    · exact Option.some.inj h ▸ Nat.zero_le _
    · obtain ⟨j, hj, rfl⟩ := Option.map_eq_some_iff.mp h
      exact Nat.succ_le_succ (ih hj)

theorem insertIdx_eq_append (x : α) (hk : k ≤ l.length) : l.insertIdx k x = l.take k ++ x :: l.drop k := by
  induction l generalizing k with
  | nil => simp [Nat.le_zero.mp hk]
  | cons y l ih =>
    cases k with
    | zero => rfl
    | succ k => simp [ih (Nat.le_of_succ_le_succ hk)]

theorem Separated.insertIdx (hl : Separated lo hi l) (hne : ∀ x ∈ l, lo x < hi x) {x : α}
    (hx : lo x < hi x) (h : place lo hi (lo x) (hi x) l = some k) : Separated lo hi (l.insertIdx k x) := by
  obtain ⟨hbefore, hafter⟩ := place_some hl hne hx h
  rw [insertIdx_eq_append x (place_le h), Separated, List.pairwise_append]
  rw [← List.take_append_drop k l, Separated, List.pairwise_append] at hl
  obtain ⟨hleft, hright, hcross⟩ := hl
  refine ⟨hleft, List.pairwise_cons.mpr ⟨hafter, hright⟩, fun y hy z hz => ?_⟩
  rcases List.mem_cons.mp hz with rfl | hz
  · exact hbefore y hy
  · exact hcross y hy z hz

variable (lo hi) in
/-- The intervals of the list are `[a, b)` cut into nonempty pieces, in order. -/
inductive Tiles : ℕ → ℕ → List α → Prop
  | nil {a : ℕ} : Tiles a a []
  | cons {x : α} {b : ℕ} {l : List α} (hx : lo x < hi x) (h : Tiles (hi x) b l) :
      Tiles (lo x) b (x :: l)

namespace Tiles
variable {c : ℕ} {m : List α}

section
variable (h : Tiles lo hi a b l)
include h

theorem append (h' : Tiles lo hi b c m) : Tiles lo hi a c (l ++ m) := by
  induction h with
  | nil => exact h'
  | cons hx _ ih => exact .cons hx (ih h')

theorem le : a ≤ b := by
  induction h with
  | nil => exact le_rfl
  | cons hx _ ih => exact hx.le.trans ih

theorem bounds : ∀ x ∈ l, a ≤ lo x ∧ hi x ≤ b := by
  induction h with
  | nil => simp
  | cons hx h ih =>
    intro y hy
    rcases List.mem_cons.mp hy with rfl | hy
    · exact ⟨le_rfl, h.le⟩
    · exact ⟨hx.le.trans (ih y hy).1, (ih y hy).2⟩

theorem separated : Separated lo hi l := by
  induction h with
  | nil => exact List.Pairwise.nil
  | cons _ h ih => exact List.pairwise_cons.mpr ⟨fun y hy => (h.bounds y hy).1, ih⟩

theorem mem_iff : (∃ x ∈ l, lo x ≤ c ∧ c < hi x) ↔ a ≤ c ∧ c < b := by
  induction h with
  | nil =>
    constructor
    · rintro ⟨x, hx, -⟩
      cases hx
    · omega
  | @cons x b l hx h ih =>
    constructor
    · rintro ⟨y, hy, hyc⟩
      have := (Tiles.cons hx h).bounds y hy
      omega
    · intro hc
      rcases Nat.lt_or_ge c (hi x) with hlt | hge
      · exact ⟨x, by simp, hc.1, hlt⟩
      · obtain ⟨y, hy, hyc⟩ := ih.mpr ⟨hge, hc.2⟩
        exact ⟨y, by simp [hy], hyc⟩

end

end Tiles

end HmmOS.Lib.IntervalList
