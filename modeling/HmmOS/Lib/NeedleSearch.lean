import Mathlib.Tactic

/-! # Circular first-fit search for consecutive free slots

A needle walks over the slots `s ≤ k < e` looking for `n` consecutive free ones. An
attempt that meets an occupied slot moves the needle there; one that would run past `e`
moves it back to `s`. The search gives up once it has come full circle.
-/
namespace HmmOS.Lib.NeedleSearch
variable (free : ℕ → Bool) (s e n : ℕ)

/-- The first occupied slot among the `m` slots from `k` on. -/
def firstOccupied : ℕ → ℕ → Option ℕ
  | 0, _ => none
  | m + 1, k => if free k then firstOccupied m (k + 1) else some k

/-- Try to place `n` slots at `k`: success, the new needle and the slots passed so far. -/
def attempt (k steps : ℕ) : Bool × ℕ × ℕ :=
  if e < k + n then (false, s, steps + (e - k))
  else match firstOccupied free n k with
    | some i => (false, i, steps + (i - k))
    | none => (true, k, steps)

def seek : ℕ → ℕ → ℕ → ℕ × ℕ
  | 0, k, steps => (k, steps)
  | fuel + 1, k, steps =>
    if free k then (k, steps)
    else if steps + 1 < e - s then seek fuel (if e ≤ k + 1 then s else k + 1) (steps + 1)
    else (k, steps + 1)

/-- Alternate attempts and moves; `none` only when the fuel runs out. -/
def search (tryAt : ℕ → ℕ → Bool × ℕ × ℕ) : ℕ → ℕ → ℕ → Option (ℕ × ℕ)
  | 0, _, _ => none
  | fuel + 1, k, steps =>
    match tryAt k steps with
    | (true, r) => some r
    | (false, k', steps') =>
      if steps' < e - s then
        let r := seek free s e (e - s + 1) k' steps'
        search tryAt fuel r.1 r.2
      else some (k', steps')

/-- An attempt that keeps the needle among the slots, succeeds only where `P` holds, and otherwise
passes a slot or stops on an occupied one. -/
structure Attempts (tryAt : ℕ → ℕ → Bool × ℕ × ℕ) (P : ℕ → Prop) : Prop where
  mem : ∀ {k} (steps), s ≤ k ∧ k < e → s ≤ (tryAt k steps).2.1 ∧ (tryAt k steps).2.1 < e
  found : ∀ {k steps k' steps'}, s ≤ k ∧ k < e → tryAt k steps = (true, k', steps') → P k'
  moved : ∀ {k steps k' steps'}, s ≤ k ∧ k < e → tryAt k steps = (false, k', steps') →
    steps < steps' ∨ steps' = steps ∧ free k' = false

section Slots
variable {free s e n} {fuel k steps : ℕ}

theorem firstOccupied_none {m : ℕ} (h : firstOccupied free m k = none) :
    ∀ i, k ≤ i → i < k + m → free i = true := by
  induction m generalizing k with
  | zero => intro i hki hi; omega
  | succ m ih =>
    intro i hki hi
    rw [firstOccupied] at h
    split_ifs at h with hk
    by_cases he : i = k
    · rw [he, hk]
    · exact ih h i (by omega) (by omega)

theorem firstOccupied_some {m i : ℕ} (h : firstOccupied free m k = some i) :
    k ≤ i ∧ i < k + m ∧ free i = false := by
  induction m generalizing k with
  | zero => simp [firstOccupied] at h
  | succ m ih =>
    rw [firstOccupied] at h
    split_ifs at h with hk
    · obtain ⟨hl, hu, hf⟩ := ih h
      exact ⟨by omega, by omega, hf⟩
    · obtain rfl : k = i := Option.some.inj h
      exact ⟨le_rfl, by omega, by simpa using hk⟩

theorem firstOccupied_before {m i : ℕ} (h : firstOccupied free m k = some i) :
    ∀ j, k ≤ j → j < i → free j = true := by
  induction m generalizing k with
  | zero => simp [firstOccupied] at h
  | succ m ih =>
    intro j hkj hji
    rw [firstOccupied] at h
    split_ifs at h with hk
    · by_cases he : j = k
      · rw [he, hk]
      · exact ih h j (by omega) hji
    · obtain rfl : k = i := Option.some.inj h
      omega

theorem attempt_mem (hk : s ≤ k ∧ k < e) :
    s ≤ (attempt free s e n k steps).2.1 ∧ (attempt free s e n k steps).2.1 < e := by
  unfold attempt
  split_ifs with hw
  · exact ⟨le_rfl, hk.1.trans_lt hk.2⟩
  · split
    · rename_i i hi
      obtain ⟨hl, hu, -⟩ := firstOccupied_some hi
      exact ⟨by dsimp only; omega, by dsimp only; omega⟩
    · exact hk

theorem attempt_true {k' steps' : ℕ} (h : attempt free s e n k steps = (true, k', steps')) :
    k' = k ∧ steps' = steps ∧ k + n ≤ e ∧ ∀ i, k ≤ i → i < k + n → free i = true := by
  unfold attempt at h
  split_ifs at h with hw
  · simp at h
  · split at h
    · simp at h
    · rename_i hn
      simp only [Prod.mk.injEq, true_and] at h
      exact ⟨h.1.symm, h.2.symm, by omega, firstOccupied_none hn⟩

theorem seek_mem (hk : s ≤ k ∧ k < e) :
    s ≤ (seek free s e fuel k steps).1 ∧ (seek free s e fuel k steps).1 < e := by
  induction fuel generalizing k steps with
  | zero => exact hk
  | succ fuel ih =>
    rw [seek]
    split_ifs with hf hs hw
    · exact hk
    · exact ih ⟨le_rfl, by omega⟩
    · exact ih ⟨by omega, by omega⟩
    · exact hk

theorem seek_steps (hs : steps < e - s) : (seek free s e fuel k steps).2 ≤ e - s := by
  induction fuel generalizing k steps with
  | zero => exact hs.le
  | succ fuel ih =>
    rw [seek]
    split_ifs with hf hlt hw
    · exact hs.le
    · exact ih hlt
    · exact ih hlt
    · omega

theorem seek_le : steps ≤ (seek free s e fuel k steps).2 := by
  induction fuel generalizing k steps with
  | zero => exact le_rfl
  | succ fuel ih =>
    rw [seek]
    split_ifs with hf hlt hw
    · exact le_rfl
    · exact (Nat.le_succ steps).trans ih
    · exact (Nat.le_succ steps).trans ih
    · exact Nat.le_succ steps

theorem lt_seek (hk : free k = false) : steps < (seek free s e (fuel + 1) k steps).2 := by
  rw [seek, if_neg (by simp [hk])]
  split_ifs with hlt hw
  · exact seek_le
  · exact seek_le
  · exact Nat.lt_succ_self steps

theorem attempt_false {k' steps' : ℕ} (hk : s ≤ k ∧ k < e)
    (h : attempt free s e n k steps = (false, k', steps')) :
    steps < steps' ∨ steps' = steps ∧ free k' = false := by
  unfold attempt at h
  split_ifs at h with hw
  · simp only [Prod.mk.injEq, true_and] at h
    omega
  · split at h
    · rename_i i hi
      obtain ⟨hl, -, hf⟩ := firstOccupied_some hi
      simp only [Prod.mk.injEq, true_and] at h
      obtain ⟨rfl, hsteps⟩ := h
      by_cases he : i = k
      · exact .inr ⟨by omega, hf⟩
      · exact .inl (by omega)
    · simp at h

/-- A search ends with its needle among the slots; one that has not come full circle has found
what the attempts look for. -/
theorem search_spec {tryAt : ℕ → ℕ → Bool × ℕ × ℕ} {P : ℕ → Prop} (ht : Attempts free s e tryAt P)
    (hk : s ≤ k ∧ k < e) (hfuel : e - s < steps + fuel) (hsteps : steps ≤ e - s) :
    ∃ k' steps', search free s e tryAt fuel k steps = some (k', steps') ∧ (s ≤ k' ∧ k' < e) ∧
      (steps' < e - s → P k') := by
  induction fuel generalizing k steps with
  | zero => omega
  | succ fuel ih =>
    rw [search]
    have hmem := ht.mem steps hk
    rcases ha : tryAt k steps with ⟨ok, ka, sa⟩
    rw [ha] at hmem
    cases ok with
    | true => exact ⟨ka, sa, rfl, hmem, fun _ => ht.found hk ha⟩
    | false =>
      dsimp only at hmem ⊢
      split_ifs with hs
      · have hprogress : steps < (seek free s e (e - s + 1) ka sa).2 := by
          rcases ht.moved hk ha with hlt | ⟨rfl, hocc⟩
          · exact hlt.trans_le seek_le
          · exact lt_seek hocc
        exact ih (seek_mem hmem) (by omega) (seek_steps hs)
      · exact ⟨ka, sa, rfl, hmem, fun hlt => absurd hlt hs⟩

end Slots

end HmmOS.Lib.NeedleSearch
