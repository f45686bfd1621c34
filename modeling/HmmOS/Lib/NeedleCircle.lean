import HmmOS.Lib.NeedleSearch

/-! # A circular search misses no place

The slots `s ≤ k < e` are passed in the order in which they follow the needle `k0`.
Some places near the end may be *wild*: an attempt there succeeds whatever is in the
slots.
-/
namespace HmmOS.Lib.NeedleSearch
variable (free : ℕ → Bool) (s e n : ℕ)

/-- `n` consecutive free slots from `k` on. -/
def Run (k : ℕ) : Prop := k + n ≤ e ∧ ∀ i, k ≤ i → i < k + n → free i = true

/-- The slot that is passed after `i` others. -/
def place (k0 i : ℕ) : ℕ := if k0 + i < e then k0 + i else k0 + i - (e - s)

/-- Where an attempt may begin: at the needle, or at a free slot after an occupied one. -/
def Start (k0 k : ℕ) : Prop := k = k0 ∨ (free k = true ∧ free (k - 1) = false)

structure Reached (k0 k : ℕ) : Prop where
  lower : k0 ≤ k
  upper : k < e
  start : Start free k0 k
  fits : ∀ q, k0 ≤ q → q < k → Start free k0 q → q + n ≤ e
  noRun : ∀ q, k0 ≤ q → q < k → ¬ Run free e n q

/-- An attempt that succeeds at wild places. -/
def attemptOr (wild : ℕ → Prop) [DecidablePred wild] (k steps : ℕ) : Bool × ℕ × ℕ :=
  if wild k then (true, k, steps) else attempt free s e n k steps

structure Searching (wild : ℕ → Prop) (k0 k steps : ℕ) : Prop where
  noRun : ∀ i < steps, i < e - s → ¬ Run free e n (place s e k0 i)
  here : steps < e - s → k = place s e k0 steps
  reached : k0 + steps < e → Reached free e n k0 k
  tame : e ≤ k0 + steps → ∀ p, Reached free e n k0 p → ¬ wild p

structure Blocked (wild : ℕ → Prop) (k0 k steps : ℕ) : Prop where
  noRun : ∀ i < steps, i < e - s → ¬ Run free e n (place s e k0 i)
  here : steps < e - s → k = place s e k0 steps
  found : k0 + steps < e → free k = true → Reached free e n k0 k
  fits : k0 + steps < e → free k = false → ∀ q, k0 ≤ q → q ≤ k → Start free k0 q → q + n ≤ e
  tame : e ≤ k0 + steps → ∀ p, Reached free e n k0 p → ¬ wild p

/-- How a search ends: at a wild place, at a run of free slots, or after all the slots without a run. -/
inductive Ends (wild : ℕ → Prop) (k0 k steps : ℕ) : Prop
  | atWild (hsteps : steps < e - s) (hr : Reached free e n k0 k) (hw : wild k)
  | atRun (hsteps : steps < e - s) (hrun : Run free e n k)
      (htame : ∀ p, Reached free e n k0 p → ¬ wild p)
  | full (hsteps : e - s ≤ steps) (hnone : ∀ k, s ≤ k → k < e → ¬ Run free e n k)
      (htame : ∀ p, Reached free e n k0 p → ¬ wild p)

section Places
variable {free s e n} {k0 k steps fuel k' : ℕ} {wild : ℕ → Prop}

theorem Reached.init (h : k0 < e) : Reached free e n k0 k0 where
  lower := le_rfl
  upper := h
  start := .inl rfl
  fits := by
    intro q hlo hhi
    omega
  noRun := by
    intro q hlo hhi
    omega

theorem Searching.init (hk : s ≤ k0 ∧ k0 < e) : Searching free s e n wild k0 k0 0 where
  noRun := by
    intro i hi
    omega
  here := by
    intro _
    rw [place, if_pos (by omega), Nat.add_zero]
  reached := fun _ => .init hk.2
  tame := by
    intro h
    omega

theorem exists_place (hk0 : s ≤ k0 ∧ k0 < e) (hk : s ≤ k ∧ k < e) : ∃ i < e - s, place s e k0 i = k := by
  by_cases h : k0 ≤ k
  · refine ⟨k - k0, by omega, ?_⟩
    rw [place, if_pos (by omega)]
    omega
  · refine ⟨k + (e - s) - k0, by omega, ?_⟩
    rw [place, if_neg (by omega)]
    omega

/-- The search is still on the slots from the needle on, or it has come round to those before it. -/
theorem place_cases (hsteps : steps < e - s) (hk : steps < e - s → k = place s e k0 steps) :
    (k0 + steps < e ∧ k = k0 + steps) ∨ (e ≤ k0 + steps ∧ k + (e - s) = k0 + steps) := by
  have hhere := hk hsteps
  unfold place at hhere
  split_ifs at hhere with hlt
  · exact .inl ⟨hlt, hhere⟩
  · exact .inr ⟨by omega, by omega⟩

theorem not_run_of_occupied (hn : 1 ≤ n) (h : free k = false) : ¬ Run free e n k := by
  intro hrun
  have := hrun.2 k le_rfl (by omega)
  rw [h] at this
  cases this

/-- Two reached places: only one of them can end the first part of the search. -/
theorem Reached.tame_of_run (hk : Reached free e n k0 k) (hrun : Run free e n k)
    (hwild : ∀ p, wild p → e < p + n) : ∀ p, Reached free e n k0 p → ¬ wild p := by
  intro p hp hw
  have hlt := hwild p hw
  rcases Nat.lt_trichotomy p k with h | rfl | h
  · exact absurd (hk.fits p hp.lower h hp.start) (by omega)
  · exact absurd hrun.1 (by omega)
  · exact hp.noRun k hk.lower h hrun

theorem Reached.tame_of_end (hk : Reached free e n k0 k) (hend : e < k + n) (hk' : ¬ wild k)
    (hwild : ∀ p, wild p → e < p + n) : ∀ p, Reached free e n k0 p → ¬ wild p := by
  intro p hp hw
  have hlt := hwild p hw
  rcases Nat.lt_trichotomy p k with h | rfl | h
  · exact absurd (hk.fits p hp.lower h hp.start) (by omega)
  · exact hk' hw
  · exact absurd (hp.fits k hk.lower h hk.start) (by omega)

/-- What a failed attempt has met: the end of the slots, or an occupied slot. -/
theorem attempt_false_cases {steps' : ℕ} (h : attempt free s e n k steps = (false, k', steps')) :
    (e < k + n ∧ k' = s ∧ steps' = steps + (e - k)) ∨
      (k + n ≤ e ∧ k ≤ k' ∧ k' < k + n ∧ free k' = false ∧ steps' = steps + (k' - k) ∧
        ∀ i, k ≤ i → i < k' → free i = true) := by
  unfold attempt at h
  split_ifs at h with hend
  · simp only [Prod.mk.injEq, true_and] at h
    exact .inl ⟨hend, h.1.symm, h.2.symm⟩
  · cases ho : firstOccupied free n k with
    | none =>
      rw [ho] at h
      simp at h
    | some i =>
      rw [ho] at h
      obtain ⟨rfl, rfl⟩ := h
      obtain ⟨hlo, hhi, hocc⟩ := firstOccupied_some ho
      exact .inr ⟨by omega, hlo, hhi, hocc, rfl, firstOccupied_before ho⟩

/-- After an attempt at a place without room for `n` slots the search goes on at the first slot. -/
theorem Searching.attempt_end (h : Searching free s e n wild k0 k steps) (hk0 : s ≤ k0 ∧ k0 < e)
    (hsteps : steps < e - s) (hk : ¬ wild k) (hwild : ∀ p, wild p → e < p + n) (hend : e < k + n) :
    Blocked free s e n wild k0 s (steps + (e - k)) := by
  have hplace := place_cases hsteps h.here
  constructor
  case noRun =>
    intro i hi hlen hrun
    by_cases hold : i < steps
    · exact h.noRun i hold hlen hrun
    · -- from `k` on there is no room either
      have hroom := hrun.1
      unfold place at hroom
      rcases hplace with ⟨hlt, hke⟩ | ⟨hge, hke⟩
      · rw [if_pos (by omega)] at hroom
        omega
      · rw [if_neg (by omega)] at hroom
        omega
  case here =>
    intro hlt
    rcases hplace with ⟨hlt', hke⟩ | ⟨hge, hke⟩
    · rw [place, if_neg (by omega)]
      omega
    · omega
  case found =>
    intro hlt
    omega
  case fits =>
    intro hlt
    omega
  case tame =>
    intro _
    rcases hplace with ⟨hlt, -⟩ | ⟨hge, -⟩
    · exact (h.reached hlt).tame_of_end hend hk hwild
    · exact h.tame hge

/-- After an attempt that meets an occupied slot the search goes on there. -/
theorem Searching.attempt_occupied (h : Searching free s e n wild k0 k steps)
    (hsteps : steps < e - s) (hfit : k + n ≤ e) (hlo : k ≤ k') (hhi : k' < k + n)
    (hocc : free k' = false) (hfree : ∀ i, k ≤ i → i < k' → free i = true) :
    Blocked free s e n wild k0 k' (steps + (k' - k)) := by
  have hplace := place_cases hsteps h.here
  constructor
  case noRun =>
    intro i hi hlen hrun
    by_cases hold : i < steps
    · exact h.noRun i hold hlen hrun
    · -- a run from `k` on up to the occupied slot would contain it
      have hin := hrun.2 k'
      unfold place at hin
      have hocc' : free k' = true := by
        rcases hplace with ⟨hlt, hke⟩ | ⟨hge, hke⟩
        · rw [if_pos (by omega)] at hin
          exact hin (by omega) (by omega)
        · rw [if_neg (by omega)] at hin
          exact hin (by omega) (by omega)
      rw [hocc] at hocc'
      cases hocc'
  case here =>
    intro hlt
    rcases hplace with ⟨hlt', hke⟩ | ⟨hge, hke⟩
    · rw [place, if_pos (by omega)]
      omega
    · rw [place, if_neg (by omega)]
      omega
  case found =>
    intro _ hk'
    rw [hocc] at hk'
    cases hk'
  case fits =>
    intro hlt _ q hq hqk hstart
    rcases hplace with ⟨hlt', hke⟩ | ⟨hge, hke⟩
    · have hr := h.reached hlt'
      rcases Nat.lt_trichotomy q k with hqlt | rfl | hqgt
      · exact hr.fits q hq hqlt hstart
      · exact hfit
      · -- the slots after `k` follow free ones, and the occupied one is no start
        rcases hstart with rfl | ⟨hqfree, hqprev⟩
        · omega
        · rw [hfree (q - 1) (by omega) (by omega)] at hqprev
          cases hqprev
    · omega
  case tame =>
    intro hge
    rcases hplace with ⟨hlt, hke⟩ | ⟨hge', -⟩
    · omega
    · exact h.tame hge'

theorem Searching.attempt_false {steps' : ℕ} (h : Searching free s e n wild k0 k steps)
    (hk0 : s ≤ k0 ∧ k0 < e) (hsteps : steps < e - s) (hk : ¬ wild k)
    (hwild : ∀ p, wild p → e < p + n) (ha : attempt free s e n k steps = (false, k', steps')) :
    Blocked free s e n wild k0 k' steps' := by
  rcases attempt_false_cases ha with ⟨hend, rfl, rfl⟩ | ⟨hfit, hlo, hhi, hocc, rfl, hfree⟩
  · exact h.attempt_end hk0 hsteps hk hwild hend
  · exact h.attempt_occupied hsteps hfit hlo hhi hocc hfree

theorem firstOccupied_of_free {m : ℕ} (h : ∀ i, k ≤ i → i < k + m → free i = true) :
    firstOccupied free m k = none := by
  cases ho : firstOccupied free m k with
  | none => rfl
  | some i =>
    obtain ⟨hlo, hhi, hocc⟩ := firstOccupied_some ho
    rw [h i hlo hhi] at hocc
    cases hocc

theorem search_of_run [DecidablePred wild] (h : Run free e n k) :
    search free s e (attemptOr free s e n wild) (fuel + 1) k steps = some (k, steps) := by
  have hattempt : attempt free s e n k steps = (true, k, steps) := by
    rw [attempt, if_neg (Nat.not_lt.mpr h.1), firstOccupied_of_free h.2]
  rw [search, attemptOr, hattempt, ite_self]

/-- When every place where an attempt may begin has room, none of those is wild. -/
theorem tame_of_fits (hfits : ∀ q, k0 ≤ q → q < e → Start free k0 q → q + n ≤ e)
    (hwild : ∀ p, wild p → e < p + n) : ∀ p, Reached free e n k0 p → ¬ wild p := by
  intro p hp hw
  have hroom := hfits p hp.lower hp.upper hp.start
  have := hwild p hw
  omega

theorem Blocked.pass (h : Blocked free s e n wild k0 k steps) (hn : 1 ≤ n) (hk0 : s ≤ k0 ∧ k0 < e)
    (hwild : ∀ p, wild p → e < p + n) (hsteps : steps < e - s) (hocc : free k = false)
    (hk' : steps + 1 < e - s → k' = if e ≤ k + 1 then s else k + 1) :
    Blocked free s e n wild k0 k' (steps + 1) := by
  have hnext : k0 + (steps + 1) < e → k' = k + 1 := by
    intro hlt
    rcases place_cases hsteps h.here with ⟨hlt', hke⟩ | ⟨hge, hke⟩
    · rw [hk' (by omega), if_neg (by omega)]
    · omega
  constructor
  case noRun =>
    intro i hi hlen
    by_cases hold : i < steps
    · exact h.noRun i hold hlen
    · have hlast : i = steps := by omega
      rw [hlast, ← h.here hsteps]
      exact not_run_of_occupied hn hocc
  case here =>
    intro hlt
    rw [hk' hlt, place]
    rcases place_cases hsteps h.here with ⟨hlt', hke⟩ | ⟨hge, hke⟩
    · split_ifs <;> omega
    · rw [if_neg (by omega), if_neg (by omega)]
      omega
  case found =>
    intro hlt hfree
    rcases place_cases hsteps h.here with ⟨hlt', hke⟩ | ⟨hge, hke⟩
    · rw [hnext hlt] at hfree ⊢
      refine ⟨by omega, by omega, .inr ⟨hfree, ?_⟩, ?_, ?_⟩
      · rwa [Nat.add_sub_cancel]
      · intro q hq hqk hstart
        exact h.fits hlt' hocc q hq (by omega) hstart
      · intro q hq hqk
        by_cases hqe : q = k
        · rw [hqe]
          exact not_run_of_occupied hn hocc
        · have hplace : place s e k0 (q - k0) = q := by
            rw [place, if_pos (by omega)]
            omega
          rw [← hplace]
          exact h.noRun (q - k0) (by omega) (by omega)
    · omega
  case fits =>
    intro hlt hocc' q hq hqk hstart
    rcases place_cases hsteps h.here with ⟨hlt', hke⟩ | ⟨hge, hke⟩
    · rw [hnext hlt] at hocc' hqk
      by_cases hqe : q = k + 1
      · rcases hstart with rfl | ⟨hqfree, -⟩
        · omega
        · rw [hqe, hocc'] at hqfree
          cases hqfree
      · exact h.fits hlt' hocc q hq (by omega) hstart
    · omega
  case tame =>
    intro hge
    rcases place_cases hsteps h.here with ⟨hlt', hke⟩ | ⟨hge', -⟩
    · -- the last slot has been passed, and all the places before it have room
      apply tame_of_fits _ hwild
      intro q hq hqe hstart
      exact h.fits hlt' hocc q hq (by omega) hstart
    · exact h.tame hge'

/-- The seek ends at a free slot, or when all the slots have been passed. -/
theorem Blocked.seek (h : Blocked free s e n wild k0 k steps) (hn : 1 ≤ n) (hk0 : s ≤ k0 ∧ k0 < e)
    (hwild : ∀ p, wild p → e < p + n) (hsteps : steps < e - s) (hfuel : e - s < steps + fuel) :
    Searching free s e n wild k0 (seek free s e fuel k steps).1 (seek free s e fuel k steps).2 := by
  induction fuel generalizing k steps with
  | zero => omega
  | succ fuel ih =>
    rw [NeedleSearch.seek]
    by_cases hfree : free k = true
    · rw [if_pos hfree]
      exact ⟨h.noRun, h.here, fun hlt => h.found hlt hfree, h.tame⟩
    · rw [if_neg hfree]
      have hocc : free k = false := by simpa using hfree
      by_cases hlast : steps + 1 < e - s
      · rw [if_pos hlast]
        exact ih (h.pass hn hk0 hwild hsteps hocc fun _ => rfl) hlast (by omega)
      · rw [if_neg hlast]
        have hdone : Blocked free s e n wild k0 k (steps + 1) :=
          h.pass hn hk0 hwild hsteps hocc fun hlt => absurd hlt hlast
        exact ⟨hdone.noRun, hdone.here, fun hlt => absurd hlt (by omega), hdone.tame⟩

theorem ends_of_all (hk0 : s ≤ k0 ∧ k0 < e) (hsteps : e - s ≤ steps)
    (hnoRun : ∀ i < steps, i < e - s → ¬ Run free e n (place s e k0 i))
    (htame : ∀ p, Reached free e n k0 p → ¬ wild p) : Ends free s e n wild k0 k steps := by
  refine .full hsteps ?_ htame
  intro k hlo hhi
  obtain ⟨i, hi, rfl⟩ := exists_place hk0 ⟨hlo, hhi⟩
  exact hnoRun i (by omega) hi

theorem search_ends [DecidablePred wild] (hn : 1 ≤ n) (hk0 : s ≤ k0 ∧ k0 < e)
    (hwild : ∀ p, wild p → e < p + n) (hmono : ∀ p q, p ≤ q → wild p → wild q) (hk : s ≤ k ∧ k < e)
    (h : Searching free s e n wild k0 k steps) (hfuel : e - s < steps + fuel) (hsteps : steps ≤ e - s) :
    ∃ k' steps', search free s e (attemptOr free s e n wild) fuel k steps = some (k', steps') ∧
      (s ≤ k' ∧ k' < e) ∧ Ends free s e n wild k0 k' steps' := by
  induction fuel generalizing k steps with
  | zero => omega
  | succ fuel ih =>
    have hall : e - s ≤ steps → ∀ k', Ends free s e n wild k0 k' steps := fun hge k' =>
      ends_of_all hk0 hge h.noRun (h.tame (by omega))
    rw [search, attemptOr]
    by_cases hw : wild k
    · rw [if_pos hw]
      refine ⟨k, steps, rfl, hk, ?_⟩
      by_cases hlt : steps < e - s
      · rcases place_cases hlt h.here with ⟨hlt', -⟩ | ⟨hge, hke⟩
        · exact .atWild hlt (h.reached hlt') hw
        · -- a wild place before the needle would make the needle itself wild
          have hwk0 : wild k0 := hmono k k0 (by omega) hw
          exact absurd hwk0 (h.tame hge k0 (.init hk0.2))
      · exact hall (by omega) k
    · rw [if_neg hw]
      have hmem := @attempt_mem free s e n k steps hk
      rcases ha : attempt free s e n k steps with ⟨ok, k', steps'⟩
      rw [ha] at hmem
      cases ok with
      | true =>
        obtain ⟨rfl, rfl, hroom, hfree⟩ := attempt_true ha
        refine ⟨k', steps', rfl, hk, ?_⟩
        by_cases hlt : steps' < e - s
        · refine .atRun hlt ⟨hroom, hfree⟩ ?_
          rcases place_cases hlt h.here with ⟨hlt', -⟩ | ⟨hge, -⟩
          · exact (h.reached hlt').tame_of_run ⟨hroom, hfree⟩ hwild
          · exact h.tame hge
        · exact hall (by omega) k'
      | false =>
        have hmoved := attempt_false hk ha
        dsimp only at hmem ⊢
        by_cases hlt : steps < e - s
        · have hb := h.attempt_false hk0 hlt hw hwild ha
          split_ifs with hs
          · have hprogress : steps < (seek free s e (e - s + 1) k' steps').2 := by
              rcases hmoved with hlt' | ⟨rfl, hocc⟩
              · exact hlt'.trans_le seek_le
              · exact lt_seek hocc
            exact ih (seek_mem hmem) (hb.seek hn hk0 hwild hs (by omega)) (by omega) (seek_steps hs)
          · refine ⟨k', steps', rfl, hmem, ?_⟩
            exact ends_of_all hk0 (by omega) hb.noRun (hb.tame (by omega))
        · rw [if_neg (by omega)]
          refine ⟨k', steps', rfl, hmem, ?_⟩
          have hnoRun : ∀ i < steps', i < e - s → ¬ Run free e n (place s e k0 i) :=
            fun i _ hi => h.noRun i (by omega) hi
          exact ends_of_all hk0 (by omega) hnoRun (h.tame (by omega))

end Places

end HmmOS.Lib.NeedleSearch
