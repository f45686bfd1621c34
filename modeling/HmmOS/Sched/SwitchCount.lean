import HmmOS.Sched.RoundRobin

/-! # The number of context switches

Every hundredth context switch `print_stats` divides by the 32-bit number of context
switches.
-/
namespace HmmOS.Sched
open Lib

/-- What `print_stats` divides by in `post_context_switch_bookkeeping`, if it is called there. -/
def Scheduler.statsDivisor (s : Scheduler) : Option ℕ :=
  s.counted.bind fun s' => if s'.contextSwitchCount % 100 = 0 then some s'.contextSwitchCount else none

/-- What `print_stats` divides by in a call of the scheduler. -/
def Call.statsDivisor (s : Scheduler) (c : Call) : Option ℕ :=
  (c.progress s).bind fun
    | .done _ => none
    | .switched s' => s'.statsDivisor

/-- The scheduler after calls of which `k` switched to another thread. -/
inductive Run : ℕ → Scheduler → Prop
  | construct : Run 0 Scheduler.construct
  | stay {k : ℕ} {s s' : Scheduler} {c : Call} (h : Run k s) (hfresh : c.Fresh s)
      (hsw : ¬ c.Switches s) (hrun : c.run s = some s') : Run k s'
  | switch {k : ℕ} {s s' : Scheduler} {c : Call} (h : Run k s) (hfresh : c.Fresh s)
      (hsw : c.Switches s) (hrun : c.run s = some s') : Run (k + 1) s'

section Count
variable {s s' : Scheduler} {c : Call} {k : ℕ} {rs : List ℕ}

theorem Settled.statsDivisor_stay (h : Settled s rs) (hfresh : c.Fresh s) (hsw : ¬ c.Switches s) :
    c.statsDivisor s = none := by
  rcases h.call_cases hfresh with ⟨-, hstay⟩ | ⟨hsw', -⟩
  · rw [Call.statsDivisor]
    cases hp : c.progress s with
    | none => rfl
    | some p =>
      rcases hstay.2 p hp with ⟨s', rs', rfl, -⟩
      rfl
  · exact absurd hsw' hsw

/-- Only the division by zero keeps a switch from returning. -/
theorem Settled.statsDivisor_switch (h : Settled s rs) (hfresh : c.Fresh s) (hsw : c.Switches s) :
    ∃ s' rs', c.run s = (if c.statsDivisor s = some 0 then none else some s') ∧ Settled s' rs' ∧
      s'.contextSwitchCount = Word.add 32 s.contextSwitchCount 1 ∧
      (c.statsDivisor s = some 0 ↔ s'.contextSwitchCount = 0) := by
  rcases h.call_cases hfresh with ⟨hsw', -⟩ | ⟨-, hgo⟩
  · exact absurd hsw hsw'
  · rcases hgo with ⟨_, n, l, s1, s', rs', -, -, hp, hcnt, hs', -, -, hcount⟩
    have hdiv : c.statsDivisor s = some 0 ↔ s'.contextSwitchCount = 0 := by
      rw [Call.statsDivisor, hp, Option.bind_some]
      dsimp only
      rw [Scheduler.statsDivisor, hcnt, Option.bind_some]
      by_cases hz : s'.contextSwitchCount = 0 <;> simp [hz]
    refine ⟨s', rs', ?_, hs', hcount, hdiv⟩
    simp only [hdiv, Call.run_of_switched hp hcnt]

/-- The counter has the number of context switches so far. -/
theorem Run.count (h : Run k s) : ∃ rs, Settled s rs ∧ s.contextSwitchCount = k ∧ k < 2 ^ 32 := by
  induction h with
  | construct => exact ⟨[], ⟨placed_construct, rfl, nofun⟩, rfl, by norm_num⟩
  | stay _ hfresh hsw hrun ih =>
    rcases ih with ⟨rs, hs, hk, hlt⟩
    rcases hs.call_cases hfresh with ⟨-, hstay⟩ | ⟨hsw', -⟩
    · rcases hstay.run hrun with ⟨rs', hs', -, hcount⟩
      exact ⟨rs', hs', hcount.trans hk, hlt⟩
    · exact absurd hsw' hsw
  | @switch k s s' c _ hfresh hsw hrun ih =>
    rcases ih with ⟨rs, hs, hk, hlt⟩
    rcases hs.statsDivisor_switch hfresh hsw with ⟨s1, rs', hres, hs', hcount, hdiv⟩
    rw [hrun] at hres
    split_ifs at hres with hzero
    rw [← Option.some.inj hres] at hs' hcount hdiv
    have hne : s'.contextSwitchCount ≠ 0 := fun hz => hzero (hdiv.mpr hz)
    rw [hk] at hcount
    rw [hcount, Word.add_one_ne_zero_iff hlt] at hne
    exact ⟨rs', hs', by rw [hcount, Word.add_of_lt hne], hne⟩

/-- `print_stats` does not divide by zero, until the context switch with number `2 ^ 32`. -/
theorem statsDivisor_ne_zero_iff (h : Run k s) (hfresh : c.Fresh s) :
    c.statsDivisor s ≠ some 0 ↔ (c.Switches s → k + 1 < 2 ^ 32) := by
  rcases h.count with ⟨rs, hs, hk, hlt⟩
  by_cases hsw : c.Switches s
  · rcases hs.statsDivisor_switch hfresh hsw with ⟨s', rs', -, -, hcount, hdiv⟩
    rw [Ne, hdiv, hcount, hk, ← Ne, Word.add_one_ne_zero_iff hlt]
    exact ⟨fun hlast _ => hlast, fun hlast => hlast hsw⟩
  · rw [hs.statsDivisor_stay hfresh hsw]
    exact ⟨fun _ h => absurd h hsw, fun _ => nofun⟩

theorem Reach.exists_run (h : Reach s) : ∃ k, Run k s := by
  induction h with
  | construct => exact ⟨0, .construct⟩
  | @call s s' c _ hfresh hrun ih =>
    rcases ih with ⟨k, hk⟩
    by_cases hsw : c.Switches s
    · exact ⟨k + 1, .switch hk hfresh hsw hrun⟩
    · exact ⟨k, .stay hk hfresh hsw hrun⟩

theorem Scheduler.Order.switches {order : List ℕ} {env : SwitchEnv} (h : s.Order order)
    (hmany : 1 < order.length) (henter : ∀ a, s.Enterable env a) : Call.Switches s (.schedule env) := by
  cases order with
  | nil => exact h.elim
  | cons r rs =>
    rcases h with ⟨hrun, hs⟩
    refine ⟨by rw [hrun]; exact Option.some_ne_none r, (hs.hasOther env).mpr ?_⟩
    cases rs with
    | nil => simp at hmany
    | cons n l => exact ⟨n, l, rfl, henter n⟩

/-- Two threads take turns any number of times, until the counter is about to wrap. -/
theorem run_twoThreads (n : ℕ) (hn : n < 2 ^ 32) : ∃ s order, Run n s ∧ s.Order order ∧ 1 < order.length ∧
    ∀ a, s.Enterable noProcesses a := by
  induction n with
  | zero =>
    rcases twoThreads_reach.exists_run with ⟨k, hk⟩
    rcases hk.count with ⟨-, -, hcount, -⟩
    rw [← hcount] at hk
    exact ⟨twoThreads, _, hk, twoThreads_order, by simp, twoThreads_enterable⟩
  | succ n ih =>
    rcases ih (by omega) with ⟨s, order, hrun, ho, hmany, henter⟩
    rcases hrun.count with ⟨-, -, hcount, -⟩
    rcases ho.schedule noProcesses with ⟨hone, -⟩ | ⟨-, a, -, ⟨hen, -⟩ | ⟨-, s', hsched, ho', hcount', hsame⟩⟩
    · omega
    · exact absurd (henter a) hen
    · rw [hcount, Word.add_of_lt hn] at hcount'
      rw [if_neg (by omega)] at hsched
      refine ⟨s', order.rotate 1, ?_, ho', by rwa [List.length_rotate], fun a => (hsame _ a).mpr (henter a)⟩
      exact .switch (c := .schedule noProcesses) hrun trivial (ho.switches hmany henter) hsched

/-- The switch with number 100 prints. -/
theorem statsDivisor_hundredth : ∃ s, Run 99 s ∧ Call.Switches s (.schedule noProcesses) ∧
    Call.statsDivisor s (.schedule noProcesses) ≠ some 0 := by
  rcases run_twoThreads 99 (by norm_num) with ⟨s, order, hrun, ho, hmany, henter⟩
  refine ⟨s, hrun, ho.switches hmany henter, ?_⟩
  exact (statsDivisor_ne_zero_iff (c := .schedule noProcesses) hrun trivial).mpr fun _ => by norm_num

/-- Two threads have switched `2 ^ 32 - 1` times, and one of them yields. -/
theorem statsDivisor_wraps : ∃ s, Run (2 ^ 32 - 1) s ∧
    Call.statsDivisor s (.schedule noProcesses) = some 0 ∧ s.schedule noProcesses = none := by
  rcases run_twoThreads (2 ^ 32 - 1) (by norm_num) with ⟨s, order, hrun, ho, hmany, henter⟩
  rcases hrun.count with ⟨rs, hs, hcount, -⟩
  have hsw := ho.switches hmany henter
  rcases hs.statsDivisor_switch (c := .schedule noProcesses) trivial hsw with ⟨s', rs', hres, -, hcount', hdiv⟩
  have hzero : Call.statsDivisor s (.schedule noProcesses) = some 0 := by
    rw [hdiv, hcount', hcount]
    decide
  rw [if_pos hzero] at hres
  exact ⟨s, hrun, hzero, hres⟩

end Count

end HmmOS.Sched
