import HmmOS.Sched.Placement
import Mathlib.Data.List.Rotate

/-! # Round robin

At the context switch at which the 32-bit counter wraps, `print_stats` divides by it
and the call does not return. Neither does a call that cannot enter the address space
of the thread it switches to.
-/
namespace HmmOS.Sched
open Lib

variable {s s' : Scheduler} {rs' order : List ℕ} {envs : List SwitchEnv}

theorem assignNextTid_room {a : ℕ} (h : s.assignNextTid a = some s') : s.tidMap.keys.length ≠ 2 ^ 16 - 1 := by
  intro hfull
  rw [Scheduler.assignNextTid, if_pos hfull] at h
  cases h

theorem Settled.newThread {rs : List ℕ} {stk proc : Option ℕ} {a tid : ℕ} {memory : KernelThread} (h : Settled s rs)
    (hfresh : s.threads a = none) (hnew : s.newThread stk (some a) memory proc = some (s', tid)) :
    Settled s' (rs ++ [a]) ∧ s'.running = s.running ∧ s'.contextSwitchCount = s.contextSwitchCount := by
  rcases Option.bind_eq_some_iff.mp hnew with ⟨stk, rfl, haddr⟩
  rcases Option.bind_eq_some_iff.mp haddr with ⟨_, -, hrest⟩
  rcases Option.bind_eq_some_iff.mp hrest with ⟨s1, hassign, -⟩
  have hroom := assignNextTid_room hassign
  obtain ⟨s2, tid2, t, hnew2, hpl, hpend, ht, hthreads, hcount, hrun⟩ :=
    h.toPlaced.newThread hfresh hroom stk memory proc
  rw [hnew2] at hnew
  cases hnew
  exact ⟨h.add hpl hpend ht hthreads, hrun, hcount⟩

/-- The running thread, followed by the runnable list. -/
def Scheduler.Order (s : Scheduler) : List ℕ → Prop
  | [] => False
  | r :: rs => s.running = some r ∧ Settled s rs

/-- Each of the next calls of `schedule` can enter the address space of the thread it switches to. -/
def Scheduler.CanEnter (s : Scheduler) : List ℕ → List SwitchEnv → Prop
  | _, [] => True
  | order, env :: envs =>
    (∀ a, (order.rotate 1).head? = some a → s.Enterable env a) ∧ s.CanEnter (order.rotate 1) envs

theorem canEnter_of_enterable (h : ∀ env a, s.Enterable env a) : s.CanEnter order envs := by
  induction envs generalizing order with
  | nil => trivial
  | cons env envs ih => exact ⟨fun a _ => h env a, ih⟩

theorem canEnter_congr (h : ∀ env a, s'.Enterable env a ↔ s.Enterable env a) :
    s'.CanEnter order envs ↔ s.CanEnter order envs := by
  induction envs generalizing order with
  | nil => rfl
  | cons env envs ih => simp only [Scheduler.CanEnter, h, ih]

section Rotation

section
variable (h : s.Order order)
include h

theorem Scheduler.Order.length_pos : 0 < order.length := by
  cases order with
  | nil => exact h.elim
  | cons r rs => simp

theorem Scheduler.Order.running : s.running = order.head? := by
  cases order with
  | nil => exact h.elim
  | cons r rs => exact h.1

theorem Scheduler.Order.nodup : order.Nodup := by
  cases order with
  | nil => exact List.nodup_nil
  | cons r rs => exact List.nodup_cons.mpr ⟨h.2.running r h.1, h.2.nodup⟩

theorem Scheduler.Order.schedule (env : SwitchEnv) : (order.length = 1 ∧ s.schedule env = some s) ∨
    (1 < order.length ∧ ∃ n, (order.rotate 1).head? = some n ∧
      ((¬ s.Enterable env n ∧ s.schedule env = none) ∨
      (s.Enterable env n ∧ ∃ s', s.schedule env = (if s'.contextSwitchCount = 0 then none else some s') ∧
        s'.Order (order.rotate 1) ∧ s'.contextSwitchCount = Word.add 32 s.contextSwitchCount 1 ∧
        ∀ env a, s'.Enterable env a ↔ s.Enterable env a))) := by
  cases order with
  | nil => exact h.elim
  | cons r rs =>
    rcases h with ⟨hrun, hs⟩
    rcases hs.switch hrun env with ⟨rfl, hsame⟩ | ⟨n, l, rfl, hen, hnone⟩ |
      ⟨n, l, s1, s', rfl, hen, hsw, hcnt, hs', hrun', hcount, hsame⟩
    · refine .inl ⟨rfl, ?_⟩
      rw [Scheduler.schedule, hsame]
      rfl
    · refine .inr ⟨by simp, n, rfl, .inl ⟨hen, ?_⟩⟩
      rw [Scheduler.schedule, hnone]
      rfl
    · exact .inr ⟨by simp, n, rfl, .inr ⟨hen, s', Call.run_of_switched (c := .schedule env) hsw hcnt,
        ⟨hrun', hs'⟩, hcount, hsame⟩⟩

theorem Scheduler.Order.schedules_one (hone : order.length = 1) :
    envs.foldlM Scheduler.schedule s = some s := by
  induction envs with
  | nil => rfl
  | cons env envs ih =>
    rcases h.schedule env with ⟨-, hsame⟩ | ⟨hmany, -⟩
    · rw [List.foldlM_cons, hsame]
      exact ih
    · omega

theorem Scheduler.Order.schedules (hmany : 1 < order.length)
    (hroom : s.contextSwitchCount + envs.length < 2 ^ 32) (henter : s.CanEnter order envs) :
    ∃ s', envs.foldlM Scheduler.schedule s = some s' ∧ s'.Order (order.rotate envs.length) ∧
      s'.contextSwitchCount = s.contextSwitchCount + envs.length := by
  induction envs generalizing s order with
  | nil =>
    refine ⟨s, rfl, ?_, rfl⟩
    rwa [List.length_nil, List.rotate_zero]
  | cons env envs ih =>
    rw [List.length_cons] at hroom ⊢
    rcases h.schedule env with ⟨hone, -⟩ | ⟨-, n, hn, ⟨hen, -⟩ | ⟨-, s1, hsched, horder, hcount, hsame⟩⟩
    · omega
    · exact absurd (henter.1 n hn) hen
    · rw [Word.add_of_lt (by omega)] at hcount
      rw [if_neg (by omega)] at hsched
      obtain ⟨s', hrun, horder', hcount'⟩ := ih horder (by rwa [List.length_rotate]) (by rw [hcount]; omega)
        ((canEnter_congr hsame).mpr henter.2)
      refine ⟨s', ?_, ?_, ?_⟩
      · rw [List.foldlM_cons, hsched]
        exact hrun
      · rwa [List.rotate_rotate, Nat.add_comm] at horder'
      · omega

/-- The calls stop where an address space cannot be entered, or where the counter wraps. -/
theorem Scheduler.Order.schedules_stop (hmany : 1 < order.length) (hcount : s.contextSwitchCount < 2 ^ 32)
    (hstop : ¬ (s.contextSwitchCount + envs.length < 2 ^ 32 ∧ s.CanEnter order envs)) :
    envs.foldlM Scheduler.schedule s = none := by
  induction envs generalizing s order with
  | nil => exact absurd ⟨hcount, trivial⟩ hstop
  | cons env envs ih =>
    rw [List.foldlM_cons]
    rcases h.schedule env with ⟨hone, -⟩ | ⟨-, n, hn, ⟨-, hnone⟩ | ⟨hen, s1, hsched, horder, hcount1, hsame⟩⟩
    · omega
    · rw [hnone]
      rfl
    · rw [hsched]
      by_cases hlast : s.contextSwitchCount + 1 < 2 ^ 32
      · rw [Word.add_of_lt hlast] at hcount1
        rw [if_neg (by omega)]
        refine ih horder (by rwa [List.length_rotate]) (by omega) ?_
        rintro ⟨hroom, hrest⟩
        refine hstop ⟨by rw [List.length_cons]; omega, ?_, (canEnter_congr hsame).mp hrest⟩
        intro a ha
        rwa [← Option.some.inj (hn.symm.trans ha)]
      · have hzero : s1.contextSwitchCount = 0 := by
          rw [hcount1]
          by_contra hne
          exact hlast ((Word.add_one_ne_zero_iff hcount).mp hne)
        rw [if_pos hzero]
        rfl

end

theorem Scheduler.CanEnter.take (h : s.CanEnter order envs) (k : ℕ) : s.CanEnter order (envs.take k) := by
  induction envs generalizing order k with
  | nil => rwa [List.take_nil]
  | cons env envs ih =>
    cases k with
    | zero => trivial
    | succ k => exact ⟨h.1, ih h.2 k⟩

theorem Scheduler.Order.running_rotate {i d : ℕ} (h : s.Order (order.rotate (i + d)))
    (hd : d < order.length) : s.running = (order.rotate i)[d]? := by
  rw [h.running, ← List.rotate_rotate, List.head?_rotate]
  rwa [List.length_rotate]

end Rotation

inductive Since (s0 : Scheduler) : List Scheduler → Scheduler → Prop
  | start : Since s0 [] s0
  | call {past : List Scheduler} {s s' : Scheduler} {c : Call} (h : Since s0 past s)
      (hfresh : c.Fresh s) (hrun : c.run s = some s') : Since s0 (s :: past) s'

/-- The thread at `q` has run, or it has been destroyed. -/
def HadTurn (states : List Scheduler) (q : ℕ) : Prop :=
  ∃ s ∈ states, s.running = some q ∨ s.threads q = none

/-- The thread at `a` has not run yet, and those of `order` that have not had their turn are in the
part `p` of the list, before it. -/
structure Waits (s : Scheduler) (a : ℕ) (order : List ℕ) (states : List Scheduler)
    (p rest : List ℕ) : Prop where
  settled : Settled s (p ++ rest)
  running : ∃ c, s.running = some c ∧ a ≠ c
  behind : a ∉ p
  turn : ∀ q ∈ order, q ∈ p ∨ HadTurn states q

section Waiting
variable {s0 : Scheduler} {p rest : List ℕ} {states past : List Scheduler} {a : ℕ}

theorem HadTurn.cons {q : ℕ} (h : HadTurn states q) : HadTurn (s :: states) q := by
  rcases h with ⟨u, hu, hq⟩
  exact ⟨u, List.mem_cons_of_mem s hu, hq⟩

theorem Waits.quiet (h : Waits s a order states p rest) (hs' : Settled s' rs')
    (hq : Quiet s s' (p ++ rest) rs') : ∃ p' rest', Waits s' a order (s' :: states) p' rest' := by
  have hlater : ∀ q ∈ order, q ∈ p ∨ HadTurn (s' :: states) q :=
    fun q hq => (h.turn q hq).imp_right HadTurn.cons
  cases hq with
  | same heq => exact ⟨p, rest, hs', heq ▸ h.running, h.behind, hlater⟩
  | boot b hidle _ =>
    rcases h.running with ⟨c, hc, -⟩
    rw [hidle] at hc
    cases hc
  | create b hrun =>
    rw [List.append_assoc] at hs'
    exact ⟨p, rest ++ [b], hs', hrun ▸ h.running, h.behind, hlater⟩
  | destroy b hrun hgone =>
    by_cases hb : b ∈ p
    · rw [List.erase_append_left _ hb] at hs'
      refine ⟨p.erase b, rest, hs', hrun ▸ h.running, fun ha => h.behind (List.mem_of_mem_erase ha), ?_⟩
      intro q hq
      by_cases hqb : q = b
      · exact .inr ⟨s', List.mem_cons_self, .inr (hqb ▸ hgone)⟩
      · exact (hlater q hq).imp_left (List.mem_erase_of_ne hqb).mpr
    · rw [List.erase_append_right _ hb] at hs'
      exact ⟨p, rest.erase b, hs', hrun ▸ h.running, h.behind, hlater⟩

theorem Waits.switch {c n : ℕ} {l : List ℕ} (h : Waits s a order states p rest)
    (hlist : p ++ rest = n :: l) (hs' : Settled s' rs') (hn : s'.running = some n) (hsw : Switch s' c l rs') :
    (∀ q ∈ order, HadTurn (s' :: states) q) ∨ ∃ p' rest', Waits s' a order (s' :: states) p' rest' := by
  cases p with
  | nil =>
    -- nobody is before the new thread any more
    left
    intro q hq
    exact ((h.turn q hq).resolve_left List.not_mem_nil).cons
  | cons m p =>
    right
    rw [List.cons_append] at hlist
    rcases List.cons.inj hlist with ⟨rfl, rfl⟩
    have hlater : ∀ q ∈ order, q ∈ p ∨ HadTurn (s' :: states) q := by
      intro q hq
      rcases h.turn q hq with hmem | hdone
      · rcases List.mem_cons.mp hmem with rfl | hmem
        · exact .inr ⟨s', List.mem_cons_self, .inl hn⟩
        · exact .inl hmem
      · exact .inr hdone.cons
    have hrun : ∃ c, s'.running = some c ∧ a ≠ c :=
      ⟨m, hn, fun he => h.behind (he ▸ List.mem_cons_self)⟩
    have hbehind : a ∉ p := fun hm => h.behind (List.mem_cons_of_mem m hm)
    cases hsw with
    | yield =>
      rw [List.append_assoc] at hs'
      exact ⟨p, _, hs', hrun, hbehind, hlater⟩
    | destroy _ => exact ⟨p, _, hs', hrun, hbehind, hlater⟩

/-- Until the thread at `a` runs it waits, and then all that were before it have had their turn. -/
theorem Since.waits (h : Since s0 past s) (h0 : Waits s0 a order [s0] p rest) :
    (∀ q ∈ order, HadTurn (s :: past) q) ∨ ∃ p' rest', Waits s a order (s :: past) p' rest' := by
  induction h with
  | start => exact .inr ⟨p, rest, h0⟩
  | call _ hfresh hrun ih =>
    rcases ih with hdone | ⟨p', rest', hw⟩
    · exact .inl fun q hq => (hdone q hq).cons
    · rcases hw.settled.call_cases hfresh with ⟨-, hstay⟩ | ⟨-, hgo⟩
      · rcases hstay.run hrun with ⟨rs', hs', hq, -⟩
        exact .inr (hw.quiet hs' hq)
      · rcases hgo with ⟨c, n, l, s1, s2, rs', -, hlist, hp, hcnt, hs', hn, hsw, -⟩
        rw [Call.run_of_switched hp hcnt] at hrun
        split_ifs at hrun
        rw [Option.some.inj hrun] at hs' hn hsw
        exact hw.switch hlist hs' hn hsw

theorem Scheduler.Order.newThread {stk proc : Option ℕ} {memory : KernelThread} {tid : ℕ}
    (h : s.Order order) (hfresh : s.threads a = none)
    (hnew : s.newThread stk (some a) memory proc = some (s0, tid)) :
    s0.Order (order ++ [a]) ∧ ∃ p, Waits s0 a order [s0] p [a] := by
  cases order with
  | nil => exact h.elim
  | cons r rs =>
    rcases h with ⟨hr, hs⟩
    rcases hs.newThread hfresh hnew with ⟨hs0, hrun, -⟩
    have har : a ≠ r := by
      rintro rfl
      exact (hs.live a).mpr (.inl hr) hfresh
    have hars : a ∉ rs := fun hmem => (hs.live a).mpr (.inr hmem) hfresh
    refine ⟨⟨hrun.trans hr, hs0⟩, rs, hs0, ⟨r, hrun.trans hr, har⟩, hars, ?_⟩
    intro q hq
    rcases List.mem_cons.mp hq with rfl | hq
    · exact .inr ⟨s0, List.mem_cons_self, .inl (hrun.trans hr)⟩
    · exact .inl hq

end Waiting

/-- After a call in each of `envs` the thread at `a` runs. -/
def Scheduler.Runs (s : Scheduler) (envs : List SwitchEnv) (a : ℕ) : Prop :=
  ∃ s', envs.foldlM Scheduler.schedule s = some s' ∧ s'.running = some a

/-- What the threads `order` expect of the next calls of `schedule`. -/
structure RoundRobin (s : Scheduler) (order : List ℕ) (envs : List SwitchEnv) : Prop where
  rotated : ∀ k ≤ envs.length, ∃ s', (envs.take k).foldlM Scheduler.schedule s = some s' ∧
    s'.Order (order.rotate k)
  once : ∀ a ∈ order, ∀ i, i + order.length ≤ envs.length →
    ∃! k, (i < k ∧ k ≤ i + order.length) ∧ s.Runs (envs.take k) a
  again : order.length ≤ envs.length → ∃ s',
    (envs.take order.length).foldlM Scheduler.schedule s = some s' ∧ s'.Order order
  created : ∀ stk a memory proc s0 tid, s.threads a = none →
    s.newThread stk (some a) memory proc = some (s0, tid) →
    s0.Order (order ++ [a]) ∧ ∀ past s', Since s0 past s' → s'.running = some a →
      ∀ q ∈ order, HadTurn (s' :: past) q

/-- While no switch stops, `k` calls rotate by `k` places. -/
theorem Scheduler.Order.rotated (h : s.Order order) (hroom : order.length = 1 ∨
      s.contextSwitchCount + envs.length < 2 ^ 32 ∧ s.CanEnter order envs) {k : ℕ} (hk : k ≤ envs.length) :
    ∃ s', (envs.take k).foldlM Scheduler.schedule s = some s' ∧ s'.Order (order.rotate k) := by
  have hlen : (envs.take k).length = k := List.length_take_of_le hk
  by_cases hone : order.length = 1
  · refine ⟨s, h.schedules_one hone, ?_⟩
    rcases List.length_eq_one_iff.mp hone with ⟨r, rfl⟩
    rwa [List.rotate_singleton]
  · have hpos := h.length_pos
    obtain ⟨hcount, henter⟩ := hroom.resolve_left hone
    obtain ⟨s', hrun, horder, -⟩ := h.schedules (by omega) (by omega) (henter.take k)
    rw [hlen] at horder
    exact ⟨s', hrun, horder⟩

/-- In as many calls as there are threads, each of them runs once. -/
theorem Scheduler.Order.once (h : s.Order order)
    (hrot : ∀ k ≤ envs.length, ∃ s', (envs.take k).foldlM Scheduler.schedule s = some s' ∧
      s'.Order (order.rotate k)) {a : ℕ} (ha : a ∈ order) {i : ℕ} (hi : i + order.length ≤ envs.length) :
    ∃! k, (i < k ∧ k ≤ i + order.length) ∧ s.Runs (envs.take k) a := by
  -- after `i + 1 + d` calls the thread at place `d` of the rotated order runs
  have hruns : ∀ d < order.length, (s.Runs (envs.take (i + 1 + d)) a ↔
      (order.rotate (i + 1))[d]? = some a) := by
    intro d hd
    rcases hrot (i + 1 + d) (by omega) with ⟨s', hrun, horder⟩
    rw [← horder.running_rotate hd, Scheduler.Runs, hrun]
    simp
  rcases List.mem_iff_getElem.mp (List.mem_rotate.mpr ha : a ∈ order.rotate (i + 1)) with ⟨d, hd, hget⟩
  rw [List.length_rotate] at hd
  have hd' : (order.rotate (i + 1))[d]? = some a := by rw [← hget, List.getElem?_eq_getElem]
  refine ⟨i + 1 + d, ⟨⟨by omega, by omega⟩, (hruns d hd).mpr hd'⟩, ?_⟩
  rintro k ⟨⟨hik, hk⟩, hrun⟩
  rcases Nat.exists_eq_add_of_le hik with ⟨e, rfl⟩
  have he := (hruns e (by omega)).mp hrun
  have hnd : (order.rotate (i + 1)).Nodup := List.nodup_rotate.mpr h.nodup
  have hed : e = d := (List.getElem?_inj (by rw [List.length_rotate]; omega) hnd).mp (he.trans hd'.symm)
  rw [hed]

/-- Threads take turns in the order of the list, until the counter of context switches wraps or the address
space of a thread cannot be entered. -/
theorem roundRobin_iff {r : ℕ} {rs : List ℕ} (h : s.Order (r :: rs))
    (hcount : s.contextSwitchCount < 2 ^ 32) :
    RoundRobin s (r :: rs) envs ↔
      rs = [] ∨ s.contextSwitchCount + envs.length < 2 ^ 32 ∧ s.CanEnter (r :: rs) envs := by
  constructor
  · intro hrr
    by_contra hnot
    rw [not_or] at hnot
    rcases hrr.rotated envs.length le_rfl with ⟨s', hrun, -⟩
    have hpos : 0 < rs.length := List.length_pos_iff.mpr hnot.1
    rw [List.take_length, h.schedules_stop (by simpa using hpos) hcount hnot.2] at hrun
    cases hrun
  · intro hroom
    have hroom' : (r :: rs).length = 1 ∨
        s.contextSwitchCount + envs.length < 2 ^ 32 ∧ s.CanEnter (r :: rs) envs := by simpa using hroom
    have hrot := fun k (hk : k ≤ envs.length) => h.rotated hroom' hk
    refine ⟨hrot, fun a ha i hi => h.once hrot ha hi, ?_, ?_⟩
    · intro hlen
      rcases hrot _ hlen with ⟨s', hrun, horder⟩
      rw [List.rotate_length] at horder
      exact ⟨s', hrun, horder⟩
    · intro stk a memory proc s0 tid hfresh hnew
      rcases h.newThread hfresh hnew with ⟨horder, p, hwait⟩
      refine ⟨horder, ?_⟩
      intro past s' hsince hrun
      rcases hsince.waits hwait with hdone | ⟨p', rest', hw⟩
      · exact hdone
      · rcases hw.running with ⟨c, hc, hac⟩
        rw [hrun] at hc
        exact absurd (Option.some.inj hc) hac

theorem twoThreads_order : twoThreads.Order [0x1000, 0x3000] := by
  rcases twoThreads_reach.settled with ⟨rs, hs⟩
  have hrun : twoThreads.running = some 0x1000 := by decide +kernel
  have hfirst : twoThreads.links.next none = some 0x3000 := by decide +kernel
  have hring := hs.queue.ring
  cases rs with
  | nil =>
    rw [hring.next_head] at hfirst
    cases hfirst
  | cons n l =>
    rw [hring.next_head] at hfirst
    cases hfirst
    cases l with
    | nil => exact ⟨hrun, hs⟩
    | cons m l =>
      have hnext := hring.next_of_mem (l := [])
      cases hnext

/-- The two threads have no process. -/
theorem twoThreads_enterable {env : SwitchEnv} (a : ℕ) : twoThreads.Enterable env a := by
  by_cases ha : twoThreads.threads a = none
  · exact enterable_of_none (by rw [ha]; rfl)
  · have hmem : a ∈ [0x1000, 0x3000] := by
      rcases (twoThreads_order.2.live a).mp ha with hrun | hmem
      · rw [twoThreads_order.1] at hrun
        rw [← Option.some.inj hrun]
        exact List.mem_cons_self
      · exact List.mem_cons_of_mem _ hmem
    rcases List.mem_pair.mp hmem with rfl | rfl <;> exact enterable_of_none (by decide +kernel)

/-- A switch with any memory, on a kernel without processes. -/
def noProcesses : SwitchEnv := ⟨fun _ => none, none⟩

/-- Five calls with two threads. -/
theorem roundRobin_twoThreads : RoundRobin twoThreads [0x1000, 0x3000] (List.replicate 5 noProcesses) :=
  (roundRobin_iff twoThreads_order (by decide +kernel)).mpr
    (.inr ⟨by decide +kernel, canEnter_of_enterable fun _ => twoThreads_enterable⟩)

/-- With `2 ^ 32` calls the counter wraps. -/
theorem roundRobin_stops :
    Reach twoThreads ∧ twoThreads.Order [0x1000, 0x3000] ∧
      ¬ RoundRobin twoThreads [0x1000, 0x3000] (List.replicate (2 ^ 32) noProcesses) := by
  refine ⟨twoThreads_reach, twoThreads_order, ?_⟩
  intro hrr
  rcases hrr.rotated _ le_rfl with ⟨s', hrun, -⟩
  have hcount : twoThreads.contextSwitchCount = 0 := by decide +kernel
  rw [List.take_length, twoThreads_order.schedules_stop (by simp) (by rw [hcount]; norm_num) ?_] at hrun
  · cases hrun
  · rw [List.length_replicate, hcount]
    exact fun hroom => absurd hroom.1 (by norm_num)

end HmmOS.Sched
