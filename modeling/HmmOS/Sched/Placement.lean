import HmmOS.Lib.Table
import HmmOS.Sched.Kthread

/-! # Every thread is in one place

Destroying the running thread puts it back into the runnable list, and only the
bookkeeping after the switch takes it out again.
-/
namespace HmmOS.Sched
open Lib Lib.Ring Util Function Scheduler

abbrev TidMap := AList fun _ : ℕ => Option ℕ

/-- The TIDs of the threads, and that of the dummy entry. -/
def tidOf (threads : ℕ → Option KernelThread) : Option ℕ → Option ℕ
  | none => some invalidTID
  | some a => (threads a).map KernelThread.tid

structure TidsOk (threads : ℕ → Option KernelThread) (m : TidMap) : Prop where
  entries : Indexes m.lookup (tidOf threads)
  lt : ∀ tid ∈ m.keys, tid < 2 ^ 16
  room : m.keys.length ≤ 2 ^ 16 - 1

variable {a : ℕ} {s s' : Scheduler} {rs : List ℕ}

section Tids
variable {threads : ℕ → Option KernelThread} {m : TidMap} {tid : ℕ} {t t' : KernelThread}

theorem tidOf_update (threads : ℕ → Option KernelThread) (a : ℕ) (x : Option KernelThread) :
    tidOf (update threads a x) = update (tidOf threads) (some a) (x.map KernelThread.tid) := by
  funext b
  cases b with
  | none => rfl
  | some b =>
    simp only [tidOf, update_apply, Option.some.injEq]
    split_ifs <;> rfl

theorem TidsOk.dummy (h : TidsOk threads m) : m.lookup tid = some none ↔ tid = invalidTID :=
  (h.entries tid none).trans ⟨fun he => (Option.some.inj he).symm, fun he => congrArg some he.symm⟩

theorem TidsOk.thread (h : TidsOk threads m) : m.lookup tid = some (some a) ↔ ∃ t, threads a = some t ∧ t.tid = tid :=
  (h.entries tid (some a)).trans Option.map_eq_some_iff

theorem TidsOk.of_same (h : TidsOk threads m) (ha : threads a = some t) (htid : t'.tid = t.tid) :
    TidsOk (update threads a (some t')) m := by
  have hsame : tidOf (update threads a (some t')) = tidOf threads := by
    rw [tidOf_update, update_eq_self_iff, tidOf, ha, Option.map_some, Option.map_some, htid]
  exact ⟨hsame ▸ h.entries, h.lt, h.room⟩

theorem TidsOk.insert (h : TidsOk threads m) (ha : threads a = none) (hm : t.tid ∉ m)
    (hlt : t.tid < 2 ^ 16) (hroom : m.keys.length ≠ 2 ^ 16 - 1) :
    TidsOk (update threads a (some t)) (m.insert t.tid (some a)) where
  entries := by
    rw [lookup_insert_eq, tidOf_update]
    exact h.entries.insert (AList.lookup_eq_none.mpr hm) (congrArg (Option.map KernelThread.tid) ha)
  lt := by
    intro tid' hmem
    rcases (AList.mem_insert m).mp hmem with rfl | hmem
    · exact hlt
    · exact h.lt tid' hmem
  room := by
    have := h.room
    rw [AList.keys_insert, List.erase_of_not_mem hm, List.length_cons]
    omega

theorem TidsOk.erase (h : TidsOk threads m) (ha : threads a = some t) :
    TidsOk (update threads a none) (m.erase t.tid) where
  entries := by
    rw [lookup_erase_eq, tidOf_update]
    exact h.entries.erase (congrArg (Option.map KernelThread.tid) ha)
  lt := by
    intro tid' hmem
    exact h.lt tid' (AList.mem_erase.mp hmem).2
  room := by
    have hle := (List.erase_sublist (a := t.tid) (l := m.keys)).length_le
    rw [AList.keys_erase]
    exact hle.trans h.room

theorem tidLoop_spec (a : ℕ) (m : TidMap) (fuel counter i : ℕ) (hc : counter < 2 ^ 16)
    (hi : i < fuel) (hfree : (counter + i) % 2 ^ 16 ∉ m) : ∃ tid, tid ∉ m ∧ tid < 2 ^ 16 ∧
      Scheduler.tidLoop a fuel m counter = some (m.insert tid (some a), Word.add 16 tid 1) := by
  induction fuel generalizing counter i with
  | zero => omega
  | succ fuel ih =>
    rw [tidLoop]
    by_cases hmem : counter ∈ m
    · rw [if_pos hmem]
      cases i with
      | zero =>
        rw [Nat.add_zero, Nat.mod_eq_of_lt hc] at hfree
        exact absurd hmem hfree
      | succ i =>
        apply ih _ i (Nat.mod_lt _ (by norm_num)) (Nat.lt_of_succ_lt_succ hi)
        rwa [Nat.mod_add_mod, Nat.add_assoc, Nat.add_comm 1 i]
    · rw [if_neg hmem]
      exact ⟨counter, hmem, hc, rfl⟩

theorem TidsOk.exists_free (h : TidsOk threads m) (counter : ℕ) : ∃ i < 2 ^ 16, (counter + i) % 2 ^ 16 ∉ m := by
  obtain ⟨tid, hlt, hfree⟩ : ∃ tid < 2 ^ 16, tid ∉ m.keys := by
    by_contra hall
    have hsub : List.range (2 ^ 16) ⊆ m.keys := by
      intro tid htid
      by_contra hno
      exact hall ⟨tid, List.mem_range.mp htid, hno⟩
    have hlen := (List.nodup_range.subperm hsub).length_le
    have hroom := h.room
    rw [List.length_range] at hlen
    omega
  refine ⟨(tid + (2 ^ 16 - counter % 2 ^ 16)) % 2 ^ 16, Nat.mod_lt _ (by norm_num), ?_⟩
  rw [show (counter + (tid + (2 ^ 16 - counter % 2 ^ 16)) % 2 ^ 16) % 2 ^ 16 = tid by omega]
  exact hfree

end Tids

structure Placed (s : Scheduler) (rs : List ℕ) : Prop where
  queue : IntrusiveListHead.OneList s.links none (rs.map some)
  live : ∀ a, s.threads a ≠ none ↔ s.running = some a ∨ a ∈ rs
  running : ∀ a, s.running = some a → a ∉ rs
  tids : TidsOk s.threads s.tidMap
  counter : s.tidCounter < 2 ^ 16

section Steps
variable {s1 : Scheduler} {l r : List ℕ}

theorem Placed.nodup (h : Placed s rs) : rs.Nodup :=
  List.Nodup.of_map some (List.nodup_cons.mp h.queue.ring.nodup).2

theorem placed_construct : Placed Scheduler.construct [] := by
  have hkeys : construct.tidMap.keys = [invalidTID] := by decide
  have hentries : Indexes construct.tidMap.lookup (tidOf construct.threads) := by
    have htids : tidOf construct.threads = update (fun _ => none) none (some invalidTID) := by
      funext x
      cases x <;> rfl
    rw [htids]
    exact (congrArg (Indexes · _) (lookup_insert_eq _)).mpr (indexes_empty.insert rfl rfl)
  refine ⟨IntrusiveListHead.oneList_fresh none, by simp [construct], nofun, ⟨hentries, ?_, by decide⟩, by decide⟩
  intro tid htid
  rw [hkeys, List.mem_singleton] at htid
  rw [htid]
  decide

theorem Placed.deleteTask (h : Placed s (l ++ a :: r)) :
    ∃ s', s.deleteTask a = some s' ∧ Placed s' (l ++ r) ∧ s'.running = s.running ∧
      s'.pendingDeletion = s.pendingDeletion ∧ s'.contextSwitchCount = s.contextSwitchCount ∧
      s'.threads = update s.threads a none := by
  obtain ⟨t, ht⟩ := Option.ne_none_iff_exists'.mp ((h.live a).mpr (.inr (by simp)))
  have hq : IntrusiveListHead.OneList s.links none (l.map some ++ some a :: r.map some) := by
    simpa using h.queue
  obtain ⟨L', herase, hq'⟩ := hq.erase
  have hnd : a ∉ l ++ r := (List.nodup_middle.mp h.nodup).notMem
  refine ⟨{ s.setThread a none with
    links := L'
    tidMap := s.tidMap.erase t.tid
    freed := s.freed ++ [Util.Algorithm.floorPg t.stack % 2 ^ 32, a] }, ?_, ⟨?_, ?_, ?_, ?_, h.counter⟩,
    rfl, rfl, rfl, rfl⟩
  · rw [Scheduler.deleteTask, ht, herase]
    rfl
  · simpa using hq'
  · refine update_ne_none_iff h.live (fun b hb => by simp [setThread, hb]) (iff_of_false ?_ (by simp))
    rintro (hr | hmem)
    · exact h.running a hr (by simp)
    · exact hnd hmem
  · intro b hb
    have := h.running b hb
    simp only [List.mem_append, List.mem_cons, not_or] at this ⊢
    exact ⟨this.1, this.2.2⟩
  · exact h.tids.erase ht

theorem Placed.assignNextTid (h : Placed s rs) (hfresh : s.threads a = none)
    (hroom : s.tidMap.keys.length ≠ 2 ^ 16 - 1) (memory : KernelThread) (running : Option ℕ) :
    ∃ tid counter, tid ∉ s.tidMap ∧ tid < 2 ^ 16 ∧ counter < 2 ^ 16 ∧
      Scheduler.assignNextTid { s.newKernelThread a memory with running := running } a =
        some { s.setThread a (some { memory with stack := 0, runnable := true, tid := tid }) with
          running := running
          tidMap := s.tidMap.insert tid (some a)
          tidCounter := counter } := by
  have ha : a ∉ rs := fun hmem => (h.live a).mpr (.inr hmem) hfresh
  have hlinks : IntrusiveListHead.construct s.links (some a) = s.links :=
    h.queue.construct (by simpa using ha)
  obtain ⟨i, hi, hfree⟩ := h.tids.exists_free s.tidCounter
  obtain ⟨tid, htid, hlt, hloop⟩ := tidLoop_spec a s.tidMap (2 ^ 16) s.tidCounter i h.counter hi hfree
  refine ⟨tid, Word.add 16 tid 1, htid, hlt, Nat.mod_lt _ (by norm_num), ?_⟩
  have hsub : Word.sub 16 (Word.add 16 tid 1) 1 = tid := by
    simp only [Word.sub, Word.add]
    omega
  simp only [Scheduler.assignNextTid, Scheduler.newKernelThread, Scheduler.setThread, if_neg hroom,
    hloop, hlinks, Option.bind_eq_bind, Option.bind_some, update_self, update_idem, hsub]
  rfl

theorem Placed.bootstrap (h : Placed s rs) (hrun : s.running = none) (hfresh : s.threads a = none)
    (hroom : s.tidMap.keys.length ≠ 2 ^ 16 - 1) (memory : KernelThread) :
    ∃ s' tid t, s.bootstrap (some a) memory = some (s', tid) ∧ Placed s' rs ∧
      s'.pendingDeletion = s.pendingDeletion ∧ t.runnable = true ∧ s'.threads = update s.threads a (some t) ∧
      s'.contextSwitchCount = s.contextSwitchCount ∧ s'.running = some a := by
  have ha : a ∉ rs := fun hmem => (h.live a).mpr (.inr hmem) hfresh
  obtain ⟨tid, counter, htid, hlt, hclt, hassign⟩ := h.assignNextTid hfresh hroom memory (some a)
  refine ⟨{ s.setThread a (some { memory with stack := 0, runnable := true, tid := tid }) with
    running := some a
    tidMap := s.tidMap.insert tid (some a)
    tidCounter := counter }, tid, { memory with stack := 0, runnable := true, tid := tid }, ?_,
    ⟨h.queue, ?_, ?_, ?_, hclt⟩, rfl, rfl, rfl, rfl, rfl⟩
  · rw [Scheduler.bootstrap, if_neg (not_not.mpr hrun)]
    simp [hassign, Scheduler.setThread]
  · exact update_ne_none_iff h.live (fun b hb => by simp [hrun, Ne.symm hb]) (by simp)
  · intro b hb
    rw [← Option.some.inj hb]
    exact ha
  · exact h.tids.insert hfresh htid hlt hroom

theorem Placed.newThread (h : Placed s rs) (hfresh : s.threads a = none)
    (hroom : s.tidMap.keys.length ≠ 2 ^ 16 - 1) (stk : ℕ) (memory : KernelThread) (proc : Option ℕ) :
    ∃ s' tid t, s.newThread (some stk) (some a) memory proc = some (s', tid) ∧ Placed s' (rs ++ [a]) ∧
      s'.pendingDeletion = s.pendingDeletion ∧ t.runnable = true ∧ s'.threads = update s.threads a (some t) ∧
      s'.contextSwitchCount = s.contextSwitchCount ∧ s'.running = s.running := by
  have ha : a ∉ rs := fun hmem => (h.live a).mpr (.inr hmem) hfresh
  have hrun : s.running ≠ some a := fun hr => (h.live a).mpr (.inl hr) hfresh
  obtain ⟨tid, counter, htid, hlt, hclt, hassign⟩ := h.assignNextTid hfresh hroom memory s.running
  change Scheduler.assignNextTid (s.newKernelThread a memory) a = _ at hassign
  have hnode : (some a : Node) ∉ none :: rs.map some := by simpa using ha
  obtain ⟨L', hpush, hq⟩ := h.queue.pushBack hnode
  let t : KernelThread := ⟨Scheduler.setupStack (Word.add 32 stk pgSz), true, tid, proc⟩
  refine ⟨{ s.setThread a (some t) with
    links := L'
    tidMap := s.tidMap.insert tid (some a)
    tidCounter := counter }, tid, t, ?_, ⟨?_, ?_, ?_, ?_, hclt⟩, rfl, rfl, rfl, rfl, rfl⟩
  · simp [Scheduler.newThread, hassign, Scheduler.setThread, hpush, t]
  · simpa using hq
  · exact update_ne_none_iff h.live (fun b hb => by simp [setThread, hb]) (by simp)
  · intro b hb
    have hne : b ≠ a := fun he => hrun (he ▸ hb)
    simpa [hne] using h.running b hb
  · exact h.tids.insert hfresh htid hlt hroom

theorem Placed.chooseTask (h : Placed s rs) {c : ℕ} (hc : s.running = some c) {cur : KernelThread}
    (hcur : s.threads c = some cur) :
    s.chooseTask = some (rs.head?.or (if cur.runnable then some c else none)) := by
  have hnext := h.queue.ring.next_head
  rw [Scheduler.chooseTask, hc, h.queue.empty]
  cases rs with
  | nil => cases hr : cur.runnable <;> simp [hcur, hr]
  | cons n rs => simpa using hnext

/-- The thread at `a` has no process, or its address space can be entered. -/
def Scheduler.Enterable (s : Scheduler) (env : SwitchEnv) (a : ℕ) : Prop :=
  ∀ p, (s.threads a).bind KernelThread.proc = some p → (env.enterVirtualAddressSpace p).isSome

theorem enterable_of_none {env : SwitchEnv} (h : (s.threads a).bind KernelThread.proc = none) :
    s.Enterable env a := by
  intro p hp
  rw [h] at hp
  cases hp

theorem enterable_update {b : ℕ} {env : SwitchEnv} {cur t : KernelThread} (hb : s.threads b = some cur)
    (hs' : s'.threads = update s.threads b (some t)) (hproc : t.proc = cur.proc) :
    s'.Enterable env a ↔ s.Enterable env a := by
  simp only [Scheduler.Enterable, hs', update_apply]
  by_cases hab : a = b
  · simp [hab, hb, hproc]
  · simp [hab]

/-- The switch stops if the address space of the next thread cannot be entered. -/
theorem Placed.switch {n c : ℕ} (h : Placed s (n :: rs)) (hc : s.running = some c) (env : SwitchEnv) :
    (¬ s.Enterable env n ∧ s.switch env = none) ∨
    (s.Enterable env n ∧ ∃ s' cur, s.threads c = some cur ∧ s.switch env = some (.switched s') ∧
      Placed s' (rs ++ [c]) ∧ s'.running = some n ∧ s'.pendingDeletion = s.pendingDeletion ∧
      s'.contextSwitchCount = s.contextSwitchCount ∧
      s'.threads = update s.threads c (some { cur with stack := env.esp.getD cur.stack })) := by
  have hcn : c ∉ n :: rs := h.running c hc
  have hne : n ≠ c := fun he => hcn (he ▸ List.mem_cons_self)
  have hn : n ∉ rs := (List.nodup_cons.mp h.nodup).1
  obtain ⟨cur, hcur⟩ := Option.ne_none_iff_exists'.mp ((h.live c).mpr (.inl hc))
  obtain ⟨t, ht⟩ := Option.ne_none_iff_exists'.mp ((h.live n).mpr (.inr List.mem_cons_self))
  have hq : IntrusiveListHead.OneList s.links none ([] ++ some n :: rs.map some) := h.queue
  obtain ⟨L1, herase, hq1⟩ := hq.erase
  have hnode : (some c : Node) ∉ none :: ([] ++ rs.map some) := by
    simpa using fun hm => hcn (List.mem_cons_of_mem n hm)
  obtain ⟨L2, hpush, hq2⟩ := hq1.pushBack hnode
  have hswitch : s.switch env = (s.enter env t.proc).bind fun space => some (.switched
      { s.setThread c (some { cur with stack := env.esp.getD cur.stack }) with
        running := some n
        links := L2
        addressSpace := space }) := by
    simp only [Scheduler.switch, h.chooseTask hc hcur, hc, List.head?_cons, Option.some_or,
      Option.bind_eq_bind, Option.bind_some, if_neg hne, herase, hpush, ht, hcur, Option.pure_def]
  rw [Scheduler.Enterable, ht, Option.bind_some]
  cases henter : s.enter env t.proc with
  | none =>
    refine .inl ⟨fun hall => ?_, by rw [hswitch, henter]; rfl⟩
    rw [enter_of_isSome hall] at henter
    cases henter
  | some space =>
    rw [henter] at hswitch
    refine .inr ⟨(enter_eq_some henter).2, _, cur, hcur, hswitch, ⟨?_, ?_, ?_, ?_, h.counter⟩, rfl, rfl, rfl, rfl⟩
    · simpa using hq2
    · refine update_ne_none_iff h.live (fun b hb => ?_) (by simp)
      rw [hc]
      simp only [Option.some.injEq, List.mem_cons, List.mem_append, List.not_mem_nil, or_false]
      tauto
    · intro b hb
      rw [← Option.some.inj hb]
      simpa using ⟨hn, hne⟩
    · exact h.tids.of_same hcur rfl

/-- Without a thread to delete, the bookkeeping only counts. -/
theorem Placed.bookkeeping (h : Placed s rs) (hp : s.pendingDeletion = none) : ∃ s', s.counted = some s' ∧
      Placed s' rs ∧ s'.pendingDeletion = none ∧ s'.threads = s.threads ∧ s'.running = s.running ∧
      s'.contextSwitchCount = Word.add 32 s.contextSwitchCount 1 := by
  refine ⟨{ s with contextSwitchCount := Word.add 32 s.contextSwitchCount 1 }, ?_,
    ⟨h.queue, h.live, h.running, h.tids, h.counter⟩, hp, rfl, rfl, rfl⟩
  simp only [counted, hp]

theorem Placed.bookkeeping_delete {c : ℕ} (h : Placed s (rs ++ [c])) (hp : s.pendingDeletion = some c) :
    ∃ s', s.counted = some s' ∧
      Placed s' rs ∧ s'.pendingDeletion = none ∧ s'.threads = update s.threads c none ∧
      s'.running = s.running ∧ s'.contextSwitchCount = Word.add 32 s.contextSwitchCount 1 := by
  have h' : Placed { s with contextSwitchCount := Word.add 32 s.contextSwitchCount 1 } (rs ++ [c]) :=
    ⟨h.queue, h.live, h.running, h.tids, h.counter⟩
  obtain ⟨s', hdel, hpl, hrun, -, hcount, hthreads⟩ := h'.deleteTask
  rw [List.append_nil] at hpl
  rw [hp] at hdel
  refine ⟨{ s' with pendingDeletion := none }, ?_,
    ⟨hpl.queue, hpl.live, hpl.running, hpl.tids, hpl.counter⟩, rfl, hthreads, hrun, hcount⟩
  simp only [counted, hp, hdel, Option.map_some]

end Steps

structure Settled (s : Scheduler) (rs : List ℕ) : Prop extends Placed s rs where
  pending : s.pendingDeletion = none
  runnable : ∀ a t, s.threads a = some t → t.runnable = true

theorem runnable_update {threads : ℕ → Option KernelThread} {a : ℕ} {u : Option KernelThread}
    (h : ∀ a t, threads a = some t → t.runnable = true) (hu : ∀ t, u = some t → t.runnable = true) :
    ∀ b t, update threads a u b = some t → t.runnable = true := by
  intro b t hb
  rw [update_apply] at hb
  split_ifs at hb with hba
  · exact hu t hb
  · exact h b t hb

/-- `schedule` switches if there is something to switch to. -/
theorem Settled.switch (h : Settled s rs) {c : ℕ} (hc : s.running = some c) (env : SwitchEnv) :
    (rs = [] ∧ s.switch env = some (.done s)) ∨
    (∃ n l, rs = n :: l ∧ ¬ s.Enterable env n ∧ s.switch env = none) ∨
    ∃ n l s1 s', rs = n :: l ∧ s.Enterable env n ∧ s.switch env = some (.switched s1) ∧
      s1.counted = some s' ∧ Settled s' (l ++ [c]) ∧ s'.running = some n ∧
      s'.contextSwitchCount = Word.add 32 s.contextSwitchCount 1 ∧
      ∀ env a, s'.Enterable env a ↔ s.Enterable env a := by
  obtain ⟨cur, hcur⟩ := Option.ne_none_iff_exists'.mp ((h.live c).mpr (.inl hc))
  cases rs with
  | nil =>
    have hchoose := h.toPlaced.chooseTask hc hcur
    rw [h.runnable c cur hcur] at hchoose
    exact .inl ⟨rfl, by simp [Scheduler.switch, hchoose, hc]⟩
  | cons n l =>
    right
    rcases h.toPlaced.switch hc env with
      ⟨hen, hnone⟩ | ⟨hen, s1, cur', hcur', hsw, hpl, hrun, hpend, hcount, hthreads⟩
    · exact .inl ⟨n, l, rfl, hen, hnone⟩
    · obtain ⟨s', hpost, hpl', hpend', hthreads', hrun', hcount'⟩ :=
        hpl.bookkeeping (hpend.trans h.pending)
      refine .inr ⟨n, l, s1, s', rfl, hen, hsw, hpost, ⟨hpl', hpend', ?_⟩, hrun'.trans hrun,
        by rw [hcount', hcount], fun _ _ => enterable_update hcur' (hthreads'.trans hthreads) rfl⟩
      rw [hthreads', hthreads]
      apply runnable_update h.runnable
      intro t ht
      rw [← Option.some.inj ht]
      exact h.runnable c cur' hcur'

theorem Settled.destroyRunning (h : Settled s rs) {c : ℕ} (hc : s.running = some c) (env : SwitchEnv) :
    ((∀ n l, rs = n :: l → ¬ s.Enterable env n) ∧ s.destroy (some c) env = none) ∨
    ∃ n l s1 s', rs = n :: l ∧ s.Enterable env n ∧ s.destroy (some c) env = some (.switched s1) ∧
      s1.counted = some s' ∧ Settled s' l ∧ s'.running = some n ∧ s'.threads c = none ∧
      s'.contextSwitchCount = Word.add 32 s.contextSwitchCount 1 := by
  obtain ⟨cur, hcur⟩ := Option.ne_none_iff_exists'.mp ((h.live c).mpr (.inl hc))
  -- the state in which `schedule` is called
  have hmark : Placed { s.setThread c (some { cur with runnable := false }) with
      pendingDeletion := some c } rs := by
    refine ⟨h.queue, ?_, h.running, h.tids.of_same hcur rfl, h.counter⟩
    exact update_ne_none_iff h.live (fun _ _ => Iff.rfl) (by simp [setThread, hc])
  have hswitch : s.destroy (some c) env =
      Scheduler.switch { s.setThread c (some { cur with runnable := false }) with
        pendingDeletion := some c } env := by
    simp only [Scheduler.destroy, Option.some_or, hcur, hc, h.pending, Option.bind_eq_bind,
      Option.bind_some, ne_eq, not_true_eq_false, if_false]
  rw [hswitch]
  cases rs with
  | nil =>
    have hchoose := hmark.chooseTask hc (update_self ..)
    exact .inl ⟨nofun, by simp [Scheduler.switch, hchoose]⟩
  | cons n l =>
    have hsame : ∀ a, Scheduler.Enterable { s.setThread c (some { cur with runnable := false }) with
        pendingDeletion := some c } env a ↔ s.Enterable env a := fun a => enterable_update hcur rfl rfl
    rcases hmark.switch hc env with
      ⟨hen, hnone⟩ | ⟨hen, s1, cur', -, hsw, hpl, hrun, hpend, hcount, hthreads⟩
    · rw [hsame] at hen
      refine .inl ⟨?_, hnone⟩
      rintro _ _ ⟨⟩
      exact hen
    · obtain ⟨s', hpost, hpl', hpend', hthreads', hrun', hcount'⟩ := hpl.bookkeeping_delete hpend
      refine .inr ⟨n, l, s1, s', rfl, (hsame n).mp hen, hsw, hpost, ⟨hpl', hpend', ?_⟩, hrun'.trans hrun,
        ?_, by rw [hcount', hcount]; rfl⟩
      · rw [hthreads', hthreads, update_idem]
        simp only [Scheduler.setThread, update_idem]
        exact runnable_update h.runnable (by simp)
      · rw [hthreads', update_self]

theorem Settled.destroyOther (h : Settled s rs) {a : ℕ} (ha : a ∈ rs) (env : SwitchEnv) :
    ∃ s', s.destroy (some a) env = some (.done s') ∧ Settled s' (rs.erase a) ∧
      s'.contextSwitchCount = s.contextSwitchCount ∧ s'.running = s.running ∧ s'.threads a = none := by
  obtain ⟨t, ht⟩ := Option.ne_none_iff_exists'.mp ((h.live a).mpr (.inr ha))
  have hrun : some a ≠ s.running := fun hr => h.running a hr.symm ha
  obtain ⟨l, r, rfl⟩ := List.append_of_mem ha
  obtain ⟨s', hdel, hpl, hsame, hpend, hcount, hthreads⟩ := h.toPlaced.deleteTask
  refine ⟨s', ?_, ?_, hcount, hsame, ?_⟩
  · simp [Scheduler.destroy, ht, hrun, hdel]
  · rw [erase_middle h.nodup]
    refine ⟨hpl, hpend.trans h.pending, ?_⟩
    rw [hthreads]
    exact runnable_update h.runnable (by simp)
  · rw [hthreads, update_self]

/-- A call of the scheduler, with what the heap and the hardware contribute to it. -/
inductive Call where
  | bootstrap (addr : Option ℕ) (memory : KernelThread)
  | newThread (stk addr : Option ℕ) (memory : KernelThread) (proc : Option ℕ)
  | schedule (env : SwitchEnv)
  | destroyTid (tid : ℕ) (pageDirectory : ℕ → Option ℕ) (esp : ℕ)
  | destroyCurrent (env : SwitchEnv)

def Call.run (s : Scheduler) : Call → Option Scheduler
  | .bootstrap addr memory => (s.bootstrap addr memory).map Prod.fst
  | .newThread stk addr memory proc => (s.newThread stk addr memory proc).map Prod.fst
  | .schedule env => s.schedule env
  | .destroyTid tid pageDirectory esp => s.destroyTid tid pageDirectory esp
  | .destroyCurrent env => s.destroyThread none env

/-- A call up to the bookkeeping of a context switch. -/
def Call.progress (s : Scheduler) : Call → Option Progress
  | .bootstrap addr memory => (s.bootstrap addr memory).map fun r => .done r.1
  | .newThread stk addr memory proc => (s.newThread stk addr memory proc).map fun r => .done r.1
  | .schedule env => s.switch env
  | .destroyTid tid pageDirectory esp => do
    let thread ← s.tidMap.lookup tid
    let a ← thread
    s.destroy (some a) ⟨pageDirectory, some esp⟩
  | .destroyCurrent env => s.destroy none env

theorem Call.run_eq (s : Scheduler) (c : Call) : c.run s = (c.progress s).bind Progress.finish := by
  cases c with
  | bootstrap addr memory =>
    rw [Call.run, Call.progress]
    cases s.bootstrap addr memory <;> rfl
  | newThread stk addr memory proc =>
    rw [Call.run, Call.progress]
    cases s.newThread stk addr memory proc <;> rfl
  | schedule | destroyCurrent => rfl
  | destroyTid tid pageDirectory esp =>
    simp only [Call.run, Call.progress, Scheduler.destroyTid, Scheduler.destroyThread, Option.bind_eq_bind,
      Option.bind_assoc]

/-- The heap does not hand out the memory of a live thread. -/
def Call.Fresh (s : Scheduler) : Call → Prop
  | .bootstrap addr _ => ∀ a, addr = some a → s.threads a = none
  | .newThread _ addr _ _ => ∀ a, addr = some a → s.threads a = none
  | _ => True

/-- The address space of the next thread can be entered. -/
def Scheduler.NextEnterable (s : Scheduler) (env : SwitchEnv) : Prop :=
  ∀ n, s.links.next none = some n → s.Enterable env n

/-- There is another thread to switch to. -/
def Scheduler.HasOther (s : Scheduler) (env : SwitchEnv) : Prop :=
  (∃ b, s.threads b ≠ none ∧ s.running ≠ some b) ∧ s.NextEnterable env

/-- No assertion fails in the call. -/
def Call.Ready (s : Scheduler) : Call → Prop
  | .bootstrap addr _ => s.running = none ∧ addr ≠ none ∧ s.tidMap.keys.length ≠ 2 ^ 16 - 1
  | .newThread stk addr _ _ => stk ≠ none ∧ addr ≠ none ∧ s.tidMap.keys.length ≠ 2 ^ 16 - 1
  | .schedule env => s.running ≠ none ∧ Word.add 32 s.contextSwitchCount 1 ≠ 0 ∧ s.NextEnterable env
  | .destroyTid tid pageDirectory esp => ∃ a, s.tidMap.lookup tid = some (some a) ∧ (s.running = some a →
      Word.add 32 s.contextSwitchCount 1 ≠ 0 ∧ s.HasOther ⟨pageDirectory, some esp⟩)
  | .destroyCurrent env => s.running ≠ none ∧ Word.add 32 s.contextSwitchCount 1 ≠ 0 ∧ s.HasOther env

/-- The calls that switch to another thread: there is one, and the running thread yields or is
destroyed. -/
def Call.Switches (s : Scheduler) : Call → Prop
  | .bootstrap .. => False
  | .newThread .. => False
  | .schedule env => s.running ≠ none ∧ s.HasOther env
  | .destroyTid tid pageDirectory esp => ∃ a, s.tidMap.lookup tid = some (some a) ∧ s.running = some a ∧
      s.HasOther ⟨pageDirectory, some esp⟩
  | .destroyCurrent env => s.running ≠ none ∧ s.HasOther env

theorem Call.Ready.count {s : Scheduler} {c : Call} (h : c.Ready s) (hsw : c.Switches s) :
    Word.add 32 s.contextSwitchCount 1 ≠ 0 := by
  cases c with
  | bootstrap | newThread => exact hsw.elim
  | schedule | destroyCurrent => exact h.2.1
  | destroyTid tid pageDirectory esp =>
    obtain ⟨a, ha, hready⟩ := h
    obtain ⟨b, hb, hrun, -⟩ := hsw
    rw [ha] at hb
    cases hb
    exact (hready hrun).1

inductive Reach : Scheduler → Prop
  | construct : Reach Scheduler.construct
  | call {s s' : Scheduler} {c : Call} (h : Reach s) (hfresh : c.Fresh s) (hrun : c.run s = some s') :
      Reach s'

/-- A call that does not switch, from the list `rs` to another one. -/
inductive Quiet (s s' : Scheduler) (rs : List ℕ) : List ℕ → Prop
  | same (h : s' = s) : Quiet s s' rs rs
  | boot (a : ℕ) (hidle : s.running = none) (hrun : s'.running = some a) : Quiet s s' rs rs
  | create (a : ℕ) (hrun : s'.running = s.running) : Quiet s s' rs (rs ++ [a])
  | destroy (a : ℕ) (hrun : s'.running = s.running) (hgone : s'.threads a = none) :
      Quiet s s' rs (rs.erase a)

/-- A call that switches away from `c`, with `l` behind the thread that it switches to. -/
inductive Switch (s' : Scheduler) (c : ℕ) (l : List ℕ) : List ℕ → Prop
  | yield : Switch s' c l (l ++ [c])
  | destroy (hgone : s'.threads c = none) : Switch s' c l l

/-- What is known of a call without a context switch. -/
def NoContextSwitch (ready : Prop) (s : Scheduler) (rs : List ℕ) (progress : Option Progress) : Prop :=
  (ready → progress ≠ none) ∧ ∀ p, progress = some p → ∃ s' rs', p = .done s' ∧ Settled s' rs' ∧
    Quiet s s' rs rs' ∧ s'.contextSwitchCount = s.contextSwitchCount

/-- What is known of a call with a context switch, whatever the bookkeeping finds in the counter. -/
def ContextSwitch (s : Scheduler) (rs : List ℕ) (progress : Option Progress) : Prop :=
  ∃ c n l s1 s' rs', s.running = some c ∧ rs = n :: l ∧ progress = some (.switched s1) ∧
    s1.counted = some s' ∧ Settled s' rs' ∧ s'.running = some n ∧ Switch s' c l rs' ∧
    s'.contextSwitchCount = Word.add 32 s.contextSwitchCount 1

section Calls
variable {ready : Prop} {rs' : List ℕ}

theorem Settled.add {a : ℕ} {t : KernelThread} (h : Settled s rs) (hpl : Placed s' rs')
    (hpend : s'.pendingDeletion = s.pendingDeletion) (ht : t.runnable = true)
    (hthreads : s'.threads = update s.threads a (some t)) : Settled s' rs' := by
  refine ⟨hpl, hpend.trans h.pending, ?_⟩
  rw [hthreads]
  apply runnable_update h.runnable
  intro u hu
  rw [← Option.some.inj hu]
  exact ht

theorem Settled.nextEnterable (h : Settled s rs) (env : SwitchEnv) :
    s.NextEnterable env ↔ ∀ n l, rs = n :: l → s.Enterable env n := by
  rw [Scheduler.NextEnterable, h.queue.ring.next_head]
  cases rs <;> simp

theorem Settled.hasOther (h : Settled s rs) (env : SwitchEnv) :
    s.HasOther env ↔ ∃ n l, rs = n :: l ∧ s.Enterable env n := by
  rw [Scheduler.HasOther, h.nextEnterable]
  constructor
  · rintro ⟨⟨b, hb, hrun⟩, hnext⟩
    cases rs with
    | nil => simpa [hrun] using (h.live b).mp hb
    | cons n l => exact ⟨n, l, rfl, hnext n l rfl⟩
  · rintro ⟨n, l, rfl, hen⟩
    refine ⟨⟨n, (h.live n).mpr (.inr List.mem_cons_self), ?_⟩, ?_⟩
    · exact fun hrun => h.running n hrun List.mem_cons_self
    · rintro _ _ ⟨⟩
      exact hen

theorem noContextSwitch_none (h : ¬ ready) : NoContextSwitch ready s rs none :=
  ⟨fun hr => absurd hr h, nofun⟩

theorem noContextSwitch_done (h : Settled s' rs') (hq : Quiet s s' rs rs')
    (hcount : s'.contextSwitchCount = s.contextSwitchCount) :
    NoContextSwitch ready s rs (some (.done s')) := by
  refine ⟨fun _ => Option.some_ne_none _, ?_⟩
  rintro _ ⟨⟩
  exact ⟨s', rs', rfl, h, hq, hcount⟩

theorem NoContextSwitch.imp {ready' : Prop} {progress : Option Progress}
    (h : NoContextSwitch ready s rs progress) (himp : ready' → ready) : NoContextSwitch ready' s rs progress :=
  ⟨fun hr => h.1 (himp hr), h.2⟩

theorem Settled.bootstrap_call (h : Settled s rs) (addr : Option ℕ) (memory : KernelThread)
    (hfresh : Call.Fresh s (.bootstrap addr memory)) :
    NoContextSwitch (Call.Ready s (.bootstrap addr memory)) s rs (Call.progress s (.bootstrap addr memory)) := by
  rw [Call.progress]
  by_cases hrun : s.running = none
  · cases addr with
    | none =>
      rw [bootstrap, if_neg (not_not.mpr hrun)]
      exact noContextSwitch_none fun hr => hr.2.1 rfl
    | some a =>
      by_cases hroom : s.tidMap.keys.length = 2 ^ 16 - 1
      · have hfull : assignNextTid { s.newKernelThread a memory with running := some a } a =
            none := if_pos hroom
        rw [bootstrap, if_neg (not_not.mpr hrun)]
        simp only [Option.bind_eq_bind, Option.bind_some, hfull, Option.bind_none, Option.map_none]
        exact noContextSwitch_none fun hr => hr.2.2 hroom
      · obtain ⟨s', tid, t, hboot, hpl, hpend, ht, hthreads, hcount, hrun'⟩ :=
          h.toPlaced.bootstrap hrun (hfresh a rfl) hroom memory
        rw [hboot]
        exact noContextSwitch_done (h.add hpl hpend ht hthreads) (.boot a hrun hrun') hcount
  · rw [bootstrap, if_pos hrun]
    exact noContextSwitch_none fun hr => hrun hr.1

theorem Settled.newThread_call (h : Settled s rs) (stk addr : Option ℕ) (memory : KernelThread)
    (proc : Option ℕ) (hfresh : Call.Fresh s (.newThread stk addr memory proc)) :
    NoContextSwitch (Call.Ready s (.newThread stk addr memory proc)) s rs
      (Call.progress s (.newThread stk addr memory proc)) := by
  rw [Call.progress]
  cases stk with
  | none => exact noContextSwitch_none fun hr => hr.1 rfl
  | some stk =>
    cases addr with
    | none => exact noContextSwitch_none fun hr => hr.2.1 rfl
    | some a =>
      by_cases hroom : s.tidMap.keys.length = 2 ^ 16 - 1
      · have hfull : assignNextTid (s.newKernelThread a memory) a = none := if_pos hroom
        simp only [newThread, Option.bind_eq_bind, Option.bind_some, hfull, Option.bind_none, Option.map_none]
        exact noContextSwitch_none fun hr => hr.2.2 hroom
      · obtain ⟨s', tid, t, hnew, hpl, hpend, ht, hthreads, hcount, hrun⟩ :=
          h.toPlaced.newThread (hfresh a rfl) hroom stk memory proc
        rw [hnew]
        exact noContextSwitch_done (h.add hpl hpend ht hthreads) (.create a hrun) hcount

theorem Settled.schedule_cases (h : Settled s rs) {c : ℕ} (hc : s.running = some c) (env : SwitchEnv) :
    (¬ s.HasOther env ∧ NoContextSwitch (s.NextEnterable env) s rs (s.switch env)) ∨
      (s.HasOther env ∧ ContextSwitch s rs (s.switch env)) := by
  rw [h.hasOther, h.nextEnterable]
  rcases h.switch hc env with ⟨rfl, hsame⟩ | ⟨n, l, rfl, hen, hnone⟩ |
    ⟨n, l, s1, s', rfl, hen, hsw, hcnt, hs', hrun, hcount, -⟩
  · rw [hsame]
    exact .inl ⟨by simp, noContextSwitch_done h (.same rfl) rfl⟩
  · rw [hnone]
    exact .inl ⟨by simpa using hen, noContextSwitch_none (by simpa using hen)⟩
  · exact .inr ⟨⟨n, l, rfl, hen⟩, c, n, l, s1, s', _, hc, rfl, hsw, hcnt, hs', hrun, .yield, hcount⟩

theorem Settled.destroy_cases (h : Settled s rs) {a : ℕ} (ha : s.threads a ≠ none) (env : SwitchEnv) :
    (¬ (s.running = some a ∧ s.HasOther env) ∧
      NoContextSwitch (s.running = some a → s.HasOther env) s rs (s.destroy (some a) env)) ∨
    ((s.running = some a ∧ s.HasOther env) ∧ ContextSwitch s rs (s.destroy (some a) env)) := by
  by_cases hrun : s.running = some a
  · rw [and_iff_right hrun, forall_prop_of_true hrun, h.hasOther]
    rcases h.destroyRunning hrun env with
      ⟨hstop, hnone⟩ | ⟨n, l, s1, s', rfl, hen, hsw, hcnt, hs', hrun', hgone, hcount⟩
    · have hno : ¬ ∃ n l, rs = n :: l ∧ s.Enterable env n := fun ⟨n, l, he, hen⟩ => hstop n l he hen
      rw [hnone]
      exact .inl ⟨hno, noContextSwitch_none hno⟩
    · exact .inr ⟨⟨n, l, rfl, hen⟩, a, n, l, s1, s', _, hrun, rfl, hsw, hcnt, hs', hrun', .destroy hgone, hcount⟩
  · have hmem : a ∈ rs := ((h.live a).mp ha).resolve_left hrun
    obtain ⟨s', hdes, hs', hcount, hrun', hgone⟩ := h.destroyOther hmem env
    rw [hdes]
    exact .inl ⟨fun hr => hrun hr.1, noContextSwitch_done hs' (.destroy a hrun' hgone) hcount⟩

/-- What a call does: it stops, it is done or it switches. -/
theorem Settled.call_cases (h : Settled s rs) {c : Call} (hfresh : c.Fresh s) :
    (¬ c.Switches s ∧ NoContextSwitch (c.Ready s) s rs (c.progress s)) ∨
      (c.Switches s ∧ ContextSwitch s rs (c.progress s)) := by
  cases c with
  | bootstrap addr memory => exact .inl ⟨not_false, h.bootstrap_call addr memory hfresh⟩
  | newThread stk addr memory proc =>
    exact .inl ⟨not_false, h.newThread_call stk addr memory proc hfresh⟩
  | schedule env =>
    rw [Call.Switches, Call.Ready, Call.progress]
    cases hc : s.running with
    | none =>
      have hstop : s.switch env = none := by
        rw [Scheduler.switch, Scheduler.chooseTask, hc]
        rfl
      rw [hstop]
      exact .inl ⟨fun hr => hr.1 rfl, noContextSwitch_none fun hr => hr.1 rfl⟩
    | some c =>
      rcases h.schedule_cases hc env with ⟨hno, hstay⟩ | ⟨hsw, hgo⟩
      · exact .inl ⟨fun hr => hno hr.2, hstay.imp fun hr => hr.2.2⟩
      · exact .inr ⟨⟨Option.some_ne_none c, hsw⟩, hgo⟩
  | destroyTid tid pageDirectory esp =>
    rw [Call.Switches, Call.Ready, Call.progress]
    cases hlook : s.tidMap.lookup tid with
    | none => exact .inl ⟨by simp, noContextSwitch_none (by simp)⟩
    | some x =>
      cases x with
      | none => exact .inl ⟨by simp, noContextSwitch_none (by simp)⟩
      | some a =>
        obtain ⟨t, ht, -⟩ := h.tids.thread.mp hlook
        rcases h.destroy_cases (a := a) (by simp [ht]) ⟨pageDirectory, some esp⟩ with ⟨hno, hstay⟩ | ⟨hsw, hgo⟩
        · exact .inl ⟨by simpa using hno, hstay.imp (by simpa using fun hr hrun => (hr hrun).2)⟩
        · exact .inr ⟨⟨a, rfl, hsw⟩, hgo⟩
  | destroyCurrent env =>
    rw [Call.Switches, Call.Ready, Call.progress]
    cases hc : s.running with
    | none =>
      have hstop : s.destroy none env = none := by
        rw [Scheduler.destroy, hc]
        rfl
      rw [hstop]
      exact .inl ⟨fun hr => hr.1 rfl, noContextSwitch_none fun hr => hr.1 rfl⟩
    | some c =>
      have hsame : s.destroy none env = s.destroy (some c) env := by
        simp [Scheduler.destroy, hc]
      rw [hsame]
      rcases h.destroy_cases ((h.live c).mpr (.inl hc)) env with ⟨hno, hstay⟩ | ⟨hsw, hgo⟩
      · exact .inl ⟨fun hr => hno ⟨hc, hr.2⟩, hstay.imp fun hr _ => hr.2.2⟩
      · exact .inr ⟨⟨Option.some_ne_none c, hsw.2⟩, hgo⟩

/-- A switch stops in the bookkeeping if the counter wraps. -/
theorem Call.run_of_switched {c : Call} {s1 : Scheduler} (hp : c.progress s = some (.switched s1))
    (hcnt : s1.counted = some s') : c.run s = if s'.contextSwitchCount = 0 then none else some s' := by
  rw [Call.run_eq, hp, Option.bind_some, Progress.finish, postContextSwitchBookkeeping_of_counted hcnt]

theorem NoContextSwitch.run {c : Call} (h : NoContextSwitch ready s rs (c.progress s)) (hrun : c.run s = some s') :
    ∃ rs', Settled s' rs' ∧ Quiet s s' rs rs' ∧ s'.contextSwitchCount = s.contextSwitchCount := by
  rw [Call.run_eq] at hrun
  obtain ⟨p, hp, hfinish⟩ := Option.bind_eq_some_iff.mp hrun
  obtain ⟨s1, rs', rfl, hs', hq, hcount⟩ := h.2 p hp
  obtain rfl := Option.some.inj hfinish
  exact ⟨rs', hs', hq, hcount⟩

theorem Settled.call_settled (h : Settled s rs) {c : Call} (hfresh : c.Fresh s) (hrun : c.run s = some s') :
    ∃ rs', Settled s' rs' := by
  rcases h.call_cases hfresh with ⟨-, hstay⟩ | ⟨-, hgo⟩
  · obtain ⟨rs', hs', -⟩ := hstay.run hrun
    exact ⟨rs', hs'⟩
  · obtain ⟨-, -, -, s1, s2, rs', -, -, hp, hcnt, hs', -⟩ := hgo
    rw [Call.run_of_switched hp hcnt] at hrun
    split_ifs at hrun
    exact ⟨rs', Option.some.inj hrun ▸ hs'⟩

theorem Reach.settled (h : Reach s) : ∃ rs, Settled s rs := by
  induction h with
  | construct => exact ⟨[], placed_construct, rfl, nofun⟩
  | call _ hfresh hrun ih =>
    obtain ⟨rs, hs⟩ := ih
    exact hs.call_settled hfresh hrun

end Calls

def twoThreads : Scheduler :=
  ((Call.run Scheduler.construct (.bootstrap (some 0x1000) ⟨0, true, 0, none⟩)).bind fun s =>
    Call.run s (.newThread (some 0x2000) (some 0x3000) ⟨0, true, 0, none⟩ none)).get (by decide +kernel)

theorem twoThreads_reach : Reach twoThreads := by
  have hrun : ((Call.run construct (.bootstrap (some 0x1000) ⟨0, true, 0, none⟩)).bind fun s =>
      Call.run s (.newThread (some 0x2000) (some 0x3000) ⟨0, true, 0, none⟩ none)) = some twoThreads :=
    (Option.some_get _).symm
  obtain ⟨s, hboot, hnew⟩ := Option.bind_eq_some_iff.mp hrun
  have hfree : (Call.run construct (.bootstrap (some 0x1000) ⟨0, true, 0, none⟩)).all
      (fun s => s.threads 0x3000 = none) = true := by decide +kernel
  rw [hboot] at hfree
  have hfirst : Call.Fresh construct (.bootstrap (some 0x1000) ⟨0, true, 0, none⟩) :=
    fun _ _ => rfl
  refine .call (.call .construct hfirst hboot) ?_ hnew
  intro a ha
  rw [← Option.some.inj ha]
  exact of_decide_eq_true hfree

end HmmOS.Sched
