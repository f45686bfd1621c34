import HmmOS.Sched.Placement

/-! # The current process

`new_thread` stores the process of a thread, `bootstrap` leaves the field as it
finds it. Beside the state of the scheduler we follow what every thread was
created for.
-/
namespace HmmOS.Sched
open Lib Util Function Scheduler

/-- No thread is new, and none changes its process or its TID. -/
def KeepsThreads (threads threads' : ℕ → Option KernelThread) : Prop :=
  ∀ a t', threads' a = some t' → ∃ t, threads a = some t ∧ t'.proc = t.proc ∧ t'.tid = t.tid

variable {a : ℕ} {s s' : Scheduler} {proc : Option ℕ}

section Keeps
variable {threads threads' threads'' : ℕ → Option KernelThread}

theorem KeepsThreads.refl (threads : ℕ → Option KernelThread) : KeepsThreads threads threads :=
  fun _ t' ht' => ⟨t', ht', rfl, rfl⟩

theorem KeepsThreads.trans (h : KeepsThreads threads threads') (h' : KeepsThreads threads' threads'') :
    KeepsThreads threads threads'' := by
  intro a t'' ht''
  obtain ⟨t', ht', hproc', htid'⟩ := h' a t'' ht''
  obtain ⟨t, ht, hproc, htid⟩ := h a t' ht'
  exact ⟨t, ht, hproc'.trans hproc, htid'.trans htid⟩

theorem KeepsThreads.update {t t' : KernelThread} (ha : threads a = some t)
    (hproc : t'.proc = t.proc) (htid : t'.tid = t.tid) : KeepsThreads threads (update threads a (some t')) := by
  refine kept_of_update (fun _ => ⟨rfl, rfl⟩) fun u hu => ?_
  rw [← Option.some.inj hu]
  exact ⟨t, ha, hproc, htid⟩

theorem KeepsThreads.delete (threads : ℕ → Option KernelThread) (a : ℕ) :
    KeepsThreads threads (Function.update threads a none) :=
  kept_of_update (fun _ => ⟨rfl, rfl⟩) nofun

end Keeps

/-- A step that creates no thread stays with the running thread or switches to another one, whose
address space it enters if there is one. -/
structure Moves (s s' : Scheduler) : Prop where
  keeps : KeepsThreads s.threads s'.threads
  space : (s'.running = s.running ∧ s'.addressSpace = s.addressSpace) ∨
    ∃ n t, s.threads n = some t ∧ s'.running = some n ∧ s'.addressSpace = t.proc.or s.addressSpace

structure Creates (s s' : Scheduler) (a tid : ℕ) (proc : Option ℕ) : Prop where
  threads : ∃ t, t.proc = proc ∧ t.tid = tid ∧ s'.threads = Function.update s.threads a (some t)
  space : s'.addressSpace = s.addressSpace

section Effects
variable {tid : ℕ} {env : SwitchEnv} {memory t' : KernelThread} {f : ℕ → Option ℕ} {p : Progress}

theorem assignNextTid_effect (h : s.assignNextTid a = some s') :
    ∃ t tid, s.threads a = some t ∧ s'.running = s.running ∧ s'.addressSpace = s.addressSpace ∧
      s'.threads = update s.threads a (some { t with tid := tid }) := by
  rw [assignNextTid] at h
  split_ifs at h
  simp only [Option.bind_eq_bind, Option.bind_eq_some_iff] at h
  obtain ⟨⟨m, counter⟩, -, t, ht, hs'⟩ := h
  rw [← Option.some.inj hs']
  exact ⟨t, _, ht, rfl, rfl, rfl⟩

theorem bootstrap_effect (h : s.bootstrap (some a) memory = some (s', tid)) :
    s.running = none ∧ s'.running = some a ∧ Creates s s' a tid memory.proc := by
  rw [bootstrap] at h
  split_ifs at h with hrun
  simp only [Option.bind_eq_bind, Option.bind_some, Option.bind_eq_some_iff] at h
  obtain ⟨s1, hassign, t, ht, hs'⟩ := h
  obtain ⟨t0, tid0, ht0, hrun1, hspace, hthreads⟩ := assignNextTid_effect hassign
  simp only [newKernelThread, setThread, update_self, update_idem] at ht0 hthreads
  rw [hthreads, update_self, Option.some.injEq] at ht
  rw [ht] at hthreads
  cases hs'
  exact ⟨not_not.mp hrun, hrun1, ⟨⟨t, by rw [← ht, ← Option.some.inj ht0], rfl, hthreads⟩, hspace⟩⟩

theorem newThread_effect {stk : Option ℕ} (h : s.newThread stk (some a) memory proc = some (s', tid)) :
    s'.running = s.running ∧ Creates s s' a tid proc := by
  rw [newThread] at h
  simp only [Option.bind_eq_bind, Option.bind_some, Option.bind_eq_some_iff] at h
  obtain ⟨stk, -, s1, hassign, t, -, L, -, hs'⟩ := h
  obtain ⟨t0, tid0, -, hrun, hspace, hthreads⟩ := assignNextTid_effect hassign
  cases hs'
  refine ⟨hrun, ⟨⟨{ t with
    stack := setupStack (Word.add 32 stk pgSz)
    proc := proc }, rfl, rfl, ?_⟩, hspace⟩⟩
  simp only [setThread, hthreads, newKernelThread, update_idem]

theorem deleteTask_effect (h : s.deleteTask a = some s') :
    s'.running = s.running ∧ s'.addressSpace = s.addressSpace ∧ s'.threads = update s.threads a none := by
  simp only [deleteTask, Option.bind_eq_bind, Option.bind_eq_some_iff] at h
  obtain ⟨t, -, ⟨L, _⟩, -, hs'⟩ := h
  rw [← Option.some.inj hs']
  exact ⟨rfl, rfl, rfl⟩

theorem bookkeeping_effect (h : s.postContextSwitchBookkeeping = some s') :
    s'.running = s.running ∧ s'.addressSpace = s.addressSpace ∧ KeepsThreads s.threads s'.threads := by
  obtain ⟨s1, hcounted, -⟩ := Option.bind_eq_some_iff.mp h
  rw [postContextSwitchBookkeeping_of_counted hcounted] at h
  split_ifs at h
  obtain rfl := Option.some.inj h
  rw [counted] at hcounted
  cases hp : s.pendingDeletion with
  | none =>
    simp only [hp, Option.some.injEq] at hcounted
    rw [← hcounted]
    exact ⟨rfl, rfl, .refl _⟩
  | some a =>
    simp only [hp, Option.map_eq_some_iff] at hcounted
    obtain ⟨s2, hdel, rfl⟩ := hcounted
    obtain ⟨hrun, hspace, hthreads⟩ := deleteTask_effect hdel
    refine ⟨hrun, hspace, ?_⟩
    rw [hthreads]
    exact .delete _ _

theorem switch_moves (h : s.switch env = some p) (hfinish : p.finish = some s') : Moves s s' := by
  simp only [switch, Option.bind_eq_bind, Option.bind_eq_some_iff] at h
  obtain ⟨_, -, c, hc, n, -, h⟩ := h
  split_ifs at h with hne
  · obtain rfl := Option.some.inj h
    obtain rfl := Option.some.inj hfinish
    exact ⟨.refl _, .inl ⟨rfl, rfl⟩⟩
  · simp only [Option.bind_eq_some_iff] at h
    obtain ⟨⟨L, _⟩, -, L', -, t, ht, space, henter, cur, hcur, h⟩ := h
    obtain rfl := Option.some.inj h
    have hsaved : KeepsThreads s.threads
        (update s.threads c (some { cur with stack := env.esp.getD cur.stack })) :=
      .update hcur rfl rfl
    obtain ⟨hrun, hspace, hkeeps⟩ := bookkeeping_effect hfinish
    exact ⟨hsaved.trans hkeeps, .inr ⟨n, t, ht, hrun, hspace.trans (enter_eq_some henter).1⟩⟩

theorem schedule_moves (h : s.schedule env = some s') : Moves s s' := by
  obtain ⟨p, hp, hfinish⟩ := Option.bind_eq_some_iff.mp h
  exact switch_moves hp hfinish

theorem destroyThread_moves {thread : Option ℕ} (h : s.destroyThread thread env = some s') : Moves s s' := by
  obtain ⟨p, hp, hfinish⟩ := Option.bind_eq_some_iff.mp h
  simp only [destroy, Option.bind_eq_bind, Option.bind_eq_some_iff] at hp
  obtain ⟨a, -, t, ht, hp⟩ := hp
  split_ifs at hp with hrun hpend
  · obtain ⟨s1, hdel, rfl⟩ := Option.map_eq_some_iff.mp hp
    obtain rfl := Option.some.inj hfinish
    obtain ⟨hrun', hspace, hthreads⟩ := deleteTask_effect hdel
    refine ⟨?_, .inl ⟨hrun', hspace⟩⟩
    rw [hthreads]
    exact .delete _ _
  · -- the mark on the running thread leaves its process alone
    have hmark : KeepsThreads s.threads (update s.threads a (some { t with runnable := false })) :=
      .update ht rfl rfl
    obtain ⟨hkeeps, hspace⟩ := switch_moves hp hfinish
    refine ⟨hmark.trans hkeeps, hspace.imp_right ?_⟩
    rintro ⟨n, t', ht', hrun', hspace'⟩
    obtain ⟨u, hu, hproc, -⟩ := hmark n t' ht'
    exact ⟨n, u, hu, hrun', hproc ▸ hspace'⟩

/-- Forget what is known about an address at which a call creates a thread. -/
def Call.forget (f : ℕ → Option ℕ) : Call → ℕ → Option ℕ
  | .bootstrap (some a) _ | .newThread _ (some a) _ _ => Function.update f a none
  | _ => f

theorem Creates.keeps {b x : ℕ} (h : Creates s s' a tid proc) (ht' : s'.threads b = some t')
    (hx : update f a none b = some x) : f b = some x ∧ ∃ t, s.threads b = some t ∧ t'.tid = t.tid := by
  obtain ⟨t, -, -, hthreads⟩ := h.threads
  have hne : b ≠ a := by
    rintro rfl
    rw [update_self] at hx
    cases hx
  rw [hthreads, update_of_ne hne] at ht'
  rw [update_of_ne hne] at hx
  exact ⟨hx, t', ht', rfl⟩

theorem Moves.keepsTid {b : ℕ} (h : Moves s s') (ht' : s'.threads b = some t') :
    ∃ t, s.threads b = some t ∧ t'.tid = t.tid := by
  obtain ⟨t, ht, -, htid⟩ := h.keeps b t' ht'
  exact ⟨t, ht, htid⟩

/-- What is not forgotten is about a thread that was there before the call. -/
theorem Call.forget_eq_some {c : Call} {b x : ℕ} (hrun : c.run s = some s')
    (ht' : s'.threads b = some t') (hx : c.forget f b = some x) :
    f b = some x ∧ ∃ t, s.threads b = some t ∧ t'.tid = t.tid := by
  cases c with
  | bootstrap addr memory =>
    obtain ⟨⟨s1, tid⟩, hboot, rfl⟩ := Option.map_eq_some_iff.mp hrun
    cases addr with
    | none => simp [Scheduler.bootstrap] at hboot
    | some a => exact (bootstrap_effect hboot).2.2.keeps ht' hx
  | newThread stk addr memory proc =>
    obtain ⟨⟨s1, tid⟩, hnew, rfl⟩ := Option.map_eq_some_iff.mp hrun
    cases addr with
    | none => simp [Scheduler.newThread] at hnew
    | some a => exact (newThread_effect hnew).2.keeps ht' hx
  | schedule env => exact ⟨hx, (schedule_moves hrun).keepsTid ht'⟩
  | destroyTid tid pageDirectory esp =>
    obtain ⟨thread, -, hrun⟩ := Option.bind_eq_some_iff.mp hrun
    obtain ⟨a, -, hrun⟩ := Option.bind_eq_some_iff.mp hrun
    exact ⟨hx, (destroyThread_moves hrun).keepsTid ht'⟩
  | destroyCurrent env => exact ⟨hx, (destroyThread_moves hrun).keepsTid ht'⟩

end Effects

/-- The process that each thread was created for, by the address of the thread. -/
abbrev Owners := ℕ → Option ℕ

def Call.createdFor (owner : Owners) : Call → Owners
  | .bootstrap (some a) _ => Function.update owner a none
  | .newThread _ (some a) _ proc => Function.update owner a proc
  | _ => owner

/-- The calls so far, the latest one first, with the state and the owners they lead to. -/
inductive Trace : List Call → Scheduler → Owners → Prop
  | construct : Trace [] Scheduler.construct fun _ => none
  | call {cs : List Call} {s s' : Scheduler} {owner : Owners} {c : Call} (h : Trace cs s owner)
      (hfresh : c.Fresh s) (hrun : c.run s = some s') : Trace (c :: cs) s' (c.createdFor owner)

instance (s : Scheduler) (c : Call) : Decidable (c.Fresh s) :=
  match c with
  | .bootstrap none _ | .newThread _ none _ _ => isTrue nofun
  | .bootstrap (some a) _ | .newThread _ (some a) _ _ =>
    decidable_of_iff (s.threads a = none) (by simp [Call.Fresh])
  | .schedule _ | .destroyTid .. | .destroyCurrent _ => isTrue trivial

def exec : List Call → Option (Scheduler × Owners)
  | [] => some (Scheduler.construct, fun _ => none)
  | c :: cs => (exec cs).bind fun (s, owner) =>
    if c.Fresh s then (c.run s).map fun s' => (s', c.createdFor owner) else none

structure RunsOwner (s : Scheduler) (owner : Owners) : Prop where
  currProc : ∀ a, s.running = some a → s.currProc none = owner a
  space : ∀ a p, s.running = some a → owner a = some p → s.addressSpace = some p

/-- If the address space changes, then to that of the process of the running thread. -/
def EntersOwner (s s' : Scheduler) (owner : Owners) : Prop :=
  s'.addressSpace ≠ s.addressSpace →
    ∃ a p, s'.running = some a ∧ owner a = some p ∧ s'.addressSpace = some p

/-- This holds after every call of a run, and of every call. -/
def Faithful (cs : List Call) : Prop :=
  ∀ c past, c :: past <:+ cs → ∀ s owner s', Trace past s owner → c.Fresh s → c.run s = some s' →
    RunsOwner s' (c.createdFor owner) ∧ EntersOwner s s' (c.createdFor owner)

structure OwnersOk (s : Scheduler) (owner : Owners) : Prop where
  procs : ∀ a t, s.threads a = some t → t.proc = owner a
  space : ∀ a p, s.running = some a → owner a = some p → s.addressSpace = some p

/-- The memory that `bootstrap` finds has a null pointer in the field that nobody sets. -/
def Call.Clean : Call → Prop
  | .bootstrap _ memory => memory.proc = none
  | _ => True

section Runs
variable {owner : Owners} {c : Call} {cs past : List Call}

theorem Trace.reach (h : Trace cs s owner) : Reach s := by
  induction h with
  | construct => exact .construct
  | call _ hfresh hrun ih => exact ih.call hfresh hrun

theorem exec_trace (h : exec cs = some (s, owner)) : Trace cs s owner := by
  induction cs generalizing s owner with
  | nil =>
    cases h
    exact .construct
  | cons c cs ih =>
    obtain ⟨⟨s0, owner0⟩, hcs, h⟩ := Option.bind_eq_some_iff.mp h
    dsimp only at h
    split_ifs at h with hfresh
    obtain ⟨s', hrun, heq⟩ := Option.map_eq_some_iff.mp h
    cases heq
    exact (ih hcs).call hfresh hrun

theorem Trace.of_suffix (h : Trace cs s owner) (hsuf : c :: past <:+ cs) :
    ∃ s0 owner0 s1, Trace past s0 owner0 ∧ c.Fresh s0 ∧ c.run s0 = some s1 := by
  induction h with
  | construct => cases List.suffix_nil.mp hsuf
  | call h hfresh hrun ih =>
    rcases List.suffix_cons_iff.mp hsuf with heq | hsuf
    · cases heq
      exact ⟨_, _, _, h, hfresh, hrun⟩
    · exact ih hsuf

theorem Reach.running_live (h : Reach s) (ha : s.running = some a) : ∃ t, s.threads a = some t := by
  obtain ⟨rs, hset⟩ := h.settled
  exact Option.ne_none_iff_exists'.mp ((hset.live a).mpr (.inl ha))

theorem OwnersOk.runsOwner (h : OwnersOk s owner) (hr : Reach s) : RunsOwner s owner := by
  refine ⟨?_, h.space⟩
  intro a ha
  obtain ⟨t, ht⟩ := hr.running_live ha
  simpa [currProc, ha, ht] using h.procs a t ht

theorem OwnersOk.creates {tid : ℕ} (h : OwnersOk s owner) (hc : Creates s s' a tid proc)
    (hspace : ∀ b p, s'.running = some b → update owner a proc b = some p → s.addressSpace = some p) :
    OwnersOk s' (update owner a proc) := by
  obtain ⟨⟨t, ht, -, hthreads⟩, hsame⟩ := hc
  refine ⟨?_, by rwa [hsame]⟩
  intro b u hu
  rw [hthreads, update_apply] at hu
  rw [update_apply]
  split_ifs at hu ⊢
  · exact Option.some.inj hu ▸ ht
  · exact h.procs b u hu

theorem OwnersOk.moves (h : OwnersOk s owner) (hm : Moves s s') :
    OwnersOk s' owner ∧ EntersOwner s s' owner := by
  have hprocs : ∀ a t, s'.threads a = some t → t.proc = owner a := by
    intro a t' ht'
    obtain ⟨t, ht, hproc, -⟩ := hm.keeps a t' ht'
    exact hproc.trans (h.procs a t ht)
  rcases hm.space with ⟨hrun, hspace⟩ | ⟨n, t, ht, hrun, hspace⟩
  · refine ⟨⟨hprocs, ?_⟩, fun hne => absurd hspace hne⟩
    rw [hrun, hspace]
    exact h.space
  · have hproc := h.procs n t ht
    refine ⟨⟨hprocs, ?_⟩, ?_⟩
    · intro a p ha hp
      rw [← Option.some.inj (hrun.symm.trans ha), ← hproc] at hp
      rw [hspace, hp, Option.some_or]
    · intro hne
      cases hp : t.proc with
      | none =>
        rw [hp] at hspace
        exact absurd hspace hne
      | some p => exact ⟨n, p, hrun, hproc.symm.trans hp, by rw [hspace, hp]; rfl⟩

/-- One call keeps the invariant, unless it is a `bootstrap` in memory that is not clean. -/
theorem OwnersOk.call (h : OwnersOk s owner) (hr : Reach s) (hfresh : c.Fresh s)
    (hrun : c.run s = some s') (hclean : c.Clean) :
    OwnersOk s' (c.createdFor owner) ∧ EntersOwner s s' (c.createdFor owner) := by
  cases c with
  | bootstrap addr memory =>
    obtain ⟨⟨s1, tid⟩, hboot, rfl⟩ := Option.map_eq_some_iff.mp hrun
    cases addr with
    | none => simp [bootstrap] at hboot
    | some a =>
      obtain ⟨-, hrun', hcreates⟩ := bootstrap_effect hboot
      rw [show memory.proc = none from hclean] at hcreates
      refine ⟨h.creates hcreates ?_, fun hne => absurd hcreates.space hne⟩
      intro b p hb hp
      rw [← Option.some.inj (hrun'.symm.trans hb), update_self] at hp
      cases hp
  | newThread stk addr memory proc =>
    obtain ⟨⟨s1, tid⟩, hnew, rfl⟩ := Option.map_eq_some_iff.mp hrun
    cases addr with
    | none => simp [newThread] at hnew
    | some a =>
      obtain ⟨hrun', hcreates⟩ := newThread_effect hnew
      refine ⟨h.creates hcreates ?_, fun hne => absurd hcreates.space hne⟩
      intro b p hb hp
      rw [hrun'] at hb
      -- the memory of the new thread is not that of the running one
      have hne : b ≠ a := by
        rintro rfl
        obtain ⟨t, ht⟩ := hr.running_live hb
        rw [hfresh b rfl] at ht
        cases ht
      rw [update_of_ne hne] at hp
      exact h.space b p hb hp
  | schedule env => exact h.moves (schedule_moves hrun)
  | destroyTid tid pageDirectory esp =>
    obtain ⟨thread, -, hrun⟩ := Option.bind_eq_some_iff.mp hrun
    obtain ⟨a, -, hrun⟩ := Option.bind_eq_some_iff.mp hrun
    exact h.moves (destroyThread_moves hrun)
  | destroyCurrent env => exact h.moves (destroyThread_moves hrun)

theorem Trace.ownersOk (h : Trace cs s owner) (hclean : ∀ c ∈ cs, c.Clean) : OwnersOk s owner := by
  induction h with
  | construct => exact ⟨nofun, nofun⟩
  | call h hfresh hrun ih =>
    rw [List.forall_mem_cons] at hclean
    exact ((ih hclean.2).call h.reach hfresh hrun hclean.1).1

/-- `bootstrap` makes the current process of what its memory holds. -/
theorem bootstrap_currProc {addr : Option ℕ} {memory : KernelThread}
    (hrun : (Call.bootstrap addr memory).run s = some s')
    (h : RunsOwner s' ((Call.bootstrap addr memory).createdFor owner)) : memory.proc = none := by
  obtain ⟨⟨s1, tid⟩, hboot, rfl⟩ := Option.map_eq_some_iff.mp hrun
  cases addr with
  | none => simp [bootstrap] at hboot
  | some a =>
    obtain ⟨-, hrun', ⟨t, ht, -, hthreads⟩, -⟩ := bootstrap_effect hboot
    have hcurr := h.currProc a hrun'
    simpa [currProc, hrun', hthreads, ht, Call.createdFor] using hcurr

/-- The current process and the address space are those of the running thread if and only if the memory
of the first thread happens to have a null pointer for its process. -/
theorem currProc_faithful_iff (h : Trace cs s owner) : Faithful cs ↔ ∀ c ∈ cs, c.Clean := by
  constructor
  · intro hfaithful c hc
    cases c with
    | bootstrap addr memory =>
      obtain ⟨later, past, rfl⟩ := List.append_of_mem hc
      have hsuf := List.suffix_append later (Call.bootstrap addr memory :: past)
      obtain ⟨s0, owner0, s1, hpast, hfresh, hrun⟩ := h.of_suffix hsuf
      exact bootstrap_currProc hrun (hfaithful _ _ hsuf _ _ _ hpast hfresh hrun).1
    | newThread | schedule | destroyTid | destroyCurrent => trivial
  · intro hclean c past hsuf s0 owner0 s1 hpast hfresh hrun
    have hall := List.forall_mem_cons.mp fun c' hc' => hclean c' (hsuf.subset hc')
    obtain ⟨hok, henters⟩ := (hpast.ownersOk hall.2).call hpast.reach hfresh hrun hall.1
    exact ⟨hok.runsOwner (hpast.reach.call hfresh hrun), henters⟩

end Runs

/-- The first thread, whose memory holds `proc`, switches to a thread of process 7 and back, where any memory
has an address of the direct map in the place of the page directory. -/
def thereAndBack (proc : Option ℕ) : List Call :=
  [.schedule ⟨fun _ => some 0xC0001000, some 0x2F00⟩, .schedule ⟨fun _ => some 0xC0001000, some 0x0F00⟩,
    .newThread (some 0x2000) (some 0x3000) ⟨0, true, 0, none⟩ (some 7),
    .bootstrap (some 0x1000) ⟨0, true, 0, proc⟩]

theorem clean_thereAndBack :
    (∀ c ∈ thereAndBack none, c.Clean) ∧ Faithful (thereAndBack none) := by
  have hclean : ∀ c ∈ thereAndBack none, c.Clean := by
    simp [thereAndBack, Call.Clean]
  have hsome : (exec (thereAndBack none)).isSome := by decide +kernel
  exact ⟨hclean, (currProc_faithful_iff (exec_trace (Option.some_get hsome).symm)).mpr hclean⟩

/-- With garbage in the field the first thread runs in a process that does not exist, and coming back to
it enters the address space of this process. -/
theorem garbage_thereAndBack :
    ((exec (thereAndBack (some 0xDEAD)).tail).map fun x => x.1.addressSpace) = some (some 7) ∧
      ((exec (thereAndBack (some 0xDEAD))).map fun x =>
        (x.1.running, x.2 0x1000, x.1.currProc none, x.1.addressSpace)) =
          some (some 0x1000, none, some 0xDEAD, some 0xDEAD) ∧
      ¬ Faithful (thereAndBack (some 0xDEAD)) := by
  refine ⟨by decide +kernel, by decide +kernel, ?_⟩
  intro hfaithful
  have hsome : (exec (thereAndBack (some 0xDEAD))).isSome := by decide +kernel
  have htrace := exec_trace (Option.some_get hsome).symm
  have hsuf : Call.bootstrap (some 0x1000) ⟨0, true, 0, some 0xDEAD⟩ :: [] <:+
      thereAndBack (some 0xDEAD) := List.suffix_append (thereAndBack (some 0xDEAD) |>.take 3) _
  obtain ⟨s0, owner0, s1, hpast, hfresh, hrun⟩ := htrace.of_suffix hsuf
  cases bootstrap_currProc hrun (hfaithful _ _ hsuf _ _ _ hpast hfresh hrun).1

end HmmOS.Sched
