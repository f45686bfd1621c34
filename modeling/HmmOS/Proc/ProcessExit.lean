import HmmOS.Proc.RefCounts
import HmmOS.Sched.CurrProc
import Mathlib.Logic.Relation

/-! # Processes that exit

What follows the call of `destroy_thread` in `Process::exit` runs on the stack of the
caller, and only once the caller runs again.
-/
namespace HmmOS.Proc
open Fs Sched Function

structure ProcessObject where
  addr : ℕ
  tid : ℕ
  deriving DecidableEq, Repr

/-- The scheduler and the processes. The files and areas of the `k`-th object are those of the `k`-th
process of `fs`. -/
structure System where
  sched : Scheduler
  /-- The process that each thread was created for. -/
  owner : Owners
  fs : FsState
  objects : List ProcessObject
  /-- The process that a thread deletes when the call of `destroy_thread` in `exit` returns to it. -/
  waiting : ℕ → Option ℕ
  /-- The processes that were deleted, the latest one first. -/
  deleted : List ℕ

namespace System

def init (rootCluster : ℕ) : System where
  sched := Scheduler.construct
  owner := fun _ => none
  fs := ⟨Vfs.init rootCluster, []⟩
  objects := []
  waiting := fun _ => none
  deleted := []

def delete (disk : Disk) (S : System) (p : ℕ) : Option System := do
  let k ← S.objects.findIdx? fun o => o.addr = p
  let (fs, _) ← (fsStep disk S.fs (.destroyProcess k)).toOption
  return { S with fs := fs, objects := S.objects.eraseIdx k, deleted := p :: S.deleted }

/-- The running thread goes on. If it waits in `exit`, it deletes the process. -/
def resume (disk : Disk) (S : System) : Option System :=
  match S.sched.running with
  | none => some S
  | some a => match S.waiting a with
    | none => some S
    | some p => delete disk { S with waiting := Function.update S.waiting a none } p

/-- A call of the scheduler, and what the thread that runs after it does next. -/
def call (disk : Disk) (S : System) (c : Call) : Option System := do
  let sched ← c.run S.sched
  resume disk { S with
    sched := sched
    owner := c.createdFor S.owner
    waiting := c.forget S.waiting }

def exit (disk : Disk) (S : System) (o : ProcessObject) (pageDirectory : ℕ → Option ℕ) (esp : ℕ) :
    Option System :=
  if o.tid = invalidTID then none
  else do
    let a ← S.sched.running
    call disk { S with waiting := Function.update S.waiting a (some o.addr) } 
      (.destroyTid o.tid pageDirectory esp)

/-- The constructor of `Process` begins. -/
def newProcess (S : System) (addr : ℕ) : System :=
  { S with
    fs := ⟨S.fs.vfs, S.fs.procs ++ [{}]⟩
    objects := S.objects ++ [⟨addr, invalidTID⟩] }

/-- The constructor of `Process` ends with a new thread. -/
def start (S : System) (k : ℕ) (stk addr : Option ℕ) (memory : KernelThread) : Option System := do
  let o ← S.objects[k]?
  let (sched, tid) ← S.sched.newThread stk addr memory (some o.addr)
  let c := Call.newThread stk addr memory (some o.addr)
  return { S with
    sched := sched
    owner := c.createdFor S.owner
    waiting := c.forget S.waiting
    objects := S.objects.set k { o with tid := tid } }

def fsCall (disk : Disk) (S : System) (op : FsOp) : Option System :=
  (fsStep disk S.fs op).toOption.map fun r => { S with fs := r.1 }

end System

def FsOp.process : FsOp → Option ℕ
  | .open k .. | .close k _ | .reserve k _ | .mmap k .. | .destroyVma k _ => some k
  | .newProcess | .pathnameLookup .. | .destroyProcess _ => none

/-- Kernel code creates threads without a process; the others belong to the constructor of
`Process`. -/
def ForKernel : Call → Prop
  | .newThread _ _ _ proc => proc = none
  | _ => True

def System.Current (S : System) (o : ProcessObject) : Prop :=
  ∃ a, S.sched.running = some a ∧ S.owner a = some o.addr

/-- What can happen next. A process makes calls while it runs or is under construction, and the
process that runs is the one that exits. -/
inductive Step (disk : Disk) : System → System → Prop
  | call {S S' : System} {c : Call} (hfresh : c.Fresh S.sched) (hkernel : ForKernel c)
      (h : S.call disk c = some S') : Step disk S S'
  | newProcess {S : System} {addr : ℕ} (hfresh : ∀ o ∈ S.objects, o.addr ≠ addr) :
      Step disk S (S.newProcess addr)
  | start {S S' : System} {k : ℕ} {o : ProcessObject} {stk addr : Option ℕ} {memory : KernelThread}
      (ho : S.objects[k]? = some o) (htid : o.tid = invalidTID)
      (hfresh : ∀ a, addr = some a → S.sched.threads a = none)
      (h : S.start k stk addr memory = some S') : Step disk S S'
  | lookup {S S' : System} {path : Name} {addrs : List (ℕ × ℕ)}
      (h : S.fsCall disk (.pathnameLookup path addrs) = some S') : Step disk S S'
  | fsCall {S S' : System} {op : FsOp} {k : ℕ} {o : ProcessObject} (hop : op.process = some k)
      (ho : S.objects[k]? = some o) (hcaller : o.tid = invalidTID ∨ S.Current o)
      (h : S.fsCall disk op = some S') : Step disk S S'
  | exit {S S' : System} {o : ProcessObject} {pageDirectory : ℕ → Option ℕ} {esp : ℕ}
      (ho : o ∈ S.objects) (hcaller : S.Current o) (h : S.exit disk o pageDirectory esp = some S') : Step disk S S'

abbrev Later (disk : Disk) : System → System → Prop := Relation.ReflTransGen (Step disk)

abbrev SystemReach (disk : Disk) (rootCluster : ℕ) : System → Prop :=
  Later disk (System.init rootCluster)

/-- A live thread of a process has the TID that the process has, and nobody who may run waits in
`exit`. -/
structure SystemOk (S : System) : Prop where
  sched : Reach S.sched
  addrs : (S.objects.map ProcessObject.addr).Nodup
  length : S.fs.procs.length = S.objects.length
  threads : ∀ a t p, S.sched.threads a = some t → S.owner a = some p →
    ∃ o ∈ S.objects, o.addr = p ∧ o.tid = t.tid
  idle : ∀ a t, S.sched.threads a = some t → S.waiting a = none

section Steps
variable {disk : Disk} {rootCluster : ℕ} {S S' : System} {o o' : ProcessObject} {c : Call}
  {a esp k : ℕ} {pageDirectory : ℕ → Option ℕ} {t memory : KernelThread} {res : Result}

theorem SystemOk.init : SystemOk (System.init rootCluster) where
  sched := .construct
  addrs := .nil
  length := rfl
  threads := nofun
  idle := nofun

theorem SystemOk.eq_of_addr (h : SystemOk S) (ho : o ∈ S.objects) (ho' : o' ∈ S.objects)
    (haddr : o.addr = o'.addr) : o = o' :=
  List.inj_on_of_nodup_map h.addrs ho ho' haddr

/-- The TID of a live thread is valid and finds the thread. -/
theorem SystemOk.lookup_tid (h : SystemOk S) (ht : S.sched.threads a = some t) :
    S.sched.tidMap.lookup t.tid = some (some a) ∧ t.tid ≠ invalidTID := by
  obtain ⟨rs, hset⟩ := h.sched.settled
  have hlook := hset.tids.thread.mpr ⟨t, ht, rfl⟩
  refine ⟨hlook, ?_⟩
  intro hinvalid
  rw [hset.tids.dummy.mpr hinvalid] at hlook
  cases hlook

theorem System.resume_idle (h : ∀ a, S.sched.running = some a → S.waiting a = none) :
    S.resume disk = some S := by
  rw [System.resume]
  split
  · rfl
  · rename_i a ha
    rw [h a ha]

theorem createdFor_eq_forget (h : ForKernel c) (owner : Owners) : c.createdFor owner = c.forget owner := by
  cases c with
  | bootstrap addr memory => cases addr <;> rfl
  | newThread stk addr memory proc =>
    cases addr with
    | none => rfl
    | some a =>
      rw [Call.createdFor, show proc = none from h]
      rfl
  | schedule | destroyTid | destroyCurrent => rfl

/-- Whoever runs after a call of the kernel does not wait in `exit`. -/
theorem SystemOk.call_eq (h : SystemOk S) (hfresh : c.Fresh S.sched) (hcall : S.call disk c = some S') :
    ∃ s', c.run S.sched = some s' ∧ Reach s' ∧ (∀ a t, s'.threads a = some t → c.forget S.waiting a = none) ∧
      S' = { S with sched := s', owner := c.createdFor S.owner, waiting := c.forget S.waiting } := by
  obtain ⟨s', hrun, hcall⟩ := Option.bind_eq_some_iff.mp hcall
  have hreach := h.sched.call hfresh hrun
  have hidle : ∀ a t, s'.threads a = some t → c.forget S.waiting a = none := by
    intro a t' ht'
    by_contra hne
    obtain ⟨p, hp⟩ := Option.ne_none_iff_exists'.mp hne
    obtain ⟨hwait, t, ht, -⟩ := Call.forget_eq_some hrun ht' hp
    rw [h.idle a t ht] at hwait
    cases hwait
  rw [System.resume_idle ?_, Option.some.injEq] at hcall
  · exact ⟨s', hrun, hreach, hidle, hcall.symm⟩
  · intro a ha
    obtain ⟨t, ht⟩ := hreach.running_live ha
    exact hidle a t ht

theorem ne_of_gone {threads : ℕ → Option KernelThread} {b : ℕ} (hgone : threads a = none)
    (ht : threads b = some t) : b ≠ a := by
  rintro rfl
  rw [hgone] at ht
  cases ht

/-- A process that destroys its own thread is not deleted: the thread that runs next does not wait in
`exit`, and the one that does is gone. -/
theorem SystemOk.exit_self (h : SystemOk S) (hrun : S.sched.running = some a)
    (hthread : S.sched.tidMap.lookup o.tid = some (some a))
    (hexit : S.exit disk o pageDirectory esp = some S') :
    ∃ s', Reach s' ∧ KeepsThreads S.sched.threads s'.threads ∧ s'.threads a = none ∧
      S' = { S with sched := s', waiting := update S.waiting a (some o.addr) } := by
  rw [System.exit] at hexit
  split_ifs at hexit
  simp only [hrun, Option.bind_eq_bind, Option.bind_some, System.call] at hexit
  obtain ⟨s', hdestroy, hresume⟩ := Option.bind_eq_some_iff.mp hexit
  have hreach : Reach s' := h.sched.call (c := .destroyTid o.tid pageDirectory esp) trivial hdestroy
  have hdestroy' : S.sched.destroyThread (some a) ⟨pageDirectory, some esp⟩ = some s' := by
    simpa [Call.run, Scheduler.destroyTid, hthread] using hdestroy
  have hkeeps := (destroyThread_moves hdestroy').keeps
  have hgone : s'.threads a = none := by
    obtain ⟨rs, hset⟩ := h.sched.settled
    obtain ⟨p, hp, hfinish⟩ := Option.bind_eq_some_iff.mp hdestroy'
    rcases hset.destroyRunning hrun ⟨pageDirectory, some esp⟩ with
      ⟨-, hnone⟩ | ⟨n, l, s1, s2, -, -, hsw, hcnt, -, -, hgone, -⟩
    · rw [hp] at hnone
      cases hnone
    · rw [hp] at hsw
      obtain rfl := Option.some.inj hsw
      rw [Progress.finish, Scheduler.postContextSwitchBookkeeping_of_counted hcnt] at hfinish
      split_ifs at hfinish
      rwa [← Option.some.inj hfinish]
  rw [System.resume_idle ?_, Option.some.injEq] at hresume
  · exact ⟨s', hreach, hkeeps, hgone, hresume.symm⟩
  · intro n hn
    obtain ⟨t', ht'⟩ := hreach.running_live hn
    obtain ⟨t, ht, -⟩ := hkeeps n t' ht'
    exact (update_of_ne (ne_of_gone hgone ht') ..).trans (h.idle n t ht)

theorem ok_of_toOption {α : Type} {x : Except Stop α} {r : α} (h : x.toOption = some r) : x = .ok r := by
  cases x with
  | error e => cases h
  | ok r' => exact congrArg Except.ok (Option.some.inj h)

/-- A process that is not the running one is deleted before `exit` returns. -/
theorem SystemOk.exit_other (h : SystemOk S) (ho : o ∈ S.objects) (hrun : S.sched.running ≠ some a)
    (hthread : S.sched.tidMap.lookup o.tid = some (some a))
    (hexit : S.exit disk o pageDirectory esp = some S') :
    ∃ k res, S.objects[k]? = some o ∧ fsStep disk S.fs (.destroyProcess k) = .ok (S'.fs, res) ∧
      S'.objects = S.objects.eraseIdx k ∧ S'.deleted = o.addr :: S.deleted := by
  rw [System.exit] at hexit
  split_ifs at hexit
  obtain ⟨b, hb, hexit⟩ := Option.bind_eq_some_iff.mp hexit
  obtain ⟨s', hdestroy, hresume⟩ := Option.bind_eq_some_iff.mp hexit
  -- the caller is still the one that runs
  have hb' : s'.running = some b := by
    simp only [Call.run, Scheduler.destroyTid, Scheduler.destroyThread, Scheduler.destroy, hthread,
      Option.bind_eq_bind, Option.bind_some, Option.some_or, Option.bind_eq_some_iff, if_pos (Ne.symm hrun),
      Option.map_eq_some_iff] at hdestroy
    obtain ⟨_, ⟨t, -, s1, hdelete, rfl⟩, hfinish⟩ := hdestroy
    obtain rfl := Option.some.inj hfinish
    exact (deleteTask_effect hdelete).1.trans hb
  simp only [System.resume, hb', Call.forget, update_self, System.delete, Option.bind_eq_bind,
    Option.bind_eq_some_iff, Prod.exists] at hresume
  obtain ⟨k, hk, fs', res, hfs, hS'⟩ := hresume
  obtain ⟨hlt, hfound, -⟩ := List.findIdx?_eq_some_iff_getElem.mp hk
  have hget : S.objects[k] = o :=
    h.eq_of_addr (List.getElem_mem hlt) ho (of_decide_eq_true hfound)
  cases hS'
  exact ⟨k, res, (List.getElem?_eq_getElem hlt).trans (congrArg some hget), ok_of_toOption hfs, rfl, rfl⟩

theorem System.fsCall_eq {op : FsOp} (h : S.fsCall disk op = some S') :
    ∃ fs' res, fsStep disk S.fs op = .ok (fs', res) ∧ S' = { S with fs := fs' } := by
  obtain ⟨⟨fs', res⟩, hfs, rfl⟩ := Option.map_eq_some_iff.mp h
  exact ⟨fs', res, ok_of_toOption hfs, rfl⟩

theorem onProcess_procs {st st' : FsState} {f : Process → Except Stop (Vfs × Process × Result)}
    (h : st.onProcess k f = .ok (st', res)) : ∃ p, st'.procs = st.procs.set k p := by
  rw [FsState.onProcess] at h
  split at h
  · rename_i hnone
    cases h
    exact ⟨{}, (List.set_eq_of_length_le (List.getElem?_eq_none_iff.mp hnone)).symm⟩
  · rename_i p hp
    cases hf : f p with
    | error e =>
      rw [hf] at h
      cases h
    | ok r =>
      rw [hf] at h
      cases h
      exact ⟨r.2.1, rfl⟩

theorem fsStep_procs {st st' : FsState} {op : FsOp} (hop : op.process = some k)
    (h : fsStep disk st op = .ok (st', res)) : ∃ p, st'.procs = st.procs.set k p := by
  cases op with
  | newProcess | pathnameLookup | destroyProcess => cases hop
  | «open» | close | reserve | mmap | destroyVma =>
    cases hop
    exact onProcess_procs h

theorem lookup_procs {st st' : FsState} {path : Name} {addrs : List (ℕ × ℕ)}
    (h : fsStep disk st (.pathnameLookup path addrs) = .ok (st', res)) : st'.procs = st.procs := by
  rw [fsStep] at h
  cases hl : pathnameLookup disk st.vfs path addrs with
  | error e =>
    rw [hl] at h
    cases h
  | ok r =>
    rw [hl] at h
    cases h
    rfl

theorem System.start_eq {stk addr : Option ℕ} (ho : S.objects[k]? = some o)
    (h : S.start k stk addr memory = some S') :
    ∃ b tid s', addr = some b ∧ S.sched.newThread stk (some b) memory (some o.addr) = some (s', tid) ∧
      S' = { S with
        sched := s'
        owner := update S.owner b (some o.addr)
        waiting := update S.waiting b none
        objects := S.objects.set k { o with tid := tid } } := by
  simp only [System.start, ho, Option.bind_eq_bind, Option.bind_some, Option.bind_eq_some_iff, Prod.exists] at h
  obtain ⟨s', tid, hnew, hS'⟩ := h
  cases addr with
  | none => simp [Scheduler.newThread] at hnew
  | some b => exact ⟨b, tid, s', rfl, hnew, (Option.some.inj hS').symm⟩

/-- The process that runs has the TID of the running thread. -/
theorem SystemOk.current (h : SystemOk S) (ho : o ∈ S.objects) (hcur : S.Current o) :
    ∃ a, S.sched.running = some a ∧ S.sched.tidMap.lookup o.tid = some (some a) := by
  obtain ⟨a, hrun, howner⟩ := hcur
  obtain ⟨t, ht⟩ := h.sched.running_live hrun
  obtain ⟨o', ho', haddr, htid⟩ := h.threads a t o.addr ht howner
  rw [h.eq_of_addr ho' ho haddr] at htid
  rw [htid]
  exact ⟨a, hrun, (h.lookup_tid ht).1⟩

theorem SystemOk.not_owner (h : SystemOk S) (ho : o ∈ S.objects) (htid : o.tid = invalidTID)
    (ht : S.sched.threads a = some t) : S.owner a ≠ some o.addr := by
  intro howner
  obtain ⟨o', ho', haddr, htid'⟩ := h.threads a t o.addr ht howner
  rw [h.eq_of_addr ho' ho haddr, htid] at htid'
  exact (h.lookup_tid ht).2 htid'.symm

theorem SystemOk.call (h : SystemOk S) (hfresh : c.Fresh S.sched) (hkernel : ForKernel c)
    (hcall : S.call disk c = some S') : SystemOk S' := by
  obtain ⟨s', hrun, hreach, hidle, rfl⟩ := h.call_eq hfresh hcall
  refine ⟨hreach, h.addrs, h.length, ?_, hidle⟩
  intro a t' p ht' howner
  rw [createdFor_eq_forget hkernel] at howner
  obtain ⟨howner', t, ht, htid⟩ := Call.forget_eq_some hrun ht' howner
  rw [htid]
  exact h.threads a t p ht howner'

theorem SystemOk.newProcess (h : SystemOk S) {addr : ℕ} (hfresh : ∀ o ∈ S.objects, o.addr ≠ addr) :
    SystemOk (S.newProcess addr) where
  sched := h.sched
  addrs := by
    rw [System.newProcess, List.map_append, List.nodup_append]
    simpa using ⟨h.addrs, hfresh⟩
  length := by simp [System.newProcess, h.length]
  threads := by
    intro a t p ht howner
    obtain ⟨o, ho, hop⟩ := h.threads a t p ht howner
    exact ⟨o, List.mem_append_left _ ho, hop⟩
  idle := h.idle

theorem mem_set_of_ne (ho : S.objects[k]? = some o) (ho' : o' ∈ S.objects) (hne : o' ≠ o)
    (x : ProcessObject) : o' ∈ S.objects.set k x := by
  obtain ⟨j, hj⟩ := List.mem_iff_getElem?.mp ho'
  have hjk : k ≠ j := by
    rintro rfl
    exact hne (Option.some.inj (hj.symm.trans ho))
  exact List.mem_of_getElem? ((List.getElem?_set_ne hjk).trans hj)

theorem SystemOk.start {stk addr : Option ℕ} (h : SystemOk S) (ho : S.objects[k]? = some o)
    (htid : o.tid = invalidTID) (hfresh : ∀ a, addr = some a → S.sched.threads a = none)
    (hstart : S.start k stk addr memory = some S') : SystemOk S' := by
  obtain ⟨b, tid, s', rfl, hnew, rfl⟩ := System.start_eq ho hstart
  obtain ⟨hlt, hget⟩ := List.getElem?_eq_some_iff.mp ho
  obtain ⟨t, hproc, htid', hthreads⟩ := (newThread_effect hnew).2.threads
  have hreach : Reach s' := h.sched.call (c := .newThread stk (some b) memory (some o.addr)) hfresh
    (by rw [Call.run, hnew]; rfl)
  refine ⟨hreach, ?_, ?_, ?_, ?_⟩
  · have hmap : (S.objects.set k { o with tid := tid }).map ProcessObject.addr =
        S.objects.map ProcessObject.addr := by
      have hlt' : k < (S.objects.map ProcessObject.addr).length := by simpa using hlt
      have haddr : o.addr = (S.objects.map ProcessObject.addr)[k] := by simp [hget]
      rw [List.map_set]
      rw [haddr, List.set_getElem_self]
    rw [hmap]
    exact h.addrs
  · simpa using h.length
  · intro a u p hu howner
    dsimp only at hu howner
    rw [hthreads] at hu
    by_cases hab : a = b
    · rw [hab, update_self, Option.some.injEq] at hu howner
      exact ⟨{ o with tid := tid }, List.mem_set hlt _, howner, by rw [← hu, htid']⟩
    · rw [update_of_ne hab] at hu howner
      -- the new TID is not that of another thread, because the process had none
      obtain ⟨o', ho', haddr, htid''⟩ := h.threads a u p hu howner
      have hne : o' ≠ o := by
        rintro rfl
        exact h.not_owner ho' htid hu (haddr ▸ howner)
      exact ⟨o', mem_set_of_ne ho ho' hne _, haddr, htid''⟩
  · intro a u hu
    dsimp only at hu ⊢
    rw [hthreads] at hu
    by_cases hab : a = b
    · rw [hab, update_self]
    · rw [update_of_ne hab] at hu ⊢
      exact h.idle a u hu

theorem SystemOk.fs {fs' : FsState} (h : SystemOk S)
    (hlength : fs'.procs.length = S.fs.procs.length) : SystemOk { S with fs := fs' } :=
  ⟨h.sched, h.addrs, hlength.trans h.length, h.threads, h.idle⟩

theorem SystemOk.exit (h : SystemOk S) (hrun : S.sched.running = some a)
    (hthread : S.sched.tidMap.lookup o.tid = some (some a))
    (hexit : S.exit disk o pageDirectory esp = some S') :
    SystemOk S' := by
  obtain ⟨s', hreach, hkeeps, hgone, rfl⟩ := h.exit_self hrun hthread hexit
  refine ⟨hreach, h.addrs, h.length, ?_, ?_⟩
  · intro b t' p ht' howner
    obtain ⟨t, ht, -, htid⟩ := hkeeps b t' ht'
    rw [htid]
    exact h.threads b t p ht howner
  · intro b t' ht'
    obtain ⟨t, ht, -⟩ := hkeeps b t' ht'
    exact (update_of_ne (ne_of_gone hgone ht') ..).trans (h.idle b t ht)

theorem SystemOk.step (h : SystemOk S) (hstep : Step disk S S') : SystemOk S' := by
  cases hstep with
  | call hfresh hkernel hcall => exact h.call hfresh hkernel hcall
  | newProcess hfresh => exact h.newProcess hfresh
  | start ho htid hfresh hstart => exact h.start ho htid hfresh hstart
  | lookup hlookup =>
    obtain ⟨fs', res, hfs, rfl⟩ := System.fsCall_eq hlookup
    exact h.fs (congrArg List.length (lookup_procs hfs))
  | fsCall hop ho hcaller hcall =>
    obtain ⟨fs', res, hfs, rfl⟩ := System.fsCall_eq hcall
    obtain ⟨p, hp⟩ := fsStep_procs hop hfs
    exact h.fs (by rw [hp, List.length_set])
  | exit ho hcur hexit =>
    obtain ⟨a, hrun, hthread⟩ := h.current ho hcur
    exact h.exit hrun hthread hexit

theorem SystemReach.ok (h : SystemReach disk rootCluster S) : SystemOk S := by
  induction h with
  | refl => exact .init
  | tail _ hstep ih => exact ih.step hstep

end Steps

end HmmOS.Proc
