import HmmOS.Proc.ProcessExit

/-! # What becomes of a process that exits

A process that exits while it runs is abandoned: the rest of `exit` is never executed,
and nobody else touches its files and areas.
-/
namespace HmmOS.Proc
open Fs Sched

def System.Holds (S : System) (o : ProcessObject) (P : Process) : Prop :=
  ∃ k : ℕ, S.objects[k]? = some o ∧ S.fs.procs[k]? = some P

structure Abandoned (S : System) (o : ProcessObject) (P : Process) : Prop where
  started : o.tid ≠ invalidTID
  holds : S.Holds o P
  threads : ∀ a t, S.sched.threads a = some t → S.owner a ≠ some o.addr

section Abandoned
variable {disk : Disk} {rootCluster : ℕ} {S S' : System} {o o' : ProcessObject} {P : Process}
  {c : Call} {a esp k : ℕ} {pageDirectory : ℕ → Option ℕ}

theorem Abandoned.not_current (h : Abandoned S o P) (hok : SystemOk S) : ¬ S.Current o := by
  rintro ⟨a, hrun, howner⟩
  obtain ⟨t, ht⟩ := hok.sched.running_live hrun
  exact h.threads a t ht howner

theorem System.Holds.mem (h : S.Holds o P) : o ∈ S.objects := by
  obtain ⟨k, hk, -⟩ := h
  exact List.mem_of_getElem? hk

theorem Abandoned.call (h : Abandoned S o P) (hok : SystemOk S) (hfresh : c.Fresh S.sched)
    (hkernel : ForKernel c) (hcall : S.call disk c = some S') : Abandoned S' o P := by
  obtain ⟨s', hrun, -, -, rfl⟩ := hok.call_eq hfresh hcall
  refine ⟨h.started, h.holds, ?_⟩
  intro a t' ht' howner
  rw [createdFor_eq_forget hkernel] at howner
  obtain ⟨howner', t, ht, -⟩ := Call.forget_eq_some hrun ht' howner
  exact h.threads a t ht howner'

theorem Abandoned.newProcess (h : Abandoned S o P) (addr : ℕ) : Abandoned (S.newProcess addr) o P := by
  refine ⟨h.started, ?_, h.threads⟩
  obtain ⟨k, hk, hP⟩ := h.holds
  refine ⟨k, ?_, ?_⟩
  · exact (List.getElem?_append_left (List.getElem?_eq_some_iff.mp hk).1).trans hk
  · exact (List.getElem?_append_left (List.getElem?_eq_some_iff.mp hP).1).trans hP

theorem Abandoned.start {stk addr : Option ℕ} {memory : KernelThread} (h : Abandoned S o P)
    (hok : SystemOk S) (ho' : S.objects[k]? = some o') (htid : o'.tid = invalidTID)
    (hstart : S.start k stk addr memory = some S') : Abandoned S' o P := by
  obtain ⟨b, tid, s', rfl, hnew, rfl⟩ := System.start_eq ho' hstart
  obtain ⟨t, -, -, hthreads⟩ := (newThread_effect hnew).2.threads
  -- the process that is started is another one
  have hne : o' ≠ o := by
    rintro rfl
    exact h.started htid
  refine ⟨h.started, ?_, ?_⟩
  · obtain ⟨j, hj, hP⟩ := h.holds
    have hkj : k ≠ j := by
      rintro rfl
      exact hne (Option.some.inj (ho'.symm.trans hj))
    exact ⟨j, (List.getElem?_set_ne hkj).trans hj, hP⟩
  · intro a u hu howner
    dsimp only at hu howner
    rw [hthreads] at hu
    by_cases hab : a = b
    · rw [hab, Function.update_self] at howner
      exact hne (hok.eq_of_addr (List.mem_of_getElem? ho') h.holds.mem (Option.some.inj howner))
    · rw [Function.update_of_ne hab] at hu howner
      exact h.threads a u hu howner

theorem Abandoned.fsCall {op : FsOp} {fs' : FsState} {res : Result} (h : Abandoned S o P)
    (hok : SystemOk S) (hop : op.process = some k) (ho' : S.objects[k]? = some o')
    (hcaller : o'.tid = invalidTID ∨ S.Current o') (hfs : fsStep disk S.fs op = .ok (fs', res)) :
    Abandoned { S with fs := fs' } o P := by
  obtain ⟨p, hp⟩ := fsStep_procs hop hfs
  obtain ⟨j, hj, hP⟩ := h.holds
  have hkj : k ≠ j := by
    rintro rfl
    rw [Option.some.inj (ho'.symm.trans hj)] at hcaller
    exact hcaller.elim h.started (h.not_current hok)
  refine ⟨h.started, ⟨j, hj, ?_⟩, h.threads⟩
  rw [hp, List.getElem?_set_ne hkj]
  exact hP

section
variable (h : Abandoned S o P) (hok : SystemOk S)
include h hok

theorem Abandoned.exit (ho' : o' ∈ S.objects) (hcur : S.Current o')
    (hexit : S.exit disk o' pageDirectory esp = some S') : Abandoned S' o P := by
  obtain ⟨a, hrun, hthread⟩ := hok.current ho' hcur
  obtain ⟨s', -, hkeeps, -, rfl⟩ := hok.exit_self hrun hthread hexit
  refine ⟨h.started, h.holds, ?_⟩
  intro b t' ht'
  obtain ⟨t, ht, -⟩ := hkeeps b t' ht'
  exact h.threads b t ht

theorem Abandoned.step (hstep : Step disk S S') : Abandoned S' o P := by
  cases hstep with
  | call hfresh hkernel hcall => exact h.call hok hfresh hkernel hcall
  | newProcess hfresh => exact h.newProcess _
  | start ho' htid hfresh hstart => exact h.start hok ho' htid hstart
  | lookup hlookup =>
    obtain ⟨fs', res, hfs, rfl⟩ := System.fsCall_eq hlookup
    refine ⟨h.started, ?_, h.threads⟩
    rw [System.Holds, lookup_procs hfs]
    exact h.holds
  | fsCall hop ho' hcaller hcall =>
    obtain ⟨fs', res, hfs, rfl⟩ := System.fsCall_eq hcall
    exact h.fsCall hok hop ho' hcaller hfs
  | exit ho' hcur hexit => exact h.exit hok ho' hcur hexit

/-- Nothing that happens later deletes an abandoned process or changes its files and areas. -/
theorem Abandoned.later (hlater : Later disk S S') : SystemOk S' ∧ Abandoned S' o P := by
  induction hlater with
  | refl => exact ⟨hok, h⟩
  | tail _ hstep ih => exact ⟨ih.1.step hstep, ih.2.step ih.1 hstep⟩

end

theorem SystemOk.abandoned (hok : SystemOk S) (hrun : S.sched.running = some a)
    (hthread : S.sched.tidMap.lookup o.tid = some (some a)) (hholds : S.Holds o P)
    (hexit : S.exit disk o pageDirectory esp = some S') : Abandoned S' o P := by
  have hstarted : o.tid ≠ invalidTID := by
    intro htid
    rw [System.exit, if_pos htid] at hexit
    cases hexit
  obtain ⟨s', -, hkeeps, hgone, rfl⟩ := hok.exit_self hrun hthread hexit
  refine ⟨hstarted, hholds, ?_⟩
  intro b t' ht' howner
  obtain ⟨t, ht, -⟩ := hkeeps b t' ht'
  -- two threads of one process would have the same TID
  obtain ⟨o', ho', haddr, htid⟩ := hok.threads b t o.addr ht howner
  rw [hok.eq_of_addr ho' hholds.mem haddr] at htid
  have hlook := (hok.lookup_tid ht).1
  rw [← htid, hthread] at hlook
  exact ne_of_gone hgone ht' (Option.some.inj (Option.some.inj hlook)).symm

/-- At some later time the process is gone, deleted once, and the counts are those of the processes that
remain. -/
def Released (disk : Disk) (rootCluster : ℕ) (S S' : System) (o : ProcessObject) : Prop :=
  ∃ S'', Later disk S' S'' ∧ S''.deleted.count o.addr = S.deleted.count o.addr + 1 ∧
    (∀ o' ∈ S''.objects, o'.addr ≠ o.addr) ∧
    (FsReach disk rootCluster S.fs → ReferencesExact S''.fs)

theorem Abandoned.not_released {S0 : System} (h : Abandoned S' o P) (hok : SystemOk S') :
    ¬ Released disk rootCluster S0 S' o := by
  rintro ⟨S'', hlater, -, hgone, -⟩
  exact hgone o (h.later hok hlater).2.holds.mem rfl

theorem SystemOk.released (hok : SystemOk S) (ho : o ∈ S.objects) (hrun : S.sched.running ≠ some a)
    (hthread : S.sched.tidMap.lookup o.tid = some (some a))
    (hexit : S.exit disk o pageDirectory esp = some S') :
    Released disk rootCluster S S' o := by
  obtain ⟨k, res, hk, hfs, hobjects, hdeleted⟩ := hok.exit_other ho hrun hthread hexit
  refine ⟨S', .refl, ?_, ?_, ?_⟩
  · rw [hdeleted, List.count_cons_self]
  · intro o' ho' haddr
    rw [hobjects, List.mem_eraseIdx_iff_getElem?] at ho'
    obtain ⟨j, hjk, hj⟩ := ho'
    rw [hok.eq_of_addr (List.mem_of_getElem? hj) ho haddr] at hj
    have hlt := (List.getElem?_eq_some_iff.mp hj).1
    exact hjk ((List.getElem?_inj hlt (.of_map _ hok.addrs)).mp (hj.trans hk.symm))
  · intro hreach
    exact (references_exact (hreach.step hfs nofun)).1

/-- A process that calls `exit` is released if and only if its thread is not the one that runs; otherwise
the object stays for good. -/
theorem exit_releases_iff (h : SystemReach disk rootCluster S) (hholds : S.Holds o P)
    (hthread : S.sched.tidMap.lookup o.tid = some (some a))
    (hexit : S.exit disk o pageDirectory esp = some S') :
    (Released disk rootCluster S S' o ↔ S.sched.running ≠ some a) ∧
      (S.sched.running = some a → ∀ S'', Later disk S' S'' → S''.Holds o P) := by
  have hok := SystemReach.ok h
  refine ⟨⟨?_, ?_⟩, ?_⟩
  · intro hreleased hrun
    have habandoned := hok.abandoned hrun hthread hholds hexit
    exact habandoned.not_released (hok.exit hrun hthread hexit) hreleased
  · intro hrun
    exact hok.released hholds.mem hrun hthread hexit
  · intro hrun S'' hlater
    have habandoned := hok.abandoned hrun hthread hholds hexit
    exact (habandoned.later (hok.exit hrun hthread hexit) hlater).2.holds

end Abandoned

def fileBooted : System :=
  ((System.init 2).call oneFile (.bootstrap (some 0x1000) ⟨0, true, 0, none⟩)).get (by decide +kernel)

def fileOpened : System :=
  ((fileBooted.newProcess 0x9000).fsCall oneFile (.open 0 "/A".toList [(5, 5), (1, 1)])).get
    (by decide +kernel)

def fileStarted : System :=
  (fileOpened.start 0 (some 0x2000) (some 0x3000) ⟨0, true, 0, none⟩).get (by decide +kernel)

def fileRunning : System :=
  (fileStarted.call oneFile (.schedule ⟨fun _ => some 0xC0001000, some 0x0F00⟩)).get (by decide +kernel)

theorem fileStarted_reach : SystemReach oneFile 2 fileStarted := by
  have hbooted : Step oneFile (System.init 2) fileBooted :=
    .call (c := .bootstrap (some 0x1000) ⟨0, true, 0, none⟩) (fun _ _ => rfl) trivial
      (Option.some_get _).symm
  have hnew : Step oneFile fileBooted (fileBooted.newProcess 0x9000) :=
    .newProcess (by decide +kernel)
  have hopened : Step oneFile (fileBooted.newProcess 0x9000) fileOpened :=
    .fsCall (k := 0) (o := ⟨0x9000, invalidTID⟩) rfl (by decide +kernel) (.inl rfl)
      (Option.some_get _).symm
  have hstarted : Step oneFile fileOpened fileStarted :=
    .start (k := 0) (o := ⟨0x9000, invalidTID⟩) (by decide +kernel) rfl
      (by rintro a ⟨⟩; decide +kernel) (Option.some_get _).symm
  exact ((((Relation.ReflTransGen.refl.tail hbooted).tail hnew).tail hopened).tail hstarted)

theorem fileRunning_reach : SystemReach oneFile 2 fileRunning :=
  fileStarted_reach.tail
    (.call (c := .schedule ⟨fun _ => some 0xC0001000, some 0x0F00⟩) trivial trivial (Option.some_get _).symm)

/-- The first thread may end the process before it runs. -/
theorem fileStarted_releases :
    ∃ S', fileStarted.exit oneFile ⟨0x9000, 1⟩ (fun _ => none) 0 = some S' ∧
      Released oneFile 2 fileStarted S' ⟨0x9000, 1⟩ := by
  have hsome : (fileStarted.exit oneFile ⟨0x9000, 1⟩ (fun _ => none) 0).isSome := by decide +kernel
  have hexit := (Option.some_get hsome).symm
  have hprocess : Option.isSome fileStarted.fs.procs[0]? := by decide +kernel
  have hiff := exit_releases_iff (a := 0x3000) fileStarted_reach
    ⟨0, by decide +kernel, (Option.some_get hprocess).symm⟩ (by decide +kernel) hexit
  exact ⟨_, hexit, hiff.1.mpr (by decide +kernel)⟩

def fileExited : System :=
  (fileRunning.exit oneFile ⟨0x9000, 1⟩ (fun _ => none) 0x2F00).get (by decide +kernel)

def fileProcess : Process := (fileRunning.fs.procs[0]?).get (by decide +kernel)

/-- The thread of the process is deleted, but the file stays open for good and keeps its reference to
the dentry. -/
theorem fileExited_leaks :
    fileRunning.exit oneFile ⟨0x9000, 1⟩ (fun _ => none) 0x2F00 = some fileExited ∧
      fileExited.sched.threads 0x3000 = none ∧
      (fileExited.fs.vfs.dentries 1).map Dentry.rc = some 1 ∧
      ¬ Released oneFile 2 fileRunning fileExited ⟨0x9000, 1⟩ ∧
      fileProcess.fileRefs 1 = 1 ∧
      ∀ S'', Later oneFile fileExited S'' → S''.Holds ⟨0x9000, 1⟩ fileProcess := by
  have hexit : fileRunning.exit oneFile ⟨0x9000, 1⟩ (fun _ => none) 0x2F00 = some fileExited :=
    (Option.some_get _).symm
  have hok := SystemReach.ok fileRunning_reach
  have hrun : fileRunning.sched.running = some 0x3000 := by decide +kernel
  have hthread : fileRunning.sched.tidMap.lookup 1 = some (some 0x3000) := by decide +kernel
  have hok' := hok.exit (o := ⟨0x9000, 1⟩) hrun hthread hexit
  have habandoned := hok.abandoned (o := ⟨0x9000, 1⟩) (P := fileProcess) hrun hthread
    ⟨0, by decide +kernel, by decide +kernel⟩ hexit
  refine ⟨hexit, by decide +kernel, by decide +kernel, habandoned.not_released hok',
    by decide +kernel, ?_⟩
  intro S'' hlater
  exact (habandoned.later hok' hlater).2.holds

end HmmOS.Proc
