import HmmOS.Fs.VfsCounts
import HmmOS.Proc.Process
import Mathlib.Algebra.BigOperators.Group.List.Basic
import Mathlib.Data.List.Perm.Basic

/-! # Dentries and inodes live as long as something refers to them

Any number of processes open and close files, map and unmap them, and end.
-/
namespace HmmOS.Proc
open Fs Lib Function Process

def Process.fileRefs (p : Process) (d : ℕ) : ℕ :=
  (p.fds.data.map fun f => f.bind File.dentry).count (some d)

def Process.vmaRefs (p : Process) (d : ℕ) : ℕ :=
  (p.vmas.map VirtualMemoryArea.dentry).count (some d)

def Process.refs (p : Process) (d : ℕ) : ℕ := p.fileRefs d + p.vmaRefs d

def resultOf {α : Type} : Except Result α → Result
  | .ok _ => .Ok
  | .error res => res

variable {s : Vfs} {ext base : ℕ → ℕ} {disk : Disk} {p : Process}

section Drop
variable {d : ℕ}

theorem dropRef_spec {r : Option ℕ} (h : VfsOk s ext ∅) (hext : ∀ d, ext d = base d + [r].count (some d)) :
    ∃ s', dropRef s r = .ok s' ∧ VfsOk s' base ∅ := by
  cases r with
  | none =>
    have heq : ext = base := funext fun d => (hext d).trans (by simp)
    exact ⟨s, rfl, heq ▸ h⟩
  | some d =>
    obtain ⟨s', hs', hok⟩ := Dentry.decRc_spec h (d := d) (by rw [hext d]; simp)
    have heq : update ext d (ext d - 1) = base := by
      funext x
      by_cases hx : x = d
      · rw [hx, update_self, hext d]
        simp
      · rw [update_of_ne hx, hext x, List.count_singleton]
        simp [Ne.symm hx]
    exact ⟨s', hs', heq ▸ hok⟩

theorem dropRefs_spec {rs : List (Option ℕ)} (h : VfsOk s ext ∅)
    (hext : ∀ d, ext d = base d + rs.count (some d)) : ∃ s', dropRefs s rs = .ok s' ∧ VfsOk s' base ∅ := by
  induction rs generalizing s ext with
  | nil =>
    have heq : ext = base := funext fun d => (hext d).trans (by simp)
    exact ⟨s, rfl, heq ▸ h⟩
  | cons r rs ih =>
    obtain ⟨s', hs', hok⟩ := @dropRef_spec s ext (fun d => base d + rs.count (some d)) r h
      (fun d => by rw [hext d, List.count_cons, List.count_singleton]; omega)
    obtain ⟨s'', hs'', hok'⟩ := ih hok fun _ => rfl
    exact ⟨s'', by rw [dropRefs, hs', ok_bind, hs''], hok'⟩

end Drop

section Process
variable {fd : ℕ}

theorem relocate_eq (s : Vfs) (fs : List (Option File)) : relocate s fs = .ok (s, fs) := by
  induction fs with
  | nil => rfl
  | cons f fs ih =>
    have hold : (f.map fun f => f.move.2).bind File.dentry = none := by cases f <;> rfl
    have hnew : (f.map fun f => f.move.1) = f := by cases f <;> rfl
    rw [relocate]
    rw [hold, hnew, dropRef]
    change (relocate s fs >>= _) = _
    rw [ih]
    rfl

theorem FdVector.reserve_spec (s : Vfs) (v : FdVector) (c : ℕ) :
    ∃ capacity, v.reserve s c = .ok (s, { v with capacity := capacity }) := by
  rw [FdVector.reserve]
  split_ifs with hc
  · exact ⟨v.capacity, rfl⟩
  · exact ⟨_, by rw [relocate_eq, ok_bind]; rfl⟩

/-- The smallest free descriptor; the table grows if there is none. -/
theorem Process.getNextFd_spec (s : Vfs) (p : Process) :
    ∃ p' fd, p.getNextFd s = .ok (s, p', fd) ∧ p'.vmas = p.vmas ∧
      p'.fds.data[fd]? = some none ∧ (∀ d, p'.fileRefs d = p.fileRefs d) ∧
      (∀ k, p'.file k = p.file k) ∧ ∀ k < fd, p.file k ≠ none := by
  rw [getNextFd]
  split
  · rename_i fd hfd
    obtain ⟨hlt, hnone, hbefore⟩ := List.findIdx?_eq_some_iff_getElem.mp hfd
    refine ⟨p, fd, rfl, rfl, ?_, fun _ => rfl, fun _ => rfl, fun k hk => ?_⟩
    · rw [List.getElem?_eq_getElem hlt, Option.isNone_iff_eq_none.mp hnone]
    · have hkn := hbefore k hk
      rw [file, List.getElem?_eq_getElem (hk.trans hlt)]
      simpa using hkn
  · rename_i hfull
    obtain ⟨capacity, hres⟩ := p.fds.reserve_spec s (p.fds.data.length + 1)
    refine ⟨{ p with fds := ⟨p.fds.data ++ [none], capacity⟩ }, p.fds.data.length, ?_, rfl, ?_, ?_, ?_, ?_⟩
    · rw [FdVector.emplaceBack, hres]
      simp [pure, Except.pure]
    · simp
    · intro d
      simp [fileRefs]
    · intro k
      simp only [file, List.getElem?_append, List.getElem?_singleton]
      split_ifs with hk hzero
      · rfl
      · rw [List.getElem?_eq_none (not_lt.mp hk)]
        rfl
      · rw [List.getElem?_eq_none (not_lt.mp hk)]
    · intro k hk
      have hkn := List.findIdx?_eq_none_iff.mp hfull _ (List.getElem_mem hk)
      rw [file, List.getElem?_eq_getElem hk]
      simpa [Option.isSome_iff_ne_none] using hkn

theorem Process.setFile_refs {f g : Option File} (hfd : p.fds.data[fd]? = some f) (d : ℕ) :
    (p.setFile fd g).refs d + [f.bind File.dentry].count (some d) =
      p.refs d + [g.bind File.dentry].count (some d) := by
  obtain ⟨hlt, hget⟩ := List.getElem?_eq_some_iff.mp hfd
  have hset := ((List.set_perm_cons_eraseIdx hlt g).map fun f => f.bind File.dentry).count_eq (some d)
  have hold := ((List.getElem_cons_eraseIdx_perm hlt).map fun f => f.bind File.dentry).count_eq
    (some d)
  rw [hget] at hold
  simp only [List.map_cons, List.count_cons] at hset hold
  simp only [refs, fileRefs, vmaRefs, setFile, List.count_singleton]
  omega

/-- The references that `p` and everything else hold. -/
abbrev withBase (p : Process) (base : ℕ → ℕ) (d : ℕ) : ℕ := p.refs d + base d

theorem withBase_open {p' : Process} (hvmas : p'.vmas = p.vmas)
    (hnone : p'.fds.data[fd]? = some none) (hrefs : ∀ d, p'.fileRefs d = p.fileRefs d) (d : ℕ) :
    update (withBase p base) d (withBase p base d + 1) =
      withBase (p'.setFile fd (some { dentry := some d })) base := by
  funext x
  have hx := setFile_refs (g := some { dentry := some d }) hnone x
  have hp : p'.refs x = p.refs x := by
    rw [refs, refs, hrefs, vmaRefs, vmaRefs, hvmas]
  grind

theorem Process.open_spec (h : VfsOk s (withBase p base) ∅) (path : Name) (addrs : List (ℕ × ℕ)) :
    Ensures Benign (p.open disk s path addrs) fun r => VfsOk r.1 (withBase r.2.1 base) ∅ := by
  refine (pathnameLookup_spec h path addrs).bind ?_
  rintro ⟨s', dentry⟩ ⟨hok, hlive⟩
  cases dentry with
  | none => exact .pure hok
  | some d =>
    obtain ⟨e, he⟩ := hlive d rfl
    obtain ⟨p', fd, hfd, hvmas, hnone, hrefs, -⟩ := p.getNextFd_spec s'
    obtain ⟨s'', hs'', hok'⟩ := Dentry.incRc_spec hok he
    dsimp only
    rw [hfd, ok_bind, hs'']
    exact .pure (withBase_open hvmas hnone hrefs d ▸ hok')

theorem Process.close_spec (h : VfsOk s (withBase p base) ∅) (fd : ℕ) :
    Ensures Benign (p.close s fd) fun r => VfsOk r.1 (withBase r.2.1 base) ∅ := by
  rw [close]
  split
  · exact .pure h
  · rename_i f hf
    have hfd : p.fds.data[fd]? = some (some f) := Option.join_eq_some_iff.mp hf
    obtain ⟨s', hs', hok⟩ := @dropRef_spec s _ (withBase (p.setFile fd none) base) f.dentry h
      fun d => by
        have hd := setFile_refs (g := none) hfd d
        grind
    rw [hs', ok_bind]
    exact .pure hok

theorem findGap_le {addr length k : ℕ} {vmas : List VirtualMemoryArea}
    (h : findGap addr length vmas = some k) : k ≤ vmas.length := by
  induction vmas generalizing k with
  | nil =>
    rw [findGap, Option.some.injEq] at h
    exact h ▸ le_rfl
  | cons it vmas ih =>
    rw [findGap] at h
    split_ifs at h with hov hlt
    · exact Option.some.inj h ▸ Nat.zero_le _
    · obtain ⟨j, hj, rfl⟩ := Option.map_eq_some_iff.mp h
      exact Nat.succ_le_succ (ih hj)

theorem Process.mmapDentry_error {res : Result} (h : p.mmapDentry fd = .error res) : res = .BadFD := by
  rw [mmapDentry] at h
  split_ifs at h
  split at h
  · exact (Except.error.inj h).symm
  · cases h

theorem Process.refs_pos {d : ℕ} {f : File} (hf : p.file fd = some f) (hd : f.dentry = some d) :
    0 < p.refs d := by
  have hget : p.fds.data[fd]? = some (some f) := Option.join_eq_some_iff.mp hf
  have hmem : some d ∈ p.fds.data.map fun f => f.bind File.dentry :=
    List.mem_map.mpr ⟨some f, List.mem_of_getElem? hget, hd⟩
  exact Nat.add_pos_left (List.count_pos_iff.mpr hmem) _

theorem Process.mmapDentry_refs {d : ℕ} (h : p.mmapDentry fd = .ok (some d)) : 0 < p.refs d := by
  rw [mmapDentry] at h
  split_ifs at h with hfd
  · cases h
  · split at h
    · cases h
    · rename_i f hf
      exact refs_pos hf (Except.ok.inj h)

theorem takeRef_spec {ext' : ℕ → ℕ} {r : Option ℕ} (h : VfsOk s ext ∅) (hlive : ∀ d, r = some d → 0 < ext d)
    (hext : ∀ d, ext' d = ext d + [r].count (some d)) : ∃ s', takeRef s r = .ok s' ∧ VfsOk s' ext' ∅ := by
  cases r with
  | none =>
    have heq : ext' = ext := funext fun d => (hext d).trans (by simp)
    exact ⟨s, rfl, heq ▸ h⟩
  | some d =>
    obtain ⟨e, he⟩ := h.dentries.ext_live d (hlive d rfl)
    obtain ⟨s', hs', hok⟩ := Dentry.incRc_spec h he
    have heq : update ext d (ext d + 1) = ext' := by
      funext x
      grind
    exact ⟨s', hs', heq ▸ hok⟩

/-- An area that is refused drops a reference that it did not take: that of the file, so that no
assertion fails yet. -/
theorem Process.mmap_spec (h : VfsOk s (withBase p base) ∅) (addr length : ℕ) (prot : Access)
    (flags : Flags) (fd offset : ℕ) :
    Ensures Benign (p.mmap s addr length prot flags fd offset) fun r =>
      resultOf r.2.2 = .Ok → VfsOk r.1 (withBase r.2.1 base) ∅ := by
  rw [mmap]
  split
  · rename_i res hres
    rw [mmapDentry_error hres]
    exact .pure fun hok => by cases hok
  · rename_i dentry hdentry
    have hlive : ∀ d, dentry = some d → 0 < withBase p base d := by
      rintro d rfl
      exact Nat.add_pos_left (mmapDentry_refs hdentry) _
    split
    · exact .pure fun hok => by cases hok
    · rename_i k hk
      generalize hv : (⟨addr, length, prot, flags, dentry, offset⟩ : VirtualMemoryArea) = vma
      have hvd : vma.dentry = dentry := hv ▸ rfl
      dsimp only
      rw [VirtualMemoryArea.construct, hvd]
      split_ifs with hcheck
      · have hperm := (List.perm_insertIdx vma p.vmas (findGap_le hk)).map VirtualMemoryArea.dentry
        obtain ⟨s', hs', hok⟩ := @takeRef_spec s _
          (withBase { p with vmas := p.vmas.insertIdx k vma } base) dentry h hlive fun d => by
            have hd := hperm.count_eq (some d)
            simp only [List.map_cons, List.count_cons, hvd] at hd
            simp only [withBase, refs, fileRefs, vmaRefs, List.count_singleton, hd]
            omega
        rw [hs', ok_bind]
        exact .pure fun _ => hok
      · simp only [pure_bind, if_pos hcheck]
        refine .bind (P := fun _ => True) ?_ fun s' _ => .pure fun hok => absurd hok hcheck
        cases dentry with
        | none => exact .pure trivial
        | some d =>
          obtain ⟨s', hs', -⟩ := Dentry.decRc_spec h (hlive d rfl)
          exact .of_ok ⟨s', hs', trivial⟩

theorem Process.destroyVma_spec (h : VfsOk s (withBase p base) ∅) (k : ℕ) :
    Ensures Benign (p.destroyVma s k) fun r => VfsOk r.1 (withBase r.2 base) ∅ := by
  rw [destroyVma]
  split
  · exact .pure h
  · rename_i v hv
    obtain ⟨hlt, hget⟩ := List.getElem?_eq_some_iff.mp hv
    have hperm := (List.getElem_cons_eraseIdx_perm hlt).map VirtualMemoryArea.dentry
    rw [hget] at hperm
    obtain ⟨s', hs', hok⟩ := @dropRef_spec s _
      (withBase { p with vmas := p.vmas.eraseIdx k } base) v.dentry h fun d => by
        have hd := hperm.count_eq (some d)
        simp only [List.map_cons, List.count_cons] at hd
        simp only [withBase, refs, fileRefs, vmaRefs, List.count_singleton, ← hd]
        omega
    rw [hs', ok_bind]
    exact .pure hok

theorem Process.destroy_spec (h : VfsOk s (withBase p base) ∅) :
    Ensures Benign (p.destroy s) fun s' => VfsOk s' base ∅ := by
  obtain ⟨s', hs', hok⟩ := @dropRefs_spec s _ (fun d => p.fileRefs d + base d) _ h fun d => by
    exact Nat.add_right_comm _ _ _
  obtain ⟨s'', hs'', hok'⟩ := @dropRefs_spec s' _ base _ hok fun d => Nat.add_comm _ _
  rw [destroy, hs', ok_bind]
  exact .of_ok ⟨s'', hs'', hok'⟩

end Process

structure FsState where
  vfs : Vfs
  procs : List Process

inductive FsOp where
  | newProcess
  | pathnameLookup (path : Name) (addrs : List (ℕ × ℕ))
  | open (k : ℕ) (path : Name) (addrs : List (ℕ × ℕ))
  | close (k fd : ℕ)
  /-- Growth of a descriptor table. -/
  | reserve (k capacity : ℕ)
  | mmap (k addr length : ℕ) (prot : Access) (flags : Flags) (fd offset : ℕ)
  | destroyVma (k i : ℕ)
  | destroyProcess (k : ℕ)

def FsOp.isMmap : FsOp → Bool
  | .mmap .. => true
  | _ => false

/-- Run a call of process `k`, if there is such a process. -/
def FsState.onProcess (st : FsState) (k : ℕ)
    (f : Process → Except Stop (Vfs × Process × Result)) : Except Stop (FsState × Result) :=
  match st.procs[k]? with
  | none => return (st, .Ok)
  | some p => do
    let (s, p, res) ← f p
    return (⟨s, st.procs.set k p⟩, res)

def fsStep (disk : Disk) (st : FsState) : FsOp → Except Stop (FsState × Result)
  | .newProcess => return (⟨st.vfs, st.procs ++ [{}]⟩, .Ok)
  | .pathnameLookup path addrs => do
    let (s, _) ← pathnameLookup disk st.vfs path addrs
    return (⟨s, st.procs⟩, .Ok)
  | .open k path addrs => st.onProcess k fun p => do
    let (s, p, fd) ← p.open disk st.vfs path addrs
    return (s, p, resultOf fd)
  | .close k fd => st.onProcess k fun p => p.close st.vfs fd
  | .reserve k capacity => st.onProcess k fun p => do
    let (s, fds) ← p.fds.reserve st.vfs capacity
    return (s, { p with fds := fds }, .Ok)
  | .mmap k addr length prot flags fd offset => st.onProcess k fun p => do
    let (s, p, a) ← p.mmap st.vfs addr length prot flags fd offset
    return (s, p, resultOf a)
  | .destroyVma k i => st.onProcess k fun p => do
    let (s, p) ← p.destroyVma st.vfs i
    return (s, p, .Ok)
  | .destroyProcess k => match st.procs[k]? with
    | none => return (st, .Ok)
    | some p => do
      let s ← p.destroy st.vfs
      return (⟨s, st.procs.eraseIdx k⟩, .Ok)

/-- The states that calls can reach from a freshly mounted volume; `mmap` is among them when it
succeeds. -/
inductive FsReach (disk : Disk) (rootCluster : ℕ) : FsState → Prop
  | init : FsReach disk rootCluster ⟨Vfs.init rootCluster, []⟩
  | step {st st' : FsState} {op : FsOp} {res : Result} (hr : FsReach disk rootCluster st)
      (hs : fsStep disk st op = .ok (st', res)) (hok : op.isMmap = true → res = .Ok) :
      FsReach disk rootCluster st'

/-- The open files, of all processes, that refer to `d`. -/
def FsState.fileRefs (st : FsState) (d : ℕ) : ℕ := (st.procs.map fun p => p.fileRefs d).sum

/-- The mappings, of all processes, that refer to `d`. -/
def FsState.vmaRefs (st : FsState) (d : ℕ) : ℕ := (st.procs.map fun p => p.vmaRefs d).sum

/-- The counts are exact, the maps hold exactly the live objects, and no reference dangles. -/
structure ReferencesExact (st : FsState) : Prop where
  dentry_rc : ∀ d e, st.vfs.dentries d = some e → ∃ n, Counts n (childrenOf st.vfs.dentries d) ∧
    e.rc = n + st.fileRefs d + st.vmaRefs d + if d = st.vfs.root then 1 else 0
  inode_rc : ∀ i n, st.vfs.inodes i = some n → Counts n.rc (naming st.vfs.dentries i)
  dcache : ∀ p c d, st.vfs.dcache (p, c) = some d ↔
    ∃ e, st.vfs.dentries d = some e ∧ d ≠ st.vfs.root ∧ e.parent = some p ∧ e.component = c
  clusters : ∀ c i, st.vfs.startClusterToInode c = some i ↔
    ∃ n, st.vfs.inodes i = some n ∧ n.startCluster = c
  root_live : ∃ e, st.vfs.dentries st.vfs.root = some e
  parent_live : ∀ d e, st.vfs.dentries d = some e → d ≠ st.vfs.root →
    ∃ p ep, e.parent = some p ∧ st.vfs.dentries p = some ep
  inode_live : ∀ d e, st.vfs.dentries d = some e → ∃ n, st.vfs.inodes e.inode = some n
  refs_live : ∀ d, 0 < st.fileRefs d + st.vmaRefs d → ∃ e, st.vfs.dentries d = some e

def allRefs (procs : List Process) (d : ℕ) : ℕ := (procs.map fun p => p.refs d).sum

section Runs
variable {rootCluster : ℕ} {st st' : FsState} {k : ℕ}

theorem total_eq (procs : List Process) (hk : procs[k]? = some p) :
    allRefs procs = withBase p (allRefs (procs.eraseIdx k)) := by
  funext d
  obtain ⟨hlt, hget⟩ := List.getElem?_eq_some_iff.mp hk
  have hperm := ((List.getElem_cons_eraseIdx_perm hlt).map fun p => p.refs d).sum_eq
  rw [hget, List.map_cons, List.sum_cons] at hperm
  exact hperm.symm

theorem total_set (procs : List Process) (hk : procs[k]? = some p) (p' : Process) :
    allRefs (procs.set k p') = withBase p' (allRefs (procs.eraseIdx k)) := by
  funext d
  obtain ⟨hlt, -⟩ := List.getElem?_eq_some_iff.mp hk
  have hperm := ((List.set_perm_cons_eraseIdx hlt p').map fun p => p.refs d).sum_eq
  rwa [List.map_cons, List.sum_cons] at hperm

/-- A call of one process keeps the counts if it does so with the other references as a base. -/
theorem onProcess_spec {f : Process → Except Stop (Vfs × Process × Result)}
    (h : VfsOk st.vfs (allRefs st.procs) ∅) (Q : Result → Prop) (hf : ∀ p base, VfsOk st.vfs (withBase p base) ∅ →
      Ensures Benign (f p) fun r => Q r.2.2 → VfsOk r.1 (withBase r.2.1 base) ∅) :
    Ensures Benign (st.onProcess k f) fun r => Q r.2 → VfsOk r.1.vfs (allRefs r.1.procs) ∅ := by
  rw [FsState.onProcess]
  split
  · exact .pure fun _ => h
  · rename_i p hp
    rw [total_eq st.procs hp] at h
    refine (hf p _ h).bind ?_
    rintro ⟨s, p', res⟩ hok
    refine .pure fun hq => ?_
    rw [total_set st.procs hp]
    exact hok hq

/-- One call: it stops for a benign reason only, and keeps the counts. -/
theorem fsStep_spec (h : VfsOk st.vfs (allRefs st.procs) ∅) (op : FsOp) :
    Ensures Benign (fsStep disk st op) fun r =>
      (op.isMmap = true → r.2 = .Ok) → VfsOk r.1.vfs (allRefs r.1.procs) ∅ := by
  cases op with
  | newProcess =>
    have heq : allRefs (st.procs ++ [({} : Process)]) = allRefs st.procs := by
      funext d
      simp [allRefs, refs, fileRefs, vmaRefs]
    refine .pure fun _ => ?_
    rw [heq]
    exact h
  | pathnameLookup path addrs =>
    refine (pathnameLookup_spec h path addrs).bind ?_
    rintro ⟨s, d⟩ ⟨hok, -⟩
    exact .pure fun _ => hok
  | «open» k path addrs =>
    refine onProcess_spec h (fun res => _ → res = .Ok) fun p base hp =>
      (open_spec hp path addrs).bind ?_
    rintro ⟨s, p', fd⟩ hok
    exact .pure fun _ => hok
  | close k fd =>
    exact onProcess_spec h (fun res => _ → res = .Ok) fun p base hp =>
      (close_spec hp fd).mono fun r hr _ => hr
  | reserve k capacity =>
    refine onProcess_spec h (fun res => _ → res = .Ok) fun p base hp => ?_
    obtain ⟨c, hc⟩ := p.fds.reserve_spec st.vfs capacity
    rw [hc, ok_bind]
    exact .pure fun _ => hp
  | mmap k addr length prot flags fd offset =>
    refine onProcess_spec h (fun res => _ → res = .Ok) fun p base hp =>
      (mmap_spec hp addr length prot flags fd offset).bind ?_
    rintro ⟨s, p', a⟩ hok
    exact .pure fun hres => hok (hres rfl)
  | destroyVma k i =>
    refine onProcess_spec h (fun res => _ → res = .Ok) fun p base hp =>
      (destroyVma_spec hp i).bind ?_
    rintro ⟨s, p'⟩ hok
    exact .pure fun _ => hok
  | destroyProcess k =>
    rw [fsStep]
    split
    · exact .pure fun _ => h
    · rename_i p hp
      rw [total_eq st.procs hp] at h
      refine (destroy_spec h).bind fun s hok => ?_
      exact .pure fun _ => hok

theorem FsReach.vfsOk (h : FsReach disk rootCluster st) : VfsOk st.vfs (allRefs st.procs) ∅ := by
  induction h with
  | init => exact vfsInit_ok rootCluster
  | step hr hs hok ih => exact (fsStep_spec ih _).ok hs hok

/-- The counts are exact, the maps hold exactly the live objects, and the next call stops neither at an
assertion nor at a deleted object. -/
theorem references_exact (h : FsReach disk rootCluster st) :
    ReferencesExact st ∧ ∀ op e, fsStep disk st op = .error e → e ≠ .assertion ∧ e ≠ .dangling := by
  have hok := h.vfsOk
  have htotal : ∀ d, allRefs st.procs d = st.fileRefs d + st.vmaRefs d := fun d => List.sum_map_add
  refine ⟨⟨?_, fun _ _ => hok.inodes.rc, ?_, fun _ _ => hok.inodes.clusters.find, ?_, ?_, ?_, ?_⟩, ?_⟩
  · intro d e he
    refine ⟨e.children.length, ?_, ?_⟩
    · have hset : childrenOf st.vfs.dentries d = {c | c ∈ e.children} :=
        Set.ext fun c => (hok.dentries.children d e he c).symm
      rw [hset]
      exact Counts.of_nodup (hok.dentries.nodup d e he)
    · rw [hok.dentries.rc d e he, htotal, Nat.add_assoc _ (st.fileRefs d)]
  · intro p c d
    rw [hok.dentries.cached p c d]
    constructor
    · rintro (⟨e, he, hp, hc⟩ | hstale)
      · refine ⟨e, he, fun hroot => ?_, hp, hc⟩
        obtain ⟨e', he', hnone⟩ := hok.dentries.rooted
        rw [← hroot, he, Option.some.injEq] at he'
        rw [he', hnone] at hp
        cases hp
      · cases hstale
    · rintro ⟨e, he, -, hp, hc⟩
      exact .inl ⟨e, he, hp, hc⟩
  · obtain ⟨e, he, -⟩ := hok.dentries.rooted
    exact ⟨e, he⟩
  · intro d e he hroot
    cases hp : e.parent with
    | none => exact absurd (hok.dentries.orphan d e he hp) hroot
    | some p =>
      obtain ⟨ep, hep, -⟩ := hok.dentries.parent d e p he hp
      exact ⟨p, ep, rfl, hep⟩
  · intro d e he
    exact hok.inodes.live ⟨d, e, he, rfl⟩
  · intro d hd
    exact hok.dentries.ext_live d (htotal d ▸ hd)
  · intro op e he
    rcases (fsStep_spec hok op).error he with rfl | rfl
    · exact ⟨by decide, by decide⟩
    · exact ⟨by decide, by decide⟩

end Runs

def oneFile : Disk := fun cluster name =>
  if cluster = 2 ∧ name = "A          ".toList then some (some ⟨0, 3, 10, false⟩) else some none

def oneFileOpen : FsState × Result :=
  (fsStep oneFile ⟨Vfs.init 2, [{}]⟩ (.open 0 "/A".toList [(5, 5), (1, 1)])).toOption.get
    (by decide +kernel)

def oneFileMapped : FsState × Result :=
  (fsStep oneFile oneFileOpen.1
    (.mmap 0 0x1000 10 { readable := true } { mapPrivate := true } 0 0)).toOption.get
    (by decide +kernel)

/-- The file is open once and mapped once, so its dentry has two references. -/
theorem references_exact_oneFile :
    (oneFileMapped.1.vfs.dentries 1).map Dentry.rc = some 2 ∧ ReferencesExact oneFileMapped.1 := by
  have hopen : FsReach oneFile 2 oneFileOpen.1 :=
    @FsReach.step oneFile 2 _ _ (.open 0 "/A".toList [(5, 5), (1, 1)]) _
      (@FsReach.step oneFile 2 _ _ .newProcess _ .init rfl (by decide))
      (eq_ok_get (by decide +kernel)) (by decide)
  have hmap : FsReach oneFile 2 oneFileMapped.1 :=
    @FsReach.step oneFile 2 _ _
      (.mmap 0 0x1000 10 { readable := true } { mapPrivate := true } 0 0) _ hopen
      (eq_ok_get (by decide +kernel)) (fun _ => by decide +kernel)
  exact ⟨by decide +kernel, (references_exact hmap).1⟩

end HmmOS.Proc
