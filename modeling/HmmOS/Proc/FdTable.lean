import HmmOS.Fs.LookupReturns
import HmmOS.Fs.ReadCorrect
import HmmOS.Proc.Elf
import HmmOS.Proc.RefCounts
import Mathlib.Order.Bounds.Basic

/-! # The descriptor table

A call changes at most the entry it is for: `open` the smallest free one, the others
that of their descriptor.
-/
namespace HmmOS.Proc
open Fs Lib Nonstd Process

inductive FdCall where
  | open (path : PathString) (addrs : List (ℕ × ℕ))
  | close (fd : ℕ)
  | read (fd : ℕ) (buf : Bytes) (count : ℕ)
  | lseek (fd : ℕ) (offset : ℤ) (whence : Seek)

inductive FdAnswer where
  | opened (fd : Except Result ℕ)
  | closed (res : Result)
  | got (rval : Except Result ℕ)
  | sought (res : Result)
  deriving DecidableEq

def FdCall.fd? : FdCall → Option ℕ
  | .open _ _ => none
  | .close fd => some fd
  | .read fd _ _ => some fd
  | .lseek fd _ _ => some fd

section Calls
variable (disk : Disk) (fs : Filesystem) (dev : Bytes)

def FdCall.run (s : Vfs) (p : Process) : FdCall → Except Stop (Vfs × Process × FdAnswer)
  | .open path addrs => do
    let (s, p, fd) ← p.open disk s path.chars addrs
    return (s, p, .opened fd)
  | .close fd => do
    let (s, p, res) ← p.close s fd
    return (s, p, .closed res)
  | .read fd buf count => do
    let (p, _, rval) ← p.read fs dev s fd buf count
    return (s, p, .got rval)
  | .lseek fd offset whence =>
    let (p, res) := p.lseek fd offset whence
    return (s, p, .sought res)

/-- The heap has room for what a call may create. -/
def FdCall.HeapOk (s : Vfs) : FdCall → Prop
  | .open path addrs => HeapFor s path addrs
  | _ => True

/-- A run of calls that all return, with what they return. The length of the vector is a 32-bit
number. -/
inductive FdRun : Vfs → Process → List (FdCall × FdAnswer) → Vfs → Process → Prop
  | nil {s : Vfs} {p : Process} : FdRun s p [] s p
  | cons {s s1 s' : Vfs} {p p1 p' : Process} {c : FdCall} {a : FdAnswer}
      {log : List (FdCall × FdAnswer)} (hheap : c.HeapOk s)
      (hrun : c.run disk fs dev s p = .ok (s1, p1, a)) (hlen : p1.fds.data.length < 2 ^ 32)
      (hrest : FdRun s1 p1 log s' p') : FdRun s p ((c, a) :: log) s' p'

end Calls

/-- The descriptor was closed, and no later `open` has returned it. -/
def ClosedSince (fd : ℕ) (log : List (FdCall × FdAnswer)) : Prop :=
  ∃ before after, log = before ++ (.close fd, .closed .Ok) :: after ∧
    ∀ e ∈ after, e.2 ≠ .opened (.ok fd)

/-- The dentry is still there, for the same name and inode. -/
def SameDentry (s s' : Vfs) (d : ℕ) : Prop :=
  ∀ e, s.dentries d = some e → ∃ e', s'.dentries d = some e' ∧ e'.inode = e.inode ∧
    e'.parent = e.parent ∧ e'.component = e.component

variable {disk : Disk} {rootCluster : ℕ} {fs : Filesystem} {dev : Bytes} {s s' : Vfs}
  {p p' : Process} {base : ℕ → ℕ} {fd k : ℕ}

theorem Process.file_setFile_of_ne (hk : k ≠ fd) (g : Option File) : (p.setFile fd g).file k = p.file k := by
  simp [file, setFile, hk.symm]

theorem Process.file_setFile_none (fd : ℕ) : (p.setFile fd none).file fd = none := by
  simp only [file, setFile, List.getElem?_set, if_true]
  split_ifs <;> rfl

/-- At most the position of one open file is different. -/
def Process.Moved (fd : ℕ) (p p' : Process) : Prop :=
  p' = p ∨ ∃ f o, p.file fd = some f ∧ p' = p.setFile fd (some { f with offset := o })

theorem Process.lseek_moved {offset : ℤ} {whence : Seek} {res : Result}
    (h : p.lseek fd offset whence = (p', res)) : Process.Moved fd p p' := by
  rw [lseek] at h
  cases hf : p.file fd with
  | none =>
    rw [hf] at h
    exact .inl (Prod.mk.inj h).1.symm
  | some f =>
    rw [hf] at h
    cases whence with
    | End => exact .inl (Prod.mk.inj h).1.symm
    | _ =>
      dsimp only at h
      split_ifs at h
      · exact .inl (Prod.mk.inj h).1.symm
      · exact .inr ⟨f, _, hf, (Prod.mk.inj h).1.symm⟩

theorem Process.read_moved {fs : Filesystem} {dev buf buf' : Bytes} {count : ℕ} {r : Except Result ℕ}
    (h : p.read fs dev s fd buf count = .ok (p', buf', r)) : Process.Moved fd p p' := by
  rw [read] at h
  cases hf : p.file fd with
  | none =>
    rw [hf] at h
    cases h
    exact .inl rfl
  | some f =>
    rw [hf] at h
    dsimp only at h
    split at h
    · cases h
    · split at h
      · cases h
      · cases h
        exact .inl rfl
      · split_ifs at h
        cases h
        exact .inr ⟨f, _, hf, rfl⟩

theorem Process.Moved.file (h : Process.Moved fd p p') (hk : p'.file k ≠ p.file k) :
    k = fd ∧ p.file k ≠ none := by
  rcases h with rfl | ⟨f, o, hf, rfl⟩
  · exact absurd rfl hk
  · by_cases hkfd : k = fd
    · rw [hkfd, hf]
      exact ⟨rfl, Option.some_ne_none f⟩
    · exact absurd (file_setFile_of_ne hkfd _) hk

theorem Process.Moved.refs_eq (h : Process.Moved fd p p') : withBase p' base = withBase p base := by
  rcases h with rfl | ⟨f, o, hf, rfl⟩
  · rfl
  · funext d
    have hfd : p.fds.data[fd]? = some (some f) := Option.join_eq_some_iff.mp hf
    have hrefs := setFile_refs (g := some { f with offset := o }) hfd d
    rw [withBase, withBase, Nat.add_right_cancel hrefs]

section Step
variable {path : PathString} {addrs : List (ℕ × ℕ)}

theorem Process.open_of_lookup {s1 : Vfs} {d : ℕ} {ext : ℕ → ℕ} (hok : VfsOk s1 ext ∅)
    (hlook : pathnameLookup disk s path.chars addrs = .ok (s1, some d)) {e : Dentry}
    (he : s1.dentries d = some e) : ∃ s' p' fd, p.open disk s path.chars addrs = .ok (s', p', .ok fd) ∧
      Dentry.incRc s1 d = .ok s' ∧ IsLeast {k | p.file k = none} fd ∧
      p'.file fd = some { dentry := some d } ∧ (∀ k, k ≠ fd → p'.file k = p.file k) ∧
      Function.update (withBase p base) d (withBase p base d + 1) = withBase p' base := by
  rcases p.getNextFd_spec s1 with ⟨p1, fd, hfd, hvmas, hnone, hrefs, hfile, hbefore⟩
  rcases Dentry.incRc_spec hok he with ⟨s', hs', -⟩
  rcases List.getElem?_eq_some_iff.mp hnone with ⟨hlt, -⟩
  refine ⟨s', p1.setFile fd (some { dentry := some d }), fd, ?_, hs', ⟨?_, ?_⟩, ?_, ?_, ?_⟩
  · rw [Process.open, hlook, ok_bind]
    dsimp only
    rw [hfd, ok_bind]
    rw [hs']
    rfl
  · rw [Set.mem_ofPred_eq, ← hfile, Process.file, hnone]
    rfl
  · intro k hk
    by_contra hlt
    exact hbefore k (not_le.mp hlt) hk
  · simp [Process.file, Process.setFile, hlt]
  · intro k hk
    rw [Process.file_setFile_of_ne hk, hfile]
  · exact withBase_open hvmas hnone hrefs d

/-- The new state is reachable, a changed entry is the new one or that of the call, and the dentries that
are still used stay. -/
structure Stepped (disk : Disk) (rootCluster : ℕ) (base : ℕ → ℕ) (s : Vfs) (p : Process) (c : FdCall)
    (a : FdAnswer) (s' : Vfs) (p' : Process) : Prop where
  reach : DcacheReach disk rootCluster s' (withBase p' base)
  changed : ∀ k, p'.file k ≠ p.file k →
    (p.file k = none ∧ a = .opened (.ok k)) ∨ (p.file k ≠ none ∧ c.fd? = some k)
  dentries : ∀ d, 0 < p'.refs d → SameDentry s s' d

theorem Process.Moved.stepped (h : DcacheReach disk rootCluster s (withBase p base))
    (hm : Process.Moved fd p p') {c : FdCall} (hc : c.fd? = some fd) (a : FdAnswer) :
    Stepped disk rootCluster base s p c a s p' where
  reach := hm.refs_eq.symm ▸ h
  changed := by
    intro k hk
    rcases hm.file hk with ⟨rfl, hopen⟩
    exact .inr ⟨hopen, hc⟩
  dentries := fun d _ => (Extends.refl s).dentries d

theorem Process.open_stepped (h : DcacheReach disk rootCluster s (withBase p base))
    (hheap : HeapFor s path addrs) {r : Except Result ℕ}
    (hopen : p.open disk s path.chars addrs = .ok (s', p', r)) :
    Stepped disk rootCluster base s p (.open path addrs) (.opened r) s' p' := by
  rcases bind_eq_ok hopen with ⟨⟨s1, dentry⟩, hlook, -⟩
  have hdesc := (h.returns_iff hheap).mp ⟨s1, dentry, hlook⟩
  rcases h.resolves hheap hdesc with ⟨s2, dentry2, hlook2, hreach, hcre, -⟩
  rw [hlook] at hlook2
  cases hlook2
  cases dentry with
  | none =>
    rw [Process.open, hlook] at hopen
    cases hopen
    exact ⟨hreach, fun k hk => absurd rfl hk, fun d _ => hcre.dentries d⟩
  | some d =>
    rcases (pathnameLookup_spec h.consistent.1 path.chars addrs).ok hlook with ⟨hok, hlive⟩
    rcases hlive d rfl with ⟨e, he⟩
    obtain ⟨s2, p2, fd, hopen2, hinc, hleast, -, hother, hrefs⟩ :=
      @Process.open_of_lookup disk s p base path addrs s1 d _ hok hlook e he
    rw [hopen] at hopen2
    cases hopen2
    refine ⟨hrefs ▸ hreach.incRc hinc, ?_, ?_⟩
    · intro k hk
      by_cases hkfd : k = fd
      · rw [hkfd]
        exact .inl ⟨hleast.1, rfl⟩
      · exact absurd (hother k hkfd) hk
    · intro d' _
      exact (hcre.toExtends.trans (Dentry.extends_incRc hinc)).dentries d'

theorem withBase_close {f : File} {d : ℕ} (hf : p.file fd = some f) (hd : f.dentry = some d) :
    Function.update (withBase p base) d (withBase p base d - 1) = withBase (p.setFile fd none) base := by
  funext x
  have hx := setFile_refs (g := none) (Option.join_eq_some_iff.mp hf) x
  grind

section
variable (h : DcacheReach disk rootCluster s (withBase p base))
include h

theorem Process.close_stepped {res : Result} (hclose : p.close s fd = .ok (s', p', res)) :
    Stepped disk rootCluster base s p (.close fd) (.closed res) s' p' := by
  rw [close] at hclose
  cases hf : p.file fd with
  | none =>
    rw [hf] at hclose
    cases hclose
    exact ⟨h, fun k hk => absurd rfl hk, fun d _ => (Extends.refl s).dentries d⟩
  | some f =>
    rw [hf] at hclose
    rcases bind_eq_ok hclose with ⟨s1, hdrop, hclose⟩
    cases hclose
    have hchanged : ∀ k, (p.setFile fd none).file k ≠ p.file k →
        (p.file k = none ∧ FdAnswer.closed .Ok = .opened (.ok k)) ∨
          (p.file k ≠ none ∧ (FdCall.close fd).fd? = some k) := by
      intro k hk
      by_cases hkfd : k = fd
      · rw [hkfd, hf]
        exact .inr ⟨Option.some_ne_none f, rfl⟩
      · exact absurd (file_setFile_of_ne hkfd _) hk
    cases hd : f.dentry with
    | none =>
      rw [hd] at hdrop
      cases hdrop
      have hrefs : withBase (p.setFile fd none) base = withBase p base := by
        funext x
        have hx := setFile_refs (g := none) (Option.join_eq_some_iff.mp hf) x
        simpa [hd, withBase] using hx
      exact ⟨hrefs ▸ h, hchanged, fun d _ => (Extends.refl s).dentries d⟩
    | some d =>
      rw [hd] at hdrop
      have hpos : 0 < withBase p base d := Nat.add_pos_left (refs_pos hf hd) _
      have hreach := h.decRc hpos hdrop
      rw [withBase_close hf hd] at hreach
      refine ⟨hreach, hchanged, fun d' hd' e he => ?_⟩
      -- a dentry that is used is not deleted, and nothing else about it changes
      rcases hreach.consistent.1.dentries.ext_live d' (Nat.add_pos_left hd' _) with ⟨e', he'⟩
      rcases (Dentry.decRc_extends hdrop).dentries d' e' he' with ⟨e0, he0, hi, hp, hc⟩
      rw [he, Option.some.injEq] at he0
      rw [he0]
      exact ⟨e', he', hi.symm, hp.symm, hc.symm⟩

theorem FdCall.run_stepped {c : FdCall} {a : FdAnswer} (hheap : c.HeapOk s)
    (hrun : c.run disk fs dev s p = .ok (s', p', a)) : Stepped disk rootCluster base s p c a s' p' := by
  cases c with
  | «open» path addrs =>
    rcases bind_eq_ok hrun with ⟨⟨s1, p1, fd⟩, hopen, hrun⟩
    cases hrun
    exact open_stepped h hheap hopen
  | close fd =>
    rcases bind_eq_ok hrun with ⟨⟨s1, p1, res⟩, hclose, hrun⟩
    cases hrun
    exact close_stepped h hclose
  | read fd buf count =>
    rcases bind_eq_ok hrun with ⟨⟨p1, buf1, rval⟩, hread, hrun⟩
    cases hrun
    exact (read_moved hread).stepped h rfl _
  | lseek fd offset whence =>
    cases hrun
    exact (lseek_moved rfl).stepped h rfl _

theorem Process.close_open {f : File} (hf : p.file fd = some f) :
    ∃ s', p.close s fd = .ok (s', p.setFile fd none, .Ok) := by
  obtain ⟨s', hdrop⟩ : ∃ s', dropRef s f.dentry = .ok s' := by
    cases hd : f.dentry with
    | none => exact ⟨s, rfl⟩
    | some d =>
      have hpos : 0 < withBase p base d := Nat.add_pos_left (refs_pos hf hd) _
      rcases Dentry.decRc_spec h.consistent.1 hpos with ⟨s', hs', -⟩
      exact ⟨s', hs'⟩
  refine ⟨s', ?_⟩
  rw [close, hf]
  dsimp only
  rw [hdrop]
  rfl

end

theorem Process.close_badFD (hf : p.file fd = none) : p.close s fd = .ok (s, p, .BadFD) := by
  rw [close, hf]
  rfl

theorem Process.read_badFD (hf : p.file fd = none) (buf : Bytes) (count : ℕ) :
    p.read fs dev s fd buf count = .ok (p, buf, .error .BadFD) := by
  rw [read, hf]
  rfl

theorem Process.lseek_badFD (hf : p.file fd = none) (offset : ℤ) (whence : Seek) :
    p.lseek fd offset whence = (p, .BadFD) := by
  rw [lseek, hf]

theorem Process.mmap_badFD (hf : p.file fd = none) (hfd : fd ≠ invalidFD) (addr length : ℕ)
    (prot : Access) (flags : Flags) (offset : ℕ) :
    p.mmap s addr length prot flags fd offset = .ok (s, p, .error .BadFD) := by
  have hdentry : p.mmapDentry fd = .error .BadFD := by rw [mmapDentry, if_neg hfd, hf]
  rw [mmap, hdentry]
  rfl

end Step

section Runs
variable {log : List (FdCall × FdAnswer)}

section
variable (h : DcacheReach disk rootCluster s (withBase p base))
  (hrun : FdRun disk fs dev s p log s' p')
include h hrun

theorem FdRun.reach : DcacheReach disk rootCluster s' (withBase p' base) := by
  induction hrun with
  | nil => exact h
  | cons hheap hc hlen _ ih => exact ih (FdCall.run_stepped h hheap hc).reach

/-- A run that no call of which is given an open descriptor keeps its file. -/
theorem FdRun.keeps {f : File} (hf : p.file k = some f) (hlog : ∀ e ∈ log, e.1.fd? ≠ some k) :
    p'.file k = some f ∧ ∀ d, f.dentry = some d → SameDentry s s' d := by
  induction hrun with
  | nil => exact ⟨hf, fun d _ e he => ⟨e, he, rfl, rfl, rfl⟩⟩
  | @cons s s1 s' p p1 p' c a log hheap hc hlen _ ih =>
    have hstep := FdCall.run_stepped h hheap hc
    have hf1 : p1.file k = some f := by
      rw [← hf]
      by_contra hne
      rcases hstep.changed k hne with ⟨hnone, -⟩ | ⟨-, hfd⟩
      · rw [hf] at hnone
        cases hnone
      · exact hlog (c, a) List.mem_cons_self hfd
    rcases ih hstep.reach hf1 fun e he => hlog e (List.mem_cons_of_mem _ he) with ⟨hf', hsame'⟩
    refine ⟨hf', fun d hd e he => ?_⟩
    rcases hstep.dentries d (refs_pos hf1 hd) e he with ⟨e1, he1, hi1, hp1, hc1⟩
    rcases hsame' d hd e1 he1 with ⟨e', he', hi', hp', hc'⟩
    exact ⟨e', he', hi'.trans hi1, hp'.trans hp1, hc'.trans hc1⟩

/-- A descriptor that is not open stays so until it is returned. -/
theorem FdRun.stays_closed (hf : p.file k = none) (hlog : ∀ e ∈ log, e.2 ≠ .opened (.ok k)) :
    p'.file k = none := by
  induction hrun with
  | nil => exact hf
  | @cons s s1 s' p p1 p' c a log hheap hc hlen _ ih =>
    have hstep := FdCall.run_stepped h hheap hc
    apply ih hstep.reach
    · rw [← hf]
      by_contra hne
      rcases hstep.changed k hne with ⟨-, ha⟩ | ⟨hopen, -⟩
      · exact hlog (c, a) List.mem_cons_self ha
      · exact hopen hf
    · intro e he
      exact hlog e (List.mem_cons_of_mem _ he)

end

theorem FdRun.of_append {log1 log2 : List (FdCall × FdAnswer)}
    (hrun : FdRun disk fs dev s p (log1 ++ log2) s' p') :
    ∃ s1 p1, FdRun disk fs dev s p log1 s1 p1 ∧ FdRun disk fs dev s1 p1 log2 s' p' := by
  induction log1 generalizing s p with
  | nil => exact ⟨s, p, .nil, hrun⟩
  | cons e log1 ih =>
    cases hrun with
    | cons hheap hc hlen hrest =>
      rcases ih hrest with ⟨s1, p1, h1, h2⟩
      exact ⟨s1, p1, .cons hheap hc hlen h1, h2⟩

/-- A descriptor that was closed is not open, and is not the one for anonymous mappings. -/
theorem FdRun.closed (h : DcacheReach disk rootCluster s (withBase p base))
    (hrun : FdRun disk fs dev s p log s' p') (hclosed : ClosedSince fd log) :
    p'.file fd = none ∧ fd ≠ invalidFD := by
  rcases hclosed with ⟨before, after, rfl, hafter⟩
  rcases hrun.of_append with ⟨s1, p1, h1, h2⟩
  cases h2 with
  | @cons _ s2 _ _ p2 _ _ _ _ hheap hc hlen hrest =>
    have hreach := FdRun.reach h h1
    have hstep := FdCall.run_stepped hreach hheap hc
    rcases bind_eq_ok hc with ⟨⟨s3, p3, res⟩, hclose, hc⟩
    cases hc
    cases hf : p1.file fd with
    | none =>
      rw [close_badFD hf] at hclose
      cases hclose
    | some f =>
      rcases close_open hreach hf with ⟨s4, hclose4⟩
      rw [hclose] at hclose4
      cases hclose4
      have hlt : fd < p1.fds.data.length :=
        (List.getElem?_eq_some_iff.mp (Option.join_eq_some_iff.mp hf)).1
      have hsame : (p1.setFile fd none).fds.data.length = p1.fds.data.length := by
        simp [setFile]
      refine ⟨FdRun.stays_closed hstep.reach hrest (file_setFile_none fd) hafter, ?_⟩
      rw [invalidFD]
      omega

/-- A path that is found gets the smallest free descriptor, exactly the open descriptors can be closed,
and a file that no call was given is as it was. -/
theorem fdTable_correct {s0 : Vfs} {p0 : Process}
    (h : DcacheReach disk rootCluster s0 (withBase p0 base))
    (hrun : FdRun disk fs dev s0 p0 log s p) :
    (∀ (path : PathString) addrs s1 d,
      pathnameLookup disk s path.chars addrs = .ok (s1, some d) →
      ∃ s' p' fd, p.open disk s path.chars addrs = .ok (s', p', .ok fd) ∧
        IsLeast {k | p.file k = none} fd ∧ p'.file fd = some { dentry := some d }) ∧
    (∀ path addrs l, HeapFor s path addrs →
      Place.Descends disk rootCluster s.kind [] (names path.chars) →
      resolve disk rootCluster path.chars = some l →
      ∃ s1 d, pathnameLookup disk s path.chars addrs = .ok (s1, some d) ∧ Locates s1 d l) ∧
    (∀ fd, (∃ s' p', p.close s fd = .ok (s', p', .Ok)) ↔ p.file fd ≠ none) ∧
    (∀ k f, p0.file k = some f → (∀ e ∈ log, e.1.fd? ≠ some k) →
      p.file k = some f ∧ ∀ d, f.dentry = some d → SameDentry s0 s d) ∧
    ∀ fd, ClosedSince fd log →
      p.close s fd = .ok (s, p, .BadFD) ∧
      (∀ buf count, p.read fs dev s fd buf count = .ok (p, buf, .error .BadFD)) ∧
      (∀ offset whence, p.lseek fd offset whence = (p, .BadFD)) ∧
      ∀ addr length prot flags offset,
        p.mmap s addr length prot flags fd offset = .ok (s, p, .error .BadFD) := by
  have hreach := FdRun.reach h hrun
  refine ⟨?_, ?_, ?_, fun k f hf hlog => FdRun.keeps h hrun hf hlog, ?_⟩
  · intro path addrs s1 d hlook
    rcases (pathnameLookup_spec hreach.consistent.1 path.chars addrs).ok hlook with ⟨hok, hlive⟩
    rcases hlive d rfl with ⟨e, he⟩
    obtain ⟨s', p', fd, hopen, -, hleast, hfd, -⟩ :=
      @Process.open_of_lookup disk s p base path addrs s1 d _ hok hlook e he
    exact ⟨s', p', fd, hopen, hleast, hfd⟩
  · intro path addrs l hheap hdesc hres
    rcases hreach.resolves hheap hdesc with ⟨s1, dentry, hlook, -, -, hfound⟩
    rw [hres] at hfound
    rcases hfound with ⟨d, rfl, hloc⟩
    exact ⟨s1, d, hlook, hloc⟩
  · intro fd
    constructor
    · rintro ⟨s', p', hclose⟩ hf
      rw [close_badFD hf] at hclose
      cases hclose
    · intro hf
      rcases Option.ne_none_iff_exists'.mp hf with ⟨f, hf⟩
      rcases close_open hreach hf with ⟨s', hclose⟩
      exact ⟨s', _, hclose⟩
  · intro fd hclosed
    rcases FdRun.closed h hrun hclosed with ⟨hf, hne⟩
    exact ⟨close_badFD hf, read_badFD hf, lseek_badFD hf,
      mmap_badFD hf hne⟩

end Runs

def oneFilePath : PathString := ⟨"/A".toList, by decide, by decide⟩

/-- A new process opens the file twice, so that the table grows with the first file in it, and
closes the first descriptor. -/
def openOnce : Vfs × Process × FdAnswer :=
  (FdCall.run oneFile twoClusters twoClustersDev (Vfs.init 2) {}
    (.open oneFilePath [(5, 5), (1, 1)])).toOption.get (by decide +kernel)

def openTwice : Vfs × Process × FdAnswer :=
  (FdCall.run oneFile twoClusters twoClustersDev openOnce.1 openOnce.2.1
    (.open oneFilePath [(6, 6), (2, 2)])).toOption.get (by decide +kernel)

def closeFirst : Vfs × Process × FdAnswer :=
  (FdCall.run oneFile twoClusters twoClustersDev openTwice.1 openTwice.2.1
    (.close 0)).toOption.get (by decide +kernel)

def oneFileLog : List (FdCall × FdAnswer) :=
  [(.open oneFilePath [(5, 5), (1, 1)], openOnce.2.2),
   (.open oneFilePath [(6, 6), (2, 2)], openTwice.2.2), (.close 0, closeFirst.2.2)]

/-- The second file has the descriptor 1 and stays there; the descriptor 0 is rejected. -/
theorem fdTable_oneFile :
    openTwice.2.2 = .opened (.ok 1) ∧
    closeFirst.2.1.file 1 = some { dentry := some 1 } ∧
    closeFirst.2.1.lseek 0 5 .Set = (closeFirst.2.1, .BadFD) := by
  have hrun : FdRun oneFile twoClusters twoClustersDev (Vfs.init 2) {} oneFileLog
      closeFirst.1 closeFirst.2.1 := by
    apply @FdRun.cons _ _ _ _ openOnce.1 _ _ openOnce.2.1
    · exact ⟨⟨by decide +kernel, by decide +kernel, by decide +kernel, by decide +kernel⟩,
        by decide +kernel⟩
    · exact eq_ok_get (by decide +kernel)
    · decide +kernel
    apply @FdRun.cons _ _ _ _ openTwice.1 _ _ openTwice.2.1
    · exact ⟨⟨by decide +kernel, by decide +kernel, by decide +kernel, by decide +kernel⟩,
        by decide +kernel⟩
    · exact eq_ok_get (by decide +kernel)
    · decide +kernel
    apply @FdRun.cons _ _ _ _ closeFirst.1 _ _ closeFirst.2.1
    · trivial
    · exact eq_ok_get (by decide +kernel)
    · decide +kernel
    exact .nil
  have hclosed : ClosedSince 0 oneFileLog := by
    refine ⟨oneFileLog.take 2, [], ?_, fun e he => absurd he List.not_mem_nil⟩
    have hanswer : closeFirst.2.2 = .closed .Ok := by decide +kernel
    rw [oneFileLog, hanswer]
    rfl
  have hinit : DcacheReach oneFile 2 (Vfs.init 2) (withBase {} fun _ => 0) := .init
  rcases fdTable_correct hinit hrun with ⟨-, -, -, -, hrejected⟩
  exact ⟨by decide +kernel, by decide +kernel, (hrejected 0 hclosed).2.2.1 5 .Set⟩

end HmmOS.Proc
