import HmmOS.Proc.Mmap
import HmmOS.Proc.RefCounts
import HmmOS.Fs.DcacheReach

/-! # What a refused mapping leaves behind

`mmap` builds the area in the list before it knows whether the arguments are valid. An
invalid one is erased, and its destructor drops a reference that was never taken.
-/
namespace HmmOS.Proc
open Fs Lib Util.Algorithm

/-- The reference count of a dentry, if it is alive. -/
def dentryRc (s : Vfs) (d : ℕ) : Option ℕ := (s.dentries d).map Dentry.rc

structure Untouched (s s' : Vfs) (p p' : Process) : Prop where
  vmas : p'.vmas = p.vmas
  fds : p'.fds = p.fds
  rc : ∀ d, dentryRc s' d = dentryRc s d

def OpenFile (p : Process) (fd : ℕ) : Prop :=
  fd ≠ invalidFD ∧ ∃ f d, p.file fd = some f ∧ f.dentry = some d

/-- The range overlaps with an area that no area above the range comes before. -/
def OverlapsBelow (vmas : List VirtualMemoryArea) (addr length : ℕ) : Prop :=
  ∃ before v after, vmas = before ++ v :: after ∧ (∀ w ∈ before, w.addr ≤ addr) ∧
    rangeOverlaps2 32 addr length v.addr v.len false = true

section Drop
variable {s s' : Vfs} {d : ℕ}

/-- A reference that is dropped is missing: the count is smaller or the dentry is gone. -/
theorem dentryRc_decRc_ne (h : Dentry.decRc s d = .ok s') : dentryRc s' d ≠ dentryRc s d := by
  obtain ⟨e0, -, h⟩ := bind_eq_ok h
  obtain ⟨e, he, ⟨hrc, rfl⟩ | hx⟩ := Dentry.decRcAux_cases h
  · have hnew : (s.setDentry d { e with rc := e.rc - 1 }).dentries d = some { e with rc := e.rc - 1 } :=
      Function.update_self ..
    rw [dentryRc, dentryRc, he, hnew, Option.map_some, Option.map_some]
    intro heq
    have := Option.some.inj heq
    dsimp only at this
    omega
  · have hgone : s'.dentries d = none := by
      cases hd : s'.dentries d with
      | none => rfl
      | some e' =>
        obtain ⟨e0, he0, -⟩ := hx.dentries d e' hd
        rw [Vfs.freeDentry] at he0
        exact absurd he0 (by simp)
    rw [dentryRc, dentryRc, hgone, he]
    exact (Option.some_ne_none _).symm

end Drop

section Errors
variable {s s' : Vfs} {p p' : Process} {addr length fd offset : ℕ} {prot : Access} {flags : Flags}
  {res : Result}

theorem findGap_eq_none_iff {vmas : List VirtualMemoryArea} :
    findGap addr length vmas = none ↔ OverlapsBelow vmas addr length := by
  induction vmas with
  | nil =>
    constructor
    · intro h
      cases h
    · rintro ⟨before, v, after, h, -⟩
      exact absurd h (by simp)
  | cons it vmas ih =>
    rw [findGap]
    by_cases hov : rangeOverlaps2 32 addr length it.addr it.len false = true
    · rw [if_pos hov]
      exact iff_of_true rfl ⟨[], it, vmas, rfl, by simp, hov⟩
    · rw [if_neg hov]
      by_cases habove : it.addr > addr
      · rw [if_pos habove]
        apply iff_of_false (Option.some_ne_none _)
        rintro ⟨before, v, after, h, hbefore, hv⟩
        cases before with
        | nil =>
          cases h
          exact hov hv
        | cons w before =>
          cases h
          exact absurd (hbefore it (by simp)) (Nat.not_le.mpr habove)
      · rw [if_neg habove, Option.map_eq_none_iff, ih]
        constructor
        · rintro ⟨before, v, after, rfl, hbefore, hv⟩
          refine ⟨it :: before, v, after, rfl, ?_, hv⟩
          intro w hw
          rcases List.mem_cons.mp hw with rfl | hw
          · exact Nat.le_of_not_lt habove
          · exact hbefore w hw
        · rintro ⟨before, v, after, h, hbefore, hv⟩
          cases before with
          | nil =>
            cases h
            exact absurd hv hov
          | cons w before =>
            cases h
            exact ⟨before, v, after, rfl, fun w hw => hbefore w (by simp [hw]), hv⟩

theorem openFile_iff : OpenFile p fd ↔ ∃ d, p.mmapDentry fd = .ok (some d) := by
  rw [OpenFile, Process.mmapDentry]
  by_cases hfd : fd = invalidFD
  · rw [if_pos hfd]
    exact iff_of_false (fun h => h.1 hfd) (by simp)
  · rw [if_neg hfd]
    cases hf : p.file fd with
    | none => exact iff_of_false (by simp) (by simp)
    | some f =>
      constructor
      · rintro ⟨-, f', d, hf', hd⟩
        cases hf'
        exact ⟨d, by simp [hd]⟩
      · rintro ⟨d, hd⟩
        exact ⟨hfd, f, d, rfl, by simpa using hd⟩

/-- A call that fails has found no open file or an overlap and done nothing, or it has dropped a
reference to the dentry of its descriptor. -/
theorem Process.mmap_error_cases (h : p.mmap s addr length prot flags fd offset = .ok (s', p', .error res)) :
    p' = p ∧ ((s' = s ∧ (¬ OpenFile p fd ∨ OverlapsBelow p.vmas addr length)) ∨
      ((∃ d, p.mmapDentry fd = .ok (some d) ∧ Dentry.decRc s d = .ok s') ∧
        ¬ OverlapsBelow p.vmas addr length)) := by
  rw [openFile_iff, ← findGap_eq_none_iff]
  rw [Process.mmap] at h
  cases hd : p.mmapDentry fd with
  | error e =>
    rw [hd] at h
    cases h
    exact ⟨rfl, .inl ⟨rfl, .inl (by simp)⟩⟩
  | ok dentry =>
    rw [hd] at h
    dsimp only at h
    cases hk : findGap addr length p.vmas with
    | none =>
      rw [hk] at h
      cases h
      exact ⟨rfl, .inl ⟨rfl, .inr rfl⟩⟩
    | some k =>
      rw [hk] at h
      obtain ⟨⟨s1, r⟩, hconstruct, h⟩ := bind_eq_ok h
      rw [VirtualMemoryArea.construct] at hconstruct
      split_ifs at hconstruct with hcheck
      · -- the constructor has accepted the area, so the call succeeds
        obtain ⟨s2, -, hr⟩ := bind_eq_ok hconstruct
        cases hr
        cases h
      · cases hconstruct
        rw [if_pos hcheck] at h
        obtain ⟨s2, hdrop, h⟩ := bind_eq_ok h
        rw [List.eraseIdx_insertIdx_self] at h
        cases h
        refine ⟨rfl, ?_⟩
        cases dentry with
        | none =>
          cases hdrop
          exact .inl ⟨rfl, .inl (by simp)⟩
        | some d => exact .inr ⟨⟨d, rfl, hdrop⟩, Option.some_ne_none k⟩

/-- A call that fails changes nothing just when its descriptor is not that of an open file or its range
overlaps with an area. -/
theorem Process.mmap_error_untouched_iff
    (h : p.mmap s addr length prot flags fd offset = .ok (s', p', .error res)) :
    Untouched s s' p p' ↔ ¬ OpenFile p fd ∨ OverlapsBelow p.vmas addr length := by
  obtain ⟨rfl, ⟨rfl, hcond⟩ | ⟨⟨d, hd, hdrop⟩, hgap⟩⟩ := Process.mmap_error_cases h
  · exact iff_of_true ⟨rfl, rfl, fun _ => rfl⟩ hcond
  · apply iff_of_false
    · intro hsame
      exact dentryRc_decRc_ne hdrop (hsame.rc d)
    · rintro (hclosed | hoverlap)
      · exact hclosed (openFile_iff.mpr ⟨d, hd⟩)
      · exact hgap hoverlap

/-- An anonymous mapping at an unaligned address is refused without a trace. -/
theorem Process.mmap_unaligned_untouched :
    ∃ s' p', Process.mmap (Vfs.init 2) {} 0x1001 10 {} { mapAnon := true } invalidFD 0 =
        .ok (s', p', .error .InvalidArgs) ∧ Untouched (Vfs.init 2) s' {} p' := by
  have hcall : Process.mmap (Vfs.init 2) {} 0x1001 10 {} { mapAnon := true } invalidFD 0 =
      .ok (Vfs.init 2, {}, .error .InvalidArgs) := rfl
  refine ⟨Vfs.init 2, {}, hcall, ?_⟩
  apply (Process.mmap_error_untouched_iff hcall).mpr
  exact .inl fun hopen => hopen.1 rfl

end Errors

/-- A process that has opened a file asks for a mapping of it at an unaligned address. -/
def mapUnaligned : Except Stop (Vfs × Process × Except Result ℕ) :=
  (oneFileOpen.1.procs.headD {}).mmap oneFileOpen.1.vfs 0x1001 10 { readable := true }
    { mapPrivate := true } 0 0

/-- The call is refused. The dentry of the file is deleted, and the open file still refers to it. -/
theorem mapUnaligned_drops :
    dentryRc oneFileOpen.1.vfs 1 = some 1 ∧
      mapUnaligned.toOption.map (fun r => resultOf r.2.2) = some .InvalidArgs ∧
      mapUnaligned.toOption.map (fun r => dentryRc r.1 1) = some none ∧
      mapUnaligned.toOption.map (fun r => r.2.1.file 0) = some (some { dentry := some 1 }) := by
  refine ⟨by decide +kernel, by decide +kernel, by decide +kernel, by decide +kernel⟩

end HmmOS.Proc
