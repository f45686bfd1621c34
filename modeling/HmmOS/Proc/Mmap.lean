import HmmOS.Proc.Process
import HmmOS.Lib.IntervalList
import HmmOS.Lib.Outcome

/-! # The mappings of a process are sorted and disjoint

`mmap` checks for overlaps and finds the place of a new area in one scan that stops at
the first larger address.
-/
namespace HmmOS.Proc
open Fs Lib Lib.IntervalList Util.Algorithm VirtualMemoryArea

def VirtualMemoryArea.end_ (v : VirtualMemoryArea) : ℕ := v.addr + v.len

structure VmasOk (vmas : List VirtualMemoryArea) : Prop where
  separated : Separated VirtualMemoryArea.addr VirtualMemoryArea.end_ vmas
  nonempty : ∀ v ∈ vmas, v.addr < v.end_
  bounded : ∀ v ∈ vmas, v.end_ < 2 ^ 32
  aligned : ∀ v ∈ vmas, pgAligned v.addr

/-- `[addr, addr + length)` and the area have a point in common. -/
abbrev VirtualMemoryArea.Meets (v : VirtualMemoryArea) (addr length : ℕ) : Prop :=
  IntervalList.Meets VirtualMemoryArea.addr VirtualMemoryArea.end_ addr (addr + length) v

section Scan
variable {vmas : List VirtualMemoryArea} {addr length : ℕ} {v : VirtualMemoryArea}

theorem rangeOverlaps2_iff (hv : v.end_ < 2 ^ 32) (hlt : addr + length < 2 ^ 32) :
    rangeOverlaps2 32 addr length v.addr v.len false = true ↔ v.Meets addr length := by
  rw [rangeOverlaps2, Word.add_of_lt hlt, Word.add_of_lt (show v.addr + v.len < 2 ^ 32 from hv)]
  simp [rangeOverlaps, IntervalList.Meets, end_]

theorem findGap_eq (hb : ∀ v ∈ vmas, v.end_ < 2 ^ 32) (hlt : addr + length < 2 ^ 32) :
    findGap addr length vmas =
      place VirtualMemoryArea.addr VirtualMemoryArea.end_ addr (addr + length) vmas := by
  induction vmas with
  | nil => rfl
  | cons v vmas ih =>
    have hov := rangeOverlaps2_iff (hb v (by simp)) hlt
    rw [findGap, place, ih fun w hw => hb w (by simp [hw])]
    by_cases hm : v.Meets addr length
    · rw [if_pos (hov.mpr hm), if_pos hm]
    · rw [if_neg (mt hov.mp hm), if_neg hm]

theorem VmasOk.insert (h : VmasOk vmas) {k : ℕ} (hne : v.addr < v.end_) (hb : v.end_ < 2 ^ 32)
    (ha : pgAligned v.addr) (hk : findGap v.addr v.len vmas = some k) : VmasOk (vmas.insertIdx k v) := by
  rw [findGap_eq h.bounded hb] at hk
  have hmem : ∀ w ∈ vmas.insertIdx k v, w = v ∨ w ∈ vmas := fun w hw =>
    List.eq_or_mem_of_mem_insertIdx hw
  refine ⟨h.separated.insertIdx h.nonempty hne hk, fun w hw => ?_, fun w hw => ?_, fun w hw => ?_⟩
  · rcases hmem w hw with rfl | hw
    · exact hne
    · exact h.nonempty w hw
  · rcases hmem w hw with rfl | hw
    · exact hb
    · exact h.bounded w hw
  · rcases hmem w hw with rfl | hw
    · exact ha
    · exact h.aligned w hw

/-- Areas that are apart do not share a page, because they start at page boundaries. -/
theorem VmasOk.pages (h : VmasOk vmas) : vmas.Pairwise fun v w => ∀ x y,
    v.addr ≤ x → x < v.end_ → w.addr ≤ y → y < w.end_ → x / pgSz ≠ y / pgSz := by
  refine (List.pairwise_iff_forall_sublist.mpr ?_)
  intro v w hvw x y _ hx hy _
  have hsep : v.end_ ≤ w.addr := List.pairwise_iff_forall_sublist.mp h.separated hvw
  have ha := pgAligned_iff.mp (h.aligned w (hvw.subset (by simp)))
  rw [pgSz_eq]
  omega

theorem VmasOk.eq_of_page (h : VmasOk vmas) {w : VirtualMemoryArea} {x y : ℕ} (hv : v ∈ vmas)
    (hw : w ∈ vmas) (hx : v.addr ≤ x ∧ x < v.end_) (hy : w.addr ≤ y ∧ y < w.end_)
    (hpage : x / pgSz = y / pgSz) : v = w := by
  have hsymm : Std.Symm fun v w : VirtualMemoryArea => ∀ x y,
      v.addr ≤ x → x < v.end_ → w.addr ≤ y → y < w.end_ → x / pgSz ≠ y / pgSz :=
    ⟨fun v w hvw x y h1 h2 h3 h4 => (hvw y x h3 h4 h1 h2).symm⟩
  by_contra hne
  exact h.pages.forall hv hw hne x y hx.1 hx.2 hy.1 hy.2 hpage

theorem VmasOk.sorted (h : VmasOk vmas) : vmas.Pairwise fun v w => v.addr < w.addr := by
  refine (List.pairwise_iff_forall_sublist.mpr ?_)
  intro v w hvw
  have hsep : v.end_ ≤ w.addr := List.pairwise_iff_forall_sublist.mp h.separated hvw
  exact (h.nonempty v (hvw.subset (by simp))).trans_le hsep

end Scan

section Calls
variable {s s' : Vfs} {p p' : Process} {addr length fd offset : ℕ} {prot : Access} {flags : Flags}
  {r : Except Result ℕ}

/-- What a call that returns has done to the list: nothing, or it has inserted the area. -/
theorem Process.mmap_cases (h : p.mmap s addr length prot flags fd offset = .ok (s', p', r)) :
    (p'.vmas = p.vmas ∧ ∃ res, r = .error res) ∨
      ∃ k dentry, p.mmapDentry fd = .ok dentry ∧ findGap addr length p.vmas = some k ∧
        (⟨addr, length, prot, flags, dentry, offset⟩ : VirtualMemoryArea).check = .Ok ∧
        p'.vmas = p.vmas.insertIdx k ⟨addr, length, prot, flags, dentry, offset⟩ ∧ r = .ok addr := by
  rw [Process.mmap] at h
  split at h
  · cases h
    exact .inl ⟨rfl, _, rfl⟩
  · rename_i dentry hd
    split at h
    · cases h
      exact .inl ⟨rfl, _, rfl⟩
    · rename_i k hk
      generalize hv : (⟨addr, length, prot, flags, dentry, offset⟩ : VirtualMemoryArea) = vma at h
      dsimp only at h
      rw [construct] at h
      split_ifs at h with hc
      · cases ht : takeRef s vma.dentry with
        | error e =>
          rw [ht] at h
          cases h
        | ok s1 =>
          rw [ht] at h
          cases h
          exact .inr ⟨k, dentry, hd, hk, hv ▸ hc, hv ▸ rfl, rfl⟩
      · simp only [pure_bind, if_pos hc, List.eraseIdx_insertIdx_self] at h
        cases ht : dropRef s vma.dentry with
        | error e =>
          rw [ht] at h
          cases h
        | ok s1 =>
          rw [ht] at h
          cases h
          exact .inl ⟨rfl, _, rfl⟩

/-- Calls have nonempty ranges that do not wrap. Anything else may happen in between, as long as it
leaves the list of areas alone. -/
inductive MmapReach : Vfs → Process → Prop
  | start {s : Vfs} {p : Process} (h : p.vmas = []) : MmapReach s p
  | other {s s' : Vfs} {p p' : Process} (hr : MmapReach s p) (h : p'.vmas = p.vmas) : MmapReach s' p'
  | mmap {s s' : Vfs} {p p' : Process} {addr length fd offset : ℕ} {prot : Access} {flags : Flags}
      {r : Except Result ℕ} (hr : MmapReach s p) (hlen : 0 < length)
      (hlt : addr + length < 2 ^ 32)
      (h : p.mmap s addr length prot flags fd offset = .ok (s', p', r)) : MmapReach s' p'

theorem VirtualMemoryArea.check_ok {v : VirtualMemoryArea} : v.check = .Ok ↔
      v.dentry.isNone = v.flags.mapAnon ∧ pgAligned v.addr ∧ pgAligned v.offset ∧ v.len ≠ 0 := by
  rw [check]
  split_ifs with hanon hrest
  · simp [hanon]
  · simp only [false_iff]
    rintro ⟨-, ha, ho, hl⟩
    rcases hrest with h | h | h
    · exact h ha
    · exact h ho
    · exact hl h
  · simp only [not_or, not_not] at hanon hrest
    exact ⟨fun _ => ⟨hanon, hrest⟩, fun _ => rfl⟩

theorem MmapReach.vmasOk (h : MmapReach s p) : VmasOk p.vmas := by
  induction h with
  | start h =>
    rw [h]
    exact ⟨List.Pairwise.nil, by simp, by simp, by simp⟩
  | other hr h ih => exact h ▸ ih
  | mmap hr hlen hlt h ih =>
    rcases Process.mmap_cases h with ⟨hsame, -⟩ | ⟨k, dentry, -, hk, hc, hins, -⟩
    · exact hsame ▸ ih
    · rw [hins]
      exact ih.insert (Nat.lt_add_of_pos_right hlen) hlt (check_ok.mp hc).2.1 hk

/-- The descriptor is that of an open file exactly if the mapping is not anonymous; address and offset
are aligned. -/
def ValidArgs (s : Vfs) (p : Process) (addr : ℕ) (flags : Flags) (fd offset : ℕ)
    (dentry : Option ℕ) : Prop :=
  p.mmapDentry fd = .ok dentry ∧ (∀ d, dentry = some d → ∃ e, s.dentries d = some e) ∧
    dentry.isNone = flags.mapAnon ∧ pgAligned addr ∧ pgAligned offset

theorem takeRef_ok {dentry : Option ℕ} (h : ∀ d, dentry = some d → ∃ e, s.dentries d = some e) :
    ∃ s', takeRef s dentry = .ok s' := by
  cases dentry with
  | none => exact ⟨s, rfl⟩
  | some d =>
    obtain ⟨e, he⟩ := h d rfl
    exact ⟨_, by rw [takeRef, Dentry.incRc, Vfs.getDentry, he]; rfl⟩

/-- A call with valid arguments returns, and refuses only what overlaps. -/
theorem Process.mmap_valid {dentry : Option ℕ} (hv : ValidArgs s p addr flags fd offset dentry)
    (hlen : 0 < length) (prot : Access) : (findGap addr length p.vmas = none ∧
      p.mmap s addr length prot flags fd offset = .ok (s, p, .error .MappingExists)) ∨
    ∃ s' k, takeRef s dentry = .ok s' ∧ findGap addr length p.vmas = some k ∧
      p.mmap s addr length prot flags fd offset = .ok (s',
        { p with vmas := p.vmas.insertIdx k ⟨addr, length, prot, flags, dentry, offset⟩ },
        .ok addr) := by
  obtain ⟨hd, hlive, hanon, ha, ho⟩ := hv
  have hc : (⟨addr, length, prot, flags, dentry, offset⟩ : VirtualMemoryArea).check = .Ok :=
    check_ok.mpr ⟨hanon, ha, ho, hlen.ne'⟩
  rw [Process.mmap, hd]
  dsimp only
  cases hk : findGap addr length p.vmas with
  | none => exact .inl ⟨rfl, rfl⟩
  | some k =>
    obtain ⟨s', hs'⟩ := takeRef_ok hlive
    refine .inr ⟨s', k, hs', rfl, ?_⟩
    rw [construct, if_pos hc]
    rw [hs']
    rfl

/-- Two nonempty intervals meet exactly if they have a point in common. -/
theorem VirtualMemoryArea.meets_iff {v : VirtualMemoryArea} (hv : v.addr < v.end_) (hlen : 0 < length) :
    v.Meets addr length ↔ ∃ x, addr ≤ x ∧ x < addr + length ∧ v.addr ≤ x ∧ x < v.end_ := by
  constructor
  · rintro ⟨hlo, hhi⟩
    exact ⟨max addr v.addr, by omega, by omega, by omega, by omega⟩
  · rintro ⟨x, hax, hxb, hvx, hxe⟩
    exact ⟨by omega, by omega⟩

/-- The areas are sorted, disjoint and aligned. A call with valid arguments refuses a range exactly if
that intersects an area. -/
theorem mmap_sorted_disjoint (h : MmapReach s p) :
    p.vmas.Pairwise (fun v w => v.addr < w.addr) ∧
    p.vmas.Pairwise (fun v w => v.addr + v.len ≤ w.addr) ∧
    (∀ v ∈ p.vmas, v.addr % pgSz = 0) ∧
    p.vmas.Pairwise (fun v w => ∀ x y, v.addr ≤ x → x < v.addr + v.len → w.addr ≤ y →
      y < w.addr + w.len → x / pgSz ≠ y / pgSz) ∧
    ∀ addr length prot flags fd offset dentry, 0 < length → addr + length < 2 ^ 32 →
      ValidArgs s p addr flags fd offset dentry →
      ∃ s' p' r, p.mmap s addr length prot flags fd offset = .ok (s', p', r) ∧
        (r = .error .MappingExists ↔
          ∃ v ∈ p.vmas, ∃ x, addr ≤ x ∧ x < addr + length ∧ v.addr ≤ x ∧ x < v.addr + v.len) ∧
        (r = .error .MappingExists → p' = p) ∧
        (r ≠ .error .MappingExists → r = .ok addr ∧ p'.fds = p.fds ∧
          p'.vmas.Perm (⟨addr, length, prot, flags, dentry, offset⟩ :: p.vmas)) := by
  have hok := h.vmasOk
  refine ⟨hok.sorted, hok.separated, fun v hv => pgAligned_iff.mp (hok.aligned v hv), hok.pages, ?_⟩
  intro addr length prot flags fd offset dentry hlen hlt hv
  have hnone : findGap addr length p.vmas = none ↔
      ∃ v ∈ p.vmas, ∃ x, addr ≤ x ∧ x < addr + length ∧ v.addr ≤ x ∧ x < v.addr + v.len := by
    rw [findGap_eq hok.bounded hlt,
      place_none_iff hok.separated hok.nonempty (Nat.lt_add_of_pos_right hlen)]
    exact exists_congr fun v => and_congr_right fun hmem =>
      VirtualMemoryArea.meets_iff (hok.nonempty v hmem) hlen
  rcases Process.mmap_valid hv hlen prot with ⟨hk, hm⟩ | ⟨s', k, -, hk, hm⟩
  · exact ⟨s, p, _, hm, ⟨fun _ => hnone.mp hk, fun _ => rfl⟩, fun _ => rfl, fun hne => absurd rfl hne⟩
  · have hfree := mt hnone.mpr (by rw [hk]; exact Option.some_ne_none k)
    have hok_ne : (.ok addr : Except Result ℕ) ≠ .error .MappingExists := by simp
    refine ⟨s', _, _, hm, ⟨fun hr => absurd hr hok_ne, fun hx => absurd hx hfree⟩,
      fun hr => absurd hr hok_ne, fun _ => ⟨rfl, rfl, ?_⟩⟩
    rw [findGap_eq hok.bounded hlt] at hk
    exact List.perm_insertIdx _ _ (place_le hk)

end Calls

/-- Two areas of one page each, the second call with the lower address. -/
theorem mmap_sorted_disjoint_twoPages : ∃ s p, MmapReach s p ∧
    p.vmas.map VirtualMemoryArea.addr = [0x1000, 0x2000] ∧
    p.vmas.Pairwise (fun v w => v.addr + v.len ≤ w.addr) := by
  have hfirst : MmapReach (Vfs.init 2) { vmas := [⟨0x2000, 10, {}, ⟨true, true⟩, none, 0⟩] } :=
    @MmapReach.mmap (Vfs.init 2) _ {} _ 0x2000 10 invalidFD 0 {} ⟨true, true⟩ _ (.start rfl)
      (by decide) (by decide) rfl
  have hsecond : MmapReach (Vfs.init 2)
      { vmas := [⟨0x1000, 0x1000, {}, ⟨true, true⟩, none, 0⟩,
                 ⟨0x2000, 10, {}, ⟨true, true⟩, none, 0⟩] } :=
    @MmapReach.mmap _ _ _ _ 0x1000 0x1000 invalidFD 0 {} ⟨true, true⟩ _ hfirst (by decide)
      (by decide) rfl
  exact ⟨_, _, hsecond, rfl, (mmap_sorted_disjoint hsecond).2.1⟩

end HmmOS.Proc
