import Mathlib
import HmmOS.Proc.MmapErrors

/-! # Mappings at the end of the address space

`mmap` compares ranges by ends that are computed modulo `2^32`.
-/
namespace HmmOS.Proc
open Fs Lib Lib.IntervalList Util.Algorithm

def VirtualMemoryArea.bytes (v : VirtualMemoryArea) : Set ℕ := Set.Ico v.addr v.end_

/-- The range ends in the address space and meets no area of the list. -/
def RangeFree (vmas : List VirtualMemoryArea) (addr length : ℕ) : Prop :=
  addr + length ≤ 2 ^ 32 ∧ ∀ w ∈ vmas, Disjoint (Set.Ico addr (addr + length)) w.bytes

/-- The arguments are valid, and the comparison of 32-bit ends reports no overlap. -/
def Accepts (s : Vfs) (p : Process) (addr length : ℕ) (flags : Flags) (fd offset : ℕ) : Prop :=
  (∃ dentry, ValidArgs s p addr flags fd offset dentry) ∧ 0 < length ∧
    ¬ OverlapsBelow p.vmas addr length

/-- `p'` has one area more than `p`, that of the range, which ends in the address space and meets no
other area. -/
def AddsExact (p p' : Process) (addr length : ℕ) : Prop :=
  ∃ k v, k ≤ p.vmas.length ∧ p'.vmas = p.vmas.insertIdx k v ∧ v.addr = addr ∧ v.len = length ∧
    v.end_ ≤ 2 ^ 32 ∧ ∀ w ∈ p.vmas, Disjoint v.bytes w.bytes

section Calls
variable {s s' : Vfs} {p p' : Process} {addr length fd offset r : ℕ} {prot : Access} {flags : Flags}

theorem live_of_takeRef {dentry : Option ℕ} (h : takeRef s dentry = .ok s') :
    ∀ d, dentry = some d → ∃ e, s.dentries d = some e := by
  rintro d rfl
  cases he : s.dentries d with
  | some e => exact ⟨e, rfl⟩
  | none =>
    rw [takeRef, Dentry.incRc, Vfs.getDentry, he] at h
    cases h

/-- A call that succeeds has valid arguments, and has added the range to the list. -/
theorem Process.mmap_ok (h : p.mmap s addr length prot flags fd offset = .ok (s', p', .ok r)) :
    Accepts s p addr length flags fd offset ∧
      ∃ k v, k ≤ p.vmas.length ∧ p'.vmas = p.vmas.insertIdx k v ∧ v.addr = addr ∧ v.len = length := by
  rcases Process.mmap_cases h with ⟨-, res, hr⟩ | ⟨k, dentry, hd, hk, hcheck, hvmas, -⟩
  · cases hr
  · obtain ⟨hanon, haddr, hoffset, hlen⟩ := VirtualMemoryArea.check_ok.mp hcheck
    have hlive : ∀ d, dentry = some d → ∃ e, s.dentries d = some e := by
      rw [Process.mmap, hd] at h
      dsimp only at h
      rw [hk] at h
      rw [VirtualMemoryArea.construct, if_pos hcheck] at h
      cases ht : takeRef s dentry with
      | ok s1 => exact live_of_takeRef ht
      | error e =>
        rw [ht] at h
        cases h
    refine ⟨⟨⟨dentry, hd, hlive, hanon, haddr, hoffset⟩, Nat.pos_of_ne_zero hlen, ?_⟩,
      k, _, findGap_le hk, hvmas, rfl, rfl⟩
    rw [← findGap_eq_none_iff, hk]
    exact Option.some_ne_none k

theorem Accepts.mmap (h : Accepts s p addr length flags fd offset) (prot : Access) :
    ∃ s' p' r, p.mmap s addr length prot flags fd offset = .ok (s', p', .ok r) := by
  obtain ⟨⟨dentry, hvalid⟩, hlen, hno⟩ := h
  rcases Process.mmap_valid hvalid hlen prot with ⟨hnone, -⟩ | ⟨s', k, -, -, hcall⟩
  · exact absurd (findGap_eq_none_iff.mp hnone) hno
  · exact ⟨s', _, _, hcall⟩

theorem disjoint_iff {w : VirtualMemoryArea} (hlen : 0 < length) (hw : w.addr < w.end_) :
    Disjoint (Set.Ico addr (addr + length)) w.bytes ↔ ¬ w.Meets addr length := by
  rw [VirtualMemoryArea.meets_iff hw hlen, Set.disjoint_left]
  constructor
  · rintro hdis ⟨x, h1, h2, h3, h4⟩
    exact hdis ⟨h1, h2⟩ ⟨h3, h4⟩
  · intro hno x hx hxw
    exact hno ⟨x, hx.1, hx.2, hxw.1, hxw.2⟩

/-- In a list of areas that do not wrap, a range that does not reach the end of the address space is only
accepted if it is free. -/
theorem Accepts.rangeFree (h : Accepts s p addr length flags fd offset) (hok : VmasOk p.vmas)
    (hlt : addr + length < 2 ^ 32) : RangeFree p.vmas addr length := by
  obtain ⟨-, hlen, hno⟩ := h
  rw [← findGap_eq_none_iff, findGap_eq hok.bounded hlt,
    place_none_iff hok.separated hok.nonempty (Nat.lt_add_of_pos_right hlen)] at hno
  refine ⟨hlt.le, ?_⟩
  intro w hw
  rw [disjoint_iff hlen (hok.nonempty w hw)]
  exact fun hmeets => hno ⟨w, hw, hmeets⟩

/-- What lies in the way of a range that ends with the address space. -/
theorem rangeFree_top (hok : VmasOk p.vmas) (hlen : 0 < length) (htop : addr + length = 2 ^ 32) :
    RangeFree p.vmas addr length ↔ ∀ w ∈ p.vmas, w.end_ ≤ addr := by
  have hiff : ∀ w ∈ p.vmas, Disjoint (Set.Ico addr (addr + length)) w.bytes ↔ w.end_ ≤ addr := by
    intro w hw
    have hne := hok.nonempty w hw
    have hbound := hok.bounded w hw
    rw [disjoint_iff hlen hne, VirtualMemoryArea.Meets, Meets]
    omega
  constructor
  · intro hfree w hw
    exact (hiff w hw).mp (hfree.2 w hw)
  · intro hbelow
    exact ⟨htop.le, fun w hw => (hiff w hw).mpr (hbelow w hw)⟩

end Calls

/-- In a list of areas that do not wrap, the new one meets no other just if its range ends below `2^32`,
or at `2^32` with no area reaching over its start. -/
theorem Process.mmap_exact_iff (s : Vfs) (p : Process) (addr length : ℕ) (prot : Access) (flags : Flags)
    (fd offset : ℕ) :
    ((∀ s' p' r, p.mmap s addr length prot flags fd offset = .ok (s', p', .ok r) →
        AddsExact p p' addr length) ↔
      (Accepts s p addr length flags fd offset → RangeFree p.vmas addr length)) ∧
    (VmasOk p.vmas → Accepts s p addr length flags fd offset →
      (RangeFree p.vmas addr length ↔
        addr + length < 2 ^ 32 ∨ addr + length = 2 ^ 32 ∧ ∀ w ∈ p.vmas, w.end_ ≤ addr)) := by
  constructor
  · constructor
    · intro hexact haccepts
      obtain ⟨s', p', r, hcall⟩ := haccepts.mmap prot
      obtain ⟨k, v, -, -, haddr, hlen, hend, hdis⟩ := hexact s' p' r hcall
      rw [VirtualMemoryArea.end_, haddr, hlen] at hend
      refine ⟨hend, ?_⟩
      intro w hw
      have := hdis w hw
      rwa [VirtualMemoryArea.bytes, VirtualMemoryArea.end_, haddr, hlen] at this
    · intro hfree s' p' r hcall
      obtain ⟨haccepts, k, v, hk, hvmas, haddr, hlen⟩ := Process.mmap_ok hcall
      obtain ⟨hend, hdis⟩ := hfree haccepts
      refine ⟨k, v, hk, hvmas, haddr, hlen, ?_, ?_⟩
      · rwa [VirtualMemoryArea.end_, haddr, hlen]
      · intro w hw
        rw [VirtualMemoryArea.bytes, VirtualMemoryArea.end_, haddr, hlen]
        exact hdis w hw
  · intro hok haccepts
    constructor
    · intro hfree
      rcases Nat.lt_or_eq_of_le hfree.1 with hlt | htop
      · exact .inl hlt
      · exact .inr ⟨htop, (rangeFree_top hok haccepts.2.1 htop).mp hfree⟩
    · rintro (hlt | ⟨htop, hbelow⟩)
      · exact haccepts.rangeFree hok hlt
      · exact (rangeFree_top hok haccepts.2.1 htop).mpr hbelow

def lastPageButOne : VirtualMemoryArea := ⟨0xFFFFE000, 0x1000, {}, ⟨true, true⟩, none, 0⟩

theorem Process.mmap_page_exact :
    Process.mmap (Vfs.init 2) {} 0xFFFFE000 0x1000 {} ⟨true, true⟩ invalidFD 0 =
        .ok (Vfs.init 2, { vmas := [lastPageButOne] }, .ok 0xFFFFE000) ∧
      AddsExact {} { vmas := [lastPageButOne] } 0xFFFFE000 0x1000 := by
  obtain ⟨hiff, hfree⟩ :=
    Process.mmap_exact_iff (Vfs.init 2) {} 0xFFFFE000 0x1000 {} ⟨true, true⟩ invalidFD 0
  refine ⟨rfl, hiff.mpr ?_ _ _ _ rfl⟩
  intro haccepts
  exact (hfree ⟨List.Pairwise.nil, by simp, by simp, by simp⟩ haccepts).mpr (.inl (by decide))

def lastPage : VirtualMemoryArea := ⟨0xFFFFF000, 0x1000, {}, ⟨true, true⟩, none, 0⟩

/-- Two calls map the last page of the address space twice. -/
theorem Process.mmap_last_page_twice :
    Process.mmap (Vfs.init 2) {} 0xFFFFF000 0x1000 {} ⟨true, true⟩ invalidFD 0 =
        .ok (Vfs.init 2, { vmas := [lastPage] }, .ok 0xFFFFF000) ∧
      Process.mmap (Vfs.init 2) { vmas := [lastPage] } 0xFFFFF000 0x1000 {} ⟨true, true⟩ invalidFD 0 =
        .ok (Vfs.init 2, { vmas := [lastPage, lastPage] }, .ok 0xFFFFF000) ∧
      ¬ AddsExact { vmas := [lastPage] } { vmas := [lastPage, lastPage] } 0xFFFFF000 0x1000 := by
  refine ⟨rfl, rfl, ?_⟩
  rintro ⟨k, v, -, -, haddr, hlen, -, hdis⟩
  have hmem : 0xFFFFF000 ∈ v.bytes := by
    rw [VirtualMemoryArea.bytes, VirtualMemoryArea.end_, haddr, hlen]
    exact ⟨le_rfl, by decide⟩
  exact Set.disjoint_left.mp (hdis lastPage List.mem_cons_self) hmem ⟨le_rfl, by decide⟩

end HmmOS.Proc
