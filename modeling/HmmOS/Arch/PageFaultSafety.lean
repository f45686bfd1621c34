import HmmOS.Arch.PageFaultFiles

/-! # What a page fault gives to a process

The handler maps the page that was touched with the rights of the area around it. It does
not see to the contents of the frame, nor look at the results of `vmalloc` and `map`.
-/
namespace HmmOS.Arch.PageFault
open Lib Lib.IntervalList Nonstd Util.Algorithm PageTable Fs Proc

def Has (vma : VirtualMemoryArea) (a : ℕ) : Prop := vma.addr ≤ a ∧ a < vma.end_

structure Permits (err : PFErrorCode) (prot : Access) : Prop where
  read : err.w = false → err.i = false → prot.readable = true
  write : err.w = true → prot.writable = true
  fetch : err.i = true → prot.executable = true

/-- Every entry of the directory for a table leaves the rights to the table. -/
def OpenDirectory (st : MmState) : Prop :=
  ∀ i, (st.tables (pdOf st.cr3) i).p = true → (st.tables (pdOf st.cr3) i).ps = false →
    (st.tables (pdOf st.cr3) i).us = true ∧ (st.tables (pdOf st.cr3) i).rw = true

structure MapsAs (st st' : MmState) (vma : VirtualMemoryArea) (page : ℕ) : Prop where
  absent : walk st.tables st.cr3 page = none
  present : ∃ frame, walk st'.tables st'.cr3 page = some ⟨frame, vma.prot.writable, true, false⟩

variable {fs : Filesystem} {dev : Bytes} {s : Vfs} {vmas : List VirtualMemoryArea}
  {st st' : MmState} {used : Set ℕ} {new : FaultPages} {err : PFErrorCode} {faultedAddr : ℕ}
  {vma : VirtualMemoryArea}

theorem contains_iff (hb : vma.end_ < 2 ^ 32) : contains faultedAddr vma = true ↔ Has vma faultedAddr := by
  rw [contains, Word.add_of_lt (show vma.addr + vma.len < 2 ^ 32 from hb)]
  simp [Has, VirtualMemoryArea.end_]

theorem find_eq_some (hsep : Separated VirtualMemoryArea.addr VirtualMemoryArea.end_ vmas)
    (hb : ∀ v ∈ vmas, v.end_ < 2 ^ 32) (hmem : vma ∈ vmas) (hhas : Has vma faultedAddr) :
    vmas.find? (contains faultedAddr) = some vma := by
  induction vmas with
  | nil => cases hmem
  | cons v vmas ih =>
    obtain ⟨hv, hsep⟩ := List.pairwise_cons.mp hsep
    rcases List.mem_cons.mp hmem with rfl | hmem
    · exact List.find?_cons_of_pos ((contains_iff (hb vma List.mem_cons_self)).mpr hhas)
    · have hbefore : v.end_ ≤ faultedAddr := (hv vma hmem).trans hhas.1
      rw [List.find?_cons_of_neg]
      · exact ih hsep (fun w hw => hb w (List.mem_cons_of_mem _ hw)) hmem
      · rw [contains_iff (hb v List.mem_cons_self)]
        exact fun hhas' => absurd hhas'.2 hbefore.not_gt

theorem has_of_find (hb : ∀ v ∈ vmas, v.end_ < 2 ^ 32)
    (hfind : vmas.find? (contains faultedAddr) = some vma) : vma ∈ vmas ∧ Has vma faultedAddr := by
  have hmem := List.mem_of_find?_eq_some hfind
  exact ⟨hmem, (contains_iff (hb vma hmem)).mp (List.find?_some hfind)⟩

/-- What the handler lets through is permitted. A fetch has to be readable as well. -/
theorem denied_eq_false_iff {prot : Access} : denied err prot = false ↔
    Permits err prot ∧ (err.i = true → err.w = false → prot.readable = true) := by
  constructor
  · intro h
    simp only [denied, Bool.or_eq_false_iff, Bool.and_eq_false_iff, Bool.not_eq_false'] at h
    obtain ⟨⟨hread, hwrite⟩, hfetch⟩ := h
    have hreadable : err.w = false → prot.readable = true := fun hw =>
      hread.resolve_left (by simp [hw])
    exact ⟨⟨fun hw _ => hreadable hw, fun hw => hwrite.resolve_left (by simp [hw]),
      fun hi => hfetch.resolve_left (by simp [hi])⟩, fun _ => hreadable⟩
  · rintro ⟨⟨hread, hwrite, hfetch⟩, hboth⟩
    simp only [denied, Bool.or_eq_false_iff, Bool.and_eq_false_iff, Bool.not_eq_false']
    cases hw : err.w <;> cases hi : err.i <;> simp_all

theorem refused_of_user (hu : err.u = true) (vma : VirtualMemoryArea) :
    refused err faultedAddr vma = denied err vma.prot := by
  simp [refused, kernelAccess, hu]

theorem DirectoryOpens.openDirectory (h : DirectoryOpens st st') (hopen : OpenDirectory st) :
    OpenDirectory st' := by
  intro i hp hs
  rcases h i with hi | hi
  · rw [hi] at hp hs ⊢
    exact hopen i hp hs
  · exact hi

/-- The last step of the handler maps the page, if at all, with the rights of the area. -/
theorem maps_as {st1 : MmState} {used1 : Set ℕ} {newTable : Option ℕ} {paddr page : ℕ}
    (hprep : Prepared st st1 used1) (htable : ∀ page, newTable = some page → FreshPage used1 page)
    (hv : IsPage page) (hpaddr : paddr < hhdmLen)
    (hmap : mapUser st1 newTable paddr page vma.prot.writable = .returned st') :
    Grows st st' ∧ DirectoryOpens st st' ∧
      (∀ virt, virt ≠ page → walk st'.tables st'.cr3 virt = walk st.tables st.cr3 virt) ∧
      (walk st'.tables st'.cr3 page = walk st.tables st.cr3 page ∨ MapsAs st st' vma page) := by
  obtain ⟨-, hgrow, -, -, hopens, hwalk⟩ := mapUser_spec hprep.placed htable hv hpaddr hmap
  rw [hprep.walk_eq] at hwalk
  refine ⟨hprep.toGrows.trans hgrow, hprep.opens.trans hopens, ?_, ?_⟩
  · intro virt hne
    rw [hwalk]
    split_ifs
    · exact Function.update_of_ne hne _ _
    · rfl
  · by_cases habsent : walk st.tables st.cr3 page = none ∧ tableRoom st1 newTable page = true
    · refine .inr ⟨habsent.1, paddr / pgSz, ?_⟩
      rw [hwalk, if_pos habsent, Function.update_self]
    · rw [hwalk, if_neg habsent]
      exact .inl rfl

/-- The handler changes the mapping of no page but the one that was touched. It maps it, with the rights
of the area, or kills the process. -/
theorem isrPf_maps_only_permitted (hok : Placed st used) (hnew : new.Fresh used)
    (hsep : Separated VirtualMemoryArea.addr VirtualMemoryArea.end_ vmas)
    (hb : ∀ v ∈ vmas, v.end_ < 2 ^ 32) (hlt : faultedAddr < 2 ^ 32) :
    (∀ st', isrPf fs dev s vmas st new err faultedAddr = .returned st' →
      Grows st st' ∧ (OpenDirectory st → OpenDirectory st') ∧
      (∀ virt, virt ≠ floorPg faultedAddr →
        walk st'.tables st'.cr3 virt = walk st.tables st.cr3 virt) ∧
      (walk st'.tables st'.cr3 (floorPg faultedAddr) = walk st.tables st.cr3 (floorPg faultedAddr) ∨
        err.p = false ∧ ∃ vma ∈ vmas, Has vma faultedAddr ∧
          (err.u = true → Permits err vma.prot) ∧ MapsAs st st' vma (floorPg faultedAddr))) ∧
    (err.p = true ∨ (∀ v ∈ vmas, ¬ Has v faultedAddr) ∨
        (err.u = true ∧ ∃ vma ∈ vmas, Has vma faultedAddr ∧ ¬ Permits err vma.prot) →
      isrPf fs dev s vmas st new err faultedAddr = .killed) := by
  constructor
  · intro st' hret
    obtain ⟨hp, vma, hfind, hserves, hmapped⟩ := isrPf_returned hok hnew hret
    obtain ⟨hmem, hhas⟩ := has_of_find hb hfind
    have hperm : err.u = true → Permits err vma.prot := by
      intro hu
      rw [refused_of_user hu] at hserves
      exact (denied_eq_false_iff.mp hserves).1
    rcases hmapped with rfl | ⟨st1, paddr, hprep, hpaddr, hmap⟩
    · exact ⟨.refl st', id, fun _ _ => rfl, .inl rfl⟩
    · obtain ⟨hgrow', hopens, hothers, htouched⟩ :=
        maps_as hprep hnew.last.table (isPage_floorPg hlt) hpaddr hmap
      refine ⟨hgrow', hopens.openDirectory, hothers, htouched.imp_right ?_⟩
      intro hmaps
      exact ⟨hp, vma, hmem, hhas, hperm, hmaps⟩
  · intro h
    apply isrPf_killed
    rcases h with hp | hnone | ⟨hu, vma, hmem, hhas, hforbids⟩
    · exact .inl hp
    · right; left
      rw [List.find?_eq_none]
      intro v hv
      rw [contains_iff (hb v hv)]
      exact hnone v hv
    · refine .inr (.inr ⟨vma, find_eq_some hsep hb hmem hhas, ?_⟩)
      rw [refused_of_user hu]
      by_contra hdenied
      exact hforbids (denied_eq_false_iff.mp (Bool.eq_false_iff.mpr hdenied)).1

def onePage : VirtualMemoryArea where
  addr := 0x400000
  len := 0x1000
  prot := { readable := true, writable := true }
  flags := ⟨true, true⟩
  dentry := none
  offset := 0

/-- A write to the page changes the mapping of no other page. -/
theorem onePage_maps_only : ∃ st', isrPf twoClusters twoClustersDev twoPagesVfs [onePage] nothingCached
      twoNewPages { w := true, u := true } 0x400123 = .returned st' ∧
    ∀ virt, virt ≠ floorPg 0x400123 →
      walk st'.tables st'.cr3 virt = walk nothingCached.tables nothingCached.cr3 virt := by
  have hf := @hhdmOnly_fault nothingCached { w := true, u := true } 0x400123 rfl rfl rfl (by decide)
  obtain ⟨st', hret⟩ := vmallocPage_returns nothingCached_ok.toPlaced hf onePage.prot.writable
  have hisr : isrPf twoClusters twoClustersDev twoPagesVfs [onePage] nothingCached twoNewPages
      { w := true, u := true } 0x400123 = .returned st' := by
    exact hret
  obtain ⟨hmaps, -⟩ := @isrPf_maps_only_permitted twoClusters twoClustersDev twoPagesVfs [onePage] _ _ _
    { w := true, u := true } 0x400123 nothingCached_ok.toPlaced twoNewPages_fresh
    (List.pairwise_singleton ..) (by decide) (by decide)
  exact ⟨st', hisr, (hmaps st' hisr).2.2.1⟩

theorem load_page {frame i : ℕ} {writable user uncacheable : Bool} (hlt : faultedAddr < 2 ^ 32) (hi : i < pgSz)
    (hwalk : walk st.tables st.cr3 (floorPg faultedAddr) = some ⟨frame, writable, user, uncacheable⟩) :
    st.load (floorPg faultedAddr + i) = some (st.phys (pgSz * frame) i) := by
  have hfloor := floorPg_eq (hlt.trans (by norm_num))
  rw [pgSz_eq] at hi
  have hsame : floorPg (floorPg faultedAddr + i) = floorPg faultedAddr := by
    rw [floorPg_eq (by omega), hfloor]
    omega
  have hmod : (floorPg faultedAddr + i) % pgSz = i := by
    rw [hfloor, pgSz_eq]
    omega
  rw [MmState.load, hsame, hwalk, Option.map_some, hmod]

/-- The page of a private anonymous area reads as what its frame held before. -/
theorem anonymous_page_bytes (hok : Placed st used) (hf : Fault st used new err faultedAddr)
    (hret : vmallocPage st new.toNewPages (floorPg faultedAddr) vma.prot.writable = .returned st')
    (hmapped : walk st'.tables st'.cr3 (floorPg faultedAddr) ≠ none) : ∃ page, new.page = some page ∧
      ∀ i < pgSz, st'.load (floorPg faultedAddr + i) = some (st.phys (page - hhdmStart) i) := by
  obtain ⟨-, -, -, hphys, hwalk⟩ := vmallocPage_spec hok hf hret
  split_ifs at hwalk with hroom
  · cases hpage : new.page with
    | none =>
      rw [hpage] at hwalk
      exact absurd hwalk hmapped
    | some page =>
      rw [hpage, Option.map_some] at hwalk
      refine ⟨page, rfl, ?_⟩
      intro i hi
      rw [load_page hf.addr_lt hi hwalk, hphys, pgSz_mul_div (hf.fresh.last.page page hpage).direct.1]
  · exact absurd hwalk hmapped

/-- The page that the first fault maps reads as zero just when the frame that `operator new` returned was
zero before. -/
theorem anonymous_page_zero_iff (hok : Placed st used) (hf : Fault st used new err faultedAddr)
    (hfind : vmas.find? (contains faultedAddr) = some vma) (hanon : vma.flags.mapAnon = true)
    (hprivate : vma.flags.mapPrivate = true)
    (hret : isrPf fs dev s vmas st new err faultedAddr = .returned st')
    (hmapped : walk st'.tables st'.cr3 (floorPg faultedAddr) ≠ none) :
    ∃ page, new.page = some page ∧
      ((∀ i < pgSz, st'.load (floorPg faultedAddr + i) = some 0) ↔
        ∀ i < pgSz, st.phys (page - hhdmStart) i = 0) := by
  have hb : ¬ FileBacked vma := by simp [FileBacked, hanon, hprivate]
  obtain ⟨hp, vma', hfind', hserves, -⟩ := isrPf_returned hok hf.fresh hret
  obtain rfl : vma = vma' := Option.some.inj (hfind.symm.trans hfind')
  rw [isrPf_serves hp hfind hserves, if_neg hb] at hret
  obtain ⟨page, hpage, hload⟩ := anonymous_page_bytes hok hf hret hmapped
  refine ⟨page, hpage, forall₂_congr ?_⟩
  intro i hi
  rw [hload i hi, Option.some.injEq]

def filledWith (b : UInt8) : MmState := { nothingCached with phys := fun _ _ => b }

theorem filledWith_placed (b : UInt8) : Placed (filledWith b) {0xC0001000} :=
  ⟨⟨nofun, nofun, nofun⟩, hhdmOnly_wellFormed⟩

theorem filledWith_fault (b : UInt8) :
    Fault (filledWith b) {0xC0001000} twoNewPages { w := true, u := true } 0x400123 :=
  hhdmOnly_fault rfl rfl rfl (by decide)

theorem filledWith_returns (b : UInt8) : ∃ st',
    vmallocPage (filledWith b) twoNewPages.toNewPages (floorPg 0x400123) onePage.prot.writable = .returned st' ∧
      isrPf twoClusters twoClustersDev twoPagesVfs [onePage] (filledWith b) twoNewPages
        { w := true, u := true } 0x400123 = .returned st' ∧
      walk st'.tables st'.cr3 (floorPg 0x400123) ≠ none := by
  have hfind : [onePage].find? (contains 0x400123) = some onePage := by decide +kernel
  obtain ⟨st', hret⟩ := vmallocPage_returns (filledWith_placed b) (filledWith_fault b)
    onePage.prot.writable
  refine ⟨st', hret, ?_, ?_⟩
  · rw [isrPf_serves rfl hfind rfl, if_neg (by decide)]
    exact hret
  · obtain ⟨-, -, -, -, hwalk⟩ := vmallocPage_spec (filledWith_placed b) (filledWith_fault b) hret
    rw [hwalk, if_pos (by rw [tableRoom]; exact Bool.or_true _)]
    exact Option.some_ne_none _

theorem zeroMemory_page_zero : ∃ st',
    isrPf twoClusters twoClustersDev twoPagesVfs [onePage] (filledWith 0) twoNewPages
        { w := true, u := true } 0x400123 = .returned st' ∧
      ∀ i < pgSz, st'.load (floorPg 0x400123 + i) = some 0 := by
  obtain ⟨st', -, hret, hmapped⟩ := filledWith_returns 0
  have hfind : [onePage].find? (contains 0x400123) = some onePage := by decide +kernel
  obtain ⟨page, -, hzero⟩ := anonymous_page_zero_iff (filledWith_placed 0) (filledWith_fault 0)
    hfind rfl rfl hret hmapped
  exact ⟨st', hret, hzero.mpr fun _ _ => rfl⟩

/-- A frame full of `0xAA` is handed to the process as it is. -/
theorem filledMemory_page_leaks : ∃ st',
    isrPf twoClusters twoClustersDev twoPagesVfs [onePage] (filledWith 0xAA) twoNewPages
        { w := true, u := true } 0x400123 = .returned st' ∧
      st'.load 0x400000 = some 0xAA := by
  obtain ⟨st', hret, hisr, hmapped⟩ := filledWith_returns 0xAA
  obtain ⟨page, -, hload⟩ := anonymous_page_bytes (filledWith_placed 0xAA) (filledWith_fault 0xAA)
    hret hmapped
  have hfirst := hload 0 (by decide)
  exact ⟨st', hisr, hfirst⟩

section
variable (hok : Placed st used) (hf : Fault st used new err faultedAddr)
include hok hf

end

end HmmOS.Arch.PageFault
