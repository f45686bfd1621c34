import HmmOS.Arch.CloneDirectory

/-! # The page tables of the bootloader

The bootloader runs without paging. Pages are indexed as in the kernel, by the
address that they have in the higher-half map.
-/
namespace HmmOS.Boot
open Lib Util.Algorithm Arch.PageTable Function

def kernelLoadAddr : ℕ := 4 * gb - 32 * mb

def hugepgAligned (addr : ℕ) : Bool := addr &&& (hugePgSz - 1) == 0

/-- `_pt_map_pg`; the directory and the table are given by their physical pages. -/
def ptMapPg (mem : PtMem) (pd pt va pa : ℕ) (mapGlobal : Bool) : Option PtMem :=
  let pdIdx := va >>> 22
  let ptIdx := (va >>> pgSzBits) &&& 0x3FF
  let pde := mem (pdOf pd) pdIdx
  if ¬ (pgAligned va ∧ pgAligned pa) then none
  else if pde.p ∧ pde.addr ≠ pt >>> pgSzBits then none
  else
    let mem :=
      if pde.p then mem
      else mem.set (pdOf pd) pdIdx
        { pde with
          p := true, rw := true, us := false, pwt := false, pcd := false, a := false, ps := false
          addr := (pt >>> pgSzBits) % 2 ^ 20 }
    let pte := mem (pdOf pt) ptIdx
    if pte.p then none
    else some <| mem.set (pdOf pt) ptIdx
      { pte with
        p := true, rw := true, us := false, pwt := false, pcd := false, a := false, d := false, ps := false
        g := mapGlobal, addr := (pa >>> pgSzBits) % 2 ^ 20 }

/-- `_pt_map_hugepg`. The number of the frame is in the upper ten bits of the field, and `pat`, `addr_ext` and
`rsv0` are the lower ones. -/
def ptMapHugepg (mem : PtMem) (pd va pa : ℕ) (mapGlobal : Bool) : Option PtMem :=
  let pdIdx := va >>> 22
  let pde := mem (pdOf pd) pdIdx
  if ¬ (hugepgAligned va ∧ hugepgAligned pa) then none
  else if pde.p then none
  else some <| mem.set (pdOf pd) pdIdx
    { pde with
      p := true, rw := true, us := false, pwt := false, pcd := false, a := false, d := false, ps := true
      g := mapGlobal, addr := (pa >>> 22) % 2 ^ 10 * 2 ^ 10 }

def ptLoop (body : ℕ → PtMem → Option PtMem) (mem : PtMem) : ℕ → Option PtMem
  | 0 => some mem
  | i + 1 => (ptLoop body mem i).bind (body i)

/-- The tables that `pt_setup` makes in the block at `ptMem`. The counters have 64 bits, the parameters of the
functions 32 bits. -/
def ptSetupTables (mem : PtMem) (ptMem kernelPaddr : ℕ) : Option PtMem :=
  let pd := ptMem
  let dmPt := ptMem + pgSz
  let mem := (mem.clear (pdOf pd)).clear (pdOf dmPt)
  (ptLoop (fun i mem => ptMapPg mem pd dmPt (pgSz * (i + 1)) (pgSz * (i + 1)) false) mem
      (1 * mb / pgSz - 1)).bind fun mem =>
    (ptLoop (fun i mem =>
        ptMapHugepg mem pd ((hugePgSz * i + hhdmStart) % 2 ^ 32) (hugePgSz * i) true) mem
        (hhdmLen / hugePgSz)).bind fun mem =>
      ptLoop (fun i mem => ptMapHugepg mem pd ((hugePgSz * i + kernelLoadAddr) % 2 ^ 32)
        ((hugePgSz * i + kernelPaddr) % 2 ^ 32) true) mem (kernelMapSz / hugePgSz)

def kernelMapping (phys : ℕ) (global : Bool) : Mapping := ⟨phys, true, false, false, false, global⟩

/-- What the address space of the bootloader is to be. -/
def bootTranslation (kernelPaddr virt : ℕ) : Option Mapping :=
  if pgSz ≤ virt ∧ virt < 1 * mb then some (kernelMapping virt false)
  else if hhdmStart ≤ virt ∧ virt < hhdmStart + hhdmLen then some (kernelMapping (virt - hhdmStart) true)
  else if kernelLoadAddr ≤ virt then some (kernelMapping (kernelPaddr + (virt - kernelLoadAddr)) true)
  else none

def tableEntry (pt : ℕ) : Entry := { p := true, rw := true, addr := (pt >>> pgSzBits) % 2 ^ 20 }

def lowEntry (page : ℕ) : Entry := { p := true, rw := true, addr := page }

def hugeEntry (frame : ℕ) : Entry := { p := true, rw := true, ps := true, g := true, addr := frame * 2 ^ 10 }

theorem hugepgAligned_iff {addr : ℕ} : hugepgAligned addr = true ↔ addr % 4194304 = 0 := by
  rw [hugepgAligned, beq_iff_eq]
  exact (Word.and_mask 22 addr).symm ▸ Iff.rfl

theorem ptLoop_spec {body : ℕ → PtMem → Option PtMem} {Inv : ℕ → PtMem → Prop} {mem : PtMem} {n : ℕ}
    (hstart : Inv 0 mem) (hstep : ∀ i < n, ∀ m, Inv i m → ∃ m', body i m = some m' ∧ Inv (i + 1) m') :
    ∃ m, ptLoop body mem n = some m ∧ Inv n m := by
  induction n with
  | zero => exact ⟨mem, rfl, hstart⟩
  | succ n ih =>
    obtain ⟨m, hm, hinv⟩ := ih fun i hi => hstep i (Nat.lt_succ_of_lt hi)
    obtain ⟨m', hm', hinv'⟩ := hstep n (Nat.lt_succ_self n) m hinv
    exact ⟨m', by rw [ptLoop, hm, Option.bind_some, hm'], hinv'⟩

theorem set_eq_self {mem : PtMem} {table slot : ℕ} {e : Entry} (h : mem table slot = e) :
    mem.set table slot e = mem := by
  rw [← h, PtMem.set, update_eq_self, update_eq_self]

variable {mem : PtMem} {pd pt n : ℕ}

/-- A page of low memory, whether or not its table is entered yet. -/
theorem ptMapPg_low (hne : pdOf pt ≠ pdOf pd) (hn : n < 1024) (hpt : pt < 2 ^ 32)
    (hpde : mem (pdOf pd) 0 = {} ∨ mem (pdOf pd) 0 = tableEntry pt) (hpte : mem (pdOf pt) n = {}) :
    ptMapPg mem pd pt (pgSz * n) (pgSz * n) false =
      some ((mem.set (pdOf pd) 0 (tableEntry pt)).set (pdOf pt) n (lowEntry n)) := by
  have hdirIdx : (pgSz * n) >>> 22 = 0 := by
    rw [Nat.shiftRight_eq_div_pow, pgSz_eq]
    omega
  have hpage : (pgSz * n) >>> pgSzBits = n := by
    rw [Nat.shiftRight_eq_div_pow, pgSz_eq, pgSzBits_eq]
    omega
  have hslot : n &&& 0x3FF = n := by
    rw [show 0x3FF = 2 ^ 10 - 1 from rfl, Word.and_mask]
    omega
  have haligned : pgAligned (pgSz * n) = true := by
    rw [pgAligned_iff, pgSz_eq]
    omega
  have hpresent : (tableEntry pt).p = true := rfl
  have haddr : (tableEntry pt).addr = pt >>> pgSzBits := by
    rw [tableEntry, Nat.shiftRight_eq_div_pow, pgSzBits_eq]
    dsimp only
    omega
  have hfield' : n % 2 ^ 20 = n := by omega
  have hkeep : ∀ e, mem.set (pdOf pd) 0 e (pdOf pt) n = {} := by
    intro e
    rw [set_dir (Ne.symm hne), hpte]
  unfold ptMapPg
  simp only [hdirIdx, hpage, hslot, haligned, hfield']
  rcases hpde with hpde | hpde
  · simp [hpde, hkeep, tableEntry, lowEntry]
  · rw [set_eq_self hpde]
    simp [hpde, hpresent, haddr, hpte, lowEntry]

def LowMapped (pd pt n : ℕ) (mem : PtMem) : Prop :=
  (mem (pdOf pd) = fun i => if i = 0 ∧ 0 < n then tableEntry pt else {}) ∧
    mem (pdOf pt) = fun j => if 1 ≤ j ∧ j ≤ n then lowEntry j else {}

theorem LowMapped.step (h : LowMapped pd pt n mem) (hne : pdOf pt ≠ pdOf pd) (hn : n + 1 < 1024)
    (hpt : pt < 2 ^ 32) : ∃ mem', ptMapPg mem pd pt (pgSz * (n + 1)) (pgSz * (n + 1)) false = some mem' ∧
      LowMapped pd pt (n + 1) mem' := by
  obtain ⟨hdir, htable⟩ := h
  refine ⟨_, ptMapPg_low hne hn hpt ?_ ?_, ?_, ?_⟩
  · rw [hdir]
    by_cases hpos : 0 < n <;> simp [hpos]
  · rw [htable]
    exact if_neg (by omega)
  · rw [set_dir hne, PtMem.set, update_self, hdir]
    funext i
    by_cases hi : i = 0
    · simp [hi]
    · simp [hi]
  · rw [PtMem.set, update_self, set_dir (Ne.symm hne), htable]
    funext j
    by_cases hj : j = n + 1
    · simp [hj]
    · rw [update_of_ne hj]
      congr 1
      simp only [eq_iff_iff]
      omega

section Huge
variable {base frame : ℕ} {dir table : ℕ → Entry}

def HugeMapped (pd pt base frame : ℕ) (dir table : ℕ → Entry) (n : ℕ) (mem : PtMem) : Prop :=
  (mem (pdOf pd) = fun i => if base ≤ i ∧ i < base + n then hugeEntry (frame + (i - base)) else dir i) ∧
    mem (pdOf pt) = table

theorem HugeMapped.step (h : HugeMapped pd pt base frame dir table n mem) (hne : pdOf pt ≠ pdOf pd)
    (hdir : dir (base + n) = {}) (hbase : base + n < 1024) (hframe : frame + n < 1024) {va pa : ℕ}
    (hva : va = hugePgSz * (base + n)) (hpa : pa = hugePgSz * (frame + n)) :
    ∃ mem', ptMapHugepg mem pd va pa true = some mem' ∧ HugeMapped pd pt base frame dir table (n + 1) mem' := by
  obtain ⟨hpd, hpt⟩ := h
  have hsize : hugePgSz = 4194304 := rfl
  have hidx : ∀ k < 1024, (hugePgSz * k) >>> 22 = k := by
    intro k hk
    rw [Nat.shiftRight_eq_div_pow, hsize]
    omega
  have haligned : ∀ k, hugepgAligned (hugePgSz * k) = true := by
    intro k
    rw [hugepgAligned_iff, hsize]
    omega
  have hempty : mem (pdOf pd) (base + n) = {} := by
    rw [hpd]
    simp [hdir]
  have hframe' : (frame + n) % 2 ^ 10 = frame + n := by omega
  refine ⟨mem.set (pdOf pd) (base + n) (hugeEntry (frame + n)), ?_, ?_, ?_⟩
  · unfold ptMapHugepg
    simp only [hva, hpa, hidx _ hbase, hidx _ hframe, haligned, hempty, hframe']
    simp [hugeEntry]
  · rw [PtMem.set, update_self, hpd]
    funext i
    by_cases hi : i = base + n
    · simp [hi]
    · rw [update_of_ne hi]
      congr 1
      simp only [eq_iff_iff]
      omega
  · rw [set_dir (Ne.symm hne), hpt]

theorem hugeLoop_spec {va pa : ℕ → ℕ} (hne : pdOf pt ≠ pdOf pd) (hbase : base + n ≤ 1024)
    (hframe : frame + n ≤ 1024) (hfree : ∀ i < n, mem (pdOf pd) (base + i) = {})
    (hva : ∀ i < n, va i = hugePgSz * (base + i)) (hpa : ∀ i < n, pa i = hugePgSz * (frame + i)) :
    ∃ mem', ptLoop (fun i mem => ptMapHugepg mem pd (va i) (pa i) true) mem n = some mem' ∧
      HugeMapped pd pt base frame (mem (pdOf pd)) (mem (pdOf pt)) n mem' := by
  apply ptLoop_spec
  · refine ⟨?_, rfl⟩
    funext i
    rw [if_neg (by omega)]
  · intro i hi m hm
    exact hm.step hne (hfree i hi) (by omega) (by omega) (hva i hi) (hpa i hi)

end Huge

def bootDirectory (pt kernelPaddr : ℕ) : ℕ → Entry := fun i =>
  if 1016 ≤ i ∧ i < 1016 + 8 then hugeEntry (kernelPaddr / 4194304 + (i - 1016))
  else if 768 ≤ i ∧ i < 768 + 247 then hugeEntry (0 + (i - 768))
  else if i = 0 ∧ 0 < 255 then tableEntry pt
  else {}

theorem lowLoop_spec (mem : PtMem) {pd pt : ℕ} (hne : pdOf pt ≠ pdOf pd) (hpt : pt < 2 ^ 32) {n : ℕ}
    (hn : n < 1024) : ∃ mem', ptLoop (fun i mem => ptMapPg mem pd pt (pgSz * (i + 1)) (pgSz * (i + 1)) false)
        ((mem.clear (pdOf pd)).clear (pdOf pt)) n = some mem' ∧ LowMapped pd pt n mem' := by
  apply ptLoop_spec
  · constructor
    · rw [PtMem.clear, update_of_ne (Ne.symm hne), PtMem.clear, update_self]
      simp
    · rw [PtMem.clear, update_self]
      funext j
      rw [if_neg (by omega)]
  · intro i hi m hm
    exact hm.step hne (by omega) hpt

theorem ptSetupTables_spec (mem : PtMem) {ptMem kernelPaddr : ℕ} (hblock : ptMem + 2 * pgSz ≤ 2 ^ 32)
    (hkernel : hugepgAligned kernelPaddr = true) (hlt : kernelPaddr < 1 * gb) :
    ∃ mem', ptSetupTables mem ptMem kernelPaddr = some mem' ∧
      mem' (pdOf ptMem) = bootDirectory (ptMem + pgSz) kernelPaddr ∧
      mem' (pdOf (ptMem + pgSz)) = fun j => if 1 ≤ j ∧ j ≤ 255 then lowEntry j else {} := by
  have hhuge : hugePgSz = 4194304 := rfl
  have hload : kernelLoadAddr = 4261412864 := rfl
  rw [show 1 * gb = 1073741824 from rfl] at hlt
  rw [hugepgAligned_iff] at hkernel
  rw [pgSz_eq] at hblock
  have hne : pdOf (ptMem + pgSz) ≠ pdOf ptMem := by
    simp only [pdOf, pgSz_eq]
    omega
  obtain ⟨mem1, hmem1, hdir1, htable1⟩ :=
    @lowLoop_spec mem ptMem (ptMem + pgSz) hne (by rw [pgSz_eq]; omega) 255 (by decide)
  obtain ⟨mem2, hmem2, hdir2, htable2⟩ := @hugeLoop_spec mem1 ptMem (ptMem + pgSz) 247 768 0
    (fun i => (hugePgSz * i + hhdmStart) % 2 ^ 32) (fun i => hugePgSz * i) hne (by decide) (by decide)
    (by intro i hi; rw [hdir1]; exact if_neg (by omega))
    (by intro i hi; simp only [hhuge, hhdmStart_eq]; omega) (by intro i hi; rw [Nat.zero_add])
  obtain ⟨mem3, hmem3, hdir3, htable3⟩ := @hugeLoop_spec mem2 ptMem (ptMem + pgSz) 8 1016
    (kernelPaddr / 4194304) (fun i => (hugePgSz * i + kernelLoadAddr) % 2 ^ 32)
    (fun i => (hugePgSz * i + kernelPaddr) % 2 ^ 32) hne (by decide) (by omega)
    (by
      intro i hi
      rw [hdir2, hdir1]
      dsimp only
      rw [if_neg (by omega), if_neg (by omega)])
    (by intro i hi; simp only [hhuge, hload]; omega) (by intro i hi; simp only [hhuge]; omega)
  refine ⟨mem3, ?_, ?_, ?_⟩
  · unfold ptSetupTables
    rw [show 1 * mb / pgSz - 1 = 255 from rfl, show hhdmLen / hugePgSz = 247 from rfl,
      show kernelMapSz / hugePgSz = 8 from rfl]
    dsimp only
    rw [hmem1, Option.bind_some, hmem2, Option.bind_some, hmem3]
  · rw [hdir3, hdir2, hdir1]
    rfl
  · rw [htable3, htable2, htable1]

theorem translateWith_hugeEntry (frame : ℕ) (table : ℕ → Entry) (virt : ℕ) :
    (hugeEntry frame).translateWith table virt =
      some (kernelMapping (4194304 * frame + virt % 4194304) true) := by
  have hframe : frame * 2 ^ 10 / pgPerPt * hugePgSz = 4194304 * frame := by
    rw [show pgPerPt = 2 ^ 10 from rfl, Nat.mul_div_cancel _ (by decide), Nat.mul_comm]
    rfl
  rw [← hframe]
  rfl

theorem translateWith_lowEntry (pt : ℕ) {table : ℕ → Entry}
    (htable : table = fun j => if 1 ≤ j ∧ j ≤ 255 then lowEntry j else {}) (virt : ℕ) :
    (tableEntry pt).translateWith table virt = if 1 ≤ ptIdx virt ∧ ptIdx virt ≤ 255 then
        some (kernelMapping (ptIdx virt * pgSz + virt % pgSz) false) else none := by
  rw [htable]
  by_cases h : 1 ≤ ptIdx virt ∧ ptIdx virt ≤ 255
  · simp [Entry.translateWith, tableEntry, lowEntry, kernelMapping, h]
  · simp [Entry.translateWith, tableEntry, h]

/-- Every address of the bootloader's address space. -/
theorem ptSetupTables_translates (mem : PtMem) {ptMem kernelPaddr : ℕ} (hptMem : pgAligned ptMem = true)
    (hblock : ptMem + 2 * pgSz ≤ 2 ^ 32) (hkernel : hugepgAligned kernelPaddr = true)
    (hlt : kernelPaddr < 1 * gb) :
    ∃ mem', ptSetupTables mem ptMem kernelPaddr = some mem' ∧
      ∀ virt < 2 ^ 32, translate mem' ptMem virt = bootTranslation kernelPaddr virt := by
  obtain ⟨mem', hmem', hdir, htable⟩ := ptSetupTables_spec mem hblock hkernel hlt
  refine ⟨mem', hmem', ?_⟩
  intro virt hvirt
  rw [hugepgAligned_iff] at hkernel
  rw [pgAligned_iff] at hptMem
  rw [pgSz_eq] at hblock
  rw [Arch.PageTable.translate, if_pos hvirt, hdir, pdIdx_eq, bootDirectory, bootTranslation]
  simp only [show kernelLoadAddr = 4261412864 from rfl, show 1 * mb = 1048576 from rfl, pgSz_eq,
    hhdmStart_eq, hhdmLen_eq]
  by_cases hkernelMap : 1016 ≤ virt / 4194304
  · have hphys : 4194304 * (kernelPaddr / 4194304 + (virt / 4194304 - 1016)) + virt % 4194304 =
        kernelPaddr + (virt - 4261412864) := by omega
    rw [if_pos (by omega), if_neg (by omega), if_neg (by omega), if_pos (by omega), translateWith_hugeEntry,
      hphys]
  by_cases hhhdm : 768 ≤ virt / 4194304 ∧ virt / 4194304 < 1015
  · have hphys : 4194304 * (0 + (virt / 4194304 - 768)) + virt % 4194304 = virt - 3221225472 := by omega
    rw [if_neg (by omega), if_pos (by omega), if_neg (by omega), if_pos (by omega), translateWith_hugeEntry,
      hphys]
  by_cases hlow : virt / 4194304 = 0
  · have hpage : (tableEntry (ptMem + 4096)).tablePage = pdOf (ptMem + pgSz) := by
      simp only [Entry.tablePage, tableEntry, pdOf, Nat.shiftRight_eq_div_pow, pgSz_eq, pgSzBits_eq]
      omega
    rw [if_neg (by omega), if_neg (by omega), if_pos ⟨hlow, by decide⟩, hpage,
      translateWith_lowEntry _ htable, ptIdx_eq, pgSz_eq]
    by_cases hmapped : 4096 ≤ virt ∧ virt < 1048576
    · have hphys : virt / 4096 % 1024 * 4096 + virt % 4096 = virt := by omega
      rw [if_pos (by omega), if_pos hmapped, hphys]
    · rw [if_neg (by omega), if_neg hmapped, if_neg (by omega), if_neg (by omega)]
  · rw [if_neg (by omega), if_neg (by omega), if_neg (by omega), if_neg (by omega), if_neg (by omega),
      if_neg (by omega)]
    rfl

/-- The kernel at 4 MB, with its tables at 8 KB. -/
theorem ptSetupTables_translates_atFourMb : ∃ mem', ptSetupTables (fun _ _ => {}) 0x2000 0x400000 = some mem' ∧
    ∀ virt < 2 ^ 32, translate mem' 0x2000 virt = bootTranslation 0x400000 virt :=
  ptSetupTables_translates _ (by decide) (by decide) (by decide) (by decide)

end HmmOS.Boot
