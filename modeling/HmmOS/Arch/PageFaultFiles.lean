import HmmOS.Arch.PageFaultHandler
import HmmOS.Fs.ReadCorrect
import HmmOS.Proc.Mmap

/-! # Files seen through page faults

`isr_pf` asks the cache for the page at the offset of the area, whichever page of
the area was touched.
-/
namespace HmmOS.Arch.PageFault
open Lib Nonstd Util.Algorithm PageTable Fs Proc

/-- The pages of the cache hold what the device does. -/
structure MmOk (dev : Bytes) (st : MmState) (used : Set ℕ) : Prop extends Placed st used where
  bytes : ∀ off paddr, st.cache off = some paddr → st.phys paddr = fun i => dev (off + i)

section Cache
variable {dev : Bytes} {st st' : MmState} {used used' : Set ℕ}

theorem MmOk.device_eq (h : MmOk dev st used) : st.device dev = dev := by
  funext x
  rw [MmState.device]
  cases hc : st.cache (pgSz * (x / pgSz)) with
  | none => rfl
  | some p =>
    dsimp only
    rw [h.bytes _ p hc]
    dsimp only
    rw [Nat.div_add_mod]

/-- Pages that are read have the bytes of the device, and the others keep theirs. -/
theorem MmOk.fetches {pages : List ℕ} (h : MmOk dev st used) (hf : Fetches dev used st st' pages)
    (hplaced : Placed st' used') : MmOk dev st' used' := by
  refine ⟨hplaced, ?_⟩
  intro off paddr hc
  cases hold : st.cache off with
  | none => exact (hf.read off paddr hold hc).2
  | some p =>
    obtain ⟨hc', hp⟩ := hf.kept off p hold
    obtain rfl : p = paddr := Option.some.inj (hc'.symm.trans hc)
    exact hp.trans (h.bytes off p hold)

end Cache

structure Hits (vmas : List VirtualMemoryArea) (faultedAddr : ℕ) (vma : VirtualMemoryArea) :
    Prop where
  found : vmas.find? (contains faultedAddr) = some vma
  check : vma.check = .Ok
  offset_lt : vma.offset < 2 ^ 32

/-- Where the contents of a page of an area lie in the file. -/
def fileOffset (vma : VirtualMemoryArea) (page : ℕ) : ℕ := vma.offset + (page - vma.addr)

/-- `page` is mapped to the page of the page cache for the offset `o` of the file. -/
def MapsFilePage (fs : Filesystem) (dev : Bytes) (n : Inode) (st : MmState) (page o : ℕ) : Prop :=
  ∃ off paddr tr, n.getDevOffset fs dev o = some off ∧ pgAligned off = true ∧
    st.cache off = some paddr ∧ walk st.tables st.cr3 page = some tr ∧ pgSz * tr.frame = paddr

/-- The page that was touched and the page at the offset of the area are in one place of the device, and
there is memory for what is missing. -/
structure Served (fs : Filesystem) (dev : Bytes) (s : Vfs) (st : MmState) (new : FaultPages)
    (err : PFErrorCode) (faultedAddr : ℕ) (vma : VirtualMemoryArea) (n : Inode) : Prop where
  permitted : denied err vma.prot = false ∨ kernelAccess err faultedAddr = true
  file : fileOf s vma = some n
  same : ∃ off, Obtainable fs dev st new n vma.offset off ∧
    n.getDevOffset fs dev (fileOffset vma (floorPg faultedAddr)) = some off
  room : RoomFor fs dev st new n vma.offset (floorPg faultedAddr)

section Fault
variable {fs : Filesystem} {dev : Bytes} {s : Vfs} {vmas : List VirtualMemoryArea}
  {st st' : MmState} {used : Set ℕ} {new : FaultPages} {err : PFErrorCode} {faultedAddr : ℕ}
  {vma : VirtualMemoryArea}

theorem Hits.floorPg_offset (h : Hits vmas faultedAddr vma) : floorPg vma.offset = vma.offset := by
  have ha := pgAligned_iff.mp (VirtualMemoryArea.check_ok.mp h.check).2.2.1
  rw [floorPg_eq (h.offset_lt.trans (by norm_num)), Nat.mul_comm]
  omega

theorem isrPf_eq (hf : Fault st used new err faultedAddr) (hh : Hits vmas faultedAddr vma)
    (hb : FileBacked vma) : isrPf fs dev s vmas st new err faultedAddr =
      if denied err vma.prot && !kernelAccess err faultedAddr then .killed
      else mapFilePage fs dev s st new faultedAddr vma := by
  rw [isrPf, hf.not_present, if_neg Bool.false_ne_true, hh.found]
  dsimp only
  rw [hb, if_neg Bool.false_ne_true]

section
variable (hok : MmOk dev st used) (hf : Fault st used new err faultedAddr)
include hok hf

/-- A fault in a file-backed area maps the right page of the cache exactly if it is `Served`. -/
theorem maps_iff_served (hh : Hits vmas faultedAddr vma) (hb : FileBacked vma) (n : Inode) :
    (∃ st', isrPf fs dev s vmas st new err faultedAddr = .returned st' ∧ fileOf s vma = some n ∧
      MapsFilePage fs dev n st' (floorPg faultedAddr) (fileOffset vma (floorPg faultedAddr))) ↔
    Served fs dev s st new err faultedAddr vma n := by
  rw [isrPf_eq hf hh hb]
  constructor
  · rintro ⟨st', hret, hfile, off, paddr, tr, hoff, halign, hcache, htr, hframe⟩
    split_ifs at hret with hden
    have hperm : denied err vma.prot = false ∨ kernelAccess err faultedAddr = true := by
      simpa [Classical.or_iff_not_imp_left] using hden
    obtain ⟨n', off0, paddr0, hfile', hobtain, hok', -, hcache0, -, hroom, hnone⟩ :=
      mapFilePage_spec hok.toPlaced hf hret
    rw [hh.floorPg_offset] at hobtain hroom hnone
    obtain rfl : n = n' := Option.some.inj (hfile.symm.trans hfile')
    by_cases hr : RoomFor fs dev st new n vma.offset (floorPg faultedAddr)
    · have hwalk := Option.some.inj (htr.symm.trans (hroom hr))
      -- the two offsets have the same page, so they are the same offset
      have hsame : paddr = paddr0 := by
        rw [← hframe, hwalk]
        exact pgSz_mul_div (hok'.place _ _ hcache0).1
      obtain rfl : off = off0 := hok'.distinct off off0 paddr hcache (hsame ▸ hcache0)
      exact ⟨hperm, hfile, ⟨off, hobtain, hoff⟩, hr⟩
    · rw [hnone hr] at htr
      cases htr
  · rintro ⟨hperm, hfile, ⟨off, hobtain, hoff⟩, hroom⟩
    rw [← hh.floorPg_offset] at hobtain hroom
    obtain ⟨st', hret⟩ := mapFilePage_returns hok.toPlaced hf hfile hobtain
    obtain ⟨n', off', paddr, hfile', hobtain', hok', -, hcache, -, hwalk, -⟩ :=
      mapFilePage_spec hok.toPlaced hf hret
    obtain rfl : n = n' := Option.some.inj (hfile.symm.trans hfile')
    obtain rfl : off = off' := Option.some.inj (hobtain.place.symm.trans hobtain'.place)
    refine ⟨st', ?_, hfile, off, paddr, _, hoff, hobtain.aligned, hcache, hwalk hroom, ?_⟩
    · rw [if_neg (by rcases hperm with h | h <;> simp [h]), hret]
    · exact pgSz_mul_div (hok'.place _ _ hcache).1

theorem MmOk.vmallocPage {writable : Bool}
    (hret : vmallocPage st new.toNewPages (floorPg faultedAddr) writable = .returned st') :
    MmOk dev st' (new.addTo used) ∧ Grows st st' := by
  obtain ⟨hok1, hgrow, hsame, hphys, -⟩ := vmallocPage_spec hok.toPlaced hf hret
  refine ⟨⟨hok1, ?_⟩, hgrow⟩
  rw [hsame, hphys]
  exact hok.bytes

end

theorem MapsFilePage.grows {n : Inode} {page o : ℕ} (h : MapsFilePage fs dev n st page o)
    (hg : Grows st st') : MapsFilePage fs dev n st' page o := by
  obtain ⟨off, paddr, tr, hoff, ha, hcache, hwalk, hframe⟩ := h
  exact ⟨off, paddr, tr, hoff, ha, hg.cache _ _ hcache, hg.walk _ _ hwalk, hframe⟩

end Fault

/-- The states that faults and reads of the device lead to, with the file-backed pages that have been
touched. Areas and files may change in between. -/
inductive FaultReach (fs : Filesystem) (dev : Bytes) :
    MmState → Set ℕ → Set (VirtualMemoryArea × Inode × ℕ) → Prop
  | init {st : MmState} {used : Set ℕ} (h : MmOk dev st used) : FaultReach fs dev st used ∅
  | fetch {st st' : MmState} {used : Set ℕ} {touched : Set (VirtualMemoryArea × Inode × ℕ)}
      {newPage : Option ℕ} {off paddr : ℕ} (hr : FaultReach fs dev st used touched)
      (hf : ∀ page, newPage = some page → FreshPage used page)
      (hget : cacheGet dev st newPage off = some (st', paddr)) :
      FaultReach fs dev st' (usedWith used newPage) touched
  | anon {st st' : MmState} {used : Set ℕ} {touched : Set (VirtualMemoryArea × Inode × ℕ)}
      {s : Vfs} {vmas : List VirtualMemoryArea} {new : FaultPages} {err : PFErrorCode}
      {faultedAddr : ℕ} {vma : VirtualMemoryArea} (hr : FaultReach fs dev st used touched)
      (hf : Fault st used new err faultedAddr) (hh : Hits vmas faultedAddr vma)
      (hb : ¬ FileBacked vma) (hret : isrPf fs dev s vmas st new err faultedAddr = .returned st') :
      FaultReach fs dev st' (new.addTo used) touched
  | file {st st' : MmState} {used : Set ℕ} {touched : Set (VirtualMemoryArea × Inode × ℕ)}
      {s : Vfs} {vmas : List VirtualMemoryArea} {new : FaultPages} {err : PFErrorCode}
      {faultedAddr : ℕ} {vma : VirtualMemoryArea} {n : Inode}
      (hr : FaultReach fs dev st used touched) (hf : Fault st used new err faultedAddr)
      (hh : Hits vmas faultedAddr vma) (hb : FileBacked vma)
      (hserved : Served fs dev s st new err faultedAddr vma n)
      (hret : isrPf fs dev s vmas st new err faultedAddr = .returned st') :
      FaultReach fs dev st' (new.addTo used)
        (insert (vma, n, floorPg faultedAddr) touched)

def MmState.load (st : MmState) (a : ℕ) : Option UInt8 :=
  (walk st.tables st.cr3 (floorPg a)).map fun tr => st.phys (pgSz * tr.frame) (a % pgSz)

structure Touched (fs : Filesystem) (dev : Bytes) (st : MmState) (vma : VirtualMemoryArea)
    (n : Inode) (page : ℕ) : Prop where
  addr_le : vma.addr ≤ page
  aligned : pgAligned (fileOffset vma page) = true
  maps : MapsFilePage fs dev n st page (fileOffset vma page)

section Runs
variable {fs : Filesystem} {dev : Bytes} {st : MmState} {used : Set ℕ}
  {touched : Set (VirtualMemoryArea × Inode × ℕ)} {vma : VirtualMemoryArea} {n : Inode}

theorem Hits.addr_le {vmas : List VirtualMemoryArea} {faultedAddr : ℕ}
    (h : Hits vmas faultedAddr vma) (hlt : faultedAddr < 2 ^ 32) :
    vma.addr ≤ floorPg faultedAddr ∧ pgAligned (fileOffset vma (floorPg faultedAddr)) = true := by
  obtain ⟨-, ha, ho, -⟩ := VirtualMemoryArea.check_ok.mp h.check
  have hc := List.find?_some h.found
  have hle : vma.addr ≤ faultedAddr := by
    simp only [contains, Bool.not_or, Bool.and_eq_true, Bool.not_eq_true', decide_eq_false_iff_not]
      at hc
    omega
  rw [pgAligned_iff] at ha ho ⊢
  rw [fileOffset, floorPg_eq (hlt.trans (by norm_num)), Nat.mul_comm]
  exact ⟨by omega, by omega⟩

/-- The invariant of runs: what has been touched stays mapped to the file. -/
theorem FaultReach.inv (h : FaultReach fs dev st used touched) :
    MmOk dev st used ∧ ∀ vma n page, (vma, n, page) ∈ touched → Touched fs dev st vma n page := by
  induction h with
  | init h => exact ⟨h, fun _ _ _ hm => absurd hm (Set.notMem_empty _)⟩
  | fetch hr hf hget ih =>
    obtain ⟨hplaced, hfetch, -⟩ := ih.1.toPlaced.cacheGet hf hget
    obtain ⟨htab, hcr3, -⟩ := cacheGet_tables hf hget
    refine ⟨ih.1.fetches hfetch hplaced, fun vma n page hm => ?_⟩
    obtain ⟨hle, ha, hmaps⟩ := ih.2 vma n page hm
    exact ⟨hle, ha, hmaps.grows (hfetch.grows htab hcr3)⟩
  | anon hr hf hh hb hret ih =>
    rw [isrPf, hf.not_present, if_neg Bool.false_ne_true, hh.found] at hret
    dsimp only at hret
    split_ifs at hret with hden hanon
    · obtain ⟨hok, hgrow⟩ := ih.1.vmallocPage hf hret
      refine ⟨hok, fun vma n page hm => ?_⟩
      obtain ⟨hle, ha, hmaps⟩ := ih.2 vma n page hm
      exact ⟨hle, ha, hmaps.grows hgrow⟩
    · exact absurd (Bool.eq_false_iff.mpr hanon) hb
  | file hr hf hh hb hserved hret ih =>
    obtain ⟨st1, hret1, -, hmaps⟩ := (maps_iff_served ih.1 hf hh hb _).mpr hserved
    obtain rfl := Outcome.returned.inj (hret1.symm.trans hret)
    rw [isrPf_eq hf hh hb] at hret
    split_ifs at hret with hden
    obtain ⟨_, _, _, -, -, hplaced, hgrow, -, hfetch, -, -⟩ := mapFilePage_spec ih.1.toPlaced hf hret
    refine ⟨ih.1.fetches hfetch hplaced, fun vma' n' page hm => ?_⟩
    rcases hm with hm | hm
    · obtain ⟨rfl, rfl, rfl⟩ := hm
      exact ⟨(hh.addr_le hf.addr_lt).1, (hh.addr_le hf.addr_lt).2, hmaps⟩
    · obtain ⟨hle, ha, hmaps⟩ := ih.2 vma' n' page hm
      exact ⟨hle, ha, hmaps.grows hgrow⟩

theorem Touched.load {clusters a : ℕ} (hok : MmOk dev st used) (hv : Volume fs clusters)
    (hn : RegularFile fs dev clusters n) (ha : a < 2 ^ 32) (h : Touched fs dev st vma n (floorPg a)) :
    st.load a = some (n.fileByte fs dev (vma.offset + (a - vma.addr))) := by
  obtain ⟨hle, halign, off, paddr, tr, hoff, haoff, hcache, hwalk, hframe⟩ := h
  rw [MmState.load, hwalk, Option.map_some, hframe, hok.bytes off paddr hcache]
  obtain ⟨-, rfl⟩ := getDevOffset_aligned hv hn hoff haoff
  -- the page of the area at `a` is that of the file, and so is the place in it
  have hpos : vma.offset + (a - vma.addr) =
      pgSz * (fileOffset vma (floorPg a) / pgSz) + a % pgSz := by
    rw [pgSz_mul_div halign, fileOffset]
    rw [floorPg_eq (ha.trans (by norm_num)), Nat.mul_comm] at hle ⊢
    rw [pgSz_eq]
    omega
  have hmod : a % pgSz < pgSz := Nat.mod_lt _ (by decide)
  rw [hpos, Inode.fileByte, Nat.mul_add_div (by decide), Nat.div_eq_of_lt hmod, Nat.add_zero,
    Nat.mul_add_mod, Nat.mod_mod]

end Runs

def twoPagesVfs : Vfs where
  dentries := fun d => if d = 1 then some { inode := 1, parent := none, component := [] } else none
  inodes := fun i => if i = 1 then some twoClustersFile else none
  dcache := fun _ => none
  startClusterToInode := fun _ => none
  root := 1
  nextInode := 2

def twoPages : VirtualMemoryArea where
  addr := 0x400000
  len := 0x2000
  prot := { readable := true }
  flags := {}
  dentry := some 1
  offset := 0

/-- The same area over the second page of the file only. -/
def lastPage : VirtualMemoryArea := { twoPages with len := 0x1000, offset := 0x1000 }

def nothingCached : MmState where
  tables := hhdmOnly
  cr3 := 0x1000
  phys := fun _ _ => 0
  cache := fun _ => none
  buf := 0xFDC00000

/-- Memory for a page, for its table and for one lease. -/
def twoNewPages : FaultPages where
  page := some 0xC0002000
  table := some 0xC0003000
  fat := fun k => if k = 0 then ⟨some 0xC0004000, some 0xC0005000⟩ else ⟨none, none⟩

theorem nothingCached_ok : MmOk twoClustersDev nothingCached {0xC0001000} :=
  ⟨⟨⟨nofun, nofun, nofun⟩, hhdmOnly_wellFormed⟩, nofun⟩

theorem freshPage_of_mem {used : Set ℕ} {page : ℕ}
    (h : page ∈ [0xC0002000, 0xC0003000, 0xC0004000, 0xC0005000]) (hunused : page ∉ used) : FreshPage used page := by
  fin_cases h <;> exact ⟨by decide, by decide, by decide, hunused⟩

theorem twoNewPages_fresh : twoNewPages.Fresh {0xC0001000} where
  fat := by
    intro k
    cases k with
    | zero =>
      constructor
      · rintro page ⟨⟩
        exact freshPage_of_mem (by decide) (by simp [leased])
      · rintro page ⟨⟩
        exact freshPage_of_mem (by decide) (by simp [leased, usedWith, twoNewPages])
    | succ k => constructor <;> rintro page ⟨⟩
  last := by
    have hfat : ∀ page k, (twoNewPages.fat k).page = some page ∨ (twoNewPages.fat k).table = some page →
        page = 0xC0004000 ∨ page = 0xC0005000 := by
      intro page k h
      cases k with
      | zero => exact h.imp (fun hp => (Option.some.inj hp).symm) fun hp => (Option.some.inj hp).symm
      | succ k => rcases h with h | h <;> cases h
    constructor
    · rintro page ⟨⟩
      refine freshPage_of_mem (by decide) ?_
      rintro (h | ⟨k, h⟩)
      · exact absurd h (by decide)
      · exact absurd (hfat _ k h) (by decide)
    · rintro page ⟨⟩
      refine freshPage_of_mem (by decide) ?_
      rintro ((h | ⟨k, h⟩) | h)
      · exact absurd h (by decide)
      · exact absurd (hfat _ k h) (by decide)
      · exact absurd h (by decide)

theorem hhdmOnly_entry {a : ℕ} (ha : a < 0xC0000000) : hhdmOnly (pdOf 0x1000) (pdIdx (floorPg a)) = {} := by
  have hentry : pdIdx (floorPg a) ≠ 768 := by
    rw [pdIdx_eq, floorPg_eq (by omega)]
    omega
  rw [hhdmOnly, if_neg fun h => hentry h.2]

/-- A read of the first page of the file takes one lease. -/
theorem firstPage_read_kept : ∃ l,
    (List.forM [(.read twoClusters twoClustersFile (fun _ => 0) 0 16 : Leased.FsCall Unit)] Leased.FsCall.run).exec
        (leaseStep twoClustersDev twoNewPages.fat) ⟨nothingCached, 0⟩ = some ((), l) ∧
      l.mm.cache 4096 = some 0x4000 ∧ walk l.mm.tables l.mm.cr3 = walk hhdmOnly 0x1000 := by
  have hcache : ((List.forM [(.read twoClusters twoClustersFile (fun _ => 0) 0 16 : Leased.FsCall Unit)]
      Leased.FsCall.run).exec (leaseStep twoClustersDev twoNewPages.fat) ⟨nothingCached, 0⟩).map
        (fun x => x.2.mm.cache 4096) = some (some 0x4000) := by decide +kernel
  obtain ⟨⟨⟨⟩, l⟩, hrun, hcache⟩ := Option.map_eq_some_iff.mp hcache
  obtain ⟨-, -, hwalk, -⟩ := fsCalls_keep_translations nothingCached_ok.toPlaced twoNewPages_fresh.fat _ hrun
  exact ⟨l, hrun, hcache, hwalk⟩

/-- A fault anywhere below the kernel, in page tables without a table. -/
theorem hhdmOnly_fault {st : MmState} {err : PFErrorCode} {a : ℕ} (htab : st.tables = hhdmOnly)
    (hcr3 : st.cr3 = 0x1000) (hp : err.p = false) (ha : a < 0xC0000000) :
    Fault st {0xC0001000} twoNewPages err a where
  addr_lt := by omega
  not_present := hp
  absent := by
    rw [htab, hcr3, walk_eq (by decide) (isPage_floorPg (by omega)), tableOf, hhdmOnly_entry ha]
    rfl
  not_huge := by
    rw [htab, hcr3, hhdmOnly_entry ha]
    rfl
  fresh := twoNewPages_fresh

end HmmOS.Arch.PageFault
