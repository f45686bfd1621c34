import HmmOS.Arch.DirectoryIsolation
import HmmOS.Arch.PageFaultSafety

/-! # Processes that share the page cache

The processes share physical memory and the page cache, through which the kernel reads the
device: what a process stores into a page of the cache becomes what the kernel reads.
-/
namespace HmmOS.Arch.PageFault
open Lib Lib.IntervalList Nonstd Util.Algorithm PageTable Fs Proc Function

structure AddressSpace where
  cr3 : ℕ
  vmas : List VirtualMemoryArea

/-- The state once another directory is the current one. -/
def MmState.on (st : MmState) (cr3 : ℕ) : MmState := { st with cr3 := cr3 }

def MmState.poke (st : MmState) (paddr i : ℕ) (b : UInt8) : MmState :=
  { st with phys := Function.update st.phys paddr (Function.update (st.phys paddr) i b) }

def MmState.store (st : MmState) (a : ℕ) (b : UInt8) : Option MmState :=
  match walk st.tables st.cr3 (floorPg a) with
  | some tr =>
    if tr.user && tr.writable then some (st.poke (pgSz * tr.frame) (a % pgSz) b) else none
  | none => none

section Device
variable {st st' : MmState} {dev : Bytes} {used : Set ℕ} {off paddr i : ℕ}

theorem poke_cache (st : MmState) (paddr i : ℕ) (b : UInt8) : (st.poke paddr i b).cache = st.cache := rfl

theorem poke_phys (st : MmState) (paddr i : ℕ) (b : UInt8) : (st.poke paddr i b).phys =
    update st.phys paddr (update (st.phys paddr) i b) := rfl

/-- A byte stored into a page of the cache is a byte of the device from then on. -/
theorem device_poke (h : Placed st used) (hc : st.cache off = some paddr) (hi : i < pgSz)
    (b : UInt8) : (st.poke paddr i b).device dev = update (st.device dev) (off + i) b := by
  have ha := h.aligned off paddr hc
  obtain ⟨hpage, hmod⟩ := page_of_add ha hi
  funext x
  by_cases hx : x = off + i
  · rw [hx, update_self, MmState.device, poke_cache, poke_phys, hpage, hmod, hc]
    dsimp only
    rw [update_self, update_self]
  · rw [update_of_ne hx, MmState.device, MmState.device, poke_cache, poke_phys]
    cases hp : st.cache (pgSz * (x / pgSz)) with
    | none => rfl
    | some p =>
      dsimp only
      by_cases hpp : p = paddr
      · -- the same page, so another place in it
        have hoff : pgSz * (x / pgSz) = off := h.distinct _ _ paddr (hpp ▸ hp) hc
        have hne : x % pgSz ≠ i := by
          intro he
          apply hx
          rw [← hoff, ← he]
          exact (Nat.div_add_mod x pgSz).symm
        rw [hpp, update_self, update_of_ne hne]
      · rw [update_of_ne hpp]

theorem device_poke_uncached (hno : ∀ off, st.cache off ≠ some paddr) (b : UInt8) :
    (st.poke paddr i b).device dev = st.device dev := by
  funext x
  rw [MmState.device, MmState.device, poke_cache, poke_phys]
  cases hp : st.cache (pgSz * (x / pgSz)) with
  | none => rfl
  | some p =>
    have hne : p ≠ paddr := by
      rintro rfl
      exact hno _ hp
    dsimp only
    rw [update_of_ne hne]

end Device

/-- Every directory has pages of its own. -/
def Separate {ι : Type*} (spaces : ι → AddressSpace) (tables : PtMem) (used : Set ℕ) : Prop :=
  ∃ pages : ι → Set ℕ, (∀ i, WellFormed tables (spaces i).cr3 (pages i)) ∧ (∀ i, pages i ⊆ used) ∧
    Pairwise fun i j => Disjoint (pages i) (pages j)

section Directories
variable {mem mem' : PtMem} {cr3 virt : ℕ} {pages used : Set ℕ}

theorem walk_congr (hw : WellFormed mem cr3 pages) (h : ∀ q ∈ pages, mem' q = mem q) :
    walk mem' cr3 = walk mem cr3 := by
  funext virt
  by_cases hv : IsPage virt
  · rw [walk_eq hw.dir hv, walk_eq hw.dir hv, tableOf_congr (congrFun (h _ hw.dir_used) _)]
    cases ht : tableOf mem (pdOf cr3) (pdIdx virt) with
    | none => rfl
    | some pt => rw [Option.bind_some, Option.bind_some, h pt (hw.tableOf_used (pdIdx_lt hv.2) ht).1]
  · rw [walk_of_not_isPage hv, walk_of_not_isPage hv]

theorem owns_of_wellFormed (hw : WellFormed mem cr3 pages) : Owns mem cr3 pages where
  dir := hw.dir_used
  table := by
    intro i hi hp hs
    obtain ⟨pt, hpt, ht, hne⟩ := hw.owns i hi hp hs
    rw [← tablePage_of_directToHhdm (tableOf_eq_some.mp ht).2.2]
    exact ⟨hpt, hne⟩

variable {ι : Type*} {spaces : ι → AddressSpace}

/-- A call on the directory of one process is not seen by the others. -/
theorem Separate.step {tables tables' : PtMem} {newPage : Option ℕ} {op : PtOp} {ok : Bool} {i : ι}
    (h : Separate spaces tables used) (hf : ∀ page, newPage = some page → FreshPage used page)
    (hs : ptStep tables (spaces i).cr3 newPage op = some (tables', ok))
    (hop : op.Valid (tables (pdOf (spaces i).cr3))) :
    Separate spaces tables' (usedWith used newPage) ∧
      ∀ j ≠ i, walk tables' (spaces j).cr3 = walk tables (spaces j).cr3 := by
  classical
  obtain ⟨pages, hwf, hsub, hdis⟩ := h
  have hf' : ∀ page, newPage = some page → FreshPage (pages i) page :=
    fun page hpage => (hf page hpage).mono (hsub i)
  have hwf' : WellFormed tables' (spaces i).cr3 (usedWith (pages i) newPage) := by
    obtain ⟨mem', hm, hst⟩ := ptStep_spec (hwf i) hf' hop
    obtain ⟨rfl, -⟩ := Prod.mk.inj (Option.some.inj (hs.symm.trans hm))
    exact hst.wf.mono (usedAfter_subset ..)
  -- what is written lies in the pages of the directory or in the new table
  have hframe : ∀ q ∉ usedWith (pages i) newPage, tables' q = tables q := by
    intro q hq
    exact ((owns_of_wellFormed (hwf i)).ptStep hf (hsub i) hop.1.2 hs).frame q
      fun hmem => hq (usedAfter_subset _ _ _ _ _ hmem)
  have hother : ∀ j ≠ i, ∀ q ∈ pages j, q ∉ usedWith (pages i) newPage := by
    rintro j hj q hq (hmem | hnew)
    · exact Set.disjoint_left.mp (hdis hj) hq hmem
    · exact (hf q hnew).unused (hsub j hq)
  have hsame : ∀ j ≠ i, ∀ q ∈ pages j, tables' q = tables q :=
    fun j hj q hq => hframe q (hother j hj q hq)
  refine ⟨⟨update pages i (usedWith (pages i) newPage), ?_, ?_, ?_⟩,
    fun j hj => walk_congr (hwf j) (hsame j hj)⟩
  · intro j
    by_cases hj : j = i
    · rw [hj, update_self]
      exact hwf'
    · rw [update_of_ne hj]
      exact (hwf j).congr (hsame j hj _ (hwf j).dir_used)
  · intro j
    by_cases hj : j = i
    · rw [hj, update_self]
      exact Set.union_subset_union_left _ (hsub i)
    · rw [update_of_ne hj]
      exact (hsub j).trans (subset_usedWith used _)
  · intro j k hjk
    by_cases hj : j = i
    · have hk : k ≠ i := fun hk => hjk (hj.trans hk.symm)
      rw [hj, update_self, update_of_ne hk]
      exact (Set.disjoint_left.mpr (hother k hk)).symm
    · rw [update_of_ne hj]
      by_cases hk : k = i
      · rw [hk, update_self]
        exact Set.disjoint_left.mpr (hother j hj)
      · rw [update_of_ne hk]
        exact hdis hjk

end Directories

/-- The volume, with the contents of the device at the start, and the processes. -/
structure Machine (ι : Type*) where
  fs : Filesystem
  dev : Bytes
  vfs : Vfs
  spaces : ι → AddressSpace

namespace Machine
variable {ι : Type*} (M : Machine ι)

abbrev cr3 (i : ι) : ℕ := (M.spaces i).cr3
abbrev vmas (i : ι) : List VirtualMemoryArea := (M.spaces i).vmas

def dataStart : ℕ := 512 * M.fs.dataRegionOffsetLba

/-- Where the handler looks for the contents of an area, whichever page was touched. -/
def areaStart (n : Inode) (vma : VirtualMemoryArea) : ℕ :=
  M.fs.clusterStart (M.fs.chain M.dev n.startCluster (floorPg vma.offset / pgSz))

/-- The file allocation table lies before the data region, areas are sorted and disjoint, and the files behind
them are regular. -/
structure Mounted (clusters : ℕ) : Prop where
  volume : Volume M.fs clusters
  fat_first : 512 * M.fs.fatOffsetLba + 4 * (clusters + 2) ≤ M.dataStart
  areas : ∀ i, VmasOk (M.vmas i)
  regular : ∀ i, ∀ vma ∈ M.vmas i, ∀ n, fileOf M.vfs vma = some n →
    RegularFile M.fs M.dev clusters n

inductive Run (st0 : MmState) (used0 : Set ℕ) : MmState → Set ℕ → Prop
  | start : Run st0 used0 st0 used0
  | fault {st st' : MmState} {used : Set ℕ} {i : ι} {new : FaultPages} {err : PFErrorCode}
      {faultedAddr : ℕ} (hr : Run st0 used0 st used)
      (hf : Fault (st.on (M.cr3 i)) used new err faultedAddr)
      (hret : isrPf M.fs M.dev M.vfs (M.vmas i) (st.on (M.cr3 i)) new err faultedAddr = .returned st') :
      Run st0 used0 st' (new.addTo used)
  | store {st st' : MmState} {used : Set ℕ} {i : ι} {a : ℕ} {b : UInt8} (hr : Run st0 used0 st used)
      (hstore : (st.on (M.cr3 i)).store a b = some st') : Run st0 used0 st' used
  | read {st st' : MmState} {used : Set ℕ} {i : ι} {newPage : Option ℕ} {off paddr : ℕ}
      (hr : Run st0 used0 st used) (hf : ∀ page, newPage = some page → FreshPage used page)
      (hget : cacheGet M.dev (st.on (M.cr3 i)) newPage off = some (st', paddr)) :
      Run st0 used0 st' (usedWith used newPage)

/-- The area is over a page of the file, and the frame is the page of the cache for it. -/
def MapsArea (st : MmState) (vma : VirtualMemoryArea) (frame : ℕ) : Prop :=
  ∃ n, fileOf M.vfs vma = some n ∧ floorPg vma.offset < n.size ∧
    st.cache (M.areaStart n vma) = some (pgSz * frame)

/-- What lies before the data region is never changed; pages of file-backed areas are pages of the cache. -/
structure Ok (st : MmState) (used : Set ℕ) : Prop extends CachePlaced st.cache used where
  separate : Separate M.spaces st.tables used
  head : ∀ x < M.dataStart, st.device M.dev x = M.dev x
  user : ∀ i virt tr, walk st.tables (M.cr3 i) virt = some tr → tr.user = true →
    pgSz * tr.frame + hhdmStart ∈ used ∧
      ∀ off, st.cache off = some (pgSz * tr.frame) → M.dataStart ≤ off
  files : ∀ i, ∀ vma ∈ M.vmas i, FileBacked vma → ∀ a, Has vma a → ∀ tr,
    walk st.tables (M.cr3 i) (floorPg a) = some tr → M.MapsArea st vma tr.frame

variable {M} {clusters a : ℕ} {st st' : MmState} {used used' : Set ℕ} {i : ι}
  {vma : VirtualMemoryArea} {n : Inode} {off paddr virt : ℕ} {writable : Bool}

theorem Ok.placed (h : M.Ok st used) (i : ι) : Placed (st.on (M.cr3 i)) used := by
  obtain ⟨pages, hwf, hsub, -⟩ := h.separate
  exact ⟨h.toCachePlaced, (hwf i).mono (hsub i)⟩

theorem Ok.on (h : M.Ok st used) (cr3 : ℕ) : M.Ok (st.on cr3) used :=
  ⟨h.toCachePlaced, h.separate, h.head, h.user, h.files⟩

theorem separate_mono (h : Separate M.spaces st.tables used) (hu : used ⊆ used') :
    Separate M.spaces st.tables used' := by
  obtain ⟨pages, hwf, hsub, hdis⟩ := h
  exact ⟨pages, hwf, fun i => (hsub i).trans hu, hdis⟩

theorem Ok.mono (h : M.Ok st used) (hu : used ⊆ used') : M.Ok st used' where
  toCachePlaced := h.toCachePlaced.mono hu
  separate := separate_mono h.separate hu
  head := h.head
  user := by
    intro i virt tr hw hu'
    obtain ⟨hused, hdata⟩ := h.user i virt tr hw hu'
    exact ⟨hu hused, hdata⟩
  files := h.files

theorem Ok.sameFat (h : M.Ok st used) (hm : M.Mounted clusters) :
    SameFat M.fs clusters M.dev (st.device M.dev) := by
  intro x hx _
  exact h.head x (hx.trans_le hm.fat_first)

theorem Ok.areaStart_eq (h : M.Ok st used) (hm : M.Mounted clusters) (hmem : vma ∈ M.vmas i)
    (hn : fileOf M.vfs vma = some n)
    (hoff : n.getDevOffset M.fs (st.device M.dev) (floorPg vma.offset) = some off)
    (ha : pgAligned off = true) : floorPg vma.offset < n.size ∧ off = M.areaStart n vma := by
  have hfile := hm.regular i vma hmem n hn
  obtain ⟨hlt, heq⟩ := getDevOffset_aligned hm.volume (hfile.congr (h.sameFat hm)) hoff ha
  refine ⟨hlt, ?_⟩
  rw [heq, chain_congr (h.sameFat hm) hfile ((Nat.mul_div_le _ _).trans_lt hlt), areaStart]

theorem dataStart_le_areaStart (M : Machine ι) (n : Inode) (vma : VirtualMemoryArea) :
    M.dataStart ≤ M.areaStart n vma := Nat.le_add_right _ _

/-- Reads of the device and changes of the tables that change no translation. -/
theorem Ok.fetches {pages : List ℕ} (h : M.Ok st used) (hu : used ⊆ used')
    (hfetch : Fetches M.dev used st st' pages) (hplaced : CachePlaced st'.cache used')
    (hsep : Separate M.spaces st'.tables used')
    (hwalk : ∀ j, walk st'.tables (M.cr3 j) = walk st.tables (M.cr3 j)) : M.Ok st' used' where
  toCachePlaced := hplaced
  separate := hsep
  head := by
    rw [hfetch.device_eq]
    exact h.head
  user := by
    intro j virt tr hw huser
    rw [hwalk] at hw
    obtain ⟨hused, hdata⟩ := h.user j virt tr hw huser
    refine ⟨hu hused, ?_⟩
    intro o ho
    cases hold : st.cache o with
    | none => exact absurd hused (hfetch.read o _ hold ho).1
    | some p => exact hdata o (hold.trans ((hfetch.kept o p hold).1.symm.trans ho))
  files := by
    intro j vma hvma hb a hhas tr hw
    rw [hwalk] at hw
    obtain ⟨n, hn, hlt, hcache⟩ := h.files j vma hvma hb a hhas tr hw
    exact ⟨n, hn, hlt, (hfetch.kept _ _ hcache).1⟩

theorem Ok.read {newPage : Option ℕ} (h : M.Ok st used) (hf : ∀ page, newPage = some page → FreshPage used page)
    (hget : cacheGet M.dev (st.on (M.cr3 i)) newPage off = some (st', paddr)) :
    M.Ok st' (usedWith used newPage) ∧ st'.device M.dev = st.device M.dev := by
  obtain ⟨hplaced, hfetch, -⟩ := (h.placed i).cacheGet hf hget
  obtain ⟨htab, -⟩ := cacheGet_tables hf hget
  refine ⟨(h.on _).fetches (subset_usedWith used _) hfetch hplaced.toCachePlaced ?_ ?_, hfetch.device_eq⟩
  · rw [htab]
    exact separate_mono h.separate (subset_usedWith used _)
  · rw [htab]
    exact fun _ => rfl

/-- A lease that is over. -/
theorem Ok.lease {fat : ℕ → NewPages} {l l1 l2 : LeaseState} {r : Request} {page : Bytes}
    (h : M.Ok l.mm (leased used fat l.leases)) (hcr3 : l.mm.cr3 = M.cr3 i)
    (hf : (fat l.leases).Fresh (leased used fat l.leases))
    (hacquire : leaseStep M.dev fat l (.acquire r) = some (page, l1))
    (hrelease : leaseStep M.dev fat l1 .release = some ((), l2)) :
    M.Ok l2.mm (leased used fat l2.leases) ∧ l2.mm.cr3 = M.cr3 i ∧ l2.mm.device M.dev = l.mm.device M.dev := by
  have hplaced : Placed l.mm (leased used fat l.leases) := by
    have := h.placed i
    rwa [MmState.on, ← hcr3] at this
  obtain ⟨hk, hplaced', hleasing, -⟩ := lease_spec hplaced hf hacquire hrelease
  refine ⟨?_, hleasing.cr3.trans hcr3, hleasing.device_eq⟩
  have hwalk := hleasing.walk_eq
  rw [hleasing.cr3, hcr3] at hwalk
  obtain ⟨st, paddr, tables, tables', ok, hget, hmap, hun, rfl, rfl⟩ := lease_cases hacquire hrelease
  obtain ⟨hplaced1, -, hcache⟩ := hplaced.cacheGet hf.page hget
  obtain ⟨htab, hsame, -⟩ := cacheGet_tables hf.page hget
  have hphys := lt_of_lt_hhdmLen (hplaced1.place _ _ hcache).2.1
  obtain ⟨hv, hh, -, hst⟩ := map_inv hplaced1.wf hf.table st.buf.toNat_lt hphys hmap
  have hsep : Separate M.spaces st.tables (usedWith (leased used fat l.leases) (fat l.leases).page) :=
    htab ▸ separate_mono h.separate (subset_usedWith _ _)
  have hhuge := (hst.huge _).trans hh
  rw [hsame.trans hcr3] at hh hhuge hmap hun
  -- both calls act on the directory of the process
  have hstep : ptStep st.tables (M.cr3 i) (fat l.leases).table (.map paddr st.buf.toNat false true false) =
      some (tables, true) := hmap
  have hstep' : ptStep tables (M.cr3 i) none (.unmap st.buf.toNat) = some (tables', ok) := hun
  obtain ⟨hsep1, hothers⟩ := hsep.step hf.table hstep ⟨hv, hh, (hplaced1.place _ _ hcache).1, hphys⟩
  obtain ⟨hsep2, hothers'⟩ := hsep1.step (fun _ hnone => by cases hnone) hstep' ⟨hv, hhuge, trivial⟩
  rw [usedWith_none] at hsep2
  refine h.fetches ((fat _).subset_addTo _) hleasing.toFetches hplaced'.toCachePlaced hsep2 ?_
  intro j
  by_cases hj : j = i
  · rw [hj]
    exact hwalk
  · exact (hothers' j hj).trans ((hothers j hj).trans (by rw [htab]))

/-- A program that looks for a page of a file. -/
theorem Ok.leases {α : Type} {p : LeaseM DirStop α} {x : α} {fat : ℕ → NewPages} {l : LeaseState} (h : M.Ok st used)
    (hcr3 : st.cr3 = M.cr3 i) (hfat : ∀ k, (fat k).Fresh (leased used fat k)) (hp : Leased.OneLease p)
    (hrun : p.exec (leaseStep M.dev fat) ⟨st, 0⟩ = some (x, l)) :
    M.Ok l.mm (leased used fat l.leases) ∧ l.mm.cr3 = M.cr3 i ∧ l.mm.device M.dev = st.device M.dev := by
  refine leases_keep (P := fun l => M.Ok l.mm (leased used fat l.leases) ∧ l.mm.cr3 = M.cr3 i ∧
    l.mm.device M.dev = st.device M.dev) ?_ hp ⟨h, hcr3, rfl⟩ hrun
  rintro l r page l1 l2 ⟨hok, hcr3, hdev⟩ hacquire hrelease
  obtain ⟨hok', hcr3', hdev'⟩ := hok.lease hcr3 (hfat _) hacquire hrelease
  exact ⟨hok', hcr3', hdev'.trans hdev⟩

theorem Ok.map {newTable : Option ℕ} (h : M.Ok st used)
    (hf : ∀ page, newTable = some page → FreshPage used page) (hv : IsPage virt)
    (ha : pgAligned paddr = true) (hlt : paddr < hhdmLen) (hused : paddr + hhdmStart ∈ used)
    (hdata : ∀ off, st.cache off = some paddr → M.dataStart ≤ off)
    (hfiles : ∀ vma ∈ M.vmas i, FileBacked vma → ∀ a, Has vma a → floorPg a = virt →
      M.MapsArea st vma (paddr / pgSz))
    (hret : mapUser (st.on (M.cr3 i)) newTable paddr virt writable = .returned st') :
    M.Ok st' (usedWith used newTable) ∧ st'.device M.dev = st.device M.dev := by
  obtain ⟨hplaced, -, hcache, hphys, -, hwalk⟩ := mapUser_spec (h.placed i) hf hv hlt hret
  obtain ⟨hsep, hothers⟩ : Separate M.spaces st'.tables (usedWith used newTable) ∧
      ∀ j ≠ i, walk st'.tables (M.cr3 j) = walk st.tables (M.cr3 j) := by
    obtain ⟨tables, ok, hmap, rfl⟩ := mapUser_cases hret
    have hphys := lt_of_lt_hhdmLen hlt
    obtain ⟨-, hh, -⟩ := map_inv (h.placed i).wf hf hv.2 hphys hmap
    have hstep : ptStep st.tables (M.cr3 i) newTable (.map paddr virt true writable false) = some (tables, ok) :=
      hmap
    exact h.separate.step hf hstep ⟨hv, hh, ha, hphys⟩
  have hcache' : st'.cache = st.cache := hcache
  have hdev : st'.device M.dev = st.device M.dev := device_congr hcache' hphys
  have hcr3 : st'.cr3 = M.cr3 i := by
    obtain ⟨tables, ok, -, rfl⟩ := mapUser_cases hret
    rfl
  -- a translation is the new one, or an old one
  have hcases : ∀ j v tr, walk st'.tables (M.cr3 j) v = some tr →
      walk st.tables (M.cr3 j) v = some tr ∨
        j = i ∧ v = virt ∧ tr = ⟨paddr / pgSz, writable, true, false⟩ := by
    intro j v tr hw
    by_cases hj : j = i
    · rw [hj, ← hcr3, hwalk] at hw
      split_ifs at hw with habsent
      · by_cases hvv : v = virt
        · rw [hvv, update_self, Option.some.injEq] at hw
          exact .inr ⟨hj, hvv, hw.symm⟩
        · rw [update_of_ne hvv] at hw
          exact .inl (hj ▸ hw)
      · exact .inl (hj ▸ hw)
    · rw [hothers j hj] at hw
      exact .inl hw
  refine ⟨⟨hplaced.toCachePlaced, hsep, ?_, ?_, ?_⟩, hdev⟩
  · intro x hx
    exact (congrFun hdev x).trans (h.head x hx)
  · intro j v tr hw hu
    rw [hcache']
    rcases hcases j v tr hw with hw | ⟨-, -, rfl⟩
    · obtain ⟨hin, hd⟩ := h.user j v tr hw hu
      exact ⟨subset_usedWith used _ hin, hd⟩
    · rw [pgSz_mul_div ha]
      exact ⟨subset_usedWith used _ hused, hdata⟩
  · intro j vma hvma hb a hhas tr hw
    rw [MapsArea, hcache']
    rcases hcases j (floorPg a) tr hw with hw | ⟨rfl, hpage, rfl⟩
    · exact h.files j vma hvma hb a hhas tr hw
    · exact hfiles vma hvma hb a hhas hpage

theorem store_cases {b : UInt8} (hstore : st.store a b = some st') :
    ∃ tr, walk st.tables st.cr3 (floorPg a) = some tr ∧ tr.user = true ∧ tr.writable = true ∧
      st' = st.poke (pgSz * tr.frame) (a % pgSz) b := by
  rw [MmState.store] at hstore
  cases hw : walk st.tables st.cr3 (floorPg a) with
  | none =>
    rw [hw] at hstore
    cases hstore
  | some tr =>
    rw [hw] at hstore
    dsimp only at hstore
    split_ifs at hstore with hrights
    rw [Bool.and_eq_true] at hrights
    exact ⟨tr, rfl, hrights.1, hrights.2, (Option.some.inj hstore).symm⟩

theorem store_eq {tr : Translation} (hw : walk st.tables st.cr3 (floorPg a) = some tr)
    (huser : tr.user = true) (hwritable : tr.writable = true) (b : UInt8) :
    st.store a b = some (st.poke (pgSz * tr.frame) (a % pgSz) b) := by
  rw [MmState.store, hw]
  dsimp only
  rw [huser, hwritable, Bool.and_self, if_pos rfl]

/-- A store in user mode changes nothing before the data region. -/
theorem Ok.store {b : UInt8} (h : M.Ok st used) (hstore : (st.on (M.cr3 i)).store a b = some st') :
    M.Ok st' used := by
  obtain ⟨tr, hw, huser, -, rfl⟩ := store_cases hstore
  obtain ⟨-, hdata⟩ := h.user i _ tr hw huser
  refine ⟨h.toCachePlaced, h.separate, ?_, h.user, h.files⟩
  intro x hx
  by_cases hc : ∃ off, st.cache off = some (pgSz * tr.frame)
  · obtain ⟨off, hoff⟩ := hc
    have hne : x ≠ off + a % pgSz := by
      have := hdata off hoff
      omega
    rw [device_poke (h.placed i) hoff (mod_pgSz_lt a), update_of_ne hne]
    exact h.head x hx
  · have hno : ∀ off, (st.on (M.cr3 i)).cache off ≠ some (pgSz * tr.frame) :=
      fun off hoff => hc ⟨off, hoff⟩
    rw [device_poke_uncached hno]
    exact h.head x hx

theorem has_lt (hm : M.Mounted clusters) (hmem : vma ∈ M.vmas i) (hhas : Has vma a) : a < 2 ^ 32 :=
  hhas.2.trans ((hm.areas i).bounded vma hmem)

theorem Mounted.eq_of_floorPg (hm : M.Mounted clusters) {vma' : VirtualMemoryArea} {a' : ℕ}
    (hmem : vma ∈ M.vmas i) (hmem' : vma' ∈ M.vmas i) (hhas : Has vma a) (hhas' : Has vma' a')
    (hpage : floorPg a = floorPg a') : vma = vma' := by
  apply (hm.areas i).eq_of_page hmem hmem' hhas hhas'
  have ha := has_lt hm hmem hhas
  have ha' := has_lt hm hmem' hhas'
  rw [floorPg_eq (ha.trans (by norm_num)), floorPg_eq (ha'.trans (by norm_num))] at hpage
  rw [pgSz_eq]
  omega

theorem on_eq {cr3 : ℕ} (h : st.cr3 = cr3) : st.on cr3 = st := by
  rw [← h]
  rfl

theorem Ok.fault {new : FaultPages} {err : PFErrorCode} {faultedAddr : ℕ} (h : M.Ok st used)
    (hm : M.Mounted clusters) (hf : Fault (st.on (M.cr3 i)) used new err faultedAddr)
    (hret : isrPf M.fs M.dev M.vfs (M.vmas i) (st.on (M.cr3 i)) new err faultedAddr = .returned st') :
    M.Ok st' (new.addTo used) ∧ st'.device M.dev = st.device M.dev := by
  obtain ⟨hp, vma, hfind, hserves, -⟩ := isrPf_returned (h.placed i) hf.fresh hret
  obtain ⟨hmem, hhas⟩ := has_of_find (hm.areas i).bounded hfind
  have hv := isPage_floorPg hf.addr_lt
  -- the page belongs to the area that was found
  have hunique : ∀ vma' ∈ M.vmas i, ∀ a, Has vma' a → floorPg a = floorPg faultedAddr → vma' = vma :=
    fun vma' hmem' a hhas' hpage => hm.eq_of_floorPg hmem' hmem hhas' hhas hpage
  rw [isrPf_serves hp hfind hserves] at hret
  split_ifs at hret with hb
  · obtain ⟨n, r, l, st1, paddr, hfile, hrun, hget, hmap⟩ := mapFilePage_cases hret
    obtain ⟨hok0, hcr3, hdev0⟩ := (h.on (M.cr3 i)).leases rfl hf.fresh.fat
      (Leased.getDevOffset_one M.fs n _) hrun
    rw [← on_eq hcr3] at hget
    obtain ⟨hok1, hdev⟩ := (hok0.mono (leased_subset used new.fat _)).read hf.fresh.last.page hget
    rw [on_eq hcr3] at hget
    obtain ⟨-, hcr3', -⟩ := cacheGet_tables hf.fresh.last.page hget
    obtain ⟨-, -, hcache, hobtain, -⟩ := filePage_prepared (h.placed i) hf.fresh hrun hget
    obtain ⟨hlt, hplace⟩ := h.areaStart_eq hm hmem hfile hobtain.place hobtain.aligned
    rw [hplace] at hcache
    obtain ⟨hpa, hplt, hused⟩ := hok1.place _ paddr hcache
    rw [← on_eq (hcr3'.trans hcr3)] at hmap
    obtain ⟨hok, hdev'⟩ := hok1.map hf.fresh.last.table hv hpa hplt hused
      (fun o ho => hok1.distinct o _ paddr ho hcache ▸ M.dataStart_le_areaStart n vma)
      (fun vma' hmem' _ a hhas' hpage => by
        rw [hunique vma' hmem' a hhas' hpage]
        exact ⟨n, hfile, hlt, (pgSz_mul_div hpa).symm ▸ hcache⟩) hmap
    exact ⟨hok, hdev'.trans (hdev.trans hdev0)⟩
  · have hok := h.mono (subset_usedWith used new.page)
    rcases vmallocPage_cases hf.fresh.toNewPages hret with ⟨-, rfl⟩ | ⟨page, hpage, hmap⟩
    · exact ⟨((hok.on _).mono (subset_usedWith _ _)).mono (new.addTo_subset used), rfl⟩
    · have hfresh := hf.fresh.toNewPages.page page hpage
      obtain ⟨hpa, hplt, hback⟩ := hfresh.direct
      obtain ⟨hok', hdev⟩ := hok.map hf.fresh.toNewPages.table hv hpa hplt (hback.symm ▸ Or.inr hpage)
        (fun o ho => absurd rfl (h.ne_fresh hfresh ho))
        (fun vma' hmem' hb' a hhas' heq => absurd (hunique vma' hmem' a hhas' heq ▸ hb') hb) hmap
      exact ⟨hok'.mono (new.addTo_subset used), hdev⟩

/-- Processes that have touched nothing yet: no page is mapped for user mode or in an area, and the pages of the
cache are those of the device. -/
structure Start (M : Machine ι) (st : MmState) (used : Set ℕ) : Prop extends CachePlaced st.cache used where
  separate : Separate M.spaces st.tables used
  bytes : st.device M.dev = M.dev
  kernel : ∀ i virt tr, walk st.tables (M.cr3 i) virt = some tr → tr.user = false
  untouched : ∀ i, ∀ vma ∈ M.vmas i, ∀ a, Has vma a → walk st.tables (M.cr3 i) (floorPg a) = none

theorem Start.ok (h : M.Start st used) : M.Ok st used where
  toCachePlaced := h.toCachePlaced
  separate := h.separate
  head := fun x _ => congrFun h.bytes x
  user := by
    intro i virt tr hw hu
    rw [h.kernel i virt tr hw] at hu
    cases hu
  files := by
    intro i vma hmem _ a hhas tr hw
    rw [h.untouched i vma hmem a hhas] at hw
    cases hw

theorem Run.ok {st0 : MmState} {used0 : Set ℕ} (hm : M.Mounted clusters) (h : M.Start st0 used0)
    (hr : M.Run st0 used0 st used) : M.Ok st used := by
  induction hr with
  | start => exact h.ok
  | fault _ hf hret ih => exact (ih.fault hm hf hret).1
  | store _ hstore ih => exact ih.store hstore
  | read _ hf hget ih => exact (ih.read hf hget).1

end Machine
end HmmOS.Arch.PageFault
