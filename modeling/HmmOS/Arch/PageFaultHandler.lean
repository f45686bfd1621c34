import HmmOS.Arch.PageFaultLeases

/-! # What a page fault does to the page tables

Both branches of `isr_pf` end in a call of `map` for the page that was touched.
-/
namespace HmmOS.Arch.PageFault
open Lib Nonstd Util.Algorithm PageTable Fs Proc Function

/-- What `operator new` returns in a fault was not in use. -/
structure FaultPages.Fresh (new : FaultPages) (used : Set ℕ) : Prop where
  fat : ∀ k, (new.fat k).Fresh (leased used new.fat k)
  last : new.toNewPages.Fresh (allLeased used new.fat)

/-- The pages that may be in use after a fault. -/
def FaultPages.addTo (new : FaultPages) (used : Set ℕ) : Set ℕ := new.toNewPages.addTo (allLeased used new.fat)

/-- A fault for a page that is not present. -/
structure Fault (st : MmState) (used : Set ℕ) (new : FaultPages) (err : PFErrorCode)
    (faultedAddr : ℕ) : Prop where
  addr_lt : faultedAddr < 2 ^ 32
  not_present : err.p = false
  absent : walk st.tables st.cr3 (floorPg faultedAddr) = none
  not_huge : (st.tables (pdOf st.cr3) (pdIdx (floorPg faultedAddr))).huge = false
  fresh : new.Fresh used

/-- The pages of the FAT that lead to the page of the file at `o`. -/
def fatPages (fs : Filesystem) (dev : Bytes) (st : MmState) (n : Inode) (o : ℕ) : List ℕ :=
  leasedPages (Leased.getDevOffset fs n o) (st.device dev)

/-- The page of the file at `o` is at `off` on the device, and there is memory for what is missing on the way
to it. -/
structure Obtainable (fs : Filesystem) (dev : Bytes) (st : MmState) (new : FaultPages) (n : Inode) (o off : ℕ) :
    Prop where
  place : n.getDevOffset fs (st.device dev) o = some off
  aligned : pgAligned off = true
  leases : Leasable st new.fat 0 (fatPages fs dev st n o)
  frame : st.cache off ≠ none ∨ off ∈ fatPages fs dev st n o ∨ new.page ≠ none

/-- There is a table for the page, or one has been made for the window, or there is memory for one. -/
def RoomFor (fs : Filesystem) (dev : Bytes) (st : MmState) (new : FaultPages) (n : Inode) (o page : ℕ) : Prop :=
  tableRoom st new.table page = true ∨ fatPages fs dev st n o ≠ [] ∧ pdIdx page = pdIdx st.buf.toNat

/-- The handler does not go to the branch for private anonymous areas. -/
def FileBacked (vma : VirtualMemoryArea) : Prop :=
  (vma.flags.mapAnon && vma.flags.mapPrivate) = false

instance (vma : VirtualMemoryArea) : Decidable (FileBacked vma) :=
  inferInstanceAs (Decidable (_ = _))

def refused (err : PFErrorCode) (faultedAddr : ℕ) (vma : VirtualMemoryArea) : Bool :=
  denied err vma.prot && !kernelAccess err faultedAddr

variable {fs : Filesystem} {dev : Bytes} {s : Vfs} {vmas : List VirtualMemoryArea} {st st' : MmState} {used : Set ℕ}
  {new : FaultPages} {err : PFErrorCode} {faultedAddr : ℕ} {vma : VirtualMemoryArea} {writable : Bool}

/-- The process is killed for a page that is present, for an address outside of all areas and for an
access that is refused. -/
theorem isrPf_killed (h : err.p = true ∨ vmas.find? (contains faultedAddr) = none ∨
      ∃ vma, vmas.find? (contains faultedAddr) = some vma ∧ refused err faultedAddr vma = true) :
    isrPf fs dev s vmas st new err faultedAddr = .killed := by
  rw [isrPf]
  cases hp : err.p with
  | true => rfl
  | false =>
    rw [hp] at h
    rcases h with h | h | ⟨vma, h, hrefused⟩
    · cases h
    · rw [if_neg Bool.false_ne_true, h]
    · rw [if_neg Bool.false_ne_true, h]
      exact if_pos hrefused

theorem isrPf_serves (hp : err.p = false) (hfind : vmas.find? (contains faultedAddr) = some vma)
    (hserves : refused err faultedAddr vma = false) : isrPf fs dev s vmas st new err faultedAddr =
      if FileBacked vma then mapFilePage fs dev s st new faultedAddr vma
      else vmallocPage st new.toNewPages (floorPg faultedAddr) vma.prot.writable := by
  rw [refused] at hserves
  rw [isrPf, hp, if_neg Bool.false_ne_true, hfind]
  dsimp only
  rw [hserves, if_neg Bool.false_ne_true]
  by_cases hb : FileBacked vma
  · rw [if_pos hb]
    exact if_neg (Bool.eq_false_iff.mp hb)
  · rw [if_neg hb]
    exact if_pos (Bool.not_eq_false _ ▸ hb)

theorem FaultPages.Fresh.toNewPages (h : new.Fresh used) : new.toNewPages.Fresh used := by
  have hsub : used ⊆ allLeased used new.fat := leased_subset used new.fat 0
  exact ⟨fun page hp => (h.last.page page hp).mono hsub,
    fun page hp => (h.last.table page hp).mono (Set.union_subset_union_left _ hsub)⟩

theorem FaultPages.addTo_subset (new : FaultPages) (used : Set ℕ) : new.toNewPages.addTo used ⊆ new.addTo used :=
  Set.union_subset_union_left _ (Set.union_subset_union_left _ (leased_subset used new.fat 0))

theorem mapFilePage_cases (hret : mapFilePage fs dev s st new faultedAddr vma = .returned st') :
    ∃ n r l st1 paddr, fileOf s vma = some n ∧
      (Leased.getDevOffset fs n (floorPg vma.offset)).exec (leaseStep dev new.fat) ⟨st, 0⟩ = some (r, l) ∧
      cacheGet dev l.mm new.page r.offset = some (st1, paddr) ∧
      mapUser st1 new.table paddr (floorPg faultedAddr) vma.prot.writable = .returned st' := by
  rw [mapFilePage] at hret
  cases hfile : fileOf s vma with
  | none =>
    rw [hfile] at hret
    cases hret
  | some n =>
    rw [hfile, Option.bind_some] at hret
    cases hrun : (Leased.getDevOffset fs n (floorPg vma.offset)).exec (leaseStep dev new.fat) ⟨st, 0⟩ with
    | none =>
      rw [hrun] at hret
      cases hret
    | some x =>
      rw [hrun] at hret
      dsimp only at hret
      cases hget : PageFault.cacheGet dev x.2.mm new.page x.1.offset with
      | none =>
        rw [hget] at hret
        cases hret
      | some y =>
        rw [hget] at hret
        exact ⟨n, x.1, x.2, y.1, y.2, rfl, hrun, hget, hret⟩

theorem vmallocPage_cases {virt : ℕ} (hf : new.toNewPages.Fresh used)
    (hret : vmallocPage st new.toNewPages virt writable = .returned st') :
    new.page = none ∧ st' = st ∨ ∃ page, new.page = some page ∧
      mapUser st new.table (page - hhdmStart) virt writable = .returned st' := by
  rw [vmallocPage] at hret
  cases hp : new.page with
  | none =>
    rw [hp] at hret
    exact .inl ⟨rfl, (Outcome.returned.inj hret).symm⟩
  | some page =>
    rw [hp] at hret
    dsimp only at hret
    rw [(hf.page page hp).hhdmToDirect_eq] at hret
    exact .inr ⟨page, rfl, hret⟩

/-- `st1` is ready for the call of `map`: everything is translated as before. -/
structure Prepared (st st1 : MmState) (used : Set ℕ) : Prop extends Grows st st1 where
  placed : Placed st1 used
  opens : DirectoryOpens st st1
  walk_eq : PageTable.walk st1.tables st1.cr3 = PageTable.walk st.tables st.cr3

/-- The leases of the FAT and the call of the cache. -/
theorem filePage_prepared {n : Inode} {r : Request} {l : LeaseState} {st1 : MmState} {o paddr : ℕ}
    (hok : Placed st used) (hnew : new.Fresh used)
    (hrun : (Leased.getDevOffset fs n o).exec (leaseStep dev new.fat) ⟨st, 0⟩ = some (r, l))
    (hget : cacheGet dev l.mm new.page r.offset = some (st1, paddr)) :
    Prepared st st1 (usedWith (allLeased used new.fat) new.page) ∧
      Fetches dev used st st1 (fatPages fs dev st n o ++ [r.offset]) ∧ st1.cache r.offset = some paddr ∧
      Obtainable fs dev st new n o r.offset ∧
      ∀ page, tableRoom st1 new.table page = true ↔ RoomFor fs dev st new n o page := by
  obtain ⟨hw, hoff⟩ := getDevOffset_spec hnew.fat hok hrun
  have hok0 := hw.placed.mono (leased_subset used new.fat _)
  obtain ⟨hok1, hfetch, hcache⟩ := hok0.cacheGet hnew.last.page hget
  obtain ⟨htab, hcr3, -⟩ := cacheGet_tables hnew.last.page hget
  have ha := hok1.aligned _ _ hcache
  refine ⟨⟨hw.leasing.grows.trans (hfetch.grows htab hcr3), hok1, ?_, ?_⟩,
    hw.leasing.toFetches.trans hfetch (leased_subset used new.fat 0), hcache, ⟨hoff, ha, hw.leasable, ?_⟩, ?_⟩
  · intro i
    rw [htab, hcr3]
    exact hw.leasing.opens i
  · rw [htab, hcr3]
    exact hw.leasing.walk_eq
  · rw [← or_assoc]
    have hmem := (cacheGet_isSome hnew.last.page ha).mp ⟨_, hget⟩
    rwa [hw.leasing.cached] at hmem
  · intro page
    rw [tableRoom, htab, hcr3, Bool.or_eq_true, hw.leasing.present_iff, RoomFor, tableRoom, Bool.or_eq_true]
    exact or_right_comm

/-- When the handler returns it has called `map` for the page, unless there was no memory for a page of
an anonymous area. -/
theorem isrPf_returned (hok : Placed st used) (hnew : new.Fresh used)
    (hret : isrPf fs dev s vmas st new err faultedAddr = .returned st') :
    err.p = false ∧ ∃ vma, vmas.find? (contains faultedAddr) = some vma ∧ refused err faultedAddr vma = false ∧
      (st' = st ∨ ∃ st1 paddr, Prepared st st1 (usedWith (allLeased used new.fat) new.page) ∧ paddr < hhdmLen ∧
        mapUser st1 new.table paddr (floorPg faultedAddr) vma.prot.writable = .returned st') := by
  have hserved : ¬ (err.p = true ∨ vmas.find? (contains faultedAddr) = none ∨
      ∃ vma, vmas.find? (contains faultedAddr) = some vma ∧ refused err faultedAddr vma = true) := by
    intro h
    rw [isrPf_killed h] at hret
    cases hret
  simp only [not_or, not_exists, not_and, Bool.not_eq_true] at hserved
  obtain ⟨hp, hsome, hserves⟩ := hserved
  obtain ⟨vma, hfind⟩ := Option.ne_none_iff_exists'.mp hsome
  refine ⟨hp, vma, hfind, hserves vma hfind, ?_⟩
  rw [isrPf_serves hp hfind (hserves vma hfind)] at hret
  split_ifs at hret with hb
  · obtain ⟨n, r, l, st1, paddr, -, hrun, hget, hmap⟩ := mapFilePage_cases hret
    obtain ⟨hprep, -, hcache, -⟩ := filePage_prepared hok hnew hrun hget
    exact .inr ⟨st1, paddr, hprep, (hprep.placed.place _ _ hcache).2.1, hmap⟩
  · rcases vmallocPage_cases hnew.toNewPages hret with ⟨-, rfl⟩ | ⟨page, hpage, hmap⟩
    · exact .inl rfl
    · have hok1 := hok.mono ((leased_subset used new.fat 0).trans (subset_usedWith _ new.page))
      exact .inr ⟨st, _, ⟨.refl st, hok1, fun _ => .inl rfl, rfl⟩, (hnew.last.page page hpage).direct.2.1, hmap⟩

theorem mapFilePage_spec (hok : Placed st used) (hf : Fault st used new err faultedAddr)
    (hret : mapFilePage fs dev s st new faultedAddr vma = .returned st') :
    ∃ n off paddr, fileOf s vma = some n ∧ Obtainable fs dev st new n (floorPg vma.offset) off ∧
      Placed st' (new.addTo used) ∧ Grows st st' ∧ st'.cache off = some paddr ∧
      Fetches dev used st st' (fatPages fs dev st n (floorPg vma.offset) ++ [off]) ∧
      (RoomFor fs dev st new n (floorPg vma.offset) (floorPg faultedAddr) →
        walk st'.tables st'.cr3 (floorPg faultedAddr) = some ⟨paddr / pgSz, vma.prot.writable, true, false⟩) ∧
      (¬ RoomFor fs dev st new n (floorPg vma.offset) (floorPg faultedAddr) →
        walk st'.tables st'.cr3 (floorPg faultedAddr) = none) := by
  obtain ⟨n, r, l, st1, paddr, hfile, hrun, hget, hmap⟩ := mapFilePage_cases hret
  obtain ⟨hprep, hfetch, hcache, hobtain, hroom⟩ := filePage_prepared hok hf.fresh hrun hget
  have hlt := (hprep.placed.place _ _ hcache).2.1
  have hv := isPage_floorPg hf.addr_lt
  have habsent := (congrFun hprep.walk_eq (floorPg faultedAddr)).trans hf.absent
  obtain ⟨hok2, hgrow', hsame, hphys, -⟩ := mapUser_spec hprep.placed hf.fresh.last.table hv hlt hmap
  have hwalk := mapUser_walk hprep.placed hf.fresh.last.table hv habsent hlt hmap
  refine ⟨n, r.offset, paddr, hfile, hobtain, hok2, hprep.toGrows.trans hgrow', hsame ▸ hcache, ?_, ?_, ?_⟩
  · obtain ⟨hcached, hkept, hread⟩ := hfetch
    exact ⟨hsame ▸ hcached, hsame ▸ hphys ▸ hkept, hsame ▸ hphys ▸ hread⟩
  · intro h
    rw [hwalk, if_pos ((hroom _).mpr h)]
  · intro h
    rw [hwalk, if_neg (mt (hroom _).mp h)]

theorem mapFilePage_returns {n : Inode} {off : ℕ} (hok : Placed st used)
    (hf : Fault st used new err faultedAddr) (hfile : fileOf s vma = some n)
    (hobtain : Obtainable fs dev st new n (floorPg vma.offset) off) :
    ∃ st', mapFilePage fs dev s st new faultedAddr vma = .returned st' := by
  obtain ⟨r, l, hrun⟩ := getDevOffset_returns hf.fresh.fat hok hobtain.leases hobtain.place
  obtain ⟨hw, hoff⟩ := getDevOffset_spec hf.fresh.fat hok hrun
  obtain rfl : off = r.offset := Option.some.inj (hobtain.place.symm.trans hoff)
  have hmem : l.mm.cache r.offset ≠ none ∨ new.page ≠ none := by
    rw [hw.leasing.cached, or_assoc]
    exact hobtain.frame
  obtain ⟨⟨st1, paddr⟩, hget⟩ : ∃ x, cacheGet dev l.mm new.page r.offset = some x :=
    (cacheGet_isSome hf.fresh.last.page hobtain.aligned).mpr hmem
  obtain ⟨hprep, -, hcache, -⟩ := filePage_prepared hok hf.fresh hrun hget
  obtain ⟨hp, hlt, -⟩ := hprep.placed.place _ _ hcache
  obtain ⟨st2, hmap⟩ := mapUser_returns hprep.placed.wf hf.fresh.last.table (isPage_floorPg hf.addr_lt)
    ((hprep.huge _).trans hf.not_huge) hp hlt vma.prot.writable
  refine ⟨st2, ?_⟩
  rw [mapFilePage, hfile, Option.bind_some, hrun]
  dsimp only
  rw [hget]
  exact hmap

theorem vmallocPage_spec (hok : Placed st used) (hf : Fault st used new err faultedAddr)
    (hret : vmallocPage st new.toNewPages (floorPg faultedAddr) writable = .returned st') :
    Placed st' (new.addTo used) ∧ Grows st st' ∧ st'.cache = st.cache ∧
      st'.phys = st.phys ∧ walk st'.tables st'.cr3 (floorPg faultedAddr) =
        if tableRoom st new.table (floorPg faultedAddr) = true then
          new.page.map fun page => ⟨(page - hhdmStart) / pgSz, writable, true, false⟩ else none := by
  have hok' := hok.mono (subset_usedWith used new.page)
  have hsub := new.addTo_subset used
  rcases vmallocPage_cases hf.fresh.toNewPages hret with ⟨hpage, rfl⟩ | ⟨page, hpage, hmap⟩
  · refine ⟨(hok'.mono (subset_usedWith _ _)).mono hsub, .refl st', rfl, rfl, ?_⟩
    rw [hpage, hf.absent, Option.map_none, ite_self]
  · have hlt := (hf.fresh.last.page page hpage).direct.2.1
    have hv := isPage_floorPg hf.addr_lt
    have htable := hf.fresh.toNewPages.table
    obtain ⟨hok1, hgrow, hsame, hphys, -⟩ := mapUser_spec hok' htable hv hlt hmap
    refine ⟨hok1.mono hsub, hgrow, hsame, hphys, ?_⟩
    rw [mapUser_walk hok' htable hv hf.absent hlt hmap, hpage, Option.map_some]

theorem vmallocPage_returns (hok : Placed st used) (hf : Fault st used new err faultedAddr)
    (writable : Bool) : ∃ st', vmallocPage st new.toNewPages (floorPg faultedAddr) writable = .returned st' := by
  rw [vmallocPage]
  cases hpage : new.page with
  | none => exact ⟨st, rfl⟩
  | some page =>
    have hfresh := hf.fresh.last.page page hpage
    dsimp only
    rw [hfresh.hhdmToDirect_eq]
    exact mapUser_returns (hok.mono (subset_usedWith used new.page)).wf hf.fresh.toNewPages.table
      (isPage_floorPg hf.addr_lt) hf.not_huge hfresh.direct.1 hfresh.direct.2.1 writable

end HmmOS.Arch.PageFault
