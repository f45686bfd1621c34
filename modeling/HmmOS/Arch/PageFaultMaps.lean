import HmmOS.Arch.PageFault

/-! # The page cache and the page tables

A call of the cache adds at most one page, which holds what the device does. A call
of `map` changes the translation of one page, and of the directory at most the entry
for that page.
-/
namespace HmmOS.Arch.PageFault
open Lib Nonstd Util.Algorithm PageTable Fs Proc Function

/-- The pages of the cache are distinct pages in use. -/
structure CachePlaced (cache : ℕ → Option ℕ) (used : Set ℕ) : Prop where
  aligned : ∀ off paddr, cache off = some paddr → pgAligned off = true
  place : ∀ off paddr, cache off = some paddr →
    pgAligned paddr = true ∧ paddr < hhdmLen ∧ paddr + hhdmStart ∈ used
  distinct : ∀ off off' paddr, cache off = some paddr → cache off' = some paddr → off = off'

/-- The page tables are well formed as well. -/
structure Placed (st : MmState) (used : Set ℕ) : Prop extends CachePlaced st.cache used where
  wf : WellFormed st.tables st.cr3 used

/-- Nothing that is mapped or cached in `st` is lost or changed in `st'`. -/
structure Grows (st st' : MmState) : Prop where
  cr3 : st'.cr3 = st.cr3
  cache : ∀ off paddr, st.cache off = some paddr → st'.cache off = some paddr
  walk : ∀ virt tr, walk st.tables st.cr3 virt = some tr → walk st'.tables st'.cr3 virt = some tr
  huge : ∀ i, (st'.tables (pdOf st'.cr3) i).huge = (st.tables (pdOf st.cr3) i).huge

/-- The device as the kernel reads it. -/
def MmState.device (st : MmState) (dev : Bytes) : Bytes := fun x =>
  match st.cache (pgSz * (x / pgSz)) with
  | some paddr => st.phys paddr (x % pgSz)
  | none => dev x

/-- The pages in use once those that `operator new` may have returned are. -/
def usedWith (used : Set ℕ) (newPage : Option ℕ) : Set ℕ := used ∪ {page | newPage = some page}

/-- The given pages have been read into new pages of memory, unless they were cached. -/
structure Fetches (dev : Bytes) (used : Set ℕ) (st st' : MmState) (pages : List ℕ) : Prop where
  cached : ∀ off, st'.cache off ≠ none ↔ st.cache off ≠ none ∨ off ∈ pages
  kept : ∀ off paddr, st.cache off = some paddr → st'.cache off = some paddr ∧ st'.phys paddr = st.phys paddr
  read : ∀ off paddr, st.cache off = none → st'.cache off = some paddr →
    paddr + hhdmStart ∉ used ∧ st'.phys paddr = fun i => dev (off + i)

theorem pgSz_mul_div {paddr : ℕ} (h : pgAligned paddr = true) : pgSz * (paddr / pgSz) = paddr := by
  have := pgAligned_iff.mp h
  rw [pgSz_eq]
  omega

theorem isPage_floorPg {a : ℕ} (h : a < 2 ^ 32) : IsPage (floorPg a) := by
  rw [floorPg_eq (h.trans (by norm_num)), Nat.mul_comm]
  exact ⟨pgAligned_iff.mpr (by omega), by omega⟩

theorem lt_of_lt_hhdmLen {paddr : ℕ} (h : paddr < hhdmLen) : paddr < 2 ^ 32 :=
  h.trans (by decide)

variable {dev : Bytes} {st st' : MmState} {used used' : Set ℕ} {off paddr virt : ℕ} {writable : Bool}

section Cache
variable {page i : ℕ} {newPage : Option ℕ} {cache : ℕ → Option ℕ}

theorem subset_usedWith (used : Set ℕ) (newPage : Option ℕ) : used ⊆ usedWith used newPage :=
  Set.subset_union_left

@[simp] theorem usedWith_none (used : Set ℕ) : usedWith used none = used := by
  simp [usedWith]

theorem CachePlaced.mono (h : CachePlaced cache used) (hu : used ⊆ used') : CachePlaced cache used' where
  aligned := h.aligned
  place := by
    intro off paddr hc
    obtain ⟨ha, hlt, hused⟩ := h.place off paddr hc
    exact ⟨ha, hlt, hu hused⟩
  distinct := h.distinct

theorem Placed.mono (h : Placed st used) (hu : used ⊆ used') : Placed st used' :=
  ⟨h.toCachePlaced.mono hu, h.wf.mono hu⟩

theorem Grows.refl (st : MmState) : Grows st st :=
  ⟨rfl, fun _ _ h => h, fun _ _ h => h, fun _ => rfl⟩

theorem Grows.trans {st'' : MmState} (h : Grows st st') (h' : Grows st' st'') : Grows st st'' where
  cr3 := h'.cr3.trans h.cr3
  cache := fun off paddr hc => h'.cache off paddr (h.cache off paddr hc)
  walk := fun virt tr hw => h'.walk virt tr (h.walk virt tr hw)
  huge := fun i => (h'.huge i).trans (h.huge i)

theorem mod_pgSz_lt (x : ℕ) : x % pgSz < pgSz := Nat.mod_lt _ (by decide)

theorem page_of_add (ha : pgAligned off = true) (hi : i < pgSz) :
    pgSz * ((off + i) / pgSz) = off ∧ (off + i) % pgSz = i := by
  have := pgAligned_iff.mp ha
  rw [pgSz_eq] at hi ⊢
  omega

theorem device_congr (hcache : st'.cache = st.cache) (hphys : st'.phys = st.phys) :
    st'.device dev = st.device dev := by
  funext x
  rw [MmState.device, MmState.device, hcache, hphys]

theorem device_cached (ha : pgAligned off = true) (hc : st.cache off = some paddr) (hi : i < pgSz) :
    st.device dev (off + i) = st.phys paddr i := by
  obtain ⟨hpage, hmod⟩ := page_of_add ha hi
  rw [MmState.device, hpage, hc, hmod]

theorem Fetches.refl (dev : Bytes) (used : Set ℕ) (st : MmState) : Fetches dev used st st [] where
  cached := by simp
  kept := fun _ _ hc => ⟨hc, rfl⟩
  read := by
    intro off paddr hn hc
    rw [hn] at hc
    cases hc

theorem Fetches.trans {st'' : MmState} {pages pages' : List ℕ} (h : Fetches dev used st st' pages)
    (h' : Fetches dev used' st' st'' pages') (hu : used ⊆ used') : Fetches dev used st st'' (pages ++ pages') where
  cached := by
    intro off
    rw [h'.cached, h.cached, List.mem_append, or_assoc]
  kept := by
    intro off paddr hc
    obtain ⟨hc', hp⟩ := h.kept off paddr hc
    obtain ⟨hc'', hp'⟩ := h'.kept off paddr hc'
    exact ⟨hc'', hp'.trans hp⟩
  read := by
    intro off paddr hn hc
    cases hm : st'.cache off with
    | none =>
      obtain ⟨hnew, hp⟩ := h'.read off paddr hm hc
      exact ⟨fun hmem => hnew (hu hmem), hp⟩
    | some q =>
      obtain ⟨hq, hp⟩ := h'.kept off q hm
      obtain rfl : q = paddr := Option.some.inj (hq.symm.trans hc)
      obtain ⟨hnew, hread⟩ := h.read off q hn hm
      exact ⟨hnew, hp.trans hread⟩

/-- Reading pages into the cache does not change what the kernel reads. -/
theorem Fetches.device_eq {pages : List ℕ} (h : Fetches dev used st st' pages) :
    st'.device dev = st.device dev := by
  funext x
  rw [MmState.device, MmState.device]
  cases hc : st.cache (pgSz * (x / pgSz)) with
  | some p =>
    obtain ⟨hc', hp⟩ := h.kept _ p hc
    rw [hc']
    exact congrFun hp _
  | none =>
    cases hc' : st'.cache (pgSz * (x / pgSz)) with
    | none => rfl
    | some p =>
      dsimp only
      rw [(h.read _ p hc hc').2]
      dsimp only
      rw [Nat.div_add_mod]

theorem Fetches.grows {pages : List ℕ} (h : Fetches dev used st st' pages) (ht : st'.tables = st.tables)
    (hc : st'.cr3 = st.cr3) : Grows st st' := by
  refine ⟨hc, fun off paddr hp => (h.kept off paddr hp).1, ?_, ?_⟩ <;> rw [ht, hc]
  · exact fun _ _ hw => hw
  · exact fun _ => rfl

/-- The state once the page at `off` has been read into a new page. -/
def MmState.fetched (st : MmState) (dev : Bytes) (off page : ℕ) : MmState :=
  { st with
    phys := Function.update st.phys (page - hhdmStart) fun i => dev (off + i)
    cache := Function.update st.cache off (some (page - hhdmStart)) }

theorem fetchPage_eq (hf : FreshPage used page) (ha : pgAligned off = true) :
    fetchPage dev st (some page) off = some (st.fetched dev off page, page - hhdmStart) := by
  rw [fetchPage, Option.bind_some, hf.hhdmToDirect_eq, Option.bind_some, if_pos hf.direct.1,
    cachePage, if_pos ha, Option.map_some]
  rfl

theorem CachePlaced.ne_fresh (h : CachePlaced cache used) (hf : FreshPage used page)
    (hc : cache off = some paddr) : paddr ≠ page - hhdmStart := by
  intro he
  apply hf.unused
  rw [← hf.direct.2.2, ← he]
  exact (h.place off paddr hc).2.2

theorem fetched_cache (st : MmState) (dev : Bytes) (off page : ℕ) :
    (st.fetched dev off page).cache = update st.cache off (some (page - hhdmStart)) := rfl

theorem fetched_phys (st : MmState) (dev : Bytes) (off page : ℕ) : (st.fetched dev off page).phys =
      update st.phys (page - hhdmStart) fun i => dev (off + i) := rfl

theorem fetched_cache_cases {off' : ℕ} (hc : (st.fetched dev off page).cache off' = some paddr) :
    off' = off ∧ paddr = page - hhdmStart ∨ off' ≠ off ∧ st.cache off' = some paddr := by
  rw [fetched_cache] at hc
  by_cases ho : off' = off
  · rw [ho, update_self, Option.some.injEq] at hc
    exact .inl ⟨ho, hc.symm⟩
  · rw [update_of_ne ho] at hc
    exact .inr ⟨ho, hc⟩

theorem CachePlaced.fetched (h : CachePlaced st.cache used) (hf : FreshPage used page)
    (hoff : pgAligned off = true) :
    CachePlaced (st.fetched dev off page).cache (usedWith used (some page)) where
  aligned := by
    intro o p hp
    rcases fetched_cache_cases hp with ⟨ho, -⟩ | ⟨-, hp⟩
    · rwa [ho]
    · exact h.aligned o p hp
  place := by
    intro o p hp
    rcases fetched_cache_cases hp with ⟨-, hnew⟩ | ⟨-, hp⟩
    · obtain ⟨ha, hlt, hback⟩ := hf.direct
      rw [hnew, hback]
      exact ⟨ha, hlt, Or.inr rfl⟩
    · obtain ⟨ha, hlt, hused⟩ := h.place o p hp
      exact ⟨ha, hlt, subset_usedWith used _ hused⟩
  distinct := by
    intro o o' p hp hp'
    rcases fetched_cache_cases hp with ⟨ho, hnew⟩ | ⟨-, hp⟩ <;>
      rcases fetched_cache_cases hp' with ⟨ho', hnew'⟩ | ⟨-, hp'⟩
    · rw [ho, ho']
    · exact absurd hnew (h.ne_fresh hf hp')
    · exact absurd hnew' (h.ne_fresh hf hp)
    · exact h.distinct o o' p hp hp'

theorem fetches_fetched (h : CachePlaced st.cache used) (hf : FreshPage used page) (hc : st.cache off = none) :
    Fetches dev used st (st.fetched dev off page) [off] where
  cached := by
    intro o
    rw [fetched_cache, List.mem_singleton]
    by_cases ho : o = off
    · rw [ho, update_self]
      exact iff_of_true (Option.some_ne_none _) (.inr rfl)
    · rw [update_of_ne ho]
      exact ⟨.inl, fun h => h.resolve_right ho⟩
  kept := by
    intro o p hp
    have ho : o ≠ off := by
      rintro rfl
      rw [hc] at hp
      cases hp
    rw [fetched_cache, fetched_phys, update_of_ne ho, update_of_ne (h.ne_fresh hf hp)]
    exact ⟨hp, rfl⟩
  read := by
    intro o p hn hp
    rcases fetched_cache_cases hp with ⟨ho, hnew⟩ | ⟨-, hp⟩
    · rw [ho, hnew, hf.direct.2.2, fetched_phys, update_self]
      exact ⟨hf.unused, rfl⟩
    · rw [hn] at hp
      cases hp

/-- What a call of the cache that returns has done: nothing, or it has read the page. -/
theorem cacheGet_cases (hf : ∀ page, newPage = some page → FreshPage used page)
    (hget : cacheGet dev st newPage off = some (st', paddr)) : (st' = st ∧ st.cache off = some paddr) ∨
      ∃ page, newPage = some page ∧ st.cache off = none ∧ pgAligned off = true ∧
        st' = st.fetched dev off page ∧ paddr = page - hhdmStart := by
  rw [cacheGet] at hget
  cases hc : st.cache off with
  | some p =>
    rw [hc] at hget
    obtain ⟨rfl, rfl⟩ := Prod.mk.inj (Option.some.inj hget)
    exact .inl ⟨rfl, rfl⟩
  | none =>
    rw [hc] at hget
    cases newPage with
    | none => simp [fetchPage] at hget
    | some page =>
      by_cases ha : pgAligned off = true
      · rw [fetchPage_eq (hf page rfl) ha] at hget
        obtain ⟨hst, hpaddr⟩ := Prod.mk.inj (Option.some.inj hget)
        exact .inr ⟨page, rfl, rfl, ha, hst.symm, hpaddr.symm⟩
      · simp [fetchPage, cachePage, ha] at hget

theorem cacheGet_tables (hf : ∀ page, newPage = some page → FreshPage used page)
    (hget : cacheGet dev st newPage off = some (st', paddr)) :
    st'.tables = st.tables ∧ st'.cr3 = st.cr3 ∧ st'.buf = st.buf := by
  rcases cacheGet_cases hf hget with ⟨rfl, -⟩ | ⟨page, rfl, -, -, rfl, -⟩ <;> exact ⟨rfl, rfl, rfl⟩

theorem CachePlaced.cacheGet (h : CachePlaced st.cache used)
    (hf : ∀ page, newPage = some page → FreshPage used page)
    (hget : cacheGet dev st newPage off = some (st', paddr)) :
    CachePlaced st'.cache (usedWith used newPage) ∧ Fetches dev used st st' [off] ∧
      st'.cache off = some paddr := by
  rcases cacheGet_cases hf hget with ⟨rfl, hc⟩ | ⟨page, rfl, hc, ha, rfl, hpaddr⟩
  · refine ⟨h.mono (subset_usedWith used _), ?_, hc⟩
    have hsame := Fetches.refl dev used st'
    refine ⟨?_, hsame.kept, hsame.read⟩
    intro o
    rw [List.mem_singleton]
    constructor
    · exact Or.inl
    · rintro (ho | rfl)
      · exact ho
      · rw [hc]
        exact Option.some_ne_none _
  · refine ⟨h.fetched (hf page rfl) ha, fetches_fetched h (hf page rfl) hc, ?_⟩
    rw [fetched_cache, update_self, hpaddr]

theorem Placed.cacheGet (h : Placed st used) (hf : ∀ page, newPage = some page → FreshPage used page)
    (hget : cacheGet dev st newPage off = some (st', paddr)) :
    Placed st' (usedWith used newPage) ∧ Fetches dev used st st' [off] ∧ st'.cache off = some paddr := by
  obtain ⟨hplaced, hfetch, hc⟩ := h.toCachePlaced.cacheGet hf hget
  obtain ⟨ht, hcr3, -⟩ := cacheGet_tables hf hget
  refine ⟨⟨hplaced, ?_⟩, hfetch, hc⟩
  rw [ht, hcr3]
  exact h.wf.mono (subset_usedWith used _)

theorem cacheGet_isSome (hf : ∀ page, newPage = some page → FreshPage used page) (ha : pgAligned off = true) :
    (∃ r, cacheGet dev st newPage off = some r) ↔ st.cache off ≠ none ∨ newPage ≠ none := by
  rw [PageFault.cacheGet]
  cases hc : st.cache off with
  | some p => simp
  | none =>
    cases newPage with
    | none => simp [fetchPage]
    | some page =>
      rw [fetchPage_eq (hf page rfl) ha]
      simp

end Cache

section Map
variable {newTable : Option ℕ}

theorem usedAfter_subset (mem : PtMem) (cr3 : ℕ) (used : Set ℕ) (newPage : Option ℕ) (op : PtOp) :
    usedAfter mem cr3 used newPage op ⊆ usedWith used newPage := by
  rw [usedAfter]
  split_ifs
  · exact subset_rfl
  · exact subset_usedWith used newPage

def tableRoom (st : MmState) (newTable : Option ℕ) (virt : ℕ) : Bool :=
  (st.tables (pdOf st.cr3) (pdIdx virt)).p || newTable.isSome

/-- The entries of the directory are kept, and an entry for a new table leaves all rights to the table. -/
def DirectoryOpens (st st' : MmState) : Prop :=
  ∀ i, st'.tables (pdOf st'.cr3) i = st.tables (pdOf st.cr3) i ∨
    (st'.tables (pdOf st'.cr3) i).us = true ∧ (st'.tables (pdOf st'.cr3) i).rw = true

theorem DirectoryOpens.trans {st'' : MmState} (h : DirectoryOpens st st') (h' : DirectoryOpens st' st'') :
    DirectoryOpens st st'' := by
  intro i
  rcases h' i with hi | hi
  · rw [hi]
    exact h i
  · exact .inr hi

theorem mapUser_cases (hret : mapUser st newTable paddr virt writable = .returned st') :
    ∃ tables ok, PageTable.map st.tables st.cr3 newTable paddr virt true writable false =
      some (tables, ok) ∧ st' = { st with tables := tables } := by
  rw [mapUser] at hret
  cases hmap : PageTable.map st.tables st.cr3 newTable paddr virt true writable false with
  | none =>
    rw [hmap] at hret
    cases hret
  | some r =>
    rw [hmap] at hret
    exact ⟨r.1, r.2, rfl, (Outcome.returned.inj hret).symm⟩

theorem mapUser_returns (hw : WellFormed st.tables st.cr3 used)
    (hf : ∀ page, newTable = some page → FreshPage used page) (hv : IsPage virt)
    (hh : (st.tables (pdOf st.cr3) (pdIdx virt)).huge = false) (ha : pgAligned paddr = true)
    (hlt : paddr < hhdmLen) (writable : Bool) :
    ∃ st', mapUser st newTable paddr virt writable = .returned st' := by
  obtain ⟨mem', hmap, -⟩ := map_spec hw hf true writable false hv hh ha (lt_of_lt_hhdmLen hlt)
  rw [mapUser, hmap]
  exact ⟨_, rfl⟩

/-- Mapping a page that is not mapped yet succeeds if there is room for a table; nothing else changes. -/
theorem mapUser_spec (h : Placed st used)
    (hf : ∀ page, newTable = some page → FreshPage used page) (hv : IsPage virt)
    (hlt : paddr < hhdmLen) (hret : mapUser st newTable paddr virt writable = .returned st') :
    Placed st' (usedWith used newTable) ∧ Grows st st' ∧ st'.cache = st.cache ∧
      st'.phys = st.phys ∧ DirectoryOpens st st' ∧ walk st'.tables st'.cr3 =
        if walk st.tables st.cr3 virt = none ∧ tableRoom st newTable virt = true then
          update (walk st.tables st.cr3) virt (some ⟨paddr / pgSz, writable, true, false⟩)
        else walk st.tables st.cr3 := by
  obtain ⟨tables, ok, hmap, rfl⟩ := mapUser_cases hret
  obtain ⟨-, -, -, hst⟩ := map_inv h.wf hf hv.2 (lt_of_lt_hhdmLen hlt) hmap
  have hwalk := hst.walk_eq
  simp only [absStep, apply_ite Prod.fst] at hwalk
  have hplaced := h.toCachePlaced.mono (subset_usedWith used newTable)
  refine ⟨⟨hplaced, hst.wf.mono (usedAfter_subset ..)⟩, ⟨rfl, fun _ _ hc => hc, ?_, hst.huge⟩, rfl, rfl, ?_, hwalk⟩
  · intro v tr hw
    rw [hwalk]
    split_ifs with habsent
    · have hne : v ≠ virt := by
        rintro rfl
        rw [habsent.1] at hw
        cases hw
      rwa [update_of_ne hne]
    · exact hw
  · exact fun i => (map_opens h.wf hf hv hmap i).imp_right And.right

theorem mapUser_walk (h : Placed st used)
    (hf : ∀ page, newTable = some page → FreshPage used page) (hv : IsPage virt)
    (habsent : walk st.tables st.cr3 virt = none) (hlt : paddr < hhdmLen)
    (hret : mapUser st newTable paddr virt writable = .returned st') : walk st'.tables st'.cr3 virt =
      if tableRoom st newTable virt = true then some ⟨paddr / pgSz, writable, true, false⟩ else none := by
  obtain ⟨-, -, -, -, -, hwalk⟩ := mapUser_spec h hf hv hlt hret
  rw [hwalk, habsent]
  simp only [true_and]
  split_ifs
  · exact update_self _ _ _
  · exact habsent

end Map

end HmmOS.Arch.PageFault
