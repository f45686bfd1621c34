import HmmOS.Arch.PageFaultMaps

/-! # Leases of pages of the FAT

A lease needs memory for a page that is not cached, a free window, and a table for the
window. Once it is over every translation is as before: there may be one more page in
the cache, and the directory has a table for the window.
-/
namespace HmmOS.Arch.PageFault
open Lib Nonstd Util.Algorithm PageTable Fs Proc Function

/-- What `operator new` returns was not in use. -/
structure NewPages.Fresh (new : NewPages) (used : Set ℕ) : Prop where
  page : ∀ page, new.page = some page → FreshPage used page
  table : ∀ page, new.table = some page → FreshPage (usedWith used new.page) page

def NewPages.addTo (new : NewPages) (used : Set ℕ) : Set ℕ := usedWith (usedWith used new.page) new.table

/-- The pages that may be in use before the lease number `k`. -/
def leased (used : Set ℕ) (fat : ℕ → NewPages) : ℕ → Set ℕ
  | 0 => used
  | k + 1 => (fat k).addTo (leased used fat k)

def allLeased (used : Set ℕ) (fat : ℕ → NewPages) : Set ℕ :=
  used ∪ {page | ∃ k, (fat k).page = some page ∨ (fat k).table = some page}

/-- Leases of the pages are over. -/
structure Leasing (dev : Bytes) (used : Set ℕ) (st st' : MmState) (pages : List ℕ) : Prop
    extends Fetches dev used st st' pages where
  cr3 : st'.cr3 = st.cr3
  buf : st'.buf = st.buf
  walk_eq : walk st'.tables st'.cr3 = walk st.tables st.cr3
  huge : ∀ i, (st'.tables (pdOf st'.cr3) i).huge = (st.tables (pdOf st.cr3) i).huge
  dir : ∀ i, st'.tables (pdOf st'.cr3) i = st.tables (pdOf st.cr3) i ∨
    (pages ≠ [] ∧ i = pdIdx st.buf.toNat) ∧
      (st'.tables (pdOf st'.cr3) i).us = true ∧ (st'.tables (pdOf st'.cr3) i).rw = true
  table : pages ≠ [] → (st'.tables (pdOf st'.cr3) (pdIdx st.buf.toNat)).p = true

/-- `map` can map a page at the window. -/
structure WindowFree (st : MmState) (newTable : Option ℕ) : Prop where
  aligned : pgAligned st.buf.toNat = true
  small : (st.tables (pdOf st.cr3) (pdIdx st.buf.toNat)).huge = false
  absent : walk st.tables st.cr3 st.buf.toNat = none
  room : tableRoom st newTable st.buf.toNat = true

/-- Every page is cached, or has been read by an earlier lease, or gets a page from `operator new`. -/
def Readable (fat : ℕ → NewPages) : ℕ → Set ℕ → List ℕ → Prop
  | _, _, [] => True
  | k, cached, off :: pages => (off ∈ cached ∨ (fat k).page ≠ none) ∧ Readable fat (k + 1) (insert off cached) pages

/-- What leases of the pages take, from the lease number `k` on. -/
structure Leasable (st : MmState) (fat : ℕ → NewPages) (k : ℕ) (pages : List ℕ) : Prop where
  memory : Readable fat k {off | st.cache off ≠ none} pages
  window : pages ≠ [] → WindowFree st (fat k).table

/-- The pages of which a program takes leases, if the device reads as `dev`. -/
def leasedPages {α : Type} (p : LeaseM DirStop α) (dev : Bytes) : List ℕ :=
  (p.asked (Event.answer dev)).filterMap fun
    | .acquire r => some r.offset
    | .release => none

variable {dev : Bytes} {st st' : MmState} {used used' : Set ℕ} {fat : ℕ → NewPages} {pages : List ℕ}

theorem NewPages.subset_addTo (new : NewPages) (used : Set ℕ) : used ⊆ new.addTo used :=
  (subset_usedWith used _).trans (subset_usedWith _ _)

theorem subset_leased (used : Set ℕ) (fat : ℕ → NewPages) (k : ℕ) : used ⊆ leased used fat k := by
  induction k with
  | zero => exact subset_rfl
  | succ k ih => exact ih.trans ((fat k).subset_addTo _)

theorem leased_subset (used : Set ℕ) (fat : ℕ → NewPages) (k : ℕ) : leased used fat k ⊆ allLeased used fat := by
  induction k with
  | zero => exact Set.subset_union_left
  | succ k ih =>
    rintro page ((hpage | hnew) | hnew)
    · exact ih hpage
    · exact .inr ⟨k, .inl hnew⟩
    · exact .inr ⟨k, .inr hnew⟩

section Leasing

theorem Leasing.refl (dev : Bytes) (used : Set ℕ) (st : MmState) : Leasing dev used st st [] :=
  ⟨.refl dev used st, rfl, rfl, rfl, fun _ => rfl, fun _ => .inl rfl, fun h => absurd rfl h⟩

theorem Leasing.trans {st'' : MmState} {pages' : List ℕ} (h : Leasing dev used st st' pages)
    (h' : Leasing dev used' st' st'' pages') (hu : used ⊆ used') :
    Leasing dev used st st'' (pages ++ pages') where
  toFetches := h.toFetches.trans h'.toFetches hu
  cr3 := h'.cr3.trans h.cr3
  buf := h'.buf.trans h.buf
  walk_eq := h'.walk_eq.trans h.walk_eq
  huge := fun i => (h'.huge i).trans (h.huge i)
  dir := by
    intro i
    rcases h'.dir i with hi | ⟨⟨hne, hi⟩, hrights⟩
    · rw [hi]
      refine (h.dir i).imp_right fun ⟨⟨hne, hbuf⟩, hrights⟩ => ⟨⟨?_, hbuf⟩, hrights⟩
      exact List.append_ne_nil_of_left_ne_nil hne _
    · rw [h.buf] at hi
      exact .inr ⟨⟨List.append_ne_nil_of_right_ne_nil _ hne, hi⟩, hrights⟩
  table := by
    intro hne
    rcases h'.dir (pdIdx st.buf.toNat) with hi | ⟨⟨hne', -⟩, -⟩
    · by_cases hp : pages' = []
      · rw [hi]
        exact h.table (by simpa [hp] using hne)
      · exact h.buf ▸ h'.table hp
    · exact h.buf ▸ h'.table hne'

theorem Leasing.grows (h : Leasing dev used st st' pages) : Grows st st' where
  cr3 := h.cr3
  cache := fun off paddr hc => (h.kept off paddr hc).1
  walk := fun virt _ hw => (congrFun h.walk_eq virt).trans hw
  huge := h.huge

theorem Leasing.opens (h : Leasing dev used st st' pages) : DirectoryOpens st st' :=
  fun i => (h.dir i).imp_right And.right

/-- After the leases there is a table where there was one, and for the window. -/
theorem Leasing.present_iff (h : Leasing dev used st st' pages) (i : ℕ) :
    (st'.tables (pdOf st'.cr3) i).p = true ↔
      (st.tables (pdOf st.cr3) i).p = true ∨ pages ≠ [] ∧ i = pdIdx st.buf.toNat := by
  rcases h.dir i with hi | ⟨⟨hne, hi⟩, -⟩
  · rw [hi]
    refine ⟨.inl, ?_⟩
    rintro (hp | ⟨hne, rfl⟩)
    · exact hp
    · rw [← hi]
      exact h.table hne
  · rw [hi]
    exact iff_of_true (h.table hne) (.inr ⟨hne, rfl⟩)

theorem Leasing.windowFree {newTable newTable' : Option ℕ} (h : Leasing dev used st st' pages)
    (hne : pages ≠ []) (hw : WindowFree st newTable) : WindowFree st' newTable' := by
  refine ⟨h.buf ▸ hw.aligned, ?_, ?_, ?_⟩
  · rw [h.buf, h.huge]
    exact hw.small
  · rw [h.buf, h.walk_eq]
    exact hw.absent
  · rw [tableRoom, h.buf, h.table hne, Bool.true_or]

theorem Leasing.leasable_cons {off k : ℕ} (h : Leasing dev used st st' [off]) :
    Leasable st fat k (off :: pages) ↔ (st.cache off ≠ none ∨ (fat k).page ≠ none) ∧
      WindowFree st (fat k).table ∧ Leasable st' fat (k + 1) pages := by
  have hset : {o | st'.cache o ≠ none} = insert off {o | st.cache o ≠ none} := by
    ext o
    exact (h.cached o).trans (by rw [List.mem_singleton, or_comm]; rfl)
  constructor
  · rintro ⟨⟨hmem, hrest⟩, hwin⟩
    have hfree := hwin (List.cons_ne_nil _ _)
    exact ⟨hmem, hfree, hset ▸ hrest, fun _ => h.windowFree (List.cons_ne_nil _ _) hfree⟩
  · rintro ⟨hmem, hwin, hrest, -⟩
    exact ⟨⟨hmem, hset ▸ hrest⟩, fun _ => hwin⟩

end Leasing

section Lease
variable {l l1 l2 : LeaseState} {r : Request} {page : Bytes}

theorem lease_cases (hacquire : leaseStep dev fat l (.acquire r) = some (page, l1))
    (hrelease : leaseStep dev fat l1 .release = some ((), l2)) : ∃ st paddr tables tables' ok,
    cacheGet dev l.mm (fat l.leases).page r.offset = some (st, paddr) ∧
      map st.tables st.cr3 (fat l.leases).table paddr st.buf.toNat false true false = some (tables, true) ∧
      unmap tables st.cr3 st.buf.toNat = some (tables', ok) ∧ page = st.phys paddr ∧
      l2 = ⟨{ st with tables := tables' }, l.leases + 1⟩ := by
  obtain ⟨⟨st, paddr⟩, hget, h⟩ := Option.bind_eq_some_iff.mp hacquire
  obtain ⟨⟨tables, mapped⟩, hmap, h⟩ := Option.bind_eq_some_iff.mp h
  dsimp only at h
  split_ifs at h with hok
  obtain ⟨rfl, rfl⟩ := Prod.mk.inj (Option.some.inj h)
  obtain ⟨⟨tables', ok⟩, hun, h⟩ := Option.map_eq_some_iff.mp hrelease
  obtain ⟨-, rfl⟩ := Prod.mk.inj h
  rw [hok] at hmap
  exact ⟨st, paddr, tables, tables', ok, hget, hmap, hun, rfl, rfl⟩

variable (h : Placed l.mm (leased used fat l.leases)) (hf : (fat l.leases).Fresh (leased used fat l.leases))
include h hf

theorem lease_spec (hacquire : leaseStep dev fat l (.acquire r) = some (page, l1))
    (hrelease : leaseStep dev fat l1 .release = some ((), l2)) : l2.leases = l.leases + 1 ∧
      Placed l2.mm (leased used fat l2.leases) ∧ Leasing dev (leased used fat l.leases) l.mm l2.mm [r.offset] ∧
      (∀ i < pgSz, page i = l.mm.device dev (r.offset + i)) ∧
      (l.mm.cache r.offset ≠ none ∨ (fat l.leases).page ≠ none) ∧ WindowFree l.mm (fat l.leases).table := by
  obtain ⟨st, paddr, tables, tables', ok, hget, hmap, hun, rfl, rfl⟩ := lease_cases hacquire hrelease
  obtain ⟨hplaced, hfetch, hcache⟩ := h.cacheGet hf.page hget
  obtain ⟨htab, hcr3, hbuf⟩ := cacheGet_tables hf.page hget
  have ha := hplaced.aligned _ _ hcache
  obtain ⟨hv, hh, habsent, hroom, mem1, hun', hdir, hp, hst⟩ := map_unmap hplaced.wf hf.table st.buf.toNat_lt
    (lt_of_lt_hhdmLen (hplaced.place _ _ hcache).2.1) hmap
  obtain ⟨rfl, -⟩ := Prod.mk.inj (Option.some.inj (hun.symm.trans hun'))
  have hopens := map_opens hplaced.wf hf.table hv hmap
  rw [← hdir] at hopens
  rw [htab, hcr3, hbuf] at hh habsent hroom
  refine ⟨rfl, ⟨hplaced.toCachePlaced.mono (subset_usedWith _ _), hst.wf⟩,
    ⟨⟨hfetch.cached, hfetch.kept, hfetch.read⟩, hcr3, hbuf, ?_, ?_, ?_, ?_⟩, ?_, (cacheGet_isSome hf.page ha).mp ⟨_, hget⟩, hbuf ▸ hv.1, hh, habsent, hroom⟩
  · rw [← htab, ← hcr3]
    exact hst.walk_eq
  · rw [← htab, ← hcr3]
    exact hst.huge
  · intro i
    rw [← htab, ← hcr3, ← hbuf]
    exact (hopens i).imp_right fun ⟨hi, hrights⟩ => ⟨⟨List.cons_ne_nil _ _, hi⟩, hrights⟩
  · intro _
    rw [← hbuf]
    exact hp
  · intro i hi
    rw [← hfetch.device_eq]
    exact (device_cached ha hcache hi).symm

theorem lease_returns (ha : pgAligned r.offset = true)
    (hmem : l.mm.cache r.offset ≠ none ∨ (fat l.leases).page ≠ none) (hw : WindowFree l.mm (fat l.leases).table) :
    ∃ page l1 l2, leaseStep dev fat l (.acquire r) = some (page, l1) ∧
      leaseStep dev fat l1 .release = some ((), l2) := by
  obtain ⟨⟨st, paddr⟩, hget⟩ := (cacheGet_isSome hf.page ha).mpr hmem
  obtain ⟨hplaced, -, hcache⟩ := h.cacheGet hf.page hget
  obtain ⟨htab, hcr3, hbuf⟩ := cacheGet_tables hf.page hget
  obtain ⟨hpa, hlt, -⟩ := hplaced.place _ _ hcache
  obtain ⟨haligned, hsmall, habsent, hroom⟩ := hw
  rw [tableRoom] at hroom
  rw [← htab, ← hcr3, ← hbuf] at hsmall habsent hroom
  rw [← hbuf] at haligned
  obtain ⟨tables, hmap, -⟩ := map_spec hplaced.wf hf.table false true false ⟨haligned, st.buf.toNat_lt⟩ hsmall hpa
    (lt_of_lt_hhdmLen hlt)
  rw [absStep, if_pos ⟨habsent, hroom⟩] at hmap
  obtain ⟨-, -, -, -, mem1, hun, -⟩ := map_unmap hplaced.wf hf.table st.buf.toNat_lt (lt_of_lt_hhdmLen hlt) hmap
  refine ⟨st.phys paddr, ⟨{ st with tables := tables }, l.leases + 1⟩, ⟨{ st with tables := mem1 }, l.leases + 1⟩, ?_, ?_⟩
  · rw [leaseStep, hget, Option.bind_some]
    dsimp only
    rw [hmap]
    rfl
  · rw [leaseStep]
    dsimp only
    rw [hun]
    rfl

end Lease

/-- What every lease keeps, programs that hold one lease at a time keep. -/
theorem leases_keep {α : Type} {P : LeaseState → Prop} {p : LeaseM DirStop α} {a : α} {l l' : LeaseState}
    (hlease : ∀ l r page l1 l2, P l → leaseStep dev fat l (.acquire r) = some (page, l1) →
      leaseStep dev fat l1 .release = some ((), l2) → P l2)
    (hp : Leased.OneLease p) (h : P l) (hrun : p.exec (leaseStep dev fat) l = some (a, l')) : P l' := by
  -- while a lease is held, the state is one in which it has been taken
  let rel : Bool → LeaseState → Prop := fun
    | false, l => P l
    | true, l1 => ∃ l r page, P l ∧ leaseStep dev fat l (.acquire r) = some (page, l1)
  refine hp.exec rel ?_ h hrun
  rintro held e held' l ⟨answer, l2⟩ hstep hrel hact
  cases e with
  | acquire r =>
    cases held with
    | true => cases hstep
    | false =>
      obtain rfl := Option.some.inj hstep
      exact ⟨l, r, answer, hrel, hact⟩
  | release =>
    cases held with
    | false => cases hstep
    | true =>
      obtain rfl := Option.some.inj hstep
      obtain ⟨l0, r, page, h0, hacquire⟩ := hrel
      exact hlease l0 r page l l2 h0 hacquire hact

/-- Calls of the file system that come to their end have changed no translation, lost no page of the cache and
left what the kernel reads of the device as it was. -/
theorem fsCalls_keep_translations {σ : Type} {l : LeaseState} (h : Placed st used)
    (hfat : ∀ k, (fat k).Fresh (leased used fat k)) (calls : List (Leased.FsCall σ))
    (hrun : (calls.forM Leased.FsCall.run).exec (leaseStep dev fat) ⟨st, 0⟩ = some ((), l)) :
    Placed l.mm (leased used fat l.leases) ∧ Grows st l.mm ∧
      walk l.mm.tables l.mm.cr3 = walk st.tables st.cr3 ∧ l.mm.device dev = st.device dev := by
  obtain ⟨hplaced, pages, hleasing⟩ : Placed l.mm (leased used fat l.leases) ∧
      ∃ pages, Leasing dev used st l.mm pages := by
    refine leases_keep (P := fun l => Placed l.mm (leased used fat l.leases) ∧ ∃ pages, Leasing dev used st l.mm pages)
      ?_ (Leased.calls_one calls) ⟨h, [], .refl dev used st⟩ hrun
    rintro l r page l1 l2 ⟨hok, pages, hleasing⟩ hacquire hrelease
    obtain ⟨-, hok', hleasing', -⟩ := lease_spec hok (hfat _) hacquire hrelease
    exact ⟨hok', _, hleasing.trans hleasing' (subset_leased used fat _)⟩
  exact ⟨hplaced, hleasing.grows, hleasing.walk_eq, hleasing.device_eq⟩

section Chain
variable {fs : Filesystem} {l l' : LeaseState} {c c' : ℕ}

/-- The lease of `advance_cluster`. -/
def fatRequest (fs : Filesystem) (c : ℕ) : Request :=
  ⟨some (Leased.fatSector fs c), true, floorPg (Word.mul 32 (fs.getFatSectorForCluster c) 512)⟩

def nextIn (fs : Filesystem) (c : ℕ) (page : Bytes) : ℕ :=
  maskCluster (le32 page (fs.getFatSectorForCluster c % (pgSz / 512) * 512 + 4 * (c % fatEntriesPerSector)))

theorem fatRequest_aligned (fs : Filesystem) (c : ℕ) : pgAligned (fatRequest fs c).offset = true :=
  (isPage_floorPg (Word.mul_lt 32 _ 512)).1

/-- The entry lies in the page. -/
theorem nextIn_congr {page page' : Bytes} (h : ∀ i < pgSz, page i = page' i) :
    nextIn fs c page = nextIn fs c page' := by
  have hlt : fs.getFatSectorForCluster c % (pgSz / 512) * 512 + 4 * (c % fatEntriesPerSector) + 3 < pgSz := by
    rw [pgSz_eq, fatEntriesPerSector]
    omega
  apply congrArg maskCluster
  apply le32_congr
  intro i hi
  exact h _ (by omega)

theorem advanceCluster_eq (fs : Filesystem) (dev : Bytes) (c : ℕ) : fs.advanceCluster dev c =
    if isLastClusterInFile (nextIn fs c fun i => dev ((fatRequest fs c).offset + i)) then none
    else some (nextIn fs c fun i => dev ((fatRequest fs c).offset + i)) := by
  have hpage : cachePage dev (fatRequest fs c).offset = some fun i => dev ((fatRequest fs c).offset + i) :=
    if_pos (fatRequest_aligned fs c)
  exact (congrArg (Option.bind · _) hpage :)

theorem exec_withLease {α : Type} (act : LeaseState → ∀ e : Event, Option (e.Answer × LeaseState)) (r : Request)
    (f : Bytes → α) : (Leased.withLease r f).exec act l =
      (act l (.acquire r)).bind fun x => (act x.2 .release).bind fun y => some (f x.1, y.2) := rfl

theorem exec_advanceCluster (act : LeaseState → ∀ e : Event, Option (e.Answer × LeaseState)) :
    (Leased.advanceCluster fs c).exec act l = some (c', l') ↔ ∃ page l1,
      act l (.acquire (fatRequest fs c)) = some (page, l1) ∧ act l1 .release = some ((), l') ∧
      (if isLastClusterInFile (nextIn fs c page) then none else some (nextIn fs c page)) = some c' := by
  rw [Leased.advanceCluster, Interaction.exec_bind, exec_withLease, Option.bind_eq_some_iff]
  constructor
  · rintro ⟨⟨next, l2⟩, hlease, hnext⟩
    obtain ⟨⟨page, l1⟩, hacquire, hlease⟩ := Option.bind_eq_some_iff.mp hlease
    obtain ⟨⟨⟨⟩, l3⟩, hrelease, hlease⟩ := Option.bind_eq_some_iff.mp hlease
    obtain ⟨rfl, rfl⟩ := Prod.mk.inj (Option.some.inj hlease)
    refine ⟨page, l1, hacquire, ?_⟩
    split_ifs at hnext with hlast
    · cases hnext
    · obtain ⟨rfl, rfl⟩ := Prod.mk.inj (Option.some.inj hnext)
      exact ⟨hrelease, if_neg hlast⟩
  · rintro ⟨page, l1, hacquire, hrelease, hnext⟩
    split_ifs at hnext with hlast
    obtain rfl := Option.some.inj hnext
    refine ⟨(nextIn fs c page, l'), ?_, ?_⟩
    · refine Option.bind_eq_some_iff.mpr ⟨(page, l1), hacquire, ?_⟩
      exact Option.bind_eq_some_iff.mpr ⟨((), l'), hrelease, rfl⟩
    · exact (congrArg (Interaction.exec act · l') (if_neg hlast) :)

/-- What a program that `getDevOffset` is made of does to the memory, and what it took. -/
structure Walked (dev : Bytes) (used : Set ℕ) (fat : ℕ → NewPages) (l l' : LeaseState) (pages : List ℕ) : Prop where
  placed : Placed l'.mm (leased used fat l'.leases)
  subset : leased used fat l.leases ⊆ leased used fat l'.leases
  leasing : Leasing dev (leased used fat l.leases) l.mm l'.mm pages
  leasable : Leasable l.mm fat l.leases pages

section
variable (hfat : ∀ k, (fat k).Fresh (leased used fat k)) (h : Placed l.mm (leased used fat l.leases))
include hfat h

theorem advanceCluster_spec (hrun : (Leased.advanceCluster fs c).exec (leaseStep dev fat) l = some (c', l')) :
    Walked dev used fat l l' [(fatRequest fs c).offset] ∧ l'.leases = l.leases + 1 ∧
      fs.advanceCluster (l.mm.device dev) c = some c' := by
  obtain ⟨page, l1, hacquire, hrelease, hnext⟩ := (exec_advanceCluster _).mp hrun
  obtain ⟨hk, hplaced, hleasing, hpage, hmem, hwindow⟩ := lease_spec h (hfat _) hacquire hrelease
  refine ⟨⟨hplaced, ?_, hleasing, hleasing.leasable_cons.mpr ⟨hmem, hwindow, trivial, fun hne => absurd rfl hne⟩⟩, hk, ?_⟩
  · rw [hk]
    exact (fat _).subset_addTo _
  · rw [advanceCluster_eq, ← nextIn_congr hpage]
    exact hnext

theorem advanceCluster_returns (hmem : l.mm.cache (fatRequest fs c).offset ≠ none ∨ (fat l.leases).page ≠ none)
    (hwindow : WindowFree l.mm (fat l.leases).table) (hnext : fs.advanceCluster (l.mm.device dev) c = some c') :
    ∃ l', (Leased.advanceCluster fs c).exec (leaseStep dev fat) l = some (c', l') := by
  obtain ⟨page, l1, l', hacquire, hrelease⟩ := @lease_returns dev used fat l _ h (hfat _)
    (fatRequest_aligned fs c) hmem hwindow
  obtain ⟨-, -, -, hpage, -⟩ := lease_spec h (hfat _) hacquire hrelease
  rw [advanceCluster_eq, ← nextIn_congr hpage] at hnext
  exact ⟨l', (exec_advanceCluster _).mpr ⟨page, l1, hacquire, hrelease, hnext⟩⟩

end

theorem leasedPages_withLease {α : Type} {r : Request} (ha : pgAligned r.offset = true) (f : Bytes → α) :
    leasedPages (Leased.withLease r f) dev = [r.offset] := by
  have hpage : Event.answer dev (.acquire r) = .ok fun i => dev (r.offset + i) := by
    rw [Event.answer, cachePage, if_pos ha, orAssert]
  rw [leasedPages, Leased.withLease, Interaction.call, Interaction.ask_bind, Interaction.asked, hpage]
  rfl

theorem leasedPages_advanceCluster (fs : Filesystem) (dev : Bytes) (c : ℕ) :
    leasedPages (Leased.advanceCluster fs c) dev = [(fatRequest fs c).offset] := by
  have hlease := @leasedPages_withLease dev _ _ (fatRequest_aligned fs c) (nextIn fs c)
  rw [leasedPages] at hlease
  rw [leasedPages, Leased.advanceCluster, Interaction.asked_bind, List.filterMap_append]
  apply (congrArg (· ++ _) hlease).trans
  split
  · split_ifs <;> rfl
  · rfl

theorem leasedPages_walkClusters (fs : Filesystem) (dev : Bytes) (fuel o c : ℕ) :
    leasedPages (Leased.walkClusters fs (fuel + 1) o c) dev =
      if o > 0 then (fatRequest fs c).offset :: ((fs.advanceCluster dev c).elim [] fun next =>
        leasedPages (Leased.walkClusters fs fuel (Word.sub 64 o (fs.sectorsPerCluster * 512)) next) dev)
      else [] := by
  rw [Leased.walkClusters]
  split_ifs with ho
  · have hlease := leasedPages_advanceCluster fs dev c
    rw [leasedPages, Interaction.asked_bind, Leased.run_advanceCluster, List.filterMap_append]
    cases fs.advanceCluster dev c with
    | none => exact congrArg (· ++ []) hlease
    | some next => exact congrArg (· ++ _) hlease
  · rfl

theorem leasedPages_pure {α β : Type} (p : LeaseM DirStop α) (f : α → β) (dev : Bytes) :
    leasedPages (p >>= fun a => pure (f a)) dev = leasedPages p dev := by
  rw [leasedPages, Interaction.asked_bind, List.filterMap_append]
  cases p.run (Event.answer dev) with
  | ok a => exact List.append_nil _
  | error e => exact List.append_nil _

section
variable (hfat : ∀ k, (fat k).Fresh (leased used fat k))
include hfat

/-- The leases of the walk over the chain, and what they found. -/
theorem walkClusters_spec {fuel o : ℕ} (h : Placed l.mm (leased used fat l.leases))
    (hrun : (Leased.walkClusters fs fuel o c).exec (leaseStep dev fat) l = some (c', l')) :
    Walked dev used fat l l' (leasedPages (Leased.walkClusters fs fuel o c) (l.mm.device dev)) ∧
      fs.walkClusters (l.mm.device dev) fuel o c = some c' := by
  induction fuel generalizing o c l with
  | zero => cases hrun
  | succ fuel ih =>
    rw [leasedPages_walkClusters, Filesystem.walkClusters]
    rw [Leased.walkClusters] at hrun
    split_ifs at hrun ⊢ with ho
    · rw [Interaction.exec_bind] at hrun
      obtain ⟨⟨next, l1⟩, hadvance, hrun⟩ := Option.bind_eq_some_iff.mp hrun
      obtain ⟨hw, hk, hnext⟩ := advanceCluster_spec hfat h hadvance
      obtain ⟨hw', hwalk⟩ := ih hw.placed hrun
      rw [hw.leasing.device_eq] at hw' hwalk
      rw [hnext, Option.bind_some, hwalk]
      obtain ⟨hmem, hwindow, -⟩ := hw.leasing.leasable_cons.mp hw.leasable
      refine ⟨⟨hw'.placed, hw.subset.trans hw'.subset, hw.leasing.trans hw'.leasing hw.subset, ?_⟩, rfl⟩
      exact hw.leasing.leasable_cons.mpr ⟨hmem, hwindow, hk ▸ hw'.leasable⟩
    · obtain ⟨rfl, rfl⟩ := Prod.mk.inj (Option.some.inj hrun)
      exact ⟨⟨h, subset_rfl, .refl _ _ _, trivial, fun hne => absurd rfl hne⟩, rfl⟩

theorem walkClusters_returns {fuel o : ℕ} (h : Placed l.mm (leased used fat l.leases))
    (hready : Leasable l.mm fat l.leases (leasedPages (Leased.walkClusters fs fuel o c) (l.mm.device dev)))
    (hwalk : fs.walkClusters (l.mm.device dev) fuel o c = some c') :
    ∃ l', (Leased.walkClusters fs fuel o c).exec (leaseStep dev fat) l = some (c', l') := by
  induction fuel generalizing o c l with
  | zero => cases hwalk
  | succ fuel ih =>
    rw [leasedPages_walkClusters] at hready
    rw [Filesystem.walkClusters] at hwalk
    rw [Leased.walkClusters]
    split_ifs at hready hwalk ⊢ with ho
    · obtain ⟨next, hnext, hwalk⟩ := Option.bind_eq_some_iff.mp hwalk
      rw [hnext, Option.elim_some] at hready
      obtain ⟨l1, hadvance⟩ := advanceCluster_returns hfat h hready.memory.1
        (hready.window (List.cons_ne_nil _ _)) hnext
      obtain ⟨hw, hk, -⟩ := advanceCluster_spec hfat h hadvance
      obtain ⟨-, -, hrest⟩ := hw.leasing.leasable_cons.mp hready
      rw [← hw.leasing.device_eq] at hrest hwalk
      obtain ⟨l', hrun⟩ := ih hw.placed (hk ▸ hrest) hwalk
      refine ⟨l', ?_⟩
      rw [Interaction.exec_bind, hadvance]
      exact hrun
    · exact ⟨l, by rw [Option.some.inj hwalk]; rfl⟩

variable {n : Inode} {o : ℕ} {r : Request}

theorem getDevOffset_spec (h : Placed st used)
    (hrun : (Leased.getDevOffset fs n o).exec (leaseStep dev fat) ⟨st, 0⟩ = some (r, l')) :
    Walked dev used fat ⟨st, 0⟩ l' (leasedPages (Leased.getDevOffset fs n o) (st.device dev)) ∧
      n.getDevOffset fs (st.device dev) o = some r.offset := by
  have hdone : Walked dev used fat ⟨st, 0⟩ ⟨st, 0⟩ [] :=
    ⟨h, subset_rfl, .refl _ _ _, trivial, fun hne => absurd rfl hne⟩
  have hrejected {r' : Request} (hret : some (r', (⟨st, 0⟩ : LeaseState)) = some (r, l')) :
      Walked dev used fat ⟨st, 0⟩ l' [] ∧ some r'.offset = some r.offset := by
    obtain ⟨rfl, rfl⟩ := Prod.mk.inj (Option.some.inj hret)
    exact ⟨hdone, rfl⟩
  rw [Leased.getDevOffset] at hrun ⊢
  rw [Inode.getDevOffset]
  split_ifs at hrun ⊢ with haligned hcluster hdir hsize
  · exact hrejected hrun
  · exact hrejected hrun
  · rw [Interaction.exec_bind] at hrun
    obtain ⟨⟨c', l1⟩, hwalk, hret⟩ := Option.bind_eq_some_iff.mp hrun
    obtain ⟨rfl, rfl⟩ := Prod.mk.inj (Option.some.inj hret)
    obtain ⟨hw, hc⟩ := walkClusters_spec hfat h hwalk
    rw [leasedPages_pure, hc]
    exact ⟨hw, rfl⟩
  · cases hrun
  · exact hrejected hrun

theorem getDevOffset_returns {off : ℕ} (h : Placed st used)
    (hready : Leasable st fat 0 (leasedPages (Leased.getDevOffset fs n o) (st.device dev)))
    (hoff : n.getDevOffset fs (st.device dev) o = some off) :
    ∃ r l', (Leased.getDevOffset fs n o).exec (leaseStep dev fat) ⟨st, 0⟩ = some (r, l') := by
  rw [Leased.getDevOffset] at hready ⊢
  rw [Inode.getDevOffset] at hoff
  split_ifs at hready hoff ⊢ with haligned hcluster hdir hsize
  · exact ⟨_, _, rfl⟩
  · exact ⟨_, _, rfl⟩
  · obtain ⟨c', hwalk, -⟩ := Option.map_eq_some_iff.mp hoff
    rw [leasedPages_pure] at hready
    obtain ⟨l', hrun⟩ := walkClusters_returns hfat (l := ⟨st, 0⟩) h hready hwalk
    rw [Interaction.exec_bind, hrun]
    exact ⟨_, l', rfl⟩
  · exact ⟨_, _, rfl⟩

end

end Chain

end HmmOS.Arch.PageFault
