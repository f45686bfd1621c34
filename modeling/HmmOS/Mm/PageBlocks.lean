import HmmOS.Mm.KmallocSizes

/-! # Blocks of whole pages

Thread stacks, page tables and pages of the page cache are requests for whole pages.
Such a request starts a new page, and the arena pointer is dropped behind it.
-/
namespace HmmOS.Mm
open Lib Util.Algorithm

/-- The pages of a result: those of its bytes, and the one its address is in. -/
def pagesOf (r : ℕ × ℕ) : Set ℕ := {v | ∃ x, r.1 ≤ x ∧ (x < r.1 + r.2 ∨ x = r.1) ∧ x / pgSz = v}

/-- If the request gets new pages, the addresses they are mapped at end inside the address space. -/
def RunFits (t : PageFrameTable) (st : Kheap) (sz : ℕ) : Prop :=
  st.arena = 0 ∨ pgSz < st.arena % pgSz + sz → ∀ a base mem a', st.pfa = some a →
    a.alloc t st.mem (pagesFor sz) = some (some base, mem, a') → base < hhdmLen →
    base + pagesFor sz * pgSz ≤ 2 ^ 32 - hhdmStart

/-- A sequence of requests, none of them empty, that stay inside the address space. -/
def PlainCalls (t : PageFrameTable) : Kheap → List ℕ → Prop
  | _, [] => True
  | st, sz :: szs => (0 < sz ∧ sz ≤ 2 ^ 32 - pgSz ∧ RunFits t st sz) ∧
    ∀ st' p, kmalloc t st sz = some (st', p) → PlainCalls t st' szs

def InBlock (k n x : ℕ) : Prop := k ≤ (x - hhdmStart) / 4096 ∧ (x - hhdmStart) / 4096 < k + n

structure ApartFrom (t : PageFrameTable) (s e k n : ℕ) (mem0 : PfdMem) (st : Kheap) : Prop extends
    KheapInv t s e mem0 st where
  taken : ∀ j, k ≤ j → j < k + n → (st.mem (t.slot j)).allocated = true
  arena : st.arena ≠ 0 → (hhdmStart ≤ st.arena ∧ st.arena < 2 ^ 32) ∧ ¬ InBlock k n st.arena

section Requests
variable {t : PageFrameTable} {s e sz p k n : ℕ} {mem0 mem : PfdMem} {st st' : Kheap}

/-- Requests that are not larger than what is left behind the map always fit. -/
theorem runFits_of_le (hsz : sz ≤ 2 ^ 32 - (hhdmStart + hhdmLen)) : RunFits t st sz := by
  intro _ a base mem a' ha halloc hbase
  rw [hhdmStart_eq, hhdmLen_eq] at hsz
  rw [hhdmLen_eq] at hbase
  rw [pagesFor_eq (by omega), pgSz_eq, hhdmStart_eq]
  omega

theorem mapped_end_le {base : ℕ} (hrun : base + n ≤ 2 ^ 32 - hhdmStart) (hsz : sz ≤ n) :
    base + hhdmStart + sz ≤ 2 ^ 32 := by
  rw [hhdmStart_eq] at hrun ⊢
  omega

theorem bumped_eq_add {arena : ℕ} (hend : arena + sz ≤ 2 ^ 32) (hne : bumped arena sz ≠ 0) :
    bumped arena sz = arena + sz ∧ (arena + sz) % 4096 ≠ 0 ∧ arena + sz < 2 ^ 32 := by
  obtain ⟨heq, hoff⟩ := bumped_ne_zero hne
  omega

theorem bumped_aligned {arena : ℕ} (h : (arena + sz) % 4096 = 0) : bumped arena sz = 0 := by
  have hal : pgAligned (Word.add 32 arena sz) = true := by
    rw [pgAligned_iff, Word.add]
    omega
  rw [bumped, if_pos hal]

theorem ApartFrom.claims {k' n' x : ℕ} (h : ApartFrom t s e k n mem0 st)
    (hclaims : t.Claims st.mem mem k' n') (hlo : k' * 4096 + hhdmStart ≤ x)
    (hhi : x < k' * 4096 + hhdmStart + n' * 4096) : ¬ InBlock k n x := by
  intro hin
  have hpage := page_in_run hlo hhi
  have hused := h.taken _ hin.1 hin.2
  rw [hclaims.free hpage.1 hpage.2] at hused
  cases hused

/-- Bytes of the current page are outside the block, and so is what is left of the page. -/
theorem ApartFrom.bump (h : ApartFrom t s e k n mem0 st)
    (hinv : KheapInv t s e mem0 { st with arena := bumped st.arena sz }) (hpos : st.arena ≠ 0)
    (hend : st.arena % 4096 + sz ≤ 4096) :
    ApartFrom t s e k n mem0 { st with arena := bumped st.arena sz } ∧ hhdmStart ≤ st.arena ∧
      ∀ x, st.arena ≤ x → x < st.arena + sz → ¬ InBlock k n x := by
  obtain ⟨hrange, hout⟩ := h.arena hpos
  -- everything stays in the page of the arena pointer
  have hsame : ∀ x, st.arena ≤ x → x / 4096 = st.arena / 4096 → ¬ InBlock k n x := by
    intro x hx hpage hin
    apply hout
    have heq : (x - hhdmStart) / 4096 = (st.arena - hhdmStart) / 4096 := by
      rw [hhdmStart_eq] at hrange ⊢
      omega
    rwa [InBlock, heq] at hin
  refine ⟨⟨hinv, h.taken, ?_⟩, hrange.1, ?_⟩
  · intro hne
    obtain ⟨heq, hoff, hlt⟩ := bumped_eq_add (by omega) hne
    dsimp only
    rw [heq]
    exact ⟨⟨by omega, hlt⟩, hsame _ (by omega) (by omega)⟩
  · intro x hlo hhi
    exact hsame x hlo (by omega)

theorem ApartFrom.refill {k' n' : ℕ} {a' : SimplePFA} (h : ApartFrom t s e k n mem0 st)
    (hinv : KheapInv t s e mem0 ⟨bumped (k' * 4096 + hhdmStart) sz, some a', mem⟩)
    (hkeeps : ∀ x, (st.mem x).allocated = true → (mem x).allocated = true)
    (hclaims : t.Claims st.mem mem k' n') (hrun : k' * 4096 + n' * 4096 ≤ 2 ^ 32 - hhdmStart)
    (hcover : sz ≤ n' * 4096) : ApartFrom t s e k n mem0 ⟨bumped (k' * 4096 + hhdmStart) sz, some a', mem⟩ ∧
      ∀ x, k' * 4096 + hhdmStart ≤ x → x < k' * 4096 + hhdmStart + sz → ¬ InBlock k n x := by
  have hout := fun x => h.claims (x := x) hclaims
  refine ⟨⟨hinv, fun j hlo hhi => hkeeps _ (h.taken j hlo hhi), ?_⟩, ?_⟩
  · intro hne
    obtain ⟨heq, hoff, hlt⟩ := bumped_eq_add (mapped_end_le hrun hcover) hne
    have hpart : sz ≠ n' * 4096 := by
      intro hwhole
      apply hoff
      rw [hwhole, hhdmStart_eq]
      omega
    rw [heq]
    exact ⟨⟨Nat.le_add_right_of_le (Nat.le_add_left _ _), hlt⟩, hout _ (Nat.le_add_right _ _)
      (Nat.add_lt_add_left (lt_of_le_of_ne hcover hpart) _)⟩
  · intro x hlo hhi
    exact hout x hlo (hhi.trans_le (Nat.add_le_add_left hcover _))

theorem ApartFrom.step (h : ApartFrom t s e k n mem0 st) (hdata : t.pft.data < hhdmStart + hhdmLen)
    (hsz : sz ≤ 2 ^ 32 - pgSz) (hfits : RunFits t st sz) (hcall : kmalloc t st sz = some (st', p)) :
    ApartFrom t s e k n mem0 st' ∧ (p ≠ 0 → hhdmStart ≤ p ∧ ∀ x, p ≤ x → x < p + sz → ¬ InBlock k n x) := by
  have hstep := kmalloc_step h.owns hcall
  have hinv := h.toKheapInv.step hstep
  cases hstep with
  | unset hpfa => exact ⟨h, fun hp => absurd rfl hp⟩
  | bump hpfa hroom =>
    obtain ⟨hpos, hend⟩ := (full_eq_false (sum_lt st hsz)).mp hroom
    obtain ⟨hapart, hout⟩ := h.bump hinv hpos hend
    exact ⟨hapart, fun _ => hout⟩
  | oom hroom howns => exact ⟨⟨hinv, h.taken, fun hne => absurd rfl hne⟩, fun hp => absurd rfl hp⟩
  | @refill a a' mem k' hpfa hroom howns halloc hk hend hclaims =>
    have hrun := hfits ((full_iff (sum_lt st hsz)).mp hroom) _ _ _ _ hpfa halloc hk
    obtain ⟨hapart, hout⟩ := h.refill hinv (fun _ => SimplePFA.alloc_keeps halloc)
      (hclaims (slot_lt_of_run hdata hrun)) hrun (le_pagesFor_mul (hsz.trans_lt (by decide)))
    exact ⟨hapart, fun _ => ⟨Nat.le_add_left _ _, hout⟩⟩

/-- Plain requests, one after the other, get bytes outside the block. -/
theorem ApartFrom.kmallocs {szs : List ℕ} {results results' : List (ℕ × ℕ)}
    (h : ApartFrom t s e k n mem0 st) (hdata : t.pft.data < hhdmStart + hhdmLen)
    (hplain : PlainCalls t st szs) (hrun : kmallocs t st results szs = some (st', results'))
    (hold : ∀ r ∈ results, hhdmStart ≤ r.1 ∧ 0 < r.2 ∧ ∀ x, r.1 ≤ x → x < r.1 + r.2 → ¬ InBlock k n x) :
    ∀ r ∈ results', hhdmStart ≤ r.1 ∧ 0 < r.2 ∧ ∀ x, r.1 ≤ x → x < r.1 + r.2 → ¬ InBlock k n x := by
  induction szs generalizing st results with
  | nil =>
    cases hrun
    exact hold
  | cons sz szs ih =>
    obtain ⟨⟨st1, p⟩, hcall, hrest⟩ := Option.bind_eq_some_iff.mp hrun
    obtain ⟨⟨hpos, hsz, hfits⟩, hnext⟩ := hplain
    obtain ⟨h1, hres⟩ := h.step hdata hsz hfits hcall
    apply ih h1 (hnext st1 p hcall) hrest
    split_ifs with hnull
    · exact hold
    · intro r hr
      rcases List.mem_cons.mp hr with rfl | hr
      · exact ⟨(hres hnull).1, hpos, (hres hnull).2⟩
      · exact hold r hr

/-- Requests of one byte up to what is left behind the map are plain. -/
theorem KheapInv.plainCalls {szs : List ℕ} (h : KheapInv t s e mem0 st)
    (hszs : ∀ sz ∈ szs, 0 < sz ∧ sz ≤ 2 ^ 32 - (hhdmStart + hhdmLen)) : PlainCalls t st szs := by
  induction szs generalizing st with
  | nil => trivial
  | cons sz szs ih =>
    obtain ⟨hpos, hsz⟩ := hszs sz List.mem_cons_self
    refine ⟨⟨hpos, hsz.trans (by decide), runFits_of_le hsz⟩, ?_⟩
    intro st' p hcall
    exact ih (h.step (kmalloc_step h.owns hcall)) fun sz' hsz' => hszs sz' (List.mem_cons_of_mem _ hsz')

/-- A request of a page or more gets a null pointer or new pages. -/
theorem KheapInv.page_request (h : KheapInv t s e mem0 st) (hlo : pgSz ≤ sz)
    (hsz : sz ≤ 2 ^ 32 - pgSz) (hcall : kmalloc t st sz = some (st', p)) :
    p = 0 ∨ ∃ k mem a a', p = k * 4096 + hhdmStart ∧ st' = ⟨bumped p sz, some a', mem⟩ ∧
      st.pfa = some a ∧ a.alloc t st.mem (pagesFor sz) = some (some (k * 4096), mem, a') ∧
      k * 4096 < hhdmLen ∧ (st.arena = 0 ∨ pgSz < st.arena % pgSz + sz) ∧
      (t.slot (k + pagesFor sz) < 2 ^ 32 → t.Claims st.mem mem k (pagesFor sz)) := by
  cases kmalloc_step h.owns hcall with
  | unset hpfa => exact .inl rfl
  | bump hpfa hroom =>
    -- the page has been started, so what is left of it is less than a page
    obtain ⟨hpos, hend⟩ := (full_eq_false (sum_lt st hsz)).mp hroom
    have hoff := mt h.started hpos
    rw [pgSz_eq] at hlo
    omega
  | oom hroom howns => exact .inl rfl
  | @refill a a' mem k hpfa hroom howns halloc hk hend hclaims =>
    exact .inr ⟨k, mem, a, a', rfl, rfl, hpfa, halloc, hk, (full_iff (sum_lt st hsz)).mp hroom, hclaims⟩

theorem mem_pagesOf_block {v : ℕ} (hn : 0 < n) (h : v ∈ pagesOf (k * 4096 + hhdmStart, n * 4096)) :
    k + hhdmStart / 4096 ≤ v ∧ v < k + n + hhdmStart / 4096 := by
  obtain ⟨x, hlo, hhi, rfl⟩ := h
  have hlt : x < k * 4096 + hhdmStart + n * 4096 := by
    rcases hhi with hhi | rfl
    · exact hhi
    · omega
  rw [hhdmStart_eq] at hlo hlt ⊢
  rw [pgSz_eq]
  omega

theorem disjoint_block {r : ℕ × ℕ} (hn : 0 < n) (hstart : hhdmStart ≤ r.1) (hpos : 0 < r.2)
    (hout : ∀ x, r.1 ≤ x → x < r.1 + r.2 → ¬ InBlock k n x) :
    Disjoint (pagesOf r) (pagesOf (k * 4096 + hhdmStart, n * 4096)) := by
  rw [Set.disjoint_left]
  intro v hv hblock
  have hin := mem_pagesOf_block hn hblock
  obtain ⟨x, hlo, hhi, rfl⟩ := hv
  apply hout x hlo (by omega)
  rw [InBlock]
  rw [hhdmStart_eq] at hin hstart ⊢
  rw [pgSz_eq] at hin
  omega

end Requests

/-- A request of a page or more gets a null pointer or an aligned address. A block of whole pages shares
none with later plain requests. -/
theorem kmalloc_page_block {t : PageFrameTable} {s e sz p : ℕ} {mem0 : PfdMem} {pfa : Option SimplePFA}
    {szs : List ℕ} {st st1 : Kheap} {earlier : List (ℕ × ℕ)}
    (hpfa : ∀ a, pfa = some a → a.Owns t s e) (hdata : t.pft.data < hhdmStart + hhdmLen)
    (hrun : kmallocs t ⟨0, pfa, mem0⟩ [] szs = some (st, earlier)) (hlo : pgSz ≤ sz)
    (hhi : sz ≤ 2 ^ 32 - pgSz) (hcall : kmalloc t st sz = some (st1, p)) :
    (p = 0 ∨ p % pgSz = 0) ∧
      (sz % pgSz = 0 → p ≠ 0 → RunFits t st sz → ∀ later st2 results, PlainCalls t st1 later →
        kmallocs t st1 [] later = some (st2, results) →
        ∀ r ∈ results, Disjoint (pagesOf r) (pagesOf (p, sz))) := by
  have hinv := (KheapInv.init hpfa).kmallocs hrun
  have hstep := kmalloc_step hinv.owns hcall
  rcases hinv.page_request hlo hhi hcall with rfl | ⟨k, mem, a, a', rfl, rfl, ha, halloc, hk, hneeds, hclaims⟩
  · exact ⟨.inl rfl, fun _ hp => absurd rfl hp⟩
  · refine ⟨.inr ?_, ?_⟩
    · rw [pgSz_eq, hhdmStart_eq]
      omega
    · intro hwhole _ hfits later st2 results hplain hlater r hr
      have hrun := hfits hneeds a _ mem a' ha halloc hk
      rw [pgSz_eq] at hrun hwhole hlo
      have hclaims := hclaims (slot_lt_of_run hdata hrun)
      have hpages : sz = pagesFor sz * 4096 := by
        rw [pagesFor_eq (hhi.trans_lt (by decide))]
        omega
      have hdropped : bumped (k * 4096 + hhdmStart) sz = 0 := by
        apply bumped_aligned
        rw [hhdmStart_eq]
        omega
      have hapart : ApartFrom t s e k (pagesFor sz) mem0 ⟨bumped (k * 4096 + hhdmStart) sz, some a', mem⟩ := by
        refine ⟨hinv.step hstep, ?_, fun hne => absurd hdropped hne⟩
        intro j hjlo hjhi
        dsimp only
        rw [hclaims.2, if_pos ⟨hjlo, hjhi⟩]
      obtain ⟨hstart, hpos, hout⟩ := hapart.kmallocs hdata hplain hlater
        (fun r hr => absurd hr List.not_mem_nil) r hr
      rw [hpages]
      exact disjoint_block (by omega) hstart hpos hout

/-- Three requests after a page of sixteen. -/
theorem sixteenHeap_page_block :
    ((kmalloc sixteenTable ⟨0, some sixteenPfa.2, sixteenPfa.1⟩ 4096).bind fun r =>
      (kmallocs sixteenTable r.1 [] [100, 3000, 5000]).map fun q => (r.2, q.2)) =
        some (0xC0001000, [(0xC0003000, 5000), (0xC0002064, 3000), (0xC0002000, 100)]) ∧
      ∀ r ∈ [(0xC0003000, 5000), (0xC0002064, 3000), (0xC0002000, 100)],
        Disjoint (pagesOf r) (pagesOf (0xC0001000, 4096)) := by
  have hrun : kmallocs sixteenTable ⟨0, some sixteenPfa.2, sixteenPfa.1⟩ [] [] =
      some (⟨0, some sixteenPfa.2, sixteenPfa.1⟩, []) := rfl
  have hinit : KheapInv sixteenTable 0 16 sixteenPfa.1 ⟨0, some sixteenPfa.2, sixteenPfa.1⟩ :=
    KheapInv.init sixteenPfa_option_owns
  have hboth : ((kmalloc sixteenTable ⟨0, some sixteenPfa.2, sixteenPfa.1⟩ 4096).bind fun r =>
      (kmallocs sixteenTable r.1 [] [100, 3000, 5000]).map fun q => (r.2, q.2)) =
      some (0xC0001000, [(0xC0003000, 5000), (0xC0002064, 3000), (0xC0002000, 100)]) := by decide +kernel
  refine ⟨hboth, ?_⟩
  obtain ⟨⟨st1, p⟩, hcall, hmore⟩ := Option.bind_eq_some_iff.mp hboth
  obtain ⟨⟨st2, results⟩, hlater, heq⟩ := Option.map_eq_some_iff.mp hmore
  obtain ⟨rfl, rfl⟩ := heq
  obtain ⟨-, hblock⟩ := kmalloc_page_block sixteenPfa_option_owns (by decide) hrun (by decide) (by decide) hcall
  exact hblock (by decide) (by decide) (runFits_of_le (by decide)) [100, 3000, 5000] st2 _
    ((hinit.step (kmalloc_step hinit.owns hcall)).plainCalls (by decide)) hlater

/-- A request for no bytes after a page of sixteen gets the address of that page. -/
theorem sixteenHeap_page_shared :
    (kmallocs sixteenTable ⟨0, some sixteenPfa.2, sixteenPfa.1⟩ [] [4096, 0]).map Prod.snd =
        some [(0xC0001000, 0), (0xC0001000, 4096)] ∧
      ¬ Disjoint (pagesOf (0xC0001000, 0)) (pagesOf (0xC0001000, 4096)) := by
  refine ⟨by decide +kernel, ?_⟩
  rw [Set.not_disjoint_iff]
  exact ⟨0xC0001000 / pgSz, ⟨0xC0001000, le_rfl, .inr rfl, rfl⟩, ⟨0xC0001000, le_rfl, .inr rfl, rfl⟩⟩

end HmmOS.Mm
