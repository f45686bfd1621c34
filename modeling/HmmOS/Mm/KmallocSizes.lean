import HmmOS.Mm.Kmalloc

/-! # Requests of any size

The test whether a request fits in the current page adds in 32 bits, so a request of
almost `2^32` bytes passes it on any page that has been started.
-/
namespace HmmOS.Mm
open Lib Util.Algorithm

def bumped (arena sz : ℕ) : ℕ :=
  if pgAligned (Word.add 32 arena sz) then 0 else Word.add 32 arena sz

/-- A call has done nothing without a frame allocator, taken bytes of the current page, found no memory,
or taken bytes of new pages. -/
inductive KmallocStep (t : PageFrameTable) (s e : ℕ) (st : Kheap) (sz : ℕ) : Kheap → ℕ → Prop
  | unset (hpfa : st.pfa = none) : KmallocStep t s e st sz st 0
  | bump (hpfa : st.pfa ≠ none) (hfull : st.full sz = false) :
      KmallocStep t s e st sz { st with arena := bumped st.arena sz } st.arena
  | oom {a : SimplePFA} (hfull : st.full sz = true) (howns : a.Owns t s e) :
      KmallocStep t s e st sz ⟨0, some a, st.mem⟩ 0
  | refill {a a' : SimplePFA} {mem : PfdMem} {k : ℕ} (hpfa : st.pfa = some a)
      (hfull : st.full sz = true) (howns : a'.Owns t s e)
      (halloc : a.alloc t st.mem (pagesFor sz) = some (some (k * 4096), mem, a'))
      (hk : k * 4096 < hhdmLen) (hend : t.slot (k + pagesFor sz) < 2 ^ 32 → k + pagesFor sz ≤ e)
      (hclaims : t.slot (k + pagesFor sz) < 2 ^ 32 → t.Claims st.mem mem k (pagesFor sz)) :
      KmallocStep t s e st sz ⟨bumped (k * 4096 + hhdmStart) sz, some a', mem⟩ (k * 4096 + hhdmStart)

variable {t : PageFrameTable} {s e sz p : ℕ} {st st' : Kheap} {mem mem0 : PfdMem}

section Step
variable {a a' : SimplePFA}

theorem bump_eq (h : st.arena ≠ 0) :
    st.bump sz = ({ st with arena := bumped st.arena sz }, st.arena) := by
  rw [Kheap.bump, if_neg h]
  rfl

theorem kmalloc_of_not_full (hpfa : st.pfa ≠ none) (hfull : st.full sz = false) :
    st.arena ≠ 0 ∧ kmalloc t st sz = some ({ st with arena := bumped st.arena sz }, st.arena) := by
  have harena : st.arena ≠ 0 := by
    intro hzero
    have := full_eq_true.mpr (.inl hzero : st.arena = 0 ∨ pgSz < Word.add 32 (st.arena % 4096) sz)
    rw [hfull] at this
    cases this
  obtain ⟨a, ha⟩ := Option.ne_none_iff_exists'.mp hpfa
  refine ⟨harena, ?_⟩
  rw [kmalloc, ha]
  dsimp only
  rw [hfull, if_neg Bool.false_ne_true, Option.map_some, bump_eq harena, ha]

theorem kmalloc_of_alloc {base : ℕ} {mem : PfdMem} (hpfa : st.pfa = some a) (hfull : st.full sz = true)
    (halloc : a.alloc t st.mem (pagesFor sz) = some (some base, mem, a')) (hbase : base < hhdmLen) :
    kmalloc t st sz = some (⟨bumped (base + hhdmStart) sz, some a', mem⟩, base + hhdmStart) := by
  have hpos : base + hhdmStart ≠ 0 := by
    rw [hhdmStart_eq]
    omega
  have hrefill : st.refill t a sz = some ⟨base + hhdmStart, some a', mem⟩ := by
    rw [Kheap.refill, halloc, Option.bind_some]
    dsimp only
    rw [directToHhdm, if_pos hbase]
    rfl
  rw [kmalloc, hpfa]
  dsimp only
  rw [hfull, if_pos rfl, hrefill, Option.map_some, bump_eq hpos]

/-- What a call that returns has done, in any state of the heap. -/
theorem kmalloc_step (howns : ∀ a, st.pfa = some a → a.Owns t s e)
    (h : kmalloc t st sz = some (st', p)) : KmallocStep t s e st sz st' p := by
  cases hpfa : st.pfa with
  | none =>
    rw [kmalloc, hpfa] at h
    cases h
    exact .unset hpfa
  | some a =>
    have hne : st.pfa ≠ none := by
      rw [hpfa]
      exact Option.some_ne_none a
    cases hfull : st.full sz with
    | false =>
      rw [(kmalloc_of_not_full hne hfull).2] at h
      cases h
      exact .bump hne hfull
    | true =>
      obtain ⟨res, mem, a', halloc, howns', hcase⟩ := alloc_spec (howns a hpfa) st.mem (pagesFor sz)
      rcases hcase with ⟨rfl, rfl, -⟩ | ⟨k, rfl, -, -, htaken, -⟩
      · rw [kmalloc, hpfa] at h
        dsimp only at h
        rw [hfull, if_pos rfl, Kheap.refill, halloc] at h
        cases h
        exact .oom hfull howns'
      · by_cases hk : k * 4096 < hhdmLen
        · rw [kmalloc_of_alloc hpfa hfull halloc hk] at h
          cases h
          exact .refill hpfa hfull howns' halloc hk (fun hfit => (htaken hfit).1)
            fun hfit => (htaken hfit).2
        · -- `direct_to_hhdm` asserts
          rw [kmalloc, hpfa] at h
          dsimp only at h
          rw [hfull, if_pos rfl, Kheap.refill, halloc, Option.bind_some] at h
          dsimp only at h
          rw [directToHhdm, if_neg hk] at h
          cases h

end Step

section Keep
variable {mem' : PfdMem} {n x : ℕ}

theorem setAllocated_keeps {limit it : ℕ} (h : (mem x).allocated = true) :
    (setAllocated limit n mem it x).allocated = true := by
  induction n generalizing mem it with
  | zero => exact h
  | succ n ih =>
    rw [setAllocated]
    split_ifs with hlt
    · apply ih
      by_cases hx : x = it
      · rw [hx, Function.update_self]
      · rwa [Function.update_of_ne hx]
    · exact h

/-- `alloc` releases no page, not even where it is wrong. -/
theorem SimplePFA.alloc_keeps {a a' : SimplePFA} {res : Option ℕ}
    (h : a.alloc t mem n = some (res, mem', a')) (hx : (mem x).allocated = true) :
    (mem' x).allocated = true := by
  rw [SimplePFA.alloc] at h
  split_ifs at h with hlen
  · cases h
    exact hx
  · obtain ⟨⟨needle, steps⟩, -, hres⟩ := Option.map_eq_some_iff.mp h
    dsimp only at hres
    split_ifs at hres
    · cases hres
      exact hx
    · cases hres
      exact setAllocated_keeps hx

end Keep

/-- The pages in use at the start are still in use, and an arena pointer is never at the start of a page. -/
structure KheapInv (t : PageFrameTable) (s e : ℕ) (mem0 : PfdMem) (st : Kheap) : Prop where
  owns : ∀ a, st.pfa = some a → a.Owns t s e
  kept : ∀ x, (mem0 x).allocated = true → (st.mem x).allocated = true
  started : st.arena % 4096 = 0 → st.arena = 0
  unset : st.pfa = none → st.arena = 0

theorem bumped_started {arena : ℕ} : bumped arena sz % 4096 = 0 → bumped arena sz = 0 := by
  unfold bumped
  split_ifs with hal
  · exact fun _ => rfl
  · exact fun h => absurd (pgAligned_iff.mpr h) hal

theorem bumped_ne_zero {arena : ℕ} (hne : bumped arena sz ≠ 0) :
    bumped arena sz = (arena + sz) % 2 ^ 32 ∧ (arena + sz) % 2 ^ 32 % 4096 ≠ 0 := by
  unfold bumped at hne ⊢
  split_ifs at hne ⊢ with hal
  · exact absurd rfl hne
  · exact ⟨rfl, fun hmod => hal (pgAligned_iff.mpr hmod)⟩

theorem KheapInv.step (h : KheapInv t s e mem0 st) (hstep : KmallocStep t s e st sz st' p) :
    KheapInv t s e mem0 st' := by
  cases hstep with
  | unset hpfa => exact h
  | bump hpfa hfull => exact ⟨h.owns, h.kept, bumped_started, fun hnone => absurd hnone hpfa⟩
  | oom hfull howns =>
    refine ⟨?_, h.kept, fun _ => rfl, fun _ => rfl⟩
    intro a ha
    cases ha
    exact howns
  | refill hpfa hfull howns halloc hk hend hclaims =>
    refine ⟨?_, fun x hx => SimplePFA.alloc_keeps halloc (h.kept x hx), bumped_started, nofun⟩
    intro a ha
    cases ha
    exact howns

theorem kmallocs_inv {P : Kheap → Prop} {szs : List ℕ} {results results' : List (ℕ × ℕ)}
    (hstep : ∀ st sz st' p, sz ∈ szs → P st → kmalloc t st sz = some (st', p) → P st') (h : P st)
    (hrun : kmallocs t st results szs = some (st', results')) : P st' := by
  induction szs generalizing st results with
  | nil =>
    cases hrun
    exact h
  | cons sz szs ih =>
    obtain ⟨⟨st1, p⟩, hcall, hrest⟩ := Option.bind_eq_some_iff.mp hrun
    apply ih _ (hstep st sz st1 p List.mem_cons_self h hcall) hrest
    intro st sz st' p hmem
    exact hstep st sz st' p (List.mem_cons_of_mem _ hmem)

theorem KheapInv.init {pfa : Option SimplePFA} (howns : ∀ a, pfa = some a → a.Owns t s e) :
    KheapInv t s e mem0 ⟨0, pfa, mem0⟩ :=
  ⟨howns, fun _ hx => hx, fun _ => rfl, fun _ => rfl⟩

theorem KheapInv.kmallocs {szs : List ℕ} {results results' : List (ℕ × ℕ)}
    (h : KheapInv t s e mem0 st) (hrun : kmallocs t st results szs = some (st', results')) :
    KheapInv t s e mem0 st' := by
  apply kmallocs_inv _ h hrun
  intro st sz st' p _ h hcall
  exact h.step (kmalloc_step h.owns hcall)

/-- The offset in the current page and the size do not wrap; the current page is one of the frame
allocator's, and new pages lie in the part of memory that is mapped. -/
structure Fitting (t : PageFrameTable) (mem0 : PfdMem) (st : Kheap) (sz : ℕ) : Prop where
  noWrap : st.arena ≠ 0 → st.arena % pgSz + sz < 2 ^ 32
  current : st.arena ≠ 0 → 0 < sz → st.arena % pgSz + sz ≤ pgSz → t.Backed mem0 st.mem st.arena
  frames : st.arena = 0 ∨ pgSz < st.arena % pgSz + sz → ∀ a base mem a', st.pfa = some a →
    a.alloc t st.mem (pagesFor sz) = some (some base, mem, a') → base < hhdmLen →
    base + pagesFor sz * pgSz ≤ hhdmLen

theorem Fitting.backed {x : ℕ} (hfit : Fitting t mem0 st sz) (h : KheapInv t s e mem0 st)
    (hdata : t.pft.data < hhdmStart + hhdmLen) (hsz : sz < 2 ^ 32)
    (hcall : kmalloc t st sz = some (st', p)) (hp : p ≠ 0) (hx : x ∈ bytesOf (p, sz)) :
    t.Backed mem0 st'.mem x := by
  cases kmalloc_step h.owns hcall with
  | unset hpfa => exact absurd rfl hp
  | bump hpfa hfits =>
    have hroom := ((full_eq_false hfit.noWrap).mp hfits).2
    have hback := hfit.current hp (by have := hx.1.trans_lt hx.2; omega) (by rwa [pgSz_eq])
    apply hback.same_page
    have hlo : st.arena ≤ x := hx.1
    have hhi : x < st.arena + sz := hx.2
    omega
  | oom hfits howns => exact absurd rfl hp
  | @refill a a' mem k hpfa hfits howns halloc hk hend hclaims =>
    have hmapped := hfit.frames ((full_iff hfit.noWrap).mp hfits) _ _ _ _ hpfa halloc hk
    have hslot := slot_lt_of_run hdata (hmapped.trans (by decide))
    apply (hclaims hslot).backed (fun j => h.kept _) hmapped hx.1
    have hhi : x < k * 4096 + hhdmStart + sz := hx.2
    exact hhi.trans_le (Nat.add_le_add_left (le_pagesFor_mul hsz) _)

theorem KheapInv.fitting (h : KheapInv t s e mem0 st) (hsz : sz < 2 ^ 32)
    (hback : ∀ st' p, kmalloc t st sz = some (st', p) → p ≠ 0 → ∀ x ∈ bytesOf (p, sz),
      t.Backed mem0 st'.mem x) : Fitting t mem0 st sz := by
  have hpfa : st.arena ≠ 0 → st.pfa ≠ none := fun hne hnone => hne (h.unset hnone)
  have hnoWrap : st.arena ≠ 0 → st.arena % pgSz + sz < 2 ^ 32 := by
    intro hne
    by_contra hwrap
    -- the wrapped sum is smaller than the offset
    have hfull : st.full sz = false := by
      rw [Bool.eq_false_iff, ne_eq, full_eq_true]
      rintro (hzero | hgt)
      · exact hne hzero
      · unfold Word.add at hgt
        rw [pgSz_eq] at hgt hwrap
        omega
    have hlast := hback _ _ (kmalloc_of_not_full (hpfa hne) hfull).2 hne (st.arena + sz - 1)
      ⟨by dsimp only; rw [pgSz_eq] at hwrap; omega, by dsimp only; rw [pgSz_eq] at hwrap; omega⟩
    have hlt := (backed_iff.mp hlast).1.2
    rw [hhdmStart_eq, hhdmLen_eq] at hlt
    rw [pgSz_eq] at hwrap
    omega
  refine ⟨hnoWrap, ?_, ?_⟩
  · intro hne hpos hroom
    have hfits := (full_eq_false hnoWrap).mpr ⟨hne, by rwa [pgSz_eq] at hroom⟩
    exact hback _ _ (kmalloc_of_not_full (hpfa hne) hfits).2 hne st.arena
      ⟨le_rfl, Nat.lt_add_of_pos_right hpos⟩
  · intro hneeds a base mem a' ha halloc hbase
    by_contra hgt
    have hcall := kmalloc_of_alloc ha ((full_iff hnoWrap).mpr hneeds) halloc hbase
    obtain ⟨k, rfl, -⟩ := alloc_some (h.owns a ha) halloc
    have hpages := pagesFor_eq hsz
    rw [hhdmLen_eq, pgSz_eq] at hgt
    rw [hhdmLen_eq] at hbase
    -- the last byte lies behind the end of the map
    have hlast := hback _ _ hcall (by rw [hhdmStart_eq]; omega) (k * 4096 + hhdmStart + sz - 1)
      ⟨by dsimp only; omega, by dsimp only; rw [hhdmStart_eq]; omega⟩
    have hlt := (backed_iff.mp hlast).1.2
    rw [hhdmStart_eq, hhdmLen_eq] at hlt
    omega

/-- Where all memory is mapped, the arena pointer stays in a page of the frame allocator. -/
theorem KheapInv.arena_step (h : KheapInv t s e mem0 st) (hdata : t.pft.data < hhdmStart + hhdmLen)
    (he : e * pgSz ≤ hhdmLen) (hsz : sz < 2 ^ 32) (harena : st.arena ≠ 0 → t.Backed mem0 st.mem st.arena)
    (hstep : KmallocStep t s e st sz st' p) (hne : st'.arena ≠ 0) : t.Backed mem0 st'.mem st'.arena := by
  cases hstep with
  | unset hpfa => exact harena hne
  | bump hpfa hfits =>
    have hpos := (@kmalloc_of_not_full t sz st hpfa hfits).1
    have hback := harena hpos
    obtain ⟨heq, hoff⟩ := bumped_ne_zero hne
    dsimp only
    apply hback.same_page
    -- also a wrapped sum stays in the page
    have hsum : (st.arena % 4096 + sz) % 2 ^ 32 ≤ 4096 := by
      by_contra hgt
      have := full_eq_true.mpr (.inr (by rw [pgSz_eq]; exact not_le.mp hgt) :
        st.arena = 0 ∨ pgSz < Word.add 32 (st.arena % 4096) sz)
      rw [hfits] at this
      cases this
    have hlt := (backed_iff.mp hback).1.2
    rw [hhdmStart_eq, hhdmLen_eq] at hlt
    omega
  | oom hfits howns => exact absurd rfl hne
  | @refill a a' mem k hpfa hfits howns halloc hk hend hclaims =>
    have hmapped := (alloc_mapped (h.owns a hpfa) hdata he halloc).2
    rw [pgSz_eq] at hmapped
    have hslot := slot_lt_of_run hdata (hmapped.trans (by decide))
    obtain ⟨heq, hoff⟩ := bumped_ne_zero hne
    have hpages := pagesFor_eq hsz
    dsimp only
    rw [heq]
    rw [hhdmLen_eq] at hmapped
    apply (hclaims hslot).backed (fun j => h.kept _) (by rw [hhdmLen_eq]; exact hmapped)
    · rw [hhdmStart_eq] at hoff ⊢
      omega
    · rw [hhdmStart_eq] at hoff ⊢
      omega

/-- A result that is not null lies in pages obtained from the frame allocator just when the request is
`Fitting`. -/
theorem kmalloc_backed_iff {t : PageFrameTable} {s e sz : ℕ} {mem0 : PfdMem} {pfa : Option SimplePFA}
    {szs : List ℕ} {st : Kheap} {earlier : List (ℕ × ℕ)} (hpfa : ∀ a, pfa = some a → a.Owns t s e)
    (hdata : t.pft.data < hhdmStart + hhdmLen) (hszs : ∀ sz ∈ szs, sz < 2 ^ 32)
    (hrun : kmallocs t ⟨0, pfa, mem0⟩ [] szs = some (st, earlier)) (hsz : sz < 2 ^ 32) :
    ((∀ st' p, kmalloc t st sz = some (st', p) → p ≠ 0 →
        ∀ x ∈ bytesOf (p, sz), t.Backed mem0 st'.mem x) ↔ Fitting t mem0 st sz) ∧
      (e * pgSz ≤ hhdmLen →
        (Fitting t mem0 st sz ↔ st.arena = 0 ∨ st.arena % pgSz + sz < 2 ^ 32)) := by
  have hinv := (KheapInv.init hpfa).kmallocs hrun
  refine ⟨⟨hinv.fitting hsz, ?_⟩, ?_⟩
  · intro hfit st' p hcall hp x hx
    exact hfit.backed hinv hdata hsz hcall hp hx
  · intro he
    have harena : KheapInv t s e mem0 st ∧ (st.arena ≠ 0 → t.Backed mem0 st.mem st.arena) := by
      apply kmallocs_inv _ ⟨KheapInv.init hpfa, fun hne => absurd rfl hne⟩ hrun
      intro st sz st' p hmem h hcall
      have hstep := kmalloc_step h.1.owns hcall
      exact ⟨h.1.step hstep, h.1.arena_step hdata he (hszs sz hmem) h.2 hstep⟩
    constructor
    · intro hfit
      by_cases hzero : st.arena = 0
      · exact .inl hzero
      · exact .inr (hfit.noWrap hzero)
    · intro hsum
      refine ⟨fun hne => hsum.resolve_left hne, fun hne _ _ => harena.2 hne, ?_⟩
      intro _ a base mem a' ha halloc _
      exact (alloc_mapped (hinv.owns a ha) hdata he halloc).2

def sixteenHeap : Kheap :=
  ((kmallocs sixteenTable ⟨0, some sixteenPfa.2, sixteenPfa.1⟩ [] [100]).get (by decide +kernel)).1

theorem sixteenHeap_run : ∃ earlier,
    kmallocs sixteenTable ⟨0, some sixteenPfa.2, sixteenPfa.1⟩ [] [100] = some (sixteenHeap, earlier) := by
  have hrun := Option.some_get
    (show (kmallocs sixteenTable ⟨0, some sixteenPfa.2, sixteenPfa.1⟩ [] [100]).isSome by decide +kernel)
  exact ⟨_, hrun.symm⟩

theorem sixteenPfa_option_owns (a : SimplePFA) (ha : some sixteenPfa.2 = some a) :
    a.Owns sixteenTable 0 16 := by
  cases ha
  exact sixteenPfa_owns

/-- The next three thousand bytes lie in the same page. -/
theorem sixteenHeap_backed : Fitting sixteenTable sixteenPfa.1 sixteenHeap 3000 ∧
    ∀ st' p, kmalloc sixteenTable sixteenHeap 3000 = some (st', p) → p ≠ 0 →
      ∀ x ∈ bytesOf (p, 3000), sixteenTable.Backed sixteenPfa.1 st'.mem x := by
  obtain ⟨earlier, hrun⟩ := sixteenHeap_run
  obtain ⟨hiff, hsmall⟩ := kmalloc_backed_iff sixteenPfa_option_owns (by decide) (by decide) hrun
    (by decide : 3000 < 2 ^ 32)
  have hfitting := (hsmall (by decide)).mpr (.inr (by decide +kernel))
  exact ⟨hfitting, hiff.mpr hfitting⟩

/-- A request for all but a hundred bytes of the address space is granted in that page. -/
theorem sixteenHeap_wrapped :
    (∃ earlier, kmallocs sixteenTable ⟨0, some sixteenPfa.2, sixteenPfa.1⟩ [] [100] =
      some (sixteenHeap, earlier)) ∧
    (kmalloc sixteenTable sixteenHeap (2 ^ 32 - 100)).map Prod.snd = some 0xC0001064 ∧
      ∀ mem, ¬ sixteenTable.Backed sixteenPfa.1 mem (0xC0001064 + (2 ^ 32 - 101)) := by
  refine ⟨sixteenHeap_run, by decide +kernel, ?_⟩
  intro mem hback
  have hlt := (backed_iff.mp hback).1.2
  revert hlt
  decide

end HmmOS.Mm
