import Mathlib
import HmmOS.Mm.AllocExact

/-! # The bump allocator

The pointer `arena` is dropped at the end of a page and when no memory is left; a null
pointer is also how the allocator says that it has no page.
-/
namespace HmmOS.Mm
open Lib Util.Algorithm

/-- The variables of `kmalloc.cc`, and the descriptors of the frame allocator. -/
structure Kheap where
  arena : ℕ := 0
  pfa : Option SimplePFA
  mem : PfdMem

def pagesFor (sz : ℕ) : ℕ := ceilPow2 pgSz sz / pgSz

/-- Whether a request needs new pages. -/
def Kheap.full (st : Kheap) (sz : ℕ) : Bool :=
  st.arena == 0 || Word.add 32 (st.arena &&& (pgSz - 1)) sz > pgSz

/-- Point `arena` at new pages; `none` when `direct_to_hhdm` asserts. -/
def Kheap.refill (t : PageFrameTable) (st : Kheap) (a : SimplePFA) (sz : ℕ) : Option Kheap :=
  (a.alloc t st.mem (pagesFor sz)).bind fun (pageFrame, mem, a') =>
    match pageFrame with
    | some base => (directToHhdm base).map fun arena => ⟨arena, some a', mem⟩
    | none => some ⟨0, some a', mem⟩

def Kheap.bump (st : Kheap) (sz : ℕ) : Kheap × ℕ :=
  if st.arena = 0 then (st, 0)
  else
    let arena := Word.add 32 st.arena sz
    ({ st with arena := if pgAligned arena then 0 else arena }, st.arena)

/-- The state after `kmalloc(sz)` and its result, zero for a null pointer. -/
def kmalloc (t : PageFrameTable) (st : Kheap) (sz : ℕ) : Option (Kheap × ℕ) :=
  match st.pfa with
  | none => some (st, 0)
  | some a => (if st.full sz then st.refill t a sz else some st).map (·.bump sz)

/-- A sequence of calls, collecting the results that are not null with their sizes. -/
def kmallocs (t : PageFrameTable) : Kheap → List (ℕ × ℕ) → List ℕ → Option (Kheap × List (ℕ × ℕ))
  | st, results, [] => some (st, results)
  | st, results, sz :: szs =>
    (kmalloc t st sz).bind fun (st', p) =>
      kmallocs t st' (if p = 0 then results else (p, sz) :: results) szs

/-- Every frame the calls get from the allocator lies in the part of physical memory that is mapped. -/
def FramesMapped (t : PageFrameTable) : Kheap → List ℕ → Prop
  | _, [] => True
  | st, sz :: szs =>
    (∀ a base mem a', st.pfa = some a → st.full sz = true →
      a.alloc t st.mem (pagesFor sz) = some (some base, mem, a') →
      base < hhdmLen ∧ base + pagesFor sz * pgSz ≤ hhdmLen) ∧
    ∀ st' p, kmalloc t st sz = some (st', p) → FramesMapped t st' szs

def bytesOf (r : ℕ × ℕ) : Set ℕ := Set.Ico r.1 (r.1 + r.2)

variable {t : PageFrameTable} {mem0 mem : PfdMem} {s e sz p : ℕ} {st st' : Kheap} {a : SimplePFA}

section Pages
variable {mem' : PfdMem} {x y j : ℕ}

/-- The allocator has marked page `j` allocated between two states of the descriptors. -/
def PageFrameTable.Marked (t : PageFrameTable) (mem0 mem : PfdMem) (j : ℕ) : Prop :=
  (mem0 (t.slot j)).allocated = false ∧ (mem (t.slot j)).allocated = true

/-- The byte at `x` lies in a page marked since `mem0`. -/
def PageFrameTable.Backed (t : PageFrameTable) (mem0 mem : PfdMem) (x : ℕ) : Prop :=
  ∃ p, hhdmToDirect x = some p ∧ t.Marked mem0 mem (p / 4096)

theorem backed_iff : t.Backed mem0 mem x ↔
    (hhdmStart ≤ x ∧ x < hhdmStart + hhdmLen) ∧ t.Marked mem0 mem ((x - hhdmStart) / 4096) := by
  unfold PageFrameTable.Backed hhdmToDirect
  split_ifs with hx
  · simp only [Option.some.injEq, exists_eq_left', hx, and_self, true_and]
  · simp only [false_and, exists_false, hx]

theorem PageFrameTable.Backed.same_page (h : t.Backed mem0 mem x) (hxy : y / 4096 = x / 4096) :
    t.Backed mem0 mem y := by
  rw [backed_iff] at h ⊢
  simp only [hhdmStart_eq, hhdmLen_eq] at h ⊢
  have hpage : (y - 3221225472) / 4096 = (x - 3221225472) / 4096 := by omega
  rw [hpage]
  exact ⟨by omega, h.2⟩

theorem PageFrameTable.Backed.mono (h : t.Backed mem0 mem x)
    (hkeep : ∀ j, (mem (t.slot j)).allocated = true → (mem' (t.slot j)).allocated = true) :
    t.Backed mem0 mem' x := by
  rcases h with ⟨p, hp, hm⟩
  exact ⟨p, hp, hm.1, hkeep _ hm.2⟩

theorem pagesFor_eq {sz : ℕ} (h : sz < 2 ^ 32) : pagesFor sz = (sz + 4095) / 4096 := by
  have hceil : ceilPow2 pgSz sz = (sz + 4095) / 4096 * 4096 := ceilPg_eq (by omega)
  rw [pagesFor, hceil, pgSz_eq, Nat.mul_div_cancel _ (by omega)]

end Pages

/-- The results so far are disjoint and lie in pages marked since `mem0`, and so does the rest of the
page at `arena`. -/
structure KheapOk (t : PageFrameTable) (s e : ℕ) (mem0 : PfdMem) (st : Kheap)
    (results : List (ℕ × ℕ)) : Prop where
  owns : ∃ a, st.pfa = some a ∧ a.Owns t s e
  kept : ∀ j, (mem0 (t.slot j)).allocated = true → (st.mem (t.slot j)).allocated = true
  backed : ∀ r ∈ results, ∀ x ∈ bytesOf r, t.Backed mem0 st.mem x
  apart : results.Pairwise fun r1 r2 => Disjoint (bytesOf r1) (bytesOf r2)
  arena : st.arena ≠ 0 → st.arena % 4096 ≠ 0 ∧ t.Backed mem0 st.mem st.arena ∧
    ∀ r ∈ results, ∀ x ∈ bytesOf r, x / 4096 = st.arena / 4096 → x < st.arena

/-- `arena` points at `sz` bytes of marked pages that no result uses, and so does the rest of the
page after them. -/
structure Room (t : PageFrameTable) (mem0 : PfdMem) (st : Kheap) (results : List (ℕ × ℕ))
    (sz : ℕ) : Prop where
  fits : st.arena + sz < 2 ^ 32
  backed : ∀ x, st.arena ≤ x → (x < st.arena + sz ∨ (st.arena + sz) % 4096 ≠ 0 ∧
    x / 4096 = (st.arena + sz) / 4096) → t.Backed mem0 st.mem x ∧ ∀ r ∈ results, x ∉ bytesOf r

section Steps
variable {results : List (ℕ × ℕ)}

theorem KheapOk.bump (h : KheapOk t s e mem0 { st with arena := 0 } results) (hpos : st.arena ≠ 0)
    (hroom : Room t mem0 st results sz) :
    KheapOk t s e mem0 (st.bump sz).1 ((st.arena, sz) :: results) := by
  rw [Kheap.bump, if_neg hpos, Word.add_of_lt hroom.fits]
  constructor
  case owns => exact h.owns
  case kept => exact h.kept
  case backed =>
    intro r hr x hx
    rcases List.mem_cons.mp hr with rfl | hr
    · exact (hroom.backed x hx.1 (.inl hx.2)).1
    · exact h.backed r hr x hx
  case apart =>
    refine List.pairwise_cons.mpr ⟨fun r hr => ?_, h.apart⟩
    rw [Set.disjoint_left]
    intro x hx
    exact (hroom.backed x hx.1 (.inl hx.2)).2 r hr
  case arena =>
    dsimp only
    split_ifs with hal
    · exact fun hne => absurd rfl hne
    · rw [pgAligned_iff] at hal
      refine fun _ => ⟨hal, (hroom.backed _ (Nat.le_add_right _ _) (.inr ⟨hal, rfl⟩)).1, ?_⟩
      intro r hr x hx hpage
      rcases List.mem_cons.mp hr with rfl | hr
      · exact hx.2
      · -- an earlier result has no byte in the part of the page from the old pointer on
        by_contra hge
        exact (hroom.backed x (by omega) (.inr ⟨hal, hpage⟩)).2 r hr hx

theorem full_eq_true : st.full sz = true ↔ st.arena = 0 ∨ pgSz < Word.add 32 (st.arena % 4096) sz := by
  have hmask : st.arena &&& (pgSz - 1) = st.arena % 4096 := Word.and_mask 12 st.arena
  rw [Kheap.full, hmask]
  simp

theorem sum_lt (st : Kheap) (hsz : sz ≤ 2 ^ 32 - pgSz) : st.arena ≠ 0 → st.arena % pgSz + sz < 2 ^ 32 := by
  intro _
  rw [pgSz_eq] at hsz ⊢
  omega

theorem full_iff (h : st.arena ≠ 0 → st.arena % pgSz + sz < 2 ^ 32) :
    st.full sz = true ↔ st.arena = 0 ∨ pgSz < st.arena % pgSz + sz := by
  rw [full_eq_true]
  by_cases hzero : st.arena = 0
  · exact iff_of_true (.inl hzero) (.inl hzero)
  · rw [← pgSz_eq, Word.add_of_lt (h hzero)]

theorem full_eq_false (h : st.arena ≠ 0 → st.arena % pgSz + sz < 2 ^ 32) :
    st.full sz = false ↔ st.arena ≠ 0 ∧ st.arena % 4096 + sz ≤ 4096 := by
  rw [← Bool.not_eq_true, full_iff h, not_or, not_lt, pgSz_eq]

theorem KheapOk.room (h : KheapOk t s e mem0 st results) (hsz : sz ≤ 2 ^ 32 - pgSz)
    (hfull : st.full sz = false) : Room t mem0 st results sz := by
  rcases (full_eq_false (sum_lt st hsz)).mp hfull with ⟨hpos, hfit⟩
  rcases h.arena hpos with ⟨-, hback, hrest⟩
  have hlt := (backed_iff.mp hback).1
  simp only [hhdmStart_eq, hhdmLen_eq] at hlt
  constructor
  · omega
  · intro x hx hin
    have hpage : x / 4096 = st.arena / 4096 := by omega
    refine ⟨hback.same_page hpage, fun r hr hmem => ?_⟩
    have := hrest r hr x hmem hpage
    omega

theorem KheapOk.grow (h : KheapOk t s e mem0 st results) (ha : a.Owns t s e)
    (hkeep : ∀ j, (st.mem (t.slot j)).allocated = true → (mem (t.slot j)).allocated = true) :
    KheapOk t s e mem0 ⟨0, some a, mem⟩ results where
  owns := ⟨a, rfl, ha⟩
  kept := fun j hj => hkeep j (h.kept j hj)
  backed := fun r hr x hx => (h.backed r hr x hx).mono hkeep
  apart := h.apart
  arena := fun hne => absurd rfl hne

theorem page_in_run {k n x : ℕ} (hlo : k * 4096 + hhdmStart ≤ x) (hhi : x < k * 4096 + hhdmStart + n * 4096) :
    k ≤ (x - hhdmStart) / 4096 ∧ (x - hhdmStart) / 4096 < k + n := by
  omega

theorem PageFrameTable.Claims.backed {mem' : PfdMem} {k n x : ℕ} (h : t.Claims mem mem' k n)
    (hkept : ∀ j, (mem0 (t.slot j)).allocated = true → (mem (t.slot j)).allocated = true)
    (hmapped : k * 4096 + n * 4096 ≤ hhdmLen) (hlo : k * 4096 + hhdmStart ≤ x)
    (hhi : x < k * 4096 + hhdmStart + n * 4096) : t.Backed mem0 mem' x := by
  have hpage := page_in_run hlo hhi
  rw [backed_iff, PageFrameTable.Marked, h.2, if_pos hpage]
  refine ⟨by omega, ?_, rfl⟩
  by_contra hne
  have := hkept _ (Bool.eq_true_of_not_eq_false hne)
  rw [h.free hpage.1 hpage.2] at this
  cases this

theorem slot_lt_of_run {k n : ℕ} (hdata : t.pft.data < hhdmStart + hhdmLen)
    (h : k * 4096 + n * 4096 ≤ 2 ^ 32 - hhdmStart) : t.slot (k + n) < 2 ^ 32 := by
  simp only [PageFrameTable.slot, pfdSz_eq, hhdmStart_eq, hhdmLen_eq] at hdata h ⊢
  omega

theorem le_pagesFor_mul (hsz : sz < 2 ^ 32) : sz ≤ pagesFor sz * 4096 := by
  rw [pagesFor_eq hsz]
  omega

/-- New pages have room for the request they were made for. -/
theorem KheapOk.new_room {k : ℕ} (h : KheapOk t s e mem0 st results) (hsz : sz ≤ 2 ^ 32 - pgSz)
    (hmapped : k * 4096 + pagesFor sz * 4096 ≤ hhdmLen) (hclaims : t.Claims st.mem mem k (pagesFor sz)) :
    Room t mem0 ⟨k * 4096 + hhdmStart, some a, mem⟩ results sz := by
  have hcover := le_pagesFor_mul (hsz.trans_lt (by decide))
  constructor
  · rw [hhdmLen_eq] at hmapped
    dsimp only
    rw [hhdmStart_eq]
    omega
  · dsimp only
    intro x hlo hin
    have hhi : x < k * 4096 + hhdmStart + pagesFor sz * 4096 := by
      rw [hhdmStart_eq] at hlo hin ⊢
      omega
    refine ⟨hclaims.backed h.kept hmapped hlo hhi, ?_⟩
    -- the page behind `x` was not in use
    intro r hr hxr
    have hpage := page_in_run hlo hhi
    have := (backed_iff.mp (h.backed r hr x hxr)).2.2
    rw [hclaims.free hpage.1 hpage.2] at this
    cases this

theorem KheapOk.refill (h : KheapOk t s e mem0 st results)
    (hdata : t.pft.data < hhdmStart + hhdmLen) (ha : a.Owns t s e) (hsz : sz ≤ 2 ^ 32 - pgSz)
    (hmapped : ∀ base mem a', a.alloc t st.mem (pagesFor sz) = some (some base, mem, a') →
      base < hhdmLen ∧ base + pagesFor sz * pgSz ≤ hhdmLen) :
    ∃ st', st.refill t a sz = some st' ∧ KheapOk t s e mem0 { st' with arena := 0 } results ∧
      (st'.arena ≠ 0 → Room t mem0 st' results sz) := by
  rcases alloc_spec ha st.mem (pagesFor sz) with ⟨res, mem, a', halloc, howns, hcase⟩
  rw [Kheap.refill, halloc]
  rcases hcase with ⟨rfl, rfl, -⟩ | ⟨k, rfl, -, -, htaken, -⟩
  · exact ⟨_, rfl, h.grow howns fun j hj => hj, fun hne => absurd rfl hne⟩
  · have hbelow := hmapped _ _ _ halloc
    have hclaims := (htaken (slot_lt_of_run hdata (hbelow.2.trans (by decide)))).2
    refine ⟨⟨k * 4096 + hhdmStart, some a', mem⟩, ?_, h.grow howns ?_, ?_⟩
    · dsimp only [Option.bind_some]
      rw [directToHhdm, if_pos hbelow.1]
      rfl
    · intro j hj
      dsimp only
      rw [hclaims.2]
      split_ifs
      · rfl
      · exact hj
    · exact fun _ => h.new_room hsz hbelow.2 hclaims

theorem KheapOk.kmalloc (h : KheapOk t s e mem0 st results)
    (hdata : t.pft.data < hhdmStart + hhdmLen) (hsz : sz ≤ 2 ^ 32 - pgSz)
    (hmapped : ∀ a base mem a', st.pfa = some a → st.full sz = true →
      a.alloc t st.mem (pagesFor sz) = some (some base, mem, a') →
      base < hhdmLen ∧ base + pagesFor sz * pgSz ≤ hhdmLen) : ∃ st' p, kmalloc t st sz = some (st', p) ∧
      KheapOk t s e mem0 st' (if p = 0 then results else (p, sz) :: results) := by
  rcases h.owns with ⟨a, hpfa, ha⟩
  have hbumped : ∀ st1 : Kheap, KheapOk t s e mem0 { st1 with arena := 0 } results →
      (st1.arena ≠ 0 → Room t mem0 st1 results sz) →
      KheapOk t s e mem0 (st1.bump sz).1
        (if (st1.bump sz).2 = 0 then results else ((st1.bump sz).2, sz) :: results) := by
    intro st1 h1 hroom
    by_cases hnull : st1.arena = 0
    · have hsame : { st1 with arena := 0 } = st1 := by rw [← hnull]
      rw [hsame] at h1
      rw [Kheap.bump, if_pos hnull]
      exact h1
    · have hres : (st1.bump sz).2 = st1.arena := by rw [Kheap.bump, if_neg hnull]
      rw [hres, if_neg hnull]
      exact h1.bump hnull (hroom hnull)
  rw [Mm.kmalloc, hpfa]
  cases hfull : st.full sz with
  | true =>
    rcases h.refill hdata ha hsz (fun base mem a' => hmapped a base mem a' hpfa hfull) with
      ⟨st1, hrefill, h1, hroom⟩
    dsimp only
    rw [if_pos rfl, hrefill]
    exact ⟨_, _, rfl, hbumped st1 h1 hroom⟩
  | false =>
    dsimp only
    rw [if_neg (by simp)]
    apply Exists.intro (st.bump sz).1
    apply Exists.intro (st.bump sz).2
    apply And.intro rfl
    apply hbumped st
    · exact ⟨h.owns, h.kept, h.backed, h.apart, fun hne => absurd rfl hne⟩
    · exact fun _ => h.room hsz hfull

theorem KheapOk.kmallocs {szs : List ℕ} (h : KheapOk t s e mem0 st results)
    (hdata : t.pft.data < hhdmStart + hhdmLen) (hszs : ∀ sz ∈ szs, sz ≤ 2 ^ 32 - pgSz)
    (hmapped : FramesMapped t st szs) : ∃ st' results', kmallocs t st results szs = some (st', results') ∧
      KheapOk t s e mem0 st' results' := by
  induction szs generalizing st results with
  | nil => exact ⟨st, results, rfl, h⟩
  | cons sz szs ih =>
    rcases h.kmalloc hdata (hszs sz (List.mem_cons_self ..)) hmapped.1 with ⟨st1, p, hcall, h1⟩
    rw [Mm.kmallocs, hcall]
    exact ih h1 (fun sz' hsz' => hszs sz' (List.mem_cons_of_mem _ hsz')) (hmapped.2 st1 p hcall)

end Steps

/-- The results of any sequence of calls are disjoint, and every byte of them lies in a page that
the frame allocator marked during the calls. -/
theorem kmallocs_disjoint {t : PageFrameTable} {a : SimplePFA} {mem : PfdMem} {s e : ℕ}
    {szs : List ℕ} (ha : a.Owns t s e) (hdata : t.pft.data < hhdmStart + hhdmLen)
    (hszs : ∀ sz ∈ szs, sz ≤ 2 ^ 32 - pgSz) (hmapped : FramesMapped t ⟨0, some a, mem⟩ szs) :
    ∃ st results, kmallocs t ⟨0, some a, mem⟩ [] szs = some (st, results) ∧
      (results.Pairwise fun r1 r2 => Disjoint (bytesOf r1) (bytesOf r2)) ∧
      ∀ r ∈ results, ∀ x ∈ bytesOf r, t.Backed mem st.mem x := by
  have hinit : KheapOk t s e mem ⟨0, some a, mem⟩ [] := by
    constructor
    case owns => exact ⟨a, rfl, ha⟩
    case kept => exact fun _ hj => hj
    case backed => exact fun r hr => absurd hr List.not_mem_nil
    case apart => exact List.Pairwise.nil
    case arena => exact fun hne => absurd rfl hne
  rcases hinit.kmallocs hdata hszs hmapped with ⟨st, results, hrun, hok⟩
  exact ⟨st, results, hrun, hok.apart, hok.backed⟩

theorem kmalloc_owns (hpfa : st.pfa = some a) (ha : a.Owns t s e)
    (h : kmalloc t st sz = some (st', p)) : ∃ a', st'.pfa = some a' ∧ a'.Owns t s e := by
  have hbump : ∀ st1 : Kheap, (st1.bump sz).1.pfa = st1.pfa := by
    intro st1
    unfold Kheap.bump
    split_ifs <;> rfl
  rw [kmalloc, hpfa] at h
  rcases Option.map_eq_some_iff.mp h with ⟨st1, h1, hst⟩
  have hfst : st' = (st1.bump sz).1 := by rw [hst]
  rw [hfst, hbump]
  split_ifs at h1
  · rcases alloc_spec ha st.mem (pagesFor sz) with ⟨res, mem, a', halloc, howns, -⟩
    rw [Kheap.refill, halloc, Option.bind_some] at h1
    cases res with
    | none => exact ⟨a', by rw [← Option.some.inj h1], howns⟩
    | some base =>
      rcases Option.map_eq_some_iff.mp h1 with ⟨arena, -, rfl⟩
      exact ⟨a', rfl, howns⟩
  · exact ⟨a, by rw [← Option.some.inj h1, hpfa], ha⟩

/-- An allocator for mapped memory returns pages that are mapped as a whole. -/
theorem alloc_mapped {base n : ℕ} {mem mem' : PfdMem} {a' : SimplePFA} (ha : a.Owns t s e)
    (hdata : t.pft.data < hhdmStart + hhdmLen) (he : e * pgSz ≤ hhdmLen)
    (halloc : a.alloc t mem n = some (some base, mem', a')) : base < hhdmLen ∧ base + n * pgSz ≤ hhdmLen := by
  obtain ⟨k, rfl, hrange, hlen, htaken⟩ := alloc_some ha halloc
  simp only [PageFrameTable.slot, pfdSz_eq, hhdmStart_eq, hhdmLen_eq, pgSz_eq] at hdata he htaken ⊢
  omega

theorem framesMapped_of_alloc {szs : List ℕ} (hpfa : st.pfa = some a) (ha : a.Owns t s e)
    (hmapped : ∀ (a : SimplePFA) (mem : PfdMem) n base mem' a', a.Owns t s e →
      a.alloc t mem n = some (some base, mem', a') → base < hhdmLen ∧ base + n * pgSz ≤ hhdmLen) :
    FramesMapped t st szs := by
  induction szs generalizing st a with
  | nil => trivial
  | cons sz szs ih =>
    constructor
    · intro a1 base mem a' hpfa1 _ halloc
      obtain rfl : a = a1 := Option.some.inj (hpfa.symm.trans hpfa1)
      exact hmapped a st.mem _ base mem a' ha halloc
    · intro st1 p hcall
      rcases kmalloc_owns hpfa ha hcall with ⟨a', hpfa', ha'⟩
      exact ih hpfa' ha'

theorem sixteenPfa_owns : sixteenPfa.2.Owns sixteenTable 0 16 := by
  have hplaced := PageFrameTable.construct_placed sixteenPages_documented.1
    sixteenPages_documented.2 sixteenPages_tableFits sixteenTable_construct
  have hpfa : SimplePFA.construct sixteenTable [] (fun _ => {}) 0 sixteenTable.memLimit =
      some (sixteenPfa.1, sixteenPfa.2) := (Option.some_get (by decide +kernel)).symm
  exact (SimplePFA.construct_ok hplaced hpfa).1

theorem kmallocs_disjoint_sixteenPages : ∃ st,
    kmallocs sixteenTable ⟨0, some sixteenPfa.2, sixteenPfa.1⟩ [] [100, 3000, 5000, 65536] =
      some (st, [(3221233664, 5000), (3221229668, 3000), (3221229568, 100)]) ∧
    Disjoint (bytesOf (3221229668, 3000)) (bytesOf (3221229568, 100)) := by
  have hmapped : FramesMapped sixteenTable ⟨0, some sixteenPfa.2, sixteenPfa.1⟩
      [100, 3000, 5000, 65536] :=
    framesMapped_of_alloc rfl sixteenPfa_owns fun _ _ _ _ _ _ ha halloc =>
      alloc_mapped ha (by decide) (by decide) halloc
  rcases kmallocs_disjoint sixteenPfa_owns (by decide) (by decide) hmapped with
    ⟨st, results, hrun, hapart, -⟩
  have hresults : results = [(3221233664, 5000), (3221229668, 3000), (3221229568, 100)] := by
    have : (kmallocs sixteenTable ⟨0, some sixteenPfa.2, sixteenPfa.1⟩ []
        [100, 3000, 5000, 65536]).map Prod.snd =
          some [(3221233664, 5000), (3221229668, 3000), (3221229568, 100)] := by decide +kernel
    rw [hrun] at this
    exact Option.some.inj this
  subst hresults
  refine ⟨st, hrun, ?_⟩
  simp only [List.pairwise_cons, List.mem_cons] at hapart
  exact hapart.2.1 _ (.inl rfl)

/-- With the table at the end of the address space, the frames of one result are granted again. -/
theorem kmallocs_overlap_topTable : topPfa.2.Owns topTable 0 16 ∧
    FramesMapped topTable ⟨0, some topPfa.2, topPfa.1⟩ [32768, 4096, 36864] ∧
    (kmallocs topTable ⟨0, some topPfa.2, topPfa.1⟩ [] [32768, 4096, 36864]).map Prod.snd =
      some [(0xC0008000, 36864), (0xC0008000, 4096), (0xC0000000, 32768)] ∧
    ¬ Disjoint (bytesOf (0xC0008000, 36864)) (bytesOf (0xC0008000, 4096)) := by
  have howns : topPfa.2.Owns topTable 0 16 :=
    (PfaReach.construct topPfa_construct).owns (by decide +kernel) (by decide +kernel)
  refine ⟨howns, framesMapped_of_alloc rfl howns ?_, by decide +kernel, ?_⟩
  · intro a mem n base mem' a' ha halloc
    obtain ⟨k, rfl, hrange, hlen, -⟩ := alloc_some ha halloc
    simp only [hhdmLen_eq, pgSz_eq]
    omega
  · rw [Set.not_disjoint_iff]
    exact ⟨0xC0008000, by simp [bytesOf], by simp [bytesOf]⟩

end HmmOS.Mm
