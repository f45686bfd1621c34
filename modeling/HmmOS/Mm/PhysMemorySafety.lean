import Mathlib.Data.List.Sort
import Mathlib.Logic.Relation
import HmmOS.Mm.TablePlacement
import HmmOS.Mm.MarkUnusable

/-! # Safety of physical page allocation

An allocator over all of physical memory. The table and each request have to fit the
32-bit address space; a map beyond that is given at the end.
-/
namespace HmmOS.Mm
open Lib Util.Algorithm

/-- The allocator over all of memory owns every descriptor, and those left unmarked belong to
pages of the usable regions. -/
theorem SimplePFA.construct_ok {t : PageFrameTable} {mm : List MmEntry} {mem0 mem : PfdMem} {a : SimplePFA}
    (hp : Placed mm t.usableRegions t.pft) (h : SimplePFA.construct t [] mem0 0 t.memLimit = some (mem, a)) :
    a.Owns t 0 t.pft.size ∧ ∀ j < t.pft.size, (mem (t.slot j)).unusable = false →
      ∃ r ∈ t.usableRegions, r.base ≤ j * 4096 ∧ (j + 1) * 4096 ≤ r.base + r.len := by
  obtain ⟨L, hL, hpos, hsize⟩ := hp.limit
  have hlimit : t.memLimit = t.pft.size * 4096 := by rw [PageFrameTable.memLimit, hL, hsize]; rfl
  obtain ⟨hlow, -, hhigh⟩ := hp.inside
  simp only [hhdmStart_eq, hhdmLen_eq] at hlow hhigh
  have hbound : t.slot t.pft.size < 2 ^ 32 := by
    rw [PageFrameTable.slot]
    omega
  rw [hlimit, ← Nat.zero_mul 4096] at h
  constructor
  · exact SimplePFA.construct_owns hbound (by omega) h
  · intro j hj hu
    have hcut : ¬ StartCut t.usableRegions (0 * 4096) := by
      rintro ⟨q, -, r, -, hlt, -⟩
      omega
    have hgap := hp.ok.inGap_iff hL hcut (Nat.zero_le j) (by omega)
    rw [SimplePFA.construct_slot hp.ok hbound h (Nat.zero_le j) hj] at hu
    by_contra hout
    exact of_decide_eq_false hu (hgap.mpr hout)

/-- Descriptors, allocator and the pages handed out and not freed since. -/
structure PhysState where
  mem : PfdMem
  pfa : SimplePFA
  live : Set ℕ

inductive PhysOp where
  | alloc (n : ℕ)
  | free (base n : ℕ)

def pagesAt (base n : ℕ) : Set ℕ := {p | base ≤ p * 4096 ∧ p * 4096 < base + n * 4096}

/-- The operations the allocator is used with: requests, and frees of whole pages that are in
use. -/
inductive PhysStep (t : PageFrameTable) (st : PhysState) : PhysOp → PhysState → Prop
  | alloc {n b : ℕ} {mem' : PfdMem} {a' : SimplePFA}
      (h : st.pfa.alloc t st.mem n = some (some b, mem', a')) :
      PhysStep t st (.alloc n) ⟨mem', a', st.live ∪ pagesAt b n⟩
  | allocFails {n : ℕ} {mem' : PfdMem} {a' : SimplePFA}
      (h : st.pfa.alloc t st.mem n = some (none, mem', a')) :
      PhysStep t st (.alloc n) ⟨mem', a', st.live⟩
  | free {k n : ℕ} {mem' : PfdMem} {a' : SimplePFA} (hend : k * 4096 + n * 4096 ≤ t.memLimit)
      (hlive : pagesAt (k * 4096) n ⊆ st.live)
      (h : st.pfa.free t st.mem (k * 4096) n = some (mem', a')) :
      PhysStep t st (.free (k * 4096) n) ⟨mem', a', st.live \ pagesAt (k * 4096) n⟩

/-- Pointer arithmetic of a request of `n` pages, started at any descriptor, does not wrap. -/
def PageFrameTable.RequestFits (t : PageFrameTable) : PhysOp → Prop
  | .alloc n => n ≤ t.pft.size → t.slot (t.pft.size + n) ≤ 2 ^ 32
  | .free _ _ => True

/-- States reached from `st0` by steps whose requests fit. -/
def PhysReach (t : PageFrameTable) (st0 : PhysState) : PhysState → Prop :=
  Relation.ReflTransGen (fun st st' => ∃ op, t.RequestFits op ∧ PhysStep t st op st') st0

structure PhysInv (t : PageFrameTable) (st : PhysState) : Prop where
  owns : st.pfa.Owns t 0 t.pft.size
  region : ∀ j < t.pft.size, (st.mem (t.slot j)).unusable = false →
    ∃ r ∈ t.usableRegions, r.base ≤ j * 4096 ∧ (j + 1) * 4096 ≤ r.base + r.len
  allocated : ∀ j ∈ st.live, (st.mem (t.slot j)).allocated = true

section Run
variable {t : PageFrameTable} {st st' : PhysState} {n : ℕ}

theorem mem_pagesAt {k n p : ℕ} : p ∈ pagesAt (k * 4096) n ↔ k ≤ p ∧ p < k + n := by
  simp only [pagesAt, Set.mem_ofPred_eq]
  omega

theorem PhysInv.step {op : PhysOp} (hlimit : t.memLimit = t.pft.size * 4096) (hinv : PhysInv t st)
    (hfits : t.RequestFits op) (h : PhysStep t st op st') : PhysInv t st' := by
  cases h with
  | alloc h =>
    rcases alloc_cases hinv.owns hfits h with ⟨howns, ⟨hnone, -⟩ | ⟨k, hk, -, -, ⟨-, hmem⟩, -⟩⟩
    · simp at hnone
    obtain rfl := Option.some.inj hk
    refine ⟨howns, fun j hj hu => hinv.region j hj ?_, fun j hj => ?_⟩
    · dsimp only at hu
      rw [hmem j] at hu
      split_ifs at hu <;> exact hu
    · dsimp only
      rw [hmem j]
      split_ifs with hin
      · rfl
      · rcases hj with hj | hj
        · exact hinv.allocated j hj
        · exact absurd (mem_pagesAt.mp hj) hin
  | allocFails h =>
    rcases alloc_cases hinv.owns hfits h with ⟨howns, ⟨-, rfl, -⟩ | ⟨k, hk, -⟩⟩
    · exact ⟨howns, hinv.region, hinv.allocated⟩
    · simp at hk
  | @free k n mem' a' hend hlive h =>
    rcases free_cases hinv.owns (k := k) (by omega) h with ⟨howns, hmem⟩
    refine ⟨howns, fun j hj hu => hinv.region j hj ?_, fun j hj => ?_⟩
    · dsimp only at hu
      rw [hmem j] at hu
      split_ifs at hu <;> exact hu
    · dsimp only
      rw [hmem j, if_neg (fun hin => hj.2 (mem_pagesAt.mpr hin))]
      exact hinv.allocated j hj.1

theorem PhysInv.run (hlimit : t.memLimit = t.pft.size * 4096) (hinv : PhysInv t st)
    (h : PhysReach t st st') : PhysInv t st' := by
  induction h with
  | refl => exact hinv
  | tail _ hstep ih =>
    rcases hstep with ⟨op, hfits, hstep⟩
    exact ih.step hlimit hfits hstep

end Run

theorem PageFrameTable.construct_placed {s : StdSort} {mm : List MmEntry} {t : PageFrameTable}
    (hd : DocumentedMap mm) (ht : NoTopPage mm) (hfit : TableFits mm)
    (h : PageFrameTable.construct s mm none = some t) : Placed mm t.usableRegions t.pft := by
  rw [PageFrameTable.construct] at h
  split_ifs at h with hlen
  rcases Option.bind_eq_some_iff.mp h with ⟨⟨mm', n⟩, hn, h⟩
  rcases Option.bind_eq_some_iff.mp h with ⟨⟨pft, regions⟩, ha, h⟩
  split_ifs at h with hz
  obtain rfl := Option.some.inj h
  rcases normalizeMm_ok hd ht hn with ⟨hok, hpages⟩
  exact allocPft_placed hok hpages (normalizeMm_nonempty hn) hfit ha

/-- Every page of a successful allocation is usable, does not back the table and was not in use. -/
theorem alloc_pages_safe {s : StdSort} {mm : List MmEntry} {t : PageFrameTable}
    {mem0 mem mem' : PfdMem} {a a' : SimplePFA} {st : PhysState} {n b : ℕ}
    (hd : DocumentedMap mm) (ht : NoTopPage mm) (hfit : TableFits mm)
    (hc : PageFrameTable.construct s mm none = some t)
    (hp : SimplePFA.construct t [] mem0 0 t.memLimit = some (mem, a))
    (hrun : PhysReach t ⟨mem, a, ∅⟩ st) (hreq : t.RequestFits (.alloc n))
    (h : st.pfa.alloc t st.mem n = some (some b, mem', a')) :
    b % 4096 = 0 ∧ ∀ p ∈ pagesAt b n, UsablePage mm p ∧ ¬ t.pft.Backs p ∧ p ∉ st.live := by
  have hplaced := PageFrameTable.construct_placed hd ht hfit hc
  rcases SimplePFA.construct_ok hplaced hp with ⟨howns, hregion⟩
  have hlimit : t.memLimit = t.pft.size * 4096 := by
    rcases hplaced.limit with ⟨L, hL, -, hsize⟩
    rw [PageFrameTable.memLimit, hL, hsize]
    rfl
  have hinit : PhysInv t ⟨mem, a, ∅⟩ := ⟨howns, hregion, by simp⟩
  have hinv := hinit.run hlimit hrun
  rcases alloc_cases hinv.owns hreq h with ⟨-, ⟨hnone, -⟩ | ⟨k, hk, -, hke, ⟨hfree, -⟩, -⟩⟩
  · simp at hnone
  obtain rfl := Option.some.inj hk
  refine ⟨by omega, fun p hpin => ?_⟩
  rcases mem_pagesAt.mp hpin with ⟨hkp, hpk⟩
  have husable := hfree p hkp hpk
  simp only [PageFrameTable.freeAt, PageFrameDescriptor.usable, Bool.and_eq_true,
    Bool.not_eq_true'] at husable
  rcases hinv.region p (by omega) husable.2 with ⟨r, hr, hr1, hr2⟩
  refine ⟨hplaced.pages r hr p hr1 hr2, hplaced.unbacked r hr p hr1 hr2, fun hlive => ?_⟩
  rw [hinv.allocated p hlive] at husable
  exact absurd husable.1 (by simp)

def insertionSort : StdSort where
  sort := List.insertionSort (fun e1 e2 => e1.base ≤ e2.base)
  perm := List.perm_insertionSort _
  sorted mm := by
    have : IsTrans MmEntry (fun e1 e2 => e1.base ≤ e2.base) := ⟨fun _ _ _ => le_trans⟩
    have : Std.Total (fun e1 e2 : MmEntry => e1.base ≤ e2.base) :=
      ⟨fun e1 e2 => le_total e1.base e2.base⟩
    exact List.pairwise_insertionSort _ mm

def sixteenPages : List MmEntry := [⟨0, 65536, .usable, 0⟩]

theorem sixteenPages_documented : DocumentedMap sixteenPages ∧ NoTopPage sixteenPages := by
  refine ⟨⟨?_, by simp [sixteenPages], ?_⟩, ?_⟩
  all_goals simp [sixteenPages, MmEntry.NoWrap, MmEntry.IsBoot, NoTopPage]

theorem sixteenPages_tableFits : TableFits sixteenPages := by
  rintro p ⟨⟨u, hu, -, -, hp⟩, -⟩
  obtain rfl := List.mem_singleton.mp hu
  dsimp only at hp
  omega

def sixteenTable : PageFrameTable :=
  ⟨65536, [⟨4096, 61440, .usable, 0⟩], ⟨hhdmStart, 16⟩, 61440⟩

theorem sixteenTable_construct :
    PageFrameTable.construct insertionSort sixteenPages none = some sixteenTable := by decide +kernel

def sixteenPfa : PfdMem × SimplePFA :=
  (SimplePFA.construct sixteenTable [] (fun _ => {}) 0 sixteenTable.memLimit).get (by decide +kernel)

def sixteenAfterOne : Option ℕ × PfdMem × SimplePFA :=
  (sixteenPfa.2.alloc sixteenTable sixteenPfa.1 1).get (by decide +kernel)

theorem sixteenAfterOne_alloc : sixteenPfa.2.alloc sixteenTable sixteenPfa.1 1 =
    some (some 4096, sixteenAfterOne.2.1, sixteenAfterOne.2.2) := by
  exact (Option.some_get (by decide +kernel)).symm

theorem alloc_pages_safe_sixteenPages : ∃ mem' a',
    sixteenAfterOne.2.2.alloc sixteenTable sixteenAfterOne.2.1 2 = some (some 8192, mem', a') ∧
    ∀ p ∈ pagesAt 8192 2, UsablePage sixteenPages p ∧ ¬ sixteenTable.pft.Backs p ∧
      p ∉ ∅ ∪ pagesAt 4096 1 := by
  have hres : (sixteenAfterOne.2.2.alloc sixteenTable sixteenAfterOne.2.1 2).map Prod.fst =
      some (some 8192) := by decide +kernel
  rcases Option.map_eq_some_iff.mp hres with ⟨⟨res, mem', a'⟩, h, hres⟩
  subst hres
  have hfits : ∀ n, n ≤ 2 → sixteenTable.RequestFits (.alloc n) := by
    intro n hn _
    simp only [sixteenTable, PageFrameTable.slot, pfdSz_eq, hhdmStart_eq]
    omega
  have hfirst : PhysReach sixteenTable ⟨sixteenPfa.1, sixteenPfa.2, ∅⟩
      ⟨sixteenAfterOne.2.1, sixteenAfterOne.2.2, ∅ ∪ pagesAt 4096 1⟩ :=
    .single ⟨.alloc 1, hfits 1 (by omega), .alloc sixteenAfterOne_alloc⟩
  exact ⟨mem', a', h, (alloc_pages_safe sixteenPages_documented.1 sixteenPages_documented.2
    sixteenPages_tableFits sixteenTable_construct (Option.some_get (by decide +kernel)).symm hfirst
    (hfits 2 le_rfl) h).2⟩

/-- Usable memory whose table needs `2^32 + 8192` bytes. -/
def hugeMap : List MmEntry := [⟨0, 2 ^ 38 + 2 ^ 19, .usable, 0⟩]

def hugeTable : PageFrameTable :=
  ⟨2 ^ 38 + 2 ^ 19, [⟨8192, 2 ^ 38 + 2 ^ 19 - 8192, .usable, 0⟩], ⟨hhdmStart, 2 ^ 26 + 128⟩,
    2 ^ 38 + 2 ^ 19 - 8192⟩

def hugePfa : PfdMem × SimplePFA :=
  (SimplePFA.construct hugeTable [] (fun _ => {}) 0 hugeTable.memLimit).get (by decide +kernel)

theorem hugePfa_construct :
    SimplePFA.construct hugeTable [] (fun _ => {}) 0 hugeTable.memLimit = some hugePfa :=
  (Option.some_get (by decide +kernel)).symm

/-- On the huge map a request of `2^24` pages is granted at page 0, which holds the descriptors of
the first pages. -/
theorem hugeMap_unsafe : DocumentedMap hugeMap ∧
    PageFrameTable.construct insertionSort hugeMap none = some hugeTable ∧
    SimplePFA.construct hugeTable [] (fun _ => {}) 0 hugeTable.memLimit = some hugePfa ∧
    (hugePfa.2.alloc hugeTable hugePfa.1 (2 ^ 24)).map Prod.fst = some (some 0) ∧
    0 ∈ pagesAt 0 (2 ^ 24) ∧ hugeTable.pft.Backs 0 := by
  refine ⟨⟨?_, by simp [hugeMap], ?_⟩, by decide +kernel, hugePfa_construct,
    by decide +kernel, by simp [pagesAt], 0, le_rfl, ?_, rfl⟩
  · simp [hugeMap, MmEntry.NoWrap]
  · simp [hugeMap, MmEntry.IsBoot]
  · simp [hugeTable]

end HmmOS.Mm
