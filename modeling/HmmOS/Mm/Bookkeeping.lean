import HmmOS.Mm.ConstructExact
import HmmOS.Mm.FreeFrame

/-! # The page counters of an allocator over all of memory

The total is computed once from the regions and the number of allocated pages is
adjusted by every call.
-/
namespace HmmOS.Mm
open Lib Util.Algorithm

/-- Requests whose pointer arithmetic does not wrap at any descriptor, and frees of pages of the range. -/
inductive PfaRun (t : PageFrameTable) (e : ℕ) : PfdMem → SimplePFA → Prop
  | construct {others : List (ℕ × ℕ)} {mem0 mem : PfdMem} {a : SimplePFA}
      (h : SimplePFA.construct t others mem0 0 t.memLimit = some (mem, a)) : PfaRun t e mem a
  | alloc {mem mem' : PfdMem} {a a' : SimplePFA} {n : ℕ} {res : Option ℕ} (hr : PfaRun t e mem a)
      (hfits : n ≤ e → t.slot (e + n) ≤ 2 ^ 32) (h : a.alloc t mem n = some (res, mem', a')) :
      PfaRun t e mem' a'
  | free {mem mem' : PfdMem} {a a' : SimplePFA} {k n : ℕ} (hr : PfaRun t e mem a) (hend : k + n ≤ e)
      (h : a.free t mem (k * 4096) n = some (mem', a')) : PfaRun t e mem' a'

structure Balanced (t : PageFrameTable) (e : ℕ) (mem : PfdMem) (a : SimplePFA) : Prop where
  owns : a.Owns t 0 e
  total : a.totalPgs = countIn (fun k => !(mem (t.slot k)).unusable) 0 e
  alloced : a.allocedPgs = t.allocatedPages mem 0 e
  exclusive : ∀ k < e, (mem (t.slot k)).allocated = true → (mem (t.slot k)).unusable = false

section Steps
variable {t : PageFrameTable} {e n : ℕ} {mem mem' : PfdMem} {a a' : SimplePFA}

theorem Balanced.countIn_freeAt_add (h : Balanced t e mem a) :
    countIn (t.freeAt mem) 0 e + t.allocatedPages mem 0 e = a.totalPgs := by
  rw [h.total, PageFrameTable.allocatedPages, ← countIn_or]
  · apply countIn_congr
    intro k _ hk
    have hex := h.exclusive k hk
    simp only [PageFrameTable.freeAt, PageFrameDescriptor.usable]
    cases halloc : (mem (t.slot k)).allocated with
    | false => simp
    | true => simp [hex halloc]
  · intro k hfree
    simp only [PageFrameTable.freeAt, PageFrameDescriptor.usable, Bool.and_eq_true, Bool.not_eq_true'] at hfree
    exact hfree.1

theorem Balanced.of_unusable (h : Balanced t e mem a) (howns : a'.Owns t 0 e)
    (htotal : a'.totalPgs = a.totalPgs) (hmarks : ∀ k, (mem' (t.slot k)).unusable = (mem (t.slot k)).unusable)
    (halloced : a'.allocedPgs = t.allocatedPages mem' 0 e)
    (hex : ∀ k < e, (mem' (t.slot k)).allocated = true → (mem (t.slot k)).allocated = true ∨
      (mem (t.slot k)).unusable = false) : Balanced t e mem' a' where
  owns := howns
  total := by
    rw [htotal, h.total]
    apply countIn_congr
    intro k _ _
    rw [hmarks k]
  alloced := halloced
  exclusive := by
    intro k hk halloc
    rw [hmarks k]
    exact (hex k hk halloc).elim (h.exclusive k hk) id

theorem SimplePFA.alloc_totalPgs {res : Option ℕ} (h : a.alloc t mem n = some (res, mem', a')) :
    a'.totalPgs = a.totalPgs := by
  rw [SimplePFA.alloc] at h
  split_ifs at h
  · cases h
    rfl
  · obtain ⟨⟨needle, steps⟩, -, he⟩ := Option.map_eq_some_iff.mp h
    dsimp only at he
    split_ifs at he
    · cases he
      rfl
    · cases he
      rfl

theorem Balanced.alloc (h : Balanced t e mem a) (hfits : n ≤ e → t.slot (e + n) ≤ 2 ^ 32)
    {res : Option ℕ} (ha : a.alloc t mem n = some (res, mem', a')) : Balanced t e mem' a' := by
  have htotal := SimplePFA.alloc_totalPgs ha
  rcases alloc_cases h.owns hfits ha with
    ⟨howns, ⟨-, rfl, halloced⟩ | ⟨k, -, -, hke, ⟨hfree, hmem⟩, halloced⟩⟩
  · exact h.of_unusable howns htotal (fun _ => rfl) (halloced.trans h.alloced) fun _ _ => .inl
  · have husable : ∀ j, k ≤ j → j < k + n →
        (mem (t.slot j)).allocated = false ∧ (mem (t.slot j)).unusable = false := by
      intro j hlo hhi
      have := hfree j hlo hhi
      simpa [PageFrameTable.freeAt, PageFrameDescriptor.usable] using this
    have hmarks : ∀ j, (mem' (t.slot j)).unusable = (mem (t.slot j)).unusable := by
      intro j
      rw [hmem j]
      split_ifs <;> rfl
    have hcount : t.allocatedPages mem 0 e + n = t.allocatedPages mem' 0 e := by
      apply countIn_add_block (Nat.zero_le k) hke
      · intro j hlo hhi
        rw [hmem j, if_pos ⟨hlo, hhi⟩]
        exact ⟨rfl, (husable j hlo hhi).1⟩
      · intro j hj
        rw [hmem j, if_neg hj]
    have hlt := howns.allocatedPages_lt mem'
    apply h.of_unusable howns htotal hmarks
    · rw [halloced, h.alloced, Word.add_of_lt (by omega), hcount]
    · intro j _ halloc
      rw [hmem j] at halloc
      split_ifs at halloc with hj
      · exact .inr (husable j hj.1 hj.2).2
      · exact .inl halloc

theorem Balanced.free (h : Balanced t e mem a) {k : ℕ} (hend : k + n ≤ e)
    (hf : a.free t mem (k * 4096) n = some (mem', a')) : Balanced t e mem' a' := by
  obtain ⟨howns, hmem⟩ := free_cases h.owns hend hf
  have hmarks : ∀ j, (mem' (t.slot j)).unusable = (mem (t.slot j)).unusable := by
    intro j
    rw [hmem j]
    split_ifs <;> rfl
  have hlt := h.owns.count_lt
  have hn : n % 2 ^ 26 = n := Nat.mod_eq_of_lt (by omega)
  have hslot := h.owns.slot_lt hend
  have hclears := SimplePFA.free_clears hf
  rw [getPfd_slot (h.owns.slot_lt (by omega)), hn] at hclears
  have hsum : t.slot k + 64 * n = t.slot (k + n) := by
    simp only [PageFrameTable.slot, pfdSz_eq]
    omega
  rcases hclears with ⟨-, hin, hout⟩ | ⟨hwrap, -⟩
  · have hcount := allocatedPages_clear (Nat.zero_le k) hend hin hout
    have hpfa := SimplePFA.free_pfa hf
    apply h.of_unusable howns (by rw [hpfa]) hmarks
    · rw [hpfa]
      rw [h.alloced]
      exact sub_eq_of_add_eq (h.owns.allocatedPages_lt mem) hcount (by omega)
    · intro j _ halloc
      rw [hmem j] at halloc
      split_ifs at halloc
      exact .inl halloc
  · omega

/-- The constructor balances the books if the number of usable pages fits the byte sum. -/
theorem Balanced.construct {others : List (ℕ × ℕ)} {mem0 : PfdMem} (hok : RegionsOk t.usableRegions)
    (hbound : t.slot e < 2 ^ 32) (hsize : pfdSz * e < 2 ^ 31) (hlimit : t.memLimit = e * 4096)
    (hfew : regionPages t.usableRegions 0 e < 2 ^ 20)
    (h : SimplePFA.construct t others mem0 0 t.memLimit = some (mem, a)) : Balanced t e mem a := by
  rw [hlimit, ← Nat.zero_mul 4096] at h
  have hcut : ¬ StartCut t.usableRegions (0 * 4096) := by
    rintro ⟨q, -, r, -, hlt, -⟩
    omega
  have husable := (SimplePFA.construct_usable_iff hok hbound hlimit.ge h).mpr hcut
  have htotal := SimplePFA.construct_totalPgs hok hbound h
  rw [Nat.mod_eq_of_lt hfew, ← countIn_freeAt husable] at htotal
  have hslots : ∀ k < e,
      mem (t.slot k) = ⟨false, decide (InGap (reachedRegions (0 * 4096) t.usableRegions) k)⟩ :=
    fun k hk => SimplePFA.construct_slot hok hbound h (Nat.zero_le k) hk
  refine ⟨SimplePFA.construct_owns hbound hsize h, ?_, ?_, ?_⟩
  · rw [htotal]
    apply countIn_congr
    intro k _ hk
    simp [PageFrameTable.freeAt, PageFrameDescriptor.usable, hslots k hk]
  · have hnone : t.allocatedPages mem 0 e = countIn (fun _ => false) 0 e := by
      apply countIn_congr
      intro k _ hk
      rw [hslots k hk]
    rw [(SimplePFA.construct_eq hbound h).1, hnone]
    simp [countIn]
  · intro k hk halloc
    rw [hslots k hk] at halloc
    cases halloc

end Steps

/-- The numbers of free and of allocated pages are those of the descriptors, and their difference does
not underflow. -/
theorem PfaRun.balanced {t : PageFrameTable} {e : ℕ} {mem : PfdMem} {a : SimplePFA}
    (hok : RegionsOk t.usableRegions) (hbound : t.slot e < 2 ^ 32) (hsize : pfdSz * e < 2 ^ 31)
    (hlimit : t.memLimit = e * 4096) (hfew : regionPages t.usableRegions 0 e < 2 ^ 20)
    (hr : PfaRun t e mem a) :
    a.getFreePages = countIn (t.freeAt mem) 0 e ∧ a.getAllocedPages = t.allocatedPages mem 0 e ∧
      a.getAllocedPages ≤ a.getTotalPages := by
  have hinv : Balanced t e mem a := by
    induction hr with
    | construct h => exact .construct hok hbound hsize hlimit hfew h
    | alloc _ hfits h ih => exact ih.alloc hfits h
    | free _ hend h ih => exact ih.free hend h
  have hsum := hinv.countIn_freeAt_add
  have htotal : a.totalPgs < 2 ^ 32 := by
    have hle := countIn_le (fun k => !(mem (t.slot k)).unusable) 0 e
    have hlt := hinv.owns.count_lt
    rw [← hinv.total] at hle
    omega
  have halloced : a.allocedPgs ≤ a.totalPgs := by
    rw [hinv.alloced]
    omega
  refine ⟨?_, hinv.alloced, halloced⟩
  rw [SimplePFA.getFreePages, SimplePFA.getTotalPages, SimplePFA.getAllocedPages,
    Word.sub_of_le halloced htotal, hinv.alloced]
  omega

/-- After one page has been handed out. -/
theorem sixteenAfterOne_balanced :
    (sixteenAfterOne.2.2.getFreePages, sixteenAfterOne.2.2.getAllocedPages) = (14, 1) ∧
      sixteenAfterOne.2.2.getFreePages = countIn (sixteenTable.freeAt sixteenAfterOne.2.1) 0 16 ∧
      sixteenAfterOne.2.2.getAllocedPages = sixteenTable.allocatedPages sixteenAfterOne.2.1 0 16 ∧
      sixteenAfterOne.2.2.getAllocedPages ≤ sixteenAfterOne.2.2.getTotalPages := by
  have hfits : 1 ≤ 16 → sixteenTable.slot (16 + 1) ≤ 2 ^ 32 := by decide +kernel
  have hrun : PfaRun sixteenTable 16 sixteenAfterOne.2.1 sixteenAfterOne.2.2 :=
    .alloc (.construct sixteenPfa_construct) hfits sixteenAfterOne_alloc
  exact ⟨by decide +kernel, hrun.balanced sixteenTable_regionsOk (by decide +kernel) (by decide +kernel)
    (by decide +kernel) (by decide +kernel)⟩

def bigMap : List MmEntry := [⟨0, 2 ^ 32 + 2 ^ 27, .usable, 0⟩]

def bigTable : PageFrameTable :=
  ⟨2 ^ 32 + 2 ^ 27, [⟨16896 * 4096, 1064448 * 4096, .usable, 0⟩], ⟨hhdmStart, 1081344⟩, 1064448 * 4096⟩

def bigPfa : PfdMem × SimplePFA :=
  (SimplePFA.construct bigTable [] (fun _ => {}) 0 bigTable.memLimit).get (by decide +kernel)

/-- All 1064448 pages are usable, and the allocator counts 15872. -/
theorem bigTable_unbalanced :
    PageFrameTable.construct insertionSort bigMap none = some bigTable ∧
      PfaRun bigTable 1081344 bigPfa.1 bigPfa.2 ∧
      (bigPfa.2.getFreePages, countIn (bigTable.freeAt bigPfa.1) 0 1081344) = (15872, 1064448) := by
  have hconstruct : SimplePFA.construct bigTable [] (fun _ => {}) 0 bigTable.memLimit = some bigPfa :=
    (Option.some_get (by decide +kernel)).symm
  have hfree : bigPfa.2.getFreePages = 15872 := by decide +kernel
  have hok : RegionsOk bigTable.usableRegions :=
    ⟨by simp [bigTable, MmEntry.NoWrap], by simp [bigTable], by simp [bigTable]⟩
  have hlimit : bigTable.memLimit = 1081344 * 4096 := by decide +kernel
  have hbound : bigTable.slot 1081344 < 2 ^ 32 := by decide +kernel
  generalize bigPfa = r at hconstruct hfree ⊢
  refine ⟨by decide +kernel, .construct hconstruct, Prod.ext hfree ?_⟩
  have hcut : ¬ StartCut bigTable.usableRegions (0 * 4096) := by
    rintro ⟨q, -, r, -, hlt, -⟩
    omega
  have husable := (SimplePFA.construct_usable_iff hok hbound hlimit.ge hconstruct).mpr hcut
  have hpages : regionPages bigTable.usableRegions 0 1081344 =
      min (16896 + 1064448) 1081344 - max 16896 0 + regionPages [] 0 1081344 :=
    hok.regionPages_cons rfl rfl
  rw [countIn_freeAt husable, hpages, regionPages_nil]
  norm_num

end HmmOS.Mm
