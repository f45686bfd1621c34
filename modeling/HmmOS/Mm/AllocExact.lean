import HmmOS.Lib.NeedleCircle
import HmmOS.Mm.PhysMemorySafety

/-! # When `alloc` is right

`alloc` finds a run of usable descriptors whenever there is one, unless the search
reaches a place near the end of the range from which the end of the run wraps around the
address space: there it reports success whatever is in the table.
-/
namespace HmmOS.Mm
open Lib Util.Algorithm

variable {t : PageFrameTable} {mem : PfdMem} {a : SimplePFA} {s e n : ℕ}

theorem setAllocated_frame {m k x : ℕ} (h : t.slot (k + m) < 2 ^ 32)
    (hx : ∀ j, k ≤ j → j < k + m → x ≠ t.slot j) :
    setAllocated (t.slot (k + m)) m mem (t.slot k) x = mem x := by
  induction m generalizing k mem with
  | zero => rfl
  | succ m ih =>
    have hcomm : k + (m + 1) = k + 1 + m := by omega
    rw [setAllocated, if_pos (slot_lt_slot.mpr (by omega)), pfdAdd_slot_one h, hcomm,
      ih (by rwa [← hcomm]) fun j hlo hhi => hx j (by omega) (by omega)]
    exact Function.update_of_ne (hx k le_rfl (by omega)) _ _

/-- `n` usable descriptors from `k` on, inside the range. -/
def PageFrameTable.FreeRun (t : PageFrameTable) (mem : PfdMem) (s e n k : ℕ) : Prop :=
  s ≤ k ∧ k + n ≤ e ∧ ∀ i, k ≤ i → i < k + n → t.freeAt mem i = true

/-- Exactly the `n` descriptors from `k` on have become allocated. -/
def PageFrameTable.Taken (t : PageFrameTable) (mem mem' : PfdMem) (n k : ℕ) : Prop :=
  (∀ j, k ≤ j → j < k + n → mem' (t.slot j) = { mem (t.slot j) with allocated := true }) ∧
    ∀ x, (∀ j, k ≤ j → j < k + n → x ≠ t.slot j) → mem' x = mem x

/-- It succeeds just when there is a run of usable descriptors, and then it takes one; otherwise it
changes no descriptor and no counter. -/
def AllocCorrect (t : PageFrameTable) (mem : PfdMem) (a : SimplePFA) (s e n : ℕ) : Prop :=
  ∃ res mem' a', a.alloc t mem n = some (res, mem', a') ∧
    (res.isSome ↔ ∃ k, t.FreeRun mem s e n k) ∧
    (∀ base, res = some base → ∃ k, t.FreeRun mem s e n k ∧ base = k * pgSz ∧ t.Taken mem mem' n k ∧
      a'.allocedPgs = (a.allocedPgs + n) % 2 ^ 32) ∧
    (res = none → mem' = mem ∧ a'.allocedPgs = a.allocedPgs) ∧ a'.totalPgs = a.totalPgs

/-- No place that the search reaches has a run whose end wraps around the address space. -/
def PageFrameTable.NoWrapReached (t : PageFrameTable) (mem : PfdMem) (s e n k0 : ℕ) : Prop :=
  n ≤ e - s → ∀ p, NeedleSearch.Reached (t.freeAt mem) e n k0 p → t.slot (p + n) < 2 ^ 32

section Alloc
variable {k0 : ℕ}

theorem attempt_eq_attemptOr (t : PageFrameTable) (mem : PfdMem) (s e n : ℕ) : t.attempt mem s e n =
      NeedleSearch.attemptOr (t.freeAt mem) s e n fun k => 2 ^ 32 ≤ t.slot (k + n) := rfl

/-- The loop of `alloc` ends as the circular search does. -/
theorem SimplePFA.Owns.allocLoop_ends (h : a.Owns t s e) (hn : 1 ≤ n) (hlen : n ≤ e - s)
    (hk0 : s ≤ k0 ∧ k0 < e) :
    ∃ k steps, a.allocLoop mem n (e - s) (e - s + 1) (t.slot k0) 0 = some (t.slot k, steps) ∧ (s ≤ k ∧ k < e) ∧
      NeedleSearch.Ends (t.freeAt mem) s e n (fun k => 2 ^ 32 ≤ t.slot (k + n)) k0 k steps := by
  have hwild : ∀ p, 2 ^ 32 ≤ t.slot (p + n) → e < p + n := by
    intro p hp
    exact slot_lt_slot.mp (h.bound.trans_le hp)
  have hmono : ∀ p q, p ≤ q → 2 ^ 32 ≤ t.slot (p + n) → 2 ^ 32 ≤ t.slot (q + n) := by
    intro p q hpq hp
    simp only [PageFrameTable.slot, pfdSz_eq] at hp ⊢
    omega
  obtain ⟨k, steps, hsearch, hk, hends⟩ := @NeedleSearch.search_ends (t.freeAt mem) s e n k0 k0 0
    (e - s + 1) _ _ hn hk0 hwild hmono hk0 (.init hk0) (by omega) (Nat.zero_le _)
  refine ⟨k, steps, ?_, hk, hends⟩
  rw [allocLoop_slot h hk0 (Nat.zero_le _) hlen, attempt_eq_attemptOr, hsearch]
  rfl

theorem SimplePFA.Owns.alloc_ends (h : a.Owns t s e) (hneedle : a.needle = t.slot k0) (hn : 1 ≤ n)
    (hlen : n ≤ e - s) (mem : PfdMem) : ∃ k steps, (s ≤ k ∧ k < e) ∧
      NeedleSearch.Ends (t.freeAt mem) s e n (fun k => 2 ^ 32 ≤ t.slot (k + n)) k0 k steps ∧
      a.alloc t mem n = some (if e - s ≤ steps then (none, mem, { a with needle := t.slot k })
        else (some (k * pgSz), setAllocated (pfdAdd (t.slot k) n) n mem (t.slot k),
          { a with needle := t.slot k, allocedPgs := Word.add 32 a.allocedPgs n })) := by
  obtain ⟨k', hs', he', hneedle'⟩ := h.needle
  obtain rfl : k0 = k' := slot_inj (hneedle.symm.trans hneedle')
  obtain ⟨k, steps, hloop, hk, hends⟩ := @SimplePFA.Owns.allocLoop_ends t mem a s e n k0 h hn hlen ⟨hs', he'⟩
  refine ⟨k, steps, hk, hends, ?_⟩
  have hlt := h.count_lt
  rw [SimplePFA.alloc, h.len_eq, if_neg (by omega), hneedle, hloop, Option.map_some]
  dsimp only
  rw [getPfOffset_slot (h.size_lt hk.2.le), pgSzBits_eq, Nat.shiftLeft_eq, Nat.mod_eq_of_lt (by omega)]
  rfl

theorem PageFrameTable.taken_setAllocated {k : ℕ} (h : t.slot (k + n) < 2 ^ 32) :
    t.Taken mem (setAllocated (pfdAdd (t.slot k) n) n mem (t.slot k)) n k := by
  rw [pfdAdd_slot h]
  constructor
  · intro j hlo hhi
    rw [setAllocated_slot h, if_pos ⟨hlo, hhi⟩]
  · intro x hx
    exact setAllocated_frame h hx

theorem SimplePFA.Owns.allocCorrect_of_lt (h : a.Owns t s e) (hlen : e - s < n) :
    AllocCorrect t mem a s e n := by
  have halloc : a.alloc t mem n = some (none, mem, a) := by
    rw [SimplePFA.alloc, h.len_eq, if_pos hlen]
  refine ⟨none, mem, a, halloc, ?_, ?_, fun _ => ⟨rfl, rfl⟩, rfl⟩
  · apply iff_of_false
    · simp
    · rintro ⟨k, hk, hroom, -⟩
      omega
  · intro base hbase
    cases hbase

/-- `alloc` does what it is meant to do just when the search reaches no place from which the end of the
run wraps. -/
theorem SimplePFA.Owns.allocCorrect_iff (h : a.Owns t s e) (hneedle : a.needle = t.slot k0)
    (hn : 1 ≤ n) (mem : PfdMem) :
    AllocCorrect t mem a s e n ↔ t.NoWrapReached mem s e n k0 := by
  by_cases hlen : n ≤ e - s
  · obtain ⟨k, steps, hk, hends, halloc⟩ := h.alloc_ends hneedle hn hlen mem
    constructor
    · rintro ⟨res, mem', a', halloc', -, hsome, -⟩ _ p hp
      by_contra hwrap
      cases hends with
      | atWild hsteps _ hw =>
        -- the run that is reported does not even lie in the range
        rw [halloc, if_neg (by omega), Option.some.injEq] at halloc'
        have hres : some (k * pgSz) = res := congrArg Prod.fst halloc'
        obtain ⟨k', ⟨-, hroom, -⟩, hbase, -⟩ := hsome (k * pgSz) hres.symm
        have hkk : k = k' := by
          rw [pgSz_eq] at hbase
          omega
        have := slot_lt_slot.mp (h.bound.trans_le hw)
        omega
      | atRun _ _ htame => exact htame p hp (by omega)
      | full _ _ htame => exact htame p hp (by omega)
    · intro hsafe
      cases hends with
      | atWild _ hr hw => exact absurd (hsafe hlen k hr) (by omega)
      | atRun hsteps hrun _ =>
        rw [if_neg (by omega)] at halloc
        have hfree : t.FreeRun mem s e n k := ⟨hk.1, hrun⟩
        refine ⟨_, _, _, halloc, iff_of_true rfl ⟨k, hfree⟩, ?_, ?_, rfl⟩
        · intro base hbase
          cases hbase
          exact ⟨k, hfree, rfl, PageFrameTable.taken_setAllocated (h.slot_lt hrun.1), rfl⟩
        · intro hres
          cases hres
      | full hsteps hnone _ =>
        rw [if_pos hsteps] at halloc
        refine ⟨_, _, _, halloc, ?_, ?_, fun _ => ⟨rfl, rfl⟩, rfl⟩
        · apply iff_of_false
          · simp
          · rintro ⟨k', hlo, hrun⟩
            exact hnone k' hlo (by omega) hrun
        · intro base hbase
          cases hbase
  · exact iff_of_true (h.allocCorrect_of_lt (by omega)) fun hle => absurd hle hlen

end Alloc

/-- The states of an allocator over `[start, end_)`. Anything else may change the descriptors in
between. -/
inductive PfaReach (t : PageFrameTable) (start end_ : ℕ) : PfdMem → SimplePFA → Prop
  | construct {others : List (ℕ × ℕ)} {mem0 mem : PfdMem} {a : SimplePFA}
      (h : SimplePFA.construct t others mem0 start end_ = some (mem, a)) : PfaReach t start end_ mem a
  | alloc {mem mem' : PfdMem} {a a' : SimplePFA} {n : ℕ} {res : Option ℕ}
      (hr : PfaReach t start end_ mem a) (h : a.alloc t mem n = some (res, mem', a')) :
      PfaReach t start end_ mem' a'
  | free {mem mem' : PfdMem} {a a' : SimplePFA} {base n : ℕ} (hr : PfaReach t start end_ mem a)
      (h : a.free t mem base n = some (mem', a')) : PfaReach t start end_ mem' a'
  | other {mem mem' : PfdMem} {a : SimplePFA} (hr : PfaReach t start end_ mem a) :
      PfaReach t start end_ mem' a

section Reach
variable {mem' mem1 mem2 : PfdMem} {a' a1 a2 : SimplePFA} {m b start end_ base : ℕ}

theorem SimplePFA.free_pfa (h : a.free t mem base n = some (mem', a')) :
    a' = { a with allocedPgs := Word.sub 32 a.allocedPgs n } := by
  rw [SimplePFA.free] at h
  split_ifs at h
  obtain ⟨m, -, he⟩ := Option.map_eq_some_iff.mp h
  exact (congrArg Prod.snd he).symm

theorem SimplePFA.Owns.free (h : a.Owns t s e) (hf : a.free t mem base n = some (mem', a')) :
    a'.Owns t s e := by
  rw [SimplePFA.free_pfa hf]
  exact ⟨h.start, h.end_, h.startp, h.endp, h.bound, h.size, h.needle⟩

/-- Every reachable state is that of an allocator of its range, if the descriptors of the range fit the
address space. -/
theorem PfaReach.owns (hbound : t.slot (end_ / pgSz) < 2 ^ 32) (hsize : pfdSz * (end_ / pgSz) < 2 ^ 31)
    (h : PfaReach t start end_ mem a) : a.Owns t (start / pgSz) (end_ / pgSz) := by
  induction h with
  | construct h =>
    obtain ⟨-, hstart, hend⟩ := SimplePFA.construct_range h
    have hs : start = start / pgSz * 4096 := by
      rw [pgSz_eq]
      omega
    have he : end_ = end_ / pgSz * 4096 := by
      rw [pgSz_eq]
      omega
    rw [hs, he] at h
    exact SimplePFA.construct_owns hbound hsize h
  | alloc hr h ih =>
    obtain ⟨res', mem1, a1, halloc, howns, -⟩ := alloc_spec ih _ _
    rw [halloc, Option.some.injEq] at h
    cases h
    exact howns
  | free hr h ih => exact ih.free h
  | other hr ih => exact ih

inductive Frees (t : PageFrameTable) (mem : PfdMem) (a : SimplePFA) : PfdMem → SimplePFA → Prop
  | refl : Frees t mem a mem a
  | free {mem1 mem2 : PfdMem} {a1 a2 : SimplePFA} {base n : ℕ} (hr : Frees t mem a mem1 a1)
      (h : a1.free t mem1 base n = some (mem2, a2)) : Frees t mem a mem2 a2

theorem Frees.owns (h : a.Owns t s e) (hf : Frees t mem a mem1 a1) : a1.Owns t s e ∧ a1.needle = a.needle := by
  induction hf with
  | refl => exact ⟨h, rfl⟩
  | free hr hfree ih =>
    refine ⟨ih.1.free hfree, ?_⟩
    rw [SimplePFA.free_pfa hfree]
    exact ih.2

/-- With a run of free descriptors at the needle, `alloc` returns the needle. -/
theorem SimplePFA.Owns.alloc_at_needle (h : a.Owns t s e) {k : ℕ} (hneedle : a.needle = t.slot k)
    (hrun : NeedleSearch.Run (t.freeAt mem) e n k) (hk : s ≤ k ∧ k < e) :
    ∃ mem' a', a.alloc t mem n = some (some (k * 4096), mem', a') := by
  have hlen := hrun.1
  have hlt := h.count_lt
  rw [SimplePFA.alloc, h.len_eq, if_neg (by omega), hneedle,
    allocLoop_slot h hk (Nat.zero_le _) (by omega), attempt_eq_attemptOr,
    NeedleSearch.search_of_run hrun, Option.map_some, Option.map_some]
  dsimp only [Prod.map, id]
  rw [if_neg (by omega), getPfOffset_slot (h.size_lt hk.2.le), pgSzBits_eq, Nat.shiftLeft_eq,
    Nat.mod_eq_of_lt (by omega)]
  exact ⟨_, _, rfl⟩

/-- After calls of `free` that leave the pages of an allocation free, a request for as many pages or fewer
is granted at the same address. -/
theorem alloc_reuses (h : a.Owns t s e) (htable : t.slot t.pft.size < 2 ^ 32) (hm : 1 ≤ m) (hmn : m ≤ n)
    (ha : a.alloc t mem n = some (some b, mem1, a1)) (hf : Frees t mem1 a1 mem2 a2)
    (hfree : ∀ p ∈ pagesAt b n, p < t.pft.size ∧ t.freeAt mem2 p = true) :
    ∃ mem3 a3, a2.alloc t mem2 m = some (some b, mem3, a3) := by
  obtain ⟨k0, -, -, hneedle⟩ := h.needle
  by_cases hlen : n ≤ e - s
  · obtain ⟨k, steps, hk, hends, halloc⟩ := h.alloc_ends hneedle (by omega) hlen mem
    rw [ha] at halloc
    by_cases hsteps : e - s ≤ steps
    · rw [if_pos hsteps] at halloc
      cases halloc
    rw [if_neg hsteps] at halloc
    cases halloc
    have hpages : ∀ i, k ≤ i → i < k + n → i < t.pft.size ∧ t.freeAt mem2 i = true :=
      fun i hlo hhi => hfree i (mem_pagesAt.mpr ⟨hlo, hhi⟩)
    have hfits : t.slot (k + n) < 2 ^ 32 := by
      have hlast := (hpages (k + n - 1) (by omega) (by omega)).1
      have hle : t.slot (k + n) ≤ t.slot t.pft.size := by
        simp only [PageFrameTable.slot, pfdSz_eq]
        omega
      omega
    have hroom : k + n ≤ e := by
      cases hends with
      | atWild _ _ hw => omega
      | atRun _ hrun _ => exact hrun.1
      | full hfull _ _ => omega
    have howns : SimplePFA.Owns t { a with needle := t.slot k, allocedPgs := Word.add 32 a.allocedPgs n } s e :=
      h.of_needle hk
    obtain ⟨howns2, hneedle2⟩ := hf.owns howns
    have hrun : NeedleSearch.Run (t.freeAt mem2) e m k :=
      ⟨by omega, fun i hlo hhi => (hpages i hlo (by omega)).2⟩
    exact howns2.alloc_at_needle hneedle2 hrun hk
  · rw [SimplePFA.alloc, h.len_eq, if_pos (by omega)] at ha
    cases ha

end Reach

def topTable : PageFrameTable :=
  ⟨65536, [⟨0, 65536, .usable, 0⟩], ⟨2 ^ 32 - 64 * 17, 16⟩, 65536⟩

def topPfa : PfdMem × SimplePFA :=
  (SimplePFA.construct topTable [] (fun _ => {}) 0 topTable.memLimit).get (by decide +kernel)

theorem topPfa_construct :
    SimplePFA.construct topTable [] (fun _ => {}) 0 topTable.memLimit = some topPfa :=
  (Option.some_get (by decide +kernel)).symm

def topAfterTwo : Option ℕ × PfdMem × SimplePFA :=
  ((topPfa.2.alloc topTable topPfa.1 8).bind fun r => r.2.2.alloc topTable r.2.1 1).get (by decide +kernel)

/-- Seven pages are free, and a request for nine is granted at the page that was handed out last. -/
theorem topTable_alloc_wrong :
    PageFrameTable.construct insertionSort sixteenPages (some ⟨2 ^ 32 - 64 * 17, 16⟩) = some topTable ∧
      PfaReach topTable 0 topTable.memLimit topAfterTwo.2.1 topAfterTwo.2.2 ∧
      (topAfterTwo.1, (topAfterTwo.2.2.alloc topTable topAfterTwo.2.1 9).map Prod.fst) =
        (some 32768, some (some 32768)) ∧
      (List.range 16).map (topTable.freeAt topAfterTwo.2.1) =
        List.replicate 9 false ++ List.replicate 7 true := by
  refine ⟨by decide +kernel, ?_, by decide +kernel, by decide +kernel⟩
  have hconstruct := topPfa_construct
  have hboth : ((topPfa.2.alloc topTable topPfa.1 8).bind fun r => r.2.2.alloc topTable r.2.1 1) =
      some topAfterTwo := (Option.some_get (by decide +kernel)).symm
  obtain ⟨⟨res, mem1, a1⟩, hr, hlast⟩ := Option.bind_eq_some_iff.mp hboth
  generalize topAfterTwo = r at hlast ⊢
  generalize topPfa = r0 at hconstruct hr
  exact .alloc (.alloc (.construct hconstruct) hr) hlast

theorem sixteenPfa_construct :
    SimplePFA.construct sixteenTable [] (fun _ => {}) 0 sixteenTable.memLimit = some sixteenPfa :=
  (Option.some_get (by decide +kernel)).symm

/-- Requests of the allocator over sixteen pages are safe at any needle. -/
theorem sixteenPfa_allocCorrect :
    AllocCorrect sixteenTable sixteenAfterOne.2.1 sixteenAfterOne.2.2 0 16 5 := by
  have hreach : PfaReach sixteenTable 0 sixteenTable.memLimit sixteenAfterOne.2.1 sixteenAfterOne.2.2 :=
    .alloc (.construct sixteenPfa_construct) sixteenAfterOne_alloc
  have howns := hreach.owns (by decide +kernel) (by decide +kernel)
  have hneedle : sixteenAfterOne.2.2.needle = sixteenTable.slot 1 := by decide +kernel
  apply (howns.allocCorrect_iff hneedle (by decide) _).mpr
  intro _ p hp
  have hlt : p < 16 := hp.upper
  simp only [PageFrameTable.slot, sixteenTable, pfdSz_eq, hhdmStart_eq]
  omega

/-- Two pages are handed out and freed, and the next request gets them again. -/
theorem sixteenPfa_reuses :
    ∃ mem1 a1 mem2 a2 mem3 a3, sixteenPfa.2.alloc sixteenTable sixteenPfa.1 2 =
        some (some 4096, mem1, a1) ∧
      a1.free sixteenTable mem1 4096 2 = some (mem2, a2) ∧
      a2.alloc sixteenTable mem2 1 = some (some 4096, mem3, a3) := by
  have hres : (sixteenPfa.2.alloc sixteenTable sixteenPfa.1 2).map Prod.fst = some (some 4096) := by
    decide +kernel
  obtain ⟨⟨res, mem1, a1⟩, ha, rfl⟩ := Option.map_eq_some_iff.mp hres
  have hboth : ((sixteenPfa.2.alloc sixteenTable sixteenPfa.1 2).bind fun r =>
      (r.2.2.free sixteenTable r.2.1 4096 2).map fun q =>
        (List.range 2).map fun i => sixteenTable.freeAt q.1 (1 + i)) = some [true, true] := by
    decide +kernel
  rw [ha, Option.bind_some] at hboth
  obtain ⟨⟨mem2, a2⟩, hf, hfree⟩ := Option.map_eq_some_iff.mp hboth
  have howns : sixteenPfa.2.Owns sixteenTable 0 16 :=
    (PfaReach.construct sixteenPfa_construct).owns (by decide +kernel) (by decide +kernel)
  have hpages : ∀ p ∈ pagesAt 4096 2, p < sixteenTable.pft.size ∧ sixteenTable.freeAt mem2 p = true := by
    intro p hp
    have hcases : p = 1 ∨ p = 2 := by
      have := (mem_pagesAt (k := 1)).mp hp
      omega
    simp only [List.range, List.range.loop, List.map_cons, List.map_nil, List.cons.injEq] at hfree
    rcases hcases with rfl | rfl
    · exact ⟨by decide, hfree.1⟩
    · exact ⟨by decide, hfree.2.1⟩
  obtain ⟨mem3, a3, halloc⟩ := alloc_reuses howns (by decide +kernel) (by decide) (by decide : 1 ≤ 2) ha
    (.free .refl hf) hpages
  exact ⟨mem1, a1, mem2, a2, mem3, a3, ha, hf, halloc⟩

/-- The two pages that hold the table are marked. -/
def hugeMem : PfdMem := Function.update (Function.update (fun _ => {}) 0xC0000000 { unusable := true }) 0xC0000040 { unusable := true }

theorem hugePfa_mem : hugePfa.1 = hugeMem := by
  have hzero : hugeTable.registerAllocator [] (fun _ => {}) 0 hugeTable.memLimit = some fun _ => {} := by
    rw [PageFrameTable.registerAllocator, if_neg (by decide), if_neg (by simp)]
    refine congrArg some (funext fun x => ?_)
    rw [PfdMem.zero, ite_self]
  have hgap : markGap hugeTable 8192 hugeTable.memLimit (8189 + 3) (fun _ => {}) 0 = (hugeMem, 8192) := by
    rw [markGap, if_pos (by decide), markGap, if_pos (by decide), markGap, if_neg (by decide)]
    rfl
  have hmark : markUnusable hugeTable 0 hugeTable.memLimit hugeTable.usableRegions (fun _ => {}) 0 = hugeMem := by
    rw [hugeTable] at hgap ⊢
    simp only [markUnusable, Nat.not_lt_zero, if_false]
    rw [hgap]
    simp
  have hconstruct := hugePfa_construct
  rw [SimplePFA.construct, if_neg (by decide), hzero, Option.map_some, hmark] at hconstruct
  rw [← Option.some.inj hconstruct]

/-- The allocator after a request for the pages from the third on, up to the one whose descriptor is the last
in the address space. -/
def hugeAfterOne : SimplePFA := { hugePfa.2 with needle := 0xC0000080, allocedPgs := 2 ^ 24 - 2 }

/-- From the needle to the end of the table and over the two marked pages again. -/
theorem hugeAfterOne_round (fuel : ℕ) {steps : ℕ} (h : steps < 2 ^ 26) :
    hugeAfterOne.allocLoop hugeMem 1000 (2 ^ 26 + 128) (fuel + 1) 0xC0000080 steps =
      hugeAfterOne.allocLoop hugeMem 1000 (2 ^ 26 + 128) fuel 0xC0000080 (steps + 128) := by
  have hstart : hugeAfterOne.startp = 0xC0000000 := by decide +kernel
  have hend : hugeAfterOne.endp = 0xC0002000 := by decide +kernel
  have htry : hugeAfterOne.tryAlloc hugeMem 1000 0xC0000080 steps = (false, 0xC0000000, steps + 126) := by
    rw [SimplePFA.tryAlloc, hend, if_pos (by decide), hstart,
      show Word.ofInt 32 (pfdSub 0xC0002000 0xC0000080) = 126 by decide, Word.add_of_lt (by omega)]
  have hseek : hugeAfterOne.seekUsable hugeMem (2 ^ 26 + 128) (2 ^ 26 + 126 + 3) 0xC0000000 (steps + 126) =
      (0xC0000080, steps + 128) := by
    rw [SimplePFA.seekUsable, if_neg (by decide), Word.add_of_lt (by omega), if_pos (by omega), hend,
      if_neg (by decide), SimplePFA.seekUsable, if_neg (by decide), Word.add_of_lt (by omega),
      if_pos (by omega), hend, if_neg (by decide), SimplePFA.seekUsable, if_pos (by decide)]
    rfl
  rw [SimplePFA.allocLoop, htry]
  dsimp only
  rw [if_pos (by omega), hseek]

theorem hugeAfterOne_rounds (fuel : ℕ) {k : ℕ} (hk : k ≤ 2 ^ 19) :
    hugeAfterOne.allocLoop hugeMem 1000 (2 ^ 26 + 128) (fuel + k) 0xC0000080 0 =
      hugeAfterOne.allocLoop hugeMem 1000 (2 ^ 26 + 128) fuel 0xC0000080 (128 * k) := by
  induction k generalizing fuel with
  | zero => rfl
  | succ k ih =>
    rw [show fuel + (k + 1) = fuel + 1 + k by omega, ih (fuel + 1) (by omega), hugeAfterOne_round fuel (by omega)]
    rfl

/-- The end of the pages that are granted wraps, so none of them is marked, but a request for a thousand of them
is refused. -/
theorem hugePfa_not_reused :
    PfaReach hugeTable 0 hugeTable.memLimit hugePfa.1 hugePfa.2 ∧
      hugePfa.2.alloc hugeTable hugePfa.1 (2 ^ 24 - 2) = some (some 0x2000, hugePfa.1, hugeAfterOne) ∧
      (∀ p ∈ pagesAt 0x2000 (2 ^ 24 - 2), p < hugeTable.pft.size ∧ hugeTable.freeAt hugePfa.1 p = true) ∧
      (hugeAfterOne.alloc hugeTable hugePfa.1 1000).map Prod.fst = some none := by
  refine ⟨.construct hugePfa_construct, ?_, ?_, ?_⟩
  · have hloop : hugePfa.2.allocLoop hugeMem (2 ^ 24 - 2) hugePfa.2.len (hugePfa.2.len + 1) hugePfa.2.needle 0 =
        some (0xC0000080, 130) := by decide +kernel
    rw [hugePfa_mem, SimplePFA.alloc, if_neg (by decide +kernel), hloop, Option.map_some]
    dsimp only
    rw [if_neg (by decide +kernel)]
    rfl
  · intro p hp
    have hrange := (mem_pagesAt (k := 2)).mp hp
    refine ⟨by simp only [hugeTable]; omega, ?_⟩
    rw [PageFrameTable.freeAt, hugePfa_mem, hugeMem, Function.update_of_ne, Function.update_of_ne]
    · rfl
    all_goals
      simp only [PageFrameTable.slot, hugeTable, pfdSz_eq, hhdmStart_eq]
      omega
  · have hlast : hugeAfterOne.allocLoop hugeMem 1000 (2 ^ 26 + 128) (2 ^ 26 + 129 - 2 ^ 19) 0xC0000080 (128 * 2 ^ 19) =
        some (0xC0000000, 2 ^ 26 + 255) := by decide +kernel
    have hloop : hugeAfterOne.allocLoop hugeMem 1000 (2 ^ 26 + 128) (2 ^ 26 + 129) 0xC0000080 0 =
        some (0xC0000000, 2 ^ 26 + 255) := (hugeAfterOne_rounds _ le_rfl).trans hlast
    have hlen : hugeAfterOne.len = 2 ^ 26 + 128 := by decide +kernel
    have hneedle : hugeAfterOne.needle = 0xC0000080 := rfl
    rw [hugePfa_mem, SimplePFA.alloc, hlen, hneedle, if_neg (by norm_num), hloop]
    rfl

end HmmOS.Mm
