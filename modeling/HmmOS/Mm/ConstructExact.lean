import HmmOS.Lib.IntervalCount
import HmmOS.Mm.AllocExact

/-! # What the constructor of an allocator establishes

The usable pages and `total_pgs` are computed by separate loops. The marking loop takes
the part of a region that begins before the range for a gap, and the other loop adds up
bytes in 32 bits.
-/
namespace HmmOS.Mm
open Lib Util.Algorithm SimplePFA

/-- The number of pages of a range that lie in the regions. -/
def regionPages (regions : List MmEntry) (s e : ℕ) : ℕ :=
  countIn (fun j => decide (InRegion regions j)) s e

section Count
variable {regions rest : List MmEntry} {r : MmEntry} {s e : ℕ}

theorem regionPages_nil (s e : ℕ) : regionPages [] s e = 0 := by
  simp [regionPages, countIn, InRegion]

theorem RegionsOk.regionPages_cons (h : RegionsOk (r :: rest)) {b l : ℕ} (hb : r.base = b * 4096)
    (hl : r.len = l * 4096) : regionPages (r :: rest) s e = min (b + l) e - max b s + regionPages rest s e := by
  have hhead : ∀ j, r.base ≤ j * 4096 ∧ (j + 1) * 4096 ≤ r.base + r.len ↔ b ≤ j ∧ j < b + l := by
    intro j
    omega
  unfold regionPages
  rw [← countIn_interval, ← countIn_or]
  · apply countIn_congr
    intro j _ _
    simp only [inRegion_cons, hhead, Bool.decide_or]
  · intro j hj
    obtain ⟨-, hlt⟩ := of_decide_eq_true hj
    apply decide_eq_false
    rintro ⟨q, hq, hbase, -⟩
    have hnext := (List.pairwise_cons.mp h.sorted).1 q hq
    omega

theorem addOverlap_eq {A x y : ℕ} (hx : x * 4096 < 2 ^ 64) :
    (if x * 4096 > y * 4096 then Word.add 32 (A % 2 ^ 32) (Word.sub 64 (x * 4096) (y * 4096))
      else A % 2 ^ 32) = (A + 4096 * (x - y)) % 2 ^ 32 := by
  split_ifs with hlt
  · rw [Word.sub_of_le (by omega) hx, ← Nat.sub_mul, Nat.mul_comm, Word.add, Nat.mod_add_mod]
  · rw [Nat.sub_eq_zero_of_le (by omega), Nat.mul_zero, Nat.add_zero]

/-- `total_pgs` is the number of region pages modulo `2^20`. -/
theorem RegionsOk.totalPgsOf_eq (h : RegionsOk regions) :
    totalPgsOf regions (s * 4096) (e * 4096) = regionPages regions s e % 2 ^ 20 := by
  have hfold : ∀ A, regions.foldl (fun acc region =>
      let overlapStart := max region.base (s * 4096)
      let overlapEnd := min (Word.add 64 region.base region.len) (e * 4096)
      if overlapEnd > overlapStart then Word.add 32 acc (Word.sub 64 overlapEnd overlapStart) else acc)
      (A % 2 ^ 32) = (A + 4096 * regionPages regions s e) % 2 ^ 32 := by
    induction regions with
    | nil =>
      intro A
      rw [regionPages_nil]
      rfl
    | cons r rest ih =>
      intro A
      obtain ⟨b, l, hb, hl⟩ := h.pages List.mem_cons_self
      have hw : r.base + r.len < 2 ^ 64 := h.noWrap r List.mem_cons_self
      have hend : Word.add 64 (b * 4096) (l * 4096) = (b + l) * 4096 := by
        rw [← hb, ← hl, Word.add_of_lt hw, hb, hl, Nat.add_mul]
      have hlt : min (b + l) e * 4096 < 2 ^ 64 := by
        have := Nat.mul_le_mul_right 4096 (min_le_left (b + l) e)
        rw [hb, hl, ← Nat.add_mul] at hw
        exact this.trans_lt hw
      rw [List.foldl_cons, h.regionPages_cons hb hl]
      rw [hb, hl, hend, Nat.mul_max_mul_right, Nat.mul_min_mul_right, addOverlap_eq hlt,
        ih (h.sublist (List.sublist_cons_self r rest)), Nat.mul_add, Nat.add_assoc]
  have hbytes := hfold 0
  rw [Nat.zero_mod, Nat.zero_add] at hbytes
  rw [totalPgsOf, hbytes, pgSzBits_eq, Nat.shiftRight_eq_div_pow]
  omega

end Count

/-- What the constructor is meant to establish: the usable pages of the range are those of the regions, and
`total_pgs` is their number. -/
structure ConstructExact (t : PageFrameTable) (mem : PfdMem) (a : SimplePFA) (s e : ℕ) : Prop where
  usable : ∀ j, s ≤ j → j < e → (t.freeAt mem j = true ↔ InRegion t.usableRegions j)
  total : a.totalPgs = countIn (t.freeAt mem) s e

section Construct
variable {t : PageFrameTable} {others : List (ℕ × ℕ)} {mem0 mem : PfdMem} {a : SimplePFA} {s e : ℕ}

section
variable (hok : RegionsOk t.usableRegions) (he : t.slot e < 2 ^ 32)
include hok he

/-- A page of the range is usable unless the marking loop has met it in front of a region. -/
theorem SimplePFA.construct_freeAt (h : construct t others mem0 (s * 4096) (e * 4096) = some (mem, a)) {j : ℕ}
    (hsj : s ≤ j) (hje : j < e) :
    t.freeAt mem j = true ↔ ¬ InGap (reachedRegions (s * 4096) t.usableRegions) j := by
  rw [PageFrameTable.freeAt, construct_slot hok he h hsj hje]
  simp [PageFrameDescriptor.usable]

/-- The usable pages are those of the regions just when the range does not begin inside a region that is
followed by another. -/
theorem SimplePFA.construct_usable_iff (hend : e * 4096 ≤ t.memLimit)
    (h : construct t others mem0 (s * 4096) (e * 4096) = some (mem, a)) :
    (∀ j, s ≤ j → j < e → (t.freeAt mem j = true ↔ InRegion t.usableRegions j)) ↔
      ¬ StartCut t.usableRegions (s * 4096) := by
  have hlt : s < e := by
    have := (construct_range h).1
    omega
  constructor
  · intro hall hcut
    obtain ⟨hgap, hin⟩ := hok.inGap_of_cut hcut
    exact (construct_freeAt hok he h le_rfl hlt).mp ((hall s le_rfl hlt).mpr hin) hgap
  · intro hcut j hsj hje
    have hL : memLimitOf t.usableRegions = some t.memLimit := by
      unfold PageFrameTable.memLimit at hend ⊢
      cases hL : memLimitOf t.usableRegions with
      | none =>
        rw [hL, Option.getD_none] at hend
        omega
      | some L => rfl
    have hpage : (j + 1) * 4096 ≤ t.memLimit := (Nat.mul_le_mul_right _ hje).trans hend
    rw [construct_freeAt hok he h hsj hje, hok.inGap_iff hL hcut hsj hpage, not_not]

theorem SimplePFA.construct_totalPgs (h : construct t others mem0 (s * 4096) (e * 4096) = some (mem, a)) :
    a.totalPgs = regionPages t.usableRegions s e % 2 ^ 20 := by
  rw [(construct_eq he h).1]
  exact hok.totalPgsOf_eq

end

theorem countIn_freeAt (h : ∀ j, s ≤ j → j < e → (t.freeAt mem j = true ↔ InRegion t.usableRegions j)) :
    countIn (t.freeAt mem) s e = regionPages t.usableRegions s e := by
  apply countIn_congr
  intro j hsj hje
  rw [Bool.eq_iff_iff, decide_eq_true_iff]
  exact h j hsj hje

/-- The constructor is right just when the range does not begin inside a region that is followed by
another, and has fewer than `2^20` region pages. -/
theorem SimplePFA.constructExact_iff (hok : RegionsOk t.usableRegions) (he : t.slot e < 2 ^ 32)
    (hend : e * 4096 ≤ t.memLimit)
    (h : SimplePFA.construct t others mem0 (s * 4096) (e * 4096) = some (mem, a)) :
    ConstructExact t mem a s e ↔
      ¬ StartCut t.usableRegions (s * 4096) ∧ regionPages t.usableRegions s e < 2 ^ 20 := by
  have hmarks := SimplePFA.construct_usable_iff hok he hend h
  have htotal := SimplePFA.construct_totalPgs hok he h
  constructor
  · rintro ⟨husable, hpgs⟩
    rw [htotal, countIn_freeAt husable] at hpgs
    exact ⟨hmarks.mp husable, by omega⟩
  · rintro ⟨hcut, hfew⟩
    have husable := hmarks.mpr hcut
    exact ⟨husable, by rw [htotal, countIn_freeAt husable, Nat.mod_eq_of_lt hfew]⟩

end Construct

theorem sixteenTable_regionsOk : RegionsOk sixteenTable.usableRegions :=
  ⟨by simp [sixteenTable, MmEntry.NoWrap], by simp [sixteenTable], by simp [sixteenTable]⟩

/-- A range that begins in the middle of the last region. -/
theorem sixteenTable_constructExact :
    ∃ mem a, SimplePFA.construct sixteenTable [] (fun _ => {}) (4 * 4096) (16 * 4096) = some (mem, a) ∧
      ConstructExact sixteenTable mem a 4 16 := by
  have hsome : (SimplePFA.construct sixteenTable [] (fun _ => {}) (4 * 4096) (16 * 4096)).isSome := by
    decide +kernel
  obtain ⟨⟨mem, a⟩, h⟩ := Option.isSome_iff_exists.mp hsome
  refine ⟨mem, a, h, ?_⟩
  apply (SimplePFA.constructExact_iff sixteenTable_regionsOk (by decide +kernel) (by decide +kernel) h).mpr
  refine ⟨?_, by decide +kernel⟩
  rintro ⟨q, hq, r, hr, -, -, hle⟩
  obtain rfl := List.mem_singleton.mp hr
  exact absurd hle (by decide)

def gapMap : List MmEntry := [⟨0, 16384, .usable, 0⟩, ⟨24576, 8192, .usable, 0⟩]

def gapTable : PageFrameTable := ⟨24576, gapMap, ⟨hhdmStart, 8⟩, 24576⟩

def gapPfa : PfdMem × SimplePFA :=
  (SimplePFA.construct gapTable [] (fun _ => {}) 8192 gapTable.memLimit).get (by decide +kernel)

/-- The third and fourth page are marked unusable although they are usable, and still counted. -/
theorem gapTable_construct_wrong :
    PageFrameTable.construct insertionSort gapMap (some ⟨hhdmStart, 8⟩) = some gapTable ∧
      SimplePFA.construct gapTable [] (fun _ => {}) 8192 gapTable.memLimit = some gapPfa ∧
      RegionsOk gapTable.usableRegions ∧ gapTable.memLimit = 8 * 4096 ∧
      InRegion gapTable.usableRegions 2 ∧ gapTable.freeAt gapPfa.1 2 = false ∧
      (gapPfa.2.totalPgs, countIn (gapTable.freeAt gapPfa.1) 2 8) = (4, 2) := by
  refine ⟨by decide +kernel, (Option.some_get (by decide +kernel)).symm, ?_, by decide +kernel,
    by decide +kernel, by decide +kernel, by decide +kernel⟩
  exact ⟨by simp [gapTable, gapMap, MmEntry.NoWrap], by simp [gapTable, gapMap],
    by simp [gapTable, gapMap]⟩

end HmmOS.Mm
