import HmmOS.Mm.NormalizeMm
import HmmOS.Mm.PfaRefinement

/-! # Which descriptors the constructor marks

Regions that begin before the range are skipped without moving the cursor, so the loop
sees only the regions that begin inside it.
-/
namespace HmmOS.Mm
open Lib Util.Algorithm

/-- Page `j` lies in front of a region and in none. -/
def InGap (regions : List MmEntry) (j : ℕ) : Prop :=
  (∃ r ∈ regions, j * 4096 < r.base) ∧ ¬ InRegion regions j

instance (regions : List MmEntry) (j : ℕ) : Decidable (InGap regions j) :=
  inferInstanceAs (Decidable ((∃ r ∈ regions, _) ∧ _))

/-- The regions that the constructor's loop does not skip. -/
def reachedRegions (start : ℕ) (regions : List MmEntry) : List MmEntry :=
  regions.filter fun r => decide (start ≤ r.base)

variable {regions : List MmEntry} {s : ℕ} {t : PageFrameTable} {mem : PfdMem} {e : ℕ}

section Regions
variable {rest : List MmEntry} {r : MmEntry} {j : ℕ}

theorem RegionsOk.sublist (h : RegionsOk regions) (hs : rest.Sublist regions) : RegionsOk rest :=
  ⟨fun r hr => h.noWrap r (hs.subset hr), fun r hr => h.aligned r (hs.subset hr), h.sorted.sublist hs⟩

theorem RegionsOk.pages (h : RegionsOk regions) (hr : r ∈ regions) :
    ∃ b l, r.base = b * 4096 ∧ r.len = l * 4096 := by
  obtain ⟨hbase, hlen⟩ := h.aligned r hr
  exact ⟨r.base / 4096, r.len / 4096, by omega, by omega⟩

theorem inRegion_cons :
    InRegion (r :: rest) j ↔ (r.base ≤ j * 4096 ∧ (j + 1) * 4096 ≤ r.base + r.len) ∨ InRegion rest j := by
  simp only [InRegion, List.mem_cons, exists_eq_or_imp]

theorem mem_reachedRegions {start : ℕ} : r ∈ reachedRegions start regions ↔ r ∈ regions ∧ start ≤ r.base := by
  simp [reachedRegions]

/-- In front of a first region at page `b`, every page is in a gap; behind it the other regions decide. -/
theorem RegionsOk.inGap_cons (h : RegionsOk (r :: rest)) {b l : ℕ} (hb : r.base = b * 4096)
    (hl : r.len = l * 4096) : InGap (r :: rest) j ↔ j < b ∨ (b + l ≤ j ∧ InGap rest j) := by
  obtain ⟨hnext, -⟩ := List.pairwise_cons.mp h.sorted
  unfold InGap
  rw [inRegion_cons, hb, hl]
  simp only [List.mem_cons, exists_eq_or_imp, hb]
  rcases lt_or_ge j b with hlt | hge
  · -- later regions begin behind the first one
    have hrest : ¬ InRegion rest j := by
      rintro ⟨q, hq, hbase, -⟩
      have := hnext q hq
      omega
    exact iff_of_true ⟨.inl (by omega), fun hin => hin.elim (by omega) hrest⟩ (.inl hlt)
  · rcases lt_or_ge j (b + l) with hin | hout
    · apply iff_of_false
      · rintro ⟨-, hno⟩
        exact hno (.inl ⟨by omega, by omega⟩)
      · omega
    · have hfirst : ¬ (b * 4096 ≤ j * 4096 ∧ (j + 1) * 4096 ≤ b * 4096 + l * 4096) := by omega
      have hbefore : ¬ j * 4096 < b * 4096 := by omega
      have hlt : ¬ j < b := by omega
      simp only [hfirst, hbefore, hlt, hout, false_or, true_and]

end Regions

/-- A region begins before the address and ends behind it, and another one begins later. -/
def StartCut (regions : List MmEntry) (start : ℕ) : Prop :=
  ∃ q ∈ regions, ∃ r ∈ regions, q.base < start ∧ start < q.base + q.len ∧ start ≤ r.base

section Marks
variable {L : ℕ}

theorem RegionsOk.before (h : RegionsOk regions) {q r : MmEntry} (hq : q ∈ regions) (hr : r ∈ regions)
    (hlt : q.base < r.base) : q.base + q.len ≤ r.base := by
  have hget := List.pairwise_iff_getElem.mp h.sorted
  obtain ⟨i, hi, rfl⟩ := List.getElem_of_mem hq
  obtain ⟨j, hj, rfl⟩ := List.getElem_of_mem hr
  rcases lt_trichotomy i j with hij | rfl | hji
  · exact hget i j hi hj hij
  · omega
  · have := hget j i hj hi hji
    omega

/-- The pages in front of a region are those outside all regions, unless the range begins inside a region
that is followed by another. -/
theorem RegionsOk.inGap_iff (h : RegionsOk regions) (hL : memLimitOf regions = some L)
    (hcut : ¬ StartCut regions (s * 4096)) {j : ℕ} (hsj : s ≤ j) (hj : (j + 1) * 4096 ≤ L) :
    InGap (reachedRegions (s * 4096) regions) j ↔ ¬ InRegion regions j := by
  constructor
  · rintro ⟨⟨q, hq, -⟩, hout⟩ ⟨r, hr, hbase, hend⟩
    by_cases hreached : s * 4096 ≤ r.base
    · exact hout ⟨r, mem_reachedRegions.mpr ⟨hr, hreached⟩, hbase, hend⟩
    · obtain ⟨hq, hle⟩ := mem_reachedRegions.mp hq
      exact hcut ⟨r, hr, q, hq, by omega, by omega, hle⟩
  · intro hout
    constructor
    · -- the last region ends behind the page, so it begins behind it as well
      obtain ⟨q, hlast, hqL⟩ := Option.map_eq_some_iff.mp hL
      have hq : q ∈ regions := List.mem_of_getLast? hlast
      rw [Word.add_of_lt (h.noWrap q hq)] at hqL
      have hbase : j * 4096 < q.base := by
        by_contra hle
        exact hout ⟨q, hq, by omega, by omega⟩
      exact ⟨q, mem_reachedRegions.mpr ⟨hq, (Nat.mul_le_mul_right _ hsj).trans hbase.le⟩, hbase⟩
    · rintro ⟨r, hr, hpage⟩
      exact hout ⟨r, (mem_reachedRegions.mp hr).1, hpage⟩

/-- The first page of a range that begins inside a region is taken for a gap if another region follows. -/
theorem RegionsOk.inGap_of_cut (h : RegionsOk regions) (hcut : StartCut regions (s * 4096)) :
    InGap (reachedRegions (s * 4096) regions) s ∧ InRegion regions s := by
  obtain ⟨q, hq, r, hr, hbase, hend, hle⟩ := hcut
  have hpage : InRegion regions s := by
    obtain ⟨b, l, hb, hl⟩ := h.pages hq
    refine ⟨q, hq, by omega, ?_⟩
    rw [hb, hl, ← Nat.add_mul] at hend ⊢
    exact Nat.mul_le_mul_right _ (by omega)
  refine ⟨⟨⟨r, mem_reachedRegions.mpr ⟨hr, hle⟩, ?_⟩, ?_⟩, hpage⟩
  · have := h.before hq hr (by omega)
    omega
  · rintro ⟨r', hr', hbase', -⟩
    obtain ⟨hr', hle'⟩ := mem_reachedRegions.mp hr'
    have := h.before hq hr' (by omega)
    omega

end Marks

/-- One gap: the cursor moves to the region or the end of the range, over descriptors that are marked. -/
theorem markGap_spec {b i fuel : ℕ} (he : t.slot e < 2 ^ 32) (hfuel : b ≤ i + fuel) :
    (∃ c, (markGap t (b * 4096) (e * 4096) fuel mem (i * 4096)).2 = c * 4096 ∧ i ≤ c ∧
      (c = i ∨ c ≤ b) ∧ (b ≤ c ∨ e ≤ c)) ∧
    ∀ j, (markGap t (b * 4096) (e * 4096) fuel mem (i * 4096)).1 (t.slot j) =
      if i ≤ j ∧ j < b ∧ j < e then { mem (t.slot j) with unusable := true } else mem (t.slot j) := by
  induction fuel generalizing mem i with
  | zero =>
    refine ⟨⟨i, rfl, le_rfl, .inl rfl, .inl (by omega)⟩, fun j => ?_⟩
    rw [if_neg (by omega)]
    rfl
  | succ fuel ih =>
    rw [markGap]
    by_cases hi : i < b ∧ i < e
    · have hslot : t.slot i < 2 ^ 32 := (slot_lt_slot.mpr hi.2).trans he
      have hnext : Word.add 64 (i * 4096) pgSz = (i + 1) * 4096 := by
        simp only [PageFrameTable.slot, pfdSz_eq] at hslot
        rw [pgSz_eq, Word.add_of_lt (by omega)]
        omega
      rw [if_pos (by omega), hnext, getPfd_slot hslot]
      obtain ⟨⟨c, hc, hic, hcb, hend⟩, hmem⟩ :=
        @ih (Function.update mem (t.slot i) { mem (t.slot i) with unusable := true }) (i + 1) (by omega)
      refine ⟨⟨c, hc, by omega, .inr (by omega), hend⟩, fun j => ?_⟩
      rw [hmem j]
      by_cases hj : j = i
      · subst hj
        rw [if_neg (by omega), if_pos (by omega), Function.update_self]
      · rw [Function.update_of_ne fun hc => hj (slot_inj hc)]
        exact if_congr (by omega) rfl rfl
    · rw [if_neg (by omega)]
      refine ⟨⟨i, rfl, le_rfl, .inl rfl, by omega⟩, fun j => ?_⟩
      rw [if_neg (by omega)]

theorem markUnusable_reached (regions : List MmEntry) (start end_ it : ℕ) :
    markUnusable t start end_ regions mem it =
      markUnusable t start end_ (reachedRegions start regions) mem it := by
  induction regions generalizing mem it with
  | nil => rfl
  | cons r rest ih =>
    unfold reachedRegions at ih ⊢
    by_cases hr : r.base < start
    · rw [markUnusable, if_pos hr, List.filter_cons_of_neg (by simpa using hr), ih]
    · rw [List.filter_cons_of_pos (by simpa using hr), markUnusable, markUnusable, if_neg hr, if_neg hr]
      dsimp only
      rw [ih]

/-- The loop over regions none of which is skipped marks the gaps from the cursor on. -/
theorem markUnusable_slot {regions : List MmEntry} {start i : ℕ} (hok : RegionsOk regions)
    (he : t.slot e < 2 ^ 32) (hstart : ∀ r ∈ regions, start ≤ r.base)
    (hi : ∀ r ∈ regions, i * 4096 ≤ r.base) (j : ℕ) :
    markUnusable t start (e * 4096) regions mem (i * 4096) (t.slot j) =
      if i ≤ j ∧ j < e ∧ InGap regions j then { mem (t.slot j) with unusable := true }
      else mem (t.slot j) := by
  induction regions generalizing mem i with
  | nil =>
    rw [if_neg (by simp [InGap])]
    rfl
  | cons r rest ih =>
    obtain ⟨b, l, hb, hl⟩ := hok.pages List.mem_cons_self
    have hrest := hok.sublist (List.sublist_cons_self r rest)
    have hib : i ≤ b := by
      have := hi r List.mem_cons_self
      omega
    have hend : r.base + r.len = (b + l) * 4096 := by rw [hb, hl, Nat.add_mul]
    have hnext : Word.add 64 (b * 4096) r.len = (b + l) * 4096 := by
      rw [← hb, Word.add_of_lt (hok.noWrap r List.mem_cons_self), hend]
    have hafter : ∀ q ∈ rest, (b + l) * 4096 ≤ q.base :=
      fun q hq => hend ▸ (List.pairwise_cons.mp hok.sorted).1 q hq
    have hgap := hok.inGap_cons (j := j) hb hl
    obtain ⟨⟨c, hc, hic, hcb, hstops⟩, hmem⟩ := @markGap_spec t mem e b i r.base he (by omega)
    rw [← hb] at hc hmem
    rw [markUnusable, if_neg (Nat.not_lt.mpr (hstart r List.mem_cons_self))]
    rw [hc]
    by_cases hstop : e ≤ c
    · -- the end of the range comes before the region
      have hiff : i ≤ j ∧ j < b ∧ j < e ↔ i ≤ j ∧ j < e ∧ InGap (r :: rest) j := by
        rw [hgap]
        omega
      rw [if_pos (Nat.mul_le_mul_right _ hstop), hmem j]
      exact if_congr hiff rfl rfl
    · obtain rfl : c = b := by omega
      rw [if_neg (by omega), hnext, ih hrest (fun q hq => hstart q (List.mem_cons_of_mem r hq)) hafter, hmem j]
      by_cases hj : i ≤ j ∧ j < c ∧ j < e
      · rw [if_neg (by omega), if_pos hj, if_pos ⟨hj.1, hj.2.2, hgap.mpr (.inl hj.2.1)⟩]
      · have hiff : c + l ≤ j ∧ j < e ∧ InGap rest j ↔ i ≤ j ∧ j < e ∧ InGap (r :: rest) j := by
          rw [hgap]
          by_cases hg : InGap rest j
          · simp only [hg, and_true]
            omega
          · simp only [hg, and_false, or_false, false_iff]
            omega
        rw [if_neg hj]
        exact if_congr hiff rfl rfl

theorem zero_slot {s j : ℕ} (he : t.slot e < 2 ^ 32) (hsj : s ≤ j) (hje : j < e) :
    mem.zero (t.slot s) (t.slot e) (t.slot j) = {} := by
  simp only [PageFrameTable.slot, pfdSz_eq] at he
  rw [PfdMem.zero, if_pos]
  simp only [PageFrameTable.slot, pfdSz_eq]
  rw [Word.sub_of_le (by omega) (by omega), Word.sub_of_le (by omega) he]
  omega

section Construct
variable {others : List (ℕ × ℕ)} {mem0 : PfdMem} {a : SimplePFA} {start end_ : ℕ}

theorem SimplePFA.construct_range (h : SimplePFA.construct t others mem0 start end_ = some (mem, a)) :
    start < end_ ∧ start % 4096 = 0 ∧ end_ % 4096 = 0 := by
  rw [SimplePFA.construct] at h
  split_ifs at h with hlt
  obtain ⟨mem', hreg, -⟩ := Option.map_eq_some_iff.mp h
  rw [PageFrameTable.registerAllocator] at hreg
  split_ifs at hreg with halign _
  exact ⟨hlt, pgAligned_iff.mp halign.1, pgAligned_iff.mp halign.2⟩

/-- The allocator that is constructed, and the loops that prepare the descriptors. -/
theorem SimplePFA.construct_eq (he : t.slot e < 2 ^ 32)
    (h : SimplePFA.construct t others mem0 (s * 4096) (e * 4096) = some (mem, a)) :
    a = ⟨s * 4096, e * 4096, t.slot s, t.slot e, totalPgsOf t.usableRegions (s * 4096) (e * 4096), t.slot s, 0⟩ ∧
      mem = markUnusable t (s * 4096) (e * 4096) t.usableRegions (mem0.zero (t.slot s) (t.slot e)) (s * 4096) := by
  obtain ⟨hlt, -, -⟩ := SimplePFA.construct_range h
  have hs : t.slot s < 2 ^ 32 := (slot_lt_slot.mpr (by omega)).trans he
  rw [SimplePFA.construct, if_neg (not_not.mpr hlt), PageFrameTable.registerAllocator] at h
  split_ifs at h
  · cases h
  · rw [getPfd_slot hs, getPfd_slot he, Option.map_some, Option.some.injEq] at h
    cases h
    exact ⟨rfl, rfl⟩
  · cases h

theorem SimplePFA.construct_owns (he : t.slot e < 2 ^ 32) (hsize : pfdSz * e < 2 ^ 31)
    (h : SimplePFA.construct t others mem0 (s * 4096) (e * 4096) = some (mem, a)) : a.Owns t s e := by
  have hlt := (SimplePFA.construct_range h).1
  rw [(SimplePFA.construct_eq he h).1]
  exact ⟨rfl, rfl, rfl, rfl, he, hsize, s, le_rfl, by omega, rfl⟩

/-- The descriptors of its range: those of pages in front of a region that is not skipped are marked, the
others are cleared. -/
theorem SimplePFA.construct_slot (hok : RegionsOk t.usableRegions) (he : t.slot e < 2 ^ 32)
    (h : SimplePFA.construct t others mem0 (s * 4096) (e * 4096) = some (mem, a)) {j : ℕ} (hsj : s ≤ j)
    (hje : j < e) : mem (t.slot j) = ⟨false, decide (InGap (reachedRegions (s * 4096) t.usableRegions) j)⟩ := by
  have hreached : RegionsOk (reachedRegions (s * 4096) t.usableRegions) := hok.sublist List.filter_sublist
  have hstart : ∀ r ∈ reachedRegions (s * 4096) t.usableRegions, s * 4096 ≤ r.base :=
    fun r hr => (mem_reachedRegions.mp hr).2
  rw [(SimplePFA.construct_eq he h).2, markUnusable_reached, markUnusable_slot hreached he hstart hstart,
    zero_slot he hsj hje]
  by_cases hg : InGap (reachedRegions (s * 4096) t.usableRegions) j
  · rw [if_pos ⟨hsj, hje, hg⟩, decide_eq_true hg]
  · rw [if_neg fun hc => hg hc.2.2, decide_eq_false hg]

end Construct

end HmmOS.Mm
