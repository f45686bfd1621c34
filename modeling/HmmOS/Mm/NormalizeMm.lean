import HmmOS.Mm.BootloaderSplit

/-! # What normalising the memory map guarantees

The map is read as sets of bytes.
-/
namespace HmmOS.Mm
open Lib Util.Algorithm

def MmEntry.IsBoot (e : MmEntry) : Prop :=
  e.type = .bootloader ∨ e.type = .bootloaderReclaimable

/-- No entry wraps, entries other than the bootloader's do not overlap, and each of the bootloader's lies
inside a usable entry. -/
structure DocumentedMap (mm : List MmEntry) : Prop where
  noWrap : ∀ e ∈ mm, e.NoWrap
  apart : mm.Pairwise (fun e1 e2 => ¬ e1.IsBoot → ¬ e2.IsBoot → e1.Apart e2)
  contained : ∀ e ∈ mm, e.IsBoot → ∃ u ∈ mm, u.type = .usable ∧
    u.base ≤ e.base ∧ e.base + e.len ≤ u.base + u.len

/-- Page `p` lies wholly inside one usable entry and outside every bootloader entry. -/
def UsablePage (mm : List MmEntry) (p : ℕ) : Prop :=
  (∃ u ∈ mm, u.type = .usable ∧ u.base ≤ p * 4096 ∧ (p + 1) * 4096 ≤ u.base + u.len) ∧
    ∀ b ∈ mm, b.type = .bootloader → ∀ x, p * 4096 ≤ x → x < (p + 1) * 4096 → ¬ b.Covers x

/-- What holds of the map `mm` after the entries below `i` of the firmware map `mm0` have been
visited. -/
structure SplitInv (mm0 : List MmEntry) (i : ℕ) (mm : List MmEntry) : Prop where
  length : mm.length = mm0.length
  noWrap : ∀ e ∈ mm, e.NoWrap
  kept : ∀ (j : ℕ) (e : MmEntry), mm[j]? = some e → e.type ≠ .usable → mm0[j]? = some e
  ahead : ∀ (j : ℕ) (b : MmEntry), i ≤ j → mm0[j]? = some b → b.type = .bootloader → mm[j]? = some b
  inside : ∀ e ∈ mm, e.type = .usable → ∃ u ∈ mm0, u.type = .usable ∧
    u.base ≤ e.base ∧ e.base + e.len ≤ u.base + u.len
  origin : ∀ e ∈ mm, e.type = .usable → (∃ u ∈ mm0, u.type = .usable ∧ e.base = u.base) ∨
    ∃ b ∈ mm0, b.type = .bootloader ∧ e.base = b.base + b.len
  apart : ∀ (j k : ℕ) (e1 e2 : MmEntry), j ≠ k → mm[j]? = some e1 → mm[k]? = some e2 → e1.type = .usable →
    e2.type = .usable → e1.Apart e2
  cut : ∀ (k : ℕ) (b : MmEntry), k < i → mm0[k]? = some b → b.type = .bootloader →
    ∀ e ∈ mm, e.type = .usable → e.Apart b

variable {e : MmEntry} {mm mm' mm0 : List MmEntry} {s : StdSort}

theorem slots_of_pairwise {R : MmEntry → MmEntry → Prop} (h : mm.Pairwise R)
    (hsymm : ∀ e1 e2, R e1 e2 → R e2 e1) {j k : ℕ} {e1 e2 : MmEntry} (hne : j ≠ k)
    (h1 : mm[j]? = some e1) (h2 : mm[k]? = some e2) : R e1 e2 := by
  obtain ⟨hj, rfl⟩ := List.getElem?_eq_some_iff.mp h1
  obtain ⟨hk, rfl⟩ := List.getElem?_eq_some_iff.mp h2
  have hget := List.pairwise_iff_getElem.mp h
  rcases Nat.lt_or_gt_of_ne hne with hlt | hlt
  · exact hget j k hj hk hlt
  · exact hsymm _ _ (hget k j hk hj hlt)

theorem DocumentedMap.apart_slots (h : DocumentedMap mm) {j k : ℕ} {e1 e2 : MmEntry} (hne : j ≠ k)
    (h1 : mm[j]? = some e1) (h2 : mm[k]? = some e2) (hb1 : ¬ e1.IsBoot) (hb2 : ¬ e2.IsBoot) : e1.Apart e2 :=
  slots_of_pairwise h.apart (fun _ _ hr hb1 hb2 => (hr hb2 hb1).symm) hne h1 h2 hb1 hb2

theorem MmEntry.not_isBoot (h : e.type = .usable) : ¬ e.IsBoot := by
  simp [MmEntry.IsBoot, h]

/-- Usable entries of a documented map are apart, and so are their pieces. -/
theorem SplitTrace.splitInv {i : ℕ} {owner : ℕ → ℕ} (h : SplitTrace mm0 i mm owner)
    (hd : DocumentedMap mm0) : SplitInv mm0 i mm where
  length := h.length
  noWrap := h.noWrap hd.noWrap
  kept := h.kept
  ahead := h.ahead
  inside := by
    intro e he ht
    obtain ⟨k, hk⟩ := List.mem_iff_getElem?.mp he
    obtain ⟨u, hu, hut, hin⟩ := h.inside k e hk ht
    exact ⟨u, List.mem_of_getElem? hu, hut, hin⟩
  origin := h.origin
  apart := by
    intro j k e1 e2 hne h1 h2 ht1 ht2
    by_cases hown : owner j = owner k
    · exact (h.separate j k e1 e2 hne hown h1 h2 ht1 ht2).apart
    · obtain ⟨u1, hu1, hut1, hin1⟩ := h.inside j e1 h1 ht1
      obtain ⟨u2, hu2, hut2, hin2⟩ := h.inside k e2 h2 ht2
      have hap := hd.apart_slots hown hu1 hu2 (MmEntry.not_isBoot hut1) (MmEntry.not_isBoot hut2)
      exact ((hap.mono hin1).symm.mono hin2).symm
  cut := by
    intro k b hk hb hbt e he ht
    rcases h.cut k b hk hb hbt with hall | ⟨j, v, hv, hvt, hbv, -, hown⟩
    · exact (hall e he ht).apart
    · obtain ⟨l, hl⟩ := List.mem_iff_getElem?.mp he
      by_cases hlj : owner l = j
      · exact (hown l e hl ht hlj).apart
      · -- a piece of another usable entry than the one that contains `b`
        obtain ⟨u, hu, hut, hin⟩ := h.inside l e hl ht
        have hap := hd.apart_slots hlj hu hv (MmEntry.not_isBoot hut) (MmEntry.not_isBoot hvt)
        exact ((hap.mono hin).symm.mono hbv).symm

theorem splitInv_of_splitBootloader (h : DocumentedMap mm)
    (hs : splitBootloader (List.range mm.length) mm = some mm') : SplitInv mm mm.length mm' := by
  obtain ⟨owner, htrace⟩ := splitTrace_of_splitBootloader h.noWrap hs
  exact htrace.splitInv h

/-- No usable entry begins, and no bootloader entry ends, in the last page, where rounding up to a page
wraps. -/
def NoTopPage (mm : List MmEntry) : Prop :=
  ∀ e ∈ mm, (e.type = .usable → e.base + 4095 < 2 ^ 64) ∧
    (e.type = .bootloader → e.base + e.len + 4095 < 2 ^ 64)

structure RegionsOk (regions : List MmEntry) : Prop where
  noWrap : ∀ r ∈ regions, r.NoWrap
  aligned : ∀ r ∈ regions, r.base % 4096 = 0 ∧ r.len % 4096 = 0
  sorted : regions.Pairwise (fun r1 r2 => r1.base + r1.len ≤ r2.base)

def InRegion (regions : List MmEntry) (j : ℕ) : Prop :=
  ∃ r ∈ regions, r.base ≤ j * 4096 ∧ (j + 1) * 4096 ≤ r.base + r.len

instance (regions : List MmEntry) (j : ℕ) : Decidable (InRegion regions j) :=
  inferInstanceAs (Decidable (∃ r ∈ regions, _))

def PagesUsable (mm regions : List MmEntry) : Prop :=
  ∀ r ∈ regions, ∀ p, r.base ≤ p * 4096 → (p + 1) * 4096 ≤ r.base + r.len → UsablePage mm p

/-- The pages that an entry gives after alignment: those wholly inside it. Where rounding up the base wraps,
they are all the pages from 0 on. -/
def MmEntry.Grants (e : MmEntry) (p : ℕ) : Prop :=
  (e.base + 4095 < 2 ^ 64 ∧ e.base ≤ p * 4096 ∧ (p + 1) * 4096 ≤ e.base + e.len) ∨
    (2 ^ 64 ≤ e.base + 4095 ∧ (p + 1) * 4096 ≤ 2 ^ 64 - 4096)

theorem align_pages (hw : e.NoWrap) : ∃ lo hi, e.align.base = lo * 4096 ∧ e.align.len = (hi - lo) * 4096 ∧
      ∀ p, e.Grants p ↔ lo ≤ p ∧ p < hi := by
  unfold MmEntry.NoWrap at hw
  by_cases hb : e.base + 4095 < 2 ^ 64
  · refine ⟨(e.base + 4095) / 4096, (e.base + e.len) / 4096, ?_, ?_, fun p => ?_⟩
    · exact ceilPg_eq hb
    · have hfloor : (e.base + e.len) / 4096 * 4096 < 2 ^ 64 := (Nat.div_mul_le_self _ _).trans_lt hw
      simp only [MmEntry.align, Word.add_of_lt hw, floorPg_eq hw, ceilPg_eq hb]
      split_ifs with hlt
      · rw [Word.sub_of_le hlt.le hfloor, Nat.sub_mul]
      · rw [Nat.sub_eq_zero_of_le (by omega), Nat.zero_mul]
    · rw [MmEntry.Grants]
      omega
  · have hceil : ceilPow2 pgSz e.base = 0 := ceilPg_wraps (by omega) (by omega)
    have hend : (e.base + e.len) / 4096 * 4096 = 2 ^ 64 - 4096 := by omega
    refine ⟨0, 2 ^ 52 - 1, ?_, ?_, fun p => ?_⟩
    · rw [MmEntry.align, hceil]
    · simp only [MmEntry.align, Word.add_of_lt hw, floorPg_eq hw, hceil, hend]
      rfl
    · rw [MmEntry.Grants]
      omega

theorem align_covers_iff (hw : e.NoWrap) (x : ℕ) : e.align.Covers x ↔ e.Grants (x / 4096) := by
  obtain ⟨lo, hi, hbase, hlen, hgrants⟩ := align_pages hw
  rw [MmEntry.Covers, hbase, hlen, hgrants, ← Nat.add_mul]
  omega

theorem align_page_iff (hw : e.NoWrap) (p : ℕ) :
    e.align.base ≤ p * 4096 ∧ (p + 1) * 4096 ≤ e.align.base + e.align.len ↔ e.Grants p := by
  obtain ⟨lo, hi, hbase, hlen, hgrants⟩ := align_pages hw
  rw [hbase, hlen, hgrants, ← Nat.add_mul]
  omega

theorem MmEntry.Grants.align_len_ne {p : ℕ} (hw : e.NoWrap) (h : e.Grants p) : e.align.len ≠ 0 := by
  obtain ⟨lo, hi, -, hlen, hgrants⟩ := align_pages hw
  have hp := (hgrants p).mp h
  omega

theorem align_spec (hw : e.NoWrap) (hb : e.base + 4095 < 2 ^ 64) (hl : e.align.len ≠ 0) :
    e.base ≤ e.align.base ∧ e.align.base + e.align.len ≤ e.base + e.len ∧
      e.align.base % 4096 = 0 ∧ e.align.len % 4096 = 0 := by
  obtain ⟨lo, hi, hbase, hlen, hgrants⟩ := align_pages hw
  have hlt : lo < hi := by
    by_contra hge
    rw [hlen, Nat.sub_eq_zero_of_le (Nat.not_lt.mp hge), Nat.zero_mul] at hl
    exact hl rfl
  -- the first and the last page granted lie inside the entry
  have hfirst := (hgrants lo).mpr ⟨le_rfl, hlt⟩
  have hlast := (hgrants (hi - 1)).mpr ⟨by omega, by omega⟩
  rw [MmEntry.Grants] at hfirst hlast
  rw [hbase, hlen, ← Nat.add_mul, Nat.add_sub_of_le hlt.le]
  exact ⟨by omega, by omega, Nat.mul_mod_left _ _, Nat.mul_mod_left _ _⟩

theorem SplitInv.pairwise {i : ℕ} (h : SplitInv mm0 i mm) :
    mm.Pairwise (fun e1 e2 => e1.type = .usable → e2.type = .usable → e1.Apart e2) := by
  rw [List.pairwise_iff_getElem]
  intro j k hj hk hlt
  exact h.apart j k _ _ (by omega) (by simp [hj]) (by simp [hk])

/-- A piece begins where a usable entry began or a bootloader entry ended. -/
theorem NoTopPage.base_lt (ht : NoTopPage mm0) (ho : (∃ u ∈ mm0, u.type = .usable ∧ e.base = u.base) ∨
      ∃ b ∈ mm0, b.type = .bootloader ∧ e.base = b.base + b.len) : e.base + 4095 < 2 ^ 64 := by
  rcases ho with ⟨u, hm, hut, hb⟩ | ⟨b, hm, hbt, hb⟩
  · rw [hb]
    exact (ht u hm).1 hut
  · rw [hb]
    exact (ht b hm).2 hbt

/-- The regions are the non-empty aligned usable entries of the split map, in sorted order. -/
theorem normalizeMm_regions {n : ℕ} (h : normalizeMm s mm = some (mm', n)) :
    ∃ split, splitBootloader (List.range mm.length) mm = some split ∧
      mm'.take n = (((s.sort split).filter (fun e => e.type == .usable)).map MmEntry.align).filter
        (fun e => e.len != 0) := by
  rw [normalizeMm, Option.bind_eq_some_iff] at h
  obtain ⟨split, hs, h⟩ := h
  dsimp only at h
  split_ifs at h with hn
  obtain ⟨rfl, rfl⟩ := h
  refine ⟨split, hs, ?_⟩
  have hle := (FrontSwap.visited_pass (p := fun e : MmEntry => e.len != 0)
    (((FrontSwap.pass (fun e => e.type == .usable) (s.sort split)).1.take
      (FrontSwap.pass (fun e => e.type == .usable) (s.sort split)).2).map MmEntry.align)).count_le
  rw [List.take_append_of_le_length (by rwa [(FrontSwap.pass_perm _).length_eq]),
    FrontSwap.pass_take, FrontSwap.pass_take]

section Regions
variable {s : StdSort} {mm mm' split : List MmEntry} {n : ℕ}
  (hs : splitBootloader (List.range mm.length) mm = some split) (h : normalizeMm s mm = some (mm', n))
include hs h

theorem mem_regions {r : MmEntry} :
    r ∈ mm'.take n ↔ ∃ e ∈ split, e.type = .usable ∧ e.align.len ≠ 0 ∧ e.align = r := by
  obtain ⟨split', hs', hregions⟩ := normalizeMm_regions h
  obtain rfl : split = split' := Option.some.inj (hs.symm.trans hs')
  rw [hregions, List.mem_filter, List.mem_map]
  constructor
  · rintro ⟨⟨e, he, rfl⟩, hl⟩
    obtain ⟨he, ht⟩ := List.mem_filter.mp he
    exact ⟨e, (s.perm split).mem_iff.mp he, by simpa using ht, by simpa using hl, rfl⟩
  · rintro ⟨e, he, ht, hl, rfl⟩
    have hmem : e ∈ (s.sort split).filter (fun e => e.type == .usable) :=
      List.mem_filter.mpr ⟨(s.perm split).mem_iff.mpr he, by simpa using ht⟩
    exact ⟨⟨e, hmem, rfl⟩, by simpa using hl⟩

/-- A symmetric relation holds between any two regions when it holds between the aligned usable pieces. -/
theorem regions_pairwise {R : MmEntry → MmEntry → Prop} (hsymm : ∀ r1 r2, R r1 r2 → R r2 r1) :
    (mm'.take n).Pairwise R ↔ split.Pairwise fun e1 e2 => e1.type = .usable → e2.type = .usable →
      e1.align.len ≠ 0 → e2.align.len ≠ 0 → R e1.align e2.align := by
  obtain ⟨split', hs', hregions⟩ := normalizeMm_regions h
  obtain rfl : split = split' := Option.some.inj (hs.symm.trans hs')
  have hperm := (s.perm split).pairwise_iff
    (R := fun e1 e2 => e1.type = .usable → e2.type = .usable → e1.align.len ≠ 0 → e2.align.len ≠ 0 →
      R e1.align e2.align) fun {e1 e2} hr ht2 ht1 hl2 hl1 => hsymm _ _ (hr ht1 ht2 hl1 hl2)
  rw [hregions, List.pairwise_filter, List.pairwise_map, List.pairwise_filter, ← hperm]
  simp only [beq_iff_eq, bne_iff_ne]

theorem inRegion_iff (hw : ∀ e ∈ split, e.NoWrap) (p : ℕ) :
    InRegion (mm'.take n) p ↔ ∃ e ∈ split, e.type = .usable ∧ e.Grants p := by
  constructor
  · rintro ⟨r, hr, hpage⟩
    obtain ⟨e, he, ht, -, rfl⟩ := (mem_regions hs h).mp hr
    exact ⟨e, he, ht, (align_page_iff (hw e he) p).mp hpage⟩
  · rintro ⟨e, he, ht, hgrants⟩
    have hmem := (mem_regions hs h).mpr ⟨e, he, ht, hgrants.align_len_ne (hw e he), rfl⟩
    exact ⟨e.align, hmem, (align_page_iff (hw e he) p).mpr hgrants⟩

end Regions

theorem normalizeMm_nonempty {n : ℕ} (h : normalizeMm s mm = some (mm', n)) : ∀ r ∈ mm'.take n, 0 < r.len := by
  intro r hr
  rcases normalizeMm_regions h with ⟨split, -, hregions⟩
  rw [hregions] at hr
  simpa [Nat.pos_iff_ne_zero] using (List.mem_filter.mp hr).2

/-- Normalising a documented map gives sorted, disjoint regions of full usable pages. -/
theorem normalizeMm_ok {n : ℕ} (hd : DocumentedMap mm) (ht : NoTopPage mm)
    (h : normalizeMm s mm = some (mm', n)) : RegionsOk (mm'.take n) ∧ PagesUsable mm (mm'.take n) := by
  obtain ⟨split, hs, hr⟩ := normalizeMm_regions h
  have hinv := splitInv_of_splitBootloader hd hs
  have hspec : ∀ e ∈ split, e.type = .usable → e.align.len ≠ 0 →
      e.base ≤ e.align.base ∧ e.align.base + e.align.len ≤ e.base + e.len ∧
        e.align.base % 4096 = 0 ∧ e.align.len % 4096 = 0 :=
    fun e he hu hl => align_spec (hinv.noWrap e he) (ht.base_lt (hinv.origin e he hu)) hl
  refine ⟨⟨?_, ?_, ?_⟩, ?_⟩
  · intro r hm
    obtain ⟨e, he, hu, hl, rfl⟩ := (mem_regions hs h).mp hm
    exact (hspec e he hu hl).2.1.trans_lt (hinv.noWrap e he)
  · intro r hm
    obtain ⟨e, he, hu, hl, rfl⟩ := (mem_regions hs h).mp hm
    exact (hspec e he hu hl).2.2
  · -- sorted by base and sharing no byte, so each piece ends before the next begins
    have hap : (s.sort split).Pairwise
        (fun e1 e2 => e1.type = .usable → e2.type = .usable → e1.Apart e2) :=
      ((s.perm split).pairwise_iff fun {e1 e2} hx h2 h1 => (hx h1 h2).symm).mpr hinv.pairwise
    have hboth : ∀ e1 e2, [e1, e2].Sublist (s.sort split) →
        e1.base ≤ e2.base ∧ (e1.type = .usable → e2.type = .usable → e1.Apart e2) :=
      fun _ _ hsub => List.pairwise_iff_forall_sublist.mp ((s.sorted split).and hap) hsub
    rw [hr, List.pairwise_filter, List.pairwise_map, List.pairwise_filter, List.pairwise_iff_forall_sublist]
    intro e1 e2 hsub hu1 hu2 hl1 hl2
    simp only [beq_iff_eq, bne_iff_ne] at hu1 hu2 hl1 hl2
    obtain ⟨hle, hapart⟩ := hboth e1 e2 hsub
    have hm1 : e1 ∈ split := (s.perm split).mem_iff.mp (hsub.subset (by simp))
    have hm2 : e2 ∈ split := (s.perm split).mem_iff.mp (hsub.subset (by simp))
    have h1 := hspec e1 hm1 hu1 hl1
    have h2 := hspec e2 hm2 hu2 hl2
    have := (hapart hu1 hu2).le hle (by omega)
    omega
  · intro r hm p hp1 hp2
    obtain ⟨e, he, hu, hl, rfl⟩ := (mem_regions hs h).mp hm
    obtain ⟨hb, hend, -⟩ := hspec e he hu hl
    obtain ⟨u, hum, hut, hul, hur⟩ := hinv.inside e he hu
    refine ⟨⟨u, hum, hut, by omega, by omega⟩, fun b hbm hbt x hx1 hx2 => ?_⟩
    obtain ⟨k, hk⟩ := List.mem_iff_getElem?.mp hbm
    have hkl : k < mm.length := (List.getElem?_eq_some_iff.mp hk).1
    exact hinv.cut k b hkl hk hbt e he hu x ⟨by omega, by omega⟩

end HmmOS.Mm
