import HmmOS.Mm.NormalizeExact

/-! # Overlaps that `normalize_mm` does not see

The overlap check compares neighbours of the sorted map and lets a usable entry overlap
a bootloader-reclaimable one. Another overlap can hide behind such a pair.
-/
namespace HmmOS.Mm
open Lib Util.Algorithm

/-- Memory that is never free: reserved, ACPI or bad. -/
def MmType.isUnavailable : MmType → Bool
  | .reserved | .acpiReclaimable | .acpiNvs | .badMem => true
  | _ => false

structure RegionsSafe (mm regions : List MmEntry) : Prop where
  disjoint : regions.Pairwise MmEntry.Apart
  available : ∀ r ∈ regions, ∀ f ∈ mm, f.type.isUnavailable → r.Apart f

/-- In the map as the overlap check finds it, no two usable entries grant the same page, and none grants a
page of unavailable memory. -/
structure PiecesSafe (mm split : List MmEntry) : Prop where
  once : ∀ (j k : ℕ) (e1 e2 : MmEntry), j ≠ k → split[j]? = some e1 → split[k]? = some e2 →
    e1.type = .usable → e2.type = .usable → ∀ p, e1.Grants p → ¬ e2.Grants p
  available : ∀ e ∈ split, e.type = .usable → ∀ p, e.Grants p → ∀ f ∈ mm, f.type.isUnavailable →
    (pageEntry p).Apart f

/-- No bootloader entry cuts into page `p`. -/
def Uncut (mm : List MmEntry) (p : ℕ) : Prop :=
  ∀ b ∈ mm, b.type = .bootloader → (pageEntry p).Separate b

structure PagesSafe (mm : List MmEntry) : Prop where
  once : ∀ (j k : ℕ) (u1 u2 : MmEntry), j ≠ k → mm[j]? = some u1 → mm[k]? = some u2 →
    u1.type = .usable → u2.type = .usable → ∀ p, Uncut mm p → (pageEntry p).Within u1 →
    ¬ (pageEntry p).Within u2
  available : ∀ u ∈ mm, u.type = .usable → ∀ p, Uncut mm p → (pageEntry p).Within u →
    ∀ f ∈ mm, f.type.isUnavailable → (pageEntry p).Apart f

/-- Every bootloader entry meets at most one usable entry. -/
def OneUsable (mm : List MmEntry) : Prop :=
  ∀ (j k : ℕ) (b u1 u2 : MmEntry), b ∈ mm → b.type = .bootloader → mm[j]? = some u1 →
    u1.type = .usable → mm[k]? = some u2 → u2.type = .usable → ¬ b.Separate u1 → ¬ b.Separate u2 → j = k

section Pieces
variable {s : StdSort} {mm mm' split : List MmEntry} {n : ℕ} {e e1 e2 f : MmEntry}

theorem align_apart_align (h1 : e1.NoWrap) (h2 : e2.NoWrap) :
    e1.align.Apart e2.align ↔ ∀ p, e1.Grants p → ¬ e2.Grants p := by
  constructor
  · intro hap p hp1 hp2
    have hdiv : p * 4096 / 4096 = p := Nat.mul_div_cancel p (by decide)
    apply hap (p * 4096)
    · rw [align_covers_iff h1, hdiv]
      exact hp1
    · rw [align_covers_iff h2, hdiv]
      exact hp2
  · intro hall x hx1 hx2
    exact hall (x / 4096) ((align_covers_iff h1 x).mp hx1) ((align_covers_iff h2 x).mp hx2)

theorem align_apart (hw : e.NoWrap) : e.align.Apart f ↔ ∀ p, e.Grants p → (pageEntry p).Apart f := by
  constructor
  · intro hap p hp x hx
    obtain ⟨hlo, hhi⟩ := pageEntry_covers.mp hx
    have hdiv : x / 4096 = p := by omega
    apply hap x
    rw [align_covers_iff hw, hdiv]
    exact hp
  · intro hall x hx
    have hp := (align_covers_iff hw x).mp hx
    exact hall (x / 4096) hp x (pageEntry_covers.mpr ⟨by omega, by omega⟩)

theorem regionsSafe_iff (hw : ∀ e ∈ split, e.NoWrap)
    (hs : splitBootloader (List.range mm.length) mm = some split) (h : normalizeMm s mm = some (mm', n)) :
    RegionsSafe mm (mm'.take n) ↔ PiecesSafe mm split := by
  have hsymm : ∀ r1 r2 : MmEntry, r1.Apart r2 → r2.Apart r1 := fun _ _ => MmEntry.Apart.symm
  constructor
  · rintro ⟨hdisj, hfree⟩
    constructor
    · intro j k e1 e2 hne h1 h2 ht1 ht2 p hp1 hp2
      have hw1 := hw e1 (List.mem_of_getElem? h1)
      have hw2 := hw e2 (List.mem_of_getElem? h2)
      have hap := slots_of_pairwise ((regions_pairwise hs h hsymm).mp hdisj)
        (fun _ _ hr ht2 ht1 hl2 hl1 => (hr ht1 ht2 hl1 hl2).symm) hne h1 h2 ht1 ht2
        (hp1.align_len_ne hw1) (hp2.align_len_ne hw2)
      exact (align_apart_align hw1 hw2).mp hap p hp1 hp2
    · intro e he ht p hp f hf hfu
      have hmem := (mem_regions hs h).mpr ⟨e, he, ht, hp.align_len_ne (hw e he), rfl⟩
      exact (align_apart (hw e he)).mp (hfree _ hmem f hf hfu) p hp
  · rintro ⟨honce, hfree⟩
    constructor
    · rw [regions_pairwise hs h hsymm, List.pairwise_iff_getElem]
      intro j k hj hk hlt ht1 ht2 _ _
      apply (align_apart_align (hw _ (List.getElem_mem hj)) (hw _ (List.getElem_mem hk))).mpr
      exact honce j k _ _ (Nat.ne_of_lt hlt) (List.getElem?_eq_getElem hj) (List.getElem?_eq_getElem hk) ht1 ht2
    · intro r hr f hf hfu
      obtain ⟨e, he, ht, -, rfl⟩ := (mem_regions hs h).mp hr
      exact (align_apart (hw e he)).mpr fun p hp => hfree e he ht p hp f hf hfu

end Pieces

section Input
variable {mm split : List MmEntry} {owner : ℕ → ℕ} {e u : MmEntry} {j k p : ℕ}

theorem grants_iff (hb : e.base + 4095 < 2 ^ 64) : e.Grants p ↔ (pageEntry p).Within e := by
  rw [pageEntry_within, MmEntry.Grants]
  omega

section
variable (h : SplitTrace mm mm.length split owner)
include h

/-- A page that lies in a piece lies in its owner and is not cut. -/
theorem SplitTrace.page_owner (hone : OneUsable mm) (hk : split[k]? = some e)
    (ht : e.type = .usable) (hp : (pageEntry p).Within e) :
    Uncut mm p ∧ ∃ u, mm[owner k]? = some u ∧ u.type = .usable ∧ (pageEntry p).Within u := by
  obtain ⟨u, hu, hut, hin⟩ := h.inside k e hk ht
  refine ⟨fun b hb hbt => ?_, u, hu, hut, hp.trans hin⟩
  obtain ⟨i, hi⟩ := List.mem_iff_getElem?.mp hb
  rcases h.cut i b (List.getElem?_eq_some_iff.mp hi).1 hi hbt with hall | ⟨j, v, hv, hvt, -, hmeets, hown⟩
  · exact (hall e (List.mem_of_getElem? hk) ht).mono hp
  · by_cases hj : owner k = j
    · exact (hown k e hk ht hj).mono hp
    · -- `b` was cut out of another entry than the owner, so it does not meet the owner
      have hsep : b.Separate u := by
        by_contra hmu
        exact hj (hone _ _ b u v hb hbt hu hut hv hvt hmu hmeets)
      exact hsep.symm.mono (hp.trans hin)

/-- A page that is left of a usable entry lies in a piece of it. -/
theorem SplitTrace.page_piece (hu : mm[j]? = some u) (hut : u.type = .usable) (hcut : Uncut mm p)
    (hp : (pageEntry p).Within u) :
    ∃ k e, split[k]? = some e ∧ e.type = .usable ∧ owner k = j ∧ (pageEntry p).Within e :=
  h.complete j u (pageEntry p) hu hut hp (pageEntry_pos p) fun _ b _ hb hbt =>
    hcut b (List.mem_of_getElem? hb) hbt

theorem SplitTrace.piecesSafe_iff (hone : OneUsable mm) (htop : NoTopPage mm) :
    PiecesSafe mm split ↔ PagesSafe mm := by
  have hgrants : ∀ (k : ℕ) (e : MmEntry), split[k]? = some e → e.type = .usable →
      ∀ p, e.Grants p ↔ (pageEntry p).Within e :=
    fun k e hk ht p => grants_iff (htop.base_lt (h.origin e (List.mem_of_getElem? hk) ht))
  constructor
  · rintro ⟨honce, hfree⟩
    constructor
    · intro j k u1 u2 hne hu1 hu2 hut1 hut2 p hcut hp1 hp2
      obtain ⟨j', e1, hj', ht1, hown1, hin1⟩ := h.page_piece hu1 hut1 hcut hp1
      obtain ⟨k', e2, hk', ht2, hown2, hin2⟩ := h.page_piece hu2 hut2 hcut hp2
      have hne' : j' ≠ k' := by
        rintro rfl
        exact hne (hown1.symm.trans hown2)
      exact honce j' k' e1 e2 hne' hj' hk' ht1 ht2 p ((hgrants j' e1 hj' ht1 p).mpr hin1)
        ((hgrants k' e2 hk' ht2 p).mpr hin2)
    · intro u hu hut p hcut hp f hf hfu
      obtain ⟨j, hj⟩ := List.mem_iff_getElem?.mp hu
      obtain ⟨k, e, hk, ht, -, hin⟩ := h.page_piece hj hut hcut hp
      exact hfree e (List.mem_of_getElem? hk) ht p ((hgrants k e hk ht p).mpr hin) f hf hfu
  · rintro ⟨honce, hfree⟩
    constructor
    · intro j k e1 e2 hne hj hk ht1 ht2 p hp1 hp2
      have hin1 := (hgrants j e1 hj ht1 p).mp hp1
      have hin2 := (hgrants k e2 hk ht2 p).mp hp2
      by_cases hown : owner j = owner k
      · have hsep := h.separate j k e1 e2 hne hown hj hk ht1 ht2
        exact hin2.not_separate (pageEntry_pos p) (hsep.mono hin1)
      · obtain ⟨hcut, u1, hu1, hut1, hpu1⟩ := h.page_owner hone hj ht1 hin1
        obtain ⟨-, u2, hu2, hut2, hpu2⟩ := h.page_owner hone hk ht2 hin2
        exact honce _ _ u1 u2 hown hu1 hu2 hut1 hut2 p hcut hpu1 hpu2
    · intro e he ht p hp f hf hfu
      obtain ⟨k, hk⟩ := List.mem_iff_getElem?.mp he
      obtain ⟨hcut, u, hu, hut, hpu⟩ := h.page_owner hone hk ht ((hgrants k e hk ht p).mp hp)
      exact hfree u (List.mem_of_getElem? hu) hut p hcut hpu f hf hfu

end

end Input

/-- The regions are safe just when the pieces of usable memory are; under two conditions that can be read
off the map itself. -/
theorem normalizeMm_safe_iff {s : StdSort} {mm mm' split : List MmEntry} {n : ℕ}
    (hw : ∀ e ∈ mm, e.NoWrap) (hs : splitBootloader (List.range mm.length) mm = some split)
    (h : normalizeMm s mm = some (mm', n)) :
    (RegionsSafe mm (mm'.take n) ↔ PiecesSafe mm split) ∧
      (OneUsable mm → NoTopPage mm → (RegionsSafe mm (mm'.take n) ↔ PagesSafe mm)) := by
  obtain ⟨owner, htrace⟩ := splitTrace_of_splitBootloader hw hs
  have hregions := regionsSafe_iff (htrace.noWrap hw) hs h
  exact ⟨hregions, fun hone htop => hregions.trans (htrace.piecesSafe_iff hone htop)⟩

theorem bootMap_usable {j : ℕ} {u : MmEntry} (h : bootMap[j]? = some u) (ht : u.type = .usable) :
    j = 0 ∧ u = ⟨0, 65536, .usable, 0⟩ := by
  match j, h with
  | 0, h => exact ⟨rfl, (Option.some.inj h).symm⟩
  | 1, h =>
    obtain rfl := Option.some.inj h
    cases ht
  | 2, h =>
    obtain rfl := Option.some.inj h
    cases ht

/-- With the bootloader cut out, the regions of this map are safe. -/
theorem bootMap_safe : ∃ mm' n, normalizeMm insertionSort bootMap = some (mm', n) ∧
    RegionsSafe bootMap (mm'.take n) := by
  obtain ⟨split, mm', n, hs, -, h, -⟩ := normalizeMm_some bootMap_assumed insertionSort
  have hone : OneUsable bootMap := by
    intro j k b u1 u2 _ _ h1 ht1 h2 ht2 _ _
    rw [(bootMap_usable h1 ht1).1, (bootMap_usable h2 ht2).1]
  have htop : NoTopPage bootMap := by simp [NoTopPage, bootMap]
  have hpages : PagesSafe bootMap := by
    constructor
    · intro j k u1 u2 hne h1 h2 ht1 ht2
      exact absurd ((bootMap_usable h1 ht1).1.trans (bootMap_usable h2 ht2).1.symm) hne
    · intro u hu ht p _ hp f hf hfu
      obtain ⟨j, hj⟩ := List.mem_iff_getElem?.mp hu
      obtain ⟨-, rfl⟩ := bootMap_usable hj ht
      have hsep : (⟨0, 65536, .usable, 0⟩ : MmEntry).Separate f := by
        simp only [bootMap, List.mem_cons, List.not_mem_nil, or_false] at hf
        rcases hf with rfl | rfl | rfl
        · cases hfu
        · cases hfu
        · exact .inl le_rfl
      exact (hsep.mono hp).apart
  exact ⟨mm', n, h, ((normalizeMm_safe_iff bootMap_assumed.noWrap hs h).2 hone htop).mpr hpages⟩

def hiddenMap : List MmEntry :=
  [⟨0, 65536, .usable, 0⟩, ⟨4096, 4096, .bootloaderReclaimable, 0⟩, ⟨12288, 4096, .reserved, 0⟩]

def twiceMap : List MmEntry :=
  [⟨0, 65536, .usable, 0⟩, ⟨4096, 4096, .bootloaderReclaimable, 0⟩, ⟨12288, 4096, .usable, 0⟩]

/-- The reserved page is returned as usable, and the page of two usable entries is returned twice. -/
theorem hiddenMap_unsafe : (∀ e ∈ hiddenMap ++ twiceMap, e.NoWrap) ∧
    normalizeMm insertionSort hiddenMap = some (hiddenMap, 1) ∧
    ¬ RegionsSafe hiddenMap (hiddenMap.take 1) ∧
    normalizeMm insertionSort twiceMap = some ([⟨0, 65536, .usable, 0⟩, ⟨12288, 4096, .usable, 0⟩,
      ⟨4096, 4096, .bootloaderReclaimable, 0⟩], 2) ∧
    ¬ RegionsSafe twiceMap [⟨0, 65536, .usable, 0⟩, ⟨12288, 4096, .usable, 0⟩] := by
  refine ⟨by simp [hiddenMap, twiceMap, MmEntry.NoWrap], by decide +kernel, ?_, by decide +kernel, ?_⟩
  · rintro ⟨-, havail⟩
    have hap := havail ⟨0, 65536, .usable, 0⟩ (by simp [hiddenMap]) ⟨12288, 4096, .reserved, 0⟩
      (by simp [hiddenMap]) rfl
    exact hap 12288 ⟨by decide, by decide⟩ ⟨by decide, by decide⟩
  · rintro ⟨hdisj, -⟩
    have hap := (List.pairwise_cons.mp hdisj).1 ⟨12288, 4096, .usable, 0⟩ (by simp)
    exact hap 12288 ⟨by decide, by decide⟩ ⟨by decide, by decide⟩

end HmmOS.Mm
