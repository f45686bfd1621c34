import HmmOS.Mm.SplitProgress
import HmmOS.Mm.PhysMemorySafety

/-! # When `normalize_mm` returns the usable pages

After the cuts only bootloader-reclaimable entries overlap usable ones.
-/
namespace HmmOS.Mm
open Lib Util.Algorithm

/-- Two entries that the check on neighbours lets pass. -/
def MmEntry.Passes (e1 e2 : MmEntry) : Prop :=
  e1.Separate e2 ∨ (e1.type = .bootloaderReclaimable ∧ e2.type = .usable) ∨
    (e1.type = .usable ∧ e2.type = .bootloaderReclaimable)

theorem MmEntry.Passes.symm {e1 e2 : MmEntry} (h : e1.Passes e2) : e2.Passes e1 := by
  rcases h with hsep | h | h
  · exact .inl hsep.symm
  · exact .inr (.inr h.symm)
  · exact .inr (.inl h.symm)

theorem neighboursOk_of_pairwise {l : List MmEntry} (hw : ∀ e ∈ l, e.NoWrap)
    (h : l.Pairwise MmEntry.Passes) : neighboursOk l = true := by
  induction l with
  | nil => rfl
  | cons e1 rest ih =>
    obtain ⟨hall, hrest⟩ := List.pairwise_cons.mp h
    have hok := ih (fun e he => hw e (List.mem_cons_of_mem e1 he)) hrest
    cases rest with
    | nil => rfl
    | cons e2 rest =>
      rw [neighboursOk, hok, Bool.and_true]
      rcases hall e2 List.mem_cons_self with hsep | ⟨ht1, ht2⟩ | ⟨ht1, ht2⟩
      · have hno : e1.overlaps e2 = false := by
          rw [← Bool.not_eq_true, overlaps_iff (hw e1 List.mem_cons_self) (hw e2 (by simp)), not_not]
          exact hsep
        simp [hno]
      · simp [ht1, ht2]
      · simp [ht1, ht2]

variable {mm split : List MmEntry}

theorem SplitAll.passes (h : SplitAll mm mm.length split) (hm : AssumedMap mm) :
    split.Pairwise MmEntry.Passes := by
  obtain ⟨owner, htrace⟩ := h.trace
  have hreclaim : ∀ (k : ℕ) (e : MmEntry), split[k]? = some e → e.IsBoot →
      e.type = .bootloaderReclaimable := by
    intro k e he hboot
    have hk : k < mm.length := htrace.length ▸ (List.getElem?_eq_some_iff.mp he).1
    exact hboot.resolve_left (h.gone k e hk he)
  rw [List.pairwise_iff_getElem]
  intro j k hj hk hlt
  have h1 : split[j]? = some split[j] := List.getElem?_eq_getElem hj
  have h2 : split[k]? = some split[k] := List.getElem?_eq_getElem hk
  have hne : j ≠ k := Nat.ne_of_lt hlt
  by_cases ht1 : split[j].type = .usable
  · by_cases hb2 : split[k].IsBoot
    · exact .inr (.inr ⟨ht1, hreclaim k _ h2 hb2⟩)
    · exact .inl (htrace.separate_usable hm hne h1 h2 ht1 hb2)
  · by_cases ht2 : split[k].type = .usable
    · by_cases hb1 : split[j].IsBoot
      · exact .inr (.inl ⟨hreclaim j _ h1 hb1, ht2⟩)
      · exact .inl (htrace.separate_usable hm (Ne.symm hne) h2 h1 ht2 hb1).symm
    · exact .inl (htrace.separate_others hm hne h1 h2 ht1 ht2)

theorem normalizeMm_count {s : StdSort} {mm' : List MmEntry} {n : ℕ}
    (hs : splitBootloader (List.range mm.length) mm = some split) (hlen : split.length = mm.length)
    (h : normalizeMm s mm = some (mm', n)) : n ≤ mm.length := by
  rw [normalizeMm, hs, Option.bind_some] at h
  dsimp only at h
  split_ifs at h
  cases h
  have hcount := (FrontSwap.visited_pass (p := fun e : MmEntry => e.len != 0)
    (((FrontSwap.pass (fun e => e.type == .usable) (s.sort split)).1.take
      (FrontSwap.pass (fun e => e.type == .usable) (s.sort split)).2).map MmEntry.align)).count_le
  have hperm := (FrontSwap.pass_perm (p := fun e : MmEntry => e.type == .usable) (s.sort split)).length_eq
  rw [List.length_map, List.length_take, hperm, (s.perm split).length_eq, hlen] at hcount
  exact hcount.trans (min_le_right _ _)

theorem normalizeMm_some (hm : AssumedMap mm) (s : StdSort) :
    ∃ split mm' n, splitBootloader (List.range mm.length) mm = some split ∧
      SplitAll mm mm.length split ∧ normalizeMm s mm = some (mm', n) ∧ n ≤ mm.length := by
  obtain ⟨split, hsplit, hall⟩ := (SplitAll.init mm).splitBootloader hm mm.length
  rw [Nat.zero_add] at hall
  rw [← List.range_eq_range'] at hsplit
  obtain ⟨owner, htrace⟩ := hall.trace
  have hw : ∀ e ∈ s.sort split, e.NoWrap :=
    fun e he => htrace.noWrap hm.noWrap e ((s.perm split).mem_iff.mp he)
  have hpasses : (s.sort split).Pairwise MmEntry.Passes :=
    ((s.perm split).pairwise_iff fun {_ _} hp => hp.symm).mpr (hall.passes hm)
  have hok := neighboursOk_of_pairwise hw hpasses
  obtain ⟨⟨mm', n⟩, hres⟩ : ∃ r, normalizeMm s mm = some r := by
    rw [normalizeMm, hsplit, Option.bind_some]
    rw [if_neg (not_not.mpr hok)]
    exact ⟨_, rfl⟩
  exact ⟨split, mm', n, hsplit, hall, hres, normalizeMm_count hsplit htrace.length hres⟩

def Blocked (mm : List MmEntry) (x : ℕ) : Prop := ∃ b ∈ mm, b.type = .bootloader ∧ b.Covers x

/-- The bytes `lo ≤ x < hi` are a maximal piece of the usable entry `u` without bootloader bytes. -/
structure MaximalPiece (mm : List MmEntry) (u : MmEntry) (lo hi : ℕ) : Prop where
  entry : u ∈ mm ∧ u.type = .usable
  inside : u.base ≤ lo ∧ hi ≤ u.base + u.len
  unblocked : ∀ x, lo ≤ x → x < hi → ¬ Blocked mm x
  left : lo = u.base ∨ Blocked mm (lo - 1)
  right : hi = u.base + u.len ∨ Blocked mm hi

section Pieces
variable {B : ℕ → Prop} {a c x : ℕ}

theorem exists_leftmost (h : a ≤ x) :
    ∃ lo, a ≤ lo ∧ lo ≤ x ∧ (∀ y, lo ≤ y → y < x → ¬ B y) ∧ (lo = a ∨ B (lo - 1)) := by
  induction x, h using Nat.le_induction with
  | base => exact ⟨a, le_rfl, le_rfl, fun y hlo hhi => absurd hhi (by omega), .inl rfl⟩
  | succ x hax ih =>
    by_cases hB : B x
    · exact ⟨x + 1, by omega, le_rfl, fun y hlo hhi => absurd hhi (by omega), .inr hB⟩
    · obtain ⟨lo, halo, hlox, hclear, hend⟩ := ih
      refine ⟨lo, halo, by omega, fun y hlo hhi => ?_, hend⟩
      rcases Nat.lt_succ_iff_lt_or_eq.mp hhi with hlt | rfl
      · exact hclear y hlo hlt
      · exact hB

theorem exists_rightmost (h : x ≤ c) :
    ∃ hi, x ≤ hi ∧ hi ≤ c ∧ (∀ y, x ≤ y → y < hi → ¬ B y) ∧ (hi = c ∨ B hi) := by
  obtain ⟨d, rfl⟩ := Nat.exists_eq_add_of_le h
  clear h
  induction d generalizing x with
  | zero => exact ⟨x, le_rfl, le_rfl, fun y hlo hhi => absurd hhi (by omega), .inl rfl⟩
  | succ d ih =>
    by_cases hB : B x
    · exact ⟨x, le_rfl, by omega, fun y hlo hhi => absurd hhi (by omega), .inr hB⟩
    · obtain ⟨hi, hxhi, hhi, hclear, hend⟩ := @ih (x + 1)
      refine ⟨hi, by omega, by omega, fun y hlo hlt => ?_, ?_⟩
      · rcases Nat.eq_or_lt_of_le hlo with rfl | hlo
        · exact hB
        · exact hclear y hlo hlt
      · exact hend.imp_left fun he => by omega

theorem usablePage_iff_maximalPiece (p : ℕ) : UsablePage mm p ↔
      ∃ u lo hi, MaximalPiece mm u lo hi ∧ lo ≤ p * 4096 ∧ (p + 1) * 4096 ≤ hi := by
  constructor
  · rintro ⟨⟨u, hu, ht, hbase, hend⟩, hclear⟩
    obtain ⟨lo, hulo, hlop, hleft, hlo⟩ := exists_leftmost (B := Blocked mm) hbase
    obtain ⟨hi, hphi, hiu, hright, hhi⟩ := exists_rightmost (B := Blocked mm) hend
    refine ⟨u, lo, hi, ⟨⟨hu, ht⟩, ⟨hulo, hiu⟩, fun x hlox hxhi => ?_, hlo, hhi⟩, hlop, hphi⟩
    -- left of the page, on it, or right of it
    rcases lt_or_ge x (p * 4096) with hlt | hge
    · exact hleft x hlox hlt
    · rcases lt_or_ge x ((p + 1) * 4096) with hlt | hge'
      · rintro ⟨b, hb, hbt, hcov⟩
        exact hclear b hb hbt x hge hlt hcov
      · exact hright x hge' hxhi
  · rintro ⟨u, lo, hi, ⟨⟨hu, ht⟩, ⟨hulo, hiu⟩, hclear, -, -⟩, hlop, hphi⟩
    refine ⟨⟨u, hu, ht, hulo.trans hlop, hphi.trans hiu⟩, fun b hb hbt x hx1 hx2 hcov => ?_⟩
    exact hclear x (hlop.trans hx1) (hx2.trans_le hphi) ⟨b, hb, hbt, hcov⟩

/-- A usable page lies in a piece that is left after the cuts. -/
theorem SplitAll.piece_of_usablePage {split : List MmEntry} (h : SplitAll mm mm.length split)
    (hm : AssumedMap mm) {p : ℕ} (hp : UsablePage mm p) :
    ∃ e ∈ split, e.type = .usable ∧ e.base ≤ p * 4096 ∧ (p + 1) * 4096 ≤ e.base + e.len := by
  obtain ⟨⟨u, hu, ht, hbase, hend⟩, hclear⟩ := hp
  obtain ⟨owner, htrace⟩ := h.trace
  obtain ⟨j, hj⟩ := List.mem_iff_getElem?.mp hu
  have hsep : ∀ (k : ℕ) (b : MmEntry), k < mm.length → mm[k]? = some b → b.type = .bootloader →
      (pageEntry p).Separate b := by
    intro k b _ hb hbt
    have hap : (pageEntry p).Apart b := by
      intro x hx
      obtain ⟨hlo, hhi⟩ := pageEntry_covers.mp hx
      exact hclear b (List.mem_of_getElem? hb) hbt x hlo hhi
    exact hap.separate (pageEntry_pos p) (hm.nonempty b (List.mem_of_getElem? hb))
  obtain ⟨k, e, hk, het, -, hin⟩ := htrace.complete j u (pageEntry p) hj ht
    (pageEntry_within.mpr ⟨hbase, hend⟩) (pageEntry_pos p) hsep
  exact ⟨e, List.mem_of_getElem? hk, het, pageEntry_within.mp hin⟩

end Pieces

structure Normalized (mm regions : List MmEntry) : Prop where
  nonempty : ∀ r ∈ regions, 0 < r.len
  aligned : ∀ r ∈ regions, r.base % 4096 = 0 ∧ r.len % 4096 = 0
  sorted : regions.Pairwise fun r1 r2 => r1.base < r2.base
  disjoint : regions.Pairwise MmEntry.Apart
  pages : ∀ p, InRegion regions p ↔
    ∃ u lo hi, MaximalPiece mm u lo hi ∧ lo ≤ p * 4096 ∧ (p + 1) * 4096 ≤ hi

section Exact
variable {mm' : List MmEntry} {s : StdSort} {n : ℕ}

/-- Without a piece in the last page the regions are right. -/
theorem SplitAll.normalized (hall : SplitAll mm mm.length split) (hm : AssumedMap mm) (ht : NoTopPage mm)
    (hs : Mm.splitBootloader (List.range mm.length) mm = some split)
    (h : normalizeMm s mm = some (mm', n)) : Normalized mm (mm'.take n) := by
  obtain ⟨owner, htrace⟩ := hall.trace
  have hinv := htrace.splitInv hm.toDocumentedMap
  obtain ⟨hok, hpages⟩ := normalizeMm_ok hm.toDocumentedMap ht h
  have hpos := normalizeMm_nonempty h
  constructor
  case nonempty => exact hpos
  case aligned => exact hok.aligned
  case sorted =>
    apply hok.sorted.imp_of_mem
    intro r1 r2 hr1 _ hle
    have := hpos r1 hr1
    omega
  case disjoint => exact hok.sorted.imp fun hle => MmEntry.Separate.apart (.inl hle)
  case pages =>
    intro p
    rw [← usablePage_iff_maximalPiece]
    constructor
    · rintro ⟨r, hr, hlo, hhi⟩
      exact hpages r hr p hlo hhi
    · intro hp
      obtain ⟨e, he, het, hpage⟩ := hall.piece_of_usablePage hm hp
      rw [inRegion_iff hs h hinv.noWrap]
      exact ⟨e, he, het, .inl ⟨ht.base_lt (htrace.origin e he het), hpage⟩⟩

/-- A piece that begins in the last page becomes a region over page 0. -/
theorem SplitAll.noTopPage (hall : SplitAll mm mm.length split) (hm : AssumedMap mm)
    (hs : Mm.splitBootloader (List.range mm.length) mm = some split)
    (h : normalizeMm s mm = some (mm', n)) (hn : Normalized mm (mm'.take n)) : NoTopPage mm := by
  obtain ⟨owner, htrace⟩ := hall.trace
  have hw := htrace.noWrap hm.noWrap
  have hpiece : ∀ e ∈ split, e.type = .usable → e.base + 4095 < 2 ^ 64 := by
    intro e he ht
    by_contra htop
    have hgrants : e.Grants 0 := .inr ⟨Nat.not_lt.mp htop, by decide⟩
    have hin := (inRegion_iff hs h hw 0).mpr ⟨e, he, ht, hgrants⟩
    have hpage := (usablePage_iff_maximalPiece 0).mpr ((hn.pages 0).mp hin)
    -- page 0 is also in the region of the piece it really lies in
    obtain ⟨e0, he0, ht0, hlo0, hhi0⟩ := hall.piece_of_usablePage hm hpage
    have hgrants0 : e0.Grants 0 := .inl ⟨by omega, hlo0, hhi0⟩
    obtain ⟨k, hk⟩ := List.mem_iff_getElem?.mp he
    obtain ⟨k0, hk0⟩ := List.mem_iff_getElem?.mp he0
    have hne : k ≠ k0 := by
      rintro rfl
      obtain rfl : e = e0 := Option.some.inj (hk.symm.trans hk0)
      omega
    have hsymm : ∀ r1 r2 : MmEntry, r1.Apart r2 → r2.Apart r1 := fun _ _ => MmEntry.Apart.symm
    have hpieces := (regions_pairwise hs h hsymm).mp hn.disjoint
    have hap := slots_of_pairwise hpieces (fun _ _ hr ht2 ht1 hl2 hl1 => (hr ht1 ht2 hl1 hl2).symm)
      hne hk hk0 ht ht0 (hgrants.align_len_ne (hw e he)) (hgrants0.align_len_ne (hw e0 he0))
    exact hap 0 ((align_covers_iff (hw e he) 0).mpr hgrants)
      ((align_covers_iff (hw e0 he0) 0).mpr hgrants0)
  intro e he
  constructor
  · intro ht
    obtain ⟨e', he', ht', hbase⟩ := hall.begins e he ht
    have := hpiece e' he' ht'
    omega
  · intro hbt
    obtain ⟨k, hk⟩ := List.mem_iff_getElem?.mp he
    obtain ⟨e', he', ht', hbase⟩ := hall.ends k e (List.getElem?_eq_some_iff.mp hk).1 hk hbt
    have := hpiece e' he' ht'
    omega

/-- No assertion fires, and the regions are those that are meant just when no piece begins in the last
page of the address space. -/
theorem normalizeMm_exact_iff (hm : AssumedMap mm) (s : StdSort) :
    (∃ mm' n, normalizeMm s mm = some (mm', n) ∧ n ≤ mm.length ∧ Normalized mm (mm'.take n)) ↔
      NoTopPage mm := by
  obtain ⟨split, mm', n, hs, hall, h, hcount⟩ := normalizeMm_some hm s
  constructor
  · rintro ⟨mm1, n1, h1, -, hn⟩
    exact hall.noTopPage hm hs h1 hn
  · intro ht
    exact ⟨mm', n, h, hcount, hall.normalized hm ht hs h⟩

end Exact

def bootMap : List MmEntry :=
  [⟨0, 65536, .usable, 0⟩, ⟨10240, 4096, .bootloader, 0⟩, ⟨65536, 4096, .reserved, 0⟩]

theorem bootMap_assumed : AssumedMap bootMap where
  noWrap := by simp [bootMap, MmEntry.NoWrap]
  apart := by
    have hap : (⟨0, 65536, .usable, 0⟩ : MmEntry).Apart ⟨65536, 4096, .reserved, 0⟩ :=
      MmEntry.Separate.apart (.inl (by decide))
    simp [bootMap, MmEntry.IsBoot, hap]
  contained := by simp [bootMap, MmEntry.IsBoot]
  nonempty := by simp [bootMap]
  bootApart := by simp [bootMap, MmEntry.IsBoot]

theorem bootMap_normalized : ∃ mm' n, normalizeMm insertionSort bootMap = some (mm', n) ∧
    n ≤ bootMap.length ∧ Normalized bootMap (mm'.take n) :=
  (normalizeMm_exact_iff bootMap_assumed insertionSort).mpr (by simp [NoTopPage, bootMap])

def topMap : List MmEntry := [⟨2 ^ 64 - 4095, 1, .usable, 0⟩]

/-- It becomes a region over almost all of the address space. -/
theorem topMap_not_normalized : AssumedMap topMap ∧
    normalizeMm insertionSort topMap = some ([⟨0, 2 ^ 64 - 4096, .usable, 0⟩], 1) ∧
    InRegion [⟨0, 2 ^ 64 - 4096, .usable, 0⟩] 0 ∧
    ¬ ∃ u lo hi, MaximalPiece topMap u lo hi ∧ lo ≤ 0 * 4096 ∧ (0 + 1) * 4096 ≤ hi := by
  refine ⟨⟨⟨?_, ?_, ?_⟩, ?_, ?_⟩, by decide +kernel, by decide, ?_⟩
  · simp [topMap, MmEntry.NoWrap]
  · simp [topMap]
  · simp [topMap, MmEntry.IsBoot]
  · simp [topMap]
  · simp [topMap]
  · rintro ⟨u, lo, hi, hpiece, hlo, -⟩
    obtain rfl := List.mem_singleton.mp hpiece.entry.1
    have := hpiece.inside.1
    dsimp only at this
    omega

end HmmOS.Mm
