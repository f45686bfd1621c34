import HmmOS.Mm.NormalizeMm

/-! # Where the page frame table is placed

The table is trimmed off one region. As long as its size does not wrap in a
32-bit `size_t`, the pages that back it are in no region that is left.
-/
namespace HmmOS.Mm
open Lib Util.Algorithm

/-- Every usable page has a number small enough that the padded size of a table reaching it fits a
32-bit `size_t`. -/
def TableFits (mm : List MmEntry) : Prop := ∀ p, UsablePage mm p → p < 2 ^ 26 - 64

def PftSpan.Backs (pft : PftSpan) (p : ℕ) : Prop :=
  ∃ x, pft.data ≤ x + hhdmStart ∧ x + hhdmStart < pft.data + pfdSz * pft.size ∧ x / 4096 = p

def MmEntry.trim (r : MmEntry) (len : ℕ) : MmEntry :=
  { r with base := r.base + len, len := r.len - len }

theorem trimFirstFit_cases {len d : ℕ} {regions regions' : List MmEntry}
    (hw : ∀ r ∈ regions, r.NoWrap) (h : trimFirstFit len regions = some (d, regions')) :
    ∃ before r after, regions = before ++ r :: after ∧ regions' = before ++ r.trim len :: after ∧
      len ≤ r.len ∧ d = r.base + hhdmStart ∧ r.base + len ≤ hhdmLen := by
  induction regions generalizing regions' with
  | nil => simp [trimFirstFit] at h
  | cons r rest ih =>
    rw [trimFirstFit] at h
    split_ifs at h with hlen
    · have hrw : r.base + r.len < 2 ^ 64 := hw r (by simp)
      rw [Option.bind_eq_some_iff] at h
      obtain ⟨v, hv, h⟩ := h
      obtain ⟨-, rfl⟩ := directToHhdm_eq_some.mp hv
      rw [Word.add_of_lt (by omega), Word.sub_of_le hlen (by omega)] at h
      dsimp only at h
      split_ifs at h with hfit
      simp only [Option.some.injEq, Prod.mk.injEq] at h
      exact ⟨[], r, rest, rfl, h.2.symm, hlen, h.1.symm, hfit⟩
    · obtain ⟨⟨v, rest'⟩, hr, he⟩ := Option.map_eq_some_iff.mp h
      obtain ⟨rfl, rfl⟩ := he
      obtain ⟨before, r', after, rfl, rfl, hrest⟩ := ih (fun r' hr' => hw r' (by simp [hr'])) hr
      exact ⟨r :: before, r', after, rfl, rfl, hrest⟩

section Trim
variable {before after : List MmEntry} {r : MmEntry} {len : ℕ}

theorem RegionsOk.trim (h : RegionsOk (before ++ r :: after)) (hlen : len ≤ r.len)
    (hal : len % 4096 = 0) : RegionsOk (before ++ r.trim len :: after) := by
  have hmem : ∀ q ∈ before ++ r.trim len :: after, q = r.trim len ∨ q ∈ before ++ r :: after := by
    intro q hq
    simp only [List.mem_append, List.mem_cons] at hq ⊢
    tauto
  have hr : r ∈ before ++ r :: after := by simp
  have hrw : r.base + r.len < 2 ^ 64 := h.noWrap r hr
  have hra := h.aligned r hr
  obtain ⟨hs1, hs2, hs3⟩ := List.pairwise_append.mp h.sorted
  obtain ⟨hs2, hs4⟩ := List.pairwise_cons.mp hs2
  refine ⟨?_, ?_, ?_⟩
  · intro q hq
    rcases hmem q hq with rfl | hq
    · simp only [MmEntry.NoWrap, MmEntry.trim]; omega
    · exact h.noWrap q hq
  · intro q hq
    rcases hmem q hq with rfl | hq
    · simp only [MmEntry.trim]; omega
    · exact h.aligned q hq
  · refine List.pairwise_append.mpr ⟨hs1, List.pairwise_cons.mpr ⟨?_, hs4⟩, ?_⟩
    · intro q hq
      have := hs2 q hq
      simp only [MmEntry.trim]; omega
    · intro q hq q' hq'
      rcases List.mem_cons.mp hq' with rfl | hq'
      · have := hs3 q hq r (by simp)
        simp only [MmEntry.trim]; omega
      · exact hs3 q hq q' (by simp [hq'])

theorem PagesUsable.trim {mm : List MmEntry} (h : PagesUsable mm (before ++ r :: after))
    (hlen : len ≤ r.len) : PagesUsable mm (before ++ r.trim len :: after) := by
  intro q hq p hp1 hp2
  simp only [List.mem_append, List.mem_cons] at hq
  rcases hq with hq | rfl | hq
  · exact h q (by simp [hq]) p hp1 hp2
  · simp only [MmEntry.trim] at hp1 hp2
    exact h r (by simp) p (by omega) (by omega)
  · exact h q (by simp [hq]) p hp1 hp2

theorem memLimitOf_trim (hlen : len ≤ r.len) :
    memLimitOf (before ++ r.trim len :: after) = memLimitOf (before ++ r :: after) := by
  unfold memLimitOf
  rcases List.eq_nil_or_concat after with rfl | ⟨after', q, rfl⟩
  · have he : r.base + len + (r.len - len) = r.base + r.len := by omega
    simp [MmEntry.trim, Word.add, he]
  · simp [List.getLast?_append, List.getLast?_cons]

theorem RegionsOk.trim_apart (h : RegionsOk (before ++ r :: after)) (hlen : len ≤ r.len)
    {q : MmEntry} (hq : q ∈ before ++ r.trim len :: after) {x : ℕ} (hx : q.Covers x) :
    x < r.base ∨ r.base + len ≤ x := by
  obtain ⟨-, hs2, hs3⟩ := List.pairwise_append.mp h.sorted
  obtain ⟨hs2, -⟩ := List.pairwise_cons.mp hs2
  unfold MmEntry.Covers at hx
  simp only [List.mem_append, List.mem_cons] at hq
  rcases hq with hq | rfl | hq
  · have := hs3 q hq r (by simp)
    omega
  · simp only [MmEntry.trim] at hx
    omega
  · have := hs2 q hq
    omega

end Trim

/-- The end of the last non-empty region is the end of a usable page. -/
theorem memLimit_le {mm regions : List MmEntry} {L : ℕ} (hok : RegionsOk regions)
    (hpages : PagesUsable mm regions) (hpos : ∀ r ∈ regions, 0 < r.len) (hfit : TableFits mm)
    (h : memLimitOf regions = some L) : 0 < L ∧ L % 4096 = 0 ∧ L / 4096 ≤ 2 ^ 26 - 64 := by
  obtain ⟨r, hr, rfl⟩ := Option.map_eq_some_iff.mp h
  have hm : r ∈ regions := List.mem_of_getLast? hr
  have hw : r.base + r.len < 2 ^ 64 := hok.noWrap r hm
  obtain ⟨ha1, ha2⟩ := hok.aligned r hm
  have hl := hpos r hm
  rw [Word.add_of_lt hw]
  have hp := hfit ((r.base + r.len) / 4096 - 1)
    (hpages r hm ((r.base + r.len) / 4096 - 1) (by omega) (by omega))
  omega

/-- Under `TableFits` the sizes computed by `alloc_pft` are exact. -/
theorem pftLenPadded_exact {n : ℕ} (hn : n ≤ 2 ^ 26 - 64) :
    pftLenPadded n % 4096 = 0 ∧ pfdSz * n ≤ pftLenPadded n := by
  have hmul : Word.mul 32 n pfdSz = n * 64 := Word.mul_of_lt (by simp only [pfdSz_eq]; omega)
  have hceil : ceilPow2 pgSz (n * 64) = (n * 64 + 4095) / 4096 * 4096 := ceilPg_eq (by omega)
  have hlt : (n * 64 + 4095) / 4096 * 4096 < 2 ^ 32 := by omega
  rw [pftLenPadded, hmul, hceil, Nat.mod_eq_of_lt hlt, pfdSz_eq]
  omega

structure Placed (mm regions : List MmEntry) (pft : PftSpan) : Prop where
  ok : RegionsOk regions
  pages : PagesUsable mm regions
  limit : ∃ L, memLimitOf regions = some L ∧ 0 < L ∧ L = pft.size * 4096
  inside : hhdmStart ≤ pft.data ∧ pft.data % 4096 = 0 ∧
    pft.data + pfdSz * pft.size ≤ hhdmStart + hhdmLen
  small : pft.size ≤ 2 ^ 26 - 64
  unbacked : ∀ r ∈ regions, ∀ p, r.base ≤ p * 4096 → (p + 1) * 4096 ≤ r.base + r.len → ¬ pft.Backs p

theorem allocPft_placed {mm regions regions' : List MmEntry} {pft : PftSpan}
    (hok : RegionsOk regions) (hpages : PagesUsable mm regions) (hpos : ∀ r ∈ regions, 0 < r.len)
    (hfit : TableFits mm) (h : allocPft regions = some (pft, regions')) : Placed mm regions' pft := by
  rw [allocPft, Option.bind_eq_some_iff] at h
  obtain ⟨L, hL, h⟩ := h
  obtain ⟨hLpos, hLal, hLle⟩ := memLimit_le hok hpages hpos hfit hL
  split_ifs at h with hal
  obtain ⟨⟨d, rs⟩, ht, he⟩ := Option.map_eq_some_iff.mp h
  obtain ⟨rfl, rfl⟩ := he
  have hlim : pageLimitOf L = L / 4096 := by
    rw [pageLimitOf, pgSzBits_eq, Nat.shiftRight_eq_div_pow]
    exact Nat.mod_eq_of_lt (by omega)
  obtain ⟨hpad, hle⟩ := pftLenPadded_exact hLle
  rw [hlim] at ht ⊢
  obtain ⟨before, r, after, rfl, rfl, hlen, rfl, hhd⟩ := trimFirstFit_cases hok.noWrap ht
  have hr : r ∈ before ++ r :: after := by simp
  have hra := hok.aligned r hr
  refine ⟨hok.trim hlen hpad, hpages.trim hlen, ?_, ?_, hLle, ?_⟩
  · refine ⟨L, ?_, hLpos, by dsimp only; omega⟩
    rw [memLimitOf_trim hlen, hL]
  · simp only [hhdmStart_eq, hhdmLen_eq] at hhd ⊢
    omega
  · rintro q hq p hp1 hp2 ⟨x, hx1, hx2, hxp⟩
    have hcov : q.Covers x := ⟨by omega, by omega⟩
    dsimp only at hx1 hx2
    rcases hok.trim_apart hlen hq hcov with hlt | hge
    · omega
    · omega

end HmmOS.Mm
