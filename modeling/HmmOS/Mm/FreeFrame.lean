import HmmOS.Lib.IntervalCount
import HmmOS.Mm.AllocExact

/-! # What `free` clears

`free` compares a number of pages with byte addresses, so its check lets a call pass
that runs over the end of the range.
-/
namespace HmmOS.Mm
open Lib Util.Algorithm

/-- The number of pages of a range that are marked allocated. -/
def PageFrameTable.allocatedPages (t : PageFrameTable) (mem : PfdMem) (s e : ℕ) : ℕ :=
  countIn (fun k => (mem (t.slot k)).allocated) s e

/-- A call has cleared descriptors of its own range only, and the counter is still the number of
allocated pages. -/
structure FreeConfined (t : PageFrameTable) (mem mem' : PfdMem) (a' : SimplePFA) (s e : ℕ) : Prop where
  own : ∀ x, mem' x ≠ mem x →
    mem' x = { mem x with allocated := false } ∧ ∃ k, s ≤ k ∧ k < e ∧ x = t.slot k
  others : ∀ (b : SimplePFA) s2 e2, b.Owns t s2 e2 → e2 ≤ s ∨ e ≤ s2 →
    ∀ k, s2 ≤ k → k < e2 → mem' (t.slot k) = mem (t.slot k)
  counter : a'.allocedPgs = t.allocatedPages mem' s e

/-- The pages to be freed lie in the range; the counter sees their number modulo `2^32`. -/
def FreeInRange (t : PageFrameTable) (base s e n : ℕ) : Prop :=
  n % 2 ^ 32 = 0 ∨ ∃ k, t.getPfd base = t.slot k ∧ s ≤ k ∧ k + n % 2 ^ 32 ≤ e

variable {t : PageFrameTable} {mem mem' : PfdMem}

theorem clearAllocated_of_le {limit fuel it : ℕ} (h : limit ≤ it) :
    clearAllocated limit fuel mem it = some mem := by
  cases fuel with
  | zero => rfl
  | succ fuel => rw [clearAllocated, if_neg (Nat.not_lt.mpr h)]

theorem clearAllocated_spec {c fuel it : ℕ} (hlt : it + 64 * c < 2 ^ 32) (hfuel : c ≤ fuel)
    (h : clearAllocated (it + 64 * c) fuel mem it = some mem') :
    (∀ i < c, (mem (it + 64 * i)).allocated = true ∧
      mem' (it + 64 * i) = { mem (it + 64 * i) with allocated := false }) ∧
    ∀ x, (∀ i < c, x ≠ it + 64 * i) → mem' x = mem x := by
  induction c generalizing fuel it mem with
  | zero =>
    rw [clearAllocated_of_le (by omega), Option.some.injEq] at h
    exact ⟨fun i hi => absurd hi (Nat.not_lt_zero i), fun x _ => by rw [h]⟩
  | succ c ih =>
    obtain ⟨fuel, rfl⟩ := Nat.exists_eq_add_of_le' (Nat.lt_of_lt_of_le (Nat.succ_pos c) hfuel)
    have hnext : pfdAdd it 1 = it + 64 := by
      rw [pfdAdd, pfdSz_eq, Word.mul_of_lt (by omega), Word.add_of_lt (by omega)]
    rw [clearAllocated, if_pos (by omega), hnext] at h
    split_ifs at h with halloc
    have hsum : it + 64 * (c + 1) = it + 64 + 64 * c := by omega
    rw [hsum] at h hlt
    obtain ⟨hin, hout⟩ := ih hlt (by omega) h
    have hfirst : ∀ i < c, it ≠ it + 64 + 64 * i := fun i _ => by omega
    constructor
    · intro i hi
      cases i with
      | zero =>
        rw [Nat.mul_zero, Nat.add_zero, hout it hfirst, Function.update_self]
        exact ⟨halloc, rfl⟩
      | succ i =>
        have hshift : it + 64 * (i + 1) = it + 64 + 64 * i := by omega
        have hold := hin i (by omega)
        rw [Function.update_of_ne (by omega)] at hold
        rw [hshift]
        exact hold
    · intro x hx
      have hxit : x ≠ it := by simpa using hx 0 (Nat.succ_pos c)
      rw [hout x fun i hi => by have := hx (i + 1) (by omega); omega, Function.update_of_ne hxit]

/-- The end of the loop of `free`: the number of pages counts modulo `2^26`. -/
theorem pfdAdd_eq (p n : ℕ) : pfdAdd p n = (p + 64 * (n % 2 ^ 26)) % 2 ^ 32 := by
  unfold pfdAdd Word.add Word.mul
  rw [pfdSz_eq]
  omega

section Free
variable {a a' : SimplePFA} {s e n base : ℕ}

/-- A call clears `n % 2^26` descriptors that were allocated, or none if their end wraps around the
address space. -/
theorem SimplePFA.free_clears (h : a.free t mem base n = some (mem', a')) :
    (t.getPfd base + 64 * (n % 2 ^ 26) < 2 ^ 32 ∧
      (∀ i < n % 2 ^ 26, (mem (t.getPfd base + 64 * i)).allocated = true ∧ mem' (t.getPfd base + 64 * i) =
          { mem (t.getPfd base + 64 * i) with allocated := false }) ∧
      ∀ x, (∀ i < n % 2 ^ 26, x ≠ t.getPfd base + 64 * i) → mem' x = mem x) ∨
    (2 ^ 32 ≤ t.getPfd base + 64 * (n % 2 ^ 26) ∧ mem' = mem) := by
  rw [SimplePFA.free] at h
  split_ifs at h
  obtain ⟨m, hclear, he⟩ := Option.map_eq_some_iff.mp h
  cases he
  rw [pfdAdd_eq] at hclear
  by_cases hlt : t.getPfd base + 64 * (n % 2 ^ 26) < 2 ^ 32
  · rw [Nat.mod_eq_of_lt hlt] at hclear
    exact .inl ⟨hlt, clearAllocated_spec hlt (Nat.mod_le _ _) hclear⟩
  · rw [clearAllocated_of_le (by omega), Option.some.injEq] at hclear
    exact .inr ⟨Nat.le_of_not_lt hlt, hclear.symm⟩

theorem sub_eq_of_add_eq {x y c : ℕ} (hx : x < 2 ^ 32) (hsum : y + c = x) (hc : c = n % 2 ^ 32) :
    Word.sub 32 x n = y := by
  unfold Word.sub
  omega

theorem SimplePFA.Owns.allocatedPages_lt (h : a.Owns t s e) (mem : PfdMem) :
    t.allocatedPages mem s e < 2 ^ 32 := by
  have hle := countIn_le (fun k => (mem (t.slot k)).allocated) s e
  have hlt := h.count_lt
  unfold PageFrameTable.allocatedPages
  omega

/-- Descriptors of the range that are cleared are missing from the count. -/
theorem allocatedPages_clear {k c : ℕ} (hs : s ≤ k) (he : k + c ≤ e)
    (hin : ∀ i < c, (mem (t.slot k + 64 * i)).allocated = true ∧
      mem' (t.slot k + 64 * i) = { mem (t.slot k + 64 * i) with allocated := false })
    (hout : ∀ x, (∀ i < c, x ≠ t.slot k + 64 * i) → mem' x = mem x) :
    t.allocatedPages mem' s e + c = t.allocatedPages mem s e := by
  have hslot : ∀ i, t.slot k + 64 * i = t.slot (k + i) := by
    intro i
    simp only [PageFrameTable.slot, pfdSz_eq]
    omega
  simp only [hslot] at hin hout
  apply countIn_add_block hs he
  · intro j hlo hhi
    obtain ⟨i, rfl⟩ := Nat.exists_eq_add_of_le hlo
    obtain ⟨hold, hnew⟩ := hin i (by omega)
    exact ⟨hold, by rw [hnew]⟩
  · intro j hj
    rw [hout (t.slot j)]
    intro i hi heq
    have := slot_inj heq
    omega

theorem FreeInRange.confined (h : a.Owns t s e) (hcount : a.allocedPgs = t.allocatedPages mem s e)
    (hf : a.free t mem base n = some (mem', a')) (hr : FreeInRange t base s e n) :
    FreeConfined t mem mem' a' s e := by
  have hlt := h.count_lt
  have hbefore := h.allocatedPages_lt mem
  rw [SimplePFA.free_pfa hf, hcount]
  rcases hr with hzero | ⟨k, hk, hs, he⟩
  · -- no descriptor is cleared
    have hsame : mem' = mem := by
      rcases SimplePFA.free_clears hf with ⟨-, -, hout⟩ | ⟨-, hsame⟩
      · funext x
        apply hout x
        intro i hi
        omega
      · exact hsame
    subst hsame
    refine ⟨fun x hx => absurd rfl hx, fun _ _ _ _ _ _ _ _ => rfl, ?_⟩
    exact sub_eq_of_add_eq hbefore (Nat.add_zero _) hzero.symm
  · have hmod : n % 2 ^ 26 = n % 2 ^ 32 := by omega
    have hend : t.slot k + 64 * (n % 2 ^ 32) < 2 ^ 32 := by
      have := h.slot_lt he
      simp only [PageFrameTable.slot, pfdSz_eq] at this ⊢
      omega
    have hclears := SimplePFA.free_clears hf
    rw [hk, hmod] at hclears
    obtain ⟨-, hin, hout⟩ := hclears.resolve_right fun hw => absurd hw.1 (Nat.not_le.mpr hend)
    have hown : ∀ x, mem' x ≠ mem x → mem' x = { mem x with allocated := false } ∧
        ∃ k, s ≤ k ∧ k < e ∧ x = t.slot k := by
      intro x hx
      by_cases hmem : ∃ i < n % 2 ^ 32, x = t.slot k + 64 * i
      · obtain ⟨i, hi, rfl⟩ := hmem
        refine ⟨(hin i hi).2, k + i, by omega, by omega, ?_⟩
        simp only [PageFrameTable.slot, pfdSz_eq]
        omega
      · exact absurd (hout x fun i hi hxi => hmem ⟨i, hi, hxi⟩) hx
    refine ⟨hown, ?_, ?_⟩
    · intro b s2 e2 _ hdisj j hlo hhi
      by_contra hne
      obtain ⟨-, j', hlo', hhi', hslot⟩ := hown _ hne
      have := slot_inj hslot
      omega
    · exact sub_eq_of_add_eq hbefore (allocatedPages_clear hs he hin hout) rfl

/-- A call of `free` that passes its checks is confined to its range, and keeps the counter exact, just
when the pages lie in the range. -/
theorem SimplePFA.Owns.free_confined_iff (h : a.Owns t s e)
    (hcount : a.allocedPgs = t.allocatedPages mem s e)
    (hf : a.free t mem base n = some (mem', a')) :
    FreeConfined t mem mem' a' s e ↔ FreeInRange t base s e n := by
  refine ⟨fun hconf => ?_, FreeInRange.confined h hcount hf⟩
  have hcounter := hconf.counter
  rw [SimplePFA.free_pfa hf, hcount] at hcounter
  dsimp only at hcounter
  by_cases hzero : n % 2 ^ 32 = 0
  · exact .inl hzero
  right
  rcases SimplePFA.free_clears hf with ⟨hend, hin, hout⟩ | ⟨-, hsame⟩
  · by_cases hnone : n % 2 ^ 26 = 0
    · -- nothing is cleared, but the counter drops
      have hsame : mem' = mem := by
        funext x
        apply hout x
        intro i hi
        omega
      rw [hsame] at hcounter
      unfold Word.sub at hcounter
      omega
    have hchanged : ∀ i < n % 2 ^ 26,
        ∃ k, s ≤ k ∧ k < e ∧ t.getPfd base + 64 * i = t.slot k := by
      intro i hi
      obtain ⟨hold, hnew⟩ := hin i hi
      apply (hconf.own _ _).2
      intro heq
      rw [heq] at hnew
      have := congrArg PageFrameDescriptor.allocated hnew
      rw [hold] at this
      cases this
    obtain ⟨k, hs, he, hk⟩ := hchanged 0 (by omega)
    obtain ⟨k', hs', he', hk'⟩ := hchanged (n % 2 ^ 26 - 1) (by omega)
    rw [Nat.mul_zero, Nat.add_zero] at hk
    rw [hk] at hk' hin hout
    have hkk : k' = k + (n % 2 ^ 26 - 1) := by
      simp only [PageFrameTable.slot, pfdSz_eq] at hk'
      omega
    have hroom : k + n % 2 ^ 26 ≤ e := by omega
    have hafter := allocatedPages_clear hs hroom hin hout
    have hmod : n % 2 ^ 32 = n % 2 ^ 26 := by
      unfold Word.sub at hcounter
      omega
    exact ⟨k, hk, hs, by omega⟩
  · rw [hsame] at hcounter
    unfold Word.sub at hcounter
    omega

/-- For a base inside the range the condition is about page numbers. -/
theorem SimplePFA.Owns.freeInRange_iff (h : a.Owns t s e) {k : ℕ} (hk : k ≤ e) :
    FreeInRange t (k * 4096) s e n ↔ n % 2 ^ 32 = 0 ∨ s ≤ k ∧ k + n % 2 ^ 32 ≤ e := by
  rw [FreeInRange, getPfd_slot (h.slot_lt hk)]
  apply or_congr_right
  constructor
  · rintro ⟨k', hslot, hrange⟩
    rw [slot_inj hslot]
    exact hrange
  · intro hrange
    exact ⟨k, rfl, hrange⟩

end Free

def fourTable : PageFrameTable :=
  ⟨16384, [⟨0, 16384, .usable, 0⟩], ⟨hhdmStart + 16384, 4⟩, 16384⟩

def firstHalf : PfdMem × SimplePFA :=
  (SimplePFA.construct fourTable [] (fun _ => {}) 0 8192).get (by decide +kernel)

def secondHalf : PfdMem × SimplePFA :=
  (SimplePFA.construct fourTable [(0, 8192)] firstHalf.1 8192 16384).get (by decide +kernel)

def bothTaken : PfdMem × SimplePFA × SimplePFA :=
  ((firstHalf.2.alloc fourTable secondHalf.1 2).bind fun r =>
    (secondHalf.2.alloc fourTable r.2.1 2).map fun r2 => (r2.2.1, r.2.2, r2.2.2)).get (by decide +kernel)

theorem bothTaken_owns : bothTaken.2.1.Owns fourTable 0 2 := by
  have hconstruct : SimplePFA.construct fourTable [] (fun _ => {}) 0 8192 = some firstHalf :=
    (Option.some_get (by decide +kernel)).symm
  have hboth : ((firstHalf.2.alloc fourTable secondHalf.1 2).bind fun r =>
      (secondHalf.2.alloc fourTable r.2.1 2).map fun r2 => (r2.2.1, r.2.2, r2.2.2)) = some bothTaken :=
    (Option.some_get (by decide +kernel)).symm
  obtain ⟨⟨res, mem1, a1⟩, hfirst, hrest⟩ := Option.bind_eq_some_iff.mp hboth
  obtain ⟨r2, -, hr⟩ := Option.map_eq_some_iff.mp hrest
  rw [← hr]
  have hreach : PfaReach fourTable 0 8192 mem1 a1 := .alloc (.other (.construct hconstruct)) hfirst
  exact hreach.owns (by decide +kernel) (by decide +kernel)

/-- The first allocator frees its two pages. -/
theorem bothTaken_free_confined : ∃ mem' a', bothTaken.2.1.free fourTable bothTaken.1 0 2 = some (mem', a') ∧
    FreeConfined fourTable bothTaken.1 mem' a' 0 2 := by
  have hsome : (bothTaken.2.1.free fourTable bothTaken.1 0 2).isSome := by decide +kernel
  obtain ⟨⟨mem', a'⟩, hf⟩ := Option.isSome_iff_exists.mp hsome
  refine ⟨mem', a', hf, ?_⟩
  apply (bothTaken_owns.free_confined_iff (by decide +kernel) hf).mpr
  exact (bothTaken_owns.freeInRange_iff (k := 0) (by decide)).mpr (.inr (by decide))

/-- The first allocator is asked to free two pages from its last one on, and a page of the second
allocator is cleared. -/
theorem bothTaken_free_escapes :
    PageFrameTable.construct insertionSort [⟨0, 16384, .usable, 0⟩] (some ⟨hhdmStart + 16384, 4⟩) =
        some fourTable ∧
      (bothTaken.1 (fourTable.slot 2)).allocated = true ∧
      (bothTaken.2.1.allocedPgs, fourTable.allocatedPages bothTaken.1 0 2) = (2, 2) ∧
      (bothTaken.2.1.free fourTable bothTaken.1 4096 2).map
          (fun r => ((r.1 (fourTable.slot 2)).allocated, r.2.allocedPgs, fourTable.allocatedPages r.1 0 2)) =
        some (false, 0, 1) := by
  refine ⟨by decide +kernel, by decide +kernel, by decide +kernel, by decide +kernel⟩

end HmmOS.Mm
