import HmmOS.Lib.NeedleSearch
import HmmOS.Mm.PageFrameAllocator

/-! # The page frame allocator by descriptor index

Addresses of descriptors are `slot` numbers as long as pointer arithmetic stays below
the end of the address space.
-/
namespace HmmOS.Mm
open Lib Util.Algorithm PageFrameTable

def PageFrameTable.slot (t : PageFrameTable) (k : ℕ) : ℕ := t.pft.data + pfdSz * k

def PageFrameTable.freeAt (t : PageFrameTable) (mem : PfdMem) (k : ℕ) : Bool :=
  (mem (t.slot k)).usable

variable {t : PageFrameTable} {k n : ℕ} {a : SimplePFA} {mem : PfdMem} {s e : ℕ}

section Slots
variable {j : ℕ}

theorem slot_inj (h : t.slot j = t.slot k) : j = k := by
  simp only [slot, pfdSz_eq] at h
  omega

theorem slot_lt_slot : t.slot j < t.slot k ↔ j < k := by
  simp only [slot, pfdSz_eq]
  omega

theorem pfdAdd_slot (h : t.slot (k + n) < 2 ^ 32) : pfdAdd (t.slot k) n = t.slot (k + n) := by
  simp only [slot, pfdSz_eq, Nat.mul_add] at h ⊢
  rw [pfdAdd, pfdSz_eq, Word.mul_of_lt (by omega), Word.add_of_lt (by omega)]
  omega

theorem pfdAdd_slot_one (h : t.slot (k + (n + 1)) < 2 ^ 32) : pfdAdd (t.slot k) 1 = t.slot (k + 1) :=
  pfdAdd_slot (lt_of_le_of_lt (not_lt.mp (mt slot_lt_slot.mp (by omega))) h)

theorem pfdSub_slot (hkj : k ≤ j) (h : pfdSz * j < 2 ^ 31) :
    pfdSub (t.slot j) (t.slot k) = ((j - k : ℕ) : ℤ) := by
  have hdiff : ((t.slot j : ℕ) : ℤ) - (t.slot k : ℕ) = 64 * ((j - k : ℕ) : ℤ) := by
    simp only [slot, pfdSz_eq]
    omega
  rw [pfdSz_eq] at h
  rw [pfdSub, hdiff, Int.bmod_eq_of_le (by omega) (by omega), pfdSz_eq]
  omega

theorem getPfd_slot (h : t.slot k < 2 ^ 32) : t.getPfd (k * 4096) = t.slot k := by
  have hk : k < 2 ^ 32 := by
    simp only [slot, pfdSz_eq] at h
    omega
  have hshift : (k * 4096) >>> pgSzBits = k := by
    rw [pgSzBits_eq, Nat.shiftRight_eq_div_pow]
    omega
  rw [getPfd, hshift, Nat.mod_eq_of_lt hk]
  simpa [slot] using pfdAdd_slot (t := t) (k := 0) (n := k) (by simpa using h)

theorem getPfOffset_slot (h : pfdSz * k < 2 ^ 31) : t.getPfOffset (t.slot k) = k := by
  have hdata : t.pft.data = t.slot 0 := rfl
  rw [getPfOffset, hdata, pfdSub_slot (Nat.zero_le k) h]
  rw [pfdSz_eq] at h
  exact Word.ofInt_natCast (by omega)

end Slots

/-- An allocator responsible for the descriptors `s ≤ k < e`, with its needle on one of them. -/
structure SimplePFA.Owns (t : PageFrameTable) (a : SimplePFA) (s e : ℕ) : Prop where
  start : a.start = s * 4096
  end_ : a.end_ = e * 4096
  startp : a.startp = t.slot s
  endp : a.endp = t.slot e
  bound : t.slot e < 2 ^ 32
  size : pfdSz * e < 2 ^ 31
  needle : ∃ k, s ≤ k ∧ k < e ∧ a.needle = t.slot k

section Search
variable {steps : ℕ}

theorem SimplePFA.Owns.count_lt (h : a.Owns t s e) : e < 2 ^ 26 := by
  have := h.bound
  simp only [slot, pfdSz_eq] at this
  omega

theorem SimplePFA.Owns.slot_lt (h : a.Owns t s e) (hk : k ≤ e) : t.slot k < 2 ^ 32 := by
  have := h.bound
  simp only [slot, pfdSz_eq] at this ⊢
  omega

theorem SimplePFA.Owns.size_lt (h : a.Owns t s e) (hk : k ≤ e) : pfdSz * k < 2 ^ 31 :=
  (Nat.mul_le_mul_left _ hk).trans_lt h.size

theorem SimplePFA.Owns.len_eq (h : a.Owns t s e) : a.len = e - s := by
  obtain ⟨k, hsk, hke, -⟩ := h.needle
  have hlt := h.count_lt
  rw [SimplePFA.len, h.start, h.end_, Word.sub_of_le (by omega) (by omega), pgSz_eq]
  omega

theorem scanUsable_slot {m : ℕ} (h : t.slot (k + m) < 2 ^ 32) : scanUsable mem (t.slot (k + m)) m (t.slot k) =
      (NeedleSearch.firstOccupied (t.freeAt mem) m k).map t.slot := by
  induction m generalizing k with
  | zero => rfl
  | succ m ih =>
    have hlt : t.slot k < t.slot (k + (m + 1)) := slot_lt_slot.mpr (by omega)
    have hcomm : k + (m + 1) = k + 1 + m := by omega
    rw [scanUsable, NeedleSearch.firstOccupied, if_pos hlt, pfdAdd_slot_one h, hcomm, ih (by rwa [← hcomm])]
    unfold freeAt
    cases (mem (t.slot k)).usable <;> simp

theorem tryAlloc_slot (h : a.Owns t s e) (hk : s ≤ k ∧ k < e) (hsteps : steps ≤ e - s)
    (hn : t.slot (k + n) < 2 ^ 32) : a.tryAlloc mem n (t.slot k) steps =
      Prod.map id (Prod.map t.slot id) (NeedleSearch.attempt (t.freeAt mem) s e n k steps) := by
  have hlt := h.count_lt
  rw [SimplePFA.tryAlloc, NeedleSearch.attempt, pfdAdd_slot hn, h.endp, h.startp]
  by_cases hw : e < k + n
  · rw [if_pos (slot_lt_slot.mpr hw), if_pos hw, pfdSub_slot hk.2.le h.size,
      Word.ofInt_natCast (by omega), Word.add_of_lt (by omega)]
    rfl
  · rw [if_neg (fun hc => hw (slot_lt_slot.mp hc)), if_neg hw, scanUsable_slot hn]
    cases ho : NeedleSearch.firstOccupied (t.freeAt mem) n k with
    | none => rfl
    | some i =>
      obtain ⟨hki, hik, -⟩ := NeedleSearch.firstOccupied_some ho
      dsimp only [Option.map_some]
      rw [pfdSub_slot hki (h.size_lt (by omega)), Word.ofInt_natCast (by omega), Word.add_of_lt (by omega)]
      rfl

theorem seekUsable_slot (h : a.Owns t s e) {fuel : ℕ} (hk : s ≤ k ∧ k < e) (hsteps : steps ≤ e - s) :
    a.seekUsable mem (e - s) fuel (t.slot k) steps =
      Prod.map t.slot id (NeedleSearch.seek (t.freeAt mem) s e fuel k steps) := by
  induction fuel generalizing k steps with
  | zero => rfl
  | succ fuel ih =>
    have hlt := h.count_lt
    rw [SimplePFA.seekUsable, NeedleSearch.seek, Word.add_of_lt (by omega),
      pfdAdd_slot (h.slot_lt (by omega)), h.endp, h.startp]
    by_cases hf : t.freeAt mem k = true
    · rw [if_pos (by exact hf), if_pos hf]
      rfl
    · rw [if_neg (by exact hf), if_neg hf]
      by_cases hs : steps + 1 < e - s
      · rw [if_pos hs, if_pos hs]
        by_cases hw : e ≤ k + 1
        · rw [if_pos (not_lt.mp (fun hc => absurd (slot_lt_slot.mp hc) (by omega))), if_pos hw]
          exact ih ⟨le_rfl, by omega⟩ (by omega)
        · rw [if_neg (not_le.mpr (slot_lt_slot.mpr (by omega))), if_neg hw]
          exact ih ⟨by omega, by omega⟩ (by omega)
      · rw [if_neg hs, if_neg hs]
        rfl

/-- Where the run of `n` descriptors would wrap around the address space, the scan finds nothing
in its way. -/
theorem tryAlloc_wraps (h : a.Owns t s e) (hk : s ≤ k ∧ k < e) (hlen : n ≤ e - s)
    (hn : 2 ^ 32 ≤ t.slot (k + n)) : a.tryAlloc mem n (t.slot k) steps = (true, t.slot k, steps) := by
  have hlt := h.count_lt
  have hend : t.slot k < t.slot e := slot_lt_slot.mpr hk.2
  have hsum : t.slot (k + n) = t.slot k + 64 * n := by
    simp only [slot, pfdSz_eq]
    omega
  have hadd : pfdAdd (t.slot k) n < t.slot k := by
    rw [pfdAdd, pfdSz_eq, Word.mul_of_lt (by omega)]
    unfold Word.add
    omega
  have hscan : scanUsable mem (pfdAdd (t.slot k) n) n (t.slot k) = none := by
    cases n with
    | zero => rfl
    | succ n => rw [scanUsable, if_neg (by omega)]
  rw [SimplePFA.tryAlloc, h.endp, if_neg (by omega), hscan]

/-- One round of `alloc` as an attempt on descriptor numbers. -/
def PageFrameTable.attempt (t : PageFrameTable) (mem : PfdMem) (s e n k steps : ℕ) : Bool × ℕ × ℕ :=
  if 2 ^ 32 ≤ t.slot (k + n) then (true, k, steps)
  else NeedleSearch.attempt (t.freeAt mem) s e n k steps

theorem tryAlloc_attempt (h : a.Owns t s e) (hk : s ≤ k ∧ k < e) (hsteps : steps ≤ e - s) (hlen : n ≤ e - s) :
    a.tryAlloc mem n (t.slot k) steps = Prod.map id (Prod.map t.slot id) (t.attempt mem s e n k steps) := by
  unfold attempt
  split_ifs with hw
  · exact tryAlloc_wraps h hk hlen hw
  · exact tryAlloc_slot h hk hsteps (not_le.mp hw)

/-- The run of `n` free descriptors at `k`, unless it wraps around the address space. -/
def PageFrameTable.FitsAt (t : PageFrameTable) (mem : PfdMem) (e n k : ℕ) : Prop :=
  t.slot (k + n) < 2 ^ 32 → k + n ≤ e ∧ ∀ i, k ≤ i → i < k + n → t.freeAt mem i = true

theorem attempts (t : PageFrameTable) (mem : PfdMem) (s e n : ℕ) :
    NeedleSearch.Attempts (t.freeAt mem) s e (t.attempt mem s e n) (t.FitsAt mem e n) where
  mem := by
    intro k steps hk
    unfold attempt
    split_ifs
    · exact hk
    · exact NeedleSearch.attempt_mem hk
  found := by
    intro k steps k' steps' hk ha hfit
    unfold attempt at ha
    split_ifs at ha with hw
    · simp only [Prod.mk.injEq, true_and] at ha
      rw [← ha.1] at hfit
      omega
    · obtain ⟨rfl, -, hfound⟩ := NeedleSearch.attempt_true ha
      exact hfound
  moved := by
    intro k steps k' steps' hk ha
    unfold attempt at ha
    split_ifs at ha
    · simp at ha
    · exact NeedleSearch.attempt_false hk ha

theorem allocLoop_slot (h : a.Owns t s e) {fuel : ℕ} (hk : s ≤ k ∧ k < e) (hsteps : steps ≤ e - s)
    (hlen : n ≤ e - s) : a.allocLoop mem n (e - s) fuel (t.slot k) steps =
      (NeedleSearch.search (t.freeAt mem) s e (t.attempt mem s e n) fuel k steps).map (Prod.map t.slot id) := by
  induction fuel generalizing k steps with
  | zero => rfl
  | succ fuel ih =>
    have hmem := (attempts t mem s e n).mem steps hk
    rw [SimplePFA.allocLoop, NeedleSearch.search, tryAlloc_attempt h hk hsteps hlen]
    rcases ha : t.attempt mem s e n k steps with ⟨ok, k', steps'⟩
    rw [ha] at hmem
    cases ok with
    | true => rfl
    | false =>
      dsimp only [Prod.map, id] at hmem ⊢
      split_ifs with hs
      · rw [seekUsable_slot h hmem hs.le]
        have hseek : ∀ {r}, NeedleSearch.seek (t.freeAt mem) s e (e - s + 1) k' steps' = r →
            (s ≤ r.1 ∧ r.1 < e) ∧ r.2 ≤ e - s := by
          rintro r rfl
          exact ⟨NeedleSearch.seek_mem hmem, NeedleSearch.seek_steps hs⟩
        exact ih (hseek rfl).1 (hseek rfl).2
      · rfl

end Search

theorem changed_from (f : PageFrameDescriptor → PageFrameDescriptor) (mem : PfdMem) (k m j : ℕ) :
    (if k + 1 ≤ j ∧ j < k + 1 + m then f (Function.update mem (t.slot k) (f (mem (t.slot k))) (t.slot j))
      else Function.update mem (t.slot k) (f (mem (t.slot k))) (t.slot j)) =
      if k ≤ j ∧ j < k + 1 + m then f (mem (t.slot j)) else mem (t.slot j) := by
  by_cases hj : j = k
  · subst hj
    rw [if_neg (by omega), if_pos (by omega), Function.update_self]
  · have hne : t.slot j ≠ t.slot k := fun hc => hj (slot_inj hc)
    rw [Function.update_of_ne hne]
    congr 1
    simp only [eq_iff_iff]
    omega

theorem setAllocated_slot {m k : ℕ} {mem : PfdMem} (h : t.slot (k + m) < 2 ^ 32) (j : ℕ) :
    setAllocated (t.slot (k + m)) m mem (t.slot k) (t.slot j) =
      if k ≤ j ∧ j < k + m then { mem (t.slot j) with allocated := true } else mem (t.slot j) := by
  induction m generalizing k mem with
  | zero => simp [setAllocated]
  | succ m ih =>
    have hcomm : k + (m + 1) = k + 1 + m := by omega
    rw [setAllocated, if_pos (slot_lt_slot.mpr (by omega)), pfdAdd_slot_one h, hcomm, ih (by rwa [← hcomm])]
    exact changed_from (fun d => { d with allocated := true }) mem k m j

theorem clearAllocated_slot {m k : ℕ} {mem mem' : PfdMem} (h : t.slot (k + m) < 2 ^ 32)
    (hc : clearAllocated (t.slot (k + m)) m mem (t.slot k) = some mem') (j : ℕ) : mem' (t.slot j) =
      if k ≤ j ∧ j < k + m then { mem (t.slot j) with allocated := false } else mem (t.slot j) := by
  induction m generalizing k mem with
  | zero =>
    obtain rfl : mem = mem' := Option.some.inj hc
    simp
  | succ m ih =>
    have hcomm : k + (m + 1) = k + 1 + m := by omega
    rw [clearAllocated, if_pos (slot_lt_slot.mpr (by omega)), pfdAdd_slot_one h] at hc
    split_ifs at hc with ha
    rw [hcomm] at h hc ⊢
    rw [ih h hc]
    exact changed_from (fun d => { d with allocated := false }) mem k m j

section Operations
variable {a' : SimplePFA} {mem' : PfdMem}

theorem SimplePFA.Owns.of_needle (h : a.Owns t s e) {k c : ℕ} (hk : s ≤ k ∧ k < e) :
    SimplePFA.Owns t { a with needle := t.slot k, allocedPgs := c } s e :=
  ⟨h.start, h.end_, h.startp, h.endp, h.bound, h.size, k, hk.1, hk.2, rfl⟩

/-- The pages `k ≤ j < k + n` were free and have become allocated. -/
def PageFrameTable.Claims (t : PageFrameTable) (mem mem' : PfdMem) (k n : ℕ) : Prop :=
  (∀ i, k ≤ i → i < k + n → t.freeAt mem i = true) ∧
    ∀ j, mem' (t.slot j) = if k ≤ j ∧ j < k + n then { mem (t.slot j) with allocated := true }
      else mem (t.slot j)

theorem PageFrameTable.Claims.free {k j : ℕ} (h : t.Claims mem mem' k n) (hlo : k ≤ j)
    (hhi : j < k + n) : (mem (t.slot j)).allocated = false := by
  have := h.1 j hlo hhi
  simp only [freeAt, PageFrameDescriptor.usable, Bool.and_eq_true, Bool.not_eq_true'] at this
  exact this.1

/-- `alloc` fails and changes nothing but the needle, or it takes the descriptors at the needle. -/
theorem alloc_spec (h : a.Owns t s e) (mem : PfdMem) (n : ℕ) :
    ∃ res mem' a', a.alloc t mem n = some (res, mem', a') ∧ a'.Owns t s e ∧
      ((res = none ∧ mem' = mem ∧ a'.allocedPgs = a.allocedPgs) ∨
        ∃ k, res = some (k * 4096) ∧ (s ≤ k ∧ k < e) ∧ n ≤ e - s ∧
          (t.slot (k + n) < 2 ^ 32 → k + n ≤ e ∧ t.Claims mem mem' k n) ∧
          a'.allocedPgs = Word.add 32 a.allocedPgs n) := by
  obtain ⟨k0, hs0, he0, hneedle⟩ := h.needle
  rw [SimplePFA.alloc, h.len_eq]
  split_ifs with hlen
  · exact ⟨none, mem, a, rfl, h, .inl ⟨rfl, rfl, rfl⟩⟩
  have hfuel : e - s < 0 + (e - s + 1) := by omega
  obtain ⟨k, steps, hsearch, hk, hfound⟩ :=
    NeedleSearch.search_spec (attempts t mem s e n) ⟨hs0, he0⟩ hfuel (Nat.zero_le _)
  rw [hneedle, allocLoop_slot h ⟨hs0, he0⟩ (Nat.zero_le _) (not_lt.mp hlen), hsearch]
  dsimp only [Option.map_some, Prod.map, id]
  split_ifs with hsteps
  · exact ⟨none, mem, _, rfl, h.of_needle hk, .inl ⟨rfl, rfl, rfl⟩⟩
  · have hlt := h.count_lt
    rw [getPfOffset_slot (h.size_lt hk.2.le), pgSzBits_eq, Nat.shiftLeft_eq, Nat.mod_eq_of_lt (by omega)]
    refine ⟨_, _, _, rfl, h.of_needle hk, .inr ⟨k, rfl, hk, not_lt.mp hlen, fun hfit => ?_, rfl⟩⟩
    obtain ⟨hkn, hfree⟩ := hfound (not_le.mp hsteps) hfit
    refine ⟨hkn, And.intro hfree ?_⟩
    rw [pfdAdd_slot hfit]
    exact setAllocated_slot hfit

theorem alloc_some {base : ℕ} (h : a.Owns t s e) (ha : a.alloc t mem n = some (some base, mem', a')) :
    ∃ k, base = k * 4096 ∧ (s ≤ k ∧ k < e) ∧ n ≤ e - s ∧
      (t.slot (k + n) < 2 ^ 32 → k + n ≤ e ∧ t.Claims mem mem' k n) := by
  obtain ⟨res, mem1, a1, hspec, -, hcase⟩ := alloc_spec h mem n
  rw [ha] at hspec
  cases hspec
  rcases hcase with ⟨hnone, -⟩ | ⟨k, hk, hrange, hlen, htaken, -⟩
  · cases hnone
  · exact ⟨k, Option.some.inj hk, hrange, hlen, htaken⟩

theorem alloc_cases (h : a.Owns t s e) (hn : n ≤ e - s → t.slot (e + n) ≤ 2 ^ 32) {res : Option ℕ}
    (ha : a.alloc t mem n = some (res, mem', a')) : a'.Owns t s e ∧
      ((res = none ∧ mem' = mem ∧ a'.allocedPgs = a.allocedPgs) ∨
        ∃ k, res = some (k * 4096) ∧ s ≤ k ∧ k + n ≤ e ∧ t.Claims mem mem' k n ∧
          a'.allocedPgs = Word.add 32 a.allocedPgs n) := by
  obtain ⟨res', mem1, a1, halloc, howns, hcase⟩ := alloc_spec h mem n
  obtain ⟨rfl, rfl, rfl⟩ : res' = res ∧ mem1 = mem' ∧ a1 = a' := by simpa [halloc] using ha
  refine ⟨howns, hcase.imp_right ?_⟩
  rintro ⟨k, hres, hk, hlen, htaken, hcount⟩
  have hfit : t.slot (k + n) < 2 ^ 32 := (slot_lt_slot.mpr (by omega)).trans_le (hn hlen)
  obtain ⟨hke, hclaims⟩ := htaken hfit
  exact ⟨k, hres, hk.1, hke, hclaims, hcount⟩

/-- `free` of pages inside the range clears exactly their `allocated` flags. -/
theorem free_cases (h : a.Owns t s e) {k : ℕ} (hk : k + n ≤ e)
    (hf : a.free t mem (k * 4096) n = some (mem', a')) : a'.Owns t s e ∧ ∀ j, mem' (t.slot j) =
      if k ≤ j ∧ j < k + n then { mem (t.slot j) with allocated := false } else mem (t.slot j) := by
  have hslot : t.slot (k + n) < 2 ^ 32 := h.slot_lt hk
  rw [SimplePFA.free] at hf
  split_ifs at hf with hal hrange
  obtain ⟨m, hm, he⟩ := Option.map_eq_some_iff.mp hf
  obtain ⟨rfl, rfl⟩ := he
  rw [getPfd_slot (h.slot_lt (by omega)), pfdAdd_slot hslot] at hm
  exact ⟨⟨h.start, h.end_, h.startp, h.endp, h.bound, h.size, h.needle⟩, clearAllocated_slot hslot hm⟩

end Operations

end HmmOS.Mm
