import HmmOS.Nonstd.Deque

/-! # Layout of a deque

Seen from `start_block` on, the blocks in use come first. Indices stay below `2 ^ 31`.
The block pointers hold allocations; a new block is entered where there was none, until
a `push_front` puts one over the last block of the array.
-/
namespace HmmOS.Nonstd.Deque
open Lib CircularArray Function

variable {α : Type*}

def block (d : Deque α) (j : ℕ) : Option (Block α) := entry d.blocks d.startBlock d.blockCount j

def cell (E : ℕ) (d : Deque α) (i : ℕ) : Option α := (d.block (i / E)).bind fun b => b.cells (i % E)

/-- The allocation in each entry of `_blocks`. -/
def addrs (d : Deque α) (j : ℕ) : Option ℕ :=
  if j < d.blockCount then (d.blocks j).map Block.addr else none

/-- The pointers stay in balance with the ledger. -/
def Keeps (d d' : Deque α) : Prop := Ledger.Keeps d.ledger d.addrs d'.ledger d'.addrs

/-- A `push_front` would allocate a block where there already is one. -/
def FrontTaken (E : ℕ) (d : Deque α) : Prop :=
  d.size ≠ 0 ∧ d.startIdx = 0 ∧ d.size ≤ E * (d.blockCount - 1) ∧
    d.blocks ((d.startBlock + d.blockCount - 1) % d.blockCount) ≠ none

/-- A block was allocated, and the pointers that are not null are the same. -/
def Overwritten (d d' : Deque α) : Prop :=
  d'.ledger = d.ledger.allocate ∧ ∀ j, d'.addrs j ≠ none ↔ d.addrs j ≠ none

structure Layout (E : ℕ) (d : Deque α) (m : ℕ) : Prop where
  start : d.startBlock < d.blockCount
  cap : E * d.blockCount < 2 ^ 32
  count : m ≤ d.blockCount
  blocks : ∀ j < d.blockCount, (d.block j).isSome = true ↔ j < m

theorem mul_eq_add_mul_pred (E : ℕ) {n : ℕ} (hn : 0 < n) : E * n = E + E * (n - 1) := by
  obtain ⟨k, rfl⟩ : ∃ k, n = k + 1 := ⟨n - 1, by omega⟩
  rw [Nat.add_sub_cancel, Nat.mul_succ, Nat.add_comm]

section Pointers
variable {b : ℕ} {d d1 d2 : Deque α}

theorem Keeps.refl (d : Deque α) : d.Keeps d := Ledger.Keeps.refl

theorem Keeps.trans (h1 : d.Keeps d1) (h2 : d1.Keeps d2) : d.Keeps d2 := Ledger.Keeps.trans h1 h2

/-- No pointer was changed. -/
def SamePointers (d d' : Deque α) : Prop := d'.ledger = d.ledger ∧ d'.addrs = d.addrs

theorem SamePointers.keeps (h : d.SamePointers d1) : d.Keeps d1 := by
  rw [Keeps, h.1, h.2]
  exact .refl

theorem Overwritten.trans (h1 : d.Overwritten d1) (h2 : d1.SamePointers d2) : d.Overwritten d2 := by
  rw [Overwritten, h2.1, h2.2]
  exact h1

theorem addrs_ne_none (hb : b < d.blockCount) : d.addrs b ≠ none ↔ d.blocks b ≠ none := by
  simp [addrs, hb]

theorem addrs_eq_none (hb : d.blocks b = none) : d.addrs b = none := by
  simp [addrs, hb]

theorem addrs_of_no_blocks (h : ∀ j < d.blockCount, d.blocks j = none) : d.addrs = fun _ => none := by
  funext j
  rw [addrs]
  split_ifs with hj
  · rw [h j hj]
    rfl
  · rfl

theorem allocBlock_addrs (hb : b < d.blockCount) :
    (d.allocBlock b).addrs = update d.addrs b (some d.ledger.next) := by
  funext j
  by_cases hj : j = b
  · simp [addrs, allocBlock, hj, hb]
  · simp [addrs, allocBlock, hj]

theorem allocBlock_keeps (hb : b < d.blockCount) (hnull : d.blocks b = none) : d.Keeps (d.allocBlock b) := by
  rw [Keeps, allocBlock_addrs hb]
  exact .allocate (addrs_eq_none hnull)

theorem allocBlock_overwritten (hb : b < d.blockCount) (hblock : d.blocks b ≠ none) :
    d.Overwritten (d.allocBlock b) := by
  refine ⟨rfl, fun j => ?_⟩
  rw [allocBlock_addrs hb, update_apply]
  split_ifs with hj
  · rw [hj, addrs_ne_none hb]
    exact iff_of_true (Option.some_ne_none _) hblock
  · rfl

theorem freeBlock_keeps (hb : b < d.blockCount) (hblock : d.blocks b ≠ none) : d.Keeps (d.freeBlock b) := by
  obtain ⟨block, hblock⟩ := Option.ne_none_iff_exists'.mp hblock
  have haddrs : (d.freeBlock b).addrs = update d.addrs b none := by
    funext j
    by_cases hj : j = b
    · simp [addrs, freeBlock, hj]
    · simp [addrs, freeBlock, hj]
  have hledger : (d.freeBlock b).ledger = d.ledger.free block.addr := by
    rw [freeBlock, hblock]
    rfl
  rw [Keeps, haddrs, hledger]
  exact .free (by simp [addrs, hb, hblock])

end Pointers

section Cells
variable {E m i pos : ℕ} {d d' : Deque α}

theorem getBlockElemIdx_eq {start n : ℕ} (hi : i < 2 ^ 31) (hsum : start + i / E < 2 ^ 32) :
    getBlockElemIdx E i start n = ((start + i / E) % n, i % E) := by
  have hmod : i % E ≤ i := Nat.mod_le i E
  simp only [getBlockElemIdx, Word.bmod_natCast hi]
  rw [← Int.ofNat_tdiv, ← Int.ofNat_tmod, ← Nat.cast_add, Word.ofInt_natCast hsum,
    Word.ofInt_natCast (by omega)]

theorem Layout.block_lt (hl : Layout E d m) (hi : i < E * m) : 0 < E ∧ i / E < m ∧ i / E < d.blockCount := by
  have hE : 0 < E := Nat.pos_of_ne_zero (by rintro rfl; simp at hi)
  have hlt : i / E < m := Nat.div_lt_of_lt_mul hi
  exact ⟨hE, hlt, hlt.trans_le hl.count⟩

theorem Layout.blockCount_lt (hl : Layout E d m) (hE : 0 < E) : d.blockCount < 2 ^ 32 :=
  (Nat.le_mul_of_pos_left _ hE).trans_lt hl.cap

theorem Layout.index_eq (hl : Layout E d m) (hE : 1 < E) (hi : i < 2 ^ 31) :
    getBlockElemIdx E i d.startBlock d.blockCount = ((d.startBlock + i / E) % d.blockCount, i % E) := by
  apply getBlockElemIdx_eq hi
  have h1 := hl.start
  have h2 := hl.cap
  have h3 : 2 * d.blockCount ≤ E * d.blockCount := Nat.mul_le_mul_right _ hE
  have h4 : i / E ≤ i / 2 := Nat.div_le_div_left hE (by omega)
  omega

theorem deref_eq (hl : Layout E d m) (hE : 1 < E) (hi : i < 2 ^ 31) : d.deref E i = d.cell E i := by
  simp only [deref, hl.index_eq hE hi]
  rfl

theorem cell_congr (hb : ∀ j < m, d'.block j = d.block j) (hi : i < E * m) : d'.cell E i = d.cell E i := by
  have hlt : i / E < m := Nat.div_lt_of_lt_mul hi
  rw [cell, cell, hb _ hlt]

theorem put_spec (hl : Layout E d m) (hE : 1 < E) (hi : d.startIdx + pos < E * m)
    (hsmall : d.startIdx + pos < 2 ^ 31) (v : Option α) :
    ∃ d', d.put E pos v = some d' ∧ Layout E d' m ∧ d'.size = d.size ∧ d'.startIdx = d.startIdx ∧
      d.SamePointers d' ∧ ∀ k < E * m, d'.cell E k = if k = d.startIdx + pos then v else d.cell E k := by
  rcases hl.block_lt hi with ⟨hpos, hlt, hltB⟩
  rcases Option.isSome_iff_exists.mp ((hl.blocks _ hltB).mpr hlt) with ⟨b, hb⟩
  have hentry : d.blocks ((d.startBlock + (d.startIdx + pos) / E) % d.blockCount) = some b := hb
  obtain ⟨b', hb'⟩ : ∃ b' : Block α, b' = { b with cells := update b.cells ((d.startIdx + pos) % E) v } := ⟨_, rfl⟩
  have hput : d.put E pos v = some { d with
      blocks := update d.blocks ((d.startBlock + (d.startIdx + pos) / E) % d.blockCount) (some b') } := by
    rw [put, Word.add_of_lt (by omega), hl.index_eq hE hsmall]
    dsimp only
    rw [hentry, hb']
    rfl
  have hblock : ∀ j < d.blockCount, block { d with
      blocks := update d.blocks ((d.startBlock + (d.startIdx + pos) / E) % d.blockCount) (some b') } j =
      if j = (d.startIdx + pos) / E then some b' else d.block j := fun j hj => entry_update hltB hj
  refine ⟨_, hput, ⟨hl.start, hl.cap, hl.count, fun j hj => ?_⟩, rfl, rfl, ?_, fun k hk => ?_⟩
  · rw [hblock j hj]
    split_ifs with he
    · simpa [he] using hlt
    · exact hl.blocks j hj
  · refine ⟨rfl, funext fun j => ?_⟩
    simp only [addrs, update_apply]
    split_ifs with hj he
    · rw [he, hentry, hb']
      rfl
    · rfl
    · rfl
  · have hkB := (hl.block_lt hk).2.2
    rw [cell, hblock _ hkB]
    by_cases hkp : k = d.startIdx + pos
    · rw [if_pos (by rw [hkp]), if_pos hkp, hkp, Option.bind_some, hb']
      exact update_self ..
    · split_ifs with hdiv
      · have hmod : k % E ≠ (d.startIdx + pos) % E := by
          intro he
          apply hkp
          rw [← Nat.div_add_mod k E, ← Nat.div_add_mod (d.startIdx + pos) E, hdiv, he]
        rw [Option.bind_some, hb', cell, hdiv, hb]
        exact update_of_ne hmod ..
      · rfl

end Cells

section Allocate
variable {E m : ℕ} {d : Deque α}

theorem copyBlocks_spec {n dst : ℕ} {new : ℕ → Option (Block α)} (hn : dst + n = d.blockCount)
    (hall : ∀ j < d.blockCount, (d.block j).isSome = true)
    (hnew : ∀ j, dst ≤ j → new j = none) (hold : ∀ j < dst, new j = d.block j) :
    ∃ new', copyBlocks d n ((d.startBlock + dst) % d.blockCount) dst new = some new' ∧
      ∀ j, new' j = if j < d.blockCount then d.block j else none := by
  induction n generalizing dst new with
  | zero =>
    refine ⟨new, rfl, fun j => ?_⟩
    split_ifs with hj
    · exact hold j (by omega)
    · exact hnew j (by omega)
  | succ n ih =>
    rcases Option.isSome_iff_exists.mp (hall dst (by omega)) with ⟨b, hb⟩
    have hentry : d.blocks ((d.startBlock + dst) % d.blockCount) = some b := hb
    rw [copyBlocks, hentry]
    rw [Nat.mod_add_mod, Nat.add_assoc]
    apply ih (by omega)
    · intro j hj
      rw [update_of_ne (by omega)]
      exact hnew j (by omega)
    · intro j hj
      by_cases hjd : j = dst
      · rw [hjd, update_self, hb]
      · rw [update_of_ne hjd]
        exact hold j (by omega)

theorem reallocBlocksArray_spec (hl : Layout E d d.blockCount) (hE : 0 < E)
    (hcap : E * (d.blockCount * 2) < 2 ^ 32) : ∃ d', d.reallocBlocksArray = some d' ∧ Layout E d' d.blockCount ∧
      d'.blockCount = d.blockCount * 2 ∧ d'.size = d.size ∧ d'.startIdx = d.startIdx ∧ d.Keeps d' ∧
      ∀ j < d.blockCount, d'.block j = d.block j := by
  have hpos : 0 < d.blockCount := (Nat.zero_le _).trans_lt hl.start
  rcases @copyBlocks_spec _ d d.blockCount 0 (fun _ => none) (by omega)
    (fun j hj => (hl.blocks j hj).mpr hj) (fun _ _ => rfl) (by simp) with ⟨new, hcopy, hnew⟩
  rw [Nat.add_zero, Nat.mod_eq_of_lt hl.start] at hcopy
  have hmul : Word.mul 32 d.blockCount 2 = d.blockCount * 2 :=
    Word.mul_of_lt ((Nat.le_mul_of_pos_left _ hE).trans_lt hcap)
  have hblock : ∀ j < d.blockCount * 2, block { d with
      blockCount := d.blockCount * 2, blocks := new, startBlock := 0 } j =
      if j < d.blockCount then d.block j else none := by
    intro j hj
    rw [← hnew]
    exact entry_zero hj
  have haddrs : ∀ j, addrs { d with blockCount := d.blockCount * 2, blocks := new, startBlock := 0 } j =
      if j < d.blockCount then d.addrs ((d.startBlock + j) % d.blockCount) else none := by
    intro j
    rw [addrs, addrs, if_pos (Nat.mod_lt _ hpos)]
    dsimp only
    rw [hnew]
    by_cases hj : j < d.blockCount
    · rw [if_pos (by omega), if_pos hj, if_pos hj]
      rfl
    · rw [if_neg hj, if_neg hj]
      exact ite_self _
  refine ⟨{ d with blockCount := d.blockCount * 2, blocks := new, startBlock := 0 }, ?_, ?_, rfl, rfl,
    rfl, ?_, ?_⟩
  · rw [reallocBlocksArray, hcopy, hmul]
    rfl
  · refine ⟨by dsimp only; omega, hcap, by dsimp only; omega, fun j hj => ?_⟩
    rw [hblock j hj]
    split_ifs with hlt
    · exact ⟨fun _ => hlt, fun _ => (hl.blocks j hlt).mpr hlt⟩
    · simp [hlt]
  · apply Ledger.Keeps.rename fun j => (d.startBlock + j) % d.blockCount
    · intro j a hj
      rw [haddrs] at hj
      split_ifs at hj
      exact hj
    · intro j j' hj hj' he
      simp only [haddrs, ne_eq, ite_eq_right_iff, Classical.not_imp] at hj hj'
      exact index_inj hj.1 hj'.1 he
    · intro i a hi
      have hlt : i < d.blockCount := by
        by_contra hge
        rw [addrs, if_neg hge] at hi
        cases hi
      rcases exists_index hl.start hlt with ⟨j, hj, rfl⟩
      exact ⟨j, (haddrs j).trans ((if_pos hj).trans hi)⟩
  · intro j hj
    rw [hblock j (by omega), if_pos hj]

theorem block_set {j k : ℕ} {x : Option (Block α)} {l : Ledger} (hj : j < d.blockCount) (hk : k < d.blockCount) :
    block { d with blocks := update d.blocks ((d.startBlock + j) % d.blockCount) x, ledger := l } k =
      if k = j then x else d.block k := entry_update hj hk

section
variable (hl : Layout E d m) (hE : 1 < E)
include hl hE

/-- The first part of `allocate_block(false)`: the array has a place for the next index. -/
theorem growBack_spec (hend : d.startIdx + d.size ≤ E * m) (hsmall : d.startIdx + d.size < 2 ^ 31) :
    ∃ d', (if d.startIdx + d.size ≥ E * d.blockCount then d.reallocBlocksArray else some d) = some d' ∧
      Layout E d' m ∧ d.startIdx + d.size < E * d'.blockCount ∧ d'.size = d.size ∧
      d'.startIdx = d.startIdx ∧ d.Keeps d' ∧ ∀ j < m, d'.block j = d.block j := by
  have hle : E * m ≤ E * d.blockCount := Nat.mul_le_mul_left E hl.count
  split_ifs with hfull
  · obtain rfl : m = d.blockCount := Nat.eq_of_mul_eq_mul_left (by omega : 0 < E) (by omega)
    have hcap : E * (d.blockCount * 2) < 2 ^ 32 := by
      rw [← Nat.mul_assoc]
      omega
    rcases reallocBlocksArray_spec hl (by omega) hcap with
      ⟨d', hre, hl', hcount, hsize, hstart, hkeep, hblocks⟩
    refine ⟨d', hre, hl', ?_, hsize, hstart, hkeep, hblocks⟩
    have hpos : 0 < E * d.blockCount := Nat.mul_pos (by omega) ((Nat.zero_le _).trans_lt hl.start)
    rw [hcount, ← Nat.mul_assoc]
    omega
  · exact ⟨d, rfl, hl, not_le.mp hfull, rfl, rfl, .refl d, fun _ _ => rfl⟩

theorem allocateBack_spec (hend : d.startIdx + d.size ≤ E * m)
    (hsmall : d.startIdx + d.size < 2 ^ 31) (hmod : (d.startIdx + d.size) % E = 0) :
    ∃ d' m', d.allocateBack E = some d' ∧ Layout E d' m' ∧ d.startIdx + d.size < E * m' ∧
      d'.size = d.size ∧ d'.startIdx = d.startIdx ∧ d.Keeps d' ∧ ∀ j < m, d'.block j = d.block j := by
  rcases growBack_spec hl hE hend hsmall with ⟨d1, hgrow, hl1, hroom, hsize, hstart, hkeep, hsame⟩
  have hlt : (d.startIdx + d.size) / E < d1.blockCount := Nat.div_lt_of_lt_mul hroom
  have hmul : E * ((d.startIdx + d.size) / E) = d.startIdx + d.size := Nat.mul_div_cancel' (Nat.dvd_of_mod_eq_zero hmod)
  have hE0 : 0 < E := by omega
  rw [allocateBack, Word.add_of_lt (by omega), Word.mul_of_lt hl.cap, hgrow]
  dsimp only [Option.map_some]
  rw [hl1.index_eq hE hsmall, hmod]
  by_cases hnull : d1.block ((d.startIdx + d.size) / E) = none
  · -- the blocks in use end here, so the new one follows them
    have hge : m ≤ (d.startIdx + d.size) / E := by
      by_contra hlt'
      have := (hl1.blocks _ hlt).mpr (by omega)
      rw [hnull] at this
      exact absurd this (by simp)
    have hdiv : (d.startIdx + d.size) / E ≤ m := Nat.div_le_of_le_mul hend
    obtain he : (d.startIdx + d.size) / E = m := le_antisymm hdiv hge
    rw [he] at hnull hlt hmul ⊢
    have hentry : d1.blocks ((d1.startBlock + m) % d1.blockCount) = none := hnull
    rw [if_pos ⟨rfl, hentry⟩]
    have hnew := allocBlock_keeps (Nat.mod_lt _ ((Nat.zero_le _).trans_lt hlt)) hentry
    refine ⟨_, m + 1, rfl, ⟨hl1.start, hl1.cap, hlt, ?_⟩, ?_, hsize, hstart, hkeep.trans hnew, ?_⟩
    · intro j hj
      rw [allocBlock, block_set hlt hj]
      split_ifs with hjm
      · simp [hjm]
      · rw [hl1.blocks j hj]
        omega
    · rw [← hmul, Nat.mul_add]
      omega
    · intro j hj
      rw [allocBlock, block_set hlt (by omega), if_neg (by omega)]
      exact hsame j hj
  · have hentry : d1.blocks ((d1.startBlock + (d.startIdx + d.size) / E) % d1.blockCount) ≠ none := hnull
    have hm : (d.startIdx + d.size) / E < m := (hl1.blocks _ hlt).mp (Option.isSome_iff_ne_none.mpr hnull)
    refine ⟨d1, m, by rw [if_neg (fun hc => hentry hc.2)], hl1, ?_, hsize, hstart, hkeep, hsame⟩
    rw [← hmul]
    exact Nat.mul_lt_mul_of_pos_left hm hE0

/-- The first part of `allocate_block(true)`: the array has a place before the first block. -/
theorem growFront_spec (hend : d.size ≤ E * m) (hsmall : E + d.size < 2 ^ 31) (hstart : d.startIdx = 0) :
    ∃ d', (if d.startIdx = 0 ∧ d.size > E * (d.blockCount - 1) then d.reallocBlocksArray
        else some d) = some d' ∧
      Layout E d' m ∧ E + d.size ≤ E * d'.blockCount ∧ d'.size = d.size ∧ d'.startIdx = 0 ∧ d.Keeps d' ∧
      (m < d'.blockCount ∧ ¬ d.FrontTaken E ∨ d' = d ∧ d.size ≤ E * (d.blockCount - 1)) ∧
      ∀ j < m, d'.block j = d.block j := by
  have hpos : 0 < d.blockCount := (Nat.zero_le _).trans_lt hl.start
  have hcount := mul_eq_add_mul_pred E hpos
  split_ifs with hfull
  · have hm : m = d.blockCount := by
      apply le_antisymm hl.count
      by_contra hlt
      have := Nat.mul_le_mul_left E (show m ≤ d.blockCount - 1 by omega)
      omega
    subst hm
    have hcap : E * (d.blockCount * 2) < 2 ^ 32 := by
      rw [← Nat.mul_assoc]
      omega
    rcases reallocBlocksArray_spec hl (by omega) hcap with
      ⟨d', hre, hl', hcount', hsize, hstart', hkeep, hblocks⟩
    refine ⟨d', hre, hl', ?_, hsize, hstart'.trans hstart, hkeep, .inl ⟨by omega, ?_⟩, hblocks⟩
    · rw [hcount', ← Nat.mul_assoc]
      omega
    · exact fun htaken => absurd htaken.2.2.1 (Nat.not_le.mpr hfull.2)
  · have hle : d.size ≤ E * (d.blockCount - 1) := by
      by_contra hlt
      exact hfull ⟨hstart, Nat.not_le.mp hlt⟩
    exact ⟨d, rfl, hl, by omega, rfl, hstart, .refl d, .inr ⟨rfl, hle⟩, fun _ _ => rfl⟩

theorem allocateFront_spec (hend : d.size ≤ E * m) (hsmall : E + d.size < 2 ^ 31) (hstart : d.startIdx = 0)
    (hne : d.size ≠ 0) :
    ∃ d' m', d.allocateFront E = some d' ∧ Layout E d' m' ∧ E + d.size ≤ E * m' ∧
      d'.size = d.size ∧ d'.startIdx = 0 ∧ (¬ d.FrontTaken E → d.Keeps d') ∧
      (d.FrontTaken E → d.Overwritten d') ∧ ∀ i < d.size, d'.cell E (E + i) = d.cell E i := by
  rcases growFront_spec hl hE hend hsmall hstart with
    ⟨d1, hgrow, hl1, hroom, hsize, hstart1, hkeep, hcase, hsame⟩
  have hpos : 0 < d1.blockCount := (Nat.zero_le _).trans_lt hl1.start
  have hsub : Word.sub 32 d.blockCount 1 = d.blockCount - 1 :=
    Word.sub_of_le ((Nat.zero_le _).trans_lt hl.start) (hl.blockCount_lt (by omega))
  have hmul : Word.mul 32 E (d.blockCount - 1) = E * (d.blockCount - 1) :=
    Word.mul_of_lt ((Nat.mul_le_mul_left E (Nat.sub_le _ _)).trans_lt hl.cap)
  rw [allocateFront, hsub, hmul, hgrow, Option.map_some, if_pos hstart1]
  have hfirst : (d1.startBlock + d1.blockCount - 1) % d1.blockCount < d1.blockCount := Nat.mod_lt _ hpos
  have hlast : d1.blocks ((d1.startBlock + d1.blockCount - 1) % d1.blockCount) = d1.block (d1.blockCount - 1) := by
    rw [Nat.add_sub_assoc hpos]
    rfl
  have hiff := hl1.blocks (d1.blockCount - 1) (by omega)
  rw [← hlast, Option.isSome_iff_ne_none] at hiff
  -- the new block is the first one, and every other block moves up by one
  have hblock : ∀ j < d1.blockCount, block { d1.allocBlock ((d1.startBlock + d1.blockCount - 1) % d1.blockCount) with
      startBlock := (d1.startBlock + d1.blockCount - 1) % d1.blockCount } j =
      if j = 0 then some ⟨d1.ledger.next, fun _ => none⟩ else d1.block (j - 1) := by
    intro j hj
    have hset := @entry_update _ d1.blocks ((d1.startBlock + d1.blockCount - 1) % d1.blockCount)
      d1.blockCount 0 j (some ⟨d1.ledger.next, fun _ => none⟩) hpos hj
    rw [Nat.add_zero, Nat.mod_eq_of_lt hfirst] at hset
    cases j with
    | zero => exact hset
    | succ j => exact hset.trans (entry_prev hpos)
  have hnew : (¬ d.FrontTaken E →
      d.Keeps (d1.allocBlock ((d1.startBlock + d1.blockCount - 1) % d1.blockCount))) ∧ (d.FrontTaken E →
      d.Overwritten (d1.allocBlock ((d1.startBlock + d1.blockCount - 1) % d1.blockCount))) := by
    rcases hcase with ⟨hlt, hfree⟩ | ⟨rfl, hle⟩
    · refine ⟨fun _ => hkeep.trans (allocBlock_keeps hfirst ?_), fun htaken => absurd htaken hfree⟩
      by_contra hblock
      have := hiff.mp hblock
      omega
    · refine ⟨fun hfree => allocBlock_keeps hfirst ?_, fun htaken => allocBlock_overwritten hfirst htaken.2.2.2⟩
      by_contra hblock
      exact hfree ⟨hne, hstart, hle, hblock⟩
  refine ⟨_, min (m + 1) d1.blockCount, rfl, ⟨hfirst, hl1.cap, min_le_right _ _, ?_⟩, ?_, hsize, hstart1,
    hnew.1, hnew.2, ?_⟩
  · intro j hj
    rw [hblock j hj]
    dsimp only [allocBlock] at hj
    cases j with
    | zero =>
      simp only [if_pos, Option.isSome_some, true_iff]
      omega
    | succ j =>
      rw [if_neg (Nat.succ_ne_zero j), Nat.add_sub_cancel, hl1.blocks j (by omega)]
      omega
  · rcases le_total (m + 1) d1.blockCount with hm | hm
    · rw [min_eq_left hm, Nat.mul_add]
      omega
    · rw [min_eq_right hm]
      exact hroom
  · intro i hi
    have hE0 : 0 < E := by omega
    have hdiv : (E + i) / E = i / E + 1 := by rw [Nat.add_comm, Nat.add_div_right _ hE0]
    have hlt : i / E < m := Nat.div_lt_of_lt_mul (by omega)
    have hroom' : i / E + 1 < d1.blockCount := by
      rw [← hdiv]
      exact Nat.div_lt_of_lt_mul (by omega)
    rw [cell, hdiv, hblock _ hroom', if_neg (Nat.succ_ne_zero _), Nat.add_sub_cancel, Nat.add_mod_left, cell,
      ← hsame _ hlt]

end

end Allocate

section Free
variable {E m : ℕ} {d : Deque α}

theorem freeBlock_block {j k : ℕ} (hk : k < d.blockCount) (hj : j < d.blockCount) :
    (d.freeBlock ((d.startBlock + k) % d.blockCount)).block j = if j = k then none else d.block j :=
  block_set hk hj

/-- The first loop of `shrink_to_fit` frees the blocks from the `k`-th on. -/
theorem freeTail_spec {fuel k k0 : ℕ} (hs : d.startBlock < d.blockCount) (hk : 0 < k)
    (hkB : k ≤ d.blockCount) (hk0 : k0 ≤ k)
    (hblocks : ∀ j < d.blockCount, (d.block j).isSome = true ↔ j < k0 ∨ k ≤ j ∧ j < m)
    (hfuel : d.blockCount < k + fuel) :
    ∃ blocks l, freeTail fuel d ((d.startBlock + k) % d.blockCount) =
        some { d with blocks := blocks, ledger := l } ∧ d.Keeps { d with blocks := blocks, ledger := l } ∧
      (∀ j < d.blockCount, (block { d with blocks := blocks, ledger := l } j).isSome = true ↔ j < k0) ∧
      ∀ j < k, block { d with blocks := blocks, ledger := l } j = d.block j := by
  induction fuel generalizing d k with
  | zero => omega
  | succ fuel ih =>
    rw [freeTail]
    split_ifs with hmore
    · have hlt : k < d.blockCount := by
        apply lt_of_le_of_ne hkB
        rintro rfl
        rw [Nat.add_mod_right, Nat.mod_eq_of_lt hs] at hmore
        exact hmore.1 rfl
      have hblocks' : ∀ j < d.blockCount,
          ((d.freeBlock ((d.startBlock + k) % d.blockCount)).block j).isSome = true ↔
            j < k0 ∨ k + 1 ≤ j ∧ j < m := by
        intro j hj
        rw [freeBlock_block hlt hj]
        split_ifs with hjk
        · simp only [Option.isSome_none, Bool.false_eq_true, false_iff]
          omega
        · rw [hblocks j hj]
          omega
      have hkeep := freeBlock_keeps (Nat.mod_lt _ ((Nat.zero_le k).trans_lt hlt)) hmore.2
      rcases @ih (d.freeBlock ((d.startBlock + k) % d.blockCount)) (k + 1) hs (Nat.succ_pos k) hlt (by omega)
        hblocks' (by dsimp only [freeBlock]; omega) with ⟨blocks, l, hloop, hkeeps, hfree, hsame⟩
      refine ⟨blocks, l, ?_, hkeep.trans hkeeps, hfree, fun j hj => ?_⟩
      · rw [Nat.mod_add_mod, Nat.add_assoc]
        exact hloop
      · refine (hsame j (by omega)).trans ?_
        rw [freeBlock_block hlt (by omega), if_neg (by omega)]
    · refine ⟨d.blocks, d.ledger, rfl, .refl d, fun j hj => ?_, fun _ _ => rfl⟩
      have hend : k < d.blockCount → m ≤ k := by
        intro hlt
        by_contra hkm
        apply hmore
        constructor
        · intro he
          have := @index_inj d.startBlock d.blockCount k 0 hlt (by omega) (by
            rw [he, Nat.add_zero, Nat.mod_eq_of_lt hs])
          omega
        · exact Option.isSome_iff_ne_none.mp ((hblocks k hlt).mpr (.inr ⟨le_rfl, by omega⟩))
      refine (hblocks j hj).trans ⟨fun h => ?_, .inl⟩
      rcases h with h | h
      · exact h
      · omega

/-- One round of the second loop of `shrink_to_fit`. -/
def dropBlock (E : ℕ) (d : Deque α) : Deque α :=
  { d.freeBlock d.startBlock with
    startIdx := d.startIdx - E
    startBlock := (d.startBlock + 1) % d.blockCount }

theorem dropBlock_block (hs : d.startBlock < d.blockCount) {j : ℕ} (hj : j < d.blockCount) :
    (dropBlock E d).block j = if j + 1 = d.blockCount then none else d.block (j + 1) := by
  have hnext : (dropBlock E d).block j =
      entry (update d.blocks d.startBlock none) d.startBlock d.blockCount (j + 1) := entry_next
  have hfirst : d.startBlock = (d.startBlock + 0) % d.blockCount := by
    rw [Nat.add_zero, Nat.mod_eq_of_lt hs]
  rw [hnext]
  split_ifs with hlast
  · rw [hlast, entry, Nat.add_mod_right, Nat.mod_eq_of_lt hs, update_self]
  · have hset := @entry_update _ d.blocks d.startBlock d.blockCount 0 (j + 1) none (by omega) (by omega)
    rw [← hfirst, if_neg (Nat.succ_ne_zero j)] at hset
    exact hset

theorem Layout.dropBlock (hl : Layout E d m) : Layout E (dropBlock E d) (m - 1) := by
  have hs := hl.start
  have hcount := hl.count
  refine ⟨Nat.mod_lt _ (by omega), hl.cap, by dsimp only [Deque.dropBlock, freeBlock]; omega, fun j hj => ?_⟩
  rw [dropBlock_block hs hj]
  dsimp only [Deque.dropBlock, freeBlock] at hj
  split_ifs with hlast
  · simp only [Option.isSome_none, Bool.false_eq_true, false_iff]
    omega
  · rw [hl.blocks (j + 1) (by omega)]
    omega

theorem dropBlock_cell (hs : d.startBlock < d.blockCount) (hE : 0 < E) {i : ℕ}
    (hi : E + i < E * d.blockCount) : (dropBlock E d).cell E i = d.cell E (E + i) := by
  have hdiv : (E + i) / E = i / E + 1 := by rw [Nat.add_comm, Nat.add_div_right _ hE]
  have hlt : i / E + 1 < d.blockCount := by
    rw [← hdiv]
    exact Nat.div_lt_of_lt_mul hi
  rw [cell, dropBlock_block hs (by omega), if_neg (by omega), cell, hdiv, Nat.add_mod_left]

theorem freeHead_spec {fuel : ℕ} (hl : Layout E d m) (hE : 0 < E) (hend : d.startIdx ≤ E * m)
    (hfuel : d.startIdx < fuel) :
    ∃ d' q, freeHead E fuel d = some d' ∧ Layout E d' (m - q) ∧ d.startIdx = E * q + d'.startIdx ∧
      d'.startIdx < E ∧ d'.size = d.size ∧ d.Keeps d' ∧
      ∀ i, E * q + i < E * m → d'.cell E i = d.cell E (E * q + i) := by
  induction fuel generalizing d m with
  | zero => omega
  | succ fuel ih =>
    rw [freeHead]
    split_ifs with hmore
    · have hm : 0 < m := Nat.pos_of_ne_zero (by rintro rfl; omega)
      have hs := hl.start
      have hcount := hl.count
      have hfirst : (d.startBlock + 0) % d.blockCount = d.startBlock := by
        rw [Nat.add_zero, Nat.mod_eq_of_lt hs]
      have hsome : d.block 0 = d.blocks d.startBlock := congrArg d.blocks hfirst
      rcases Option.isSome_iff_exists.mp ((hl.blocks 0 (by omega)).mpr hm) with ⟨b, hb⟩
      rw [hsome] at hb
      rw [hb]
      have hmul := mul_eq_add_mul_pred E hm
      have hstep : (dropBlock E d).startIdx = d.startIdx - E := rfl
      rcases @ih (m - 1) (dropBlock E d) hl.dropBlock (by omega) (by omega) with
        ⟨d', q, hloop, hl', hstart, hlt, hsize, hkeep, hcell⟩
      have hfree : d.Keeps (dropBlock E d) := freeBlock_keeps hs (by simp [hb])
      refine ⟨d', q + 1, hloop, ?_, ?_, hlt, hsize, hfree.trans hkeep, fun i hi => ?_⟩
      · rwa [Nat.sub_sub, Nat.add_comm] at hl'
      · rw [Nat.mul_succ]
        omega
      · rw [Nat.mul_succ] at hi ⊢
        have hle : E * m ≤ E * d.blockCount := Nat.mul_le_mul_left E hcount
        have hsum : E * q + E + i = E + (E * q + i) := by omega
        rw [hcell i (by omega), dropBlock_cell hs hE (by omega), hsum]
    · exact ⟨d, 0, rfl, hl, by omega, by omega, rfl, .refl d, fun i _ => by simp⟩

end Free

end HmmOS.Nonstd.Deque
