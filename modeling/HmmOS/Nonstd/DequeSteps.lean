import HmmOS.Nonstd.DequeLayout

/-! # Single operations on a deque

A deque holds a sequence when the memory from `start_idx` on does.
-/
namespace HmmOS.Nonstd
open Lib

variable {α : Type*}

/-- The deque holds the elements `s`, in blocks that are allocated. An empty deque that starts at
index zero has no block. -/
structure IsDeque (E : ℕ) (d : Deque α) (s : List α) : Prop where
  layout : ∃ m, d.Layout E m ∧ d.startIdx + d.size ≤ E * m ∧ (d.startIdx + d.size = 0 → m = 0)
  size : d.size = s.length
  small : d.startIdx + d.size < 2 ^ 31
  elems : ∀ k < s.length, d.cell E (d.startIdx + k) = s[k]?

/-- The index of the end after `push_front`. -/
def Deque.frontEnd (E : ℕ) (d : Deque α) : ℕ :=
  if d.size = 0 then d.startIdx + 1 else if d.startIdx = 0 then E + d.size else d.startIdx + d.size

namespace IsDeque
open Deque
variable {E k m : ℕ} {d : Deque α} {s : List α} {v : α}

theorem construct (hE : E ≤ 512) (l : Ledger) : IsDeque E (Deque.construct l : Deque α) [] := by
  refine ⟨⟨0, ⟨Nat.succ_pos 15, ?_, Nat.zero_le _, ?_⟩, Nat.zero_le _, fun _ => rfl⟩, rfl,
    Nat.two_pow_pos 31, by simp⟩
  · show E * 16 < 2 ^ 32
    omega
  · intro j _
    simp [Deque.block, Deque.construct, CircularArray.entry]

theorem withLedger (hd : IsDeque E d s) (l : Ledger) : IsDeque E { d with ledger := l } s := by
  rcases hd.layout with ⟨m, hl, hend⟩
  exact ⟨⟨m, ⟨hl.start, hl.cap, hl.count, hl.blocks⟩, hend⟩, hd.size, hd.small, hd.elems⟩

theorem end_eq (hd : IsDeque E d s) : d.end_ = d.startIdx + d.size := by
  have := hd.small
  exact Word.add_of_lt (by omega)

theorem begin_eq (hd : IsDeque E d s) : d.begin = d.startIdx := by
  have := hd.small
  exact Word.add_of_lt (by omega)

theorem deref_eq (hd : IsDeque E d s) (hE : 1 < E) (hk : k < s.length) :
    d.deref E (d.startIdx + k) = s[k]? := by
  rcases hd.layout with ⟨m, hl, -⟩
  have hsmall := hd.small
  have hsize := hd.size
  rw [Deque.deref_eq hl hE (by omega)]
  exact hd.elems k hk

theorem get_eq (hd : IsDeque E d s) (hE : 1 < E) (hk : k < s.length) : d.get E k = s[k]? := by
  have hsmall := hd.small
  have hsize := hd.size
  rw [Deque.get, Word.add_of_lt (by omega)]
  exact hd.deref_eq hE hk

/-- A deque over the same blocks, with another range of indices in use. -/
theorem ofRange {i n : ℕ} (hl : d.Layout E m) (hn : n = s.length) (hend : i + n ≤ E * m) (hpos : 0 < i + n)
    (hsmall : i + n < 2 ^ 31) (helems : ∀ k < s.length, d.cell E (i + k) = s[k]?) :
    IsDeque E { d with startIdx := i, size := n } s :=
  ⟨⟨m, ⟨hl.start, hl.cap, hl.count, hl.blocks⟩, hend, fun h => absurd h hpos.ne'⟩, hn, hsmall, helems⟩

theorem append (hl : d.Layout E m) (hE : 1 < E) (hroom : d.startIdx + d.size < E * m)
    (hsize : d.size = s.length) (hsmall : d.startIdx + d.size + 1 < 2 ^ 31)
    (helems : ∀ k < s.length, d.cell E (d.startIdx + k) = s[k]?) :
    ∃ d', d.put E d.size (some v) = some d' ∧ d'.size = d.size ∧ d'.startIdx = d.startIdx ∧
      d.SamePointers d' ∧ IsDeque E { d' with size := Word.add 32 d'.size 1 } (s ++ [v]) := by
  rcases put_spec hl hE hroom (by omega) (some v) with ⟨d', hput, hl', hs', hi', hsame, hcell⟩
  refine ⟨d', hput, hs', hi', hsame, ?_⟩
  have hadd : Word.add 32 d'.size 1 = d.size + 1 := by rw [hs', Word.add_of_lt (by omega)]
  rw [hadd]
  refine ofRange hl' (by simp [hsize]) (by omega) (by omega) (by omega) fun k hk => ?_
  rw [List.length_append, List.length_singleton] at hk
  rw [hi', hcell _ (by omega)]
  by_cases hlast : k = s.length
  · rw [if_pos (by omega), hlast, List.getElem?_concat_length]
  · rw [if_neg (by omega), List.getElem?_append_left (by omega)]
    exact helems k (by omega)

theorem emplace_end (hd : IsDeque E d s) (hE : 1 < E) (hroom : d.startIdx + d.size + 1 < 2 ^ 31) :
    ∃ r, d.emplace E d.end_ v = some r ∧ IsDeque E r.1 (s ++ [v]) ∧ d.Keeps r.1 ∧
      r.1.startIdx = d.startIdx ∧ r.2 = d.end_ := by
  rcases hd.layout with ⟨m, hl, hend, -⟩
  have hsmall := hd.small
  have hgrow : ∃ d1 m1, (if Word.add 32 d.startIdx d.size % E = 0 then d.allocateBack E else some d) =
      some d1 ∧ d1.Layout E m1 ∧ d.startIdx + d.size < E * m1 ∧ d1.size = d.size ∧
      d1.startIdx = d.startIdx ∧ d.Keeps d1 ∧
      ∀ k < d.size, d1.cell E (d.startIdx + k) = d.cell E (d.startIdx + k) := by
    rw [Word.add_of_lt (by omega)]
    split_ifs with hmod
    · rcases allocateBack_spec hl hE hend hsmall hmod with
        ⟨d1, m1, ha, hl1, hr1, hs1, hi1, hkeep, hb1⟩
      exact ⟨d1, m1, ha, hl1, hr1, hs1, hi1, hkeep, fun k hk => cell_congr hb1 (by omega)⟩
    · refine ⟨d, m, rfl, hl, lt_of_le_of_ne hend ?_, rfl, rfl, .refl d, fun _ _ => rfl⟩
      intro he
      rw [he, Nat.mul_mod_right] at hmod
      exact hmod rfl
  rcases hgrow with ⟨d1, m1, hgrow, hl1, hroom1, hsize1, hstart1, hkeep, hcell1⟩
  have hsize := hd.size
  have helems : ∀ k < s.length, d1.cell E (d1.startIdx + k) = s[k]? := by
    intro k hk
    rw [hstart1, hcell1 k (by omega)]
    exact hd.elems k hk
  rcases append (v := v) hl1 hE (by omega) (by omega) (by omega) helems with
    ⟨d', hput, hs', hi', hsame, hd'⟩
  have hit : makeIterator { d' with size := Word.add 32 d'.size 1 }
      (Word.sub 32 d.end_ d.startIdx) = d.end_ := by
    rw [hd.end_eq, Word.sub_of_le (by omega) (by omega), makeIterator, hi', hstart1]
    rw [Nat.add_sub_cancel_left]
    exact Word.add_of_lt (by omega)
  refine ⟨({ d' with size := Word.add 32 d'.size 1 }, d.end_), ?_, hd', hkeep.trans hsame.keeps,
    hi'.trans hstart1, rfl⟩
  rw [emplace, if_pos rfl, hgrow]
  dsimp only [Option.map_some, Option.bind_some]
  rw [hput, Option.map_some, hit]

theorem prepend (hl : d.Layout E m) (hE : 1 < E) (hpos : 0 < d.startIdx)
    (hend : d.startIdx + d.size ≤ E * m) (hsize : d.size = s.length) (hsmall : d.startIdx + d.size < 2 ^ 31)
    (helems : ∀ k < s.length, d.cell E (d.startIdx + k) = s[k]?) :
    ∃ d', put E { d with startIdx := Word.sub 32 d.startIdx 1 } 0 (some v) = some d' ∧
      d'.startIdx = d.startIdx - 1 ∧ d'.size = d.size ∧ d.SamePointers d' ∧
      IsDeque E { d' with size := Word.add 32 d'.size 1 } (v :: s) := by
  have hsub : Word.sub 32 d.startIdx 1 = d.startIdx - 1 := Word.sub_of_le hpos (by omega)
  rw [hsub]
  have hl1 : Layout E { d with startIdx := d.startIdx - 1 } m :=
    ⟨hl.start, hl.cap, hl.count, hl.blocks⟩
  rcases @put_spec _ E m 0 _ hl1 hE (by dsimp only; omega) (by dsimp only; omega) (some v) with
    ⟨d', hput, hl', hs', hi', hsame, hcell⟩
  dsimp only at hs' hi' hcell
  refine ⟨d', hput, hi', hs', hsame, ?_⟩
  have hadd : Word.add 32 d'.size 1 = d.size + 1 := by rw [hs', Word.add_of_lt (by omega)]
  rw [hadd]
  refine ofRange hl' (by simp [hsize]) (by omega) (by omega) (by omega) fun k hk => ?_
  rw [List.length_cons] at hk
  rw [hi', hcell _ (by omega)]
  cases k with
  | zero =>
    rw [if_pos rfl]
    rfl
  | succ k =>
    have hsum : d.startIdx - 1 + (k + 1) = d.startIdx + k := by omega
    rw [if_neg (by omega), List.getElem?_cons_succ, ← helems k (by omega), hsum]
    rfl

theorem emplace_begin (hd : IsDeque E d s) (hE : 1 < E) (hroom : frontEnd E d < 2 ^ 31) :
    ∃ r, d.emplace E d.begin v = some r ∧ IsDeque E r.1 (v :: s) ∧ r.2 = r.1.begin ∧
      (¬ d.FrontTaken E → d.Keeps r.1) ∧ (d.FrontTaken E → d.Overwritten r.1) := by
  have hsize := hd.size
  have hsmall := hd.small
  by_cases hempty : d.size = 0
  · have hbe : d.begin = d.end_ := by rw [hd.begin_eq, hd.end_eq, hempty, Nat.add_zero]
    obtain rfl : s = [] := List.length_eq_zero_iff.mp (hsize ▸ hempty)
    rw [frontEnd, if_pos hempty] at hroom
    rcases hd.emplace_end (v := v) hE (by omega) with ⟨r, hr, hd', hkeep, hi', hit⟩
    refine ⟨r, hbe ▸ hr, hd', ?_, fun _ => hkeep, fun htaken => absurd hempty htaken.1⟩
    rw [hd'.begin_eq, hit, ← hbe, hd.begin_eq, hi']
  · rw [frontEnd, if_neg hempty] at hroom
    rcases hd.layout with ⟨m, hl, hend, -⟩
    have hne : d.begin ≠ d.end_ := by
      rw [hd.begin_eq, hd.end_eq]
      omega
    have hgrow : ∃ d1 m1, (if d.startIdx = 0 then (d.allocateFront E).map fun d => { d with startIdx := E }
        else some d) = some d1 ∧ d1.Layout E m1 ∧ 0 < d1.startIdx ∧ d1.startIdx + d1.size ≤ E * m1 ∧
        d1.size = d.size ∧ d1.startIdx + d1.size < 2 ^ 31 ∧ (¬ d.FrontTaken E → d.Keeps d1) ∧
        (d.FrontTaken E → d.Overwritten d1) ∧ ∀ k < s.length, d1.cell E (d1.startIdx + k) = s[k]? := by
      split_ifs with hzero
      · rw [if_pos hzero] at hroom
        rcases allocateFront_spec hl hE (by omega) hroom hzero hempty with
          ⟨d1, m1, ha, hl1, hr1, hs1, hi1, hkeep, htaken, hc1⟩
        refine ⟨{ d1 with startIdx := E }, m1, by rw [ha]; rfl,
          ⟨hl1.start, hl1.cap, hl1.count, hl1.blocks⟩, by dsimp only; omega, ?_, hs1, ?_, hkeep, htaken, ?_⟩
        · dsimp only
          omega
        · dsimp only
          omega
        · intro k hk
          have hold := hd.elems k hk
          rw [hzero, Nat.zero_add, ← hc1 k (by omega)] at hold
          exact hold
      · exact ⟨d, m, rfl, hl, by omega, hend, rfl, hsmall, fun _ => .refl d,
          fun htaken => absurd htaken.2.1 hzero, hd.elems⟩
    rcases hgrow with ⟨d1, m1, hgrow, hl1, hpos1, hend1, hsize1, hsmall1, hkeep, htaken, helems1⟩
    rcases prepend (v := v) hl1 hE hpos1 hend1 (by omega) hsmall1 helems1 with
      ⟨d', hput, hi', hs', hsame, hd'⟩
    refine ⟨({ d' with size := Word.add 32 d'.size 1 }, begin { d' with size := Word.add 32 d'.size 1 }),
      ?_, hd', rfl, fun hfree => (hkeep hfree).trans hsame.keeps, fun h => (htaken h).trans hsame⟩
    have hidx : Word.sub 32 d.begin d.startIdx = 0 := by
      rw [hd.begin_eq, Word.sub_of_le le_rfl (by omega), Nat.sub_self]
    rw [emplace, if_neg hne, if_pos rfl, hgrow, hidx]
    dsimp only [Option.map_some, Option.bind_some]
    rw [hput]
    rfl

theorem destroyed (hd : IsDeque E d s) (hE : 1 < E) (hk : k < s.length) :
    ∃ w d' m, d.get E k = some w ∧ d.put E k none = some d' ∧ d'.Layout E m ∧
      d.startIdx + d.size ≤ E * m ∧ d'.size = d.size ∧ d'.startIdx = d.startIdx ∧ d.Keeps d' ∧
      ∀ j < s.length, j ≠ k → d'.cell E (d.startIdx + j) = s[j]? := by
  rcases hd.layout with ⟨m, hl, hend, -⟩
  have hsize := hd.size
  have hsmall := hd.small
  rcases put_spec hl hE (by omega : d.startIdx + k < E * m) (by omega) none with
    ⟨d', hput, hl', hs', hi', hsame, hcell⟩
  refine ⟨s[k], d', m, ?_, hput, hl', hend, hs', hi', hsame.keeps, fun j hj hne => ?_⟩
  · rw [hd.get_eq hE hk, List.getElem?_eq_getElem hk]
  · rw [hcell _ (by omega), if_neg (by omega)]
    exact hd.elems j hj

theorem erase_begin (hd : IsDeque E d (v :: s)) (hE : 1 < E) :
    ∃ r, d.erase E d.begin = some r ∧ IsDeque E r.1 s ∧ d.Keeps r.1 ∧ r.2 = r.1.begin ∧
      r.1.startIdx = d.startIdx + 1 := by
  have hsize := hd.size
  have hsmall := hd.small
  rw [List.length_cons] at hsize
  rcases hd.destroyed hE (Nat.succ_pos s.length) with
    ⟨w, d', m, hget, hput, hl', hend, hs', hi', hkeep, hcell⟩
  have hidx : Word.sub 32 d.begin d.startIdx = 0 := by
    rw [hd.begin_eq, Word.sub_of_le le_rfl (by omega), Nat.sub_self]
  have hadd : Word.add 32 d'.startIdx 1 = d.startIdx + 1 := by rw [hi', Word.add_of_lt (by omega)]
  have hsub : Word.sub 32 d'.size 1 = d.size - 1 := by rw [hs', Word.sub_of_le (by omega) (by omega)]
  have herase : d.erase E d.begin = some ({ d' with startIdx := d.startIdx + 1, size := d.size - 1 },
      makeIterator { d' with startIdx := d.startIdx + 1, size := d.size - 1 } 0) := by
    rw [erase, hidx, hget, Option.bind_some, hput, Option.bind_some, if_pos rfl, hadd, Option.map_some]
    rw [hsub]
  refine ⟨_, herase, ofRange hl' (by omega) (by omega) (by omega) (by omega) fun k hk => ?_, hkeep, rfl, rfl⟩
  have hold := hcell (k + 1) (by simpa using hk) (Nat.succ_ne_zero k)
  rw [List.getElem?_cons_succ] at hold
  rw [← hold, Nat.add_assoc, Nat.add_comm 1 k]

theorem erase_last (hd : IsDeque E d (s ++ [v])) (hE : 1 < E) :
    ∃ r, d.erase E (Word.sub 32 d.end_ 1) = some r ∧ IsDeque E r.1 s ∧ d.Keeps r.1 ∧
      (s ≠ [] → r.1.startIdx = d.startIdx) := by
  have hsize := hd.size
  have hsmall := hd.small
  rw [List.length_append, List.length_singleton] at hsize
  have hpos : Word.sub 32 d.end_ 1 = d.startIdx + s.length := by
    rw [hd.end_eq, Word.sub_of_le (by omega) (by omega)]
    omega
  by_cases hs : s = []
  · subst hs
    have hbegin : Word.sub 32 d.end_ 1 = d.begin := by rw [hpos, hd.begin_eq, List.length_nil, Nat.add_zero]
    rcases hd.erase_begin hE with ⟨r, hr, hd', hkeep, -⟩
    exact ⟨r, hbegin ▸ hr, hd', hkeep, fun hne => absurd rfl hne⟩
  · have hlen : 0 < s.length := List.length_pos_iff.mpr hs
    rcases hd.destroyed hE (show s.length < (s ++ [v]).length by simp) with
      ⟨w, d', m, hget, hput, hl', hend, hs', hi', hkeep, hcell⟩
    have hidx : Word.sub 32 (d.startIdx + s.length) d.startIdx = s.length := by
      rw [Word.sub_of_le (by omega) (by omega), Nat.add_sub_cancel_left]
    have hsub : Word.sub 32 d'.size 1 = d.size - 1 := by rw [hs', Word.sub_of_le (by omega) (by omega)]
    have hne : d.startIdx + s.length ≠ d.begin := by
      rw [hd.begin_eq]
      omega
    have herase : d.erase E (d.startIdx + s.length) = some ({ d' with size := d.size - 1 },
        makeIterator { d' with size := d.size - 1 } s.length) := by
      rw [erase, hidx, hget, Option.bind_some, hput, Option.bind_some, if_neg hne, hpos, if_pos rfl,
        Option.map_some]
      rw [hsub]
    rw [hpos]
    refine ⟨_, herase, ofRange hl' (by omega) (by omega) (by omega) (by omega) fun k hk => ?_, hkeep, fun _ => hi'⟩
    have hold := hcell k (by simp; omega) (by omega)
    rw [List.getElem?_append_left hk, ← hi'] at hold
    exact hold

theorem freeTail_spec (hd : IsDeque E d s) (hE : 1 < E) :
    ∃ d' m, freeTail (d.blockCount + 1) d (Word.add 32 d.startBlock
        (Word.add 32 (Word.sub 32 (Word.add 32 d.startIdx d.size) 1 / E) 1) % d.blockCount) = some d' ∧
      d'.Layout E m ∧ d.startIdx + d.size ≤ E * m ∧ E * m < d.startIdx + d.size + E ∧
      d'.size = d.size ∧ d'.startIdx = d.startIdx ∧ d.Keeps d' ∧
      ∀ i < d.startIdx + d.size, d'.cell E i = d.cell E i := by
  rcases hd.layout with ⟨m, hl, hend, hnone⟩
  have hsmall := hd.small
  have hE0 : 0 < E := by omega
  rw [Word.add_of_lt (by omega : d.startIdx + d.size < 2 ^ 32)]
  by_cases hzero : d.startIdx + d.size = 0
  · -- with no block in the array the loop stops wherever it starts
    obtain rfl := hnone hzero
    have hnull : ∀ i < d.blockCount, d.blocks i = none := by
      intro i hi
      rcases CircularArray.exists_index hl.start hi with ⟨j, hj, rfl⟩
      have := hl.blocks j hj
      simp only [Nat.not_lt_zero, iff_false, Option.not_isSome_iff_eq_none] at this
      exact this
    refine ⟨d, 0, ?_, hl, by omega, by omega, rfl, rfl, .refl d, fun _ _ => rfl⟩
    rw [freeTail, if_neg]
    intro hmore
    exact hmore.2 (hnull _ (Nat.mod_lt _ ((Nat.zero_le _).trans_lt hl.start)))
  · obtain ⟨q, hq⟩ : ∃ q, (d.startIdx + d.size - 1) / E = q := ⟨_, rfl⟩
    have hdiv : q < m := hq ▸ Nat.div_lt_of_lt_mul (by omega)
    have hlow : E * q ≤ d.startIdx + d.size - 1 := hq ▸ Nat.mul_div_le _ _
    have hhigh : d.startIdx + d.size - 1 < E * (q + 1) := hq ▸ Nat.lt_mul_div_succ _ hE0
    have hcap := hl.cap
    have hmB := hl.count
    have hsB := hl.start
    have htwo : 2 * d.blockCount ≤ E * d.blockCount := Nat.mul_le_mul_right _ hE
    have hk : Word.add 32 d.startBlock (Word.add 32 (Word.sub 32 (d.startIdx + d.size) 1 / E) 1) =
        d.startBlock + (q + 1) := by
      rw [Word.sub_of_le (by omega) (by omega), hq, Word.add_of_lt (by omega : q + 1 < 2 ^ 32),
        Word.add_of_lt (by omega)]
    have hblocks : ∀ j < d.blockCount, (d.block j).isSome = true ↔
        j < q + 1 ∨ q + 1 ≤ j ∧ j < m := by
      intro j hj
      rw [hl.blocks j hj]
      omega
    rcases @Deque.freeTail_spec _ m d (d.blockCount + 1) (q + 1) (q + 1) hl.start (Nat.succ_pos q)
      (by omega) le_rfl hblocks (by omega) with ⟨blocks, l, hfree, hkeep, hleft, hsame⟩
    rw [hk]
    refine ⟨_, q + 1, hfree, ⟨hl.start, hl.cap, by dsimp only; omega, hleft⟩, by omega, ?_, rfl, rfl,
      hkeep, fun i hi => cell_congr hsame (by omega)⟩
    rw [Nat.mul_succ]
    omega

theorem of_no_blocks (hl : d.Layout E 0) (hsize : d.size = 0) (hstart : d.startIdx = 0) :
    IsDeque E d [] ∧ ∀ i < d.blockCount, d.blocks i = none := by
  refine ⟨⟨⟨0, hl, by omega, fun _ => rfl⟩, hsize, by omega, by simp⟩, fun i hi => ?_⟩
  rcases CircularArray.exists_index hl.start hi with ⟨j, hj, rfl⟩
  have hblock := hl.blocks j hj
  rw [Option.isSome_iff_ne_none, iff_false_right (Nat.not_lt_zero j), not_not] at hblock
  exact hblock

/-- The last step of `shrink_to_fit` on an empty deque, which frees the only block left. -/
theorem freeLast (hl : d.Layout E m) (hm : m ≤ 1) (hstart : d.startIdx ≤ E * m) (hsize : d.size = 0) :
    ∃ d', (if d.size = 0 ∧ d.blocks d.startBlock ≠ none then { d.freeBlock d.startBlock with startIdx := 0 }
        else d) = d' ∧ d'.Layout E 0 ∧ d.Keeps d' ∧ d'.size = 0 ∧ d'.startIdx = 0 := by
  have hfirst : (d.startBlock + 0) % d.blockCount = d.startBlock := by
    rw [Nat.add_zero, Nat.mod_eq_of_lt hl.start]
  have hpos : 0 < d.blockCount := (Nat.zero_le _).trans_lt hl.start
  have hblock := hl.blocks 0 hpos
  have hnull : d.block 0 = d.blocks d.startBlock := congrArg d.blocks hfirst
  rw [hnull, Option.isSome_iff_ne_none] at hblock
  by_cases hne : d.blocks d.startBlock = none
  · have hzero : m = 0 := by
      by_contra hm0
      exact hblock.mpr (Nat.pos_of_ne_zero hm0) hne
    subst hzero
    refine ⟨d, if_neg fun hc => hc.2 hne, hl, .refl d, hsize, by omega⟩
  · refine ⟨_, if_pos ⟨hsize, hne⟩, ⟨hl.start, hl.cap, Nat.zero_le _, fun j hj => ?_⟩,
      freeBlock_keeps hl.start hne, hsize, rfl⟩
    have hset := freeBlock_block hpos hj
    rw [hfirst] at hset
    have hset' : block { d.freeBlock d.startBlock with startIdx := 0 } j = if j = 0 then none else d.block j := hset
    rw [hset']
    split_ifs with hj0
    · simp
    · rw [hl.blocks j hj]
      omega

theorem shrinkToFit (hd : IsDeque E d s) (hE : 1 < E) :
    ∃ d', d.shrinkToFit E = some d' ∧ IsDeque E d' s ∧ d.Keeps d' ∧
      (s = [] → ∀ i < d'.blockCount, d'.blocks i = none) := by
  have hsize := hd.size
  have hsmall := hd.small
  have hE0 : 0 < E := by omega
  rcases hd.freeTail_spec hE with ⟨d1, m, htail, hl1, hend, htight, hsize1, hstart1, hkeep1, hcell1⟩
  rcases freeHead_spec hl1 hE0 (by omega) (Nat.lt_succ_self d1.startIdx) with
    ⟨d2, q, hhead, hl2, hstart2, hlt2, hsize2, hkeep2, hcell2⟩
  have hqm : q ≤ m := by
    by_contra hgt
    have := Nat.mul_lt_mul_of_pos_left (not_le.mp hgt) hE0
    omega
  have hmul : E * m = E * q + E * (m - q) := by rw [← Nat.mul_add, Nat.add_sub_cancel' hqm]
  rw [Deque.shrinkToFit, htail, Option.bind_some, hhead, Option.map_some]
  cases s with
  | nil =>
    rw [List.length_nil] at hsize
    have hone : m - q ≤ 1 := by
      by_contra hgt
      have := Nat.mul_le_mul_left E (show 2 ≤ m - q by omega)
      omega
    rcases freeLast hl2 hone (by omega) (by omega) with ⟨d3, hlast, hl3, hkeep3, hsize3, hstart3⟩
    rcases of_no_blocks hl3 hsize3 hstart3 with ⟨hd3, hnone⟩
    exact ⟨d3, by rw [hlast], hd3, (hkeep1.trans hkeep2).trans hkeep3, fun _ => hnone⟩
  | cons v s =>
    rw [List.length_cons] at hsize
    refine ⟨d2, by rw [if_neg (by omega)], ⟨⟨m - q, hl2, by omega, by omega⟩, ?_, by omega, ?_⟩,
      hkeep1.trans hkeep2, fun hc => absurd hc (by simp)⟩
    · rw [hsize2, hsize1, hsize, List.length_cons]
    · intro k hk
      rw [List.length_cons] at hk
      have hsum : E * q + (d2.startIdx + k) = d.startIdx + k := by omega
      rw [hcell2 _ (by omega), hsum, hcell1 _ (by omega)]
      exact hd.elems k hk

end IsDeque

end HmmOS.Nonstd
