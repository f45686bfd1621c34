import HmmOS.Arch.PageTableRefinement
import HmmOS.Lib.Turns
import Mathlib.Data.List.Pairwise

/-! # The I/O map

`io_alloc` hands out the I/O map from its start and takes nothing back; `ioremap` maps the pages of a range
one after the other, and leaves those before a failure mapped.
-/
namespace HmmOS.Mm.Virt
open Lib Util.Algorithm Arch.PageTable Function

def ioMapStart : ℕ := 4 * gb - kernelMapSz - ioMapSz

@[simp] theorem ioMapStart_eq : ioMapStart = 4257218560 := rfl
@[simp] theorem ioMapSz_eq : ioMapSz = 4194304 := rfl

/-- `io_alloc` with the static `io_region_offset`; the shift and the sums have 32 bits. -/
def ioAlloc (offset pg : ℕ) : Option ℕ × ℕ :=
  let bytes := (pg <<< pgSzBits) % 2 ^ 32
  if Word.add 32 offset bytes > ioMapSz then (none, offset)
  else (some (ioMapStart + offset), Word.add 32 offset bytes)

/-- Turn `i` of `ioremap`, in which `operator new` would return `newPage i`. The shifts are of an `int`. -/
def ioremapTurn (cr3 : ℕ) (newPage : ℕ → Option ℕ) (phys virt i : ℕ) (mem : PtMem) : Option (PtMem × Bool) :=
  map mem cr3 (newPage i) (Word.add 64 phys (Word.ofInt 64 (Int.bmod (i <<< pgSzBits : ℕ) (2 ^ 32))))
    (Word.add 32 virt (i <<< pgSzBits)) false true true

def ioremap (mem : PtMem) (cr3 : ℕ) (newPage : ℕ → Option ℕ) (phys virt pg : ℕ) : Option (PtMem × Bool) :=
  turns (ioremapTurn cr3 newPage phys virt) pg 0 mem

/-- A page of device memory: writable, for the kernel only, not cached. -/
def ioPage (phys i : ℕ) : Translation := ⟨phys / 4096 + i, true, false, true⟩

/-- The first `k` pages from `virt` on are those from `phys` on, and the others as in `t`. -/
def mapRange (t : ℕ → Option Translation) (phys virt k v : ℕ) : Option Translation :=
  if v % 4096 = 0 ∧ virt ≤ v ∧ v < virt + 4096 * k then some (ioPage phys ((v - virt) / 4096)) else t v

def taken (used : Set ℕ) (newPage : ℕ → Option ℕ) (n : ℕ) : Set ℕ :=
  used ∪ {page | ∃ i < n, newPage i = some page}

/-- No page is returned twice by `operator new`, nor is one that is in use. -/
def Supply (used : Set ℕ) (newPage : ℕ → Option ℕ) : Prop :=
  ∀ i page, newPage i = some page → FreshPage (taken used newPage i) page

/-- Whole pages, outside of the 4MB entries of the directory. -/
structure RangeOk (mem : PtMem) (cr3 phys virt pg : ℕ) : Prop where
  phys_aligned : phys % 4096 = 0
  phys_fits : phys + 4096 * pg ≤ 2 ^ 32
  aligned : virt % 4096 = 0
  fits : virt + 4096 * pg ≤ 2 ^ 32
  int : pg ≤ 2 ^ 19
  small : ∀ i < pg, (mem (pdOf cr3) (pdIdx (virt + 4096 * i))).huge = false

section Range
variable {mem0 mem mem' : PtMem} {cr3 phys virt pg i : ℕ} {used used' : Set ℕ} {t t' : ℕ → Option Translation}
  {newPage : ℕ → Option ℕ}

theorem mapRange_succ (hv : virt % 4096 = 0) :
    update (mapRange t phys virt i) (virt + 4096 * i) (some (ioPage phys i)) = mapRange t phys virt (i + 1) := by
  funext v
  rw [update_apply, mapRange, mapRange]
  split_ifs with heq hin hout hin
  · rw [heq, Nat.add_sub_cancel_left, Nat.mul_div_cancel_left _ (by omega)]
  · omega
  · rfl
  · omega
  · omega
  · rfl

theorem mapRange_next : mapRange t phys virt i (virt + 4096 * i) = t (virt + 4096 * i) := if_neg (by omega)

theorem shift_eq (i : ℕ) : i <<< pgSzBits = 4096 * i := (Nat.shiftLeft_eq i 12).trans (Nat.mul_comm ..)

theorem taken_succ : taken used newPage (i + 1) = taken used newPage i ∪ {page | newPage i = some page} := by
  ext page
  simp only [taken, Nat.lt_succ_iff_lt_or_eq, or_and_right, exists_or, exists_eq_left, Set.mem_union,
    Set.mem_ofPred_eq, or_assoc]

theorem steps_trans (h : StepsTo mem0 mem cr3 used t) (h' : StepsTo mem mem' cr3 used' t') :
    StepsTo mem0 mem' cr3 used' t' where
  wf := h'.wf
  walk_eq := h'.walk_eq
  kept i hi := by rw [h'.kept i (h.kept i hi ▸ hi), h.kept i hi]
  huge i := by rw [h'.huge, h.huge]

theorem steps_mono (h : StepsTo mem0 mem cr3 used t) (hsub : used ⊆ used') : StepsTo mem0 mem cr3 used' t :=
  ⟨h.wf.mono hsub, h.walk_eq, h.kept, h.huge⟩

/-- The first `k` pages were free and are mapped now; `n` turns may have taken a page. -/
structure Mapped (mem0 : PtMem) (cr3 : ℕ) (used : Set ℕ) (newPage : ℕ → Option ℕ) (phys virt n k : ℕ)
    (mem : PtMem) : Prop where
  steps : StepsTo mem0 mem cr3 (taken used newPage n) (mapRange (walk mem0 cr3) phys virt k)
  free : ∀ i < k, walk mem0 cr3 (virt + 4096 * i) = none

theorem Mapped.turn (h : Mapped mem0 cr3 used newPage phys virt i i mem) (hs : Supply used newPage)
    (hr : RangeOk mem0 cr3 phys virt pg) (hi : i < pg) :
    ∃ mem' ok, ioremapTurn cr3 newPage phys virt i mem = some (mem', ok) ∧
      (ok = true ∧ Mapped mem0 cr3 used newPage phys virt (i + 1) (i + 1) mem' ∨
        ok = false ∧ Mapped mem0 cr3 used newPage phys virt (i + 1) i mem' ∧
          (walk mem0 cr3 (virt + 4096 * i) ≠ none ∨ newPage i = none)) := by
  obtain ⟨hpa, hphys, hal, hfits, hint, hsmall⟩ := hr
  rw [ioremapTurn, shift_eq, Word.bmod_natCast (by omega), Word.ofInt_natCast (by omega), Word.add_of_lt (by omega),
    Word.add_of_lt (by omega)]
  have hv : IsPage (virt + 4096 * i) := ⟨pgAligned_iff.mpr (by omega), by omega⟩
  obtain ⟨mem', hmap, hst⟩ := map_spec h.steps.wf (hs i) false true true hv
    ((h.steps.huge _).trans (hsmall i hi)) (pgAligned_iff.mpr (by omega)) (show phys + 4096 * i < 2 ^ 32 by omega)
  have hsub : usedAfter mem cr3 (taken used newPage i) (newPage i)
      (.map (phys + 4096 * i) (virt + 4096 * i) false true true) ⊆ taken used newPage (i + 1) := by
    rw [usedAfter, taken_succ]
    split_ifs
    · exact subset_rfl
    · exact Set.subset_union_left
  have hst' := steps_mono (steps_trans h.steps hst) hsub
  rw [h.steps.walk_eq, absStep, mapRange_next] at hmap hst'
  refine ⟨mem', _, hmap, ?_⟩
  split_ifs at hst' ⊢ with hroom
  · have hpage : (⟨(phys + 4096 * i) / pgSz, true, false, true⟩ : Translation) = ioPage phys i := by
      rw [ioPage, pgSz_eq, Nat.add_mul_div_left _ _ (by omega)]
    rw [hpage, mapRange_succ hal] at hst'
    refine .inl ⟨rfl, hst', fun j hj => ?_⟩
    rcases Nat.lt_succ_iff_lt_or_eq.mp hj with hj | rfl
    · exact h.free j hj
    · exact hroom.1
  · refine .inr ⟨rfl, ⟨hst', h.free⟩, ?_⟩
    by_contra! hnot
    exact hroom ⟨hnot.1, by simp [Option.isSome_iff_ne_none.mpr hnot.2]⟩

/-- The pages before the first turn that fails are mapped. -/
theorem ioremap_spec (hw : WellFormed mem cr3 used) (hs : Supply used newPage) (hr : RangeOk mem cr3 phys virt pg) :
    ∃ k ≤ pg, ∃ mem', ioremap mem cr3 newPage phys virt pg = some (mem', decide (k = pg)) ∧
      Mapped mem cr3 used newPage phys virt pg k mem' ∧
      (k < pg → walk mem cr3 (virt + 4096 * k) ≠ none ∨ newPage k = none) := by
  have hzero : Mapped mem cr3 used newPage phys virt 0 0 mem := by
    have hsame : mapRange (walk mem cr3) phys virt 0 = walk mem cr3 := funext fun v => if_neg (by omega)
    refine ⟨?_, nofun⟩
    rw [hsame]
    exact steps_mono hw.stays Set.subset_union_left
  obtain ⟨k, hk, mem', hrun, hcase⟩ :=
    turns_spec (fun i => Mapped mem cr3 used newPage phys virt i i) (n := pg)
      (fun j _ hj mem' h => h.turn hs hr (by omega)) hzero
  rw [Nat.zero_add] at hcase
  refine ⟨k, hk, mem', hrun, ?_⟩
  obtain ⟨rfl, hdone⟩ | ⟨hlt, hstop, hwhy⟩ := hcase
  · exact ⟨hdone, fun h => absurd h (lt_irrefl k)⟩
  · refine ⟨⟨steps_mono hstop.steps ?_, hstop.free⟩, fun _ => hwhy⟩
    exact Set.union_subset_union_right _ fun page ⟨j, hj, hp⟩ => ⟨j, by omega, hp⟩

end Range

/-- One page for a table, when the directory of `hhdmOnly` has none. -/
def onePage (i : ℕ) : Option ℕ := if i = 0 then some 0xC0002000 else none

theorem onePage_supply : Supply {0xC0001000} onePage := by
  intro i page h
  obtain ⟨rfl, rfl⟩ : i = 0 ∧ page = 0xC0002000 := by
    rw [onePage] at h
    split_ifs at h with hi
    exact ⟨hi, (Option.some.inj h).symm⟩
  exact ⟨by decide, by decide, by decide, by simp [taken]⟩

theorem hhdmOnly_walk (v : ℕ) : walk hhdmOnly 0x1000 v = none := by
  by_cases hv : IsPage v
  · have htable : tableOf hhdmOnly (pdOf 0x1000) (pdIdx v) = none := by
      rw [tableOf, hhdmOnly]
      split_ifs <;> simp_all
    rw [walk_eq (by decide) hv, htable, Option.bind_none]
  · exact walk_of_not_isPage hv

theorem abar_range : RangeOk hhdmOnly 0x1000 0xFEBF1000 ioMapStart 1 :=
  ⟨by decide, by decide, by decide, by decide, by decide, by decide⟩

/-- Page tables, the blocks from `io_alloc` (an address and a number of pages), and the devices that were mapped
into a block, by physical address. -/
structure IoState where
  mem : PtMem
  used : Set ℕ
  offset : ℕ
  blocks : List (ℕ × ℕ)
  devices : List (ℕ × ℕ × ℕ)

def InBlock (b : ℕ × ℕ) (v : ℕ) : Prop := b.1 ≤ v ∧ v < b.1 + 4096 * b.2

def Apart (a b : ℕ × ℕ) : Prop := a.1 + 4096 * a.2 ≤ b.1 ∨ b.1 + 4096 * b.2 ≤ a.1

instance : Std.Symm Apart := ⟨fun _ _ => Or.symm⟩

/-- The I/O map as a block. -/
abbrev ioMap : ℕ × ℕ := (ioMapStart, 1024)

def IoState.Vacant (s : IoState) (b : ℕ × ℕ) : Prop := b ∈ s.blocks ∧ ∀ d ∈ s.devices, d.2 ≠ b

section Io
variable (mem0 : PtMem) (cr3 : ℕ) (used0 : Set ℕ)

/-- Blocks are allocated and devices mapped into them in any order. Other calls are for pages outside of the I/O
map or in a block without a device. -/
inductive IoReach : IoState → Prop
  | init : IoReach ⟨mem0, used0, 0, [], []⟩
  | alloc {s pg virt offset} (hr : IoReach s) (hpg : s.offset + 4096 * pg < 2 ^ 32)
      (ha : ioAlloc s.offset pg = (some virt, offset)) :
      IoReach { s with offset := offset, blocks := (virt, pg) :: s.blocks }
  | remap {s b phys newPage mem ok} (hr : IoReach s) (hb : s.Vacant b) (hpa : phys % 4096 = 0)
      (hphys : phys + 4096 * b.2 ≤ 2 ^ 32) (hs : Supply s.used newPage)
      (hm : ioremap s.mem cr3 newPage phys b.1 b.2 = some (mem, ok)) :
      IoReach { s with
        mem := mem, used := taken s.used newPage b.2
        devices := if ok then (phys, b) :: s.devices else s.devices }
  | call {s op newPage mem ok} (hr : IoReach s) (hop : op.Valid (mem0 (pdOf cr3)))
      (hout : InBlock ioMap op.virt → ∃ b, s.Vacant b ∧ InBlock b op.virt)
      (hf : ∀ page, newPage = some page → FreshPage s.used page)
      (hm : ptStep s.mem cr3 newPage op = some (mem, ok)) :
      IoReach { s with mem := mem, used := usedAfter s.mem cr3 s.used newPage op }

structure IoOk (s : IoState) : Prop where
  steps : StepsTo mem0 s.mem cr3 s.used (walk s.mem cr3)
  offset : s.offset % 4096 = 0 ∧ s.offset ≤ ioMapSz
  inside : ∀ b ∈ s.blocks, b.1 % 4096 = 0 ∧ ioMapStart ≤ b.1 ∧ b.1 + 4096 * b.2 ≤ ioMapStart + s.offset
  apart : s.blocks.Pairwise Apart
  free : ∀ v, ioMapStart + s.offset ≤ v → InBlock ioMap v → walk s.mem cr3 v = none
  owned : ∀ d ∈ s.devices, d.2 ∈ s.blocks
  mapped : ∀ d ∈ s.devices, ∀ i < d.2.2, walk s.mem cr3 (d.2.1 + 4096 * i) = some (ioPage d.1 i)

variable {mem0 cr3 used0} {s : IoState}

theorem ioAlloc_eq {offset pg virt offset' : ℕ} (hpg : offset + 4096 * pg < 2 ^ 32)
    (h : ioAlloc offset pg = (some virt, offset')) :
    virt = ioMapStart + offset ∧ offset' = offset + 4096 * pg ∧ offset' ≤ ioMapSz := by
  rw [ioAlloc, shift_eq, Nat.mod_eq_of_lt (by omega), Word.add_of_lt (by omega)] at h
  split_ifs at h with hfull
  · cases h
  · obtain ⟨hv, rfl⟩ := Prod.mk.inj h
    exact ⟨(Option.some.inj hv).symm, rfl, by omega⟩

theorem IoOk.range (h : IoOk mem0 cr3 s) (hhuge : (mem0 (pdOf cr3) 1015).huge = false) {b : ℕ × ℕ}
    (hb : b ∈ s.blocks) {phys : ℕ} (hpa : phys % 4096 = 0) (hphys : phys + 4096 * b.2 ≤ 2 ^ 32) :
    RangeOk s.mem cr3 phys b.1 b.2 := by
  obtain ⟨hal, hlo, hhi⟩ := h.inside b hb
  have hoff := h.offset.2
  rw [ioMapStart_eq] at hlo hhi
  rw [ioMapSz_eq] at hoff
  refine ⟨hpa, hphys, hal, by omega, by omega, fun i hi => ?_⟩
  have hidx : pdIdx (b.1 + 4096 * i) = 1015 := by
    rw [pdIdx_eq]
    omega
  rw [hidx, h.steps.huge, hhuge]

theorem IoOk.alloc (h : IoOk mem0 cr3 s) {pg virt offset : ℕ} (hpg : s.offset + 4096 * pg < 2 ^ 32)
    (ha : ioAlloc s.offset pg = (some virt, offset)) :
    IoOk mem0 cr3 { s with offset := offset, blocks := (virt, pg) :: s.blocks } := by
  obtain ⟨rfl, rfl, hle⟩ := ioAlloc_eq hpg ha
  have hoff := h.offset.1
  refine ⟨h.steps, ⟨by dsimp only; omega, hle⟩, List.forall_mem_cons.mpr ⟨?_, fun b hb => ?_⟩,
    List.pairwise_cons.mpr ⟨fun b hb => .inr (h.inside b hb).2.2, h.apart⟩, fun v hv => h.free v ?_,
    fun d hd => List.mem_cons_of_mem _ (h.owned d hd), h.mapped⟩
  · exact ⟨by rw [ioMapStart_eq]; omega, Nat.le_add_right _ _, by dsimp only; omega⟩
  · exact (h.inside b hb).imp_right (And.imp_right fun hhi => by dsimp only; omega)
  · dsimp only at hv
    omega

/-- What changes only pages of blocks without a device keeps the invariant. -/
theorem IoOk.frame (h : IoOk mem0 cr3 s) {mem : PtMem} {used : Set ℕ} {t : ℕ → Option Translation}
    (hst : StepsTo s.mem mem cr3 used t)
    (hsame : ∀ v, InBlock ioMap v → t v ≠ walk s.mem cr3 v → ∃ b, s.Vacant b ∧ InBlock b v) :
    IoOk mem0 cr3 { s with mem := mem, used := used } := by
  obtain rfl := hst.walk_eq
  refine ⟨steps_trans h.steps hst, h.offset, h.inside, h.apart, fun v hv hio => ?_, h.owned, fun d hd i hi => ?_⟩
  · rw [← h.free v hv hio]
    by_contra hne
    obtain ⟨b, hb, hin⟩ := hsame v hio hne
    have hhi := (h.inside b hb.1).2.2
    have := hin.2
    dsimp only at hv
    omega
  · rw [← h.mapped d hd i hi]
    by_contra hne
    obtain ⟨-, hlo, hhi⟩ := h.inside d.2 (h.owned d hd)
    have hoff := h.offset.2
    rw [ioMapSz_eq] at hoff
    obtain ⟨b, hb, hin⟩ := hsame _ ⟨by dsimp only; omega, by dsimp only; omega⟩ hne
    have hapart := h.apart.forall (h.owned d hd) hb.1 (hb.2 d hd)
    simp only [InBlock, Apart] at hin hapart
    omega

theorem IoOk.remap (h : IoOk mem0 cr3 s) (hhuge : (mem0 (pdOf cr3) 1015).huge = false) {b : ℕ × ℕ} {phys : ℕ}
    {newPage : ℕ → Option ℕ} {mem : PtMem} {ok : Bool} (hb : s.Vacant b) (hpa : phys % 4096 = 0)
    (hphys : phys + 4096 * b.2 ≤ 2 ^ 32) (hs : Supply s.used newPage)
    (hm : ioremap s.mem cr3 newPage phys b.1 b.2 = some (mem, ok)) :
    IoOk mem0 cr3 { s with
      mem := mem, used := taken s.used newPage b.2
      devices := if ok then (phys, b) :: s.devices else s.devices } := by
  have hrange := h.range hhuge hb.1 hpa hphys
  obtain ⟨k, hk, mem', hrun, hmap, -⟩ := ioremap_spec h.steps.wf hs hrange
  obtain ⟨rfl, rfl⟩ := Prod.mk.inj (Option.some.inj (hm.symm.trans hrun))
  have h' := h.frame hmap.steps fun v _ hne => ⟨b, hb, by
    rw [mapRange] at hne
    split_ifs at hne with hin
    · exact ⟨hin.2.1, by omega⟩
    · exact absurd rfl hne⟩
  refine ⟨h'.steps, h'.offset, h'.inside, h'.apart, h'.free, ?_, ?_⟩ <;> dsimp only <;> split_ifs with hdone
  · exact List.forall_mem_cons.mpr ⟨hb.1, h.owned⟩
  · exact h.owned
  · refine List.forall_mem_cons.mpr ⟨fun i hi => ?_, h'.mapped⟩
    obtain rfl := of_decide_eq_true hdone
    have hal := hrange.aligned
    dsimp only at hi ⊢
    rw [hmap.steps.walk_eq, mapRange, if_pos ⟨by omega, by omega, by omega⟩, Nat.add_sub_cancel_left,
      Nat.mul_div_cancel_left _ (by omega)]
  · exact h'.mapped

/-- Over any history blocks lie in the I/O map and apart, every page of a device is still mapped, and
what the next `io_alloc` returns is empty. -/
theorem io_mappings_kept (hw : WellFormed mem0 cr3 used0) (hhuge : (mem0 (pdOf cr3) 1015).huge = false)
    (hempty : ∀ v, InBlock ioMap v → walk mem0 cr3 v = none) (hr : IoReach mem0 cr3 used0 s) : IoOk mem0 cr3 s := by
  induction hr with
  | init => exact ⟨hw.stays, ⟨rfl, Nat.zero_le _⟩, nofun, .nil, fun v _ => hempty v, nofun, nofun⟩
  | alloc _ hpg ha h => exact h.alloc hpg ha
  | remap _ hb hpa hphys hs hm h => exact h.remap hhuge hb hpa hphys hs hm
  | call _ hop hout hf hm h =>
    obtain ⟨mem', hrun, hst⟩ := ptStep_spec h.steps.wf hf ((PtOp.valid_congr h.steps.huge _).mpr hop)
    obtain ⟨rfl, -⟩ := Prod.mk.inj (Option.some.inj (hm.symm.trans hrun))
    refine h.frame hst fun v hio hne => ?_
    obtain rfl : v = _ := by
      by_contra hv
      exact hne ((absStep_frame _ _ _).2 v hv)
    exact hout hio

end Io

/-- The registers of a disk controller are mapped into the first page. -/
theorem io_mappings_kept_abar : ∃ mem, IoReach hhdmOnly 0x1000 {0xC0001000} ⟨mem, taken {0xC0001000} onePage 1,
      4096, [(ioMapStart, 1)], [(0xFEBF1000, ioMapStart, 1)]⟩ ∧
    walk mem 0x1000 (ioMapStart + 4096 * 0) = some ⟨0xFEBF1, true, false, true⟩ := by
  obtain ⟨k, hk, mem, hm, -, hwhy⟩ := ioremap_spec hhdmOnly_wellFormed onePage_supply abar_range
  have hdone : k = 1 := by
    by_contra hne
    obtain rfl : k = 0 := by omega
    exact (hwhy Nat.one_pos).elim (absurd (hhdmOnly_walk _)) (by decide)
  rw [hdone] at hm
  have hr : IoReach hhdmOnly 0x1000 {0xC0001000} _ :=
    .remap (.alloc .init (by decide) rfl) ⟨List.mem_singleton_self _, nofun⟩ (by decide) (by decide) onePage_supply hm
  exact ⟨mem, hr, (io_mappings_kept hhdmOnly_wellFormed (by decide) (fun v _ => hhdmOnly_walk v) hr).mapped
    _ (List.mem_singleton_self _) 0 Nat.one_pos⟩

end HmmOS.Mm.Virt
