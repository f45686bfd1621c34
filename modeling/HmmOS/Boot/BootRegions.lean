import HmmOS.Boot.E820
import HmmOS.Lib.Terminated

/-! # What stage 2 places in memory

The record of the kernel is not checked, but a map without room for it has no room for
the record of the page tables either, and that one is checked.
-/
namespace HmmOS.Boot
open Lib Mm

def e820Entries (mm : List MmEntry) : List MmEntry := mm.takeWhile e820EntryPresent

structure MapOk (mm : List MmEntry) : Prop where
  terminated : Terminated e820EntryPresent e820MmMaxEntries mm
  noWrap : ∀ e ∈ mm, e.base + e.len < 2 ^ 64

/-- The map `mm'` shows every entry of `mm` and the entries `new`, and its array holds no others. -/
structure Extends (mm mm' new : List MmEntry) : Prop where
  ok : MapOk mm'
  shows : e820Entries mm ++ new ⊆ e820Entries mm'
  only : mm' ⊆ mm ++ new

/-- Two regions, each given by its start and its length, have no byte in common. -/
def Apart (x y : ℕ × ℕ) : Prop := x.1 + x.2 ≤ y.1 ∨ y.1 + y.2 ≤ x.1

def InUsable (es : List MmEntry) (x : ℕ × ℕ) : Prop :=
  ∃ u ∈ es, u.type = .usable ∧ u.base ≤ x.1 ∧ x.1 + x.2 ≤ u.base + u.len

/-- The region has no byte in common with an entry that is not usable. -/
def Clear (es : List MmEntry) (x : ℕ × ℕ) : Prop :=
  ∀ e ∈ es, e.type ≠ .usable → Apart x (e.base, e.len)

structure Placed (es : List MmEntry) (base len : ℕ) : Prop where
  pos : 0 < base
  lt_gb : base < gb
  inside : InUsable es (base, len)
  apart : ∀ e ∈ es, e.type ≠ .usable → base + len < e.base ∨ e.base + e.len < base

variable {mm es : List MmEntry} {base len : ℕ} {mm' new : List MmEntry}

section Alloc
variable {incr : ℕ}

theorem e820EntryPresent_eq_false {ent : MmEntry} (h : e820EntryPresent ent = false) : ent = nullEntry := by
  cases ent
  simpa [e820EntryPresent, nullEntry, and_assoc] using h

theorem mem_of_mem_e820Entries {e : MmEntry} (he : e ∈ e820Entries mm) : e ∈ mm :=
  (List.takeWhile_prefix _).subset he

theorem e820Fits_append (hlen : base + len < 2 ^ 32) {rest : List MmEntry}
    (hpresent : ∀ e ∈ es, e820EntryPresent e = true) (hwrap : ∀ e ∈ es, e.base + e.len < 2 ^ 64)
    {isUsable : Bool} (h : e820Fits base len isUsable (es ++ nullEntry :: rest) = true) :
    (isUsable = true ∨ ∃ u ∈ es, u.type = .usable ∧ u.base ≤ base ∧ base + len ≤ u.base + u.len) ∧
      ∀ e ∈ es, e.type ≠ .usable → base + len < e.base ∨ e.base + e.len < base := by
  induction es generalizing isUsable with
  | nil =>
    exact ⟨.inl h, by simp⟩
  | cons e es ih =>
    have ih := @ih (fun x hx => hpresent x (List.mem_cons_of_mem _ hx))
      (fun x hx => hwrap x (List.mem_cons_of_mem _ hx))
    have hsum : Word.add 64 e.base e.len = e.base + e.len :=
      Word.add_of_lt (hwrap e List.mem_cons_self)
    rw [List.cons_append, e820Fits, if_neg (by simp [hpresent e List.mem_cons_self]), hsum,
      Word.add_of_lt hlen] at h
    by_cases husable : e.type = .usable
    · rw [if_pos husable] at h
      obtain ⟨hin, hout⟩ := ih h
      refine ⟨?_, ?_⟩
      · rcases hin with hin | ⟨u, hu, hin⟩
        · rw [Bool.or_eq_true, Bool.and_eq_true, decide_eq_true_iff, decide_eq_true_iff] at hin
          rcases hin with hin | hin
          · exact .inl hin
          · exact .inr ⟨e, List.mem_cons_self, husable, hin⟩
        · exact .inr ⟨u, List.mem_cons_of_mem _ hu, hin⟩
      · intro x hx hxu
        rcases List.mem_cons.mp hx with rfl | hx
        · exact absurd husable hxu
        · exact hout x hx hxu
    · split_ifs at h with htouch
      obtain ⟨hin, hout⟩ := ih h
      refine ⟨hin.imp_right fun ⟨u, hu, huin⟩ => ⟨u, List.mem_cons_of_mem _ hu, huin⟩, ?_⟩
      intro x hx hxu
      rcases List.mem_cons.mp hx with rfl | hx
      · omega
      · exact hout x hx hxu

theorem e820AllocLoop_some (hincr : 0 < incr) (hsmall : incr < 2 ^ 31) {fuel b : ℕ} (hb : 0 < b)
    (h : e820AllocLoop mm len incr fuel b = some base) :
    0 < base ∧ base < gb ∧ e820Fits base len false mm = true := by
  induction fuel generalizing b with
  | zero => cases h
  | succ fuel ih =>
    have hgb : gb = 2 ^ 30 := rfl
    rw [e820AllocLoop, Nat.one_mul] at h
    split_ifs at h with hlt hfits
    · obtain rfl := Option.some.inj h
      exact ⟨hb, hlt, hfits⟩
    · rw [Word.add_of_lt (by omega)] at h
      exact ih (by omega) h

theorem e820Alloc_spec (h : MapOk mm) (hlen : len ≤ kernelMapSz) {hugepgAlign : Bool}
    (ha : e820Alloc mm len hugepgAlign = some base) : Placed (e820Entries mm) base len := by
  have hgb : gb = 2 ^ 30 := rfl
  have hmap : kernelMapSz = 2 ^ 25 := rfl
  have hincr : 0 < (if hugepgAlign then hugePgSz else pgSz) ∧
      (if hugepgAlign then hugePgSz else pgSz) < 2 ^ 31 := by
    cases hugepgAlign <;> decide
  obtain ⟨hpos, hlt, hfits⟩ := e820AllocLoop_some hincr.1 hincr.2 hincr.1 ha
  obtain ⟨x, rest, hx, hsplit⟩ := h.terminated.split
  rw [hsplit, e820EntryPresent_eq_false hx] at hfits
  obtain ⟨hin, hout⟩ := e820Fits_append (by omega) (fun e he => List.mem_takeWhile_imp he)
    (fun e he => h.noWrap e (mem_of_mem_e820Entries he)) hfits
  exact ⟨hpos, hlt, hin.resolve_left (by decide), hout⟩

theorem Placed.noWrap (h : Placed es base len) (hlen : len ≤ kernelMapSz) : base + len < 2 ^ 64 := by
  have hlt := h.lt_gb
  have hgb : gb = 2 ^ 30 := rfl
  have hmap : kernelMapSz = 2 ^ 25 := rfl
  omega

end Alloc

section Augment
variable {mm'' new' : List MmEntry} {type : MmType}

theorem Extends.trans (h : Extends mm mm' new) (h' : Extends mm' mm'' new') :
    Extends mm mm'' (new ++ new') where
  ok := h'.ok
  shows := by
    intro e he
    rw [← List.append_assoc, List.mem_append] at he
    apply h'.shows
    rw [List.mem_append]
    exact he.imp_left fun he => h.shows he
  only := by
    intro e he
    rw [← List.append_assoc, List.mem_append]
    exact (List.mem_append.mp (h'.only he)).imp_left fun he => h.only he

/-- A record takes the place of the null entry, if another null entry follows in the array. -/
theorem e820AugmentBootloader_of_room (h : MapOk mm) (hpos : 0 < base) (hwrap : base + len < 2 ^ 64)
    (hroom : (e820Entries mm).length + 1 < e820MmMaxEntries) (type : MmType) :
    Extends mm (e820AugmentBootloader mm base len type).2 [⟨base, len, type, 0⟩] := by
  have hfull : ¬ (mm.takeWhile e820EntryPresent).length + 1 ≥ e820MmMaxEntries := Nat.not_le_of_lt hroom
  have hpresent : ∀ x, e820EntryPresent x = false →
      e820EntryPresent { x with base := base, len := len, type := type } = true := by
    intro x _
    simp [e820EntryPresent, hpos.ne']
  obtain ⟨x, hx, hscan, hmem⟩ := h.terminated.modify_scan hpresent
  rw [e820EntryPresent_eq_false hx] at hscan hmem
  rw [e820AugmentBootloader, if_neg hfull]
  refine ⟨⟨h.terminated.modify hroom, ?_⟩, hscan.subset, ?_⟩
  · intro e he
    rcases hmem e he with he | rfl
    · exact h.noWrap e he
    · exact hwrap
  · intro e he
    rw [List.mem_append, List.mem_singleton]
    exact hmem e he

theorem e820AugmentBootloader_of_full (hfull : ¬ (e820Entries mm).length + 1 < e820MmMaxEntries) :
    e820AugmentBootloader mm base len type = (false, mm) :=
  if_pos (Nat.le_of_not_lt hfull)

theorem e820AugmentBootloader_true (h : MapOk mm) (hpos : 0 < base) (hwrap : base + len < 2 ^ 64)
    (ha : e820AugmentBootloader mm base len type = (true, mm')) : Extends mm mm' [⟨base, len, type, 0⟩] := by
  by_cases hroom : (e820Entries mm).length + 1 < e820MmMaxEntries
  · have hext := e820AugmentBootloader_of_room h hpos hwrap hroom type
    rw [ha] at hext
    exact hext
  · rw [e820AugmentBootloader_of_full hroom] at ha
    cases ha

def stackEntry : MmEntry := ⟨0x6000, pgSz, .bootloader, 0⟩

def textEntry : MmEntry := ⟨mbrStart, 63 * 0x200, .bootloaderReclaimable, 0⟩

theorem augmentBootloaderTextStackSections_spec (h : MapOk mm)
    (ha : augmentBootloaderTextStackSections mm = (true, mm')) : Extends mm mm' [stackEntry, textEntry] := by
  have hstack : Word.sub 32 mbrStart pgSz &&& Word.compl 32 0x0FFF = 0x6000 := by decide
  rw [augmentBootloaderTextStackSections, hstack] at ha
  cases hfirst : e820AugmentBootloader mm 0x6000 pgSz .bootloader with
  | mk ok mm1 =>
    rw [hfirst] at ha
    cases ok with
    | false => cases ha
    | true =>
      have hext := e820AugmentBootloader_true h (by decide) (by decide) hfirst
      exact hext.trans (e820AugmentBootloader_true hext.ok (by decide) (by decide) ha)

theorem fat32InitDesc_spec (h : MapOk mm) {buf : ℕ} (hi : fat32InitDesc mm = some (buf, mm')) :
    Placed (e820Entries mm) buf maxLogicalSectorSz ∧
      Extends mm mm' [⟨buf, maxLogicalSectorSz, .bootloaderReclaimable, 0⟩] := by
  rw [fat32InitDesc] at hi
  cases halloc : e820Alloc mm maxLogicalSectorSz false with
  | none =>
    rw [halloc] at hi
    cases hi
  | some arenaStart =>
    have hplaced := e820Alloc_spec h (by decide) halloc
    rw [halloc] at hi
    dsimp only at hi
    cases haug : e820AugmentBootloader mm arenaStart maxLogicalSectorSz .bootloaderReclaimable with
    | mk ok mm1 =>
      rw [haug] at hi
      dsimp only at hi
      split_ifs at hi with hok haligned
      rw [hok] at haug
      cases hi
      exact ⟨hplaced, e820AugmentBootloader_true h hplaced.pos (hplaced.noWrap (by decide)) haug⟩

/-- `copy_kernel` either records the kernel or leaves a map with no room for a record. -/
theorem copyKernel_spec (h : MapOk mm) {kernelLen buf kernelPaddr : ℕ}
    (hc : copyKernel mm kernelLen = some (buf, kernelPaddr, mm'')) :
    ∃ mm', Placed (e820Entries mm) buf maxLogicalSectorSz ∧
      Extends mm mm' [⟨buf, maxLogicalSectorSz, .bootloaderReclaimable, 0⟩] ∧
      Placed (e820Entries mm') kernelPaddr kernelLen ∧
      (Extends mm' mm'' [⟨kernelPaddr, kernelLen, .bootloader, 0⟩] ∨
        ¬ (e820Entries mm'').length + 1 < e820MmMaxEntries) := by
  rw [copyKernel] at hc
  cases hinit : fat32InitDesc mm with
  | none =>
    rw [hinit] at hc
    cases hc
  | some fat =>
    obtain ⟨hbuf, hext⟩ := fat32InitDesc_spec h hinit
    rw [hinit] at hc
    dsimp only at hc
    split_ifs at hc with hlen
    cases halloc : e820Alloc fat.2 kernelLen true with
    | none =>
      rw [halloc] at hc
      cases hc
    | some base =>
      have hkernel := e820Alloc_spec hext.ok (Nat.le_of_not_lt hlen) halloc
      have hwrap := hkernel.noWrap (Nat.le_of_not_lt hlen)
      rw [halloc] at hc
      cases hc
      refine ⟨fat.2, hbuf, hext, hkernel, ?_⟩
      by_cases hroom : (e820Entries fat.2).length + 1 < e820MmMaxEntries
      · exact .inl (e820AugmentBootloader_of_room hext.ok hkernel.pos hwrap hroom _)
      · rw [e820AugmentBootloader_of_full hroom]
        exact .inr hroom

theorem ptSetup_spec (h : MapOk mm) {ptMem : ℕ} (hp : ptSetup mm = some (ptMem, mm')) :
    Placed (e820Entries mm) ptMem (2 * pgSz) ∧ Extends mm mm' [⟨ptMem, 2 * pgSz, .bootloader, 0⟩] := by
  rw [ptSetup] at hp
  cases halloc : e820Alloc mm (2 * pgSz) false with
  | none =>
    rw [halloc] at hp
    cases hp
  | some base =>
    have hplaced := e820Alloc_spec h (by decide) halloc
    rw [halloc] at hp
    dsimp only at hp
    cases haug : e820AugmentBootloader mm base (2 * pgSz) .bootloader with
    | mk ok mm1 =>
      rw [haug] at hp
      dsimp only at hp
      split_ifs at hp with hok
      rw [hok] at haug
      cases hp
      exact ⟨hplaced, e820AugmentBootloader_true h hplaced.pos (hplaced.noWrap (by decide)) haug⟩

theorem ptSetup_of_full (hfull : ¬ (e820Entries mm).length + 1 < e820MmMaxEntries) : ptSetup mm = none := by
  rw [ptSetup]
  cases e820Alloc mm (2 * pgSz) false with
  | none => rfl
  | some base => simp only [e820AugmentBootloader_of_full hfull, Bool.false_eq_true, if_false]

end Augment

def Booted.regions (b : Booted) (kernelLen : ℕ) : List (ℕ × ℕ) :=
  [(b.fatBuf, maxLogicalSectorSz), (b.kernelPaddr, kernelLen), (b.ptMem, pgSz), (b.ptMem + pgSz, pgSz)]

def Booted.fatEntry (b : Booted) : MmEntry := ⟨b.fatBuf, maxLogicalSectorSz, .bootloaderReclaimable, 0⟩

def Booted.kernelEntry (b : Booted) (kernelLen : ℕ) : MmEntry :=
  ⟨b.kernelPaddr, kernelLen, .bootloader, 0⟩

def Booted.ptEntry (b : Booted) : MmEntry := ⟨b.ptMem, 2 * pgSz, .bootloader, 0⟩

section Boot
variable {kernelLen n : ℕ} {b : Booted}

theorem Apart.symm {x y : ℕ × ℕ} (h : Apart x y) : Apart y x := Or.symm h

theorem Apart.halves {y : ℕ × ℕ} (h : Apart (base, 2 * n) y) : Apart (base, n) y ∧ Apart (base + n, n) y := by
  unfold Apart at h ⊢
  omega

theorem Clear.halves (h : Clear es (base, 2 * n)) : Clear es (base, n) ∧ Clear es (base + n, n) :=
  ⟨fun e he htype => (h e he htype).halves.1, fun e he htype => (h e he htype).halves.2⟩

theorem InUsable.halves (h : InUsable es (base, 2 * n)) :
    InUsable es (base, n) ∧ InUsable es (base + n, n) := by
  obtain ⟨u, hu, htype, hlo, hhi⟩ := h
  exact ⟨⟨u, hu, htype, hlo, by dsimp only; omega⟩, ⟨u, hu, htype, by dsimp only; omega, by dsimp only; omega⟩⟩

theorem Clear.mono {es' : List MmEntry} {x : ℕ × ℕ} (h : Clear es' x) (hsub : es ⊆ es') : Clear es x :=
  fun e he => h e (hsub he)

theorem Placed.clear (h : Placed (e820Entries mm') base len) (hext : Extends mm mm' new) :
    Clear (e820Entries mm ++ new) (base, len) := by
  intro e he htype
  rcases h.apart e (hext.shows he) htype with hlt | hlt
  · exact .inl hlt.le
  · exact .inr hlt.le

theorem Placed.inUsable (h : Placed (e820Entries mm) base len) (hext : Extends mm mm' new) :
    InUsable (e820Entries mm') (base, len) := by
  obtain ⟨u, hu, hin⟩ := h.inside
  exact ⟨u, hext.shows (List.mem_append_left _ hu), hin⟩

theorem pmodeEntry_steps (h0 : MapOk mm) (h : pmodeEntry mm kernelLen = some b) :
    ∃ mm1 mm2 mm3, Extends mm mm1 [stackEntry, textEntry] ∧
      Placed (e820Entries mm1) b.fatBuf maxLogicalSectorSz ∧ Extends mm1 mm2 [b.fatEntry] ∧
      Placed (e820Entries mm2) b.kernelPaddr kernelLen ∧ Extends mm2 mm3 [b.kernelEntry kernelLen] ∧
      Placed (e820Entries mm3) b.ptMem (2 * pgSz) ∧ Extends mm3 b.mm [b.ptEntry] := by
  rw [pmodeEntry] at h
  cases htext : augmentBootloaderTextStackSections mm with
  | mk ok mm1 =>
    rw [htext] at h
    dsimp only at h
    split_ifs at h with hok
    rw [hok] at htext
    have hext := augmentBootloaderTextStackSections_spec h0 htext
    cases hcopy : copyKernel mm1 kernelLen with
    | none =>
      rw [hcopy] at h
      cases h
    | some copied =>
      obtain ⟨mm2, hbuf, hext1, hkernel, hrecord⟩ := copyKernel_spec hext.ok hcopy
      rw [hcopy] at h
      dsimp only at h
      cases hpt : ptSetup copied.2.2 with
      | none =>
        rw [hpt] at h
        cases h
      | some pt =>
        rcases hrecord with hext2 | hfull
        · obtain ⟨hpages, hext3⟩ := ptSetup_spec hext2.ok hpt
          rw [hpt] at h
          cases h
          exact ⟨mm1, mm2, copied.2.2, hext, hbuf, hext1, hkernel, hext2, hpages, hext3⟩
        · rw [ptSetup_of_full hfull] at hpt
          cases hpt

/-- When stage 2 jumps to the kernel, what it has placed is apart, in usable memory and on record. -/
theorem pmodeEntry_places (h0 : MapOk mm) (h : pmodeEntry mm kernelLen = some b) :
    (b.regions kernelLen).Pairwise Apart ∧
      (∀ x ∈ b.regions kernelLen, InUsable (e820Entries b.mm) x ∧
        Clear (e820Entries mm ++ [stackEntry, textEntry]) x) ∧
      Extends mm b.mm [stackEntry, textEntry, b.fatEntry, b.kernelEntry kernelLen, b.ptEntry] := by
  obtain ⟨mm1, mm2, mm3, hext, hbuf, hext1, hkernel, hext2, hpages, hext3⟩ := pmodeEntry_steps h0 h
  have hclearBuf := hbuf.clear hext
  have hclearKernel := hkernel.clear (hext.trans hext1)
  have hclearPages := hpages.clear ((hext.trans hext1).trans hext2)
  have hkernelBuf := hclearKernel b.fatEntry (by simp) (by simp [Booted.fatEntry])
  have hpagesBuf := (hclearPages b.fatEntry (by simp) (by simp [Booted.fatEntry])).halves
  have hpagesKernel :=
    (hclearPages (b.kernelEntry kernelLen) (by simp) (by simp [Booted.kernelEntry])).halves
  refine ⟨?_, ?_, ((hext.trans hext1).trans hext2).trans hext3⟩
  · have htables : Apart (b.ptMem, pgSz) (b.ptMem + pgSz, pgSz) := .inl le_rfl
    simp only [Booted.regions, List.pairwise_cons, List.forall_mem_cons, List.not_mem_nil,
      false_imp_iff, implies_true, List.Pairwise.nil, and_true]
    exact ⟨⟨hkernelBuf.symm, hpagesBuf.1.symm, hpagesBuf.2.symm⟩,
      ⟨hpagesKernel.1.symm, hpagesKernel.2.symm⟩, htables⟩
  · have hpagesIn := (hpages.inUsable hext3).halves
    have hsub : e820Entries mm ++ [stackEntry, textEntry] ⊆
        e820Entries mm ++ ([stackEntry, textEntry] ++ [b.fatEntry] ++ [b.kernelEntry kernelLen]) := by
      simp
    have hpagesClear := (hclearPages.mono hsub).halves
    simp only [Booted.regions, List.forall_mem_cons, List.not_mem_nil, false_imp_iff, implies_true,
      and_true]
    exact ⟨⟨hbuf.inUsable ((hext1.trans hext2).trans hext3), hclearBuf⟩,
      ⟨hkernel.inUsable (hext2.trans hext3), hclearKernel.mono (by simp)⟩,
      ⟨hpagesIn.1, hpagesClear.1⟩, hpagesIn.2, hpagesClear.2⟩

/-- Conventional memory and 127 MiB above the first, and a kernel of a megabyte. -/
theorem pmodeEntry_places_twoEntries :
    let mm := [⟨0, 0x9FC00, .usable, 0⟩, ⟨0x100000, 0x7F00000, .usable, 0⟩] ++ List.replicate 30 nullEntry
    ∃ b, pmodeEntry mm 1000000 = some b ∧ b.kernelPaddr = 0x400000 ∧
      (b.regions 1000000).Pairwise Apart := by
  refine ⟨_, Option.eq_some_of_isSome (by decide +kernel), by decide +kernel,
    (pmodeEntry_places ⟨⟨by decide, nullEntry, by decide, by decide⟩, by decide⟩
      (Option.eq_some_of_isSome (by decide +kernel))).1⟩

end Boot

end HmmOS.Boot
