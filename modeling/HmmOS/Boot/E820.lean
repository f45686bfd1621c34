import HmmOS.Boot.Fat
import HmmOS.Mm.PageFrameTable

/-! # The memory map in the bootloader

The map is an array of 32 entries that was zeroed before the firmware filled it; an
entry of zeros ends it. Steps that only read the disk or the processor are left out:
they stop the boot or change nothing of this.
-/
namespace HmmOS.Boot
open Lib Mm

def e820MmMaxEntries : ℕ := 32

def nullEntry : MmEntry := ⟨0, 0, .unknown 0, 0⟩

def e820EntryPresent (ent : MmEntry) : Bool :=
  ent.base ≠ 0 || ent.len ≠ 0 || ent.type ≠ .unknown 0 || ent.acpiExtendedAttrs ≠ 0

/-- The scan of the map for one candidate: addresses of the candidate are 32-bit numbers, those of
entries are 64-bit numbers. -/
def e820Fits (base len : ℕ) : Bool → List MmEntry → Bool
  | isUsable, [] => isUsable
  | isUsable, ent :: ents =>
    if ¬ e820EntryPresent ent then isUsable
    else if ent.type = .usable then
      e820Fits base len (isUsable ||
        (base ≥ ent.base && Word.add 32 base len ≤ Word.add 64 ent.base ent.len)) ents
    else if Word.add 32 base len ≥ ent.base ∧ base ≤ Word.add 64 ent.base ent.len then false
    else e820Fits base len isUsable ents

/-- The loop over candidates, for at most `fuel` of them. -/
def e820AllocLoop (mm : List MmEntry) (len incr : ℕ) : ℕ → ℕ → Option ℕ
  | 0, _ => none
  | fuel + 1, base =>
    if base < 1 * gb then
      if e820Fits base len false mm then some base
      else e820AllocLoop mm len incr fuel (Word.add 32 base incr)
    else none

/-- `e820_alloc`. There are fewer than `gb / incr` candidates. -/
def e820Alloc (mm : List MmEntry) (len : ℕ) (hugepgAlign : Bool) : Option ℕ :=
  let incr := if hugepgAlign then hugePgSz else pgSz
  e820AllocLoop mm len incr (gb / incr) incr

def e820AugmentBootloader (mm : List MmEntry) (base len : ℕ) (type : MmType) : Bool × List MmEntry :=
  let ent := (mm.takeWhile e820EntryPresent).length
  if ent + 1 ≥ e820MmMaxEntries then (false, mm)
  else (true, mm.modify ent fun e => { e with base := base, len := len, type := type })

def mbrStart : ℕ := 0x7C00

def augmentBootloaderTextStackSections (mm : List MmEntry) : Bool × List MmEntry :=
  let (ok, mm) := e820AugmentBootloader mm (Word.sub 32 mbrStart pgSz &&& Word.compl 32 0x0FFF) pgSz
    .bootloader
  if ok then e820AugmentBootloader mm mbrStart (63 * 0x200) .bootloaderReclaimable else (false, mm)

/-- `fat32_init_desc`: the buffer and the map. -/
def fat32InitDesc (mm : List MmEntry) : Option (ℕ × List MmEntry) :=
  match e820Alloc mm maxLogicalSectorSz false with
  | none => none
  | some arenaStart =>
    let (ok, mm) := e820AugmentBootloader mm arenaStart maxLogicalSectorSz .bootloaderReclaimable
    if ¬ ok then none
    else if arenaStart &&& (mbrSectorSz - 1) ≠ 0 then none
    else some (arenaStart, mm)

/-- `copy_kernel`: the buffer, the address of the kernel and the map. Whether the kernel could be
recorded is not checked. -/
def copyKernel (mm : List MmEntry) (kernelLen : ℕ) : Option (ℕ × ℕ × List MmEntry) :=
  match fat32InitDesc mm with
  | none => none
  | some (buf, mm) =>
    if kernelLen > kernelMapSz then none
    else match e820Alloc mm kernelLen true with
      | none => none
      | some kernelPaddr =>
        some (buf, kernelPaddr, (e820AugmentBootloader mm kernelPaddr kernelLen .bootloader).2)

/-- `pt_setup`: the two pages for the page directory and the page table, and the map. -/
def ptSetup (mm : List MmEntry) : Option (ℕ × List MmEntry) :=
  let dynamicAllocSz := 2 * pgSz
  match e820Alloc mm dynamicAllocSz false with
  | none => none
  | some ptMem =>
    let (ok, mm) := e820AugmentBootloader mm ptMem dynamicAllocSz .bootloader
    if ok then some (ptMem, mm) else none

structure Booted where
  fatBuf : ℕ
  kernelPaddr : ℕ
  ptMem : ℕ
  mm : List MmEntry
  deriving DecidableEq, Repr

def pmodeEntry (mm : List MmEntry) (kernelLen : ℕ) : Option Booted :=
  let (ok, mm) := augmentBootloaderTextStackSections mm
  if ok then
    match copyKernel mm kernelLen with
    | none => none
    | some (fatBuf, kernelPaddr, mm) =>
      match ptSetup mm with
      | none => none
      | some (ptMem, mm) => some ⟨fatBuf, kernelPaddr, ptMem, mm⟩
  else none

end HmmOS.Boot
