import HmmOS.Util.Algorithm
import HmmOS.Lib.FrontSwap

/-! # The page frame table

A failed assertion, and a read of the last element of an empty span, is `none`.
-/
namespace HmmOS.Mm
open Lib Util.Algorithm

/-- `e820_mm_type`; the field is a plain `uint32_t`, so firmware may report other codes. -/
inductive MmType
  | usable
  | reserved
  | acpiReclaimable
  | acpiNvs
  | badMem
  | bootloader
  | bootloaderReclaimable
  | unknown (code : ℕ)
  deriving DecidableEq, Repr

structure MmEntry where
  base : ℕ
  len : ℕ
  type : MmType
  acpiExtendedAttrs : ℕ := 0
  deriving DecidableEq, Repr

/-- `std::sort` by base address. The order of entries with equal bases is unspecified. -/
structure StdSort where
  sort : List MmEntry → List MmEntry
  perm : ∀ mm, (sort mm).Perm mm
  sorted : ∀ mm, (sort mm).Pairwise (fun e1 e2 => e1.base ≤ e2.base)

def MmEntry.overlaps (e1 e2 : MmEntry) : Bool :=
  rangeOverlaps2 64 e1.base e1.len e2.base e2.len false

/-- Cut the entry `b` at index `i` out of the first one it overlaps, which keeps the part below `b`; the
slot of `b` takes the part above. -/
def splitScan (mm : List MmEntry) (i : ℕ) (b : MmEntry) : List ℕ → Option (List MmEntry)
  | [] => some mm
  | j :: js =>
    if i = j then splitScan mm i b js
    else match mm[j]? with
      | none => none
      | some u =>
        if ¬ b.overlaps u then splitScan mm i b js
        else if u.type ≠ .usable then none
        else if ¬ rangeSubsumes2 64 u.base u.len b.base b.len true then none
        else
          let base1 := u.base
          let len1 := Word.sub 64 b.base u.base
          let base2 := Word.add 64 b.base b.len
          let len2 := Word.sub 64 (Word.add 64 u.base u.len) base2
          if Word.add 64 (Word.add 64 len1 len2) b.len ≠ u.len then none
          else some ((mm.set j { u with base := base1, len := len1 }).set i
            { b with base := base2, len := len2, type := .usable })

def splitAt (mm : List MmEntry) (i : ℕ) : Option (List MmEntry) :=
  match mm[i]? with
  | none => some mm
  | some b => if b.type ≠ .bootloader then some mm else splitScan mm i b (List.range mm.length)

def splitBootloader : List ℕ → List MmEntry → Option (List MmEntry)
  | [], mm => some mm
  | i :: is, mm => (splitAt mm i).bind (splitBootloader is)

/-- The assertion on neighbours of the sorted map: they may overlap only when one of them is
usable and the other bootloader-reclaimable. -/
def neighboursOk : List MmEntry → Bool
  | e1 :: e2 :: rest =>
    (!e1.overlaps e2
      || (e1.type == .bootloaderReclaimable && e2.type == .usable)
      || (e1.type == .usable && e2.type == .bootloaderReclaimable)) && neighboursOk (e2 :: rest)
  | _ => true

/-- Shrink an entry to the full pages inside it. -/
def MmEntry.align (region : MmEntry) : MmEntry :=
  let end_ := floorPow2 pgSz (Word.add 64 region.base region.len)
  let base := ceilPow2 pgSz region.base
  { region with base := base, len := if end_ > base then Word.sub 64 end_ base else 0 }

/-- `PageFrameTable::normalize_mm`: the rearranged map and the number of usable regions at its
front. -/
def normalizeMm (s : StdSort) (mm : List MmEntry) : Option (List MmEntry × ℕ) :=
  (splitBootloader (List.range mm.length) mm).bind fun split =>
    let sorted := s.sort split
    if ¬ neighboursOk sorted then none
    else
      let usable := FrontSwap.pass (fun e => e.type == .usable) sorted
      let aligned := (usable.1.take usable.2).map MmEntry.align
      let nonempty := FrontSwap.pass (fun e => e.len != 0) aligned
      some (nonempty.1 ++ usable.1.drop usable.2, nonempty.2)

def pfdSz : ℕ := 64

@[simp] theorem pfdSz_eq : pfdSz = 64 := rfl

/-- Take `len` bytes off the first region that has them. The end of the block must still be inside the
higher-half map. -/
def trimFirstFit (len : ℕ) : List MmEntry → Option (ℕ × List MmEntry)
  | [] => none
  | region :: rest =>
    if region.len ≥ len then
      (directToHhdm region.base).bind fun pftBase =>
        let base := Word.add 64 region.base len
        if base ≤ hhdmLen then
          some (pftBase, { region with base := base, len := Word.sub 64 region.len len } :: rest)
        else none
    else (trimFirstFit len rest).map fun r => (r.1, region :: r.2)

/-- A `std::span` of page frame descriptors: its address and number of elements. -/
structure PftSpan where
  data : ℕ
  size : ℕ
  deriving DecidableEq, Repr

/-- End of the last usable region; `none` when there is no region. -/
def memLimitOf (regions : List MmEntry) : Option ℕ :=
  regions.getLast?.map fun r => Word.add 64 r.base r.len

/-- `page_limit`, computed in a 32-bit `size_t`. -/
def pageLimitOf (memLimit : ℕ) : ℕ := (memLimit >>> pgSzBits) % 2 ^ 32

/-- `pft_len_padded`, computed in a 32-bit `size_t`. -/
def pftLenPadded (pageLimit : ℕ) : ℕ := ceilPow2 pgSz (Word.mul 32 pageLimit pfdSz) % 2 ^ 32

/-- `PageFrameTable::alloc_pft`: the table and the usable regions without it. -/
def allocPft (regions : List MmEntry) : Option (PftSpan × List MmEntry) :=
  (memLimitOf regions).bind fun memLimit =>
    if ¬ alignedPow2 pgSz memLimit then none
    else
      let pageLimit := pageLimitOf memLimit
      (trimFirstFit (pftLenPadded pageLimit) regions).map fun r => (⟨r.1, pageLimit⟩, r.2)

def sumLen (mm : List MmEntry) : ℕ := mm.foldl (fun acc e => Word.add 64 acc e.len) 0

structure PageFrameTable where
  totalMemBytes : ℕ
  usableRegions : List MmEntry
  pft : PftSpan
  usableMemBytes : ℕ
  deriving DecidableEq, Repr

def PageFrameTable.memLimit (t : PageFrameTable) : ℕ := (memLimitOf t.usableRegions).getD 0

/-- The constructor; `pft?` is the table handed in by tests. Entries that are zeroed must start inside
the higher-half map. -/
def PageFrameTable.construct (s : StdSort) (mm : List MmEntry) (pft? : Option PftSpan) :
    Option PageFrameTable :=
  if 32 < mm.length then none
  else (normalizeMm s mm).bind fun (mm', n) =>
    let alloc := match pft? with
      | some pft => some (pft, mm'.take n)
      | none => allocPft (mm'.take n)
    alloc.bind fun (pft, regions) =>
      if mm'.any (fun e => e.type == .bootloaderReclaimable && (directToHhdm e.base).isNone) then none
      else
        let t : PageFrameTable :=
          { totalMemBytes := sumLen (mm.filter (fun e => e.type != .bootloader))
            usableRegions := regions
            pft := pft
            usableMemBytes := sumLen regions }
        match pft? with
        | none => some t
        | some given =>
          (memLimitOf regions).bind fun memLimit =>
            if given.size ≥ pageLimitOf memLimit then some t else none

end HmmOS.Mm
