import HmmOS.Mm.PageFrameTable

/-! # Page frame allocators

Pointers to descriptors are 32-bit addresses, so pointer arithmetic wraps at the end
of the address space; the memory that holds the descriptors is a map from addresses.
-/
namespace HmmOS.Mm
open Lib Util.Algorithm

structure PageFrameDescriptor where
  allocated : Bool := false
  unusable : Bool := false
  deriving DecidableEq, Repr

def PageFrameDescriptor.usable (d : PageFrameDescriptor) : Bool := !d.allocated && !d.unusable

abbrev PfdMem := ℕ → PageFrameDescriptor

def pfdAdd (p n : ℕ) : ℕ := Word.add 32 p (Word.mul 32 n pfdSz)

/-- `p - q` for descriptor pointers, a signed 32-bit difference. -/
def pfdSub (p q : ℕ) : ℤ := Int.bmod (p - q) (2 ^ 32) / pfdSz

/-- `get_pfd`: the address of the descriptor of the page at `pfOffset`. -/
def PageFrameTable.getPfd (t : PageFrameTable) (pfOffset : ℕ) : ℕ :=
  pfdAdd t.pft.data ((pfOffset >>> pgSzBits) % 2 ^ 32)

def PageFrameTable.getPfOffset (t : PageFrameTable) (pfd : ℕ) : ℕ :=
  Word.ofInt 64 (pfdSub pfd t.pft.data)

def PfdMem.zero (mem : PfdMem) (startPfd endPfd : ℕ) : PfdMem :=
  fun a => if Word.sub 32 a startPfd < Word.sub 32 endPfd startPfd then {} else mem a

/-- `register_allocator` for the range `[start, end_)`, given the ranges already registered. -/
def PageFrameTable.registerAllocator (t : PageFrameTable) (others : List (ℕ × ℕ)) (mem : PfdMem)
    (start end_ : ℕ) : Option PfdMem :=
  if ¬ (alignedPow2 pgSz start ∧ alignedPow2 pgSz end_) then none
  else if others.any (fun o => rangeOverlaps start end_ o.1 o.2 false) then none
  else some (mem.zero (t.getPfd start) (t.getPfd end_))

/-- `total_pgs`: bytes are summed in a 32-bit `unsigned` before the shift. -/
def totalPgsOf (regions : List MmEntry) (start end_ : ℕ) : ℕ :=
  regions.foldl (fun acc region =>
    let overlapStart := max region.base start
    let overlapEnd := min (Word.add 64 region.base region.len) end_
    if overlapEnd > overlapStart then Word.add 32 acc (Word.sub 64 overlapEnd overlapStart) else acc) 0
    >>> pgSzBits

structure SimplePFA where
  start : ℕ
  end_ : ℕ
  startp : ℕ
  endp : ℕ
  totalPgs : ℕ
  needle : ℕ
  allocedPgs : ℕ
  deriving DecidableEq, Repr

/-- Mark the pages from `it` up to a region at `base` unusable. -/
def markGap (t : PageFrameTable) (base end_ : ℕ) : ℕ → PfdMem → ℕ → PfdMem × ℕ
  | 0, mem, it => (mem, it)
  | fuel + 1, mem, it =>
    if it < base ∧ it < end_ then
      let pfd := t.getPfd it
      markGap t base end_ fuel (Function.update mem pfd { mem pfd with unusable := true })
        (Word.add 64 it pgSz)
    else (mem, it)

/-- The constructor's loop over the usable regions; `it` is `unusable_pg_it`. -/
def markUnusable (t : PageFrameTable) (start end_ : ℕ) : List MmEntry → PfdMem → ℕ → PfdMem
  | [], mem, _ => mem
  | region :: rest, mem, it =>
    if region.base < start then markUnusable t start end_ rest mem it
    else
      let r := markGap t region.base end_ region.base mem it
      if r.2 ≥ end_ then r.1 else markUnusable t start end_ rest r.1 (Word.add 64 r.2 region.len)

def SimplePFA.construct (t : PageFrameTable) (others : List (ℕ × ℕ)) (mem : PfdMem)
    (start end_ : ℕ) : Option (PfdMem × SimplePFA) :=
  if ¬ start < end_ then none
  else (t.registerAllocator others mem start end_).map fun mem' =>
    (markUnusable t start end_ t.usableRegions mem' start,
      { start := start
        end_ := end_
        startp := t.getPfd start
        endp := t.getPfd end_
        totalPgs := totalPgsOf t.usableRegions start end_
        needle := t.getPfd start
        allocedPgs := 0 })

/-- The first descriptor from `it` on, below `limit`, that is not usable. -/
def scanUsable (mem : PfdMem) (limit : ℕ) : ℕ → ℕ → Option ℕ
  | 0, _ => none
  | fuel + 1, it =>
    if it < limit then
      if (mem it).usable then scanUsable mem limit fuel (pfdAdd it 1) else some it
    else none

/-- The `try_alloc` lambda: success, `needle` and `steps`. -/
def SimplePFA.tryAlloc (a : SimplePFA) (mem : PfdMem) (numPg needle steps : ℕ) : Bool × ℕ × ℕ :=
  if pfdAdd needle numPg > a.endp then
    (false, a.startp, Word.add 32 steps (Word.ofInt 32 (pfdSub a.endp needle)))
  else match scanUsable mem (pfdAdd needle numPg) numPg needle with
    | some it => (false, it, Word.add 32 steps (Word.ofInt 32 (pfdSub it needle)))
    | none => (true, needle, steps)

/-- The inner loop of `alloc`: find the next location to try. -/
def SimplePFA.seekUsable (a : SimplePFA) (mem : PfdMem) (len : ℕ) : ℕ → ℕ → ℕ → ℕ × ℕ
  | 0, needle, steps => (needle, steps)
  | fuel + 1, needle, steps =>
    if (mem needle).usable then (needle, steps)
    else if Word.add 32 steps 1 < len then
      a.seekUsable mem len fuel (if pfdAdd needle 1 ≥ a.endp then a.startp else pfdAdd needle 1)
        (Word.add 32 steps 1)
    else (needle, Word.add 32 steps 1)

/-- The outer loop of `alloc`; `none` only when the fuel runs out. -/
def SimplePFA.allocLoop (a : SimplePFA) (mem : PfdMem) (numPg len : ℕ) :
    ℕ → ℕ → ℕ → Option (ℕ × ℕ)
  | 0, _, _ => none
  | fuel + 1, needle, steps =>
    match a.tryAlloc mem numPg needle steps with
    | (true, r) => some r
    | (false, needle', steps') =>
      if steps' < len then
        let r := a.seekUsable mem len (len + 1) needle' steps'
        a.allocLoop mem numPg len fuel r.1 r.2
      else some (needle', steps')

/-- Set the `allocated` flag of `n` descriptors from `it` on, below `limit`. -/
def setAllocated (limit : ℕ) : ℕ → PfdMem → ℕ → PfdMem
  | 0, mem, _ => mem
  | fuel + 1, mem, it =>
    if it < limit then
      setAllocated limit fuel (Function.update mem it { mem it with allocated := true }) (pfdAdd it 1)
    else mem

def SimplePFA.getTotalPages (a : SimplePFA) : ℕ := a.totalPgs

def SimplePFA.getAllocedPages (a : SimplePFA) : ℕ := a.allocedPgs

/-- `get_free_pages`, a difference of 32-bit counters. -/
def SimplePFA.getFreePages (a : SimplePFA) : ℕ := Word.sub 32 a.getTotalPages a.getAllocedPages

def SimplePFA.len (a : SimplePFA) : ℕ := Word.sub 64 a.end_ a.start / pgSz

/-- `SimplePFA::alloc`: the result, the descriptors and the allocator; `none` when the search does
not end. -/
def SimplePFA.alloc (t : PageFrameTable) (mem : PfdMem) (a : SimplePFA) (numPg : ℕ) :
    Option (Option ℕ × PfdMem × SimplePFA) :=
  if numPg > a.len then some (none, mem, a)
  else (a.allocLoop mem numPg a.len (a.len + 1) a.needle 0).map fun (needle, steps) =>
    if steps ≥ a.len then (none, mem, { a with needle := needle })
    else
      (some ((t.getPfOffset needle <<< pgSzBits) % 2 ^ 64),
        setAllocated (pfdAdd needle numPg) numPg mem needle,
        { a with needle := needle, allocedPgs := Word.add 32 a.allocedPgs numPg })

/-- Clear the `allocated` flag, which must be set, of the descriptors from `it` up to `limit`. -/
def clearAllocated (limit : ℕ) : ℕ → PfdMem → ℕ → Option PfdMem
  | 0, mem, _ => some mem
  | fuel + 1, mem, it =>
    if it < limit then
      if (mem it).allocated then
        clearAllocated limit fuel (Function.update mem it { mem it with allocated := false })
          (pfdAdd it 1)
      else none
    else some mem

def SimplePFA.free (t : PageFrameTable) (mem : PfdMem) (a : SimplePFA) (base numPg : ℕ) :
    Option (PfdMem × SimplePFA) :=
  if ¬ alignedPow2 pgSz base then none
  else if ¬ (base ≥ a.start ∧ Word.add 64 base numPg ≤ a.end_) then none
  else (clearAllocated (pfdAdd (t.getPfd base) numPg) numPg mem (t.getPfd base)).map fun mem' =>
    (mem', { a with allocedPgs := Word.sub 32 a.allocedPgs numPg })

end HmmOS.Mm
