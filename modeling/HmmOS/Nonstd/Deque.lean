import HmmOS.Lib.CircularArray
import HmmOS.Lib.Ledger
import HmmOS.Lib.Word

/-! # `nonstd::deque`

Elements live in blocks of `E` elements, and the blocks in a circular array of
pointers that is read from `start_block` on. A failed assertion, a null block that is
used or freed and a loop that does not end are `none`.
-/
namespace HmmOS.Nonstd
open Lib

/-- `block_size` and `elems_per_block` for elements of `sz` bytes. -/
def blockSize (sz : ℕ) : ℕ := max 512 (16 * sz)
def elemsPerBlock (sz : ℕ) : ℕ := blockSize sz / sz

def minBlockCount : ℕ := 16

/-- The number of an allocation, and its memory for elements, which may or may not be constructed. -/
structure Block (α : Type*) where
  addr : ℕ
  cells : ℕ → Option α

/-- A deque whose block pointers may be null. The ledger is that of `BlockAllocator`, which its functions
take over from their caller. -/
structure Deque (α : Type*) where
  blockCount : ℕ
  blocks : ℕ → Option (Block α)
  size : ℕ
  startBlock : ℕ
  startIdx : ℕ
  ledger : Ledger

namespace Deque
variable {α : Type*}

def construct (l : Ledger) : Deque α := ⟨minBlockCount, fun _ => none, 0, 0, 0, l⟩

/-- `get_block_elem_idx`; `ldiv` divides 32-bit signed numbers. -/
def getBlockElemIdx (E idx startBlock blockCount : ℕ) : ℕ × ℕ :=
  let i := Int.bmod idx (2 ^ 32)
  (Word.ofInt 32 (startBlock + Int.tdiv i E) % blockCount, Word.ofInt 32 (Int.tmod i E))

def deref (E : ℕ) (d : Deque α) (idx : ℕ) : Option α :=
  let (b, e) := getBlockElemIdx E idx d.startBlock d.blockCount
  (d.blocks b).bind fun block => block.cells e

def get (E : ℕ) (d : Deque α) (pos : ℕ) : Option α := d.deref E (Word.add 32 d.startIdx pos)

/-- Construct (or with `none` destroy) the element at `pos`. -/
def put (E : ℕ) (d : Deque α) (pos : ℕ) (v : Option α) : Option (Deque α) :=
  let (b, e) := getBlockElemIdx E (Word.add 32 d.startIdx pos) d.startBlock d.blockCount
  (d.blocks b).map fun block =>
    { d with blocks := Function.update d.blocks b (some { block with cells := Function.update block.cells e v }) }

/-- `at`, with its assertion; `front` and `back` are `at(0)` and `at(size() - 1)`. -/
def at_ (E : ℕ) (d : Deque α) (pos : ℕ) : Option α := if pos < d.size then d.get E pos else none

def front (E : ℕ) (d : Deque α) : Option α := d.at_ E 0
def back (E : ℕ) (d : Deque α) : Option α := d.at_ E (Word.sub 32 d.size 1)

/-- The index of an iterator to the element at `pos`. -/
def makeIterator (d : Deque α) (pos : ℕ) : ℕ := Word.add 32 d.startIdx pos

def begin (d : Deque α) : ℕ := d.makeIterator 0
def end_ (d : Deque α) : ℕ := d.makeIterator d.size

/-- Put a new block where `b` points, whatever is there. -/
def allocBlock (d : Deque α) (b : ℕ) : Deque α :=
  { d with
    blocks := Function.update d.blocks b (some ⟨d.ledger.next, fun _ => none⟩)
    ledger := d.ledger.allocate }

def freeBlock (d : Deque α) (b : ℕ) : Deque α :=
  { d with
    blocks := Function.update d.blocks b none
    ledger := (d.blocks b).elim d.ledger fun block => d.ledger.free block.addr }

/-- The copy loop of `realloc_blocks_array`, with its assertion. -/
def copyBlocks (d : Deque α) : ℕ → ℕ → ℕ → (ℕ → Option (Block α)) → Option (ℕ → Option (Block α))
  | 0, _, _, new => some new
  | n + 1, src, dst, new =>
    match d.blocks src with
    | none => none
    | some b => copyBlocks d n ((src + 1) % d.blockCount) (dst + 1) (Function.update new dst (some b))

def reallocBlocksArray (d : Deque α) : Option (Deque α) :=
  (copyBlocks d d.blockCount d.startBlock 0 fun _ => none).map fun new =>
    { d with blockCount := Word.mul 32 d.blockCount 2, blocks := new, startBlock := 0 }

/-- `allocate_block(true)`. A block left over in its place is lost. -/
def allocateFront (E : ℕ) (d : Deque α) : Option (Deque α) :=
  (if d.startIdx = 0 ∧ d.size > Word.mul 32 E (Word.sub 32 d.blockCount 1) then d.reallocBlocksArray
    else some d).map fun d =>
    if d.startIdx = 0 then
      let b := (d.startBlock + d.blockCount - 1) % d.blockCount
      { d.allocBlock b with startBlock := b }
    else d

/-- `allocate_block(false)`. -/
def allocateBack (E : ℕ) (d : Deque α) : Option (Deque α) :=
  let endIdx := Word.add 32 d.startIdx d.size
  (if endIdx ≥ Word.mul 32 E d.blockCount then d.reallocBlocksArray else some d).map fun d =>
    let (b, e) := getBlockElemIdx E endIdx d.startBlock d.blockCount
    if e = 0 ∧ d.blocks b = none then d.allocBlock b else d

/-- The deque and an iterator to the new element. -/
def emplace (E : ℕ) (d : Deque α) (pos : ℕ) (v : α) : Option (Deque α × ℕ) :=
  let idx := Word.sub 32 pos d.startIdx
  (if pos = d.end_ then
      (if Word.add 32 d.startIdx d.size % E = 0 then d.allocateBack E else some d).map
        fun d => (d, d.size)
    else if pos = d.begin then
      (if d.startIdx = 0 then (d.allocateFront E).map fun d => { d with startIdx := E }
        else some d).map fun d => ({ d with startIdx := Word.sub 32 d.startIdx 1 }, 0)
    else none).bind fun (d, i) =>
    (d.put E i (some v)).map fun d =>
      let d' := { d with size := Word.add 32 d.size 1 }
      (d', d'.makeIterator idx)

/-- The deque and an iterator to the element after the erased one. -/
def erase (E : ℕ) (d : Deque α) (pos : ℕ) : Option (Deque α × ℕ) :=
  let idx := Word.sub 32 pos d.startIdx
  (d.get E idx).bind fun _ => (d.put E idx none).bind fun d' =>
    (if pos = d.begin then some { d' with startIdx := Word.add 32 d'.startIdx 1 }
      else if pos = Word.sub 32 d.end_ 1 then some d'
      else none).map fun d' =>
      let d' := { d' with size := Word.sub 32 d'.size 1 }
      (d', d'.makeIterator idx)

def pushBack (E : ℕ) (d : Deque α) (v : α) : Option (Deque α) :=
  (d.emplace E d.end_ v).map Prod.fst

def pushFront (E : ℕ) (d : Deque α) (v : α) : Option (Deque α) :=
  (d.emplace E d.begin v).map Prod.fst

def popBack (E : ℕ) (d : Deque α) : Option (Deque α) :=
  (d.erase E (Word.sub 32 d.end_ 1)).map Prod.fst

def popFront (E : ℕ) (d : Deque α) : Option (Deque α) := (d.erase E d.begin).map Prod.fst

/-- The loop of the counted and the range `insert`; `curIdx` is where the next value goes. -/
def insertLoop (E : ℕ) : List α → Deque α → ℕ → ℕ → Option (Deque α)
  | [], d, _, _ => some d
  | v :: vs, d, pos, curIdx =>
    (d.emplace E pos v).bind fun r =>
      insertLoop E vs r.1 (r.1.makeIterator (Word.add 32 curIdx 1)) (Word.add 32 curIdx 1)

def insertCount (E : ℕ) (d : Deque α) (pos count : ℕ) (v : α) : Option (Deque α) :=
  insertLoop E (List.replicate count v) d pos (Word.sub 32 pos d.startIdx)

/-- `insert` of the values that a range produces. -/
def insertRange (E : ℕ) (d : Deque α) (pos : ℕ) (vs : List α) : Option (Deque α) :=
  insertLoop E vs d pos (Word.sub 32 pos d.startIdx)

def eraseLoop (E last : ℕ) : ℕ → Deque α → ℕ → Option (Deque α)
  | 0, _, _ => none
  | fuel + 1, d, it =>
    (d.erase E it).bind fun r => if r.2 = last then some r.1 else eraseLoop E last fuel r.1 r.2

def eraseRange (E : ℕ) (d : Deque α) (first last : ℕ) : Option (Deque α) :=
  let it := d.makeIterator (Word.sub 32 first d.startIdx)
  if it = last then some d else eraseLoop E last (d.size + 1) d it

def clear (E : ℕ) (d : Deque α) : Option (Deque α) := d.eraseRange E d.begin d.end_

/-- Erase `n` elements from the back; `base` is the base of the reverse iterator. -/
def resizeDown (E : ℕ) : ℕ → Deque α → ℕ → Option (Deque α)
  | 0, d, _ => some d
  | n + 1, d, base =>
    (d.erase E (Word.sub 32 base 1)).bind fun r => resizeDown E n r.1 (Word.sub 32 base 1)

def resizeUp (E : ℕ) (v : α) : ℕ → Deque α → Option (Deque α)
  | 0, d => some d
  | n + 1, d => (d.pushBack E v).bind (resizeUp E v n)

/-- `resize(count, value)`; `resize(count)` is the case of a value-initialised element. -/
def resize (E : ℕ) (d : Deque α) (count : ℕ) (v : α) : Option (Deque α) :=
  let diff := Int.bmod (count - d.size) (2 ^ 32)
  if diff < 0 then resizeDown E (-diff).toNat d d.end_ else resizeUp E v diff.toNat d

def freeTail : ℕ → Deque α → ℕ → Option (Deque α)
  | 0, _, _ => none
  | fuel + 1, d, i =>
    if i ≠ d.startBlock ∧ d.blocks i ≠ none then
      freeTail fuel (d.freeBlock i) ((i + 1) % d.blockCount)
    else some d

def freeHead (E : ℕ) : ℕ → Deque α → Option (Deque α)
  | 0, _ => none
  | fuel + 1, d =>
    if d.startIdx ≥ E then
      match d.blocks d.startBlock with
      | none => none
      | some _ => freeHead E fuel
        { d.freeBlock d.startBlock with
          startIdx := d.startIdx - E
          startBlock := (d.startBlock + 1) % d.blockCount }
    else some d

def shrinkToFit (E : ℕ) (d : Deque α) : Option (Deque α) :=
  let last := Word.sub 32 (Word.add 32 d.startIdx d.size) 1
  let i := Word.add 32 d.startBlock (Word.add 32 (last / E) 1) % d.blockCount
  (freeTail (d.blockCount + 1) d i).bind fun d =>
    (freeHead E (d.startIdx + 1) d).map fun d =>
      if d.size = 0 ∧ d.blocks d.startBlock ≠ none then { d.freeBlock d.startBlock with startIdx := 0 } else d

/-- The destructor, with the assertion of debug builds that every block has been freed. -/
def destroy (E : ℕ) (d : Deque α) : Option Ledger :=
  (d.clear E).bind fun d => (d.shrinkToFit E).bind fun d =>
    if ∀ i < d.blockCount, (d.blocks i).isNone then some d.ledger else none

def forward (E : ℕ) (d : Deque α) (stop : ℕ) : ℕ → ℕ → Option (List α)
  | 0, _ => none
  | fuel + 1, it =>
    if it ≠ stop then
      (d.deref E it).bind fun v => (forward E d stop fuel (Word.add 32 it 1)).map (v :: ·)
    else some []

/-- Elements before index `it` back to `stop`, as reverse iterators denote them. -/
def backward (E : ℕ) (d : Deque α) (stop : ℕ) : ℕ → ℕ → Option (List α)
  | 0, _ => none
  | fuel + 1, it =>
    if it ≠ stop then
      let prev := Word.sub 32 it 1
      (d.deref E prev).bind fun v => (backward E d stop fuel prev).map (v :: ·)
    else some []

/-- The loop of the copy constructor: the range from `it` to `last` of `other` is appended to `d`. -/
def copyLoop (E : ℕ) (other : Deque α) (last : ℕ) : ℕ → Deque α → ℕ → ℕ → ℕ → Option (Deque α)
  | 0, _, _, _, _ => none
  | fuel + 1, d, pos, curIdx, it =>
    if it ≠ last then
      (other.deref E it).bind fun v => (d.emplace E pos v).bind fun r =>
        copyLoop E other last fuel r.1 (r.1.makeIterator (Word.add 32 curIdx 1))
          (Word.add 32 curIdx 1) (Word.add 32 it 1)
    else some d

def copyConstruct (E : ℕ) (l : Ledger) (other : Deque α) : Option (Deque α) :=
  let d : Deque α := construct l
  copyLoop E other other.end_ (other.size + 1) d d.end_ (Word.sub 32 d.end_ d.startIdx) other.begin

end Deque

end HmmOS.Nonstd
