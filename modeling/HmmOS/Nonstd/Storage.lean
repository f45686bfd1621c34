import HmmOS.Lib.Ledger
import HmmOS.Lib.Word
import HmmOS.Nonstd.StringView

/-! # `nonstd::vector` and `nonstd::string`

A buffer is taken to be the object's own when the capacity is not zero. A string
stores a NUL past its characters, for which its buffers have one more cell.

A function that does not return, because an assertion fails or because it writes
outside of its buffer, is `none`. Elements that have buffers of their own are
objects beside the vector. Allocations succeed: one that fails stops the kernel.
-/
namespace HmmOS.Nonstd
open Lib
variable {α : Type*}

/-- Memory from the allocator: the number of its allocation, its size and its cells, of which some
hold no object yet. -/
structure Buffer (α : Type*) where
  addr : ℕ
  size : ℕ
  cells : ℕ → Option α

/-- The members of `vector` and of `string`. -/
structure Storage (α : Type*) where
  len : ℕ := 0
  capacity : ℕ := 0
  data : Option (Buffer α) := none

def Buffer.allocate (l : Ledger) (n : ℕ) : Ledger × Buffer α :=
  (l.allocate, { addr := l.next, size := n, cells := fun _ => none })

/-- `Mallocator::deallocate`; `kfree` asserts that the pointer is not null. -/
def Buffer.deallocate (l : Ledger) (data : Option (Buffer α)) : Option Ledger :=
  data.map fun b => l.free b.addr

/-- Stores to the cells from `pos` on. A loop without turns does not use the pointer. -/
def Buffer.write (data : Option (Buffer α)) (pos : ℕ) (xs : List (Option α)) :
    Option (Option (Buffer α)) :=
  if xs.isEmpty then some data
  else data.bind fun b =>
    if pos + xs.length ≤ b.size then
      some (some { b with
        cells := fun i => if pos ≤ i ∧ i < pos + xs.length then (xs[i - pos]?).join else b.cells i })
    else none

def Buffer.read (data : Option (Buffer α)) (n : ℕ) : Option (List (Option α)) :=
  if n = 0 then some []
  else data.bind fun b => if n ≤ b.size then some ((List.range n).map b.cells) else none

/-! ## What the two classes share

`term` is stored past the elements: nothing, or a NUL.
-/

namespace Storage
variable (term : List α) (l : Ledger) (v : Storage α)

def fill (len capacity : ℕ) (cells : List (Option α)) : Option (Ledger × Storage α) :=
  let (l, b) := Buffer.allocate l (Word.add 32 capacity term.length)
  (Buffer.write (some b) 0 (cells ++ term.map some)).map fun data => (l, ⟨len, capacity, data⟩)

def destroy : Option Ledger :=
  if v.capacity ≠ 0 then Buffer.deallocate l v.data else some l

def reserve (newCapacity : ℕ) : Option (Ledger × Storage α) :=
  if newCapacity ≤ v.capacity then some (l, v)
  else
    let newCapacity := max newCapacity (Word.mul 32 v.capacity 2)
    let (l, b) := Buffer.allocate l (Word.add 32 newCapacity term.length)
    (Buffer.read v.data v.len).bind fun cells =>
      (Buffer.write (some b) 0 (cells ++ term.map some)).bind fun data =>
        (v.destroy l).map fun l => (l, ⟨v.len, newCapacity, data⟩)

def put (pos : ℕ) (xs : List (Option α)) : Option (Storage α) :=
  (Buffer.write v.data pos xs).map fun data => { v with data := data }

/-- `emplace_back` of a vector, `push_back` of a string. -/
def pushBack (x : α) : Option (Ledger × Storage α) :=
  (reserve term l v (Word.add 32 v.len 1)).bind fun (l, v) =>
    (v.put v.len [some x]).bind fun v =>
      let v := { v with len := Word.add 32 v.len 1 }
      (v.put v.len (term.map some)).map fun v => (l, v)

/-- The loop of a constructor from iterators. -/
def pushAll (term : List α) : Ledger → Storage α → List α → Option (Ledger × Storage α)
  | l, v, [] => some (l, v)
  | l, v, x :: xs => (pushBack term l v x).bind fun (l, v) => pushAll term l v xs

/-- A reference from `at`, assigned to. -/
def setAt (pos : ℕ) (x : α) : Option (Ledger × Storage α) :=
  if pos < v.len then (v.put pos [some x]).map fun v => (l, v) else none

/-- Assignment of a temporary: after the swap its destructor has the old buffer. -/
def assign (tmp : Storage α) : Option (Ledger × Storage α) :=
  (v.destroy l).map fun l => (l, tmp)

end Storage

namespace Vector
variable (l : Ledger) (v : Storage α)

def constructCount (count : ℕ) (value : α) : Option (Ledger × Storage α) :=
  Storage.fill [] l count count (List.replicate count (some value))

def constructRange (xs : List α) : Option (Ledger × Storage α) := Storage.pushAll [] l {} xs

def constructList (xs : List α) : Option (Ledger × Storage α) :=
  Storage.fill [] l xs.length xs.length (xs.map some)

/-- `vector(const vector &)`, which takes over the capacity. -/
def copy : Option (Ledger × Storage α) :=
  (Buffer.read v.data v.len).bind fun cells => Storage.fill [] l v.len v.capacity cells

def reserve (newCapacity : ℕ) : Option (Ledger × Storage α) := Storage.reserve [] l v newCapacity

def emplaceBack (x : α) : Option (Ledger × Storage α) := Storage.pushBack [] l v x

def popBack : Option (Ledger × Storage α) :=
  if v.len > 0 then
    let v := { v with len := Word.sub 32 v.len 1 }
    (v.put v.len [none]).map fun v => (l, v)
  else none

/-- New cells get the value `x`. -/
def resize (count : ℕ) (x : Option α) : Option (Ledger × Storage α) :=
  (reserve l v count).bind fun (l, v) =>
    (if count > v.len then v.put v.len (List.replicate (count - v.len) x)
      else v.put count (List.replicate (v.len - count) none)).map fun v => (l, { v with len := count })

def clear : Option (Ledger × Storage α) := resize l v 0 none

end Vector

namespace String
variable (l : Ledger) (s : Storage Char)

def term : List Char := [StringView.nul]

def constructCount (count : ℕ) (ch : Char) : Option (Ledger × Storage Char) :=
  Storage.fill term l count count (List.replicate count (some ch))

/-- `string(s, count)`, and with it the constructors from C strings and from views. -/
def constructChars (xs : List Char) : Option (Ledger × Storage Char) :=
  Storage.fill term l xs.length xs.length (xs.map some)

def constructRange (xs : List Char) : Option (Ledger × Storage Char) :=
  Storage.pushAll term l {} xs

/-- `string(const string &)`, whose capacity is the length. -/
def copy : Option (Ledger × Storage Char) :=
  (Buffer.read s.data s.len).bind fun cells => Storage.fill term l s.len s.len cells

def reserve (newCapacity : ℕ) : Option (Ledger × Storage Char) :=
  Storage.reserve term l s newCapacity

def pushBack (c : Char) : Option (Ledger × Storage Char) := Storage.pushBack term l s c

def resize (count : ℕ) : Option (Ledger × Storage Char) :=
  (reserve l s count).bind fun (l, s) =>
    (if count > s.len then s.put s.len (List.replicate (count - s.len) (some StringView.nul))
      else some s).bind fun s =>
      let s := { s with len := count }
      (s.put s.len (term.map some)).map fun s => (l, s)

def clear : Option (Ledger × Storage Char) := resize l s 0

def append (xs : List Char) : Option (Ledger × Storage Char) :=
  (resize l s (Word.add 32 s.len xs.length)).bind fun (l, s) =>
    (s.put (Word.sub 32 s.len xs.length) (xs.map some)).map fun s => (l, s)

def appendCount (count : ℕ) (c : Char) : Option (Ledger × Storage Char) :=
  append l s (List.replicate count c)

/-- `append(first, last)` and `append(ilist)`. -/
def appendRange (xs : List Char) : Option (Ledger × Storage Char) := Storage.pushAll term l s xs

/-- `operator=(const char *)` and `operator=(string_view)`. -/
def assignChars (xs : List Char) : Option (Ledger × Storage Char) :=
  (constructChars l xs).bind fun (l, tmp) => s.assign l tmp

end String

inductive Object (α : Type*) where
  | vector (v : Storage α)
  | string (s : Storage Char)

/-- The constructors that take no other object of the class. -/
inductive VectorInit (α : Type*) where
  | default
  | count (count : ℕ) (value : α)
  | range (xs : List α)
  | list (xs : List α)

inductive StringInit where
  | default
  | count (count : ℕ) (ch : Char)
  | chars (xs : List Char)
  | range (xs : List Char)

inductive VectorMod (α : Type*) where
  | reserve (newCapacity : ℕ)
  | clear
  | pushBack (x : α)
  | popBack
  | resize (count : ℕ) (x : α)
  | setAt (pos : ℕ) (x : α)

inductive StringMod where
  | reserve (newCapacity : ℕ)
  | clear
  | pushBack (c : Char)
  | appendCount (count : ℕ) (c : Char)
  | append (xs : List Char)
  | appendRange (xs : List Char)
  | resize (count : ℕ)
  | setAt (pos : ℕ) (c : Char)
  | assignChars (xs : List Char)

/-- Objects have numbers as names. -/
inductive ContainerOp (α : Type*) where
  | vector (i : ℕ) (c : VectorInit α)
  | string (i : ℕ) (c : StringInit)
  | copy (i j : ℕ)
  | move (i j : ℕ)
  | copyAssign (i j : ℕ)
  | moveAssign (i j : ℕ)
  | swap (i j : ℕ)
  | modifyVector (i : ℕ) (m : VectorMod α)
  | modifyString (i : ℕ) (m : StringMod)
  | destroy (i : ℕ)

def VectorInit.run (l : Ledger) : VectorInit α → Option (Ledger × Storage α)
  | .default => some (l, {})
  | .count n x => Vector.constructCount l n x
  | .range xs => Vector.constructRange l xs
  | .list xs => Vector.constructList l xs

def StringInit.run (l : Ledger) : StringInit → Option (Ledger × Storage Char)
  | .default => some (l, {})
  | .count n ch => String.constructCount l n ch
  | .chars xs => String.constructChars l xs
  | .range xs => String.constructRange l xs

def VectorMod.run (l : Ledger) (v : Storage α) : VectorMod α → Option (Ledger × Storage α)
  | .reserve n => Vector.reserve l v n
  | .clear => Vector.clear l v
  | .pushBack x => Vector.emplaceBack l v x
  | .popBack => Vector.popBack l v
  | .resize n x => Vector.resize l v n (some x)
  | .setAt pos x => v.setAt l pos x

def StringMod.run (l : Ledger) (s : Storage Char) : StringMod → Option (Ledger × Storage Char)
  | .reserve n => String.reserve l s n
  | .clear => String.clear l s
  | .pushBack c => String.pushBack l s c
  | .appendCount n c => String.appendCount l s n c
  | .append xs => String.append l s xs
  | .appendRange xs => String.appendRange l s xs
  | .resize n => String.resize l s n
  | .setAt pos c => s.setAt l pos c
  | .assignChars xs => String.assignChars l s xs

namespace Object

/-- The copy constructor of the class. -/
def copy (l : Ledger) : Object α → Option (Ledger × Object α)
  | .vector v => (Vector.copy l v).map (Prod.map id .vector)
  | .string s => (String.copy l s).map (Prod.map id .string)

/-- A default-constructed object of the same class. -/
def fresh : Object α → Object α
  | .vector _ => .vector {}
  | .string _ => .string {}

def destroy (l : Ledger) : Object α → Option Ledger
  | .vector v => v.destroy l
  | .string s => s.destroy l

def sameClass : Object α → Object α → Bool
  | .vector _, .vector _ | .string _, .string _ => true
  | _, _ => false

def modifyVector (l : Ledger) (m : VectorMod α) : Object α → Option (Ledger × Object α)
  | .vector v => (m.run l v).map (Prod.map id .vector)
  | .string _ => none

def modifyString (l : Ledger) (m : StringMod) : Object α → Option (Ledger × Object α)
  | .vector _ => none
  | .string s => (m.run l s).map (Prod.map id .string)

end Object

structure Containers (α : Type*) where
  ledger : Ledger
  objects : ℕ → Option (Object α)

namespace Containers
variable (st : Containers α)

def empty : Containers α := ⟨.empty, fun _ => none⟩

def store (i : ℕ) (r : Ledger × Object α) : Containers α :=
  ⟨r.1, Function.update st.objects i (some r.2)⟩

/-- Construction of an object whose name is not in use. -/
def add (i : ℕ) (r : Option (Ledger × Object α)) : Option (Containers α) :=
  if (st.objects i).isSome then none else r.map (st.store i)

def modify (i : ℕ) (f : Object α → Option (Ledger × Object α)) : Option (Containers α) :=
  (st.objects i).bind fun o => (f o).map (st.store i)

/-- `swap` and the assignment of a moved object, which swaps. -/
def swap (i j : ℕ) : Option (Containers α) :=
  (st.objects i).bind fun a => (st.objects j).bind fun b =>
    if a.sameClass b then
      some { st with objects := Function.update (Function.update st.objects i (some b)) j (some a) }
    else none

end Containers

def ContainerOp.run (st : Containers α) : ContainerOp α → Option (Containers α)
  | .vector i c => st.add i ((c.run st.ledger).map (Prod.map id .vector))
  | .string i c => st.add i ((c.run st.ledger).map (Prod.map id .string))
  | .copy i j => (st.objects j).bind fun o => st.add i (o.copy st.ledger)
  | .move i j => (st.objects j).bind fun o =>
      (st.add i (some (st.ledger, o.fresh))).bind fun st => st.swap i j
  | .copyAssign i j => (st.objects j).bind fun o => (o.copy st.ledger).bind fun (l, tmp) =>
      st.modify i fun old => if old.sameClass tmp then (old.destroy l).map fun l => (l, tmp) else none
  | .moveAssign i j | .swap i j => st.swap i j
  | .modifyVector i m => st.modify i (·.modifyVector st.ledger m)
  | .modifyString i m => st.modify i (·.modifyString st.ledger m)
  | .destroy i => (st.objects i).bind fun o => (o.destroy st.ledger).map fun l =>
      ⟨l, Function.update st.objects i none⟩

def runOps : Containers α → List (ContainerOp α) → Option (Containers α)
  | st, [] => some st
  | st, op :: ops => (op.run st).bind fun st => runOps st ops

end HmmOS.Nonstd
