import HmmOS.Util.IntrusiveList
import Mathlib.Data.List.AList

/-! # The LRU cache

While an item has leases it is not evictable; when its last lease is released it goes
to the front of `lru`. `none` is a failed assertion, a null or dangling pointer, or an
overflow of a reference count.
-/
namespace HmmOS.Util
open Lib.Ring
variable {K V : Type}

/-- `LRUCache::Node`, apart from its list head. -/
structure CacheNode (K V : Type) where
  refcount : ℤ
  key : K
  val : V
  deriving DecidableEq, Repr

/-- `LRUCache` and the leases of its clients. The list has `none` for the head `lru`; the last two fields
list the calls of the two callbacks. -/
structure LRUCache (K V : Type) where
  lookup : AList fun _ : K => ℕ
  nodes : ℕ → Option (CacheNode K V)
  links : Links (Option ℕ)
  leases : ℕ → Option (Option ℕ)
  populated : List K
  evicted : List (K × V)

namespace LRUCache

def construct : LRUCache K V where
  lookup := ∅
  nodes := fun _ => none
  links := IntrusiveListHead.fresh
  leases := fun _ => none
  populated := []
  evicted := []

def setNode (c : LRUCache K V) (a : ℕ) (n : Option (CacheNode K V)) : LRUCache K V :=
  { c with nodes := Function.update c.nodes a n }

def setLease (c : LRUCache K V) (l : ℕ) (node : Option (Option ℕ)) : LRUCache K V :=
  { c with leases := Function.update c.leases l node }

def incLeases (c : LRUCache K V) (a : ℕ) : Option (LRUCache K V) := do
  let n ← c.nodes a
  if n.refcount = 2 ^ 31 - 1 then none
  else
    let c := c.setNode a (some { n with refcount := n.refcount + 1 })
    if n.refcount + 1 = 1 then
      (IntrusiveListHead.erase c.links (some a)).map fun r => { c with links := r.1 }
    else some c

def decLeases (c : LRUCache K V) (a : ℕ) : Option (LRUCache K V) := do
  let n ← c.nodes a
  if n.refcount = -2 ^ 31 then none
  else
    let c := c.setNode a (some { n with refcount := n.refcount - 1 })
    if n.refcount - 1 = 0 then
      (IntrusiveListHead.pushFront c.links none (some a)).map fun links => { c with links := links }
    else some c

def newLease (c : LRUCache K V) (l a : ℕ) : Option (LRUCache K V) :=
  (c.setLease l (some (some a))).incLeases a

section Keys
variable [DecidableEq K]

/-- `get`. The lease is returned in `l`, and a new node is at `addr`, with the value that
`populate_cache` returns. -/
def get (c : LRUCache K V) (key : K) (val : V) (insertIfMissing : Bool) (l addr : ℕ) :
    Option (LRUCache K V) :=
  match c.lookup.lookup key with
  | some a => c.newLease l a
  | none =>
    if insertIfMissing then
      newLease { c with
        populated := c.populated ++ [key]
        lookup := c.lookup.insert key addr
        nodes := Function.update c.nodes addr (some ⟨0, key, val⟩)
        links := IntrusiveListHead.construct c.links (some addr) } l addr
    else some (c.setLease l (some none))

def size (c : LRUCache K V) : ℕ := c.lookup.keys.length

/-- `evictable`: the length of the list, which has no more nodes than the map. -/
def evictable (c : LRUCache K V) : Option ℕ := IntrusiveListHead.size (c.size + 1) c.links none

def evictOne (c : LRUCache K V) (a : ℕ) : Option (LRUCache K V) := do
  let n ← c.nodes a
  if n.refcount ≠ 0 then none
  else
    let (links, _) ← IntrusiveListHead.erase c.links (some a)
    return { c.setNode a none with
      evicted := c.evicted ++ [(n.key, n.val)]
      links := links
      lookup := c.lookup.erase n.key }

/-- `evict_one(Lease &&)` of the lease at `l`. `lease.~Lease()` leaves the object as it is: its
destructor runs once more when its scope ends. -/
def evictOneLease (c : LRUCache K V) (l : ℕ) : Option (LRUCache K V × Bool) := do
  let node ← c.leases l
  let a ← node
  let n ← c.nodes a
  if n.refcount ≠ 1 then return (c, false)
  let c ← c.decLeases a
  let c ← c.evictOne a
  return (c, true)

def evictLoop (sizeHint : ℕ) : ℕ → LRUCache K V → ℕ → Option (LRUCache K V × ℕ)
  | 0, _, _ => none
  | fuel + 1, c, evicted =>
    if c.size > sizeHint then do
      if ← IntrusiveListHead.empty c.links none then return (c, evicted)
      let a ← c.links.prev none
      let c ← c.evictOne a
      evictLoop sizeHint fuel c (evicted + 1)
    else some (c, evicted)

/-- `evict`. Each turn removes an item, so there are no more turns than items. -/
def evict (c : LRUCache K V) (sizeHint : ℕ) : Option (LRUCache K V × ℕ) :=
  evictLoop sizeHint (c.size + 1) c 0

end Keys

def leaseConstruct (c : LRUCache K V) (l : ℕ) : LRUCache K V := c.setLease l (some none)

/-- `operator=(Lease &&)` swaps the two leases. -/
def leaseMoveAssign (c : LRUCache K V) (l other : ℕ) : Option (LRUCache K V) := do
  let node ← c.leases l
  let node' ← c.leases other
  return (c.setLease l (some node')).setLease other (some node)

def leaseMoveConstruct (c : LRUCache K V) (l other : ℕ) : Option (LRUCache K V) :=
  (c.leaseConstruct l).leaseMoveAssign l other

def leaseDestroy (c : LRUCache K V) (l : ℕ) : Option (LRUCache K V) := do
  let node ← c.leases l
  match node with
  | none => return c.setLease l none
  | some a => (c.decLeases a).map fun c => c.setLease l none

def leaseInc (c : LRUCache K V) (l : ℕ) : Option (LRUCache K V) := do
  let node ← c.leases l
  let a ← node
  c.incLeases a

def leaseDec (c : LRUCache K V) (l : ℕ) : Option (LRUCache K V) := do
  let node ← c.leases l
  let a ← node
  c.decLeases a

end LRUCache

end HmmOS.Util
