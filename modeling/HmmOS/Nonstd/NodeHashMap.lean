import HmmOS.Nonstd.List

/-! # `nonstd::node_hash_map`

A bucket is an iterator to the first element whose hash falls into it. Loops that
follow iterators carry fuel and give `none` when it runs out, as a failed assertion does.
-/
namespace HmmOS.Nonstd
variable {K V : Type*} [DecidableEq K]

structure MapNode (K V : Type*) where
  hash : ℕ
  key : K
  value : V

/-- The bucket array holds null iterators as `none`; `data` is the address of the list. -/
structure NodeHashMap where
  bucketCount : ℕ
  buckets : ℕ → Option ℕ
  data : ℕ

abbrev MapHeap (K V : Type*) := Heap (MapNode K V)

def bucketCounts : List ℕ :=
  [17, 37, 79, 163, 331, 673, 1361, 2729, 5471, 10949, 21911, 43853, 87719, 175447, 350899, 701819,
    1403641, 2807303, 5614657, 11229331, 22458671, 44917381, 89834777, 179669557, 359339171,
    718678369, 1437356741, 2874713497]

/-- The last of the counts. -/
def maxBucketCount : ℕ := 2874713497

/-- `next_bucket_count`; too large a request fails its assertion. -/
def nextBucketCount (minBuckets : ℕ) : Option ℕ := bucketCounts.find? (fun c => c ≥ minBuckets)

def keyAt (h : MapHeap K V) (it : ℕ) : Option K := (h.val it).map MapNode.key

def valueAt (h : MapHeap K V) (it : ℕ) : Option V := (h.val it).map MapNode.value

def setValue (h : MapHeap K V) (it : ℕ) (v : V) : MapHeap K V :=
  h.setVal it ((h.val it).map fun n => { n with value := v })

namespace NodeHashMap

def construct (h : MapHeap K V) (bucketCount : ℕ) : Option (MapHeap K V × NodeHashMap) :=
  (nextBucketCount bucketCount).map fun c =>
    (h.constructList.1, { bucketCount := c, buckets := fun _ => none, data := h.constructList.2 })

def getBucket (m : NodeHashMap) (hash : ℕ) : ℕ := hash % m.bucketCount

def sameBucket (h : MapHeap K V) (m : NodeHashMap) (it bucket : ℕ) : Bool :=
  it != m.data && (h.val it).any fun n => m.getBucket n.hash == bucket

/-- The loop over one bucket: the element with the key, from `it` on. -/
def scan (h : MapHeap K V) (m : NodeHashMap) (idx : ℕ) (key : K) : ℕ → ℕ → Option (Option ℕ)
  | 0, _ => none
  | fuel + 1, it =>
    if sameBucket h m it idx then
      if keyAt h it = some key then some (some it) else scan h m idx key fuel (h.links.next it)
    else some none

def find (H : K → ℕ) (h : MapHeap K V) (m : NodeHashMap) (key : K) : Option ℕ :=
  let idx := m.getBucket (H key)
  match m.buckets idx with
  | none => some m.data
  | some bucket => (scan h m idx key (h.size m.data + 1) bucket).map (·.getD m.data)

/-- Remove the element at `pos`; an iterator to the one after it. -/
def erase (h : MapHeap K V) (m : NodeHashMap) (pos : ℕ) : Option (MapHeap K V × NodeHashMap × ℕ) :=
  (h.val pos).bind fun node =>
    let idx := m.getBucket node.hash
    (m.buckets idx).map fun bucket =>
      let bucket' :=
        if bucket = pos then
          if sameBucket h m (h.links.next bucket) idx then some (h.links.next bucket) else none
        else some bucket
      let r := h.erase m.data pos
      (r.1, { m with buckets := Function.update m.buckets idx bucket' }, r.2)

def eraseKey (H : K → ℕ) (h : MapHeap K V) (m : NodeHashMap) (key : K) :
    Option (MapHeap K V × NodeHashMap × ℕ) :=
  (find H h m key).bind fun it => if it ≠ m.data then erase h m it else some (h, m, m.data)

def clearLoop : ℕ → MapHeap K V → NodeHashMap → ℕ → Option (MapHeap K V × NodeHashMap)
  | 0, _, _, _ => none
  | fuel + 1, h, m, it =>
    if it ≠ m.data then (erase h m it).bind fun r => clearLoop fuel r.1 r.2.1 r.2.2 else some (h, m)

def clear (h : MapHeap K V) (m : NodeHashMap) : Option (MapHeap K V × NodeHashMap) :=
  clearLoop (h.size m.data + 1) h m (h.begin m.data)

def moveAssign (h : MapHeap K V) (m other : NodeHashMap) : MapHeap K V × NodeHashMap × NodeHashMap :=
  (h.swapLists m.data other.data, { other with data := m.data }, { m with data := other.data })

/-- Splice every element from `it` on out of the list at `data` into `tmp`. -/
def rehashLoop (data : ℕ) : ℕ → MapHeap K V → NodeHashMap → ℕ → Option (MapHeap K V × NodeHashMap)
  | 0, _, _, _ => none
  | fuel + 1, h, tmp, it =>
    if it ≠ data then
      (h.val it).bind fun node =>
        let idx := tmp.getBucket node.hash
        let bucket := (tmp.buckets idx).getD (h.begin tmp.data)
        rehashLoop data fuel (h.splice tmp.data bucket data it)
          { tmp with buckets := Function.update tmp.buckets idx (some it) } (h.links.next it)
    else some (h, tmp)

/-- `rehash`; the temporary map is destroyed at the end. -/
def rehash (h : MapHeap K V) (m : NodeHashMap) (count : ℕ) : Option (MapHeap K V × NodeHashMap) :=
  if count ≤ m.bucketCount then some (h, m)
  else
    (construct h count).bind fun (h, tmp) =>
      (rehashLoop m.data (h.size m.data + 1) h tmp (h.begin m.data)).bind fun (h, tmp) =>
        let r := moveAssign h m tmp
        (clear r.1 r.2.2).map fun (h, _) => (h, r.2.1)

/-- Insert a node for the key at the front of its bucket; the heap, the map and its iterator. -/
def insertNew (H : K → ℕ) (h : MapHeap K V) (m : NodeHashMap) (pos : ℕ) (key : K) (v : V) :
    Option (MapHeap K V × NodeHashMap × ℕ × Bool) :=
  let r := h.emplace m.data pos ⟨H key, key, v⟩
  let m' := { m with buckets := Function.update m.buckets (m.getBucket (H key)) (some r.2) }
  (rehash r.1 m' (r.1.size m.data)).map fun (h, m) => (h, m, r.2, true)

/-- The common part of `emplace` and `try_emplace`; `found` is what is done to an element that has
the key already. -/
def emplaceWith (found : MapHeap K V → ℕ → MapHeap K V) (H : K → ℕ) (h : MapHeap K V)
    (m : NodeHashMap) (key : K) (v : V) : Option (MapHeap K V × NodeHashMap × ℕ × Bool) :=
  let idx := m.getBucket (H key)
  match m.buckets idx with
  | none => insertNew H h m (h.begin m.data) key v
  | some bucket =>
    (scan h m idx key (h.size m.data + 1) bucket).bind fun
      | some it => some (found h it, m, it, false)
      | none => insertNew H h m bucket key v

/-- `emplace`, and `insert`: the value of a key that is present is overwritten. -/
def emplace (H : K → ℕ) (h : MapHeap K V) (m : NodeHashMap) (key : K) (v : V) :=
  emplaceWith (fun h it => setValue h it v) H h m key v

/-- `try_emplace`: a key that is present keeps its value. -/
def tryEmplace (H : K → ℕ) (h : MapHeap K V) (m : NodeHashMap) (key : K) (v : V) :=
  emplaceWith (fun h _ => h) H h m key v

/-- `operator[]`: an iterator for the reference it returns. -/
def index [Inhabited V] (H : K → ℕ) (h : MapHeap K V) (m : NodeHashMap) (key : K) :
    Option (MapHeap K V × NodeHashMap × ℕ) :=
  (tryEmplace H h m key default).map fun r => (r.1, r.2.1, r.2.2.1)

/-- Insert the elements of the list at `other`, from `it` on. -/
def insertLoop (H : K → ℕ) (other : ℕ) :
    ℕ → MapHeap K V → NodeHashMap → ℕ → Option (MapHeap K V × NodeHashMap)
  | 0, _, _, _ => none
  | fuel + 1, h, m, it =>
    if it ≠ other then
      (h.val it).bind fun node =>
        (emplace H h m node.key node.value).bind fun r =>
          insertLoop H other fuel r.1 r.2.1 (h.links.next it)
    else some (h, m)

def copyConstruct (H : K → ℕ) (h : MapHeap K V) (other : NodeHashMap) :
    Option (MapHeap K V × NodeHashMap) :=
  (construct h 0).bind fun r =>
    insertLoop H other.data (r.1.size other.data + 1) r.1 r.2 (r.1.begin other.data)

/-- Copy assignment; the old contents are destroyed with the temporary copy. -/
def copyAssign (H : K → ℕ) (h : MapHeap K V) (m other : NodeHashMap) :
    Option (MapHeap K V × NodeHashMap) :=
  (copyConstruct H h other).bind fun r =>
    let r' := moveAssign r.1 m r.2
    (clear r'.1 r'.2.2).map fun c => (c.1, r'.2.1)

/-- The move constructor: the heap, the new map and the map it was moved from. -/
def moveConstruct (h : MapHeap K V) (other : NodeHashMap) :
    Option (MapHeap K V × NodeHashMap × NodeHashMap) :=
  (construct h 0).map fun r => moveAssign r.1 r.2 other

def iterate (h : MapHeap K V) (m : NodeHashMap) : ℕ → ℕ → Option (List ℕ)
  | 0, _ => none
  | fuel + 1, it =>
    if it ≠ m.data then (iterate h m fuel (h.links.next it)).map (it :: ·) else some []

def size (h : MapHeap K V) (m : NodeHashMap) : ℕ := h.size m.data

def elements (h : MapHeap K V) (m : NodeHashMap) : Option (List ℕ) :=
  iterate h m (size h m + 1) (h.begin m.data)

end NodeHashMap

end HmmOS.Nonstd
