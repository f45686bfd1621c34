import Mathlib.Algebra.Group.Nat.Defs
import Mathlib.Logic.Function.Basic
import Mathlib.Data.Nat.Notation

/-! # Inodes, dentries and path lookup

An object is live from its constructor to the start of its destructor. The hash maps
of the source are finite maps here.

Paths are NUL-terminated strings, on which the comparison of `string_view`s by
`strncmp` is equality. The counts are unbounded: `2^32` referring objects do not
fit into the 32-bit address space.
-/
namespace HmmOS.Fs

/-- Why a call does not return. -/
inductive Stop where
  /-- An assertion in a constructor, a destructor or `dec_rc`. -/
  | assertion
  /-- An access to an object that is not live. -/
  | dangling
  /-- `lookup` in a regular file, or in a directory whose cluster chain ends early. -/
  | lookup
  /-- The address given for a new object is in use; heaps do not do that. -/
  | heap
  deriving DecidableEq, Repr

inductive Result where
  | Ok | Unsupported | InvalidArgs | IsDirectory | IsFile | FileNotFound | BadFD | NonExecutable
  | MappingExists
  deriving DecidableEq, Repr

abbrev Name := List Char

structure Inode where
  id : ℕ
  startCluster : ℕ
  size : ℕ
  isDirectory : Bool
  rc : ℕ := 0
  deriving DecidableEq, Repr

structure Dentry where
  inode : ℕ
  parent : Option ℕ
  component : Name
  children : List ℕ := []
  inHashtable : Bool := false
  rc : ℕ := 0
  /-- The number of ancestors, which bounds the recursion of `dec_rc`. -/
  level : ℕ := 0
  deriving DecidableEq, Repr

/-- The objects by address, and the two hash maps. -/
structure Vfs where
  dentries : ℕ → Option Dentry
  inodes : ℕ → Option Inode
  dcache : ℕ × Name → Option ℕ
  startClusterToInode : ℕ → Option ℕ
  root : ℕ
  nextInode : ℕ

def Vfs.setDentry (s : Vfs) (d : ℕ) (e : Dentry) : Vfs :=
  { s with dentries := Function.update s.dentries d (some e) }

def Vfs.freeDentry (s : Vfs) (d : ℕ) : Vfs :=
  { s with dentries := Function.update s.dentries d none }

def Vfs.setInode (s : Vfs) (i : ℕ) (n : Inode) : Vfs :=
  { s with inodes := Function.update s.inodes i (some n) }

def Vfs.setCluster (s : Vfs) (c : ℕ) (i : Option ℕ) : Vfs :=
  { s with startClusterToInode := Function.update s.startClusterToInode c i }

def Vfs.setDcache (s : Vfs) (key : ℕ × Name) (d : Option ℕ) : Vfs :=
  { s with dcache := Function.update s.dcache key d }

def Vfs.getDentry (s : Vfs) (d : ℕ) : Except Stop Dentry :=
  match s.dentries d with
  | some e => .ok e
  | none => .error .dangling

def Vfs.getInode (s : Vfs) (i : ℕ) : Except Stop Inode :=
  match s.inodes i with
  | some n => .ok n
  | none => .error .dangling

def Inode.construct (s : Vfs) (i : ℕ) (n : Inode) : Except Stop Vfs :=
  if (s.inodes i).isSome then .error .heap
  else if (s.startClusterToInode n.startCluster).isSome then .error .assertion
  else .ok ((s.setInode i n).setCluster n.startCluster (some i))

def Inode.incRc (s : Vfs) (i : ℕ) : Except Stop Vfs := do
  let n ← s.getInode i
  return s.setInode i { n with rc := n.rc + 1 }

def Inode.destroy (s : Vfs) (i : ℕ) (n : Inode) : Except Stop Vfs :=
  let s := { s with inodes := Function.update s.inodes i none }
  if s.startClusterToInode n.startCluster = some i then .ok (s.setCluster n.startCluster none)
  else .error .assertion

def Inode.decRc (s : Vfs) (i : ℕ) : Except Stop Vfs := do
  let n ← s.getInode i
  if n.rc = 0 then .error .assertion
  else if n.rc - 1 = 0 then Inode.destroy s i n
  else return s.setInode i { n with rc := n.rc - 1 }

def Dentry.incRc (s : Vfs) (d : ℕ) : Except Stop Vfs := do
  let e ← s.getDentry d
  return s.setDentry d { e with rc := e.rc + 1 }

/-- The constructor of a dentry with a parent, at address `d`. -/
def Dentry.construct (s : Vfs) (d p inode : ℕ) (component : Name) : Except Stop Vfs := do
  if (s.dentries d).isSome then .error .heap
  else
    let ep ← s.getDentry p
    let s := s.setDentry p { ep with rc := ep.rc + 1, children := ep.children ++ [d] }
    if (s.dcache (p, component)).isSome then .error .assertion
    else
      let s := s.setDcache (p, component) (some d)
      let s := s.setDentry d { inode := inode, parent := some p, component := component,
                               inHashtable := true, level := ep.level + 1 }
      Inode.incRc s inode

/-- `Dentry::dec_rc` with the destructor it may run. The destructor drops the inode, then the
parent, and only then the entry in the dcache. -/
def Dentry.decRcAux : ℕ → Vfs → ℕ → Except Stop Vfs
  | 0, _, _ => .error .dangling
  | fuel + 1, s, d => do
    let e ← s.getDentry d
    if e.rc = 0 then .error .assertion
    else if e.rc - 1 = 0 then
      let s := s.freeDentry d
      if e.children ≠ [] then .error .assertion
      else
        let s ← Inode.decRc s e.inode
        match e.parent with
        | none => return s
        | some p =>
          let ep ← s.getDentry p
          let s := s.setDentry p { ep with children := ep.children.erase d }
          let s ← Dentry.decRcAux fuel s p
          if e.inHashtable then
            if s.dcache (p, e.component) = some d then
              return s.setDcache (p, e.component) none
            else .error .assertion
          else return s
    else return s.setDentry d { e with rc := e.rc - 1 }

def Dentry.decRc (s : Vfs) (d : ℕ) : Except Stop Vfs := do
  let e ← s.getDentry d
  Dentry.decRcAux (e.level + 1) s d

/-- What `lookup` reads from a directory entry on disk. -/
structure DirectoryEntry where
  clusterHi : ℕ
  clusterLo : ℕ
  fileSzBytes : ℕ
  subdir : Bool
  deriving DecidableEq, Repr

def DirectoryEntry.startCluster (e : DirectoryEntry) : ℕ := (e.clusterHi <<< 2) ||| e.clusterLo

/-- What `iterate_dir` finds in a directory under an 8.3 name: nothing at all if the chain ends before
the directory does. -/
abbrev Disk := ℕ → Name → Option (Option DirectoryEntry)

def convertNormalTo83Filename (filename : Name) : Name :=
  let pad := fun n (s : Name) => s.take n ++ List.replicate (n - s.length) ' '
  match filename.idxOf? '.' with
  | none => pad 8 filename ++ List.replicate 3 ' '
  | some pos => pad 8 (filename.take pos) ++ pad 3 (filename.drop (pos + 1))

/-- `fat32::Inode::lookup`; a new inode gets the address `addr`. -/
def Inode.lookup (disk : Disk) (s : Vfs) (i addr : ℕ) (name : Name) :
    Except Stop (Vfs × Option ℕ) := do
  let n ← s.getInode i
  if ¬ n.isDirectory then .error .lookup
  else match disk n.startCluster (convertNormalTo83Filename name) with
    | none => .error .lookup
    | some none => return (s, none)
    | some (some dirent) => match s.startClusterToInode dirent.startCluster with
      | some j => return (s, some j)
      | none =>
        let s' ← Inode.construct { s with nextInode := (s.nextInode + 1) % 2 ^ 32 } addr
          { id := s.nextInode, startCluster := dirent.startCluster, size := dirent.fileSzBytes
            isDirectory := dirent.subdir }
        return (s', some addr)

/-- `left_partition_path`: the first component and the rest. -/
def leftPartitionPath (path : Name) : Name × Name :=
  (path.takeWhile (· ≠ '/'), (path.dropWhile (· ≠ '/')).drop 1)

/-- The components that the loop of `pathname_lookup` visits. -/
def components (path : Name) : List Name :=
  if path = [] then [] else (leftPartitionPath path).1 :: components (leftPartitionPath path).2
termination_by path.length
decreasing_by
  have hlen := (List.dropWhile_sublist (l := path) (· ≠ '/')).length_le
  have hpos : 0 < path.length := List.length_pos_iff.mpr ‹_›
  simp only [leftPartitionPath, List.length_drop]
  omega

/-- One turn of the loop, at the dentry `it`; `addrs` are the addresses for a new inode and a new
dentry. -/
def lookupComponent (disk : Disk) (s : Vfs) (it : ℕ) (component : Name) (addrs : ℕ × ℕ) :
    Except Stop (Vfs × Option ℕ) := do
  if component = [] ∨ component = ['.'] then return (s, some it)
  else
    let e ← s.getDentry it
    if component = ['.', '.'] then return (s, some (e.parent.getD it))
    else match s.dcache (it, component) with
      | some d => return (s, some d)
      | none =>
        let (s, inode) ← Inode.lookup disk s e.inode addrs.1 component
        match inode with
        | none => return (s, none)
        | some i =>
          let s ← Dentry.construct s addrs.2 it i component
          return (s, some addrs.2)

def lookupComponents (disk : Disk) : Vfs → ℕ → List Name → List (ℕ × ℕ) → Except Stop (Vfs × Option ℕ)
  | s, it, [], _ => return (s, some it)
  | s, it, c :: cs, addrs => do
    let (s, next) ← lookupComponent disk s it c (addrs.headD (0, 0))
    match next with
    | none => return (s, none)
    | some d => lookupComponents disk s d cs addrs.tail

/-- `pathname_lookup`: the dentry, or nothing with the result `FileNotFound`. -/
def pathnameLookup (disk : Disk) (s : Vfs) (path : Name) (addrs : List (ℕ × ℕ)) :
    Except Stop (Vfs × Option ℕ) :=
  lookupComponents disk s s.root (components path) addrs

/-- The root dentry after `get_root_dentry`, which gives it an extra reference. -/
def rootDentry : Dentry :=
  { inode := 0, parent := none, component := "<root>".toList, rc := 1 }

def Vfs.init (rootCluster : ℕ) : Vfs where
  dentries := Function.update (fun _ => none) 0 (some rootDentry)
  inodes := Function.update (fun _ => none) 0
    (some { id := 0, startCluster := rootCluster, size := 0, isDirectory := true, rc := 1 })
  dcache := fun _ => none
  startClusterToInode := Function.update (fun _ => none) rootCluster (some 0)
  root := 0
  nextInode := 1

end HmmOS.Fs
