import HmmOS.Fs.Vfs
import HmmOS.Util.Algorithm

/-! # Processes: open files and mappings

The file descriptor table is a `vector` of optional `File`s, the mappings are a
list of areas sorted by address. Both own references to dentries.
-/
namespace HmmOS.Proc
open Fs Util.Algorithm

/-- `fs::File`; the dentry is null in a file that was moved away from. -/
structure File where
  dentry : Option ℕ := none
  offset : ℕ := 0
  fd : ℕ := 0
  deriving DecidableEq, Repr

def takeRef (s : Vfs) : Option ℕ → Except Stop Vfs
  | none => return s
  | some d => Dentry.incRc s d

def dropRef (s : Vfs) : Option ℕ → Except Stop Vfs
  | none => return s
  | some d => Dentry.decRc s d

/-- The move constructor swaps with a fresh `File`: the new one and what is left of the old one. -/
def File.move (f : File) : File × File := (f, {})

structure FdVector where
  data : List (Option File) := []
  capacity : ℕ := 0
  deriving DecidableEq, Repr

/-- Move every element to a new buffer, destroying what is left in the old one. -/
def relocate (s : Vfs) : List (Option File) → Except Stop (Vfs × List (Option File))
  | [] => return (s, [])
  | f :: fs => do
    let old := f.map fun f => f.move.2
    let s ← dropRef s (old.bind File.dentry)
    let (s, fs) ← relocate s fs
    return (s, (f.map fun f => f.move.1) :: fs)

def FdVector.reserve (s : Vfs) (v : FdVector) (newCapacity : ℕ) : Except Stop (Vfs × FdVector) :=
  if newCapacity ≤ v.capacity then return (s, v)
  else do
    let (s, data) ← relocate s v.data
    return (s, { data := data, capacity := max newCapacity (v.capacity * 2) })

def FdVector.emplaceBack (s : Vfs) (v : FdVector) : Except Stop (Vfs × FdVector) := do
  let (s, v) ← v.reserve s (v.data.length + 1)
  return (s, { v with data := v.data ++ [none] })

structure Access where
  executable : Bool := false
  writable : Bool := false
  readable : Bool := false
  deriving DecidableEq, Repr

structure Flags where
  mapAnon : Bool := false
  mapPrivate : Bool := false
  deriving DecidableEq, Repr

structure VirtualMemoryArea where
  addr : ℕ
  len : ℕ
  prot : Access
  flags : Flags
  dentry : Option ℕ
  offset : ℕ
  deriving DecidableEq, Repr

structure Process where
  fds : FdVector := {}
  vmas : List VirtualMemoryArea := []
  deriving DecidableEq, Repr

def invalidFD : ℕ := 2 ^ 32 - 1

def Process.file (p : Process) (fd : ℕ) : Option File := (p.fds.data[fd]?).join

def Process.getNextFd (s : Vfs) (p : Process) : Except Stop (Vfs × Process × ℕ) :=
  match p.fds.data.findIdx? Option.isNone with
  | some fd => return (s, p, fd)
  | none => do
    let (s, fds) ← p.fds.emplaceBack s
    return (s, { p with fds := fds }, fds.data.length - 1)

def Process.setFile (p : Process) (fd : ℕ) (f : Option File) : Process :=
  { p with fds := { p.fds with data := p.fds.data.set fd f } }

/-- `Process::open`: the descriptor, or the result of the failed lookup. -/
def Process.open (disk : Disk) (s : Vfs) (p : Process) (path : Name) (addrs : List (ℕ × ℕ)) :
    Except Stop (Vfs × Process × Except Result ℕ) := do
  let (s, dentry) ← pathnameLookup disk s path addrs
  match dentry with
  | none => return (s, p, .error .FileNotFound)
  | some d =>
    let (s, p, fd) ← p.getNextFd s
    let s ← Dentry.incRc s d
    return (s, p.setFile fd (some { dentry := some d }), .ok fd)

def Process.close (s : Vfs) (p : Process) (fd : ℕ) : Except Stop (Vfs × Process × Result) :=
  match p.file fd with
  | none => return (s, p, .BadFD)
  | some f => do
    let s ← dropRef s f.dentry
    return (s, p.setFile fd none, .Ok)

def VirtualMemoryArea.check (v : VirtualMemoryArea) : Result :=
  if v.dentry.isNone ≠ v.flags.mapAnon then .InvalidArgs
  else if ¬ pgAligned v.addr ∨ ¬ pgAligned v.offset ∨ v.len = 0 then .InvalidArgs
  else .Ok

/-- The constructor takes its reference after the checks. -/
def VirtualMemoryArea.construct (s : Vfs) (v : VirtualMemoryArea) : Except Stop (Vfs × Result) :=
  if v.check = .Ok then do
    let s ← takeRef s v.dentry
    return (s, .Ok)
  else return (s, v.check)

/-- The loop of `mmap`: the position of the new area, unless it overlaps with another one. -/
def findGap (addr length : ℕ) : List VirtualMemoryArea → Option ℕ
  | [] => some 0
  | it :: vmas =>
    if rangeOverlaps2 32 addr length it.addr it.len false then none
    else if it.addr > addr then some 0
    else (findGap addr length vmas).map (· + 1)

def Process.mmapDentry (p : Process) (fd : ℕ) : Except Result (Option ℕ) :=
  if fd = invalidFD then .ok none
  else match p.file fd with
    | none => .error .BadFD
    | some f => .ok f.dentry

/-- `Process::mmap`. The area is built in the list and erased again if its constructor finds fault with it. -/
def Process.mmap (s : Vfs) (p : Process) (addr length : ℕ) (prot : Access) (flags : Flags)
    (fd offset : ℕ) : Except Stop (Vfs × Process × Except Result ℕ) :=
  match p.mmapDentry fd with
  | .error res => return (s, p, .error res)
  | .ok dentry => match findGap addr length p.vmas with
    | none => return (s, p, .error .MappingExists)
    | some k => do
      let vma : VirtualMemoryArea := ⟨addr, length, prot, flags, dentry, offset⟩
      let (s, res) ← vma.construct s
      let vmas := p.vmas.insertIdx k vma
      if res ≠ .Ok then
        let s ← dropRef s vma.dentry
        return (s, { p with vmas := vmas.eraseIdx k }, .error res)
      else return (s, { p with vmas := vmas }, .ok addr)

def Process.destroyVma (s : Vfs) (p : Process) (k : ℕ) : Except Stop (Vfs × Process) :=
  match p.vmas[k]? with
  | none => return (s, p)
  | some v => do
    let s ← dropRef s v.dentry
    return (s, { p with vmas := p.vmas.eraseIdx k })

def dropRefs : Vfs → List (Option ℕ) → Except Stop Vfs
  | s, [] => return s
  | s, d :: ds => do
    let s ← dropRef s d
    dropRefs s ds

/-- The destructor of `Process` destroys its members in reverse order: mappings, then files. -/
def Process.destroy (s : Vfs) (p : Process) : Except Stop Vfs := do
  let s ← dropRefs s (p.vmas.map VirtualMemoryArea.dentry)
  dropRefs s (p.fds.data.map fun f => f.bind File.dentry)

end HmmOS.Proc
