import HmmOS.Fs.Fat32
import HmmOS.Proc.Process

/-! # Loading an ELF image

Sums of program header fields are 32-bit sums; `floor_pg` and `ceil_pg` take and give
64 bits.
-/
namespace HmmOS.Proc
open Fs Lib Nonstd Util.Algorithm

def le16 (mem : Bytes) (a : ℕ) : ℕ := (mem a).toNat + 2 ^ 8 * (mem (a + 1)).toNat

structure ELFHeader where
  magic : ℕ
  class_ : ℕ
  endian : ℕ
  version : ℕ
  osAbi : ℕ
  type : ℕ
  machine : ℕ
  entry : ℕ
  phoff : ℕ
  ehsize : ℕ
  phentsize : ℕ
  phnum : ℕ
  shentsize : ℕ
  deriving DecidableEq, Repr

def ELFHeader.ofBytes (image : Bytes) : ELFHeader where
  magic := le32 image 0
  class_ := (image 4).toNat
  endian := (image 5).toNat
  version := (image 6).toNat
  osAbi := (image 7).toNat
  type := le16 image 16
  machine := le16 image 18
  entry := le32 image 24
  phoff := le32 image 28
  ehsize := le16 image 40
  phentsize := le16 image 42
  phnum := le16 image 44
  shentsize := le16 image 46

def expectedEhsize : ℕ := 0x34
def expectedPhentsize : ℕ := 0x20

def ELFHeader.validate (hdr : ELFHeader) : Bool :=
  hdr.magic == 0x464c457F && hdr.class_ == 0x01 && hdr.endian == 0x01 && hdr.version == 0x01 &&
    hdr.osAbi == 0x00 && hdr.type == 0x02 && hdr.machine == 0x03 && hdr.ehsize == expectedEhsize &&
    hdr.phentsize == expectedPhentsize && hdr.shentsize == 0x28 && hdr.entry != 0

structure PHEntry where
  type : ℕ
  offset : ℕ
  vaddr : ℕ
  filesz : ℕ
  memsz : ℕ
  flags : ℕ
  deriving DecidableEq, Repr

def typeLoad : ℕ := 0x01

def PHEntry.executable (ph : PHEntry) : Bool := ph.flags &&& 0x01 != 0
def PHEntry.writable (ph : PHEntry) : Bool := ph.flags &&& 0x02 != 0
def PHEntry.readable (ph : PHEntry) : Bool := ph.flags &&& 0x04 != 0

def PHEntry.ofBytes (image : Bytes) (a : ℕ) : PHEntry where
  type := le32 image a
  offset := le32 image (a + 4)
  vaddr := le32 image (a + 8)
  filesz := le32 image (a + 16)
  memsz := le32 image (a + 20)
  flags := le32 image (a + 24)

structure ELFExecutable where
  hdr : ELFHeader
  phTable : List PHEntry
  deriving DecidableEq, Repr

/-- `image` is memory from the buffer on: the second assertion is about a sum that may wrap, so the table
need not lie in the buffer. -/
def parseExecutable (image : Bytes) (length : ℕ) : Option (Except Result ELFExecutable) :=
  if ¬ length ≥ expectedEhsize then none
  else
    let hdr := ELFHeader.ofBytes image
    if ¬ hdr.validate then some (.error .NonExecutable)
    else if ¬ length ≥ Word.add 32 hdr.phoff (hdr.phnum * hdr.phentsize) then none
    else some (.ok
      { hdr := hdr
        phTable := (List.range hdr.phnum).map fun i =>
          PHEntry.ofBytes image (Word.add 32 hdr.phoff (i * expectedPhentsize)) })

inductive Seek where
  | Set | Cur | End
  deriving DecidableEq, Repr

/-- `Process::lseek`; the offset is a signed 32-bit number. -/
def Process.lseek (p : Process) (fd : ℕ) (offset : ℤ) (whence : Seek) : Process × Result :=
  match p.file fd with
  | none => (p, .BadFD)
  | some f =>
    let seekTo (newSeek : ℤ) : Process × Result :=
      if newSeek < 0 then (p, .InvalidArgs)
      else (p.setFile fd (some { f with offset := newSeek.toNat }), .Ok)
    match whence with
    | .Set => seekTo offset
    | .Cur => seekTo (Int.bmod (f.offset + offset) (2 ^ 64))
    | .End => (p, .Unsupported)

/-- `Process::read`: the buffer and the number of bytes, or the result that goes with `-1`. -/
def Process.read (fs : Filesystem) (dev : Bytes) (s : Vfs) (p : Process) (fd : ℕ) (buf : Bytes)
    (count : ℕ) : Except Stop (Process × Bytes × Except Result ℕ) :=
  match p.file fd with
  | none => return (p, buf, .error .BadFD)
  | some f => match f.dentry.bind fun d => (s.dentries d).bind fun e => s.inodes e.inode with
    | none => throw .dangling
    | some n => match n.read fs dev buf (f.offset % 2 ^ 32) count with
      | none => throw .assertion
      | some (buf, .error res) => return (p, buf, .error res)
      | some (buf, .ok rval) =>
        if rval < 0 then throw .assertion
        else return (p.setFile fd (some { f with offset := (f.offset + rval.toNat) % 2 ^ 64 }), buf,
          .ok rval.toNat)

/-- What the loader does to the address space. -/
inductive Effect where
  | mapped (addr len : ℕ)
  | wrote (dst len : ℕ)
  deriving DecidableEq, Repr

/-- The state of `map_elf_segments`: `mem` is the address space of the process, `buf` is
`scoped_buf`, and `trace` lists the effects so far. -/
structure Loader where
  vfs : Vfs
  proc : Process
  mem : Bytes
  buf : Bytes
  trace : List Effect

abbrev LoadStep := Loader → Except Stop (Loader × Result)

/-- `first; CHECK_RES; second`. -/
def checked (first second : LoadStep) : LoadStep := fun st => do
  let (st, res) ← first st
  if res ≠ .Ok then return (st, res) else second st

def skip : LoadStep := fun st => return (st, .Ok)

/-- Store `n` bytes of `src` at `dst`, wrapping at the end of the address space. -/
def store (dst : ℕ) (src : Bytes) (n : ℕ) : LoadStep := fun st =>
  return ({ st with
    mem := fun a => if Word.sub 32 a dst < n then src (Word.sub 32 a dst) else st.mem a
    trace := st.trace ++ [.wrote dst n] }, .Ok)

def mmapStep (addr len : ℕ) (prot : Access) (flags : Flags) (fd offset : ℕ) : LoadStep := fun st => do
  let (s, p, r) ← st.proc.mmap st.vfs addr len prot flags fd offset
  match r with
  | .ok _ => return ({ st with vfs := s, proc := p, trace := st.trace ++ [.mapped addr len] }, .Ok)
  | .error res => return ({ st with vfs := s, proc := p }, res)

section Segment
variable (fs : Filesystem) (dev : Bytes) (fd : ℕ)

def lseekStep (offset : ℕ) : LoadStep := fun st =>
  let (p, res) := st.proc.lseek fd (Int.bmod offset (2 ^ 32)) .Set
  return ({ st with proc := p }, res)

def readStep : LoadStep := fun st => do
  let (p, buf, r) ← st.proc.read fs dev st.vfs fd st.buf pgSz
  match r with
  | .ok _ => return ({ st with proc := p, buf := buf }, .Ok)
  | .error res => return ({ st with proc := p, buf := buf }, res)

def copyPage (offset : ℕ) : LoadStep :=
  if ¬ pgAligned offset then fun _ => throw .assertion
  else checked (lseekStep fd offset) (readStep fs dev fd)

def memcpyStep (dst from_ n : ℕ) : LoadStep := fun st => store dst (fun i => st.buf (from_ + i)) n st

def zeroStep (dst n : ℕ) : LoadStep := store dst (fun _ => 0) n

def PHEntry.prot (ph : PHEntry) : Access := ⟨ph.executable, ph.writable, ph.readable⟩

def flagsFile : Flags := ⟨false, true⟩
def flagsAnon : Flags := ⟨true, true⟩

def PHEntry.fileEnd (ph : PHEntry) : ℕ := Word.add 32 ph.vaddr ph.filesz
def PHEntry.memEnd (ph : PHEntry) : ℕ := Word.add 32 ph.vaddr ph.memsz

def PHEntry.fullPgStart (ph : PHEntry) : ℕ := ceilPg ph.vaddr % 2 ^ 32
def PHEntry.fullPgEnd (ph : PHEntry) : ℕ := floorPg ph.fileEnd % 2 ^ 32
def PHEntry.fileszCeil (ph : PHEntry) : ℕ := ceilPg ph.fileEnd % 2 ^ 32
def PHEntry.memszCeil (ph : PHEntry) : ℕ := ceilPg ph.memEnd % 2 ^ 32

/-- Case 1: the segment does not start on a page boundary. -/
def mapFirstPage (ph : PHEntry) : LoadStep :=
  if ¬ pgAligned ph.vaddr then
    let pgStart := floorPg ph.vaddr % 2 ^ 32
    let startOff := ph.vaddr % pgSz
    let endOff := Word.sub 64 (min ph.fileEnd (ceilPg ph.vaddr)) pgStart % 2 ^ 32
    checked (mmapStep pgStart pgSz ph.prot flagsAnon invalidFD 0) <|
    checked (copyPage fs dev fd (floorPg ph.offset % 2 ^ 32)) <|
    checked (zeroStep pgStart startOff) <|
    checked (memcpyStep (Word.add 32 pgStart startOff) startOff (Word.sub 32 endOff startOff)) <|
    zeroStep (Word.add 32 pgStart endOff) (Word.sub 32 pgSz endOff)
  else skip

/-- Case 2: the pages that lie wholly in the file. -/
def mapFullPages (ph : PHEntry) : LoadStep :=
  if ph.fullPgEnd > ph.fullPgStart then
    mmapStep ph.fullPgStart (Word.sub 32 ph.fullPgEnd ph.fullPgStart) ph.prot flagsFile fd
      (Word.add 32 ph.offset (Word.sub 32 ph.fullPgStart ph.vaddr))
  else skip

/-- Case 3: the file part does not end on a page boundary, nor in the page of case 1. -/
def mapLastPage (ph : PHEntry) : LoadStep :=
  if ph.fileszCeil > ph.fullPgEnd ∧ ph.fullPgEnd ≥ ph.fullPgStart then
    let pgStart := ph.fullPgEnd
    let endOff := Word.sub 32 ph.fileEnd pgStart
    checked (mmapStep pgStart pgSz ph.prot flagsAnon invalidFD 0) <|
    checked (copyPage fs dev fd (Word.add 32 ph.offset (Word.sub 32 pgStart ph.vaddr))) <|
    checked (memcpyStep pgStart 0 endOff) <|
    zeroStep (Word.add 32 pgStart endOff) (Word.sub 32 pgSz endOff)
  else skip

/-- Case 4: pages that are not in the file. -/
def mapAnonPages (ph : PHEntry) : LoadStep :=
  if ph.memszCeil > ph.fileszCeil then
    mmapStep ph.fileszCeil (Word.sub 32 ph.memszCeil ph.fileszCeil) ph.prot flagsAnon invalidFD 0
  else skip

def mapSegment (ph : PHEntry) : LoadStep :=
  if ph.type ≠ typeLoad then skip
  else if ph.vaddr % pgSz ≠ ph.offset % pgSz then fun st => return (st, .NonExecutable)
  else
    checked (mapFirstPage fs dev fd ph) <|
    checked (mapFullPages fd ph) <|
    checked (mapLastPage fs dev fd ph) <|
    mapAnonPages ph

def mapSegments : List PHEntry → LoadStep
  | [] => skip
  | ph :: phs => checked (mapSegment fs dev fd ph) (mapSegments phs)

end Segment

/-- `map_elf_segments` up to the call of `close`, with the descriptor. The two buffers have
arbitrary contents at first. -/
def Process.loadSegments (disk : Disk) (fs : Filesystem) (dev : Bytes) (s : Vfs) (p : Process)
    (path : Name) (addrs : List (ℕ × ℕ)) (mem elfBuf scopedBuf : Bytes) :
    Except Stop (ℕ × Loader × Result) := do
  let (s, p, r) ← p.open disk s path addrs
  match r with
  | .error res => return (invalidFD, ⟨s, p, mem, scopedBuf, []⟩, res)
  | .ok fd =>
    let (p, elfBuf, r) ← p.read fs dev s fd elfBuf pgSz
    let st : Loader := ⟨s, p, mem, scopedBuf, []⟩
    match r with
    | .error res => return (fd, st, res)
    | .ok n => match parseExecutable elfBuf n with
      | none => throw .assertion
      | some (.error res) => return (fd, st, res)
      | some (.ok exe) =>
        let (st, res) ← mapSegments fs dev fd exe.phTable st
        return (fd, st, res)

/-- `map_elf_segments`. The file is closed only if nothing went wrong. -/
def Process.mapElfSegments (disk : Disk) (fs : Filesystem) (dev : Bytes) (s : Vfs) (p : Process)
    (path : Name) (addrs : List (ℕ × ℕ)) (mem elfBuf scopedBuf : Bytes) :
    Except Stop (Loader × Result) := do
  let (fd, st, res) ← p.loadSegments disk fs dev s path addrs mem elfBuf scopedBuf
  if res ≠ .Ok then return (st, res)
  else
    let (s, p, res) ← st.proc.close st.vfs fd
    return ({ st with vfs := s, proc := p }, res)

end HmmOS.Proc
