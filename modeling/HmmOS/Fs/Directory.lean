import HmmOS.Fs.Fat32Volume
import HmmOS.Lib.Outcome
import HmmOS.Nonstd.StringView

/-! # Directories on a FAT32 volume

`iterate_dir` goes through the clusters of the chain, the pages of a cluster and the
entries of a page, which it maps one at a time.
-/
namespace HmmOS.Fs
open Lib Nonstd Util.Algorithm

/-- Why `iterate_dir` does not return. -/
inductive DirStop where
  | assertion
  /-- An access outside of the page that is mapped. -/
  | outsidePage
  /-- A loop that does not end. -/
  | loops
  deriving DecidableEq, Repr

/-- `DirectoryEntry`, without the fields that nothing reads. The name is `short_filename` followed by
`short_fileext`. -/
structure Dirent where
  shortName : List UInt8
  attr : UInt8
  clusterHi : ℕ
  clusterLo : ℕ
  fileSzBytes : ℕ
  deriving DecidableEq, Repr

def direntSz : ℕ := 32

def Dirent.read (mem : Bytes) (a : ℕ) : Dirent where
  shortName := (List.range 11).map fun i => mem (a + i)
  attr := mem (a + 11)
  clusterHi := le16 mem (a + 20)
  clusterLo := le16 mem (a + 26)
  fileSzBytes := le32 mem (a + 28)

def Dirent.chars (d : Dirent) : Name := d.shortName.map fun b => Char.ofNat b.toNat

def Dirent.toEntry (d : Dirent) : DirectoryEntry where
  clusterHi := d.clusterHi
  clusterLo := d.clusterLo
  fileSzBytes := d.fileSzBytes
  subdir := d.attr &&& 0x10 != 0

def Filesystem.dirEntriesPerCluster (fs : Filesystem) : ℕ := 512 * fs.sectorsPerCluster / direntSz

/-- The pointer that a lease gives, or the value that an assertion checks. -/
def orAssert {α : Type} : Option α → Except DirStop α
  | some a => .ok a
  | none => .error .assertion

section Iterate
variable {σ : Type} (fs : Filesystem) (dev : Bytes) (cb : σ → Dirent → σ × Bool)

/-- The loop over entries, with `n` entries to go: what the calls have made of the state, and whether
`iterate_dir` returns. -/
def scanEntries (page : Bytes) : ℕ → ℕ → σ → Except DirStop (σ × Bool)
  | 0, _, acc => .ok (acc, false)
  | n + 1, it, acc =>
    let a := direntSz * it
    if a + direntSz > pgSz then .error .outsidePage
    else if page a = 0 then .ok (acc, true)
    else if page a = 0xE5 ∨ page (a + 11) = 0x0F then scanEntries page n (it + 1) acc
    else
      let r := cb acc (Dirent.read page a)
      if r.2 then .ok r else scanEntries page n (it + 1) r.1

/-- The loop over pages; the offset of the page is a 32-bit number, the end of the cluster is not. -/
def Filesystem.scanPages (startPg : ℕ) : ℕ → ℕ → σ → Except DirStop (σ × Bool)
  | 0, _, _ => .error .loops
  | fuel + 1, pgIt, acc =>
    if pgIt < startPg + fs.sectorsPerCluster * 512 then do
      let page ← orAssert (cachePage dev pgIt)
      let r ← scanEntries cb page fs.dirEntriesPerCluster 0 acc
      if r.2 then return r
      else Filesystem.scanPages startPg fuel (Word.add 32 pgIt pgSz) r.1
    else return (acc, false)

/-- `iterate_dir` in at most `fuel` clusters, with at most `pages` turns of the page loop in each. -/
def Filesystem.iterateDir (pages : ℕ) : ℕ → ℕ → σ → Except DirStop σ
  | 0, _, _ => .error .loops
  | fuel + 1, dirCluster, acc =>
    if ¬ pgAligned (fs.sectorsPerCluster * 512) then .error .assertion
    else do
      let startPg := fs.startSector dirCluster * 512
      let r ← fs.scanPages dev cb startPg pages (startPg % 2 ^ 32) acc
      if r.2 then return r.1
      else
        let next ← orAssert (fs.advanceCluster dev dirCluster)
        Filesystem.iterateDir pages fuel next r.1

end Iterate

def matchName (name : Name) (dirent : Option Dirent) (d : Dirent) : Option Dirent × Bool :=
  if StringView.eq name d.chars then (some d, true) else (dirent, false)

/-- A page loop that ends, ends before it has seen every 32-bit offset of a page twice. -/
def pageFuel : ℕ := 2 ^ 20 + 1

/-- A search that ends, ends before it has seen a cluster twice. -/
def chainFuel : ℕ := 2 ^ 28 + 2

/-- The search of `lookup` for an 8.3 name. -/
def Filesystem.findDirent (fs : Filesystem) (dev : Bytes) (dirCluster : ℕ) (name : Name) :
    Except DirStop (Option Dirent) :=
  fs.iterateDir dev (matchName name) pageFuel chainFuel dirCluster none

/-- The directories of a volume, as `lookup` finds them. -/
def Filesystem.disk (fs : Filesystem) (dev : Bytes) : Disk := fun dirCluster name =>
  match fs.findDirent dev dirCluster name with
  | .ok dirent => some (dirent.map Dirent.toEntry)
  | .error _ => none

end HmmOS.Fs
