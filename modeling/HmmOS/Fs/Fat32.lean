import HmmOS.Fs.Vfs
import HmmOS.Nonstd.Memory
import HmmOS.Util.Algorithm

/-! # Files on a FAT32 volume

`get_dev_offset` finds the place of a page of a file on the device by following
the chain of its clusters through the file allocation table.
-/
namespace HmmOS.Fs
open Lib Nonstd Util.Algorithm

/-- `fat32::Filesystem`, as far as reading files needs it. -/
structure Filesystem where
  sectorsPerCluster : ℕ
  fatOffsetLba : ℕ
  dataRegionOffsetLba : ℕ
  deriving DecidableEq, Repr

/-- The page that the page cache holds for an offset of the device. `read_page_direct` asserts that
the offset is aligned. -/
def cachePage (dev : Bytes) (offset : ℕ) : Option Bytes :=
  if pgAligned offset then some fun i => dev (offset + i) else none

def maskCluster (cluster : ℕ) : ℕ := cluster &&& 0x0FFFFFFF

def isLastClusterInFile (cluster : ℕ) : Bool := maskCluster cluster ≥ 0x0FFFFFF7

def fatEntriesPerSector : ℕ := 128

def Filesystem.getFatSectorForCluster (fs : Filesystem) (cluster : ℕ) : ℕ :=
  Word.add 32 fs.fatOffsetLba (maskCluster cluster / fatEntriesPerSector)

def Filesystem.advanceCluster (fs : Filesystem) (dev : Bytes) (curCluster : ℕ) : Option ℕ :=
  let fatIt := fs.getFatSectorForCluster curCluster
  let offset := floorPg (Word.mul 32 fatIt 512)
  let sectorOff := fatIt % (pgSz / 512) * 512
  (cachePage dev offset).bind fun page =>
    let nextCluster := maskCluster (le32 page (sectorOff + 4 * (curCluster % fatEntriesPerSector)))
    if isLastClusterInFile nextCluster then none else some nextCluster

/-- The loop of `get_dev_offset`, which subtracts in 64 bits. -/
def Filesystem.walkClusters (fs : Filesystem) (dev : Bytes) : ℕ → ℕ → ℕ → Option ℕ
  | 0, _, _ => none
  | fuel + 1, fileOffset, curCluster =>
    if fileOffset > 0 then
      (fs.advanceCluster dev curCluster).bind
        (fs.walkClusters dev fuel (Word.sub 64 fileOffset (fs.sectorsPerCluster * 512)))
    else some curCluster

/-- `uint64_t(-1)`, with which `get_dev_offset` rejects an offset. -/
def badOffset : ℕ := 2 ^ 64 - 1

/-- `fat32::Inode::get_dev_offset`. A loop that ends at all ends within `2^64` turns. -/
def Inode.getDevOffset (fs : Filesystem) (dev : Bytes) (n : Inode) (fileOffset : ℕ) : Option ℕ :=
  if ¬ pgAligned fileOffset then some badOffset
  else if ¬ pgAligned (fs.sectorsPerCluster * 512) then none
  else if n.isDirectory then some badOffset
  else if fileOffset ≥ n.size then some badOffset
  else (fs.walkClusters dev (2 ^ 64) fileOffset n.startCluster).map fun curCluster =>
    let sector := Word.add 32 fs.dataRegionOffsetLba
      (Word.mul 32 (Word.sub 32 curCluster 2) fs.sectorsPerCluster)
    Word.mul 32 sector 512

def Inode.lease (fs : Filesystem) (dev : Bytes) (n : Inode) (offset : ℕ) : Option Bytes :=
  (n.getDevOffset fs dev offset).bind (cachePage dev)

/-- The loop of `read` over aligned pages. -/
def Inode.readPages (fs : Filesystem) (dev : Bytes) (n : Inode) (buf : Bytes) (pgIt rval count : ℕ) :
    Option (Bytes × ℕ) :=
  if count = 0 then some (buf, rval)
  else
    let bytesToCopy := min pgSz count
    (n.lease fs dev pgIt).bind fun page =>
      n.readPages fs dev (memcpy buf rval page bytesToCopy) (pgIt + pgSz) (rval + bytesToCopy)
        (count - bytesToCopy)
termination_by count
decreasing_by
  rw [pgSz_eq]
  omega

/-- `Inode::read`: the buffer and the number of bytes, a signed 32-bit `ssize_t`, or the result that
goes with `-1`. -/
def Inode.read (fs : Filesystem) (dev : Bytes) (n : Inode) (buf : Bytes) (offset count : ℕ) :
    Option (Bytes × Except Result ℤ) :=
  if n.isDirectory then some (buf, .error .IsDirectory)
  else if offset ≥ n.size ∨ count = 0 then some (buf, .ok 0)
  else
    let count := min count (Word.sub 32 n.size offset)
    let pgIt := floorPg offset
    let r :=
      if pgIt ≠ offset then
        (n.lease fs dev pgIt).bind fun page =>
          let bytesToCopy := min (pgSz - offset % pgSz) count
          n.readPages fs dev (memcpy buf 0 (fun i => page (offset % pgSz + i)) bytesToCopy)
            (pgIt + pgSz) bytesToCopy (count - bytesToCopy)
      else n.readPages fs dev buf pgIt 0 count
    r.map fun (buf, rval) => (buf, .ok (Int.bmod rval (2 ^ 32)))

end HmmOS.Fs
