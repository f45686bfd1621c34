import HmmOS.Fs.Fat32Volume

/-! # The FAT32 driver of the bootloader

It reads one logical sector at a time into a buffer, and keeps the start of the
FAT and of the data region as numbers of bytes. A failed assertion is `none`.
-/
namespace HmmOS.Boot
open Lib Nonstd Fs

def mbrSectorSz : ℕ := 0x200

/-- `fat32_desc`, without its buffer. -/
structure Fat32Desc where
  bytesPerSector : ℕ
  sectorsPerCluster : ℕ
  fatOffsetBytes : ℕ
  dataRegionOffsetBytes : ℕ
  rootDirStartCluster : ℕ
  deriving DecidableEq, Repr

/-- The size of the buffer that `fat32_init_desc` allocates. -/
def maxLogicalSectorSz : ℕ := 4096

def fat32ParsePartition (dev : Bytes) (part : MbrPartition) (bufSz : ℕ) : Option Fat32Desc :=
  let partitionStartBytes := Word.mul 64 part.firstSectorLba mbrSectorSz
  -- the disk address is a 32-bit pointer
  let vbr := Vbr.read dev (partitionStartBytes % 2 ^ 32)
  if vbr.totalSectors ≠ 0 then none
  else if ¬ (vbr.extendedBootSig = 0x28 ∨ vbr.extendedBootSig = 0x29) then none
  else if vbr.bootSignature ≠ 0xAA55 then none
  else if vbr.bytesPerSector < mbrSectorSz then none
  else if vbr.bytesPerSector > bufSz then none
  else
    let fatOffsetBytes := Word.add 64 partitionStartBytes
      (Word.mul 64 vbr.reservedSectors vbr.bytesPerSector)
    some
      { bytesPerSector := vbr.bytesPerSector
        sectorsPerCluster := vbr.sectorsPerCluster
        fatOffsetBytes := fatOffsetBytes
        dataRegionOffsetBytes := Word.add 64 fatOffsetBytes
          (Word.mul 64 (Word.mul 64 vbr.fats vbr.sectorsPerFat2) vbr.bytesPerSector)
        rootDirStartCluster := vbr.rootDirStartCluster }

def fat32MaskEntry (cluster : ℕ) : ℕ := cluster &&& 0x0FFFFFFF

def fat32IsLastClusterInFile (cluster : ℕ) : Bool := fat32MaskEntry cluster ≥ 0x0FFFFFF7

/-- The product is one of 32-bit numbers, the sum one of 64-bit numbers. -/
def Fat32Desc.clusterDataOffsetBytes (fs : Fat32Desc) (cluster : ℕ) : ℕ :=
  Word.add 64 fs.dataRegionOffsetBytes
    (Word.mul 32 (Word.mul 32 (Word.sub 32 (fat32MaskEntry cluster) 2) fs.sectorsPerCluster)
      fs.bytesPerSector)

def Fat32Desc.fatEntriesPerSector (fs : Fat32Desc) : ℕ := fs.bytesPerSector / 4

def Fat32Desc.fatSectorPosition (fs : Fat32Desc) (fatSector : ℕ) : ℕ :=
  Word.add 32 (fs.fatOffsetBytes % 2 ^ 32) (Word.mul 32 fatSector fs.bytesPerSector)

/-- The byte of the disk where `fat32_read_file` finds the entry of a cluster. -/
def Fat32Desc.fatEntryPosition (fs : Fat32Desc) (cluster : ℕ) : ℕ :=
  fs.fatSectorPosition (cluster / fs.fatEntriesPerSector) + 4 * (cluster % fs.fatEntriesPerSector)

/-- `fat32_file_desc`, without its file system. -/
structure Fat32FileDesc where
  startCluster : ℕ
  fileSzBytes : ℕ
  deriving DecidableEq, Repr

/-- A call of `copy_bytes`: offset in the destination, disk address and length. -/
structure Copy where
  offset : ℕ
  diskAddr : ℕ
  len : ℕ
  deriving DecidableEq, Repr

/-- The variables of the loop of `fat32_read_file`, and the sector in the buffer. -/
structure ReadLoop where
  cluster : ℕ
  remainingBytes : ℕ
  lastFatSector : ℕ
  buf : Bytes

def ReadLoop.start (file : Fat32FileDesc) (buf : Bytes) : ReadLoop where
  cluster := file.startCluster
  remainingBytes := file.fileSzBytes
  lastFatSector := 2 ^ 32 - 1
  buf := buf

section ReadFile
variable (fs : Fat32Desc) (dev : Bytes) (file : Fat32FileDesc)

def ReadLoop.copy (st : ReadLoop) : Copy where
  offset := Word.sub 32 file.fileSzBytes st.remainingBytes
  diskAddr := fs.clusterDataOffsetBytes st.cluster % 2 ^ 32
  len := min (fs.sectorsPerCluster * fs.bytesPerSector) st.remainingBytes

def ReadLoop.turn (st : ReadLoop) : ReadLoop :=
  let fatSector := st.cluster / fs.fatEntriesPerSector
  let buf : Bytes :=
    if fatSector ≠ st.lastFatSector then fun i => dev (fs.fatSectorPosition fatSector + i)
    else st.buf
  { cluster := le32 buf (4 * (st.cluster % fs.fatEntriesPerSector))
    remainingBytes := st.remainingBytes - (st.copy fs file).len
    lastFatSector := fatSector
    buf := buf }

def ReadLoop.next (st : ReadLoop) : Option ReadLoop :=
  if fat32IsLastClusterInFile (st.turn fs dev file).cluster then none
  else some (st.turn fs dev file)

def ReadLoop.after (st : ReadLoop) : ℕ → Option ReadLoop
  | 0 => some st
  | k + 1 => (ReadLoop.after st k).bind fun st => st.next fs dev file

/-- `fat32_read_file` in at most `fuel` turns: the copies in order, if nothing remains. -/
def fat32ReadFileFrom : ℕ → ReadLoop → Option (List Copy)
  | 0, _ => none
  | fuel + 1, st =>
    let next := st.turn fs dev file
    if fat32IsLastClusterInFile next.cluster then
      if next.remainingBytes = 0 then some [st.copy fs file] else none
    else (fat32ReadFileFrom fuel next).map (st.copy fs file :: ·)

end ReadFile

end HmmOS.Boot
