import HmmOS.Fs.Fat32

/-! # The layout of a FAT32 volume, as the kernel computes it

`from_partition` reads the volume boot record and keeps the start of the FAT and
of the data region as numbers of 512-byte sectors.
-/
namespace HmmOS.Fs
open Lib Nonstd Util.Algorithm

def le16 (mem : Bytes) (a : ℕ) : ℕ := (mem a).toNat + 2 ^ 8 * (mem (a + 1)).toNat

/-- `MBRPartition`; the partition is found by other fields, and only its start is used. -/
structure MbrPartition where
  firstSectorLba : ℕ
  firstSectorLba_lt : firstSectorLba < 2 ^ 32
  deriving DecidableEq, Repr

structure Vbr where
  bytesPerSector : ℕ
  sectorsPerCluster : ℕ
  reservedSectors : ℕ
  fats : ℕ
  totalSectors : ℕ
  sectorsPerFat2 : ℕ
  rootDirStartCluster : ℕ
  extendedBootSig : ℕ
  bootSignature : ℕ
  deriving DecidableEq, Repr

def Vbr.read (dev : Bytes) (pos : ℕ) : Vbr where
  bytesPerSector := le16 dev (pos + 11)
  sectorsPerCluster := (dev (pos + 13)).toNat
  reservedSectors := le16 dev (pos + 14)
  fats := (dev (pos + 16)).toNat
  totalSectors := le16 dev (pos + 19)
  sectorsPerFat2 := le32 dev (pos + 36)
  rootDirStartCluster := le32 dev (pos + 44)
  extendedBootSig := (dev (pos + 66)).toNat
  bootSignature := le16 dev (pos + 510)

/-- Where `from_partition` reads the record: a page of the device, and a sector in it. -/
def MbrPartition.vbrPosition (part : MbrPartition) : ℕ :=
  floorPg (Word.mul 32 part.firstSectorLba 512) + part.firstSectorLba % (pgSz / 512) * 512

/-- `from_partition` with the constructor of `fat32::Filesystem`. -/
def Filesystem.fromPartition (dev : Bytes) (part : MbrPartition) : Filesystem :=
  let vbr := Vbr.read dev part.vbrPosition
  { sectorsPerCluster := vbr.sectorsPerCluster
    fatOffsetLba := Word.add 32 part.firstSectorLba vbr.reservedSectors
    dataRegionOffsetLba := Word.add 32 (Word.add 32 part.firstSectorLba vbr.reservedSectors)
      (Word.mul 32 vbr.fats vbr.sectorsPerFat2) }

def Filesystem.fatPosition (fs : Filesystem) : ℕ := Word.mul 32 fs.fatOffsetLba 512

/-- The byte of the device where `advance_cluster` reads the entry of a cluster. -/
def Filesystem.fatEntryPosition (fs : Filesystem) (cluster : ℕ) : ℕ :=
  let fatIt := fs.getFatSectorForCluster cluster
  floorPg (Word.mul 32 fatIt 512) + fatIt % (pgSz / 512) * 512 + 4 * (cluster % fatEntriesPerSector)

def Filesystem.startSector (fs : Filesystem) (cluster : ℕ) : ℕ :=
  Word.add 32 fs.dataRegionOffsetLba (Word.mul 32 (Word.sub 32 cluster 2) fs.sectorsPerCluster)

def Filesystem.clusterPosition (fs : Filesystem) (cluster : ℕ) : ℕ :=
  Word.mul 32 (Word.add 32 fs.dataRegionOffsetLba
    (Word.mul 32 (Word.sub 32 cluster 2) fs.sectorsPerCluster)) 512

theorem le16_lt (mem : Bytes) (a : ℕ) : le16 mem a < 2 ^ 16 := by
  have h0 := (mem a).toNat_lt
  have h1 := (mem (a + 1)).toNat_lt
  rw [le16]
  omega

theorem sector_position {sector : ℕ} :
    floorPg (Word.mul 32 sector 512) + sector % (pgSz / 512) * 512 = 512 * sector % 2 ^ 32 := by
  have hlt := Word.mul_lt 32 sector 512
  rw [floorPg_eq (by omega), Word.mul, pgSz_eq]
  omega

theorem MbrPartition.vbrPosition_eq (part : MbrPartition) :
    part.vbrPosition = 512 * part.firstSectorLba % 2 ^ 32 := sector_position

theorem maskCluster_eq (cluster : ℕ) : maskCluster cluster = cluster % 2 ^ 28 :=
  Nat.and_two_pow_sub_one_eq_mod cluster 28

theorem isLastClusterInFile_mask (cluster : ℕ) :
    isLastClusterInFile (maskCluster cluster) = isLastClusterInFile cluster := by
  rw [isLastClusterInFile, isLastClusterInFile, maskCluster_eq, maskCluster_eq, Nat.mod_mod]

theorem Filesystem.fatEntryPosition_eq (fs : Filesystem) (cluster : ℕ) : fs.fatEntryPosition cluster =
      512 * (fs.fatOffsetLba + cluster % 2 ^ 28 / 128) % 2 ^ 32 + 4 * (cluster % 128) := by
  rw [Filesystem.fatEntryPosition, sector_position, Filesystem.getFatSectorForCluster, maskCluster_eq, fatEntriesPerSector,
    Word.add]
  omega

theorem Filesystem.advanceCluster_eq_entry (fs : Filesystem) (dev : Bytes) (cluster : ℕ) :
    fs.advanceCluster dev cluster = if isLastClusterInFile (le32 dev (fs.fatEntryPosition cluster)) then none
      else some (maskCluster (le32 dev (fs.fatEntryPosition cluster))) := by
  have hlt := Word.mul_lt 32 (fs.getFatSectorForCluster cluster) 512
  have haligned : pgAligned (floorPg (Word.mul 32 (fs.getFatSectorForCluster cluster) 512)) = true := by
    rw [pgAligned_iff, floorPg_eq (by omega)]
    omega
  rw [Filesystem.advanceCluster, cachePage, if_pos haligned, Option.bind_some, le32_offset, ← Nat.add_assoc]
  dsimp only
  rw [isLastClusterInFile_mask]
  rfl

end HmmOS.Fs
