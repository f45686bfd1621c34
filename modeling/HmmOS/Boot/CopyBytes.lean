import HmmOS.Boot.FatGeometry

/-! # Copying from the disk

`copy_bytes` reads whole sectors. Its loop has the test at the end, so that it
copies one sector at least, and a part of a sector at the end of the range is
left out.
-/
namespace HmmOS.Boot
open Lib Nonstd Fs

/-- One turn: the firmware reads a sector, and its bytes are copied to their place. -/
def copySector (dev mem : Bytes) (dst sector : ℕ) : Bytes :=
  memcpy mem dst (fun i => dev (mbrSectorSz * sector + i)) mbrSectorSz

/-- The loop, up to the sector `last`. The numbers of sectors are below `2^24`, so that the signed
comparison is the one of numbers. -/
def copySectors (dev mem : Bytes) (dst sector last : ℕ) : Bytes :=
  let mem := copySector dev mem dst sector
  if sector + 1 ≥ last then mem else copySectors dev mem (dst + mbrSectorSz) (sector + 1) last
termination_by last - sector

/-- `copy_bytes`: the disk address and the length become numbers of sectors. -/
def copyBytes (dev mem : Bytes) (dst diskAddr len : ℕ) : Bytes :=
  copySectors dev mem dst (diskAddr >>> 9) (diskAddr >>> 9 + len >>> 9)

def copiedBytes (len : ℕ) : ℕ := mbrSectorSz * max 1 (len / mbrSectorSz)

theorem copySectors_eq (dev mem : Bytes) (dst sector last : ℕ) : copySectors dev mem dst sector last =
      memcpy mem dst (fun i => dev (mbrSectorSz * sector + i)) (mbrSectorSz * max 1 (last - sector)) := by
  induction hn : last - sector generalizing mem dst sector with
  | zero =>
    rw [copySectors, if_pos (by omega)]
    rfl
  | succ n ih =>
    rw [copySectors]
    split_ifs with hlast
    · obtain rfl : n = 0 := by omega
      rfl
    · have hsrc : (fun i => dev (mbrSectorSz * (sector + 1) + i)) =
          fun i => (fun i => dev (mbrSectorSz * sector + i)) (mbrSectorSz + i) := by
        funext i
        rw [Nat.mul_succ, Nat.add_assoc]
      have hcount : mbrSectorSz + mbrSectorSz * max 1 n = mbrSectorSz * max 1 (n + 1) := by
        rw [Nat.add_comm, ← Nat.mul_succ]
        congr 1
        omega
      rw [ih _ _ _ (by omega), copySector, hsrc, memcpy_append, hcount]

theorem copyBytes_eq (dev mem : Bytes) (dst diskAddr len : ℕ) : copyBytes dev mem dst diskAddr len =
      memcpy mem dst (fun i => dev (mbrSectorSz * (diskAddr / mbrSectorSz) + i)) (copiedBytes len) := by
  have hshift : ∀ n, n >>> 9 = n / mbrSectorSz := fun n => Nat.shiftRight_eq_div_pow n 9
  rw [copyBytes, copySectors_eq, hshift, hshift, Nat.add_sub_cancel_left, copiedBytes]

theorem copiedBytes_of_dvd {len : ℕ} (hpos : 0 < len) (hlen : len % mbrSectorSz = 0) :
    copiedBytes len = len := by
  rw [mbrSectorSz] at hlen
  rw [copiedBytes, mbrSectorSz]
  omega

theorem copiedBytes_le (len : ℕ) : copiedBytes len ≤ len + mbrSectorSz := by
  rw [copiedBytes, mbrSectorSz]
  omega

theorem copyBytes_of_not_mem {dev mem : Bytes} {dst diskAddr len a : ℕ}
    (ha : ¬ (dst ≤ a ∧ a < dst + copiedBytes len)) : copyBytes dev mem dst diskAddr len a = mem a := by
  rw [copyBytes_eq, memcpy_of_not_mem ha]

theorem copyBytes_congr {mem mem' : Bytes} {a : ℕ} (h : mem a = mem' a) (dev : Bytes) (dst diskAddr len : ℕ) :
    copyBytes dev mem dst diskAddr len a = copyBytes dev mem' dst diskAddr len a := by
  rw [copyBytes_eq, copyBytes_eq, memcpy, memcpy, h]

theorem copyBytes_aligned {diskAddr : ℕ} (haddr : diskAddr % mbrSectorSz = 0) (dev mem : Bytes) (dst len : ℕ) :
    copyBytes dev mem dst diskAddr len = memcpy mem dst (fun i => dev (diskAddr + i)) (copiedBytes len) := by
  rw [copyBytes_eq, Nat.mul_div_cancel' (Nat.dvd_of_mod_eq_zero haddr)]

-- from here on a copy is what `copyBytes_eq` says
attribute [irreducible] copyBytes

section Spec
variable (fs : Fat32Desc) (dev : Bytes)

def Fat32Desc.clusterBytes : ℕ := fs.sectorsPerCluster * fs.bytesPerSector

def Fat32Desc.clusterStart (cluster : ℕ) : ℕ :=
  fs.dataRegionOffsetBytes + fs.clusterBytes * (cluster - 2)

def Fat32Desc.fatEntry (cluster : ℕ) : ℕ := le32 dev (fs.fatOffsetBytes + 4 * cluster)

def Fat32Desc.chain (start : ℕ) : ℕ → ℕ
  | 0 => start
  | k + 1 => fat32MaskEntry (fs.fatEntry dev (Fat32Desc.chain start k))

structure Fat32Desc.WholeSectors : Prop where
  sector_pos : 0 < fs.bytesPerSector
  sector : fs.bytesPerSector % mbrSectorSz = 0
  cluster_pos : 0 < fs.sectorsPerCluster
  fat : fs.fatOffsetBytes % mbrSectorSz = 0
  data : fs.dataRegionOffsetBytes % mbrSectorSz = 0

/-- A cluster of the data region, which lies below `2^32` with its entry. -/
structure Fat32Desc.Below (cluster : ℕ) : Prop where
  data : 2 ≤ cluster
  contents : fs.clusterStart cluster + fs.clusterBytes ≤ 2 ^ 32
  entry : fs.fatOffsetBytes + 4 * (cluster + 1) ≤ 2 ^ 32

end Spec

section Clusters
variable {fs : Fat32Desc} {c : ℕ}

theorem Fat32Desc.WholeSectors.sector_ge (h : fs.WholeSectors) : 512 ≤ fs.bytesPerSector := by
  have hpos := h.sector_pos
  have hsector := h.sector
  rw [mbrSectorSz] at hsector
  omega

theorem Fat32Desc.WholeSectors.clusterBytes_ge (h : fs.WholeSectors) : 512 ≤ fs.clusterBytes :=
  h.sector_ge.trans (Nat.le_mul_of_pos_left _ h.cluster_pos)

section
variable (h : fs.Below c) (hw : fs.WholeSectors)
include h hw

theorem Fat32Desc.Below.small : c < 2 ^ 23 + 2 := by
  have hle := Nat.mul_le_mul_right (c - 2) hw.clusterBytes_ge
  have hcontents := h.contents
  have hge := hw.clusterBytes_ge
  rw [Fat32Desc.clusterStart] at hcontents
  omega

theorem Fat32Desc.Below.mask : fat32MaskEntry c = c := by
  have := h.small hw
  exact maskCluster_of_lt (by omega)

theorem Fat32Desc.Below.not_last : fat32IsLastClusterInFile c = false := by
  have hsmall := h.small hw
  rw [fat32IsLastClusterInFile, h.mask hw]
  simp only [ge_iff_le, decide_eq_false_iff_not]
  omega

theorem Fat32Desc.Below.clusterDataOffsetBytes : fs.clusterDataOffsetBytes c = fs.clusterStart c := by
  have hsmall := h.small hw
  have hcontents := h.contents
  have hge := hw.clusterBytes_ge
  have hsub : Word.sub 32 c 2 = c - 2 := Word.sub_of_le h.data (by omega)
  rw [Fat32Desc.clusterStart] at hcontents ⊢
  have hprod : (c - 2) * fs.sectorsPerCluster * fs.bytesPerSector = fs.clusterBytes * (c - 2) := by
    rw [Fat32Desc.clusterBytes]
    ring
  have hle : (c - 2) * fs.sectorsPerCluster ≤ (c - 2) * fs.sectorsPerCluster * fs.bytesPerSector :=
    Nat.le_mul_of_pos_right _ hw.sector_pos
  have hinner : Word.mul 32 (c - 2) fs.sectorsPerCluster = (c - 2) * fs.sectorsPerCluster :=
    Word.mul_of_lt (by omega)
  rw [Fat32Desc.clusterDataOffsetBytes, h.mask hw, hsub, hinner, Word.mul_of_lt (by omega), hprod,
    Word.add_of_lt (by omega)]

end

theorem Fat32Desc.WholeSectors.clusterStart_aligned (hw : fs.WholeSectors) (c : ℕ) :
    fs.clusterStart c % mbrSectorSz = 0 := by
  have hdvd : mbrSectorSz ∣ fs.clusterBytes * (c - 2) :=
    ((Nat.dvd_of_mod_eq_zero hw.sector).mul_left _).mul_right _
  exact Nat.mod_eq_zero_of_dvd (Nat.dvd_add (Nat.dvd_of_mod_eq_zero hw.data) hdvd)

theorem Fat32Desc.Below.fatSectorPosition (h : fs.Below c) (hw : fs.WholeSectors) :
    fs.fatSectorPosition (c / fs.fatEntriesPerSector) + 4 * (c % fs.fatEntriesPerSector) =
        fs.fatOffsetBytes + 4 * c ∧ fs.fatSectorPosition (c / fs.fatEntriesPerSector) % mbrSectorSz = 0 := by
  have hsector := hw.sector
  have hfat := hw.fat
  have hentry := h.entry
  have hpos := entry_eq fs.bytesPerSector c
  rw [mbrSectorSz] at hsector hfat ⊢
  have hfour : fs.bytesPerSector % 4 = 0 := by omega
  rw [hfour, Nat.mul_zero, Nat.add_zero] at hpos
  have hdvd : c / (fs.bytesPerSector / 4) * fs.bytesPerSector % 512 = 0 :=
    Nat.mod_eq_zero_of_dvd ((Nat.dvd_of_mod_eq_zero hsector).mul_left _)
  rw [Fat32Desc.fatSectorPosition, Fat32Desc.fatEntriesPerSector, Word.mul_of_lt (by omega),
    Nat.mod_eq_of_lt (by omega), Word.add_of_lt (by omega)]
  omega

end Clusters

end HmmOS.Boot
