import HmmOS.Fs.Fat32Volume

/-! # The clusters of a file

The file allocation table links the clusters of a file. `get_dev_offset` follows a link
for each cluster that it subtracts from the offset.
-/
namespace HmmOS.Fs
open Lib Nonstd Util.Algorithm

section Spec
variable (fs : Filesystem) (dev : Bytes)

def Filesystem.fatEntry (cluster : ℕ) : ℕ :=
  maskCluster (le32 dev (512 * fs.fatOffsetLba + 4 * cluster))

def Filesystem.chain (start : ℕ) : ℕ → ℕ
  | 0 => start
  | k + 1 => fs.fatEntry dev (Filesystem.chain start k)

def Filesystem.clusterOffset (cluster : ℕ) : ℕ :=
  512 * fs.dataRegionOffsetLba + 512 * fs.sectorsPerCluster * (cluster - 2)

def Filesystem.clusterBytes : ℕ := 512 * fs.sectorsPerCluster

/-- The clusters of the file and their entries lie below `2^32`. -/
structure Filesystem.Covers (n : Inode) : Prop where
  regular : n.isDirectory = false
  size_lt : n.size < 2 ^ 32
  data : ∀ k, fs.clusterBytes * k < n.size → 2 ≤ fs.chain dev n.startCluster k
  below : ∀ k, fs.clusterBytes * k < n.size →
    fs.clusterOffset (fs.chain dev n.startCluster k) + fs.clusterBytes ≤ 2 ^ 32
  fat : ∀ k, fs.clusterBytes * k < n.size →
    512 * fs.fatOffsetLba + 4 * (fs.chain dev n.startCluster k + 1) ≤ 2 ^ 32

/-- The number of links that the loop of `get_dev_offset` follows. -/
def Filesystem.linksFollowed : ℕ → ℕ → ℕ → ℕ
  | 0, _, _ => 0
  | fuel + 1, fileOffset, curCluster =>
    if fileOffset > 0 then
      match fs.advanceCluster dev curCluster with
      | some next =>
        Filesystem.linksFollowed fuel (Word.sub 64 fileOffset (fs.sectorsPerCluster * 512)) next + 1
      | none => 1
    else 0

end Spec

variable {fs : Filesystem} {dev : Bytes} {n : Inode} {c fuel off j k : ℕ}

theorem maskCluster_of_lt (h : c < 2 ^ 28) : maskCluster c = c := by
  rw [maskCluster_eq, Nat.mod_eq_of_lt h]

/-- A cluster of the data region below `2^32` has a small number. -/
theorem Filesystem.cluster_small (hpos : 0 < fs.sectorsPerCluster)
    (hbelow : fs.clusterOffset c + 512 * fs.sectorsPerCluster ≤ 2 ^ 32) : c < 2 ^ 23 + 2 := by
  have hle : c - 2 ≤ fs.sectorsPerCluster * (c - 2) := Nat.le_mul_of_pos_left _ hpos
  rw [clusterOffset, Nat.mul_assoc] at hbelow
  omega

theorem Filesystem.startSector_mul (hpos : 0 < fs.sectorsPerCluster) (hdata : 2 ≤ c)
    (hbelow : fs.clusterOffset c + 512 * fs.sectorsPerCluster ≤ 2 ^ 32) :
    fs.startSector c * 512 = fs.clusterOffset c := by
  have hsmall := fs.cluster_small hpos hbelow
  have hsub : Word.sub 32 c 2 = c - 2 := Word.sub_of_le hdata (by omega)
  rw [clusterOffset, Nat.mul_assoc] at hbelow ⊢
  have hmul : Word.mul 32 (c - 2) fs.sectorsPerCluster = fs.sectorsPerCluster * (c - 2) := by
    rw [Nat.mul_comm, Word.mul_of_lt (by rw [Nat.mul_comm]; omega)]
  rw [startSector, hsub, hmul, Word.add_of_lt (by omega)]
  omega

theorem Filesystem.advanceCluster_fatEntry (hsmall : c < 2 ^ 28)
    (hfat : 512 * fs.fatOffsetLba + 4 * (c + 1) ≤ 2 ^ 32) : fs.advanceCluster dev c =
      if isLastClusterInFile (fs.fatEntry dev c) then none else some (fs.fatEntry dev c) := by
  have hpos : fs.fatEntryPosition c = 512 * fs.fatOffsetLba + 4 * c := by
    rw [fs.fatEntryPosition_eq, Nat.mod_eq_of_lt hsmall]
    omega
  rw [fs.advanceCluster_eq_entry, hpos, fatEntry, isLastClusterInFile_mask]

theorem Filesystem.advanceCluster_next (hsmall : c < 2 ^ 23 + 2)
    (hfat : 512 * fs.fatOffsetLba + 4 * (c + 1) ≤ 2 ^ 32) (hnext : fs.fatEntry dev c < 2 ^ 23 + 2) :
    fs.advanceCluster dev c = some (fs.fatEntry dev c) := by
  rw [fs.advanceCluster_fatEntry (by omega) hfat, if_neg]
  rw [isLastClusterInFile, maskCluster_of_lt (by omega), decide_eq_true_iff]
  omega

section Walk
variable (h : fs.Covers dev n) (hpos : 0 < fs.sectorsPerCluster)
include h hpos

theorem Filesystem.Covers.advance (hj : fs.clusterBytes * (j + 1) < n.size) :
    fs.advanceCluster dev (fs.chain dev n.startCluster j) = some (fs.chain dev n.startCluster (j + 1)) := by
  have hj' : fs.clusterBytes * j < n.size := (Nat.mul_le_mul_left _ (Nat.le_succ j)).trans_lt hj
  exact fs.advanceCluster_next (fs.cluster_small hpos (h.below j hj')) (h.fat j hj')
    (fs.cluster_small hpos (h.below (j + 1) hj))

/-- At the start of a cluster the loop follows a link for each cluster before it. -/
theorem Filesystem.Covers.walk (hfuel : k < fuel) (hk : fs.clusterBytes * (j + k) < n.size) :
    fs.walkClusters dev fuel (fs.clusterBytes * k) (fs.chain dev n.startCluster j) =
        some (fs.chain dev n.startCluster (j + k)) ∧
      fs.linksFollowed dev fuel (fs.clusterBytes * k) (fs.chain dev n.startCluster j) = k := by
  obtain ⟨fuel, rfl⟩ : ∃ f, fuel = f + 1 := ⟨fuel - 1, by omega⟩
  induction k generalizing j fuel with
  | zero => simp [Filesystem.walkClusters, Filesystem.linksFollowed]
  | succ k ih =>
    obtain ⟨fuel, rfl⟩ : ∃ f, fuel = f + 1 := ⟨fuel - 1, by omega⟩
    have hcb : 0 < fs.clusterBytes := Nat.mul_pos (by decide) hpos
    have hsize := h.size_lt
    have hj : fs.clusterBytes * (j + 1) < n.size :=
      (Nat.mul_le_mul_left _ (by omega)).trans_lt hk
    have hle : fs.clusterBytes * (k + 1) ≤ fs.clusterBytes * (j + (k + 1)) :=
      Nat.mul_le_mul_left _ (by omega)
    have hoff : fs.clusterBytes * (k + 1) > 0 := Nat.mul_pos hcb (Nat.succ_pos k)
    have hsub : Word.sub 64 (fs.clusterBytes * (k + 1)) (fs.sectorsPerCluster * 512) =
        fs.clusterBytes * k := by
      have hlt : fs.clusterBytes * (k + 1) < 2 ^ 64 := by omega
      rw [Nat.mul_comm fs.sectorsPerCluster, ← Filesystem.clusterBytes,
        Word.sub_of_le (Nat.le_mul_of_pos_right _ (Nat.succ_pos k)) hlt, Nat.mul_succ, Nat.add_sub_cancel]
    have hrest := @ih (j + 1) (by rwa [Nat.add_right_comm]) fuel (by omega)
    rw [Filesystem.walkClusters, Filesystem.linksFollowed, if_pos hoff, if_pos hoff,
      h.advance hpos hj, Option.bind_some, hsub, hrest.1, Nat.add_right_comm]
    exact ⟨rfl, congrArg (· + 1) hrest.2⟩

end Walk

/-- The offset of a page of the file is left to the loop. -/
theorem Filesystem.Covers.getDevOffset_eq_walk (h : fs.Covers dev n)
    (hpages : fs.sectorsPerCluster % 8 = 0) (haligned : off % pgSz = 0) (hoff : off < n.size) :
    n.getDevOffset fs dev off = (fs.walkClusters dev (2 ^ 64) off n.startCluster).map fun c =>
      Word.mul 32 (fs.startSector c) 512 := by
  have halign : pgAligned off = true := by rwa [pgAligned_iff, ← pgSz_eq]
  have hassert : pgAligned (fs.sectorsPerCluster * 512) = true := by
    rw [pgAligned_iff]
    omega
  rw [Inode.getDevOffset, if_neg (not_not.mpr halign), if_neg (not_not.mpr hassert), h.regular,
    if_neg Bool.false_ne_true, if_neg (not_le.mpr hoff)]
  rfl

/-- The loop ends at the cluster whose first page is asked for. -/
theorem Filesystem.Covers.getDevOffset_eq (h : fs.Covers dev n) (hpos : 0 < fs.sectorsPerCluster)
    (hpages : fs.sectorsPerCluster % 8 = 0) (hk : fs.clusterBytes * k < n.size) :
    n.getDevOffset fs dev (fs.clusterBytes * k) = some (fs.clusterOffset (fs.chain dev n.startCluster k)) ∧
      fs.linksFollowed dev (2 ^ 64) (fs.clusterBytes * k) n.startCluster = k := by
  have hsize := h.size_lt
  have hbelow := h.below k hk
  have hcb : 0 < fs.clusterBytes := Nat.mul_pos (by decide) hpos
  have hle : k ≤ fs.clusterBytes * k := Nat.le_mul_of_pos_left k hcb
  have haligned : fs.clusterBytes * k % pgSz = 0 := by
    obtain ⟨m, hm⟩ := Nat.dvd_of_mod_eq_zero hpages
    rw [clusterBytes, hm, ← Nat.mul_assoc, Nat.mul_assoc, pgSz_eq]
    exact Nat.mul_mod_right ..
  have hrun := @Filesystem.Covers.walk fs dev n (2 ^ 64) 0 k h hpos (by omega) (by rwa [Nat.zero_add])
  rw [Nat.zero_add, Filesystem.chain] at hrun
  have hstart := fs.startSector_mul hpos (h.data k hk) hbelow
  refine ⟨?_, hrun.2⟩
  rw [h.getDevOffset_eq_walk hpages haligned hk, hrun.1, Option.map_some,
    Word.mul_of_lt (by rw [hstart]; omega), hstart]

end HmmOS.Fs
