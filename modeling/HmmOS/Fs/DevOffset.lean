import HmmOS.Fs.DirectoryListing

/-! # Offsets inside of clusters

`get_dev_offset` subtracts whole clusters from a 64-bit offset until nothing is left.
For a page inside of a cluster the subtraction wraps, and the loop goes on.
-/
namespace HmmOS.Fs
open Lib Nonstd Util.Algorithm

section Walk
variable {fs : Filesystem} {dev : Bytes} {n : Inode} {fuel off c c' j k : ℕ}

/-- The loop ends when it has subtracted the offset, up to a multiple of `2^64`. -/
theorem Filesystem.linksFollowed_mod (hoff : off < 2 ^ 64) (hwalk : fs.walkClusters dev fuel off c = some c') :
    fs.linksFollowed dev fuel off c * fs.clusterBytes % 2 ^ 64 = off := by
  induction fuel generalizing off c with
  | zero => cases hwalk
  | succ fuel ih =>
    rw [Filesystem.walkClusters] at hwalk
    rw [Filesystem.linksFollowed]
    split_ifs at hwalk ⊢ with hpos
    · obtain ⟨next, hnext, hrest⟩ := Option.bind_eq_some_iff.mp hwalk
      have hsub : Word.sub 64 off (fs.sectorsPerCluster * 512) < 2 ^ 64 :=
        Nat.mod_lt _ (Nat.two_pow_pos 64)
      have hmod := ih hsub hrest
      rw [Word.sub, Nat.mul_comm fs.sectorsPerCluster, ← Filesystem.clusterBytes] at hmod
      rw [hnext]
      rw [Word.sub, Nat.mul_comm fs.sectorsPerCluster, ← Filesystem.clusterBytes, Nat.succ_mul,
        Nat.add_mod, hmod]
      omega
    · omega

/-- The page in its cluster is found by following a link for each cluster before it, exactly if it is the
first one of its cluster. -/
theorem getDevOffset_links_iff (h : fs.Covers dev n) (hpos : 0 < fs.sectorsPerCluster)
    (hpages : fs.sectorsPerCluster % 8 = 0) (haligned : off % pgSz = 0) (hoff : off < n.size) :
    (n.getDevOffset fs dev off =
          some (fs.clusterOffset (fs.chain dev n.startCluster (off / fs.clusterBytes)) +
            off % fs.clusterBytes) ∧
        fs.linksFollowed dev (2 ^ 64) off n.startCluster = off / fs.clusterBytes) ↔
      off % fs.clusterBytes = 0 := by
  have hsize := h.size_lt
  have hdiv := Nat.div_add_mod off fs.clusterBytes
  have hget := h.getDevOffset_eq_walk hpages haligned hoff
  rw [hget]
  constructor
  · rintro ⟨hres, hlinks⟩
    obtain ⟨c, hwalk, -⟩ := Option.map_eq_some_iff.mp hres
    have hmod := fs.linksFollowed_mod (by omega) hwalk
    rw [hlinks, Nat.mul_comm, Nat.mod_eq_of_lt (by omega)] at hmod
    omega
  · intro hzero
    have hk : fs.clusterBytes * (off / fs.clusterBytes) = off := by omega
    have hrun := h.getDevOffset_eq hpos hpages (hk.trans_lt hoff)
    rwa [hk, hget, ← Nat.add_zero (fs.clusterOffset _), ← hzero] at hrun

theorem Filesystem.walkClusters_last (hoff : 0 < off) (hlast : fs.advanceCluster dev c = none) :
    fs.walkClusters dev fuel off c = none := by
  cases fuel with
  | zero => rfl
  | succ fuel => rw [Filesystem.walkClusters, if_pos hoff, hlast, Option.bind_none]

end Walk

def fileOfSize (size : ℕ) : Inode :=
  { id := 1, startCluster := 2, size := size, isDirectory := false }

theorem fileOfSize_covers : bigClusters.Covers directoryDev (fileOfSize 12288) := by
  have hsmall : ∀ k, bigClusters.clusterBytes * k < (fileOfSize 12288).size → k < 2 := by
    intro k hk
    change 8192 * k < 12288 at hk
    omega
  have hchain : ∀ k < 2, 2 ≤ bigClusters.chain directoryDev 2 k ∧
      bigClusters.clusterOffset (bigClusters.chain directoryDev 2 k) + bigClusters.clusterBytes ≤
        2 ^ 32 ∧
      512 * bigClusters.fatOffsetLba + 4 * (bigClusters.chain directoryDev 2 k + 1) ≤ 2 ^ 32 := by
    decide +kernel
  exact ⟨rfl, by decide, fun k hk => (hchain k (hsmall k hk)).1,
    fun k hk => (hchain k (hsmall k hk)).2.1, fun k hk => (hchain k (hsmall k hk)).2.2⟩

theorem getDevOffset_links_secondCluster :
    (fileOfSize 12288).getDevOffset bigClusters directoryDev 8192 = some 12288 ∧
      bigClusters.linksFollowed directoryDev (2 ^ 64) 8192 2 = 1 := by
  have hrun := (getDevOffset_links_iff fileOfSize_covers (by decide) (by decide)
    (by decide : 8192 % pgSz = 0) (by decide)).mpr (by decide)
  have hplace : bigClusters.clusterOffset (bigClusters.chain directoryDev (fileOfSize 12288).startCluster
      (8192 / bigClusters.clusterBytes)) + 8192 % bigClusters.clusterBytes = 12288 := by
    decide +kernel
  rwa [hplace] at hrun

theorem fileOfSize_covers_singleCluster : bigClusters.Covers (singleCluster 0) (fileOfSize 8192) := by
  have hfirst : ∀ k, bigClusters.clusterBytes * k < (fileOfSize 8192).size → k = 0 := by
    intro k hk
    change 8192 * k < 8192 at hk
    omega
  refine ⟨rfl, by decide, ?_, ?_, ?_⟩
  · intro k hk
    rw [hfirst k hk]
    decide
  · intro k hk
    rw [hfirst k hk]
    decide
  · intro k hk
    rw [hfirst k hk]
    decide

/-- The second page of a file of two pages, in one cluster. -/
theorem getDevOffset_secondPage : bigClusters.Covers (singleCluster 0) (fileOfSize 8192) ∧
    (fileOfSize 8192).getDevOffset bigClusters (singleCluster 0) 4096 = none := by
  have hlast : bigClusters.advanceCluster (singleCluster 0) (fileOfSize 8192).startCluster = none := by
    decide +kernel
  refine ⟨fileOfSize_covers_singleCluster, ?_⟩
  rw [fileOfSize_covers_singleCluster.getDevOffset_eq_walk (by decide) (by decide) (by decide),
    bigClusters.walkClusters_last (by decide) hlast, Option.map_none]

end HmmOS.Fs
