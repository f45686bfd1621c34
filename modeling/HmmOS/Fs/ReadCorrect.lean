import HmmOS.Fs.ClusterChain

/-! # Reading a file returns its bytes

On a volume whose clusters are pages, the contents of a file are the clusters of
its chain, one after the other. `read` copies exactly the requested part.
-/
namespace HmmOS.Fs
open Lib Nonstd Util.Algorithm
variable (fs : Filesystem) (dev : Bytes)

def Filesystem.clusterStart (cluster : ℕ) : ℕ := 512 * fs.dataRegionOffsetLba + pgSz * (cluster - 2)

/-- The concatenation of the clusters of a file. -/
def Inode.fileByte (n : Inode) (i : ℕ) : UInt8 :=
  dev (fs.clusterStart (fs.chain dev n.startCluster (i / pgSz)) + i % pgSz)

structure Volume (clusters : ℕ) : Prop where
  cluster_sz : fs.sectorsPerCluster = 8
  data_aligned : 512 * fs.dataRegionOffsetLba % pgSz = 0
  data_bound : 512 * fs.dataRegionOffsetLba + pgSz * clusters ≤ 2 ^ 32
  fat_bound : 512 * fs.fatOffsetLba + 4 * (clusters + 2) ≤ 2 ^ 32

structure RegularFile (clusters : ℕ) (n : Inode) : Prop where
  regular : n.isDirectory = false
  size_lt : n.size < 2 ^ 32
  chain : ∀ k, pgSz * k < n.size →
    2 ≤ fs.chain dev n.startCluster k ∧ fs.chain dev n.startCluster k < clusters + 2

section Chain
variable {fs dev} {clusters : ℕ} {n : Inode}

section
variable (hv : Volume fs clusters)
include hv

theorem Volume.clusterOffset_eq (c : ℕ) : fs.clusterOffset c = fs.clusterStart c := by
  rw [Filesystem.clusterOffset, hv.cluster_sz]
  rfl

theorem Volume.clusterBytes_eq : fs.clusterBytes = pgSz := by
  rw [Filesystem.clusterBytes, hv.cluster_sz]
  rfl

theorem Volume.covers (hf : RegularFile fs dev clusters n) : fs.Covers dev n := by
  have hdata := hv.data_bound
  have hfat := hv.fat_bound
  refine ⟨hf.regular, hf.size_lt, fun k hk => ?_, fun k hk => ?_, fun k hk => ?_⟩ <;>
    rw [hv.clusterBytes_eq] at hk
  · exact (hf.chain k hk).1
  · have hc := hf.chain k hk
    rw [hv.clusterOffset_eq, hv.clusterBytes_eq, Filesystem.clusterStart]
    rw [pgSz_eq] at hdata ⊢
    omega
  · have hc := hf.chain k hk
    omega

theorem getDevOffset_eq (hf : RegularFile fs dev clusters n) {k : ℕ} (hk : pgSz * k < n.size) :
    n.getDevOffset fs dev (pgSz * k) = some (fs.clusterStart (fs.chain dev n.startCluster k)) := by
  rw [← hv.clusterBytes_eq] at hk ⊢
  rw [← hv.clusterOffset_eq]
  exact ((hv.covers hf).getDevOffset_eq (by rw [hv.cluster_sz]; decide) (by rw [hv.cluster_sz]) hk).1

theorem getDevOffset_aligned (hf : RegularFile fs dev clusters n) {o off : ℕ}
    (h : n.getDevOffset fs dev o = some off) (ha : pgAligned off = true) :
    o < n.size ∧ off = fs.clusterStart (fs.chain dev n.startCluster (o / pgSz)) := by
  have hbad : n.getDevOffset fs dev o ≠ some badOffset := by
    intro hbad
    rw [hbad, Option.some.injEq] at h
    rw [← h] at ha
    revert ha
    decide
  have hspc : pgAligned (fs.sectorsPerCluster * 512) = true := by rw [hv.cluster_sz]; decide
  have haligned : pgAligned o = true := by
    by_contra hno
    exact hbad (by rw [Inode.getDevOffset, if_pos hno])
  have hlt : o < n.size := by
    by_contra hge
    apply hbad
    rw [Inode.getDevOffset, if_neg (not_not.mpr haligned), if_neg (not_not.mpr hspc), hf.regular,
      if_neg Bool.false_ne_true, if_pos (not_lt.mp hge)]
  have hmul : pgSz * (o / pgSz) = o := by
    have := pgAligned_iff.mp haligned
    rw [pgSz_eq]
    omega
  refine ⟨hlt, ?_⟩
  have heq := @getDevOffset_eq _ _ _ _ hv hf (o / pgSz) (hmul.symm ▸ hlt)
  rw [hmul, h] at heq
  exact Option.some.inj heq

theorem clusterStart_aligned (c : ℕ) : pgAligned (fs.clusterStart c) = true := by
  have := hv.data_aligned
  rw [Filesystem.clusterStart, pgAligned_iff]
  rw [pgSz_eq] at this ⊢
  omega

theorem lease_eq (hf : RegularFile fs dev clusters n) {k : ℕ} (hk : pgSz * k < n.size) :
    ∃ page, n.lease fs dev (pgSz * k) = some page ∧ ∀ i < pgSz, page i = n.fileByte fs dev (pgSz * k + i) := by
  refine ⟨_, by rw [Inode.lease, getDevOffset_eq hv hf hk, Option.bind_some, cachePage,
    if_pos (clusterStart_aligned hv _)], fun i hi => ?_⟩
  rw [pgSz_eq] at hi
  have hdiv : (pgSz * k + i) / pgSz = k := by rw [pgSz_eq]; omega
  have hmod : (pgSz * k + i) % pgSz = i := by rw [pgSz_eq]; omega
  rw [Inode.fileByte, hdiv, hmod]

end

/-- The devices agree on the file allocation table. -/
def SameFat (fs : Filesystem) (clusters : ℕ) (dev dev' : Bytes) : Prop :=
  ∀ x < 512 * fs.fatOffsetLba + 4 * (clusters + 2), 512 * fs.fatOffsetLba ≤ x → dev' x = dev x

theorem chain_congr {dev' : Bytes} (hsame : SameFat fs clusters dev dev')
    (hf : RegularFile fs dev clusters n) {k : ℕ} (hk : pgSz * k < n.size) :
    fs.chain dev' n.startCluster k = fs.chain dev n.startCluster k := by
  induction k with
  | zero => rfl
  | succ k ih =>
    have hk' : pgSz * k < n.size := (Nat.mul_le_mul_left _ (Nat.le_succ k)).trans_lt hk
    have hlt := (hf.chain k hk').2
    rw [Filesystem.chain, Filesystem.chain, ih hk', Filesystem.fatEntry, Filesystem.fatEntry, le32, le32]
    rw [hsame _ (by omega) (by omega), hsame _ (by omega) (by omega), hsame _ (by omega) (by omega),
      hsame _ (by omega) (by omega)]

/-- A file stays as it is under changes outside of the file allocation table, its bytes apart. -/
theorem RegularFile.congr {dev' : Bytes} (hf : RegularFile fs dev clusters n)
    (hsame : SameFat fs clusters dev dev') : RegularFile fs dev' clusters n where
  regular := hf.regular
  size_lt := hf.size_lt
  chain := by
    intro k hk
    rw [chain_congr hsame hf hk]
    exact hf.chain k hk

end Chain

section Read
variable {fs dev} {clusters : ℕ} {n : Inode}

section
variable (hv : Volume fs clusters) (hf : RegularFile fs dev clusters n)
include hv hf

theorem readPages_spec {count : ℕ} (buf : Bytes) {k rval : ℕ} (hend : count ≠ 0 → pgSz * k + count ≤ n.size) :
    ∃ buf', n.readPages fs dev buf (pgSz * k) rval count = some (buf', rval + count) ∧
      ∀ i, buf' i = if rval ≤ i ∧ i < rval + count then n.fileByte fs dev (pgSz * k + (i - rval))
        else buf i := by
  induction count using Nat.strong_induction_on generalizing buf k rval with
  | _ count ih =>
    rw [Inode.readPages]
    by_cases h0 : count = 0
    · rw [if_pos h0]
      refine ⟨buf, by rw [h0, Nat.add_zero], fun i => ?_⟩
      rw [if_neg (by omega)]
    · obtain ⟨page, hpage, hbytes⟩ := lease_eq hv hf (k := k) (by omega)
      rw [if_neg h0, hpage, Option.bind_some]
      have hpos : 0 < min pgSz count := lt_min (by decide) (Nat.pos_of_ne_zero h0)
      -- a full page, or the rest of the request
      have hcase : min pgSz count = pgSz ∨ min pgSz count = count := by omega
      have hm : min pgSz count ≤ count := min_le_right _ _
      have hle : min pgSz count ≤ pgSz := min_le_left _ _
      generalize min pgSz count = m at hm hpos hle hcase
      have hnext : pgSz * k + pgSz = pgSz * (k + 1) := rfl
      obtain ⟨buf', hbuf', hcontents⟩ := @ih (count - m) (by omega) (memcpy buf rval page m) (k + 1)
        (rval + m) (by rw [← hnext]; omega)
      rw [hnext]
      refine ⟨buf', by rw [hbuf', show rval + m + (count - m) = rval + count by omega], fun i => ?_⟩
      rw [hcontents i]
      by_cases hlater : rval + m ≤ i ∧ i < rval + m + (count - m)
      · rw [if_pos hlater, if_pos (by omega), ← hnext]
        rw [show pgSz * k + pgSz + (i - (rval + m)) = pgSz * k + (i - rval) by omega]
      · rw [if_neg hlater]
        by_cases hnow : rval ≤ i ∧ i < rval + m
        · rw [memcpy_of_mem hnow.1 hnow.2, if_pos (by omega), hbytes _ (by omega)]
        · rw [memcpy_of_not_mem hnow, if_neg (by omega)]

theorem read_contents (buf : Bytes) (offset count : ℕ) : ∃ buf', n.read fs dev buf offset count =
        some (buf', .ok (Int.bmod ((min count (n.size - offset) : ℕ) : ℤ) (2 ^ 32))) ∧
      ∀ i, buf' i = if i < min count (n.size - offset) then n.fileByte fs dev (offset + i) else buf i := by
  have hsize := hf.size_lt
  rw [Inode.read, hf.regular, if_neg Bool.false_ne_true]
  by_cases hempty : offset ≥ n.size ∨ count = 0
  · have hz : min count (n.size - offset) = 0 := by omega
    rw [if_pos hempty, hz]
    exact ⟨buf, rfl, fun i => by rw [if_neg (Nat.not_lt_zero i)]⟩
  · have hoffset : offset < 2 ^ 32 := by omega
    have hsub : Word.sub 32 n.size offset = n.size - offset := Word.sub_of_le (by omega) hsize
    have hfloor : floorPg offset = pgSz * (offset / pgSz) := by
      rw [floorPg_eq (hoffset.trans (by norm_num)), pgSz_eq, Nat.mul_comm]
    have hdiv : pgSz * (offset / pgSz) + offset % pgSz = offset := Nat.div_add_mod _ _
    have hmod : offset % pgSz < pgSz := Nat.mod_lt _ (by decide)
    rw [if_neg hempty, hsub]
    have hc : min count (n.size - offset) + offset ≤ n.size := by omega
    have hpos : 0 < min count (n.size - offset) := by omega
    generalize min count (n.size - offset) = c at hc hpos
    dsimp only
    rw [hfloor]
    by_cases hfirst : pgSz * (offset / pgSz) ≠ offset
    · -- the first page is not read from its start
      obtain ⟨page, hpage, hbytes⟩ := lease_eq hv hf (k := offset / pgSz) (by omega)
      rw [if_pos hfirst, hpage, Option.bind_some]
      have hm : min (pgSz - offset % pgSz) c ≤ c := min_le_right _ _
      have hle : min (pgSz - offset % pgSz) c ≤ pgSz - offset % pgSz := min_le_left _ _
      have hcase : min (pgSz - offset % pgSz) c = pgSz - offset % pgSz ∨
          min (pgSz - offset % pgSz) c = c := by omega
      generalize min (pgSz - offset % pgSz) c = m at hm hle hcase
      have hnext : pgSz * (offset / pgSz) + pgSz = pgSz * (offset / pgSz + 1) := rfl
      obtain ⟨buf', hbuf', hcontents⟩ := @readPages_spec _ _ _ _ hv hf (c - m)
        (memcpy buf 0 (fun i => page (offset % pgSz + i)) m) (offset / pgSz + 1) m
        (by rw [← hnext]; omega)
      rw [hnext, hbuf', Option.map_some]
      refine ⟨buf', by rw [show m + (c - m) = c by omega], fun i => ?_⟩
      rw [hcontents i]
      by_cases hlater : m ≤ i ∧ i < m + (c - m)
      · rw [if_pos hlater, if_pos (by omega), ← hnext]
        rw [show pgSz * (offset / pgSz) + pgSz + (i - m) = offset + i by omega]
      · rw [if_neg hlater]
        by_cases hnow : i < m
        · rw [memcpy_of_mem (Nat.zero_le i) (by omega), if_pos (by omega), hbytes _ (by omega)]
          rw [show pgSz * (offset / pgSz) + (offset % pgSz + (i - 0)) = offset + i by omega]
        · rw [memcpy_of_not_mem (by omega), if_neg (by omega)]
    · rw [not_not] at hfirst
      obtain ⟨buf', hbuf', hcontents⟩ := @readPages_spec _ _ _ _ hv hf c buf (offset / pgSz) 0
        (by omega)
      rw [if_neg (not_not.mpr hfirst), hbuf', Option.map_some]
      refine ⟨buf', by rw [Nat.zero_add], fun i => ?_⟩
      rw [hcontents i, hfirst, Nat.zero_add, Nat.sub_zero]
      simp only [Nat.zero_le, true_and]

end

/-- Two devices with the same bytes in a file cannot be told apart by reading the file, and only those. -/
theorem read_eq_iff {dev' : Bytes} (hv : Volume fs clusters) (hf : RegularFile fs dev clusters n)
    (hf' : RegularFile fs dev' clusters n) :
    (∀ buf offset count, n.read fs dev' buf offset count = n.read fs dev buf offset count) ↔
      ∀ p < n.size, n.fileByte fs dev' p = n.fileByte fs dev p := by
  constructor
  · intro hread p hp
    obtain ⟨buf, hbuf, hbyte⟩ := read_contents hv hf (fun _ => 0) p 1
    obtain ⟨buf', hbuf', hbyte'⟩ := read_contents hv hf' (fun _ => 0) p 1
    rw [hread, hbuf] at hbuf'
    obtain ⟨rfl, -⟩ := Prod.mk.inj (Option.some.inj hbuf')
    have hone : 0 < min 1 (n.size - p) := by omega
    have := (hbyte' 0).symm.trans (hbyte 0)
    rwa [if_pos hone, if_pos hone] at this
  · intro hbytes buf offset count
    obtain ⟨buf1, hbuf1, hbyte1⟩ := read_contents hv hf buf offset count
    obtain ⟨buf2, hbuf2, hbyte2⟩ := read_contents hv hf' buf offset count
    have heq : buf2 = buf1 := by
      funext i
      rw [hbyte1 i, hbyte2 i]
      split_ifs with hi
      · exact hbytes _ (by omega)
      · rfl
    rw [hbuf1, hbuf2, heq]

/-- `read` fills the buffer with the bytes that were asked for and that the file has. It returns only
because `get_dev_offset` accepts every page. -/
theorem read_returns_file (hv : Volume fs clusters) (hf : RegularFile fs dev clusters n)
    (buf : Bytes) (offset : ℕ) {count : ℕ} (hcount : count < 2 ^ 31) :
    ∃ buf', n.read fs dev buf offset count =
        some (buf', .ok ((min count (n.size - offset) : ℕ) : ℤ)) ∧
      ∀ i, buf' i = if i < min count (n.size - offset) then n.fileByte fs dev (offset + i)
        else buf i := by
  obtain ⟨buf', hread, hbytes⟩ := read_contents hv hf buf offset count
  rw [Word.bmod_natCast ((min_le_left _ _).trans_lt hcount)] at hread
  exact ⟨buf', hread, hbytes⟩

end Read

def twoClusters : Filesystem := { sectorsPerCluster := 8, fatOffsetLba := 1, dataRegionOffsetLba := 8 }

def twoClustersDev : Bytes := fun i => if i = 520 then 3 else if i < 4096 then 0 else UInt8.ofNat i

def twoClustersFile : Inode := { id := 1, startCluster := 2, size := 5000, isDirectory := false }

theorem twoClusters_volume : Volume twoClusters 2 :=
  ⟨rfl, by decide, by decide, by decide⟩

theorem twoClustersFile_regular : RegularFile twoClusters twoClustersDev 2 twoClustersFile where
  regular := rfl
  size_lt := by decide
  chain := by
    intro k hk
    have hk' : k < 2 := by
      change 4096 * k < 5000 at hk
      omega
    rcases Nat.le_one_iff_eq_zero_or_eq_one.mp (Nat.le_of_lt_succ hk') with rfl | rfl
    · decide +kernel
    · decide +kernel

/-- Twenty bytes across the boundary of the clusters. -/
theorem read_returns_twoClustersFile :
    ∃ buf', twoClustersFile.read twoClusters twoClustersDev (fun _ => 0) 4090 20 =
        some (buf', .ok 20) ∧ buf' 19 = UInt8.ofNat (4096 + 4090 + 19) := by
  obtain ⟨buf', hread, hbytes⟩ := read_returns_file twoClusters_volume
    twoClustersFile_regular (fun _ => 0) 4090 (show 20 < 2 ^ 31 by decide)
  have hn : min 20 (twoClustersFile.size - 4090) = 20 := by decide +kernel
  rw [hn] at hread
  exact ⟨buf', hread, by rw [hbytes 19]; decide +kernel⟩

end HmmOS.Fs
