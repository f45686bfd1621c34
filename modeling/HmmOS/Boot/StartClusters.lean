import HmmOS.Boot.FatChain
import HmmOS.Boot.RootDirectory
import HmmOS.Fs.InodeIdentity
import HmmOS.Fs.MissingNames

/-! # The first cluster of a file

A directory entry stores the upper and the lower half of a cluster number. Both
drivers shift the upper half by two bits instead of sixteen.
-/
namespace HmmOS.Boot
open Lib Nonstd Fs

/-- An entry stores a cluster number in two halves. -/
def Stores (d : Dirent) (c : ℕ) : Prop := d.clusterHi = c >>> 16 ∧ d.clusterLo = c % 2 ^ 16

instance (d : Dirent) (c : ℕ) : Decidable (Stores d c) := inferInstanceAs (Decidable (_ ∧ _))

/-- The number that the drivers make of the halves is the stored one only if the upper half is zero. -/
theorem Stores.decode_iff {d : Dirent} {c : ℕ} (h : Stores d c) (hc : c < 2 ^ 28) :
    (d.clusterHi <<< 2) ||| d.clusterLo = c ↔ c < 2 ^ 16 := by
  rw [h.1, h.2, Nat.shiftRight_eq_div_pow, Nat.shiftLeft_eq]
  constructor
  · intro hdecoded
    rw [← hdecoded]
    exact Nat.or_lt_two_pow (by omega) (by omega)
  · intro hlow
    rw [Nat.div_eq_of_lt hlow, Nat.mod_eq_of_lt hlow, Nat.zero_mul, Nat.zero_or]

/-- The inode that `lookup` returns has the decoded number, whether it is new or not. -/
theorem lookup_startCluster {fs : Filesystem} {dev : Bytes} {s : Vfs} {ext : ℕ → ℕ} {i addr : ℕ}
    {n : Inode} {name : Name} {d : Dirent} (hok : VfsOk s ext ∅) (hn : s.inodes i = some n)
    (hdir : n.isDirectory = true) (haddr : s.inodes addr = none)
    (hfind : fs.findDirent dev n.startCluster (convertNormalTo83Filename name) = .ok (some d)) :
    ∃ s' j n', Inode.lookup (fs.disk dev) s i addr name = .ok (s', some j) ∧ s'.inodes j = some n' ∧
      n'.startCluster = (d.clusterHi <<< 2) ||| d.clusterLo := by
  have hdisk : fs.disk dev n.startCluster (convertNormalTo83Filename name) = some (some d.toEntry) :=
    fs.disk_ok hfind
  obtain ⟨s', j, hlook, hok', -, hj, -⟩ := Inode.lookup_describes hok hn hdir hdisk haddr
  obtain ⟨n', hn', hstart⟩ := hok'.inodes.clusters.find.mp hj
  exact ⟨s', j, n', hlook, hn', hstart⟩

/-- Each driver decodes the number of a cluster from the entry that it finds exactly if the upper half
is zero. -/
theorem startCluster_decoded_iff {c : ℕ} (hc : c < 2 ^ 28) :
    (∀ (fs : Filesystem) (dev : Bytes) (s : Vfs) (ext : ℕ → ℕ) (i addr : ℕ) (n : Inode) (name : Name)
        (d : Dirent), VfsOk s ext ∅ → s.inodes i = some n → n.isDirectory = true →
      s.inodes addr = none →
      fs.findDirent dev n.startCluster (convertNormalTo83Filename name) = .ok (some d) → Stores d c →
        ∃ s' j n', Inode.lookup (fs.disk dev) s i addr name = .ok (s', some j) ∧
          s'.inodes j = some n' ∧ (n'.startCluster = c ↔ c < 2 ^ 16)) ∧
    ∀ (fs : Fat32Desc) (dev : Bytes) (buf : ℕ) (filename : Bytes) (fuel : ℕ) (mem mem' : Bytes)
        (fd : Fat32FileDesc), fat32FindFile fs dev buf filename fuel mem = some (mem', some fd) →
      ∃ k, FoundAt buf filename mem' k ∧
        fd.fileSzBytes = (Dirent.read mem' (buf + direntSz * k)).fileSzBytes ∧
        (Stores (Dirent.read mem' (buf + direntSz * k)) c → (fd.startCluster = c ↔ c < 2 ^ 16)) := by
  constructor
  · intro fs dev s ext i addr n name d hok hn hdir haddr hfind hstores
    obtain ⟨s', j, n', hlook, hn', hstart⟩ := lookup_startCluster hok hn hdir haddr hfind
    refine ⟨s', j, n', hlook, hn', ?_⟩
    rw [hstart]
    exact hstores.decode_iff hc
  · intro fs dev buf filename fuel mem mem' fd hrun
    rw [fat32FindFile] at hrun
    split_ifs at hrun
    obtain ⟨k, hfound, rfl⟩ := fat32FindFileFrom_found hrun
    exact ⟨k, hfound, rfl, fun hstores => hstores.decode_iff hc⟩

def kernelPath : Name := ['K', 'E', 'R', 'N', 'E', 'L', '.', 'B', 'I', 'N']

def kernelDirent (c : ℕ) : Dirent :=
  Dirent.read (fun i => kernelDisk 0 c (kernelOf512.clusterOffset 2 + i)) 0

theorem findDirent_kernelDisk (c : ℕ) :
    kernelOf512.findDirent (kernelDisk 0 c) 2 (convertNormalTo83Filename kernelPath) =
      .ok (some (kernelDirent c)) := by
  have hscan : scanEntries (matchName (convertNormalTo83Filename kernelPath))
      (fun i => kernelDisk 0 c (kernelOf512.clusterOffset 2 + i)) kernelOf512.dirEntriesPerCluster 0
      none = .ok (some (kernelDirent c), true) := rfl
  exact kernelOf512.iterateDir_stop (by decide) (by decide) (by decide) (by decide) (by decide) hscan

def kernelFound (c : ℕ) : Bytes := bootVolume.firstSector (kernelDisk 0 c) (fun _ => 0) 0x8000

theorem fat32FindFile_kernelDisk (c : ℕ) :
    fat32FindFile bootVolume (kernelDisk 0 c) 0x8000 kernelName 1 (fun _ => 0) =
      some (kernelFound c, some (fileDescOf (Dirent.read (kernelFound c) 0x8000))) := by
  have hw : bootVolume.WholeSectors := ⟨by decide, by decide, by decide, by decide, by decide⟩
  have hroot := @kernelDisk_rootDirectory 0 c (by omega)
  exact @RootDirectory.stopped _ _ kernelName (fun _ => 0) 0x8000 1 0 0 hroot hw (by decide) rfl
    (by omega)

/-- Both drivers decode cluster 3. -/
theorem startCluster_decoded_three :
    (∃ s' j n', Inode.lookup (kernelOf512.disk (kernelDisk 0 3)) (Vfs.init 2) 0 1 kernelPath =
        .ok (s', some j) ∧ s'.inodes j = some n' ∧ n'.startCluster = 3) ∧
      ∃ mem' fd, fat32FindFile bootVolume (kernelDisk 0 3) 0x8000 kernelName 1 (fun _ => 0) =
        some (mem', some fd) ∧ fd.startCluster = 3 := by
  obtain ⟨hkernel, hboot⟩ := @startCluster_decoded_iff 3 (by norm_num)
  constructor
  · obtain ⟨s', j, n', hlook, hn', hiff⟩ := hkernel kernelOf512 (kernelDisk 0 3) (Vfs.init 2) _ 0 1 _
      kernelPath _ (vfsInit_ok 2) rfl rfl rfl (findDirent_kernelDisk 3) (by decide +kernel)
    exact ⟨s', j, n', hlook, hn', hiff.mpr (by norm_num)⟩
  · obtain ⟨k, hfound, -, hiff⟩ := hboot _ _ _ _ _ _ _ _ (fat32FindFile_kernelDisk 3)
    obtain rfl : k = 0 := by
      by_contra hk
      have hfirst := hfound.first 0 (Nat.pos_of_ne_zero hk)
      have hstop : stopsAt kernelName (kernelFound 3) (0x8000 + direntSz * 0) = true := by decide +kernel
      exact Bool.false_ne_true (hfirst.symm.trans hstop)
    exact ⟨_, _, fat32FindFile_kernelDisk 3, (hiff (by decide +kernel)).mpr (by norm_num)⟩

/-- Cluster 65536 becomes cluster 4. -/
theorem startCluster_upperHalf :
    Stores (kernelDirent (2 ^ 16)) (2 ^ 16) ∧
    (∃ s' j n', Inode.lookup (kernelOf512.disk (kernelDisk 0 (2 ^ 16))) (Vfs.init 2) 0 1 kernelPath =
        .ok (s', some j) ∧ s'.inodes j = some n' ∧ n'.startCluster = 4) ∧
      ∃ mem' fd, fat32FindFile bootVolume (kernelDisk 0 (2 ^ 16)) 0x8000 kernelName 1 (fun _ => 0) =
        some (mem', some fd) ∧ fd.startCluster = 4 := by
  refine ⟨by decide +kernel, ?_, _, _, fat32FindFile_kernelDisk _, by decide +kernel⟩
  have hdecoded : ((kernelDirent (2 ^ 16)).clusterHi <<< 2) ||| (kernelDirent (2 ^ 16)).clusterLo = 4 := by
    decide +kernel
  obtain ⟨s', j, n', hlook, hn', hstart⟩ := @lookup_startCluster kernelOf512 (kernelDisk 0 (2 ^ 16))
    (Vfs.init 2) _ 0 1 _ kernelPath _ (vfsInit_ok 2) rfl rfl rfl (findDirent_kernelDisk (2 ^ 16))
  exact ⟨s', j, n', hlook, hn', hstart.trans hdecoded⟩

end HmmOS.Boot
