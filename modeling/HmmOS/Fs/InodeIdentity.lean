import HmmOS.Fs.PathResolution

/-! # Which inode a name resolves to

`lookup` finds inodes by the number `cluster_hi << 2 | cluster_lo` of a directory
entry. Empty files share the number zero, and the shift should be by sixteen.
-/
namespace HmmOS.Fs
open Lib

/-- The inode `j` has the size and the directory flag of an entry. -/
def Vfs.Describes (s : Vfs) (j : ℕ) (e : DirectoryEntry) : Prop :=
  ∃ n, s.inodes j = some n ∧ n.size = e.fileSzBytes ∧ n.isDirectory = e.subdir

/-- An inode that is live under the number of an entry describes the entry. -/
def Vfs.Agrees (s : Vfs) (e : DirectoryEntry) : Prop :=
  ∀ j, s.startClusterToInode ((e.clusterHi <<< 2) ||| e.clusterLo) = some j → s.Describes j e

def lookupTwo (disk : Disk) (s : Vfs) (i : ℕ) (name1 name2 : Name) (addrs : ℕ × ℕ) :
    Except Stop (Vfs × Option ℕ × Option ℕ) := do
  let (s, j1) ← Inode.lookup disk s i addrs.1 name1
  let (s, j2) ← Inode.lookup disk s i addrs.2 name2
  return (s, j1, j2)

section Identity
variable {disk : Disk} {s s' : Vfs} {ext : ℕ → ℕ} {i j addr : ℕ} {n : Inode} {name : Name}
  {e : DirectoryEntry}

theorem Vfs.Describes.iff_of_extends (hx : Extends s s') (hj : s.inodes j = some n) :
    s'.Describes j e ↔ s.Describes j e := by
  obtain ⟨n', hj', -, hdir, hsize⟩ := hx.inodes j n hj
  constructor
  · rintro ⟨m, hm, hms, hmd⟩
    rw [hj', Option.some.injEq] at hm
    exact ⟨n, hj, by rw [← hsize, hm, hms], by rw [← hdir, hm, hmd]⟩
  · rintro ⟨m, hm, hms, hmd⟩
    rw [hj, Option.some.injEq] at hm
    exact ⟨n', hj', by rw [hsize, hm, hms], by rw [hdir, hm, hmd]⟩

/-- One lookup: the name gets an inode with the data of its entry exactly if no other inode uses
its number. -/
theorem Inode.lookup_describes (hok : VfsOk s ext ∅) (hn : s.inodes i = some n) (hdir : n.isDirectory = true)
    (hdisk : disk n.startCluster (convertNormalTo83Filename name) = some (some e))
    (haddr : s.inodes addr = none) :
    ∃ s' j, Inode.lookup disk s i addr name = .ok (s', some j) ∧ VfsOk s' ext ∅ ∧ Extends s s' ∧
      s'.startClusterToInode e.startCluster = some j ∧
      (∀ c, c ≠ e.startCluster → s'.startClusterToInode c = s.startClusterToInode c) ∧
      (∀ a, a ≠ addr → s.inodes a = none → s'.inodes a = none) ∧ (s'.Describes j e ↔ s.Agrees e) := by
  obtain ⟨s', j, hlook, hok', hx, hj, -, hfree, rfl | ⟨hnone, rfl, rfl⟩⟩ := Inode.lookup_found hok hn hdir hdisk haddr
  · refine ⟨s', j, hlook, hok', hx, hj, fun _ _ => rfl, hfree, ?_, fun hagree => hagree j hj⟩
    intro hd k hk
    rw [Option.some.inj (hk.symm.trans hj)]
    exact hd
  · refine ⟨_, j, hlook, hok', hx, hj, fun c hc => Function.update_of_ne hc _ _, hfree, ?_, ?_⟩
    · intro _ k hk
      exact nomatch hnone.symm.trans hk
    · intro _
      exact ⟨_, Function.update_self _ _ _, rfl, rfl⟩

/-- Looking up another number leaves alone who uses this one. -/
theorem Vfs.agrees_iff (hok : VfsOk s ext ∅) (hx : Extends s s')
    (hsame : s'.startClusterToInode e.startCluster = s.startClusterToInode e.startCluster) :
    s'.Agrees e ↔ s.Agrees e := by
  apply forall_congr'
  intro j
  change s'.startClusterToInode e.startCluster = some j → s'.Describes j e ↔
    (s.startClusterToInode e.startCluster = some j → s.Describes j e)
  rw [hsame]
  apply imp_congr_right
  intro hj
  obtain ⟨n, hn, -⟩ := hok.inodes.clusters.find.mp hj
  exact Vfs.Describes.iff_of_extends hx hn

/-- Two names get inodes of their own exactly if the numbers of the entries differ and no other inode
uses them. -/
theorem lookupTwo_distinct_iff (hok : VfsOk s ext ∅) (hn : s.inodes i = some n)
    (hdir : n.isDirectory = true) {name1 name2 : Name} {e1 e2 : DirectoryEntry} {addrs : ℕ × ℕ}
    (hdisk1 : disk n.startCluster (convertNormalTo83Filename name1) = some (some e1))
    (hdisk2 : disk n.startCluster (convertNormalTo83Filename name2) = some (some e2))
    (haddr1 : s.inodes addrs.1 = none) (haddr2 : s.inodes addrs.2 = none)
    (hne : addrs.2 ≠ addrs.1) :
    (∃ s' j1 j2, lookupTwo disk s i name1 name2 addrs = .ok (s', some j1, some j2) ∧ j1 ≠ j2 ∧
        s'.Describes j1 e1 ∧ s'.Describes j2 e2) ↔
      (e1.clusterHi <<< 2) ||| e1.clusterLo ≠ (e2.clusterHi <<< 2) ||| e2.clusterLo ∧
        s.Agrees e1 ∧ s.Agrees e2 := by
  obtain ⟨s1, j1, hlook1, hok1, hx1, hj1, hother, hfree, hd1⟩ :=
    Inode.lookup_describes hok hn hdir hdisk1 haddr1
  obtain ⟨n', hn', hc, hdir', -⟩ := hx1.inodes i n hn
  obtain ⟨s2, j2, hlook2, hok2, hx2, hj2, -, -, hd2⟩ := Inode.lookup_describes hok1 hn'
    (hdir'.trans hdir) (hc ▸ hdisk2) (hfree _ hne haddr2)
  have hrun : lookupTwo disk s i name1 name2 addrs = .ok (s2, some j1, some j2) := by
    rw [lookupTwo, hlook1, ok_bind]
    dsimp only
    rw [hlook2]
    rfl
  obtain ⟨m1, hm1, -⟩ := hok1.inodes.clusters.find.mp hj1
  have hj1' : s2.startClusterToInode e1.startCluster = some j1 := hx2.clusters _ _ hj1
  have hd1' : s2.Describes j1 e1 ↔ s.Agrees e1 := (Vfs.Describes.iff_of_extends hx2 hm1).trans hd1
  change _ ↔ e1.startCluster ≠ e2.startCluster ∧ _
  constructor
  · rintro ⟨s', k1, k2, hs', hk, hk1, hk2⟩
    rw [hrun] at hs'
    cases hs'
    have hnum : e1.startCluster ≠ e2.startCluster := fun hsame =>
      hk (Option.some.inj (hj1'.symm.trans (hsame ▸ hj2)))
    have hagree := Vfs.agrees_iff hok hx1 (hother e2.startCluster hnum.symm)
    exact ⟨hnum, hd1'.mp hk1, hagree.mp (hd2.mp hk2)⟩
  · rintro ⟨hnum, hagree1, hagree2⟩
    have hagree := Vfs.agrees_iff hok hx1 (hother e2.startCluster hnum.symm)
    refine ⟨s2, j1, j2, hrun, ?_, hd1'.mpr hagree1, hd2.mpr (hagree.mpr hagree2)⟩
    -- an inode has one number
    rintro rfl
    obtain ⟨m, hm, hmc⟩ := hok2.inodes.clusters.find.mp hj1'
    obtain ⟨m', hm', hmc'⟩ := hok2.inodes.clusters.find.mp hj2
    rw [hm, Option.some.injEq] at hm'
    exact hnum (by rw [← hmc, ← hmc', hm'])

end Identity

def twoFiles (a b : DirectoryEntry) : Disk := fun cluster name =>
  if cluster = 2 ∧ name = "A          ".toList then some (some a)
  else if cluster = 2 ∧ name = "B          ".toList then some (some b)
  else some none

/-- On a fresh volume, a file of ten bytes and an empty one. -/
theorem lookupTwo_distinct_fileAndEmpty :
    ∃ s' j1 j2, lookupTwo (twoFiles ⟨0, 3, 10, false⟩ ⟨0, 0, 0, false⟩) (Vfs.init 2) 0
        "A".toList "B".toList (5, 6) = .ok (s', some j1, some j2) ∧ j1 ≠ j2 ∧
      s'.Describes j1 ⟨0, 3, 10, false⟩ ∧ s'.Describes j2 ⟨0, 0, 0, false⟩ := by
  have hn : (Vfs.init 2).inodes 0 =
    some { id := 0, startCluster := 2, size := 0, isDirectory := true, rc := 1 } := rfl
  apply (lookupTwo_distinct_iff (vfsInit_ok 2) hn rfl (by decide) (by decide) rfl rfl
    (by decide)).mpr
  refine ⟨by decide, ?_, ?_⟩
  · intro j hj
    cases hj
  · intro j hj
    cases hj

/-- Two empty files share one inode. Of two files at the clusters `65536` and `4`, the second one gets
the inode of the first. -/
theorem lookupTwo_shared :
    ((lookupTwo (twoFiles ⟨0, 0, 0, false⟩ ⟨0, 0, 0, false⟩) (Vfs.init 2) 0
        "A".toList "B".toList (5, 6)).toOption.map Prod.snd = some (some 5, some 5)) ∧
      ((lookupTwo (twoFiles ⟨1, 0, 10, false⟩ ⟨0, 4, 20, false⟩) (Vfs.init 2) 0
        "A".toList "B".toList (5, 6)).toOption.bind fun r =>
          r.2.2.bind fun j => (r.1.inodes j).map Inode.size) = some 10 := by
  decide +kernel

end HmmOS.Fs
