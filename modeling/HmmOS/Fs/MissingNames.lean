import HmmOS.Fs.DirectoryListing
import HmmOS.Fs.LookupReturns
import Mathlib.Data.Finset.Card

/-! # Looking for a name that is not there

`lookup` stops at the end marker of the directory. The end of the cluster chain is not
enough: `advance_cluster` asserts that there is another cluster.
-/
namespace HmmOS.Fs
open Lib Nonstd Util.Algorithm

section Spec
variable (fs : Filesystem) (dev : Bytes) (start : ℕ)

structure Filesystem.WholeChain (len : ℕ) : Prop where
  pos : 0 < len
  chained : fs.Chained dev start len
  passable : fs.clusterOffset (fs.chain dev start (len - 1)) + 512 * fs.sectorsPerCluster < 2 ^ 32
  last : isLastClusterInFile (fs.fatEntry dev (fs.chain dev start (len - 1))) = true

/-- No entry of the directory has the 8.3 name. -/
def Filesystem.Missing (len : ℕ) (name : Name) : Prop :=
  ∀ k < len * fs.dirEntriesPerCluster, (∀ i ≤ k, dev (fs.entryOffset dev start i) ≠ 0) →
    Live dev (fs.entryOffset dev start k) →
      (Dirent.read dev (fs.entryOffset dev start k)).chars ≠ name

/-- An end marker that the search gets to: clusters are whole pages, and either a cluster is one page
or the marker is in the first page. -/
structure Filesystem.MarkerSeen (len : ℕ) : Prop where
  pages : fs.sectorsPerCluster % 8 = 0
  aligned : 512 * fs.dataRegionOffsetLba % pgSz = 0
  marker : ∃ m < len * fs.dirEntriesPerCluster,
    fs.EndsAt dev start m ∧ (fs.sectorsPerCluster = 8 ∨ m < 128)

end Spec

variable {fs : Filesystem} {dev : Bytes} {start len n m i j pages fuel : ℕ} {name : Name}

theorem Filesystem.Chained.mono (h : fs.Chained dev start n) (hm : m ≤ n) : fs.Chained dev start m where
  data := fun j hj => h.data j (by omega)
  below := fun j hj => h.below j (by omega)
  passable := fun j hj => h.passable j (by omega)
  fat := fun j hj => h.fat j (by omega)

theorem Filesystem.chain_add (fs : Filesystem) (dev : Bytes) (start i j : ℕ) :
    fs.chain dev start (i + j) = fs.chain dev (fs.chain dev start i) j := by
  induction j with
  | zero => rfl
  | succ j ih => rw [← Nat.add_assoc, Filesystem.chain, Filesystem.chain, ih]

theorem Filesystem.WholeChain.injOn (h : fs.WholeChain dev start len)
    (hpos : 0 < fs.sectorsPerCluster) (hi : i < j) (hj : j < len) :
    fs.chain dev start i ≠ fs.chain dev start j := by
  intro heq
  -- the cluster after the last one would be one of the chain
  have hlast : fs.chain dev start (i + (len - j)) = fs.fatEntry dev (fs.chain dev start (len - 1)) := by
    have hsplit : len - j = len - 1 - j + 1 := by omega
    rw [fs.chain_add, heq, hsplit, Filesystem.chain, ← fs.chain_add]
    congr 2
    omega
  have hsmall := h.chained.small hpos (by omega : i + (len - j) < len)
  have hend := h.last
  rw [← hlast, isLastClusterInFile, maskCluster_of_lt (by omega), decide_eq_true_iff] at hend
  omega

theorem Filesystem.WholeChain.len_le (h : fs.WholeChain dev start len)
    (hpos : 0 < fs.sectorsPerCluster) : len ≤ 2 ^ 23 + 2 := by
  have hinj : Set.InjOn (fs.chain dev start) (Finset.range len) := by
    intro i hi j hj heq
    rw [Finset.mem_coe, Finset.mem_range] at hi hj
    rcases Nat.lt_trichotomy i j with hlt | rfl | hlt
    · exact absurd heq (h.injOn hpos hlt hj)
    · rfl
    · exact absurd heq.symm (h.injOn hpos hlt hi)
  have hmaps : Set.MapsTo (fs.chain dev start) (Finset.range len) (Finset.range (2 ^ 23 + 2)) := by
    intro j hj
    rw [Finset.mem_coe, Finset.mem_range] at hj ⊢
    exact h.chained.small hpos hj
  have hcard := Finset.card_le_card_of_injOn _ hmaps hinj
  rwa [Finset.card_range, Finset.card_range] at hcard

theorem Filesystem.nonzero_of_not_endsAt (hno : ∀ m < n, ¬ fs.EndsAt dev start m) :
    ∀ k < n, dev (fs.entryOffset dev start k) ≠ 0 := by
  intro k
  induction k using Nat.strong_induction_on with
  | _ k ih =>
    intro hk hzero
    exact hno k hk ⟨hzero, fun i hi => ih i hi (by omega)⟩

theorem matchName_of_ne (hnul : StringView.nul ∉ name) {d : Dirent} (hd : d.chars ≠ name)
    (acc : Option Dirent) : matchName name acc d = (acc, false) := by
  rw [matchName, if_neg]
  rw [StringView.eq_iff hnul]
  exact hd.symm

section Missing
variable (h : fs.Missing dev start len name) (hnul : StringView.nul ∉ name)
  (hn : n ≤ len * fs.dirEntriesPerCluster)
  (hnz : ∀ k < n, dev (fs.entryOffset dev start k) ≠ 0)
include h hnul hn hnz

theorem Filesystem.Missing.continues : fs.Continues dev start (matchName name) n := by
  intro acc k hk hlive
  rw [matchName_of_ne hnul (h k (by omega) (fun i hi => hnz i (by omega)) hlive)]

theorem Filesystem.Missing.visitFrom : fs.visitFrom dev start (matchName name) none 0 n = none := by
  refine List.foldlRecOn (motive := (· = none)) _ _ ?_ ?_
  · rfl
  · intro acc hacc k hk
    have hlt : k < n := by simpa using hk
    rw [visit]
    split_ifs with hlive
    · rw [matchName_of_ne hnul (h k (by omega) (fun i hi => hnz i (by omega)) hlive), hacc]
    · exact hacc

end Missing

/-- Clusters of parts of a page, or a region that does not start with a page, fail an assertion. -/
theorem Filesystem.iterateDir_unaligned {σ : Type} {cb : σ → Dirent → σ × Bool} {acc : σ}
    (hpos : 0 < fs.sectorsPerCluster) (hdata : 2 ≤ start)
    (hbelow : fs.clusterOffset start + 512 * fs.sectorsPerCluster ≤ 2 ^ 32)
    (hno : ¬ (fs.sectorsPerCluster % 8 = 0 ∧ 512 * fs.dataRegionOffsetLba % pgSz = 0)) :
    fs.iterateDir dev cb (pages + 1) (fuel + 1) start acc = .error .assertion := by
  by_cases hpages : fs.sectorsPerCluster % 8 = 0
  · have hassert : pgAligned (fs.sectorsPerCluster * 512) = true := by
      rw [pgAligned_iff]
      omega
    have hoffset : fs.clusterOffset start % 2 ^ 32 = fs.clusterOffset start :=
      Nat.mod_eq_of_lt (by omega)
    have hunaligned : ¬ pgAligned (fs.clusterOffset start) = true := by
      rw [fs.clusterOffset_aligned_iff hpages]
      exact not_and.mp hno hpages
    rw [Filesystem.iterateDir, if_neg (not_not.mpr hassert), fs.startSector_mul hpos hdata hbelow]
    simp only
    rw [hoffset, Filesystem.scanPages, if_pos (by omega), cachePage, if_neg hunaligned]
    rfl
  · have hassert : ¬ pgAligned (fs.sectorsPerCluster * 512) = true := by
      rw [pgAligned_iff]
      omega
    rw [Filesystem.iterateDir, if_pos hassert]

theorem Filesystem.WholeChain.no_marker (h : fs.WholeChain dev start len)
    (h8 : fs.sectorsPerCluster = 8) (haligned : 512 * fs.dataRegionOffsetLba % pgSz = 0)
    (hmissing : fs.Missing dev start len name) (hnul : StringView.nul ∉ name)
    (hnz : ∀ k < len * fs.dirEntriesPerCluster, dev (fs.entryOffset dev start k) ≠ 0) {acc}
    (hfuel : len ≤ fuel) :
    fs.iterateDir dev (matchName name) (pages + 2) fuel start acc = .error .assertion := by
  obtain ⟨last, rfl⟩ := Nat.exists_eq_add_one_of_ne_zero h.pos.ne'
  obtain ⟨fuel, rfl⟩ : ∃ f, fuel = f + 1 + last := ⟨fuel - 1 - last, by omega⟩
  have hlast := h.last
  have hpass := h.passable
  rw [Nat.add_sub_cancel] at hlast hpass
  have hcont := hmissing.continues hnul le_rfl hnz
  rw [Nat.mul_comm] at hnz hcont
  have hle : fs.dirEntriesPerCluster * last ≤ fs.dirEntriesPerCluster * (last + 1) :=
    Nat.mul_le_mul_left _ (Nat.le_succ _)
  have hsmall := h.chained.small (by omega) (Nat.lt_succ_self last)
  rw [fs.pass_clusters h8 haligned h.chained (Nat.lt_succ_self last)
    (fun k hk => hnz k (by omega)) (fun acc k hk => hcont acc k (by omega)),
    fs.pass_cluster h8 haligned (h.chained.data last (Nat.lt_succ_self last)) hpass hnz hcont,
    fs.advanceCluster_fatEntry (by omega) (h.chained.fat last (Nat.lt_succ_self last)), if_pos hlast]
  rfl

section Missing
variable (h : fs.WholeChain dev start len) (hpos : 0 < fs.sectorsPerCluster)
  (hmissing : fs.Missing dev start len name) (hnul : StringView.nul ∉ name) (hpages : 2 ≤ pages)
  (hfuel : len ≤ fuel)
include h hpos hmissing hnul hpages hfuel

theorem Filesystem.WholeChain.iterateDir_seen (hseen : fs.MarkerSeen dev start len) :
    fs.iterateDir dev (matchName name) pages fuel start none = .ok none := by
  obtain ⟨pages, rfl⟩ : ∃ p, pages = p + 2 := ⟨pages - 2, by omega⟩
  obtain ⟨m, hm, hends, hcase⟩ := hseen.marker
  have hdiv : m / fs.dirEntriesPerCluster < len := Nat.div_lt_of_lt_mul (by rwa [Nat.mul_comm])
  have hdir : fs.Directory dev start m :=
    ⟨hpos, hseen.pages, hseen.aligned, h.chained.mono hdiv, hends⟩
  rw [hdir.visits (hmissing.continues hnul hm.le hends.first) hcase (by omega),
    hmissing.visitFrom hnul hm.le hends.first]

theorem Filesystem.WholeChain.iterateDir_unseen (hunseen : ¬ fs.MarkerSeen dev start len) :
    ∃ stop, fs.iterateDir dev (matchName name) pages fuel start none = .error stop := by
  obtain ⟨pages, rfl⟩ : ∃ p, pages = p + 2 := ⟨pages - 2, by omega⟩
  have hfirst := h.pos
  obtain ⟨fuel, rfl⟩ : ∃ f, fuel = f + 1 := ⟨fuel - 1, by omega⟩
  have hdata : 2 ≤ start := h.chained.data 0 hfirst
  by_cases hwhole : fs.sectorsPerCluster % 8 = 0 ∧ 512 * fs.dataRegionOffsetLba % pgSz = 0
  · have hno : ∀ m < len * fs.dirEntriesPerCluster, fs.sectorsPerCluster = 8 ∨ m < 128 →
        ¬ fs.EndsAt dev start m := fun m hm hcase hends =>
      hunseen ⟨hwhole.1, hwhole.2, m, hm, hends, hcase⟩
    by_cases h8 : fs.sectorsPerCluster = 8
    · exact ⟨_, h.no_marker h8 hwhole.2 hmissing hnul
        (fs.nonzero_of_not_endsAt fun m hm => hno m hm (.inl h8)) hfuel⟩
    · have hN : 128 ≤ len * fs.dirEntriesPerCluster := by
        have hle := Nat.le_mul_of_pos_left fs.dirEntriesPerCluster hfirst
        rw [fs.dirEntriesPerCluster_eq] at hle ⊢
        omega
      have hnz : ∀ k < 128, dev (fs.entryOffset dev start k) ≠ 0 :=
        fs.nonzero_of_not_endsAt fun m hm => hno m (by omega) (.inr hm)
      exact ⟨_, fs.leaves_page hpos hwhole.1 hwhole.2 h.chained hfirst h8 hnz
        (hmissing.continues hnul hN hnz)⟩
  · exact ⟨_, fs.iterateDir_unaligned hpos hdata (h.chained.below 0 hfirst) hwhole⟩

end Missing

section Lookup
variable {s : Vfs} {n : Inode} {i addr : ℕ}

theorem Filesystem.disk_ok {start : ℕ} {dirent : Option Dirent}
    (h : fs.findDirent dev start name = .ok dirent) :
    fs.disk dev start name = some (dirent.map Dirent.toEntry) := by
  rw [disk, h]

theorem Filesystem.disk_error {start : ℕ} {stop : DirStop}
    (h : fs.findDirent dev start name = .error stop) : fs.disk dev start name = none := by
  rw [disk, h]

theorem convertNormalTo83Filename_nul_free (h : StringView.nul ∉ name) :
    StringView.nul ∉ convertNormalTo83Filename name := by
  have hspace : StringView.nul ≠ ' ' := by decide
  have hdrop := fun pos => mt (@List.mem_of_mem_drop _ _ pos name) h
  have htake := fun pos => mt (@List.mem_of_mem_take _ pos _ name) h
  rw [convertNormalTo83Filename]
  cases name.idxOf? '.' with
  | none => simp [hspace, htake]
  | some pos =>
    simp only [List.mem_append, List.mem_replicate, hspace, and_false, or_false, not_or]
    exact ⟨mt List.mem_of_mem_take (htake _), mt List.mem_of_mem_take (hdrop _)⟩

/-- Looking up a missing name has the result `FileNotFound` exactly if the search gets to an end
marker. -/
theorem lookupRes_fileNotFound_iff (h : fs.WholeChain dev n.startCluster len)
    (hpos : 0 < fs.sectorsPerCluster) (hn : s.inodes i = some n) (hdir : n.isDirectory = true)
    (hnul : StringView.nul ∉ name)
    (hmissing : fs.Missing dev n.startCluster len (convertNormalTo83Filename name)) (res : Result) :
    Inode.lookupRes (fs.disk dev) s i addr name res = .ok (s, none, .FileNotFound) ↔
      fs.MarkerSeen dev n.startCluster len := by
  have hnul := convertNormalTo83Filename_nul_free hnul
  have hpages : 2 ≤ pageFuel := by decide
  have hfuel : len ≤ chainFuel := by
    have := h.len_le hpos
    rw [chainFuel]
    omega
  constructor
  · intro hrun
    by_contra hno
    obtain ⟨stop, hstop⟩ := h.iterateDir_unseen hpos hmissing hnul hpages hfuel hno
    rw [Inode.lookupRes, Inode.lookup_asserts hn (.inr (fs.disk_error hstop))] at hrun
    cases hrun
  · intro hseen
    rw [Inode.lookupRes, Inode.lookup_missing hn hdir
      (fs.disk_ok (h.iterateDir_seen hpos hmissing hnul hpages hfuel hseen))]
    rfl

end Lookup

theorem singleCluster_wholeChain (m : ℕ) : pageClusters.WholeChain (singleCluster m) 2 1 where
  pos := Nat.one_pos
  chained :=
    { data := by
        intro j hj
        rw [Nat.lt_one_iff.mp hj, Filesystem.chain]
      below := by
        intro j hj
        rw [Nat.lt_one_iff.mp hj, Filesystem.chain]
        decide
      passable := by omega
      fat := by
        intro j hj
        rw [Nat.lt_one_iff.mp hj, Filesystem.chain]
        decide }
  passable := by
    rw [Nat.sub_self, Filesystem.chain]
    decide
  last := by
    have hentry : pageClusters.fatEntry (singleCluster m) 2 = 0x0FFFFFFF := by
      simp [Filesystem.fatEntry, pageClusters, singleCluster, le32]
      decide
    rw [Nat.sub_self, Filesystem.chain, hentry]
    decide

theorem lookupRes_fileNotFound_markedDirectory :
    Inode.lookupRes (pageClusters.disk (singleCluster 5)) (Vfs.init 2) 0 1 ['B'] .Ok =
      .ok (Vfs.init 2, none, .FileNotFound) := by
  apply (lookupRes_fileNotFound_iff (singleCluster_wholeChain 5) (by decide) rfl rfl (by decide)
    (by unfold Filesystem.Missing; decide +kernel) .Ok).mpr
  exact ⟨by decide, by decide, 5, by decide, ⟨by decide, by decide⟩, .inl rfl⟩

/-- The 128 entries fill the cluster. -/
theorem lookupRes_fullDirectory : pageClusters.WholeChain (singleCluster 128) 2 1 ∧
    pageClusters.Missing (singleCluster 128) 2 1 (convertNormalTo83Filename ['B']) ∧
      Inode.lookupRes (pageClusters.disk (singleCluster 128)) (Vfs.init 2) 0 1 ['B'] .Ok =
        .error .lookup := by
  have hmissing : pageClusters.Missing (singleCluster 128) 2 1 (convertNormalTo83Filename ['B']) := by
    unfold Filesystem.Missing
    decide +kernel
  have hunseen : ¬ pageClusters.MarkerSeen (singleCluster 128) 2 1 := by
    have hnz : ∀ k < 1 * pageClusters.dirEntriesPerCluster,
        singleCluster 128 (pageClusters.entryOffset (singleCluster 128) 2 k) ≠ 0 := by
      decide +kernel
    rintro ⟨-, -, m, hm, hends, -⟩
    exact hnz m hm hends.marker
  have hpages : 2 ≤ pageFuel := by decide
  have hfuel : 1 ≤ chainFuel := by decide
  obtain ⟨stop, hstop⟩ := (singleCluster_wholeChain 128).iterateDir_unseen (by decide) hmissing
    (by decide) hpages hfuel hunseen
  have hdisk : pageClusters.disk (singleCluster 128) 2 (convertNormalTo83Filename ['B']) = none :=
    pageClusters.disk_error hstop
  have hroot : (Vfs.init 2).inodes 0 =
      some { id := 0, startCluster := 2, size := 0, isDirectory := true, rc := 1 } := rfl
  refine ⟨singleCluster_wholeChain 128, hmissing, ?_⟩
  rw [Inode.lookupRes, Inode.lookup_asserts hroot (.inr hdisk)]
  rfl

end HmmOS.Fs
