import HmmOS.Fs.Directory
import HmmOS.Fs.ReadCorrect
import Mathlib.Data.List.Basic

/-! # The entries of a directory

A directory is the sequence of the entries in the clusters of its chain, up to the
first one whose name starts with a zero byte. `iterate_dir` looks for all entries of a
cluster in its first page.
-/
namespace HmmOS.Fs
open Lib Nonstd Util.Algorithm Filesystem

section Spec
variable (fs : Filesystem) (dev : Bytes) (start : ℕ)

def Filesystem.entryOffset (k : ℕ) : ℕ :=
  fs.clusterOffset (fs.chain dev start (k / fs.dirEntriesPerCluster)) +
    direntSz * (k % fs.dirEntriesPerCluster)

/-- An entry of a file that is neither deleted nor a part of a long name. -/
def Live (p : ℕ) : Bool := !(dev p == 0xE5 || dev (p + 11) == 0x0F)

def Filesystem.listing (m : ℕ) : List Dirent :=
  (((List.range m).map (fs.entryOffset dev start)).filter (Live dev)).map (Dirent.read dev)

/-- The first `n` clusters of a chain are on the volume, which lies below `2^32`. -/
structure Filesystem.Chained (n : ℕ) : Prop where
  data : ∀ j < n, 2 ≤ fs.chain dev start j
  below : ∀ j < n, fs.clusterOffset (fs.chain dev start j) + 512 * fs.sectorsPerCluster ≤ 2 ^ 32
  passable : ∀ j, j + 1 < n →
    fs.clusterOffset (fs.chain dev start j) + 512 * fs.sectorsPerCluster < 2 ^ 32
  fat : ∀ j < n, 512 * fs.fatOffsetLba + 4 * (fs.chain dev start j + 1) ≤ 2 ^ 32

structure Filesystem.EndsAt (m : ℕ) : Prop where
  marker : dev (fs.entryOffset dev start m) = 0
  first : ∀ k < m, dev (fs.entryOffset dev start k) ≠ 0

structure Filesystem.Directory (m : ℕ) : Prop where
  pos : 0 < fs.sectorsPerCluster
  pages : fs.sectorsPerCluster % 8 = 0
  aligned : 512 * fs.dataRegionOffsetLba % pgSz = 0
  chained : fs.Chained dev start (m / fs.dirEntriesPerCluster + 1)
  ends : fs.EndsAt dev start m

end Spec

variable {fs : Filesystem} {dev : Bytes} {start : ℕ} {σ : Type} {cb : σ → Dirent → σ × Bool} {n e t : ℕ} {acc : σ} {j fuel pages : ℕ}

section Scan
variable {page : Bytes} {q : ℕ}

/-- What a call makes of the state, at the position `p` of the device. -/
def visit (dev : Bytes) (cb : σ → Dirent → σ × Bool) (acc : σ) (p : ℕ) : σ :=
  if Live dev p then (cb acc (Dirent.read dev p)).1 else acc

theorem Dirent.read_offset (dev : Bytes) (q a : ℕ) :
    Dirent.read (fun i => dev (q + i)) a = Dirent.read dev (q + a) := by
  simp only [Dirent.read, le16, le32, Nat.add_assoc]

theorem scanEntries_skip (ht : t ≤ n) (hin : e + t ≤ 128) (hnz : ∀ i < t, dev (q + direntSz * (e + i)) ≠ 0)
    (hcb : ∀ acc, ∀ i < t, Live dev (q + direntSz * (e + i)) →
      (cb acc (Dirent.read dev (q + direntSz * (e + i)))).2 = false) :
    scanEntries cb (fun i => dev (q + i)) n e acc = scanEntries cb (fun i => dev (q + i)) (n - t) (e + t)
        ((List.range' e t).foldl (fun a i => visit dev cb a (q + direntSz * i)) acc) := by
  induction t generalizing n e acc with
  | zero => simp
  | succ t ih =>
    obtain ⟨n, rfl⟩ : ∃ k, n = k + 1 := ⟨n - 1, by omega⟩
    have hrest := @ih n (e + 1) (visit dev cb acc (q + direntSz * e)) (by omega) (by omega)
      (fun i hi => by
        rw [Nat.add_assoc, Nat.add_comm 1]
        exact hnz (i + 1) (by omega))
      (fun acc i hi => by
        rw [Nat.add_assoc, Nat.add_comm 1]
        exact hcb acc (i + 1) (by omega))
    have hzero := hnz 0 (by omega)
    have hcall := fun acc => hcb acc 0 (by omega)
    rw [Nat.add_zero] at hzero hcall
    have hpage : ¬ direntSz * e + direntSz > pgSz := by
      rw [direntSz, pgSz_eq]
      omega
    rw [List.range'_succ, List.foldl_cons, Nat.add_sub_add_right, ← Nat.add_assoc, Nat.add_right_comm,
      ← hrest, scanEntries]
    simp only [if_neg hpage, if_neg hzero]
    rw [Dirent.read_offset]
    by_cases hlive : Live dev (q + direntSz * e) = true
    · have hskip : ¬ (dev (q + direntSz * e) = 0xE5 ∨ dev (q + (direntSz * e + 11)) = 0x0F) := by
        simpa [Live, Nat.add_assoc] using hlive
      rw [if_neg hskip, visit, if_pos hlive, hcall acc hlive, if_neg Bool.false_ne_true]
    · have hskip : dev (q + direntSz * e) = 0xE5 ∨ dev (q + (direntSz * e + 11)) = 0x0F := by
        simpa [Live, Nat.add_assoc, or_iff_not_imp_left] using hlive
      rw [if_pos hskip, visit, if_neg hlive]

theorem scanEntries_marker (hn : 0 < n) (he : e < 128) (hzero : page (direntSz * e) = 0) :
    scanEntries cb page n e acc = .ok (acc, true) := by
  obtain ⟨n, rfl⟩ : ∃ k, n = k + 1 := ⟨n - 1, by omega⟩
  have hpage : ¬ direntSz * e + direntSz > pgSz := by
    rw [direntSz, pgSz_eq]
    omega
  rw [scanEntries]
  simp only [if_neg hpage, if_pos hzero]

theorem scanEntries_outside (hn : 0 < n) (he : 128 ≤ e) :
    scanEntries cb page n e acc = .error .outsidePage := by
  obtain ⟨n, rfl⟩ : ∃ k, n = k + 1 := ⟨n - 1, by omega⟩
  have hpage : direntSz * e + direntSz > pgSz := by
    rw [direntSz, pgSz_eq]
    omega
  rw [scanEntries]
  simp only [if_pos hpage]

end Scan

section Cluster
variable {acc' : σ} {c : ℕ}

theorem Filesystem.Chained.small (h : fs.Chained dev start n) (hpos : 0 < fs.sectorsPerCluster)
    (hj : j < n) : fs.chain dev start j < 2 ^ 23 + 2 :=
  fs.cluster_small hpos (h.below j hj)

theorem Filesystem.Chained.advance (h : fs.Chained dev start n) (hpos : 0 < fs.sectorsPerCluster)
    (hj : j + 1 < n) : fs.advanceCluster dev (fs.chain dev start j) = some (fs.chain dev start (j + 1)) := by
  have hj' : j < n := by omega
  exact fs.advanceCluster_next (h.small hpos hj') (h.fat j hj') (h.small hpos hj)

theorem Filesystem.clusterOffset_aligned_iff (hpages : fs.sectorsPerCluster % 8 = 0) (c : ℕ) :
    pgAligned (fs.clusterOffset c) = true ↔ 512 * fs.dataRegionOffsetLba % pgSz = 0 := by
  obtain ⟨k, hk⟩ := Nat.dvd_of_mod_eq_zero hpages
  have hmul : 512 * fs.sectorsPerCluster * (c - 2) = pgSz * (k * (c - 2)) := by
    rw [hk, pgSz_eq]
    ring
  rw [pgAligned_iff, clusterOffset, hmul, ← pgSz_eq, Nat.add_mul_mod_self_left]

section Page
variable (hpos : 0 < fs.sectorsPerCluster) (hpages : fs.sectorsPerCluster % 8 = 0)
  (haligned : 512 * fs.dataRegionOffsetLba % pgSz = 0) (hdata : 2 ≤ c)
  (hbelow : fs.clusterOffset c + 512 * fs.sectorsPerCluster ≤ 2 ^ 32)
include hpos hpages haligned hdata hbelow

theorem Filesystem.iterateDir_first : fs.iterateDir dev cb (pages + 1) (fuel + 1) c acc =
      scanEntries cb (fun i => dev (fs.clusterOffset c + i)) fs.dirEntriesPerCluster 0 acc >>=
        fun r => if r.2 then .ok r.1
          else fs.scanPages dev cb (fs.clusterOffset c) pages (Word.add 32 (fs.clusterOffset c) pgSz) r.1 >>=
            fun r => if r.2 then .ok r.1 else orAssert (fs.advanceCluster dev c) >>=
                fun next => fs.iterateDir dev cb (pages + 1) fuel next r.1 := by
  have hassert : pgAligned (fs.sectorsPerCluster * 512) = true := by
    rw [pgAligned_iff]
    omega
  have hoffset : fs.clusterOffset c % 2 ^ 32 = fs.clusterOffset c := Nat.mod_eq_of_lt (by omega)
  rw [iterateDir, if_neg (not_not.mpr hassert), fs.startSector_mul hpos hdata hbelow]
  simp only
  rw [hoffset, scanPages, if_pos (by omega), cachePage,
    if_pos ((fs.clusterOffset_aligned_iff hpages c).mpr haligned), orAssert, ok_bind, bind_assoc]
  apply bind_congr
  intro r
  by_cases hr : r.2 = true
  · simp [hr]
    rfl
  · simp [hr]
    rfl

theorem Filesystem.iterateDir_stop
    (hscan : scanEntries cb (fun i => dev (fs.clusterOffset c + i)) fs.dirEntriesPerCluster 0 acc =
      .ok (acc', true)) : fs.iterateDir dev cb (pages + 1) (fuel + 1) c acc = .ok acc' := by
  rw [fs.iterateDir_first hpos hpages haligned hdata hbelow, hscan, ok_bind, if_pos rfl]

theorem Filesystem.iterateDir_error {e : DirStop}
    (hscan : scanEntries cb (fun i => dev (fs.clusterOffset c + i)) fs.dirEntriesPerCluster 0 acc =
      .error e) : fs.iterateDir dev cb (pages + 1) (fuel + 1) c acc = .error e := by
  rw [fs.iterateDir_first hpos hpages haligned hdata hbelow, hscan]
  rfl

end Page

theorem Filesystem.iterateDir_next {pages : ℕ} (h8 : fs.sectorsPerCluster = 8)
    (haligned : 512 * fs.dataRegionOffsetLba % pgSz = 0) (hdata : 2 ≤ c)
    (hpass : fs.clusterOffset c + 512 * fs.sectorsPerCluster < 2 ^ 32)
    (hscan : scanEntries cb (fun i => dev (fs.clusterOffset c + i)) fs.dirEntriesPerCluster 0 acc =
      .ok (acc', false)) : fs.iterateDir dev cb (pages + 2) (fuel + 1) c acc =
      orAssert (fs.advanceCluster dev c) >>= fun next => fs.iterateDir dev cb (pages + 2) fuel next acc' := by
  have hend : Word.add 32 (fs.clusterOffset c) pgSz = fs.clusterOffset c + pgSz := by
    exact Word.add_of_lt (by rw [pgSz_eq]; omega)
  have hover : ¬ fs.clusterOffset c + pgSz < fs.clusterOffset c + fs.sectorsPerCluster * 512 := by
    rw [h8, pgSz_eq]
    omega
  rw [fs.iterateDir_first (by omega) (by omega) haligned hdata hpass.le, hscan, ok_bind,
    if_neg Bool.false_ne_true, hend, scanPages, if_neg hover]
  rfl

end Cluster

section Directory
variable {m : ℕ}

/-- What the calls on the entries `k`, ... make of the state. -/
def Filesystem.visitFrom (fs : Filesystem) (dev : Bytes) (start : ℕ) (cb : σ → Dirent → σ × Bool)
    (acc : σ) (k n : ℕ) : σ :=
  (List.range' k n).foldl (fun a i => visit dev cb a (fs.entryOffset dev start i)) acc

theorem Filesystem.visitFrom_add (fs : Filesystem) (dev : Bytes) (start : ℕ)
    (cb : σ → Dirent → σ × Bool) (acc : σ) (k a b : ℕ) : fs.visitFrom dev start cb acc k (a + b) =
      fs.visitFrom dev start cb (fs.visitFrom dev start cb acc k a) (k + a) b := by
  have happ := @List.range'_append k a b 1
  rw [Nat.one_mul] at happ
  rw [visitFrom, ← happ, List.foldl_append]
  rfl

theorem Filesystem.visitFrom_listing : fs.visitFrom dev start cb acc 0 m =
      (fs.listing dev start m).foldl (fun a d => (cb a d).1) acc := by
  rw [visitFrom, listing, List.foldl_map, List.foldl_filter, List.foldl_map, ← List.range_eq_range']
  rfl

theorem Filesystem.entryOffset_eq (he : e < fs.dirEntriesPerCluster) :
    fs.entryOffset dev start (fs.dirEntriesPerCluster * j + e) =
      fs.clusterOffset (fs.chain dev start j) + direntSz * e := by
  have hpos : 0 < fs.dirEntriesPerCluster := by omega
  rw [entryOffset, Nat.mul_add_div hpos, Nat.div_eq_of_lt he, Nat.add_zero, Nat.mul_add_mod,
    Nat.mod_eq_of_lt he]

/-- `t` entries of the first page of cluster `j` that do not end the search. -/
theorem Filesystem.scanEntries_cluster (ht : t ≤ 128) (htn : t ≤ fs.dirEntriesPerCluster)
    (hnz : ∀ i < t, dev (fs.entryOffset dev start (fs.dirEntriesPerCluster * j + i)) ≠ 0)
    (hcb : ∀ acc, ∀ i < t, Live dev (fs.entryOffset dev start (fs.dirEntriesPerCluster * j + i)) →
      (cb acc (Dirent.read dev (fs.entryOffset dev start (fs.dirEntriesPerCluster * j + i)))).2 = false) :
    scanEntries cb (fun i => dev (fs.clusterOffset (fs.chain dev start j) + i)) fs.dirEntriesPerCluster 0 acc =
      scanEntries cb (fun i => dev (fs.clusterOffset (fs.chain dev start j) + i))
        (fs.dirEntriesPerCluster - t) t (fs.visitFrom dev start cb acc (fs.dirEntriesPerCluster * j) t) := by
  have hoffset : ∀ i < t, fs.entryOffset dev start (fs.dirEntriesPerCluster * j + i) =
      fs.clusterOffset (fs.chain dev start j) + direntSz * (0 + i) := by
    intro i hi
    rw [fs.entryOffset_eq (by omega), Nat.zero_add]
  have hvisit : fs.visitFrom dev start cb acc (fs.dirEntriesPerCluster * j) t =
      (List.range' 0 t).foldl (fun a i =>
        visit dev cb a (fs.clusterOffset (fs.chain dev start j) + direntSz * i)) acc := by
    have hmap : List.range' (fs.dirEntriesPerCluster * j) t =
        (List.range' 0 t).map (fs.dirEntriesPerCluster * j + ·) := by
      rw [List.map_add_range', Nat.add_zero]
    rw [visitFrom, hmap, List.foldl_map]
    apply List.foldl_ext
    intro a i hi
    have hlt : i < t := by simpa using hi
    rw [hoffset i hlt, Nat.zero_add]
  rw [scanEntries_skip htn (by omega : 0 + t ≤ 128), Nat.zero_add, hvisit]
  · intro i hi
    rw [← hoffset i hi]
    exact hnz i hi
  · intro acc i hi
    rw [← hoffset i hi]
    exact hcb acc i hi

theorem Filesystem.dirEntriesPerCluster_eq (fs : Filesystem) :
    fs.dirEntriesPerCluster = 16 * fs.sectorsPerCluster := by
  rw [dirEntriesPerCluster, direntSz]
  omega

/-- The function does not stop the search on the first `n` entries. -/
def Filesystem.Continues (fs : Filesystem) (dev : Bytes) (start : ℕ) (cb : σ → Dirent → σ × Bool)
    (n : ℕ) : Prop :=
  ∀ acc, ∀ k < n, Live dev (fs.entryOffset dev start k) →
    (cb acc (Dirent.read dev (fs.entryOffset dev start k))).2 = false

theorem Filesystem.pass_cluster (h8 : fs.sectorsPerCluster = 8)
    (haligned : 512 * fs.dataRegionOffsetLba % pgSz = 0) (hdata : 2 ≤ fs.chain dev start j)
    (hpass : fs.clusterOffset (fs.chain dev start j) + 512 * fs.sectorsPerCluster < 2 ^ 32)
    (hnz : ∀ k < fs.dirEntriesPerCluster * (j + 1), dev (fs.entryOffset dev start k) ≠ 0)
    (hcb : fs.Continues dev start cb (fs.dirEntriesPerCluster * (j + 1))) :
    fs.iterateDir dev cb (pages + 2) (fuel + 1) (fs.chain dev start j) acc =
      orAssert (fs.advanceCluster dev (fs.chain dev start j)) >>=
        fun next => fs.iterateDir dev cb (pages + 2) fuel next
          (fs.visitFrom dev start cb acc (fs.dirEntriesPerCluster * j) fs.dirEntriesPerCluster) := by
  have hN : fs.dirEntriesPerCluster = 128 := by rw [fs.dirEntriesPerCluster_eq, h8]
  rw [Nat.mul_succ] at hnz hcb
  apply fs.iterateDir_next h8 haligned hdata hpass
  rw [fs.scanEntries_cluster hN.le le_rfl, Nat.sub_self, scanEntries]
  · intro i hi
    exact hnz _ (by omega)
  · intro acc i hi
    exact hcb acc _ (by omega)

theorem Filesystem.pass_clusters (h8 : fs.sectorsPerCluster = 8)
    (haligned : 512 * fs.dataRegionOffsetLba % pgSz = 0) (hchain : fs.Chained dev start n) {J : ℕ}
    (hJ : J < n) (hnz : ∀ k < fs.dirEntriesPerCluster * J, dev (fs.entryOffset dev start k) ≠ 0)
    (hcb : fs.Continues dev start cb (fs.dirEntriesPerCluster * J)) :
    fs.iterateDir dev cb (pages + 2) (fuel + J) start acc =
      fs.iterateDir dev cb (pages + 2) fuel (fs.chain dev start J)
        (fs.visitFrom dev start cb acc 0 (fs.dirEntriesPerCluster * J)) := by
  induction J generalizing fuel with
  | zero => rfl
  | succ J ih =>
    have hbelow : ∀ k < fs.dirEntriesPerCluster * J, k < fs.dirEntriesPerCluster * (J + 1) := by
      intro k hk
      rw [Nat.mul_succ]
      omega
    rw [← Nat.add_assoc, Nat.add_right_comm, ih (by omega) (fun k hk => hnz k (hbelow k hk))
      (fun acc k hk => hcb acc k (hbelow k hk)),
      fs.pass_cluster h8 haligned (hchain.data J (by omega)) (hchain.passable J hJ) hnz hcb,
      hchain.advance (by omega) hJ, orAssert, ok_bind, Nat.mul_succ, fs.visitFrom_add, Nat.zero_add]

theorem Filesystem.leaves_page (hpos : 0 < fs.sectorsPerCluster)
    (hpages : fs.sectorsPerCluster % 8 = 0) (haligned : 512 * fs.dataRegionOffsetLba % pgSz = 0)
    (hchain : fs.Chained dev start n) (hn : 0 < n) (h8 : fs.sectorsPerCluster ≠ 8)
    (hnz : ∀ k < 128, dev (fs.entryOffset dev start k) ≠ 0) (hcb : fs.Continues dev start cb 128) :
    fs.iterateDir dev cb (pages + 1) (fuel + 1) start acc = .error .outsidePage := by
  have hN : 128 < fs.dirEntriesPerCluster := by
    rw [fs.dirEntriesPerCluster_eq]
    omega
  refine fs.iterateDir_error hpos hpages haligned (hchain.data 0 hn) (hchain.below 0 hn)
    ((fs.scanEntries_cluster (t := 128) le_rfl hN.le ?_ ?_).trans ?_)
  · intro i hi
    exact hnz _ (by omega)
  · intro acc i hi
    exact hcb acc _ (by omega)
  · exact scanEntries_outside (by omega) le_rfl

namespace Filesystem.Directory

theorem dirEntriesPerCluster_pos (h : fs.Directory dev start m) : 0 < fs.dirEntriesPerCluster := by
  rw [fs.dirEntriesPerCluster_eq]
  exact Nat.mul_pos (by decide) h.pos

theorem last_cluster (h : fs.Directory dev start m) (hcb : fs.Continues dev start cb m)
    (hpage : m % fs.dirEntriesPerCluster < 128) : fs.iterateDir dev cb (pages + 1) (fuel + 1)
        (fs.chain dev start (m / fs.dirEntriesPerCluster)) acc =
      .ok (fs.visitFrom dev start cb acc (fs.dirEntriesPerCluster * (m / fs.dirEntriesPerCluster))
        (m % fs.dirEntriesPerCluster)) := by
  have hlt := Nat.mod_lt m h.dirEntriesPerCluster_pos
  have hm := Nat.div_add_mod m fs.dirEntriesPerCluster
  have hzero : dev (fs.clusterOffset (fs.chain dev start (m / fs.dirEntriesPerCluster)) +
      direntSz * (m % fs.dirEntriesPerCluster)) = 0 := by
    exact h.ends.marker
  have hj : m / fs.dirEntriesPerCluster < m / fs.dirEntriesPerCluster + 1 := Nat.lt_succ_self _
  refine fs.iterateDir_stop h.pos h.pages h.aligned (h.chained.data _ hj) (h.chained.below _ hj)
    ((fs.scanEntries_cluster hpage.le hlt.le ?_ ?_).trans ?_)
  · intro i hi
    exact h.ends.first _ (by omega)
  · intro acc i hi
    exact hcb acc _ (by omega)
  · exact scanEntries_marker (by omega) hpage hzero

/-- The search goes through the directory if a cluster is one page, or if the first page is enough. -/
theorem visits (h : fs.Directory dev start m) (hcb : fs.Continues dev start cb m)
    (hcase : fs.sectorsPerCluster = 8 ∨ m < 128) (hfuel : m / fs.dirEntriesPerCluster < fuel) :
    fs.iterateDir dev cb (pages + 2) fuel start acc = .ok (fs.visitFrom dev start cb acc 0 m) := by
  obtain ⟨fuel, rfl⟩ : ∃ f, fuel = f + 1 + m / fs.dirEntriesPerCluster :=
    ⟨fuel - 1 - m / fs.dirEntriesPerCluster, by omega⟩
  have hm := Nat.div_add_mod m fs.dirEntriesPerCluster
  have hlt := Nat.mod_lt m h.dirEntriesPerCluster_pos
  by_cases h8 : fs.sectorsPerCluster = 8
  · have hN : fs.dirEntriesPerCluster = 128 := by rw [fs.dirEntriesPerCluster_eq, h8]
    rw [fs.pass_clusters h8 h.aligned h.chained (Nat.lt_succ_self _)
      (fun k hk => h.ends.first k (by omega)) (fun acc k hk => hcb acc k (by omega)),
      h.last_cluster hcb (by omega)]
    conv_rhs => rw [← hm, fs.visitFrom_add, Nat.zero_add]
  · have hN : 128 < fs.dirEntriesPerCluster := by
      have := h.pos
      have := h.pages
      rw [fs.dirEntriesPerCluster_eq]
      omega
    have hdiv : m / fs.dirEntriesPerCluster = 0 := Nat.div_eq_of_lt (by omega)
    have hmod : m % fs.dirEntriesPerCluster = m := Nat.mod_eq_of_lt (by omega)
    have hrun : fs.iterateDir dev cb (pages + 2) (fuel + 1) _ acc = _ :=
      h.last_cluster hcb (by omega)
    rw [hdiv, hmod, Nat.mul_zero] at hrun
    rw [hdiv]
    exact hrun

end Filesystem.Directory

/-- `iterate_dir` visits the entries of the directory, in order, exactly if a cluster is one page or the
end marker is in the first page. -/
theorem iterateDir_listing_iff (h : fs.Directory dev start m) (hcb : ∀ acc d, (cb acc d).2 = false)
    (acc : σ) (hpages : 2 ≤ pages) (hfuel : m / fs.dirEntriesPerCluster < fuel) :
    fs.iterateDir dev cb pages fuel start acc =
        .ok ((fs.listing dev start m).foldl (fun a d => (cb a d).1) acc) ↔
      fs.sectorsPerCluster = 8 ∨ m < 128 := by
  have hcont : fs.Continues dev start cb m := fun acc k _ _ => hcb acc _
  obtain ⟨pages, rfl⟩ : ∃ p, pages = p + 2 := ⟨pages - 2, by omega⟩
  rw [← fs.visitFrom_listing]
  constructor
  · intro hrun
    by_contra hno
    rw [not_or, Nat.not_lt] at hno
    obtain ⟨fuel, rfl⟩ := Nat.exists_eq_add_one_of_ne_zero (Nat.ne_zero_of_lt hfuel)
    rw [fs.leaves_page h.pos h.pages h.aligned h.chained (Nat.succ_pos _) hno.1
      (fun k hk => h.ends.first k (by omega)) (fun acc k hk => hcont acc k (by omega))] at hrun
    cases hrun
  · intro hcase
    exact h.visits hcont hcase hfuel

end Directory

/-- A directory whose end marker is entry 130, in cluster 2 and, if clusters are one page, cluster 3. -/
def directoryDev : Bytes := fun i =>
  if i = 520 then 3 else if 520 < i ∧ i < 524 then 0 else if i = 4096 + 32 * 130 then 0 else 0x41

/-- A directory in cluster 2, the only one of its chain, in which entry `m` is an end marker. -/
def singleCluster (m : ℕ) : Bytes := fun i =>
  if 520 ≤ i ∧ i < 524 then 0xFF else if i = 4096 + 32 * m then 0 else 0x41

def pageClusters : Filesystem := ⟨8, 1, 8⟩

def bigClusters : Filesystem := ⟨16, 1, 8⟩

def record (entries : List Dirent) (d : Dirent) : List Dirent × Bool := (entries ++ [d], false)

theorem pageClusters_directory : pageClusters.Directory directoryDev 2 130 where
  pos := by decide
  pages := by decide
  aligned := by decide
  chained :=
    { data := by decide +kernel
      below := by decide +kernel
      passable := by
        intro j hj
        have hlast : 130 / pageClusters.dirEntriesPerCluster = 1 := by decide
        obtain rfl : j = 0 := by omega
        decide +kernel
      fat := by decide +kernel }
  ends := ⟨by decide +kernel, by decide +kernel⟩

theorem bigClusters_directory : bigClusters.Directory directoryDev 2 130 where
  pos := by decide
  pages := by decide
  aligned := by decide
  chained :=
    { data := by decide +kernel
      below := by decide +kernel
      passable := by
        intro j hj
        have hlast : 130 / bigClusters.dirEntriesPerCluster = 0 := by decide
        omega
      fat := by decide +kernel }
  ends := ⟨by decide +kernel, by decide +kernel⟩

theorem iterateDir_listing_pageClusters :
    (pageClusters.listing directoryDev 2 130).length = 130 ∧
      pageClusters.iterateDir directoryDev record 2 2 2 [] =
        .ok ((pageClusters.listing directoryDev 2 130).foldl (fun a d => (record a d).1) []) :=
  ⟨by decide +kernel, (iterateDir_listing_iff pageClusters_directory (fun _ _ => rfl) [] le_rfl
    (by decide)).mpr (.inl rfl)⟩

/-- Entry 128 is in the second page of the cluster, but looked for past the end of the first one. -/
theorem iterateDir_bigClusters : bigClusters.Directory directoryDev 2 130 ∧
    bigClusters.iterateDir directoryDev record 2 2 2 [] = .error .outsidePage :=
  ⟨bigClusters_directory, by decide +kernel⟩

end HmmOS.Fs
