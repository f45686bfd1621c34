import HmmOS.Boot.FindFile

/-! # The root directory and the sector buffer

`fat32_find_file` takes the number of table entries in a sector for the number of
directory entries: it looks at eight times as many entries as it has read.
-/
namespace HmmOS.Boot
open Lib Nonstd Fs Fat32Desc

section Spec
variable (fs : Fat32Desc) (dev filename : Bytes)

def Fat32Desc.entriesPerCluster : ℕ := fs.clusterBytes / direntSz

def Fat32Desc.entryOffset (k : ℕ) : ℕ :=
  fs.clusterStart (fs.chain dev fs.rootDirStartCluster (k / fs.entriesPerCluster)) +
    direntSz * (k % fs.entriesPerCluster)

def Fat32Desc.named (k : ℕ) : Bool :=
  dev (fs.entryOffset dev k) != 0xE5 &&
    matchesName filename (Dirent.read dev (fs.entryOffset dev k))

/-- The size stored in the first such entry before an end marker at `m`. -/
def Fat32Desc.storedSize (m : ℕ) : Option ℕ :=
  ((List.range m).find? (fs.named dev filename)).map fun k =>
    (Dirent.read dev (fs.entryOffset dev k)).fileSzBytes

/-- The first end marker of the root directory is entry `m`. The clusters up to it lie below `2^32`. -/
structure RootDirectory (m : ℕ) : Prop where
  cluster_pos : 0 < fs.sectorsPerCluster
  below : ∀ j ≤ m / fs.entriesPerCluster, fs.Below (fs.chain dev fs.rootDirStartCluster j)
  marker : dev (fs.entryOffset dev m) = 0
  first : ∀ k < m, dev (fs.entryOffset dev k) ≠ 0

end Spec

/-- On a volume that the bootloader accepts, a sector size that is a power of two is made of sectors
of the disk. -/
theorem ParsedFrom.wholeSectors {dev : Bytes} {part : MbrPartition} {fs : Fat32Desc}
    (h : ParsedFrom dev part fs) (hpow : ∃ e, fs.bytesPerSector = 2 ^ e)
    (hpos : 0 < fs.sectorsPerCluster) : fs.WholeSectors := by
  obtain ⟨e, he⟩ := hpow
  have hge : 2 ^ 9 ≤ 2 ^ e := he ▸ h.bytesPerSector ▸ h.sector_ge
  have hdvd : mbrSectorSz ∣ (vbrOf dev part).bytesPerSector := by
    rw [← h.bytesPerSector, he]
    exact Nat.pow_dvd_pow 2 ((Nat.pow_le_pow_iff_right (by norm_num)).mp hge)
  constructor
  case sector_pos =>
    rw [he]
    exact Nat.two_pow_pos e
  case sector =>
    rw [h.bytesPerSector]
    exact Nat.mod_eq_zero_of_dvd hdvd
  case cluster_pos => exact hpos
  case fat =>
    rw [h.fat]
    exact Nat.mod_eq_zero_of_dvd (Nat.dvd_add (Nat.dvd_mul_right _ _) (hdvd.mul_left _))
  case data =>
    rw [h.data]
    exact Nat.mod_eq_zero_of_dvd (Nat.dvd_add (Nat.dvd_mul_right _ _) (hdvd.mul_left _))

variable {fs : Fat32Desc} {dev filename mem : Bytes} {buf m k fuel : ℕ}

section Buffer
variable {c : ℕ}

theorem dirent_congr {mem' : Bytes} {a b : ℕ} (h : ∀ i < direntSz, mem (a + i) = mem' (b + i)) :
    stopsAt filename mem a = stopsAt filename mem' b ∧ resultAt mem a = resultAt mem' b := by
  have hread : Dirent.read mem a = Dirent.read mem' b := by
    have hname : (List.range 11).map (fun i => mem (a + i)) = (List.range 11).map fun i => mem' (b + i) :=
      List.map_congr_left fun i hi => h i ((List.mem_range.mp hi).trans (by decide))
    simp only [Dirent.read, hname, le16, le32, Nat.add_assoc]
    simp only [Nat.reduceAdd, h 11 (by decide), h 20 (by decide), h 21 (by decide), h 26 (by decide),
      h 27 (by decide), h 28 (by decide), h 29 (by decide), h 30 (by decide), h 31 (by decide)]
  have hfirst : mem a = mem' b := h 0 (by decide)
  rw [stopsAt, stopsAt, resultAt, resultAt, hread, hfirst]
  exact ⟨rfl, rfl⟩

def buffered (dev mem : Bytes) (buf q n : ℕ) : Bytes := memcpy mem buf (fun i => dev (q + i)) n

theorem buffered_of_lt {q n i : ℕ} (hi : i < n) : buffered dev mem buf q n (buf + i) = dev (q + i) := by
  rw [buffered, memcpy_of_mem (by omega) (by omega), Nat.add_sub_cancel_left]

theorem buffered_entry {q n k : ℕ} (hn : n % direntSz = 0) (hk : direntSz * k < n) :
    stopsAt filename (buffered dev mem buf q n) (buf + direntSz * k) = stopsAt filename dev (q + direntSz * k) ∧
      resultAt (buffered dev mem buf q n) (buf + direntSz * k) = resultAt dev (q + direntSz * k) := by
  apply dirent_congr
  intro i hi
  rw [direntSz] at *
  rw [Nat.add_assoc, Nat.add_assoc, buffered_of_lt (by omega)]

theorem Fat32Desc.WholeSectors.entries (hw : fs.WholeSectors) :
    fs.bytesPerSector % direntSz = 0 ∧ direntSz * fs.entriesPerCluster = fs.clusterBytes := by
  have hsector := hw.sector
  have hmod : fs.bytesPerSector % direntSz = 0 := by
    rw [mbrSectorSz] at hsector
    rw [direntSz]
    omega
  refine ⟨hmod, Nat.mul_div_cancel' ?_⟩
  exact (Nat.dvd_of_mod_eq_zero hmod).mul_left _

section
variable (hb : fs.Below c) (hw : fs.WholeSectors)
include hb hw

theorem Fat32Desc.Below.copySector {sector : ℕ} (hs : sector < fs.sectorsPerCluster) : copyBytes dev mem buf
        (Word.add 64 (fs.clusterDataOffsetBytes c) (sector * fs.bytesPerSector) % 2 ^ 32) fs.bytesPerSector =
      buffered dev mem buf (fs.clusterStart c + sector * fs.bytesPerSector) fs.bytesPerSector := by
  have hcontents := hb.contents
  have hlt : sector * fs.bytesPerSector < fs.clusterBytes :=
    Nat.mul_lt_mul_of_pos_right hs hw.sector_pos
  have haligned : (fs.clusterStart c + sector * fs.bytesPerSector) % mbrSectorSz = 0 :=
    Nat.mod_eq_zero_of_dvd (Nat.dvd_add (Nat.dvd_of_mod_eq_zero (hw.clusterStart_aligned c))
      ((Nat.dvd_of_mod_eq_zero hw.sector).mul_left _))
  rw [hb.clusterDataOffsetBytes hw, Word.add_of_lt (by omega), Nat.mod_eq_of_lt (by omega),
    copyBytes_aligned haligned, copiedBytes_of_dvd hw.sector_pos hw.sector]
  rfl

theorem Fat32Desc.Below.copyFatSector :
    copyBytes dev mem buf (fs.fatSectorPosition (c / fs.fatEntriesPerSector)) fs.bytesPerSector =
      buffered dev mem buf (fs.fatSectorPosition (c / fs.fatEntriesPerSector)) fs.bytesPerSector := by
  rw [copyBytes_aligned (hb.fatSectorPosition hw).2, copiedBytes_of_dvd hw.sector_pos hw.sector]
  rfl

theorem Fat32Desc.Below.le32_fatSector (hsector : ∀ i < fs.bytesPerSector,
      mem (buf + i) = dev (fs.fatSectorPosition (c / fs.fatEntriesPerSector) + i)) :
    le32 mem (buf + 4 * (c % fs.fatEntriesPerSector)) = fs.fatEntry dev c := by
  have hge := hw.sector_ge
  have hlt := Nat.mod_lt c (show 0 < fs.fatEntriesPerSector by
    rw [fatEntriesPerSector]
    omega)
  have hfit : 4 * (c % fs.fatEntriesPerSector) + 3 < fs.bytesPerSector := by
    rw [fatEntriesPerSector] at *
    omega
  apply le32_congr
  intro i hi
  rw [Nat.add_assoc, hsector _ (by omega), ← Nat.add_assoc, (hb.fatSectorPosition hw).1]

end

end Buffer

theorem scanCluster_isSome (hw : fs.WholeSectors) {c sector k n : ℕ} (hb : fs.Below c)
    (hk : direntSz * k < fs.bytesPerSector)
    (hend : dev (fs.clusterStart c + sector * fs.bytesPerSector + direntSz * k) = 0) {s : ℕ}
    (hle : s ≤ sector) (hlt : sector < s + n) (hn : s + n ≤ fs.sectorsPerCluster) (mem : Bytes) :
    (scanCluster fs dev buf filename c n s mem).2.isSome = true := by
  induction n generalizing s mem with
  | zero => omega
  | succ n ih =>
    rw [scanCluster]
    split
    · rfl
    · next hscan =>
      rcases Nat.lt_or_eq_of_le hle with hlater | rfl
      · exact ih (by omega) (by omega) (by omega) _
      · have hge := hw.sector_ge
        have hfew : k < fs.fatEntriesPerSector := by
          rw [direntSz] at hk
          rw [Fat32Desc.fatEntriesPerSector]
          omega
        have hzero : buffered dev mem buf (fs.clusterStart c + s * fs.bytesPerSector)
            fs.bytesPerSector (buf + direntSz * k) = 0 := (buffered_of_lt hk).trans hend
        have hsome := @scanSector_isSome buf filename _ fs.fatEntriesPerSector 0 k (by omega) (by omega)
          hzero
        rw [hb.copySector hw (by omega)] at hscan
        rw [hscan] at hsome
        cases hsome

theorem RootDirectory.marker_sector (h : RootDirectory fs dev m) (hw : fs.WholeSectors) :
    ∃ sector k, sector < fs.sectorsPerCluster ∧ direntSz * k < fs.bytesPerSector ∧
      dev (fs.clusterStart (fs.chain dev fs.rootDirStartCluster (m / fs.entriesPerCluster)) +
        sector * fs.bytesPerSector + direntSz * k) = 0 := by
  obtain ⟨hsector, hcluster⟩ := hw.entries
  have hge := hw.clusterBytes_ge
  have hN : 0 < fs.entriesPerCluster := by
    rw [direntSz] at hcluster
    omega
  have hlt : direntSz * (m % fs.entriesPerCluster) < fs.sectorsPerCluster * fs.bytesPerSector := by
    change _ < fs.clusterBytes
    rw [← hcluster]
    exact Nat.mul_lt_mul_of_pos_left (Nat.mod_lt m hN) (by decide)
  have hdvd : direntSz ∣ direntSz * (m % fs.entriesPerCluster) % fs.bytesPerSector :=
    (Nat.dvd_mod_iff (Nat.dvd_of_mod_eq_zero hsector)).mpr (Nat.dvd_mul_right _ _)
  obtain ⟨k, hk⟩ := hdvd
  refine ⟨direntSz * (m % fs.entriesPerCluster) / fs.bytesPerSector, k,
    Nat.div_lt_of_lt_mul (by rwa [Nat.mul_comm fs.bytesPerSector]), ?_, ?_⟩
  · rw [← hk]
    exact Nat.mod_lt _ hw.sector_pos
  · rw [← hk, Nat.add_assoc, Nat.mul_comm (_ / _), Nat.div_add_mod]
    exact h.marker

theorem RootDirectory.returns (h : RootDirectory fs dev m) (hw : fs.WholeSectors) {fuel j : ℕ}
    (hj : j ≤ m / fs.entriesPerCluster) (hfuel : m / fs.entriesPerCluster < j + fuel) (mem : Bytes) :
    (fat32FindFileFrom fs dev buf filename fuel (fs.chain dev fs.rootDirStartCluster j) mem).isSome = true := by
  induction fuel generalizing j mem with
  | zero => omega
  | succ fuel ih =>
    rw [fat32FindFileFrom]
    split
    · rfl
    · next mem' hscan =>
      rcases Nat.lt_or_eq_of_le hj with hbefore | rfl
      · have hbelow := h.below (j + 1) hbefore
        have hnext : fat32IsLastClusterInFile
            (fs.fatEntry dev (fs.chain dev fs.rootDirStartCluster j)) = false := by
          have hlast := hbelow.not_last hw
          rw [fat32IsLastClusterInFile, hbelow.mask hw] at hlast
          exact hlast
        dsimp only
        rw [(h.below j hj).copyFatSector hw, (h.below j hj).le32_fatSector hw fun i => buffered_of_lt, hnext]
        exact ih hbefore (by omega) _
      · obtain ⟨sector, k, hsector, hk, hend⟩ := h.marker_sector hw
        have hsome := @scanCluster_isSome fs dev filename buf hw _ sector k fs.sectorsPerCluster
          (h.below _ le_rfl) hk hend 0 (by omega) (by omega) (by omega) mem
        rw [hscan] at hsome
        cases hsome

def Fat32Desc.firstSector (fs : Fat32Desc) (dev mem : Bytes) (buf : ℕ) : Bytes :=
  buffered dev mem buf (fs.clusterStart fs.rootDirStartCluster) fs.bytesPerSector

/-- The first of the entries of this memory that the loop looks at and that stops it decides. -/
theorem RootDirectory.stopped (h : RootDirectory fs dev m) (hw : fs.WholeSectors)
    (hk : k < fs.fatEntriesPerSector)
    (hstop : stopsAt filename (fs.firstSector dev mem buf) (buf + direntSz * k) = true)
    (hfirst : ∀ j < k, stopsAt filename (fs.firstSector dev mem buf) (buf + direntSz * j) = false) :
    fat32FindFileFrom fs dev buf filename (fuel + 1) fs.rootDirStartCluster mem =
      some (fs.firstSector dev mem buf, resultAt (fs.firstSector dev mem buf) (buf + direntSz * k)) := by
  have hfind : (List.range' 0 fs.fatEntriesPerSector).find?
      (fun k => stopsAt filename (fs.firstSector dev mem buf) (buf + direntSz * k)) = some k := by
    rw [← List.range_eq_range']
    apply List.find?_range_eq_some.mpr
    refine ⟨hstop, List.mem_range.mpr hk, ?_⟩
    intro j hj
    rw [hfirst j hj]
    rfl
  have hbelow : fs.Below fs.rootDirStartCluster := h.below 0 (Nat.zero_le _)
  have hcopy : copyBytes dev mem buf
      (Word.add 64 (fs.clusterDataOffsetBytes fs.rootDirStartCluster) (0 * fs.bytesPerSector) % 2 ^ 32)
      fs.bytesPerSector = fs.firstSector dev mem buf := by
    rw [hbelow.copySector hw h.cluster_pos, Nat.zero_mul, Nat.add_zero]
    rfl
  obtain ⟨n, hn⟩ := Nat.exists_eq_add_one_of_ne_zero h.cluster_pos.ne'
  have hscan : scanCluster fs dev buf filename fs.rootDirStartCluster fs.sectorsPerCluster 0 mem =
      (fs.firstSector dev mem buf,
        some (resultAt (fs.firstSector dev mem buf) (buf + direntSz * k))) := by
    rw [hn, scanCluster, hcopy, scanSector_eq, hfind]
    rfl
  rw [fat32FindFileFrom, hscan]

theorem RootDirectory.firstSector_entry (h : RootDirectory fs dev m) (hw : fs.WholeSectors)
    (hk : direntSz * k < fs.bytesPerSector) :
    stopsAt filename (fs.firstSector dev mem buf) (buf + direntSz * k) =
        stopsAt filename dev (fs.entryOffset dev k) ∧
      resultAt (fs.firstSector dev mem buf) (buf + direntSz * k) = resultAt dev (fs.entryOffset dev k) := by
  obtain ⟨hsector, hcluster⟩ := hw.entries
  have hle : fs.bytesPerSector ≤ fs.clusterBytes := Nat.le_mul_of_pos_left _ h.cluster_pos
  have hlt : k < fs.entriesPerCluster :=
    (Nat.mul_lt_mul_left (by decide)).mp (hcluster ▸ hk.trans_le hle)
  have hoffset : fs.entryOffset dev k = fs.clusterStart fs.rootDirStartCluster + direntSz * k := by
    rw [entryOffset, Nat.div_eq_of_lt hlt, Nat.mod_eq_of_lt hlt]
    rfl
  rw [hoffset]
  exact buffered_entry hsector hk

theorem stopsAt_entry_iff : stopsAt filename dev (fs.entryOffset dev k) = true ↔
      dev (fs.entryOffset dev k) = 0 ∨ fs.named dev filename k = true := by
  simp [stopsAt, named]

/-- The entry that ends a search through the directory has the stored size. -/
theorem RootDirectory.storedSize_eq (h : RootDirectory fs dev m)
    (hstop : stopsAt filename dev (fs.entryOffset dev k) = true)
    (hfirst : ∀ j < k, stopsAt filename dev (fs.entryOffset dev j) = false) :
    (resultAt dev (fs.entryOffset dev k)).map Fat32FileDesc.fileSzBytes = fs.storedSize dev filename m := by
  have hbefore : ∀ j < k, dev (fs.entryOffset dev j) ≠ 0 ∧ fs.named dev filename j = false := by
    intro j hj
    have hj := hfirst j hj
    rw [← Bool.not_eq_true, stopsAt_entry_iff, not_or] at hj
    exact ⟨hj.1, Bool.not_eq_true _ ▸ hj.2⟩
  have hle : k ≤ m := by
    by_contra hlt
    exact (hbefore m (by omega)).1 h.marker
  rw [storedSize, resultAt]
  split_ifs with hend
  · obtain rfl : k = m := by
      by_contra hne
      exact h.first k (by omega) hend
    have hnone : (List.range k).find? (fs.named dev filename) = none := by
      apply List.find?_eq_none.mpr
      intro j hj
      rw [(hbefore j (List.mem_range.mp hj)).2]
      exact Bool.false_ne_true
    rw [hnone]
    rfl
  · have hlt : k < m := by
      apply Nat.lt_of_le_of_ne hle
      rintro rfl
      exact hend h.marker
    have hsome : (List.range m).find? (fs.named dev filename) = some k := by
      apply List.find?_range_eq_some.mpr
      refine ⟨(stopsAt_entry_iff.mp hstop).resolve_left hend, List.mem_range.mpr hlt, ?_⟩
      intro j hj
      rw [(hbefore j hj).2]
      rfl
    rw [hsome]
    rfl

/-- Behind the sector the loop finds what was in memory before. -/
theorem firstSector_behind (hw : fs.WholeSectors) {tail : Bytes} :
    stopsAt filename (fs.firstSector dev (fun a => tail (a - (buf + fs.bytesPerSector))) buf)
        (buf + direntSz * (fs.bytesPerSector / direntSz)) = stopsAt filename tail 0 ∧
      resultAt (fs.firstSector dev (fun a => tail (a - (buf + fs.bytesPerSector))) buf)
        (buf + direntSz * (fs.bytesPerSector / direntSz)) = resultAt tail 0 := by
  apply dirent_congr
  intro i hi
  rw [Nat.mul_div_cancel' (Nat.dvd_of_mod_eq_zero hw.entries.1), firstSector, buffered,
    memcpy_of_not_mem (by omega)]
  congr 1
  omega

def namedEntry (filename : Bytes) : Bytes := fun i => if i < 11 then filename i else 0

theorem stopsAt_namedEntry {filename : Bytes} (hname : filename 0 ≠ 0) (hlive : filename 0 ≠ 0xE5) :
    stopsAt filename (namedEntry filename) 0 = true ∧ (resultAt (namedEntry filename) 0).isSome = true := by
  have hzero : namedEntry filename 0 = filename 0 := rfl
  have hmatch : matchesName filename (Dirent.read (namedEntry filename) 0) = true := by
    rw [matchesName, beq_iff_eq]
    apply List.map_congr_left
    intro i hi
    exact (if_pos (List.mem_range.mp hi)).symm
  constructor
  · simp [stopsAt, hzero, hlive, hmatch]
  · rw [resultAt, if_neg (hzero ▸ hname)]
    rfl

section Result
variable {part : MbrPartition}

/-- A name that starts like a deleted entry is not found, whatever is in memory. -/
theorem RootDirectory.deletedName (h : RootDirectory fs dev m) (hw : fs.WholeSectors)
    (hfuel : m / fs.entriesPerCluster < fuel) (hdeleted : filename 0 = 0xE5) (mem : Bytes) :
    ∃ mem', fat32FindFileFrom fs dev buf filename fuel fs.rootDirStartCluster mem = some (mem', none) := by
  have hsome := @RootDirectory.returns fs dev filename buf m h hw fuel 0 (Nat.zero_le _) (by omega) mem
  obtain ⟨⟨mem', r⟩, hr⟩ := Option.isSome_iff_exists.mp hsome
  cases r with
  | none => exact ⟨mem', hr⟩
  | some fd =>
    obtain ⟨k, hfound, -⟩ := fat32FindFileFrom_found hr
    have hmatch := hfound.name
    rw [matchesName, beq_iff_eq] at hmatch
    have hfirst : filename 0 = mem' (buf + direntSz * k) := (List.cons.inj hmatch).1
    exact absurd (hfirst.symm.trans hdeleted) hfound.live

theorem Fat32Desc.storedSize_deletedName (hdeleted : filename 0 = 0xE5) :
    fs.storedSize dev filename m = none := by
  have hnone : (List.range m).find? (fs.named dev filename) = none := by
    apply List.find?_eq_none.mpr
    intro k _ hnamed
    rw [named, Bool.and_eq_true, bne_iff_ne, matchesName, beq_iff_eq] at hnamed
    have hfirst : filename 0 = dev (fs.entryOffset dev k) := (List.cons.inj hnamed.2).1
    exact hnamed.1 (hfirst.symm.trans hdeleted)
  rw [storedSize, hnone]
  rfl

/-- Otherwise the loop would look at an entry behind the sector, which can be an end marker or have the
name. -/
theorem RootDirectory.stops_in_first (h : RootDirectory fs dev m) (hw : fs.WholeSectors)
    (hname : filename 0 ≠ 0) (hlive : filename 0 ≠ 0xE5) {r : Option Fat32FileDesc} (hr : ∀ mem, ∃ mem',
      fat32FindFileFrom fs dev buf filename (fuel + 1) fs.rootDirStartCluster mem = some (mem', r)) :
    ∃ k, direntSz * k < fs.bytesPerSector ∧ stopsAt filename dev (fs.entryOffset dev k) = true := by
  by_contra hno
  have hge := hw.sector_ge
  have hearly : ∀ mem, ∀ j < fs.bytesPerSector / direntSz,
      stopsAt filename (fs.firstSector dev mem buf) (buf + direntSz * j) = false := by
    intro mem j hj
    have hj : direntSz * j < fs.bytesPerSector := by
      rw [direntSz] at *
      omega
    rw [(h.firstSector_entry hw hj).1, ← Bool.not_eq_true]
    exact fun hstop => hno ⟨j, hj, hstop⟩
  have hbehind : fs.bytesPerSector / direntSz < fs.fatEntriesPerSector := by
    rw [direntSz, Fat32Desc.fatEntriesPerSector]
    omega
  have hresult : ∀ tail, stopsAt filename tail 0 = true → r = resultAt tail 0 := by
    intro tail hstop
    obtain ⟨hstops, hresult⟩ := @firstSector_behind fs dev filename buf hw tail
    obtain ⟨mem', hmem'⟩ := hr fun a => tail (a - (buf + fs.bytesPerSector))
    rw [h.stopped hw hbehind (hstops.trans hstop) (hearly _), hresult] at hmem'
    exact (Prod.mk.inj (Option.some.inj hmem')).2.symm
  obtain ⟨hstop, hsome⟩ := stopsAt_namedEntry hname hlive
  have hzero : r = none := hresult (fun _ => 0) rfl
  rw [← hresult _ hstop, hzero] at hsome
  cases hsome

/-- An entry of the first sector that stops the loop decides the result for every memory. -/
theorem RootDirectory.found_in_first (h : RootDirectory fs dev m) (hw : fs.WholeSectors) {k : ℕ}
    (hk : direntSz * k < fs.bytesPerSector) (hstop : stopsAt filename dev (fs.entryOffset dev k) = true)
    (hfirst : ∀ j < k, stopsAt filename dev (fs.entryOffset dev j) = false) (mem : Bytes) :
    fat32FindFileFrom fs dev buf filename (fuel + 1) fs.rootDirStartCluster mem =
      some (fs.firstSector dev mem buf, resultAt dev (fs.entryOffset dev k)) := by
  have hentry := fun j (hj : direntSz * j < fs.bytesPerSector) =>
    @RootDirectory.firstSector_entry fs dev filename mem buf m j h hw hj
  rw [← (hentry k hk).2]
  apply h.stopped hw
  · have hge := hw.sector_ge
    rw [direntSz] at hk
    rw [Fat32Desc.fatEntriesPerSector]
    omega
  · rw [(hentry k hk).1, hstop]
  · intro j hj
    rw [(hentry j ((Nat.mul_le_mul_left _ hj.le).trans_lt hk)).1, hfirst j hj]

/-- The result is the one of the directory whatever was in memory exactly if an entry of the first sector
ends the search, or the name starts like a deleted entry. -/
theorem fat32FindFile_iff (hparse : fat32ParsePartition dev part maxLogicalSectorSz = some fs)
    (hpow : ∃ e, fs.bytesPerSector = 2 ^ e) (h : RootDirectory fs dev m)
    (hname : ∀ i < 11, filename i ≠ 0) (hterminator : filename 11 = 0)
    (hfuel : m / fs.entriesPerCluster < fuel) :
    (∃ r, (∀ mem, ∃ mem', fat32FindFile fs dev buf filename fuel mem = some (mem', r)) ∧
        r.map Fat32FileDesc.fileSzBytes = fs.storedSize dev filename m) ↔
      (∃ k, direntSz * k < fs.bytesPerSector ∧
          (dev (fs.entryOffset dev k) = 0 ∨ fs.named dev filename k = true)) ∨
        filename 0 = 0xE5 := by
  have hw := (fat32ParsePartition_spec hparse).wholeSectors hpow h.cluster_pos
  have hcall : ∀ mem, fat32FindFile fs dev buf filename fuel mem =
      fat32FindFileFrom fs dev buf filename fuel fs.rootDirStartCluster mem := by
    intro mem
    rw [fat32FindFile, if_neg (not_not.mpr hterminator)]
  simp only [hcall, ← stopsAt_entry_iff]
  obtain ⟨fuel', rfl⟩ := Nat.exists_eq_add_one_of_ne_zero (Nat.ne_zero_of_lt hfuel)
  constructor
  · rintro ⟨r, hr, -⟩
    by_cases hdeleted : filename 0 = 0xE5
    · exact .inr hdeleted
    · exact .inl (h.stops_in_first hw (hname 0 (by omega)) hdeleted hr)
  · rintro (hex | hdeleted)
    · obtain ⟨hk, hstop⟩ := Nat.find_spec hex
      have hfirst : ∀ j < Nat.find hex, stopsAt filename dev (fs.entryOffset dev j) = false := by
        intro j hj
        rw [← Bool.not_eq_true]
        exact fun hstop => Nat.find_min hex hj ⟨(Nat.mul_le_mul_left _ hj.le).trans_lt hk, hstop⟩
      exact ⟨_, fun mem => ⟨_, h.found_in_first hw hk hstop hfirst mem⟩, h.storedSize_eq hstop hfirst⟩
    · exact ⟨none, h.deletedName hw hfuel hdeleted,
        (Fat32Desc.storedSize_deletedName hdeleted).symm⟩

end Result

def cString (chars : List Char) : Bytes := fun i => UInt8.ofNat ((chars.map Char.toNat).getD i 0)

def kernelName : Bytes := cString ['K', 'E', 'R', 'N', 'E', 'L', ' ', ' ', 'B', 'I', 'N']

def kernelEntry (c : ℕ) : Bytes := fun i =>
  match i with
  | 20 => UInt8.ofNat (c / 2 ^ 16)
  | 21 => UInt8.ofNat (c / 2 ^ 24)
  | 26 => UInt8.ofNat c
  | 27 => UInt8.ofNat (c / 2 ^ 8)
  | 28 => 0x88
  | 29 => 0x13
  | i => if i < 11 then kernelName i else 0

/-- A disk whose root directory has `n` entries of other files before the one of the kernel. -/
def kernelDisk (n c : ℕ) : Bytes := fun a =>
  if a < 86016 then volumeDisk 512 a
  else if a < 86016 + 32 * n then 0x41
  else if a < 86016 + 32 * (n + 1) then kernelEntry c (a - (86016 + 32 * n))
  else 0

theorem kernelDisk_rootDirectory {n c : ℕ} (hn : n < 127) :
    RootDirectory bootVolume (kernelDisk n c) (n + 1) := by
  have hN : bootVolume.entriesPerCluster = 128 := rfl
  have hoffset : ∀ k < 128, bootVolume.entryOffset (kernelDisk n c) k = 86016 + 32 * k := by
    intro k hk
    rw [entryOffset, hN, Nat.div_eq_of_lt hk, Nat.mod_eq_of_lt hk]
    rfl
  constructor
  case cluster_pos => decide
  case below =>
    intro j hj
    obtain rfl : j = 0 := by
      rw [hN] at hj
      omega
    have hbelow : bootVolume.Below 2 := ⟨by decide, by decide, by decide⟩
    exact hbelow
  case marker =>
    rw [hoffset _ (by omega), kernelDisk, if_neg (by omega), if_neg (by omega), if_neg (by omega)]
  case first =>
    intro k hk
    rw [hoffset _ (by omega), kernelDisk, if_neg (by omega)]
    rcases Nat.lt_or_eq_of_le (Nat.le_of_lt_succ hk) with hother | rfl
    · rw [if_pos (by omega)]
      decide
    · have hname : kernelEntry c 0 = 0x4B := rfl
      rw [if_neg (by omega), if_pos (by omega), Nat.sub_self, hname]
      decide

/-- The kernel's entry is the first one. -/
theorem fat32FindFile_firstEntry :
    ∃ r, (∀ mem, ∃ mem', fat32FindFile bootVolume (kernelDisk 0 3) 0x8000 kernelName 1 mem =
        some (mem', r)) ∧ r.map Fat32FileDesc.fileSzBytes = some 5000 := by
  have hparse : fat32ParsePartition (kernelDisk 0 3) partitionAt8 maxLogicalSectorSz = some bootVolume := by
    decide +kernel
  exact (fat32FindFile_iff hparse ⟨9, rfl⟩ (kernelDisk_rootDirectory (by omega))
    (by decide) rfl (by decide)).mpr (.inl ⟨0, by decide, .inr (by decide +kernel)⟩)

/-- The kernel's entry is the first one of the second sector. With zeros in memory it is not found. -/
theorem fat32FindFile_secondSector :
    fat32ParsePartition (kernelDisk 16 3) partitionAt8 maxLogicalSectorSz = some bootVolume ∧
      RootDirectory bootVolume (kernelDisk 16 3) 17 ∧
      bootVolume.storedSize (kernelDisk 16 3) kernelName 17 = some 5000 ∧
      ∃ mem', fat32FindFile bootVolume (kernelDisk 16 3) 0x8000 kernelName 1 (fun _ => 0) =
        some (mem', none) := by
  have hw : bootVolume.WholeSectors := ⟨by decide, by decide, by decide, by decide, by decide⟩
  have hroot := @kernelDisk_rootDirectory 16 3 (by omega)
  refine ⟨by decide +kernel, hroot, by decide +kernel,
    bootVolume.firstSector (kernelDisk 16 3) (fun _ => 0) 0x8000, ?_⟩
  -- the seventeenth entry is in the zeros behind the sector
  exact @RootDirectory.stopped _ _ kernelName (fun _ => 0) 0x8000 17 16 0 hroot hw (by decide)
    (by decide +kernel) (by decide +kernel)

end HmmOS.Boot
