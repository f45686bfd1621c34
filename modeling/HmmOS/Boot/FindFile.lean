import HmmOS.Boot.CopyBytes
import HmmOS.Fs.Directory

/-! # Finding the kernel

Memory is passed along, because the loop over entries goes further than the sector
in the buffer.
-/
namespace HmmOS.Boot
open Lib Nonstd Fs

def fileDescOf (d : Dirent) : Fat32FileDesc where
  startCluster := (d.clusterHi <<< 2) ||| d.clusterLo
  fileSzBytes := d.fileSzBytes

section FindFile
variable (fs : Fat32Desc) (dev : Bytes) (buf : ℕ) (filename : Bytes)

def matchesName (d : Dirent) : Bool := (List.range 11).map filename == d.shortName

/-- The loop over entries, with `n` entries to go: the result of the function, if it returns. -/
def scanSector (mem : Bytes) : ℕ → ℕ → Option (Option Fat32FileDesc)
  | 0, _ => none
  | n + 1, it =>
    let a := buf + direntSz * it
    if mem a = 0 then some none
    else if mem a = 0xE5 then scanSector mem n (it + 1)
    else if matchesName filename (Dirent.read mem a) then some (some (fileDescOf (Dirent.read mem a)))
    else scanSector mem n (it + 1)

/-- The loop over the sectors of a cluster, with `n` sectors to go. -/
def scanCluster (cluster : ℕ) : ℕ → ℕ → Bytes → Bytes × Option (Option Fat32FileDesc)
  | 0, _, mem => (mem, none)
  | n + 1, sector, mem =>
    let diskAddr :=
      Word.add 64 (fs.clusterDataOffsetBytes cluster) (sector * fs.bytesPerSector) % 2 ^ 32
    let mem := copyBytes dev mem buf diskAddr fs.bytesPerSector
    match scanSector buf filename mem fs.fatEntriesPerSector 0 with
    | some r => (mem, some r)
    | none => scanCluster cluster n (sector + 1) mem

/-- `_fat32_find_file` in at most `fuel` clusters, with the memory at the end. -/
def fat32FindFileFrom : ℕ → ℕ → Bytes → Option (Bytes × Option Fat32FileDesc)
  | 0, _, _ => none
  | fuel + 1, curRootDirCluster, mem =>
    match scanCluster fs dev buf filename curRootDirCluster fs.sectorsPerCluster 0 mem with
    | (mem, some r) => some (mem, r)
    | (mem, none) =>
      let fatSector := curRootDirCluster / fs.fatEntriesPerSector
      let mem := copyBytes dev mem buf (fs.fatSectorPosition fatSector) fs.bytesPerSector
      let nextCluster := le32 mem (buf + 4 * (curRootDirCluster % fs.fatEntriesPerSector))
      if fat32IsLastClusterInFile nextCluster then none
      else fat32FindFileFrom fuel (fat32MaskEntry nextCluster) mem

def fat32FindFile (fuel : ℕ) (mem : Bytes) : Option (Bytes × Option Fat32FileDesc) :=
  if filename 11 ≠ 0 then none
  else fat32FindFileFrom fs dev buf filename fuel fs.rootDirStartCluster mem

end FindFile

section Scan
variable {buf : ℕ} {filename mem : Bytes} {n it : ℕ}

/-- The loop returns at an entry that is an end marker or has the name. -/
def stopsAt (filename mem : Bytes) (a : ℕ) : Bool :=
  mem a == 0 || (mem a != 0xE5 && matchesName filename (Dirent.read mem a))

def resultAt (mem : Bytes) (a : ℕ) : Option Fat32FileDesc :=
  if mem a = 0 then none else some (fileDescOf (Dirent.read mem a))

theorem scanSector_eq (buf : ℕ) (filename mem : Bytes) (n it : ℕ) : scanSector buf filename mem n it =
      ((List.range' it n).find? fun k => stopsAt filename mem (buf + direntSz * k)).map fun k =>
        resultAt mem (buf + direntSz * k) := by
  induction n generalizing it with
  | zero => rfl
  | succ n ih =>
    rw [scanSector, List.range'_succ, List.find?_cons, ih]
    split_ifs with hend hdeleted hname
    · have hstop : stopsAt filename mem (buf + direntSz * it) = true := by simp [stopsAt, hend]
      rw [hstop, Option.map_some, resultAt, if_pos hend]
    · have hstop : stopsAt filename mem (buf + direntSz * it) = false := by simp [stopsAt, hdeleted]
      rw [hstop]
    · have hstop : stopsAt filename mem (buf + direntSz * it) = true := by
        simp [stopsAt, hname, hdeleted]
      rw [hstop, Option.map_some, resultAt, if_neg hend]
    · have hstop : stopsAt filename mem (buf + direntSz * it) = false := by simp [stopsAt, hend, hname]
      rw [hstop]

structure FoundAt (buf : ℕ) (filename mem : Bytes) (k : ℕ) : Prop where
  first : ∀ j < k, stopsAt filename mem (buf + direntSz * j) = false
  nonzero : mem (buf + direntSz * k) ≠ 0
  live : mem (buf + direntSz * k) ≠ 0xE5
  name : matchesName filename (Dirent.read mem (buf + direntSz * k)) = true

theorem scanSector_found {fd : Fat32FileDesc} (h : scanSector buf filename mem n 0 = some (some fd)) :
    ∃ k, FoundAt buf filename mem k ∧ fd = fileDescOf (Dirent.read mem (buf + direntSz * k)) := by
  rw [scanSector_eq, ← List.range_eq_range'] at h
  obtain ⟨k, hfind, hresult⟩ := Option.map_eq_some_iff.mp h
  obtain ⟨hstop, -, hfirst⟩ := List.find?_range_eq_some.mp hfind
  rw [resultAt] at hresult
  split_ifs at hresult with hend
  simp only [stopsAt, Bool.or_eq_true, beq_iff_eq, Bool.and_eq_true, bne_iff_ne, hend, false_or]
    at hstop
  refine ⟨k, ⟨?_, hend, hstop.1, hstop.2⟩, (Option.some.inj hresult).symm⟩
  intro j hj
  exact Bool.not_eq_true' _ ▸ hfirst j hj

theorem scanSector_isSome {k : ℕ} (hit : it ≤ k) (hk : k < it + n) (hend : mem (buf + direntSz * k) = 0) :
    (scanSector buf filename mem n it).isSome = true := by
  rw [scanSector_eq, Option.isSome_map, List.find?_isSome]
  refine ⟨k, List.mem_range'_1.mpr ⟨hit, hk⟩, ?_⟩
  simp [stopsAt, hend]

end Scan

section Search
variable {fs : Fat32Desc} {dev : Bytes} {buf : ℕ} {filename mem mem' : Bytes} {fd : Fat32FileDesc}

theorem scanCluster_found {cluster n sector : ℕ}
    (h : scanCluster fs dev buf filename cluster n sector mem = (mem', some (some fd))) :
    ∃ k, FoundAt buf filename mem' k ∧ fd = fileDescOf (Dirent.read mem' (buf + direntSz * k)) := by
  induction n generalizing sector mem with
  | zero => simp [scanCluster] at h
  | succ n ih =>
    rw [scanCluster] at h
    split at h
    · next r hscan =>
      obtain ⟨rfl, hr⟩ := Prod.mk.inj h
      obtain rfl := Option.some.inj hr
      exact scanSector_found hscan
    · exact ih h

theorem fat32FindFileFrom_found {fuel cluster : ℕ}
    (h : fat32FindFileFrom fs dev buf filename fuel cluster mem = some (mem', some fd)) :
    ∃ k, FoundAt buf filename mem' k ∧ fd = fileDescOf (Dirent.read mem' (buf + direntSz * k)) := by
  induction fuel generalizing cluster mem with
  | zero => cases h
  | succ fuel ih =>
    rw [fat32FindFileFrom] at h
    split at h
    · next m r hscan =>
      obtain ⟨rfl, rfl⟩ := Prod.mk.inj (Option.some.inj h)
      exact scanCluster_found hscan
    · dsimp only at h
      split_ifs at h
      exact ih h

end Search

end HmmOS.Boot
