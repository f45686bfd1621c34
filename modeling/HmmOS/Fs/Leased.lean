import HmmOS.Boot.BootPartition
import HmmOS.Fs.Directory
import HmmOS.Lib.Interaction

/-! # Leases of pages

A `VirtLease` maps a page of the page cache at a window of the kernel until it is
destroyed. Here the functions of the drivers are programs that say when they take and
drop leases; run on a device they compute what the functions of the other modules do.
-/
namespace HmmOS.Fs
open Lib Nonstd Util.Algorithm

/-- The sector is the one that the driver is after, in exact arithmetic; an offset that `get_dev_offset`
rejects has none. -/
structure Request where
  sector : Option ℤ
  /-- The offset is rounded down to a page. -/
  rounded : Bool
  offset : ℕ
  deriving DecidableEq, Repr

/-- What a program asks of the page cache. -/
inductive Event where
  /-- The constructor of `VirtLease`. -/
  | acquire (r : Request)
  /-- The destructor of `VirtLease`. -/
  | release
  deriving DecidableEq, Repr

abbrev Event.Answer : Event → Type
  | .acquire _ => Bytes
  | .release => Unit

abbrev LeaseM (ε : Type) := Interaction Event Event.Answer ε

/-- The contents of a device, with memory for every page. -/
def Event.answer (dev : Bytes) : ∀ e : Event, Except DirStop e.Answer
  | .acquire r => orAssert (cachePage dev r.offset)
  | .release => .ok ()

namespace Leased
variable {α σ : Type}

/-- Take a lease, read the page and drop the lease. -/
def withLease (r : Request) (f : Bytes → α) : LeaseM DirStop α := do
  let page ← Interaction.call (.acquire r)
  let a := f page
  let _ ← Interaction.call .release
  return a

def findBootPart : LeaseM DirStop (Option Boot.MbrPartitionDesc) :=
  withLease ⟨some 0, false, 0⟩ fun page =>
    (Boot.findBootPartIn page).map fun (i : Fin 4) => Boot.MbrPartitionDesc.read page (0x01BE + 16 * i)

def fromPartition (part : MbrPartition) : LeaseM DirStop Filesystem :=
  let offset := floorPg (Word.mul 32 part.firstSectorLba 512)
  let sectorOff := part.firstSectorLba % (pgSz / 512) * 512
  withLease ⟨some part.firstSectorLba, true, offset⟩ fun page =>
    let vbr := Vbr.read page sectorOff
    { sectorsPerCluster := vbr.sectorsPerCluster
      fatOffsetLba := Word.add 32 part.firstSectorLba vbr.reservedSectors
      dataRegionOffsetLba := Word.add 32 (Word.add 32 part.firstSectorLba vbr.reservedSectors)
        (Word.mul 32 vbr.fats vbr.sectorsPerFat2) }

section Driver
variable (fs : Filesystem)

def fatSector (cluster : ℕ) : ℤ := fs.fatOffsetLba + (maskCluster cluster / fatEntriesPerSector : ℕ)

def dataSector (cluster : ℕ) : ℤ := fs.dataRegionOffsetLba + (cluster - 2 : ℤ) * fs.sectorsPerCluster

def advanceCluster (curCluster : ℕ) : LeaseM DirStop ℕ := do
  let fatIt := fs.getFatSectorForCluster curCluster
  let offset := floorPg (Word.mul 32 fatIt 512)
  let sectorOff := fatIt % (pgSz / 512) * 512
  let nextCluster ← withLease ⟨some (fatSector fs curCluster), true, offset⟩ fun page =>
    maskCluster (le32 page (sectorOff + 4 * (curCluster % fatEntriesPerSector)))
  if isLastClusterInFile nextCluster then .stop .assertion else return nextCluster

def walkClusters : ℕ → ℕ → ℕ → LeaseM DirStop ℕ
  | 0, _, _ => .stop .loops
  | fuel + 1, fileOffset, curCluster =>
    if fileOffset > 0 then do
      let next ← advanceCluster fs curCluster
      walkClusters fuel (Word.sub 64 fileOffset (fs.sectorsPerCluster * 512)) next
    else return curCluster

/-- `get_dev_offset`: what the page cache is asked for next. -/
def getDevOffset (n : Inode) (fileOffset : ℕ) : LeaseM DirStop Request :=
  if ¬ pgAligned fileOffset then return ⟨none, false, badOffset⟩
  else if ¬ pgAligned (fs.sectorsPerCluster * 512) then .stop .assertion
  else if n.isDirectory then return ⟨none, false, badOffset⟩
  else if fileOffset ≥ n.size then return ⟨none, false, badOffset⟩
  else do
    let curCluster ← walkClusters fs (2 ^ 64) fileOffset n.startCluster
    return ⟨some (dataSector fs curCluster), false, Word.mul 32 (fs.startSector curCluster) 512⟩

/-- A `VirtLease` of a page of a file: the leases for the offset are over before it starts. -/
def fileLease (n : Inode) (offset : ℕ) (f : Bytes → α) : LeaseM DirStop α := do
  let r ← getDevOffset fs n offset
  withLease r f

def readPages (n : Inode) (buf : Bytes) (pgIt rval count : ℕ) : LeaseM DirStop (Bytes × ℕ) :=
  if count = 0 then return (buf, rval)
  else do
    let bytesToCopy := min pgSz count
    let buf ← fileLease fs n pgIt fun page => memcpy buf rval page bytesToCopy
    readPages n buf (pgIt + pgSz) (rval + bytesToCopy) (count - bytesToCopy)
termination_by count
decreasing_by
  rw [pgSz_eq]
  omega

/-- `Inode::read` into a buffer of the kernel. -/
def read (n : Inode) (buf : Bytes) (offset count : ℕ) : LeaseM DirStop (Bytes × Except Result ℤ) :=
  if n.isDirectory then return (buf, .error .IsDirectory)
  else if offset ≥ n.size ∨ count = 0 then return (buf, .ok 0)
  else
    let count := min count (Word.sub 32 n.size offset)
    let pgIt := floorPg offset
    let pages : LeaseM DirStop (Bytes × ℕ) :=
      if pgIt ≠ offset then do
        let bytesToCopy := min (pgSz - offset % pgSz) count
        let buf ← fileLease fs n pgIt fun page =>
          memcpy buf 0 (fun i => page (offset % pgSz + i)) bytesToCopy
        readPages fs n buf (pgIt + pgSz) bytesToCopy (count - bytesToCopy)
      else readPages fs n buf pgIt 0 count
    pages >>= fun r => return (r.1, .ok (Int.bmod r.2 (2 ^ 32)))

section Iterate
variable (cb : σ → Dirent → σ × Bool)

/-- The loop of `iterate_dir` over the pages of a cluster; the calls are made while the lease is held. -/
def scanPages (startPg : ℕ) : ℕ → ℤ → ℕ → σ → LeaseM DirStop (σ × Bool)
  | 0, _, _, _ => .stop .loops
  | fuel + 1, sector, pgIt, acc =>
    if pgIt < startPg + fs.sectorsPerCluster * 512 then do
      let x ← withLease ⟨some sector, false, pgIt⟩ fun page =>
        scanEntries cb page fs.dirEntriesPerCluster 0 acc
      let r ← .lift x
      if r.2 then return r
      else scanPages startPg fuel (sector + 8) (Word.add 32 pgIt pgSz) r.1
    else return (acc, false)

def iterateDir (pages : ℕ) : ℕ → ℕ → σ → LeaseM DirStop σ
  | 0, _, _ => .stop .loops
  | fuel + 1, dirCluster, acc =>
    if ¬ pgAligned (fs.sectorsPerCluster * 512) then .stop .assertion
    else do
      let startPg := fs.startSector dirCluster * 512
      let r ← scanPages fs cb startPg pages (dataSector fs dirCluster) (startPg % 2 ^ 32) acc
      if r.2 then return r.1
      else
        let next ← advanceCluster fs dirCluster
        iterateDir pages fuel next r.1

end Iterate

def findDirent (dirCluster : ℕ) (name : Name) : LeaseM DirStop (Option Dirent) :=
  iterateDir fs (matchName name) pageFuel chainFuel dirCluster none

end Driver

section Run
variable (fs : Filesystem) (dev : Bytes)

@[simp] theorem run_withLease (r : Request) (f : Bytes → α) :
    (withLease r f).run (Event.answer dev) = orAssert ((cachePage dev r.offset).map f) := by
  rw [withLease, Interaction.run_bind, Interaction.run_call, Event.answer]
  cases cachePage dev r.offset with
  | none => rfl
  | some page => rfl

@[simp] theorem run_advanceCluster (c : ℕ) :
    (advanceCluster fs c).run (Event.answer dev) = orAssert (fs.advanceCluster dev c) := by
  rw [advanceCluster, Interaction.run_bind, run_withLease, Filesystem.advanceCluster]
  cases cachePage dev (floorPg (Word.mul 32 (fs.getFatSectorForCluster c) 512)) with
  | none => rfl
  | some page =>
    simp only [Option.map_some, Option.bind_some, orAssert, ok_bind]
    split_ifs <;> rfl

theorem run_walkClusters (fuel off c : ℕ) :
    ((walkClusters fs fuel off c).run (Event.answer dev)).toOption = fs.walkClusters dev fuel off c := by
  induction fuel generalizing off c with
  | zero => rfl
  | succ fuel ih =>
    rw [walkClusters, Filesystem.walkClusters]
    split_ifs
    · rw [Interaction.run_bind, run_advanceCluster]
      cases fs.advanceCluster dev c with
      | none => rfl
      | some next => exact ih _ next
    · rfl

theorem toOption_orAssert (x : Option α) : (orAssert x).toOption = x := by
  cases x with
  | none => rfl
  | some a => rfl

theorem run_getDevOffset (n : Inode) (off : ℕ) :
    ((getDevOffset fs n off).run (Event.answer dev)).toOption.map Request.offset =
      n.getDevOffset fs dev off := by
  rw [getDevOffset, Inode.getDevOffset]
  split_ifs
  · rfl
  · rfl
  · rw [Interaction.run_bind, toOption_bind, run_walkClusters, Option.map_bind]
    cases fs.walkClusters dev (2 ^ 64) off n.startCluster with
    | none => rfl
    | some c => rfl
  · rfl
  · rfl

theorem run_fileLease (n : Inode) (off : ℕ) (f : Bytes → α) :
    ((fileLease fs n off f).run (Event.answer dev)).toOption = (n.lease fs dev off).map f := by
  rw [fileLease, Inode.lease, ← run_getDevOffset, Interaction.run_bind, toOption_bind]
  cases (getDevOffset fs n off).run (Event.answer dev) with
  | error e => rfl
  | ok r =>
    rw [Except.toOption, Option.bind_some, run_withLease, toOption_orAssert, Option.map_some, Option.bind_some]

theorem run_readPages (n : Inode) (buf : Bytes) (pgIt rval count : ℕ) :
    ((readPages fs n buf pgIt rval count).run (Event.answer dev)).toOption =
      n.readPages fs dev buf pgIt rval count := by
  induction count using Nat.strong_induction_on generalizing buf pgIt rval with
  | _ count ih =>
    rw [readPages, Inode.readPages]
    split_ifs with hcount
    · rfl
    · have hless : count - min pgSz count < count := by
        rw [pgSz_eq]
        omega
      rw [Interaction.run_bind, toOption_bind, run_fileLease, Option.bind_map]
      apply Option.bind_congr
      intro page _
      exact ih _ hless _ _ _

theorem run_read (n : Inode) (buf : Bytes) (off count : ℕ) :
    ((read fs n buf off count).run (Event.answer dev)).toOption = n.read fs dev buf off count := by
  rw [read, Inode.read]
  split_ifs with hdir hnone
  · rfl
  · rfl
  · simp only [Interaction.run_bind, toOption_bind]
    split_ifs with hpage
    · rw [Interaction.run_bind, toOption_bind, run_fileLease, Option.bind_map]
      cases n.lease fs dev (floorPg off) with
      | none => rfl
      | some page =>
        rw [Option.bind_some, Option.bind_some, Function.comp_apply, run_readPages]
        cases n.readPages fs dev _ _ _ _ with
        | none => rfl
        | some r => rfl
    · rw [run_readPages]
      cases n.readPages fs dev _ _ _ _ with
      | none => rfl
      | some r => rfl

section Iterate
variable (cb : σ → Dirent → σ × Bool)

theorem run_scanPages (startPg fuel : ℕ) (sector : ℤ) (pgIt : ℕ) (acc : σ) :
    (scanPages fs cb startPg fuel sector pgIt acc).run (Event.answer dev) =
      fs.scanPages dev cb startPg fuel pgIt acc := by
  induction fuel generalizing sector pgIt acc with
  | zero => rfl
  | succ fuel ih =>
    rw [scanPages, Filesystem.scanPages]
    split_ifs with hpage
    · rw [Interaction.run_bind, run_withLease]
      cases cachePage dev pgIt with
      | none => rfl
      | some page =>
        simp only [Option.map_some, orAssert, ok_bind, Interaction.run_bind, Interaction.run_lift]
        apply bind_congr
        intro r
        split_ifs
        · rfl
        · exact ih _ _ _
    · rfl

theorem run_iterateDir (pages fuel c : ℕ) (acc : σ) :
    (iterateDir fs cb pages fuel c acc).run (Event.answer dev) = fs.iterateDir dev cb pages fuel c acc := by
  induction fuel generalizing c acc with
  | zero => rfl
  | succ fuel ih =>
    rw [iterateDir, Filesystem.iterateDir]
    split_ifs with hassert
    · simp only [Interaction.run_bind, run_scanPages]
      apply bind_congr
      intro r
      split_ifs
      · rfl
      · rw [Interaction.run_bind, run_advanceCluster]
        apply bind_congr
        intro next
        exact ih _ _
    · rfl

end Iterate

theorem run_findDirent (c : ℕ) (name : Name) :
    (findDirent fs c name).run (Event.answer dev) = fs.findDirent dev c name :=
  run_iterateDir fs dev (matchName name) pageFuel chainFuel c none

end Run

section Window
variable (fs : Filesystem)

/-- Leases share one window of the kernel, where the constructor of another one would fail. -/
def window (held : Bool) : Event → Option Bool
  | .acquire _ => if held then none else some true
  | .release => if held then some false else none

/-- The window is free before and after, and at no time asked for twice. -/
abbrev OneLease (p : LeaseM DirStop α) : Prop := p.Keeps window false false

theorem withLease_one (r : Request) (f : Bytes → α) : OneLease (withLease r f) :=
  ⟨true, rfl, fun _ => ⟨false, rfl, fun _ => rfl⟩⟩

theorem advanceCluster_one (c : ℕ) : OneLease (advanceCluster fs c) := by
  refine (withLease_one _ _).bind fun next => ?_
  split_ifs
  · trivial
  · rfl

theorem walkClusters_one (fuel off c : ℕ) : OneLease (walkClusters fs fuel off c) := by
  induction fuel generalizing off c with
  | zero => trivial
  | succ fuel ih =>
    rw [walkClusters]
    split_ifs
    · exact (advanceCluster_one fs c).bind fun next => ih _ next
    · rfl

theorem getDevOffset_one (n : Inode) (off : ℕ) : OneLease (getDevOffset fs n off) := by
  rw [getDevOffset]
  split_ifs
  · rfl
  · rfl
  · exact (walkClusters_one fs _ _ _).bind fun _ => rfl
  · trivial
  · rfl

theorem fileLease_one (n : Inode) (off : ℕ) (f : Bytes → α) : OneLease (fileLease fs n off f) :=
  (getDevOffset_one fs n off).bind fun r => withLease_one r f

theorem readPages_one (n : Inode) (buf : Bytes) (pgIt rval count : ℕ) :
    OneLease (readPages fs n buf pgIt rval count) := by
  fun_induction readPages fs n buf pgIt rval count with
  | case1 => rfl
  | case2 buf pgIt rval count hcount bytes ih => exact (fileLease_one fs n pgIt _).bind fun buf => ih buf

theorem read_one (n : Inode) (buf : Bytes) (off count : ℕ) : OneLease (read fs n buf off count) := by
  rw [read]
  split_ifs
  · rfl
  · rfl
  · refine Interaction.Keeps.bind (t := false) ?_ fun _ => rfl
    split_ifs
    · exact (fileLease_one fs n _ _).bind fun buf => readPages_one fs n buf _ _ _
    · exact readPages_one fs n _ _ _ _

theorem scanPages_one (cb : σ → Dirent → σ × Bool) (startPg fuel : ℕ) (sector : ℤ) (pgIt : ℕ) (acc : σ) :
    OneLease (scanPages fs cb startPg fuel sector pgIt acc) := by
  induction fuel generalizing sector pgIt acc with
  | zero => trivial
  | succ fuel ih =>
    rw [scanPages]
    split_ifs
    · refine (withLease_one _ _).bind fun x => ?_
      cases x with
      | error e => trivial
      | ok r =>
        change OneLease (if r.2 then pure r else _)
        split_ifs
        · rfl
        · exact ih _ _ _
    · rfl

theorem iterateDir_one (cb : σ → Dirent → σ × Bool) (pages fuel c : ℕ) (acc : σ) :
    OneLease (iterateDir fs cb pages fuel c acc) := by
  induction fuel generalizing c acc with
  | zero => trivial
  | succ fuel ih =>
    rw [iterateDir]
    split_ifs
    · refine (scanPages_one fs cb _ _ _ _ _).bind fun r => ?_
      split_ifs
      · rfl
      · exact (advanceCluster_one fs c).bind fun next => ih next _
    · trivial

end Window

/-- A call of the file system; the callback of `iterate_dir` has a state in `σ`. -/
inductive FsCall (σ : Type) where
  | findBootPart
  | fromPartition (part : MbrPartition)
  | read (fs : Filesystem) (n : Inode) (buf : Bytes) (offset count : ℕ)
  | iterateDir (fs : Filesystem) (cb : σ → Dirent → σ × Bool) (pages fuel dirCluster : ℕ) (acc : σ)

def FsCall.run : FsCall σ → LeaseM DirStop Unit
  | .findBootPart => do let _ ← Leased.findBootPart
  | .fromPartition part => do let _ ← Leased.fromPartition part
  | .read fs n buf offset count => do let _ ← Leased.read fs n buf offset count
  | .iterateDir fs cb pages fuel dirCluster acc => do let _ ← Leased.iterateDir fs cb pages fuel dirCluster acc

theorem calls_one (calls : List (FsCall σ)) : OneLease (calls.forM FsCall.run) := by
  induction calls with
  | nil => rfl
  | cons call calls ih =>
    refine Interaction.Keeps.bind (t := false) (p := call.run) ?_ fun _ => ih
    cases call with
    | findBootPart => exact (withLease_one _ _).bind fun _ => rfl
    | fromPartition part => exact (withLease_one _ _).bind fun _ => rfl
    | read fs n buf offset count => exact (read_one fs n buf offset count).bind fun _ => rfl
    | iterateDir fs cb pages fuel c acc => exact (iterateDir_one fs cb pages fuel c acc).bind fun _ => rfl

/-- Over any calls and any contents of the disk, no lease is constructed while another one is alive. -/
theorem leases_exclusive (calls : List (FsCall σ)) (answer : ∀ e : Event, Except DirStop e.Answer) :
    (((calls.forM FsCall.run).asked answer).foldlM window false).isSome :=
  (calls_one calls).asked answer

end Leased

end HmmOS.Fs
