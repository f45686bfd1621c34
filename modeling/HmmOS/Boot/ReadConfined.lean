import HmmOS.Boot.ReadFile

/-! # Where a file is loaded

The loop of `fat32_read_file` goes on to the end of the chain, and `copy_bytes` copies
a sector at least.
-/
namespace HmmOS.Boot
open Lib Nonstd Fs ReadLoop

section Model
variable (fs : Fat32Desc) (dev : Bytes) (buf dst : ℕ) (file : Fat32FileDesc)

def FileRead.next (st : FileRead) : Option FileRead :=
  if fat32IsLastClusterInFile (st.turn fs dev buf dst file).cluster then none
  else some (st.turn fs dev buf dst file)

def FileRead.after (st : FileRead) : ℕ → Option FileRead
  | 0 => some st
  | k + 1 => (FileRead.after st k).bind fun st => st.next fs dev buf dst file

/-- The chain on the disk ends in the turn with index `m`. -/
def EndsAt (m : ℕ) : Prop :=
  ∀ b, ∃ lp, (ReadLoop.start file b).after fs dev file m = some lp ∧ lp.next fs dev file = none

/-- No turn writes outside the sector buffer and the sectors of the file, whether or not the loop ends with
something that remains. -/
def Confined : Prop :=
  ∀ mem k st, (FileRead.start file mem).after fs dev buf dst file k = some st →
    ∀ a, ¬ (buf ≤ a ∧ a < buf + fs.bytesPerSector) →
      ¬ (dst ≤ a ∧ a < dst + mbrSectorSz * ((file.fileSzBytes + 511) / mbrSectorSz)) →
      (st.turn fs dev buf dst file).mem a = mem a

end Model

section Turns
variable {fs : Fat32Desc} {dev : Bytes} {file : Fat32FileDesc} {buf dst k m : ℕ}

theorem ReadLoop.after_remaining {b : Bytes} {lp : ReadLoop}
    (h : (start file b).after fs dev file k = some lp) :
    lp.remainingBytes = file.fileSzBytes - k * fs.clusterBytes := by
  induction k generalizing lp with
  | zero =>
    obtain rfl := Option.some.inj h
    simp [start]
  | succ k ih =>
    obtain ⟨lp', hlp', hnext⟩ := Option.bind_eq_some_iff.mp h
    have hremaining := ih hlp'
    rw [next] at hnext
    split_ifs at hnext
    obtain rfl := Option.some.inj hnext
    have hturn : (lp'.turn fs dev file).remainingBytes =
        lp'.remainingBytes - min fs.clusterBytes lp'.remainingBytes := rfl
    rw [hturn, Nat.succ_mul]
    omega

theorem ReadLoop.after_none {lp : ReadLoop} (h : lp.after fs dev file k = none) (hk : k ≤ m) :
    lp.after fs dev file m = none := by
  induction m, hk using Nat.le_induction with
  | base => exact h
  | succ m _ ih => rw [ReadLoop.after, ih, Option.bind_none]

theorem EndsAt.after_ne_none_iff (h : EndsAt fs dev file m) (b : Bytes) :
    (start file b).after fs dev file k ≠ none ↔ k ≤ m := by
  obtain ⟨lp, hlp, hnext⟩ := h b
  constructor
  · intro hk
    by_contra hlt
    apply hk
    apply @ReadLoop.after_none fs dev file (m + 1) k _ _ (by omega)
    rw [ReadLoop.after, hlp, Option.bind_some, hnext]
  · intro hk hnone
    rw [after_none hnone hk] at hlp
    cases hlp

section Run
variable (hw : fs.WholeSectors) (hsize : file.fileSzBytes < 2 ^ 32) (hstart : file.startCluster < 2 ^ 32)
  (hapart : dst + (file.fileSzBytes + mbrSectorSz) ≤ buf ∨ buf + fs.bytesPerSector ≤ dst)
include hw hsize hstart hapart

theorem after_same (b mem : Bytes) (k : ℕ) :
    Option.Rel (SameLoop fs buf) ((FileRead.start file mem).after fs dev buf dst file k)
      ((start file b).after fs dev file k) := by
  induction k with
  | zero => exact .some ⟨rfl, hstart, rfl, rfl, .inl rfl⟩
  | succ k ih =>
    rw [FileRead.after, ReadLoop.after]
    generalize (FileRead.start file mem).after fs dev buf dst file k = before at ih ⊢
    generalize hlp : (start file b).after fs dev file k = after at ih ⊢
    cases ih with
    | none => exact .none
    | @some st lp hsame =>
      have hremaining : lp.remainingBytes ≤ file.fileSzBytes := by
        rw [after_remaining hlp]
        exact Nat.sub_le _ _
      have hturn := (@SameLoop.turn fs dev file buf dst st lp hsize hapart hw hsame hremaining).1
      rw [Option.bind_some, Option.bind_some, FileRead.next, next, hturn.cluster]
      split_ifs
      · exact .none
      · exact .some hturn

/-- A turn writes its copy, whose place and size do not depend on the cluster. -/
theorem turn_mem {b mem : Bytes} {st : FileRead}
    (hst : (FileRead.start file mem).after fs dev buf dst file k = some st) :
    ∃ lp, (start file b).after fs dev file k = some lp ∧
      ∀ a, ¬ (buf ≤ a ∧ a < buf + fs.bytesPerSector) → (st.turn fs dev buf dst file).mem a =
        copyBytes dev st.mem (dst + min file.fileSzBytes (k * fs.clusterBytes)) (lp.copy fs file).diskAddr
          (min fs.clusterBytes (file.fileSzBytes - k * fs.clusterBytes)) a := by
  have hrel := @after_same fs dev file buf dst hw hsize hstart hapart b mem k
  rw [hst] at hrel
  generalize hlp : (start file b).after fs dev file k = after at hrel
  cases hrel with
  | @some _ lp hsame =>
    have hremaining := after_remaining hlp
    have hmem := (@SameLoop.turn fs dev file buf dst st lp hsize hapart hw hsame (by omega)).2
    have hoffset : (lp.copy fs file).offset = min file.fileSzBytes (k * fs.clusterBytes) := by
      have hsub : (lp.copy fs file).offset = file.fileSzBytes - lp.remainingBytes :=
        Word.sub_of_le (by omega) hsize
      omega
    have hlen : (lp.copy fs file).len = min fs.clusterBytes (file.fileSzBytes - k * fs.clusterBytes) := by
      rw [← hremaining]
      rfl
    rw [hoffset, hlen] at hmem
    exact ⟨lp, rfl, hmem⟩

theorem not_confined (hend : EndsAt fs dev file m) (hk : k ≤ m)
    (hnothing : file.fileSzBytes ≤ k * fs.clusterBytes) : ¬ Confined fs dev buf dst file := by
  intro hconfined
  obtain ⟨lp, hlp⟩ := Option.ne_none_iff_exists'.mp ((hend.after_ne_none_iff fun _ => 0).mpr hk)
  -- the first byte past the sectors of the file, and what is written there
  let sectors := mbrSectorSz * ((file.fileSzBytes + 511) / mbrSectorSz)
  let byte := dev (mbrSectorSz * ((lp.copy fs file).diskAddr / mbrSectorSz) + (sectors - file.fileSzBytes))
  have hrel := @after_same fs dev file buf dst hw hsize hstart hapart (fun _ => 0) (fun _ => byte + 1) k
  rw [hlp] at hrel
  generalize hst : (FileRead.start file fun _ => byte + 1).after fs dev buf dst file k = before at hrel
  cases hrel with
  | @some st _ _ =>
    obtain ⟨lp', hlp', hmem⟩ :=
      @turn_mem fs dev file buf dst k hw hsize hstart hapart (fun _ => 0) (fun _ => byte + 1) st hst
    obtain rfl : lp = lp' := Option.some.inj (hlp.symm.trans hlp')
    have hbounds : file.fileSzBytes ≤ sectors ∧ sectors < file.fileSzBytes + mbrSectorSz := by
      simp only [sectors, mbrSectorSz]
      omega
    have hlen : min fs.clusterBytes (file.fileSzBytes - k * fs.clusterBytes) = 0 := by omega
    have hbuf : ¬ (buf ≤ dst + sectors ∧ dst + sectors < buf + fs.bytesPerSector) := by omega
    have hwritten : (st.turn fs dev buf dst file).mem (dst + sectors) = byte := by
      have hcopied : copiedBytes 0 = mbrSectorSz := rfl
      rw [hmem _ hbuf, Nat.min_eq_left hnothing, hlen, copyBytes_eq, memcpy_of_mem (by omega) (by omega)]
      congr 2
      omega
    have hkept := hconfined _ k st hst (dst + sectors) hbuf (by omega)
    rw [hwritten] at hkept
    simp at hkept

end Run

/-- The writes are confined exactly if something of the file remains in every turn. -/
theorem fat32ReadFile_confined_iff (hw : fs.WholeSectors) (hsize : file.fileSzBytes < 2 ^ 32)
    (hstart : file.startCluster < 2 ^ 32)
    (hapart : dst + (file.fileSzBytes + mbrSectorSz) ≤ buf ∨ buf + fs.bytesPerSector ≤ dst)
    (hend : EndsAt fs dev file m) :
    Confined fs dev buf dst file ↔ m < fs.clustersOf file.fileSzBytes := by
  constructor
  · intro hconfined
    by_contra hnot
    have hnothing := mt hw.lt_clustersOf_iff.mpr hnot
    exact not_confined hw hsize hstart hapart hend le_rfl (by omega) hconfined
  · intro hm mem k st hst a hbuf hfile
    have hturn : ∀ k st, (FileRead.start file mem).after fs dev buf dst file k = some st →
        (st.turn fs dev buf dst file).mem a = st.mem a := by
      intro k st hst
      obtain ⟨lp, hlp, hmem⟩ :=
        @turn_mem fs dev file buf dst k hw hsize hstart hapart (fun _ => 0) mem st hst
      have hk : k ≤ m := (hend.after_ne_none_iff fun _ => 0).mp (by rw [hlp]; simp)
      have hremains := hw.lt_clustersOf_iff.mp (hk.trans_lt hm)
      have hle := (hw.turnBytes_le hremains).2
      rw [Fat32Desc.turnBytes] at hle
      rw [hmem a hbuf, copyBytes_of_not_mem (by omega)]
    have hbefore : ∀ k st, (FileRead.start file mem).after fs dev buf dst file k = some st →
        st.mem a = mem a := by
      intro k
      induction k with
      | zero =>
        intro st hst
        obtain rfl := Option.some.inj hst
        rfl
      | succ k ih =>
        intro st hst
        obtain ⟨st', hst', hnext⟩ := Option.bind_eq_some_iff.mp hst
        rw [FileRead.next] at hnext
        split_ifs at hnext
        obtain rfl := Option.some.inj hnext
        rw [hturn k st' hst', ih st' hst']
    rw [hturn k st hst, hbefore k st hst]

end Turns

theorem fileDisk_ends (size : ℕ) : EndsAt bootVolume fileDisk ⟨3, size⟩ 1 := by
  intro b
  let first := (start ⟨3, size⟩ b).turn bootVolume fileDisk ⟨3, size⟩
  have hload : 3 / bootVolume.fatEntriesPerSector ≠ 2 ^ 32 - 1 := by decide
  have hbuf : first.buf =
      fun i => fileDisk (bootVolume.fatSectorPosition (3 / bootVolume.fatEntriesPerSector) + i) := if_pos hload
  have hfirst : first.cluster = 4 := by
    change le32 first.buf (4 * (3 % bootVolume.fatEntriesPerSector)) = 4
    rw [hbuf]
    decide +kernel
  have hsecond : (first.turn bootVolume fileDisk ⟨3, size⟩).cluster = 0x0FFFFFFF := by
    have hsame : first.lastFatSector = 4 / bootVolume.fatEntriesPerSector :=
      show 3 / bootVolume.fatEntriesPerSector = _ by decide
    rw [turn, hfirst, hsame, if_neg (not_not.mpr rfl), hbuf]
    dsimp only
    decide +kernel
  refine ⟨first, ?_, ?_⟩
  · rw [ReadLoop.after, ReadLoop.after, Option.bind_some, next, hfirst]
    rfl
  · rw [next, hsecond]
    rfl

/-- A file that fills its two clusters is confined. -/
theorem fat32ReadFile_confined_iff_twoClusters :
    Confined bootVolume fileDisk 0x8000 0x100000 ⟨3, 5120⟩ ↔ 1 < bootVolume.clustersOf 5120 :=
  fat32ReadFile_confined_iff ⟨by decide, by decide, by decide, by decide, by decide⟩ (by decide) (by decide)
    (.inr (by decide)) (fileDisk_ends 5120)

/-- Neither is one of 100 bytes whose chain has a second cluster, nor an empty one. -/
theorem fat32ReadFile_overruns : EndsAt bootVolume fileDisk ⟨3, 100⟩ 1 ∧
    ¬ Confined bootVolume fileDisk 0x8000 0x100000 ⟨3, 100⟩ ∧
    ¬ Confined bootVolume fileDisk 0x8000 0x100000 ⟨3, 0⟩ := by
  have hw : bootVolume.WholeSectors := ⟨by decide, by decide, by decide, by decide, by decide⟩
  refine ⟨fileDisk_ends 100, ?_, ?_⟩
  · exact not_confined hw (by decide) (by decide) (.inr (by decide)) (fileDisk_ends 100) le_rfl (by decide)
  · exact not_confined hw (by decide) (by decide) (.inr (by decide)) (fileDisk_ends 0) le_rfl (by decide)

end HmmOS.Boot
