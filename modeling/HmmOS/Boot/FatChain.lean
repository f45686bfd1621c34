import HmmOS.Boot.FatGeometry

/-! # Two drivers, one chain of clusters

The kernel drops the four reserved bits of an entry when it reads it. The bootloader
drops them only for the position of the data: as an index into the FAT, bits 28 and 29
lead it one to three gigabytes past the entry.
-/
namespace HmmOS.Boot
open Lib Nonstd Fs

structure SameFat (boot : Fat32Desc) (kernel : Filesystem) : Prop where
  sectors : boot.bytesPerSector = 512
  fat : boot.fatOffsetBytes % 2 ^ 32 = 512 * kernel.fatOffsetLba % 2 ^ 32

def bootVisited (boot : Fat32Desc) (dev : Bytes) (file : Fat32FileDesc) (buf : Bytes) (k : ℕ) :
    Option ℕ :=
  ((ReadLoop.start file buf).after boot dev file k).map fun st => fat32MaskEntry st.cluster

def kernelChain (kernel : Filesystem) (dev : Bytes) (start : ℕ) : ℕ → Option ℕ
  | 0 => some start
  | k + 1 => (kernelChain kernel dev start k).bind (kernel.advanceCluster dev)

def kernelVisited (kernel : Filesystem) (dev : Bytes) (start k : ℕ) : Option ℕ :=
  (kernelChain kernel dev start k).map maskCluster

def HoldsFat (kernel : Filesystem) (dev : Bytes) (fat : ℕ → UInt32) : Prop :=
  ∀ m, m < 2 ^ 28 → le32 dev (kernel.fatEntryPosition m) = (fat m).toNat

/-- The entries of a chain with all their bits, up to the end-of-chain entry. -/
def rawChain (fat : ℕ → UInt32) (start : ℕ) : ℕ → Option ℕ
  | 0 => some start
  | k + 1 => (rawChain fat start k).bind fun r =>
    let entry := (fat (r % 2 ^ 28)).toNat
    if isLastClusterInFile entry then none else some entry

/-- On an accepted volume with sectors of 512 bytes the drivers use one FAT. -/
theorem sameFat_of_parse {dev : Bytes} {part : MbrPartition} {bufSz : ℕ} {boot : Fat32Desc}
    (h : fat32ParsePartition dev part bufSz = some boot) (h512 : (vbrOf dev part).bytesPerSector = 512) :
    SameFat boot (Filesystem.fromPartition dev part) := by
  have hp := fat32ParsePartition_spec h
  have hlba : (Filesystem.fromPartition dev part).fatOffsetLba =
      (part.firstSectorLba + (vbrOf dev part).reservedSectors) % 2 ^ 32 := rfl
  refine ⟨hp.bytesPerSector.trans h512, ?_⟩
  rw [hp.fat, h512, hlba]
  omega

theorem sameFat_sector512 : SameFat bootVolume (Filesystem.fromPartition (volumeDisk 512) partitionAt8) :=
  sameFat_of_parse bootVolume_parse (by decide +kernel)

variable {boot : Fat32Desc} {kernel : Filesystem} {dev : Bytes} {fat : ℕ → UInt32}
  {file : Fat32FileDesc} {buf : Bytes} {c : ℕ}

section Kernel
variable {start : ℕ}

theorem fatEntryPosition_mask (kernel : Filesystem) (c : ℕ) :
    kernel.fatEntryPosition c = kernel.fatEntryPosition (c % 2 ^ 28) := by
  rw [kernel.fatEntryPosition_eq, kernel.fatEntryPosition_eq]
  omega

theorem advanceCluster_eq_fat (h : HoldsFat kernel dev fat) (c : ℕ) : kernel.advanceCluster dev c =
      if isLastClusterInFile (fat (c % 2 ^ 28)).toNat then none
      else some (maskCluster (fat (c % 2 ^ 28)).toNat) := by
  rw [kernel.advanceCluster_eq_entry, fatEntryPosition_mask, h _ (Nat.mod_lt _ (by norm_num))]

/-- The kernel visits the entries of the chain without their reserved bits. -/
theorem kernelVisited_eq (h : HoldsFat kernel dev fat) (k : ℕ) :
    kernelVisited kernel dev start k = (rawChain fat start k).map maskCluster := by
  induction k with
  | zero => rfl
  | succ k ih =>
    rw [kernelVisited] at ih ⊢
    rw [kernelChain, rawChain]
    cases hc : kernelChain kernel dev start k with
    | none =>
      rw [hc] at ih
      rw [Option.map_eq_none_iff.mp ih.symm]
      rfl
    | some c =>
      rw [hc] at ih
      obtain ⟨r, hr, hrc⟩ := Option.map_eq_some_iff.mp ih.symm
      rw [maskCluster_eq, maskCluster_eq] at hrc
      rw [hr, Option.bind_some, Option.bind_some, advanceCluster_eq_fat h, ← hrc]
      dsimp only
      split_ifs
      · rfl
      · rw [Option.map_some, Option.map_some, maskCluster_eq, maskCluster_eq, Nat.mod_mod]

end Kernel

section Boot
variable {st : ReadLoop}

/-- The buffer holds the sector that was loaded last, if there is one. -/
def ReadLoop.Buffered (boot : Fat32Desc) (dev : Bytes) (st : ReadLoop) : Prop :=
  st.cluster < 2 ^ 32 ∧ (st.lastFatSector = 2 ^ 32 - 1 ∨
    st.buf = fun i => dev (boot.fatSectorPosition st.lastFatSector + i))

/-- Whether the sector was loaded before or not, the entry is the one on the disk. -/
theorem ReadLoop.Buffered.turn_cluster (h : st.Buffered boot dev) (hs : boot.bytesPerSector = 512) :
    (st.turn boot dev file).cluster = le32 dev (boot.fatEntryPosition st.cluster) ∧
      (st.turn boot dev file).Buffered boot dev := by
  have hentries : boot.fatEntriesPerSector = 128 := by rw [Fat32Desc.fatEntriesPerSector, hs]
  have hbuf : (st.turn boot dev file).buf =
      fun i => dev (boot.fatSectorPosition (st.cluster / boot.fatEntriesPerSector) + i) := by
    obtain ⟨hlt, hlast⟩ := h
    by_cases hload : st.cluster / boot.fatEntriesPerSector ≠ st.lastFatSector
    · exact if_pos hload
    · have hsame := not_not.mp hload
      rcases hlast with hlast | hlast
      · rw [hlast, hentries] at hsame
        omega
      · rw [hsame, ← hlast]
        exact if_neg hload
  have hcluster : (st.turn boot dev file).cluster = le32 dev (boot.fatEntryPosition st.cluster) := by
    change le32 (st.turn boot dev file).buf (4 * (st.cluster % boot.fatEntriesPerSector)) = _
    rw [hbuf, le32_offset]
    rfl
  refine ⟨hcluster, ?_, .inr hbuf⟩
  exact le32_lt _ _

theorem ReadLoop.Buffered.next (h : st.Buffered boot dev) (hs : boot.bytesPerSector = 512) :
    (st.next boot dev file).map ReadLoop.cluster =
        (if isLastClusterInFile (le32 dev (boot.fatEntryPosition st.cluster)) then none
          else some (le32 dev (boot.fatEntryPosition st.cluster))) ∧
      ∀ st', st.next boot dev file = some st' → st'.Buffered boot dev := by
  obtain ⟨hcluster, hbuf⟩ := @ReadLoop.Buffered.turn_cluster boot dev file st h hs
  have hnext : st.next boot dev file =
      if isLastClusterInFile (st.turn boot dev file).cluster then none
      else some (st.turn boot dev file) := rfl
  rw [hnext, ← hcluster]
  split_ifs
  · exact ⟨rfl, fun st' h' => by cases h'⟩
  · refine ⟨rfl, ?_⟩
    intro st' hst'
    obtain rfl := Option.some.inj hst'
    exact hbuf

theorem SameFat.fatEntryPosition (h : SameFat boot kernel) (c : ℕ) : boot.fatEntryPosition c =
      512 * (kernel.fatOffsetLba + c / 128) % 2 ^ 32 + 4 * (c % 128) := by
  have hfat := h.fat
  rw [Fat32Desc.fatEntryPosition, Fat32Desc.fatSectorPosition, Fat32Desc.fatEntriesPerSector,
    h.sectors, Word.mul, Word.add, hfat]
  omega

/-- With bits 28 and 29 clear both drivers read the same entry. -/
theorem SameFat.fatEntryPosition_eq (h : SameFat boot kernel) (hc : c % 2 ^ 30 < 2 ^ 28) :
    boot.fatEntryPosition c = kernel.fatEntryPosition c := by
  rw [h.fatEntryPosition, kernel.fatEntryPosition_eq]
  omega

/-- The bootloader follows the chain as long as these bits are clear. -/
theorem after_eq_rawChain (h : SameFat boot kernel) (hfat : HoldsFat kernel dev fat)
    (hstart : file.startCluster < 2 ^ 32) {k : ℕ}
    (hclear : ∀ j, j < k → ∀ r, rawChain fat file.startCluster j = some r → r % 2 ^ 30 < 2 ^ 28) :
    ((ReadLoop.start file buf).after boot dev file k).map ReadLoop.cluster = rawChain fat file.startCluster k ∧
      ∀ st, (ReadLoop.start file buf).after boot dev file k = some st → st.Buffered boot dev := by
  induction k with
  | zero =>
    refine ⟨rfl, ?_⟩
    intro st hst
    obtain rfl := Option.some.inj hst
    exact ⟨hstart, .inl rfl⟩
  | succ k ih =>
    obtain ⟨hchain, hbuf⟩ := ih fun j hj => hclear j (by omega)
    rw [ReadLoop.after, rawChain]
    cases hst : (ReadLoop.start file buf).after boot dev file k with
    | none =>
      rw [hst] at hchain
      rw [← hchain]
      exact ⟨rfl, fun st' h' => by cases h'⟩
    | some st =>
      rw [hst] at hchain
      obtain ⟨hnext, hbuf'⟩ := @ReadLoop.Buffered.next boot dev file st (hbuf st hst) h.sectors
      have hlow := hclear k (by omega) st.cluster hchain.symm
      rw [h.fatEntryPosition_eq hlow, fatEntryPosition_mask, hfat _ (Nat.mod_lt _ (by norm_num))]
        at hnext
      rw [← hchain]
      exact ⟨hnext, hbuf'⟩

end Boot

def wordBytes (f : ℕ → UInt32) : Bytes := fun a => UInt8.ofNat ((f (a / 4)).toNat / 2 ^ (8 * (a % 4)))

theorem le32_wordBytes (f : ℕ → UInt32) (i : ℕ) : le32 (wordBytes f) (4 * i) = (f i).toNat := by
  have hlt := (f i).toNat_lt
  have hbyte : ∀ k, k < 4 → (wordBytes f (4 * i + k)).toNat = (f i).toNat / 2 ^ (8 * k) % 2 ^ 8 := by
    intro k hk
    have hdiv : (4 * i + k) / 4 = i := by omega
    have hmod : (4 * i + k) % 4 = k := by omega
    rw [wordBytes, hdiv, hmod, UInt8.toNat_ofNat']
  have h0 := hbyte 0 (by omega)
  rw [Nat.add_zero] at h0
  rw [le32, h0, hbyte 1 (by omega), hbyte 2 (by omega), hbyte 3 (by omega)]
  omega

def fatDisk (kernel : Filesystem) (fat : ℕ → UInt32) (w : UInt32) : Bytes :=
  wordBytes fun i =>
    let m := (i + (2 ^ 30 - 128 * kernel.fatOffsetLba % 2 ^ 30)) % 2 ^ 30
    if m < 2 ^ 28 then fat m else w

section Disk
variable {w : UInt32}

/-- With one of the bits 28 and 29 set the bootloader reads outside the FAT. -/
theorem SameFat.le32_fatDisk (h : SameFat boot kernel) (c : ℕ) :
    le32 (fatDisk kernel fat w) (boot.fatEntryPosition c) =
      (if c % 2 ^ 30 < 2 ^ 28 then fat (c % 2 ^ 30) else w).toNat := by
  have hpos : boot.fatEntryPosition c =
      4 * (128 * (kernel.fatOffsetLba + c / 128) % 2 ^ 30 + c % 128) := by
    rw [h.fatEntryPosition]
    omega
  have hindex : (128 * (kernel.fatOffsetLba + c / 128) % 2 ^ 30 + c % 128 +
      (2 ^ 30 - 128 * kernel.fatOffsetLba % 2 ^ 30)) % 2 ^ 30 = c % 2 ^ 30 := by omega
  rw [hpos, fatDisk, le32_wordBytes, hindex]

theorem SameFat.holdsFat (h : SameFat boot kernel) : HoldsFat kernel (fatDisk kernel fat w) fat := by
  intro m hm
  have hmod : m % 2 ^ 30 = m := Nat.mod_eq_of_lt (by omega)
  rw [← h.fatEntryPosition_eq (by omega), h.le32_fatDisk, hmod, if_pos hm]

end Disk

/-- If bit 28 or 29 of an entry is set, the next entry is read from outside the FAT, and some disk
with this FAT has another cluster there. -/
theorem exists_disk_ne (h : SameFat boot kernel) (hstart : file.startCluster < 2 ^ 32) {k r : ℕ}
    (hclear : ∀ j, j < k → ∀ r, rawChain fat file.startCluster j = some r → r % 2 ^ 30 < 2 ^ 28)
    (hr : rawChain fat file.startCluster k = some r) (hbad : ¬ r % 2 ^ 30 < 2 ^ 28) :
    ∃ dev, HoldsFat kernel dev fat ∧
      bootVisited boot dev file buf (k + 1) ≠ kernelVisited kernel dev file.startCluster (k + 1) := by
  obtain ⟨w, hw, hne⟩ : ∃ w : UInt32, w.toNat < 2 ∧ w.toNat ≠ maskCluster (fat (r % 2 ^ 28)).toNat := by
    by_cases hzero : maskCluster (fat (r % 2 ^ 28)).toNat = 0
    · exact ⟨1, by decide, by rw [hzero]; decide⟩
    · exact ⟨0, by decide, fun hz => hzero hz.symm⟩
  have hfat : HoldsFat kernel (fatDisk kernel fat w) fat := h.holdsFat
  refine ⟨fatDisk kernel fat w, hfat, ?_⟩
  obtain ⟨hchain, hbuf⟩ := @after_eq_rawChain boot kernel _ fat file buf h hfat hstart k hclear
  rw [hr] at hchain
  obtain ⟨st, hst, hcluster⟩ := Option.map_eq_some_iff.mp hchain
  obtain ⟨hnext, -⟩ := @ReadLoop.Buffered.next boot _ file st (hbuf st hst) h.sectors
  have hmask : maskCluster w.toNat = w.toNat := maskCluster_of_lt (by omega)
  have hcont : ¬ isLastClusterInFile w.toNat = true := by
    rw [isLastClusterInFile, hmask, decide_eq_true_iff]
    omega
  rw [hcluster, h.le32_fatDisk, if_neg hbad, if_neg hcont] at hnext
  have hboot : bootVisited boot (fatDisk kernel fat w) file buf (k + 1) = some w.toNat := by
    obtain ⟨st', hst', hst'c⟩ := Option.map_eq_some_iff.mp hnext
    rw [bootVisited, ReadLoop.after, hst, Option.bind_some, hst', Option.map_some, hst'c]
    exact congrArg some hmask
  rw [hboot, kernelVisited_eq hfat, rawChain, hr, Option.bind_some]
  dsimp only
  split_ifs
  · exact Option.some_ne_none _
  · exact fun heq => hne (Option.some.inj heq)

/-- On every disk with a given FAT the drivers visit the same data clusters exactly if bits 28 and
29 of every entry of the chain are clear. -/
theorem visited_eq_iff (h : SameFat boot kernel) (hstart : file.startCluster < 2 ^ 32) :
    (∀ dev, HoldsFat kernel dev fat → ∀ k,
        bootVisited boot dev file buf k = kernelVisited kernel dev file.startCluster k) ↔
      ∀ k r, rawChain fat file.startCluster k = some r → r % 2 ^ 30 < 2 ^ 28 := by
  constructor
  · intro hall k
    induction k using Nat.strong_induction_on with
    | _ k ih =>
      intro r hr
      by_contra hbad
      obtain ⟨dev, hdev, hne⟩ := @exists_disk_ne boot kernel fat file buf h hstart k r ih hr hbad
      exact hne (hall dev hdev (k + 1))
  · intro hclear dev hdev k
    obtain ⟨hchain, -⟩ := @after_eq_rawChain boot kernel dev fat file buf h hdev hstart k
      fun j _ => hclear j
    rw [kernelVisited_eq hdev, ← hchain, Option.map_map]
    rfl

/-- A FAT with a file of two clusters, 2 and 3; `bits` are reserved bits of the entry of cluster 2. -/
def twoClusterFat (bits : UInt32) : ℕ → UInt32 := fun m =>
  if m = 2 then bits + 3 else if m = 3 then 0x0FFFFFFF else 0

def kernelOf512 : Filesystem := ⟨8, 40, 168⟩

/-- Bit 31 does no harm. -/
theorem visited_eq_bit31 :
    rawChain (twoClusterFat 0x80000000) 2 1 = some 0x80000003 ∧ ∀ k,
      bootVisited bootVolume (fatDisk kernelOf512 (twoClusterFat 0x80000000) 0) ⟨2, 5000⟩
          (fun _ => 0) k =
        kernelVisited kernelOf512 (fatDisk kernelOf512 (twoClusterFat 0x80000000) 0) 2 k := by
  have hsame : SameFat bootVolume kernelOf512 := ⟨rfl, rfl⟩
  have hone : rawChain (twoClusterFat 0x80000000) 2 1 = some 0x80000003 := by decide +kernel
  have hend : ∀ k, rawChain (twoClusterFat 0x80000000) 2 (k + 2) = none := by
    intro k
    induction k with
    | zero => decide +kernel
    | succ k ih =>
      rw [rawChain, ih]
      rfl
  refine ⟨hone, (@visited_eq_iff bootVolume kernelOf512 (twoClusterFat 0x80000000) ⟨2, 5000⟩ _ hsame
    (by decide)).mpr ?_ _ hsame.holdsFat⟩
  intro k r hr
  match k with
  | 0 =>
    obtain rfl := Option.some.inj hr
    decide
  | 1 =>
    obtain rfl := Option.some.inj (hone.symm.trans hr)
    decide
  | k + 2 => cases (hend k).symm.trans hr

/-- Bit 28 is set in the entry of cluster 2. The bootloader looks for the entry of cluster 3 a gigabyte
further and goes on to cluster 0. -/
theorem visited_ne_bit28 :
    (List.range 3).map (bootVisited bootVolume (fatDisk kernelOf512 (twoClusterFat 0x10000000) 0)
      ⟨2, 5000⟩ fun _ => 0) = [some 2, some 3, some 0] ∧
    (List.range 3).map (kernelVisited kernelOf512 (fatDisk kernelOf512 (twoClusterFat 0x10000000) 0)
      2) = [some 2, some 3, none] := by
  decide +kernel

end HmmOS.Boot
