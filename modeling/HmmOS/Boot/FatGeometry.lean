import HmmOS.Boot.Fat
import HmmOS.Fs.ReadCorrect

/-! # Two drivers, one volume

The bootloader counts in logical sectors of `bytes_per_sector` bytes, the kernel
in sectors of 512 bytes.
-/
namespace HmmOS.Boot
open Lib Nonstd Fs

structure SamePositions (boot : Fat32Desc) (kernel : Filesystem) (clusters : ℕ) : Prop where
  fat : boot.fatOffsetBytes = kernel.fatPosition
  entry : ∀ c, c < clusters + 2 → boot.fatEntryPosition c = kernel.fatEntryPosition c
  data : ∀ c, 2 ≤ c → c < clusters + 2 → boot.clusterDataOffsetBytes c = kernel.clusterPosition c

structure OffsetsFit (lba : ℕ) (v : Vbr) (clusters : ℕ) : Prop where
  numbers : clusters + 2 ≤ 2 ^ 28
  entry : ∀ c, c < clusters + 2 → 512 * lba + v.reservedSectors * v.bytesPerSector +
    (c / (v.bytesPerSector / 4) * v.bytesPerSector + 4 * (c % (v.bytesPerSector / 4))) < 2 ^ 32
  data : ∀ c, 2 ≤ c → c < clusters + 2 →
    512 * lba + (v.reservedSectors + v.fats * v.sectorsPerFat2 + (c - 2) * v.sectorsPerCluster) *
      v.bytesPerSector < 2 ^ 32

/-- Logical sectors are 512 bytes, or there is nothing that they count. -/
def SameUnits (v : Vbr) (clusters : ℕ) : Prop :=
  v.bytesPerSector = 512 ∨
    v.reservedSectors = 0 ∧ (v.bytesPerSector % 4 = 0 ∨ clusters + 2 ≤ v.bytesPerSector / 4) ∧
      ∀ c, 2 ≤ c → c < clusters + 2 →
        v.fats * v.sectorsPerFat2 + (c - 2) * v.sectorsPerCluster = 0

variable {c : ℕ} {dev : Bytes} {part : MbrPartition} {clusters : ℕ} {boot : Fat32Desc}

section Arithmetic
variable {l n b : ℕ}

theorem sectors_le (hb : 512 ≤ b) : 512 * (l + n) ≤ 512 * l + n * b := by
  have := Nat.mul_le_mul_left n hb
  omega

theorem sectors_eq_iff (hb : 512 ≤ b) : 512 * l + n * b = 512 * (l + n) ↔ b = 512 ∨ n = 0 := by
  obtain ⟨e, rfl⟩ := Nat.exists_eq_add_of_le hb
  rw [Nat.mul_add n]
  constructor
  · intro h
    have hne : n * e = 0 := by omega
    rcases Nat.mul_eq_zero.mp hne with hn | he
    · exact .inr hn
    · exact .inl (by omega)
  · rintro (he | hn)
    · have he : e = 0 := by omega
      rw [he, Nat.mul_zero]
      omega
    · rw [hn]
      omega

/-- An entry is found `b % 4` bytes further for every logical sector of the FAT before it. -/
theorem entry_eq (b c : ℕ) : c / (b / 4) * b + 4 * (c % (b / 4)) = 4 * c + c / (b / 4) * (b % 4) := by
  have hsplit : b = 4 * (b / 4) + b % 4 := (Nat.div_add_mod b 4).symm
  have hc := Nat.div_add_mod c (b / 4)
  calc c / (b / 4) * b + 4 * (c % (b / 4))
      = c / (b / 4) * (4 * (b / 4) + b % 4) + 4 * (c % (b / 4)) := by rw [← hsplit]
    _ = 4 * (b / 4 * (c / (b / 4)) + c % (b / 4)) + c / (b / 4) * (b % 4) := by ring
    _ = 4 * c + c / (b / 4) * (b % 4) := by rw [hc]

theorem entry_eq_iff (hb : 512 ≤ b) :
    512 * l + n * b + (c / (b / 4) * b + 4 * (c % (b / 4))) = 512 * (l + n) + 4 * c ↔
      b = 512 ∨ n = 0 ∧ (b % 4 = 0 ∨ c < b / 4) := by
  have hle := @sectors_le l n b hb
  have hiff := @sectors_eq_iff l n b hb
  have hq : 0 < b / 4 := by omega
  have hz : c / (b / 4) * (b % 4) = 0 ↔ b % 4 = 0 ∨ c < b / 4 := by
    rw [Nat.mul_eq_zero, Nat.div_eq_zero_iff_lt hq]
    exact or_comm
  rw [entry_eq]
  constructor
  · intro h
    have hzero : c / (b / 4) * (b % 4) = 0 := by omega
    rcases hiff.mp (by omega) with h512 | hn
    · exact .inl h512
    · exact .inr ⟨hn, hz.mp hzero⟩
  · rintro (h512 | ⟨hn, hrest⟩)
    · omega
    · omega

end Arithmetic

section Boot
variable {bufSz : ℕ}

def vbrOf (dev : Bytes) (part : MbrPartition) : Vbr := Vbr.read dev part.vbrPosition

structure ParsedFrom (dev : Bytes) (part : MbrPartition) (boot : Fat32Desc) : Prop where
  sector_ge : 512 ≤ (vbrOf dev part).bytesPerSector
  bytesPerSector : boot.bytesPerSector = (vbrOf dev part).bytesPerSector
  sectorsPerCluster : boot.sectorsPerCluster = (vbrOf dev part).sectorsPerCluster
  fat : boot.fatOffsetBytes = 512 * part.firstSectorLba +
    (vbrOf dev part).reservedSectors * (vbrOf dev part).bytesPerSector
  data : boot.dataRegionOffsetBytes = 512 * part.firstSectorLba +
    ((vbrOf dev part).reservedSectors + (vbrOf dev part).fats * (vbrOf dev part).sectorsPerFat2) *
      (vbrOf dev part).bytesPerSector

theorem fat32ParsePartition_spec (h : fat32ParsePartition dev part bufSz = some boot) :
    ParsedFrom dev part boot := by
  have hlba := part.firstSectorLba_lt
  have hstart : Word.mul 64 part.firstSectorLba mbrSectorSz = 512 * part.firstSectorLba := by
    rw [mbrSectorSz, Word.mul_of_lt (by omega), Nat.mul_comm]
  have hvbr : Vbr.read dev (512 * part.firstSectorLba % 2 ^ 32) = vbrOf dev part := by
    rw [vbrOf, part.vbrPosition_eq]
  have hR : (vbrOf dev part).reservedSectors < 2 ^ 16 := le16_lt _ _
  have hB : (vbrOf dev part).bytesPerSector < 2 ^ 16 := le16_lt _ _
  have hF : (vbrOf dev part).fats < 2 ^ 8 := UInt8.toNat_lt _
  have hS : (vbrOf dev part).sectorsPerFat2 < 2 ^ 32 := le32_lt _ _
  have hRB := Nat.mul_lt_mul'' hR hB
  have hFS := Nat.mul_lt_mul'' hF hS
  have hFSB := Nat.mul_lt_mul'' hFS hB
  rw [fat32ParsePartition] at h
  rw [hstart, hvbr] at h
  split_ifs at h with htotal hsig hboot hsmall hlarge
  obtain rfl := Option.some.inj h
  have hfats := @Word.mul_of_lt 64 (vbrOf dev part).fats (vbrOf dev part).sectorsPerFat2 (by omega)
  rw [hfats, Word.mul_of_lt (by omega), Word.mul_of_lt (by omega), Word.add_of_lt (by omega),
    Word.add_of_lt (by omega)]
  refine ⟨Nat.le_of_not_lt hsmall, rfl, rfl, rfl, ?_⟩
  rw [Nat.add_mul, Nat.add_assoc]

theorem ParsedFrom.fatEntryPosition (h : ParsedFrom dev part boot)
    (hfit : OffsetsFit part.firstSectorLba (vbrOf dev part) clusters) (hc : c < clusters + 2) :
    boot.fatEntryPosition c = boot.fatOffsetBytes +
      (c / (boot.bytesPerSector / 4) * boot.bytesPerSector + 4 * (c % (boot.bytesPerSector / 4))) := by
  have hlt := hfit.entry c hc
  rw [← h.fat, ← h.bytesPerSector] at hlt
  rw [Fat32Desc.fatEntryPosition, Fat32Desc.fatSectorPosition, Fat32Desc.fatEntriesPerSector,
    Nat.mod_eq_of_lt (by omega), Word.mul_of_lt (by omega), Word.add_of_lt (by omega), Nat.add_assoc]

theorem ParsedFrom.clusterDataOffsetBytes (h : ParsedFrom dev part boot)
    (hfit : OffsetsFit part.firstSectorLba (vbrOf dev part) clusters) (h2 : 2 ≤ c) (hc : c < clusters + 2) :
    boot.clusterDataOffsetBytes c = 512 * part.firstSectorLba +
      ((vbrOf dev part).reservedSectors + (vbrOf dev part).fats * (vbrOf dev part).sectorsPerFat2 +
        (c - 2) * (vbrOf dev part).sectorsPerCluster) * (vbrOf dev part).bytesPerSector := by
  have hlt := hfit.data c h2 hc
  have hnum := hfit.numbers
  have hge := h.sector_ge
  have hmask : fat32MaskEntry c = c := maskCluster_of_lt (by omega)
  rw [Nat.add_mul _ ((c - 2) * _)] at hlt ⊢
  have hsmall := Nat.le_mul_of_pos_right ((c - 2) * (vbrOf dev part).sectorsPerCluster)
    (Nat.lt_of_lt_of_le (by norm_num) hge : 0 < (vbrOf dev part).bytesPerSector)
  have hsectors := @Word.mul_of_lt 32 (c - 2) (vbrOf dev part).sectorsPerCluster (by omega)
  rw [Fat32Desc.clusterDataOffsetBytes, hmask, h.data, h.sectorsPerCluster, h.bytesPerSector,
    Word.sub_of_le h2 (by omega), hsectors, Word.mul_of_lt (by omega), Word.add_of_lt (by omega), Nat.add_assoc]

end Boot

theorem fromPartition_fatOffsetLba
    (hlt : 512 * (part.firstSectorLba + (vbrOf dev part).reservedSectors) < 2 ^ 32) :
    (Filesystem.fromPartition dev part).fatOffsetLba =
      part.firstSectorLba + (vbrOf dev part).reservedSectors := by
  change Word.add 32 part.firstSectorLba (vbrOf dev part).reservedSectors = _
  exact Word.add_of_lt (by omega)

theorem fromPartition_fatPosition
    (hlt : 512 * (part.firstSectorLba + (vbrOf dev part).reservedSectors) < 2 ^ 32) :
    (Filesystem.fromPartition dev part).fatPosition =
      512 * (part.firstSectorLba + (vbrOf dev part).reservedSectors) := by
  rw [Filesystem.fatPosition, fromPartition_fatOffsetLba hlt, Word.mul_of_lt (by omega), Nat.mul_comm]

theorem fromPartition_fatEntryPosition (hc : c < 2 ^ 28)
    (hlt : 512 * (part.firstSectorLba + (vbrOf dev part).reservedSectors) + 4 * c < 2 ^ 32) :
    (Filesystem.fromPartition dev part).fatEntryPosition c =
      512 * (part.firstSectorLba + (vbrOf dev part).reservedSectors) + 4 * c := by
  rw [Filesystem.fatEntryPosition_eq, fromPartition_fatOffsetLba (by omega)]
  omega

theorem fromPartition_clusterPosition (h2 : 2 ≤ c) (hc : c < 2 ^ 28)
    (hlt : 512 * (part.firstSectorLba + ((vbrOf dev part).reservedSectors +
      (vbrOf dev part).fats * (vbrOf dev part).sectorsPerFat2 +
      (c - 2) * (vbrOf dev part).sectorsPerCluster)) < 2 ^ 32) :
    (Filesystem.fromPartition dev part).clusterPosition c =
      512 * (part.firstSectorLba + ((vbrOf dev part).reservedSectors +
        (vbrOf dev part).fats * (vbrOf dev part).sectorsPerFat2 +
        (c - 2) * (vbrOf dev part).sectorsPerCluster)) := by
  have hdata : (Filesystem.fromPartition dev part).dataRegionOffsetLba = part.firstSectorLba +
      ((vbrOf dev part).reservedSectors +
        (vbrOf dev part).fats * (vbrOf dev part).sectorsPerFat2) := by
    change Word.add 32 (Word.add 32 _ (vbrOf dev part).reservedSectors)
      (Word.mul 32 (vbrOf dev part).fats (vbrOf dev part).sectorsPerFat2) = _
    rw [Word.mul_of_lt (by omega), Word.add_of_lt (by omega : part.firstSectorLba + _ < 2 ^ 32),
      Word.add_of_lt (by omega), Nat.add_assoc]
  have hcluster : (Filesystem.fromPartition dev part).sectorsPerCluster =
      (vbrOf dev part).sectorsPerCluster := rfl
  have hsectors := @Word.mul_of_lt 32 (c - 2) (vbrOf dev part).sectorsPerCluster (by omega)
  rw [Filesystem.clusterPosition, hdata, hcluster, Word.sub_of_le h2 (by omega), hsectors,
    Word.add_of_lt (by omega), Word.mul_of_lt (by omega)]
  omega

section
variable (h : ParsedFrom dev part boot)
  (hfit : OffsetsFit part.firstSectorLba (vbrOf dev part) clusters)
include h hfit

theorem fat_eq_iff : boot.fatOffsetBytes = (Filesystem.fromPartition dev part).fatPosition ↔
      (vbrOf dev part).bytesPerSector = 512 ∨ (vbrOf dev part).reservedSectors = 0 := by
  have hle := @sectors_le part.firstSectorLba (vbrOf dev part).reservedSectors _ h.sector_ge
  have hlt := hfit.entry 0 (by omega)
  rw [h.fat, fromPartition_fatPosition (by omega)]
  exact sectors_eq_iff h.sector_ge

theorem fatEntry_eq_iff (hc : c < clusters + 2) :
    boot.fatEntryPosition c = (Filesystem.fromPartition dev part).fatEntryPosition c ↔
      (vbrOf dev part).bytesPerSector = 512 ∨ (vbrOf dev part).reservedSectors = 0 ∧
        ((vbrOf dev part).bytesPerSector % 4 = 0 ∨ c < (vbrOf dev part).bytesPerSector / 4) := by
  have hle := @sectors_le part.firstSectorLba (vbrOf dev part).reservedSectors _ h.sector_ge
  have hlt := hfit.entry c hc
  have hnum := hfit.numbers
  rw [h.fatEntryPosition hfit hc, h.fat, h.bytesPerSector]
  rw [entry_eq] at hlt
  rw [fromPartition_fatEntryPosition (by omega) (by omega)]
  exact entry_eq_iff h.sector_ge

theorem cluster_eq_iff (h2 : 2 ≤ c) (hc : c < clusters + 2) :
    boot.clusterDataOffsetBytes c = (Filesystem.fromPartition dev part).clusterPosition c ↔
      (vbrOf dev part).bytesPerSector = 512 ∨ (vbrOf dev part).reservedSectors +
        (vbrOf dev part).fats * (vbrOf dev part).sectorsPerFat2 +
        (c - 2) * (vbrOf dev part).sectorsPerCluster = 0 := by
  have hle := @sectors_le part.firstSectorLba ((vbrOf dev part).reservedSectors +
    (vbrOf dev part).fats * (vbrOf dev part).sectorsPerFat2 +
    (c - 2) * (vbrOf dev part).sectorsPerCluster) _ h.sector_ge
  have hlt := hfit.data c h2 hc
  have hnum := hfit.numbers
  rw [h.clusterDataOffsetBytes hfit h2 hc, fromPartition_clusterPosition h2 (by omega) (by omega)]
  exact sectors_eq_iff h.sector_ge

end

/-- On every accepted volume whose positions fit into 32 bits, the drivers agree exactly if their sectors
are the same. -/
theorem samePositions_iff (h : fat32ParsePartition dev part maxLogicalSectorSz = some boot)
    (hfit : OffsetsFit part.firstSectorLba (Vbr.read dev part.vbrPosition) clusters) :
    SamePositions boot (Filesystem.fromPartition dev part) clusters ↔
      SameUnits (Vbr.read dev part.vbrPosition) clusters := by
  have hp := fat32ParsePartition_spec h
  change _ ↔ SameUnits (vbrOf dev part) clusters
  constructor
  · intro hs
    by_cases h512 : (vbrOf dev part).bytesPerSector = 512
    · exact .inl h512
    · have hentry := fun c hc => ((fatEntry_eq_iff hp hfit hc).mp (hs.entry c hc)).resolve_left h512
      refine .inr ⟨(hentry 0 (by omega)).1, ?_, ?_⟩
      · exact (hentry (clusters + 1) (by omega)).2
      · intro c h2 hc
        have := ((cluster_eq_iff hp hfit h2 hc).mp (hs.data c h2 hc)).resolve_left h512
        omega
  · rintro (h512 | ⟨hres, hquarter, hdata⟩)
    · exact ⟨(fat_eq_iff hp hfit).mpr (.inl h512),
        fun c hc => (fatEntry_eq_iff hp hfit hc).mpr (.inl h512),
        fun c h2 hc => (cluster_eq_iff hp hfit h2 hc).mpr (.inl h512)⟩
    · constructor
      case fat => exact (fat_eq_iff hp hfit).mpr (.inr hres)
      case entry =>
        intro c hc
        apply (fatEntry_eq_iff hp hfit hc).mpr
        exact .inr ⟨hres, hquarter.imp_right fun hq => by omega⟩
      case data =>
        intro c h2 hc
        apply (cluster_eq_iff hp hfit h2 hc).mpr
        have := hdata c h2 hc
        exact .inr (by omega)

/-- A disk with a partition at sector 8: 32 reserved sectors, two FATs of 64 sectors, 8 sectors to a
cluster. -/
def volumeDisk (bytesPerSector : ℕ) : Bytes := fun a =>
  match a with
  | 4107 => UInt8.ofNat (bytesPerSector % 256)
  | 4108 => UInt8.ofNat (bytesPerSector / 256)
  | 4109 => 8
  | 4110 => 32
  | 4112 => 2
  | 4132 => 64
  | 4140 => 2
  | 4162 => 0x29
  | 4606 => 0x55
  | 4607 => 0xAA
  | _ => 0

def partitionAt8 : MbrPartition := ⟨8, by decide⟩

/-- What the boot loader makes of that volume, with sectors of 512 bytes. -/
def bootVolume : Fat32Desc := ⟨512, 8, 20480, 86016, 2⟩

theorem bootVolume_parse :
    fat32ParsePartition (volumeDisk 512) partitionAt8 maxLogicalSectorSz = some bootVolume := by decide +kernel

/-- On a volume with sectors of 512 bytes the drivers agree on a thousand clusters. -/
theorem samePositions_sector512 :
    ∃ boot, fat32ParsePartition (volumeDisk 512) partitionAt8 maxLogicalSectorSz = some boot ∧
      SamePositions boot (Filesystem.fromPartition (volumeDisk 512) partitionAt8) 1000 := by
  have hvbr : Vbr.read (volumeDisk 512) partitionAt8.vbrPosition =
      ⟨512, 8, 32, 2, 0, 64, 2, 0x29, 0xAA55⟩ := by decide +kernel
  refine ⟨_, bootVolume_parse, (samePositions_iff bootVolume_parse ?_).mpr ?_⟩
  · rw [hvbr]
    refine ⟨by decide, ?_, ?_⟩
    · intro c hc
      dsimp only [partitionAt8]
      omega
    · intro c h2 hc
      dsimp only [partitionAt8]
      omega
  · exact .inl rfl

/-- On a volume with sectors of 4096 bytes they disagree on the start of the FAT, on the entry of
cluster 2 and on the position of cluster 2. -/
theorem samePositions_sector4096 :
    (fat32ParsePartition (volumeDisk 4096) partitionAt8 maxLogicalSectorSz).map
        (fun boot => (boot.fatOffsetBytes, boot.fatEntryPosition 2, boot.clusterDataOffsetBytes 2)) =
      some (135168, 135176, 659456) ∧
    (Filesystem.fromPartition (volumeDisk 4096) partitionAt8).fatPosition = 20480 ∧
    (Filesystem.fromPartition (volumeDisk 4096) partitionAt8).fatEntryPosition 2 = 20488 ∧
    (Filesystem.fromPartition (volumeDisk 4096) partitionAt8).clusterPosition 2 = 86016 := by
  decide +kernel

end HmmOS.Boot
