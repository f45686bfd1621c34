import Mathlib.Data.List.FinRange
import HmmOS.Boot.Fat

/-! # The partition the kernel is loaded from

The bootloader takes the first FAT32 entry that is marked active, the kernel the
first FAT32 entry.
-/
namespace HmmOS.Boot
open Nonstd Fs

/-- `mbr_partition_desc`; the kernel declares the same layout as `MBRPartition`. -/
structure MbrPartitionDesc where
  driveAttrs : UInt8
  firstSectorChs : ℕ
  partitionType : UInt8
  lastSectorChs : ℕ
  firstSectorLba : ℕ
  sectorCount : ℕ
  deriving DecidableEq, Repr

def MbrPartitionDesc.read (mem : Bytes) (a : ℕ) : MbrPartitionDesc where
  driveAttrs := mem a
  firstSectorChs := le16 mem (a + 1) + 2 ^ 16 * (mem (a + 3)).toNat
  partitionType := mem (a + 4)
  lastSectorChs := le16 mem (a + 5) + 2 ^ 16 * (mem (a + 7)).toNat
  firstSectorLba := le32 mem (a + 8)
  sectorCount := le32 mem (a + 12)

/-- `_mbr_partitions`, in the copy of the boot sector at `0x7C00`. -/
def mbrPartitions : ℕ := 0x7DBE

/-- The entry to which `part_desc` points after the loop of `copy_kernel`. -/
def copyKernelPart (mem : Bytes) : Option (Fin 4) :=
  (List.finRange 4).find? fun i =>
    let it := MbrPartitionDesc.read mem (mbrPartitions + 16 * i)
    it.partitionType == 0x0C && it.driveAttrs == 0x80

/-- The loop of `find_boot_part` over the page of the cache that holds the boot sector. -/
def findBootPartIn (page : Bytes) : Option (Fin 4) :=
  (List.finRange 4).find? fun i =>
    (MbrPartitionDesc.read page (0x01BE + 16 * i)).partitionType == 0x0C

def findBootPart (dev : Bytes) : Option MbrPartitionDesc :=
  (cachePage dev 0).bind fun page =>
    (findBootPartIn page).map fun (i : Fin 4) => MbrPartitionDesc.read page (0x01BE + 16 * i)

/-- The firmware has loaded the first sector of the disk at `0x7C00`. -/
def BootSectorLoaded (mem dev : Bytes) : Prop := ∀ k < mbrSectorSz, mem (0x7C00 + k) = dev k

def diskPartition (dev : Bytes) (i : Fin 4) : MbrPartitionDesc :=
  MbrPartitionDesc.read dev (0x01BE + 16 * i)

/-- The first FAT32 entry of the table on the disk is marked active. -/
def FirstFat32Active (dev : Bytes) : Prop :=
  ∀ i, (diskPartition dev i).partitionType = 0x0C →
    (∀ j < i, (diskPartition dev j).partitionType ≠ 0x0C) → (diskPartition dev i).driveAttrs = 0x80

section
variable {α : Type*} {l : List α} {p q : α → Bool} {a : α}

/-- If the first element with two properties is `a`, it is the first one with the first property just
when the first one with the first property has the second. -/
theorem find?_eq_some_iff_of_and (h : l.find? (fun x => p x && q x) = some a) :
    l.find? p = some a ↔ ∀ b, l.find? p = some b → q b = true := by
  have ha : p a = true ∧ q a = true := by simpa using List.find?_some h
  constructor
  · intro hp b hb
    rw [hp] at hb
    cases hb
    exact ha.2
  · intro hq
    cases hb : l.find? p with
    | none => exact absurd ha.1 (List.find?_eq_none.mp hb a (List.mem_of_find?_eq_some h))
    | some b =>
      obtain ⟨hpb, i, hi, rfl, hbefore⟩ := List.find?_eq_some_iff_getElem.mp hb
      have hboth : l.find? (fun x => p x && q x) = some l[i] := by
        apply List.find?_eq_some_iff_getElem.mpr
        refine ⟨by rw [hpb, hq _ hb, Bool.and_true], i, hi, rfl, fun j hj => ?_⟩
        have hpj := hbefore j hj
        rw [Bool.not_eq_true'] at hpj ⊢
        rw [hpj, Bool.false_and]
      rw [← h, hboth]

end

variable {mem dev : Bytes} {i : Fin 4}

theorem read_mbrPartitions (hload : BootSectorLoaded mem dev) (i : Fin 4) :
    MbrPartitionDesc.read mem (mbrPartitions + 16 * i) = diskPartition dev i := by
  have hbyte : ∀ k < 16, mem (mbrPartitions + 16 * i + k) = dev (0x01BE + 16 * i + k) := by
    intro k hk
    rw [← hload (0x01BE + 16 * i + k) (by simp only [mbrSectorSz]; omega)]
    congr 1
    simp only [mbrPartitions]
    omega
  simp only [diskPartition, MbrPartitionDesc.read, le16, le32, Nat.add_assoc] at hbyte ⊢
  have hfirst := hbyte 0 (by decide)
  simp only [Nat.add_zero] at hfirst
  rw [hfirst]
  simp only [hbyte, Nat.reduceLT, Nat.reduceAdd]

theorem copyKernelPart_eq (hload : BootSectorLoaded mem dev) :
    copyKernelPart mem = (List.finRange 4).find? fun i =>
      (diskPartition dev i).partitionType == 0x0C && (diskPartition dev i).driveAttrs == 0x80 := by
  simp only [copyKernelPart, read_mbrPartitions hload]

theorem findBootPart_eq (dev : Bytes) : findBootPart dev =
      ((List.finRange 4).find? fun i => (diskPartition dev i).partitionType == 0x0C).map
        (diskPartition dev) := by
  have hpage : cachePage dev 0 = some dev := by
    rw [cachePage, if_pos (by decide)]
    simp only [Nat.zero_add]
  rw [findBootPart, hpage, Option.bind_some]
  rfl

/-- The scan of the kernel stops at the first FAT32 entry. -/
theorem firstFat32Active_iff (dev : Bytes) : FirstFat32Active dev ↔
      ∀ i, (List.finRange 4).find? (fun i => (diskPartition dev i).partitionType == 0x0C) = some i →
        ((diskPartition dev i).driveAttrs == 0x80) = true := by
  apply forall_congr'
  intro i
  have hfirst : (List.finRange 4).find? (fun i => (diskPartition dev i).partitionType == 0x0C) =
      some i ↔ (diskPartition dev i).partitionType = 0x0C ∧
        ∀ j < i, (diskPartition dev j).partitionType ≠ 0x0C := by
    rw [List.find?_eq_some_iff_getElem]
    constructor
    · rintro ⟨htype, k, hk, rfl, hbefore⟩
      refine ⟨beq_iff_eq.mp htype, fun j hj => ?_⟩
      have := hbefore j (by simpa [Fin.lt_def] using hj)
      simpa using this
    · rintro ⟨htype, hbefore⟩
      refine ⟨beq_iff_eq.mpr htype, i, by simp, by simp, fun j hj => ?_⟩
      simpa using hbefore ⟨j, by omega⟩ hj
  rw [hfirst, beq_iff_eq]
  exact and_imp.symm

/-- Where the bootloader finds a partition, the kernel selects the same one just when the first FAT32
entry of the table is marked active. -/
theorem findBootPart_eq_copyKernelPart_iff (hload : BootSectorLoaded mem dev)
    (hboot : copyKernelPart mem = some i) :
    findBootPart dev = some (diskPartition dev i) ↔ FirstFat32Active dev := by
  rw [copyKernelPart_eq hload] at hboot
  rw [findBootPart_eq, firstFat32Active_iff, ← find?_eq_some_iff_of_and hboot]
  constructor
  · intro h
    obtain ⟨j, hj, heq⟩ := Option.map_eq_some_iff.mp h
    -- an entry with the contents of the active one is itself active, hence the same entry
    have hboth := List.find?_some hboot
    have hactive := (Bool.and_eq_true_iff.mp hboth).2
    apply (find?_eq_some_iff_of_and hboot).mpr
    intro k hk
    rw [hj] at hk
    cases hk
    rw [heq]
    exact hactive
  · intro h
    rw [h, Option.map_some]

def twoFat32Disk : Bytes := fun a =>
  match a with
  | 0x1C2 => 0x0C
  | 0x1CE => 0x80
  | 0x1D2 => 0x0C
  | 0x1D6 => 8
  | _ => 0

/-- A disk with the layout the build produces: the first entry is FAT32 and active. -/
def activeFat32Disk : Bytes := fun a =>
  match a with
  | 0x1BE => 0x80
  | 0x1C2 => 0x0C
  | 0x1C6 => 8
  | _ => 0

theorem bootSectorLoaded_shift (dev : Bytes) : BootSectorLoaded (fun a => dev (a - 0x7C00)) dev :=
  fun k _ => congrArg dev (Nat.add_sub_cancel_left 0x7C00 k)

theorem findBootPart_activeFat32 :
    findBootPart activeFat32Disk = some (diskPartition activeFat32Disk 0) := by
  have hboot : copyKernelPart (fun a => activeFat32Disk (a - 0x7C00)) = some 0 := by decide +kernel
  apply (findBootPart_eq_copyKernelPart_iff (bootSectorLoaded_shift activeFat32Disk) hboot).mpr
  intro i hi hbefore
  have h0 : i = 0 := by
    by_contra h
    exact hbefore 0 (Fin.pos_iff_ne_zero.mpr h) (by decide +kernel)
  rw [h0]
  decide +kernel

/-- The bootloader loads the kernel from the second entry, the kernel takes the first. -/
theorem findBootPart_twoFat32 :
    copyKernelPart (fun a => twoFat32Disk (a - 0x7C00)) = some 1 ∧
      findBootPart twoFat32Disk = some (diskPartition twoFat32Disk 0) ∧
      diskPartition twoFat32Disk 0 ≠ diskPartition twoFat32Disk 1 := by
  refine ⟨by decide +kernel, by decide +kernel, by decide +kernel⟩

end HmmOS.Boot
