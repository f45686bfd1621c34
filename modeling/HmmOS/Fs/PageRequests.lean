import HmmOS.Fs.Leased
import Mathlib.Data.Int.ModEq
import Mathlib.Data.ZMod.Defs

/-! # Which page is asked for

The drivers turn numbers of sectors into offsets of bytes with 32-bit products, which
are right for the first 4 GB of the device.
-/
namespace HmmOS.Fs
open Lib Nonstd Util.Algorithm

/-- The offset of a sector on the device, rounded down to a page if the driver does so. -/
def Request.exactOffset (r : Request) (sector : ℕ) : ℕ :=
  if r.rounded then pgSz * (512 * sector / pgSz) else 512 * sector

/-- The offset is the one of the sector, in 32 bits. -/
def Request.Wraps (r : Request) : Prop :=
  ∀ s, r.sector = some s →
    r.offset = if r.rounded then floorPg (512 * s % 2 ^ 32).toNat else (512 * s % 2 ^ 32).toNat

/-- Below 4 GB nothing wraps, and what has wrapped is not the offset of the sector. -/
theorem Request.Wraps.exact_iff {r : Request} (h : r.Wraps) {sector : ℕ}
    (hs : r.sector = some (sector : ℤ)) : r.offset = r.exactOffset sector ↔ sector < 2 ^ 23 := by
  have hwrap : (512 * (sector : ℤ) % 2 ^ 32).toNat = 512 * sector % 2 ^ 32 := by omega
  rw [h sector hs, hwrap, Request.exactOffset]
  split_ifs
  · rw [floorPg_eq (by omega), pgSz_eq]
    omega
  · omega

def Event.Wraps : Event → Prop
  | .acquire r => r.Wraps
  | _ => True

namespace Leased
variable {α σ : Type} {fs : Filesystem}

theorem withLease_wraps {r : Request} (h : r.Wraps) (f : Bytes → α) : (withLease r f).Always Event.Wraps := by
  have hacquire : Event.Wraps (.acquire r) := h
  apply (Interaction.Always.call hacquire).bind
  intro page
  exact (Interaction.Always.call trivial).bind fun _ => trivial

theorem fromPartition_wraps (part : MbrPartition) : (fromPartition part).Always Event.Wraps := by
  apply withLease_wraps
  rintro s ⟨⟩
  have hmul : Word.mul 32 part.firstSectorLba 512 =
      (512 * (part.firstSectorLba : ℤ) % 2 ^ 32).toNat := by
    rw [Word.mul]
    omega
  rw [if_pos rfl, hmul]

theorem advanceCluster_wraps (c : ℕ) : (advanceCluster fs c).Always Event.Wraps := by
  refine Interaction.Always.bind (withLease_wraps ?_ _) fun next => ?_
  · rintro s ⟨⟩
    have hmul : Word.mul 32 (fs.getFatSectorForCluster c) 512 =
        (512 * fatSector fs c % 2 ^ 32).toNat := by
      rw [Word.mul, Filesystem.getFatSectorForCluster, Word.add, fatSector]
      omega
    rw [if_pos rfl, hmul]
  · split_ifs <;> trivial

theorem startSector_cast (c : ℕ) : (fs.startSector c : ℤ) = dataSector fs c % 2 ^ 32 := by
  have hsub : ((Word.sub 32 c 2 : ℕ) : ℤ) ≡ (c : ℤ) - 2 [ZMOD 2 ^ 32] := by
    rw [Word.sub, Int.ModEq]
    omega
  have hmul : ((Word.mul 32 (Word.sub 32 c 2) fs.sectorsPerCluster : ℕ) : ℤ) ≡
      ((c : ℤ) - 2) * fs.sectorsPerCluster [ZMOD 2 ^ 32] := by
    rw [Word.mul]
    push_cast
    exact (Int.mod_modEq _ _).trans (hsub.mul_right _)
  rw [Filesystem.startSector, Word.add]
  push_cast
  exact hmul.add_left _

theorem walkClusters_wraps (fuel off c : ℕ) : (walkClusters fs fuel off c).Always Event.Wraps := by
  induction fuel generalizing off c with
  | zero => trivial
  | succ fuel ih =>
    rw [walkClusters]
    split_ifs
    · exact (advanceCluster_wraps c).bind fun next => ih _ next
    · trivial

/-- A page of a file: the walk, and then the page itself. -/
theorem fileLease_wraps (n : Inode) (off : ℕ) (f : Bytes → α) : (fileLease fs n off f).Always Event.Wraps := by
  have hbad : ∀ f : Bytes → α, (withLease ⟨none, false, badOffset⟩ f).Always Event.Wraps :=
    fun f => withLease_wraps (fun s hs => by cases hs) f
  rw [fileLease, getDevOffset]
  split_ifs
  · exact hbad f
  · exact hbad f
  · rw [bind_assoc]
    apply (walkClusters_wraps _ _ _).bind
    intro c
    apply withLease_wraps
    rintro s ⟨⟩
    have hcast := @startSector_cast fs c
    have hmul : Word.mul 32 (fs.startSector c) 512 = (512 * dataSector fs c % 2 ^ 32).toNat := by
      rw [Word.mul]
      omega
    rw [if_neg Bool.false_ne_true, hmul]
  · trivial
  · exact hbad f

section Iterate
variable {cb : σ → Dirent → σ × Bool}

theorem scanPages_wraps {startPg fuel : ℕ} {sector : ℤ} {pgIt : ℕ} {acc : σ}
    (h : pgIt = (512 * sector % 2 ^ 32).toNat) :
    (scanPages fs cb startPg fuel sector pgIt acc).Always Event.Wraps := by
  induction fuel generalizing sector pgIt acc with
  | zero => trivial
  | succ fuel ih =>
    rw [scanPages]
    split_ifs
    · refine (withLease_wraps ?_ _).bind fun x => (Interaction.Always.lift x).bind fun r => ?_
      · rintro s ⟨⟩
        exact h
      · split_ifs
        · trivial
        · apply ih
          rw [Word.add, pgSz_eq]
          omega
    · trivial

theorem iterateDir_wraps (pages fuel c : ℕ) (acc : σ) :
    (iterateDir fs cb pages fuel c acc).Always Event.Wraps := by
  induction fuel generalizing c acc with
  | zero => trivial
  | succ fuel ih =>
    rw [iterateDir]
    split_ifs
    · apply (scanPages_wraps ?_).bind
      · intro r
        split_ifs
        · trivial
        · exact (advanceCluster_wraps c).bind fun next => ih next r.1
      · have hcast := @startSector_cast fs c
        omega
    · trivial

end Iterate

end Leased

/-- The functions of the driver that ask the page cache for pages. -/
inductive DriverCall where
  | fromPartition (part : MbrPartition)
  | advanceCluster (fs : Filesystem) (cluster : ℕ)
  /-- `get_dev_offset`, and the page at the offset that it returns. -/
  | getDevOffset (fs : Filesystem) (n : Inode) (fileOffset : ℕ)
  | iterateDir (fs : Filesystem) {σ : Type} (cb : σ → Dirent → σ × Bool) (pages fuel dirCluster : ℕ)
      (acc : σ)

def DriverCall.events (dev : Bytes) : DriverCall → List Event
  | .fromPartition part => (Leased.fromPartition part).asked (Event.answer dev)
  | .advanceCluster fs cluster => (Leased.advanceCluster fs cluster).asked (Event.answer dev)
  | .getDevOffset fs n fileOffset => (Leased.fileLease fs n fileOffset id).asked (Event.answer dev)
  | .iterateDir fs cb pages fuel dirCluster acc =>
    (Leased.iterateDir fs cb pages fuel dirCluster acc).asked (Event.answer dev)

theorem DriverCall.events_wrap {dev : Bytes} {call : DriverCall} {e : Event}
    (he : e ∈ call.events dev) : e.Wraps := by
  cases call with
  | fromPartition part => exact (Leased.fromPartition_wraps part).asked he
  | advanceCluster fs cluster => exact (Leased.advanceCluster_wraps cluster).asked he
  | getDevOffset fs n fileOffset => exact (Leased.fileLease_wraps n fileOffset id).asked he
  | iterateDir fs cb pages fuel dirCluster acc =>
    exact (Leased.iterateDir_wraps pages fuel dirCluster acc).asked he

/-- The page cache is asked for the place of a sector exactly if that lies below 4 GB. -/
theorem driverCall_exact_iff {dev : Bytes} {call : DriverCall} {r : Request}
    (hr : .acquire r ∈ call.events dev) {sector : ℕ} (hs : r.sector = some (sector : ℤ)) :
    r.offset = r.exactOffset sector ↔ sector < 2 ^ 23 := by
  have hwraps : r.Wraps := DriverCall.events_wrap hr
  exact hwraps.exact_iff hs

def partitionAt (sector : Fin (2 ^ 32)) : MbrPartition := ⟨sector, sector.isLt⟩

def partitionRequest (sector : Fin (2 ^ 32)) : Request :=
  ⟨some (sector : ℕ), true, floorPg (Word.mul 32 sector 512)⟩

theorem partitionRequest_mem (sector : Fin (2 ^ 32)) (dev : Bytes) : .acquire (partitionRequest sector) ∈
      (DriverCall.fromPartition (partitionAt sector)).events dev := by
  simp [DriverCall.events, Leased.fromPartition, Leased.withLease, Interaction.call, Interaction.asked,
    partitionRequest, partitionAt]

theorem driverCall_exact_atMegabyte :
    (partitionRequest 2048).offset = (partitionRequest 2048).exactOffset 2048 :=
  (driverCall_exact_iff (partitionRequest_mem 2048 fun _ => 0) rfl).mpr (by decide)

/-- A partition that starts at 4 GB: its boot record is looked for at the start of the device. -/
theorem fromPartition_wraps_atFourGigabytes :
    .acquire (partitionRequest (2 ^ 23)) ∈
        (DriverCall.fromPartition (partitionAt (2 ^ 23))).events (fun _ => 0) ∧
      (partitionRequest (2 ^ 23)).offset = 0 ∧
      (partitionRequest (2 ^ 23)).exactOffset (2 ^ 23) = 2 ^ 32 :=
  ⟨partitionRequest_mem _ _, by decide, by decide⟩

end HmmOS.Fs
