import Mathlib.Data.Nat.Notation
import Mathlib.Logic.Basic
import Mathlib.Tactic.SplitIfs

/-! # Sizes and address-space layout

The constants of `memdefs.h`, `boot_protocol.h` and `mm/virt.h`. The kernel is
built for i386, so `size_t` and every pointer have 32 bits.
-/
namespace HmmOS

def kb : ℕ := 0x400
def mb : ℕ := kb * kb
def gb : ℕ := kb * mb

def pgSz : ℕ := 4 * kb
def pgSzBits : ℕ := 12
def pgPerPt : ℕ := 1024
def hugePgSz : ℕ := pgSz * pgPerPt

def kernelMapSz : ℕ := 32 * mb
def ioMapSz : ℕ := 4 * mb
def hhdmStart : ℕ := 3 * gb
def hhdmLen : ℕ := 1 * gb - (kernelMapSz + ioMapSz)

@[simp] theorem pgSz_eq : pgSz = 4096 := rfl
@[simp] theorem pgSzBits_eq : pgSzBits = 12 := rfl
@[simp] theorem hhdmStart_eq : hhdmStart = 3221225472 := rfl
@[simp] theorem hhdmLen_eq : hhdmLen = 1035993088 := rfl

/-- `virt::direct_to_hhdm`: the kernel address of a physical byte. Physical
memory past the end of the map has none, and asking for it is an assertion. -/
def directToHhdm (physAddr : ℕ) : Option ℕ :=
  if physAddr < hhdmLen then some (physAddr + hhdmStart) else none

def hhdmToDirect (virtAddr : ℕ) : Option ℕ :=
  if hhdmStart ≤ virtAddr ∧ virtAddr < hhdmStart + hhdmLen then some (virtAddr - hhdmStart) else none

theorem directToHhdm_eq_some {p v : ℕ} : directToHhdm p = some v ↔ p < hhdmLen ∧ v = p + hhdmStart := by
  unfold directToHhdm
  split_ifs with hp
  · rw [Option.some.injEq, and_iff_right hp, eq_comm]
  · exact ⟨fun h => absurd h (by simp), fun h => absurd h.1 hp⟩

end HmmOS
