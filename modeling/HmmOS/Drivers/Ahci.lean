import HmmOS.Lib.ByteFields
import HmmOS.Nonstd.Memory
import HmmOS.Util.Algorithm

/-! # The memory of the AHCI ports

`rebase_port_memory` carves the structures of all ports out of one block. The device
sees physical addresses; the driver uses the I/O mapping of the block. Memory is one of
bytes by virtual address. Waiting for the command engine changes nothing that the driver
reads later and is left out.
-/
namespace HmmOS.Drivers.Ahci
open Lib Lib.ByteFields Nonstd Util.Algorithm

def commandSlotsPerPort : ℕ := 32
def prdtesPerCommand : ℕ := 8

def sizeofReceivedFis : ℕ := 0x100
def sizeofCommandHeader : ℕ := 0x20
def sizeofPrdtEntry : ℕ := 0x10
def sizeofCommandTable : ℕ := 0x80
def sizeofCommandList : ℕ := 1024

/-- A command table with its PRDT entries. -/
def tableStride : ℕ := sizeofCommandTable + prdtesPerCommand * sizeofPrdtEntry

def reqSzPerPort : ℕ := 1024 + sizeofReceivedFis + commandSlotsPerPort * tableStride

@[simp] theorem commandSlotsPerPort_eq : commandSlotsPerPort = 32 := rfl
@[simp] theorem sizeofReceivedFis_eq : sizeofReceivedFis = 256 := rfl
@[simp] theorem sizeofCommandHeader_eq : sizeofCommandHeader = 32 := rfl
@[simp] theorem sizeofCommandList_eq : sizeofCommandList = 1024 := rfl
@[simp] theorem tableStride_eq : tableStride = 256 := rfl
@[simp] theorem reqSzPerPort_eq : reqSzPerPort = 1024 + 256 + 8192 := rfl

def allocSz (maxPort : ℕ) : ℕ := ceilPow2 pgSz (reqSzPerPort * maxPort)

structure PortRegisters where
  clb : ℕ
  clbu : ℕ
  fb : ℕ
  fbu : ℕ
  cmd : ℕ
  sact : ℕ
  ci : ℕ

/-- The registers of the ports, the memory that is mapped for the driver, and `ahci_virt_base` and
`ahci_phys_base`, which are zero at first. -/
structure Hba where
  ports : ℕ → PortRegisters
  mem : Bytes
  virtBase : ℕ
  physBase : ℕ

/-- `ahci_virt_to_phys`, for a pointer into the block. -/
def ahciVirtToPhys (s : Hba) (virt : ℕ) : Option ℕ :=
  if s.physBase ≠ 0 ∧ s.virtBase ≠ 0 then some (s.physBase + (virt - s.virtBase)) else none

/-- `ahci_phys_to_virt`; pointers have 32 bits. -/
def ahciPhysToVirt (s : Hba) (phys : ℕ) : Option ℕ :=
  if s.physBase ≠ 0 ∧ s.virtBase ≠ 0 then some (Word.add 32 s.virtBase (Word.sub 64 phys s.physBase))
  else none

def setCommandTable (mem : Bytes) (hdr prdtl ctba : ℕ) : Bytes :=
  let mem := store mem (hdr + 2) 2 prdtl
  let mem := store mem (hdr + 8) 4 ctba
  store mem (hdr + 12) 4 0

def commandTableAddress (mem : Bytes) (hdr : ℕ) : ℕ := load mem (hdr + 8) 4 + 2 ^ 32 * load mem (hdr + 12) 4

def pauseCmdEngine (port : PortRegisters) : PortRegisters :=
  { port with
    cmd := port.cmd &&& Word.compl 32 0x11 }

def unpauseCmdEngine (port : PortRegisters) : PortRegisters :=
  { port with
    cmd := port.cmd ||| 0x11 }

/-- The loop over command slots. The header that is set is the one with the index of the port. -/
def setHeaders (s : Hba) (i cmdHdr cmdTblBase : ℕ) : ℕ → Option Bytes
  | 0 => some s.mem
  | cmd + 1 =>
    (setHeaders s i cmdHdr cmdTblBase cmd).bind fun mem =>
      (ahciVirtToPhys s (cmdTblBase + cmd * tableStride)).map fun ctba =>
        setCommandTable mem (cmdHdr + sizeofCommandHeader * i) prdtesPerCommand ctba

def rebasePort (maxPort : ℕ) (s : Hba) (i : ℕ) : Option Hba :=
  let receivedFisBase := s.virtBase + maxPort <<< 10
  let cmdTblBase := receivedFisBase + maxPort * sizeofReceivedFis
  let cmdHdr := s.virtBase + i <<< 10
  (ahciVirtToPhys s (receivedFisBase + i * sizeofReceivedFis)).bind fun fb =>
    (ahciVirtToPhys s cmdHdr).bind fun clb =>
      (setHeaders s i cmdHdr cmdTblBase commandSlotsPerPort).map fun mem =>
        let port : PortRegisters :=
          { pauseCmdEngine (s.ports i) with
            fb := fb % 2 ^ 32
            fbu := 0
            clb := clb % 2 ^ 32
            clbu := 0 }
        { s with
          mem := mem
          ports := Function.update s.ports i (unpauseCmdEngine port) }

def rebasePorts (maxPort : ℕ) (s : Hba) : ℕ → Option Hba
  | 0 => some s
  | i + 1 => (rebasePorts maxPort s i).bind fun s => rebasePort maxPort s i

/-- The allocators that are used: `mem::virt::io_alloc`, `operator new` and `mem::virt::ioremap`. Blocks of a
page or more are page-aligned. -/
structure Allocators where
  ioAlloc : ℕ → Option ℕ
  new : ℕ → Option ℕ
  ioremap : ℕ → ℕ → ℕ → Bool
  new_aligned : ∀ size p, pgSz ≤ size → new size = some p → pgSz ∣ p

/-- `rebase_port_memory`; a failed assertion has no result. -/
def rebasePortMemory (alloc : Allocators) (s : Hba) (maxPort : ℕ) : Option (Bool × Hba) :=
  if maxPort < 32 ∧ alignedPow2 sizeofCommandTable (prdtesPerCommand * sizeofPrdtEntry) = true then
    match alloc.ioAlloc (allocSz maxPort >>> pgSzBits) with
    | none | some 0 => some (false, { s with virtBase := 0 })
    | some virt =>
      match alloc.new (allocSz maxPort) with
      | none => some (false, { s with virtBase := virt })
      | some frames =>
        (hhdmToDirect frames).bind fun phys =>
          let s : Hba :=
            { s with
              virtBase := virt
              physBase := phys }
          if alloc.ioremap phys virt (allocSz maxPort >>> pgSzBits) then
            (rebasePorts maxPort { s with mem := memset s.mem virt 0 (reqSzPerPort * maxPort) } maxPort).map
              fun s => (true, s)
          else some (false, s)
  else none

end HmmOS.Drivers.Ahci
