import HmmOS.Arch.PageTableRefinement
import HmmOS.Fs.Leased
import HmmOS.Proc.Process

/-! # Page faults

The handler looks for a page of a file through leases of pages of the FAT, each of
which may read a page into the cache and maps it at the window of the kernel.
-/
namespace HmmOS.Arch.PageFault
open Lib Nonstd Util.Algorithm PageTable Fs Proc

/-- The bits of the error code that `isr_pf` acts on. -/
structure PFErrorCode where
  p : Bool := false
  w : Bool := false
  u : Bool := false
  i : Bool := false
  deriving DecidableEq, Repr

/-- Page tables, the contents of physical pages, and the page cache, which gives the physical address of
the page for an offset. -/
structure MmState where
  tables : PtMem
  cr3 : ℕ
  phys : ℕ → Bytes
  cache : ℕ → Option ℕ
  /-- The window at which leases map their page. -/
  buf : UInt32

/-- What `operator new` returns for a page of data and for a page table, if it is called. -/
structure NewPages where
  page : Option ℕ
  table : Option ℕ
  deriving DecidableEq, Repr

/-- The results of `operator new` in a fault; `fat k` are those for the lease number `k`. -/
structure FaultPages extends NewPages where
  fat : ℕ → NewPages := fun _ => ⟨none, none⟩

inductive Outcome where
  | returned (st : MmState)
  /-- `Process::exit`, which does not return. -/
  | killed
  /-- A failed assertion or a null pointer that is followed. -/
  | stopped

/-- `fetch_page`, with the assertions of `read_page_direct`. -/
def fetchPage (dev : Bytes) (st : MmState) (newPage : Option ℕ) (offset : ℕ) :
    Option (MmState × ℕ) :=
  newPage.bind fun pg => (hhdmToDirect pg).bind fun paddr =>
    if pgAligned paddr then
      (cachePage dev offset).map fun page =>
        ({ st with
            phys := Function.update st.phys paddr page
            cache := Function.update st.cache offset (some paddr) }, paddr)
    else none

/-- `PageCache::get`: the physical address of the page for an offset of the device. -/
def cacheGet (dev : Bytes) (st : MmState) (newPage : Option ℕ) (offset : ℕ) :
    Option (MmState × ℕ) :=
  match st.cache offset with
  | some paddr => some (st, paddr)
  | none => fetchPage dev st newPage offset

/-- The memory, and how many leases there have been. -/
structure LeaseState where
  mm : MmState
  leases : ℕ

/-- The constructor of `VirtLease`, with its assertion on `map`, and the destructor. -/
def leaseStep (dev : Bytes) (fat : ℕ → NewPages) (l : LeaseState) : ∀ e : Event, Option (e.Answer × LeaseState)
  | .acquire r =>
    (cacheGet dev l.mm (fat l.leases).page r.offset).bind fun (st, paddr) =>
      (map st.tables st.cr3 (fat l.leases).table paddr st.buf.toNat false true false).bind fun (tables, mapped) =>
        if mapped then some (st.phys paddr, { mm := { st with tables := tables }, leases := l.leases + 1 })
        else none
  | .release => (unmap l.mm.tables l.mm.cr3 l.mm.buf.toNat).map fun (tables, _) =>
      ((), { l with mm := { l.mm with tables := tables } })

/-- The inode behind an area; nothing if a pointer on the way is null. -/
def fileOf (s : Vfs) (vma : VirtualMemoryArea) : Option Inode :=
  vma.dentry.bind fun d => (s.dentries d).bind fun e => s.inodes e.inode

/-- `virt::map` for userspace, whose result `isr_pf` does not look at. -/
def mapUser (st : MmState) (newTable : Option ℕ) (paddr virt : ℕ) (writable : Bool) : Outcome :=
  match map st.tables st.cr3 newTable paddr virt true writable false with
  | none => .stopped
  | some (tables, _) => .returned { st with tables := tables }

def vmallocPage (st : MmState) (new : NewPages) (virt : ℕ) (writable : Bool) : Outcome :=
  match new.page with
  | none => .returned st
  | some pg => match hhdmToDirect pg with
    | none => .stopped
    | some paddr => mapUser st new.table paddr virt writable

/-- The test of the loop; the end of the area is a 32-bit sum. -/
def contains (faultedAddr : ℕ) (vma : VirtualMemoryArea) : Bool :=
  !(faultedAddr < vma.addr || faultedAddr ≥ Word.add 32 vma.addr vma.len)

def denied (err : PFErrorCode) (prot : Access) : Bool :=
  (!err.w && !prot.readable) || (err.w && !prot.writable) || (err.i && !prot.executable)

/-- Kernel-mode accesses to userspace are let through whatever the area permits. -/
def kernelAccess (err : PFErrorCode) (faultedAddr : ℕ) : Bool := faultedAddr < hhdmStart && !err.u

/-- The branch of `isr_pf` for file-backed areas. -/
def mapFilePage (fs : Filesystem) (dev : Bytes) (s : Vfs) (st : MmState) (new : FaultPages)
    (faultedAddr : ℕ) (vma : VirtualMemoryArea) : Outcome :=
  match (fileOf s vma).bind fun n =>
      (Leased.getDevOffset fs n (floorPg vma.offset)).exec (leaseStep dev new.fat) ⟨st, 0⟩ with
  | none => .stopped
  | some (r, l) => match cacheGet dev l.mm new.page r.offset with
    | none => .stopped
    | some (st, paddr) => mapUser st new.table paddr (floorPg faultedAddr) vma.prot.writable

/-- `isr_pf` in the context of a process with the given areas. -/
def isrPf (fs : Filesystem) (dev : Bytes) (s : Vfs) (vmas : List VirtualMemoryArea) (st : MmState)
    (new : FaultPages) (err : PFErrorCode) (faultedAddr : ℕ) : Outcome :=
  if err.p then .killed
  else match vmas.find? (contains faultedAddr) with
    | none => .killed
    | some vma =>
      if denied err vma.prot && !kernelAccess err faultedAddr then .killed
      else if vma.flags.mapAnon && vma.flags.mapPrivate then
        vmallocPage st new.toNewPages (floorPg faultedAddr) vma.prot.writable
      else mapFilePage fs dev s st new faultedAddr vma

end HmmOS.Arch.PageFault
