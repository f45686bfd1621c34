import HmmOS.Util.Algorithm

/-! # Two-level page tables

The page directory and the page tables are pages in the higher-half map. Memory is
indexed by the kernel address of such a page and by a slot in it, so a page that served
as both a directory and a table would be seen as one by the code below.
-/
namespace HmmOS.Arch.PageTable
open Lib Util.Algorithm

/-- The 32-bit entry of a page directory or a page table; `d`, `ps` and `g` are `ign0`, `ps` and a bit of
`ign1` in a directory, and `d`, `pat` and `g` in a table. -/
structure Entry where
  p : Bool := false
  rw : Bool := false
  us : Bool := false
  pwt : Bool := false
  pcd : Bool := false
  a : Bool := false
  d : Bool := false
  ps : Bool := false
  g : Bool := false
  ign : ℕ := 0
  addr : ℕ := 0
  deriving DecidableEq, Repr

/-- `pde.addr << PG_SZ_BITS`. The bit field is promoted to `int`, so the shift may yield a negative
number before it becomes a `uint64_t`. -/
def Entry.target (e : Entry) : ℕ := Word.ofInt 64 (Int.bmod ((e.addr <<< pgSzBits : ℕ) : ℤ) (2 ^ 32))

/-- The pages that hold tables, by address and slot. -/
abbrev PtMem := ℕ → ℕ → Entry

def PtMem.set (mem : PtMem) (table slot : ℕ) (e : Entry) : PtMem :=
  Function.update mem table (Function.update (mem table) slot e)

def PtMem.clear (mem : PtMem) (table : ℕ) : PtMem := Function.update mem table fun _ => {}

def getPageDirectory (cr3 : ℕ) : Option ℕ := directToHhdm cr3

def directoryTableEntries : ℕ := 1024
def directoryEntryBits : ℕ := 10

def pdIdx (virt : ℕ) : ℕ := (virt >>> pgSzBits) >>> directoryEntryBits
def ptIdx (virt : ℕ) : ℕ := (virt >>> pgSzBits) &&& 0x03FF

/-- `fetch_pte`: the table and the slot, or nothing if the directory entry is not present. -/
def fetchPte (mem : PtMem) (cr3 virt : ℕ) : Option (Option (ℕ × ℕ)) :=
  if ¬ pgAligned virt then none
  else (getPageDirectory cr3).bind fun pd =>
    let pde := mem pd (pdIdx virt)
    if ¬ pde.p then some none
    else if pde.ps then none
    else (directToHhdm pde.target).map fun pt => some (pt, ptIdx virt)

/-- The second half of `map`, from the directory entry on. -/
def mapEntry (mem : PtMem) (pd phys virt : ℕ) (us rw uncacheable : Bool) : Option (PtMem × Bool) :=
  (directToHhdm (mem pd (pdIdx virt)).target).map fun pt =>
    if (mem pt (ptIdx virt)).p then (mem, false)
    else
      (mem.set pt (ptIdx virt)
        { p := true, rw := rw, us := us, pcd := uncacheable, g := true
          addr := (phys >>> pgSzBits) % 2 ^ 20 }, true)

/-- Clear a new page table and enter it in the directory `pd`. -/
def newTable (mem : PtMem) (pd i pageTable : ℕ) : Option PtMem :=
  (hhdmToDirect pageTable).map fun direct =>
    (mem.clear pageTable).set pd i
      { p := true, rw := true, us := true, addr := (direct >>> pgSzBits) % 2 ^ 20 }

/-- `map`; `newPage` is what `operator new` would return if it is called. -/
def map (mem : PtMem) (cr3 : ℕ) (newPage : Option ℕ) (phys virt : ℕ) (us rw uncacheable : Bool) :
    Option (PtMem × Bool) :=
  if ¬ (pgAligned phys ∧ pgAligned virt) then none
  else (getPageDirectory cr3).bind fun pd =>
    if (mem pd (pdIdx virt)).p then
      if (mem pd (pdIdx virt)).ps then none else mapEntry mem pd phys virt us rw uncacheable
    else match newPage with
      | none => some (mem, false)
      | some pageTable =>
        (newTable mem pd (pdIdx virt) pageTable).bind fun mem' =>
          mapEntry mem' pd phys virt us rw uncacheable

/-- The common body of `unmap` and `mark_uncacheable`: change the entry if it is present. -/
def updatePte (mem : PtMem) (cr3 virt : ℕ) (f : Entry → Entry) : Option (PtMem × Bool) :=
  (fetchPte mem cr3 virt).map fun
    | none => (mem, false)
    | some (pt, slot) =>
      if (mem pt slot).p then (mem.set pt slot (f (mem pt slot)), true) else (mem, false)

def unmap (mem : PtMem) (cr3 virt : ℕ) : Option (PtMem × Bool) :=
  updatePte mem cr3 virt fun e => { e with p := false }

def markUncacheable (mem : PtMem) (cr3 virt : ℕ) : Option (PtMem × Bool) :=
  updatePte mem cr3 virt fun e => { e with pcd := true }

theorem pdIdx_eq (virt : ℕ) : pdIdx virt = virt / 4194304 := by
  simp [pdIdx, directoryEntryBits, Nat.shiftRight_eq_div_pow, Nat.div_div_eq_div_mul]

theorem ptIdx_eq (virt : ℕ) : ptIdx virt = virt / 4096 % 1024 := by
  rw [ptIdx, Nat.shiftRight_eq_div_pow]
  exact Word.and_mask 10 (virt / 4096)

theorem pdIdx_lt {virt : ℕ} (h : virt < 2 ^ 32) : pdIdx virt < directoryTableEntries := by
  rw [pdIdx_eq, directoryTableEntries]
  omega

theorem eq_of_slots {v w : ℕ} (hv : pgAligned v) (hw : pgAligned w) (hd : pdIdx v = pdIdx w)
    (ht : ptIdx v = ptIdx w) : v = w := by
  have hv' := pgAligned_iff.mp hv
  have hw' := pgAligned_iff.mp hw
  rw [pdIdx_eq, pdIdx_eq] at hd
  rw [ptIdx_eq, ptIdx_eq] at ht
  omega

/-- For a page inside the higher-half map the promotion is harmless. -/
theorem Entry.target_of_lt {e : Entry} (h : e.addr * 4096 < hhdmLen) : e.target = e.addr * 4096 := by
  rw [hhdmLen_eq] at h
  have hb : Int.bmod ((e.addr * 4096 : ℕ) : ℤ) (2 ^ 32) = (e.addr * 4096 : ℕ) :=
    Int.bmod_eq_of_le (by omega) (by omega)
  rw [Entry.target, Nat.shiftLeft_eq, pgSzBits_eq]
  exact (congrArg (Word.ofInt 64) hb).trans (Word.ofInt_natCast (by omega))

end HmmOS.Arch.PageTable
