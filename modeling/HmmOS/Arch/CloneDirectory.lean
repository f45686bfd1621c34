import HmmOS.Arch.PageTableRefinement

/-! # A directory for a new process

What a directory means is given by the walk of the processor, which also follows
the 4MB entries that `fetch_pte` rejects.
-/
namespace HmmOS.Arch.PageTable
open Lib Util.Algorithm

/-- The page of a table, under the kernel address by which memory is indexed. -/
def Entry.tablePage (e : Entry) : ℕ := e.addr * pgSz % 2 ^ 32 + hhdmStart

/-- A translation of the processor: a physical byte, with the rights and the cache policy. -/
structure Mapping where
  phys : ℕ
  writable : Bool
  user : Bool
  pwt : Bool
  pcd : Bool
  global : Bool
  deriving DecidableEq, Repr

/-- What the processor makes of a directory entry and of the table it points to. -/
def Entry.translateWith (pde : Entry) (table : ℕ → Entry) (virt : ℕ) : Option Mapping :=
  if ¬ pde.p then none
  else if pde.ps then
    -- the upper ten bits of the field are the number of the 4MB frame
    some ⟨pde.addr / pgPerPt * hugePgSz + virt % hugePgSz, pde.rw, pde.us, pde.pwt, pde.pcd, pde.g⟩
  else
    let pte := table (ptIdx virt)
    if ¬ pte.p then none
    else some ⟨pte.addr * pgSz + virt % pgSz, pde.rw && pte.rw, pde.us && pte.us, pte.pwt, pte.pcd,
      pte.g⟩

/-- The walk of the processor for a byte of the 32-bit address space. -/
def translate (mem : PtMem) (cr3 virt : ℕ) : Option Mapping :=
  if virt < 2 ^ 32 then
    let pde := mem (pdOf cr3) (pdIdx virt)
    pde.translateWith (mem pde.tablePage) virt
  else none

def PtMem.copy (mem : PtMem) (dst src : ℕ) : PtMem := Function.update mem dst (mem src)

/-- The body of the loop. `pages` is what the next calls of `operator new` return; with no page left the
source writes through a null pointer. -/
def cloneEntry (pd newPd i : ℕ) (mem : PtMem) (pages : List ℕ) : Option (PtMem × List ℕ) :=
  if ¬ (mem pd i).p then some (mem, pages)
  else if (mem pd i).ps then some (mem.set newPd i (mem pd i), pages)
  else match pages with
    | [] => none
    | pageTable :: pages =>
      (directToHhdm (mem pd i).target).bind fun pt =>
        let mem := mem.copy pageTable pt
        let mem := mem.set newPd i (mem pd i)
        (hhdmToDirect pageTable).map fun direct =>
          (mem.set newPd i { mem newPd i with addr := (direct >>> pgSzBits) % 2 ^ 20 }, pages)

def cloneEntries (pd newPd : ℕ) : List ℕ → PtMem → List ℕ → Option (PtMem × List ℕ)
  | [], mem, pages => some (mem, pages)
  | i :: is, mem, pages => (cloneEntry pd newPd i mem pages).bind fun r => cloneEntries pd newPd is r.1 r.2

def kernelEntries : List ℕ :=
  List.range' (hhdmStart / hugePgSz) (directoryTableEntries - hhdmStart / hugePgSz)

/-- `clone_kernel_page_directory`, which reads the current directory: memory, the new directory and the
pages that are left. -/
def cloneKernelPageDirectory (mem : PtMem) (cr3 : ℕ) (pages : List ℕ) :
    Option (PtMem × ℕ × List ℕ) :=
  (getPageDirectory cr3).bind fun pd =>
    match pages with
    | [] => none
    | newPd :: pages =>
      (cloneEntries pd newPd kernelEntries (mem.clear newPd) pages).map fun r => (r.1, newPd, r.2)

def setPageDirectory (pde : ℕ) : Option ℕ := hhdmToDirect pde

theorem mem_kernelEntries {i : ℕ} : i ∈ kernelEntries ↔ 768 ≤ i ∧ i < directoryTableEntries := by
  rw [kernelEntries, List.mem_range'_1]
  rfl

theorem Entry.translateWith_absent {pde : Entry} (h : pde.p = false) (table : ℕ → Entry) (virt : ℕ) :
    pde.translateWith table virt = none := by
  rw [Entry.translateWith, if_pos (by simp [h])]

theorem Entry.translateWith_huge {pde : Entry} (h : pde.ps = true) (table table' : ℕ → Entry)
    (virt : ℕ) : pde.translateWith table virt = pde.translateWith table' virt := by
  simp only [Entry.translateWith, h, if_true]

theorem Entry.translateWith_addr {pde : Entry} (h : pde.ps = false) (addr : ℕ) (table : ℕ → Entry) (virt : ℕ) :
    { pde with addr := addr }.translateWith table virt = pde.translateWith table virt := by
  simp only [Entry.translateWith, h, Bool.false_eq_true, if_false]

/-- The tables that the kernel reaches are the ones that the processor walks. -/
theorem tablePage_of_directToHhdm {e : Entry} {pt : ℕ} (h : directToHhdm e.target = some pt) :
    pt = e.tablePage := by
  obtain ⟨hlt, rfl⟩ := directToHhdm_eq_some.mp h
  rw [Entry.tablePage, Nat.add_right_cancel_iff]
  -- below the end of the map the promoted field is not negative
  have hmod : (e.addr <<< pgSzBits : ℕ) = e.addr * pgSz := Nat.shiftLeft_eq _ _
  rw [Entry.target, hmod, Word.ofInt] at hlt ⊢
  rw [hhdmLen_eq] at hlt
  have hb : Int.bmod (e.addr * pgSz : ℕ) (2 ^ 32) % (2 ^ 32 : ℕ) = (e.addr * pgSz : ℕ) % (2 ^ 32 : ℕ) :=
    Int.bmod_emod
  omega

/-- The entry that `map` and the copy of a table make refers to the page they were given. -/
theorem FreshPage.tablePage_eq {used : Set ℕ} {page : ℕ} (hf : FreshPage used page) {e : Entry}
    (he : e.addr = ((page - hhdmStart) >>> pgSzBits) % 2 ^ 20) : e.tablePage = page := by
  have ha := pgAligned_iff.mp hf.aligned
  have hl := hf.lower
  have hu := hf.upper
  rw [Entry.tablePage, he, Nat.shiftRight_eq_div_pow]
  simp only [hhdmStart_eq, hhdmLen_eq, pgSzBits_eq, pgSz_eq] at *
  omega

theorem FreshPage.setPageDirectory_eq {used : Set ℕ} {page : ℕ} (hf : FreshPage used page) :
    setPageDirectory page = some (page - hhdmStart) := hf.hhdmToDirect_eq

end HmmOS.Arch.PageTable
