import HmmOS.Common.Memdefs
import HmmOS.Lib.Word
import HmmOS.Util.Algorithm
import HmmOS.Util.IntrusiveList
import Mathlib.Data.List.AList

/-! # The thread scheduler

A stack switch is not visible in the state of the scheduler: the bookkeeping after it
runs on the new stack, but it is the next thing that happens. `none` is a failed
assertion or a fault.
-/
namespace HmmOS.Sched
open Lib Lib.Ring Util Util.Algorithm

/-- `InvalidTID`, the largest `ThreadID`. -/
def invalidTID : ℕ := 2 ^ 16 - 1

structure KernelThread where
  stack : ℕ
  runnable : Bool
  tid : ℕ
  proc : Option ℕ
  deriving DecidableEq, Repr

/-- The list heads: `none` is that of `runnable`, `some a` that of the thread at `a`. -/
abbrev Node := Option ℕ

/-- `Scheduler`. `addressSpace` is the process whose address space was entered last, and `freed`
lists what was given back to the heap. -/
structure Scheduler where
  threads : ℕ → Option KernelThread
  links : Links Node
  running : Option ℕ
  pendingDeletion : Option ℕ
  tidCounter : ℕ
  tidMap : AList fun _ : ℕ => Option ℕ
  contextSwitchCount : ℕ
  addressSpace : Option ℕ
  freed : List ℕ

namespace Scheduler

def construct : Scheduler where
  threads := fun _ => none
  links := IntrusiveListHead.fresh
  running := none
  pendingDeletion := none
  tidCounter := 0
  tidMap := AList.insert invalidTID none ∅
  contextSwitchCount := 0
  addressSpace := none
  freed := []

def setThread (s : Scheduler) (a : ℕ) (t : Option KernelThread) : Scheduler :=
  { s with threads := Function.update s.threads a t }

/-- `new KernelThread(*this)` in memory at `a`. The constructor leaves `tid` and `proc` as the memory
was. -/
def newKernelThread (s : Scheduler) (a : ℕ) (memory : KernelThread) : Scheduler :=
  { s.setThread a (some { memory with stack := 0, runnable := true }) with
    links := IntrusiveListHead.construct s.links (some a) }

/-- The loop of `assign_next_tid`; `tid_counter` has 16 bits. -/
def tidLoop (a : ℕ) : ℕ → (AList fun _ : ℕ => Option ℕ) → ℕ →
    Option ((AList fun _ : ℕ => Option ℕ) × ℕ)
  | 0, _, _ => none
  | fuel + 1, tidMap, tidCounter =>
    if tidCounter ∈ tidMap then tidLoop a fuel tidMap (Word.add 16 tidCounter 1)
    else some (tidMap.insert tidCounter (some a), Word.add 16 tidCounter 1)

def assignNextTid (s : Scheduler) (a : ℕ) : Option Scheduler :=
  if s.tidMap.keys.length = 2 ^ 16 - 1 then none
  else do
    let (tidMap, tidCounter) ← tidLoop a (2 ^ 16) s.tidMap s.tidCounter
    let t ← s.threads a
    return { s.setThread a (some { t with tid := Word.sub 16 tidCounter 1 }) with
      tidMap := tidMap
      tidCounter := tidCounter }

/-- `bootstrap`; `addr` is what `new` returns. -/
def bootstrap (s : Scheduler) (addr : Option ℕ) (memory : KernelThread) : Option (Scheduler × ℕ) :=
  if s.running ≠ none then none
  else do
    let a ← addr
    let s ← assignNextTid { s.newKernelThread a memory with running := some a } a
    let t ← s.threads a
    return (s, t.tid)

/-- `arch::sched::setup_stack` pushes eight words. -/
def setupStack (stk : ℕ) : ℕ := Word.sub 32 stk 32

/-- `new_thread`; `stk` and `addr` are what the two calls of `new` return. -/
def newThread (s : Scheduler) (stk addr : Option ℕ) (memory : KernelThread) (proc : Option ℕ) :
    Option (Scheduler × ℕ) := do
  let stk ← stk
  let a ← addr
  let s ← (s.newKernelThread a memory).assignNextTid a
  let t ← s.threads a
  let s := s.setThread a (some { t with
    stack := setupStack (Word.add 32 stk pgSz)
    proc := proc })
  let links ← IntrusiveListHead.pushBack s.links none (some a)
  return ({ s with links := links }, t.tid)

def chooseTask (s : Scheduler) : Option (Option ℕ) := do
  let r ← s.running
  let empty ← IntrusiveListHead.empty s.links none
  if ¬ empty then return s.links.next none
  let t ← s.threads r
  if t.runnable then return some r
  return none

/-- `delete_task`: the list node, the TID, the stack page and the thread go. -/
def deleteTask (s : Scheduler) (a : ℕ) : Option Scheduler := do
  let t ← s.threads a
  let (links, _) ← IntrusiveListHead.erase s.links (some a)
  return { s.setThread a none with
    links := links
    tidMap := s.tidMap.erase t.tid
    freed := s.freed ++ [floorPg t.stack % 2 ^ 32, a] }

/-- `print_stats` divides by the number of context switches. -/
def printStats (s : Scheduler) : Option Unit := if s.contextSwitchCount = 0 then none else some ()

/-- The state in which `post_context_switch_bookkeeping` looks at the number of context switches. -/
def counted (s : Scheduler) : Option Scheduler :=
  let s := { s with contextSwitchCount := Word.add 32 s.contextSwitchCount 1 }
  match s.pendingDeletion with
  | none => some s
  | some a => (s.deleteTask a).map fun s => { s with pendingDeletion := none }

def postContextSwitchBookkeeping (s : Scheduler) : Option Scheduler := do
  let s ← s.counted
  if s.contextSwitchCount % 100 = 0 then s.printStats
  return s

theorem postContextSwitchBookkeeping_of_counted {s s' : Scheduler} (h : s.counted = some s') :
    s.postContextSwitchBookkeeping = if s'.contextSwitchCount = 0 then none else some s' := by
  simp only [postContextSwitchBookkeeping, h, printStats, Option.bind_eq_bind, Option.bind_some]
  by_cases hz : s'.contextSwitchCount = 0 <;> simp [hz]

end Scheduler

/-- What a context switch finds outside the scheduler: the word `page_directory` of the process at an address,
if there is memory, and the stack pointer that `switch_stack` saves, unless stacks are not switched. -/
structure SwitchEnv where
  pageDirectory : ℕ → Option ℕ
  esp : Option ℕ

/-- `Process::enter_virtual_address_space`, with the assertions of `set_page_directory`, gives the new value of
`cr3`. -/
def SwitchEnv.enterVirtualAddressSpace (env : SwitchEnv) (proc : ℕ) : Option ℕ :=
  (env.pageDirectory proc).bind fun pd => if pd = 0 then none else hhdmToDirect pd

/-- How far a call of the scheduler comes before the bookkeeping of a context switch. -/
inductive Progress where
  | done (s : Scheduler)
  | switched (s : Scheduler)

def Progress.finish : Progress → Option Scheduler
  | .done s => some s
  | .switched s => s.postContextSwitchBookkeeping

namespace Scheduler

/-- The address space after a switch to a thread of `proc`. -/
def enter (s : Scheduler) (env : SwitchEnv) : Option ℕ → Option (Option ℕ)
  | none => some s.addressSpace
  | some p => (env.enterVirtualAddressSpace p).map fun _ => some p

theorem enter_of_isSome {s : Scheduler} {env : SwitchEnv} {proc : Option ℕ}
    (h : ∀ p, proc = some p → (env.enterVirtualAddressSpace p).isSome) :
    s.enter env proc = some (proc.or s.addressSpace) := by
  cases proc with
  | none => rfl
  | some p =>
    obtain ⟨cr3, hcr3⟩ := Option.isSome_iff_exists.mp (h p rfl)
    rw [enter, hcr3]
    rfl

theorem enter_eq_some {s : Scheduler} {env : SwitchEnv} {proc space : Option ℕ}
    (h : s.enter env proc = some space) : space = proc.or s.addressSpace ∧
      ∀ p, proc = some p → (env.enterVirtualAddressSpace p).isSome := by
  cases proc with
  | none => exact ⟨(Option.some.inj h).symm, nofun⟩
  | some p =>
    obtain ⟨cr3, hcr3, rfl⟩ := Option.map_eq_some_iff.mp h
    refine ⟨rfl, ?_⟩
    rintro _ ⟨⟩
    exact Option.isSome_of_mem hcr3

/-- `schedule` up to the call of `post_context_switch_bookkeeping`. -/
def switch (s : Scheduler) (env : SwitchEnv) : Option Progress := do
  let newTask ← s.chooseTask
  let currentTask ← s.running
  let newTask ← newTask
  if newTask = currentTask then return .done s
  let (links, _) ← IntrusiveListHead.erase s.links (some newTask)
  let links ← IntrusiveListHead.pushBack links none (some currentTask)
  let t ← s.threads newTask
  let addressSpace ← s.enter env t.proc
  let cur ← s.threads currentTask
  return .switched { s.setThread currentTask (some { cur with stack := env.esp.getD cur.stack }) with
    running := some newTask
    links := links
    addressSpace := addressSpace }

def schedule (s : Scheduler) (env : SwitchEnv) : Option Scheduler := (s.switch env).bind Progress.finish

/-- `destroy_thread(KernelThread *, bool)` up to the call of `post_context_switch_bookkeeping`. -/
def destroy (s : Scheduler) (thread : Option ℕ) (env : SwitchEnv) : Option Progress := do
  let a ← thread.or s.running
  let t ← s.threads a
  if some a ≠ s.running then (s.deleteTask a).map Progress.done
  else if s.pendingDeletion ≠ none then none
  else
    let s := { s.setThread a (some { t with runnable := false }) with pendingDeletion := some a }
    s.switch env

def destroyThread (s : Scheduler) (thread : Option ℕ) (env : SwitchEnv) : Option Scheduler :=
  (s.destroy thread env).bind Progress.finish

def destroyTid (s : Scheduler) (tid : ℕ) (pageDirectory : ℕ → Option ℕ) (esp : ℕ) : Option Scheduler := do
  let thread ← s.tidMap.lookup tid
  let a ← thread
  s.destroyThread (some a) ⟨pageDirectory, some esp⟩

/-- `curr_proc`; the override is set while a process is under construction only. -/
def currProc (s : Scheduler) (currProcOverride : Option ℕ) : Option ℕ :=
  currProcOverride.or (s.running.bind fun a => (s.threads a).bind KernelThread.proc)

end Scheduler

end HmmOS.Sched
