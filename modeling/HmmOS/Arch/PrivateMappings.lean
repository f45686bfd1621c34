import HmmOS.Arch.AddressSpaces

/-! # Private mappings of files

The handler maps the page of the cache itself, writable if the area is, and nothing
copies it later: a store changes the file for everybody.
-/
namespace HmmOS.Arch.PageFault
open Lib Lib.IntervalList Nonstd Util.Algorithm PageTable Fs Proc Function

def PrivateFile (vma : VirtualMemoryArea) : Prop :=
  vma.flags.mapPrivate = true ∧ vma.flags.mapAnon = false

theorem PrivateFile.fileBacked {vma : VirtualMemoryArea} (h : PrivateFile vma) : FileBacked vma := by
  rw [FileBacked, h.2, Bool.false_and]

namespace Machine
variable {ι : Type*} (M : Machine ι)

def filePosition (n : Inode) (p : ℕ) : ℕ :=
  M.fs.clusterStart (M.fs.chain M.dev n.startCluster (p / pgSz)) + p % pgSz

def areaPosition (n : Inode) (vma : VirtualMemoryArea) (a : ℕ) : ℕ := M.areaStart n vma + a % pgSz

/-- What is mapped at an address of an area over the file, or else what the page holds that a fault will
map there. -/
def sees (st : MmState) (i : ι) (n : Inode) (vma : VirtualMemoryArea) (a : ℕ) : Option UInt8 :=
  ((st.on (M.cr3 i)).load a).or
    (if floorPg vma.offset < n.size then some (st.device M.dev (M.areaPosition n vma a)) else none)

/-- No process but `i` sees a difference in its mappings of the file, and neither does `read`. -/
structure Unseen (st st' : MmState) (i : ι) (n : Inode) : Prop where
  mappings : ∀ j ≠ i, ∀ vma ∈ M.vmas j, FileBacked vma → fileOf M.vfs vma = some n →
    ∀ a, Has vma a → M.sees st' j n vma a = M.sees st j n vma a
  reads : ∀ buf offset count, n.read M.fs (st'.device M.dev) buf offset count =
    n.read M.fs (st.device M.dev) buf offset count

/-- No process but `i` has the position on the device in a mapping of the file, and the file does not
reach it. -/
structure Alone (i : ι) (n : Inode) (pos : ℕ) : Prop where
  mappings : ∀ j ≠ i, ∀ vma ∈ M.vmas j, FileBacked vma → fileOf M.vfs vma = some n →
    floorPg vma.offset < n.size → ∀ a, Has vma a → M.areaPosition n vma a ≠ pos
  file : ∀ p < n.size, M.filePosition n p ≠ pos

variable {M} {clusters : ℕ} {st st' : MmState} {used : Set ℕ} {i : ι} {vma : VirtualMemoryArea}
  {n : Inode} {a : ℕ} {b : UInt8}

section
variable (h : M.Ok st used) (hmem : vma ∈ M.vmas i) (hb : FileBacked vma)
include h hmem hb

theorem Ok.load_eq (hn : fileOf M.vfs vma = some n) (hhas : Has vma a) {tr : Translation}
    (hw : walk st.tables (M.cr3 i) (floorPg a) = some tr) : floorPg vma.offset < n.size ∧
      (st.on (M.cr3 i)).load a = some (st.device M.dev (M.areaPosition n vma a)) := by
  obtain ⟨n', hn', hlt, hcache⟩ := h.files i vma hmem hb a hhas tr hw
  obtain rfl : n = n' := Option.some.inj (hn.symm.trans hn')
  have hdev := @device_cached M.dev st _ _ _ (h.aligned _ _ hcache) hcache (mod_pgSz_lt a)
  refine ⟨hlt, ?_⟩
  rw [areaPosition, hdev, MmState.load]
  exact congrArg (Option.map _) hw

theorem Ok.sees_eq (hn : fileOf M.vfs vma = some n) (hhas : Has vma a) : M.sees st i n vma a =
      if floorPg vma.offset < n.size then some (st.device M.dev (M.areaPosition n vma a)) else none := by
  rw [sees]
  cases hw : walk st.tables (M.cr3 i) (floorPg a) with
  | none =>
    have hload : (st.on (M.cr3 i)).load a = none := congrArg (Option.map _) hw
    rw [hload, Option.none_or]
  | some tr =>
    obtain ⟨hlt, hload⟩ := h.load_eq hmem hb hn hhas hw
    rw [hload, if_pos hlt, Option.some_or]

/-- A store through a mapping of a file changes the device. -/
theorem Ok.store_device (hn : fileOf M.vfs vma = some n) (hhas : Has vma a)
    (hstore : (st.on (M.cr3 i)).store a b = some st') :
    (st.on (M.cr3 i)).load a = some (st.device M.dev (M.areaPosition n vma a)) ∧
      st'.device M.dev = update (st.device M.dev) (M.areaPosition n vma a) b := by
  obtain ⟨tr, hw, -, -, rfl⟩ := store_cases hstore
  obtain ⟨n', hn', -, hcache⟩ := h.files i vma hmem hb a hhas tr hw
  obtain rfl : n = n' := Option.some.inj (hn.symm.trans hn')
  exact ⟨(h.load_eq hmem hb hn hhas hw).2, device_poke (h.placed i) hcache (mod_pgSz_lt a) b⟩

end

theorem Ok.fileByte_eq (h : M.Ok st used) (hm : M.Mounted clusters)
    (hfile : RegularFile M.fs M.dev clusters n) {p : ℕ} (hp : p < n.size) :
    n.fileByte M.fs (st.device M.dev) p = st.device M.dev (M.filePosition n p) := by
  rw [Inode.fileByte, filePosition, chain_congr (h.sameFat hm) hfile ((Nat.mul_div_le _ _).trans_lt hp)]

/-- `read` sees a store through a mapping of a file just when the file reaches the position. -/
theorem Ok.reads_iff (h : M.Ok st used) (h' : M.Ok st' used) (hm : M.Mounted clusters)
    (hfile : RegularFile M.fs M.dev clusters n) {pos : ℕ}
    (hdev : st'.device M.dev = update (st.device M.dev) pos b) (hb : b ≠ st.device M.dev pos) :
    (∀ buf offset count, n.read M.fs (st'.device M.dev) buf offset count =
      n.read M.fs (st.device M.dev) buf offset count) ↔ ∀ p < n.size, M.filePosition n p ≠ pos := by
  rw [read_eq_iff hm.volume (hfile.congr (h.sameFat hm)) (hfile.congr (h'.sameFat hm))]
  apply forall₂_congr
  intro p hp
  rw [h.fileByte_eq hm hfile hp, h'.fileByte_eq hm hfile hp, hdev]
  constructor
  · rintro heq rfl
    rw [update_self] at heq
    exact hb heq
  · exact fun hne => update_of_ne hne _ _

theorem Ok.unseen_iff (h : M.Ok st used) (hm : M.Mounted clusters) (hmem : vma ∈ M.vmas i)
    (hb : FileBacked vma) (hn : fileOf M.vfs vma = some n) (hhas : Has vma a)
    (hstore : (st.on (M.cr3 i)).store a b = some st') : M.Unseen st st' i n ↔
      (st.on (M.cr3 i)).load a = some b ∨ M.Alone i n (M.areaPosition n vma a) := by
  have h' := h.store hstore
  obtain ⟨hload, hdev⟩ := h.store_device hmem hb hn hhas hstore
  rw [hload, Option.some.injEq]
  by_cases hbyte : st.device M.dev (M.areaPosition n vma a) = b
  · -- the store changes nothing
    have hsame : st'.device M.dev = st.device M.dev := by
      rw [hdev, ← hbyte, update_eq_self]
    apply iff_of_true _ (.inl hbyte)
    constructor
    · intro j _ vma' hmem' hb' hn' x hx
      rw [h.sees_eq hmem' hb' hn' hx, h'.sees_eq hmem' hb' hn' hx, hsame]
    · intro buf offset count
      rw [hsame]
  · have hreads := h.reads_iff h' hm (hm.regular i vma hmem n hn) hdev (Ne.symm hbyte)
    constructor
    · rintro ⟨hmappings, hread⟩
      refine .inr ⟨?_, hreads.mp hread⟩
      intro j hj vma' hmem' hb' hn' hlt x hx hpos
      have hsees := hmappings j hj vma' hmem' hb' hn' x hx
      rw [h.sees_eq hmem' hb' hn' hx, h'.sees_eq hmem' hb' hn' hx, if_pos hlt, if_pos hlt, hdev, hpos,
        update_self, Option.some.injEq] at hsees
      exact hbyte hsees.symm
    · rintro (heq | ⟨hmappings, hfile⟩)
      · exact absurd heq hbyte
      · refine ⟨?_, hreads.mpr hfile⟩
        intro j hj vma' hmem' hb' hn' x hx
        rw [h.sees_eq hmem' hb' hn' hx, h'.sees_eq hmem' hb' hn' hx]
        split_ifs with hlt
        · rw [hdev, update_of_ne (hmappings j hj vma' hmem' hb' hn' hlt x hx)]
        · rfl

/-- A store through a private mapping is unseen by others just when it stores what is there, or nothing
else shows that place of the device. -/
theorem private_store_unseen_iff {st0 : MmState} {used0 : Set ℕ} (hm : M.Mounted clusters)
    (hstart : M.Start st0 used0) (hrun : M.Run st0 used0 st used) (hmem : vma ∈ M.vmas i)
    (hprivate : PrivateFile vma) (hn : fileOf M.vfs vma = some n) (hhas : Has vma a)
    (hstore : (st.on (M.cr3 i)).store a b = some st') :
    M.Unseen st st' i n ↔
      (st.on (M.cr3 i)).load a = some b ∨ M.Alone i n (M.areaPosition n vma a) :=
  (hrun.ok hm hstart).unseen_iff hm hmem hprivate.fileBacked hn hhas hstore

end Machine

def dataPage : VirtualMemoryArea where
  addr := 0x400000
  len := 0x1000
  prot := { readable := true, writable := true }
  flags := { mapPrivate := true }
  dentry := some 1
  offset := 0

def twoProcesses : Machine Bool where
  fs := twoClusters
  dev := twoClustersDev
  vfs := twoPagesVfs
  spaces := fun second => { cr3 := if second then 0x2000 else 0x1000, vmas := [dataPage] }

def emptyDirectories : MmState where
  tables := fun _ _ => {}
  cr3 := 0x1000
  phys := fun _ _ => 0
  cache := fun _ => none
  buf := 0xFDC00000

def dataFault (st : MmState) (second : Bool) (new : FaultPages) : Outcome :=
  isrPf twoProcesses.fs twoProcesses.dev twoProcesses.vfs (twoProcesses.vmas second)
    (st.on (twoProcesses.cr3 second)) new { w := true, u := true } 0x400000

def Outcome.state? : Outcome → Option MmState
  | .returned st => some st
  | _ => none

theorem returned_of_state? {outcome : Outcome} (h : outcome.state?.isSome = true) (st : MmState) :
    outcome = .returned (outcome.state?.getD st) := by
  cases outcome with
  | returned st' => rfl
  | killed => cases h
  | stopped => cases h

def firstTouched : MmState :=
  (dataFault emptyDirectories false { page := some 0xC0003000, table := some 0xC0004000 }).state?.getD emptyDirectories

def bothTouched : MmState := (dataFault firstTouched true { page := none, table := some 0xC0005000 }).state?.getD firstTouched

theorem firstTouched_eq : dataFault emptyDirectories false { page := some 0xC0003000, table := some 0xC0004000 } =
    .returned firstTouched := returned_of_state? (by decide +kernel) _

theorem bothTouched_eq : dataFault firstTouched true { page := none, table := some 0xC0005000 } = .returned bothTouched :=
  returned_of_state? (by decide +kernel) _

theorem dataPage_file {n : Inode} (h : fileOf twoPagesVfs dataPage = some n) : n = twoClustersFile :=
  (Option.some.inj h).symm

theorem twoProcesses_mounted : twoProcesses.Mounted 2 where
  volume := twoClusters_volume
  fat_first := by decide
  areas := by
    intro i
    refine ⟨List.pairwise_singleton .., ?_, ?_, ?_⟩ <;>
      · intro v hv
        obtain rfl := List.mem_singleton.mp hv
        decide
  regular := by
    intro i vma hmem n hn
    obtain rfl := List.mem_singleton.mp hmem
    rw [dataPage_file hn]
    exact twoClustersFile_regular

theorem emptyDirectories_walk (cr3 virt : ℕ) (hcr3 : cr3 < hhdmLen) :
    walk emptyDirectories.tables cr3 virt = none := by
  by_cases hv : IsPage virt
  · rw [walk_eq hcr3 hv]
    rfl
  · exact walk_of_not_isPage hv

theorem twoProcesses_cr3 (i : Bool) : twoProcesses.cr3 i < hhdmLen := by
  cases i <;> decide

theorem twoProcesses_start : twoProcesses.Start emptyDirectories {0xC0001000, 0xC0002000} where
  separate := by
    refine ⟨fun i => {pdOf (twoProcesses.cr3 i)}, ?_, ?_, ?_⟩
    · intro i
      refine ⟨twoProcesses_cr3 i, rfl, ?_, ?_⟩
      · intro k _ hp
        cases hp
      · intro k _ l _ pt ht
        cases ht
    · intro i
      apply Set.singleton_subset_iff.mpr
      cases i with
      | false => exact .inl (by decide)
      | true => exact .inr (by decide)
    · intro i j hij
      rw [Set.disjoint_singleton]
      cases i <;> cases j <;> first | exact absurd rfl hij | decide
  aligned := nofun
  place := nofun
  distinct := nofun
  bytes := rfl
  kernel := by
    intro i virt tr hw
    rw [emptyDirectories_walk _ _ (twoProcesses_cr3 i)] at hw
    cases hw
  untouched := fun i _ _ a _ => emptyDirectories_walk _ _ (twoProcesses_cr3 i)

theorem noLeases_fresh {used : Set ℕ} {new : NewPages} (h : new.Fresh used) :
    FaultPages.Fresh { new with } used where
  fat := fun _ => ⟨nofun, nofun⟩
  last := by
    have hused : allLeased used (fun _ => ⟨none, none⟩) = used := by simp [allLeased]
    rw [hused]
    exact h

def usedByFirst : Set ℕ :=
  FaultPages.addTo { page := some 0xC0003000, table := some 0xC0004000 } {0xC0001000, 0xC0002000}

theorem firstTouched_run :
    twoProcesses.Run emptyDirectories {0xC0001000, 0xC0002000} firstTouched usedByFirst := by
  have hf : Fault (emptyDirectories.on (twoProcesses.cr3 false)) {0xC0001000, 0xC0002000}
      { page := some 0xC0003000, table := some 0xC0004000 } { w := true, u := true } 0x400000 := by
    refine ⟨by decide, rfl, by decide +kernel, by decide +kernel, noLeases_fresh ⟨?_, ?_⟩⟩
    · rintro page ⟨⟩
      exact freshPage_of_mem (by decide) (by simp)
    · rintro page ⟨⟩
      exact freshPage_of_mem (by decide) (by simp [usedWith])
  exact Machine.Run.start.fault hf firstTouched_eq

theorem bothTouched_run : twoProcesses.Run emptyDirectories {0xC0001000, 0xC0002000} bothTouched
    (FaultPages.addTo { page := none, table := some 0xC0005000 } usedByFirst) := by
  have hf : Fault (firstTouched.on (twoProcesses.cr3 true)) usedByFirst
      { page := none, table := some 0xC0005000 } { w := true, u := true } 0x400000 := by
    refine ⟨by decide, rfl, by decide +kernel, by decide +kernel, noLeases_fresh ⟨nofun, ?_⟩⟩
    rintro page ⟨⟩
    exact freshPage_of_mem (by decide)
      (by simp [usedWith, usedByFirst, FaultPages.addTo, NewPages.addTo, allLeased])
  exact firstTouched_run.fault hf bothTouched_eq

theorem dataPage_has : Has dataPage 0x400000 := ⟨by decide, by decide⟩

/-- A store of the byte that is there. -/
theorem firstTouched_store_unseen : ∃ st',
    (firstTouched.on (twoProcesses.cr3 false)).store 0x400000 0 = some st' ∧
      twoProcesses.Unseen firstTouched st' false twoClustersFile := by
  have hw : walk (firstTouched.on (twoProcesses.cr3 false)).tables (twoProcesses.cr3 false)
      (floorPg 0x400000) = some ⟨3, true, true, false⟩ := by decide +kernel
  have hstore := Machine.store_eq hw rfl rfl 0
  refine ⟨_, hstore, ?_⟩
  have hmem : dataPage ∈ twoProcesses.vmas false := List.mem_cons_self
  apply (Machine.private_store_unseen_iff twoProcesses_mounted twoProcesses_start firstTouched_run
    hmem ⟨rfl, rfl⟩ rfl dataPage_has hstore).mpr
  exact .inl (by decide +kernel)

/-- Both processes have the page of data mapped. What the first one stores, the second one reads. -/
theorem bothTouched_store_seen : ∃ st',
    (bothTouched.on (twoProcesses.cr3 false)).store 0x400000 0x55 = some st' ∧ PrivateFile dataPage ∧
      (bothTouched.on (twoProcesses.cr3 true)).load 0x400000 = some 0 ∧
      (st'.on (twoProcesses.cr3 true)).load 0x400000 = some 0x55 ∧
      ¬ twoProcesses.Unseen bothTouched st' false twoClustersFile := by
  have hw : walk (bothTouched.on (twoProcesses.cr3 false)).tables (twoProcesses.cr3 false)
      (floorPg 0x400000) = some ⟨3, true, true, false⟩ := by decide +kernel
  have hstore := Machine.store_eq hw rfl rfl 0x55
  refine ⟨_, hstore, ⟨rfl, rfl⟩, by decide +kernel, by decide +kernel, ?_⟩
  have hok := bothTouched_run.ok twoProcesses_mounted twoProcesses_start
  have hmem : dataPage ∈ twoProcesses.vmas false := List.mem_cons_self
  rw [hok.unseen_iff twoProcesses_mounted hmem rfl rfl dataPage_has hstore]
  rintro (hload | halone)
  · revert hload
    decide +kernel
  · exact halone.file 0 (by decide) (by decide +kernel)

end HmmOS.Arch.PageFault
