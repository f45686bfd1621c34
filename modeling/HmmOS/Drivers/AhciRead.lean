import HmmOS.Drivers.Ahci
import Mathlib.Order.Basic

/-! # Reading sectors

The device is an oracle for what the driver polls; it answers after finitely many polls.
Requests of up to 16 sectors use one PRDT entry. For longer ones the entries advance by
4 KB although each has 8 KB, and the count in the command is that of the last entry.
-/
namespace HmmOS.Drivers.Ahci
open Lib Lib.ByteFields Nonstd Util.Algorithm

def setReadHeader (mem : Bytes) (hdr : ℕ) : Bytes :=
  let mem := store mem hdr 1 (setField (load mem hdr 1) 0 5 (0x14 / 4))
  store mem hdr 1 (setField (load mem hdr 1) 6 1 0)

/-- Set `dba`, `dbau`, `dbc` and `i` of the PRDT entry at `a`. -/
def setPrdtEntry (mem : Bytes) (a destPaddr dbc : ℕ) : Bytes :=
  let mem := store mem a 4 destPaddr
  let mem := store mem (a + 4) 4 (destPaddr >>> 32)
  let mem := store mem (a + 12) 4 (setField (load mem (a + 12) 4) 0 22 dbc)
  store mem (a + 12) 4 (setField (load mem (a + 12) 4) 31 1 1)

def prdtEntry (tbl i : ℕ) : ℕ := tbl + sizeofCommandTable + sizeofPrdtEntry * i

variable {a count destPaddr starth startl x cfis dbc tbl : ℕ} {mem : Bytes}

@[simp] theorem prdtEntry_eq (tbl i : ℕ) : prdtEntry tbl i = tbl + 0x80 + 0x10 * i := rfl

/-- The first turns of the loop over all entries but the last: the memory, the destination and the number of
sectors that are left. -/
def fillEntries (mem : Bytes) (tbl destPaddr count : ℕ) : ℕ → Bytes × ℕ × ℕ
  | 0 => (mem, destPaddr, count)
  | i + 1 =>
    let r := fillEntries mem tbl destPaddr count i
    (setPrdtEntry r.1 (prdtEntry tbl i) r.2.1 (8 * 1024 - 1), Word.add 64 r.2.1 (4 * 1024),
      Word.sub 32 r.2.2 16)

def setRegisterH2D (mem : Bytes) (cfis startl starth count : ℕ) : Bytes :=
  let mem := store mem cfis 1 0x27
  let mem := store mem (cfis + 1) 1 (setField (load mem (cfis + 1) 1) 7 1 1)
  let mem := store mem (cfis + 2) 1 0x25
  let mem := store mem (cfis + 4) 1 startl
  let mem := store mem (cfis + 5) 1 (startl >>> 8)
  let mem := store mem (cfis + 6) 1 (startl >>> 16)
  let mem := store mem (cfis + 7) 1 (1 <<< 6)
  let mem := store mem (cfis + 8) 1 (startl >>> 24)
  let mem := store mem (cfis + 9) 1 starth
  let mem := store mem (cfis + 10) 1 (starth >>> 8)
  let mem := store mem (cfis + 12) 1 (count &&& 0xFF)
  store mem (cfis + 13) 1 ((count >>> 8) &&& 0xFF)

/-- Clear the table, then set up `prdtl` entries and the command FIS. -/
def buildCommand (mem : Bytes) (tbl prdtl startl starth count destPaddr : ℕ) : Bytes :=
  let mem := memset mem tbl 0 (sizeofCommandTable + prdtl * sizeofPrdtEntry)
  let r := fillEntries mem tbl destPaddr count (prdtl - 1)
  let mem := setPrdtEntry r.1 (prdtEntry tbl (prdtl - 1)) r.2.1 (Word.sub 32 (r.2.2 <<< 9) 1)
  setRegisterH2D mem tbl startl starth r.2.2

def findFreeCmdslot (port : PortRegisters) : Option ℕ :=
  (List.range 32).find? fun i => !(port.sact ||| port.ci).testBit i

/-- What the device shows: whether it is busy, whether the command is pending and whether there is an error, each
at the polls of the driver. -/
structure Device where
  busy : ℕ → Bool
  pending : ℕ → Bool
  error : ℕ → Bool
  responds : ∃ k, pending k = false ∨ error k = true

def waitReady (busy : ℕ → Bool) : ℕ → ℕ → Bool
  | 0, _ => false
  | n + 1, k => if busy k then waitReady busy n (k + 1) else true

/-- Wait for completion: whether there was no error. -/
def Device.completes (dev : Device) : Bool :=
  !dev.pending (Nat.find dev.responds) && !dev.error (Nat.find dev.responds)

structure ReadResult where
  ret : Bool
  hba : Hba
  /-- The slot whose command is issued. -/
  issued : Option ℕ

def prdtEntriesCount (count : ℕ) : ℕ := (Word.sub 32 count 1 >>> 4) % 2 ^ 16 + 1

/-- The header and the table are apart, so that the number of entries stays what it is while the table is
filled. -/
def readBlocking (s : Hba) (dev : Device) (portIdx startl starth count destPaddr : ℕ) : Option ReadResult :=
  if alignedPow2 512 (destPaddr % 2 ^ 32) then
    match findFreeCmdslot (s.ports portIdx) with
    | none => some ⟨false, s, none⟩
    | some slot =>
      (ahciPhysToVirt s (s.ports portIdx).clb).bind fun list =>
        let hdr := list + sizeofCommandHeader * slot
        let mem := setReadHeader s.mem hdr
        if prdtEntriesCount count > prdtesPerCommand then some ⟨false, { s with mem := mem }, none⟩
        else
          let mem := store mem (hdr + 2) 2 (prdtEntriesCount count)
          (ahciPhysToVirt s (load mem (hdr + 8) 4)).map fun tbl =>
            let mem := buildCommand mem tbl (prdtEntriesCount count) startl starth count destPaddr
            if waitReady dev.busy 1000000 0 then
              let port : PortRegisters :=
                { s.ports portIdx with
                  ci := 1 <<< slot }
              ⟨dev.completes, { s with mem := mem, ports := Function.update s.ports portIdx port }, some slot⟩
            else ⟨false, { s with mem := mem }, none⟩
  else none

def prdtl (mem : Bytes) (hdr : ℕ) : ℕ := load mem (hdr + 2) 2

def entryStart (mem : Bytes) (a : ℕ) : ℕ := load mem a 4 + 2 ^ 32 * load mem (a + 4) 4

def entryLength (mem : Bytes) (a : ℕ) : ℕ := field (load mem (a + 12) 4) 0 22 + 1

def fisLba (mem : Bytes) (cfis : ℕ) : ℕ := load mem (cfis + 4) 3 + 2 ^ 24 * load mem (cfis + 8) 3

def fisCount (mem : Bytes) (cfis : ℕ) : ℕ := load mem (cfis + 12) 2

structure Describes (mem : Bytes) (hdr tbl startl starth count destPaddr : ℕ) : Prop where
  first : entryStart mem (prdtEntry tbl 0) = destPaddr
  consecutive : ∀ i, i + 1 < prdtl mem hdr →
    entryStart mem (prdtEntry tbl (i + 1)) =
      entryStart mem (prdtEntry tbl i) + entryLength mem (prdtEntry tbl i)
  last : 0 < prdtl mem hdr ∧ entryStart mem (prdtEntry tbl (prdtl mem hdr - 1)) +
    entryLength mem (prdtEntry tbl (prdtl mem hdr - 1)) = destPaddr + 512 * count
  lba : fisLba mem tbl = startl + 2 ^ 32 * starth
  sectors : fisCount mem tbl = count

structure Slot (s : Hba) (portIdx slot hdr tbl : ℕ) : Prop where
  free : findFreeCmdslot (s.ports portIdx) = some slot
  header : ∃ list, ahciPhysToVirt s (s.ports portIdx).clb = some list ∧
    hdr = list + sizeofCommandHeader * slot
  table : ahciPhysToVirt s (load s.mem (hdr + 8) 4) = some tbl
  apart : hdr + sizeofCommandHeader ≤ tbl ∨ tbl + tableStride ≤ hdr

/-- Whether a number of sectors fits the entries of a table. -/
def Fits (count : ℕ) : Prop := 1 ≤ count ∧ count ≤ 16 * prdtesPerCommand

/-- A command is issued only for numbers of sectors that fit, and others are refused with the table left
alone. -/
def Guarded (count : ℕ) : Prop :=
  ∀ (s : Hba) (dev : Device) (portIdx startl starth destPaddr : ℕ) (r : ReadResult),
    readBlocking s dev portIdx startl starth count destPaddr = some r →
      (r.issued ≠ none → Fits count) ∧
      (¬ Fits count → r.ret = false ∧ ∀ slot hdr tbl, Slot s portIdx slot hdr tbl →
        ∀ x, tbl ≤ x → x < tbl + tableStride → r.hba.mem x = s.mem x)

theorem setReadHeader_of_not_mem {hdr : ℕ} (h : x ≠ hdr) : setReadHeader mem hdr x = mem x := by
  unfold setReadHeader
  rw [store_of_not_mem (by omega), store_of_not_mem (by omega)]

theorem setPrdtEntry_of_not_mem (h : x < a ∨ a + 16 ≤ x) : setPrdtEntry mem a destPaddr dbc x = mem x := by
  unfold setPrdtEntry
  rw [store_of_not_mem (by omega), store_of_not_mem (by omega), store_of_not_mem (by omega),
    store_of_not_mem (by omega)]

theorem fillEntries_of_not_mem {n : ℕ} (h : x < tbl ∨ tbl + 0x80 + 16 * n ≤ x) :
    (fillEntries mem tbl destPaddr count n).1 x = mem x := by
  induction n with
  | zero => rfl
  | succ n ih =>
    rw [fillEntries, prdtEntry_eq]
    dsimp only
    rw [setPrdtEntry_of_not_mem (by omega), ih (by omega)]

theorem setRegisterH2D_of_not_mem (h : x < cfis ∨ cfis + 16 ≤ x) :
    setRegisterH2D mem cfis startl starth count x = mem x := by
  unfold setRegisterH2D
  iterate 12 rw [store_of_not_mem (by omega)]

theorem buildCommand_of_not_mem {n : ℕ} (hpos : 0 < n) (hle : n ≤ prdtesPerCommand)
    (h : x < tbl ∨ tbl + tableStride ≤ x) : buildCommand mem tbl n startl starth count destPaddr x = mem x := by
  rw [tableStride_eq] at h
  simp only [prdtesPerCommand] at hle
  unfold buildCommand
  rw [setRegisterH2D_of_not_mem (by omega), prdtEntry_eq, setPrdtEntry_of_not_mem (by omega),
    fillEntries_of_not_mem (by omega), memset, if_neg]
  simp only [sizeofCommandTable, sizeofPrdtEntry]
  omega

theorem entryStart_setPrdtEntry (h : destPaddr < 2 ^ 64) :
    entryStart (setPrdtEntry mem a destPaddr dbc) a = destPaddr := by
  unfold entryStart setPrdtEntry
  iterate 3 rw [load_store_of_apart (by omega)]
  rw [load_store]
  iterate 2 rw [load_store_of_apart (by omega)]
  rw [load_store, Nat.shiftRight_eq_div_pow]
  omega

theorem entryLength_setPrdtEntry : entryLength (setPrdtEntry mem a destPaddr dbc) a = dbc % 2 ^ 22 + 1 := by
  unfold entryLength setPrdtEntry
  rw [load_store, load_store, field, setField, setField]
  omega

theorem fillEntries_count {n : ℕ} (hle : 16 * n ≤ count) (hlt : count < 2 ^ 32) :
    (fillEntries mem tbl destPaddr count n).2.2 = count - 16 * n := by
  induction n with
  | zero => rfl
  | succ n ih =>
    rw [fillEntries]
    dsimp only
    rw [ih (by omega), Word.sub_of_le (by omega) (by omega)]
    omega

theorem fisLba_setRegisterH2D (hl : startl < 2 ^ 32) (hh : starth < 2 ^ 16) :
    fisLba (setRegisterH2D mem cfis startl starth count) cfis = startl + 2 ^ 32 * starth := by
  simp [fisLba, setRegisterH2D, load, store, Nat.shiftRight_eq_div_pow]
  omega

theorem fisCount_setRegisterH2D (mem : Bytes) (cfis startl starth count : ℕ) :
    fisCount (setRegisterH2D mem cfis startl starth count) cfis = count % 2 ^ 16 := by
  have hmask := Word.and_mask 8
  norm_num only at hmask
  simp [fisCount, setRegisterH2D, load, store, Nat.shiftRight_eq_div_pow, hmask]
  omega

theorem prdtEntriesCount_eq (hpos : 0 < count) (hlt : count < 2 ^ 32) :
    prdtEntriesCount count = (count - 1) / 16 % 2 ^ 16 + 1 := by
  rw [prdtEntriesCount, Word.sub_of_le hpos hlt, Nat.shiftRight_eq_div_pow]

/-- The check accepts a number of sectors by its value modulo `2^20`. -/
theorem prdtEntriesCount_gt_iff (hlt : count < 2 ^ 32) :
    prdtEntriesCount count > prdtesPerCommand ↔ count = 0 ∨ 128 ≤ (count - 1) % 2 ^ 20 := by
  rcases Nat.eq_zero_or_pos count with rfl | hpos
  · decide
  · rw [prdtEntriesCount_eq hpos hlt, prdtesPerCommand]
    omega

/-- A request that is refused changes the header of the slot at most. -/
theorem readBlocking_refused {s : Hba} {dev : Device} {portIdx : ℕ} {r : ReadResult}
    (hgt : prdtEntriesCount count > prdtesPerCommand)
    (h : readBlocking s dev portIdx startl starth count destPaddr = some r) :
    r.ret = false ∧ r.issued = none ∧ ∀ slot hdr tbl, Slot s portIdx slot hdr tbl →
      r.hba.mem = setReadHeader s.mem hdr := by
  unfold readBlocking at h
  split at h
  case isFalse => cases h
  case isTrue =>
    split at h
    · next hnone =>
      cases h
      refine ⟨rfl, rfl, ?_⟩
      intro slot hdr tbl hslot
      rw [hslot.free] at hnone
      cases hnone
    · next slot hfree =>
      obtain ⟨list, hlist, h⟩ := Option.bind_eq_some_iff.mp h
      cases h
      refine ⟨rfl, rfl, ?_⟩
      intro slot' hdr tbl hslot
      obtain ⟨list', hlist', rfl⟩ := hslot.header
      obtain rfl : list = list' := Option.some.inj (hlist.symm.trans hlist')
      obtain rfl : slot = slot' := Option.some.inj (hfree.symm.trans hslot.free)
      rfl

section Run
variable {s : Hba} {portIdx slot hdr tbl : ℕ} (hslot : Slot s portIdx slot hdr tbl) (dev : Device)
  (startl starth count destPaddr : ℕ)
include hslot

theorem readBlocking_accepted (hle : ¬ prdtEntriesCount count > prdtesPerCommand)
    (haligned : alignedPow2 512 (destPaddr % 2 ^ 32) = true) :
    ∃ r, readBlocking s dev portIdx startl starth count destPaddr = some r ∧
      r.hba.mem = buildCommand (store (setReadHeader s.mem hdr) (hdr + 2) 2 (prdtEntriesCount count)) tbl
        (prdtEntriesCount count) startl starth count destPaddr ∧
      (dev.busy 0 = false → r.issued = some slot) := by
  obtain ⟨list, hlist, rfl⟩ := hslot.header
  have htable : load (store (setReadHeader s.mem (list + sizeofCommandHeader * slot))
      (list + sizeofCommandHeader * slot + 2) 2 (prdtEntriesCount count))
        (list + sizeofCommandHeader * slot + 8) 4 = load s.mem (list + sizeofCommandHeader * slot + 8) 4 := by
    rw [load_store_of_apart (by omega)]
    apply load_congr
    intro i _
    exact setReadHeader_of_not_mem (by omega)
  rw [readBlocking, if_pos haligned, hslot.free]
  dsimp only
  rw [hlist, Option.bind_some, if_neg hle, htable, hslot.table, Option.map_some]
  refine ⟨_, rfl, ?_, ?_⟩
  · split <;> rfl
  · intro hready
    rw [waitReady, hready]
    rfl

theorem prdtl_buildCommand (mem : Bytes) {n : ℕ} (hpos : 0 < n) (hle : n ≤ prdtesPerCommand) :
    prdtl (buildCommand (store mem (hdr + 2) 2 n) tbl n startl starth count destPaddr) hdr = n := by
  have hkeep : prdtl (buildCommand (store mem (hdr + 2) 2 n) tbl n startl starth count destPaddr) hdr =
      load (store mem (hdr + 2) 2 n) (hdr + 2) 2 := by
    apply load_congr
    intro i hi
    apply buildCommand_of_not_mem hpos hle
    have happart := hslot.apart
    rw [sizeofCommandHeader_eq] at happart
    omega
  simp only [prdtesPerCommand] at hle
  rw [hkeep, load_store, Nat.mod_eq_of_lt (by omega)]

end Run

theorem load_setRegisterH2D {k : ℕ} (h : cfis + 16 ≤ a) :
    load (setRegisterH2D mem cfis startl starth count) a k = load mem a k := by
  apply load_congr
  intro i _
  exact setRegisterH2D_of_not_mem (by omega)

section Last
variable {mem : Bytes} {tbl n startl starth count destPaddr : ℕ}

/-- The last entry has what the loop leaves of the destination. -/
theorem entryStart_last
    (h : (fillEntries (memset mem tbl 0 (0x80 + n * 0x10)) tbl destPaddr count (n - 1)).2.1 < 2 ^ 64) :
    entryStart (buildCommand mem tbl n startl starth count destPaddr) (prdtEntry tbl (n - 1)) =
      (fillEntries (memset mem tbl 0 (0x80 + n * 0x10)) tbl destPaddr count (n - 1)).2.1 := by
  rw [entryStart, buildCommand, load_setRegisterH2D, load_setRegisterH2D]
  · exact entryStart_setPrdtEntry h
  · rw [prdtEntry_eq]
    omega
  · rw [prdtEntry_eq]
    omega

theorem entryLength_last :
    entryLength (buildCommand mem tbl n startl starth count destPaddr) (prdtEntry tbl (n - 1)) =
      Word.sub 32 ((fillEntries (memset mem tbl 0 (0x80 + n * 0x10)) tbl destPaddr count (n - 1)).2.2 <<< 9) 1 %
        2 ^ 22 + 1 := by
  rw [entryLength, buildCommand, load_setRegisterH2D]
  · exact entryLength_setPrdtEntry
  · rw [prdtEntry_eq]
    omega

theorem fisCount_last (hle : 16 * (n - 1) ≤ count) (hlt : count < 2 ^ 16) :
    fisCount (buildCommand mem tbl n startl starth count destPaddr) tbl = count - 16 * (n - 1) := by
  refine (fisCount_setRegisterH2D _ _ _ _ _).trans ?_
  rw [fillEntries_count hle (by omega), Nat.mod_eq_of_lt (by omega)]

end Last

theorem describes_single {hdr : ℕ} (hpos : 1 ≤ count) (hmax : count ≤ 16) (hl : startl < 2 ^ 32)
    (hh : starth < 2 ^ 16) (hdest : destPaddr < 2 ^ 64)
    (hprdtl : prdtl (buildCommand mem tbl 1 startl starth count destPaddr) hdr = 1) :
    Describes (buildCommand mem tbl 1 startl starth count destPaddr) hdr tbl startl starth count destPaddr := by
  have hstart : entryStart (buildCommand mem tbl 1 startl starth count destPaddr) (prdtEntry tbl 0) =
      destPaddr := @entryStart_last mem tbl 1 startl starth count destPaddr hdest
  have hlength : entryLength (buildCommand mem tbl 1 startl starth count destPaddr) (prdtEntry tbl 0) =
      512 * count := by
    have hbytes : Word.sub 32 (count <<< 9) 1 = 512 * count - 1 := by
      rw [Nat.shiftLeft_eq, Word.sub_of_le (by omega) (by omega)]
      omega
    refine (@entryLength_last mem tbl 1 startl starth count destPaddr).trans ?_
    change Word.sub 32 (count <<< 9) 1 % 2 ^ 22 + 1 = _
    omega
  refine ⟨hstart, ?_, ?_, ?_, ?_⟩
  · intro i hi
    omega
  · rw [hprdtl, hstart, hlength]
    exact ⟨Nat.one_pos, rfl⟩
  · exact fisLba_setRegisterH2D hl hh
  · exact fisCount_last (Nat.zero_le _) (by omega)

/-- The command is the one that is asked for exactly if one entry is enough. -/
theorem readBlocking_describes_iff {s : Hba} {dev : Device} {portIdx slot hdr tbl startl starth count destPaddr : ℕ}
    {r : ReadResult} (hslot : Slot s portIdx slot hdr tbl) (hpos : 1 ≤ count) (hmax : count ≤ 128)
    (hl : startl < 2 ^ 32) (hh : starth < 2 ^ 16) (hdest : destPaddr < 2 ^ 64) (haligned : 512 ∣ destPaddr)
    (h : readBlocking s dev portIdx startl starth count destPaddr = some r) :
    Describes r.hba.mem hdr tbl startl starth count destPaddr ↔ count ≤ 16 := by
  have haligned' : alignedPow2 512 (destPaddr % 2 ^ 32) = true :=
    (@alignedPow2_two_pow 9 _ (by decide)).mpr (by omega)
  have hn : prdtEntriesCount count = (count - 1) / 16 + 1 := by
    rw [prdtEntriesCount_eq hpos (by omega)]
    omega
  have hle : ¬ prdtEntriesCount count > prdtesPerCommand := by
    rw [prdtEntriesCount_gt_iff (by omega)]
    omega
  obtain ⟨r', hr', hmem, -⟩ := readBlocking_accepted hslot dev startl starth count destPaddr hle haligned'
  obtain rfl : r' = r := Option.some.inj (hr'.symm.trans h)
  have hprdtl := @prdtl_buildCommand _ _ _ _ _ hslot startl starth count destPaddr (setReadHeader s.mem hdr)
    (prdtEntriesCount count) (by omega) (by omega)
  rw [hmem]
  constructor
  · intro hdescribes
    -- the count in the FIS is the one that is left for the last entry
    have hleft := hdescribes.sectors
    rw [fisCount_last (by omega) (by omega)] at hleft
    omega
  · intro hsmall
    have hone : prdtEntriesCount count = 1 := by omega
    rw [hone] at hprdtl ⊢
    exact describes_single hpos hsmall hl hh hdest hprdtl

def readyHba : Hba where
  ports := fun _ => ⟨0x400000, 0, 0, 0, 0, 0, 0⟩
  mem := store (fun _ => 0) (0xFDC00000 + 8) 4 0x400400
  virtBase := 0xFDC00000
  physBase := 0x400000

def readyDevice : Device := ⟨fun _ => false, fun _ => false, fun _ => false, ⟨0, Or.inl rfl⟩⟩

theorem readyHba_slot : Slot readyHba 0 0 0xFDC00000 0xFDC00400 := by
  refine ⟨by decide, ⟨0xFDC00000, by decide, rfl⟩, ?_, by decide⟩
  decide

/-- A page, as the page cache asks for it. -/
theorem readBlocking_describes_iff_page : ∃ r, readBlocking readyHba readyDevice 0 40 0 8 0x1000 = some r ∧
    (Describes r.hba.mem 0xFDC00000 0xFDC00400 40 0 8 0x1000 ↔ 8 ≤ 16) := by
  obtain ⟨r, hr, -, -⟩ := readBlocking_accepted readyHba_slot readyDevice 40 0 8 0x1000 (by decide) (by decide)
  exact ⟨r, hr, readBlocking_describes_iff readyHba_slot (by decide) (by decide) (by decide) (by decide)
    (by decide) (by decide) hr⟩

/-- For 32 sectors to `0x1000` the second region starts at `0x2000`, in the middle of the first one, and the
FIS asks for 16 sectors. -/
theorem readBlocking_overlaps : ∃ r, readBlocking readyHba readyDevice 0 40 0 32 0x1000 = some r ∧
    entryStart r.hba.mem (prdtEntry 0xFDC00400 1) = 0x2000 ∧ fisCount r.hba.mem 0xFDC00400 = 16 ∧
    ¬ Describes r.hba.mem 0xFDC00000 0xFDC00400 40 0 32 0x1000 := by
  obtain ⟨r, hr, hmem, -⟩ :=
    readBlocking_accepted readyHba_slot readyDevice 40 0 32 0x1000 (by decide) (by decide)
  have hentries : prdtEntriesCount 32 = 2 := by decide
  have hfis : fisCount r.hba.mem 0xFDC00400 = 16 := by
    rw [hmem, hentries, fisCount_last (by decide) (by decide)]
  refine ⟨r, hr, ?_, hfis, ?_⟩
  · rw [hmem, hentries]
    exact @entryStart_last _ 0xFDC00400 2 40 0 32 0x1000 (by decide)
  · intro hdescribes
    have hcount := hdescribes.sectors
    rw [hfis] at hcount
    cases hcount

/-- The check guards the table exactly if no larger number of sectors looks like one that fits. -/
theorem readBlocking_guarded_iff (count : UInt32) :
    Guarded count.toNat ↔ ¬ (128 < count.toNat ∧ (count.toNat - 1) % 2 ^ 20 < 128) := by
  have hlt := count.toNat_lt
  generalize count.toNat = n at hlt
  constructor
  · rintro hguarded ⟨hbig, hmod⟩
    have hle : ¬ prdtEntriesCount n > prdtesPerCommand := by
      rw [prdtEntriesCount_gt_iff hlt]
      omega
    obtain ⟨r, hr, -, hissued⟩ := readBlocking_accepted readyHba_slot readyDevice 0 0 n 0 hle (by decide)
    obtain ⟨hfits, -⟩ := hguarded _ _ _ _ _ _ r hr
    have hmax := (hfits (by rw [hissued rfl]; simp)).2
    simp only [prdtesPerCommand] at hmax
    omega
  · intro hcond s dev portIdx startl starth destPaddr r hr
    by_cases hfits : Fits n
    · exact ⟨fun _ => hfits, fun h => absurd hfits h⟩
    · have hgt : prdtEntriesCount n > prdtesPerCommand := by
        simp only [Fits, prdtesPerCommand] at hfits
        rw [prdtEntriesCount_gt_iff hlt]
        omega
      obtain ⟨hret, hissued, hmem⟩ := readBlocking_refused hgt hr
      refine ⟨fun h => absurd hissued h, fun _ => ⟨hret, ?_⟩⟩
      intro slot hdr tbl hslot x hl hu
      have happart := hslot.apart
      rw [sizeofCommandHeader_eq] at happart
      rw [hmem slot hdr tbl hslot, setReadHeader_of_not_mem (by omega)]

/-- A request for `2^20 + 1` sectors is issued. -/
theorem readBlocking_unguarded :
    ∃ r, readBlocking readyHba readyDevice 0 0 0 (2 ^ 20 + 1) 0x1000 = some r ∧ r.issued = some 0 ∧
      ¬ Fits (2 ^ 20 + 1) := by
  obtain ⟨r, hr, -, hissued⟩ :=
    readBlocking_accepted readyHba_slot readyDevice 0 0 (2 ^ 20 + 1) 0x1000 (by decide) (by decide)
  refine ⟨r, hr, hissued rfl, ?_⟩
  unfold Fits
  decide

end HmmOS.Drivers.Ahci
