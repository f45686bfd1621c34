import HmmOS.Drivers.Ahci

/-! # How the block is carved

The areas that the device uses, as the registers and the command headers give them. Of
the 32 headers of a port only one is set; all others have their table at address zero.
-/
namespace HmmOS.Drivers.Ahci
open Lib Lib.ByteFields Nonstd Util.Algorithm

inductive Area where
  | commandList (port : ℕ)
  | receivedFis (port : ℕ)
  | commandTable (port slot : ℕ)
  deriving DecidableEq, Repr

def Area.Used (maxPort : ℕ) : Area → Prop
  | .commandList i => i < maxPort
  | .receivedFis i => i < maxPort
  | .commandTable i slot => i < maxPort ∧ slot < commandSlotsPerPort

def Area.size : Area → ℕ
  | .commandList _ => sizeofCommandList
  | .receivedFis _ => sizeofReceivedFis
  | .commandTable _ _ => tableStride

def Area.alignment : Area → ℕ
  | .commandList _ => 1024
  | .receivedFis _ => 256
  | .commandTable _ _ => 128

/-- The physical address of an area. The headers of a port are in its command list. -/
def Area.start (s : Hba) : Area → ℕ
  | .commandList i => (s.ports i).clb + 2 ^ 32 * (s.ports i).clbu
  | .receivedFis i => (s.ports i).fb + 2 ^ 32 * (s.ports i).fbu
  | .commandTable i slot =>
    commandTableAddress s.mem (s.virtBase + ((s.ports i).clb - s.physBase) + sizeofCommandHeader * slot)

structure Carved (s : Hba) (block : ℕ) (P : Area → Prop) : Prop where
  aligned : ∀ a, P a → a.alignment ∣ a.start s
  inside : ∀ a, P a → s.physBase ≤ a.start s ∧ a.start s + a.size ≤ s.physBase + block
  apart : ∀ a b, P a → P b → a ≠ b →
    a.start s + a.size ≤ b.start s ∨ b.start s + b.size ≤ a.start s

variable {alloc : Allocators} {maxPort : ℕ} {s s' : Hba}

theorem setCommandTable_of_not_mem {mem : Bytes} {hdr prdtl ctba x : ℕ}
    (h : x < hdr ∨ hdr + sizeofCommandHeader ≤ x) : setCommandTable mem hdr prdtl ctba x = mem x := by
  rw [sizeofCommandHeader_eq] at h
  unfold setCommandTable
  rw [store_of_not_mem (by omega), store_of_not_mem (by omega), store_of_not_mem (by omega)]

theorem commandTableAddress_setCommandTable (mem : Bytes) (hdr prdtl ctba : ℕ) :
    commandTableAddress (setCommandTable mem hdr prdtl ctba) hdr = ctba % 2 ^ 32 := by
  unfold commandTableAddress setCommandTable
  rw [load_store_of_apart (by omega), load_store, load_store]
  norm_num

theorem commandTableAddress_congr {mem mem' : Bytes} {hdr : ℕ}
    (h : ∀ x, hdr ≤ x → x < hdr + sizeofCommandHeader → mem x = mem' x) :
    commandTableAddress mem hdr = commandTableAddress mem' hdr := by
  rw [sizeofCommandHeader_eq] at h
  unfold commandTableAddress
  congr 1
  · apply load_congr
    intro i hi
    exact h _ (by omega) (by omega)
  · congr 1
    apply load_congr
    intro i hi
    exact h _ (by omega) (by omega)

def lastTable (s : Hba) (maxPort : ℕ) : ℕ := s.physBase + 1280 * maxPort + 31 * tableStride

/-- The state after the first ports. The header that is set has the index of its port. -/
structure Rebased (maxPort : ℕ) (s0 : Hba) (n : ℕ) (s : Hba) : Prop where
  virtBase : s.virtBase = s0.virtBase
  physBase : s.physBase = s0.physBase
  clb : ∀ i < n, (s.ports i).clb = (s0.physBase + 1024 * i) % 2 ^ 32 ∧ (s.ports i).clbu = 0
  fb : ∀ i < n, (s.ports i).fb = (s0.physBase + 1024 * maxPort + 256 * i) % 2 ^ 32 ∧ (s.ports i).fbu = 0
  header : ∀ i slot, slot < 32 →
    commandTableAddress s.mem (s0.virtBase + 1024 * i + 32 * slot) =
      if slot = i ∧ i < n then lastTable s0 maxPort % 2 ^ 32
      else commandTableAddress s0.mem (s0.virtBase + 1024 * i + 32 * slot)

section Port
variable {s : Hba} (hphys : s.physBase ≠ 0) (hvirt : s.virtBase ≠ 0)
include hphys hvirt

theorem ahciVirtToPhys_add (off : ℕ) : ahciVirtToPhys s (s.virtBase + off) = some (s.physBase + off) := by
  rw [ahciVirtToPhys, if_pos ⟨hphys, hvirt⟩, Nat.add_sub_cancel_left]

theorem setHeaders_spec (i hdr off n : ℕ) : ∃ mem, setHeaders s i hdr (s.virtBase + off) n = some mem ∧
      (∀ x, x < hdr + 32 * i ∨ hdr + 32 * i + 32 ≤ x → mem x = s.mem x) ∧
      (0 < n → commandTableAddress mem (hdr + 32 * i) =
        (s.physBase + off + (n - 1) * tableStride) % 2 ^ 32) := by
  induction n with
  | zero => exact ⟨s.mem, rfl, fun _ _ => rfl, fun h => absurd h (Nat.lt_irrefl 0)⟩
  | succ n ih =>
    obtain ⟨mem, hmem, hframe, -⟩ := ih
    refine ⟨setCommandTable mem (hdr + sizeofCommandHeader * i) prdtesPerCommand
      (s.physBase + (off + n * tableStride)), ?_, ?_, ?_⟩
    · rw [setHeaders, hmem, Option.bind_some, Nat.add_assoc, ahciVirtToPhys_add hphys hvirt]
      rfl
    · intro x hx
      rw [sizeofCommandHeader_eq, setCommandTable_of_not_mem hx, hframe x hx]
    · intro _
      rw [← Nat.add_assoc]
      exact commandTableAddress_setCommandTable ..

theorem rebasePort_spec {maxPort n : ℕ} {s0 : Hba} (hn : n < 32) (h : Rebased maxPort s0 n s) :
    ∃ s', rebasePort maxPort s n = some s' ∧ Rebased maxPort s0 (n + 1) s' := by
  have hshift : ∀ k : ℕ, k <<< 10 = 1024 * k := by
    intro k
    rw [Nat.shiftLeft_eq, Nat.mul_comm]
  obtain ⟨mem, hmem, hframe, htable⟩ := setHeaders_spec hphys hvirt n (s.virtBase + 1024 * n)
    (1024 * maxPort + maxPort * sizeofReceivedFis) commandSlotsPerPort
  have hrun : rebasePort maxPort s n = some
      { s with
        mem := mem
        ports := Function.update s.ports n (unpauseCmdEngine
          { pauseCmdEngine (s.ports n) with
            fb := (s.physBase + (1024 * maxPort + n * sizeofReceivedFis)) % 2 ^ 32
            fbu := 0
            clb := (s.physBase + 1024 * n) % 2 ^ 32
            clbu := 0 }) } := by
    unfold rebasePort
    simp only [hshift, Nat.add_assoc, ahciVirtToPhys_add hphys hvirt, Option.bind_some]
    rw [hmem]
    rfl
  refine ⟨_, hrun, h.virtBase, h.physBase, ?_, ?_, ?_⟩
  · intro i hi
    dsimp only
    by_cases hin : i = n
    · subst hin
      rw [Function.update_self, ← h.physBase]
      exact ⟨rfl, rfl⟩
    · rw [Function.update_of_ne hin]
      exact h.clb i (by omega)
  · intro i hi
    dsimp only
    by_cases hin : i = n
    · subst hin
      rw [Function.update_self, ← h.physBase, Nat.add_assoc, Nat.mul_comm 256]
      exact ⟨rfl, rfl⟩
    · rw [Function.update_of_ne hin]
      exact h.fb i (by omega)
  · intro i slot hslot
    rw [h.virtBase] at hframe htable
    by_cases hset : slot = i ∧ i = n
    · obtain ⟨rfl, rfl⟩ := hset
      rw [if_pos (by omega), htable (by simp), h.physBase]
      congr 1
      simp only [lastTable, sizeofReceivedFis_eq, commandSlotsPerPort_eq]
      omega
    · have hkeep := h.header i slot hslot
      rw [@commandTableAddress_congr _ s.mem, hkeep]
      · congr 1
        simp only [eq_iff_iff]
        omega
      · intro x hl hu
        rw [sizeofCommandHeader_eq] at hu
        apply hframe
        omega

end Port

theorem rebasePorts_spec (hphys : s.physBase ≠ 0) (hvirt : s.virtBase ≠ 0) {n : ℕ} (hn : n ≤ 32) :
    ∃ s', rebasePorts maxPort s n = some s' ∧ Rebased maxPort s n s' := by
  induction n with
  | zero =>
    refine ⟨s, rfl, rfl, rfl, ?_, ?_, ?_⟩
    · intro i hi
      omega
    · intro i hi
      omega
    · intro i slot _
      rw [if_neg (by omega)]
  | succ n ih =>
    obtain ⟨s', hs', hrebased⟩ := ih (by omega)
    rw [rebasePorts, hs', Option.bind_some]
    apply rebasePort_spec _ _ (by omega) hrebased
    · rw [hrebased.physBase]
      exact hphys
    · rw [hrebased.virtBase]
      exact hvirt

theorem rebasePorts_none (h : s.physBase = 0) (n : ℕ) : rebasePorts maxPort s (n + 1) = none := by
  induction n with
  | zero =>
    have hconvert : ∀ v, ahciVirtToPhys s v = none := fun v => if_neg fun hs => hs.1 h
    rw [rebasePorts, rebasePorts, Option.bind_some, rebasePort, hconvert, Option.bind_none]
  | succ n ih => rw [rebasePorts, ih, Option.bind_none]

theorem rebasePortMemory_success (h : rebasePortMemory alloc s maxPort = some (true, s')) :
    maxPort < 32 ∧ ∃ s0 : Hba, s0.virtBase ≠ 0 ∧ s0.physBase < hhdmLen ∧
      alloc.new (allocSz maxPort) = some (hhdmStart + s0.physBase) ∧
      s0.mem = memset s.mem s0.virtBase 0 (reqSzPerPort * maxPort) ∧
      rebasePorts maxPort s0 maxPort = some s' := by
  unfold rebasePortMemory at h
  split at h
  case isFalse => cases h
  case isTrue hassert =>
    split at h
    · cases h
    · cases h
    · next virt hzero _ =>
      split at h
      · cases h
      · next frames hnew =>
        obtain ⟨phys, hphys, h⟩ := Option.bind_eq_some_iff.mp h
        split at h
        case isFalse => cases h
        case isTrue =>
          obtain ⟨s'', hs'', heq⟩ := Option.map_eq_some_iff.mp h
          cases heq
          have hframes : frames = hhdmStart + phys ∧ phys < hhdmLen := by
            unfold hhdmToDirect at hphys
            split at hphys
            · have hsub := Option.some.inj hphys
              omega
            · cases hphys
          have hvirt : virt ≠ 0 := by
            rintro rfl
            exact hzero rfl
          exact ⟨hassert.1, ⟨s.ports, memset s.mem virt 0 (reqSzPerPort * maxPort), virt, phys⟩, hvirt,
            hframes.2, hframes.1 ▸ hnew, rfl, hs''⟩

theorem allocSz_eq (h : maxPort < 32) : allocSz maxPort = (9472 * maxPort + 4095) / 4096 * 4096 := by
  exact @ceilPow2_two_pow 12 (9472 * maxPort) (by decide) (by omega)

theorem rebasePortMemory_spec (h : rebasePortMemory alloc s maxPort = some (true, s')) (hpos : 0 < maxPort) :
    maxPort < 32 ∧ 4096 ∣ s'.physBase ∧ 0 < s'.physBase ∧ s'.physBase < hhdmLen ∧
      (∀ i < maxPort, (s'.ports i).clb = s'.physBase + 1024 * i ∧ (s'.ports i).clbu = 0 ∧
        (s'.ports i).fb = s'.physBase + 1024 * maxPort + 256 * i ∧ (s'.ports i).fbu = 0) ∧
      ∀ i < maxPort, ∀ slot < 32, Area.start s' (.commandTable i slot) =
        if slot = i then lastTable s' maxPort else 0 := by
  obtain ⟨hmax, s0, hvirt, hlen, hnew, hmem, hrun⟩ := rebasePortMemory_success h
  have hphys : s0.physBase ≠ 0 := by
    intro hzero
    obtain ⟨n, rfl⟩ := Nat.exists_eq_succ_of_ne_zero hpos.ne'
    rw [rebasePorts_none hzero] at hrun
    cases hrun
  obtain ⟨s'', hs'', hrebased⟩ := @rebasePorts_spec maxPort s0 hphys hvirt maxPort (by omega)
  obtain rfl : s'' = s' := Option.some.inj (hs''.symm.trans hrun)
  have haligned := alloc.new_aligned _ _ (by rw [allocSz_eq hmax, pgSz_eq]; omega) hnew
  rw [hhdmStart_eq, pgSz_eq] at haligned
  rw [hhdmLen_eq] at hlen ⊢
  have hclb : ∀ i < maxPort, (s''.ports i).clb = s0.physBase + 1024 * i := by
    intro i hi
    rw [(hrebased.clb i hi).1]
    omega
  have htable : lastTable s'' maxPort = lastTable s0 maxPort := by
    rw [lastTable, lastTable, hrebased.physBase]
  rw [hrebased.physBase]
  refine ⟨hmax, by omega, by omega, hlen, ?_, ?_⟩
  · intro i hi
    refine ⟨hclb i hi, (hrebased.clb i hi).2, ?_, (hrebased.fb i hi).2⟩
    rw [(hrebased.fb i hi).1]
    omega
  · intro i hi slot hslot
    have haddr : s''.virtBase + ((s''.ports i).clb - s''.physBase) + sizeofCommandHeader * slot =
        s0.virtBase + 1024 * i + 32 * slot := by
      rw [hclb i hi, hrebased.physBase, hrebased.virtBase, Nat.add_sub_cancel_left]
      rfl
    rw [Area.start, haddr, hrebased.header i slot hslot, htable]
    by_cases hset : slot = i
    · rw [if_pos ⟨hset, hi⟩, if_pos hset]
      apply Nat.mod_eq_of_lt
      simp only [lastTable, tableStride_eq]
      omega
    · rw [if_neg (by omega), if_neg hset, hmem]
      have hzero : ∀ x, s0.virtBase ≤ x → x < s0.virtBase + 9472 * maxPort →
          memset s.mem s0.virtBase 0 (reqSzPerPort * maxPort) x = 0 := by
        intro x hl hu
        exact if_pos ⟨hl, by simpa using hu⟩
      have hload : ∀ a, s0.virtBase ≤ a → a + 4 ≤ s0.virtBase + 9472 * maxPort →
          load (memset s.mem s0.virtBase 0 (reqSzPerPort * maxPort)) a 4 = 0 := by
        intro a hl hu
        apply load_eq_zero
        intro k hk
        exact hzero _ (by omega) (by omega)
      rw [commandTableAddress, hload _ (by omega) (by omega), hload _ (by omega) (by omega), Nat.mul_zero]

def Area.InRegisters : Area → Prop
  | .commandList _ => True
  | .receivedFis _ => True
  | .commandTable _ _ => False

def Area.offset (maxPort : ℕ) : Area → ℕ
  | .commandList i => 1024 * i
  | .receivedFis i => 1024 * maxPort + 256 * i
  | .commandTable _ _ => 0

theorem carved_of_isEmpty {block : ℕ} {P : Area → Prop} (h : ∀ a, ¬ P a) : Carved s block P :=
  ⟨fun a ha => absurd ha (h a), fun a ha => absurd ha (h a), fun a _ ha => absurd ha (h a)⟩

theorem not_used_zero (a : Area) : ¬ a.Used 0 := by
  cases a <;> simp [Area.Used]

theorem carved_registers (h : rebasePortMemory alloc s maxPort = some (true, s')) :
    Carved s' (allocSz maxPort) fun a => a.Used maxPort ∧ a.InRegisters := by
  rcases Nat.eq_zero_or_pos maxPort with rfl | hpos
  · exact carved_of_isEmpty fun a ha => not_used_zero a ha.1
  · obtain ⟨hmax, haligned, -, -, hregs, -⟩ := rebasePortMemory_spec h hpos
    have hstart : ∀ a : Area, a.Used maxPort ∧ a.InRegisters → a.start s' = s'.physBase + a.offset maxPort := by
      rintro (i | i | ⟨i, slot⟩) ⟨hi, hreg⟩
      · obtain ⟨hclb, hclbu, -, -⟩ := hregs i hi
        rw [Area.start, hclb, hclbu, Nat.mul_zero, Nat.add_zero, Area.offset]
      · obtain ⟨-, -, hfb, hfbu⟩ := hregs i hi
        rw [Area.start, hfb, hfbu, Nat.mul_zero, Nat.add_zero, Area.offset, Nat.add_assoc]
      · exact hreg.elim
    refine ⟨?_, ?_, ?_⟩
    · intro a ha
      rw [hstart a ha]
      cases a with
      | commandTable i slot => exact ha.2.elim
      | commandList i | receivedFis i =>
        simp only [Area.alignment, Area.offset]
        omega
    · intro a ha
      rw [hstart a ha, allocSz_eq hmax]
      cases a with
      | commandTable i slot => exact ha.2.elim
      | commandList i | receivedFis i =>
        have hi : i < maxPort := ha.1
        simp only [Area.offset, Area.size, sizeofCommandList_eq, sizeofReceivedFis_eq]
        omega
    · intro a b ha hb hne
      rw [hstart a ha, hstart b hb]
      cases a with
      | commandTable i slot => exact ha.2.elim
      | commandList i | receivedFis i =>
        cases b with
        | commandTable j slot => exact hb.2.elim
        | commandList j | receivedFis j =>
          have hi : i < maxPort := ha.1
          have hj : j < maxPort := hb.1
          simp only [Area.offset, Area.size, sizeofCommandList_eq, sizeofReceivedFis_eq, ne_eq,
            Area.commandList.injEq, Area.receivedFis.injEq] at hne ⊢
          omega

/-- No run with a port carves all areas as intended. -/
theorem rebasePortMemory_carved_iff {alloc : Allocators} {s s' : Hba} {maxPort : ℕ}
    (h : rebasePortMemory alloc s maxPort = some (true, s')) :
    Carved s' (allocSz maxPort) (Area.Used maxPort) ↔ maxPort = 0 := by
  constructor
  · intro hcarved
    by_contra hne
    have hpos : 0 < maxPort := Nat.pos_of_ne_zero hne
    obtain ⟨-, -, hphys, -, -, htables⟩ := rebasePortMemory_spec h hpos
    have hinside := (hcarved.inside (.commandTable 0 1) ⟨hpos, by decide⟩).1
    rw [htables 0 hpos 1 (by decide), if_neg (by decide)] at hinside
    omega
  · rintro rfl
    exact carved_of_isEmpty not_used_zero

def someAllocators : Allocators where
  ioAlloc := fun _ => some 0xFDC00000
  new := fun _ => some 0xC0400000
  ioremap := fun _ _ _ => true
  new_aligned := by
    intro size p _ h
    rw [← Option.some.inj h]
    decide

def resetHba : Hba := ⟨fun _ => ⟨0, 0, 0, 0, 0, 0, 0⟩, fun _ => 0, 0, 0⟩

theorem twoPorts_rebased : ∃ s', rebasePortMemory someAllocators resetHba 2 = some (true, s') := by
  obtain ⟨s', hs', -⟩ := @rebasePorts_spec 2
    ⟨resetHba.ports, memset resetHba.mem 0xFDC00000 0 (reqSzPerPort * 2), 0xFDC00000, 0x400000⟩
    (by decide) (by decide) 2 (by decide)
  have hphys : hhdmToDirect 0xC0400000 = some 0x400000 := by decide
  refine ⟨s', ?_⟩
  unfold rebasePortMemory
  rw [if_pos (by decide)]
  simp only [someAllocators, hphys, Option.bind_some, if_true]
  rw [hs', Option.map_some]

theorem carved_registers_twoPorts : ∃ s', rebasePortMemory someAllocators resetHba 2 = some (true, s') ∧
    Carved s' (allocSz 2) fun a => a.Used 2 ∧ a.InRegisters :=
  twoPorts_rebased.imp fun _ h => ⟨h, carved_registers h⟩

theorem rebasePortMemory_carved_iff_twoPorts :
    ∃ s', rebasePortMemory someAllocators resetHba 2 = some (true, s') ∧
      (Carved s' (allocSz 2) (Area.Used 2) ↔ 2 = 0) := by
  obtain ⟨s', hs'⟩ := twoPorts_rebased
  exact ⟨s', hs', rebasePortMemory_carved_iff hs'⟩

/-- With two ports, slots 1 and 2 of port 0 have their tables at zero, and slot 0 of port 0 shares one with
slot 1 of port 1. -/
theorem twoPorts_shared : ∃ s', rebasePortMemory someAllocators resetHba 2 = some (true, s') ∧
    Area.start s' (.commandTable 0 1) = 0 ∧ Area.start s' (.commandTable 0 2) = 0 ∧
    Area.start s' (.commandTable 0 0) = Area.start s' (.commandTable 1 1) ∧
    ¬ Carved s' (allocSz 2) (Area.Used 2) := by
  obtain ⟨s', hs'⟩ := twoPorts_rebased
  obtain ⟨-, -, -, -, -, htables⟩ := rebasePortMemory_spec hs' (by decide)
  have hone : Area.start s' (.commandTable 0 1) = 0 := htables 0 (by decide) 1 (by decide)
  have htwo : Area.start s' (.commandTable 0 2) = 0 := htables 0 (by decide) 2 (by decide)
  refine ⟨s', hs', hone, htwo, ?_, ?_⟩
  · rw [htables 0 (by decide) 0 (by decide), htables 1 (by decide) 1 (by decide), if_pos rfl, if_pos rfl]
  · intro hcarved
    have hapart := hcarved.apart (.commandTable 0 1) (.commandTable 0 2) ⟨by decide, by decide⟩
      ⟨by decide, by decide⟩ (by decide)
    simp only [Area.size, tableStride_eq] at hapart
    omega

end HmmOS.Drivers.Ahci
