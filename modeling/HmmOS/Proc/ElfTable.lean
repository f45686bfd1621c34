import HmmOS.Proc.Elf

/-! # The program headers of an accepted image

`parse_executable` compares the end of the program header table, a 32-bit sum, with the
length of the buffer; `map_elf_segments` walks the table without further checks.
-/
namespace HmmOS.Proc
open Fs Lib Nonstd ELFHeader

/-- The end of the table is not too large for 32 bits. -/
def ELFHeader.NoWrap (hdr : ELFHeader) : Prop := hdr.phoff + hdr.phnum * hdr.phentsize < 2 ^ 32

/-- The header and the entries of the table lie in the buffer. -/
def ELFExecutable.Inside (exe : ELFExecutable) (length : ℕ) : Prop :=
  expectedEhsize ≤ length ∧
    ∀ i < exe.hdr.phnum, exe.hdr.phoff + i * expectedPhentsize + expectedPhentsize ≤ length

/-- The same for the bytes that a walk over the table gets to see: pointers wrap around. -/
def ELFExecutable.ReadsInside (exe : ELFExecutable) (length : ℕ) : Prop :=
  (∀ k < expectedEhsize, k < length) ∧
    ∀ i < exe.hdr.phnum, ∀ k < expectedPhentsize,
      Word.add 32 exe.hdr.phoff (i * expectedPhentsize + k) < length

theorem ELFHeader.ofBytes_phoff_lt (image : Bytes) : (ofBytes image).phoff < 2 ^ 32 :=
  le32_lt _ _

theorem ELFHeader.phentsize_of_validate {hdr : ELFHeader} (h : hdr.validate) :
    hdr.phentsize = expectedPhentsize := by
  simp only [validate, Bool.and_eq_true, beq_iff_eq] at h
  exact h.1.1.2

section Parse
variable {image image' : Bytes} {length : ℕ} {exe : ELFExecutable}

theorem parseExecutable_ok (h : parseExecutable image length = some (.ok exe)) :
    expectedEhsize ≤ length ∧ (ofBytes image).validate ∧
      Word.add 32 exe.hdr.phoff (exe.hdr.phnum * exe.hdr.phentsize) ≤ length ∧
      exe = ⟨ofBytes image, (List.range (ofBytes image).phnum).map fun i =>
        PHEntry.ofBytes image (Word.add 32 (ofBytes image).phoff (i * expectedPhentsize))⟩ := by
  rw [parseExecutable] at h
  split_ifs at h with hlen
  dsimp only at h
  split_ifs at h with hvalid hfits
  · obtain rfl := Except.ok.inj (Option.some.inj h)
    exact ⟨hlen, hvalid, hfits, rfl⟩
  · cases h

/-- Without a wrap the end of the table is compared as it is. -/
theorem ELFExecutable.end_le (h : parseExecutable image length = some (.ok exe))
    (hwrap : (ofBytes image).NoWrap) : exe.hdr.phoff + exe.hdr.phnum * expectedPhentsize ≤ length := by
  obtain ⟨-, hvalid, hfits, rfl⟩ := parseExecutable_ok h
  rwa [Word.add, Nat.mod_eq_of_lt hwrap, phentsize_of_validate hvalid] at hfits

theorem entry_end_le {phnum i : ℕ} (hi : i < phnum) :
    i * expectedPhentsize + expectedPhentsize ≤ phnum * expectedPhentsize := by
  rw [← Nat.succ_mul]
  exact Nat.mul_le_mul_right _ hi

/-- A table that wraps has a byte at the end of the address space. -/
theorem exists_last_byte {phoff phnum : ℕ} (hphoff : phoff < 2 ^ 32)
    (hwrap : 2 ^ 32 ≤ phoff + phnum * expectedPhentsize) : ∃ i < phnum, ∃ k < expectedPhentsize,
      Word.add 32 phoff (i * expectedPhentsize + k) = 2 ^ 32 - 1 := by
  refine ⟨(2 ^ 32 - 1 - phoff) / expectedPhentsize, ?_,
    (2 ^ 32 - 1 - phoff) % expectedPhentsize, Nat.mod_lt _ (by decide), ?_⟩
  · apply Nat.div_lt_of_lt_mul
    rw [Nat.mul_comm]
    omega
  · rw [Nat.mul_comm, Nat.div_add_mod, Word.add]
    have : phoff + (2 ^ 32 - 1 - phoff) = 2 ^ 32 - 1 := by omega
    rw [this, Nat.mod_eq_of_lt (by decide)]

theorem ELFExecutable.inside_iff (hlen : length < 2 ^ 32) (h : parseExecutable image length = some (.ok exe)) :
    exe.Inside length ↔ (ofBytes image).NoWrap := by
  have hend := ELFExecutable.end_le h
  obtain ⟨hehsize, hvalid, -, rfl⟩ := parseExecutable_ok h
  constructor
  · rintro ⟨-, hentries⟩
    rw [ELFHeader.NoWrap, phentsize_of_validate hvalid]
    cases hnum : (ofBytes image).phnum with
    | zero =>
      exact ofBytes_phoff_lt image
    | succ n =>
      have hlast := hentries n (by rw [hnum]; exact Nat.lt_succ_self n)
      rw [Nat.succ_mul, ← Nat.add_assoc]
      exact lt_of_le_of_lt hlast hlen
  · intro hwrap
    refine ⟨hehsize, ?_⟩
    intro i hi
    exact (Nat.add_le_add_left (entry_end_le hi) _).trans (hend hwrap)

theorem ELFExecutable.readsInside_iff (hlen : length < 2 ^ 32)
    (h : parseExecutable image length = some (.ok exe)) : exe.ReadsInside length ↔ (ofBytes image).NoWrap := by
  have hinside := ELFExecutable.inside_iff hlen h
  obtain ⟨hehsize, hvalid, -, rfl⟩ := parseExecutable_ok h
  constructor
  · rintro ⟨-, hreads⟩
    by_contra hwrap
    rw [ELFHeader.NoWrap, phentsize_of_validate hvalid, Nat.not_lt] at hwrap
    obtain ⟨i, hi, k, hk, hbyte⟩ := exists_last_byte (ofBytes_phoff_lt image) hwrap
    have hread := hreads i hi k hk
    rw [hbyte] at hread
    omega
  · intro hwrap
    obtain ⟨-, hentries⟩ := hinside.mpr hwrap
    refine ⟨fun k hk => hk.trans_le hehsize, ?_⟩
    intro i hi k hk
    have hentry := hentries i hi
    rw [Word.add, Nat.mod_eq_of_lt] <;> omega

end Parse

/-- The header and all entries of the table lie in the buffer, by position and by address, just when the
end of the table does not wrap. -/
theorem parseExecutable_inside_iff (image : Bytes) (length : ℕ) (exe : ELFExecutable)
    (hlen : length < 2 ^ 32) (h : parseExecutable image length = some (.ok exe)) :
    (exe.Inside length ↔ (ELFHeader.ofBytes image).NoWrap) ∧
      (exe.ReadsInside length ↔ (ELFHeader.ofBytes image).NoWrap) :=
  ⟨ELFExecutable.inside_iff hlen h, ELFExecutable.readsInside_iff hlen h⟩

/-- The header of a small executable with one program header at `phoff`, followed by the same byte all
over memory. -/
def oneSegment (phoff : List UInt8) (rest : UInt8) : Bytes := fun k =>
  ([0x7F, 0x45, 0x4C, 0x46, 1, 1, 1, 0] ++ List.replicate 8 0 ++ [2, 0, 3, 0, 1, 0, 0, 0, 0, 0x80, 4, 8] ++
    phoff ++ List.replicate 8 0 ++ [0x34, 0, 0x20, 0, 1, 0, 0x28, 0, 0, 0, 0, 0]).getD k rest

def afterHeader : List UInt8 := [0x34, 0, 0, 0]
def atTheEnd : List UInt8 := [0xE0, 0xFF, 0xFF, 0xFF]

/-- A table that directly follows the header. -/
theorem oneSegment_inside : ∃ exe, parseExecutable (oneSegment afterHeader 0) 0x54 = some (.ok exe) ∧
    exe.Inside 0x54 ∧ exe.ReadsInside 0x54 := by
  have hparse : parseExecutable (oneSegment afterHeader 0) 0x54 =
      some (.ok ⟨ELFHeader.ofBytes (oneSegment afterHeader 0), [⟨0, 0, 0, 0, 0, 0⟩]⟩) := by decide +kernel
  obtain ⟨hin, hreads⟩ := parseExecutable_inside_iff _ _ _ (by decide) hparse
  have hwrap : (ELFHeader.ofBytes (oneSegment afterHeader 0)).NoWrap := by
    rw [ELFHeader.NoWrap]
    decide +kernel
  exact ⟨_, hparse, hin.mpr hwrap, hreads.mpr hwrap⟩

/-- A table of one entry at `2^32 - 32` is accepted in a buffer of 52 bytes, and its entry is whatever
stands outside of the buffer. -/
theorem oneSegment_outside : ∃ exe exe',
    parseExecutable (oneSegment atTheEnd 0) 0x34 = some (.ok exe) ∧ ¬ exe.Inside 0x34 ∧
      ¬ exe.ReadsInside 0x34 ∧
      parseExecutable (oneSegment atTheEnd 1) 0x34 = some (.ok exe') ∧ exe'.phTable ≠ exe.phTable := by
  have hparse : parseExecutable (oneSegment atTheEnd 0) 0x34 =
      some (.ok ⟨ELFHeader.ofBytes (oneSegment atTheEnd 0), [⟨0, 0, 0, 0, 0, 0⟩]⟩) := by decide +kernel
  have hwrap : ¬ (ELFHeader.ofBytes (oneSegment atTheEnd 0)).NoWrap := by
    rw [ELFHeader.NoWrap]
    decide +kernel
  refine ⟨_, ⟨ELFHeader.ofBytes (oneSegment atTheEnd 1), [⟨0x01010101, 0x01010101, 0x01010101, 0x01010101,
    0x01010101, 0x01010101⟩]⟩, hparse, ?_, ?_, by decide +kernel, by decide⟩
  · rwa [ELFExecutable.inside_iff (by decide) hparse]
  · rwa [ELFExecutable.readsInside_iff (by decide) hparse]

end HmmOS.Proc
