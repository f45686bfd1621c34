import HmmOS.Fs.Directory

/-! # Short names

Directory entries have names of 8 and 3 characters, padded with spaces. `lookup`
converts the name that it looks for to this form, and the name of the entry that
it found back.
-/
namespace HmmOS.Fs
open Nonstd StringView

/-- The characters of a string in memory, up to the first zero byte. -/
def cString (s : Name) : Name := s.takeWhile (· ≠ StringView.nul)

/-- `convert_8_3_to_normal_filename`: an array of 13 characters, unless the assertion on the length
fails. -/
def convert83ToNormalFilename (name83 : Name) : Option Name :=
  if name83.length ≠ 11 then none
  else
    let filename := StringView.substr name83 0 8
    let fileext := StringView.substr name83 8 StringView.npos
    let filenameLen :=
      if StringView.find filename ' ' = StringView.npos then 8 else StringView.find filename ' '
    let fileextLen :=
      if StringView.find fileext ' ' = StringView.npos then 3 else StringView.find fileext ' '
    let chars := filename.take filenameLen ++
      if fileextLen ≠ 0 then '.' :: fileext.take fileextLen else []
    some (chars ++ List.replicate (13 - chars.length) StringView.nul)

/-- Neither padding nor a separator. -/
def IsNameChar (c : Char) : Prop := c ≠ ' ' ∧ c ≠ '.' ∧ c ≠ StringView.nul
  deriving Decidable

structure ShortName where
  base : Name
  ext : Name
  base_pos : 0 < base.length
  base_le : base.length ≤ 8
  ext_le : ext.length ≤ 3
  base_chars : ∀ c ∈ base, IsNameChar c
  ext_chars : ∀ c ∈ ext, IsNameChar c

/-- The name as a user writes it, with a dot if there is an extension. -/
def ShortName.normal (n : ShortName) : Name := n.base ++ if n.ext ≠ [] then '.' :: n.ext else []

def padSpaces (len : ℕ) (s : Name) : Name := s ++ List.replicate (len - s.length) ' '

def ShortName.entry (n : ShortName) : Name := padSpaces 8 n.base ++ padSpaces 3 n.ext

section Pad
variable {s t : Name} {len : ℕ} {c : Char}

theorem idxOf?_append_cons (h : c ∉ s) : (s ++ c :: t).idxOf? c = some s.length := by
  induction s with
  | nil => simp [List.idxOf?_cons]
  | cons d s ih =>
    rw [List.mem_cons, not_or] at h
    simp [List.idxOf?_cons, Ne.symm h.1, ih h.2]

theorem length_padSpaces (h : s.length ≤ len) : (padSpaces len s).length = len := by
  simp [padSpaces, h]

theorem take_padSpaces (len : ℕ) (s : Name) : (padSpaces len s).take s.length = s :=
  List.take_left

/-- The first space is the end of the text, and a full field has none. -/
theorem find_padSpaces (hspace : ' ' ∉ s) (hs : s.length ≤ len) (hlen : len < npos) :
    (if find (padSpaces len s) ' ' = npos then len else find (padSpaces len s) ' ') = s.length := by
  rcases hs.lt_or_eq with hlt | heq
  · have hfind : find (padSpaces len s) ' ' = s.length := by
      obtain ⟨k, hk⟩ := Nat.exists_eq_add_one_of_ne_zero (Nat.sub_ne_zero_of_lt hlt)
      rw [find, padSpaces, hk, List.replicate_succ, idxOf?_append_cons hspace, Option.getD_some]
    rw [hfind, if_neg (by omega)]
  · have hfind : find (padSpaces len s) ' ' = npos := by
      rw [find, padSpaces, heq, Nat.sub_self, List.replicate_zero, List.append_nil,
        List.idxOf?_eq_none_iff.mpr hspace, Option.getD_none]
    rw [if_pos hfind, heq]

end Pad

namespace ShortName
variable (n : ShortName)

theorem length_entry : n.entry.length = 11 := by
  rw [entry, List.length_append, length_padSpaces n.base_le, length_padSpaces n.ext_le]

theorem dot_notMem_base : '.' ∉ n.base := fun h => (n.base_chars _ h).2.1 rfl

theorem convertNormalTo83Filename_normal : convertNormalTo83Filename n.normal = n.entry := by
  have hbase : n.base.take 8 = n.base := List.take_of_length_le n.base_le
  have hext : n.ext.take 3 = n.ext := List.take_of_length_le n.ext_le
  rw [convertNormalTo83Filename, normal, entry, padSpaces, padSpaces]
  by_cases h : n.ext = []
  · have hnone : n.base.idxOf? '.' = none := List.idxOf?_eq_none_iff.mpr n.dot_notMem_base
    simp [h, hnone, hbase]
  · have hdot := @idxOf?_append_cons n.base n.ext '.' n.dot_notMem_base
    simp [h, hdot, hbase, hext]

/-- The entry gives the name back, with zero bytes up to the end of the array. -/
theorem convert83ToNormalFilename_entry : convert83ToNormalFilename n.entry =
      some (n.normal ++ List.replicate (13 - n.normal.length) nul) := by
  have hlen := n.length_entry
  have hfilename : substr n.entry 0 8 = padSpaces 8 n.base := by
    rw [substr_eq (by omega) (by omega), List.drop_zero, entry]
    exact List.take_left' (length_padSpaces n.base_le)
  have hfileext : substr n.entry 8 npos = padSpaces 3 n.ext := by
    rw [substr_eq (by omega) (by omega), entry,
      List.drop_left' (length_padSpaces n.base_le), List.take_of_length_le]
    rw [length_padSpaces n.ext_le]
    decide
  have hbase : ' ' ∉ n.base := fun h => (n.base_chars _ h).1 rfl
  have hext : ' ' ∉ n.ext := fun h => (n.ext_chars _ h).1 rfl
  rw [convert83ToNormalFilename, if_neg (not_not.mpr hlen), hfilename, hfileext]
  dsimp only
  rw [find_padSpaces hbase n.base_le (by decide), find_padSpaces hext n.ext_le (by decide)]
  simp only [take_padSpaces, ne_eq, List.length_eq_zero_iff]
  rfl

theorem length_normal_le : n.normal.length ≤ 12 := by
  have hbase := n.base_le
  have hext := n.ext_le
  rw [normal]
  split_ifs <;> simp <;> omega

theorem nul_notMem_normal : nul ∉ n.normal := by
  have hbase : nul ∉ n.base := fun h => (n.base_chars _ h).2.2 rfl
  have hext : nul ∉ n.ext := fun h => (n.ext_chars _ h).2.2 rfl
  have hdot : nul ≠ '.' := by decide
  rw [normal]
  split_ifs
  · simp [hbase, hext, hdot]
  · simp [hbase]

theorem cString_normal (k : ℕ) : cString (n.normal ++ List.replicate k nul) = n.normal := by
  have hchars : ∀ c ∈ n.normal, decide (c ≠ nul) = true := by
    intro c hc
    have hne : c ≠ nul := by
      rintro rfl
      exact n.nul_notMem_normal hc
    simpa using hne
  rw [cString, List.takeWhile_append_of_pos hchars]
  simp

/-- The entry matches in `lookup` exactly under its own name. -/
theorem matchName_iff (d : Dirent) :
    (matchName (convertNormalTo83Filename n.normal) none d).2 = true ↔ d.chars = n.entry := by
  have hbase : nul ∉ n.base := fun h => (n.base_chars _ h).2.2 rfl
  have hext : nul ∉ n.ext := fun h => (n.ext_chars _ h).2.2 rfl
  have hspace : nul ≠ ' ' := by decide
  have hnul : nul ∉ n.entry := by simp [entry, padSpaces, hbase, hext, hspace]
  rw [n.convertNormalTo83Filename_normal, matchName, @eq_comm _ d.chars, ← eq_iff hnul]
  split_ifs with hmatch <;> simp [hmatch]

end ShortName

/-- The conversions are inverse to each other, and different names match different entries. -/
theorem shortNames_round_trip :
    (∀ n : ShortName, ∃ name, convert83ToNormalFilename (convertNormalTo83Filename n.normal) = some name ∧
      name.length = 13 ∧ StringView.nul ∈ name ∧ cString name = n.normal) ∧
    (∀ n : ShortName, ∃ name, convert83ToNormalFilename n.entry = some name ∧
      convertNormalTo83Filename (cString name) = n.entry) ∧
    ∀ (m n : ShortName) (d : Dirent), m.normal ≠ n.normal →
      ¬ ((matchName (convertNormalTo83Filename m.normal) none d).2 = true ∧
        (matchName (convertNormalTo83Filename n.normal) none d).2 = true) := by
  refine ⟨fun n => ?_, fun n => ?_, fun m n d hne => ?_⟩
  · have hle := n.length_normal_le
    rw [n.convertNormalTo83Filename_normal]
    refine ⟨_, n.convert83ToNormalFilename_entry, ?_, ?_, n.cString_normal _⟩
    · simp
      omega
    · simp
      omega
  · refine ⟨_, n.convert83ToNormalFilename_entry, ?_⟩
    rw [n.cString_normal, n.convertNormalTo83Filename_normal]
  · rw [m.matchName_iff, n.matchName_iff]
    rintro ⟨hm, hn⟩
    -- the entry determines the name by the first round trip
    have hback := m.convert83ToNormalFilename_entry
    rw [← hm, hn, n.convert83ToNormalFilename_entry, Option.some.injEq] at hback
    apply hne
    rw [← m.cString_normal (13 - m.normal.length), ← hback, n.cString_normal]

def kernelName (ext : Name) (hlen : ext.length ≤ 3) (hchars : ∀ c ∈ ext, IsNameChar c) : ShortName where
  base := "kernel".toList
  ext := ext
  base_pos := by decide
  base_le := by decide
  ext_le := hlen
  base_chars := by simp [IsNameChar, StringView.nul]
  ext_chars := hchars

def kernelElf : ShortName := kernelName "elf".toList (by decide) (by simp [IsNameChar, StringView.nul])

def kernelBare : ShortName := kernelName [] (by decide) (by simp)

theorem shortNames_round_trip_kernelElf : kernelElf.normal = "kernel.elf".toList ∧
    ∀ d : Dirent, ¬ ((matchName (convertNormalTo83Filename kernelElf.normal) none d).2 = true ∧
      (matchName (convertNormalTo83Filename kernelBare.normal) none d).2 = true) :=
  ⟨by decide, fun d => shortNames_round_trip.2.2 kernelElf kernelBare d (by decide)⟩

end HmmOS.Fs
