import HmmOS.Lib.Slots
import HmmOS.Nonstd.Storage

/-! # What strings hold

A string has a buffer once it was given characters, copied or resized. Until
then, and again after a move, `data()` is null.
-/
namespace HmmOS.Nonstd
open Lib Function StringView

def Buffer.Begins (b : Buffer Char) (xs : List Char) : Prop := ∀ i < xs.length, b.cells i = xs[i]?

/-- `data()` is not null, its buffer has room for the capacity and a NUL, and begins with `xs`. -/
def Filled (s : Storage Char) (xs : List Char) : Prop :=
  ∃ b, s.data = some b ∧ b.size = s.capacity + 1 ∧ b.size < 2 ^ 32 ∧ b.Begins xs

structure HoldsChars (s : Storage Char) (xs : List Char) : Prop where
  filled : Filled s (xs ++ [nul])
  len : s.len = xs.length
  capacity : s.len ≤ s.capacity

/-- The characters that a string is to hold, and whether it has a buffer. -/
structure Text where
  chars : List Char := []
  buffer : Bool := false

def IsText (s : Storage Char) (t : Text) : Prop :=
  s = {} ∧ t = {} ∨ t.buffer = true ∧ HoldsChars s t.chars

section Stores
variable {b : Buffer Char} {s : Storage Char} {xs zs : List Char} {pos : ℕ}

theorem Buffer.Begins.write (h : b.Begins (xs ++ zs)) (ys : List Char) (hroom : xs.length + ys.length ≤ b.size) :
    ∃ b', Buffer.write (some b) xs.length (ys.map some) = some (some b') ∧ b'.size = b.size ∧
      b'.Begins (xs ++ (ys ++ zs.drop ys.length)) := by
  by_cases hne : ys = []
  · subst hne
    exact ⟨b, rfl, rfl, h⟩
  have hempty : ¬ (ys.map some).isEmpty = true := by simpa using hne
  rw [Buffer.write, if_neg hempty, Option.bind_some, List.length_map, if_pos hroom]
  refine ⟨_, rfl, rfl, fun i hi => ?_⟩
  rw [Buffer.Begins, List.length_append] at h
  rw [List.length_append, List.length_append, List.length_drop] at hi
  dsimp only
  by_cases hbefore : i < xs.length
  · rw [if_neg (by omega), h i (by omega), List.getElem?_append_left hbefore, List.getElem?_append_left hbefore]
  rw [List.getElem?_append_right (by omega)]
  by_cases hin : i < xs.length + ys.length
  · rw [if_pos (by omega), List.getElem?_append_left (by omega), List.getElem?_map]
    cases ys[i - xs.length]? <;> rfl
  · rw [if_neg (by omega), h i (by omega), List.getElem?_append_right (by omega),
      List.getElem?_append_right (by omega), List.getElem?_drop]
    congr 1
    omega

/-- A new buffer gets the characters and a NUL. -/
theorem write_new (addr : ℕ) (xs : List Char) {capacity : ℕ} (hlen : xs.length ≤ capacity) (hcap : capacity + 1 < 2 ^ 32) :
    ∃ b', Buffer.write (some ⟨addr, capacity + 1, fun _ => none⟩) 0 (xs.map some ++ String.term.map some) =
      some (some b') ∧ HoldsChars ⟨xs.length, capacity, some b'⟩ xs := by
  have hnew : (⟨addr, capacity + 1, fun _ => none⟩ : Buffer Char).Begins ([] ++ []) := nofun
  obtain ⟨b', hwrite, hsize, hbegins⟩ := hnew.write (xs ++ [nul]) (by simpa using hlen)
  rw [List.map_append] at hwrite
  exact ⟨b', hwrite, ⟨b', rfl, hsize, hsize ▸ hcap, by simpa using hbegins⟩, rfl, hlen⟩

theorem Filled.put (h : Filled s (xs ++ zs)) (ys : List Char) (hroom : xs.length + ys.length ≤ s.capacity + 1) :
    ∃ s', s.put xs.length (ys.map some) = some s' ∧ s'.len = s.len ∧ s'.capacity = s.capacity ∧
      Filled s' (xs ++ (ys ++ zs.drop ys.length)) := by
  obtain ⟨b, hdata, hsize, hfits, hbegins⟩ := h
  obtain ⟨b', hwrite, hsize', hbegins'⟩ := hbegins.write ys (hsize ▸ hroom)
  refine ⟨{ s with data := some b' }, by rw [Storage.put, hdata, hwrite]; rfl, rfl, rfl, b', rfl, ?_⟩
  exact ⟨hsize'.trans hsize, hsize' ▸ hfits, hbegins'⟩

theorem Filled.mono {ys : List Char} (h : Filled s ys) (hxs : xs <+: ys) : Filled s xs := by
  obtain ⟨b, hdata, hsize, hfits, hbegins⟩ := h
  obtain ⟨zs, rfl⟩ := hxs
  refine ⟨b, hdata, hsize, hfits, fun i hi => ?_⟩
  rw [hbegins i (by rw [List.length_append]; omega), List.getElem?_append_left hi]

/-- The length is set, and a NUL is stored there. -/
theorem Filled.terminate (h : Filled s (xs ++ zs)) (hroom : xs.length ≤ s.capacity) :
    ∃ s', ({ s with len := xs.length } : Storage Char).put xs.length (String.term.map some) = some s' ∧
      HoldsChars s' xs := by
  have hset : Filled { s with len := xs.length } (xs ++ zs) := h
  obtain ⟨s', hput, hlen, hcap, hs'⟩ := hset.put String.term (Nat.succ_le_succ hroom)
  rw [← List.append_assoc] at hs'
  exact ⟨s', hput, hs'.mono (List.prefix_append _ _), hlen, by rw [hlen, hcap]; exact hroom⟩

end Stores

section Strings
variable {l : Ledger} {s : Storage Char} {t : Text} {n : ℕ}

theorem IsText.default : IsText {} {} := .inl ⟨rfl, rfl⟩

theorem IsText.len_eq (h : IsText s t) : s.len = t.chars.length := by
  obtain ⟨rfl, rfl⟩ | ⟨-, hs⟩ := h
  · rfl
  · exact hs.len

theorem IsText.holds (h : IsText s t) (hbuf : t.buffer = true) : HoldsChars s t.chars := by
  obtain ⟨rfl, rfl⟩ | ⟨-, hs⟩ := h
  · cases hbuf
  · exact hs

theorem IsText.capacity_lt (h : IsText s t) : s.len ≤ s.capacity ∧ s.capacity + 1 < 2 ^ 32 := by
  obtain ⟨rfl, rfl⟩ | ⟨-, hs⟩ := h
  · decide
  · obtain ⟨b, -, hsize, hfits, -⟩ := hs.filled
    exact ⟨hs.capacity, hsize ▸ hfits⟩

theorem IsText.read (h : IsText s t) : Buffer.read s.data s.len = some (t.chars.map some) := by
  obtain ⟨rfl, rfl⟩ | ⟨-, hs⟩ := h
  · rfl
  obtain ⟨b, hdata, hsize, -, hbegins⟩ := hs.filled
  have hcap := hs.capacity
  have hcells : (List.range s.len).map b.cells = t.chars.map some := by
    apply List.ext_getElem
    · simp [hs.len]
    · intro i hi _
      have hlt : i < t.chars.length := by simpa [hs.len] using hi
      have hcell := hbegins i (by rw [List.length_append]; omega)
      rw [List.getElem?_append_left hlt, List.getElem?_eq_getElem hlt] at hcell
      simpa using hcell
  rw [Buffer.read]
  split_ifs with hzero
  · rw [hzero] at hcells
    exact congrArg some hcells
  · rw [hdata, Option.bind_some, if_pos (by omega), hcells]

theorem IsText.destroy (h : IsText s t) (l : Ledger) : ∃ l', s.destroy l = some l' := by
  obtain ⟨rfl, rfl⟩ | ⟨-, hs⟩ := h
  · exact ⟨l, rfl⟩
  · obtain ⟨b, hdata, -⟩ := hs.filled
    rw [Storage.destroy, hdata]
    split_ifs <;> exact ⟨_, rfl⟩

theorem IsText.reserve (h : IsText s t) (l : Ledger) (hn : n + 1 < 2 ^ 32) :
    ∃ l' s', String.reserve l s n = some (l', s') ∧ n ≤ s'.capacity ∧
      IsText s' ⟨t.chars, t.buffer || decide (0 < n)⟩ := by
  obtain ⟨hlen, hcap⟩ := h.capacity_lt
  rw [String.reserve, Storage.reserve]
  by_cases hle : n ≤ s.capacity
  · rw [if_pos hle]
    refine ⟨l, s, rfl, hle, ?_⟩
    obtain ⟨rfl, rfl⟩ | ⟨hbuf, hs⟩ := h
    · have hzero : n = 0 := Nat.le_zero.mp hle
      simp [IsText, hzero]
    · exact .inr ⟨by simp [hbuf], hs⟩
  · rw [if_neg hle]
    -- the capacity is doubled in 32 bits, and so is even
    have hnew : max n (Word.mul 32 s.capacity 2) + 1 < 2 ^ 32 := by
      rw [Word.mul]
      omega
    obtain ⟨b', hwrite, hs'⟩ := write_new l.next t.chars (by rw [← h.len_eq]; omega) hnew
    obtain ⟨l', hdestroy⟩ := h.destroy l.allocate
    rw [← h.len_eq] at hs'
    refine ⟨l', _, ?_, ?_, .inr ⟨?_, hs'⟩⟩
    · simp only [Buffer.allocate, show String.term.length = 1 from rfl, Word.add_of_lt hnew, h.read,
        Option.bind_some, hwrite, hdestroy, Option.map_some]
    · exact le_max_left _ _
    · simp only [Bool.or_eq_true, decide_eq_true_eq]
      omega

theorem IsText.makeRoom (h : IsText s t) (l : Ledger) (hn : n + 1 < 2 ^ 32) (hbuf : t.buffer = true ∨ 0 < n) :
    ∃ l' s', String.reserve l s n = some (l', s') ∧ n ≤ s'.capacity ∧ HoldsChars s' t.chars := by
  obtain ⟨l', s', hreserve, hcap, hs'⟩ := h.reserve l hn
  exact ⟨l', s', hreserve, hcap, hs'.holds (by simpa using hbuf)⟩

/-- A call returns a string that represents `t`. -/
def YieldsText (r : Option (Ledger × Storage Char)) (t : Text) : Prop :=
  ∃ l s, r = some (l, s) ∧ IsText s t

theorem IsText.pushBack (h : IsText s t) (l : Ledger) (c : Char) (hfits : t.chars.length + 2 < 2 ^ 32) :
    YieldsText (String.pushBack l s c) ⟨t.chars ++ [c], true⟩ := by
  have hadd : Word.add 32 t.chars.length 1 = t.chars.length + 1 := Word.add_of_lt (by omega)
  rw [String.pushBack, Storage.pushBack, h.len_eq, hadd, ← String.reserve]
  obtain ⟨l', s1, hreserve, hroom, hs1⟩ := h.makeRoom l (n := t.chars.length + 1) (by omega) (.inr (by omega))
  obtain ⟨s2, hput, hlen, hcap2, hs2⟩ := hs1.filled.put [c] (by rw [List.length_singleton]; omega)
  rw [← List.append_assoc] at hs2
  obtain ⟨s3, hterm, hs3⟩ := hs2.terminate (by rw [List.length_append, List.length_singleton]; omega)
  rw [List.length_append, List.length_singleton] at hterm
  rw [List.map_singleton] at hput
  rw [hs1.len] at hlen
  refine ⟨l', s3, ?_, .inr ⟨rfl, hs3⟩⟩
  simp only [hreserve, Option.bind_some, hs1.len, hput, hlen, hadd, hterm, Option.map_some]

/-- The first part of `resize`: new characters are NULs. -/
theorem HoldsChars.pad {xs : List Char} (h : HoldsChars s xs) (hroom : n ≤ s.capacity) :
    ∃ s' zs, (if n > s.len then s.put s.len (List.replicate (n - s.len) (some nul)) else some s) = some s' ∧
      s'.capacity = s.capacity ∧ Filled s' (xs.take n ++ List.replicate (n - xs.length) nul ++ zs) := by
  rw [h.len]
  split_ifs with hlong
  · obtain ⟨s', hput, -, hcap, hs'⟩ := h.filled.put (List.replicate (n - xs.length) nul)
      (by rw [List.length_replicate]; omega)
    rw [List.map_replicate] at hput
    rw [List.take_of_length_le hlong.le]
    exact ⟨s', _, hput, hcap, by rwa [List.append_assoc]⟩
  · refine ⟨s, xs.drop n ++ [nul], rfl, rfl, ?_⟩
    rw [Nat.sub_eq_zero_of_le (by omega), List.replicate_zero, List.append_nil, ← List.append_assoc,
      List.take_append_drop]
    exact h.filled

theorem IsText.resize (h : IsText s t) (l : Ledger) (hbuf : t.buffer = true ∨ 0 < n) (hn : n + 1 < 2 ^ 32) :
    YieldsText (String.resize l s n) ⟨t.chars.take n ++ List.replicate (n - t.chars.length) nul, true⟩ := by
  obtain ⟨l', s1, hreserve, hroom, hs1⟩ := h.makeRoom l hn hbuf
  obtain ⟨s2, zs, hput, hcap, hs2⟩ := hs1.pad hroom
  have hlen : (t.chars.take n ++ List.replicate (n - t.chars.length) nul).length = n := by
    rw [List.length_append, List.length_take, List.length_replicate]
    omega
  obtain ⟨s3, hterm, hs3⟩ := hs2.terminate (by omega)
  rw [hlen] at hterm
  refine ⟨l', s3, ?_, .inr ⟨rfl, hs3⟩⟩
  simp only [String.resize, hreserve, Option.bind_some, hput, hterm, Option.map_some]

theorem IsText.append (h : IsText s t) (l : Ledger) {xs : List Char} (hbuf : t.buffer = true ∨ 0 < xs.length)
    (hfits : t.chars.length + xs.length + 1 < 2 ^ 32) :
    YieldsText (String.append l s xs) ⟨t.chars ++ xs, true⟩ := by
  obtain ⟨l', s1, hresize, hs1⟩ := h.resize l (n := t.chars.length + xs.length) (hbuf.imp id (by omega)) hfits
  have hs1 := hs1.holds rfl
  dsimp only at hs1
  rw [List.take_of_length_le (by omega), Nat.add_sub_cancel_left] at hs1
  have hlen1 : s1.len = t.chars.length + xs.length := by
    rw [hs1.len, List.length_append, List.length_replicate]
  have hsub : Word.sub 32 s1.len xs.length = t.chars.length := by
    rw [hlen1, Word.sub_of_le (by omega) (by omega), Nat.add_sub_cancel]
  have hroom := hs1.capacity
  have hfilled := hs1.filled
  rw [List.append_assoc] at hfilled
  obtain ⟨s2, hput, hlen, hcap, hs2⟩ := hfilled.put xs (by omega)
  refine ⟨l', s2, ?_, .inr ⟨rfl, by simpa using hs2, ?_, by rwa [hlen, hcap]⟩⟩
  · rw [String.append, h.len_eq, Word.add_of_lt (by omega), hresize]
    simp only [Option.bind_some, hsub, hput, Option.map_some]
  · rw [hlen, hlen1, List.length_append]

theorem fill_yields (l : Ledger) {xs : List Char} (hfits : xs.length + 1 < 2 ^ 32) :
    YieldsText (Storage.fill String.term l xs.length xs.length (xs.map some)) ⟨xs, true⟩ := by
  obtain ⟨b, hwrite, hs⟩ := write_new l.next xs le_rfl hfits
  refine ⟨l.allocate, _, ?_, .inr ⟨rfl, hs⟩⟩
  simp only [Storage.fill, show String.term.length = 1 from rfl, Buffer.allocate, Word.add_of_lt hfits, hwrite,
    Option.map_some]

def Text.extend (t : Text) (xs : List Char) : Text := ⟨t.chars ++ xs, t.buffer || !xs.isEmpty⟩

theorem IsText.pushAll (h : IsText s t) (l : Ledger) {xs : List Char}
    (hfits : t.chars.length + xs.length + 1 < 2 ^ 32) :
    YieldsText (Storage.pushAll String.term l s xs) (t.extend xs) := by
  induction xs generalizing l s t with
  | nil => exact ⟨l, s, rfl, by simpa [Text.extend] using h⟩
  | cons x xs ih =>
    rw [List.length_cons] at hfits
    obtain ⟨l', s', hpush, hs'⟩ := h.pushBack l x (by omega)
    have hrest := ih hs' l' (by rw [List.length_append, List.length_singleton]; omega)
    have htext : (⟨t.chars ++ [x], true⟩ : Text).extend xs = t.extend (x :: xs) := by
      simp [Text.extend]
    rw [← htext, Storage.pushAll, ← String.pushBack, hpush]
    exact hrest

theorem IsText.assign {tmp : Storage Char} {u : Text} (h : IsText s t) (l : Ledger) (htmp : IsText tmp u) :
    YieldsText (s.assign l tmp) u := by
  obtain ⟨l', hdestroy⟩ := h.destroy l
  exact ⟨l', tmp, by rw [Storage.assign, hdestroy, Option.map_some], htmp⟩

def Text.modify (t : Text) : StringMod → Text
  | .reserve n => ⟨t.chars, t.buffer || decide (0 < n)⟩
  | .clear => ⟨[], true⟩
  | .pushBack c => ⟨t.chars ++ [c], true⟩
  | .appendCount n c => ⟨t.chars ++ List.replicate n c, true⟩
  | .append xs => ⟨t.chars ++ xs, true⟩
  | .appendRange xs => t.extend xs
  | .resize n => ⟨t.chars.take n ++ List.replicate (n - t.chars.length) nul, true⟩
  | .setAt .. => t
  | .assignChars xs => ⟨xs, true⟩

/-- There is a buffer to write to, and the sizes are below `2^32`. Single characters are not assigned. -/
def Text.Permits (t : Text) : StringMod → Prop
  | .reserve n => n + 1 < 2 ^ 32
  | .clear => t.buffer = true
  | .pushBack _ => t.chars.length + 2 < 2 ^ 32
  | .appendCount n _ => (t.buffer = true ∨ 0 < n) ∧ t.chars.length + n + 1 < 2 ^ 32
  | .append xs => (t.buffer = true ∨ 0 < xs.length) ∧ t.chars.length + xs.length + 1 < 2 ^ 32
  | .appendRange xs => t.chars.length + xs.length + 1 < 2 ^ 32
  | .resize n => (t.buffer = true ∨ 0 < n) ∧ n + 1 < 2 ^ 32
  | .setAt .. => False
  | .assignChars xs => xs.length + 1 < 2 ^ 32

theorem IsText.modify (h : IsText s t) (l : Ledger) {m : StringMod} (hm : t.Permits m) :
    YieldsText (m.run l s) (t.modify m) := by
  cases m with
  | reserve n =>
    obtain ⟨l', s', hreserve, -, hs'⟩ := h.reserve l hm
    exact ⟨l', s', hreserve, hs'⟩
  | clear =>
    have hclear := h.resize l (n := 0) (.inl hm) (by decide)
    rwa [Nat.zero_sub] at hclear
  | pushBack c => exact h.pushBack l c hm
  | appendCount n c => exact h.append l (by simpa using hm.1) (by simpa using hm.2)
  | append xs => exact h.append l hm.1 hm.2
  | appendRange xs => exact h.pushAll l hm
  | resize n => exact h.resize l hm.1 hm.2
  | setAt pos c => exact hm.elim
  | assignChars xs =>
    obtain ⟨l', tmp, hfill, htmp⟩ := fill_yields l hm
    rw [StringMod.run, String.assignChars, String.constructChars, hfill]
    exact h.assign l' htmp

def StringInit.text : StringInit → Text
  | .default => {}
  | .count n ch => ⟨List.replicate n ch, true⟩
  | .chars xs => ⟨xs, true⟩
  | .range xs => Text.extend {} xs

theorem StringInit.run_yields (l : Ledger) (c : StringInit) (hc : c.text.chars.length + 1 < 2 ^ 32) :
    YieldsText (c.run l) c.text := by
  cases c with
  | default => exact ⟨l, {}, rfl, .default⟩
  | count n ch =>
    have hfill := fill_yields l hc
    simpa only [text, run, String.constructCount, List.length_replicate, List.map_replicate] using hfill
  | chars xs => exact fill_yields l hc
  | range xs => exact IsText.default.pushAll l (by simpa [text, Text.extend] using hc)

theorem IsText.copy (h : IsText s t) (l : Ledger) : YieldsText (String.copy l s) ⟨t.chars, true⟩ := by
  obtain ⟨hlen, hcap⟩ := h.capacity_lt
  rw [h.len_eq] at hlen
  rw [String.copy, h.read, Option.bind_some, h.len_eq]
  exact fill_yields l (by omega)

end Strings

abbrev Texts := ℕ → Option Text

namespace ContainerOp
variable {α : Type*}

def texts (τ : Texts) : ContainerOp α → Texts
  | .string i c => update τ i (some c.text)
  | .copy i j | .copyAssign i j => update τ i ((τ j).map fun t => ⟨t.chars, true⟩)
  | .move i j => update (update τ i (τ j)) j (some {})
  | .moveAssign i j | .swap i j => update (update τ i (τ j)) j (τ i)
  | .modifyString i m => update τ i ((τ i).map (·.modify m))
  | .destroy i => update τ i none
  | .vector .. | .modifyVector .. => τ

/-- The objects that the operation uses exist, those that it constructs do not, and the sizes and
buffers are as the operation needs them. -/
def Permitted (τ : Texts) : ContainerOp α → Prop
  | .string i c => τ i = none ∧ c.text.chars.length + 1 < 2 ^ 32
  | .copy i j | .move i j => τ i = none ∧ τ j ≠ none
  | .copyAssign i j | .moveAssign i j | .swap i j => τ i ≠ none ∧ τ j ≠ none
  | .modifyString i m => ∃ t, τ i = some t ∧ t.Permits m
  | .destroy i => τ i ≠ none
  | .vector .. | .modifyVector .. => False

end ContainerOp

def IsTextObject {α : Type*} (o : Object α) (t : Text) : Prop := ∃ s, o = .string s ∧ IsText s t

def HoldTexts {α : Type*} (st : Containers α) (τ : Texts) : Prop := Slots.Related IsTextObject st.objects τ

section Objects
variable {α : Type*} {st : Containers α} {τ : Texts} {t : Text} {i j : ℕ}

theorem HoldTexts.string (h : HoldTexts st τ) (hi : τ i = some t) :
    ∃ s, st.objects i = some (.string s) ∧ IsText s t := by
  obtain ⟨_, hobj, s, rfl, hs⟩ := Slots.Related.of_right h hi
  exact ⟨s, hobj, hs⟩

theorem HoldTexts.store (h : HoldTexts st τ) {s : Storage Char} (l : Ledger) (hs : IsText s t) :
    HoldTexts (st.store i (l, .string s)) (update τ i (some t)) :=
  Slots.Related.update h (.some ⟨s, rfl, hs⟩)

theorem HoldTexts.add (h : HoldTexts st τ) {r : Option (Ledger × Storage Char)} (hi : τ i = none)
    (hr : YieldsText r t) :
    ∃ st', st.add i (r.map (Prod.map id .string)) = some st' ∧ HoldTexts st' (update τ i (some t)) := by
  obtain ⟨l, s, rfl, hs⟩ := hr
  exact ⟨_, by rw [Containers.add, Slots.Related.eq_none h hi]; rfl, h.store l hs⟩

theorem HoldTexts.swap (h : HoldTexts st τ) (hi : τ i ≠ none) (hj : τ j ≠ none) :
    ∃ st', st.swap i j = some st' ∧ HoldTexts st' (update (update τ i (τ j)) j (τ i)) := by
  obtain ⟨t, hi⟩ := Option.ne_none_iff_exists'.mp hi
  obtain ⟨u, hj⟩ := Option.ne_none_iff_exists'.mp hj
  obtain ⟨s, hobj, -⟩ := h.string hi
  obtain ⟨s', hobj', -⟩ := h.string hj
  have hswap := Slots.Related.swap h i j
  rw [hobj, hobj'] at hswap
  exact ⟨⟨st.ledger, _⟩, by rw [Containers.swap, hobj, hobj']; rfl, hswap⟩

theorem HoldTexts.move (h : HoldTexts st τ) (hi : τ i = none) (hj : τ j ≠ none) :
    ∃ st', (ContainerOp.move i j).run st = some st' ∧ HoldTexts st' (update (update τ i (τ j)) j (some {})) := by
  obtain ⟨u, hu⟩ := Option.ne_none_iff_exists'.mp hj
  obtain ⟨s, hobj, -⟩ := h.string hu
  obtain ⟨st1, hadd, h1⟩ := h.add hi ⟨st.ledger, {}, rfl, .default⟩
  have hij : j ≠ i := fun he => hj (he ▸ hi)
  obtain ⟨st2, hswap, h2⟩ := h1.swap (i := i) (j := j) (by simp) (by rwa [update_of_ne hij])
  rw [update_self, update_of_ne hij, update_idem] at h2
  refine ⟨st2, ?_, h2⟩
  rw [ContainerOp.run, hobj, Option.bind_some, Object.fresh]
  exact (congrArg (·.bind fun st => st.swap i j) hadd).trans hswap

/-- An operation that is permitted does to the strings what it does to the texts. -/
theorem HoldTexts.run (h : HoldTexts st τ) {op : ContainerOp α} (hop : op.Permitted τ) :
    ∃ st', op.run st = some st' ∧ HoldTexts st' (op.texts τ) := by
  cases op with
  | vector | modifyVector => exact hop.elim
  | string i c => exact h.add hop.1 (c.run_yields st.ledger hop.2)
  | copy i j =>
    obtain ⟨u, hj⟩ := Option.ne_none_iff_exists'.mp hop.2
    obtain ⟨s, hobj, hs⟩ := h.string hj
    rw [ContainerOp.run, ContainerOp.texts, hobj, hj]
    exact h.add hop.1 (hs.copy st.ledger)
  | move i j => exact h.move hop.1 hop.2
  | copyAssign i j =>
    obtain ⟨t, hi⟩ := Option.ne_none_iff_exists'.mp hop.1
    obtain ⟨u, hj⟩ := Option.ne_none_iff_exists'.mp hop.2
    obtain ⟨s, hobj, hs⟩ := h.string hi
    obtain ⟨s', hobj', hs'⟩ := h.string hj
    obtain ⟨l, tmp, hcopy, htmp⟩ := hs'.copy st.ledger
    obtain ⟨l', hdestroy⟩ := hs.destroy l
    rw [ContainerOp.texts, hj]
    refine ⟨_, ?_, h.store l' htmp⟩
    simp [ContainerOp.run, hobj', Object.copy, hcopy, Containers.modify, hobj, Object.sameClass, Object.destroy,
      hdestroy]
  | moveAssign i j | swap i j => exact h.swap hop.1 hop.2
  | modifyString i m =>
    obtain ⟨t, hi, hm⟩ := hop
    obtain ⟨s, hobj, hs⟩ := h.string hi
    obtain ⟨l, s', hrun, hs'⟩ := hs.modify st.ledger hm
    rw [ContainerOp.texts, hi]
    refine ⟨_, ?_, h.store l hs'⟩
    simp [ContainerOp.run, Containers.modify, hobj, Object.modifyString, hrun]
  | destroy i =>
    obtain ⟨t, hi⟩ := Option.ne_none_iff_exists'.mp hop
    obtain ⟨s, hobj, hs⟩ := h.string hi
    obtain ⟨l, hdestroy⟩ := hs.destroy st.ledger
    refine ⟨⟨l, update st.objects i none⟩, ?_, Slots.Related.update h .none⟩
    rw [ContainerOp.run, hobj, Option.bind_some, Object.destroy, hdestroy, Option.map_some]

def textsFrom (τ : Texts) (ops : List (ContainerOp α)) : Texts := ops.foldl ContainerOp.texts τ

def PermittedFrom : Texts → List (ContainerOp α) → Prop
  | _, [] => True
  | τ, op :: ops => op.Permitted τ ∧ PermittedFrom (op.texts τ) ops

theorem HoldTexts.runOps (h : HoldTexts st τ) {ops : List (ContainerOp α)} (hops : PermittedFrom τ ops) :
    ∃ st', runOps st ops = some st' ∧ HoldTexts st' (textsFrom τ ops) := by
  induction ops generalizing st τ with
  | nil => exact ⟨st, rfl, h⟩
  | cons op ops ih =>
    obtain ⟨st', hrun, h'⟩ := h.run hops.1
    rw [Nonstd.runOps, hrun]
    exact ih h' hops.2

/-- Nothing outside a buffer is touched as long as no string without one is cleared or appended nothing to. What
breaks the invariant then is the missing buffer alone. -/
theorem strings_hold_iff (ops : List (ContainerOp α)) (hops : PermittedFrom (fun _ => none) ops) :
    ∃ st, runOps .empty ops = some st ∧ ∀ i t, textsFrom (fun _ => none) ops i = some t →
      ∃ s, st.objects i = some (.string s) ∧ (HoldsChars s t.chars ↔ t.buffer = true) := by
  have hempty : HoldTexts (Containers.empty : Containers α) fun _ => none := fun _ => .none
  obtain ⟨st, hrun, h⟩ := hempty.runOps hops
  refine ⟨st, hrun, fun i t hi => ?_⟩
  obtain ⟨s, hobj, hs⟩ := h.string hi
  refine ⟨s, hobj, fun hholds => ?_, hs.holds⟩
  obtain ⟨rfl, rfl⟩ | ⟨hbuf, -⟩ := hs
  · obtain ⟨b, hdata, -⟩ := hholds.filled
    cases hdata
  · exact hbuf

/-- A string of one character that grows and is copied, and cleared after that. -/
theorem strings_hold_grown :
    ∃ st, runOps (.empty : Containers ℕ) [.string 0 (.chars ['a']), .modifyString 0 (.pushBack 'b'), .copy 1 0,
        .modifyString 0 .clear] = some st ∧
      (∃ s, st.objects 0 = some (.string s) ∧ HoldsChars s []) ∧
      ∃ s, st.objects 1 = some (.string s) ∧ HoldsChars s ['a', 'b'] := by
  obtain ⟨st, hrun, hst⟩ := strings_hold_iff ([.string 0 (.chars ['a']), .modifyString 0 (.pushBack 'b'),
    .copy 1 0, .modifyString 0 .clear] : List (ContainerOp ℕ)) (by simp [PermittedFrom, ContainerOp.Permitted,
      ContainerOp.texts, StringInit.text, Text.Permits, Text.modify])
  obtain ⟨s, hobj, hs⟩ := hst 0 ⟨[], true⟩ rfl
  obtain ⟨s', hobj', hs'⟩ := hst 1 ⟨['a', 'b'], true⟩ rfl
  exact ⟨st, hrun, ⟨s, hobj, hs.mpr rfl⟩, s', hobj', hs'.mpr rfl⟩

/-- A string without characters has no buffer, and `clear` writes a NUL to it. -/
theorem strings_hold_not_default :
    (runOps (.empty : Containers ℕ) [.string 0 .default]).map (·.objects 0) = some (some (.string ⟨0, 0, none⟩)) ∧
      (runOps (.empty : Containers ℕ) [.string 0 (.range [])]).map (·.objects 0) =
        some (some (.string ⟨0, 0, none⟩)) ∧
      (runOps (.empty : Containers ℕ) [.string 0 .default, .modifyString 0 .clear]).isNone ∧
      (runOps (.empty : Containers ℕ) [.string 0 .default, .modifyString 0 (.reserve (2 ^ 32 - 1))]).isNone :=
  ⟨rfl, rfl, rfl, rfl⟩

end Objects

end HmmOS.Nonstd
