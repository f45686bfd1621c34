import HmmOS.Nonstd.Printf
import Mathlib.Algebra.Order.BigOperators.Group.List

/-! # The documented specifiers

The documentation of `_parse_format_spec` and the loop of `_vsnprintf` differ for the
modifiers `h` and `hh`: the parser takes `h` for `hh` and rejects `hh`, and neither
shortens the argument.
-/
namespace HmmOS.Nonstd.Printf
open Lib StringView

inductive Modifier where
  | none | l | ll | h | hh
  deriving DecidableEq, Repr

inductive Conversion where
  | d | u | b | o | x
  deriving DecidableEq, Repr

inductive Directive where
  | literal (c : { c : Char // c ≠ '%' ∧ c ≠ nul })
  | percent
  | char
  | str
  | int (m : Modifier) (conv : Conversion)

def Modifier.text : Modifier → List Char
  | .none => []
  | .l => ['l']
  | .ll => ['l', 'l']
  | .h => ['h']
  | .hh => ['h', 'h']

def Conversion.char : Conversion → Char
  | .d => 'd'
  | .u => 'u'
  | .b => 'b'
  | .o => 'o'
  | .x => 'x'

def Directive.text : Directive → List Char
  | .literal c => [c]
  | .percent => ['%', '%']
  | .char => ['%', 'c']
  | .str => ['%', 's']
  | .int m conv => '%' :: (m.text ++ [conv.char])

def text (ds : List Directive) : List Char := ds.flatMap Directive.text

/-- The documented width of an integer, in bits. -/
def Modifier.bits : Modifier → ℕ
  | .none => 32
  | .l => 64
  | .ll => 64
  | .h => 16
  | .hh => 8

/-- Arguments shorter than 4 bytes are passed as 4 bytes. -/
abbrev Modifier.Value : Modifier → Type
  | .none | .h | .hh => UInt32
  | .l | .ll => UInt64

def Modifier.toNat : (m : Modifier) → m.Value → ℕ
  | .none, v | .h, v | .hh, v => UInt32.toNat v
  | .l, v | .ll, v => UInt64.toNat v

def Modifier.arg : (m : Modifier) → m.Value → Arg
  | .none, v | .h, v | .hh, v => .word v
  | .l, v | .ll, v => .long v

abbrev Directive.Value : Directive → Type
  | .literal _ | .percent => Unit
  | .char => UInt32
  | .str => List Char
  | .int m _ => m.Value

/-- The numeral of a number after conversion to a width. -/
def Conversion.render (conv : Conversion) (bits n : ℕ) : List Char :=
  match conv with
  | .d => decimal (Int.bmod n (2 ^ bits))
  | .u => numeral 10 (n % 2 ^ bits)
  | .b => numeral 2 (n % 2 ^ bits)
  | .o => numeral 8 (n % 2 ^ bits)
  | .x => numeral 16 (n % 2 ^ bits)

/-- A piece of a format with an argument that matches it. -/
abbrev Item := (d : Directive) × d.Value

def Item.args : Item → List Arg
  | ⟨.literal _, _⟩ | ⟨.percent, _⟩ => []
  | ⟨.char, v⟩ => [.word v]
  | ⟨.str, s⟩ => [.str s]
  | ⟨.int m _, v⟩ => [m.arg v]

/-- The text of a piece, for integers of some width. -/
def Item.renderWith (bits : Modifier → ℕ) : Item → List Char
  | ⟨.literal c, _⟩ => [c]
  | ⟨.percent, _⟩ => ['%']
  | ⟨.char, v⟩ => [Char.ofNat (UInt32.toNat v % 256)]
  | ⟨.str, s⟩ => s.takeWhile (· ≠ nul)
  | ⟨.int m conv, v⟩ => conv.render (bits m) (m.toNat v)

def Item.rendered : Item → List Char := Item.renderWith Modifier.bits

/-- For all arguments that match the format the console shows the documented text, and just these arguments
are taken. -/
def Documented (ds : List Directive) : Prop :=
  ∀ items : List Item, items.map Sigma.fst = ds → ∀ rest : List Arg,
    vsnprintfLoop termWriter (text ds) (items.flatMap Item.args ++ rest) 0 [] =
      some (rest, (items.flatMap Item.rendered).length, items.flatMap Item.rendered)

/-- A piece with one of the modifiers for short integers. -/
def Directive.Short : Directive → Prop
  | .int .h _ | .int .hh _ => True
  | _ => False

section Parse
variable {c : Char} (hc : specType c ≠ .inval) (fmt : List Char)
include hc

theorem type_char_ne : c ≠ 'l' ∧ c ≠ 'h' ∧ c ≠ nul := by
  refine ⟨?_, ?_, ?_⟩ <;>
  · rintro rfl
    exact hc (by decide)

theorem parseFormatSpec_plain : parseFormatSpec ('%' :: c :: fmt) = (⟨.normal, specType c⟩, 2) := by
  obtain ⟨hl, hh, hnul⟩ := type_char_ne hc
  simp [parseFormatSpec, hl, hh, hnul, hc]

theorem parseFormatSpec_l : parseFormatSpec ('%' :: 'l' :: c :: fmt) = (⟨.long, specType c⟩, 3) := by
  obtain ⟨hl, hh, hnul⟩ := type_char_ne hc
  simp [parseFormatSpec, skipLength, SpecLength.toNat, SpecLength.next, hl, hc, nul]

theorem parseFormatSpec_ll :
    parseFormatSpec ('%' :: 'l' :: 'l' :: c :: fmt) = (⟨.longLong, specType c⟩, 4) := by
  simp [parseFormatSpec, skipLength, SpecLength.toNat, SpecLength.next, hc, nul]

/-- The loop takes the step from `h` to `hh` for the first `h`. -/
theorem parseFormatSpec_h : parseFormatSpec ('%' :: 'h' :: c :: fmt) = (⟨.shortShort, specType c⟩, 3) := by
  simp [parseFormatSpec, skipLength, SpecLength.toNat, SpecLength.next, hc, nul]

end Parse

variable {args : List Arg} {m : Modifier} {out r : List Char × List Arg}

theorem parseFormatSpec_hh (fmt : List Char) :
    parseFormatSpec ('%' :: 'h' :: 'h' :: fmt) = (⟨.shortShort, .inval⟩, 1) := by
  simp [parseFormatSpec, skipLength, SpecLength.toNat, SpecLength.next, specType, nul]

/-- The width with which the loop reads an integer. -/
def Modifier.readBits : Modifier → ℕ
  | .none | .h | .hh => 32
  | .l | .ll => 64

def Conversion.type : Conversion → SpecType
  | .d => .signed
  | .u => .unsigned
  | .b => .binary
  | .o => .octal
  | .x => .hex

def Modifier.length : Modifier → SpecLength
  | .none => .normal
  | .l => .long
  | .ll => .longLong
  | .h | .hh => .shortShort

theorem specType_char (conv : Conversion) : specType conv.char = conv.type := by
  cases conv <;> rfl

theorem specType_char_ne_inval (conv : Conversion) : specType conv.char ≠ .inval := by
  cases conv <;> decide

theorem Modifier.toNat_lt (m : Modifier) (v : m.Value) : m.toNat v < 2 ^ m.readBits := by
  cases m with
  | none | h | hh => exact UInt32.toNat_lt v
  | l | ll => exact UInt64.toNat_lt v

theorem unsignedChars_eq (m : Modifier) (v : m.Value) {radix : ℕ} (hr : radix ∈ [2, 8, 10, 16])
    (args : List Arg) : unsignedChars m.length radix (m.arg v :: args) =
      some (numeral radix (m.toNat v % 2 ^ m.readBits), args) := by
  have hlt := m.toNat_lt v
  have hutoa : utoa (m.toNat v) radix = some (numeral radix (m.toNat v)) := by
    apply utoa_eq _ hr
    cases m <;> simp only [Modifier.readBits] at hlt <;> omega
  rw [Nat.mod_eq_of_lt hlt]
  cases m with
  | none | l | ll | h | hh => exact congrArg (Option.map (·, args)) hutoa

theorem signedChars_eq (m : Modifier) (v : m.Value) (args : List Arg) : signedChars m.length (m.arg v :: args) =
      some (decimal (Int.bmod (m.toNat v) (2 ^ m.readBits)), args) := by
  have hitoa : itoa (Int.bmod (m.toNat v) (2 ^ m.readBits)) =
      some (decimal (Int.bmod (m.toNat v) (2 ^ m.readBits))) := by
    have hlo := @Int.le_bmod (m.toNat v) (2 ^ m.readBits) (by positivity)
    have hhi := @Int.bmod_lt (m.toNat v) (2 ^ m.readBits) (by positivity)
    apply itoa_eq
    · cases m <;> simp only [Modifier.readBits] at hlo ⊢ <;> omega
    · cases m <;> simp only [Modifier.readBits] at hhi ⊢ <;> omega
  cases m with
  | none | l | ll | h | hh =>
    simp only [Modifier.readBits, Modifier.toNat] at hitoa
    simp only [signedChars, Modifier.length, Modifier.arg, Modifier.readBits, Modifier.toNat, hitoa,
      Option.map_some]

theorem chars_int (m : Modifier) (conv : Conversion) (v : m.Value) (args : List Arg) :
    FormatSpec.chars ⟨m.length, conv.type⟩ (m.arg v :: args) =
      some (conv.render m.readBits (m.toNat v), args) := by
  cases conv with
  | d => exact signedChars_eq m v args
  | u | b | o | x => exact unsignedChars_eq m v (by decide) args

theorem parseFormatSpec_int (hm : m ≠ .hh) (conv : Conversion) (fmt : List Char) :
    parseFormatSpec ((Directive.int m conv).text ++ fmt) =
      (⟨m.length, conv.type⟩, (Directive.int m conv).text.length) := by
  have hc := specType_char_ne_inval conv
  rw [← specType_char]
  cases m with
  | none => exact parseFormatSpec_plain hc fmt
  | l => exact parseFormatSpec_l hc fmt
  | ll => exact parseFormatSpec_ll hc fmt
  | h => exact parseFormatSpec_h hc fmt
  | hh => exact absurd rfl hm

/-- Every piece but those with `hh` takes its argument; integers are read with the width of `readBits`. -/
theorem emitted_item (item : Item) (h : ∀ conv, item.1 ≠ .int .hh conv) (fmt : List Char) (args : List Arg) :
    emitted (item.1.text ++ fmt) (item.args ++ args) =
      (emitted fmt args).map fun rest => (item.renderWith Modifier.readBits ++ rest.1, rest.2) := by
  obtain ⟨d, v⟩ := item
  cases d with
  | literal c => exact emitted_literal c.2.1 c.2.2 fmt args
  | percent => exact @emitted_specifier ['%', '%'] fmt _ rfl (parseFormatSpec_plain (by decide) fmt) args
  | char => exact @emitted_specifier ['%', 'c'] fmt _ rfl (parseFormatSpec_plain (by decide) fmt) (.word v :: args)
  | str => exact @emitted_specifier ['%', 's'] fmt _ rfl (parseFormatSpec_plain (by decide) fmt) (.str v :: args)
  | int m conv =>
    have hm : m ≠ .hh := by
      rintro rfl
      exact h conv rfl
    refine (emitted_specifier rfl (parseFormatSpec_int hm conv fmt) (m.arg v :: args)).trans ?_
    rw [chars_int]
    rfl

theorem emitted_items (items : List Item) (h : ∀ item ∈ items, ∀ conv, item.1 ≠ .int .hh conv)
    (rest : List Arg) : emitted (text (items.map Sigma.fst)) (items.flatMap Item.args ++ rest) =
      some (items.flatMap (Item.renderWith Modifier.readBits), rest) := by
  induction items with
  | nil => exact emitted_nil rest
  | cons item items ih =>
    have hitem := emitted_item item (h item List.mem_cons_self) (text (items.map Sigma.fst))
      (items.flatMap Item.args ++ rest)
    rw [ih fun i hi => h i (List.mem_cons_of_mem _ hi)] at hitem
    simpa [text] using hitem

theorem renderWith_of_not_short {item : Item} (h : ¬ item.1.Short) :
    item.renderWith Modifier.readBits = item.rendered := by
  obtain ⟨d, v⟩ := item
  cases d with
  | literal | percent | char | str => rfl
  | int m conv =>
    cases m with
    | none | l | ll => rfl
    | h | hh => exact absurd trivial h

theorem documented_iff_emitted (ds : List Directive) :
    Documented ds ↔ ∀ items : List Item, items.map Sigma.fst = ds → ∀ rest : List Arg,
      emitted (text ds) (items.flatMap Item.args ++ rest) = some (items.flatMap Item.rendered, rest) := by
  apply forall_congr'; intro items
  apply forall_congr'; intro _
  apply forall_congr'; intro rest
  rw [vsnprintfLoop_eq]
  cases emitted (text ds) (items.flatMap Item.args ++ rest) with
  | none => simp
  | some r =>
    simp only [Option.map_some, Option.some.injEq, writeAll_termWriter, List.nil_append,
      Nat.zero_add, Prod.ext_iff]
    constructor
    · rintro ⟨hrest, -, htext⟩
      exact ⟨htext, hrest⟩
    · rintro ⟨htext, hrest⟩
      exact ⟨hrest, congrArg List.length htext, htext⟩

/-- The least number of characters for a piece. -/
def Directive.least : Directive → ℕ
  | .str => 0
  | _ => 1

/-- Arguments for which the documented text is as short as possible. -/
def Directive.shortest : (d : Directive) → d.Value
  | .literal _ | .percent => ()
  | .char => (0 : UInt32)
  | .str => []
  | .int .h _ => (65536 : UInt32)
  | .int .none _ | .int .hh _ => (0 : UInt32)
  | .int .l _ | .int .ll _ => (0 : UInt64)

def Directive.item (d : Directive) : Item := ⟨d, d.shortest⟩

theorem length_rendered_item (d : Directive) : d.item.rendered.length = d.least := by
  cases d with
  | literal | percent | char | str => rfl
  | int m conv =>
    cases m <;> cases conv <;> decide

theorem least_le_renderWith (d : Directive) : d.least ≤ (d.item.renderWith Modifier.readBits).length := by
  cases d with
  | literal | percent | char | str => exact le_rfl
  | int m conv => cases m <;> cases conv <;> decide

/-- In the 4 bytes of 65536 there are more digits than in its lower 2 bytes. -/
theorem least_lt_renderWith (conv : Conversion) :
    (Directive.int .h conv).least < ((Directive.int .h conv).item.renderWith Modifier.readBits).length := by
  cases conv <;> decide

/-- The number of characters that the loop writes at least, `hh` and the type being taken for literals. -/
def Directive.written : Directive → ℕ
  | .int .hh _ => 3
  | d => d.least

theorem least_le_written (d : Directive) : d.least ≤ d.written := by
  cases d with
  | literal | percent | char | str => exact le_rfl
  | int m conv => cases m <;> simp [Directive.least, Directive.written]

theorem numeral_ne_nil (radix val : ℕ) : numeral radix val ≠ [] := by
  unfold numeral
  split_ifs with h
  · simp
  · simp [Nat.digits_ne_nil_iff_ne_zero.mpr h]

theorem length_render (conv : Conversion) (bits n : ℕ) : 1 ≤ (conv.render bits n).length := by
  apply List.length_pos_of_ne_nil
  cases conv with
  | d =>
    unfold Conversion.render decimal
    split_ifs
    · simp
    · apply numeral_ne_nil
  | u | b | o | x => apply numeral_ne_nil

theorem exists_arg {conv : Conversion} (h : FormatSpec.chars ⟨m.length, conv.type⟩ args = some out) :
    ∃ v rest, args = m.arg v :: rest := by
  cases args with
  | nil => cases m <;> cases conv <;> cases h
  | cons a rest =>
    cases a with
    | word v =>
      cases m with
      | none | h | hh => exact ⟨v, rest, rfl⟩
      | l | ll => cases conv <;> cases h
    | long v =>
      cases m with
      | none | h | hh => cases conv <;> cases h
      | l | ll => exact ⟨v, rest, rfl⟩
    | str s => cases m <;> cases conv <;> cases h

theorem emitted_hh (conv : Conversion) (fmt : List Char) (args : List Arg) :
    emitted ((Directive.int .hh conv).text ++ fmt) args =
      (emitted fmt args).map fun rest => ('h' :: 'h' :: conv.char :: rest.1, rest.2) := by
  have hc : conv.char ≠ '%' ∧ conv.char ≠ nul := by cases conv <;> decide
  have hspec := @emitted_specifier ['%'] ('h' :: 'h' :: conv.char :: fmt) ⟨.shortShort, .inval⟩ rfl
    (parseFormatSpec_hh _) args
  have hchars : FormatSpec.chars ⟨.shortShort, .inval⟩ args = some ([], args) := rfl
  refine hspec.trans ?_
  rw [hchars, Option.bind_some, emitted_literal (by decide) (by decide),
    emitted_literal (by decide) (by decide), emitted_literal hc.1 hc.2]
  simp only [Option.map_map]
  rfl

theorem length_chars_int {conv : Conversion}
    (h : FormatSpec.chars ⟨m.length, conv.type⟩ args = some out) : 1 ≤ out.1.length := by
  obtain ⟨v, rest, rfl⟩ := exists_arg h
  rw [chars_int, Option.some.injEq] at h
  rw [← h]
  apply length_render

/-- A bound for the characters of a specifier is one for what is written more than for the rest. -/
theorem emitted_specifier_length {spec fmt : List Char} {fs : FormatSpec} {n : ℕ}
    (hhead : spec.head? = some '%') (hparse : parseFormatSpec (spec ++ fmt) = (fs, spec.length))
    (hn : ∀ args out, fs.chars args = some out → n ≤ out.1.length) (h : emitted (spec ++ fmt) args = some r) :
    ∃ args' r', emitted fmt args' = some r' ∧ n + r'.1.length ≤ r.1.length := by
  rw [emitted_specifier hhead hparse] at h
  obtain ⟨out, hout, hrest⟩ := Option.bind_eq_some_iff.mp h
  obtain ⟨r', hr', rfl⟩ := Option.map_eq_some_iff.mp hrest
  refine ⟨out.2, r', hr', ?_⟩
  rw [List.length_append]
  exact Nat.add_le_add_right (hn args out hout) _

/-- Whatever the arguments are, a piece is written with at least `written` characters. -/
theorem emitted_directive {d : Directive} {fmt : List Char} (h : emitted (d.text ++ fmt) args = some r) :
    ∃ args' r', emitted fmt args' = some r' ∧ d.written + r'.1.length ≤ r.1.length := by
  cases d with
  | literal c =>
    obtain ⟨r', hr', rfl⟩ := Option.map_eq_some_iff.mp ((emitted_literal c.2.1 c.2.2 fmt args).symm.trans h)
    exact ⟨args, r', hr', by simp [Directive.written, Directive.least, Nat.add_comm]⟩
  | percent =>
    apply @emitted_specifier_length _ _ ['%', '%'] _ _ _ rfl (parseFormatSpec_plain (by decide) fmt) _ h
    intro args out hout
    cases hout
    exact le_rfl
  | char =>
    apply @emitted_specifier_length _ _ ['%', 'c'] _ _ _ rfl (parseFormatSpec_plain (by decide) fmt) _ h
    intro args out hout
    match args, hout with
    | .word v :: rest, hout =>
      cases hout
      exact le_rfl
  | str =>
    apply @emitted_specifier_length _ _ ['%', 's'] _ _ _ rfl (parseFormatSpec_plain (by decide) fmt) _ h
    intro args out _
    exact Nat.zero_le _
  | int m conv =>
    by_cases hm : m = .hh
    · subst hm
      rw [emitted_hh] at h
      obtain ⟨r', hr', rfl⟩ := Option.map_eq_some_iff.mp h
      refine ⟨args, r', hr', ?_⟩
      simp only [Directive.written, List.length_cons]
      omega
    · apply emitted_specifier_length rfl (parseFormatSpec_int hm conv fmt) _ h
      intro args out hout
      have hlen := length_chars_int hout
      cases m with
      | none | l | ll | h => exact hlen
      | hh => exact absurd rfl hm

theorem emitted_length {ds : List Directive} (h : emitted (text ds) args = some r) :
    (ds.map Directive.written).sum ≤ r.1.length := by
  induction ds generalizing args r with
  | nil => exact Nat.zero_le _
  | cons d ds ih =>
    obtain ⟨args', r', hr', hle⟩ := emitted_directive h
    have := ih hr'
    rw [List.map_cons, List.sum_cons]
    omega

theorem length_rendered_items (ds : List Directive) :
    ((ds.map Directive.item).flatMap Item.rendered).length = (ds.map Directive.least).sum := by
  rw [List.length_flatMap, List.map_map]
  congr 1
  apply List.map_congr_left
  intro d _
  exact length_rendered_item d

theorem map_fst_item (ds : List Directive) : (ds.map Directive.item).map Sigma.fst = ds := by
  rw [List.map_map]
  exact List.map_id _

/-- The text is the documented one exactly for the formats without `h` and `hh`. -/
theorem vsnprintf_documented_iff (ds : List Directive) : Documented ds ↔ ∀ d ∈ ds, ¬ d.Short := by
  rw [documented_iff_emitted]
  constructor
  · intro hdoc d hd hshort
    have hitems := hdoc (ds.map Directive.item) (map_fst_item ds) []
    by_cases hhh : ∃ conv, Directive.int .hh conv ∈ ds
    · obtain ⟨conv, hmem⟩ := hhh
      have hlen := emitted_length hitems
      rw [length_rendered_items] at hlen
      have hlt : (ds.map Directive.least).sum < (ds.map Directive.written).sum := by
        apply List.sum_lt_sum
        · intro d _
          exact least_le_written d
        · exact ⟨_, hmem, show 1 < 3 by decide⟩
      omega
    · have hread := emitted_items (ds.map Directive.item) (by
        intro item hitem conv heq
        obtain ⟨d, hd, rfl⟩ := List.mem_map.mp hitem
        exact hhh ⟨conv, heq ▸ hd⟩) []
      rw [map_fst_item, hitems, Option.some.injEq, Prod.mk.injEq] at hread
      have hlen := congrArg List.length hread.1
      rw [length_rendered_items, List.length_flatMap, List.map_map] at hlen
      have hlt : (ds.map Directive.least).sum <
          (ds.map ((fun item => (Item.renderWith Modifier.readBits item).length) ∘ Directive.item)).sum := by
        apply List.sum_lt_sum
        · intro d _
          exact least_le_renderWith d
        · refine ⟨d, hd, ?_⟩
          cases d with
          | literal | percent | char | str => exact hshort.elim
          | int m conv =>
            cases m with
            | none | l | ll => exact hshort.elim
            | h => exact least_lt_renderWith conv
            | hh => exact absurd ⟨conv, hd⟩ hhh
      omega
  · intro hshort items hitems rest
    subst hitems
    have hnot : ∀ item ∈ items, ¬ item.1.Short := fun item hitem =>
      hshort item.1 (List.mem_map_of_mem hitem)
    rw [emitted_items]
    · have htext : items.flatMap (Item.renderWith Modifier.readBits) = items.flatMap Item.rendered := by
        apply List.flatMap_congr
        intro item hitem
        exact renderWith_of_not_short (hnot item hitem)
      rw [htext]
    · intro item hitem conv heq
      apply hnot item hitem
      rw [heq]
      trivial

/-- `"%hd"` shows 65537 in full, and `"%hhd"` shows the letters and leaves the argument. -/
theorem vsnprintf_short_undocumented :
    vsnprintfLoop termWriter (text [.int .h .d]) [.word 65537] 0 [] =
        some ([], 5, ['6', '5', '5', '3', '7']) ∧
      Item.rendered ⟨.int .h .d, (65537 : UInt32)⟩ = ['1'] ∧
      vsnprintfLoop termWriter (text [.int .hh .d]) [.word 5] 0 [] =
        some ([.word 5], 3, ['h', 'h', 'd']) ∧
      Item.rendered ⟨.int .hh .d, (5 : UInt32)⟩ = ['5'] ∧
      ¬ Documented [.int .h .d] ∧ ¬ Documented [.int .hh .d] := by
  have hh : vsnprintfLoop termWriter (text [.int .h .d]) [.word 65537] 0 [] =
      some ([], 5, ['6', '5', '5', '3', '7']) := by
    have hemitted := emitted_items [⟨.int .h .d, (65537 : UInt32)⟩] (by simp) []
    rw [vsnprintfLoop_eq]
    refine (congrArg _ hemitted).trans ?_
    decide
  have hhh : vsnprintfLoop termWriter (text [.int .hh .d]) [.word 5] 0 [] =
      some ([.word 5], 3, ['h', 'h', 'd']) := by
    have hemitted := emitted_hh .d [] [.word 5]
    rw [emitted_nil] at hemitted
    rw [vsnprintfLoop_eq]
    refine (congrArg _ hemitted).trans ?_
    decide
  have hdoc : Item.rendered ⟨.int .h .d, (65537 : UInt32)⟩ = ['1'] := by decide
  have hdoc' : Item.rendered ⟨.int .hh .d, (5 : UInt32)⟩ = ['5'] := by decide
  refine ⟨hh, hdoc, hhh, hdoc', ?_, ?_⟩
  · intro h
    have hitem := h [⟨.int .h .d, (65537 : UInt32)⟩] rfl []
    simp [Item.args, Modifier.arg, hh, hdoc] at hitem
  · intro h
    have hitem := h [⟨.int .hh .d, (5 : UInt32)⟩] rfl []
    simp [Item.args, Modifier.arg, hhh] at hitem

end HmmOS.Nonstd.Printf
