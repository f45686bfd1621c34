import HmmOS.Nonstd.Itoa
import HmmOS.Nonstd.StringView

/-! # Formatted output

`_vsnprintf` passes characters to a writer, with their position. Arguments are typed:
`va_arg` with another type than that of the argument is undefined and has no result
here. Positions are below `2^32`.
-/
namespace HmmOS.Nonstd.Printf
open Lib StringView

inductive SpecType where
  | signed | unsigned | hex | binary | octal | str | char | pct | inval
  deriving DecidableEq, Repr

inductive SpecLength where
  | normal | long | longLong | short | shortShort
  deriving DecidableEq, Repr

/-- The order of the enumeration, on which the parser depends. -/
def SpecLength.toNat : SpecLength → ℕ
  | .normal => 0
  | .long => 1
  | .longLong => 2
  | .short => 3
  | .shortShort => 4

/-- The increment; there is nothing after the last length. -/
def SpecLength.next : SpecLength → SpecLength
  | .normal => .long
  | .long => .longLong
  | .longLong => .short
  | .short => .shortShort
  | .shortShort => .shortShort

structure FormatSpec where
  length : SpecLength
  type : SpecType
  deriving DecidableEq, Repr

/-- `while (fs->length < limit && *it == c)`. -/
def skipLength (c : Char) (limit : SpecLength) : SpecLength → List Char → SpecLength × List Char
  | length, [] => (length, [])
  | length, x :: it =>
    if length.toNat < limit.toNat ∧ x = c then skipLength c limit length.next it
    else (length, x :: it)

def specType : Char → SpecType
  | '%' => .pct
  | 'c' => .char
  | 'd' => .signed
  | 'u' => .unsigned
  | 'x' => .hex
  | 'o' => .octal
  | 'b' => .binary
  | 's' => .str
  | _ => .inval

/-- `_parse_format_spec`: the specifier, and how many characters it takes. -/
def parseFormatSpec (s : List Char) : FormatSpec × ℕ :=
  if s.headD nul ≠ '%' ∨ s.tail.headD nul = nul then (⟨.normal, .inval⟩, 1)
  else
    let it := s.tail
    let r :=
      if it.headD nul = 'l' then skipLength 'l' .longLong .normal it
      else if it.headD nul = 'h' then skipLength 'h' .shortShort .short it
      else (.normal, it)
    let type := specType (r.2.headD nul)
    if type = .inval then (⟨r.1, .inval⟩, 1) else (⟨r.1, type⟩, s.length - r.2.length + 1)

/-- An argument of 4 bytes, one of 8 bytes, or a pointer to a string. -/
inductive Arg where
  | word (v : UInt32)
  | long (v : UInt64)
  | str (s : List Char)
  deriving DecidableEq, Repr

/-- The digits of the next argument, which has 8 bytes for `l` and `ll` and 4 bytes otherwise. -/
def unsignedChars (length : SpecLength) (radix : ℕ) (args : List Arg) :
    Option (List Char × List Arg) :=
  match length, args with
  | .long, .long v :: args | .longLong, .long v :: args => (utoa v.toNat radix).map (·, args)
  | .normal, .word v :: args | .short, .word v :: args | .shortShort, .word v :: args =>
    (utoa v.toNat radix).map (·, args)
  | _, _ => none

def signedChars (length : SpecLength) (args : List Arg) : Option (List Char × List Arg) :=
  match length, args with
  | .long, .long v :: args | .longLong, .long v :: args =>
    (itoa (Int.bmod v.toNat (2 ^ 64))).map (·, args)
  | .normal, .word v :: args | .short, .word v :: args | .shortShort, .word v :: args =>
    (itoa (Int.bmod v.toNat (2 ^ 32))).map (·, args)
  | _, _ => none

/-- The switch over types: the characters that are written, and the arguments that are left. -/
def FormatSpec.chars (fs : FormatSpec) (args : List Arg) : Option (List Char × List Arg) :=
  match fs.type, args with
  | .pct, args => some (['%'], args)
  | .char, .word v :: args => some ([Char.ofNat (v.toNat % 256)], args)
  | .binary, args => unsignedChars fs.length 2 args
  | .octal, args => unsignedChars fs.length 8 args
  | .unsigned, args => unsignedChars fs.length 10 args
  | .hex, args => unsignedChars fs.length 16 args
  | .signed, args => signedChars fs.length args
  | .str, .str s :: args => some (s.takeWhile (· ≠ nul), args)
  | .inval, args => some ([], args)
  | _, _ => none

section Loop
variable {σ : Type} (write : Char → ℕ → Bool → σ → σ)

def writeAll : List Char → ℕ → σ → σ
  | [], _, st => st
  | c :: cs, j, st => writeAll cs (j + 1) (write c j false st)

theorem parseFormatSpec_pos (s : List Char) : 0 < (parseFormatSpec s).2 := by
  unfold parseFormatSpec
  dsimp only
  split_ifs <;> exact Nat.succ_pos _

theorem drop_lt {fmt : List Char} (h : fmt.headD nul ≠ nul) :
    (fmt.drop (parseFormatSpec fmt).2).length < fmt.length := by
  have hpos := parseFormatSpec_pos fmt
  cases fmt with
  | nil => exact absurd rfl h
  | cons c fmt =>
    rw [List.length_drop, List.length_cons]
    omega

theorem tail_lt {fmt : List Char} (h : fmt.headD nul ≠ nul) : fmt.tail.length < fmt.length := by
  cases fmt with
  | nil => exact absurd rfl h
  | cons c fmt => exact Nat.lt_succ_self _

/-- The loop of `_vsnprintf` from a place in the format on: the arguments that are left, the position and
what the writer has done. -/
def vsnprintfLoop (fmt : List Char) (args : List Arg) (j : ℕ) (st : σ) : Option (List Arg × ℕ × σ) :=
  if fmt.headD nul = nul then some (args, j, st)
  else if fmt.headD nul = '%' then
    ((parseFormatSpec fmt).1.chars args).bind fun out =>
      vsnprintfLoop (fmt.drop (parseFormatSpec fmt).2) out.2 (j + out.1.length)
        (writeAll write out.1 j st)
  else vsnprintfLoop fmt.tail args (j + 1) (write (fmt.headD nul) j false st)
termination_by fmt.length
decreasing_by
  · exact drop_lt ‹_›
  · exact tail_lt ‹_›

/-- `_vsnprintf`: the return value and what the writer has done. -/
def vsnprintfWith (n : ℕ) (fmt : List Char) (args : List Arg) (st : σ) : Option (ℤ × σ) :=
  (vsnprintfLoop write fmt args 0 st).map fun r =>
    (Int.bmod r.2.1 (2 ^ 32), write nul (if r.2.1 < n then r.2.1 else Word.sub 32 n 1) true r.2.2)

end Loop

/-- `_buf_writer`, for a buffer of `n` bytes. -/
def bufWriter (n : ℕ) (c : Char) (i : ℕ) (_ : Bool) (buf : ℕ → Char) : ℕ → Char :=
  if i ≥ n then buf else Function.update buf i c

/-- `_term_writer`; the console shows a list of characters. -/
def termWriter (c : Char) (_ : ℕ) (nullTerm : Bool) (console : List Char) : List Char :=
  if nullTerm then console else console ++ [c]

def vsnprintf (buf : ℕ → Char) (n : ℕ) (fmt : List Char) (args : List Arg) : Option (ℤ × (ℕ → Char)) :=
  vsnprintfWith (bufWriter n) n fmt args buf

def vprintf (fmt : List Char) (args : List Arg) : Option (ℤ × List Char) :=
  vsnprintfWith termWriter (2 ^ 32 - 1) fmt args []

/-- The characters that are written for a format, and the arguments that are left. -/
def emitted (fmt : List Char) (args : List Arg) : Option (List Char × List Arg) :=
  if fmt.headD nul = nul then some ([], args)
  else if fmt.headD nul = '%' then
    ((parseFormatSpec fmt).1.chars args).bind fun out =>
      (emitted (fmt.drop (parseFormatSpec fmt).2) out.2).map fun rest => (out.1 ++ rest.1, rest.2)
  else (emitted fmt.tail args).map fun rest => (fmt.headD nul :: rest.1, rest.2)
termination_by fmt.length
decreasing_by
  · exact drop_lt ‹_›
  · exact tail_lt ‹_›

theorem emitted_nil (args : List Arg) : emitted [] args = some ([], args) := by
  rw [emitted, List.headD_nil, if_pos rfl]

theorem emitted_literal {c : Char} (hpct : c ≠ '%') (hnul : c ≠ nul) (fmt : List Char) (args : List Arg) :
    emitted (c :: fmt) args = (emitted fmt args).map fun rest => (c :: rest.1, rest.2) := by
  rw [emitted, List.headD_cons, if_neg hnul, if_neg hpct, List.tail_cons]

theorem emitted_specifier {spec fmt : List Char} {fs : FormatSpec} (hhead : spec.head? = some '%')
    (hparse : parseFormatSpec (spec ++ fmt) = (fs, spec.length)) (args : List Arg) :
    emitted (spec ++ fmt) args = (fs.chars args).bind fun out =>
      (emitted fmt out.2).map fun rest => (out.1 ++ rest.1, rest.2) := by
  obtain ⟨tail, rfl⟩ : ∃ tail, spec = '%' :: tail := List.head?_eq_some_iff.mp hhead
  rw [emitted, hparse, List.drop_left, List.cons_append, List.headD_cons, if_neg (by decide), if_pos rfl]

section Writer
variable {σ : Type} (write : Char → ℕ → Bool → σ → σ)

theorem writeAll_append (l1 l2 : List Char) (j : ℕ) (st : σ) :
    writeAll write (l1 ++ l2) j st = writeAll write l2 (j + l1.length) (writeAll write l1 j st) := by
  induction l1 generalizing j st with
  | nil => rfl
  | cons c l1 ih =>
    rw [List.cons_append, writeAll, writeAll, ih, List.length_cons, Nat.add_assoc, Nat.add_comm 1]

/-- Every writer gets the same characters, at consecutive positions. -/
theorem vsnprintfLoop_eq (fmt : List Char) (args : List Arg) (j : ℕ) (st : σ) :
    vsnprintfLoop write fmt args j st =
      (emitted fmt args).map fun r => (r.2, j + r.1.length, writeAll write r.1 j st) := by
  induction fmt, args using emitted.induct generalizing j st with
  | case1 fmt args hend =>
    rw [vsnprintfLoop, emitted, if_pos hend, if_pos hend]
    rfl
  | case2 fmt args hne hspec ih =>
    rw [vsnprintfLoop, emitted, if_neg hne, if_neg hne, if_pos hspec, if_pos hspec]
    cases (parseFormatSpec fmt).1.chars args with
    | none => rfl
    | some out =>
      rw [Option.bind_some, Option.bind_some, ih, Option.map_map]
      congr 1
      funext r
      simp only [Function.comp_apply, writeAll_append, List.length_append, Nat.add_assoc]
  | case3 fmt args hne hlit ih =>
    rw [vsnprintfLoop, emitted, if_neg hne, if_neg hne, if_neg hlit, if_neg hlit, ih, Option.map_map]
    congr 1
    funext r
    simp only [Function.comp_apply, writeAll, List.length_cons, Nat.add_assoc, Nat.add_comm 1]

theorem writeAll_termWriter (l : List Char) (j : ℕ) (console : List Char) :
    writeAll termWriter l j console = console ++ l := by
  induction l generalizing j console with
  | nil => simp [writeAll]
  | cons c l ih => simp [writeAll, ih, termWriter]

theorem vprintf_eq (fmt : List Char) (args : List Arg) :
    vprintf fmt args = (emitted fmt args).map fun r => (Int.bmod r.1.length (2 ^ 32), r.1) := by
  rw [vprintf, vsnprintfWith, vsnprintfLoop_eq]
  cases emitted fmt args with
  | none => rfl
  | some r =>
    simp only [Option.map_some, writeAll_termWriter, termWriter, if_true, List.nil_append, Nat.zero_add]

end Writer

section Buffer
variable {n : ℕ}

theorem bufWriter_of_le {i : ℕ} (hi : n ≤ i) (c : Char) (j : ℕ) (nullTerm : Bool) (buf : ℕ → Char) :
    bufWriter n c j nullTerm buf i = buf i := by
  rw [bufWriter]
  split_ifs
  · rfl
  · exact Function.update_of_ne (by omega) _ _

/-- The buffer has the characters whose positions are in it. -/
theorem writeAll_bufWriter (l : List Char) (j : ℕ) (buf : ℕ → Char) (i : ℕ) :
    writeAll (bufWriter n) l j buf i = if j ≤ i ∧ i < n then l.getD (i - j) (buf i) else buf i := by
  induction l generalizing j buf with
  | nil => simp [writeAll]
  | cons c l ih =>
    have hwrite : bufWriter n c j false buf i = if i = j ∧ i < n then c else buf i := by
      rw [bufWriter]
      split_ifs with hj hi hi
      · omega
      · rfl
      · rw [hi.1, Function.update_self]
      · rw [Function.update_of_ne]
        rintro rfl
        exact hi ⟨rfl, by omega⟩
    rw [writeAll, ih, hwrite]
    by_cases hn : i < n
    · rcases Nat.lt_trichotomy i j with hlt | rfl | hgt
      · rw [if_neg (by omega), if_neg (by omega), if_neg (by omega)]
      · rw [if_neg (by omega), if_pos ⟨rfl, hn⟩, if_pos ⟨le_rfl, hn⟩, Nat.sub_self]
        rfl
      · have hsub : i - j = i - (j + 1) + 1 := by omega
        rw [if_pos (by omega), if_neg (by omega), if_pos (by omega), hsub, List.getD_cons_succ]
    · rw [if_neg (by omega), if_neg (by omega), if_neg (by omega)]

/-- `vsnprintf` returns the length of the whole text. It stores what fits with a terminator, and nothing
outside of the buffer. -/
theorem vsnprintf_truncates (hn : n < 2 ^ 32) {fmt : List Char} {args : List Arg} {ret : ℤ}
    {text : List Char} (htext : vprintf fmt args = some (ret, text)) (hlen : text.length < 2 ^ 31)
    (buf : ℕ → Char) :
    ∃ buf', vsnprintf buf n fmt args = some ((text.length : ℤ), buf') ∧ (∀ i, n ≤ i → buf' i = buf i) ∧
      (0 < n → (∀ i < min text.length (n - 1), text[i]? = some (buf' i)) ∧
        buf' (min text.length (n - 1)) = nul) ∧
      (n = 0 → buf' = buf) := by
  rw [vprintf_eq] at htext
  obtain ⟨⟨l, rest⟩, hemitted, hr⟩ := Option.map_eq_some_iff.mp htext
  obtain ⟨-, rfl⟩ := Prod.mk.inj hr
  have hret : Int.bmod (0 + l.length : ℕ) (2 ^ 32) = l.length := by
    rw [Nat.zero_add]
    exact Word.bmod_natCast hlen
  rw [vsnprintf, vsnprintfWith, vsnprintfLoop_eq, hemitted, Option.map_some, Option.map_some]
  dsimp only
  rw [hret, Nat.zero_add]
  refine ⟨_, rfl, ?_, ?_, ?_⟩
  · intro i hi
    rw [bufWriter_of_le hi, writeAll_bufWriter, if_neg (by omega)]
  · intro hpos
    have hsub : Word.sub 32 n 1 = n - 1 := Word.sub_of_le hpos hn
    have hend : (if l.length < n then l.length else Word.sub 32 n 1) = min l.length (n - 1) := by
      split_ifs <;> omega
    rw [hend, bufWriter, if_neg (by omega)]
    constructor
    · intro i hi
      rw [Function.update_of_ne (by omega), writeAll_bufWriter, if_pos (by omega), Nat.sub_zero,
        List.getD_eq_getElem?_getD, List.getElem?_eq_getElem (by omega), Option.getD_some]
    · rw [Function.update_self]
  · rintro rfl
    funext i
    rw [bufWriter, if_pos (Nat.zero_le _), writeAll_bufWriter, if_neg (by omega)]

end Buffer

/-- `"%d!"` with 42, in a buffer of three bytes. -/
theorem vsnprintf_truncates_three : vprintf ['%', 'd', '!'] [.word 42] = some (3, ['4', '2', '!']) ∧
    ∃ buf', vsnprintf (fun _ => 'x') 3 ['%', 'd', '!'] [.word 42] = some (3, buf') ∧
      (∀ i, 3 ≤ i → buf' i = 'x') ∧
      (0 < 3 → (∀ i < min 3 (3 - 1), ['4', '2', '!'][i]? = some (buf' i)) ∧ buf' (min 3 (3 - 1)) = nul) ∧
      (3 = 0 → buf' = fun _ => 'x') := by
  have htext : vprintf ['%', 'd', '!'] [.word 42] = some (3, ['4', '2', '!']) := by
    have hspec := @emitted_specifier ['%', 'd'] ['!'] ⟨.normal, .signed⟩ rfl (by decide) [.word 42]
    have hchars : FormatSpec.chars ⟨.normal, .signed⟩ [.word 42] = some (['4', '2'], []) := by decide
    rw [vprintf_eq]
    rw [hchars, Option.bind_some, emitted_literal (by decide) (by decide), emitted_nil] at hspec
    rw [show ['%', 'd', '!'] = ['%', 'd'] ++ ['!'] from rfl, hspec]
    decide
  exact ⟨htext, vsnprintf_truncates (by decide) htext (by decide) fun _ => 'x'⟩

end HmmOS.Nonstd.Printf
