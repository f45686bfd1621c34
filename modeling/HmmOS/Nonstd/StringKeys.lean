import HmmOS.Nonstd.StringView
import Mathlib.Data.List.TakeWhile

/-! # String views as keys

`operator==` compares views of equal length with `strncmp`, which stops at a zero
byte, while `hash_bytes` reads all bytes.
-/
namespace HmmOS.Nonstd.StringView

def ofBytes (bytes : List UInt8) : List Char := bytes.map fun b => Char.ofNat b.toNat

/-- `operator==` on views of bytes, and on `nonstd::string`s. -/
def eqBytes (lhs rhs : List UInt8) : Bool := eq (ofBytes lhs) (ofBytes rhs)

/-- The loop of `find(string_view)`, with `n` positions to go from `i` on. -/
def findViewFrom (s needle : List UInt8) : ℕ → ℕ → ℕ
  | 0, _ => npos
  | n + 1, i =>
    if eqBytes needle ((s.drop i).take needle.length) then i else findViewFrom s needle n (i + 1)

def findView (s needle : List UInt8) : ℕ :=
  if s.length < needle.length then npos
  else findViewFrom s needle (s.length - needle.length + 1) 0

def hashM : UInt32 := 0x5bd1e995

/-- The loop of `hash_bytes` over groups of four bytes, and the bytes that are left. -/
def mixBytes (hash : UInt32) : List UInt8 → UInt32
  | b0 :: b1 :: b2 :: b3 :: rest =>
    let k := b0.toUInt32 ||| b1.toUInt32 <<< 8 ||| b2.toUInt32 <<< 16 ||| b3.toUInt32 <<< 24
    let k := k * hashM
    let k := k ^^^ (k >>> 24)
    let k := k * hashM
    mixBytes ((hash * hashM) ^^^ k) rest
  | [b0, b1, b2] =>
    (hash ^^^ (b2.toUInt32 <<< 16) ^^^ (b1.toUInt32 <<< 8) ^^^ b0.toUInt32) * hashM
  | [b0, b1] => (hash ^^^ (b1.toUInt32 <<< 8) ^^^ b0.toUInt32) * hashM
  | [b0] => (hash ^^^ b0.toUInt32) * hashM
  | [] => hash

def hashBytes (bytes : List UInt8) (seed : UInt32) : UInt32 :=
  let hash := mixBytes (seed ^^^ UInt32.ofNat bytes.length) bytes
  let hash := hash ^^^ (hash >>> 13)
  let hash := hash * hashM
  hash ^^^ (hash >>> 15)

/-- `hash<string_view>` and `hash<string>`. -/
def hash (key : List UInt8) : UInt32 := hashBytes key 0xc70f6907

theorem toNat_ofNat_toNat (b : UInt8) : (Char.ofNat b.toNat).toNat = b.toNat := by
  have hvalid : b.toNat.isValidChar := .inl (b.toNat_lt.trans (by decide))
  rw [Char.ofNat, dif_pos hvalid]
  rfl

theorem ofNat_toNat_eq {b c : UInt8} : Char.ofNat b.toNat = Char.ofNat c.toNat ↔ b = c := by
  rw [← Char.toNat_inj, toNat_ofNat_toNat, toNat_ofNat_toNat, UInt8.toNat_inj]

theorem strncmp_cons (x y : UInt8) (a b : List UInt8) (n : ℕ) :
    strncmp (ofBytes (x :: a)) (ofBytes (y :: b)) (n + 1) =
      if x ≠ 0 ∧ x = y then strncmp (ofBytes a) (ofBytes b) n else (x.toNat : ℤ) - y.toNat := by
  have hnul : ∀ z : UInt8, Char.ofNat z.toNat = nul ↔ z = 0 := fun z => @ofNat_toNat_eq z 0
  simp only [ofBytes, List.map_cons, strncmp, List.headD_cons, List.tail_cons, ne_eq, hnul,
    ofNat_toNat_eq, toNat_ofNat_toNat]
  congr 1
  apply propext
  constructor
  · rintro ⟨hx, -, hxy⟩
    exact ⟨hx, hxy⟩
  · rintro ⟨hx, rfl⟩
    exact ⟨hx, hx, rfl⟩

/-- The comparison of views of equal length sees them up to the first zero byte. -/
theorem strncmp_ofBytes {a b : List UInt8} (hlen : a.length = b.length) :
    strncmp (ofBytes a) (ofBytes b) a.length = 0 ↔ a.takeWhile (· ≠ 0) = b.takeWhile (· ≠ 0) := by
  induction a generalizing b with
  | nil =>
    rw [List.length_eq_zero_iff.mp hlen.symm]
    simp [strncmp]
  | cons x a ih =>
    cases b with
    | nil => cases hlen
    | cons y b =>
      have hdiff : (x.toNat : ℤ) - y.toNat = 0 ↔ x = y := by
        rw [Int.sub_eq_zero, Int.natCast_inj, UInt8.toNat_inj]
      rw [List.length_cons, strncmp_cons, List.takeWhile_cons, List.takeWhile_cons]
      by_cases hx : x = 0
      · by_cases hy : y = 0
        · simp [hx, hy]
        · rw [if_neg (by simp [hx]), hdiff]
          simp [hx, hy, Ne.symm hy]
      · by_cases hxy : x = y
        · rw [if_pos ⟨hx, hxy⟩, ih (Nat.succ.inj hlen), ← hxy]
          simp [hx]
        · rw [if_neg (by simp [hxy]), hdiff]
          by_cases hy : y = 0 <;> simp [hxy, hx, hy]

theorem eqBytes_iff {a b : List UInt8} :
    eqBytes a b = true ↔ a.length = b.length ∧ a.takeWhile (· ≠ 0) = b.takeWhile (· ≠ 0) := by
  have hmap : ∀ l, (ofBytes l).length = l.length := fun l => List.length_map _
  rw [eqBytes, eq, Bool.and_eq_true, beq_iff_eq, beq_iff_eq, hmap, hmap]
  exact and_congr_right strncmp_ofBytes

theorem eqBytes_refl (a : List UInt8) : eqBytes a a = true := eqBytes_iff.mpr ⟨rfl, rfl⟩

/-- A zero byte at the end is seen, and the length says that there is nothing after it. -/
theorem eq_of_eqBytes {a b : List UInt8} (ha : 0 ∉ a.dropLast) (h : eqBytes a b = true) : a = b := by
  induction a generalizing b with
  | nil => exact (List.length_eq_zero_iff.mp (eqBytes_iff.mp h).1.symm).symm
  | cons x a ih =>
    obtain ⟨hlen, htake⟩ := eqBytes_iff.mp h
    cases b with
    | nil => cases hlen
    | cons y b =>
      have hlen' : a.length = b.length := Nat.succ.inj hlen
      cases a with
      | nil =>
        obtain rfl : b = [] := List.length_eq_zero_iff.mp hlen'.symm
        by_cases hx : x = 0 <;> by_cases hy : y = 0 <;> simp_all
      | cons x' a =>
        have hx : x ≠ 0 := by
          rintro rfl
          exact ha (by simp)
        have hrest : 0 ∉ (x' :: a).dropLast := by
          intro hmem
          exact ha (by simp [hmem])
        rw [@List.takeWhile_cons_of_pos _ _ x _ (by simp [hx])] at htake
        by_cases hy : y = 0
        · simp [hy] at htake
        · rw [@List.takeWhile_cons_of_pos _ _ y _ (by simp [hy]), List.cons.injEq] at htake
          rw [htake.1, ih hrest (eqBytes_iff.mpr ⟨hlen', htake.2⟩)]

theorem eqBytes_concat {init : List UInt8} (h : 0 ∈ init) (x y : UInt8) :
    eqBytes (init ++ [x]) (init ++ [y]) = true := by
  have htake : ∀ z : UInt8, (init ++ [z]).takeWhile (· ≠ 0) = init.takeWhile (· ≠ 0) := by
    intro z
    induction init with
    | nil => cases h
    | cons c init ih =>
      rw [List.cons_append, List.takeWhile_cons, List.takeWhile_cons]
      by_cases hc : c = 0
      · simp [hc]
      · have hmem : 0 ∈ init := (List.mem_cons.mp h).resolve_left (Ne.symm hc)
        rw [if_pos (by simp [hc]), if_pos (by simp [hc]), ih hmem]
  rw [eqBytes_iff, htake, htake]
  simp

/-- A position is the first one at which a view occurs, or there is none. -/
def FirstOccurrence (s needle : List UInt8) (i : ℕ) : Prop :=
  (needle <+: s.drop i ∧ ∀ j < i, ¬ needle <+: s.drop j) ∨ (i = npos ∧ ∀ j, ¬ needle <+: s.drop j)

theorem findViewFrom_spec {s needle : List UInt8} (h : ∀ b, eqBytes needle b = true ↔ needle = b) (n i : ℕ) :
    (needle <+: s.drop (findViewFrom s needle n i) ∧
        ∀ j, i ≤ j → j < findViewFrom s needle n i → ¬ needle <+: s.drop j) ∨
      (findViewFrom s needle n i = npos ∧ ∀ j, i ≤ j → j < i + n → ¬ needle <+: s.drop j) := by
  have hat : ∀ j, eqBytes needle ((s.drop j).take needle.length) = true ↔ needle <+: s.drop j := by
    intro j
    rw [h, List.prefix_iff_eq_take]
  induction n generalizing i with
  | zero =>
    right
    refine ⟨rfl, ?_⟩
    intro j hle hlt
    omega
  | succ n ih =>
    rw [findViewFrom]
    split_ifs with hi
    · left
      refine ⟨(hat i).mp hi, ?_⟩
      intro j hle hlt
      omega
    · have hnot : ∀ j, i ≤ j → j < i + 1 → ¬ needle <+: s.drop j := by
        intro j hle hlt
        obtain rfl : j = i := by omega
        exact fun hp => hi ((hat j).mpr hp)
      rcases ih (i + 1) with ⟨hfound, hbefore⟩ | ⟨hnone, hall⟩
      · left
        refine ⟨hfound, ?_⟩
        intro j hle hlt
        by_cases hj : j < i + 1
        · exact hnot j hle hj
        · exact hbefore j (by omega) hlt
      · right
        refine ⟨hnone, ?_⟩
        intro j hle hlt
        by_cases hj : j < i + 1
        · exact hnot j hle hj
        · exact hall j (by omega) (by omega)

theorem findView_spec {s needle : List UInt8} (h : ∀ b, eqBytes needle b = true ↔ needle = b) :
    FirstOccurrence s needle (findView s needle) := by
  have hfar : ∀ j, s.length - needle.length < j → 0 < needle.length → ¬ needle <+: s.drop j := by
    intro j hj hpos hp
    have hle := hp.length_le
    rw [List.length_drop] at hle
    omega
  rw [findView]
  split_ifs with hlen
  · right
    refine ⟨rfl, ?_⟩
    intro j hp
    have hle := hp.length_le
    rw [List.length_drop] at hle
    omega
  · rcases findViewFrom_spec h (s.length - needle.length + 1) 0 with ⟨hfound, hbefore⟩ | ⟨hnone, hall⟩
    · left
      exact ⟨hfound, fun j hj => hbefore j (Nat.zero_le j) hj⟩
    · right
      refine ⟨hnone, ?_⟩
      intro j hp
      -- the empty view occurs at the start, so there is a byte to look for
      have hpos : 0 < needle.length := by
        rw [List.length_pos_iff]
        rintro rfl
        exact hall 0 le_rfl (by omega) (List.nil_prefix)
      by_cases hj : j < s.length - needle.length + 1
      · exact hall j (Nat.zero_le j) (by omega) hp
      · exact hfar j (by omega) hpos hp

/-- A view is compared, hashed and looked for by its bytes just if no byte before its last one is zero. -/
theorem eqBytes_exact_iff (a : List UInt8) :
    ((∀ b, eqBytes a b = true ↔ a = b) ∧ (∀ b, eqBytes a b = true → hash a = hash b) ∧
        ∀ s, FirstOccurrence s a (findView s a)) ↔ 0 ∉ a.dropLast := by
  constructor
  · rintro ⟨hexact, -, -⟩ hmem
    obtain ⟨init, x, rfl⟩ : ∃ init x, a = init ++ [x] := by
      rcases List.eq_nil_or_concat a with rfl | ⟨init, x, hconcat⟩
      · cases hmem
      · exact ⟨init, x, hconcat.trans (List.concat_eq_append ..)⟩
    rw [List.dropLast_concat] at hmem
    have heq := (hexact (init ++ [x + 1])).mp (eqBytes_concat hmem x (x + 1))
    simp at heq
  · intro hzero
    have hexact : ∀ b, eqBytes a b = true ↔ a = b := by
      intro b
      constructor
      · exact eq_of_eqBytes hzero
      · rintro rfl
        exact eqBytes_refl a
    refine ⟨hexact, ?_, fun s => findView_spec hexact⟩
    intro b hb
    rw [(hexact b).mp hb]

/-- Two keys that are equal, have different hashes and are found in each other's place. -/
theorem eqBytes_afterNul : eqBytes [97, 0, 98] [97, 0, 99] = true ∧ hash [97, 0, 98] ≠ hash [97, 0, 99] ∧
    findView [97, 0, 99, 97, 0, 98] [97, 0, 98] = 0 ∧
    ¬ FirstOccurrence [97, 0, 99, 97, 0, 98] [97, 0, 98] 0 := by
  refine ⟨by decide, by decide, by decide, ?_⟩
  rintro (⟨hp, -⟩ | ⟨hnpos, -⟩)
  · revert hp
    decide
  · cases hnpos

end HmmOS.Nonstd.StringView
