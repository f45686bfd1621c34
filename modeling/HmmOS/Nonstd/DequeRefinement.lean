import HmmOS.Lib.Slots
import HmmOS.Nonstd.DequeSteps

/-! # `nonstd::deque` refines sequences

Each operation on a collection of deques does what it does to the sequences they
hold, and no assertion fires, as long as the indices stay below `2 ^ 31`.
-/
namespace HmmOS.Nonstd
open Lib Function Deque

variable {α : Type*}

/-- A function returns a deque that holds `s`, and the block pointers stay in balance. -/
def Deque.Gives (E : ℕ) (d : Deque α) (x : Option (Deque α)) (s : List α) : Prop :=
  ∃ d', x = some d' ∧ IsDeque E d' s ∧ d.Keeps d'

namespace IsDeque
open Deque
variable {E fuel : ℕ} {d : Deque α} {s t vs : List α} {v : α}

section
variable (hd : IsDeque E d s) (hE : 1 < E)
include hd hE

theorem pushBack (hroom : d.startIdx + d.size + 1 < 2 ^ 31) :
    ∃ d', d.pushBack E v = some d' ∧ IsDeque E d' (s ++ [v]) ∧ d.Keeps d' ∧ d'.startIdx = d.startIdx := by
  rcases hd.emplace_end (v := v) hE hroom with ⟨r, hr, hd', hkeep, hi', -⟩
  exact ⟨r.1, by rw [Deque.pushBack, hr]; rfl, hd', hkeep, hi'⟩

theorem popFront (hs : s ≠ []) : d.Gives E (d.popFront E) s.tail := by
  rcases List.exists_cons_of_ne_nil hs with ⟨v, s', rfl⟩
  rcases hd.erase_begin hE with ⟨r, hr, hd', hkeep, -⟩
  exact ⟨r.1, by rw [popFront, hr]; rfl, hd', hkeep⟩

theorem popBack (hs : s ≠ []) : d.Gives E (d.popBack E) s.dropLast := by
  rw [← List.dropLast_append_getLast hs] at hd
  rcases hd.erase_last hE with ⟨r, hr, hd', hkeep, -⟩
  exact ⟨r.1, by rw [Deque.popBack, hr]; rfl, hd', hkeep⟩

theorem insertLoop (hroom : d.startIdx + d.size + vs.length < 2 ^ 31) :
    d.Gives E (insertLoop E vs d d.end_ d.size) (s ++ vs) := by
  induction vs generalizing d s with
  | nil => exact ⟨d, rfl, by rwa [List.append_nil], .refl d⟩
  | cons v vs ih =>
    rw [List.length_cons] at hroom
    rcases hd.emplace_end (v := v) hE (by omega) with ⟨r, hr, hd', hkeep, hi', -⟩
    have hsize : r.1.size = d.size + 1 := by
      rw [hd'.size, hd.size, List.length_append, List.length_singleton]
    rcases ih hd' (by omega) with ⟨d', hloop, hd'', hkeeps⟩
    refine ⟨d', ?_, by rwa [List.append_assoc] at hd'', hkeep.trans hkeeps⟩
    rw [insertLoop, hr, Option.bind_some, Word.add_of_lt (by omega), ← hsize]
    exact hloop

end

theorem eraseLoop (hd : IsDeque E d (t ++ s)) (hE : 1 < E) (ht : t ≠ []) (hfuel : t.length < fuel) :
    d.Gives E (eraseLoop E (d.startIdx + t.length) fuel d d.begin) s := by
  induction t generalizing d fuel with
  | nil => exact absurd rfl ht
  | cons v t ih =>
    cases fuel with
    | zero => exact absurd hfuel (Nat.not_lt_zero _)
    | succ fuel =>
      rcases hd.erase_begin hE with ⟨r, hr, hd', hkeep, hit, hi'⟩
      rw [eraseLoop, hr, Option.bind_some]
      have hlast : d.startIdx + (v :: t).length = r.1.startIdx + t.length := by
        rw [hi', List.length_cons]
        omega
      cases t with
      | nil => exact ⟨r.1, if_pos (by rw [hit, hd'.begin_eq, hlast]; rfl), hd', hkeep⟩
      | cons w t =>
        have hne : r.2 ≠ r.1.startIdx + (w :: t).length := by
          rw [hit, hd'.begin_eq, List.length_cons]
          omega
        rw [hlast, if_neg hne, hit]
        rcases ih hd' (by simp) (by simpa using hfuel) with ⟨d', hloop, hd'', hkeeps⟩
        exact ⟨d', hloop, hd'', hkeep.trans hkeeps⟩

theorem insertRange (hd : IsDeque E d s) (hE : 1 < E) (hroom : d.startIdx + d.size + vs.length < 2 ^ 31) :
    d.Gives E (d.insertRange E d.end_ vs) (s ++ vs) := by
  have hidx : Word.sub 32 d.end_ d.startIdx = d.size := by
    rw [hd.end_eq, Word.sub_of_le (by omega) (by omega), Nat.add_sub_cancel_left]
  rw [Deque.insertRange, hidx]
  exact hd.insertLoop hE hroom

theorem eraseRange (hd : IsDeque E d (t ++ s)) (hE : 1 < E) :
    d.Gives E (d.eraseRange E d.begin (d.startIdx + t.length)) s := by
  have hsmall := hd.small
  have hsize := hd.size
  rw [List.length_append] at hsize
  have hit : d.makeIterator (Word.sub 32 d.begin d.startIdx) = d.begin := by
    rw [hd.begin_eq, Word.sub_of_le le_rfl (by omega), Nat.sub_self]
    exact Word.add_of_lt (by omega)
  rw [Deque.eraseRange, hit]
  cases t with
  | nil => exact ⟨d, if_pos hd.begin_eq, hd, .refl d⟩
  | cons v t =>
    have hne : d.begin ≠ d.startIdx + (v :: t).length := by
      rw [hd.begin_eq, List.length_cons]
      omega
    rw [if_neg hne]
    exact hd.eraseLoop hE (by simp) (by omega)

theorem clear (hd : IsDeque E d s) (hE : 1 < E) : d.Gives E (d.clear E) [] := by
  have hd' : IsDeque E d (s ++ []) := by rwa [List.append_nil]
  rw [Deque.clear, hd.end_eq, hd.size]
  exact hd'.eraseRange hE

/-- The destructor gives back what the pointers hold. -/
theorem destroy (hd : IsDeque E d s) (hE : 1 < E) :
    ∃ l, d.destroy E = some l ∧ Ledger.Keeps d.ledger d.addrs l fun _ => none := by
  rcases hd.clear hE with ⟨d1, hclear, hd1, hkeep1⟩
  rcases hd1.shrinkToFit hE with ⟨d2, hshrink, -, hkeep2, hnone⟩
  have hkeep := hkeep1.trans hkeep2
  rw [Keeps, addrs_of_no_blocks (hnone rfl)] at hkeep
  refine ⟨d2.ledger, ?_, hkeep⟩
  rw [Deque.destroy, hclear, Option.bind_some, hshrink, Option.bind_some, if_pos]
  intro i hi
  rw [hnone rfl i hi]
  rfl

theorem resizeDown (hd : IsDeque E d (s ++ t)) (hE : 1 < E) :
    d.Gives E (resizeDown E t.length d d.end_) s := by
  induction t using List.reverseRecOn generalizing d with
  | nil => exact ⟨d, rfl, by rwa [List.append_nil] at hd, .refl d⟩
  | append_singleton t v ih =>
    rw [← List.append_assoc] at hd
    rcases hd.erase_last hE with ⟨r, hr, hd', hkeep, hi'⟩
    rcases ih hd' with ⟨d', hloop, hd'', hkeeps⟩
    refine ⟨d', ?_, hd'', hkeep.trans hkeeps⟩
    rw [List.length_append, List.length_singleton, resizeDown, hr, Option.bind_some]
    have hsmall := hd.small
    have hsize := hd.size
    have hsize' := hd'.size
    rw [List.length_append, List.length_singleton] at hsize
    cases t with
    | nil => simpa [resizeDown] using hloop
    | cons w t =>
      have hend : Word.sub 32 d.end_ 1 = r.1.end_ := by
        rw [hd'.end_eq, hd.end_eq, Word.sub_of_le (by omega) (by omega), hi' (by simp)]
        omega
      rw [hend]
      exact hloop

theorem resizeUp (hd : IsDeque E d s) (hE : 1 < E) {n : ℕ} (hroom : d.startIdx + d.size + n < 2 ^ 31) :
    d.Gives E (resizeUp E v n d) (s ++ List.replicate n v) := by
  induction n generalizing d s with
  | zero => exact ⟨d, rfl, by rwa [List.replicate_zero, List.append_nil], .refl d⟩
  | succ n ih =>
    rcases hd.pushBack (v := v) hE (by omega) with ⟨d1, hpush, hd1, hkeep, hi1⟩
    have hsize : d1.size = d.size + 1 := by
      rw [hd1.size, hd.size, List.length_append, List.length_singleton]
    rcases ih hd1 (by omega) with ⟨d', hloop, hd', hkeeps⟩
    refine ⟨d', by rw [resizeUp, hpush, Option.bind_some, hloop], ?_, hkeep.trans hkeeps⟩
    rw [List.append_assoc, List.singleton_append] at hd'
    rwa [List.replicate_succ]

theorem resize (hd : IsDeque E d s) (hE : 1 < E) {count : ℕ} (hroom : d.startIdx + count < 2 ^ 31) :
    d.Gives E (d.resize E count v) (s.take count ++ List.replicate (count - s.length) v) := by
  have hsmall := hd.small
  have hsize := hd.size
  have hdiff : Int.bmod ((count : ℤ) - d.size) (2 ^ 32) = count - d.size :=
    Int.bmod_eq_of_le (by omega) (by omega)
  rw [Deque.resize, hdiff]
  split_ifs with hneg
  · have hd' : IsDeque E d (s.take count ++ s.drop count) := by rwa [List.take_append_drop]
    have hlen : (-((count : ℤ) - d.size)).toNat = (s.drop count).length := by
      rw [List.length_drop]
      omega
    rw [hlen, show count - s.length = 0 by omega, List.replicate_zero, List.append_nil]
    exact hd'.resizeDown hE
  · have hn : ((count : ℤ) - d.size).toNat = count - s.length := by omega
    rw [hn, List.take_of_length_le (by omega)]
    exact hd.resizeUp hE (by omega)

theorem forward (hd : IsDeque E d (t ++ s)) (hE : 1 < E) :
    d.forward E d.end_ (s.length + 1) (d.startIdx + t.length) = some s := by
  have hsmall := hd.small
  have hsize := hd.size
  rw [List.length_append] at hsize
  rw [hd.end_eq]
  induction s generalizing t with
  | nil =>
    rw [List.length_nil, Nat.add_zero] at hsize
    rw [forward, if_neg (by omega)]
  | cons v s ih =>
    rw [List.length_cons] at hsize
    have hderef : d.deref E (d.startIdx + t.length) = some v := by
      rw [hd.deref_eq hE (by simp)]
      simp
    have hrest := @ih (t ++ [v]) (by simpa using hd) (by simp; omega)
    rw [List.length_append, List.length_singleton, ← Nat.add_assoc] at hrest
    rw [forward, if_pos (by omega), hderef, Option.bind_some, Word.add_of_lt (by omega), List.length_cons, hrest]
    rfl

theorem backward (hd : IsDeque E d (s ++ t)) (hE : 1 < E) :
    d.backward E d.begin (s.length + 1) (d.startIdx + s.length) = some s.reverse := by
  have hsmall := hd.small
  have hsize := hd.size
  rw [List.length_append] at hsize
  rw [hd.begin_eq]
  induction s using List.reverseRecOn generalizing t with
  | nil =>
    rw [backward, if_neg (by simp)]
    rfl
  | append_singleton s v ih =>
    rw [List.length_append, List.length_singleton] at hsize ⊢
    have hderef : d.deref E (d.startIdx + s.length) = some v := by
      rw [hd.deref_eq hE (by simp)]
      simp
    have hprev : Word.sub 32 (d.startIdx + (s.length + 1)) 1 = d.startIdx + s.length := by
      rw [Word.sub_of_le (by omega) (by omega)]
      omega
    have hrest := @ih (v :: t) (by simpa using hd) (by simp; omega)
    rw [backward, if_pos (by omega)]
    dsimp only
    rw [hprev, hderef, Option.bind_some, hrest, List.reverse_append]
    rfl

theorem copyLoop {o : Deque α} (ho : IsDeque E o (t ++ s)) (hd : IsDeque E d t) (hE : 1 < E)
    (hstart : d.startIdx = 0) :
    d.Gives E (copyLoop E o o.end_ (s.length + 1) d d.end_ d.size (o.startIdx + t.length)) (t ++ s) := by
  have hsmall := ho.small
  have hsize := ho.size
  rw [List.length_append] at hsize
  rw [ho.end_eq]
  induction s generalizing t d with
  | nil =>
    rw [List.length_nil, Nat.add_zero] at hsize
    exact ⟨d, by rw [copyLoop, if_neg (by omega)], by rwa [List.append_nil], .refl d⟩
  | cons v s ih =>
    rw [List.length_cons] at hsize
    have hderef : o.deref E (o.startIdx + t.length) = some v := by
      rw [ho.deref_eq hE (by simp)]
      simp
    have hdsize := hd.size
    rcases hd.emplace_end (v := v) hE (by omega) with ⟨r, hr, hd', hkeep, hi', -⟩
    have hrsize : r.1.size = d.size + 1 := by
      rw [hd'.size, hd.size, List.length_append, List.length_singleton]
    rcases @ih r.1 (t ++ [v]) (by simpa using ho) hd' (hi'.trans hstart) (by simp; omega) with ⟨d', hloop, hd'', hkeeps⟩
    refine ⟨d', ?_, by simpa using hd'', hkeep.trans hkeeps⟩
    rw [List.length_append, List.length_singleton, ← Nat.add_assoc] at hloop
    rw [copyLoop, if_pos (by omega), hderef, Option.bind_some, hr, Option.bind_some,
      Word.add_of_lt (by omega : d.size + 1 < 2 ^ 32), Word.add_of_lt (by omega), ← hrsize]
    exact hloop

theorem copyConstruct (hd : IsDeque E d s) (hE : 1 < E) (hE' : E ≤ 512) (l : Ledger) :
    ∃ d', Deque.copyConstruct E l d = some d' ∧ IsDeque E d' s ∧
      Ledger.Keeps l (fun _ => none) d'.ledger d'.addrs := by
  have ho : IsDeque E d ([] ++ s) := hd
  have hidx : Word.sub 32 (Deque.construct l : Deque α).end_ (Deque.construct l : Deque α).startIdx =
      (Deque.construct l : Deque α).size := by
    simp [Deque.construct, Deque.end_, makeIterator, Word.add, Word.sub]
  have haddrs : (Deque.construct l : Deque α).addrs = fun _ => none := addrs_of_no_blocks fun _ _ => rfl
  rcases copyLoop ho (IsDeque.construct hE' l) hE rfl with ⟨d', hloop, hd', hkeep⟩
  rw [Keeps, haddrs] at hkeep
  refine ⟨d', ?_, hd', hkeep⟩
  rw [Deque.copyConstruct, hd.begin_eq, hidx, hd.size]
  exact hloop

end IsDeque

inductive DequeEnd
  | front
  | back

inductive DequeOp (α : Type*)
  | construct (i : ℕ)
  | pushBack (i : ℕ) (v : α)
  | pushFront (i : ℕ) (v : α)
  | popBack (i : ℕ)
  | popFront (i : ℕ)
  | emplace (i : ℕ) (pos : DequeEnd) (v : α)
  | erase (i : ℕ) (pos : DequeEnd)
  | insertCount (i count : ℕ) (v : α)
  | insertRange (i : ℕ) (vs : List α)
  | erasePrefix (i n : ℕ)
  | clear (i : ℕ)
  | resize (i count : ℕ) (v : α)
  | shrinkToFit (i : ℕ)
  | copyConstruct (i j : ℕ)
  | copyAssign (i j : ℕ)
  | moveConstruct (i j : ℕ)
  | moveAssign (i j : ℕ)
  | swap (i j : ℕ)
  | destroy (i : ℕ)

/-- Deques have numbers as names, and share `BlockAllocator`. -/
structure Deques (α : Type*) where
  ledger : Ledger
  deques : ℕ → Option (Deque α)

namespace Deques
variable (st : Deques α)

def empty : Deques α := ⟨.empty, fun _ => none⟩

def store (i : ℕ) (d : Deque α) : Deques α := ⟨d.ledger, Function.update st.deques i (some d)⟩

def modify (i : ℕ) (f : Deque α → Option (Deque α)) : Option (Deques α) :=
  (st.deques i).bind fun d => (f { d with ledger := st.ledger }).map (st.store i)

/-- `swap`, which exchanges every field. -/
def swap (i j : ℕ) : Deques α :=
  { st with deques := Function.update (Function.update st.deques i (st.deques j)) j (st.deques i) }

end Deques

/-- The deques after an operation; inserts are at the end, range erasure is from the beginning. -/
def DequeOp.run (E : ℕ) (st : Deques α) : DequeOp α → Option (Deques α)
  | .construct i => some (st.store i (.construct st.ledger))
  | .pushBack i v => st.modify i (·.pushBack E v)
  | .pushFront i v => st.modify i (·.pushFront E v)
  | .popBack i => st.modify i (·.popBack E)
  | .popFront i => st.modify i (·.popFront E)
  | .emplace i .front v => st.modify i fun d => (d.emplace E d.begin v).map Prod.fst
  | .emplace i .back v => st.modify i fun d => (d.emplace E d.end_ v).map Prod.fst
  | .erase i .front => st.modify i fun d => (d.erase E d.begin).map Prod.fst
  | .erase i .back => st.modify i fun d => (d.erase E (Word.sub 32 d.end_ 1)).map Prod.fst
  | .insertCount i count v => st.modify i fun d => d.insertCount E d.end_ count v
  | .insertRange i vs => st.modify i fun d => d.insertRange E d.end_ vs
  | .erasePrefix i n => st.modify i fun d => d.eraseRange E d.begin (Word.add 32 d.begin n)
  | .clear i => st.modify i (·.clear E)
  | .resize i count v => st.modify i fun d => d.resize E count v
  | .shrinkToFit i => st.modify i (·.shrinkToFit E)
  | .copyConstruct i j => (st.deques j).bind fun d =>
      (Deque.copyConstruct E st.ledger d).map (st.store i)
  | .copyAssign i j => (st.deques j).bind fun d =>
      (Deque.copyConstruct E st.ledger d).bind fun tmp => (st.deques i).bind fun old =>
        -- the temporary takes the old elements along
        (Deque.destroy E { old with ledger := tmp.ledger }).map fun l => st.store i { tmp with ledger := l }
  | .moveConstruct i j => some ((st.store i (.construct st.ledger)).swap i j)
  | .moveAssign i j => some (st.swap i j)
  | .swap i j => some (st.swap i j)
  | .destroy i => (st.deques i).bind fun d => (Deque.destroy E { d with ledger := st.ledger }).map fun l =>
      ⟨l, Function.update st.deques i none⟩

abbrev Sequences (α : Type*) := ℕ → Option (List α)

def Sequences.modify (S : Sequences α) (i : ℕ) (f : List α → List α) : Sequences α :=
  Function.update S i ((S i).map f)

def DequeOp.apply (S : Sequences α) : DequeOp α → Sequences α
  | .construct i => Function.update S i (some [])
  | .pushBack i v | .emplace i .back v => S.modify i (· ++ [v])
  | .pushFront i v | .emplace i .front v => S.modify i (v :: ·)
  | .popBack i | .erase i .back => S.modify i List.dropLast
  | .popFront i | .erase i .front => S.modify i List.tail
  | .insertCount i count v => S.modify i (· ++ List.replicate count v)
  | .insertRange i vs => S.modify i (· ++ vs)
  | .erasePrefix i n => S.modify i (List.drop n)
  | .clear i => S.modify i fun _ => []
  | .resize i count v => S.modify i fun s => s.take count ++ List.replicate (count - s.length) v
  | .shrinkToFit _ => S
  | .copyConstruct i j | .copyAssign i j => Function.update S i (S j)
  | .moveConstruct i j => Function.update (Function.update S i (S j)) j (some [])
  | .moveAssign i j | .swap i j => Function.update (Function.update S i (S j)) j (S i)
  | .destroy i => Function.update S i none

/-- What the caller promises: the deques exist or are new, and there is something to take away. -/
def DequeOp.Valid (S : Sequences α) : DequeOp α → Prop
  | .construct i => S i = none
  | .pushBack i _ | .pushFront i _ | .emplace i _ _ | .insertCount i _ _ | .insertRange i _
  | .clear i | .resize i _ _ | .shrinkToFit i | .destroy i => S i ≠ none
  | .popBack i | .popFront i | .erase i _ => ∃ v s, S i = some (v :: s)
  | .erasePrefix i n => ∃ s, S i = some s ∧ n ≤ s.length
  | .copyConstruct i j | .moveConstruct i j => S i = none ∧ S j ≠ none
  | .copyAssign i j | .moveAssign i j | .swap i j => S i ≠ none ∧ S j ≠ none

/-- The indices of the deque stay below `2 ^ 31`. -/
def DequeOp.Fits (E : ℕ) (st : Deques α) : DequeOp α → Prop
  | .pushBack i _ | .emplace i .back _ => ∀ d, st.deques i = some d → d.startIdx + d.size + 1 < 2 ^ 31
  | .pushFront i _ | .emplace i .front _ => ∀ d, st.deques i = some d → d.frontEnd E < 2 ^ 31
  | .insertCount i count _ => ∀ d, st.deques i = some d → d.startIdx + d.size + count < 2 ^ 31
  | .insertRange i vs => ∀ d, st.deques i = some d → d.startIdx + d.size + vs.length < 2 ^ 31
  | .resize i count _ => ∀ d, st.deques i = some d → d.startIdx + count < 2 ^ 31
  | _ => True

/-- A block pointer is overwritten. -/
def DequeOp.Overwrites (E : ℕ) (st : Deques α) : DequeOp α → Prop
  | .pushFront i _ | .emplace i .front _ => ∃ d, st.deques i = some d ∧ d.FrontTaken E
  | _ => False

/-- Every deque that exists holds its sequence. -/
def Holds (E : ℕ) (st : Deques α) (S : Sequences α) : Prop :=
  ∀ i, Option.Rel (IsDeque E) (st.deques i) (S i)

namespace Deques
variable {E i : ℕ} {st st' : Deques α} {S' : Sequences α} {x : Option (Deques α)}

/-- The entries of block arrays that are not null. -/
def slots (st : Deques α) : Set (ℕ × ℕ) :=
  {q | ∃ d, st.deques q.1 = some d ∧ q.2 < d.blockCount ∧ d.blocks q.2 ≠ none}

def Balanced (st : Deques α) : Prop :=
  st.ledger.Balanced (Function.uncurry (Ledger.held Deque.addrs st.deques))

/-- An operation returns deques that hold `S'`. Their blocks stay in balance, or one is lost. -/
def Gives (E : ℕ) (st : Deques α) (x : Option (Deques α)) (S' : Sequences α) (overwrites : Prop) : Prop :=
  ∃ st', x = some st' ∧ Holds E st' S' ∧ (¬ overwrites → st.Balanced → st'.Balanced) ∧
    (overwrites → st.Balanced → ¬ st'.ledger.Accounts st'.slots)

theorem gives_of_balanced (st' : Deques α) (hx : x = some st') (h : Holds E st' S') (hbal : st.Balanced → st'.Balanced) :
    st.Gives E x S' False :=
  ⟨st', hx, h, fun _ => hbal, False.elim⟩

theorem slots_eq (st : Deques α) :
    st.slots = {q | Function.uncurry (Ledger.held Deque.addrs st.deques) q ≠ none} := by
  ext ⟨i, k⟩
  cases hi : st.deques i with
  | none => simp [slots, Ledger.held, hi]
  | some d => simp [slots, Ledger.held, hi, addrs]

theorem Balanced.accounts (h : st.Balanced) : st.ledger.Accounts st.slots := by
  rw [slots_eq]
  exact Ledger.Balanced.accounts h

theorem Balanced.update {l : Ledger} {x : Option (Deque α)} (h : st.Balanced)
    (hkeep : Ledger.Keeps st.ledger (Ledger.held Deque.addrs st.deques i) l (x.elim (fun _ => none) Deque.addrs)) :
    Balanced ⟨l, Function.update st.deques i x⟩ := by
  rw [Balanced, Ledger.held_update]
  exact hkeep _ _ _ rfl h

theorem Balanced.modify {d d' : Deque α} (h : st.Balanced) (hd : st.deques i = some d)
    (hkeep : Deque.Keeps { d with ledger := st.ledger } d') : (st.store i d').Balanced := by
  apply h.update
  rw [Ledger.held, hd]
  exact hkeep

theorem Balanced.add {l : Ledger} {x : Option (Deque α)} (h : st.Balanced) (hi : st.deques i = none)
    (hkeep : Ledger.Keeps st.ledger (fun _ => none) l (x.elim (fun _ => none) Deque.addrs)) :
    Balanced ⟨l, Function.update st.deques i x⟩ := by
  apply h.update
  rw [Ledger.held, hi]
  exact hkeep

theorem Balanced.construct (h : st.Balanced) (hi : st.deques i = none) :
    (st.store i (.construct st.ledger)).Balanced := by
  have haddrs : (Deque.construct st.ledger : Deque α).addrs = fun _ => none := addrs_of_no_blocks fun _ _ => rfl
  apply h.add hi
  rw [Option.elim_some, haddrs]
  exact .refl

/-- A block that nothing points to any more is not accounted for. -/
theorem Balanced.not_accounts {d d' : Deque α} (h : st.Balanced) (hd : st.deques i = some d)
    (hover : Deque.Overwritten { d with ledger := st.ledger } d') :
    ¬ (st.store i d').ledger.Accounts (st.store i d').slots := by
  have hslots : (st.store i d').slots = st.slots := by
    rw [slots_eq, slots_eq, store, Ledger.held_update]
    ext ⟨k, n⟩
    by_cases hk : k = i
    · rw [hk, Set.mem_ofPred_eq, Set.mem_ofPred_eq, uncurry_apply_pair, uncurry_apply_pair, update_self,
        Ledger.held, hd]
      exact hover.2 n
    · simp [hk]
  have hledger : (st.store i d').ledger = st.ledger.allocate := hover.1
  rw [hslots, hledger]
  exact h.accounts.not_allocate

end Deques

section Run
variable {E : ℕ} {st : Deques α} {S : Sequences α} {i j : ℕ} {v : α}

section
variable (h : Holds E st S)
include h

theorem Holds.some_of_ne (hi : S i ≠ none) :
    ∃ d s, st.deques i = some d ∧ S i = some s ∧ IsDeque E { d with ledger := st.ledger } s := by
  obtain ⟨s, hs⟩ := Option.ne_none_iff_exists'.mp hi
  obtain ⟨d, hd, hds⟩ := Slots.Related.of_right h hs
  exact ⟨d, s, hd, hs, hds.withLedger st.ledger⟩

theorem Holds.eq_none (hi : S i = none) : st.deques i = none := Slots.Related.eq_none h hi

theorem Holds.update {l : Ledger} {x : Option (Deque α)} {y : Option (List α)}
    (hxy : Option.Rel (IsDeque E) x y) : Holds E ⟨l, update st.deques i x⟩ (update S i y) :=
  Slots.Related.update h hxy

theorem Holds.modify {f : Deque α → Option (Deque α)} {g : List α → List α} (hi : S i ≠ none)
    (hf : ∀ d s, st.deques i = some d → S i = some s → IsDeque E { d with ledger := st.ledger } s →
      Deque.Gives E { d with ledger := st.ledger } (f { d with ledger := st.ledger }) (g s)) :
    st.Gives E (st.modify i f) (S.modify i g) False := by
  rcases h.some_of_ne hi with ⟨d, s, hd, hs, hds⟩
  rcases hf d s hd hs hds with ⟨d', hfd, hd', hkeep⟩
  refine Deques.gives_of_balanced (st.store i d') ?_ ?_ fun hbal => hbal.modify hd hkeep
  · rw [Deques.modify, hd, Option.bind_some, hfd]
    rfl
  · rw [Sequences.modify, hs]
    exact h.update (.some hd')

theorem Holds.pushBack (hE : 1 < E) (hi : S i ≠ none)
    (hfits : ∀ d, st.deques i = some d → d.startIdx + d.size + 1 < 2 ^ 31) :
    st.Gives E (st.modify i (·.pushBack E v)) (S.modify i (· ++ [v])) False := by
  refine h.modify hi fun d s hd hs hds => ?_
  rcases hds.pushBack (v := v) hE (hfits d hd) with ⟨d', hpush, hd', hkeep, -⟩
  exact ⟨d', hpush, hd', hkeep⟩

theorem Holds.pushFront (hE : 1 < E) (hi : S i ≠ none)
    (hfits : ∀ d, st.deques i = some d → d.frontEnd E < 2 ^ 31) :
    st.Gives E (st.modify i (·.pushFront E v)) (S.modify i (v :: ·))
      (∃ d, st.deques i = some d ∧ d.FrontTaken E) := by
  rcases h.some_of_ne hi with ⟨d, s, hd, hs, hds⟩
  rcases hds.emplace_begin (v := v) hE (hfits d hd) with ⟨r, hr, hd', -, hkeep, hover⟩
  refine ⟨st.store i r.1, ?_, ?_, fun hfree hbal => ?_, ?_⟩
  · rw [Deques.modify, hd, Option.bind_some, Deque.pushFront, hr]
    rfl
  · rw [Sequences.modify, hs]
    exact h.update (.some hd')
  · exact hbal.modify hd (hkeep fun htaken => hfree ⟨d, hd, htaken⟩)
  · rintro ⟨d', hd1, htaken⟩ hbal
    obtain rfl := Option.some.inj (hd.symm.trans hd1)
    exact hbal.not_accounts hd (hover htaken)

theorem Holds.swap : Holds E (st.swap i j) (Function.update (Function.update S i (S j)) j (S i)) :=
  Slots.Related.swap h i j

theorem Holds.copyConstruct (hE : 1 < E) (hE' : E ≤ 512) (hi : S i = none) (hj : S j ≠ none) :
    st.Gives E ((DequeOp.copyConstruct i j).run E st) (Function.update S i (S j)) False := by
  rcases h.some_of_ne hj with ⟨d, s, hd, hs, hds⟩
  rcases (hds.withLedger d.ledger).copyConstruct hE hE' st.ledger with ⟨d', hcopy, hd', hkeep⟩
  refine Deques.gives_of_balanced (st.store i d') ?_ ?_ fun hbal => hbal.add (h.eq_none hi) hkeep
  · rw [DequeOp.run, hd, Option.bind_some, hcopy]
    rfl
  · rw [hs]
    exact h.update (.some hd')

/-- The copy is complete before the old blocks are given back. -/
theorem Holds.copyAssign (hE : 1 < E) (hE' : E ≤ 512) (hi : S i ≠ none) (hj : S j ≠ none) :
    st.Gives E ((DequeOp.copyAssign i j).run E st) (Function.update S i (S j)) False := by
  rcases h.some_of_ne hi with ⟨old, t, hold, ht, hot⟩
  rcases h.some_of_ne hj with ⟨d, s, hd, hs, hds⟩
  rcases (hds.withLedger d.ledger).copyConstruct hE hE' st.ledger with ⟨d', hcopy, hd', hfill⟩
  rcases (hot.withLedger d'.ledger).destroy hE with ⟨l, hl, hempty⟩
  refine Deques.gives_of_balanced (st.store i { d' with ledger := l }) ?_ ?_ fun hbal => ?_
  · rw [DequeOp.run, hd, Option.bind_some, hcopy, Option.bind_some, hold, Option.bind_some, hl]
    rfl
  · rw [hs]
    exact h.update (.some (hd'.withLedger l))
  · exact hbal.modify hold (hfill.replace hempty)

theorem Holds.destroy (hE : 1 < E) (hi : S i ≠ none) :
    st.Gives E ((DequeOp.destroy i).run E st) (Function.update S i none) False := by
  rcases h.some_of_ne hi with ⟨d, s, hd, hs, hds⟩
  rcases hds.destroy hE with ⟨l, hl, hempty⟩
  refine Deques.gives_of_balanced ⟨l, Function.update st.deques i none⟩ ?_ (h.update .none) fun hbal => ?_
  · rw [DequeOp.run, hd, Option.bind_some, hl]
    rfl
  · apply hbal.update
    rw [Ledger.held, hd]
    exact hempty

/-- Every operation whose caller keeps its promises returns, and does to the deques what it does to the
sequences. -/
theorem Holds.run (hE : 1 < E) (hE' : E ≤ 512) {op : DequeOp α} (hv : op.Valid S)
    (hfits : op.Fits E st) : st.Gives E (op.run E st) (op.apply S) (op.Overwrites E st) := by
  cases op with
  | construct i =>
    exact Deques.gives_of_balanced _ rfl (h.update (.some (.construct hE' st.ledger))) fun hbal =>
      hbal.construct (h.eq_none hv)
  | pushBack i v => exact h.pushBack hE hv hfits
  | pushFront i v => exact h.pushFront hE hv hfits
  | popBack i =>
    rcases hv with ⟨v, s, hi⟩
    refine h.modify (by simp [hi]) fun d s' hd hs hds => hds.popBack hE ?_
    rw [← Option.some.inj (hi.symm.trans hs)]
    exact List.cons_ne_nil v s
  | popFront i =>
    rcases hv with ⟨v, s, hi⟩
    refine h.modify (by simp [hi]) fun d s' hd hs hds => hds.popFront hE ?_
    rw [← Option.some.inj (hi.symm.trans hs)]
    exact List.cons_ne_nil v s
  | emplace i pos v =>
    cases pos with
    | front => exact h.pushFront hE hv hfits
    | back => exact h.pushBack hE hv hfits
  | erase i pos =>
    rcases hv with ⟨v, s, hi⟩
    have hne : ∀ s', S i = some s' → s' ≠ [] := by
      intro s' hs
      rw [← Option.some.inj (hi.symm.trans hs)]
      exact List.cons_ne_nil v s
    cases pos with
    | front => exact h.modify (by simp [hi]) fun d s' hd hs hds => hds.popFront hE (hne s' hs)
    | back => exact h.modify (by simp [hi]) fun d s' hd hs hds => hds.popBack hE (hne s' hs)
  | insertCount i count v =>
    rw [DequeOp.run, DequeOp.apply]
    refine h.modify hv fun d s hd hs hds => hds.insertRange hE ?_
    rw [List.length_replicate]
    exact hfits d hd
  | insertRange i vs =>
    rw [DequeOp.run, DequeOp.apply]
    exact h.modify hv fun d s hd hs hds => hds.insertRange hE (hfits d hd)
  | erasePrefix i n =>
    rcases hv with ⟨s, hi, hn⟩
    rw [DequeOp.run, DequeOp.apply]
    refine h.modify (by simp [hi]) fun d s' hd hs hds => ?_
    obtain rfl : s = s' := Option.some.inj (hi.symm.trans hs)
    have hsmall := hds.small
    have hsize := hds.size
    have hlast : Word.add 32 (Deque.begin { d with ledger := st.ledger }) n =
        d.startIdx + (s.take n).length := by
      rw [hds.begin_eq, Word.add_of_lt (by omega), List.length_take, min_eq_left hn]
    have hsplit : IsDeque E { d with ledger := st.ledger } (s.take n ++ s.drop n) := by
      rwa [List.take_append_drop]
    rw [hlast]
    exact hsplit.eraseRange hE
  | clear i => exact h.modify hv fun d s hd hs hds => hds.clear hE
  | resize i count v =>
    rw [DequeOp.run, DequeOp.apply]
    exact h.modify hv fun d s hd hs hds => hds.resize hE (hfits d hd)
  | shrinkToFit i =>
    have hsame : S.modify i id = S := by
      rw [Sequences.modify, Option.map_id, id_eq, update_eq_self]
    rw [DequeOp.apply, ← hsame]
    refine h.modify hv fun d s hd hs hds => ?_
    rcases hds.shrinkToFit hE with ⟨d', hshrink, hd', hkeep, -⟩
    exact ⟨d', hshrink, hd', hkeep⟩
  | copyConstruct i j => exact h.copyConstruct hE hE' hv.1 hv.2
  | copyAssign i j => exact h.copyAssign hE hE' hv.1 hv.2
  | moveConstruct i j =>
    have hne : j ≠ i := by
      rintro rfl
      exact hv.2 hv.1
    have hnew : Holds E (st.store i (.construct st.ledger)) (Function.update S i (some [])) :=
      h.update (.some (.construct hE' st.ledger))
    have hswap := hnew.swap (i := i) (j := j)
    rw [update_self, update_of_ne hne, update_idem] at hswap
    exact Deques.gives_of_balanced _ rfl hswap fun hbal => (hbal.construct (h.eq_none hv.1)).held_swap i j
  | moveAssign i j => exact Deques.gives_of_balanced _ rfl h.swap fun hbal => hbal.held_swap i j
  | swap i j => exact Deques.gives_of_balanced _ rfl h.swap fun hbal => hbal.held_swap i j
  | destroy i => exact h.destroy hE hv

end

end Run

theorem elemsPerBlock_bounds {sz : ℕ} (hsz : 0 < sz) : 1 < elemsPerBlock sz ∧ elemsPerBlock sz ≤ 512 := by
  unfold elemsPerBlock blockSize
  constructor
  · rw [Nat.lt_div_iff_mul_lt hsz]
    omega
  · rcases le_total 512 (16 * sz) with hle | hle
    · rw [max_eq_right hle, Nat.mul_div_cancel _ hsz]
      omega
    · rw [max_eq_left hle]
      exact Nat.div_le_self _ _

/-- What the accessors and iterators of a deque show. -/
structure Deque.Observes (E : ℕ) (d : Deque α) (s : List α) : Prop where
  size : d.size = s.length
  get : ∀ k < s.length, d.get E k = s[k]?
  front : s ≠ [] → d.front E = s.head?
  back : s ≠ [] → d.back E = s.getLast?
  forward : d.forward E d.end_ (s.length + 1) d.begin = some s
  backward : d.backward E d.begin (s.length + 1) d.end_ = some s.reverse

theorem IsDeque.observes {E : ℕ} {d : Deque α} {s : List α} (hd : IsDeque E d s) (hE : 1 < E) :
    d.Observes E s := by
  have hsize := hd.size
  have hsmall := hd.small
  constructor
  case size => exact hsize
  case get => exact fun k hk => hd.get_eq hE hk
  case front =>
    intro hs
    have hpos := List.length_pos_iff.mpr hs
    rw [front, at_, if_pos (by omega), hd.get_eq hE hpos, List.head?_eq_getElem?]
  case back =>
    intro hs
    have hpos := List.length_pos_iff.mpr hs
    have hlast : Word.sub 32 d.size 1 = s.length - 1 := by
      rw [Word.sub_of_le (by omega) (by omega), hsize]
    rw [back, hlast, at_, if_pos (by omega), hd.get_eq hE (by omega), List.getLast?_eq_getElem?]
  case forward =>
    have hd' : IsDeque E d ([] ++ s) := hd
    rw [hd.begin_eq]
    exact hd'.forward hE
  case backward =>
    have hd' : IsDeque E d (s ++ []) := by rwa [List.append_nil]
    rw [hd.end_eq, hsize]
    exact hd'.backward hE

def DequeReach (E : ℕ) (c c' : Deques α × Sequences α) : Prop :=
  Relation.ReflTransGen (fun c c' => ∃ op : DequeOp α, op.Valid c.2 ∧ op.Fits E c.1 ∧
    op.run E c.1 = some c'.1 ∧ c'.2 = op.apply c.2) c c'

theorem Holds.reach {E : ℕ} {c c' : Deques α × Sequences α} (hE : 1 < E) (hE' : E ≤ 512)
    (h : Holds E c.1 c.2) (hreach : DequeReach E c c') : Holds E c'.1 c'.2 := by
  induction hreach with
  | refl => exact h
  | tail _ hstep ih =>
    rcases hstep with ⟨op, hv, hfits, hrun, happ⟩
    rcases ih.run hE hE' hv hfits with ⟨st', hrun', h', -⟩
    obtain rfl := Option.some.inj (hrun'.symm.trans hrun)
    exact happ ▸ h'

/-- Every deque shows its sequence after any operations whose indices stay below `2 ^ 31`, and no
assertion fires in the next one. -/
theorem dequeReach_refines {sz : ℕ} (hsz : 0 < sz) {st : Deques α} {S : Sequences α}
    (hreach : DequeReach (elemsPerBlock sz) (.empty, fun _ => none) (st, S)) :
    (∀ i s, S i = some s → ∃ d, st.deques i = some d ∧ d.Observes (elemsPerBlock sz) s) ∧
      ∀ op : DequeOp α, op.Valid S → op.Fits (elemsPerBlock sz) st →
        ∃ st', op.run (elemsPerBlock sz) st = some st' := by
  rcases elemsPerBlock_bounds hsz with ⟨hE, hE'⟩
  have hinit : Holds (elemsPerBlock sz) (.empty : Deques α) (fun _ => none) := fun _ => .none
  have h : Holds (elemsPerBlock sz) st S := Holds.reach hE hE' (c := (.empty, fun _ => none)) hinit hreach
  constructor
  · intro i s hs
    rcases h.some_of_ne (i := i) (by simp [hs]) with ⟨d, s', hd, hs', hds⟩
    obtain rfl := Option.some.inj (hs'.symm.trans hs)
    exact ⟨d, hd, (hds.withLedger d.ledger).observes hE⟩
  · intro op hv hfits
    rcases h.run hE hE' hv hfits with ⟨st', hrun, -⟩
    exact ⟨st', hrun⟩

/-- A deque of four-byte elements after a `push_back`, and after a `push_front` that takes a new
first block. -/
def afterBack : Deques ℕ :=
  ((DequeOp.pushBack 0 5).run (elemsPerBlock 4) (Deques.empty.store 0 (.construct .empty))).get (by decide +kernel)

def afterFront : Deques ℕ :=
  ((DequeOp.pushFront 0 7).run (elemsPerBlock 4) afterBack).get (by decide +kernel)

theorem dequeReach_refines_afterFront : ∃ d : Deque ℕ, afterFront.deques 0 = some d ∧ d.startBlock = 15 ∧
    d.Observes (elemsPerBlock 4) [7, 5] := by
  have h0 : DequeReach (elemsPerBlock 4) (.empty, fun _ => none)
      (Deques.empty.store 0 (.construct .empty : Deque ℕ), Function.update (fun _ => none) 0 (some [])) :=
    .single ⟨.construct 0, rfl, trivial, rfl, rfl⟩
  have h1 : DequeReach (elemsPerBlock 4) (.empty, fun _ => none)
      (afterBack, (DequeOp.pushBack 0 5).apply (Function.update (fun _ => none) 0 (some []))) := by
    apply h0.tail
    refine ⟨.pushBack 0 5, show _ ≠ _ by decide, ?_, (Option.some_get (by decide +kernel)).symm, rfl⟩
    intro d hd
    rw [← Option.some.inj hd]
    decide
  have h2 : DequeReach (elemsPerBlock 4) (.empty, fun _ => none)
      (afterFront, (DequeOp.pushFront 0 7).apply
        ((DequeOp.pushBack 0 5).apply (Function.update (fun _ => none) 0 (some [])))) := by
    apply h1.tail
    refine ⟨.pushFront 0 7, show _ ≠ _ by decide, ?_, (Option.some_get (by decide +kernel)).symm, rfl⟩
    intro d hd
    dsimp only at hd
    have hend : (afterBack.deques 0).map (Deque.frontEnd (elemsPerBlock 4)) = some 129 := by decide +kernel
    rw [hd, Option.map_some] at hend
    rw [Option.some.inj hend]
    decide
  rcases (dequeReach_refines (by decide) h2).1 0 [7, 5] (by decide) with ⟨d, hd, hobs⟩
  refine ⟨d, hd, ?_, hobs⟩
  have hstart : (afterFront.deques 0).map Deque.startBlock = some 15 := by decide +kernel
  rw [hd] at hstart
  exact Option.some.inj hstart

end HmmOS.Nonstd
