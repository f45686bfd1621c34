import HmmOS.Lib.Ring

/-! # Intrusive lists

The model keeps the pointers of all nodes as links, and the operations write them in
the order of the source. `none` is a failed assertion or a loop that ran out of turns.
-/
namespace HmmOS.Util
open Lib.Ring Function

namespace IntrusiveListHead
variable {ν : Type} [DecidableEq ν]

def setNext (L : Links ν) (n next : ν) : Links ν := { L with next := Function.update L.next n next }

def setPrev (L : Links ν) (n prev : ν) : Links ν := { L with prev := Function.update L.prev n prev }

def construct (L : Links ν) (n : ν) : Links ν := setPrev (setNext L n n) n n

def empty (L : Links ν) (n : ν) : Option Bool :=
  if decide (L.next n = n) ^^ decide (L.prev n = n) then none else some (decide (L.next n = n))

/-- `erase` also returns the following element. -/
def erase (L : Links ν) (n : ν) : Option (Links ν × ν) := do
  if ← empty L n then return (L, L.next n)
  let L := setPrev L (L.next n) (L.prev n)
  let rval := L.next n
  let L := setNext L (L.prev n) rval
  let L := setNext L n n
  let L := setPrev L n n
  return (L, rval)

def pushFront (L : Links ν) (x p : ν) : Option (Links ν) := do
  let (L, _) ← erase L p
  let L := setPrev L p x
  let L := setNext L p (L.next x)
  let L := setPrev L (L.next x) p
  return setNext L x p

def pushBack (L : Links ν) (x p : ν) : Option (Links ν) := do
  let (L, _) ← erase L p
  let L := setPrev L p (L.prev x)
  let L := setNext L p x
  let L := setNext L (L.prev x) p
  return setPrev L x p

def insertBack (L : Links ν) (x : ν) : List ν → Option (Links ν)
  | [] => some L
  | p :: ps => (pushBack L x p).bind fun L => insertBack L x ps

def clearLoop : ℕ → Links ν → ν → Option (Links ν)
  | 0, _, _ => none
  | fuel + 1, L, it => do
    if ← empty L it then return L
    let (L, it) ← erase L it
    clearLoop fuel L it

def clear (fuel : ℕ) (L : Links ν) (x : ν) : Option (Links ν) := clearLoop fuel L (L.next x)

def sizeLoop (L : Links ν) (start : ν) : ℕ → ν → ℕ → Option ℕ
  | 0, _, _ => none
  | fuel + 1, ptr, rval =>
    if L.next ptr ≠ start then sizeLoop L start fuel (L.next ptr) (rval + 1) else some rval

def size (fuel : ℕ) (L : Links ν) (x : ν) : Option ℕ := sizeLoop L x fuel x 0

variable {L : Links ν} {n x p h : ν} {xs l r : List ν}

theorem empty_eq (hn : L.next n = n ↔ L.prev n = n) : empty L n = some (decide (L.next n = n)) := by
  rw [empty]
  by_cases h : L.next n = n
  · simp [h, hn.mp h]
  · simp [h, mt hn.mpr h]

theorem erase_eq (hn : L.next n = n ↔ L.prev n = n) : erase L n = some (L.split n, L.next n) := by
  rw [erase, empty_eq hn]
  by_cases h : L.next n = n
  · rw [Links.Isolated.split_eq ⟨h, hn.mp h⟩]
    simp [h]
  · have hprev : (setPrev L (L.next n) (L.prev n)).prev n = L.prev n :=
      update_of_ne (Ne.symm h) _ _
    simp only [h, decide_false, Option.bind_eq_bind, Option.bind_some, Bool.false_eq_true, if_false, hprev]
    rfl

theorem pushFront_eq (hL : L.Inverse) (hne : p ≠ x) : pushFront L x p = some ((L.split p).link x p) := by
  rw [pushFront, erase_eq hL.next_eq_self_iff]
  simp only [Option.bind_eq_bind, Option.bind_some, setPrev, setNext, update_of_ne hne.symm]
  apply congrArg some
  apply Links.ext
  · exact update_comm hne _ _ _
  · rfl

theorem pushBack_eq (hL : L.Inverse) (hne : p ≠ x) :
    pushBack L x p = some ((L.split p).link ((L.split p).prev x) p) := by
  have hprev : (L.split p).prev x ≠ p := by
    intro h
    have hx := (hL.split p).next_prev x
    rw [h, (split_isolated L p).1] at hx
    exact hne hx
  rw [pushBack, erase_eq hL.next_eq_self_iff]
  simp only [Option.bind_eq_bind, Option.bind_some, setPrev, setNext, update_of_ne hne.symm]
  apply congrArg some
  apply Links.ext
  · simp only [Links.link, Links.join, (hL.split p).next_prev]
    exact update_comm hprev.symm _ _ _
  · simp only [Links.link, Links.join, (hL.split p).next_prev]

/-- Pushing a node onto itself only takes it out of its ring. -/
theorem pushFront_self (hL : L.Inverse) : pushFront L x x = some (L.split x) := by
  have hx := split_isolated L x
  rw [pushFront, erase_eq hL.next_eq_self_iff]
  simp only [Option.bind_eq_bind, Option.bind_some, setPrev, setNext, hx.1, update_self]
  apply congrArg some
  apply Links.ext
  · simp [hx.1]
  · simp [hx.2]

theorem pushBack_self (hL : L.Inverse) : pushBack L x x = some (L.split x) := by
  have hx := split_isolated L x
  rw [pushBack, erase_eq hL.next_eq_self_iff]
  simp only [Option.bind_eq_bind, Option.bind_some, setPrev, setNext, hx.2, update_self]
  apply congrArg some
  apply Links.ext
  · simp [hx.1]
  · simp [hx.2]

structure SplitOff (L L' : Links ν) (n : ν) : Prop where
  isolated : L'.Isolated n
  order : ∀ h l r, IsRing L h (l ++ n :: r) → IsRing L' h (l ++ r)
  others : ∀ h xs, IsRing L h xs → n ∉ h :: xs → IsRing L' h xs

/-- `p` leaves its ring and becomes the successor of `x`. -/
def PushedFront (x p : ν) (L L' : Links ν) : Prop :=
  ∃ M, SplitOff L M p ∧
    if p = x then L' = M
    else L'.next x = p ∧ (∀ xs, IsRing M x xs → IsRing L' x (p :: xs)) ∧
      ∀ h xs, IsRing M h xs → x ∉ h :: xs → p ∉ h :: xs → IsRing L' h xs

/-- `p` leaves its ring and becomes the predecessor of `x`. -/
def PushedBack (x p : ν) (L L' : Links ν) : Prop :=
  ∃ M, SplitOff L M p ∧
    if p = x then L' = M
    else L'.prev x = p ∧ (∀ xs, IsRing M x xs → IsRing L' x (xs ++ [p])) ∧
      ∀ h xs, IsRing M h xs → x ∉ h :: xs → p ∉ h :: xs → IsRing L' h xs

def InsertedBack (x : ν) : List ν → Links ν → Links ν → Prop
  | [], L, L' => L' = L
  | p :: ps, L, L' => ∃ M, PushedBack x p L M ∧ InsertedBack x ps M L'

structure Cleared (x : ν) (L L' : Links ν) : Prop where
  isolated : ∀ xs, IsRing L x xs → ∀ y ∈ x :: xs, L'.Isolated y
  others : ∀ h ys, IsRing L h ys → x ∉ h :: ys → IsRing L' h ys

section
variable (hL : L.Inverse)
include hL

theorem splitOff_split (n : ν) : SplitOff L (L.split n) n where
  isolated := split_isolated L n
  order := fun _ _ _ hr => hr.split
  others := fun _ _ hr hn => hr.split_off hL hn

theorem erase_spec (n : ν) : ∃ L', erase L n = some (L', L.next n) ∧ L'.Inverse ∧ SplitOff L L' n :=
  ⟨L.split n, erase_eq hL.next_eq_self_iff, hL.split n, splitOff_split hL n⟩

theorem pushFront_spec (x p : ν) : ∃ L', pushFront L x p = some L' ∧ L'.Inverse ∧ PushedFront x p L L' := by
  by_cases hne : p = x
  · subst hne
    exact ⟨L.split p, pushFront_self hL, hL.split p, L.split p, splitOff_split hL p, by rw [if_pos rfl]⟩
  · have hM := hL.split p
    have hp := split_isolated L p
    refine ⟨_, pushFront_eq hL hne, hM.link hp hne, L.split p, splitOff_split hL p, ?_⟩
    rw [if_neg hne]
    refine ⟨?_, ?_, ?_⟩
    · rw [Links.link_next, if_neg (Ne.symm hne), if_pos rfl]
    · intro xs hr
      exact hr.link (hr.not_mem_of_isolated hp hne)
    · intro h xs hr hx hps
      exact hr.link_off hM hx hps

theorem pushBack_spec (x p : ν) : ∃ L', pushBack L x p = some L' ∧ L'.Inverse ∧ PushedBack x p L L' := by
  by_cases hne : p = x
  · subst hne
    exact ⟨L.split p, pushBack_self hL, hL.split p, L.split p, splitOff_split hL p, by rw [if_pos rfl]⟩
  · have hM := hL.split p
    have hp := split_isolated L p
    have hprev : p ≠ (L.split p).prev x := by
      intro he
      exact hne (by rw [← hM.next_prev x, ← he, hp.1])
    refine ⟨_, pushBack_eq hL hne, hM.link hp hprev, L.split p, splitOff_split hL p, ?_⟩
    rw [if_neg hne]
    refine ⟨?_, ?_, ?_⟩
    · rw [Links.link_prev, hM.next_prev, if_pos rfl]
    · intro xs hr
      exact hr.link_prev (hr.not_mem_of_isolated hp hne)
    · intro h xs hr hx hps
      apply hr.link_off hM _ hps
      intro hmem
      exact hx (hM.next_prev x ▸ hr.next_mem hmem)

theorem insertBack_spec (x : ν) (ps : List ν) :
    ∃ L', insertBack L x ps = some L' ∧ L'.Inverse ∧ InsertedBack x ps L L' := by
  induction ps generalizing L with
  | nil => exact ⟨L, rfl, hL, rfl⟩
  | cons p ps ih =>
    obtain ⟨M, hpush, hM, heff⟩ := pushBack_spec hL x p
    obtain ⟨L', hins, hL', heff'⟩ := ih hM
    refine ⟨L', ?_, hL', M, heff, heff'⟩
    rw [insertBack, hpush]
    exact hins

theorem clearLoop_spec (hr : IsRing L x xs) {fuel : ℕ} (hfuel : xs.length < fuel) :
    ∃ L', clearLoop fuel L (L.next x) = some L' ∧ L'.Inverse ∧
      (∀ y ∈ x :: xs, L'.Isolated y) ∧ ∀ h ys, IsRing L h ys → x ∉ h :: ys → IsRing L' h ys := by
  induction xs generalizing L fuel with
  | nil =>
    obtain ⟨fuel, rfl⟩ : ∃ k, fuel = k + 1 := ⟨fuel - 1, by omega⟩
    have hx := isRing_nil_iff.mp hr
    refine ⟨L, ?_, hL, ?_, fun _ _ h _ => h⟩
    · rw [clearLoop, hx.1, empty_eq hL.next_eq_self_iff]
      simp [hx.1]
    · intro y hy
      rw [List.mem_singleton.mp hy]
      exact hx
  | cons y ys ih =>
    obtain ⟨fuel, rfl⟩ : ∃ k, fuel = k + 1 := ⟨fuel - 1, by omega⟩
    have hr' : IsRing L x ([] ++ y :: ys) := hr
    have hy : L.next x = y := hr.next_head
    have hne : L.next y ≠ y := by
      rw [hr'.next_of_mem]
      exact hr'.ne_next.symm
    have hnext : (L.split y).next x = L.next y := by
      rw [(hr'.split).next_head, hr'.next_of_mem]
      rfl
    obtain ⟨L', hloop, hL', hiso, hoff⟩ := ih (hL.split y) hr'.split
      (Nat.lt_of_succ_lt_succ hfuel)
    refine ⟨L', ?_, hL', ?_, ?_⟩
    · rw [clearLoop, hy, empty_eq hL.next_eq_self_iff, erase_eq hL.next_eq_self_iff]
      simp only [hne, decide_false, Option.bind_eq_bind, Option.bind_some, Bool.false_eq_true, if_false]
      rw [← hnext]
      exact hloop
    · intro z hz
      by_cases hzy : z = y
      · rw [hzy]
        apply isRing_nil_iff.mp
        apply hoff y [] (isRing_nil_iff.mpr (split_isolated L y))
        rw [List.mem_singleton]
        rintro rfl
        exact hr.not_mem List.mem_cons_self
      · apply hiso
        simp only [List.mem_cons] at hz ⊢
        tauto
    · intro h zs hz hx
      apply hoff h zs _ hx
      apply hz.split_off hL
      intro hmem
      rw [← hy] at hmem
      exact hx (hL.prev_next x ▸ hz.prev_mem hmem)

end

inductive Op (ν : Type) where
  | pushFront (x p : ν)
  | pushBack (x p : ν)
  | insertBack (x : ν) (ps : List ν)
  | erase (n : ν)
  | clear (x : ν)
  deriving Repr

/-- One operation, with the iterator that `erase` returns. -/
def runOp (fuel : ℕ) (L : Links ν) : Op ν → Option (Links ν × Option ν)
  | .pushFront x p => (pushFront L x p).map fun L => (L, none)
  | .pushBack x p => (pushBack L x p).map fun L => (L, none)
  | .insertBack x ps => (insertBack L x ps).map fun L => (L, none)
  | .erase n => (erase L n).map fun r => (r.1, some r.2)
  | .clear x => (clear fuel L x).map fun L => (L, none)

def runOps (fuel : ℕ) (L : Links ν) : List (Op ν) → Option (Links ν)
  | [] => some L
  | op :: ops => (runOp fuel L op).bind fun r => runOps fuel r.1 ops

def OpEffect (L L' : Links ν) (it : Option ν) : Op ν → Prop
  | .pushFront x p => PushedFront x p L L'
  | .pushBack x p => PushedBack x p L L'
  | .insertBack x ps => InsertedBack x ps L L'
  | .erase n => SplitOff L L' n ∧ it = some (L.next n)
  | .clear x => Cleared x L L'

def fresh : Links ν := ⟨id, id⟩

section Runs
variable [Fintype ν]

theorem clear_spec (hL : L.Inverse) (x : ν) (extra : ℕ) :
    ∃ L', clear (Fintype.card ν + extra) L x = some L' ∧ L'.Inverse ∧ Cleared x L L' := by
  obtain ⟨xs, hr⟩ := hL.exists_ring x
  have hlen : xs.length < Fintype.card ν := hr.nodup.length_le_card
  obtain ⟨L', hclear, hL', hiso, hoff⟩ := clearLoop_spec hL hr (Nat.lt_add_right extra hlen)
  refine ⟨L', hclear, hL', ?_, hoff⟩
  intro ys hr' y hy
  have hsub : y ∈ x :: xs := hr'.subset hr hy
  exact hiso y hsub

theorem runOp_spec (hL : L.Inverse) (extra : ℕ) (op : Op ν) :
    ∃ L' it, runOp (Fintype.card ν + extra) L op = some (L', it) ∧ L'.Inverse ∧ OpEffect L L' it op := by
  cases op with
  | pushFront x p =>
    obtain ⟨L', hrun, hL', heff⟩ := pushFront_spec hL x p
    exact ⟨L', none, by rw [runOp, hrun]; rfl, hL', heff⟩
  | pushBack x p =>
    obtain ⟨L', hrun, hL', heff⟩ := pushBack_spec hL x p
    exact ⟨L', none, by rw [runOp, hrun]; rfl, hL', heff⟩
  | insertBack x ps =>
    obtain ⟨L', hrun, hL', heff⟩ := insertBack_spec hL x ps
    exact ⟨L', none, by rw [runOp, hrun]; rfl, hL', heff⟩
  | erase n =>
    obtain ⟨L', hrun, hL', heff⟩ := erase_spec hL n
    exact ⟨L', some (L.next n), by rw [runOp, hrun]; rfl, hL', heff, rfl⟩
  | clear x =>
    obtain ⟨L', hrun, hL', heff⟩ := clear_spec hL x extra
    exact ⟨L', none, by rw [runOp, hrun]; rfl, hL', heff⟩

theorem runOps_inverse (hL : L.Inverse) (extra : ℕ) (ops : List (Op ν)) :
    ∃ L', runOps (Fintype.card ν + extra) L ops = some L' ∧ L'.Inverse := by
  induction ops generalizing L with
  | nil => exact ⟨L, rfl, hL⟩
  | cons op ops ih =>
    obtain ⟨M, it, hrun, hM, -⟩ := runOp_spec hL extra op
    obtain ⟨L', hruns, hL'⟩ := ih hM
    refine ⟨L', ?_, hL'⟩
    rw [runOps, hrun]
    exact hruns

/-- After any operations every node is in a ring, and the next operation does to the rings what it is for. -/
theorem runOps_rings (extra : ℕ) (ops : List (Op ν)) (op : Op ν) :
    ∃ L L' it, runOps (Fintype.card ν + extra) fresh ops = some L ∧
      runOp (Fintype.card ν + extra) L op = some (L', it) ∧
      L.Inverse ∧ L'.Inverse ∧ (∀ x, ∃ xs, IsRing L x xs) ∧ OpEffect L L' it op := by
  have hfresh : (fresh : Links ν).Inverse := ⟨fun _ => rfl, fun _ => rfl⟩
  obtain ⟨L, hruns, hL⟩ := runOps_inverse hfresh extra ops
  obtain ⟨L', it, hrun, hL', heff⟩ := runOp_spec hL extra op
  exact ⟨L, L', it, hruns, hrun, hL, hL', hL.exists_ring, heff⟩

end Runs

theorem size_spec {L : Links ν} {x : ν} {xs : List ν} (hr : IsRing L x xs) {fuel : ℕ}
    (hfuel : xs.length < fuel) : size fuel L x = some xs.length := by
  have hloop : ∀ (l r : List ν) (fuel : ℕ), xs = l ++ r → r.length < fuel →
      sizeLoop L x fuel (l.getLastD x) l.length = some xs.length := by
    intro l r
    induction r generalizing l with
    | nil =>
      intro fuel hxs hf
      obtain ⟨fuel, rfl⟩ : ∃ k, fuel = k + 1 := ⟨fuel - 1, by omega⟩
      rw [List.append_nil] at hxs
      rw [sizeLoop, if_neg, ← hxs]
      rw [not_not, ← hxs, ← hr.prev_head]
      exact hr.next_prev List.mem_cons_self
    | cons y r ih =>
      intro fuel hxs hf
      obtain ⟨fuel, rfl⟩ : ∃ k, fuel = k + 1 := ⟨fuel - 1, by omega⟩
      have hnext : L.next (l.getLastD x) = y := by
        rw [hxs] at hr
        exact (seg_append.mp hr.seg).2.next_eq
      have hne : y ≠ x := by
        rintro rfl
        exact hr.not_mem (by rw [hxs]; simp)
      rw [sizeLoop, hnext, if_pos hne]
      have hstep := ih (l ++ [y]) fuel (by simpa using hxs) (Nat.lt_of_succ_lt_succ hf)
      rwa [List.getLastD_concat, List.length_append, List.length_singleton] at hstep
  exact hloop [] xs fuel rfl hfuel

/-- The only nodes that are linked are the head `h` and the elements `xs` of its list. -/
structure OneList (L : Links ν) (h : ν) (xs : List ν) : Prop where
  inverse : L.Inverse
  ring : IsRing L h xs
  isolated : ∀ x, x ∉ h :: xs → L.Isolated x

section OneList

omit [DecidableEq ν] in
theorem oneList_fresh (h : ν) : OneList (fresh : Links ν) h [] :=
  ⟨⟨fun _ => rfl, fun _ => rfl⟩, isRing_nil_iff.mpr ⟨rfl, rfl⟩, fun _ _ => ⟨rfl, rfl⟩⟩

theorem OneList.empty (hl : OneList L h xs) : IntrusiveListHead.empty L h = some (decide (xs = [])) := by
  rw [empty_eq hl.inverse.next_eq_self_iff, hl.ring.next_head]
  cases xs with
  | nil => simp
  | cons x xs =>
    have hne : x ≠ h := fun he => hl.ring.not_mem (he ▸ List.mem_cons_self)
    simp [hne]

theorem OneList.construct (hl : OneList L h xs) (hp : p ∉ h :: xs) : IntrusiveListHead.construct L p = L := by
  have hi := hl.isolated p hp
  apply Links.ext
  · exact update_eq_self_iff.mpr hi.1.symm
  · exact update_eq_self_iff.mpr hi.2.symm

theorem OneList.erase_off (hl : OneList L h xs) (hn : n ∉ h :: xs) :
    IntrusiveListHead.erase L n = some (L, n) := by
  have hi := hl.isolated n hn
  rw [erase_eq hl.inverse.next_eq_self_iff, hi.split_eq, hi.1]

theorem OneList.erase (hl : OneList L h (l ++ n :: r)) :
    ∃ L', IntrusiveListHead.erase L n = some (L', r.headD h) ∧ OneList L' h (l ++ r) := by
  obtain ⟨L', herase, hL', hsplit⟩ := erase_spec hl.inverse n
  rw [hl.ring.next_of_mem] at herase
  refine ⟨L', herase, hL', hsplit.order h l r hl.ring, ?_⟩
  intro x hx
  by_cases hxn : x = n
  · exact hxn ▸ hsplit.isolated
  · apply isRing_nil_iff.mp
    apply hsplit.others x []
    · apply isRing_nil_iff.mpr
      apply hl.isolated
      simp only [List.mem_cons, List.mem_append] at hx ⊢
      tauto
    · simpa using Ne.symm hxn

theorem OneList.pushFront (hl : OneList L h xs) (hp : p ∉ h :: xs) :
    ∃ L', IntrusiveListHead.pushFront L h p = some L' ∧ OneList L' h (p :: xs) := by
  have hne : p ≠ h := fun he => hp (he ▸ List.mem_cons_self)
  have hi := hl.isolated p hp
  have heq := @pushFront_eq _ _ L h p hl.inverse hne
  rw [hi.split_eq] at heq
  refine ⟨_, heq, hl.inverse.link hi hne, hl.ring.link hp, ?_⟩
  intro x hx
  simp only [List.mem_cons, not_or] at hx
  apply isRing_nil_iff.mp
  apply IsRing.link_off _ hl.inverse
  · simpa using Ne.symm hx.1
  · simpa using Ne.symm hx.2.1
  · apply isRing_nil_iff.mpr
    apply hl.isolated
    simpa using ⟨hx.1, hx.2.2⟩

theorem OneList.pushBack (hl : OneList L h xs) (hp : p ∉ h :: xs) :
    ∃ L', IntrusiveListHead.pushBack L h p = some L' ∧ OneList L' h (xs ++ [p]) := by
  have hne : p ≠ h := fun he => hp (he ▸ List.mem_cons_self)
  have hi := hl.isolated p hp
  have hprev : p ≠ L.prev h := fun he => hp (he ▸ hl.ring.prev_mem List.mem_cons_self)
  have heq := @pushBack_eq _ _ L h p hl.inverse hne
  rw [hi.split_eq] at heq
  refine ⟨_, heq, hl.inverse.link hi hprev, hl.ring.link_prev hp, ?_⟩
  intro x hx
  simp only [List.mem_cons, List.mem_append, not_or] at hx
  have hx' : x ∉ h :: xs := by simpa using ⟨hx.1, hx.2.1⟩
  apply isRing_nil_iff.mp
  apply IsRing.link_off (isRing_nil_iff.mpr (hl.isolated x hx')) hl.inverse
  · rw [List.mem_singleton]
    intro he
    exact hx' (he ▸ hl.ring.prev_mem List.mem_cons_self)
  · simpa using Ne.symm hx.2.2.1

end OneList

end IntrusiveListHead

end HmmOS.Util
