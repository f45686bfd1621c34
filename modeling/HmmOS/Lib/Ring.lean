import Mathlib.Data.List.Basic
import Mathlib.Data.List.Iterate
import Mathlib.Data.List.Nodup
import Mathlib.Dynamics.PeriodicPts.Lemmas
import Mathlib.Logic.Equiv.Basic
import Mathlib.Tactic.Common

/-! # Circular doubly linked lists

A list is laid out as a ring from a head node through its elements and back. Joining
two nodes is the only primitive: insertion and removal are joins.
-/
namespace HmmOS.Lib.Ring
open Function
variable {ν : Type*}

@[ext] structure Links (ν : Type*) where
  next : ν → ν
  prev : ν → ν

variable {L L' : Links ν} {a b c : ν} {xs ys : List ν} {p h n x : ν} {l r : List ν}

theorem headD_mem (r : List ν) (h : ν) : r.headD h ∈ h :: r := by
  cases r <;> simp

theorem getLastD_mem (l : List ν) (h : ν) : l.getLastD h ∈ h :: l := by
  rw [List.getLastD_eq_getLast?]
  cases hl : l.getLast? with
  | none => simp
  | some y => simp [List.mem_of_getLast? hl]

theorem not_mem_of_nodup_middle {l r : List ν} {n : ν} (h : (l ++ n :: r).Nodup) : n ∉ l := by
  intro hm
  exact (List.nodup_cons.mp (List.nodup_middle.mp h)).1 (List.mem_append_left r hm)

theorem erase_middle [DecidableEq ν] {l r : List ν} {n : ν} (h : (l ++ n :: r).Nodup) :
    (l ++ n :: r).erase n = l ++ r := by
  rw [List.erase_append_right _ (not_mem_of_nodup_middle h), List.erase_cons_head]

theorem headD_mem_append (l r : List ν) (h : ν) : r.headD h ∈ h :: (l ++ r) := by
  have hm := headD_mem r h
  simp only [List.mem_cons, List.mem_append] at hm ⊢
  tauto

theorem getLastD_mem_append (l r : List ν) (h : ν) : l.getLastD h ∈ h :: (l ++ r) := by
  have hm := getLastD_mem l h
  simp only [List.mem_cons, List.mem_append] at hm ⊢
  tauto

/-- `b` follows `a` through the nodes of the list, in both directions. -/
def Seg (L : Links ν) (a : ν) : List ν → ν → Prop
  | [], b => L.next a = b ∧ L.prev b = a
  | x :: xs, b => L.next a = x ∧ L.prev x = a ∧ Seg L x xs b

theorem Seg.next_eq (h : Seg L a xs b) : L.next a = xs.headD b := by
  cases xs with
  | nil => exact h.1
  | cons x xs => exact h.1

theorem Seg.prev_eq (h : Seg L a xs b) : L.prev b = xs.getLastD a := by
  induction xs generalizing a with
  | nil => exact h.2
  | cons x xs ih => rw [List.getLastD_cons, ih h.2.2]

theorem seg_append : Seg L a (xs ++ ys) b ↔ Seg L a xs (ys.headD b) ∧ Seg L (xs.getLastD a) ys b := by
  induction xs generalizing a with
  | nil =>
    constructor
    · intro h
      cases ys with
      | nil => exact ⟨h, h⟩
      | cons y ys => exact ⟨⟨h.1, h.2.1⟩, h⟩
    · exact fun h => h.2
  | cons x xs ih =>
    rw [List.cons_append, List.getLastD_cons]
    simp only [Seg, ih, and_assoc]

theorem seg_cons : Seg L a (b :: ys) c ↔ Seg L a [] b ∧ Seg L b ys c := by
  simp only [Seg, and_assoc]

theorem seg_append_cons {m : ν} : Seg L a (xs ++ m :: ys) b ↔ Seg L a xs m ∧ Seg L m ys b := by
  induction xs generalizing a with
  | nil => exact seg_cons
  | cons x xs ih =>
    rw [List.cons_append]
    simp only [Seg, ih, and_assoc]

/-- A segment depends on the successors of all but its end and the predecessors of all but its
start. -/
theorem Seg.congr (h : Seg L a xs b) (hn : ∀ x, x = a ∨ x ∈ xs → L'.next x = L.next x)
    (hp : ∀ x, x = b ∨ x ∈ xs → L'.prev x = L.prev x) : Seg L' a xs b := by
  induction xs generalizing a with
  | nil => exact ⟨(hn a (by simp)).trans h.1, (hp b (by simp)).trans h.2⟩
  | cons x xs ih =>
    rcases h with ⟨h1, h2, h3⟩
    refine ⟨(hn a (by simp)).trans h1, (hp x (by simp)).trans h2, ih h3 ?_ ?_⟩
    · intro y hy
      apply hn
      simp only [List.mem_cons]
      tauto
    · intro y hy
      apply hp
      tauto

section Join
variable [DecidableEq ν]

/-- Make `b` the successor of `a` and `a` the predecessor of `b`. -/
def Links.join (L : Links ν) (a b : ν) : Links ν where
  next := Function.update L.next a b
  prev := Function.update L.prev b a

variable {q : ν}

@[simp] theorem join_next_self : (L.join a b).next a = b := update_self ..

@[simp] theorem join_prev_self : (L.join a b).prev b = a := update_self ..

theorem join_next_of_ne (h : c ≠ a) : (L.join a b).next c = L.next c := update_of_ne h ..

theorem join_prev_of_ne (h : c ≠ b) : (L.join a b).prev c = L.prev c := update_of_ne h ..

theorem Seg.join_off (h : Seg L a xs b) (hp : p ∉ a :: xs) (hq : q ∉ b :: xs) : Seg (L.join p q) a xs b := by
  apply h.congr
  · intro x hx
    apply join_next_of_ne
    rintro rfl
    exact hp (List.mem_cons.mpr hx)
  · intro x hx
    apply join_prev_of_ne
    rintro rfl
    exact hq (List.mem_cons.mpr hx)

theorem Seg.join_under {p' q' : ν} (h : Seg (L.join p q) a xs b) (hp : p' ∉ a :: xs)
    (hq : q' ∉ b :: xs) : Seg ((L.join p' q').join p q) a xs b := by
  apply h.congr
  · intro x hx
    have hne : x ≠ p' := by
      rintro rfl
      exact hp (List.mem_cons.mpr hx)
    simp only [Links.join, update_apply, hne, if_false]
  · intro x hx
    have hne : x ≠ q' := by
      rintro rfl
      exact hq (List.mem_cons.mpr hx)
    simp only [Links.join, update_apply, hne, if_false]

theorem Seg.join_end (h : Seg L a xs b) (hnd : (a :: xs).Nodup) (hc : c ∉ xs) :
    Seg (L.join (xs.getLastD a) c) a xs c := by
  induction xs generalizing a with
  | nil => exact ⟨join_next_self, join_prev_self⟩
  | cons x xs ih =>
    rcases h with ⟨h1, h2, h3⟩
    rw [List.nodup_cons] at hnd
    rw [List.getLastD_cons]
    refine ⟨?_, ?_, ih h3 hnd.2 (fun hm => hc (by simp [hm]))⟩
    · have hne : a ≠ xs.getLastD x := by
        intro he
        exact hnd.1 (by rw [he]; exact getLastD_mem xs x)
      rw [join_next_of_ne hne, h1]
    · rw [join_prev_of_ne (fun he => hc (by simp [he])), h2]

theorem Seg.join_start (h : Seg L a xs b) (hnd : (b :: xs).Nodup) (hc : c ∉ xs) :
    Seg (L.join c (xs.headD b)) c xs b := by
  cases xs with
  | nil => exact ⟨join_next_self, join_prev_self⟩
  | cons x xs =>
    simp only [List.nodup_cons, List.mem_cons, not_or] at hnd
    refine ⟨join_next_self, join_prev_self, h.2.2.join_off hc ?_⟩
    simp only [List.mem_cons, not_or]
    exact ⟨Ne.symm hnd.1.1, hnd.2.1⟩

end Join

structure IsRing (L : Links ν) (h : ν) (xs : List ν) : Prop where
  seg : Seg L h xs h
  nodup : (h :: xs).Nodup

section Ring
variable {ms : List ν}

theorem IsRing.not_mem (hr : IsRing L h xs) : h ∉ xs := (List.nodup_cons.mp hr.nodup).1

theorem IsRing.next_head (hr : IsRing L h xs) : L.next h = xs.headD h := hr.seg.next_eq

theorem IsRing.prev_head (hr : IsRing L h xs) : L.prev h = xs.getLastD h := hr.seg.prev_eq

theorem IsRing.next_of_mem (hr : IsRing L h (l ++ n :: r)) : L.next n = r.headD h :=
  (seg_append_cons.mp hr.seg).2.next_eq

theorem IsRing.prev_of_mem (hr : IsRing L h (l ++ n :: r)) : L.prev n = l.getLastD h :=
  (seg_append_cons.mp hr.seg).1.prev_eq

/-- The predecessor of the position before `r`, which is the head when `r` is empty. -/
theorem IsRing.prev_at (hr : IsRing L h (l ++ r)) : L.prev (r.headD h) = l.getLastD h :=
  (seg_append.mp hr.seg).1.prev_eq

section
variable (hr : IsRing L h xs) (hx : x ∈ h :: xs)
include hr hx

theorem IsRing.prev_next : L.prev (L.next x) = x := by
  rcases List.mem_cons.mp hx with rfl | hx
  · rw [hr.next_head]
    exact hr.prev_at (l := [])
  · rcases List.append_of_mem hx with ⟨l, r, rfl⟩
    rw [hr.next_of_mem]
    have hr' : IsRing L h ((l ++ [x]) ++ r) := by simpa using hr
    simpa using hr'.prev_at

theorem IsRing.next_prev : L.next (L.prev x) = x := by
  have hlast : ∀ l r, xs = l ++ r → L.next (l.getLastD h) = r.headD h := by
    intro l r he
    have hs := hr.seg
    rw [he] at hs
    exact (seg_append.mp hs).2.next_eq
  rcases List.mem_cons.mp hx with rfl | hx
  · rw [hr.prev_head]
    exact hlast xs [] (by simp)
  · rcases List.append_of_mem hx with ⟨l, r, rfl⟩
    rw [hr.prev_of_mem]
    exact hlast l (x :: r) rfl

theorem IsRing.next_mem : L.next x ∈ h :: xs := by
  rcases List.mem_cons.mp hx with rfl | hx
  · rw [hr.next_head]
    exact headD_mem xs x
  · rcases List.append_of_mem hx with ⟨l, r, rfl⟩
    rw [hr.next_of_mem]
    simpa using headD_mem_append (l ++ [x]) r h

theorem IsRing.prev_mem : L.prev x ∈ h :: xs := by
  rcases List.mem_cons.mp hx with rfl | hx
  · rw [hr.prev_head]
    exact getLastD_mem xs x
  · rcases List.append_of_mem hx with ⟨l, r, rfl⟩
    rw [hr.prev_of_mem]
    exact getLastD_mem_append l (x :: r) h

end

theorem IsRing.subset (hr : IsRing L h xs) (hr' : IsRing L h ys) (hx : x ∈ h :: xs) : x ∈ h :: ys := by
  -- from the head on, each successor is in the other ring too
  have hseg : ∀ (a : ν) (l : List ν), Seg L a l h → a ∈ h :: ys → ∀ y ∈ l, y ∈ h :: ys := by
    intro a l
    induction l generalizing a with
    | nil => simp
    | cons z l ih =>
      intro hs ha y hy
      have hz : z ∈ h :: ys := hs.1 ▸ hr'.next_mem ha
      rcases List.mem_cons.mp hy with rfl | hy
      · exact hz
      · exact ih z hs.2.2 hz y hy
  rcases List.mem_cons.mp hx with rfl | hx
  · exact List.mem_cons_self
  · exact hseg h xs hr.seg List.mem_cons_self x hx

theorem IsRing.ne_next (hr : IsRing L h (l ++ n :: r)) : n ≠ r.headD h := by
  intro he
  have hm := headD_mem r h
  have hnd := hr.nodup
  rw [← he] at hm
  simp only [List.nodup_cons, List.nodup_append, List.mem_append, List.mem_cons] at hnd hm
  tauto

theorem IsRing.congr (hr : IsRing L h xs) (hn : ∀ x ∈ h :: xs, L'.next x = L.next x)
    (hp : ∀ x ∈ h :: xs, L'.prev x = L.prev x) : IsRing L' h xs :=
  ⟨hr.seg.congr (fun x hx => hn x (List.mem_cons.mpr hx)) (fun x hx => hp x (List.mem_cons.mpr hx)), hr.nodup⟩

variable [DecidableEq ν]

theorem IsRing.join_off (hr : IsRing L h xs) {p q : ν} (hp : p ∉ h :: xs) (hq : q ∉ h :: xs) :
    IsRing (L.join p q) h xs :=
  ⟨hr.seg.join_off hp hq, hr.nodup⟩

theorem IsRing.insert_run {m : ν} (hr : IsRing L h (l ++ r))
    (hs : Seg (L.join (ms.getLastD m) (r.headD h)) m ms (r.headD h)) (hms : (m :: ms).Nodup)
    (hd : (m :: ms).Disjoint (h :: (l ++ r))) :
    IsRing ((L.join (l.getLastD h) m).join (ms.getLastD m) (r.headD h)) h (l ++ m :: (ms ++ r)) := by
  have hnd : ((h :: l) ++ r).Nodup := hr.nodup
  rcases List.nodup_append.mp hnd with ⟨hl, hrn, hdis⟩
  rcases seg_append.mp hr.seg with ⟨hs1, hs2⟩
  have hhl : h ∉ l := (List.nodup_cons.mp hl).1
  have hhr : h ∉ r := fun hm => hdis h (by simp) h hm rfl
  have hm : m ∉ h :: (l ++ r) := fun hc => hd List.mem_cons_self hc
  have hq : ms.getLastD m ∉ h :: (l ++ r) := fun hc => hd (getLastD_mem ms m) hc
  simp only [List.mem_cons, List.mem_append, not_or] at hm hq
  have hcl : r.headD h ∉ l := by
    intro hc
    rcases List.mem_cons.mp (headD_mem r h) with he | hmr
    · exact hhl (he ▸ hc)
    · exact hdis _ (List.mem_cons_of_mem h hc) _ hmr rfl
  have hcm : r.headD h ∉ m :: ms := fun hc => hd hc (headD_mem_append l r h)
  have hpm : l.getLastD h ∉ m :: ms := fun hc => hd hc (getLastD_mem_append l r h)
  constructor
  · rw [seg_append_cons, seg_append]
    refine ⟨?_, ?_, ?_⟩
    · apply (hs1.join_end hl hm.2.1).join_off
      · simp only [List.mem_cons, not_or]
        exact ⟨hq.1, hq.2.1⟩
      · simp only [List.mem_cons, not_or] at hcm ⊢
        exact ⟨hcm.1, hcl⟩
    · apply hs.join_under hpm
      simp only [List.mem_cons, not_or] at hcm ⊢
      exact ⟨Ne.symm hcm.1, (List.nodup_cons.mp hms).1⟩
    · cases r with
      | nil => exact ⟨join_next_self, join_prev_self⟩
      | cons x r =>
        have hpr : l.getLastD h ∉ x :: r := fun hc => hdis _ (getLastD_mem l h) _ hc rfl
        have hs3 : Seg (L.join (l.getLastD h) m) x r h :=
          hs2.2.2.join_off hpr (by simp only [List.mem_cons, not_or] at hm ⊢; tauto)
        refine ⟨join_next_self, join_prev_self, hs3.join_off hq.2.2 ?_⟩
        simp only [List.mem_cons, List.headD_cons, List.nodup_cons, not_or] at hhr hrn ⊢
        exact ⟨Ne.symm hhr.1, hrn.1⟩
  · have hp : (h :: (l ++ m :: (ms ++ r))).Perm ((m :: ms) ++ (h :: (l ++ r))) := by
      have := List.perm_append_comm_assoc (h :: l) (m :: ms) r
      simpa using this
    rw [hp.nodup_iff, List.nodup_append']
    exact ⟨hms, hr.nodup, hd⟩

theorem IsRing.insert (hr : IsRing L h (l ++ r)) (hn : n ∉ h :: (l ++ r)) :
    IsRing ((L.join (l.getLastD h) n).join n (r.headD h)) h (l ++ n :: r) := by
  have hs : Seg (L.join ([].getLastD n) (r.headD h)) n [] (r.headD h) := ⟨join_next_self, join_prev_self⟩
  apply hr.insert_run (m := n) hs (List.nodup_singleton n)
  simpa using hn

theorem IsRing.erase_run (ms : List ν) (hr : IsRing L h (l ++ (ms ++ r))) :
    IsRing (L.join (l.getLastD h) (r.headD h)) h (l ++ r) := by
  have hsub : (h :: (l ++ r)).Sublist (h :: (l ++ (ms ++ r))) :=
    ((List.sublist_append_right ms r).append_left l).cons_cons h
  have hnd : ((h :: l) ++ r).Nodup := hr.nodup.sublist hsub
  rcases List.nodup_append.mp hnd with ⟨hl, hrn, hdis⟩
  rcases seg_append.mp hr.seg with ⟨hs1, hs2⟩
  have hs3 := (seg_append.mp hs2).2
  have hhl : h ∉ l := (List.nodup_cons.mp hl).1
  have hhr : h ∉ r := fun hm => hdis h (by simp) h hm rfl
  refine ⟨seg_append.mpr ⟨?_, ?_⟩, hnd⟩
  · apply hs1.join_end hl
    intro hc
    rcases List.mem_cons.mp (headD_mem r h) with he | hm
    · exact hhl (he ▸ hc)
    · exact hdis _ (List.mem_cons_of_mem h hc) _ hm rfl
  · apply hs3.join_start (List.nodup_cons.mpr ⟨hhr, hrn⟩)
    intro hc
    exact hdis _ (getLastD_mem l h) _ hc rfl

theorem IsRing.erase (hr : IsRing L h (l ++ n :: r)) : IsRing (L.join (l.getLastD h) (r.headD h)) h (l ++ r) :=
  IsRing.erase_run [n] hr

end Ring

/-- Exchange the roles of nodes by a permutation of them. -/
def Links.conj (L : Links ν) (σ : Equiv.Perm ν) : Links ν where
  next := fun a => σ (L.next (σ.symm a))
  prev := fun a => σ (L.prev (σ.symm a))

theorem Seg.conj {a b : ν} (hs : Seg L a xs b) (σ : Equiv.Perm ν) : Seg (L.conj σ) (σ a) (xs.map σ) (σ b) := by
  induction xs generalizing a with
  | nil => simpa [Seg, Links.conj] using hs
  | cons x xs ih =>
    rcases hs with ⟨h1, h2, h3⟩
    exact ⟨by simp [Links.conj, h1], by simp [Links.conj, h2], ih h3⟩

theorem IsRing.swap_heads [DecidableEq ν] {h' : ν} (hr : IsRing L h xs) (hh' : h' ∉ xs) :
    IsRing (L.conj (Equiv.swap h h')) h' xs := by
  have hmap : xs.map (Equiv.swap h h') = xs := by
    apply (List.map_congr_left fun x hx => ?_).trans (List.map_id xs)
    apply Equiv.swap_apply_of_ne_of_ne
    · rintro rfl
      exact hr.not_mem hx
    · rintro rfl
      exact hh' hx
  constructor
  · simpa [hmap] using hr.seg.conj (Equiv.swap h h')
  · exact List.nodup_cons.mpr ⟨hh', (List.nodup_cons.mp hr.nodup).2⟩

structure Links.Inverse (L : Links ν) : Prop where
  prev_next : ∀ x, L.prev (L.next x) = x
  next_prev : ∀ x, L.next (L.prev x) = x

/-- A node that is a ring of its own. -/
def Links.Isolated (L : Links ν) (x : ν) : Prop := L.next x = x ∧ L.prev x = x

section Inverse
variable {y : ν}

theorem Links.Inverse.next_eq_self_iff (hL : L.Inverse) : L.next x = x ↔ L.prev x = x := by
  constructor
  · intro hx
    rw [← hx, hL.prev_next, hx]
  · intro hx
    rw [← hx, hL.next_prev, hx]

theorem isRing_nil_iff : IsRing L h [] ↔ L.Isolated h := by
  constructor
  · exact fun hr => hr.seg
  · exact fun hi => ⟨hi, by simp⟩

theorem IsRing.not_mem_of_isolated (hr : IsRing L h xs) (hn : L.Isolated n) (hne : n ≠ h) : n ∉ h :: xs := by
  intro hm
  rcases List.append_of_mem ((List.mem_cons.mp hm).resolve_left hne) with ⟨l, r, rfl⟩
  exact hr.ne_next (hn.1.symm.trans hr.next_of_mem)

theorem Links.Inverse.seg_iterate (hL : L.Inverse) (x : ν) (k : ℕ) :
    Seg L x (List.iterate L.next (L.next x) k) (L.next^[k + 1] x) := by
  induction k generalizing x with
  | zero => exact ⟨rfl, hL.prev_next x⟩
  | succ k ih =>
    exact ⟨rfl, hL.prev_next x, ih (L.next x)⟩

/-- Among finitely many nodes, every one is the head of a ring. -/
theorem Links.Inverse.exists_ring [Finite ν] (hL : L.Inverse) (x : ν) : ∃ xs, IsRing L x xs := by
  have hinj : Function.Injective L.next := Function.LeftInverse.injective hL.prev_next
  have hper : x ∈ Function.periodicPts L.next := hinj.mem_periodicPts x
  have hpos := Function.minimalPeriod_pos_of_mem_periodicPts hper
  obtain ⟨k, hk⟩ : ∃ k, Function.minimalPeriod L.next x = k + 1 :=
    ⟨_, (Nat.succ_pred_eq_of_pos hpos).symm⟩
  refine ⟨List.iterate L.next (L.next x) k, ?_, ?_⟩
  · have hseg := hL.seg_iterate x k
    rwa [← hk, Function.iterate_minimalPeriod] at hseg
  · have hlist : x :: List.iterate L.next (L.next x) k =
        (List.range (Function.minimalPeriod L.next x)).map fun i => L.next^[i] x := by
      rw [hk, List.range_map_iterate]
      rfl
    rw [hlist]
    apply List.Nodup.map_on _ List.nodup_range
    intro i hi j hj hij
    exact Function.iterate_injOn_Iio_minimalPeriod (List.mem_range.mp hi) (List.mem_range.mp hj) hij

variable [DecidableEq ν]

def Links.split (L : Links ν) (n : ν) : Links ν := (L.join (L.prev n) (L.next n)).join n n

theorem split_isolated (L : Links ν) (n : ν) : (L.split n).Isolated n :=
  ⟨join_next_self, join_prev_self⟩

theorem Links.Isolated.split_eq (hn : L.Isolated n) : L.split n = L := by
  rw [Links.split, hn.1, hn.2]
  have hself : L.join n n = L := by
    apply Links.ext
    · exact update_eq_self_iff.mpr hn.1.symm
    · exact update_eq_self_iff.mpr hn.2.symm
  rw [hself, hself]

theorem Links.split_next (L : Links ν) (n x : ν) : (L.split n).next x =
    if x = n then n else if x = L.prev n then L.next n else L.next x := by
  simp only [Links.split, Links.join, update_apply]

theorem Links.split_prev (L : Links ν) (n x : ν) : (L.split n).prev x =
    if x = n then n else if x = L.next n then L.prev n else L.prev x := by
  simp only [Links.split, Links.join, update_apply]

theorem Links.Inverse.split (hL : L.Inverse) (n : ν) : (L.split n).Inverse := by
  have hpn := hL.prev_next
  have hnp := hL.next_prev
  constructor
  · intro x
    rw [Links.split_next, Links.split_prev]
    grind
  · intro x
    rw [Links.split_next, Links.split_prev]
    grind

theorem IsRing.split (hr : IsRing L h (l ++ n :: r)) : IsRing (L.split n) h (l ++ r) := by
  have hn : n ∉ h :: (l ++ r) := by
    have hp : (h :: l ++ n :: r).Perm (n :: (h :: l ++ r)) := List.perm_middle
    exact (List.nodup_cons.mp (hp.nodup_iff.mp hr.nodup)).1
  rw [Links.split, hr.next_of_mem, hr.prev_of_mem]
  exact hr.erase.join_off hn hn

theorem IsRing.split_off (hr : IsRing L h xs) (hL : L.Inverse) (hn : n ∉ h :: xs) :
    IsRing (L.split n) h xs := by
  refine (hr.join_off ?_ ?_).join_off hn hn
  · intro hp
    exact hn (hL.next_prev n ▸ hr.next_mem hp)
  · intro hp
    exact hn (hL.prev_next n ▸ hr.prev_mem hp)

/-- Put the isolated node `p` behind `x`. -/
def Links.link (L : Links ν) (x p : ν) : Links ν := (L.join x p).join p (L.next x)

theorem Links.link_next (L : Links ν) {x : ν} (y : ν) : (L.link x p).next y =
    if y = p then L.next x else if y = x then p else L.next y := by
  simp only [Links.link, Links.join, update_apply]

theorem Links.link_prev (L : Links ν) {x : ν} (y : ν) : (L.link x p).prev y =
    if y = L.next x then p else if y = p then x else L.prev y := by
  simp only [Links.link, Links.join, update_apply]

theorem Links.Inverse.link (hL : L.Inverse) (hp : L.Isolated p) (hne : p ≠ x) : (L.link x p).Inverse := by
  have hpn := hL.prev_next
  have hnp := hL.next_prev
  obtain ⟨hp1, hp2⟩ := hp
  constructor
  · intro y
    rw [Links.link_next, Links.link_prev]
    grind
  · intro y
    rw [Links.link_next, Links.link_prev]
    grind

theorem IsRing.link (hr : IsRing L x xs) (hp : p ∉ x :: xs) : IsRing (L.link x p) x (p :: xs) := by
  rw [Links.link, hr.next_head]
  exact @IsRing.insert ν L x p [] xs _ hr hp

theorem IsRing.link_off (hr : IsRing L h xs) (hL : L.Inverse) (hx : x ∉ h :: xs) (hp : p ∉ h :: xs) :
    IsRing (L.link x p) h xs := by
  refine (hr.join_off hx hp).join_off hp ?_
  intro hm
  exact hx (hL.prev_next x ▸ hr.prev_mem hm)

/-- Behind the predecessor of the head is the end of the ring. -/
theorem IsRing.link_prev (hr : IsRing L x xs) (hp : p ∉ x :: xs) :
    IsRing (L.link (L.prev x) p) x (xs ++ [p]) := by
  rw [Links.link, hr.next_prev List.mem_cons_self, hr.prev_head]
  have hr' : IsRing L x (xs ++ []) := by rwa [List.append_nil]
  exact hr'.insert (by rwa [List.append_nil])

end Inverse

end HmmOS.Lib.Ring
