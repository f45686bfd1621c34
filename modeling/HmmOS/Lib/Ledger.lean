import HmmOS.Lib.Counts
import Mathlib.Data.Finset.Dedup
import Mathlib.Tactic

/-! # Ledgers of allocations

Allocations are numbered in their order. Pointers are in balance with a ledger when
they hold the allocations that are not freed, each one once.
-/
namespace HmmOS.Lib
open Function

/-- The number of the next allocation, and the freed ones in their order. -/
structure Ledger where
  next : ℕ
  freed : List ℕ

namespace Ledger
variable {κ : Type*} {l l1 l2 : Ledger} {p : κ → Option ℕ} {s : Set κ} {k : κ} {a : ℕ}

def empty : Ledger := ⟨0, []⟩

def allocate (l : Ledger) : Ledger := { l with next := l.next + 1 }

def free (l : Ledger) (a : ℕ) : Ledger := { l with freed := l.freed ++ [a] }

/-- The places `s` hold as many allocations as were not freed, and none was freed twice. -/
structure Accounts (l : Ledger) (s : Set κ) : Prop where
  count : ∃ n, Counts n s ∧ l.next = l.freed.length + n
  once : l.freed.Nodup

structure Balanced (l : Ledger) (p : κ → Option ℕ) : Prop where
  live : ∀ a, (∃ k, p k = some a) ↔ a < l.next ∧ a ∉ l.freed
  inj : ∀ k k' a, p k = some a → p k' = some a → k = k'
  once : l.freed.Nodup
  past : ∀ a ∈ l.freed, a < l.next

namespace Balanced

theorem empty : Balanced Ledger.empty (fun _ : κ => none) := by
  constructor <;> simp [Ledger.empty]

theorem ne_next (h : Balanced l p) : p k ≠ some l.next := by
  intro hk
  have hlt := ((h.live l.next).mp ⟨k, hk⟩).1
  exact lt_irrefl _ hlt

/-- The pointers that are not null have the allocations that are not freed as their images. -/
theorem accounts (h : Balanced l p) : Accounts l {k | p k ≠ none} := by
  have himage : (fun k => (p k).getD 0) '' {k | p k ≠ none} =
      ((Finset.range l.next \ l.freed.toFinset : Finset ℕ) : Set ℕ) := by
    ext a
    simp only [Set.mem_image, Set.mem_ofPred_eq, Finset.coe_sdiff, Set.mem_sdiff, Finset.mem_coe,
      Finset.mem_range, List.mem_toFinset]
    rw [← h.live a]
    constructor
    · rintro ⟨k, hk, rfl⟩
      rcases Option.ne_none_iff_exists'.mp hk with ⟨a, ha⟩
      exact ⟨k, by rw [ha]; rfl⟩
    · rintro ⟨k, hk⟩
      exact ⟨k, by simp [hk], by rw [hk]; rfl⟩
  have hinj : Set.InjOn (fun k => (p k).getD 0) {k | p k ≠ none} := by
    intro k hk k' hk' he
    rcases Option.ne_none_iff_exists'.mp hk with ⟨a, ha⟩
    rcases Option.ne_none_iff_exists'.mp hk' with ⟨b, hb⟩
    simp only [ha, hb, Option.getD_some] at he
    exact h.inj k k' a ha (he ▸ hb)
  have hsub : l.freed.toFinset ⊆ Finset.range l.next := by
    intro a ha
    rw [Finset.mem_range]
    exact h.past a (List.mem_toFinset.mp ha)
  have hcard := Finset.card_sdiff_add_card_eq_card hsub
  rw [List.toFinset_card_of_nodup h.once, Finset.card_range] at hcard
  refine ⟨⟨_, ?_, (Nat.add_comm _ _ ▸ hcard).symm⟩, h.once⟩
  rw [Counts, ← hinj.encard_image, himage, Set.encard_coe_eq_coe_finsetCard]

theorem congr {κ' : Type*} {q : κ' → Option ℕ} (h : Balanced l p)
    (hsame : ∀ a, (∃ k, q k = some a) ↔ ∃ k, p k = some a)
    (hinj : ∀ k k' a, q k = some a → q k' = some a → k = k') : Balanced l q :=
  ⟨fun a => (hsame a).trans (h.live a), hinj, h.once, h.past⟩

theorem comp_iff {κ' : Type*} {e : κ' → κ} (he : Function.Injective e)
    (hall : ∀ k, p k ≠ none → k ∈ Set.range e) : Balanced l (p ∘ e) ↔ Balanced l p := by
  have hsame : ∀ a, (∃ k', (p ∘ e) k' = some a) ↔ ∃ k, p k = some a := by
    intro a
    constructor
    · rintro ⟨k', hk'⟩
      exact ⟨e k', hk'⟩
    · rintro ⟨k, hk⟩
      rcases hall k (by simp [hk]) with ⟨k', rfl⟩
      exact ⟨k', hk⟩
  constructor
  · intro h
    apply h.congr fun a => (hsame a).symm
    intro k1 k2 a h1 h2
    rcases hall k1 (by simp [h1]) with ⟨k1, rfl⟩
    rcases hall k2 (by simp [h2]) with ⟨k2, rfl⟩
    rw [h.inj k1 k2 a h1 h2]
  · intro h
    apply h.congr hsame
    intro k1 k2 a h1 h2
    exact he (h.inj _ _ a h1 h2)

variable [DecidableEq κ]

theorem allocate (h : Balanced l p) (hk : p k = none) : Balanced l.allocate (update p k (some l.next)) := by
  constructor
  case live =>
    intro a
    constructor
    · rintro ⟨k', hk'⟩
      by_cases he : k' = k
      · rw [he, update_self, Option.some.injEq] at hk'
        refine ⟨by simp [Ledger.allocate, ← hk'], fun hmem => ?_⟩
        exact absurd (h.past a hmem) (by simp [← hk'])
      · rw [update_of_ne he] at hk'
        rcases (h.live a).mp ⟨k', hk'⟩ with ⟨hlt, hmem⟩
        exact ⟨hlt.trans (Nat.lt_succ_self _), hmem⟩
    · rintro ⟨hlt, hmem⟩
      rcases Nat.lt_succ_iff_lt_or_eq.mp hlt with hlt | rfl
      · rcases (h.live a).mpr ⟨hlt, hmem⟩ with ⟨k', hk'⟩
        have hne : k' ≠ k := by
          rintro rfl
          rw [hk] at hk'
          cases hk'
        exact ⟨k', by rw [update_of_ne hne, hk']⟩
      · exact ⟨k, update_self ..⟩
  case inj =>
    intro k1 k2 a h1 h2
    rw [update_apply] at h1 h2
    split_ifs at h1 h2 with e1 e2 e2
    · rw [e1, e2]
    · exact absurd (h2.trans h1.symm) h.ne_next
    · exact absurd (h1.trans h2.symm) h.ne_next
    · exact h.inj k1 k2 a h1 h2
  case once => exact h.once
  case past => exact fun a ha => (h.past a ha).trans (Nat.lt_succ_self _)

theorem free (h : Balanced l p) (hk : p k = some a) : Balanced (l.free a) (update p k none) := by
  have hlive := (h.live a).mp ⟨k, hk⟩
  constructor
  case live =>
    intro b
    simp only [Ledger.free, List.mem_append, List.mem_singleton, not_or, ← and_assoc, ← h.live b]
    constructor
    · rintro ⟨k', hk'⟩
      have hne : k' ≠ k := by
        rintro rfl
        rw [update_self] at hk'
        cases hk'
      rw [update_of_ne hne] at hk'
      refine ⟨⟨k', hk'⟩, ?_⟩
      rintro rfl
      exact hne (h.inj k' k b hk' hk)
    · rintro ⟨⟨k', hk'⟩, hne⟩
      refine ⟨k', ?_⟩
      rw [update_of_ne, hk']
      rintro rfl
      exact hne (Option.some.inj (hk'.symm.trans hk))
  case inj =>
    intro k1 k2 b h1 h2
    rw [update_apply] at h1 h2
    split_ifs at h1 h2
    exact h.inj k1 k2 b h1 h2
  case once => exact List.nodup_append_comm.mp (List.nodup_cons.mpr ⟨hlive.2, h.once⟩)
  case past =>
    intro b hb
    rcases List.mem_append.mp hb with hb | hb
    · exact h.past b hb
    · rw [List.mem_singleton.mp hb]
      exact hlive.1

end Balanced

/-- An allocation that overwrites a pointer is one that no place accounts for. -/
theorem Accounts.not_allocate (h : Accounts l s) : ¬ Accounts l.allocate s := by
  rintro ⟨⟨n, hn, hnext⟩, -⟩
  rcases h.count with ⟨m, hm, hlast⟩
  have hmn : (m : ℕ∞) = n := hm.symm.trans hn
  have he : m = n := by exact_mod_cast hmn
  simp only [allocate] at hnext
  omega

/-- Balance is kept when the array `f` becomes `f'`, whatever other arrays there are. -/
def Keeps (l : Ledger) (f : κ → Option ℕ) (l' : Ledger) (f' : κ → Option ℕ) : Prop :=
  ∀ (ι : Type) [DecidableEq ι] (P : ι → κ → Option ℕ) (i : ι), P i = f →
    Balanced l (Function.uncurry P) → Balanced l' (Function.uncurry (Function.update P i f'))

namespace Keeps
variable {f g h : κ → Option ℕ}

theorem refl : Keeps l f l f := by
  intro ι _ P i hi hP
  rwa [update_eq_self_iff.mpr hi.symm]

theorem trans (h1 : Keeps l f l1 g) (h2 : Keeps l1 g l2 h) : Keeps l f l2 h := by
  intro ι _ P i hi hP
  have hlast := h2 ι _ i (update_self i g P) (h1 ι P i hi hP)
  rwa [update_idem] at hlast

theorem rename (σ : κ → κ) (hf : ∀ k a, g k = some a → f (σ k) = some a)
    (hσ : ∀ k k', g k ≠ none → g k' ≠ none → σ k = σ k' → k = k')
    (hall : ∀ k a, f k = some a → ∃ k', g k' = some a) : Keeps l f l g := by
  intro ι _ P i hi hP
  -- where an entry of the new arrays was before
  have hold : ∀ j k a, update P i g j k = some a →
      P j (if j = i then σ k else k) = some a := by
    intro j k a hjk
    rw [update_apply] at hjk
    split_ifs at hjk ⊢ with hj
    · rw [hj, hi]
      exact hf k a hjk
    · exact hjk
  apply hP.congr
  · intro a
    constructor
    · rintro ⟨⟨j, k⟩, hjk⟩
      exact ⟨(j, _), hold j k a hjk⟩
    · rintro ⟨⟨j, k⟩, hjk⟩
      by_cases hj : j = i
      · subst hj
        rcases hall k a (hi ▸ hjk) with ⟨k', hk'⟩
        refine ⟨(j, k'), ?_⟩
        simpa [Function.uncurry] using hk'
      · refine ⟨(j, k), ?_⟩
        simpa [Function.uncurry, hj] using hjk
  · rintro ⟨j, k⟩ ⟨j', k'⟩ a hjk hjk'
    have he := hP.inj (j, if j = i then σ k else k) (j', if j' = i then σ k' else k') a
      (hold j k a hjk) (hold j' k' a hjk')
    rw [Prod.mk.injEq] at he
    obtain ⟨rfl, he⟩ := he
    split_ifs at he with hj
    · subst hj
      simp only [Function.uncurry_apply_pair, update_self] at hjk hjk'
      rw [hσ k k' (by simp [hjk]) (by simp [hjk']) he]
    · rw [he]

/-- A temporary array is filled, then the old one is emptied, and the temporary takes its place. -/
theorem replace (hfill : Keeps l (fun _ => none) l1 g) (hempty : Keeps l1 f l2 fun _ => none) :
    Keeps l f l2 g := by
  intro ι _ P i hi hP
  -- the temporary is at `none`
  let P0 : Option ι → κ → Option ℕ := fun o => o.elim (fun _ => none) P
  let P2 := update (update P0 none g) (some i) fun _ => none
  have hP0 : Balanced l (Function.uncurry P0) := by
    rw [← Balanced.comp_iff (e := Prod.map some id)
      ((Option.some_injective ι).prodMap Function.injective_id)]
    · exact hP
    · rintro ⟨_ | j, k⟩ hne
      · exact absurd rfl hne
      · exact ⟨(j, k), rfl⟩
  have hP2 : Balanced l2 (Function.uncurry P2) := by
    refine hempty _ _ _ ?_ (hfill _ P0 none rfl hP0)
    exact hi
  let e : ι × κ → Option ι × κ := fun q => (if q.1 = i then none else some q.1, q.2)
  have he : Function.Injective e := by
    rintro ⟨j, k⟩ ⟨j', k'⟩ h
    simp only [e, Prod.mk.injEq] at h
    split_ifs at h with hj hj' hj'
    · rw [hj, hj', h.2]
    · cases h.1
    · cases h.1
    · rw [Option.some.inj h.1, h.2]
  have hcomp : Function.uncurry (update P i g) = Function.uncurry P2 ∘ e := by
    funext ⟨j, k⟩
    by_cases hj : j = i
    · simp [P2, e, hj]
    · simp [P2, P0, e, hj]
  rw [hcomp, Balanced.comp_iff he]
  · exact hP2
  · rintro ⟨_ | j, k⟩ hne
    · exact ⟨(i, k), by simp [e]⟩
    · have hj : j ≠ i := by
        rintro rfl
        exact hne (by simp [P2])
      exact ⟨(j, k), by simp [e, hj]⟩

variable [DecidableEq κ]

theorem uncurry_update {ι : Type} [DecidableEq ι] {P : ι → κ → Option ℕ} {i : ι} (hi : P i = f)
    (k : κ) (x : Option ℕ) : Function.uncurry (update P i (update f k x)) =
      update (Function.uncurry P) (i, k) x := by
  subst hi
  funext ⟨j, k'⟩
  by_cases hj : j = i
  · subst hj
    by_cases hk : k' = k
    · simp [Function.uncurry, hk]
    · simp [Function.uncurry, hk]
  · simp [Function.uncurry, hj]

theorem allocate (hk : f k = none) : Keeps l f l.allocate (update f k (some l.next)) := by
  intro ι _ P i hi hP
  rw [uncurry_update hi]
  apply hP.allocate
  simp [Function.uncurry, hi, hk]

theorem free (hk : f k = some a) : Keeps l f (l.free a) (update f k none) := by
  intro ι _ P i hi hP
  rw [uncurry_update hi]
  apply hP.free
  simp [Function.uncurry, hi, hk]

end Keeps

/-! ## Objects

An object under its name holds the allocations in its places.
-/

section Objects
variable {ι β : Type*} [DecidableEq ι] {place : β → κ → Option ℕ} {objs : ι → Option β} {i : ι}

def held (place : β → κ → Option ℕ) (objs : ι → Option β) (i : ι) : κ → Option ℕ :=
  (objs i).elim (fun _ => none) place

theorem held_update (x : Option β) :
    held place (update objs i x) = update (held place objs) i (x.elim (fun _ => none) place) := by
  funext k
  by_cases hk : k = i
  · simp [held, hk]
  · simp [held, hk]

theorem Balanced.held_swap (h : Balanced l (uncurry (held place objs))) (i j : ι) :
    Balanced l (uncurry (held place (update (update objs i (objs j)) j (objs i)))) := by
  have hcomp : uncurry (held place (update (update objs i (objs j)) j (objs i))) =
      uncurry (held place objs) ∘ Prod.map (Equiv.swap i j) id := by
    funext ⟨k, q⟩
    simp only [uncurry, held, comp_apply, Prod.map_apply, id_eq, update_apply, Equiv.swap_apply_def]
    split_ifs with hj hi hi
    · rw [← hi, hj]
    · rfl
    · rfl
    · rfl
  have hbij : Bijective (Prod.map (Equiv.swap i j) (id : κ → κ)) :=
    (Equiv.swap i j).bijective.prodMap bijective_id
  rw [hcomp, Balanced.comp_iff hbij.injective fun q _ => hbij.surjective q]
  exact h

end Objects

/-! ## Lost allocations

Allocations that nobody holds and nobody frees, written off as if they were freed.
-/

def writeOff (l : Ledger) (lost : List ℕ) : Ledger := { l with freed := lost ++ l.freed }

theorem writeOff_free (l : Ledger) (lost : List ℕ) (a : ℕ) :
    (l.writeOff lost).free a = (l.free a).writeOff lost := by
  simp [writeOff, free]

namespace Balanced
variable {lost : List ℕ}

theorem lose (h : Balanced (l.writeOff lost) p) : Balanced (l.allocate.writeOff (l.next :: lost)) p := by
  have hnew : l.next ∉ lost ++ l.freed := fun hmem => lt_irrefl _ (h.past _ hmem)
  constructor
  case live =>
    intro a
    rw [h.live a]
    simp only [Ledger.writeOff, Ledger.allocate, List.cons_append, List.mem_cons, not_or]
    constructor
    · rintro ⟨hlt, hmem⟩
      exact ⟨hlt.trans (Nat.lt_succ_self _), hlt.ne, hmem⟩
    · rintro ⟨hlt, hne, hmem⟩
      exact ⟨lt_of_le_of_ne (Nat.lt_succ_iff.mp hlt) hne, hmem⟩
  case inj => exact h.inj
  case once => exact List.nodup_cons.mpr ⟨hnew, h.once⟩
  case past =>
    intro a ha
    rcases List.mem_cons.mp ha with rfl | ha
    · exact Nat.lt_succ_self _
    · exact (h.past a ha).trans (Nat.lt_succ_self _)

theorem length_eq (h : Balanced (l.writeOff lost) p) (hnone : ∀ k, p k = none) :
    l.freed.Nodup ∧ l.next = l.freed.length + lost.length := by
  rcases h.accounts.count with ⟨n, hn, hnext⟩
  have hempty : {k | p k ≠ none} = ∅ := by
    ext k
    simp [hnone k]
  have hzero : (0 : ℕ∞) = n := by
    rw [← hn, hempty, Set.encard_empty]
  have hn0 : n = 0 := by exact_mod_cast hzero.symm
  refine ⟨(List.nodup_append.mp h.once).2.1, ?_⟩
  simp only [Ledger.writeOff, List.length_append] at hnext
  omega

end Balanced

/-- The array `f` becomes `f'` and `n` allocations get lost. -/
def Loses (n : ℕ) (l : Ledger) (f : κ → Option ℕ) (l' : Ledger) (f' : κ → Option ℕ) : Prop :=
  ∀ lost, ∃ more : List ℕ, more.length = n ∧
    Keeps (l.writeOff lost) f (l'.writeOff (more ++ lost)) f'

namespace Loses
variable {f g h : κ → Option ℕ} {m n : ℕ}

theorem refl : Loses 0 l f l f := fun _ => ⟨[], rfl, .refl⟩

theorem trans (h1 : Loses m l f l1 g) (h2 : Loses n l1 g l2 h) : Loses (m + n) l f l2 h := by
  intro lost
  rcases h1 lost with ⟨x, hx, hkeep1⟩
  rcases h2 (x ++ lost) with ⟨y, hy, hkeep2⟩
  rw [← List.append_assoc] at hkeep2
  exact ⟨y ++ x, by rw [List.length_append, hx, hy, Nat.add_comm], hkeep1.trans hkeep2⟩

theorem replace (hfill : Loses m l (fun _ => none) l1 g) (hempty : Loses n l1 f l2 fun _ => none) :
    Loses (m + n) l f l2 g := by
  intro lost
  rcases hfill lost with ⟨x, hx, hkeep1⟩
  rcases hempty (x ++ lost) with ⟨y, hy, hkeep2⟩
  rw [← List.append_assoc] at hkeep2
  exact ⟨y ++ x, by rw [List.length_append, hx, hy, Nat.add_comm], hkeep1.replace hkeep2⟩

theorem lost : Loses 1 l f l.allocate f := by
  intro lost
  refine ⟨[l.next], rfl, ?_⟩
  intro ι _ P i hi hP
  rw [update_eq_self_iff.mpr hi.symm]
  exact hP.lose

variable [DecidableEq κ]

theorem allocate (hk : f k = none) : Loses 0 l f l.allocate (update f k (some l.next)) :=
  fun lost => ⟨[], rfl, @Keeps.allocate _ (l.writeOff lost) _ _ _ hk⟩

theorem free (hk : f k = some a) : Loses 0 l f (l.free a) (update f k none) := by
  intro lost
  refine ⟨[], rfl, ?_⟩
  have hkeep := @Keeps.free _ (l.writeOff lost) _ _ _ _ hk
  rwa [writeOff_free] at hkeep

end Loses

end Ledger

end HmmOS.Lib
