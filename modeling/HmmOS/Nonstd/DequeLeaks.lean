import HmmOS.Nonstd.DequeRefinement

/-! # Blocks that no deque holds

Every block that was allocated and not freed is in the array of one deque, until a
`push_front` puts a new first block where the array still has one.
-/
namespace HmmOS.Nonstd
open Lib Function DequeOp

variable {α : Type*}

section
variable {E : ℕ} {st : Deques α} {S : Sequences α}

theorem Deques.Balanced.all_freed (h : st.Balanced) (hnone : ∀ i, st.deques i = none) {a : ℕ}
    (ha : a < st.ledger.next) : a ∈ st.ledger.freed := by
  by_contra hmem
  rcases (h.live a).mpr ⟨ha, hmem⟩ with ⟨⟨i, k⟩, hk⟩
  rw [uncurry_apply_pair, Ledger.held, hnone i] at hk
  cases hk

/-- Each operation returns, and the blocks stay accounted for unless it overwrites a pointer. -/
theorem Holds.run_iff (h : Holds E st S) (hbal : st.Balanced) (hE : 1 < E) (hE' : E ≤ 512) {op : DequeOp α}
    (hv : op.Valid S) (hfits : op.Fits E st) : ∃ st', op.run E st = some st' ∧ Holds E st' (op.apply S) ∧
      (st'.ledger.Accounts st'.slots ↔ ¬ op.Overwrites E st) := by
  rcases h.run hE hE' hv hfits with ⟨st', hrun, h', hkeep, hlost⟩
  refine ⟨st', hrun, h', ?_⟩
  by_cases hover : op.Overwrites E st
  · exact iff_of_false (hlost hover hbal) (not_not.mpr hover)
  · exact iff_of_true (hkeep hover hbal).accounts hover

end

/-- Operations that overwrite no block pointer, on deques and sequences together. -/
def TrackReach (E : ℕ) (c c' : Deques α × Sequences α) : Prop :=
  Relation.ReflTransGen (fun c c' => ∃ op : DequeOp α, op.Valid c.2 ∧ op.Fits E c.1 ∧
    ¬ op.Overwrites E c.1 ∧ op.run E c.1 = some c'.1 ∧ c'.2 = op.apply c.2) c c'

theorem TrackReach.run {E : ℕ} {c c' : Deques α × Sequences α} (hE : 1 < E) (hE' : E ≤ 512)
    (h : c.1.Balanced ∧ Holds E c.1 c.2) (hreach : TrackReach E c c') :
    c'.1.Balanced ∧ Holds E c'.1 c'.2 := by
  induction hreach with
  | refl => exact h
  | tail _ hstep ih =>
    rcases hstep with ⟨op, hv, hfits, hfree, hrun, happ⟩
    rcases ih.2.run hE hE' hv hfits with ⟨st', hst', hS, hkeep, -⟩
    obtain rfl := Option.some.inj (hst'.symm.trans hrun)
    rw [happ]
    exact ⟨hkeep hfree ih.1, hS⟩

theorem TrackReach.keeps {E : ℕ} {st : Deques α} {S : Sequences α} (hE : 1 < E)
    (hE' : E ≤ 512) (hreach : TrackReach E (.empty, fun _ => none) (st, S)) :
    st.Balanced ∧ Holds E st S := by
  have hempty : (Deques.empty : Deques α).Balanced := Ledger.Balanced.empty
  exact hreach.run hE hE' ⟨hempty, fun _ => .none⟩

/-- The block arrays hold the blocks that are not freed. The next operation keeps that exactly if it does
not put a new first block where the array still has one. -/
theorem trackReach_accounts_iff {sz : ℕ} (hsz : 0 < sz) {st : Deques α} {S : Sequences α}
    (hreach : TrackReach (elemsPerBlock sz) (.empty, fun _ => none) (st, S)) :
    st.ledger.Accounts st.slots ∧
      ((∀ i, st.deques i = none) → ∀ a < st.ledger.next, a ∈ st.ledger.freed) ∧
      ∀ op : DequeOp α, op.Valid S → op.Fits (elemsPerBlock sz) st →
        ∃ st', op.run (elemsPerBlock sz) st = some st' ∧
          (st'.ledger.Accounts st'.slots ↔ ¬ op.Overwrites (elemsPerBlock sz) st) := by
  rcases elemsPerBlock_bounds hsz with ⟨hE, hE'⟩
  rcases hreach.keeps hE hE' with ⟨hbal, hS⟩
  refine ⟨hbal.accounts, fun hnone a => hbal.all_freed hnone, fun op hv hfits => ?_⟩
  rcases hS.run_iff hbal hE hE' hv hfits with ⟨st', hrun, -, hiff⟩
  exact ⟨st', hrun, hiff⟩

/-- A deque of elements of 32 bytes, whose sixteen blocks were filled and of which the last one is
empty again. -/
def fullDeque : Deques ℕ :=
  ((DequeOp.resize 0 256 5).run (elemsPerBlock 32)
    (Deques.empty.store 0 (.construct .empty))).get (by decide +kernel)

def shrunkDeque : Deques ℕ :=
  ((DequeOp.resize 0 240 5).run (elemsPerBlock 32) fullDeque).get (by decide +kernel)

def shrunkSequence : Sequences ℕ :=
  (DequeOp.resize 0 240 5).apply ((DequeOp.resize 0 256 5).apply ((DequeOp.construct 0).apply fun _ => none))

theorem trackReach_shrunkDeque :
    TrackReach (elemsPerBlock 32) (.empty, fun _ => none) (shrunkDeque, shrunkSequence) := by
  have h0 : TrackReach (elemsPerBlock 32) (.empty, fun _ => none)
      (Deques.empty.store 0 (.construct .empty), (construct 0 : DequeOp ℕ).apply fun _ => none) :=
    .single ⟨.construct 0, rfl, trivial, id, rfl, rfl⟩
  have h1 : TrackReach (elemsPerBlock 32) (.empty, fun _ => none) (fullDeque,
      (resize 0 256 5).apply ((construct 0).apply fun _ => none)) := by
    apply h0.tail
    refine ⟨.resize 0 256 5, show _ ≠ _ by decide, ?_, id, ?_, rfl⟩
    · intro d hd
      rw [← Option.some.inj hd]
      decide
    · dsimp only
      rw [fullDeque, Option.some_get]
  apply h1.tail
  refine ⟨.resize 0 240 5, show _ ≠ _ by decide +kernel, ?_, id, ?_, rfl⟩
  · intro d hd
    have hstart : (fullDeque.deques 0).map Deque.startIdx = some 0 := by decide +kernel
    dsimp only at hd
    rw [hd, Option.map_some] at hstart
    rw [Option.some.inj hstart]
    decide
  · dsimp only
    rw [shrunkDeque, Option.some_get]

theorem trackReach_accounts_iff_shrunkDeque :
    shrunkDeque.ledger.Accounts shrunkDeque.slots ∧ shrunkDeque.ledger.next = 16 :=
  ⟨(trackReach_accounts_iff (by decide) trackReach_shrunkDeque).1, by decide +kernel⟩

/-- A `push_front` allocates a new first block in the place of the empty last one. Sixteen of the
seventeen blocks are freed with the deque. -/
theorem shrunkDeque_leaks : ∃ st st' : Deques ℕ,
    (DequeOp.pushFront 0 7).run (elemsPerBlock 32) shrunkDeque = some st ∧
      ¬ st.ledger.Accounts st.slots ∧
      (DequeOp.destroy 0).run (elemsPerBlock 32) st = some st' ∧
      (∀ i, st'.deques i = none) ∧ st'.ledger.next = 17 ∧ st'.ledger.freed.length = 16 := by
  rcases elemsPerBlock_bounds (by decide : 0 < 32) with ⟨hE, hE'⟩
  rcases trackReach_shrunkDeque.keeps hE hE' with ⟨hbal, hS⟩
  have hfields : (shrunkDeque.deques 0).map (fun d => (d.size, d.startIdx, d.blockCount,
      (d.blocks ((d.startBlock + d.blockCount - 1) % d.blockCount)).isSome)) =
      some (240, 0, 16, true) := by decide +kernel
  rcases Option.map_eq_some_iff.mp hfields with ⟨d, hd, hfields⟩
  simp only [Prod.mk.injEq] at hfields
  rcases hfields with ⟨hsize, hstart, hcount, hblock⟩
  have hE16 : elemsPerBlock 32 = 16 := by decide
  have htaken : d.FrontTaken (elemsPerBlock 32) := by
    refine ⟨by omega, hstart, ?_, Option.isSome_iff_ne_none.mp hblock⟩
    rw [hsize, hcount, hE16]
  have hfits : (DequeOp.pushFront 0 7).Fits (elemsPerBlock 32) shrunkDeque := by
    intro d' hd'
    rw [← Option.some.inj (hd.symm.trans hd'), Deque.frontEnd, hsize, hstart, hE16]
    decide
  have hv : (DequeOp.pushFront 0 7).Valid shrunkSequence := show _ ≠ _ by decide +kernel
  rcases hS.run_iff hbal hE hE' hv hfits with ⟨st, hst, hS', hiff⟩
  have hlost : ¬ st.ledger.Accounts st.slots := fun h => hiff.mp h ⟨d, hd, htaken⟩
  have hcounts : (((DequeOp.pushFront 0 7).run (elemsPerBlock 32) shrunkDeque).bind
      ((DequeOp.destroy 0).run (elemsPerBlock 32))).map
        (fun st => (st.ledger.next, st.ledger.freed.length)) = some (17, 16) := by decide +kernel
  rw [hst, Option.bind_some] at hcounts
  rcases Option.map_eq_some_iff.mp hcounts with ⟨st', hst', hcounts⟩
  rw [Prod.mk.injEq] at hcounts
  refine ⟨st, st', hst, hlost, hst', fun i => ?_, hcounts.1, hcounts.2⟩
  rcases Option.bind_eq_some_iff.mp hst' with ⟨_, -, hdestroy⟩
  rcases Option.map_eq_some_iff.mp hdestroy with ⟨l, -, rfl⟩
  by_cases hi : i = 0
  · simp [hi]
  · simp only [update_of_ne hi]
    apply hS'.eq_none
    have hnew : (DequeOp.construct 0 : DequeOp ℕ).apply (fun _ => none) i = none := by
      rw [DequeOp.apply, update_of_ne hi]
    have hother : ∀ {x : Sequences ℕ} {f : List ℕ → List ℕ}, x.modify 0 f i = x i :=
      update_of_ne hi _ _
    exact hother.trans (hother.trans (hother.trans hnew))

end HmmOS.Nonstd
