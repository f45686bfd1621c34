import HmmOS.Sched.Placement
import Mathlib.Data.Set.Card

/-! # Thread IDs

The counter of `assign_next_tid` has 16 bits and wraps. As long as the threads do
not use up all IDs, the loop comes to a free one, and no two live threads ever
share one.
-/
namespace HmmOS.Sched
open Lib

def Scheduler.live (s : Scheduler) : Set ℕ := {a | s.threads a ≠ none}

/-- What an ID is to a new thread: not the reserved one, and not that of a live thread. -/
def Scheduler.FreeTid (s : Scheduler) (tid : ℕ) : Prop :=
  tid < 2 ^ 16 ∧ tid ≠ invalidTID ∧ ∀ b u, s.threads b = some u → u.tid ≠ tid

section Ids
variable {s : Scheduler} {rs : List ℕ} {threads : ℕ → Option KernelThread} {m : TidMap}

/-- The map has at most one entry for each live thread, and the dummy. -/
theorem tidMap_length_le (h : TidsOk threads m) (hfin : {a | threads a ≠ none}.Finite) :
    m.keys.length ≤ {a | threads a ≠ none}.ncard + 1 := by
  have hsub : {tid | tid ∈ m.keys} ⊆
      insert invalidTID ((fun a => ((threads a).map KernelThread.tid).getD 0) '' {a | threads a ≠ none}) := by
    intro tid htid
    rcases Option.isSome_iff_exists.mp (AList.lookup_isSome.mpr htid) with ⟨x, hx⟩
    cases x with
    | none => exact .inl (h.dummy.mp hx)
    | some a =>
      rcases h.thread.mp hx with ⟨t, ht, rfl⟩
      refine .inr ⟨a, ?_, ?_⟩
      · rw [Set.mem_ofPred_eq, ht]
        exact Option.some_ne_none t
      · simp [ht]
  calc m.keys.length = m.keys.toFinset.card := (List.toFinset_card_of_nodup m.keys_nodup).symm
    _ = {tid | tid ∈ m.keys}.ncard := by
      rw [← Set.ncard_coe_finset]
      congr 1
      ext tid
      simp
    _ ≤ _ := Set.ncard_le_ncard hsub ((hfin.image _).insert _)
    _ ≤ _ := Set.ncard_insert_le _ _
    _ ≤ _ := Nat.add_le_add_right (Set.ncard_image_le hfin) 1

theorem Placed.live_finite (h : Placed s rs) : s.live.Finite := by
  apply (s.running.toList ++ rs).toFinset.finite_toSet.subset
  intro a ha
  simpa using (h.live a).mp ha

/-- The IDs of live threads are distinct. With fewer than 65534 live threads `assign_next_tid` ends and
gives a free ID. -/
theorem assignNextTid_free (h : Reach s) :
    (∀ a b t u, s.threads a = some t → s.threads b = some u → t.tid = u.tid → a = b) ∧
    (∀ a t, s.threads a = some t → t.tid ≠ invalidTID) ∧
    (s.live.ncard < 65534 → ∀ a memory running, s.threads a = none →
      ∃ s' t, Scheduler.assignNextTid { s.newKernelThread a memory with running := running } a =
          some s' ∧ s'.threads a = some t ∧ s.FreeTid t.tid) := by
  rcases h.settled with ⟨rs, hs⟩
  have hvalid : ∀ a t, s.threads a = some t → t.tid ≠ invalidTID := by
    intro a t ha hinv
    have hlook := hs.tids.thread.mpr ⟨t, ha, rfl⟩
    rw [hs.tids.dummy.mpr hinv] at hlook
    cases hlook
  refine ⟨?_, hvalid, ?_⟩
  · intro a b t u ha hb htid
    have hlook := hs.tids.thread.mpr ⟨t, ha, rfl⟩
    rw [hs.tids.thread.mpr ⟨u, hb, htid.symm⟩] at hlook
    exact (Option.some.inj (Option.some.inj hlook)).symm
  · intro hlive a memory running hfresh
    have hlen : s.tidMap.keys.length ≤ s.live.ncard + 1 := tidMap_length_le hs.tids hs.live_finite
    obtain ⟨tid, counter, htid, hlt, -, hassign⟩ :=
      hs.toPlaced.assignNextTid hfresh (by omega) memory running
    refine ⟨_, _, hassign, Function.update_self _ _ _, hlt, ?_, ?_⟩
    · rintro rfl
      exact htid (AList.lookup_isSome.mp (by rw [hs.tids.dummy.mpr rfl]; rfl))
    · intro b u hb hu
      have hlook := hs.tids.thread.mpr ⟨u, hb, rfl⟩
      rw [hu] at hlook
      exact htid (AList.lookup_isSome.mp (by rw [hlook]; rfl))

/-- A second thread beside the first one. -/
theorem assignNextTid_bootstrapped :
    ∃ s s' t, Call.run Scheduler.construct (.bootstrap (some 0x1000) ⟨0, true, 0, none⟩) = some s ∧
      Scheduler.assignNextTid (s.newKernelThread 0x5000 ⟨0, true, 0, none⟩) 0x5000 = some s' ∧
      s'.threads 0x5000 = some t ∧ s.FreeTid t.tid := by
  obtain ⟨s, tid, t, hboot, -, -, -, hthreads, -⟩ :=
    placed_construct.bootstrap (a := 0x1000) rfl rfl (by decide) ⟨0, true, 0, none⟩
  have hrun : Call.run Scheduler.construct (.bootstrap (some 0x1000) ⟨0, true, 0, none⟩) = some s := by
    rw [Call.run, hboot]
    rfl
  have hlive : s.live ⊆ {0x1000} := by
    intro a ha
    by_contra hne
    apply ha
    rw [hthreads, Function.update_of_ne hne]
    rfl
  have hcard := Set.ncard_le_ncard hlive (Set.finite_singleton _)
  rw [Set.ncard_singleton] at hcard
  have hfresh : s.threads 0x5000 = none := by
    rw [hthreads, Function.update_of_ne (by decide)]
    rfl
  have hfirst : Call.Fresh Scheduler.construct (.bootstrap (some 0x1000) ⟨0, true, 0, none⟩) :=
    fun _ _ => rfl
  have hreach : Reach s := .call .construct hfirst hrun
  obtain ⟨s', t', hassign, ht', hfree⟩ := (assignNextTid_free hreach).2.2 (by omega) 0x5000
    ⟨0, true, 0, none⟩ s.running hfresh
  exact ⟨s, s', t', hrun, hassign, ht', hfree⟩

end Ids

end HmmOS.Sched
