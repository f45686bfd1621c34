import HmmOS.Nonstd.ListRefinement

/-! # Splicing within a list

The swaps of `splice_impl` also move a range within one list. At an end of the range
two of the swapped fields are the same one, and the range is cut out of the list.
-/
namespace HmmOS.Nonstd
open Lib.Ring
variable {α : Type*}

/-- The elements `ms` are put before position `pos` of a list with the elements `rest`. -/
def putBefore (pos : ℕ) (ms rest : List ℕ) : List ℕ :=
  rest.takeWhile (· ≠ pos) ++ (ms ++ rest.dropWhile (· ≠ pos))

/-- The range with the elements `ms` is moved before `pos`. Before `first` means before `last`: it is
there already. -/
def MovesTo (h h' : Heap α) (l pos first last : ℕ) (ms rest : List ℕ) : Prop :=
  h'.val = h.val ∧ IsList h' l (putBefore (if pos = first then last else pos) ms rest)

section Positions
variable {l pos : ℕ} {ms rest us zs : List ℕ}

theorem mem_putBefore {a : ℕ} : a ∈ putBefore pos ms rest ↔ a ∈ ms ∨ a ∈ rest := by
  have hsplit := List.takeWhile_append_dropWhile (p := fun x => decide (x ≠ pos)) (l := rest)
  rw [putBefore]
  conv_rhs => rw [← hsplit]
  simp only [List.mem_append]
  tauto

theorem putBefore_last (hnd : (l :: (us ++ zs)).Nodup) :
    putBefore (zs.headD l) ms (us ++ zs) = us ++ (ms ++ zs) := by
  have hu : ∀ a ∈ us, a ≠ zs.headD l := by
    intro a ha he
    have hm := headD_mem zs l
    grind
  have hz : zs.takeWhile (· ≠ zs.headD l) = [] ∧ zs.dropWhile (· ≠ zs.headD l) = zs := by
    cases zs <;> simp
  rw [putBefore, List.takeWhile_append_of_pos (by simpa using hu),
    List.dropWhile_append_of_pos (by simpa using hu), hz.1, hz.2, List.append_nil]

end Positions

section Splice
variable {h : Heap α} {l pos first last n : ℕ} {us ms zs : List ℕ}

theorem spliceImpl_self_size : (h.spliceImpl l pos l first last n).size = h.size := by
  funext a
  by_cases ha : a = l <;> simp [Heap.spliceImpl, Heap.swapPrev, Heap.swapNext, ha]

theorem spliceImpl_end_links (hf : h.links.next (h.links.prev first) = first)
    (hl : h.links.next (h.links.prev last) = last) (hfl : first ≠ last) (hend : pos = first ∨ pos = last) :
    (h.spliceImpl l pos l first last n).links =
      (h.links.join (h.links.prev first) last).join (h.links.prev last) first := by
  simp only [Heap.spliceImpl, Heap.swapPrev, Heap.swapNext]
  ext a
  · simp only [Heap.setSize_links, Heap.setPrev_links_next, Heap.setNext_links_next, Links.join,
      Function.update_apply]
    grind
  · simp only [Heap.setSize_links, Heap.setPrev_links_prev, Heap.setNext_links_prev, Links.join,
      Function.update_apply]
    grind

section
variable (hl : IsList h l (us ++ first :: (ms ++ zs)))
include hl

theorem range_not_mem : ∀ a ∈ first :: ms, a ∉ l :: (us ++ zs) := by
  have hnd := hl.ring.nodup
  intro a ha hm
  grind

theorem cut_isRing (hlast : last = zs.headD l) :
    IsRing (h.links.join (h.links.prev first) last) l (us ++ zs) := by
  rw [hl.ring.prev_of_mem, hlast]
  exact IsRing.erase_run (first :: ms) hl.ring

theorem prev_last (hlast : last = zs.headD l) : h.links.prev last = ms.getLastD first :=
  hlast ▸ (seg_append.mp (seg_append_cons.mp hl.ring.seg).2).1.prev_eq

end

theorem last_mem (hlast : last = zs.headD l) : last ∈ l :: (us ++ zs) :=
  hlast ▸ headD_mem_append us zs l

theorem rest_mem {a : ℕ} (ha : a ∈ l :: (us ++ zs)) : a ∈ l :: (us ++ first :: (ms ++ zs)) := by
  simp only [List.mem_cons, List.mem_append] at ha ⊢
  tauto

/-- A range that is moved to one of its ends is cut out of the list. -/
theorem spliceImpl_end_isRing (hl : IsList h l (us ++ first :: (ms ++ zs))) (hlast : last = zs.headD l)
    (hend : pos = first ∨ pos = last) : IsRing (h.spliceImpl l pos l first last n).links l (us ++ zs) := by
  have hfirst := range_not_mem hl first List.mem_cons_self
  have hlastm : last ∈ l :: (us ++ zs) := last_mem hlast
  have hfl : first ≠ last := fun he => hfirst (he ▸ hlastm)
  rw [spliceImpl_end_links (hl.ring.next_prev (by simp)) (hl.ring.next_prev (rest_mem hlastm)) hfl hend]
  apply (cut_isRing hl hlast).join_off _ hfirst
  rw [prev_last hl hlast]
  exact range_not_mem hl _ (getLastD_mem ms first)

theorem spliceImpl_away_isRing (hl : IsList h l (us ++ first :: (ms ++ zs))) (hlast : last = zs.headD l)
    (hpos : pos ∈ l :: (us ++ zs)) (hne : pos ≠ last) :
    IsRing (h.spliceImpl l pos l first last n).links l (putBefore pos (first :: ms) (us ++ zs)) := by
  have hfirst := range_not_mem hl first List.mem_cons_self
  have hlastm : last ∈ l :: (us ++ zs) := last_mem hlast
  have hcut := cut_isRing hl hlast
  have hnd : (first :: ms).Nodup := by
    have hnd := hl.ring.nodup
    simp only [List.nodup_cons, List.nodup_append, List.mem_append, List.mem_cons] at hnd ⊢
    tauto
  have hpf : pos ≠ first := fun he => hfirst (he ▸ hpos)
  have hfl : first ≠ last := fun he => hfirst (he ▸ hlastm)
  rw [spliceImpl_links (hl.ring.next_prev (rest_mem hpos)) (hl.ring.next_prev (by simp))
    (hl.ring.next_prev (rest_mem hlastm)) hpf hne hfl, prev_last hl hlast]
  -- the range from its first element to `pos`
  have hseg : Seg ((h.links.join (h.links.prev first) last).join (ms.getLastD first) pos) first ms pos := by
    have hrun := range_not_mem hl
    have hold := (seg_append.mp (seg_append_cons.mp hl.ring.seg).2).1
    apply (hold.join_end hnd fun hm => hrun pos (List.mem_cons_of_mem _ hm) hpos).join_under
    · intro hm
      exact hrun _ hm (hl.ring.prev_of_mem ▸ getLastD_mem_append us zs l)
    · intro hm
      rcases List.mem_cons.mp hm with he | hm
      · exact hne he.symm
      · exact hrun last (List.mem_cons_of_mem _ hm) hlastm
  -- the two parts of the rest of the list
  have hhead := headD_dropWhile hcut.not_mem hpos
  rw [← List.takeWhile_append_dropWhile (p := fun x => decide (x ≠ pos)) (l := us ++ zs)] at hcut
  have hprev := hcut.prev_at
  rw [hhead, join_prev_of_ne hne] at hprev
  have hins := hcut.insert_run (m := first) (by rwa [hhead]) hnd
    (by rw [List.takeWhile_append_dropWhile]; exact range_not_mem hl)
  rw [hhead, ← hprev] at hins
  exact hins

theorem spliceImpl_self_isList {xs ys : List ℕ} (hl : IsList h l xs)
    (hring : IsRing (h.spliceImpl l pos l first last n).links l ys) (hperm : ys.Perm xs) :
    IsList (h.spliceImpl l pos l first last n) l ys := by
  refine ⟨hring, ?_, ?_⟩
  · rw [spliceImpl_self_size, hl.size, hperm.length_eq]
  · intro a ha
    exact hl.fresh a ((hperm.cons l).mem_iff.mp ha)

theorem putBefore_perm {rest : List ℕ} : (putBefore pos ms rest).Perm (ms ++ rest) := by
  have hsplit := List.takeWhile_append_dropWhile (p := fun x => decide (x ≠ pos)) (l := rest)
  conv_rhs => rw [← hsplit]
  exact List.perm_append_comm_assoc _ _ _

/-- `splice_impl` within a list moves the range, unless it is not empty and the position is one of its
ends. -/
theorem spliceImpl_self_iff (hl : IsList h l (us ++ (ms ++ zs))) (hfirst : first = (ms ++ zs).headD l)
    (hlast : last = zs.headD l) (hpos : pos ∈ l :: (us ++ zs) ∨ pos = first) :
    MovesTo h (h.spliceImpl l pos l first last n) l pos first last ms (us ++ zs) ↔
      ms = [] ∨ (pos ≠ first ∧ pos ≠ last) := by
  cases ms with
  | nil =>
    obtain rfl : first = last := hfirst.trans hlast.symm
    refine iff_of_true ⟨rfl, ?_⟩ (.inl rfl)
    rw [putBefore, List.nil_append, List.takeWhile_append_dropWhile]
    exact spliceImpl_self_isList hl (by rw [spliceImpl_nil_links]; exact hl.ring) (List.Perm.refl _)
  | cons m ms =>
    obtain rfl : first = m := hfirst
    constructor
    · rintro ⟨-, hmoved⟩
      right
      by_contra hend
      have hend' : pos = first ∨ pos = last := by tauto
      have hm : first ∈ l :: putBefore (if pos = first then last else pos) (first :: ms) (us ++ zs) :=
        List.mem_cons_of_mem l (mem_putBefore.mpr (.inl List.mem_cons_self))
      exact range_not_mem hl first List.mem_cons_self
        (hmoved.ring.subset (spliceImpl_end_isRing hl hlast hend') hm)
    · rintro (hnil | ⟨hpf, hpl⟩)
      · cases hnil
      · refine ⟨rfl, ?_⟩
        rw [if_neg hpf]
        apply spliceImpl_self_isList hl
        · exact spliceImpl_away_isRing hl hlast (hpos.resolve_right hpf) hpl
        · exact putBefore_perm.trans (List.perm_append_comm_assoc _ _ _)

/-- Before its first or last position, a range is where it was. -/
theorem putBefore_end (hl : IsList h l (us ++ (ms ++ zs))) (hlast : last = zs.headD l)
    (hend : pos = first ∨ pos = last) :
    putBefore (if pos = first then last else pos) ms (us ++ zs) = us ++ (ms ++ zs) := by
  have hnd : (l :: (us ++ zs)).Nodup := by
    have hnd := hl.ring.nodup
    grind
  have htarget : (if pos = first then last else pos) = zs.headD l := by
    split_ifs with h
    · exact hlast
    · exact (hend.resolve_left h).trans hlast
  rw [htarget, putBefore_last hnd]

/-- Splicing within a list moves the range before `pos`, unless there is something to move and `pos` is
an end of it. -/
theorem splice_self_iff (hl : IsList h l (us ++ (ms ++ zs))) (hfirst : first = (ms ++ zs).headD l)
    (hlast : last = zs.headD l) (hpos : pos ∈ l :: (us ++ zs) ∨ pos = first) :
    ((∃ h', h.spliceRange l pos l first last = some h' ∧
        MovesTo h h' l pos first last ms (us ++ zs)) ↔
      ms = [] ∨ (pos ≠ first ∧ pos ≠ last)) ∧
    (∀ it, ms = [it] →
      (MovesTo h (h.splice l pos l it) l pos it (h.links.next it) [it] (us ++ zs) ↔
        pos ≠ it ∧ pos ≠ h.links.next it)) ∧
    (pos = first ∨ pos = last →
      putBefore (if pos = first then last else pos) ms (us ++ zs) = us ++ (ms ++ zs)) := by
  refine ⟨?_, ?_, putBefore_end hl hlast⟩
  · have hfuel : ms.length ≤ h.size l := by
      rw [hl.size]
      simp only [List.length_append]
      omega
    have hdist := hl.distance hfuel
    rw [← hfirst, ← hlast] at hdist
    simp only [Heap.spliceRange, hdist, Option.map_some, Option.some.injEq, exists_eq_left']
    exact spliceImpl_self_iff hl hfirst hlast hpos
  · rintro it rfl
    obtain rfl : it = first := hfirst.symm
    have hnext : h.links.next it = last := hlast ▸ hl.ring.next_of_mem
    rw [Heap.splice, hnext, spliceImpl_self_iff hl hfirst hlast hpos]
    simp

end Splice

def twoElements : Heap ℕ := (noLists.constructList.1.pushBack 0 7).pushBack 0 8

theorem twoElements_isList : IsList twoElements 0 [1, 2] := by
  have hnil : IsList noLists.constructList.1 0 ([] ++ []) := constructList_isList noLists
  have hone : IsList (noLists.constructList.1.pushBack 0 7) 0 ([1] ++ []) := emplace_isList hnil rfl
  exact emplace_isList hone rfl

/-- The first element is moved to the end. -/
theorem splice_self_twoElements :
    ∃ h', twoElements.spliceRange 0 0 0 1 2 = some h' ∧ MovesTo twoElements h' 0 0 1 2 [1] [2] := by
  have hl : IsList twoElements 0 ([] ++ ([1] ++ [2])) := twoElements_isList
  have hpos : 0 ∈ 0 :: ([] ++ [2]) ∨ 0 = 1 := .inl (by decide)
  have hiff := splice_self_iff hl rfl rfl hpos
  exact hiff.1.mpr (.inr ⟨by decide, by decide⟩)

/-- The first element is moved before itself, and is lost. -/
theorem splice_self_loses :
    IsList twoElements 0 [1, 2] ∧ ¬ MovesTo twoElements (twoElements.splice 0 1 0 1) 0 1 1 2 [1] [2] ∧
      (twoElements.splice 0 1 0 1).forward 0 3 ((twoElements.splice 0 1 0 1).begin 0) =
        some [(2, 8)] := by
  refine ⟨twoElements_isList, ?_, by decide⟩
  intro hmoves
  have hl : IsList twoElements 0 ([] ++ ([1] ++ [2])) := twoElements_isList
  have hiff := spliceImpl_self_iff (n := 1) hl rfl rfl (.inr rfl)
  simpa using hiff.mp hmoves

end HmmOS.Nonstd
