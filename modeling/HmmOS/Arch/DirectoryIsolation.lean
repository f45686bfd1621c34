import Mathlib
import HmmOS.Arch.CloneDirectory

/-! # A cloned directory is isolated from its original

Each directory owns the page it lies in and the pages of its tables. A call writes
only to pages that the current directory owns or that are new.
-/
namespace HmmOS.Arch.PageTable
open Lib Util.Algorithm Function

/-- The page of a directory and those of its tables are among `pages`, and no table is the directory
itself. -/
structure Owns (mem : PtMem) (cr3 : ℕ) (pages : Set ℕ) : Prop where
  dir : pdOf cr3 ∈ pages
  table : ∀ i < directoryTableEntries, (mem (pdOf cr3) i).p → ¬ (mem (pdOf cr3) i).ps →
    (mem (pdOf cr3) i).tablePage ∈ pages ∧ (mem (pdOf cr3) i).tablePage ≠ pdOf cr3

section Owns
variable {mem mem' : PtMem} {cr3 virt : ℕ} {pages used : Set ℕ} {ok : Bool}

theorem Owns.congr (ho : Owns mem cr3 pages) (h : mem' (pdOf cr3) = mem (pdOf cr3)) : Owns mem' cr3 pages where
  dir := ho.dir
  table := by
    rw [h]
    exact ho.table

/-- What a directory means depends only on the pages that it owns. -/
theorem Owns.translate_congr (ho : Owns mem cr3 pages) (h : ∀ q ∈ pages, mem' q = mem q) :
    translate mem' cr3 virt = translate mem cr3 virt := by
  rw [translate, translate, h _ ho.dir]
  by_cases hv : virt < 2 ^ 32
  · rw [if_pos hv, if_pos hv]
    dsimp only
    cases hp : (mem (pdOf cr3) (pdIdx virt)).p with
    | false => rw [Entry.translateWith_absent hp, Entry.translateWith_absent hp]
    | true =>
      cases hs : (mem (pdOf cr3) (pdIdx virt)).ps with
      | false => rw [h _ (ho.table _ (pdIdx_lt hv) hp (by simp [hs])).1]
      | true => exact Entry.translateWith_huge hs _ _ _
  · rw [if_neg hv, if_neg hv]

structure Confined (mem mem' : PtMem) (cr3 : ℕ) (pages : Set ℕ) : Prop where
  owns : Owns mem' cr3 pages
  frame : ∀ q ∉ pages, mem' q = mem q

theorem Owns.stays (ho : Owns mem cr3 pages) : Confined mem mem cr3 pages := ⟨ho, fun _ _ => rfl⟩

theorem Owns.set (ho : Owns mem cr3 pages) {pt slot : ℕ} (hpt : pt ∈ pages) (hne : pt ≠ pdOf cr3)
    (e : Entry) : Confined mem (mem.set pt slot e) cr3 pages where
  owns := ho.congr (set_dir hne)
  frame := by
    intro q hq
    have hqpt : q ≠ pt := by
      rintro rfl
      exact hq hpt
    exact update_of_ne hqpt _ _

theorem Owns.mapEntry (ho : Owns mem cr3 pages) (hv : virt < 2 ^ 32)
    (hp : (mem (pdOf cr3) (pdIdx virt)).p) (hs : ¬ (mem (pdOf cr3) (pdIdx virt)).ps) {phys : ℕ}
    {us rw uncacheable : Bool} (h : mapEntry mem (pdOf cr3) phys virt us rw uncacheable = some (mem', ok)) :
    Confined mem mem' cr3 pages := by
  obtain ⟨pt, hpt, hr⟩ := Option.map_eq_some_iff.mp h
  obtain ⟨hmem, hne⟩ := ho.table _ (pdIdx_lt hv) hp hs
  rw [← tablePage_of_directToHhdm hpt] at hmem hne
  split_ifs at hr with hpte
  · cases hr
    exact ho.stays
  · cases hr
    exact ho.set hmem hne _

theorem Owns.newTable (ho : Owns mem cr3 pages) {i page : ℕ} (hf : FreshPage used page)
    (hsub : pages ⊆ used) (h : newTable mem (pdOf cr3) i page = some mem') :
    Confined mem mem' cr3 (insert page pages) ∧ (mem' (pdOf cr3) i).p = true ∧
      (mem' (pdOf cr3) i).ps = false := by
  rw [PageTable.newTable, hf.hhdmToDirect_eq, Option.map_some, Option.some.injEq] at h
  have hpd : page ≠ pdOf cr3 := fun he => hf.unused (hsub (he ▸ ho.dir))
  have hnew : mem' (pdOf cr3) i =
      { p := true, rw := true, us := true, addr := ((page - hhdmStart) >>> pgSzBits) % 2 ^ 20 } := by
    rw [← h, PtMem.set, update_self, update_self]
  have hold : ∀ j ≠ i, mem' (pdOf cr3) j = mem (pdOf cr3) j := by
    intro j hj
    rw [← h, PtMem.set, update_self, update_of_ne hj, PtMem.clear, update_of_ne hpd.symm]
  refine ⟨⟨⟨Set.mem_insert_of_mem _ ho.dir, ?_⟩, ?_⟩, by rw [hnew], by rw [hnew]⟩
  · intro j hj hp hs
    by_cases hji : j = i
    · have htable : (mem' (pdOf cr3) j).tablePage = page := by
        rw [hji, hnew]
        exact hf.tablePage_eq rfl
      rw [htable]
      exact ⟨Set.mem_insert _ _, hpd⟩
    · rw [hold j hji] at hp hs ⊢
      obtain ⟨hmem, hne⟩ := ho.table j hj hp hs
      exact ⟨Set.mem_insert_of_mem _ hmem, hne⟩
  · intro q hq
    have hqpage : q ≠ page := fun he => hq (he ▸ Set.mem_insert _ _)
    have hqpd : q ≠ pdOf cr3 := fun he => hq (he ▸ Set.mem_insert_of_mem _ ho.dir)
    rw [← h, PtMem.set, update_of_ne hqpd, PtMem.clear, update_of_ne hqpage]

theorem getPageDirectory_pdOf {pd : ℕ} (h : getPageDirectory cr3 = some pd) : pd = pdOf cr3 :=
  (directToHhdm_eq_some.mp h).2

theorem Owns.map (ho : Owns mem cr3 pages) {newPage : Option ℕ}
    (hf : ∀ page, newPage = some page → FreshPage used page) (hsub : pages ⊆ used)
    (hv : virt < 2 ^ 32) {phys : ℕ} {us rw uncacheable : Bool}
    (h : map mem cr3 newPage phys virt us rw uncacheable = some (mem', ok)) :
    Confined mem mem' cr3 (usedAfter mem cr3 pages newPage (.map phys virt us rw uncacheable)) := by
  rw [PageTable.map] at h
  split_ifs at h with halign
  obtain ⟨pd, hpd, h⟩ := Option.bind_eq_some_iff.mp h
  rw [getPageDirectory_pdOf hpd] at h
  rw [usedAfter, needsTable]
  cases hp : (mem (pdOf cr3) (pdIdx virt)).p with
  | true =>
    rw [hp, if_pos rfl] at h
    split_ifs at h with hs
    rw [if_neg (by simp)]
    exact ho.mapEntry hv hp hs h
  | false =>
    rw [hp, if_neg (by simp)] at h
    rw [if_pos (by simp)]
    cases newPage with
    | none =>
      cases h
      have hnone : pages ∪ {page | none = some page} = pages := by simp
      rw [hnone]
      exact ho.stays
    | some page =>
      have hinsert : pages ∪ {q | some page = some q} = insert page pages := by
        ext q
        simp [eq_comm]
      obtain ⟨mem1, hn, hm⟩ := Option.bind_eq_some_iff.mp h
      obtain ⟨hc, hp1, hs1⟩ := ho.newTable (hf page rfl) hsub hn
      have hc' := hc.owns.mapEntry hv hp1 (by simp [hs1]) hm
      rw [hinsert]
      exact ⟨hc'.owns, fun q hq => (hc'.frame q hq).trans (hc.frame q hq)⟩

theorem Owns.updatePte (ho : Owns mem cr3 pages) (hv : virt < 2 ^ 32) {f : Entry → Entry}
    (h : updatePte mem cr3 virt f = some (mem', ok)) : Confined mem mem' cr3 pages := by
  obtain ⟨loc, hloc, hr⟩ := Option.map_eq_some_iff.mp h
  rw [fetchPte] at hloc
  split_ifs at hloc with halign
  obtain ⟨pd, hpd, hloc⟩ := Option.bind_eq_some_iff.mp hloc
  rw [getPageDirectory_pdOf hpd] at hloc
  dsimp only at hloc
  by_cases hp : (mem (pdOf cr3) (pdIdx virt)).p
  · rw [if_neg (not_not.mpr hp)] at hloc
    split_ifs at hloc with hs
    obtain ⟨pt, hpt, rfl⟩ := Option.map_eq_some_iff.mp hloc
    obtain ⟨hmem, hne⟩ := ho.table _ (pdIdx_lt hv) hp hs
    rw [← tablePage_of_directToHhdm hpt] at hmem hne
    dsimp only at hr
    split_ifs at hr with hpte
    · cases hr
      exact ho.set hmem hne _
    · cases hr
      exact ho.stays
  · rw [if_pos hp, Option.some.injEq] at hloc
    subst hloc
    cases hr
    exact ho.stays

/-- A call writes to pages that the current directory owns, a new table among them. -/
theorem Owns.ptStep (ho : Owns mem cr3 pages) {newPage : Option ℕ} {op : PtOp}
    (hf : ∀ page, newPage = some page → FreshPage used page) (hsub : pages ⊆ used)
    (hv : op.virt < 2 ^ 32) (h : ptStep mem cr3 newPage op = some (mem', ok)) :
    Confined mem mem' cr3 (usedAfter mem cr3 pages newPage op) := by
  cases op with
  | map phys virt us rw uncacheable => exact ho.map hf hsub hv h
  | unmap virt =>
    rw [PageTable.ptStep, unmap] at h
    exact ho.updatePte hv h
  | markUncacheable virt =>
    rw [PageTable.ptStep, markUncacheable] at h
    exact ho.updatePte hv h

end Owns

/-- The directories at `a` and `b` own disjoint sets of the pages in use. -/
def Isolated (mem : PtMem) (used : Set ℕ) (a b : ℕ) : Prop :=
  ∃ A B : Set ℕ, Owns mem a A ∧ Owns mem b B ∧ Disjoint A B ∧ A ⊆ used ∧ B ⊆ used

/-- Calls that are made while a directory in `current` is the current one. A call that would fail an
assertion is not part of a run. -/
inductive Runs (current : Set ℕ) (mem0 : PtMem) (used0 : Set ℕ) : PtMem → Set ℕ → Prop
  | init : Runs current mem0 used0 mem0 used0
  | call {mem mem' : PtMem} {used : Set ℕ} {cr3 : ℕ} {newPage : Option ℕ} {op : PtOp} {ok : Bool}
      (hr : Runs current mem0 used0 mem used) (hcur : cr3 ∈ current) (hv : op.virt < 2 ^ 32)
      (hf : ∀ page, newPage = some page → FreshPage used page)
      (hs : ptStep mem cr3 newPage op = some (mem', ok)) :
      Runs current mem0 used0 mem' (usedAfter mem cr3 used newPage op)

section Runs
variable {mem mem' mem0 : PtMem} {used used0 : Set ℕ} {a b cr3 : ℕ}

theorem Isolated.symm (h : Isolated mem used a b) : Isolated mem used b a := by
  obtain ⟨A, B, hA, hB, hAB, hAu, hBu⟩ := h
  exact ⟨B, A, hB, hA, hAB.symm, hBu, hAu⟩

theorem usedAfter_mono (mem : PtMem) (cr3 : ℕ) {A : Set ℕ} (h : A ⊆ used) (newPage : Option ℕ)
    (op : PtOp) : usedAfter mem cr3 A newPage op ⊆ usedAfter mem cr3 used newPage op := by
  unfold usedAfter
  split_ifs
  · exact Set.union_subset_union_left _ h
  · exact h

theorem subset_usedAfter (mem : PtMem) (cr3 : ℕ) (used : Set ℕ) (newPage : Option ℕ) (op : PtOp) :
    used ⊆ usedAfter mem cr3 used newPage op := by
  unfold usedAfter
  split_ifs
  · exact Set.subset_union_left
  · exact subset_rfl

/-- The pages of the other directory stay out of the reach of a call. -/
theorem disjoint_usedAfter {A B : Set ℕ} {newPage : Option ℕ} {op : PtOp} (h : Disjoint A B)
    (hB : B ⊆ used) (hf : ∀ page, newPage = some page → FreshPage used page) :
    Disjoint (usedAfter mem cr3 A newPage op) B := by
  unfold usedAfter
  split_ifs
  · apply Set.disjoint_union_left.mpr
    refine ⟨h, Set.disjoint_left.mpr ?_⟩
    intro page hpage hmem
    exact (hf page hpage).unused (hB hmem)
  · exact h

/-- A call on one of two isolated directories changes no translation of the other. -/
theorem Isolated.step {newPage : Option ℕ} {op : PtOp} {ok : Bool} (h : Isolated mem used a b)
    (hf : ∀ page, newPage = some page → FreshPage used page) (hv : op.virt < 2 ^ 32)
    (hs : ptStep mem a newPage op = some (mem', ok)) : Isolated mem' (usedAfter mem a used newPage op) a b ∧
      translate mem' b = translate mem b := by
  obtain ⟨A, B, hA, hB, hAB, hAu, hBu⟩ := h
  have hc := hA.ptStep hf hAu hv hs
  have hdisj : Disjoint (usedAfter mem a A newPage op) B := disjoint_usedAfter hAB hBu hf
  have hkeep : ∀ q ∈ B, mem' q = mem q := by
    intro q hq
    exact hc.frame q fun hqA => Set.disjoint_left.mp hdisj hqA hq
  constructor
  · exact ⟨_, B, hc.owns, hB.congr (hkeep _ hB.dir), hdisj, usedAfter_mono mem a hAu newPage op,
      hBu.trans (subset_usedAfter mem a used newPage op)⟩
  · funext virt
    exact hB.translate_congr hkeep

theorem Runs.isolated (h : Isolated mem0 used0 a b) (hr : Runs {a, b} mem0 used0 mem used) :
    Isolated mem used a b := by
  induction hr with
  | init => exact h
  | call hr hcur hv hf hs ih =>
    rcases hcur with rfl | rfl
    · exact (ih.step hf hv hs).1
    · exact (ih.symm.step hf hv hs).1.symm

theorem Runs.translate_eq (h : Isolated mem0 used0 a b) (hr : Runs {a} mem0 used0 mem used) :
    Isolated mem used a b ∧ translate mem b = translate mem0 b := by
  induction hr with
  | init => exact ⟨h, rfl⟩
  | call hr hcur hv hf hs ih =>
    subst hcur
    obtain ⟨hisolated, hsame⟩ := ih.1.step hf hv hs
    exact ⟨hisolated, hsame.trans ih.2⟩

end Runs

/-- Entry `i` of the new directory and entry `i` of the old one, whose tables are in `mem0`. -/
inductive ClonedEntry (mem0 mem : PtMem) (pd newPd : ℕ) (new : Set ℕ) (i : ℕ) : Prop
  | absent (hp : (mem0 pd i).p = false) (he : mem newPd i = {})
  | huge (hs : (mem0 pd i).ps = true) (he : mem newPd i = mem0 pd i)
  | table {page addr : ℕ} (hs : (mem0 pd i).ps = false)
      (he : mem newPd i = { mem0 pd i with addr := addr }) (hpage : (mem newPd i).tablePage = page)
      (hnew : page ∈ new) (hne : page ≠ newPd) (hcopy : mem page = mem0 (mem0 pd i).tablePage)

structure Cloning (mem0 mem : PtMem) (pd newPd : ℕ) (new done : Set ℕ) : Prop where
  frame : ∀ q ∉ new, mem q = mem0 q
  dir : newPd ∈ new
  entry : ∀ i ∈ done, ClonedEntry mem0 mem pd newPd new i
  rest : ∀ i ∉ done, mem newPd i = {}

section Cloning
variable {mem0 mem mem' : PtMem} {pd newPd i : ℕ} {new new' done used : Set ℕ}
  {pages pages' is : List ℕ}

/-- Writes to entry `i` of the new directory and to a new page keep a copied entry `j`. -/
theorem ClonedEntry.keep {j : ℕ} (h : ClonedEntry mem0 mem pd newPd new j) (hsub : new ⊆ new')
    (hdir : mem' newPd j = mem newPd j) (hpages : ∀ q ∈ new, q ≠ newPd → mem' q = mem q) :
    ClonedEntry mem0 mem' pd newPd new' j := by
  cases h with
  | absent hp he => exact .absent hp (hdir.trans he)
  | huge hs he => exact .huge hs (hdir.trans he)
  | table hs he hpage hnew hne hcopy =>
    exact .table hs (hdir.trans he) (hdir ▸ hpage) (hsub hnew) hne ((hpages _ hnew hne).trans hcopy)

theorem Cloning.advance (hc : Cloning mem0 mem pd newPd new done) (hsub : new ⊆ new')
    (hframe : ∀ q ∉ new', mem' q = mem q) (hdir : ∀ j ≠ i, mem' newPd j = mem newPd j)
    (hpages : ∀ q ∈ new, q ≠ newPd → mem' q = mem q) (hi : ClonedEntry mem0 mem' pd newPd new' i) :
    Cloning mem0 mem' pd newPd new' (insert i done) where
  frame := by
    intro q hq
    rw [hframe q hq, hc.frame q fun h => hq (hsub h)]
  dir := hsub hc.dir
  entry := by
    intro j hj
    by_cases hji : j = i
    · exact hji ▸ hi
    · exact (hc.entry j (Set.mem_of_mem_insert_of_ne hj hji)).keep hsub (hdir j hji) hpages
  rest := by
    intro j hj
    have hji : j ≠ i := fun h => hj (h ▸ Set.mem_insert _ _)
    rw [hdir j hji, hc.rest j fun h => hj (Set.mem_insert_of_mem _ h)]

variable {cr3 : ℕ}

structure CloneRoom (mem0 : PtMem) (cr3 : ℕ) (used new : Set ℕ) (pages : List ℕ) : Prop where
  owns : Owns mem0 cr3 used
  apart : ∀ q ∈ new, q ∉ used
  nodup : pages.Nodup
  fresh : ∀ page ∈ pages, page ∉ new ∧ FreshPage used page

theorem CloneRoom.tail {page : ℕ} (h : CloneRoom mem0 cr3 used new (page :: pages)) :
    CloneRoom mem0 cr3 used (insert page new) pages where
  owns := h.owns
  apart := by
    rintro q (rfl | hq)
    · exact (h.fresh q (List.mem_cons_self ..)).2.unused
    · exact h.apart q hq
  nodup := h.nodup.of_cons
  fresh := by
    intro q hq
    obtain ⟨hnew, hfresh⟩ := h.fresh q (List.mem_cons_of_mem _ hq)
    refine ⟨?_, hfresh⟩
    rintro (rfl | hmem)
    · exact (List.nodup_cons.mp h.nodup).1 hq
    · exact hnew hmem

/-- The loop body for an entry that refers to a table: `pt` is copied to `page`. -/
theorem Cloning.copyTable {page pt : ℕ} (hc : Cloning mem0 mem (pdOf cr3) newPd new done)
    (hr : CloneRoom mem0 cr3 used new (page :: pages))
    (hs : (mem0 (pdOf cr3) i).ps = false) (hpt : (mem0 (pdOf cr3) i).tablePage = pt) (hused : pt ∈ used)
    {e : Entry} (he : e = { mem0 (pdOf cr3) i with addr := ((page - hhdmStart) >>> pgSzBits) % 2 ^ 20 }) :
    Cloning mem0 ((mem.copy page pt).set newPd i e) (pdOf cr3) newPd (insert page new)
      (insert i done) := by
  obtain ⟨hpage, hfresh⟩ := hr.fresh page (List.mem_cons_self ..)
  have hne : page ≠ newPd := fun h => hpage (h ▸ hc.dir)
  have hdir : (mem.copy page pt) newPd = mem newPd := update_of_ne hne.symm _ _
  have hnew : ((mem.copy page pt).set newPd i e) newPd i = e := by
    rw [PtMem.set, update_self, update_self]
  have hother : ∀ q ≠ page, q ≠ newPd → ((mem.copy page pt).set newPd i e) q = mem q := by
    intro q hq hqd
    rw [PtMem.set, update_of_ne hqd, PtMem.copy, update_of_ne hq]
  apply hc.advance (Set.subset_insert _ _)
  · intro q hq
    apply hother q
    · rintro rfl
      exact hq (Set.mem_insert _ _)
    · rintro rfl
      exact hq (Set.mem_insert_of_mem _ hc.dir)
  · intro j hj
    rw [PtMem.set, update_self, update_of_ne hj, hdir]
  · intro q hq hqd
    exact hother q (fun h => hpage (h ▸ hq)) hqd
  · have htable : (((mem.copy page pt).set newPd i e) newPd i).tablePage = page := by
      rw [hnew]
      exact hfresh.tablePage_eq (by rw [he])
    refine .table hs (hnew.trans he) htable (Set.mem_insert _ _) hne ?_
    rw [PtMem.set, update_of_ne hne, PtMem.copy, update_self, hpt]
    exact hc.frame pt fun h => hr.apart pt h hused

theorem Cloning.step (hc : Cloning mem0 mem (pdOf cr3) newPd new done)
    (hr : CloneRoom mem0 cr3 used new pages) (hi : i ∉ done) (hlt : i < directoryTableEntries)
    (h : cloneEntry (pdOf cr3) newPd i mem pages = some (mem', pages')) :
    ∃ new', Cloning mem0 mem' (pdOf cr3) newPd new' (insert i done) ∧
      CloneRoom mem0 cr3 used new' pages' ∧ new' ⊆ new ∪ {page | page ∈ pages} ∧
      ∀ page ∈ pages', page ∈ pages := by
  have hpd : mem (pdOf cr3) = mem0 (pdOf cr3) := hc.frame _ fun h => hr.apart _ h hr.owns.dir
  unfold cloneEntry at h
  rw [hpd] at h
  cases hp : (mem0 (pdOf cr3) i).p with
  | false =>
    rw [hp, if_pos (by simp)] at h
    cases h
    refine ⟨new, ?_, hr, Set.subset_union_left, fun _ h => h⟩
    exact hc.advance subset_rfl (fun _ _ => rfl) (fun _ _ => rfl) (fun _ _ _ => rfl)
      (.absent hp (hc.rest i hi))
  | true =>
    rw [hp, if_neg (by simp)] at h
    cases hs : (mem0 (pdOf cr3) i).ps with
    | true =>
      rw [hs, if_pos rfl] at h
      cases h
      refine ⟨new, ?_, hr, Set.subset_union_left, fun _ h => h⟩
      apply hc.advance subset_rfl
      · intro q hq
        have hqd : q ≠ newPd := by
          rintro rfl
          exact hq hc.dir
        exact update_of_ne hqd _ _
      · intro j hj
        rw [PtMem.set, update_self, update_of_ne hj]
      · intro q _ hqd
        exact update_of_ne hqd _ _
      · apply ClonedEntry.huge hs
        rw [PtMem.set, update_self, update_self]
    | false =>
      rw [hs, if_neg (by simp)] at h
      cases pages with
      | nil => cases h
      | cons page rest =>
        obtain ⟨pt, hpt, h⟩ := Option.bind_eq_some_iff.mp h
        have hfresh := (hr.fresh page (List.mem_cons_self ..)).2
        have hpage : page ≠ pdOf cr3 := fun h => hfresh.unused (h ▸ hr.owns.dir)
        have htable := (tablePage_of_directToHhdm hpt).symm
        have hused : pt ∈ used := htable ▸ (hr.owns.table i hlt hp (by simp [hs])).1
        rw [hfresh.hhdmToDirect_eq, Option.map_some, Option.some.injEq, Prod.mk.injEq] at h
        obtain ⟨hmem, rfl⟩ := h
        refine ⟨insert page new, ?_, hr.tail, ?_, fun q hq => List.mem_cons_of_mem _ hq⟩
        · have hcopy : (mem.copy page pt) (pdOf cr3) = mem0 (pdOf cr3) :=
            (update_of_ne hpage.symm _ _).trans hpd
          have hdone := hc.copyTable hr hs htable hused rfl
          rw [← hmem, hcopy]
          simpa only [PtMem.set, update_self, update_idem] using hdone
        · rintro q (rfl | hq)
          · exact .inr (List.mem_cons_self ..)
          · exact .inl hq

theorem entries_tail (hnodup : (i :: is).Nodup) (his : ∀ j ∈ i :: is, j ∉ done ∧ j < directoryTableEntries) :
    ∀ j ∈ is, j ∉ insert i done ∧ j < directoryTableEntries := by
  intro j hj
  obtain ⟨hjd, hjlt⟩ := his j (List.mem_cons_of_mem _ hj)
  refine ⟨?_, hjlt⟩
  rintro (rfl | hmem)
  · exact (List.nodup_cons.mp hnodup).1 hj
  · exact hjd hmem

theorem cloneEntries_spec (hnodup : is.Nodup) (his : ∀ i ∈ is, i ∉ done ∧ i < directoryTableEntries)
    (hc : Cloning mem0 mem (pdOf cr3) newPd new done) (hr : CloneRoom mem0 cr3 used new pages)
    (h : cloneEntries (pdOf cr3) newPd is mem pages = some (mem', pages')) :
    ∃ new', Cloning mem0 mem' (pdOf cr3) newPd new' (done ∪ {i | i ∈ is}) ∧
      (∀ q ∈ new', q ∉ used) ∧ new' ⊆ new ∪ {page | page ∈ pages} := by
  induction is generalizing mem pages new done with
  | nil =>
    cases h
    have hdone : done ∪ {i | i ∈ ([] : List ℕ)} = done := by simp
    rw [hdone]
    exact ⟨new, hc, hr.apart, Set.subset_union_left⟩
  | cons i is ih =>
    obtain ⟨⟨mem1, pages1⟩, hstep, hrest⟩ := Option.bind_eq_some_iff.mp h
    obtain ⟨hi, hlt⟩ := his i (List.mem_cons_self ..)
    obtain ⟨new1, hc1, hr1, hsub1, hpages1⟩ := hc.step hr hi hlt hstep
    obtain ⟨new', hc', hapart, hsub⟩ :=
      ih hnodup.of_cons (entries_tail hnodup his) hc1 hr1 hrest
    have hdone : insert i done ∪ {j | j ∈ is} = done ∪ {j | j ∈ i :: is} := by
      ext j
      simp only [Set.mem_union, Set.mem_insert_iff, Set.mem_ofPred_eq, List.mem_cons]
      tauto
    rw [hdone] at hc'
    refine ⟨new', hc', hapart, hsub.trans (Set.union_subset hsub1 ?_)⟩
    intro q hq
    exact .inr (hpages1 q hq)

theorem Cloning.init (mem : PtMem) (pd newPd : ℕ) : Cloning mem (mem.clear newPd) pd newPd {newPd} ∅ where
  frame := by
    intro q hq
    exact update_of_ne hq _ _
  dir := rfl
  entry := by
    intro i hi
    exact hi.elim
  rest := by
    intro i _
    rw [PtMem.clear, update_self]

theorem CloneRoom.init (ho : Owns mem cr3 used) (hnodup : (newPd :: pages).Nodup)
    (hf : ∀ page ∈ newPd :: pages, FreshPage used page) : CloneRoom mem cr3 used {newPd} pages where
  owns := ho
  apart := by
    rintro q rfl
    exact (hf q (List.mem_cons_self ..)).unused
  nodup := hnodup.of_cons
  fresh := by
    intro q hq
    refine ⟨?_, hf q (List.mem_cons_of_mem _ hq)⟩
    rintro rfl
    exact (List.nodup_cons.mp hnodup).1 hq

theorem kernelEntries_new : ∀ i ∈ kernelEntries, i ∉ (∅ : Set ℕ) ∧ i < directoryTableEntries :=
  fun i hi => ⟨Set.notMem_empty i, (mem_kernelEntries.mp hi).2⟩

theorem cloneKernelPageDirectory_spec {mem1 : PtMem} (ho : Owns mem cr3 used) (hnodup : pages.Nodup)
    (hf : ∀ page ∈ pages, FreshPage used page)
    (h : cloneKernelPageDirectory mem cr3 pages = some (mem1, newPd, pages')) :
    FreshPage used newPd ∧ ∃ new, Cloning mem mem1 (pdOf cr3) newPd new {i | i ∈ kernelEntries} ∧
      (∀ q ∈ new, q ∉ used) ∧ new ⊆ {page | page ∈ pages} := by
  obtain ⟨pd, hpd, h⟩ := Option.bind_eq_some_iff.mp h
  rw [getPageDirectory_pdOf hpd] at h
  cases pages with
  | nil => cases h
  | cons page rest =>
    obtain ⟨⟨mem', rest'⟩, hloop, hr⟩ := Option.map_eq_some_iff.mp h
    cases hr
    have hroom := CloneRoom.init ho hnodup hf
    obtain ⟨new, hc, hapart, hsub⟩ :=
      cloneEntries_spec List.nodup_range' kernelEntries_new (Cloning.init mem (pdOf cr3) newPd) hroom hloop
    rw [Set.empty_union] at hc
    refine ⟨hf newPd (List.mem_cons_self ..), new, hc, hapart, hsub.trans ?_⟩
    rintro q (rfl | hq)
    · exact List.mem_cons_self ..
    · exact List.mem_cons_of_mem _ hq

def Entry.hasTable (e : Entry) : Bool := e.p && !e.ps

/-- The loop body needs a page for each table, and has to reach the table through the map. -/
theorem cloneEntry_isSome (hpd : mem (pdOf cr3) = mem0 (pdOf cr3))
    (hfresh : ∀ page ∈ pages, FreshPage used page)
    (hreach : (mem0 (pdOf cr3) i).hasTable → (directToHhdm (mem0 (pdOf cr3) i).target).isSome)
    (hroom : (mem0 (pdOf cr3) i).hasTable → pages ≠ []) : ∃ mem', cloneEntry (pdOf cr3) newPd i mem pages =
      some (mem', pages.drop (mem0 (pdOf cr3) i).hasTable.toNat) := by
  unfold cloneEntry
  rw [hpd]
  unfold Entry.hasTable at *
  cases hp : (mem0 (pdOf cr3) i).p with
  | false => exact ⟨mem, rfl⟩
  | true =>
    cases hs : (mem0 (pdOf cr3) i).ps with
    | true => exact ⟨_, rfl⟩
    | false =>
      rw [hp, hs] at hreach hroom
      obtain ⟨pt, hpt⟩ := Option.isSome_iff_exists.mp (hreach rfl)
      cases pages with
      | nil => exact absurd rfl (hroom rfl)
      | cons page rest =>
        rw [if_neg (by simp), if_neg (by simp), hpt]
        dsimp only [Option.bind_some]
        rw [(hfresh page (List.mem_cons_self ..)).hhdmToDirect_eq]
        exact ⟨_, rfl⟩

theorem cloneEntries_isSome (hnodup : is.Nodup) (his : ∀ i ∈ is, i ∉ done ∧ i < directoryTableEntries)
    (hc : Cloning mem0 mem (pdOf cr3) newPd new done) (hr : CloneRoom mem0 cr3 used new pages)
    (hreach : ∀ i ∈ is, (mem0 (pdOf cr3) i).hasTable → (directToHhdm (mem0 (pdOf cr3) i).target).isSome)
    (hroom : is.countP (fun i => (mem0 (pdOf cr3) i).hasTable) ≤ pages.length) :
    (cloneEntries (pdOf cr3) newPd is mem pages).isSome := by
  induction is generalizing mem pages new done with
  | nil => rfl
  | cons i is ih =>
    have hpd : mem (pdOf cr3) = mem0 (pdOf cr3) := hc.frame _ fun h => hr.apart _ h hr.owns.dir
    rw [List.countP_cons] at hroom
    have hne : (mem0 (pdOf cr3) i).hasTable → pages ≠ [] := by
      rintro ht rfl
      rw [ht] at hroom
      exact absurd hroom (by simp)
    obtain ⟨mem', hstep⟩ := @cloneEntry_isSome mem0 mem newPd i used pages cr3 hpd
      (fun page h => (hr.fresh page h).2) (hreach i (List.mem_cons_self ..)) hne
    obtain ⟨hi, hlt⟩ := his i (List.mem_cons_self ..)
    obtain ⟨new1, hc1, hr1, -, -⟩ := hc.step hr hi hlt hstep
    rw [cloneEntries, hstep, Option.bind_some]
    apply ih hnodup.of_cons (entries_tail hnodup his) hc1 hr1
    · exact fun j hj => hreach j (List.mem_cons_of_mem _ hj)
    · rw [List.length_drop]
      cases ht : (mem0 (pdOf cr3) i).hasTable with
      | true =>
        rw [ht, if_pos rfl] at hroom
        exact Nat.le_sub_of_add_le hroom
      | false =>
        rw [ht, if_neg (by simp)] at hroom
        exact hroom

/-- With a page for the directory and one for each table of the kernel half the clone is made. -/
theorem cloneKernelPageDirectory_isSome (ho : Owns mem cr3 used) (hcr3 : cr3 < hhdmLen)
    (hnodup : pages.Nodup) (hf : ∀ page ∈ pages, FreshPage used page)
    (hreach : ∀ i ∈ kernelEntries, (mem (pdOf cr3) i).hasTable →
      (directToHhdm (mem (pdOf cr3) i).target).isSome)
    (hroom : kernelEntries.countP (fun i => (mem (pdOf cr3) i).hasTable) < pages.length) :
    (cloneKernelPageDirectory mem cr3 pages).isSome := by
  rw [cloneKernelPageDirectory, getPageDirectory_eq hcr3, Option.bind_some]
  cases pages with
  | nil => exact absurd hroom (Nat.not_lt_zero _)
  | cons newPd rest =>
    rw [Option.isSome_map]
    exact cloneEntries_isSome List.nodup_range' kernelEntries_new
      (Cloning.init mem (pdOf cr3) newPd) (CloneRoom.init ho hnodup hf) hreach (Nat.le_of_lt_succ hroom)

variable {cr3' virt : ℕ}

theorem Cloning.owns (hc : Cloning mem0 mem pd (pdOf cr3') new done) : Owns mem cr3' new where
  dir := hc.dir
  table := by
    intro i _ hp hs
    by_cases hi : i ∈ done
    · cases hc.entry i hi with
      | absent _ he =>
        rw [he] at hp
        exact absurd hp (by decide)
      | huge hs0 he => exact absurd (he ▸ hs0) hs
      | table _ _ hpage hnew hne _ => exact ⟨hpage ▸ hnew, hpage ▸ hne⟩
    · rw [hc.rest i hi] at hp
      exact absurd hp (by decide)

theorem Cloning.translate_done (hc : Cloning mem0 mem (pdOf cr3) (pdOf cr3') new done)
    (hi : pdIdx virt ∈ done) : translate mem cr3' virt = translate mem0 cr3 virt := by
  unfold translate
  by_cases hv : virt < 2 ^ 32
  · rw [if_pos hv, if_pos hv]
    dsimp only
    cases hc.entry _ hi with
    | absent hp he => rw [he, Entry.translateWith_absent hp, Entry.translateWith_absent rfl]
    | huge hs he =>
      rw [he]
      exact Entry.translateWith_huge hs _ _ _
    | table hs he hpage _ _ hcopy => rw [hpage, hcopy, he, Entry.translateWith_addr hs]
  · rw [if_neg hv, if_neg hv]

theorem Cloning.translate_rest (hc : Cloning mem0 mem pd (pdOf cr3') new done)
    (hi : pdIdx virt ∉ done) : translate mem cr3' virt = none := by
  unfold translate
  split_ifs with hv
  · rw [hc.rest _ hi]
    exact Entry.translateWith_absent rfl _ _
  · rfl

end Cloning

section Clone
variable {mem mem1 : PtMem} {cr3 cr3' newPd : ℕ} {used : Set ℕ} {pages : List ℕ}

/-- The clone agrees with the original at and above `hhdm_start` and maps nothing below it; from then on
calls on one leave the other as it is. -/
theorem cloneKernelPageDirectory_isolates (ho : Owns mem cr3 used) (hnodup : pages.Nodup)
    (hf : ∀ page ∈ pages, FreshPage used page)
    (hclone : cloneKernelPageDirectory mem cr3 pages = some (mem1, newPd, []))
    (hset : setPageDirectory newPd = some cr3') :
    (∀ virt, hhdmStart ≤ virt → virt < 2 ^ 32 → translate mem1 cr3' virt = translate mem1 cr3 virt) ∧
      (∀ virt < hhdmStart, translate mem1 cr3' virt = none) ∧
      translate mem1 cr3 = translate mem cr3 ∧
      ∀ mem2 used2, Runs {cr3, cr3'} mem1 (used ∪ {page | page ∈ pages}) mem2 used2 →
        (∀ mem3 used3, Runs {cr3} mem2 used2 mem3 used3 → translate mem3 cr3' = translate mem2 cr3') ∧
        ∀ mem3 used3, Runs {cr3'} mem2 used2 mem3 used3 → translate mem3 cr3 = translate mem2 cr3 := by
  obtain ⟨hfresh, new, hc, hapart, hsub⟩ := cloneKernelPageDirectory_spec ho hnodup hf hclone
  rw [hfresh.setPageDirectory_eq, Option.some.injEq] at hset
  have hnewPd : newPd = pdOf cr3' := by
    rw [← hset]
    exact hfresh.direct.2.2.symm
  rw [hnewPd] at hc
  have hkeep : ∀ q ∈ used, mem1 q = mem q := fun q hq => hc.frame q fun h => hapart q h hq
  have horig : translate mem1 cr3 = translate mem cr3 := by
    funext virt
    exact ho.translate_congr hkeep
  have hisolated : Isolated mem1 (used ∪ {page | page ∈ pages}) cr3 cr3' :=
    ⟨used, new, ho.congr (hkeep _ ho.dir), hc.owns, Set.disjoint_right.mpr hapart,
      Set.subset_union_left, hsub.trans Set.subset_union_right⟩
  refine ⟨?_, ?_, horig, ?_⟩
  · intro virt hlow hhigh
    rw [horig]
    apply hc.translate_done
    apply mem_kernelEntries.mpr
    refine ⟨?_, pdIdx_lt hhigh⟩
    rw [pdIdx_eq]
    rw [hhdmStart_eq] at hlow
    omega
  · intro virt hlow
    apply hc.translate_rest
    intro hmem
    have := (mem_kernelEntries.mp hmem).1
    rw [pdIdx_eq] at this
    rw [hhdmStart_eq] at hlow
    omega
  · intro mem2 used2 hrun
    have h2 := hrun.isolated hisolated
    exact ⟨fun mem3 used3 h => (h.translate_eq h2).2, fun mem3 used3 h => (h.translate_eq h2.symm).2⟩

end Clone

/-- A directory with a 4MB entry at the start of the higher-half map and tables for the last and the
first 4MB of the address space. -/
def kernelAndUser : PtMem := fun page i =>
  if page = 0xC0001000 then
    if i = 0 then { p := true, rw := true, us := true, addr := 3 }
    else if i = 768 then { p := true, rw := true, ps := true }
    else if i = 1023 then { p := true, rw := true, us := true, addr := 2 }
    else {}
  else if page = 0xC0002000 then { p := true, rw := true, g := true, addr := 0x100 + i }
  else {}

theorem kernelAndUser_owns : Owns kernelAndUser 0x1000 {0xC0001000, 0xC0002000, 0xC0003000} where
  dir := .inl rfl
  table := by
    intro i _ hp hs
    by_cases h0 : i = 0
    · subst h0
      exact ⟨.inr (.inr rfl), by decide⟩
    by_cases h768 : i = 768
    · subst h768
      exact absurd rfl hs
    by_cases h1023 : i = 1023
    · subst h1023
      exact ⟨.inr (.inl rfl), by decide⟩
    · have habsent : kernelAndUser (pdOf 0x1000) i = {} := by
        rw [kernelAndUser, if_pos (by decide), if_neg h0, if_neg h768, if_neg h1023]
      rw [habsent] at hp
      exact absurd hp (by decide)

theorem freshPage_kernelAndUser : ∀ page ∈ [0xC0005000, 0xC0006000],
    FreshPage {0xC0001000, 0xC0002000, 0xC0003000} page := by
  intro page hpage
  have hcases : page = 0xC0005000 ∨ page = 0xC0006000 := by simpa using hpage
  rcases hcases with rfl | rfl
  · exact ⟨by decide, by decide, by decide, by simp⟩
  · exact ⟨by decide, by decide, by decide, by simp⟩

theorem kernelAndUser_cloned : (cloneKernelPageDirectory kernelAndUser 0x1000 [0xC0005000, 0xC0006000]).isSome :=
  cloneKernelPageDirectory_isSome kernelAndUser_owns (by decide) (by decide) freshPage_kernelAndUser
    (by decide +kernel) (by decide +kernel)

theorem kernelAndUser_isolates :
    ∃ mem1, cloneKernelPageDirectory kernelAndUser 0x1000 [0xC0005000, 0xC0006000] =
        some (mem1, 0xC0005000, []) ∧
      translate mem1 0x5000 0xFFFFF123 = some ⟨0x4FF123, true, false, false, false, true⟩ ∧
      translate mem1 0x5000 0x1000 = none ∧
      ∀ mem2 used2, Runs {0x5000} mem1
          ({0xC0001000, 0xC0002000, 0xC0003000} ∪ {page | page ∈ [0xC0005000, 0xC0006000]}) mem2 used2 →
        translate mem2 0x1000 = translate mem1 0x1000 := by
  have hsome : (cloneKernelPageDirectory kernelAndUser 0x1000 [0xC0005000, 0xC0006000]).map
      (fun r => r.2) = some (0xC0005000, []) := by decide +kernel
  obtain ⟨⟨mem1, rest⟩, hclone, rfl⟩ := Option.map_eq_some_iff.mp hsome
  obtain ⟨hsame, hbelow, horig, hruns⟩ := cloneKernelPageDirectory_isolates kernelAndUser_owns
    (by decide) freshPage_kernelAndUser hclone (by decide : setPageDirectory 0xC0005000 = some 0x5000)
  refine ⟨mem1, hclone, ?_, hbelow _ (by decide), ?_⟩
  · rw [hsame _ (by decide) (by decide), horig]
    decide +kernel
  · exact fun mem2 used2 hrun => (hruns mem1 _ .init).2 mem2 used2 hrun

end HmmOS.Arch.PageTable
