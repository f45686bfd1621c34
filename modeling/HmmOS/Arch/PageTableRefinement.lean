import HmmOS.Arch.PageTable
import Mathlib.Data.Set.Insert

/-! # The page tables as a partial map

The invariant says that the present entries of the directory own distinct pages;
a new table is a page nobody owns.
-/
namespace HmmOS.Arch.PageTable
open Lib Util.Algorithm Function

structure Translation where
  frame : ℕ
  writable : Bool
  user : Bool
  uncacheable : Bool
  deriving DecidableEq, Repr

def Entry.translation (e : Entry) : Option Translation :=
  if e.p then some ⟨e.addr, e.rw, e.us, e.pcd⟩ else none

/-- What `fetch_pte` finds for a page of the 32-bit address space. -/
def walk (mem : PtMem) (cr3 virt : ℕ) : Option Translation :=
  if virt < 2 ^ 32 then
    (fetchPte mem cr3 virt).join.bind fun loc => (mem loc.1 loc.2).translation
  else none

/-- The addresses that `fetch_pte` accepts. -/
abbrev IsPage (virt : ℕ) : Prop := pgAligned virt ∧ virt < 2 ^ 32

def Entry.huge (e : Entry) : Bool := e.p && e.ps

def tableOf (mem : PtMem) (pd i : ℕ) : Option ℕ :=
  if (mem pd i).p && !(mem pd i).ps then directToHhdm (mem pd i).target else none

abbrev pdOf (cr3 : ℕ) : ℕ := cr3 + hhdmStart

/-- Present entries are 4MB entries or own distinct tables, all of them pages in use. -/
structure WellFormed (mem : PtMem) (cr3 : ℕ) (used : Set ℕ) : Prop where
  dir : cr3 < hhdmLen
  dir_used : pdOf cr3 ∈ used
  owns : ∀ i < directoryTableEntries, (mem (pdOf cr3) i).p → ¬ (mem (pdOf cr3) i).ps →
    ∃ pt ∈ used, tableOf mem (pdOf cr3) i = some pt ∧ pt ≠ pdOf cr3
  distinct : ∀ i < directoryTableEntries, ∀ j < directoryTableEntries, ∀ pt,
    tableOf mem (pdOf cr3) i = some pt → tableOf mem (pdOf cr3) j = some pt → i = j

section Walk
variable {mem : PtMem} {cr3 virt : ℕ} {used : Set ℕ}

theorem getPageDirectory_eq (h : cr3 < hhdmLen) : getPageDirectory cr3 = some (pdOf cr3) :=
  directToHhdm_eq_some.mpr ⟨h, rfl⟩

theorem tableOf_eq_some {pd i pt : ℕ} : tableOf mem pd i = some pt ↔
    (mem pd i).p = true ∧ (mem pd i).ps = false ∧ directToHhdm (mem pd i).target = some pt := by
  rw [tableOf]
  split_ifs with hc
  · have hc' : (mem pd i).p = true ∧ (mem pd i).ps = false := by simpa using hc
    simp [hc']
  · constructor
    · intro h
      simp at h
    · intro h
      simp [h.1, h.2.1] at hc

theorem fetchPte_eq (hw : WellFormed mem cr3 used) (hv : IsPage virt)
    (hh : (mem (pdOf cr3) (pdIdx virt)).huge = false) :
    fetchPte mem cr3 virt = some ((tableOf mem (pdOf cr3) (pdIdx virt)).map (·, ptIdx virt)) := by
  rw [fetchPte, if_neg (not_not.mpr hv.1), getPageDirectory_eq hw.dir, Option.bind_some]
  by_cases hp : (mem (pdOf cr3) (pdIdx virt)).p
  · have hs : ¬ (mem (pdOf cr3) (pdIdx virt)).ps := by simpa [Entry.huge, hp] using hh
    obtain ⟨pt, -, ht, -⟩ := hw.owns _ (pdIdx_lt hv.2) hp hs
    rw [if_neg (not_not.mpr hp), if_neg hs, (tableOf_eq_some.mp ht).2.2, ht]
    rfl
  · rw [if_pos hp, tableOf, if_neg (by simp [hp])]
    rfl

theorem walk_eq (hd : cr3 < hhdmLen) (hv : IsPage virt) :
    walk mem cr3 virt = (tableOf mem (pdOf cr3) (pdIdx virt)).bind
      fun pt => (mem pt (ptIdx virt)).translation := by
  rw [walk, if_pos hv.2, fetchPte, if_neg (not_not.mpr hv.1), getPageDirectory_eq hd, Option.bind_some, tableOf]
  cases hp : (mem (pdOf cr3) (pdIdx virt)).p with
  | false => simp [hp]
  | true =>
    cases hs : (mem (pdOf cr3) (pdIdx virt)).ps with
    | true => simp [hp, hs]
    | false =>
      cases ht : directToHhdm (mem (pdOf cr3) (pdIdx virt)).target with
      | none => simp [hp, hs, ht]
      | some pt => simp [hp, hs, ht]

theorem walk_of_not_isPage (hv : ¬ IsPage virt) : walk mem cr3 virt = none := by
  rw [walk]
  split_ifs with hlt
  · rw [fetchPte, if_pos fun ha => hv ⟨ha, hlt⟩]
    rfl
  · rfl

theorem WellFormed.tableOf_used (hw : WellFormed mem cr3 used) {i pt : ℕ}
    (hi : i < directoryTableEntries) (h : tableOf mem (pdOf cr3) i = some pt) : pt ∈ used ∧ pt ≠ pdOf cr3 := by
  obtain ⟨hp, hs, -⟩ := tableOf_eq_some.mp h
  obtain ⟨pt', hu, ht, hne⟩ := hw.owns i hi hp (by simp [hs])
  rw [h, Option.some.injEq] at ht
  exact ⟨ht ▸ hu, ht ▸ hne⟩

end Walk

section Write
variable {mem mem' : PtMem} {cr3 virt : ℕ} {used : Set ℕ}

theorem WellFormed.mono {used' : Set ℕ} (h : WellFormed mem cr3 used) (hu : used ⊆ used') :
    WellFormed mem cr3 used' where
  dir := h.dir
  dir_used := hu h.dir_used
  owns := by
    intro i hi hp hs
    obtain ⟨pt, hpt, ht, hne⟩ := h.owns i hi hp hs
    exact ⟨pt, hu hpt, ht, hne⟩
  distinct := h.distinct

theorem tableOf_congr {pd i : ℕ} (h : mem' pd i = mem pd i) : tableOf mem' pd i = tableOf mem pd i := by
  rw [tableOf, tableOf, h]

theorem WellFormed.congr (hw : WellFormed mem cr3 used) (h : mem' (pdOf cr3) = mem (pdOf cr3)) :
    WellFormed mem' cr3 used where
  dir := hw.dir
  dir_used := hw.dir_used
  owns := by
    intro i hi
    rw [tableOf_congr (congrFun h i), h]
    exact hw.owns i hi
  distinct := by
    intro i hi j hj pt
    rw [tableOf_congr (congrFun h i), tableOf_congr (congrFun h j)]
    exact hw.distinct i hi j hj pt

theorem set_dir {pd pt slot : ℕ} {e : Entry} (h : pt ≠ pd) : (mem.set pt slot e) pd = mem pd :=
  update_of_ne h.symm _ _

theorem walk_set (hw : WellFormed mem cr3 used) (hv : IsPage virt) {pt : ℕ}
    (ht : tableOf mem (pdOf cr3) (pdIdx virt) = some pt) (e : Entry) :
    walk (mem.set pt (ptIdx virt) e) cr3 = update (walk mem cr3) virt e.translation := by
  obtain ⟨-, hne⟩ := hw.tableOf_used (pdIdx_lt hv.2) ht
  funext v
  by_cases hp : IsPage v
  · rw [walk_eq hw.dir hp, tableOf_congr (congrFun (set_dir hne) _)]
    by_cases he : v = virt
    · rw [he, ht, update_self, Option.bind_some, PtMem.set, update_self,
        update_self]
    · rw [update_of_ne he, walk_eq hw.dir hp]
      cases hq : tableOf mem (pdOf cr3) (pdIdx v) with
      | none => rfl
      | some q =>
        rw [Option.bind_some, Option.bind_some]
        congr 1
        by_cases hqt : q = pt
        · -- the same table, so another slot
          have hd : pdIdx v = pdIdx virt :=
            hw.distinct _ (pdIdx_lt hp.2) _ (pdIdx_lt hv.2) pt (hqt ▸ hq) ht
          have hs : ptIdx v ≠ ptIdx virt := fun hs => he (eq_of_slots hp.1 hv.1 hd hs)
          rw [hqt, PtMem.set, update_self, update_of_ne hs]
        · rw [PtMem.set, update_of_ne hqt]
  · have he : v ≠ virt := fun h => hp (h ▸ hv)
    rw [update_of_ne he, walk_of_not_isPage hp, walk_of_not_isPage hp]

end Write

/-- What `operator new` may return: a page of the higher-half map that is not in use. -/
structure FreshPage (used : Set ℕ) (page : ℕ) : Prop where
  aligned : pgAligned page
  lower : hhdmStart ≤ page
  upper : page < hhdmStart + hhdmLen
  unused : page ∉ used

section NewTable
variable {mem mem' : PtMem} {cr3 i page : ℕ} {used : Set ℕ}

theorem FreshPage.mono {used' : Set ℕ} (h : FreshPage used page) (hsub : used' ⊆ used) : FreshPage used' page :=
  ⟨h.aligned, h.lower, h.upper, fun hmem => h.unused (hsub hmem)⟩

theorem FreshPage.hhdmToDirect_eq (h : FreshPage used page) : hhdmToDirect page = some (page - hhdmStart) :=
  if_pos ⟨h.lower, h.upper⟩

theorem FreshPage.direct (h : FreshPage used page) :
    pgAligned (page - hhdmStart) = true ∧ page - hhdmStart < hhdmLen ∧ page - hhdmStart + hhdmStart = page := by
  have ha := pgAligned_iff.mp h.aligned
  have hl := h.lower
  have hu := h.upper
  rw [hhdmStart_eq] at hl hu ⊢
  exact ⟨pgAligned_iff.mpr (by omega), by omega, by omega⟩

theorem newTable_eq (hf : FreshPage used page) (pd : ℕ) :
    newTable mem pd i page = some ((mem.clear page).set pd i
      { p := true, rw := true, us := true, addr := (page - hhdmStart) / 4096 }) := by
  have hlt : (page - hhdmStart) / 4096 < 2 ^ 20 := by
    have := hf.upper
    simp only [hhdmStart_eq, hhdmLen_eq] at this ⊢
    omega
  rw [newTable, hhdmToDirect, if_pos ⟨hf.lower, hf.upper⟩, Option.map_some,
    Nat.shiftRight_eq_div_pow, pgSzBits_eq]
  rw [Nat.mod_eq_of_lt (by omega)]

theorem directToHhdm_target_fresh (hf : FreshPage used page) {e : Entry}
    (he : e.addr = (page - hhdmStart) / 4096) : directToHhdm e.target = some page := by
  have ha := pgAligned_iff.mp hf.aligned
  have hl := hf.lower
  have hu := hf.upper
  have hx : e.addr * 4096 = page - hhdmStart := by
    rw [he]
    simp only [hhdmStart_eq] at hl ⊢
    omega
  have hlt : page - hhdmStart < hhdmLen := by omega
  rw [Entry.target_of_lt (hx ▸ hlt), hx, directToHhdm_eq_some]
  exact ⟨hlt, by omega⟩

theorem newTable_spec (hw : WellFormed mem cr3 used) (hf : FreshPage used page)
    (hp : (mem (pdOf cr3) i).p = false) (h : newTable mem (pdOf cr3) i page = some mem') :
    WellFormed mem' cr3 (insert page used) ∧ tableOf mem' (pdOf cr3) i = some page ∧
      (∀ j ≠ i, mem' (pdOf cr3) j = mem (pdOf cr3) j) ∧ walk mem' cr3 = walk mem cr3 := by
  rw [newTable_eq hf, Option.some.injEq] at h
  have hpd : page ≠ pdOf cr3 := fun he => hf.unused (he ▸ hw.dir_used)
  have hdir : ∀ j ≠ i, mem' (pdOf cr3) j = mem (pdOf cr3) j := by
    intro j hj
    rw [← h, PtMem.set, update_self, update_of_ne hj, PtMem.clear, update_of_ne hpd.symm]
  have hpage : mem' page = fun _ => {} := by
    rw [← h, PtMem.set, update_of_ne hpd, PtMem.clear, update_self]
  have hrest : ∀ q ≠ page, q ≠ pdOf cr3 → mem' q = mem q := by
    intro q hq hqd
    rw [← h, PtMem.set, update_of_ne hqd, PtMem.clear, update_of_ne hq]
  have hnew : tableOf mem' (pdOf cr3) i = some page := by
    rw [tableOf, ← h, PtMem.set, update_self, update_self]
    exact (if_pos (by simp)).trans (directToHhdm_target_fresh hf rfl)
  have hold : ∀ j ≠ i, tableOf mem' (pdOf cr3) j = tableOf mem (pdOf cr3) j :=
    fun j hj => tableOf_congr (hdir j hj)
  have hnone : tableOf mem (pdOf cr3) i = none := by
    rw [tableOf, hp]
    rfl
  have hother : ∀ j < directoryTableEntries, j ≠ i → tableOf mem' (pdOf cr3) j ≠ some page := by
    intro j hj hji he
    rw [hold j hji] at he
    exact hf.unused (hw.tableOf_used hj he).1
  refine ⟨⟨hw.dir, Set.mem_insert_of_mem _ hw.dir_used, ?_, ?_⟩, hnew, hdir, ?_⟩
  · intro j hj hjp hjs
    by_cases hji : j = i
    · exact ⟨page, Set.mem_insert _ _, hji ▸ hnew, hpd⟩
    · rw [hdir j hji] at hjp hjs
      obtain ⟨pt, hu, ht, hne⟩ := hw.owns j hj hjp hjs
      exact ⟨pt, Set.mem_insert_of_mem _ hu, (hold j hji).trans ht, hne⟩
  · intro j hj k hk pt htj htk
    by_cases hji : j = i
    · by_contra hjk
      have hki : k ≠ i := fun hki => hjk (hji.trans hki.symm)
      rw [hji, hnew] at htj
      exact hother k hk hki (htk.trans htj.symm)
    · by_cases hki : k = i
      · rw [hki, hnew] at htk
        exact absurd (htj.trans htk.symm) (hother j hj hji)
      · exact hw.distinct j hj k hk pt ((hold j hji).symm.trans htj) ((hold k hki).symm.trans htk)
  · funext v
    by_cases hv : IsPage v
    · rw [walk_eq hw.dir hv, walk_eq hw.dir hv]
      by_cases hvi : pdIdx v = i
      · rw [hvi, hnew, hnone, Option.bind_some, hpage]
        rfl
      · rw [hold _ hvi]
        cases hq : tableOf mem (pdOf cr3) (pdIdx v) with
        | none => rfl
        | some q =>
          obtain ⟨hqu, hqd⟩ := hw.tableOf_used (pdIdx_lt hv.2) hq
          rw [Option.bind_some, Option.bind_some, hrest q (fun he => hf.unused (he ▸ hqu)) hqd]
    · rw [walk_of_not_isPage hv, walk_of_not_isPage hv]

end NewTable

inductive PtOp where
  | map (phys virt : ℕ) (us rw uncacheable : Bool)
  | unmap (virt : ℕ)
  | markUncacheable (virt : ℕ)
  deriving DecidableEq, Repr

def PtOp.virt : PtOp → ℕ
  | .map _ virt _ _ _ => virt
  | .unmap virt => virt
  | .markUncacheable virt => virt

/-- Page-aligned addresses, the virtual one outside the 4MB entries of a directory. -/
def PtOp.Valid (dir : ℕ → Entry) (op : PtOp) : Prop :=
  IsPage op.virt ∧ (dir (pdIdx op.virt)).huge = false ∧
    match op with
    | .map phys _ _ _ _ => pgAligned phys ∧ phys < 2 ^ 32
    | _ => True

instance (dir : ℕ → Entry) (op : PtOp) : Decidable (op.Valid dir) := by
  cases op <;> exact inferInstanceAs (Decidable (_ ∧ _ ∧ _))

def ptStep (mem : PtMem) (cr3 : ℕ) (newPage : Option ℕ) : PtOp → Option (PtMem × Bool)
  | .map phys virt us rw uncacheable => map mem cr3 newPage phys virt us rw uncacheable
  | .unmap virt => unmap mem cr3 virt
  | .markUncacheable virt => markUncacheable mem cr3 virt

def needsTable (mem : PtMem) (cr3 : ℕ) : PtOp → Bool
  | .map _ virt _ _ _ => !(mem (pdOf cr3) (pdIdx virt)).p
  | _ => false

def usedAfter (mem : PtMem) (cr3 : ℕ) (used : Set ℕ) (newPage : Option ℕ) (op : PtOp) : Set ℕ :=
  if needsTable mem cr3 op then used ∪ {page | newPage = some page} else used

/-- The calls on a partial map; `room` says that a table is not needed or could be allocated. -/
def absStep (room : Bool) (t : ℕ → Option Translation) :
    PtOp → (ℕ → Option Translation) × Bool
  | .map phys virt us rw uncacheable =>
    if t virt = none ∧ room then
      (Function.update t virt (some ⟨phys / pgSz, rw, us, uncacheable⟩), true)
    else (t, false)
  | .unmap virt => if t virt = none then (t, false) else (Function.update t virt none, true)
  | .markUncacheable virt => match t virt with
    | none => (t, false)
    | some tr => (Function.update t virt (some { tr with uncacheable := true }), true)

/-- A call that refused changed nothing, and every call leaves the other pages alone. -/
theorem absStep_frame (room : Bool) (t : ℕ → Option Translation) (op : PtOp) :
    ((absStep room t op).2 = false → (absStep room t op).1 = t) ∧
      ∀ v ≠ op.virt, (absStep room t op).1 v = t v := by
  cases op with
  | map phys virt us rw uncacheable =>
    rw [absStep]
    split_ifs with h
    · exact ⟨fun h => by simp at h, fun v hv => update_of_ne hv _ _⟩
    · exact ⟨fun _ => rfl, fun v _ => rfl⟩
  | unmap virt =>
    rw [absStep]
    split_ifs with h
    · exact ⟨fun _ => rfl, fun v _ => rfl⟩
    · exact ⟨fun h => by simp at h, fun v hv => update_of_ne hv _ _⟩
  | markUncacheable virt =>
    rw [absStep]
    split
    · exact ⟨fun _ => rfl, fun v _ => rfl⟩
    · exact ⟨fun h => by simp at h, fun v hv => update_of_ne hv _ _⟩

structure StepsTo (mem mem' : PtMem) (cr3 : ℕ) (used : Set ℕ) (t : ℕ → Option Translation) :
    Prop where
  wf : WellFormed mem' cr3 used
  walk_eq : walk mem' cr3 = t
  /-- Directory entries are never replaced, so 4MB translations stay as well. -/
  kept : ∀ i, (mem (pdOf cr3) i).p → mem' (pdOf cr3) i = mem (pdOf cr3) i
  huge : ∀ i, (mem' (pdOf cr3) i).huge = (mem (pdOf cr3) i).huge

section Steps
variable {mem mem' : PtMem} {cr3 virt phys : ℕ} {used : Set ℕ} {newPage : Option ℕ}

section
variable (hw : WellFormed mem cr3 used)
include hw

theorem WellFormed.stays : StepsTo mem mem cr3 used (walk mem cr3) :=
  ⟨hw, rfl, fun _ _ => rfl, fun _ => rfl⟩

theorem WellFormed.set (hv : IsPage virt) {pt : ℕ}
    (ht : tableOf mem (pdOf cr3) (pdIdx virt) = some pt) (e : Entry) :
    StepsTo mem (mem.set pt (ptIdx virt) e) cr3 used (update (walk mem cr3) virt e.translation) := by
  have hdir := @set_dir mem _ pt (ptIdx virt) e (hw.tableOf_used (pdIdx_lt hv.2) ht).2
  exact ⟨hw.congr hdir, walk_set hw hv ht e, fun i _ => congrFun hdir i,
    fun i => congrArg Entry.huge (congrFun hdir i)⟩

theorem mapEntry_spec (hv : IsPage virt) {pt : ℕ} (hphys : phys < 2 ^ 32)
    (ht : tableOf mem (pdOf cr3) (pdIdx virt) = some pt) (us rw uncacheable : Bool) :
    ∃ mem', mapEntry mem (pdOf cr3) phys virt us rw uncacheable = some (mem',
        (absStep true (walk mem cr3) (.map phys virt us rw uncacheable)).2) ∧ StepsTo mem mem' cr3 used
        (absStep true (walk mem cr3) (.map phys virt us rw uncacheable)).1 := by
  have hwalk : walk mem cr3 virt = (mem pt (ptIdx virt)).translation := by
    rw [walk_eq hw.dir hv, ht, Option.bind_some]
  have haddr : (phys >>> pgSzBits) % 2 ^ 20 = phys / pgSz := by
    rw [Nat.shiftRight_eq_div_pow, pgSzBits_eq, pgSz_eq]
    omega
  rw [mapEntry, (tableOf_eq_some.mp ht).2.2, Option.map_some, absStep, hwalk, Entry.translation]
  by_cases hp : (mem pt (ptIdx virt)).p
  · simp only [hp, if_true]
    exact ⟨mem, rfl, hw.stays⟩
  · simp only [hp, haddr]
    exact ⟨_, rfl, hw.set hv ht _⟩

theorem newTable_mapEntry (hv : IsPage virt) {page : ℕ} (hf : FreshPage used page)
    (hphys : phys < 2 ^ 32) (hp : (mem (pdOf cr3) (pdIdx virt)).p = false) (us rw uncacheable : Bool) :
    ∃ mem', ((newTable mem (pdOf cr3) (pdIdx virt) page).bind fun mem1 =>
        mapEntry mem1 (pdOf cr3) phys virt us rw uncacheable) = some (mem',
        (absStep true (walk mem cr3) (.map phys virt us rw uncacheable)).2) ∧
      StepsTo mem mem' cr3 (insert page used)
        (absStep true (walk mem cr3) (.map phys virt us rw uncacheable)).1 := by
  obtain ⟨mem1, hn⟩ : ∃ mem1, newTable mem (pdOf cr3) (pdIdx virt) page = some mem1 :=
    ⟨_, newTable_eq hf _⟩
  -- the new table leaves the walk as it was, so the second half sees the old translations
  obtain ⟨hw1, ht, hdir, hwalk⟩ := newTable_spec hw hf hp hn
  obtain ⟨mem', hm, hst⟩ := mapEntry_spec hw1 hv hphys ht us rw uncacheable
  rw [hwalk] at hm hst
  rw [hn, Option.bind_some]
  refine ⟨mem', hm, hst.wf, hst.walk_eq, ?_, ?_⟩
  · intro i hi
    have hne : i ≠ pdIdx virt := by
      rintro rfl
      rw [hp] at hi
      exact Bool.noConfusion hi
    rw [hst.kept i (hdir i hne ▸ hi), hdir i hne]
  · intro i
    rw [hst.huge i]
    by_cases hne : i = pdIdx virt
    · obtain ⟨-, hs, -⟩ := tableOf_eq_some.mp ht
      rw [hne, Entry.huge, Entry.huge, hs, hp, Bool.and_false, Bool.false_and]
    · rw [hdir i hne]

theorem map_spec (hf : ∀ page, newPage = some page → FreshPage used page) (us rw uncacheable : Bool)
    (hv : IsPage virt) (hh : (mem (pdOf cr3) (pdIdx virt)).huge = false) (hpa : pgAligned phys)
    (hphys : phys < 2 ^ 32) : ∃ mem', map mem cr3 newPage phys virt us rw uncacheable = some (mem',
        (absStep ((mem (pdOf cr3) (pdIdx virt)).p || newPage.isSome) (walk mem cr3)
          (.map phys virt us rw uncacheable)).2) ∧
      StepsTo mem mem' cr3 (usedAfter mem cr3 used newPage (.map phys virt us rw uncacheable))
        (absStep ((mem (pdOf cr3) (pdIdx virt)).p || newPage.isSome) (walk mem cr3)
          (.map phys virt us rw uncacheable)).1 := by
  rw [map, if_neg (not_not.mpr ⟨hpa, hv.1⟩), getPageDirectory_eq hw.dir, Option.bind_some,
    usedAfter, needsTable]
  cases hp : (mem (pdOf cr3) (pdIdx virt)).p with
  | true =>
    have hs : (mem (pdOf cr3) (pdIdx virt)).ps = false := by simpa [Entry.huge, hp] using hh
    obtain ⟨pt, -, ht, -⟩ := hw.owns _ (pdIdx_lt hv.2) hp (by simp [hs])
    rw [if_pos rfl, if_neg (by simp [hs]), if_neg (by simp), Bool.true_or]
    exact mapEntry_spec hw hv hphys ht us rw uncacheable
  | false =>
    rw [if_neg (by simp), if_pos (by simp), Bool.false_or]
    cases newPage with
    | none =>
      have hfail : absStep false (walk mem cr3) (.map phys virt us rw uncacheable) =
          (walk mem cr3, false) := by simp [absStep]
      have hu : used ∪ {page | none = some page} = used := by simp
      rw [Option.isSome_none, hfail, hu]
      exact ⟨mem, rfl, hw.stays⟩
    | some page =>
      have hu : used ∪ {q | some page = some q} = insert page used := by
        ext q
        simp [eq_comm]
      rw [Option.isSome_some, hu]
      exact newTable_mapEntry hw hv (hf page rfl) hphys hp us rw uncacheable

theorem mapEntry_dir (hv : IsPage virt) {pt : ℕ} {us rw uncacheable ok : Bool}
    (ht : tableOf mem (pdOf cr3) (pdIdx virt) = some pt)
    (h : mapEntry mem (pdOf cr3) phys virt us rw uncacheable = some (mem', ok)) :
    mem' (pdOf cr3) = mem (pdOf cr3) := by
  rw [mapEntry, (tableOf_eq_some.mp ht).2.2, Option.map_some] at h
  split_ifs at h
  · obtain ⟨rfl, -⟩ := Prod.mk.inj (Option.some.inj h)
    rfl
  · obtain ⟨rfl, -⟩ := Prod.mk.inj (Option.some.inj h)
    exact set_dir (hw.tableOf_used (pdIdx_lt hv.2) ht).2

/-- `map` keeps the entries of the directory; an entry for a new table leaves all rights to the table. -/
theorem map_opens (hf : ∀ page, newPage = some page → FreshPage used page)
    {us rw uncacheable ok : Bool} (hv : IsPage virt)
    (h : map mem cr3 newPage phys virt us rw uncacheable = some (mem', ok)) (i : ℕ) :
    mem' (pdOf cr3) i = mem (pdOf cr3) i ∨
      i = pdIdx virt ∧ (mem' (pdOf cr3) i).us = true ∧ (mem' (pdOf cr3) i).rw = true := by
  rw [map] at h
  split_ifs at h with haligned
  rw [getPageDirectory_eq hw.dir, Option.bind_some] at h
  cases hp : (mem (pdOf cr3) (pdIdx virt)).p with
  | true =>
    split_ifs at h with hs
    obtain ⟨pt, -, ht, -⟩ := hw.owns _ (pdIdx_lt hv.2) hp hs
    exact .inl (congrFun (mapEntry_dir hw hv ht h) i)
  | false =>
    rw [hp, if_neg Bool.false_ne_true] at h
    cases newPage with
    | none =>
      obtain ⟨rfl, -⟩ := Prod.mk.inj (Option.some.inj h)
      exact .inl rfl
    | some page =>
      have hfresh := hf page rfl
      have hn := @newTable_eq mem (pdIdx virt) page used hfresh (pdOf cr3)
      obtain ⟨hw1, ht, hdir, -⟩ := newTable_spec hw hfresh hp hn
      dsimp only at h
      rw [hn, Option.bind_some] at h
      rw [mapEntry_dir hw1 hv ht h]
      by_cases hi : i = pdIdx virt
      · rw [hi, PtMem.set, update_self, update_self]
        exact .inr ⟨rfl, rfl, rfl⟩
      · exact .inl (hdir i hi)

/-- When `map` returns, its assertions have passed. -/
theorem map_inv (hf : ∀ page, newPage = some page → FreshPage used page) {us rw uncacheable ok : Bool}
    (hv : virt < 2 ^ 32) (hphys : phys < 2 ^ 32)
    (h : map mem cr3 newPage phys virt us rw uncacheable = some (mem', ok)) :
    IsPage virt ∧ (mem (pdOf cr3) (pdIdx virt)).huge = false ∧
      ok = (absStep ((mem (pdOf cr3) (pdIdx virt)).p || newPage.isSome) (walk mem cr3)
        (.map phys virt us rw uncacheable)).2 ∧
      StepsTo mem mem' cr3 (usedAfter mem cr3 used newPage (.map phys virt us rw uncacheable))
        (absStep ((mem (pdOf cr3) (pdIdx virt)).p || newPage.isSome) (walk mem cr3)
          (.map phys virt us rw uncacheable)).1 := by
  have hmap := h
  rw [map] at hmap
  split_ifs at hmap with haligned
  rw [getPageDirectory_eq hw.dir, Option.bind_some] at hmap
  have hh : (mem (pdOf cr3) (pdIdx virt)).huge = false := by
    rw [Entry.huge]
    cases hp : (mem (pdOf cr3) (pdIdx virt)).p with
    | false => rfl
    | true =>
      split_ifs at hmap with hs
      exact Bool.eq_false_iff.mpr hs
  have hpage : IsPage virt := ⟨haligned.2, hv⟩
  obtain ⟨mem1, hmem, hst⟩ := map_spec hw hf us rw uncacheable hpage hh haligned.1 hphys
  obtain ⟨rfl, hok⟩ := Prod.mk.inj (Option.some.inj (h.symm.trans hmem))
  exact ⟨hpage, hh, hok, hst⟩

theorem updatePte_spec (hv : IsPage virt) (hh : (mem (pdOf cr3) (pdIdx virt)).huge = false)
    (f : Entry → Entry) : ∃ mem', updatePte mem cr3 virt f = some (mem', (walk mem cr3 virt).isSome) ∧
      mem' (pdOf cr3) = mem (pdOf cr3) ∧
      ((walk mem cr3 virt = none ∧ mem' = mem) ∨ ∃ e : Entry, walk mem cr3 virt = e.translation ∧ e.p ∧
          StepsTo mem mem' cr3 used (update (walk mem cr3) virt (f e).translation)) := by
  rw [updatePte, fetchPte_eq hw hv hh, walk_eq hw.dir hv]
  cases ht : tableOf mem (pdOf cr3) (pdIdx virt) with
  | none => exact ⟨mem, rfl, rfl, .inl ⟨rfl, rfl⟩⟩
  | some pt =>
    simp only [Option.map_some, Option.bind_some, Entry.translation]
    by_cases hp : (mem pt (ptIdx virt)).p
    · simp only [hp, if_true, Option.isSome_some]
      have hne := (hw.tableOf_used (pdIdx_lt hv.2) ht).2
      exact ⟨_, rfl, set_dir hne, .inr ⟨mem pt (ptIdx virt), by simp [hp], hp, hw.set hv ht _⟩⟩
    · exact ⟨mem, by simp [hp], rfl, .inl ⟨by simp [hp], rfl⟩⟩

/-- Mapping a page and unmapping it leaves no trace but the table that it may have taken. -/
theorem map_unmap (hf : ∀ page, newPage = some page → FreshPage used page) {us rw uncacheable : Bool}
    (hv : virt < 2 ^ 32) (hphys : phys < 2 ^ 32)
    (h : map mem cr3 newPage phys virt us rw uncacheable = some (mem', true)) :
    IsPage virt ∧ (mem (pdOf cr3) (pdIdx virt)).huge = false ∧ walk mem cr3 virt = none ∧
      ((mem (pdOf cr3) (pdIdx virt)).p || newPage.isSome) = true ∧
      ∃ mem1, unmap mem' cr3 virt = some (mem1, true) ∧ mem1 (pdOf cr3) = mem' (pdOf cr3) ∧
        (mem1 (pdOf cr3) (pdIdx virt)).p = true ∧
        StepsTo mem mem1 cr3 (used ∪ {page | newPage = some page}) (walk mem cr3) := by
  obtain ⟨hpage, hh, hok, hst⟩ := map_inv hw hf hv hphys h
  rw [absStep] at hok hst
  split_ifs at hok hst with hroom
  dsimp only at hst
  have hwf : WellFormed mem' cr3 (used ∪ {page | newPage = some page}) := by
    apply hst.wf.mono
    rw [usedAfter]
    split_ifs
    · exact subset_rfl
    · exact Set.subset_union_left
  have hwalk : walk mem' cr3 virt = some ⟨phys / pgSz, rw, us, uncacheable⟩ := by
    rw [hst.walk_eq, update_self]
  -- the entry of the directory has a table, in which the page was entered
  have hp : (mem' (pdOf cr3) (pdIdx virt)).p = true := by
    rw [walk_eq hwf.dir hpage] at hwalk
    obtain ⟨pt, ht, -⟩ := Option.bind_eq_some_iff.mp hwalk
    exact (tableOf_eq_some.mp ht).1
  obtain ⟨mem1, hm, hdir, ⟨hnone, -⟩ | ⟨e, he, -, hun⟩⟩ :=
    updatePte_spec hwf hpage ((hst.huge _).trans hh) fun e => { e with p := false }
  · rw [hwalk] at hnone
    cases hnone
  · rw [hwalk] at hm
    refine ⟨hpage, hh, hroom.1, hroom.2, mem1, hm, hdir, hdir ▸ hp, hun.wf, ?_, ?_, ?_⟩
    · have hback : update (walk mem cr3) virt none = walk mem cr3 := by
        rw [← hroom.1, update_eq_self]
      rw [hun.walk_eq, hst.walk_eq, update_idem]
      exact hback
    · intro i hi
      rw [hdir, hst.kept i hi]
    · intro i
      rw [hdir, hst.huge]

end

def room (mem : PtMem) (cr3 : ℕ) (newPage : Option ℕ) (op : PtOp) : Bool :=
  !needsTable mem cr3 op || newPage.isSome

/-- Every valid call returns, and acts on the translations as on a partial map. -/
theorem ptStep_spec (hw : WellFormed mem cr3 used)
    (hf : ∀ page, newPage = some page → FreshPage used page) {op : PtOp} (hop : op.Valid (mem (pdOf cr3))) :
    ∃ mem', ptStep mem cr3 newPage op = some (mem', (absStep (room mem cr3 newPage op) (walk mem cr3) op).2) ∧
      StepsTo mem mem' cr3 (usedAfter mem cr3 used newPage op)
        (absStep (room mem cr3 newPage op) (walk mem cr3) op).1 := by
  cases op with
  | map phys virt us rw uncacheable =>
    rw [room, needsTable, Bool.not_not]
    exact map_spec hw hf us rw uncacheable hop.1 hop.2.1 hop.2.2.1 hop.2.2.2
  | unmap virt =>
    have hv : IsPage virt := hop.1
    obtain ⟨mem', hm, -, hcase⟩ := updatePte_spec hw hv hop.2.1 fun e => { e with p := false }
    refine ⟨mem', ?_⟩
    rw [ptStep, unmap, hm, absStep]
    rcases hcase with ⟨hnone, rfl⟩ | ⟨e, he, hp, hst⟩
    · rw [if_pos hnone, hnone]
      exact ⟨rfl, hw.stays⟩
    · have hsome : e.translation = some ⟨e.addr, e.rw, e.us, e.pcd⟩ := if_pos hp
      have hne : walk mem cr3 virt ≠ none := by
        rw [he, hsome]
        exact Option.some_ne_none _
      rw [if_neg hne, Option.isSome_iff_ne_none.mpr hne]
      exact ⟨rfl, hst⟩
  | markUncacheable virt =>
    have hv : IsPage virt := hop.1
    obtain ⟨mem', hm, -, hcase⟩ := updatePte_spec hw hv hop.2.1 fun e => { e with pcd := true }
    refine ⟨mem', ?_⟩
    rw [ptStep, markUncacheable, hm, absStep]
    rcases hcase with ⟨hnone, rfl⟩ | ⟨e, he, hp, hst⟩
    · rw [hnone]
      exact ⟨rfl, hw.stays⟩
    · have hsome : e.translation = some ⟨e.addr, e.rw, e.us, e.pcd⟩ := if_pos hp
      have hnew : ({ e with pcd := true } : Entry).translation = some ⟨e.addr, e.rw, e.us, true⟩ :=
        if_pos hp
      rw [hnew] at hst
      rw [he, hsome]
      exact ⟨rfl, hst⟩

/-- The states that calls can reach from `mem0`, with the partial map that the calls describe. -/
inductive PtReach (mem0 : PtMem) (cr3 : ℕ) (used0 : Set ℕ) :
    PtMem → Set ℕ → (ℕ → Option Translation) → Prop
  | init : PtReach mem0 cr3 used0 mem0 used0 (walk mem0 cr3)
  | call {mem mem' : PtMem} {used : Set ℕ} {t : ℕ → Option Translation} {newPage : Option ℕ}
      {op : PtOp} {ok : Bool} (hr : PtReach mem0 cr3 used0 mem used t)
      (hop : op.Valid (mem0 (pdOf cr3)))
      (hf : ∀ page, newPage = some page → FreshPage used page)
      (hs : ptStep mem cr3 newPage op = some (mem', ok)) :
      PtReach mem0 cr3 used0 mem' (usedAfter mem cr3 used newPage op)
        (absStep (room mem cr3 newPage op) t op).1

variable {mem0 : PtMem} {used0 : Set ℕ} {t : ℕ → Option Translation}

theorem PtOp.valid_congr {dir dir' : ℕ → Entry} (h : ∀ i, (dir' i).huge = (dir i).huge) (op : PtOp) :
    op.Valid dir' ↔ op.Valid dir := by
  simp only [PtOp.Valid, h]

theorem PtReach.inv (hw : WellFormed mem0 cr3 used0) (hr : PtReach mem0 cr3 used0 mem used t) :
    StepsTo mem0 mem cr3 used t := by
  induction hr with
  | init => exact hw.stays
  | call hr hop hf hs ih =>
    obtain ⟨mem'', hm, hst⟩ := ptStep_spec ih.wf hf ((PtOp.valid_congr ih.huge _).mpr hop)
    rw [hs, Option.some.injEq, Prod.mk.injEq] at hm
    rw [hm.1]
    rw [ih.walk_eq] at hst
    refine ⟨hst.wf, hst.walk_eq, ?_, ?_⟩
    · intro i hi
      have hkeep := ih.kept i hi
      rw [hst.kept i (hkeep ▸ hi), hkeep]
    · intro i
      rw [hst.huge, ih.huge]

/-- After every sequence of calls the walk of `fetch_pte` is the partial map that the calls describe, and
the next call acts on it as it should. -/
theorem page_tables_refine_partial_map (hw : WellFormed mem0 cr3 used0)
    (hr : PtReach mem0 cr3 used0 mem used t) :
    walk mem cr3 = t ∧ ∀ (op : PtOp) (newPage : Option ℕ), op.Valid (mem0 (pdOf cr3)) →
      (∀ page, newPage = some page → FreshPage used page) →
      ∃ mem' ok, ptStep mem cr3 newPage op = some (mem', ok) ∧
        (walk mem' cr3, ok) = absStep (room mem cr3 newPage op) t op ∧
        (ok = false → walk mem' cr3 = walk mem cr3) ∧
        (∀ v ≠ op.virt, walk mem' cr3 v = walk mem cr3 v) ∧
        ∀ i, (mem (pdOf cr3) i).p → mem' (pdOf cr3) i = mem (pdOf cr3) i := by
  have hinv := hr.inv hw
  refine ⟨hinv.walk_eq, fun op newPage hop hf => ?_⟩
  obtain ⟨mem', hm, hst⟩ := ptStep_spec hinv.wf hf ((PtOp.valid_congr hinv.huge op).mpr hop)
  rw [hinv.walk_eq] at hm hst
  obtain ⟨hsame, hother⟩ := absStep_frame (room mem cr3 newPage op) t op
  refine ⟨mem', _, hm, Prod.ext hst.walk_eq rfl, ?_, ?_, hst.kept⟩
  · intro hok
    rw [hst.walk_eq, hinv.walk_eq, hsame hok]
  · intro v hv
    rw [hst.walk_eq, hinv.walk_eq, hother v hv]

end Steps

/-- A directory at `0x1000` with one 4MB entry, that of the start of the higher-half map. -/
def hhdmOnly : PtMem := fun table i =>
  if table = 0xC0001000 ∧ i = 768 then { p := true, rw := true, ps := true } else {}

theorem hhdmOnly_wellFormed : WellFormed hhdmOnly 0x1000 {0xC0001000} where
  dir := by decide
  dir_used := rfl
  owns := by
    intro i _ hp hs
    rw [hhdmOnly] at hp hs
    split_ifs at hp hs
    exact absurd rfl hs
  distinct := by
    intro i _ j _ pt hi
    obtain ⟨hp, hs, -⟩ := tableOf_eq_some.mp hi
    rw [hhdmOnly] at hp hs
    split_ifs at hp hs

theorem page_tables_refine_first_map :
    ∃ mem', map hhdmOnly 0x1000 (some 0xC0002000) 0x5000 0x400000 true true false =
        some (mem', true) ∧
      walk mem' 0x1000 0x400000 = some ⟨5, true, true, false⟩ := by
  have hfresh : FreshPage {0xC0001000} 0xC0002000 :=
    ⟨by decide, by decide, by decide, by simp⟩
  obtain ⟨-, hnext⟩ := page_tables_refine_partial_map hhdmOnly_wellFormed .init
  obtain ⟨mem', ok, hm, habs, -⟩ := hnext (.map 0x5000 0x400000 true true false) (some 0xC0002000)
    (by decide) (fun page hpage => Option.some.inj hpage ▸ hfresh)
  rw [absStep, if_pos (by decide), Prod.mk.injEq] at habs
  obtain ⟨hwalk, rfl⟩ := habs
  exact ⟨mem', hm, by rw [hwalk, update_self]; rfl⟩

end HmmOS.Arch.PageTable
