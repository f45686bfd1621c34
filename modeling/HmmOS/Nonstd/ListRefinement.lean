import HmmOS.Nonstd.ListSequences

/-! # `nonstd::list` refines sequences

Loops over a list follow its sequence, so every operation on a collection of
lists does to the heap what it does to the sequences.
-/
namespace HmmOS.Nonstd
open Lib.Ring Function

variable {α : Type*}

variable {h : Heap α} {S : Lists α} {l o pos : ℕ} {s xs ys : List (ℕ × α)}

section Loops
variable {fuel : ℕ} {us ws : List (ℕ × α)} {v : α}

section
variable (hr : Represents h S)
include hr

theorem Represents.insertLoop {vs : List α} (rv : ℕ) (hs : S.seq l = some (xs ++ ys))
    (hpos : pos = (ids ys).headD l) : Represents (Heap.insertLoop l pos vs h rv).1
      ((S.set l (xs ++ (number S.fresh vs ++ ys))).alloc vs.length) := by
  induction vs generalizing h S xs rv with
  | nil =>
    have hsame : S.set l (xs ++ (number S.fresh [] ++ ys)) = S := Lists.set_of_seq hs
    rw [hsame]
    exact hr
  | cons v vs ih =>
    have hstep := hr.emplace (v := v) hs hpos
    have hs' : ((S.set l (xs ++ (S.fresh, v) :: ys)).alloc 1).seq l =
        some ((xs ++ [(S.fresh, v)]) ++ ys) := by simp
    have hrest := ih hstep (if rv = pos then (h.emplace l pos v).2 else rv) hs'
    rw [Lists.alloc_set, Lists.set_set, Lists.alloc_alloc, Nat.add_comm] at hrest
    simpa [number, Heap.insertLoop] using hrest

theorem Represents.clearLoop (hs : S.seq l = some s) :
    ∃ h', Heap.clearLoop l (s.length + 1) h ((ids s).headD l) = some h' ∧ Represents h' (S.set l []) := by
  induction s generalizing h S with
  | nil =>
    refine ⟨h, by simp [Heap.clearLoop, ids], ?_⟩
    rw [Lists.set_of_seq hs]
    exact hr
  | cons e s ih =>
    have hl : IsList h l ([] ++ e.1 :: ids s) := hr.list hs
    have hne : e.1 ≠ l := by
      rintro rfl
      exact hl.ring.not_mem (by simp)
    have hs' : S.seq l = some ([] ++ e :: s) := hs
    have hstep := hr.erase hs'
    rcases ih hstep (by simp) with ⟨h', hloop, hr'⟩
    refine ⟨h', ?_, ?_⟩
    · rw [ids_cons, List.headD_cons, Heap.clearLoop, if_pos hne]
      dsimp only
      rw [erase_snd hl]
      exact hloop
    · rwa [Lists.set_set] at hr'

theorem Represents.clear (hs : S.seq l = some s) : ∃ h', h.clear l = some h' ∧ Represents h' (S.set l []) := by
  have hl := hr.list hs
  rw [Heap.clear, hl.begin_eq, hl.size, ids, List.length_map]
  exact hr.clearLoop hs

theorem Represents.copyLoop (hlo : l ≠ o) (hs : S.seq l = some xs) (hu : S.seq o = some (us ++ ws)) :
    ∃ h', Heap.copyLoop l o (ws.length + 1) h ((ids ws).headD o) = some h' ∧
      Represents h' ((S.set l (xs ++ number S.fresh (ws.map Prod.snd))).alloc ws.length) := by
  induction ws generalizing h S us xs with
  | nil =>
    refine ⟨h, by simp [Heap.copyLoop, ids], ?_⟩
    rw [List.map_nil, number, List.append_nil, Lists.set_of_seq hs]
    exact hr
  | cons e ws ih =>
    have ho : IsList h o (ids us ++ e.1 :: ids ws) := by simpa using hr.list hu
    have hne : e.1 ≠ o := by
      rintro rfl
      exact ho.ring.not_mem (by simp)
    have hs' : S.seq l = some (xs ++ []) := by rwa [List.append_nil]
    have hstep := hr.emplace (v := e.2) hs' rfl
    have hl1 : ((S.set l (xs ++ [(S.fresh, e.2)])).alloc 1).seq l =
        some (xs ++ [(S.fresh, e.2)]) := by simp
    have ho1 : ((S.set l (xs ++ [(S.fresh, e.2)])).alloc 1).seq o = some ((us ++ [e]) ++ ws) := by
      simp [update_of_ne hlo.symm, hu]
    rcases ih hstep hl1 ho1 with ⟨h', hloop, hr'⟩
    refine ⟨h', ?_, ?_⟩
    · rw [ids_cons, List.headD_cons, Heap.copyLoop, if_pos hne,
        hr.val hu e (by simp), Option.bind_some, ho.ring.next_of_mem]
      exact hloop
    · rw [Lists.alloc_set, Lists.set_set, Lists.alloc_alloc, Nat.add_comm] at hr'
      simpa [number] using hr'

theorem Represents.seq_fresh : S.seq S.fresh = none := by
  cases hs : S.seq S.fresh with
  | none => rfl
  | some s =>
    have hlt := (hr.list hs).fresh _ List.mem_cons_self
    rw [hr.fresh] at hlt
    exact absurd hlt (lt_irrefl _)

theorem Represents.ne_fresh (hs : S.seq l = some s) : l ≠ S.fresh := by
  rintro rfl
  rw [hr.seq_fresh] at hs
  exact absurd hs (by simp)

theorem Represents.copyConstruct (hs : S.seq o = some s) : ∃ h', h.copyConstruct o = some (h', S.fresh) ∧
      Represents h' ((S.set S.fresh (number (S.fresh + 1) (s.map Prod.snd))).alloc (s.length + 1)) := by
  have hne := hr.ne_fresh hs
  have hnew : ((S.set S.fresh []).alloc 1).seq S.fresh = some [] := by simp
  have hold : ((S.set S.fresh []).alloc 1).seq o = some ([] ++ s) := by
    simp [update_of_ne hne, hs]
  have hl : IsList h.constructList.1 o (ids s) := hr.construct.list hold
  have hfst : h.constructList.2 = S.fresh := hr.fresh
  rcases hr.construct.copyLoop hne.symm hnew hold with ⟨h', hloop, hr'⟩
  refine ⟨h', ?_, ?_⟩
  · rw [Heap.copyConstruct, hfst, hl.begin_eq, hl.size, ids, List.length_map, ← ids, hloop]
    rfl
  · rw [Lists.alloc_set, Lists.set_set, Lists.alloc_alloc, Nat.add_comm] at hr'
    exact hr'

end

theorem IsList.distance {us ms zs : List ℕ} (hl : IsList h o (us ++ (ms ++ zs))) (hfuel : ms.length ≤ fuel) :
    h.distance (zs.headD o) (fuel + 1) ((ms ++ zs).headD o) = some ms.length := by
  induction ms generalizing us fuel with
  | nil => simp [Heap.distance]
  | cons m ms ih =>
    cases fuel with
    | zero => exact absurd hfuel (Nat.not_succ_le_zero _)
    | succ fuel =>
      rw [List.cons_append] at hl ⊢
      have hne : m ≠ zs.headD o := by
        intro he
        have hnd := hl.ring.nodup
        have hm := headD_mem zs o
        rw [← he] at hm
        simp only [List.nodup_cons, List.nodup_append, List.mem_append, List.mem_cons] at hnd hm
        tauto
      have hrest := @ih fuel (us ++ [m]) (by simpa using hl) (by simpa using hfuel)
      rw [List.headD_cons, Heap.distance, if_pos hne, hl.ring.next_of_mem, hrest]
      rfl

theorem Represents.forward (hr : Represents h S) (hs : S.seq l = some (us ++ ws)) :
    h.forward l (ws.length + 1) ((ids ws).headD l) = some ws := by
  induction ws generalizing us with
  | nil =>
    simp [Heap.forward, ids]
  | cons e ws ih =>
    have hring : IsRing h.links l (ids us ++ e.1 :: ids ws) := by simpa using (hr.list hs).ring
    have hne : e.1 ≠ l := by
      rintro rfl
      exact hring.not_mem (by simp)
    have hrest := @ih (us ++ [e]) (by simpa using hs)
    rw [ids_cons, List.headD_cons, Heap.forward, if_pos hne, hr.val hs e (by simp),
      Option.bind_some, hring.next_of_mem, List.length_cons, hrest]
    rfl

theorem Represents.backward (hr : Represents h S) (hs : S.seq l = some (us ++ ws)) :
    h.backward ((ids (us ++ ws)).headD l) (us.length + 1) ((ids ws).headD l) = some us.reverse := by
  induction us using List.reverseRecOn generalizing ws with
  | nil =>
    simp [Heap.backward]
  | append_singleton us e ih =>
    have hs' : S.seq l = some (us ++ e :: ws) := by simpa using hs
    have hring : IsRing h.links l ((ids us ++ [e.1]) ++ ids ws) := by
      simpa using (hr.list hs').ring
    have hprev : h.links.prev ((ids ws).headD l) = e.1 := by simpa using hring.prev_at
    -- the first element stands before this position
    have hne : (ids ws).headD l ≠ (ids (us ++ e :: ws)).headD l := by
      intro he
      have hnd := hring.nodup
      have hm := headD_mem (ids ws) l
      rw [he] at hm
      cases us with
      | nil => simp [ids] at hm hnd; tauto
      | cons d us => simp [ids_cons] at hm hnd; tauto
    have hrest := @ih (e :: ws) hs'
    rw [List.append_assoc, List.singleton_append, Heap.backward, if_pos hne, hprev]
    dsimp only
    rw [hr.val hs' e (by simp), Option.bind_some]
    rw [ids_cons, List.headD_cons] at hrest
    rw [List.length_append, List.length_singleton, hrest]
    simp

end Loops

section Positions
variable {e : ℕ × α}

theorem before_append_after (s : List (ℕ × α)) (pos : ℕ) : before s pos ++ after s pos = s :=
  List.takeWhile_append_dropWhile

theorem headD_dropWhile {rest : List ℕ} (hl : l ∉ rest) (hpos : pos ∈ l :: rest) :
    (rest.dropWhile (· ≠ pos)).headD l = pos := by
  induction rest with
  | nil => exact (List.mem_singleton.mp hpos).symm
  | cons a rest ih =>
    simp only [List.mem_cons, not_or] at hl hpos
    by_cases ha : a = pos
    · simp [ha]
    · rw [List.dropWhile_cons_of_pos (by simpa using ha)]
      apply ih hl.2
      simp only [List.mem_cons]
      tauto

theorem headD_after (hl : l ∉ ids s) (hpos : pos ∈ l :: ids s) : (ids (after s pos)).headD l = pos := by
  have hids : ids (after s pos) = (ids s).dropWhile (· ≠ pos) := by
    rw [ids, ids, after, List.dropWhile_map]
    rfl
  rw [hids]
  exact headD_dropWhile hl hpos

theorem filter_ne_middle (hnd : (ids (xs ++ e :: ys)).Nodup) :
    (xs ++ e :: ys).filter (fun d => d.1 ≠ e.1) = xs ++ ys ∧
      (xs ++ e :: ys).filter (fun d => d.1 = e.1) = [e] := by
  simp only [ids_append, ids_cons, List.nodup_append, List.nodup_cons, List.mem_cons] at hnd
  have hx : ∀ d ∈ xs, d.1 ≠ e.1 := fun d hd => hnd.2.2 _ (mem_ids hd) _ (.inl rfl)
  have hy : ∀ d ∈ ys, d.1 ≠ e.1 := fun d hd he => hnd.2.1.1 (he ▸ mem_ids hd)
  constructor
  · rw [List.filter_append, List.filter_cons_of_neg (by simp),
      List.filter_eq_self.mpr (by simpa using hx), List.filter_eq_self.mpr (by simpa using hy)]
  · rw [List.filter_append, List.filter_cons_of_pos (by simp),
      List.filter_eq_nil_iff.mpr (by simpa using hx), List.filter_eq_nil_iff.mpr (by simpa using hy)]
    rfl

theorem Lists.exists_seq (h : S.seq l ≠ none) : S.seq l = some (S.get l) := by
  cases hs : S.seq l with
  | none => exact absurd hs h
  | some s => rw [Lists.get, hs, Option.getD_some]

theorem Represents.split (hr : Represents h S) (hat : S.At l pos) :
    S.seq l = some (before (S.get l) pos ++ after (S.get l) pos) ∧
      pos = (ids (after (S.get l) pos)).headD l := by
  have hs := Lists.exists_seq hat.1
  rw [before_append_after]
  exact ⟨hs, (headD_after (hr.list hs).ring.not_mem hat.2).symm⟩

theorem Represents.element (hr : Represents h S) (hat : S.At l pos) (hne : pos ≠ l) :
    ∃ xs e ys, e.1 = pos ∧ S.get l = xs ++ e :: ys ∧ S.seq l = some (xs ++ e :: ys) ∧
      (ids (xs ++ e :: ys)).Nodup := by
  have hs := Lists.exists_seq hat.1
  rcases List.mem_map.mp ((List.mem_cons.mp hat.2).resolve_left hne) with ⟨e, he, hpos⟩
  rcases List.append_of_mem he with ⟨xs, ys, hsplit⟩
  have hnd := (List.nodup_cons.mp (hr.list hs).ring.nodup).2
  rw [hsplit] at hs hnd
  exact ⟨xs, e, ys, hpos, hsplit, hs, hnd⟩

end Positions

section Run
variable {h' : Heap α}

section
variable (hr : Represents h S)
include hr

theorem Represents.insert {pos rv : ℕ} {vs : List α} (hat : S.At l pos) :
    Represents (Heap.insertLoop l pos vs h rv).1 (S.insert l pos vs) := by
  rcases hr.split hat with ⟨hs, hpos⟩
  exact hr.insertLoop rv hs hpos

theorem Represents.copyAssign (hl : S.seq l ≠ none) (ho : S.seq o ≠ none) :
    ∃ h', h.copyAssign l o = some h' ∧ Represents h' ((ListOp.copyAssign l o).apply S) := by
  have hs := Lists.exists_seq hl
  have hne := hr.ne_fresh hs
  rcases hr.copyConstruct (Lists.exists_seq ho) with ⟨h1, hcopy, hr1⟩
  have hl1 : ((S.set S.fresh (number (S.fresh + 1) ((S.get o).map Prod.snd))).alloc
      ((S.get o).length + 1)).seq l = some (S.get l) := by
    simp [update_of_ne hne, hs]
  have ht1 : ((S.set S.fresh (number (S.fresh + 1) ((S.get o).map Prod.snd))).alloc
      ((S.get o).length + 1)).seq S.fresh = some (number (S.fresh + 1) ((S.get o).map Prod.snd)) := by
    simp
  have hr2 := hr1.moveAssign hl1 ht1
  rcases hr2.clear (l := S.fresh) (s := S.get l) (by simp) with ⟨h3, hclear, hr3⟩
  refine ⟨h3, ?_, ?_⟩
  · rw [Heap.copyAssign, hcopy, Option.bind_some, hclear]
  · -- the temporary leaves no trace, since its address was unused
    have hr4 := hr3.drop (l := S.fresh)
    convert hr4 using 1
    ext1
    · funext k
      by_cases hk : k = S.fresh
      · subst hk
        simp [ListOp.apply, update_of_ne hne.symm, hr.seq_fresh]
      · simp [ListOp.apply, update_apply, hk]
    · rfl

theorem Represents.moveConstruct {s : List (ℕ × α)} (hs : S.seq o = some s) :
    Represents (h.moveConstruct o).1 (((S.set S.fresh s).set o []).alloc 1) := by
  have hne := hr.ne_fresh hs
  have hnew : ((S.set S.fresh []).alloc 1).seq S.fresh = some [] := by simp
  have hold : ((S.set S.fresh []).alloc 1).seq o = some s := by
    simp [update_of_ne hne, hs]
  have hmove := hr.construct.moveAssign hnew hold
  have hfst : h.constructList.2 = S.fresh := hr.fresh
  rw [Lists.alloc_set, Lists.set_set, Lists.alloc_set] at hmove
  rwa [Heap.moveConstruct, hfst]

theorem Represents.move {pos first last : ℕ} {us ms zs : List (ℕ × α)} (hlo : l ≠ o)
    (hat : S.At l pos) (hu : S.seq o = some (us ++ (ms ++ zs)))
    (hfirst : first = (ids (ms ++ zs)).headD o) (hlast : last = (ids zs).headD o) :
    Represents (h.spliceImpl l pos o first last ms.length) (S.move l pos o ms (us ++ zs)) := by
  rcases hr.split hat with ⟨hs, hpos⟩
  exact hr.spliceImpl hs hu hlo hpos hfirst hlast

theorem Represents.range {first last : ℕ} (hat : S.At o first)
    (hlast : last ∈ o :: ids (after (S.get o) first)) :
    S.seq o = some (before (S.get o) first ++ (before (after (S.get o) first) last ++
        after (after (S.get o) first) last)) ∧
      first = (ids (before (after (S.get o) first) last ++ after (after (S.get o) first) last)).headD o ∧
      last = (ids (after (after (S.get o) first) last)).headD o := by
  rcases hr.split hat with ⟨hs, hfirst⟩
  have hout : o ∉ ids (after (S.get o) first) := by
    have hno := (hr.list hs).ring.not_mem
    rw [ids_append, List.mem_append, not_or] at hno
    exact hno.2
  rw [before_append_after]
  exact ⟨hs, hfirst, (headD_after hout hlast).symm⟩

/-- Every operation whose caller keeps its promises returns, and does to the heap what it does to
the sequences. -/
theorem Represents.run {op : ListOp α} (hv : op.Valid S) :
    ∃ h', op.run h = some h' ∧ Represents h' (op.apply S) := by
  cases op with
  | construct => exact ⟨_, rfl, hr.construct⟩
  | emplace l pos v => exact ⟨(Heap.insertLoop l pos [v] h pos).1, rfl, hr.insert hv⟩
  | insertCount l pos count v => exact ⟨_, rfl, hr.insert hv⟩
  | insertRange l pos vs => exact ⟨_, rfl, hr.insert hv⟩
  | erase l pos =>
    rcases hr.element hv.1 hv.2 with ⟨xs, e, ys, rfl, hget, hs, hnd⟩
    refine ⟨_, rfl, ?_⟩
    rw [ListOp.apply, hget, (filter_ne_middle hnd).1]
    exact hr.erase hs
  | pushBack l v =>
    have hs : S.seq l = some (S.get l ++ []) := by
      rw [List.append_nil]
      exact Lists.exists_seq hv
    exact ⟨_, rfl, hr.emplace hs rfl⟩
  | pushFront l v =>
    have hs : S.seq l = some ([] ++ S.get l) := Lists.exists_seq hv
    exact ⟨_, rfl, hr.emplace hs (hr.list hs).begin_eq⟩
  | popBack l =>
    have hs := Lists.exists_seq hv.1
    have hsplit := List.dropLast_append_getLast hv.2
    rw [← hsplit] at hs
    have hprev : h.links.prev l = ((S.get l).getLast hv.2).1 := by
      have hhead := (hr.list hs).ring.prev_head
      simpa [ids] using hhead
    refine ⟨_, rfl, ?_⟩
    rw [Heap.popBack, hprev]
    simpa [ListOp.apply] using hr.erase hs
  | popFront l =>
    rcases List.exists_cons_of_ne_nil hv.2 with ⟨e, s, hes⟩
    have hs : S.seq l = some ([] ++ e :: s) := hes ▸ Lists.exists_seq hv.1
    refine ⟨_, rfl, ?_⟩
    rw [Heap.popFront, (hr.list hs).begin_eq, ListOp.apply, hes]
    exact hr.erase hs
  | clear l => exact hr.clear (Lists.exists_seq hv)
  | copyConstruct other =>
    rcases hr.copyConstruct (Lists.exists_seq hv) with ⟨h', hcopy, hr'⟩
    exact ⟨h', by rw [ListOp.run, hcopy]; rfl, hr'⟩
  | copyAssign l other => exact hr.copyAssign hv.1 hv.2
  | moveConstruct other => exact ⟨_, rfl, hr.moveConstruct (Lists.exists_seq hv)⟩
  | moveAssign l other =>
    exact ⟨_, rfl, hr.moveAssign (Lists.exists_seq hv.1) (Lists.exists_seq hv.2)⟩
  | spliceAll l pos other =>
    have ho : S.seq other = some ([] ++ (S.get other ++ [])) := by
      rw [List.append_nil]
      exact Lists.exists_seq hv.2.2
    have hl := hr.list (Lists.exists_seq hv.2.2)
    have hlen : (ids (S.get other)).length = (S.get other).length := List.length_map ..
    refine ⟨_, rfl, ?_⟩
    rw [Heap.spliceAll, hl.size, hlen]
    exact hr.move hv.1 hv.2.1 ho (by rw [List.append_nil, hl.begin_eq]) rfl
  | splice l pos other it =>
    rcases hr.element hv.2.2.1 hv.2.2.2 with ⟨us, e, zs, rfl, hget, hs, hnd⟩
    have hring : IsRing h.links other (ids us ++ e.1 :: ids zs) := by simpa using (hr.list hs).ring
    refine ⟨_, rfl, ?_⟩
    rw [ListOp.apply, hget, (filter_ne_middle hnd).1, (filter_ne_middle hnd).2]
    have hs' : S.seq other = some (us ++ ([e] ++ zs)) := hs
    exact hr.move hv.1 hv.2.1 hs' rfl hring.next_of_mem
  | spliceRange l pos other first last =>
    rcases hr.range hv.2.2.1 hv.2.2.2 with ⟨hs, hfirst, hlast⟩
    have hsize := (hr.list hs).size
    have hfuel : (ids (before (after (S.get other) first) last)).length ≤ h.size other := by
      rw [hsize]
      simp only [ids, List.length_map, List.length_append]
      omega
    have hdist := IsList.distance (by simpa using hr.list hs) hfuel
    rw [← ids_append, ← hfirst, ← hlast, ids, List.length_map] at hdist
    refine ⟨_, by rw [ListOp.run, Heap.spliceRange, hdist, Option.map_some], ?_⟩
    exact hr.move hv.1 hv.2.1 hs hfirst hlast
  | destroy l =>
    rcases hr.clear (Lists.exists_seq hv) with ⟨h', hclear, hr'⟩
    refine ⟨h', hclear, ?_⟩
    have hdrop := hr'.drop (l := l)
    convert hdrop using 1
    ext1
    · exact (update_idem ..).symm
    · rfl

end

structure Keeps (h h' : Heap α) : Prop where
  fresh : h.fresh ≤ h'.fresh
  val : ∀ a < h.fresh, h'.val a = h.val a ∨ h'.val a = none

theorem Keeps.of_val (hfresh : h.fresh ≤ h'.fresh) (hval : h'.val = h.val) : Keeps h h' :=
  ⟨hfresh, fun a _ => .inl (by rw [hval])⟩

theorem Keeps.trans {h'' : Heap α} (h1 : Keeps h h') (h2 : Keeps h' h'') : Keeps h h'' := by
  refine ⟨h1.fresh.trans h2.fresh, fun a ha => ?_⟩
  rcases h2.val a (ha.trans_le h1.fresh) with he | he
  · rw [he]
    exact h1.val a ha
  · exact .inr he

theorem keeps_emplace (h : Heap α) (l pos : ℕ) (v : α) : Keeps h (h.emplace l pos v).1 := by
  refine ⟨Nat.le_succ _, fun a ha => .inl ?_⟩
  rw [emplace_val, update_of_ne ha.ne]

theorem keeps_erase (h : Heap α) (l pos : ℕ) : Keeps h (h.erase l pos).1 := by
  refine ⟨le_rfl, fun a _ => ?_⟩
  rw [erase_val]
  by_cases ha : a = pos
  · exact .inr (by rw [ha, update_self])
  · exact .inl (update_of_ne ha ..)

theorem keeps_insertLoop (h : Heap α) (l pos rv : ℕ) (vs : List α) :
    Keeps h (Heap.insertLoop l pos vs h rv).1 := by
  induction vs generalizing h rv with
  | nil => exact Keeps.of_val le_rfl rfl
  | cons v vs ih => exact (keeps_emplace h l pos v).trans (ih _ _)

theorem keeps_clearLoop {fuel it : ℕ} (hc : Heap.clearLoop l fuel h it = some h') : Keeps h h' := by
  induction fuel generalizing h it with
  | zero => exact absurd hc (by simp [Heap.clearLoop])
  | succ fuel ih =>
    rw [Heap.clearLoop] at hc
    split_ifs at hc with hit
    · exact (keeps_erase h l it).trans (ih hc)
    · obtain rfl := Option.some.inj hc
      exact Keeps.of_val le_rfl rfl

theorem keeps_copyLoop {last fuel first : ℕ} (hc : Heap.copyLoop l last fuel h first = some h') :
    Keeps h h' := by
  induction fuel generalizing h first with
  | zero => exact absurd hc (by simp [Heap.copyLoop])
  | succ fuel ih =>
    rw [Heap.copyLoop] at hc
    split_ifs at hc with hit
    · rcases Option.bind_eq_some_iff.mp hc with ⟨v, -, hc⟩
      exact (keeps_emplace h l l v).trans (ih hc)
    · obtain rfl := Option.some.inj hc
      exact Keeps.of_val le_rfl rfl

theorem keeps_copyConstruct (hc : h.copyConstruct o = some (h', l)) : Keeps h h' := by
  rcases Option.map_eq_some_iff.mp hc with ⟨h1, hloop, he⟩
  obtain rfl : h1 = h' := congrArg Prod.fst he
  have hnew : Keeps h h.constructList.1 := Keeps.of_val (Nat.le_succ _) rfl
  exact hnew.trans (keeps_copyLoop hloop)

theorem ListOp.keeps {op : ListOp α} (hrun : op.run h = some h') : Keeps h h' := by
  cases op with
  | clear l => exact keeps_clearLoop hrun
  | destroy l => exact keeps_clearLoop hrun
  | copyConstruct other =>
    rcases Option.map_eq_some_iff.mp hrun with ⟨r, hcopy, rfl⟩
    exact keeps_copyConstruct hcopy
  | copyAssign l other =>
    rcases Option.bind_eq_some_iff.mp hrun with ⟨r, hcopy, hclear⟩
    have hmove : Keeps r.1 (r.1.moveAssign l r.2) := Keeps.of_val le_rfl rfl
    exact ((keeps_copyConstruct hcopy).trans hmove).trans (keeps_clearLoop hclear)
  | spliceRange l pos other first last =>
    rcases Option.map_eq_some_iff.mp hrun with ⟨n, -, rfl⟩
    exact Keeps.of_val le_rfl rfl
  | construct => exact Option.some.inj hrun ▸ Keeps.of_val (Nat.le_succ _) rfl
  | emplace l pos v => exact Option.some.inj hrun ▸ keeps_emplace h l pos v
  | insertCount l pos count v => exact Option.some.inj hrun ▸ keeps_insertLoop h l pos pos _
  | insertRange l pos vs => exact Option.some.inj hrun ▸ keeps_insertLoop h l pos pos vs
  | erase l pos => exact Option.some.inj hrun ▸ keeps_erase h l pos
  | pushBack l v => exact Option.some.inj hrun ▸ keeps_emplace h l l v
  | pushFront l v => exact Option.some.inj hrun ▸ keeps_emplace h l _ v
  | popBack l => exact Option.some.inj hrun ▸ keeps_erase h l _
  | popFront l => exact Option.some.inj hrun ▸ keeps_erase h l _
  | moveConstruct other => exact Option.some.inj hrun ▸ Keeps.of_val (Nat.le_succ _) rfl
  | moveAssign l other => exact Option.some.inj hrun ▸ Keeps.of_val le_rfl rfl
  | spliceAll l pos other => exact Option.some.inj hrun ▸ Keeps.of_val le_rfl rfl
  | splice l pos other it => exact Option.some.inj hrun ▸ Keeps.of_val le_rfl rfl

def ListReach (c c' : Heap α × Lists α) : Prop :=
  Relation.ReflTransGen (fun c c' => ∃ op : ListOp α,
    op.Valid c.2 ∧ op.run c.1 = some c'.1 ∧ c'.2 = op.apply c.2) c c'

theorem Represents.reach {S' : Lists α} (hr : Represents h S) (hreach : ListReach (h, S) (h', S')) :
    Represents h' S' ∧ Keeps h h' := by
  have hall : ∀ c, ListReach (h, S) c → Represents c.1 c.2 ∧ Keeps h c.1 := by
    intro c hc
    induction hc with
    | refl => exact ⟨hr, Keeps.of_val le_rfl rfl⟩
    | tail _ hstep ih =>
      rcases hstep with ⟨op, hv, hrun, happ⟩
      rcases ih.1.run hv with ⟨h1, hrun1, hr1⟩
      obtain rfl := Option.some.inj (hrun1.symm.trans hrun)
      exact ⟨happ ▸ hr1, ih.2.trans (ListOp.keeps hrun)⟩
  exact hall (h', S') hreach

end Run

/-- Every list is traversed as its sequence, every further operation returns, and iterators of elements
that are still in a list denote what they denoted. -/
theorem listReach_refines {h0 h : Heap α} {S : Lists α}
    (hreach : ListReach (h0, ⟨fun _ => none, h0.fresh⟩) (h, S)) :
    (∀ l s, S.seq l = some s → h.forward l (s.length + 1) (h.begin l) = some s ∧
      h.backward (h.begin l) (s.length + 1) l = some s.reverse ∧ h.size l = s.length) ∧
    (∀ op : ListOp α, op.Valid S → ∃ h', op.run h = some h') ∧
    ∀ h' S', ListReach (h, S) (h', S') → ∀ l s l' s' it v v', S.seq l = some s → (it, v) ∈ s →
      S'.seq l' = some s' → (it, v') ∈ s' → v' = v := by
  have hinit : Represents h0 ⟨fun _ => none, h0.fresh⟩ :=
    ⟨rfl, fun hs => absurd hs (by simp), fun hs => absurd hs (by simp), fun hs => absurd hs (by simp)⟩
  have hr := (hinit.reach hreach).1
  refine ⟨fun l s hs => ?_, fun op hv => ?_, ?_⟩
  · have hl := hr.list hs
    have hs' : S.seq l = some (s ++ []) := by rwa [List.append_nil]
    have hback := hr.backward hs'
    rw [List.append_nil] at hback
    have hall : S.seq l = some ([] ++ s) := hs
    rw [hl.begin_eq, hl.size]
    exact ⟨hr.forward hall, hback, List.length_map ..⟩
  · rcases hr.run hv with ⟨h', hrun, -⟩
    exact ⟨h', hrun⟩
  · intro h' S' hreach' l s l' s' it v v' hs hm hs' hm'
    rcases hr.reach hreach' with ⟨hr', hkeeps⟩
    have hlt := (hr.list hs).fresh it (List.mem_cons_of_mem _ (mem_ids hm))
    have hval' := hr'.val hs' _ hm'
    rcases hkeeps.val it hlt with he | he
    · rw [he, hr.val hs _ hm] at hval'
      exact (Option.some.inj hval').symm
    · rw [he] at hval'
      exact absurd hval' (by simp)

def noLists : Heap ℕ := ⟨⟨id, id⟩, fun _ => none, fun _ => 0, 0⟩

/-- One element is pushed on a list, which is then assigned to an empty one. -/
theorem listReach_refines_moveAssign : ∃ h S,
    ListReach (noLists, ⟨fun _ => none, noLists.fresh⟩) (h, S) ∧ S.seq 0 = some [] ∧
      S.seq 2 = some [(1, 7)] ∧ h.forward 2 2 (h.begin 2) = some [(1, 7)] ∧
      h.backward (h.begin 2) 2 2 = some [(1, 7)] := by
  let c1 : Heap ℕ × Lists ℕ := (noLists.constructList.1, ⟨update (fun _ => none) 0 (some []), 1⟩)
  let c2 : Heap ℕ × Lists ℕ := (c1.1.pushBack 0 7, (ListOp.pushBack 0 7).apply c1.2)
  let c3 : Heap ℕ × Lists ℕ := (c2.1.constructList.1, ListOp.construct.apply c2.2)
  let c4 : Heap ℕ × Lists ℕ := (c3.1.moveAssign 2 0, (ListOp.moveAssign 2 0).apply c3.2)
  have hreach : ListReach (noLists, ⟨fun _ => none, noLists.fresh⟩) c4 := by
    apply Relation.ReflTransGen.tail (b := c3)
    · apply Relation.ReflTransGen.tail (b := c2)
      · apply Relation.ReflTransGen.tail (b := c1)
        · exact Relation.ReflTransGen.single ⟨.construct, trivial, rfl, rfl⟩
        · exact ⟨.pushBack 0 7, show c1.2.seq 0 ≠ none by decide, rfl, rfl⟩
      · exact ⟨.construct, trivial, rfl, rfl⟩
    · exact ⟨.moveAssign 2 0, ⟨by decide, by decide⟩, rfl, rfl⟩
  have hs : c4.2.seq 2 = some [(1, 7)] := by decide
  rcases (listReach_refines hreach).1 2 _ hs with ⟨hforward, hbackward, -⟩
  exact ⟨c4.1, c4.2, hreach, by decide, hs, hforward, hbackward⟩

end HmmOS.Nonstd
