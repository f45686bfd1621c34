import HmmOS.Nonstd.List

/-! # Collections of `nonstd::list` objects

An iterator is the address of its node, so an element of an abstract sequence is an
address with a value.
-/
namespace HmmOS.Nonstd
open Lib.Ring Function

variable {α : Type*}

namespace Heap

/-- The loop of the counted and the range `insert`; `rv` is the iterator they return. -/
def insertLoop (l pos : ℕ) : List α → Heap α → ℕ → Heap α × ℕ
  | [], h, rv => (h, rv)
  | v :: vs, h, rv =>
    let r := h.emplace l pos v
    insertLoop l pos vs r.1 (if rv = pos then r.2 else rv)

def insertCount (h : Heap α) (l pos count : ℕ) (v : α) : Heap α × ℕ :=
  insertLoop l pos (List.replicate count v) h pos

/-- `insert` of the values a range of some other container produces. -/
def insertRange (h : Heap α) (l pos : ℕ) (vs : List α) : Heap α × ℕ := insertLoop l pos vs h pos

def clearLoop (l : ℕ) : ℕ → Heap α → ℕ → Option (Heap α)
  | 0, _, _ => none
  | fuel + 1, h, it =>
    if it ≠ l then let r := h.erase l it; clearLoop l fuel r.1 r.2 else some h

def clear (h : Heap α) (l : ℕ) : Option (Heap α) := clearLoop l (h.size l + 1) h (h.begin l)

def pushBack (h : Heap α) (l : ℕ) (v : α) : Heap α := (h.emplace l l v).1

def pushFront (h : Heap α) (l : ℕ) (v : α) : Heap α := (h.emplace l (h.begin l) v).1

def popBack (h : Heap α) (l : ℕ) : Heap α := (h.erase l (h.links.prev l)).1

def popFront (h : Heap α) (l : ℕ) : Heap α := (h.erase l (h.begin l)).1

/-- `insert(end(), first, last)` for iterators of another list. -/
def copyLoop (l last : ℕ) : ℕ → Heap α → ℕ → Option (Heap α)
  | 0, _, _ => none
  | fuel + 1, h, first =>
    if first ≠ last then
      (h.val first).bind fun v => copyLoop l last fuel (h.emplace l l v).1 (h.links.next first)
    else some h

def copyConstruct (h : Heap α) (other : ℕ) : Option (Heap α × ℕ) :=
  let r := h.constructList
  (copyLoop r.2 other (r.1.size other + 1) r.1 (r.1.begin other)).map fun h' => (h', r.2)

/-- Copy assignment: a temporary copy is moved in and destroyed. -/
def copyAssign (h : Heap α) (l other : ℕ) : Option (Heap α) :=
  (h.copyConstruct other).bind fun r => (r.1.moveAssign l r.2).clear r.2

def distance (h : Heap α) (last : ℕ) : ℕ → ℕ → Option ℕ
  | 0, _ => none
  | fuel + 1, first =>
    if first ≠ last then (distance h last fuel (h.links.next first)).map (· + 1) else some 0

def spliceAll (h : Heap α) (l pos other : ℕ) : Heap α :=
  h.spliceImpl l pos other (h.begin other) other (h.size other)

def spliceRange (h : Heap α) (l pos other first last : ℕ) : Option (Heap α) :=
  (h.distance last (h.size other + 1) first).map (h.spliceImpl l pos other first last)

def forward (h : Heap α) (stop : ℕ) : ℕ → ℕ → Option (List (ℕ × α))
  | 0, _ => none
  | fuel + 1, it =>
    if it ≠ stop then
      (h.val it).bind fun v => (forward h stop fuel (h.links.next it)).map ((it, v) :: ·)
    else some []

/-- Traversal with reverse iterators from the one based on `it`; a reverse iterator denotes the element
before its base. -/
def backward (h : Heap α) (stop : ℕ) : ℕ → ℕ → Option (List (ℕ × α))
  | 0, _ => none
  | fuel + 1, it =>
    if it ≠ stop then
      let prev := h.links.prev it
      (h.val prev).bind fun v => (backward h stop fuel prev).map ((prev, v) :: ·)
    else some []

end Heap

inductive ListOp (α : Type*)
  | construct
  | emplace (l pos : ℕ) (v : α)
  | insertCount (l pos count : ℕ) (v : α)
  | insertRange (l pos : ℕ) (vs : List α)
  | erase (l pos : ℕ)
  | pushBack (l : ℕ) (v : α)
  | pushFront (l : ℕ) (v : α)
  | popBack (l : ℕ)
  | popFront (l : ℕ)
  | clear (l : ℕ)
  | copyConstruct (other : ℕ)
  | copyAssign (l other : ℕ)
  | moveConstruct (other : ℕ)
  | moveAssign (l other : ℕ)
  | spliceAll (l pos other : ℕ)
  | splice (l pos other it : ℕ)
  | spliceRange (l pos other first last : ℕ)
  | destroy (l : ℕ)

/-- The heap after an operation; `none` when a loop does not end or reads a value that is not
there. -/
def ListOp.run (h : Heap α) : ListOp α → Option (Heap α)
  | .construct => some h.constructList.1
  | .emplace l pos v => some (h.emplace l pos v).1
  | .insertCount l pos count v => some (h.insertCount l pos count v).1
  | .insertRange l pos vs => some (h.insertRange l pos vs).1
  | .erase l pos => some (h.erase l pos).1
  | .pushBack l v => some (h.pushBack l v)
  | .pushFront l v => some (h.pushFront l v)
  | .popBack l => some (h.popBack l)
  | .popFront l => some (h.popFront l)
  | .clear l => h.clear l
  | .copyConstruct other => (h.copyConstruct other).map Prod.fst
  | .copyAssign l other => h.copyAssign l other
  | .moveConstruct other => some (h.moveConstruct other).1
  | .moveAssign l other => some (h.moveAssign l other)
  | .spliceAll l pos other => some (h.spliceAll l pos other)
  | .splice l pos other it => some (h.splice l pos other it)
  | .spliceRange l pos other first last => h.spliceRange l pos other first last
  | .destroy l => h.clear l

/-- The lists that exist, by address, and the next unused address. -/
@[ext] structure Lists (α : Type*) where
  seq : ℕ → Option (List (ℕ × α))
  fresh : ℕ

def ids (s : List (ℕ × α)) : List ℕ := s.map Prod.fst

def number (a : ℕ) : List α → List (ℕ × α)
  | [] => []
  | v :: vs => (a, v) :: number (a + 1) vs

def before (s : List (ℕ × α)) (pos : ℕ) : List (ℕ × α) := s.takeWhile fun e => e.1 ≠ pos
def after (s : List (ℕ × α)) (pos : ℕ) : List (ℕ × α) := s.dropWhile fun e => e.1 ≠ pos

namespace Lists

def get (S : Lists α) (l : ℕ) : List (ℕ × α) := (S.seq l).getD []

@[simps] def set (S : Lists α) (l : ℕ) (s : List (ℕ × α)) : Lists α :=
  { S with seq := Function.update S.seq l (some s) }

@[simps seq] def drop (S : Lists α) (l : ℕ) : Lists α :=
  { S with seq := Function.update S.seq l none }

@[simps] def alloc (S : Lists α) (n : ℕ) : Lists α := { S with fresh := S.fresh + n }

def insert (S : Lists α) (l pos : ℕ) (vs : List α) : Lists α :=
  (S.set l (before (S.get l) pos ++ (number S.fresh vs ++ after (S.get l) pos))).alloc vs.length

/-- Move the elements `ms` of `other` to before `pos`; `rest` is what `other` keeps. -/
def move (S : Lists α) (l pos other : ℕ) (ms rest : List (ℕ × α)) : Lists α :=
  (S.set l (before (S.get l) pos ++ (ms ++ after (S.get l) pos))).set other rest

end Lists

def ListOp.apply (S : Lists α) : ListOp α → Lists α
  | .construct => (S.set S.fresh []).alloc 1
  | .emplace l pos v => S.insert l pos [v]
  | .insertCount l pos count v => S.insert l pos (List.replicate count v)
  | .insertRange l pos vs => S.insert l pos vs
  | .erase l pos => S.set l ((S.get l).filter fun e => e.1 ≠ pos)
  | .pushBack l v => (S.set l (S.get l ++ [(S.fresh, v)])).alloc 1
  | .pushFront l v => (S.set l ((S.fresh, v) :: S.get l)).alloc 1
  | .popBack l => S.set l (S.get l).dropLast
  | .popFront l => S.set l (S.get l).tail
  | .clear l => S.set l []
  | .copyConstruct other =>
    (S.set S.fresh (number (S.fresh + 1) ((S.get other).map Prod.snd))).alloc ((S.get other).length + 1)
  | .copyAssign l other =>
    (S.set l (number (S.fresh + 1) ((S.get other).map Prod.snd))).alloc ((S.get other).length + 1)
  | .moveConstruct other => ((S.set S.fresh (S.get other)).set other []).alloc 1
  | .moveAssign l other => (S.set l (S.get other)).set other (S.get l)
  | .spliceAll l pos other => S.move l pos other (S.get other) []
  | .splice l pos other it => S.move l pos other ((S.get other).filter fun e => e.1 = it)
      ((S.get other).filter fun e => e.1 ≠ it)
  | .spliceRange l pos other first last =>
    S.move l pos other (before (after (S.get other) first) last)
      (before (S.get other) first ++ after (after (S.get other) first) last)
  | .destroy l => S.drop l

/-- `pos` is an iterator of the list at `l`, which exists. -/
def Lists.At (S : Lists α) (l pos : ℕ) : Prop := S.seq l ≠ none ∧ pos ∈ l :: ids (S.get l)

/-- What the caller of an operation promises: its lists exist, its iterators belong to them, and it
pops from and splices between lists where this makes sense. -/
def ListOp.Valid (S : Lists α) : ListOp α → Prop
  | .construct => True
  | .emplace l pos _ | .insertCount l pos _ _ | .insertRange l pos _ => S.At l pos
  | .erase l pos => S.At l pos ∧ pos ≠ l
  | .pushBack l _ | .pushFront l _ | .clear l | .destroy l => S.seq l ≠ none
  | .popBack l | .popFront l => S.seq l ≠ none ∧ S.get l ≠ []
  | .copyConstruct other | .moveConstruct other => S.seq other ≠ none
  | .copyAssign l other | .moveAssign l other => S.seq l ≠ none ∧ S.seq other ≠ none
  | .spliceAll l pos other => l ≠ other ∧ S.At l pos ∧ S.seq other ≠ none
  | .splice l pos other it => l ≠ other ∧ S.At l pos ∧ S.At other it ∧ it ≠ other
  | .spliceRange l pos other first last => l ≠ other ∧ S.At l pos ∧ S.At other first ∧
      last ∈ other :: ids (after (S.get other) first)

/-- Every list of `S` is laid out in the heap, with its values, and no two share a node. -/
structure Represents (h : Heap α) (S : Lists α) : Prop where
  fresh : h.fresh = S.fresh
  list : ∀ {l s}, S.seq l = some s → IsList h l (ids s)
  val : ∀ {l s}, S.seq l = some s → ∀ e ∈ s, h.val e.1 = some e.2
  apart : ∀ {l l' s s'}, S.seq l = some s → S.seq l' = some s' → l ≠ l' →
    (l :: ids s).Disjoint (l' :: ids s')

section Step
variable {h h' : Heap α} {S S' : Lists α} {l o pos : ℕ} {s xs ys s' u : List (ℕ × α)} {e : ℕ × α}
  {v : α}

/-- An operation on the lists `T`, whose nodes are `N`: their new nodes are old ones of theirs or
newly allocated. -/
theorem Represents.step (hr : Represents h S) {T N : List ℕ} (hf : Frame N h h')
    (hN : ∀ a ∈ N, ∃ l ∈ T, ∃ s, S.seq l = some s ∧ a ∈ l :: ids s)
    (hT : ∀ l, l ∉ T → S'.seq l = S.seq l) (hfresh : h'.fresh = S'.fresh)
    (hin : ∀ l ∈ T, ∀ s, S'.seq l = some s → IsList h' l (ids s) ∧
      (∀ e ∈ s, h'.val e.1 = some e.2) ∧ ∀ a ∈ l :: ids s, a ∈ N ∨ h.fresh ≤ a)
    (hapart : ∀ l ∈ T, ∀ l' ∈ T, l ≠ l' → ∀ s s', S'.seq l = some s → S'.seq l' = some s' →
      (l :: ids s).Disjoint (l' :: ids s')) : Represents h' S' := by
  -- the nodes of the other lists are not touched
  have hout : ∀ l, l ∉ T → ∀ s, S.seq l = some s → ∀ a ∈ l :: ids s, a ∉ N := by
    intro l hl s hs a ha hm
    rcases hN a hm with ⟨l', hl', s', hs', ha'⟩
    have hne : l ≠ l' := fun he => hl (he ▸ hl')
    exact hr.apart hs hs' hne ha ha'
  have hmixed : ∀ l ∈ T, ∀ l', l' ∉ T → ∀ s s', S'.seq l = some s → S'.seq l' = some s' →
      (l :: ids s).Disjoint (l' :: ids s') := by
    intro l hl l' hl' s s' hs hs' a ha ha'
    rw [hT l' hl'] at hs'
    rcases (hin l hl s hs).2.2 a ha with hm | hge
    · exact hout l' hl' s' hs' a ha' hm
    · exact absurd ((hr.list hs').fresh a ha') (not_lt.mpr hge)
  constructor
  case fresh => exact hfresh
  case list =>
    intro l s hs
    by_cases hl : l ∈ T
    · exact (hin l hl s hs).1
    · rw [hT l hl] at hs
      exact (hr.list hs).frame hf (hout l hl s hs)
  case val =>
    intro l s hs e he
    by_cases hl : l ∈ T
    · exact (hin l hl s hs).2.1 e he
    · rw [hT l hl] at hs
      have hmem : e.1 ∈ l :: ids s := List.mem_cons_of_mem _ (List.mem_map_of_mem he)
      rw [hf.val e.1 ((hr.list hs).fresh _ hmem) (hout l hl s hs _ hmem)]
      exact hr.val hs e he
  case apart =>
    intro l l' s s' hs hs' hne
    by_cases hl : l ∈ T
    · by_cases hl' : l' ∈ T
      · exact hapart l hl l' hl' hne s s' hs hs'
      · exact hmixed l hl l' hl' s s' hs hs'
    · by_cases hl' : l' ∈ T
      · exact (hmixed l' hl' l hl s' s hs' hs).symm
      · rw [hT l hl] at hs
        rw [hT l' hl'] at hs'
        exact hr.apart hs hs' hne

theorem Represents.step_one (hr : Represents h S) {n : ℕ} {N : List ℕ} (hf : Frame N h h')
    (hN : ∀ a ∈ N, ∃ s, S.seq l = some s ∧ a ∈ l :: ids s) (hfresh : h'.fresh = S.fresh + n)
    (hlist : IsList h' l (ids s')) (hval : ∀ e ∈ s', h'.val e.1 = some e.2)
    (hnew : ∀ a ∈ l :: ids s', a ∈ N ∨ S.fresh ≤ a) : Represents h' ((S.set l s').alloc n) := by
  apply hr.step (T := [l]) hf
  · exact fun a ha => ⟨l, by simp, hN a ha⟩
  · intro k hk
    rw [Lists.alloc_seq, Lists.set_seq, update_of_ne (by simpa using hk)]
  · exact hfresh
  · intro k hk t ht
    obtain rfl := List.mem_singleton.mp hk
    rw [Lists.alloc_seq, Lists.set_seq, update_self, Option.some.injEq] at ht
    subst ht
    rw [hr.fresh]
    exact ⟨hlist, hval, hnew⟩
  · intro k hk k' hk' hne
    exact absurd ((List.mem_singleton.mp hk).trans (List.mem_singleton.mp hk').symm) hne

@[simp] theorem ids_cons : ids (e :: s) = e.1 :: ids s := rfl

@[simp] theorem ids_append : ids (xs ++ ys) = ids xs ++ ids ys := List.map_append ..

theorem mem_ids (he : e ∈ s) : e.1 ∈ ids s := List.mem_map_of_mem he

section
variable (hr : Represents h S)
include hr

theorem Represents.construct : Represents h.constructList.1 ((S.set S.fresh []).alloc 1) := by
  have hl : h.constructList.2 = S.fresh := hr.fresh
  apply hr.step_one (constructList_frame h)
  · simp
  · exact congrArg (· + 1) hr.fresh
  · exact hl ▸ constructList_isList h
  · simp
  · exact fun a ha => .inr (List.mem_singleton.mp ha).ge

theorem Represents.emplace (hs : S.seq l = some (xs ++ ys)) (hpos : pos = (ids ys).headD l) :
    Represents (h.emplace l pos v).1 ((S.set l (xs ++ (S.fresh, v) :: ys)).alloc 1) := by
  have hl : IsList h l (ids xs ++ ids ys) := ids_append ▸ hr.list hs
  apply hr.step_one (emplace_frame hl hpos)
  · exact fun a ha => ⟨_, hs, ids_append ▸ ha⟩
  · rw [emplace_fresh, hr.fresh]
  · rw [ids_append, ids_cons, ← hr.fresh]
    exact emplace_isList hl hpos
  · intro e he
    rw [emplace_val, hr.fresh]
    have hmem : e = (S.fresh, v) ∨ e ∈ xs ++ ys := by
      simp only [List.mem_append, List.mem_cons] at he ⊢
      tauto
    rcases hmem with rfl | hmem
    · exact update_self ..
    · have hlt := (hr.list hs).fresh e.1 (List.mem_cons_of_mem _ (mem_ids hmem))
      rw [hr.fresh] at hlt
      rw [update_of_ne hlt.ne]
      exact hr.val hs e hmem
  · intro a ha
    simp only [ids_append, ids_cons, List.mem_append, List.mem_cons] at ha ⊢
    rcases ha with ha | ha | rfl | ha
    · exact .inl (.inl ha)
    · exact .inl (.inr (.inl ha))
    · exact .inr le_rfl
    · exact .inl (.inr (.inr ha))

theorem Represents.erase (hs : S.seq l = some (xs ++ e :: ys)) :
    Represents (h.erase l e.1).1 (S.set l (xs ++ ys)) := by
  have hl : IsList h l (ids xs ++ e.1 :: ids ys) := by simpa using hr.list hs
  apply hr.step_one (n := 0) (erase_frame hl)
  · exact fun a ha => ⟨_, hs, by simpa using ha⟩
  · exact hr.fresh
  · rw [ids_append]
    exact erase_isList hl
  · intro d hd
    have hmem : d ∈ xs ++ e :: ys := by
      simp only [List.mem_append, List.mem_cons] at hd ⊢
      tauto
    have hne : d.1 ≠ e.1 := by
      intro he
      have hnd := (List.nodup_cons.mp hl.ring.nodup).2
      have hd' : d.1 ∈ ids (xs ++ ys) := mem_ids hd
      simp only [ids_append, List.mem_append] at hd'
      grind
    rw [erase_val, update_of_ne hne]
    exact hr.val hs d hmem
  · intro a ha
    simp only [ids_append, List.mem_append, List.mem_cons] at ha ⊢
    tauto

theorem Represents.drop : Represents h (S.drop l) := by
  have hsub : ∀ {k t}, (S.drop l).seq k = some t → S.seq k = some t := by
    intro k t ht
    by_cases hk : k = l
    · rw [Lists.drop_seq, hk, update_self] at ht
      exact absurd ht (by simp)
    · rwa [Lists.drop_seq, update_of_ne hk] at ht
  exact ⟨hr.fresh, fun ht => hr.list (hsub ht), fun ht => hr.val (hsub ht),
    fun ht ht' => hr.apart (hsub ht) (hsub ht')⟩

theorem Represents.disjoint_of_perm {is js : List ℕ} (hs : S.seq l = some s) (hu : S.seq o = some u)
    (hlo : l ≠ o) (hperm : (is ++ js).Perm (ids s ++ ids u)) : (l :: is).Disjoint (o :: js) := by
  have hapart := hr.apart hs hu hlo
  have hnd : (ids s ++ ids u).Nodup := by
    apply List.nodup_append'.mpr
    refine ⟨(List.nodup_cons.mp (hr.list hs).ring.nodup).2,
      (List.nodup_cons.mp (hr.list hu).ring.nodup).2, fun a ha ha' => ?_⟩
    exact hapart (List.mem_cons_of_mem _ ha) (List.mem_cons_of_mem _ ha')
  -- neither header is an element of the two lists
  have hheads : ∀ a ∈ is ++ js, a ≠ l ∧ a ≠ o := by
    intro a ha
    rcases List.mem_append.mp (hperm.mem_iff.mp ha) with hm | hm
    · exact ⟨fun he => (hr.list hs).ring.not_mem (he ▸ hm),
        fun he => hapart (List.mem_cons_of_mem _ hm) (he ▸ List.mem_cons_self)⟩
    · exact ⟨fun he => hapart List.mem_cons_self (he ▸ List.mem_cons_of_mem _ hm),
        fun he => (hr.list hu).ring.not_mem (he ▸ hm)⟩
  intro a ha ha'
  rcases List.mem_cons.mp ha with rfl | ha
  · rcases List.mem_cons.mp ha' with he | ha'
    · exact hlo he
    · exact (hheads a (List.mem_append_right _ ha')).1 rfl
  · rcases List.mem_cons.mp ha' with rfl | ha'
    · exact (hheads a (List.mem_append_left _ ha)).2 rfl
    · exact (List.nodup_append'.mp (hperm.nodup_iff.mpr hnd)).2.2 ha ha'

theorem Represents.step_two {u' : List (ℕ × α)} (hs : S.seq l = some s) (hu : S.seq o = some u)
    (hlo : l ≠ o) (hf : Frame ((l :: ids s) ++ (o :: ids u)) h h') (hfresh : h'.fresh = h.fresh)
    (hval : h'.val = h.val) (hlist : IsList h' l (ids s')) (hother : IsList h' o (ids u'))
    (hperm : (s' ++ u').Perm (s ++ u)) : Represents h' ((S.set l s').set o u') := by
  have hl : ((S.set l s').set o u').seq l = some s' := by
    rw [Lists.set_seq, update_of_ne hlo, Lists.set_seq, update_self]
  have ho : ((S.set l s').set o u').seq o = some u' := by
    rw [Lists.set_seq, update_self]
  have hvals : ∀ e ∈ s' ++ u', h'.val e.1 = some e.2 := by
    intro e he
    rw [hval]
    rcases List.mem_append.mp (hperm.mem_iff.mp he) with he | he
    · exact hr.val hs e he
    · exact hr.val hu e he
  have hids : (ids s' ++ ids u').Perm (ids s ++ ids u) := by
    simpa [ids] using hperm.map Prod.fst
  have hnodes : ∀ a, a = l ∨ a = o ∨ a ∈ ids s' ++ ids u' → a ∈ (l :: ids s) ++ (o :: ids u) := by
    intro a ha
    rw [hids.mem_iff] at ha
    simp only [List.mem_append, List.mem_cons] at ha ⊢
    tauto
  have hdis := hr.disjoint_of_perm hs hu hlo hids
  apply hr.step (T := [l, o]) hf
  · intro a ha
    rcases List.mem_append.mp ha with ha | ha
    · exact ⟨l, by simp, s, hs, ha⟩
    · exact ⟨o, by simp, u, hu, ha⟩
  · intro k hk
    simp only [List.mem_cons, List.not_mem_nil, or_false, not_or] at hk
    rw [Lists.set_seq, update_of_ne hk.2, Lists.set_seq, update_of_ne hk.1]
  · exact hfresh.trans hr.fresh
  · intro k hk t ht
    simp only [List.mem_cons, List.not_mem_nil, or_false] at hk
    rcases hk with rfl | rfl
    · obtain rfl : s' = t := Option.some.inj (hl.symm.trans ht)
      refine ⟨hlist, fun e he => hvals e (List.mem_append_left _ he), fun a ha => .inl (hnodes a ?_)⟩
      exact (List.mem_cons.mp ha).imp_right fun ha => .inr (List.mem_append_left _ ha)
    · obtain rfl : u' = t := Option.some.inj (ho.symm.trans ht)
      refine ⟨hother, fun e he => hvals e (List.mem_append_right _ he), fun a ha => .inl (hnodes a ?_)⟩
      exact .inr ((List.mem_cons.mp ha).imp_right fun ha => List.mem_append_right _ ha)
  · intro k hk k' hk' hne t t' ht ht'
    simp only [List.mem_cons, List.not_mem_nil, or_false] at hk hk'
    rcases hk with rfl | rfl <;> rcases hk' with rfl | rfl
    · exact absurd rfl hne
    · obtain rfl : s' = t := Option.some.inj (hl.symm.trans ht)
      obtain rfl : u' = t' := Option.some.inj (ho.symm.trans ht')
      exact hdis
    · obtain rfl : u' = t := Option.some.inj (ho.symm.trans ht)
      obtain rfl : s' = t' := Option.some.inj (hl.symm.trans ht')
      exact hdis.symm
    · exact absurd rfl hne

end

@[simp] theorem Lists.set_set (S : Lists α) (l : ℕ) (s t : List (ℕ × α)) : (S.set l s).set l t = S.set l t := by
  ext1
  · exact update_idem ..
  · rfl

theorem Lists.set_of_seq (hs : S.seq l = some s) : S.set l s = S := by
  ext1
  · exact update_eq_self_iff.mpr hs.symm
  · rfl

@[simp] theorem Lists.alloc_set (S : Lists α) (l n : ℕ) (s : List (ℕ × α)) :
    (S.alloc n).set l s = (S.set l s).alloc n := rfl

@[simp] theorem Lists.alloc_alloc (S : Lists α) (m n : ℕ) : (S.alloc m).alloc n = S.alloc (m + n) := by
  ext1
  · rfl
  · exact Nat.add_assoc ..

/-- Move assignment exchanges two lists, and does nothing to a list assigned to itself. -/
theorem Represents.moveAssign (hr : Represents h S) (hs : S.seq l = some s) (hu : S.seq o = some u) :
    Represents (h.moveAssign l o) ((S.set l u).set o s) := by
  by_cases hlo : l = o
  · subst hlo
    rw [moveAssign_self, Lists.set_set, Lists.set_of_seq hs]
    exact hr
  · have hd := hr.apart hs hu hlo
    rcases moveAssign_isList (hr.list hs) (hr.list hu) hd with ⟨hl, ho⟩
    exact hr.step_two hs hu hlo (moveAssign_frame (hr.list hs) (hr.list hu)) rfl rfl hl ho
      List.perm_append_comm

theorem Represents.spliceImpl (hr : Represents h S) {us ms zs : List (ℕ × α)} {first last : ℕ}
    (hs : S.seq l = some (xs ++ ys)) (hu : S.seq o = some (us ++ (ms ++ zs))) (hlo : l ≠ o)
    (hpos : pos = (ids ys).headD l) (hfirst : first = (ids (ms ++ zs)).headD o)
    (hlast : last = (ids zs).headD o) : Represents (h.spliceImpl l pos o first last ms.length)
      ((S.set l (xs ++ (ms ++ ys))).set o (us ++ zs)) := by
  have hl : IsList h l (ids xs ++ ids ys) := by simpa using hr.list hs
  have ho : IsList h o (ids us ++ (ids ms ++ ids zs)) := by simpa using hr.list hu
  have hd : (l :: (ids xs ++ ids ys)).Disjoint (o :: (ids us ++ (ids ms ++ ids zs))) := by
    simpa using hr.apart hs hu hlo
  have hlen : ms.length = (ids ms).length := (List.length_map ..).symm
  rw [ids_append] at hfirst
  rw [hlen]
  rcases spliceImpl_isList hl ho hd hpos hfirst hlast with ⟨hl', ho'⟩
  apply hr.step_two hs hu hlo
  · have hlastm : last ∈ o :: (ids us ++ (ids ms ++ ids zs)) := by
      have := headD_mem_append (ids us ++ ids ms) (ids zs) o
      rwa [List.append_assoc, ← hlast] at this
    rw [ids_append, ids_append, ids_append]
    exact spliceImpl_frame hl ho (hpos ▸ headD_mem_append _ _ _) (hfirst ▸ headD_mem_append _ _ _) hlastm
  · rfl
  · rfl
  · simpa using hl'
  · simpa using ho'
  · have h1 : (xs ++ (ms ++ ys) ++ (us ++ zs)).Perm (xs ++ (ys ++ (us ++ (ms ++ zs)))) := by
      rw [List.append_assoc]
      apply List.Perm.append_left
      rw [List.append_assoc]
      exact (List.perm_append_comm_assoc ms ys _).trans
        ((List.perm_append_comm_assoc ms us zs).append_left ys)
    rwa [← List.append_assoc xs ys] at h1

end Step

end HmmOS.Nonstd
