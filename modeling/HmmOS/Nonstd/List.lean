import Mathlib.Tactic
import HmmOS.Lib.Ring

/-! # `nonstd::list`

A list object is a header node whose `prev` and `next` fields are `_back` and
`_front`; the header is its own end iterator. Memory is not reused after it is freed.
-/
namespace HmmOS.Nonstd
open Lib.Ring Function

/-- Node fields and list sizes by address, and the next unused address. -/
structure Heap (α : Type*) where
  links : Links ℕ
  val : ℕ → Option α
  size : ℕ → ℕ
  fresh : ℕ

variable {α : Type*}

namespace Heap

@[simps] def setNext (h : Heap α) (a b : ℕ) : Heap α :=
  { h with links := { next := Function.update h.links.next a b, prev := h.links.prev } }

@[simps] def setPrev (h : Heap α) (a b : ℕ) : Heap α :=
  { h with links := { next := h.links.next, prev := Function.update h.links.prev a b } }

@[simps] def setVal (h : Heap α) (a : ℕ) (v : Option α) : Heap α :=
  { h with val := Function.update h.val a v }

@[simps] def setSize (h : Heap α) (l n : ℕ) : Heap α :=
  { h with size := Function.update h.size l n }

@[simps] def bump (h : Heap α) : Heap α := { h with fresh := h.fresh + 1 }

def swapNext (h : Heap α) (a b : ℕ) : Heap α :=
  (h.setNext a (h.links.next b)).setNext b (h.links.next a)

def swapPrev (h : Heap α) (a b : ℕ) : Heap α :=
  (h.setPrev a (h.links.prev b)).setPrev b (h.links.prev a)

/-- The default constructor; returns the address of the list. -/
def constructList (h : Heap α) : Heap α × ℕ :=
  let l := h.fresh
  (((h.bump.setPrev l l).setNext l l).setSize l 0, l)

def begin (h : Heap α) (l : ℕ) : ℕ := if h.size l = 0 then l else h.links.next l

def emplace (h : Heap α) (l pos : ℕ) (v : α) : Heap α × ℕ :=
  let next := pos
  let prev := h.links.prev next
  let new := h.fresh
  let h1 := h.bump.setVal new (some v)
  let h2 := (((h1.setPrev new prev).setNext new next).setPrev next new).setNext prev new
  (h2.setSize l (h2.size l + 1), new)

def erase (h : Heap α) (l pos : ℕ) : Heap α × ℕ :=
  let next := h.links.next pos
  let h1 := h.setPrev next (h.links.prev pos)
  let h2 := (h1.setNext (h1.links.prev pos) next).setVal pos none
  (h2.setSize l (h2.size l - 1), next)

/-- Move the `n` elements of `[first, last)` from `other` to before `pos`. -/
def spliceImpl (h : Heap α) (l pos other first last n : ℕ) : Heap α :=
  let prev := h.links.prev pos
  let firstPrev := h.links.prev first
  let lastPrev := h.links.prev last
  let h1 := (h.swapPrev first pos).swapNext lastPrev prev
  let h2 := (h1.swapNext prev firstPrev).swapPrev pos last
  let h3 := h2.setSize l (h2.size l + n)
  h3.setSize other (h3.size other - n)

def splice (h : Heap α) (l pos other it : ℕ) : Heap α :=
  h.spliceImpl l pos other it (h.links.next it) 1

/-- Move assignment, which exchanges the contents of the lists. -/
def moveAssign (h : Heap α) (l other : ℕ) : Heap α :=
  let h1 := (h.setSize l (h.size other)).setSize other (h.size l)
  let b1 := h1.links.prev l
  let b2 := h1.links.prev other
  let h2 := h1.swapPrev (h1.links.next l) (h1.links.next other)
  ((h2.swapNext b1 b2).swapNext l other).swapPrev l other

def moveConstruct (h : Heap α) (other : ℕ) : Heap α × ℕ :=
  (h.constructList.1.moveAssign h.constructList.2 other, h.constructList.2)

def swapLists (h : Heap α) (l other : ℕ) : Heap α :=
  let r := h.moveConstruct l
  (r.1.moveAssign l other).moveAssign other r.2

end Heap

structure IsList (h : Heap α) (l : ℕ) (xs : List ℕ) : Prop where
  ring : IsRing h.links l xs
  size : h.size l = xs.length
  fresh : ∀ a ∈ l :: xs, a < h.fresh

/-- Outside `F` the heap `h'` is `h` with more memory in use. -/
structure Frame (F : List ℕ) (h h' : Heap α) : Prop where
  fresh : h.fresh ≤ h'.fresh
  next : ∀ a < h.fresh, a ∉ F → h'.links.next a = h.links.next a
  prev : ∀ a < h.fresh, a ∉ F → h'.links.prev a = h.links.prev a
  val : ∀ a < h.fresh, a ∉ F → h'.val a = h.val a
  size : ∀ a < h.fresh, a ∉ F → h'.size a = h.size a

section Framing
variable {h h' h'' : Heap α} {F F' : List ℕ} {l : ℕ} {xs : List ℕ}

theorem Frame.refl (F : List ℕ) (h : Heap α) : Frame F h h :=
  ⟨le_rfl, fun _ _ _ => rfl, fun _ _ _ => rfl, fun _ _ _ => rfl, fun _ _ _ => rfl⟩

theorem Frame.trans (hf : Frame F h h') (hf' : Frame F' h' h'')
    (hF : ∀ a ∈ F', a < h.fresh → a ∈ F) : Frame F h h'' := by
  have hlt : ∀ a < h.fresh, a < h'.fresh := fun a ha => lt_of_lt_of_le ha hf.fresh
  have hout : ∀ a < h.fresh, a ∉ F → a ∉ F' := fun a ha hn hm => hn (hF a hm ha)
  exact ⟨le_trans hf.fresh hf'.fresh,
    fun a ha hn => (hf'.next a (hlt a ha) (hout a ha hn)).trans (hf.next a ha hn),
    fun a ha hn => (hf'.prev a (hlt a ha) (hout a ha hn)).trans (hf.prev a ha hn),
    fun a ha hn => (hf'.val a (hlt a ha) (hout a ha hn)).trans (hf.val a ha hn),
    fun a ha hn => (hf'.size a (hlt a ha) (hout a ha hn)).trans (hf.size a ha hn)⟩

theorem Frame.mono (hf : Frame F h h') (hF : ∀ a ∈ F, a ∈ F') : Frame F' h h' :=
  ⟨hf.fresh, fun a ha hn => hf.next a ha fun hm => hn (hF a hm),
    fun a ha hn => hf.prev a ha fun hm => hn (hF a hm), fun a ha hn => hf.val a ha fun hm => hn (hF a hm),
    fun a ha hn => hf.size a ha fun hm => hn (hF a hm)⟩

theorem IsList.frame (hl : IsList h l xs) (hf : Frame F h h') (hd : ∀ a ∈ l :: xs, a ∉ F) : IsList h' l xs where
  ring := hl.ring.congr (fun a ha => hf.next a (hl.fresh a ha) (hd a ha))
    (fun a ha => hf.prev a (hl.fresh a ha) (hd a ha))
  size := (hf.size l (hl.fresh l (by simp)) (hd l (by simp))).trans hl.size
  fresh a ha := lt_of_lt_of_le (hl.fresh a ha) hf.fresh

theorem IsList.begin_eq (hl : IsList h l xs) : h.begin l = xs.headD l := by
  rw [Heap.begin, hl.size]
  split_ifs with hs
  · rw [List.length_eq_zero_iff.mp hs]
    rfl
  · exact hl.ring.next_head

end Framing

theorem constructList_isList (h : Heap α) : IsList h.constructList.1 h.constructList.2 [] where
  ring := ⟨⟨by simp [Heap.constructList], by simp [Heap.constructList]⟩, by simp⟩
  size := by simp [Heap.constructList]
  fresh := by simp [Heap.constructList]

theorem constructList_frame (h : Heap α) : Frame [] h h.constructList.1 := by
  have hne : ∀ a < h.fresh, a ≠ h.fresh := fun a ha => ne_of_lt ha
  constructor
  · simp [Heap.constructList]
  · intro a ha _
    simp [Heap.constructList, update_of_ne (hne a ha)]
  · intro a ha _
    simp [Heap.constructList, update_of_ne (hne a ha)]
  · intro a ha _
    simp [Heap.constructList]
  · intro a ha _
    simp [Heap.constructList, update_of_ne (hne a ha)]

section Emplace
variable {h : Heap α} {l pos : ℕ} {v : α} {xs ys : List ℕ}

theorem emplace_links (hp : h.links.prev pos ≠ h.fresh) : (h.emplace l pos v).1.links =
      (h.links.join (h.links.prev pos) h.fresh).join h.fresh pos := by
  ext1
  · exact update_comm hp.symm ..
  · rfl

theorem emplace_isList (hl : IsList h l (xs ++ ys)) (hpos : pos = ys.headD l) :
    IsList (h.emplace l pos v).1 l (xs ++ h.fresh :: ys) := by
  have hprev : h.links.prev pos = xs.getLastD l := hpos ▸ hl.ring.prev_at
  have hnew : h.fresh ∉ l :: (xs ++ ys) := fun hm => lt_irrefl _ (hl.fresh _ hm)
  have hne : h.links.prev pos ≠ h.fresh := by
    intro he
    apply hnew
    rw [← he, hprev]
    exact getLastD_mem_append xs ys l
  constructor
  · rw [emplace_links hne, hprev, hpos]
    exact hl.ring.insert hnew
  · simp [Heap.emplace, hl.size]
    omega
  · intro a ha
    have : a = h.fresh ∨ a ∈ l :: (xs ++ ys) := by
      simp only [List.mem_cons, List.mem_append] at ha ⊢
      tauto
    rcases this with rfl | hm
    · exact Nat.lt_succ_self _
    · exact Nat.lt_succ_of_lt (hl.fresh a hm)

theorem emplace_frame (hl : IsList h l (xs ++ ys)) (hpos : pos = ys.headD l) :
    Frame (l :: (xs ++ ys)) h (h.emplace l pos v).1 := by
  have hprev : h.links.prev pos = xs.getLastD l := hpos ▸ hl.ring.prev_at
  have hpm : h.links.prev pos ∈ l :: (xs ++ ys) := hprev ▸ getLastD_mem_append xs ys l
  have hqm : pos ∈ l :: (xs ++ ys) := hpos ▸ headD_mem_append xs ys l
  have hne : ∀ a < h.fresh, a ≠ h.fresh := fun a ha => ne_of_lt ha
  constructor
  · simp [Heap.emplace]
  · intro a ha hout
    have hap : a ≠ h.links.prev pos := fun he => hout (he ▸ hpm)
    simp [Heap.emplace, update_of_ne hap, update_of_ne (hne a ha)]
  · intro a ha hout
    have haq : a ≠ pos := fun he => hout (he ▸ hqm)
    simp [Heap.emplace, update_of_ne haq, update_of_ne (hne a ha)]
  · intro a ha hout
    simp [Heap.emplace, update_of_ne (hne a ha)]
  · intro a ha hout
    have hal : a ≠ l := fun he => hout (by simp [he])
    simp [Heap.emplace, update_of_ne hal]

@[simp] theorem emplace_snd : (h.emplace l pos v).2 = h.fresh := rfl

@[simp] theorem emplace_val : (h.emplace l pos v).1.val = update h.val h.fresh (some v) := rfl

@[simp] theorem emplace_fresh : (h.emplace l pos v).1.fresh = h.fresh + 1 := rfl

end Emplace

section Erase
variable {h : Heap α} {l n : ℕ} {xs ys : List ℕ}

theorem erase_links (hl : IsList h l (xs ++ n :: ys)) :
    (h.erase l n).1.links = h.links.join (xs.getLastD l) (ys.headD l) := by
  have hnext := hl.ring.next_of_mem
  have hprev := hl.ring.prev_of_mem
  have hne := hl.ring.ne_next
  simp only [Heap.erase, hnext, hprev, Links.join, Heap.setSize_links, Heap.setVal_links,
    Heap.setPrev_links_prev, update_of_ne hne]
  rfl

theorem erase_isList (hl : IsList h l (xs ++ n :: ys)) : IsList (h.erase l n).1 l (xs ++ ys) := by
  constructor
  · rw [erase_links hl]
    exact hl.ring.erase
  · simp [Heap.erase, hl.size]
  · intro a ha
    apply hl.fresh
    simp only [List.mem_cons, List.mem_append] at ha ⊢
    tauto

theorem erase_snd (hl : IsList h l (xs ++ n :: ys)) : (h.erase l n).2 = ys.headD l :=
  hl.ring.next_of_mem

@[simp] theorem erase_val : (h.erase l n).1.val = update h.val n none := rfl

theorem erase_frame (hl : IsList h l (xs ++ n :: ys)) : Frame (l :: (xs ++ n :: ys)) h (h.erase l n).1 := by
  have hpm : xs.getLastD l ∈ l :: (xs ++ n :: ys) := getLastD_mem_append xs (n :: ys) l
  have hqm : ys.headD l ∈ l :: (xs ++ n :: ys) := by
    simpa using headD_mem_append (xs ++ [n]) ys l
  constructor
  · exact le_rfl
  · intro a _ hout
    rw [erase_links hl]
    exact join_next_of_ne fun he => hout (he ▸ hpm)
  · intro a _ hout
    rw [erase_links hl]
    exact join_prev_of_ne fun he => hout (he ▸ hqm)
  · intro a _ hout
    have han : a ≠ n := fun he => hout (by simp [he])
    rw [erase_val, update_of_ne han]
  · intro a _ hout
    have hal : a ≠ l := fun he => hout (by simp [he])
    simp [Heap.erase, update_of_ne hal]

end Erase

section Splice
variable {h : Heap α} {l o pos first last n : ℕ} {xs ys us ms zs : List ℕ}

theorem spliceImpl_nil_links : (h.spliceImpl l pos o last last n).links = h.links := by
  simp only [Heap.spliceImpl, Heap.swapPrev, Heap.swapNext]
  ext a
  · simp only [Heap.setSize_links, Heap.setPrev_links_next, Heap.setNext_links_next,
      update_apply]
    grind
  · simp only [Heap.setSize_links, Heap.setPrev_links_prev, Heap.setNext_links_prev,
      update_apply]
    grind

theorem spliceImpl_links (hp : h.links.next (h.links.prev pos) = pos)
    (hf : h.links.next (h.links.prev first) = first) (hl : h.links.next (h.links.prev last) = last)
    (hpf : pos ≠ first) (hpl : pos ≠ last) (hfl : first ≠ last) : (h.spliceImpl l pos o first last n).links =
      ((h.links.join (h.links.prev first) last).join (h.links.prev pos) first).join
        (h.links.prev last) pos := by
  simp only [Heap.spliceImpl, Heap.swapPrev, Heap.swapNext]
  ext a
  · simp only [Heap.setSize_links, Heap.setPrev_links_next, Heap.setNext_links_next, Links.join,
      update_apply]
    grind
  · simp only [Heap.setSize_links, Heap.setPrev_links_prev, Heap.setNext_links_prev, Links.join,
      update_apply]
    grind

/-- Splicing the range from `first` on in from another list takes the range out there and puts it
in here. -/
theorem spliceImpl_cons_links (hl : IsList h l (xs ++ ys)) (ho : IsList h o (us ++ first :: (ms ++ zs)))
    (hd : (l :: (xs ++ ys)).Disjoint (o :: (us ++ first :: (ms ++ zs)))) (hpos : pos = ys.headD l)
    (hlast : last = zs.headD o) : (h.spliceImpl l pos o first last n).links =
      ((h.links.join (us.getLastD o) last).join (xs.getLastD l) first).join (ms.getLastD first) pos := by
  have hsegs := seg_append.mp (seg_append_cons.mp ho.ring.seg).2
  have hposm : pos ∈ l :: (xs ++ ys) := hpos ▸ headD_mem_append xs ys l
  have hfirstm : first ∈ o :: (us ++ first :: (ms ++ zs)) := by simp
  have hlastm : last ∈ o :: (us ++ first :: (ms ++ zs)) := by
    have hm := headD_mem_append (us ++ first :: ms) zs o
    rw [← hlast] at hm
    simpa using hm
  have hfl : first ≠ last := by
    intro he
    have hm := headD_mem zs o
    have hnd := ho.ring.nodup
    rw [← hlast, ← he] at hm
    simp only [List.nodup_cons, List.nodup_append, List.mem_append, List.mem_cons] at hnd hm
    tauto
  rw [spliceImpl_links (hl.ring.next_prev hposm) (ho.ring.next_prev hfirstm) (ho.ring.next_prev hlastm)
    (fun he => hd hposm (he ▸ hfirstm)) (fun he => hd hposm (he ▸ hlastm)) hfl, ho.ring.prev_of_mem]
  rw [show h.links.prev pos = xs.getLastD l from hpos ▸ hl.ring.prev_at,
    show h.links.prev last = ms.getLastD first from hlast ▸ hsegs.1.prev_eq]

theorem spliceImpl_cons_rings (hl : IsList h l (xs ++ ys)) (ho : IsList h o (us ++ first :: (ms ++ zs)))
    (hd : (l :: (xs ++ ys)).Disjoint (o :: (us ++ first :: (ms ++ zs)))) (hpos : pos = ys.headD l)
    (hlast : last = zs.headD o) :
    IsRing (h.spliceImpl l pos o first last n).links l (xs ++ first :: (ms ++ ys)) ∧
      IsRing (h.spliceImpl l pos o first last n).links o (us ++ zs) := by
  rw [spliceImpl_cons_links hl ho hd hpos hlast]
  have hnd : ((o :: us) ++ ((first :: ms) ++ zs)).Nodup := by simpa using ho.ring.nodup
  rcases List.nodup_append'.mp hnd with ⟨-, hnd', hdis⟩
  rcases List.nodup_append'.mp hnd' with ⟨hms, -, hdis'⟩
  have hrun : ∀ a ∈ first :: ms, a ∉ o :: (us ++ zs) := by
    intro a ha hm
    rcases List.mem_append.mp (show a ∈ (o :: us) ++ zs from hm) with hu | hz
    · exact hdis hu (List.mem_append_left _ ha)
    · exact hdis' ha hz
  have hin : ∀ a ∈ first :: ms, a ∉ l :: (xs ++ ys) := by
    intro a ha hm
    apply hd hm
    simp only [List.mem_cons, List.mem_append] at ha ⊢
    tauto
  have hrest : ∀ a ∈ o :: (us ++ zs), a ∉ l :: (xs ++ ys) := by
    intro a ha hm
    apply hd hm
    simp only [List.mem_cons, List.mem_append] at ha ⊢
    tauto
  have hlastm : last ∈ o :: (us ++ zs) := hlast ▸ headD_mem_append us zs o
  have hprevm : us.getLastD o ∈ o :: (us ++ zs) := getLastD_mem_append us zs o
  have hposm : pos ∈ l :: (xs ++ ys) := hpos ▸ headD_mem_append xs ys l
  constructor
  · have hring := hl.ring.join_off (hrest _ hprevm) (hrest _ hlastm)
    have hseg := (seg_append.mp (seg_append_cons.mp ho.ring.seg).2).1
    have hseg' : Seg ((h.links.join (us.getLastD o) last).join (ms.getLastD first) pos) first ms pos := by
      apply (hseg.join_end hms fun hm => hin _ (List.mem_cons_of_mem _ hm) hposm).join_under
      · exact fun hm => hrun _ hm hprevm
      · intro hm
        rcases List.mem_cons.mp hm with he | hm
        · exact hrest _ hlastm (he ▸ hposm)
        · exact hrun _ (List.mem_cons_of_mem _ hm) hlastm
    rw [hpos] at hseg' ⊢
    exact hring.insert_run hseg' hms fun a ha hm => hin a ha hm
  · have hring : IsRing (h.links.join (us.getLastD o) last) o (us ++ zs) :=
      hlast ▸ IsRing.erase_run (first :: ms) ho.ring
    have hfirst := hrun _ List.mem_cons_self
    apply (hring.join_off _ hfirst).join_off (hrun _ (getLastD_mem ms first))
    · exact fun hm => hrest _ hm hposm
    · exact fun hm => hrest _ hm (getLastD_mem_append xs ys l)

theorem spliceImpl_isList (hl : IsList h l (xs ++ ys)) (ho : IsList h o (us ++ (ms ++ zs)))
    (hd : (l :: (xs ++ ys)).Disjoint (o :: (us ++ (ms ++ zs)))) (hpos : pos = ys.headD l)
    (hfirst : first = (ms ++ zs).headD o) (hlast : last = zs.headD o) :
    IsList (h.spliceImpl l pos o first last ms.length) l (xs ++ (ms ++ ys)) ∧
      IsList (h.spliceImpl l pos o first last ms.length) o (us ++ zs) := by
  have hlo : l ≠ o := fun he => hd List.mem_cons_self (by simp [he])
  have hrings : IsRing (h.spliceImpl l pos o first last ms.length).links l (xs ++ (ms ++ ys)) ∧
      IsRing (h.spliceImpl l pos o first last ms.length).links o (us ++ zs) := by
    cases ms with
    | nil =>
      obtain rfl : first = last := by rw [hfirst, hlast]; rfl
      rw [spliceImpl_nil_links]
      exact ⟨hl.ring, ho.ring⟩
    | cons m ms =>
      obtain rfl : first = m := hfirst
      exact spliceImpl_cons_rings hl ho hd hpos hlast
  constructor
  · refine ⟨hrings.1, ?_, ?_⟩
    · simp [Heap.spliceImpl, Heap.swapPrev, Heap.swapNext, hlo, hl.size]
      omega
    · intro a ha
      have hm : a ∈ l :: (xs ++ ys) ∨ a ∈ o :: (us ++ (ms ++ zs)) := by
        simp only [List.mem_cons, List.mem_append] at ha ⊢
        tauto
      rcases hm with hm | hm
      · exact hl.fresh a hm
      · exact ho.fresh a hm
  · refine ⟨hrings.2, ?_, ?_⟩
    · simp [Heap.spliceImpl, Heap.swapPrev, Heap.swapNext, hlo.symm, ho.size]
      omega
    · intro a ha
      apply ho.fresh
      simp only [List.mem_cons, List.mem_append] at ha ⊢
      tauto

theorem spliceImpl_frame (hl : IsList h l xs) (ho : IsList h o us) (hpos : pos ∈ l :: xs)
    (hfirst : first ∈ o :: us) (hlast : last ∈ o :: us) :
    Frame ((l :: xs) ++ (o :: us)) h (h.spliceImpl l pos o first last n) := by
  have hprev := hl.ring.prev_mem hpos
  have hfp := ho.ring.prev_mem hfirst
  have hlp := ho.ring.prev_mem hlast
  constructor
  · exact le_rfl
  all_goals
    intro a _ hout
    simp only [List.mem_append, not_or] at hout
    have h1 : a ≠ pos := fun he => hout.1 (he ▸ hpos)
    have h2 : a ≠ first := fun he => hout.2 (he ▸ hfirst)
    have h3 : a ≠ last := fun he => hout.2 (he ▸ hlast)
    have h4 : a ≠ h.links.prev pos := fun he => hout.1 (he ▸ hprev)
    have h5 : a ≠ h.links.prev first := fun he => hout.2 (he ▸ hfp)
    have h6 : a ≠ h.links.prev last := fun he => hout.2 (he ▸ hlp)
    have h7 : a ≠ l := fun he => hout.1 (by simp [he])
    have h8 : a ≠ o := fun he => hout.2 (by simp [he])
    simp [Heap.spliceImpl, Heap.swapPrev, Heap.swapNext, h1, h2, h3, h4, h5, h6, h7, h8]

theorem splice_isList (hl : IsList h l (xs ++ ys)) (ho : IsList h o (us ++ n :: zs))
    (hd : (l :: (xs ++ ys)).Disjoint (o :: (us ++ n :: zs))) (hpos : pos = ys.headD l) :
    IsList (h.splice l pos o n) l (xs ++ n :: ys) ∧ IsList (h.splice l pos o n) o (us ++ zs) := by
  have ho' : IsList h o (us ++ ([n] ++ zs)) := ho
  exact spliceImpl_isList hl ho' hd hpos rfl ho.ring.next_of_mem

theorem splice_frame (hl : IsList h l (xs ++ ys)) (ho : IsList h o (us ++ n :: zs)) (hpos : pos = ys.headD l) :
    Frame ((l :: (xs ++ ys)) ++ (o :: (us ++ n :: zs))) h (h.splice l pos o n) := by
  have hn : n ∈ o :: (us ++ n :: zs) := by simp
  exact spliceImpl_frame hl ho (hpos ▸ headD_mem_append xs ys l) hn (ho.ring.next_mem hn)

end Splice

section MoveAssign
variable {h : Heap α} {l o : ℕ} {xs ys : List ℕ}

theorem moveAssign_self (h : Heap α) (l : ℕ) : h.moveAssign l l = h := by
  simp [Heap.moveAssign, Heap.swapNext, Heap.swapPrev, Heap.setSize, Heap.setNext, Heap.setPrev]

section
variable (hl : IsList h l xs) (ho : IsList h o ys)
include hl ho

/-- On the nodes of one of the lists, move assignment exchanges the two headers. -/
theorem moveAssign_links (hd : (l :: xs).Disjoint (o :: ys)) {a : ℕ} (ha : a ∈ o :: xs ∨ a ∈ l :: ys) :
    (h.moveAssign l o).links.next a = (h.links.conj (Equiv.swap l o)).next a ∧
      (h.moveAssign l o).links.prev a = (h.links.conj (Equiv.swap l o)).prev a := by
  have hlm : l ∈ l :: xs := List.mem_cons_self ..
  have hom : o ∈ o :: ys := List.mem_cons_self ..
  have hlpn := hl.ring.prev_next hlm
  have hlnp := hl.ring.next_prev hlm
  have hopn := ho.ring.prev_next hom
  have honp := ho.ring.next_prev hom
  have hcase : a = l ∨ a = o ∨ (a ∈ xs ∧ a ≠ l) ∨ (a ∈ ys ∧ a ≠ o) := by
    grind
  simp only [Heap.moveAssign, Heap.swapNext, Heap.swapPrev, Links.conj, Heap.setSize_links,
    Heap.setPrev_links_next, Heap.setPrev_links_prev, Heap.setNext_links_next,
    Heap.setNext_links_prev, update_apply, Equiv.symm_swap, Equiv.swap_apply_def]
  rcases hcase with rfl | rfl | ⟨hx, hxl⟩ | ⟨hy, hyo⟩
  · grind
  · grind
  · have hxm : a ∈ l :: xs := List.mem_cons_of_mem _ hx
    have h3 := hl.ring.prev_next hxm
    have h4 := hl.ring.next_prev hxm
    grind
  · have hym : a ∈ o :: ys := List.mem_cons_of_mem _ hy
    have h3 := ho.ring.prev_next hym
    have h4 := ho.ring.next_prev hym
    grind

theorem moveAssign_isList (hd : (l :: xs).Disjoint (o :: ys)) :
    IsList (h.moveAssign l o) l ys ∧ IsList (h.moveAssign l o) o xs := by
  have hlo : l ≠ o := fun he => hd (List.mem_cons_self ..) (by simp [he])
  have hox : o ∉ xs := fun hm => hd (List.mem_cons_of_mem _ hm) (List.mem_cons_self ..)
  have hly : l ∉ ys := fun hm => hd (List.mem_cons_self ..) (List.mem_cons_of_mem _ hm)
  constructor
  · constructor
    · have hring := ho.ring.swap_heads hly
      rw [Equiv.swap_comm] at hring
      exact hring.congr (fun a ha => (moveAssign_links hl ho hd (.inr ha)).1)
        (fun a ha => (moveAssign_links hl ho hd (.inr ha)).2)
    · simp [Heap.moveAssign, Heap.swapNext, Heap.swapPrev, hlo, ho.size]
    · intro a ha
      rcases List.mem_cons.mp ha with rfl | ha
      · exact hl.fresh a (List.mem_cons_self ..)
      · exact ho.fresh a (List.mem_cons_of_mem _ ha)
  · constructor
    · exact (hl.ring.swap_heads hox).congr (fun a ha => (moveAssign_links hl ho hd (.inl ha)).1)
        (fun a ha => (moveAssign_links hl ho hd (.inl ha)).2)
    · simp [Heap.moveAssign, Heap.swapNext, Heap.swapPrev, hl.size]
    · intro a ha
      rcases List.mem_cons.mp ha with rfl | ha
      · exact ho.fresh a (List.mem_cons_self ..)
      · exact hl.fresh a (List.mem_cons_of_mem _ ha)

theorem moveAssign_frame : Frame ((l :: xs) ++ (o :: ys)) h (h.moveAssign l o) := by
  have hlm : l ∈ l :: xs := List.mem_cons_self ..
  have hom : o ∈ o :: ys := List.mem_cons_self ..
  have hln := hl.ring.next_mem hlm
  have hlp := hl.ring.prev_mem hlm
  have hon := ho.ring.next_mem hom
  have hop := ho.ring.prev_mem hom
  constructor
  · exact le_rfl
  all_goals
    intro a _ hout
    simp only [List.mem_append, not_or] at hout
    have h1 : a ≠ l := fun he => hout.1 (he ▸ hlm)
    have h2 : a ≠ o := fun he => hout.2 (he ▸ hom)
    have h3 : a ≠ h.links.next l := fun he => hout.1 (he ▸ hln)
    have h4 : a ≠ h.links.prev l := fun he => hout.1 (he ▸ hlp)
    have h5 : a ≠ h.links.next o := fun he => hout.2 (he ▸ hon)
    have h6 : a ≠ h.links.prev o := fun he => hout.2 (he ▸ hop)
    simp [Heap.moveAssign, Heap.swapNext, Heap.swapPrev, update_apply, h1, h2, h3, h4, h5, h6]

end

theorem moveConstruct_spec (hl : IsList h l xs) :
    IsList (h.moveConstruct l).1 h.fresh xs ∧ IsList (h.moveConstruct l).1 l [] ∧
      Frame (l :: xs) h (h.moveConstruct l).1 := by
  have hout : ∀ a ∈ l :: xs, a ∉ [h.fresh] := by
    intro a ha hm
    exact absurd (hl.fresh a ha) (by simp [List.mem_singleton.mp hm])
  have hl' : IsList h.constructList.1 l xs := hl.frame (constructList_frame h) (by simp)
  have hd : [h.fresh].Disjoint (l :: xs) := fun a ht hm => hout a hm ht
  rcases moveAssign_isList (constructList_isList h) hl' hd with ⟨hnew, hold⟩
  refine ⟨hnew, hold, (constructList_frame h).mono (by simp) |>.trans
    (moveAssign_frame (constructList_isList h) hl') ?_⟩
  intro a ha hlt
  rcases List.mem_append.mp ha with hm | hm
  · exact absurd hlt (by simp [List.mem_singleton.mp hm, Heap.constructList])
  · exact hm

theorem swapLists_spec (hl : IsList h l xs) (ho : IsList h o ys) (hd : (l :: xs).Disjoint (o :: ys)) :
    IsList (h.swapLists l o) l ys ∧ IsList (h.swapLists l o) o xs ∧
      Frame ((l :: xs) ++ (o :: ys)) h (h.swapLists l o) := by
  rcases moveConstruct_spec hl with ⟨ht1, hl1, hf1⟩
  have ho1 : IsList (h.moveConstruct l).1 o ys := ho.frame hf1 fun a ha hm => hd hm ha
  have hfl : h.fresh ∉ l :: xs := fun hm => lt_irrefl _ (hl.fresh _ hm)
  have hfo : h.fresh ∉ o :: ys := fun hm => lt_irrefl _ (ho.fresh _ hm)
  have hlx := hl.ring.not_mem
  have hd2 : [l].Disjoint (o :: ys) := fun a ha => hd (List.mem_singleton.mp ha ▸ List.mem_cons_self ..)
  rcases moveAssign_isList hl1 ho1 hd2 with ⟨hl2, ho2⟩
  have hf2 := moveAssign_frame hl1 ho1
  have ht2 := ht1.frame hf2 (by
    intro a ha hm
    have := @hd a
    grind)
  have hd3 : [o].Disjoint (h.fresh :: xs) := by
    intro a ha hm
    obtain rfl := List.mem_singleton.mp ha
    rcases List.mem_cons.mp hm with rfl | hm
    · exact hfo (List.mem_cons_self ..)
    · exact hd (List.mem_cons_of_mem _ hm) (List.mem_cons_self ..)
  rcases moveAssign_isList ho2 ht2 hd3 with ⟨ho3, -⟩
  have hf3 := moveAssign_frame ho2 ht2
  refine ⟨hl2.frame hf3 ?_, ho3, ((hf1.mono ?_).trans hf2 ?_).trans hf3 ?_⟩
  · intro a ha hm
    have := @hd a
    have := ho.ring.not_mem
    grind
  · exact fun a ha => List.mem_append_left _ ha
  · intro a ha _
    simp only [List.mem_append, List.mem_cons, List.not_mem_nil, or_false] at ha ⊢
    tauto
  · intro a ha hlt
    simp only [List.mem_append, List.mem_cons, List.not_mem_nil, or_false] at ha ⊢
    have : a ≠ h.fresh := ne_of_lt hlt
    tauto

theorem swapLists_self_spec (hl : IsList h l xs) :
    IsList (h.swapLists l l) l xs ∧ Frame (l :: xs) h (h.swapLists l l) := by
  rcases moveConstruct_spec hl with ⟨ht1, hl1, hf1⟩
  have hd : [l].Disjoint (h.fresh :: xs) := by
    intro a ha hm
    obtain rfl := List.mem_singleton.mp ha
    rcases List.mem_cons.mp hm with he | hm
    · exact absurd (hl.fresh a (List.mem_cons_self ..)) (by simp [he])
    · exact hl.ring.not_mem hm
  have hswap : h.swapLists l l = (h.moveConstruct l).1.moveAssign l h.fresh := by
    rw [Heap.swapLists, moveAssign_self]
    rfl
  rw [hswap]
  refine ⟨(moveAssign_isList hl1 ht1 hd).1, hf1.trans (moveAssign_frame hl1 ht1) ?_⟩
  intro a ha hlt
  have hne : a ≠ h.fresh := ne_of_lt hlt
  simpa [hne] using ha

end MoveAssign

end HmmOS.Nonstd
