import HmmOS.Nonstd.NodeHashMapContents

/-! # `node_hash_map` objects behave as finite maps

Any number of maps share the heap, with any hash function.
-/
namespace HmmOS.Nonstd
open Lib Lib.Ring Function NodeHashMap
variable {K V : Type*}

inductive MapOp (K V : Type*) where
  | construct (i count : ℕ)
  | emplace (i : ℕ) (k : K) (v : V)
  | tryEmplace (i : ℕ) (k : K) (v : V)
  | index (i : ℕ) (k : K)
  /-- `m[k] = v`. -/
  | assign (i : ℕ) (k : K) (v : V)
  | eraseKey (i : ℕ) (k : K)
  | erase (i it : ℕ)
  | clear (i : ℕ)
  /-- `rehash` and `reserve`. -/
  | rehash (i count : ℕ)
  | copyConstruct (i j : ℕ)
  | copyAssign (i j : ℕ)
  | moveConstruct (i j : ℕ)
  | moveAssign (i j : ℕ)

inductive MapRes where
  | none
  | iter (it : ℕ)
  | inserted (it : ℕ) (isNew : Bool)

structure MapState (K V : Type*) where
  heap : MapHeap K V
  maps : ℕ → Option NodeHashMap

abbrev FinMaps (K V : Type*) := ℕ → Option (K → Option V)

section Semantics
variable [DecidableEq K] [Inhabited V]

def MapState.set (st : MapState K V) (h : MapHeap K V) (i : ℕ) (m : NodeHashMap) : MapState K V :=
  ⟨h, Function.update st.maps i (some m)⟩

omit [DecidableEq K] [Inhabited V] in
@[simp] theorem MapState.set_set (st : MapState K V) (h h' : MapHeap K V) (i : ℕ)
    (m m' : NodeHashMap) : (st.set h i m).set h' i m' = st.set h' i m' := by
  simp [MapState.set, update_idem]

def mapStep (H : K → ℕ) (st : MapState K V) : MapOp K V → Option (MapState K V × MapRes)
  | .construct i count =>
    (NodeHashMap.construct st.heap count).map fun r => (st.set r.1 i r.2, .none)
  | .emplace i k v => (st.maps i).bind fun m =>
    (NodeHashMap.emplace H st.heap m k v).map fun r => (st.set r.1 i r.2.1, .inserted r.2.2.1 r.2.2.2)
  | .tryEmplace i k v => (st.maps i).bind fun m =>
    (NodeHashMap.tryEmplace H st.heap m k v).map fun r =>
      (st.set r.1 i r.2.1, .inserted r.2.2.1 r.2.2.2)
  | .index i k => (st.maps i).bind fun m =>
    (NodeHashMap.index H st.heap m k).map fun r => (st.set r.1 i r.2.1, .iter r.2.2)
  | .assign i k v => (st.maps i).bind fun m =>
    (NodeHashMap.index H st.heap m k).map fun r => (st.set (setValue r.1 r.2.2 v) i r.2.1, .none)
  | .eraseKey i k => (st.maps i).bind fun m =>
    (NodeHashMap.eraseKey H st.heap m k).map fun r => (st.set r.1 i r.2.1, .iter r.2.2)
  | .erase i it => (st.maps i).bind fun m =>
    (NodeHashMap.erase st.heap m it).map fun r => (st.set r.1 i r.2.1, .iter r.2.2)
  | .clear i => (st.maps i).bind fun m =>
    (NodeHashMap.clear st.heap m).map fun r => (st.set r.1 i r.2, .none)
  | .rehash i count => (st.maps i).bind fun m =>
    (NodeHashMap.rehash st.heap m count).map fun r => (st.set r.1 i r.2, .none)
  | .copyConstruct i j => (st.maps j).bind fun o =>
    (NodeHashMap.copyConstruct H st.heap o).map fun r => (st.set r.1 i r.2, .none)
  | .copyAssign i j => (st.maps i).bind fun m => (st.maps j).bind fun o =>
    (NodeHashMap.copyAssign H st.heap m o).map fun r => (st.set r.1 i r.2, .none)
  | .moveConstruct i j => (st.maps j).bind fun o =>
    (NodeHashMap.moveConstruct st.heap o).map fun r =>
      ((st.set r.1 i r.2.1).set r.1 j r.2.2, .none)
  | .moveAssign i j => (st.maps i).bind fun m => (st.maps j).map fun o =>
    let r := NodeHashMap.moveAssign st.heap m o
    ((st.set r.1 i r.2.1).set r.1 j r.2.2, .none)

def FinMaps.modify (s : FinMaps K V) (i : ℕ) (f : (K → Option V) → K → Option V) : FinMaps K V :=
  Function.update s i ((s i).map f)

/-- What the operation means for finite maps. An iterator stands for the key it points at. -/
def finStep (keyOf : ℕ → Option K) (s : FinMaps K V) : MapOp K V → FinMaps K V
  | .construct i _ => Function.update s i (some fun _ => none)
  | .emplace i k v => s.modify i fun f => Function.update f k (some v)
  | .tryEmplace i k v => s.modify i fun f => Function.update f k (some ((f k).getD v))
  | .index i k => s.modify i fun f => Function.update f k (some ((f k).getD default))
  | .assign i k v => s.modify i fun f => Function.update f k (some v)
  | .eraseKey i k => s.modify i fun f => Function.update f k none
  | .erase i it => s.modify i fun f k => if keyOf it = some k then none else f k
  | .clear i => s.modify i fun _ _ => none
  | .rehash _ _ => s
  | .copyConstruct i j => Function.update s i (s j)
  | .copyAssign i j => Function.update s i (s j)
  | .moveConstruct i j => Function.update (Function.update s i (s j)) j (some fun _ => none)
  | .moveAssign i j => Function.update (Function.update s i (s j)) j (s i)

/-- Inserting the key keeps the number of elements within the table of bucket counts. -/
def Room (st : MapState K V) (s : FinMaps K V) (i : ℕ) (k : K) : Prop :=
  ∃ m f, st.maps i = some m ∧ s i = some f ∧
    (f k ≠ none ∨ NodeHashMap.size st.heap m < maxBucketCount)

/-- Operations are applied to existing maps, constructors make new ones, and an iterator to erase points
at an element of its map. -/
def MapOp.Valid (st : MapState K V) (s : FinMaps K V) : MapOp K V → Prop
  | .construct i count => st.maps i = none ∧ count ≤ maxBucketCount
  | .emplace i k _ => Room st s i k
  | .tryEmplace i k _ => Room st s i k
  | .index i k => Room st s i k
  | .assign i k _ => Room st s i k
  | .eraseKey i _ => st.maps i ≠ none
  | .erase i it => ∃ m its, st.maps i = some m ∧ NodeHashMap.elements st.heap m = some its ∧ it ∈ its
  | .clear i => st.maps i ≠ none
  | .rehash i count => st.maps i ≠ none ∧ count ≤ maxBucketCount
  | .copyConstruct i j => st.maps i = none ∧ st.maps j ≠ none
  | .copyAssign i j => st.maps i ≠ none ∧ st.maps j ≠ none
  | .moveConstruct i j => st.maps i = none ∧ st.maps j ≠ none
  | .moveAssign i j => st.maps i ≠ none ∧ st.maps j ≠ none

/-- States reached from no maps by valid operations, with the finite maps they stand for. -/
inductive MapReach (H : K → ℕ) : MapState K V → FinMaps K V → Prop
  | init (h : MapHeap K V) : MapReach H ⟨h, fun _ => none⟩ fun _ => none
  | step {st st' : MapState K V} {s : FinMaps K V} {op : MapOp K V} {res : MapRes}
      (hr : MapReach H st s) (hv : op.Valid st s) (hs : mapStep H st op = some (st', res)) :
      MapReach H st' (finStep (keyAt st.heap) s op)

/-- Lookups reach exactly the bound keys with their values, and iteration visits each of them once. -/
structure Observes (H : K → ℕ) (h : MapHeap K V) (m : NodeHashMap) (f : K → Option V) : Prop where
  find : ∀ k, ∃ it, NodeHashMap.find H h m k = some it ∧ (it ≠ m.data ↔ (f k).isSome) ∧
    (it ≠ m.data → keyAt h it = some k ∧ valueAt h it = f k)
  iterate : ∃ (its : List ℕ) (ks : List K), NodeHashMap.elements h m = some its ∧ its.map (keyAt h) = ks.map some ∧
    ks.Nodup ∧ (∀ k, k ∈ ks ↔ (f k).isSome) ∧ NodeHashMap.size h m = ks.length
  load : NodeHashMap.size h m ≤ m.bucketCount

/-- `it` follows `a` in the iteration order and is what `a` leaves behind when it goes. -/
def Follows (st st' : MapState K V) (i a it : ℕ) : Prop :=
  ∃ m m' l r, st.maps i = some m ∧ st'.maps i = some m' ∧
    NodeHashMap.elements st.heap m = some (l ++ a :: r) ∧
    NodeHashMap.elements st'.heap m' = some (l ++ r) ∧ it = r.headD m.data

def MapOp.Returns (st st' : MapState K V) (s : FinMaps K V) : MapOp K V → MapRes → Prop
  | .emplace i k v, res => ∃ f it, s i = some f ∧ res = .inserted it (f k).isNone ∧
    keyAt st'.heap it = some k ∧ valueAt st'.heap it = some v
  | .tryEmplace i k v, res => ∃ f it, s i = some f ∧ res = .inserted it (f k).isNone ∧
    keyAt st'.heap it = some k ∧ valueAt st'.heap it = some ((f k).getD v)
  | .index i k, res => ∃ f it, s i = some f ∧ res = .iter it ∧
    keyAt st'.heap it = some k ∧ valueAt st'.heap it = some ((f k).getD default)
  | .eraseKey i k, res => ∃ f it, s i = some f ∧ res = .iter it ∧
    if f k = none then st'.heap = st.heap ∧ ∃ m, st.maps i = some m ∧ it = m.data
    else ∃ a, keyAt st.heap a = some k ∧ Follows st st' i a it
  | .erase i a, res => ∃ it, res = .iter it ∧ Follows st st' i a it
  | _, _ => True

end Semantics

/-- Each map is well formed with the elements `xs`, stands for its finite map, and shares no memory
with another. -/
structure MapSim [DecidableEq K] (H : K → ℕ) (st : MapState K V) (s : FinMaps K V)
    (xs : ℕ → List ℕ) : Prop where
  map : ∀ i m, st.maps i = some m → IsMap H st.heap m (xs i) ∧ s i = some (contents st.heap (xs i))
  absent : ∀ i, st.maps i = none → s i = none
  apart : ∀ i j m o, i ≠ j → st.maps i = some m → st.maps j = some o →
    (m.data :: xs i).Disjoint (o.data :: xs j)

variable {H : K → ℕ} {st : MapState K V} {s : FinMaps K V} {xs : ℕ → List ℕ} {i : ℕ}
  {m : NodeHashMap}

section Simulation
variable [DecidableEq K] {h' : MapHeap K V} {j : ℕ} {m' o : NodeHashMap} {xs' F : List ℕ}

/-- Maps are either left alone or well formed in the new heap. -/
theorem MapSim.change {st' : MapState K V} {s' : FinMaps K V} {xs' : ℕ → List ℕ}
    (hs : MapSim H st s xs) (hf : Frame F st.heap st'.heap)
    (hmap : ∀ j, (st'.maps j = st.maps j ∧ s' j = s j ∧ xs' j = xs j ∧
        ∀ o, st.maps j = some o → ∀ a ∈ o.data :: xs j, a ∉ F) ∨
      ∃ o, st'.maps j = some o ∧ IsMap H st'.heap o (xs' j) ∧ s' j = some (contents st'.heap (xs' j)))
    (hapart : ∀ i j m o, i ≠ j → st'.maps i = some m → st'.maps j = some o →
      (m.data :: xs' i).Disjoint (o.data :: xs' j)) : MapSim H st' s' xs' := by
  refine ⟨fun j o ho => ?_, fun j hj => ?_, hapart⟩
  · rcases hmap j with ⟨hm, hsj, hxj, hsep⟩ | ⟨o', ho', hmap', hc'⟩
    · rw [hm] at ho
      rcases hs.map j o ho with ⟨hmap, hc⟩
      rcases hmap.frame hf (hsep o ho) with ⟨hmap', hc'⟩
      rw [hxj, hsj, hc, hc']
      exact ⟨hmap', rfl⟩
    · obtain rfl := Option.some.inj (ho'.symm.trans ho)
      exact ⟨hmap', hc'⟩
  · rcases hmap j with ⟨hm, hsj, -⟩ | ⟨o', ho', -⟩
    · rw [hsj]
      exact hs.absent j (hm ▸ hj)
    · simp [ho'] at hj

section
variable (hs : MapSim H st s xs)
include hs

/-- A map that is replaced or added, with memory no other map has. -/
theorem MapSim.put (hf : Frame F st.heap h')
    (hF : ∀ j o, j ≠ i → st.maps j = some o → ∀ a ∈ o.data :: xs j, a ∉ F ∧ a ∉ m'.data :: xs')
    (hm' : IsMap H h' m' xs') : MapSim H (st.set h' i m') (update s i (some (contents h' xs')))
      (update xs i xs') := by
  refine hs.change (F := F) hf (fun j => ?_) ?_
  · by_cases hj : j = i
    · subst hj
      exact .inr ⟨m', by simp [MapState.set], by simpa [MapState.set] using hm',
        by simp [MapState.set]⟩
    · refine .inl ⟨?_, ?_, ?_, fun o ho a ha => (hF j o hj ho a ha).1⟩
      · simp [MapState.set, update_of_ne hj]
      · rw [update_of_ne hj]
      · rw [update_of_ne hj]
  · intro j k o p hjk ho hp a ha hb
    simp only [MapState.set, update_apply] at ho hp ha hb
    split_ifs at ho hp ha hb with hj hk
    · exact hjk (hj.trans hk.symm)
    · obtain rfl := Option.some.inj ho
      exact (hF k p ‹_› hp a hb).2 ha
    · obtain rfl := Option.some.inj hp
      exact (hF j o ‹_› ho a ha).2 hb
    · exact hs.apart j k o p hjk ho hp ha hb

theorem MapSim.evolve (hi : st.maps i = some m) (hev : Evolves st.heap h' m m' (xs i) xs')
    (hm' : IsMap H h' m' xs') : MapSim H (st.set h' i m') (update s i (some (contents h' xs')))
      (update xs i xs') := by
  refine hs.put hev.frame (fun j o hj ho a ha => ?_) hm'
  have hout : a ∉ m.data :: xs i := fun hm => hs.apart j i o m hj ho hi ha hm
  refine ⟨hout, fun hm => hout ?_⟩
  rcases List.mem_cons.mp hm with rfl | hm
  · rw [hev.data]
    exact List.mem_cons_self ..
  · exact List.mem_cons_of_mem _ (hev.sub a hm ((hs.map j o ho).1.list.fresh a ha))

theorem MapSim.modify (hi : st.maps i = some m) (hev : Evolves st.heap h' m m' (xs i) xs')
    (hm' : IsMap H h' m' xs') {f : (K → Option V) → K → Option V}
    (hf : contents h' xs' = f (contents st.heap (xs i))) :
    MapSim H (st.set h' i m') (s.modify i f) (update xs i xs') := by
  have hsim := hs.evolve hi hev hm'
  rw [hf] at hsim
  rwa [FinMaps.modify, (hs.map i m hi).2]

theorem MapSim.add (hf : Frame [] st.heap h') (hm' : IsMap H h' m' xs')
    (hnew : ∀ a ∈ m'.data :: xs', st.heap.fresh ≤ a) :
    MapSim H (st.set h' i m') (update s i (some (contents h' xs'))) (update xs i xs') := by
  refine hs.put hf (fun j o _ ho a ha => ⟨by simp, fun hm => ?_⟩) hm'
  exact absurd ((hs.map j o ho).1.list.fresh a ha) (not_lt.mpr (hnew a hm))

theorem MapSim.exchange (hij : i ≠ j) (hi : st.maps i = some m) (hj : st.maps j = some o) :
    let r := moveAssign st.heap m o
    MapSim H ((st.set r.1 i r.2.1).set r.1 j r.2.2)
      (update (update s i (s j)) j (s i))
      (update (update xs i (xs j)) j (xs i)) := by
  intro r
  rcases hs.map i m hi with ⟨hm, hci⟩
  rcases hs.map j o hj with ⟨ho, hcj⟩
  have hd := hs.apart i j m o hij hi hj
  rcases moveAssign_spec hm ho hd with ⟨hm', ho', hcy, hcx, hf⟩
  have hout : ∀ k p, k ≠ i → k ≠ j → st.maps k = some p → ∀ a ∈ p.data :: xs k,
      a ∉ (m.data :: xs i) ++ (o.data :: xs j) := by
    intro k p hki hkj hp a ha hmem
    rcases List.mem_append.mp hmem with hmem | hmem
    · exact hs.apart k i p m hki hp hi ha hmem
    · exact hs.apart k j p o hkj hp hj ha hmem
  have hnew : (m.data :: xs j).Disjoint (o.data :: xs i) := by
    intro a ha hb
    have hda := @hd a
    have h1 := hm.list.ring.not_mem
    have h2 := ho.list.ring.not_mem
    grind
  refine hs.change hf (fun k => ?_) ?_
  · by_cases hkj : k = j
    · subst hkj
      refine .inr ⟨r.2.2, by simp [MapState.set], ?_, ?_⟩
      · rw [update_self]
        exact ho'
      · rw [update_self, update_self, hci, ← hcx]
        rfl
    by_cases hki : k = i
    · subst hki
      refine .inr ⟨r.2.1, by simp [MapState.set, update_of_ne hkj], ?_, ?_⟩
      · rw [update_of_ne hkj, update_self]
        exact hm'
      · rw [update_of_ne hkj, update_self, update_of_ne hkj,
          update_self, hcj, ← hcy]
        rfl
    · refine .inl ⟨?_, ?_, ?_, fun p hp => hout k p hki hkj hp⟩
      · simp [MapState.set, update_of_ne hkj, update_of_ne hki]
      · rw [update_of_ne hkj, update_of_ne hki]
      · rw [update_of_ne hkj, update_of_ne hki]
  · -- the new footprints of the two maps are made of their old ones
    intro k l p q hkl hp hq a ha hb
    simp only [MapState.set, update_apply] at hp hq ha hb
    have hold := hs.apart k l p q hkl
    split_ifs at hp hq ha hb
    all_goals grind [moveAssign, List.disjoint_left]

end

end Simulation

section Steps
variable [DecidableEq K] {h : MapHeap K V} {ys : List ℕ}

theorem MapSim.room (hs : MapSim H st s xs) {k : K} (hv : Room st s i k) :
    ∃ m, st.maps i = some m ∧ IsMap H st.heap m (xs i) ∧ s i = some (contents st.heap (xs i)) ∧
      (contents st.heap (xs i) k ≠ none ∨ (xs i).length < maxBucketCount) := by
  rcases hv with ⟨m, f, hi, hf, hroom⟩
  rcases hs.map i m hi with ⟨hm, hc⟩
  obtain rfl := Option.some.inj (hf.symm.trans hc)
  rw [size, hm.list.size] at hroom
  exact ⟨m, hi, hm, hc, hroom⟩

theorem rehash_map_spec (hm : IsMap H h m ys) {count : ℕ} (hc : count ≤ maxBucketCount) :
    ∃ h' m' ys', rehash h m count = some (h', m') ∧ IsMap H h' m' ys' ∧
      Evolves h h' m m' ys ys' ∧ contents h' ys' = contents h ys := by
  rcases rehash_spec hm.toIsTable hc with ⟨h', m', ys', hre, ht, hperm, hev, hval, -, hle⟩
  refine ⟨h', m', ys', hre, ⟨ht, ?_⟩, hev, ?_⟩
  · rw [hperm.length_eq]
    exact hm.load.trans hle
  · exact contents_congr hm.keys ht.keys (fun a => hperm.mem_iff) (fun a _ => by rw [hval])

theorem erase_map_spec {a : ℕ} (hm : IsMap H h m ys) (ha : a ∈ ys) :
    ∃ h' m' l r, ys = l ++ a :: r ∧ erase h m a = some (h', m', r.headD m.data) ∧
      IsMap H h' m' (l ++ r) ∧ Evolves h h' m m' ys (l ++ r) ∧
      contents h' (l ++ r) = fun k => if keyAt h a = some k then none else contents h ys k := by
  rcases List.append_of_mem ha with ⟨l, r, rfl⟩
  rcases hm.node a ha with ⟨node, hnode, -⟩
  rcases erase_spec hm.toIsTable rfl with ⟨h', m', he, ht, hev, hcount, hval⟩
  have hnd := (List.nodup_cons.mp (List.nodup_middle.mp
    (List.nodup_cons.mp hm.list.ring.nodup).2)).1
  have hsame : ∀ x ∈ l ++ r, h'.val x = h.val x := by
    intro x hx
    have hne : x ≠ a := fun hxa => hnd (hxa ▸ hx)
    rw [hval, update_of_ne hne]
  refine ⟨h', m', l, r, rfl, he, ⟨ht, ?_⟩, hev, ?_⟩
  · have hload := hm.load
    simp only [List.length_append, List.length_cons] at hload ⊢
    omega
  · rw [contents_erase hm.keys ht.keys hsame hnode]
    funext k
    rw [update_apply, keyAt, hnode]
    simp [eq_comm]

theorem MapSim.erase (hs : MapSim H st s xs) (hi : st.maps i = some m) {a : ℕ} (ha : a ∈ xs i) :
    ∃ h' m' it xs', erase st.heap m a = some (h', m', it) ∧ MapSim H (st.set h' i m')
        (s.modify i fun f k => if keyAt st.heap a = some k then none else f k) xs' ∧
      Follows st (st.set h' i m') i a it := by
  rcases erase_map_spec (hs.map i m hi).1 ha with ⟨h', m', l, r, hx, he, hm', hev, hc⟩
  refine ⟨h', m', _, _, he, hs.modify hi hev hm' hc, m, m', l, r, hi, by simp [MapState.set], ?_, ?_,
    rfl⟩
  · rw [← hx]
    exact elements_eq (hs.map i m hi).1.list
  · exact elements_eq hm'.list

variable [Inhabited V]

theorem index_spec {k : K} (hm : IsMap H h m ys) (hroom : contents h ys k ≠ none ∨ ys.length < maxBucketCount) :
    ∃ h' m' it ys', index H h m k = some (h', m', it) ∧ IsMap H h' m' ys' ∧ Evolves h h' m m' ys ys' ∧
      contents h' ys' = update (contents h ys) k (some ((contents h ys k).getD default)) ∧
      it ∈ ys' ∧ keyAt h' it = some k ∧ valueAt h' it = some ((contents h ys k).getD default) := by
  rcases tryEmplace_spec hm default hroom with ⟨h', m', it, ys', he, hrest⟩
  exact ⟨h', m', it, ys', by rw [index, he]; rfl, hrest⟩

/-- The operation succeeds, keeps the simulation and returns what it should. -/
def MapOp.Simulated (H : K → ℕ) (st : MapState K V) (s : FinMaps K V) (op : MapOp K V) : Prop :=
  ∃ st' res xs', mapStep H st op = some (st', res) ∧
    MapSim H st' (finStep (keyAt st.heap) s op) xs' ∧ op.Returns st st' s res

theorem MapSim.eraseKey_absent (hs : MapSim H st s xs) (hi : st.maps i = some m) {k : K}
    (hn : nodeOf st.heap (xs i) k = none) : (MapOp.eraseKey i k).Simulated H st s := by
  rcases hs.map i m hi with ⟨hm, hc⟩
  have hnone := (contents_eq_none hm.keyed).mpr hn
  have hfind := find_eq (k := k) hm.toIsTable
  rw [hn, Option.getD_none] at hfind
  refine ⟨_, _, _, by rw [mapStep, hi, Option.bind_some, eraseKey, hfind]; simp,
    hs.modify hi ⟨rfl, Frame.refl _ _, fun a ha _ => ha⟩ hm ?_, _, m.data, hc, rfl, ?_⟩
  · rw [eq_comm, update_eq_self_iff, hnone]
  · rw [if_pos hnone]
    exact ⟨rfl, m, hi, rfl⟩

theorem MapSim.eraseKey_present (hs : MapSim H st s xs) (hi : st.maps i = some m) {k : K} {a : ℕ}
    (hn : nodeOf st.heap (xs i) k = some a) : (MapOp.eraseKey i k).Simulated H st s := by
  rcases hs.map i m hi with ⟨hm, hc⟩
  rcases (nodeOf_eq_some hm.keys).mp hn with ⟨ha, hka⟩
  have hne : a ≠ m.data := fun he => hm.list.ring.not_mem (he ▸ ha)
  have hsome : contents st.heap (xs i) k ≠ none := by
    rw [ne_eq, contents_eq_none hm.keyed, hn]
    simp
  have hfind := find_eq (k := k) hm.toIsTable
  rw [hn, Option.getD_some] at hfind
  rcases hs.erase hi ha with ⟨h', m', it, xs', he, hsim, hfol⟩
  have hstep : mapStep H st (.eraseKey i k) = some (st.set h' i m', .iter it) := by
    rw [mapStep, hi, Option.bind_some, eraseKey, hfind, Option.bind_some, if_pos hne, he]
    rfl
  have hf : (fun (f : K → Option V) k' => if keyAt st.heap a = some k' then none else f k') =
      fun f => update f k none := by
    funext f k'
    rw [hka, update_apply]
    simp [eq_comm]
  rw [hf] at hsim
  refine ⟨_, _, xs', hstep, hsim, _, it, hc, rfl, ?_⟩
  rw [if_neg hsome]
  exact ⟨a, hka, hfol⟩

/-- A new map is constructed and exchanged with the old one. -/
theorem MapSim.moveConstruct {j : ℕ} {o : NodeHashMap} (hs : MapSim H st s xs) (hij : i ≠ j)
    (hj : st.maps j = some o) : (MapOp.moveConstruct i j).Simulated H st s := by
  rcases construct_spec H st.heap (n := 0) (Nat.zero_le _) with ⟨m, hcon, hm, hdata, -⟩
  have hsim := hs.add (i := i) (constructList_frame st.heap) hm (by simp [hdata])
  have hsim' := hsim.exchange hij (m := m) (o := o) (by simp [MapState.set])
    (by simpa [MapState.set, update_of_ne hij.symm] using hj)
  dsimp only at hsim'
  rw [MapState.set_set, update_idem, update_self, update_of_ne hij.symm] at hsim'
  exact ⟨_, _, _, by rw [mapStep, hj, Option.bind_some, NodeHashMap.moveConstruct, hcon]; rfl,
    hsim', trivial⟩

theorem MapSim.step (hs : MapSim H st s xs) {op : MapOp K V} (hv : op.Valid st s) :
    op.Simulated H st s := by
  cases op with
  | construct i count =>
    rcases construct_spec H st.heap hv.2 with ⟨m, hcon, hm, hdata, -⟩
    refine ⟨_, _, _, by rw [mapStep, hcon]; rfl,
      hs.add (i := i) (constructList_frame st.heap) hm ?_, trivial⟩
    simp [hdata]
  | emplace i k v =>
    rcases hs.room hv with ⟨m, hi, hm, hc, hroom⟩
    rcases emplace_spec hm v hroom with ⟨h', m', it, xs', he, hm', hev, hcont, -, hkey, hval⟩
    exact ⟨_, _, _, by rw [mapStep, hi, Option.bind_some, he]; rfl, hs.modify hi hev hm' hcont,
      _, it, hc, rfl, hkey, hval⟩
  | tryEmplace i k v =>
    rcases hs.room hv with ⟨m, hi, hm, hc, hroom⟩
    rcases tryEmplace_spec hm v hroom with ⟨h', m', it, xs', he, hm', hev, hcont, -, hkey, hval⟩
    exact ⟨_, _, _, by rw [mapStep, hi, Option.bind_some, he]; rfl, hs.modify hi hev hm' hcont,
      _, it, hc, rfl, hkey, hval⟩
  | index i k =>
    rcases hs.room hv with ⟨m, hi, hm, hc, hroom⟩
    rcases index_spec hm hroom with ⟨h', m', it, xs', he, hm', hev, hcont, -, hkey, hval⟩
    exact ⟨_, _, _, by rw [mapStep, hi, Option.bind_some, he]; rfl, hs.modify hi hev hm' hcont,
      _, it, hc, rfl, hkey, hval⟩
  | assign i k v =>
    rcases hs.room hv with ⟨m, hi, hm, hc, hroom⟩
    rcases index_spec hm hroom with ⟨h', m', it, xs', he, hm', hev, hcont, hit, hkey, -⟩
    rcases setValue_spec hm' ((nodeOf_eq_some hm'.keys).mpr ⟨hit, hkey⟩) v with ⟨hm2, hev2, hcont2, -⟩
    refine ⟨_, _, _, by rw [mapStep, hi, Option.bind_some, he]; rfl,
      hs.modify hi (hev.trans hev2) hm2 ?_, trivial⟩
    rw [hcont2, hcont, update_idem]
  | eraseKey i k =>
    rcases Option.ne_none_iff_exists'.mp hv with ⟨m, hi⟩
    cases hn : nodeOf st.heap (xs i) k with
    | none => exact hs.eraseKey_absent hi hn
    | some a => exact hs.eraseKey_present hi hn
  | erase i it =>
    rcases hv with ⟨m, its, hi, hits, hmem⟩
    rw [elements_eq (hs.map i m hi).1.list, Option.some.injEq] at hits
    rcases hs.erase hi (hits ▸ hmem) with ⟨h', m', next, xs', he, hsim, hfol⟩
    exact ⟨_, _, _, by rw [mapStep, hi, Option.bind_some, he]; rfl, hsim, next, rfl, hfol⟩
  | clear i =>
    rcases Option.ne_none_iff_exists'.mp hv with ⟨m, hi⟩
    rcases clear_spec (hs.map i m hi).1.toIsTable with ⟨h', m', he, ht, hev, -⟩
    exact ⟨_, _, _, by rw [mapStep, hi, Option.bind_some, he]; rfl,
      hs.modify hi hev ⟨ht, by simp⟩ rfl, trivial⟩
  | rehash i count =>
    rcases Option.ne_none_iff_exists'.mp hv.1 with ⟨m, hi⟩
    rcases rehash_map_spec (hs.map i m hi).1 hv.2 with ⟨h', m', xs', he, hm', hev, hc⟩
    have hsim := hs.evolve hi hev hm'
    rw [hc, ← (hs.map i m hi).2, update_eq_self] at hsim
    exact ⟨_, _, _, by rw [mapStep, hi, Option.bind_some, he]; rfl, hsim, trivial⟩
  | copyConstruct i j =>
    rcases Option.ne_none_iff_exists'.mp hv.2 with ⟨o, hj⟩
    rcases hs.map j o hj with ⟨ho, hc⟩
    rcases copyConstruct_spec ho with ⟨h', m', xs', he, hm', hc', hf, hnew⟩
    have hsim := hs.add (i := i) hf hm' hnew
    rw [hc', ← hc] at hsim
    exact ⟨_, _, _, by rw [mapStep, hj, Option.bind_some, he]; rfl, hsim, trivial⟩
  | copyAssign i j =>
    rcases Option.ne_none_iff_exists'.mp hv.1 with ⟨m, hi⟩
    rcases Option.ne_none_iff_exists'.mp hv.2 with ⟨o, hj⟩
    rcases copyAssign_spec (hs.map i m hi).1 (hs.map j o hj).1 with ⟨h', m', xs', he, hm', hev, hc⟩
    have hsim := hs.evolve hi hev hm'
    rw [hc, ← (hs.map j o hj).2] at hsim
    exact ⟨_, _, _, by rw [mapStep, hi, Option.bind_some, hj, Option.bind_some, he]; rfl, hsim,
      trivial⟩
  | moveConstruct i j =>
    rcases Option.ne_none_iff_exists'.mp hv.2 with ⟨o, hj⟩
    have hij : i ≠ j := by
      rintro rfl
      exact hv.2 hv.1
    exact hs.moveConstruct hij hj
  | moveAssign i j =>
    rcases Option.ne_none_iff_exists'.mp hv.1 with ⟨m, hi⟩
    rcases Option.ne_none_iff_exists'.mp hv.2 with ⟨o, hj⟩
    by_cases hij : i = j
    · subst hij
      rcases moveAssign_self_spec (hs.map i m hi).1 with ⟨hm', hc, hf⟩
      have hsim := hs.evolve hi ⟨rfl, hf, fun a ha _ => ha⟩ hm'
      rw [hc, ← (hs.map i m hi).2, update_eq_self, update_eq_self] at hsim
      refine ⟨_, _, xs, by rw [mapStep, hi]; rfl, ?_, trivial⟩
      rw [MapState.set_set, finStep, update_eq_self, update_eq_self]
      exact hsim
    · exact ⟨_, _, _, by rw [mapStep, hi, Option.bind_some, hj]; rfl, hs.exchange hij hi hj, trivial⟩

theorem MapReach.sim (hr : MapReach H st s) : ∃ xs, MapSim H st s xs := by
  induction hr with
  | init h => exact ⟨fun _ => [], by simp, fun _ _ => rfl, by simp⟩
  | step _ hv hstep ih =>
    rcases ih with ⟨xs, hs⟩
    rcases hs.step hv with ⟨st1, res1, xs1, hstep1, hs1, -⟩
    obtain ⟨rfl, rfl⟩ := Prod.mk.inj (Option.some.inj (hstep1.symm.trans hstep))
    exact ⟨xs1, hs1⟩

omit [Inhabited V] in
theorem IsMap.observes (hm : IsMap H h m ys) : Observes H h m (contents h ys) where
  find k := by
    refine ⟨_, find_eq hm.toIsTable, ?_, ?_⟩
    · rw [Option.isSome_iff_ne_none, ne_eq, ne_eq, contents_eq_none hm.keyed]
      cases hn : nodeOf h ys k with
      | none => simp
      | some a =>
        have ha := ((nodeOf_eq_some hm.keys).mp hn).1
        simpa using fun he : a = m.data => hm.list.ring.not_mem (he ▸ ha)
    · intro hne
      cases hn : nodeOf h ys k with
      | none => simp [hn] at hne
      | some a => exact ⟨((nodeOf_eq_some hm.keys).mp hn).2, by simp [contents, hn]⟩
  iterate := by
    rcases exists_keys hm.keyed with ⟨ks, hks, hnd, hmem, hlen⟩
    exact ⟨ys, ks, elements_eq hm.list, hks, hnd, hmem, hm.list.size.trans hlen.symm⟩
  load := by
    rw [size, hm.list.size]
    exact hm.load

/-- Each map is observed to be its finite map, and every valid operation acts on the finite maps as it
should. -/
theorem nodeHashMap_refines_finite_map (hr : MapReach H st s) :
    (∀ i m, st.maps i = some m → ∃ f, s i = some f ∧ Observes H st.heap m f) ∧
      ∀ op : MapOp K V, op.Valid st s → ∃ st' res, mapStep H st op = some (st', res) ∧
        MapReach H st' (finStep (keyAt st.heap) s op) ∧ op.Returns st st' s res := by
  rcases hr.sim with ⟨xs, hs⟩
  constructor
  · intro i m hi
    rcases hs.map i m hi with ⟨hm, hc⟩
    exact ⟨_, hc, hm.observes⟩
  · intro op hv
    rcases hs.step hv with ⟨st', res, xs', hstep, -, hret⟩
    exact ⟨st', res, hstep, hr.step hv hstep, hret⟩

end Steps

/-- A map whose hash function is constant, after its construction and after each of two insertions. -/
def noMaps : MapState ℕ ℕ := ⟨⟨⟨id, id⟩, fun _ => none, fun _ => 0, 0⟩, fun _ => none⟩

def noKeys : MapState ℕ ℕ :=
  ((mapStep (fun _ => 0) noMaps (.construct 0 0)).get (by decide +kernel)).1

def oneKey : MapState ℕ ℕ :=
  ((mapStep (fun _ => 0) noKeys (.emplace 0 5 7)).get (by decide +kernel)).1

def twoKeys : MapState ℕ ℕ :=
  ((mapStep (fun _ => 0) oneKey (.emplace 0 6 8)).get (by decide +kernel)).1

theorem MapReach.step_get [DecidableEq K] [Inhabited V] {op : MapOp K V} (hr : MapReach H st s)
    (hv : op.Valid st s) (hs : (mapStep H st op).isSome) :
    MapReach H ((mapStep H st op).get hs).1 (finStep (keyAt st.heap) s op) :=
  hr.step hv (Option.some_get hs).symm

theorem room_of_size {st : MapState ℕ ℕ} {s : FinMaps ℕ ℕ} {n k : ℕ} {f : ℕ → Option ℕ}
    (hsize : (st.maps 0).map (NodeHashMap.size st.heap) = some n) (hn : n < maxBucketCount)
    (hf : s 0 = some f) : Room st s 0 k := by
  rcases Option.map_eq_some_iff.mp hsize with ⟨m, hm, rfl⟩
  exact ⟨m, f, hm, hf, .inr hn⟩

/-- Two keys in one bucket. -/
theorem nodeHashMap_refines_constant_hash : ∃ m f, twoKeys.maps 0 = some m ∧
    NodeHashMap.size twoKeys.heap m = 2 ∧ f 5 = some 7 ∧ f 6 = some 8 ∧
    Observes (fun _ => 0) twoKeys.heap m f := by
  have hconstruct : (MapOp.construct 0 0).Valid noMaps fun _ => none := ⟨rfl, by decide⟩
  have h0 : MapReach (fun _ => 0) noKeys _ := (MapReach.init _).step_get hconstruct (by decide +kernel)
  have hfirst : (MapOp.emplace 0 5 7).Valid noKeys
      (finStep (keyAt noMaps.heap) (fun _ => none) (.construct 0 0)) :=
    room_of_size (n := 0) (by decide +kernel) (by decide) rfl
  have h1 : MapReach (fun _ => 0) oneKey _ := h0.step_get hfirst (by decide +kernel)
  have hsecond : (MapOp.emplace 0 6 8).Valid oneKey (finStep (keyAt noKeys.heap)
      (finStep (keyAt noMaps.heap) (fun _ => none) (.construct 0 0)) (.emplace 0 5 7)) :=
    room_of_size (n := 1) (by decide +kernel) (by decide) rfl
  have h2 : MapReach (fun _ => 0) twoKeys _ := h1.step_get hsecond (by decide +kernel)
  have hsize : (twoKeys.maps 0).map (NodeHashMap.size twoKeys.heap) = some 2 := by decide +kernel
  rcases Option.map_eq_some_iff.mp hsize with ⟨m, hm, hsize⟩
  rcases (nodeHashMap_refines_finite_map h2).1 0 m hm with ⟨f, hf, hobs⟩
  obtain rfl := Option.some.inj hf
  exact ⟨m, _, hm, hsize, rfl, rfl, hobs⟩

end HmmOS.Nonstd
