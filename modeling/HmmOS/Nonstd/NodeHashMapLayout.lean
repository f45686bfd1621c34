import HmmOS.Lib.Grouped
import HmmOS.Nonstd.NodeHashMap

/-! # The layout kept by `node_hash_map`

The elements of one bucket stand next to each other in the list and the bucket points
at the first of them.
-/
namespace HmmOS.Nonstd
open Lib Lib.Ring Function NodeHashMap
variable {K V : Type*} {H : K → ℕ} {h h' : MapHeap K V} {m : NodeHashMap}
  {xs ys : List ℕ} {a : ℕ}

/-- The bucket of the element at `a` in a table of `c` buckets. -/
def bucketAt (h : MapHeap K V) (c a : ℕ) : ℕ := ((h.val a).map MapNode.hash).getD 0 % c

structure IsTable (H : K → ℕ) (h : MapHeap K V) (m : NodeHashMap) (xs : List ℕ) : Prop where
  list : IsList h m.data xs
  node : ∀ a ∈ xs, ∃ n, h.val a = some n ∧ n.hash = H n.key
  keys : (xs.map (keyAt h)).Nodup
  grouped : Grouped (bucketAt h m.bucketCount) xs
  buckets : ∀ i, m.buckets i = firstOf (bucketAt h m.bucketCount) i xs
  bound : m.bucketCount ≤ maxBucketCount

structure IsMap (H : K → ℕ) (h : MapHeap K V) (m : NodeHashMap) (xs : List ℕ) : Prop
    extends IsTable H h m xs where
  load : xs.length ≤ m.bucketCount

theorem bucketAt_of_key {k : K} (ht : IsTable H h m xs) (ha : a ∈ xs) (hk : keyAt h a = some k) :
    bucketAt h m.bucketCount a = m.getBucket (H k) := by
  rcases ht.node a ha with ⟨n, hn, hhash⟩
  have hkey : n.key = k := by simpa [keyAt, hn] using hk
  simp [bucketAt, getBucket, hn, hhash, hkey]

theorem sameBucket_eq (ht : IsTable H h m xs) (ha : a ∈ xs) (i : ℕ) :
    NodeHashMap.sameBucket h m a i = decide (bucketAt h m.bucketCount a = i) := by
  rcases ht.node a ha with ⟨n, hn, -⟩
  have hne : a ≠ m.data := fun he => ht.list.ring.not_mem (he ▸ ha)
  have hbne : (a != m.data) = true := by simpa using hne
  simp [sameBucket, bucketAt, getBucket, hn, hbne, beq_eq_decide]

theorem sameBucket_data (i : ℕ) : NodeHashMap.sameBucket h m m.data i = false := by
  simp [sameBucket]

theorem bucketAt_congr {c : ℕ} (hval : h'.val a = h.val a) : bucketAt h' c a = bucketAt h c a := by
  rw [bucketAt, hval, bucketAt]

theorem map_keyAt_congr (hval : ∀ a ∈ xs, h'.val a = h.val a) : xs.map (keyAt h') = xs.map (keyAt h) :=
  List.map_congr_left fun a ha => by rw [keyAt, hval a ha, keyAt]

/-- The links of a map may change, and the values of its elements. -/
theorem IsMap.of_keys {m' : NodeHashMap} (hm : IsMap H h m xs) (hl : IsList h' m'.data xs)
    (hnode : ∀ a ∈ xs, ∃ n, h'.val a = some n ∧ n.hash = H n.key)
    (hkey : ∀ a ∈ xs, keyAt h' a = keyAt h a) (hb : m'.buckets = m.buckets)
    (hc : m'.bucketCount = m.bucketCount) : IsMap H h' m' xs := by
  have hbucket : ∀ a ∈ xs, bucketAt h' m.bucketCount a = bucketAt h m.bucketCount a := by
    intro a ha
    rcases hm.node a ha with ⟨n, hn, hhash⟩
    rcases hnode a ha with ⟨n', hn', hhash'⟩
    have hk : n'.key = n.key := by simpa [keyAt, hn, hn'] using hkey a ha
    simp [bucketAt, hn, hn', hhash, hhash', hk]
  refine ⟨⟨hl, hnode, ?_, ?_, fun i => ?_, hc ▸ hm.bound⟩, hc ▸ hm.load⟩
  · rw [List.map_congr_left hkey]
    exact hm.keys
  · rw [hc]
    exact hm.grouped.congr hbucket
  · rw [hb, hc, hm.buckets, firstOf_congr hbucket]

/-- An operation keeps the list of its map, touches only the map and takes elements only from it
or from new memory. -/
structure Evolves (h h' : MapHeap K V) (m m' : NodeHashMap) (xs xs' : List ℕ) : Prop where
  data : m'.data = m.data
  frame : Frame (m.data :: xs) h h'
  sub : ∀ a ∈ xs', a < h.fresh → a ∈ xs

theorem Evolves.trans {h'' : MapHeap K V} {m' m'' : NodeHashMap} {xs' xs'' : List ℕ}
    (h1 : Evolves h h' m m' xs xs') (h2 : Evolves h' h'' m' m'' xs' xs'') : Evolves h h'' m m'' xs xs'' where
  data := h2.data.trans h1.data
  frame := h1.frame.trans h2.frame fun a ha hlt => by
    rcases List.mem_cons.mp ha with rfl | ha
    · rw [h1.data]
      exact List.mem_cons_self ..
    · exact List.mem_cons_of_mem _ (h1.sub a ha hlt)
  sub a ha hlt := h1.sub a (h2.sub a ha (lt_of_lt_of_le hlt h1.frame.fresh)) hlt

section Insert
variable {n : ℕ} {node : MapNode K V} {i : ℕ}

theorem IsTable.position (ht : IsTable H h m xs) (i : ℕ) :
    ∃ l r, xs = l ++ r ∧ (m.buckets i).getD (h.begin m.data) = r.headD m.data ∧
      (∀ a ∈ l, bucketAt h m.bucketCount a ≠ i) ∧
      ∀ (b : ℕ → ℕ) (n : ℕ), (∀ a ∈ xs, b a = bucketAt h m.bucketCount a) → b n = i →
        Grouped b (l ++ n :: r) := by
  cases hp : m.buckets i with
  | none =>
    rw [ht.buckets, firstOf_eq_none] at hp
    refine ⟨[], xs, rfl, ht.list.begin_eq, by simp, fun b n hb hn => ?_⟩
    exact (ht.grouped.congr hb).cons fun a ha => by
      rw [hb a ha, hn]
      exact hp a ha
  | some p =>
    rw [ht.buckets] at hp
    rcases firstOf_eq_some hp with ⟨l, r, rfl, hbp, hl⟩
    refine ⟨l, p :: r, rfl, rfl, hl, fun b n hb hn => ?_⟩
    apply (ht.grouped.congr hb).insert
    rw [hb p (by simp), hbp, hn]

/-- Linking a node in at its position and pointing the bucket at it. -/
theorem IsTable.insert (ht : IsTable H h m xs) {l r : List ℕ} (hx : xs = l ++ r)
    (hl : ∀ a ∈ l, bucketAt h m.bucketCount a ≠ i)
    (hg : ∀ (b : ℕ → ℕ) (n : ℕ), (∀ a ∈ xs, b a = bucketAt h m.bucketCount a) → b n = i →
      Grouped b (l ++ n :: r)) (hlist : IsList h' m.data (l ++ n :: r)) (hval : ∀ a ∈ xs, h'.val a = h.val a)
    (hn : h'.val n = some node) (hhash : node.hash = H node.key)
    (hkey : ∀ a ∈ xs, keyAt h a ≠ some node.key) (hi : node.hash % m.bucketCount = i) :
    IsTable H h' { m with buckets := update m.buckets i (some n) } (l ++ n :: r) := by
  have hb : ∀ a ∈ xs, bucketAt h' m.bucketCount a = bucketAt h m.bucketCount a := fun a ha =>
    bucketAt_congr (hval a ha)
  have hbn : bucketAt h' m.bucketCount n = i := by simp [bucketAt, hn, hi]
  have hmem : ∀ a ∈ l ++ n :: r, a = n ∨ a ∈ xs := by
    intro a ha
    rw [hx]
    simp only [List.mem_append, List.mem_cons] at ha ⊢
    tauto
  have hkeys : (xs.map (keyAt h')).Nodup := by
    rw [map_keyAt_congr hval]
    exact ht.keys
  refine ⟨hlist, ?_, ?_, hg _ n hb hbn, ?_, ht.bound⟩
  · intro a ha
    rcases hmem a ha with rfl | ha
    · exact ⟨node, hn, hhash⟩
    · rw [hval a ha]
      exact ht.node a ha
  · rw [hx] at hkeys
    rw [List.map_append, List.map_cons, List.nodup_middle, ← List.map_append, List.nodup_cons]
    refine ⟨fun hm => ?_, by simpa using hkeys⟩
    rcases List.mem_map.mp hm with ⟨a, ha, hka⟩
    have hax : a ∈ xs := by rw [hx]; exact ha
    apply hkey a hax
    rw [keyAt, hval a hax] at hka
    rw [keyAt, hka, keyAt, hn]
    rfl
  · intro j
    have hl' : ∀ a ∈ l, bucketAt h' m.bucketCount a ≠ bucketAt h' m.bucketCount n := by
      intro a ha
      rw [hb a (by simp [hx, ha]), hbn]
      exact hl a ha
    dsimp only
    rw [firstOf_insert hl', hbn, ← hx, firstOf_congr hb, ← ht.buckets, update_apply]

end Insert

/-- The bucket of an erased element passes to the one that follows, if that is in it too. -/
theorem IsTable.buckets_erase {l r : List ℕ} {p : ℕ} (ht : IsTable H h m (l ++ a :: r))
    (hp : m.buckets (bucketAt h m.bucketCount a) = some p) (j : ℕ) :
    update m.buckets (bucketAt h m.bucketCount a) (if p = a then
        if sameBucket h m (h.links.next p) (bucketAt h m.bucketCount a) then some (h.links.next p) else none
      else some p) j = firstOf (bucketAt h m.bucketCount) j (l ++ r) := by
  rw [update_apply, ht.buckets j]
  rw [ht.buckets] at hp
  by_cases hpa : p = a
  · subst hpa
    have hl : p ∉ l := fun hmem =>
      List.disjoint_of_nodup_append (List.nodup_cons.mp ht.list.ring.nodup).2 hmem List.mem_cons_self
    rw [firstOf_erase ht.grouped (ne_of_firstOf hp hl), if_pos rfl, ht.list.ring.next_of_mem]
    cases r with
    | nil => simp [sameBucket_data]
    | cons x r =>
      have hsame := sameBucket_eq ht (a := x) (by simp) (bucketAt h m.bucketCount p)
      simp [hsame]
  · have hfirst : firstOf (bucketAt h m.bucketCount) (bucketAt h m.bucketCount a)
        (l ++ a :: r) ≠ some a := by simpa [hp] using hpa
    rw [if_neg hpa, firstOf_erase_of_ne hfirst]
    split_ifs with hj
    · rw [hj, hp]
    · rfl

theorem IsTable.erase {l r : List ℕ} {buckets : ℕ → Option ℕ} (ht : IsTable H h m (l ++ a :: r))
    (hbuckets : ∀ j, buckets j = firstOf (bucketAt h m.bucketCount) j (l ++ r)) :
    IsTable H (h.erase m.data a).1 { m with buckets := buckets } (l ++ r) := by
  have hnd := (List.nodup_cons.mp ht.list.ring.nodup).2
  have hval : ∀ x ∈ l ++ r, (h.erase m.data a).1.val x = h.val x := by
    intro x hx
    have hne : x ≠ a := fun he => (List.nodup_cons.mp (List.nodup_middle.mp hnd)).1 (he ▸ hx)
    rw [erase_val, update_of_ne hne]
  have hb : ∀ x ∈ l ++ r, bucketAt (h.erase m.data a).1 m.bucketCount x =
      bucketAt h m.bucketCount x := fun x hx => bucketAt_congr (hval x hx)
  refine ⟨erase_isList ht.list, fun x hx => ?_, ?_, ht.grouped.erase.congr hb, fun j => ?_, ht.bound⟩
  · rw [hval x hx]
    exact ht.node x (by simp only [List.mem_append, List.mem_cons] at hx ⊢; tauto)
  · have hkeys := ht.keys
    rw [List.map_append, List.map_cons, List.nodup_middle, List.nodup_cons] at hkeys
    rw [map_keyAt_congr hval]
    simpa using hkeys.2
  · dsimp only
    rw [hbuckets, firstOf_congr hb]

/-- `erase` returns the iterator that followed the erased element. -/
theorem erase_spec (ht : IsTable H h m xs) {l r : List ℕ} (hx : xs = l ++ a :: r) :
    ∃ h' m', NodeHashMap.erase h m a = some (h', m', r.headD m.data) ∧
      IsTable H h' m' (l ++ r) ∧ Evolves h h' m m' xs (l ++ r) ∧
      m'.bucketCount = m.bucketCount ∧ h'.val = update h.val a none := by
  subst hx
  have ham : a ∈ l ++ a :: r := by simp
  rcases ht.node a ham with ⟨node, hnode, -⟩
  have hba : m.getBucket node.hash = bucketAt h m.bucketCount a := by
    simp [bucketAt, hnode, getBucket]
  have hsome : m.buckets (bucketAt h m.bucketCount a) ≠ none := by
    rw [ht.buckets]
    exact fun hc => firstOf_eq_none.mp hc a ham rfl
  rcases Option.ne_none_iff_exists'.mp hsome with ⟨p, hp⟩
  refine ⟨_, _, ?_, ht.erase (ht.buckets_erase hp), ⟨rfl, erase_frame ht.list, fun x hx _ => ?_⟩, rfl, rfl⟩
  · simp [NodeHashMap.erase, hnode, hba, hp, erase_snd ht.list]
  · simp only [List.mem_append, List.mem_cons] at hx ⊢
    tauto

theorem clearLoop_spec (ht : IsTable H h m xs) :
    ∃ h' m', NodeHashMap.clearLoop (xs.length + 1) h m (xs.headD m.data) = some (h', m') ∧
      IsTable H h' m' [] ∧ Evolves h h' m m' xs [] ∧ m'.bucketCount = m.bucketCount := by
  induction xs generalizing h m with
  | nil =>
    exact ⟨h, m, by simp [clearLoop], ht, ⟨rfl, Frame.refl _ _, by simp⟩, rfl⟩
  | cons x xs ih =>
    have hne : x ≠ m.data := fun he => ht.list.ring.not_mem (by simp [he])
    rcases erase_spec ht (l := []) rfl with ⟨h1, m1, herase, ht1, hev1, hc1, -⟩
    rcases ih ht1 with ⟨h2, m2, hloop, ht2, hev2, hc2⟩
    refine ⟨h2, m2, ?_, ht2, hev1.trans hev2, hc2.trans hc1⟩
    rw [List.headD_cons, clearLoop, if_pos hne, herase, Option.bind_some, ← hev1.data]
    exact hloop

theorem clear_spec (ht : IsTable H h m xs) : ∃ h' m', NodeHashMap.clear h m = some (h', m') ∧
      IsTable H h' m' [] ∧ Evolves h h' m m' xs [] ∧ m'.bucketCount = m.bucketCount := by
  rw [clear, ht.list.begin_eq, ht.list.size]
  exact clearLoop_spec ht

/-- Destroying a map without elements does nothing, whatever its buckets. -/
theorem clear_empty (hl : IsList h m.data []) : NodeHashMap.clear h m = some (h, m) := by
  simp [clear, hl.begin_eq, clearLoop]

theorem nextBucketCount_spec {n : ℕ} (hn : n ≤ maxBucketCount) :
    ∃ c, nextBucketCount n = some c ∧ n ≤ c ∧ c ≤ maxBucketCount := by
  cases hc : nextBucketCount n with
  | none =>
    have hlast := List.find?_eq_none.mp hc maxBucketCount (by decide)
    exact absurd hn (by simpa using hlast)
  | some c =>
    have hge : n ≤ c := by simpa using List.find?_some hc
    have hall : ∀ c ∈ bucketCounts, c ≤ maxBucketCount := by decide
    exact ⟨c, rfl, hge, hall c (List.mem_of_find?_eq_some hc)⟩

theorem construct_spec (H : K → ℕ) (h : MapHeap K V) {n : ℕ} (hn : n ≤ maxBucketCount) :
    ∃ m, NodeHashMap.construct h n = some (h.constructList.1, m) ∧
      IsMap H h.constructList.1 m [] ∧ m.data = h.fresh ∧ n ≤ m.bucketCount := by
  rcases nextBucketCount_spec hn with ⟨c, hc, hle, hmax⟩
  exact ⟨_, by rw [construct, hc]; rfl,
    ⟨⟨constructList_isList h, by simp, by simp, trivial, fun _ => rfl, hmax⟩, by simp⟩, rfl, hle⟩

theorem rehashLoop_spec {tmp : NodeHashMap} {data : ℕ} {zs : List ℕ}
    (ht : IsTable H h tmp zs) (hy : IsList h data ys) (hd : (tmp.data :: zs).Disjoint (data :: ys))
    (hnode : ∀ a ∈ ys, ∃ n, h.val a = some n ∧ n.hash = H n.key)
    (hkeys : ((ys ++ zs).map (keyAt h)).Nodup) :
    ∃ h' tmp' zs', NodeHashMap.rehashLoop data (ys.length + 1) h tmp (ys.headD data) = some (h', tmp') ∧
      IsTable H h' tmp' zs' ∧ zs'.Perm (ys ++ zs) ∧ IsList h' data [] ∧ h'.val = h.val ∧
      Frame ((tmp.data :: zs) ++ (data :: ys)) h h' ∧ tmp'.data = tmp.data ∧
      tmp'.bucketCount = tmp.bucketCount := by
  induction ys generalizing h tmp zs with
  | nil =>
    exact ⟨h, tmp, zs, by simp [rehashLoop], ht, .refl _, hy, rfl, Frame.refl _ _,
      rfl, rfl⟩
  | cons y ys ih =>
    have hne : y ≠ data := fun he => hy.ring.not_mem (by simp [he])
    rcases hnode y (by simp) with ⟨node, hval, hhash⟩
    rcases ht.position (tmp.getBucket node.hash) with ⟨l, r, hz, hpos, hl, hg⟩
    have hnext : h.links.next y = ys.headD data := hy.ring.next_of_mem (l := [])
    subst hz
    have hy' : IsList h data ([] ++ y :: ys) := hy
    have hlists := splice_isList ht.list hy' hd hpos
    have hframe := splice_frame ht.list hy' hpos
    have hky : ∀ a ∈ l ++ r, keyAt h a ≠ some node.key := by
      intro a ha he
      rw [List.cons_append, List.map_cons, List.nodup_cons] at hkeys
      apply hkeys.1
      rw [show keyAt h y = some node.key by simp [keyAt, hval], ← he]
      exact List.mem_map_of_mem (by simp only [List.mem_append] at ha ⊢; tauto)
    have ht1 := ht.insert rfl hl hg hlists.1 (fun _ _ => rfl) hval hhash hky rfl
    have hperm : (ys ++ (l ++ y :: r)).Perm (y :: ys ++ (l ++ r)) := by
      rw [← List.append_assoc, List.cons_append, ← List.append_assoc]
      exact List.perm_middle
    have hd1 : (tmp.data :: (l ++ y :: r)).Disjoint (data :: ys) := by
      intro x hx hm
      have hdx := @hd x
      grind
    rcases ih ht1 hlists.2 hd1 (fun x hx => hnode x (by simp [hx]))
      ((hperm.map _).nodup_iff.mpr hkeys) with
      ⟨h2, tmp2, zs2, hloop, ht2, hperm2, hempty, hval2, hframe2, hdata2, hcount2⟩
    refine ⟨h2, tmp2, zs2, ?_, ht2, hperm2.trans hperm, hempty, hval2, hframe.trans hframe2 ?_,
      hdata2, hcount2⟩
    · rw [List.headD_cons, rehashLoop, if_pos hne, hval, Option.bind_some, hnext]
      exact hloop
    · intro x hx _
      simp only [List.mem_append, List.mem_cons, List.nil_append] at hx ⊢
      tauto

/-- Rehashing keeps the elements and makes room for `count` of them. -/
theorem rehash_spec (ht : IsTable H h m xs) {count : ℕ} (hc : count ≤ maxBucketCount) :
    ∃ h' m' xs', NodeHashMap.rehash h m count = some (h', m') ∧ IsTable H h' m' xs' ∧
      xs'.Perm xs ∧ Evolves h h' m m' xs xs' ∧ h'.val = h.val ∧
      count ≤ m'.bucketCount ∧ m.bucketCount ≤ m'.bucketCount := by
  rw [rehash]
  split_ifs with hle
  · exact ⟨h, m, xs, rfl, ht, .refl _, ⟨rfl, Frame.refl _ _, fun a ha _ => ha⟩, rfl, hle, le_rfl⟩
  rcases construct_spec H h hc with ⟨tmp, htmp, hmap, htd, hcc⟩
  have hlist : IsList h.constructList.1 m.data xs := ht.list.frame (constructList_frame h) (by simp)
  have hfresh : ∀ a ∈ m.data :: xs, a ≠ h.fresh := fun a ha => ne_of_lt (ht.list.fresh a ha)
  have hd : [tmp.data].Disjoint (m.data :: xs) := by
    intro a ha hm
    exact hfresh a hm (htd ▸ List.mem_singleton.mp ha)
  rcases rehashLoop_spec hmap.toIsTable hlist hd ht.node (by rw [List.append_nil]; exact ht.keys) with
    ⟨h1, tmp1, zs, hloop, ht1, hperm, hempty, hval, hframe, hdata, hcount⟩
  rw [htd] at hdata
  have hzs : ∀ a ∈ zs, a ∈ xs := fun a ha => by simpa using hperm.mem_iff.mp ha
  have hd1 : [m.data].Disjoint (tmp1.data :: zs) := by
    intro a ha hm
    obtain rfl := List.mem_singleton.mp ha
    rw [hdata] at hm
    rcases List.mem_cons.mp hm with he | hm
    · exact hfresh _ (List.mem_cons_self ..) he
    · exact ht.list.ring.not_mem (hzs _ hm)
  rcases swapLists_spec hempty ht1.list hd1 with ⟨hm2, htmp2, hframe2⟩
  have hclear := clear_empty (m := { m with data := tmp1.data }) htmp2
  refine ⟨h1.swapLists m.data tmp1.data, { tmp1 with data := m.data }, zs, ?_, ?_, by simpa using hperm,
    ?_, hval, ?_, ?_⟩
  · rw [htmp, Option.bind_some]
    dsimp only
    rw [hlist.begin_eq, hlist.size, hloop, Option.bind_some]
    dsimp only [moveAssign]
    rw [hclear]
    rfl
  · exact ⟨hm2, ht1.node, ht1.keys, ht1.grouped, ht1.buckets, ht1.bound⟩
  · refine ⟨rfl, ?_, fun a ha _ => hzs a ha⟩
    refine (((constructList_frame h).mono (by simp)).trans hframe ?_).trans hframe2 ?_
    · intro a ha hlt
      have hne : a ≠ h.fresh := ne_of_lt hlt
      simpa [htd, hne] using ha
    · intro a ha hlt
      have hne : a ≠ h.fresh := ne_of_lt hlt
      simp only [List.mem_append, List.mem_cons, List.not_mem_nil, or_false, hdata, hne, false_or] at ha ⊢
      exact ha.imp_right (hzs a)
  · rw [hcount]
    exact hcc
  · rw [hcount]
    exact (not_le.mp hle).le.trans hcc

end HmmOS.Nonstd
