import HmmOS.Nonstd.NodeHashMapLayout

/-! # The contents of `node_hash_map`

A table represents a finite map. Lookup finds the element with a key, and every
operation changes the contents as the finite map changes.
-/
namespace HmmOS.Nonstd
open Lib Lib.Ring Function NodeHashMap
variable {K V : Type*} [DecidableEq K] {H : K → ℕ} {h h' : MapHeap K V} {m : NodeHashMap}
  {xs ys : List ℕ} {k : K} {a : ℕ}

def nodeOf (h : MapHeap K V) (xs : List ℕ) (k : K) : Option ℕ := xs.find? (fun a => keyAt h a = some k)

def contents (h : MapHeap K V) (xs : List ℕ) (k : K) : Option V := (nodeOf h xs k).bind (valueAt h)

theorem nodeOf_eq_some (hk : (xs.map (keyAt h)).Nodup) :
    nodeOf h xs k = some a ↔ a ∈ xs ∧ keyAt h a = some k := by
  constructor
  · intro hs
    exact ⟨List.mem_of_find?_eq_some hs, by simpa using List.find?_some hs⟩
  · rintro ⟨ha, hka⟩
    cases hf : nodeOf h xs k with
    | none => exact absurd hka (by simpa using List.find?_eq_none.mp hf a ha)
    | some b =>
      have hb := List.mem_of_find?_eq_some hf
      have hkb : keyAt h b = some k := by simpa using List.find?_some hf
      rw [List.inj_on_of_nodup_map hk hb ha (hkb.trans hka.symm)]

theorem nodeOf_eq_none : nodeOf h xs k = none ↔ ∀ a ∈ xs, keyAt h a ≠ some k := by
  simp [nodeOf]

theorem scan_eq (ht : IsTable H h m xs) {l r : List ℕ} (hx : xs = l ++ r) {fuel i : ℕ} (hf : r.length ≤ fuel) :
    NodeHashMap.scan h m i k (fuel + 1) (r.headD m.data) =
      some ((r.takeWhile (fun x => bucketAt h m.bucketCount x = i)).find? (fun x => keyAt h x = some k)) := by
  induction r generalizing l fuel with
  | nil =>
    have hend : sameBucket h m m.data i = false := sameBucket_data i
    simp [scan, hend]
  | cons x r ih =>
    cases fuel with
    | zero => simp at hf
    | succ fuel =>
      have hxm : x ∈ xs := by simp [hx]
      have hnext : h.links.next x = r.headD m.data := (hx ▸ ht.list.ring).next_of_mem
      have htail := @ih (l ++ [x]) (by simp [hx]) fuel (by simpa using hf)
      rw [List.headD_cons, scan, sameBucket_eq ht hxm, hnext, htail]
      by_cases hb : bucketAt h m.bucketCount x = i
      · by_cases hk : keyAt h x = some k
        · simp [hb, hk]
        · simp [hb, hk]
      · simp [hb]

/-- The bucket loop finds the element with the key, if there is one. -/
theorem scan_bucket (ht : IsTable H h m xs) {p : ℕ} (hp : m.buckets (m.getBucket (H k)) = some p) :
    NodeHashMap.scan h m (m.getBucket (H k)) k (h.size m.data + 1) p = some (nodeOf h xs k) := by
  rw [ht.buckets] at hp
  rcases firstOf_eq_some hp with ⟨l, r, hx, hb, hl⟩
  have hlen : (p :: r).length ≤ h.size m.data := by
    rw [ht.list.size, hx]
    simp
  have hscan := scan_eq (k := k) ht hx (i := m.getBucket (H k)) hlen
  rw [List.headD_cons] at hscan
  rw [hscan]
  congr 1
  have hgroup : Grouped (bucketAt h m.bucketCount) (p :: r) := (hx ▸ ht.grouped).of_append
  cases hn : nodeOf h xs k with
  | none =>
    rw [List.find?_eq_none]
    intro x hxm
    have hmem : x ∈ xs := by
      rw [hx]
      exact List.mem_append_right _ ((List.takeWhile_sublist _).subset hxm)
    simpa using nodeOf_eq_none.mp hn x hmem
  | some a =>
    rcases (nodeOf_eq_some ht.keys).mp hn with ⟨ha, hka⟩
    have hba := bucketAt_of_key ht ha hka
    have har : a ∈ p :: r := by
      rw [hx] at ha
      rcases List.mem_append.mp ha with ha | ha
      · exact absurd hba (hl a ha)
      · exact ha
    have hmem := hgroup.mem_takeWhile har (hba.trans hb.symm)
    rw [hb] at hmem
    cases hf : ((p :: r).takeWhile fun x => bucketAt h m.bucketCount x = m.getBucket (H k)).find?
        (fun x => keyAt h x = some k) with
    | none => exact absurd hka (by simpa using List.find?_eq_none.mp hf a hmem)
    | some b =>
      have hbm : b ∈ xs := by
        rw [hx]
        exact List.mem_append_right _ ((List.takeWhile_sublist _).subset (List.mem_of_find?_eq_some hf))
      have hkb : keyAt h b = some k := by simpa using List.find?_some hf
      rw [List.inj_on_of_nodup_map ht.keys hbm ha (hkb.trans hka.symm)]

theorem nodeOf_of_empty_bucket (ht : IsTable H h m xs)
    (hp : m.buckets (m.getBucket (H k)) = none) : nodeOf h xs k = none := by
  rw [ht.buckets, firstOf_eq_none] at hp
  rw [nodeOf_eq_none]
  intro a ha hka
  exact hp a ha (bucketAt_of_key ht ha hka)

theorem find_eq (ht : IsTable H h m xs) : NodeHashMap.find H h m k = some ((nodeOf h xs k).getD m.data) := by
  unfold find
  dsimp only
  cases hp : m.buckets (m.getBucket (H k)) with
  | none => simp [nodeOf_of_empty_bucket ht hp]
  | some p => simp [scan_bucket ht hp]

section Contents
variable {v w : V}

theorem contents_eq_some (hk : (xs.map (keyAt h)).Nodup) :
    contents h xs k = some v ↔ ∃ a ∈ xs, ∃ n, h.val a = some n ∧ n.key = k ∧ n.value = v := by
  rw [contents, Option.bind_eq_some_iff]
  constructor
  · rintro ⟨a, ha, hv⟩
    rcases (nodeOf_eq_some hk).mp ha with ⟨hmem, hkey⟩
    rcases Option.map_eq_some_iff.mp hv with ⟨n, hn, hvalue⟩
    exact ⟨a, hmem, n, hn, by simpa [keyAt, hn] using hkey, hvalue⟩
  · rintro ⟨a, ha, n, hn, hkey, hvalue⟩
    exact ⟨a, (nodeOf_eq_some hk).mpr ⟨ha, by simp [keyAt, hn, hkey]⟩, by simp [valueAt, hn, hvalue]⟩

structure Keyed (h : MapHeap K V) (xs : List ℕ) : Prop where
  node : ∀ a ∈ xs, ∃ n, h.val a = some n
  keys : (xs.map (keyAt h)).Nodup

omit [DecidableEq K] in
theorem IsTable.keyed (ht : IsTable H h m xs) : Keyed h xs :=
  ⟨fun a ha => (ht.node a ha).imp fun _ hn => hn.1, ht.keys⟩

omit [DecidableEq K] in
theorem Keyed.sublist (ht : Keyed h xs) (hs : ys.Sublist xs) : Keyed h ys :=
  ⟨fun a ha => ht.node a (hs.subset ha), (hs.map _).nodup ht.keys⟩

theorem contents_eq_none (ht : Keyed h xs) : contents h xs k = none ↔ nodeOf h xs k = none := by
  constructor
  · intro hc
    cases hn : nodeOf h xs k with
    | none => rfl
    | some a =>
      rcases ht.node a ((nodeOf_eq_some ht.keys).mp hn).1 with ⟨n, hval⟩
      simp [contents, hn, valueAt, hval] at hc
  · intro hn
    simp [contents, hn]

theorem contents_congr (hx : (xs.map (keyAt h)).Nodup) (hy : (ys.map (keyAt h')).Nodup)
    (hmem : ∀ a, a ∈ ys ↔ a ∈ xs) (hval : ∀ a ∈ xs, h'.val a = h.val a) : contents h' ys = contents h xs := by
  ext k v
  rw [contents_eq_some hx, contents_eq_some hy]
  constructor
  · rintro ⟨a, ha, n, hn, hrest⟩
    exact ⟨a, (hmem a).mp ha, n, (hval a ((hmem a).mp ha)) ▸ hn, hrest⟩
  · rintro ⟨a, ha, n, hn, hrest⟩
    exact ⟨a, (hmem a).mpr ha, n, (hval a ha).trans hn, hrest⟩

theorem contents_insert {n : ℕ} {node : MapNode K V} (hx : (xs.map (keyAt h)).Nodup)
    (hy : (ys.map (keyAt h')).Nodup) (hmem : ∀ a, a ∈ ys ↔ a = n ∨ a ∈ xs)
    (hval : ∀ a ∈ xs, h'.val a = h.val a) (hn : h'.val n = some node) (hnew : nodeOf h xs node.key = none) :
    contents h' ys = update (contents h xs) node.key (some node.value) := by
  ext k v
  rw [contents_eq_some hy, update_apply]
  constructor
  · rintro ⟨a, ha, n', hn', hk, hv⟩
    rcases (hmem a).mp ha with rfl | ha
    · obtain rfl := Option.some.inj (hn.symm.trans hn')
      rw [if_pos hk.symm, hv]
    · have hka : keyAt h a = some k := by rw [keyAt, ← hval a ha, hn', ← hk]; rfl
      have hne : k ≠ node.key := fun he => nodeOf_eq_none.mp hnew a ha (he ▸ hka)
      rw [if_neg hne, contents_eq_some hx]
      exact ⟨a, ha, n', (hval a ha) ▸ hn', hk, hv⟩
  · split_ifs with hk
    · intro hv
      exact ⟨n, (hmem n).mpr (.inl rfl), node, hn, hk.symm, Option.some.inj hv⟩
    · rw [contents_eq_some hx]
      rintro ⟨a, ha, n', hn', hrest⟩
      exact ⟨a, (hmem a).mpr (.inr ha), n', (hval a ha).trans hn', hrest⟩

theorem contents_erase {l r : List ℕ} {node : MapNode K V}
    (hx : ((l ++ a :: r).map (keyAt h)).Nodup) (hy : ((l ++ r).map (keyAt h')).Nodup)
    (hval : ∀ x ∈ l ++ r, h'.val x = h.val x) (ha : h.val a = some node) :
    contents h' (l ++ r) = update (contents h (l ++ a :: r)) node.key none := by
  have hnd := hx
  rw [List.map_append, List.map_cons, List.nodup_middle, ← List.map_append, List.nodup_cons] at hnd
  rcases hnd with ⟨hnew, hxr⟩
  have hrest : nodeOf h (l ++ r) node.key = none := by
    rw [nodeOf_eq_none]
    intro x hxm hk
    apply hnew
    rw [show keyAt h a = some node.key by simp [keyAt, ha], ← hk]
    exact List.mem_map_of_mem hxm
  have hsame : contents h' (l ++ r) = contents h (l ++ r) :=
    contents_congr hxr hy (fun _ => Iff.rfl) hval
  have hins : contents h (l ++ a :: r) =
      update (contents h (l ++ r)) node.key (some node.value) :=
    contents_insert hxr hx (fun x => by simp only [List.mem_append, List.mem_cons]; tauto)
      (fun _ _ => rfl) ha hrest
  rw [hsame, hins, update_idem, eq_comm, update_eq_self_iff]
  simp [contents, hrest]

end Contents

/-- Nodes that are not touched keep a map well formed when its list is. -/
theorem IsMap.of_same (hm : IsMap H h m xs) (m' : NodeHashMap) (hl : IsList h' m'.data xs)
    (hval : ∀ a ∈ xs, h'.val a = h.val a) (hb : m'.buckets = m.buckets) (hc : m'.bucketCount = m.bucketCount) :
    IsMap H h' m' xs ∧ contents h' xs = contents h xs := by
  have hm' : IsMap H h' m' xs := by
    refine hm.of_keys hl (fun a ha => ?_) (fun a ha => by rw [keyAt, hval a ha, keyAt]) hb hc
    rw [hval a ha]
    exact hm.node a ha
  exact ⟨hm', contents_congr hm.keys hm'.keys (fun _ => Iff.rfl) hval⟩

theorem IsMap.frame {F : List ℕ} (hm : IsMap H h m xs) (hf : Frame F h h')
    (hd : ∀ a ∈ m.data :: xs, a ∉ F) : IsMap H h' m xs ∧ contents h' xs = contents h xs :=
  hm.of_same m (hm.list.frame hf hd) (fun a ha => hf.val a (hm.list.fresh a (List.mem_cons_of_mem _ ha))
    (hd a (List.mem_cons_of_mem _ ha))) rfl rfl

section Emplace
variable {v : V} {node : MapNode K V}

omit [DecidableEq K] in
theorem setValue_val (ha : h.val a = some node) :
    (setValue h a v).val = update h.val a (some { node with value := v }) := by
  rw [setValue, ha]
  rfl

omit [DecidableEq K] in
theorem keyAt_setValue : keyAt (setValue h a v) = keyAt h := by
  funext x
  by_cases hx : x = a
  · subst hx
    simp [keyAt, setValue, Function.comp_def]
  · simp [keyAt, setValue, update_of_ne hx]

theorem setValue_spec (hm : IsMap H h m xs) (hn : nodeOf h xs k = some a) (v : V) :
    IsMap H (setValue h a v) m xs ∧ Evolves h (setValue h a v) m m xs xs ∧
      contents (setValue h a v) xs = update (contents h xs) k (some v) ∧
      keyAt (setValue h a v) a = some k ∧ valueAt (setValue h a v) a = some v := by
  rcases (nodeOf_eq_some hm.keys).mp hn with ⟨ha, hka⟩
  rcases hm.node a ha with ⟨node, hnode, hhash⟩
  have hval := setValue_val (v := v) hnode
  have hvalue : valueAt (setValue h a v) a = some v := by simp [valueAt, hval]
  refine ⟨hm.of_keys ⟨hm.list.ring, hm.list.size, hm.list.fresh⟩ (fun x hx => ?_)
    (fun x _ => congrFun keyAt_setValue x) rfl rfl, ?_, ?_, by rw [keyAt_setValue, hka], hvalue⟩
  · rw [hval, update_apply]
    split_ifs with he
    · exact ⟨_, rfl, hhash⟩
    · exact hm.node x hx
  · refine ⟨rfl, ⟨le_rfl, fun _ _ _ => rfl, fun _ _ _ => rfl, fun x _ hx => ?_, fun _ _ _ => rfl⟩,
      fun x hx _ => hx⟩
    have hne : x ≠ a := fun he => hx (he ▸ List.mem_cons_of_mem _ ha)
    rw [hval, update_of_ne hne]
  · funext k'
    have hnode' : nodeOf (setValue h a v) xs k' = nodeOf h xs k' := by
      unfold nodeOf
      rw [keyAt_setValue]
    rw [contents, hnode', update_apply]
    split_ifs with hk
    · rw [hk, hn, Option.bind_some, hvalue]
    · rw [contents]
      cases hb : nodeOf h xs k' with
      | none => rfl
      | some b =>
        have hne : b ≠ a := by
          rintro rfl
          have hkb := ((nodeOf_eq_some hm.keys).mp hb).2
          exact hk (Option.some.inj (hkb.symm.trans hka))
        simp [valueAt, hval, update_of_ne hne]

/-- Inserting an element for a new key, with the growth of the table that may follow. -/
theorem insertNew_spec (hm : IsMap H h m xs) (hn : nodeOf h xs k = none)
    (hroom : xs.length < maxBucketCount) (v : V) : ∃ h' m' xs', NodeHashMap.insertNew H h m
        ((m.buckets (m.getBucket (H k))).getD (h.begin m.data)) k v = some (h', m', h.fresh, true) ∧
      IsMap H h' m' xs' ∧ Evolves h h' m m' xs xs' ∧ contents h' xs' = update (contents h xs) k (some v) ∧
      h.fresh ∈ xs' ∧ keyAt h' h.fresh = some k ∧ valueAt h' h.fresh = some v := by
  rcases hm.position (m.getBucket (H k)) with ⟨l, r, hx, hpos, hl, hg⟩
  have hlist := hx ▸ hm.list
  have hnew : ∀ a ∈ xs, a ≠ h.fresh := fun a ha =>
    ne_of_lt (hm.list.fresh a (List.mem_cons_of_mem _ ha))
  have hlist1 := emplace_isList (v := (⟨H k, k, v⟩ : MapNode K V)) hlist hpos
  have hframe1 := emplace_frame (v := (⟨H k, k, v⟩ : MapNode K V)) hlist hpos
  generalize hpe : (m.buckets (m.getBucket (H k))).getD (h.begin m.data) = pos at *
  have hval1 : ∀ a ∈ xs, (h.emplace m.data pos ⟨H k, k, v⟩).1.val a = h.val a := by
    intro a ha
    rw [emplace_val, update_of_ne (hnew a ha)]
  have hvaln : (h.emplace m.data pos ⟨H k, k, v⟩).1.val h.fresh = some ⟨H k, k, v⟩ := by
    rw [emplace_val, update_self]
  have ht1 := hm.toIsTable.insert hx hl hg hlist1 hval1 hvaln rfl (nodeOf_eq_none.mp hn) rfl
  have hlen : (l ++ h.fresh :: r).length = xs.length + 1 := by
    rw [hx]
    simp
    omega
  have hcount : (l ++ h.fresh :: r).length ≤ maxBucketCount := by omega
  rcases rehash_spec ht1 hcount with ⟨h2, m2, xs2, hre, ht2, hperm, hev, hval2, hc, -⟩
  have hmem : ∀ a, a ∈ xs2 ↔ a = h.fresh ∨ a ∈ xs := by
    intro a
    rw [hperm.mem_iff, hx]
    simp only [List.mem_append, List.mem_cons]
    tauto
  have hev1 : Evolves h (h.emplace m.data pos ⟨H k, k, v⟩).1 m
      { m with buckets := update m.buckets (m.getBucket (H k)) (some h.fresh) } xs
      (l ++ h.fresh :: r) := by
    refine ⟨rfl, hx ▸ hframe1, fun a ha hlt => ?_⟩
    rcases (hmem a).mp (hperm.mem_iff.mpr ha) with rfl | ha
    · exact absurd hlt (lt_irrefl _)
    · exact ha
  refine ⟨h2, m2, xs2, ?_, ⟨ht2, ?_⟩, hev1.trans hev, ?_, (hmem _).mpr (.inl rfl), ?_, ?_⟩
  · rw [insertNew, hlist1.size, emplace_snd]
    rw [hre]
    rfl
  · rw [hperm.length_eq]
    exact hc
  · have hnew : h2.val h.fresh = some ⟨H k, k, v⟩ := by rw [hval2, hvaln]
    exact contents_insert hm.keys ht2.keys hmem (fun a ha => by rw [hval2, hval1 a ha]) hnew hn
  · rw [keyAt, hval2, hvaln]
    rfl
  · rw [valueAt, hval2, hvaln]
    rfl

/-- `emplace` and `try_emplace` differ in what they do with an element that has the key. -/
theorem emplaceWith_spec (found : MapHeap K V → ℕ → MapHeap K V) (hm : IsMap H h m xs) (v : V)
    (hroom : contents h xs k ≠ none ∨ xs.length < maxBucketCount) : (∃ a, nodeOf h xs k = some a ∧
      NodeHashMap.emplaceWith found H h m k v = some (found h a, m, a, false)) ∨
    (contents h xs k = none ∧ ∃ h' m' it xs',
      NodeHashMap.emplaceWith found H h m k v = some (h', m', it, true) ∧
      IsMap H h' m' xs' ∧ Evolves h h' m m' xs xs' ∧ contents h' xs' = update (contents h xs) k (some v) ∧
      it ∈ xs' ∧ keyAt h' it = some k ∧ valueAt h' it = some v) := by
  cases hn : nodeOf h xs k with
  | none =>
    have hc := (contents_eq_none hm.keyed).mpr hn
    have hlt : xs.length < maxBucketCount := hroom.resolve_left (fun hne => hne hc)
    rcases insertNew_spec hm hn hlt v with ⟨h', m', xs', hins, hm', hev, hcont, hit⟩
    refine .inr ⟨hc, h', m', h.fresh, xs', ?_, hm', hev, hcont, hit⟩
    rw [← hins, emplaceWith]
    cases hp : m.buckets (m.getBucket (H k)) with
    | none => rfl
    | some p =>
      dsimp only [Option.getD_some]
      rw [scan_bucket hm.toIsTable hp, hn]
      rfl
  | some a =>
    refine .inl ⟨a, rfl, ?_⟩
    rw [emplaceWith]
    cases hp : m.buckets (m.getBucket (H k)) with
    | none => simp [nodeOf_of_empty_bucket hm.toIsTable hp] at hn
    | some p =>
      dsimp only
      rw [scan_bucket hm.toIsTable hp, hn]
      rfl

theorem emplace_spec (hm : IsMap H h m xs) (v : V) (hroom : contents h xs k ≠ none ∨ xs.length < maxBucketCount) :
    ∃ h' m' it xs', NodeHashMap.emplace H h m k v = some (h', m', it, (contents h xs k).isNone) ∧
      IsMap H h' m' xs' ∧ Evolves h h' m m' xs xs' ∧ contents h' xs' = update (contents h xs) k (some v) ∧
      it ∈ xs' ∧ keyAt h' it = some k ∧ valueAt h' it = some v := by
  rcases emplaceWith_spec (fun h it => setValue h it v) hm v hroom with
    ⟨a, hn, he⟩ | ⟨hc, h', m', it, xs', he, hrest⟩
  · have hsome : (contents h xs k).isNone = false := by
      rw [Option.isNone_eq_false_iff, Option.isSome_iff_ne_none, ne_eq, contents_eq_none hm.keyed, hn]
      simp
    rcases setValue_spec hm hn v with ⟨hm', hev, hcont, hkey, hvalue⟩
    exact ⟨_, m, a, xs, by rw [emplace, he, hsome], hm', hev, hcont,
      ((nodeOf_eq_some hm.keys).mp hn).1, hkey, hvalue⟩
  · exact ⟨h', m', it, xs', by rw [emplace, he, hc]; rfl, hrest⟩

theorem tryEmplace_spec (hm : IsMap H h m xs) (v : V)
    (hroom : contents h xs k ≠ none ∨ xs.length < maxBucketCount) :
    ∃ h' m' it xs', NodeHashMap.tryEmplace H h m k v = some (h', m', it, (contents h xs k).isNone) ∧
      IsMap H h' m' xs' ∧ Evolves h h' m m' xs xs' ∧
      contents h' xs' = update (contents h xs) k (some ((contents h xs k).getD v)) ∧
      it ∈ xs' ∧ keyAt h' it = some k ∧ valueAt h' it = some ((contents h xs k).getD v) := by
  rcases emplaceWith_spec (fun h _ => h) hm v hroom with
    ⟨a, hn, he⟩ | ⟨hc, h', m', it, xs', he, hrest⟩
  · rcases (nodeOf_eq_some hm.keys).mp hn with ⟨ha, hka⟩
    rcases hm.node a ha with ⟨node, hnode, -⟩
    have hval : contents h xs k = some node.value := by simp [contents, hn, valueAt, hnode]
    refine ⟨h, m, a, xs, by rw [tryEmplace, he, hval]; rfl, hm,
      ⟨rfl, Frame.refl _ _, fun x hx _ => hx⟩, ?_, ha, hka, by simp [valueAt, hnode, hval]⟩
    rw [eq_comm, update_eq_self_iff, hval]
    rfl
  · refine ⟨h', m', it, xs', by rw [tryEmplace, he, hc]; rfl, ?_⟩
    rw [hc]
    exact hrest

end Emplace

section Iterate

omit [DecidableEq K] in
theorem iterate_eq (hl : IsList h m.data (xs ++ ys)) :
    NodeHashMap.iterate h m (ys.length + 1) (ys.headD m.data) = some ys := by
  induction ys generalizing xs with
  | nil =>
    simp [iterate]
  | cons y ys ih =>
    have hne : y ≠ m.data := fun he => hl.ring.not_mem (by simp [he])
    have hnext : h.links.next y = ys.headD m.data := hl.ring.next_of_mem
    have hl' : IsList h m.data ((xs ++ [y]) ++ ys) := by simpa using hl
    rw [List.headD_cons, iterate, if_pos hne, hnext, List.length_cons, ih hl']
    rfl

omit [DecidableEq K] in
theorem elements_eq (hl : IsList h m.data xs) : NodeHashMap.elements h m = some xs := by
  have hl' : IsList h m.data ([] ++ xs) := hl
  rw [elements, hl.begin_eq, size, hl.size]
  exact iterate_eq hl'

/-- The keys of the elements, which are the keys bound in the contents, each once. -/
theorem exists_keys (ht : Keyed h xs) : ∃ ks : List K, xs.map (keyAt h) = ks.map some ∧ ks.Nodup ∧
      (∀ k, k ∈ ks ↔ (contents h xs k).isSome) ∧ ks.length = xs.length := by
  have hks : ∃ ks : List K, xs.map (keyAt h) = ks.map some := by
    have hnode := ht.node
    clear ht
    induction xs with
    | nil => exact ⟨[], rfl⟩
    | cons x xs ih =>
      rcases ih fun a ha => hnode a (List.mem_cons_of_mem _ ha) with ⟨ks, hks⟩
      rcases hnode x (List.mem_cons_self ..) with ⟨n, hn⟩
      exact ⟨n.key :: ks, by simp [keyAt, hn, ← hks]⟩
  rcases hks with ⟨ks, hks⟩
  refine ⟨ks, hks, ?_, fun k => ?_, by simpa using congrArg List.length hks.symm⟩
  · have hnd := ht.keys
    rw [hks] at hnd
    exact hnd.of_map
  · rw [Option.isSome_iff_ne_none, ne_eq, contents_eq_none ht, nodeOf_eq_none]
    have hmem : k ∈ ks ↔ some k ∈ xs.map (keyAt h) := by
      rw [hks]
      simp
    rw [hmem, List.mem_map]
    push Not
    rfl

theorem length_eq_of_contents (ht : Keyed h xs) (ht' : Keyed h' ys)
    (hc : contents h' ys = contents h xs) : ys.length = xs.length := by
  rcases exists_keys ht with ⟨ks, -, hnd, hmem, hlen⟩
  rcases exists_keys ht' with ⟨ks', -, hnd', hmem', hlen'⟩
  have hperm : ks'.Perm ks := by
    rw [List.perm_ext_iff_of_nodup hnd' hnd]
    intro k
    rw [hmem, hmem', hc]
  rw [← hlen, ← hlen', hperm.length_eq]

end Iterate

theorem insertLoop_spec {o : NodeHashMap} {done rest : List ℕ} (hm : IsMap H h m xs)
    (ho : IsMap H h o (done ++ rest)) (hd : (m.data :: xs).Disjoint (o.data :: (done ++ rest)))
    (hc : contents h xs = contents h done) :
    ∃ h' m' xs', NodeHashMap.insertLoop H o.data (rest.length + 1) h m (rest.headD o.data) = some (h', m') ∧
      IsMap H h' m' xs' ∧ Evolves h h' m m' xs xs' ∧ contents h' xs' = contents h (done ++ rest) := by
  induction rest generalizing h m xs done with
  | nil =>
    refine ⟨h, m, xs, by simp [insertLoop], hm,
      ⟨rfl, Frame.refl _ _, fun a ha _ => ha⟩, by simpa using hc⟩
  | cons y rest ih =>
    have hne : y ≠ o.data := fun he => ho.list.ring.not_mem (by simp [he])
    have hnext : h.links.next y = rest.headD o.data := ho.list.ring.next_of_mem
    rcases ho.node y (by simp) with ⟨node, hnode, -⟩
    have hkeyed : Keyed h done := ho.keyed.sublist (List.sublist_append_left ..)
    have hmore : Keyed h (done ++ [y]) :=
      ho.keyed.sublist ((List.Sublist.refl done).append (by simp))
    -- so far as many elements as copied, so the table has room for one more
    have hroom : xs.length < maxBucketCount := by
      have hlen := length_eq_of_contents hkeyed hm.keyed hc
      have hload := ho.load
      have hbound := ho.bound
      simp only [List.length_append, List.length_cons] at hload
      omega
    rcases emplace_spec (k := node.key) hm node.value (.inr hroom) with
      ⟨h1, m1, it, xs1, he, hm1, hev1, hc1, -⟩
    have hsep : ∀ a ∈ o.data :: (done ++ y :: rest), a ∉ m.data :: xs := fun a ha hx => hd hx ha
    rcases ho.frame hev1.frame hsep with ⟨ho1, hco⟩
    have hval : ∀ a ∈ done ++ [y], h1.val a = h.val a := by
      intro a ha
      have hmem : a ∈ o.data :: (done ++ y :: rest) := by
        simp only [List.mem_append, List.mem_cons, List.not_mem_nil, or_false] at ha ⊢
        tauto
      exact hev1.frame.val a (ho.list.fresh a hmem) (hsep a hmem)
    have hmore1 : ((done ++ [y]).map (keyAt h1)).Nodup := by
      rw [map_keyAt_congr hval]
      exact hmore.keys
    have hnew : nodeOf h done node.key = none := by
      rw [nodeOf_eq_none]
      intro a ha hk
      have hnd := hmore.keys
      rw [List.map_append, List.nodup_append] at hnd
      exact hnd.2.2 _ (List.mem_map_of_mem ha) (keyAt h y) (by simp)
        (hk.trans (by simp [keyAt, hnode]))
    have hc1' : contents h1 xs1 = contents h1 (done ++ [y]) := by
      rw [hc1, hc]
      refine (contents_insert (n := y) hkeyed.keys hmore1 ?_
        (fun a ha => hval a (by simp [ha])) ((hval y (by simp)).trans hnode) hnew).symm
      intro a
      simp only [List.mem_append, List.mem_cons, List.not_mem_nil, or_false]
      tauto
    have hd1 : (m1.data :: xs1).Disjoint (o.data :: ((done ++ [y]) ++ rest)) := by
      intro a hx ha
      have ha' : a ∈ o.data :: (done ++ y :: rest) := by simpa using ha
      rw [hev1.data] at hx
      rcases List.mem_cons.mp hx with rfl | hx
      · exact hd (List.mem_cons_self ..) ha'
      · exact hd (List.mem_cons_of_mem _ (hev1.sub a hx (ho.list.fresh a ha'))) ha'
    have ho1' : IsMap H h1 o ((done ++ [y]) ++ rest) := by simpa using ho1
    rcases ih hm1 ho1' hd1 hc1' with ⟨h2, m2, xs2, hloop, hm2, hev2, hc2⟩
    refine ⟨h2, m2, xs2, ?_, hm2, hev1.trans hev2, ?_⟩
    · rw [List.headD_cons, insertLoop, if_pos hne, hnode, Option.bind_some, he,
        Option.bind_some, hnext]
      exact hloop
    · rw [hc2, ← hco]
      simp

/-- A copy has the contents of the original and lives in new memory. -/
theorem copyConstruct_spec (hm : IsMap H h m xs) :
    ∃ h' m' xs', NodeHashMap.copyConstruct H h m = some (h', m') ∧ IsMap H h' m' xs' ∧
      contents h' xs' = contents h xs ∧ Frame [] h h' ∧ ∀ a ∈ m'.data :: xs', h.fresh ≤ a := by
  rcases construct_spec H h (n := 0) (Nat.zero_le _) with ⟨m0, hcon, hm0, hdata, -⟩
  rcases hm.frame (constructList_frame h) (by simp) with ⟨hmo, hco⟩
  have hmo' : IsMap H h.constructList.1 m ([] ++ xs) := hmo
  have hd : [m0.data].Disjoint (m.data :: ([] ++ xs)) := by
    intro a ha hx
    rw [List.mem_singleton.mp ha, hdata] at hx
    exact absurd (hm.list.fresh _ hx) (lt_irrefl _)
  rcases insertLoop_spec hm0 hmo' hd rfl with
    ⟨h', m', xs', hloop, hm', hev, hc⟩
  refine ⟨h', m', xs', ?_, hm', hc.trans hco, (constructList_frame h).trans hev.frame ?_, ?_⟩
  · rw [copyConstruct, hcon, Option.bind_some]
    rw [hmo.list.begin_eq, hmo.list.size]
    exact hloop
  · intro a ha hlt
    rw [List.mem_singleton.mp ha, hdata] at hlt
    exact absurd hlt (lt_irrefl _)
  · intro a ha
    rw [hev.data, hdata] at ha
    rcases List.mem_cons.mp ha with rfl | ha
    · exact le_rfl
    · by_contra hlt
      have hm0 := hev.sub a ha (Nat.lt_succ_of_lt (not_le.mp hlt))
      simp at hm0

section Move
variable {o : NodeHashMap}

theorem moveAssign_spec (hm : IsMap H h m xs) (ho : IsMap H h o ys)
    (hd : (m.data :: xs).Disjoint (o.data :: ys)) :
    IsMap H (NodeHashMap.moveAssign h m o).1 (NodeHashMap.moveAssign h m o).2.1 ys ∧
      IsMap H (NodeHashMap.moveAssign h m o).1 (NodeHashMap.moveAssign h m o).2.2 xs ∧
      contents (NodeHashMap.moveAssign h m o).1 ys = contents h ys ∧
      contents (NodeHashMap.moveAssign h m o).1 xs = contents h xs ∧
      Frame ((m.data :: xs) ++ (o.data :: ys)) h (NodeHashMap.moveAssign h m o).1 := by
  rcases swapLists_spec hm.list ho.list hd with ⟨hl, hol, hf⟩
  rcases ho.of_same (moveAssign h m o).2.1 hl (fun _ _ => rfl) rfl rfl with ⟨hm', hcy⟩
  rcases hm.of_same (moveAssign h m o).2.2 hol (fun _ _ => rfl) rfl rfl with ⟨ho', hcx⟩
  exact ⟨hm', ho', hcy, hcx, hf⟩

theorem moveAssign_self_spec (hm : IsMap H h m xs) : IsMap H (NodeHashMap.moveAssign h m m).1 m xs ∧
      contents (NodeHashMap.moveAssign h m m).1 xs = contents h xs ∧
      Frame (m.data :: xs) h (NodeHashMap.moveAssign h m m).1 := by
  rcases swapLists_self_spec hm.list with ⟨hl, hf⟩
  rcases hm.of_same m hl (fun _ _ => rfl) rfl rfl with ⟨hm', hc⟩
  exact ⟨hm', hc, hf⟩

theorem copyAssign_spec (hm : IsMap H h m xs) (ho : IsMap H h o ys) :
    ∃ h' m' xs', NodeHashMap.copyAssign H h m o = some (h', m') ∧ IsMap H h' m' xs' ∧
      Evolves h h' m m' xs xs' ∧ contents h' xs' = contents h ys := by
  rcases copyConstruct_spec ho with ⟨h1, m1, zs, hcopy, hm1, hc1, hf1, hnew⟩
  rcases hm.frame hf1 (by simp) with ⟨hmm, -⟩
  have hd : (m.data :: xs).Disjoint (m1.data :: zs) := by
    intro a ha hz
    exact absurd (hm.list.fresh a ha) (not_lt.mpr (hnew a hz))
  rcases moveAssign_spec hmm hm1 hd with ⟨hm2, ht2, hc2, -, hf2⟩
  rcases clear_spec ht2.toIsTable with ⟨h3, m3, hclear, -, hev, -⟩
  have hsep : ∀ a ∈ m.data :: zs, a ∉ m1.data :: xs := by
    intro a ha hx
    rcases List.mem_cons.mp ha with rfl | hz
    · rcases List.mem_cons.mp hx with he | hx
      · exact hd (List.mem_cons_self ..) (he ▸ List.mem_cons_self ..)
      · exact hm.list.ring.not_mem hx
    · rcases List.mem_cons.mp hx with he | hx
      · exact hm1.list.ring.not_mem (he ▸ hz)
      · exact hd (List.mem_cons_of_mem _ hx) (List.mem_cons_of_mem _ hz)
  rcases hm2.frame hev.frame hsep with ⟨hm3, hc3⟩
  refine ⟨h3, _, zs, ?_, hm3, ⟨rfl, ?_, ?_⟩, hc3.trans (hc2.trans hc1)⟩
  · rw [copyAssign, hcopy, Option.bind_some]
    dsimp only
    rw [hclear]
    rfl
  · refine ((hf1.mono (by simp)).trans hf2 ?_).trans hev.frame ?_
    · intro a ha hlt
      rcases List.mem_append.mp ha with ha | ha
      · exact ha
      · exact absurd hlt (not_lt.mpr (hnew a ha))
    · intro a ha hlt
      rcases List.mem_cons.mp ha with rfl | ha
      · exact absurd hlt (not_lt.mpr (hnew _ (List.mem_cons_self ..)))
      · exact List.mem_cons_of_mem _ ha
  · intro a ha hlt
    exact absurd hlt (not_lt.mpr (hnew a (List.mem_cons_of_mem _ ha)))

end Move

end HmmOS.Nonstd
