import HmmOS.Mm.NormalizeMm

/-! # Splitting a map that meets the documented assumption

In every round the bootloader entry that is visited lies in one piece of a usable entry
and overlaps nothing else.
-/
namespace HmmOS.Mm
open Lib Util.Algorithm

/-- Non-empty entries that meet the documented assumption, with bootloader entries that do not overlap. -/
structure AssumedMap (mm : List MmEntry) : Prop extends DocumentedMap mm where
  nonempty : ∀ e ∈ mm, 0 < e.len
  bootApart : mm.Pairwise fun e1 e2 => e1.IsBoot → e2.IsBoot → e1.Apart e2

variable {mm0 mm : List MmEntry} {i j : ℕ} {owner : ℕ → ℕ} {b e u : MmEntry}

section Separate
variable {k : ℕ} {e1 e2 : MmEntry}

theorem AssumedMap.separate_plain (hm : AssumedMap mm) (hne : j ≠ k) (h1 : mm[j]? = some e1)
    (h2 : mm[k]? = some e2) (hb1 : ¬ e1.IsBoot) (hb2 : ¬ e2.IsBoot) : e1.Separate e2 :=
  (hm.apart_slots hne h1 h2 hb1 hb2).separate (hm.nonempty _ (List.mem_of_getElem? h1))
    (hm.nonempty _ (List.mem_of_getElem? h2))

theorem AssumedMap.separate_boot (hm : AssumedMap mm) (hne : j ≠ k) (h1 : mm[j]? = some e1)
    (h2 : mm[k]? = some e2) (hb1 : e1.IsBoot) (hb2 : e2.IsBoot) : e1.Separate e2 := by
  have hap : e1.Apart e2 :=
    slots_of_pairwise hm.bootApart (fun _ _ hr hb1 hb2 => (hr hb2 hb1).symm) hne h1 h2 hb1 hb2
  exact hap.separate (hm.nonempty _ (List.mem_of_getElem? h1)) (hm.nonempty _ (List.mem_of_getElem? h2))

/-- A bootloader entry is separate from every other entry that is neither usable nor the bootloader's. -/
theorem AssumedMap.separate_mixed (hm : AssumedMap mm) (h1 : mm[j]? = some e1) (h2 : mm[k]? = some e2)
    (hb1 : e1.IsBoot) (hb2 : ¬ e2.IsBoot) (ht2 : e2.type ≠ .usable) : e1.Separate e2 := by
  obtain ⟨u, hu, hut, hin⟩ := hm.contained e1 (List.mem_of_getElem? h1) hb1
  obtain ⟨l, hl⟩ := List.mem_iff_getElem?.mp hu
  have hlk : l ≠ k := slot_ne hl h2 (by simpa [hut] using Ne.symm ht2)
  exact (hm.separate_plain hlk hl h2 (MmEntry.not_isBoot hut) hb2).mono hin

/-- A usable piece is separate from every entry that is not the bootloader's. -/
theorem SplitTrace.separate_usable (h : SplitTrace mm0 i mm owner) (hm : AssumedMap mm0) (hne : j ≠ k)
    (h1 : mm[j]? = some e1) (h2 : mm[k]? = some e2) (ht1 : e1.type = .usable) (hb2 : ¬ e2.IsBoot) :
    e1.Separate e2 := by
  obtain ⟨u1, hu1, hut1, hin1⟩ := h.inside j e1 h1 ht1
  have hp1 := MmEntry.not_isBoot hut1
  by_cases ht2 : e2.type = .usable
  · by_cases hown : owner j = owner k
    · exact h.separate j k e1 e2 hne hown h1 h2 ht1 ht2
    · obtain ⟨u2, hu2, hut2, hin2⟩ := h.inside k e2 h2 ht2
      have hsep := hm.separate_plain hown hu1 hu2 hp1 (MmEntry.not_isBoot hut2)
      exact ((hsep.mono hin1).symm.mono hin2).symm
  · have h0 := h.kept k e2 h2 ht2
    have hown : owner j ≠ k := slot_ne hu1 h0 (by simpa [hut1] using Ne.symm ht2)
    exact (hm.separate_plain hown hu1 h0 hp1 hb2).mono hin1

theorem SplitTrace.separate_others (h : SplitTrace mm0 i mm owner) (hm : AssumedMap mm0) (hne : j ≠ k)
    (h1 : mm[j]? = some e1) (h2 : mm[k]? = some e2) (ht1 : e1.type ≠ .usable) (ht2 : e2.type ≠ .usable) :
    e1.Separate e2 := by
  have h10 := h.kept j e1 h1 ht1
  have h20 := h.kept k e2 h2 ht2
  by_cases hb1 : e1.IsBoot <;> by_cases hb2 : e2.IsBoot
  · exact hm.separate_boot hne h10 h20 hb1 hb2
  · exact hm.separate_mixed h10 h20 hb1 hb2 ht2
  · exact (hm.separate_mixed h20 h10 hb2 hb1 ht1).symm
  · exact hm.separate_plain hne h10 h20 hb1 hb2

end Separate

/-- The scan passes over entries that are separate from `b` and cuts it out of the one that contains it. -/
theorem splitScan_found {js : List ℕ} (hw : ∀ e ∈ mm, e.NoWrap) (hu : mm[j]? = some u) (hij : i ≠ j)
    (ht : u.type = .usable) (hin : b.Within u) (hb : 0 < b.len) (hlen : ∀ k ∈ js, k < mm.length)
    (hothers : ∀ k v, k ≠ i → k ≠ j → mm[k]? = some v → b.Separate v) (hj : j ∈ js) :
    splitScan mm i b js = some (cutPieces mm i j u b) := by
  have huw := hw u (List.mem_of_getElem? hu)
  have hmeets := hin.not_separate hb
  induction js with
  | nil => cases hj
  | cons k js ih =>
    by_cases hkj : k = j
    · subst hkj
      exact splitScan_cut hij hu huw hin hmeets ht
    · have hrest := ih (fun l hl => hlen l (List.mem_cons_of_mem k hl))
        ((List.mem_cons.mp hj).resolve_left (Ne.symm hkj))
      by_cases hki : k = i
      · rw [splitScan, if_pos hki.symm, hrest]
      · obtain ⟨v, hv⟩ : ∃ v, mm[k]? = some v :=
          ⟨_, List.getElem?_eq_getElem (hlen k List.mem_cons_self)⟩
        have hno : b.overlaps v = false := by
          rw [← Bool.not_eq_true, overlaps_iff (huw.within hin) (hw v (List.mem_of_getElem? hv)), not_not]
          exact hothers k v hki hkj hv
        rw [splitScan, if_neg (Ne.symm hki), hv]
        dsimp only
        rw [if_pos (by simp [hno]), hrest]

/-- In every round the bootloader entry that is visited lies in one usable piece and is cut out of it. -/
theorem SplitTrace.splitAt_boot (h : SplitTrace mm0 i mm owner) (hm : AssumedMap mm0)
    (hb : mm[i]? = some b) (hbt : b.type = .bootloader) :
    ∃ k e, k ≠ i ∧ mm[k]? = some e ∧ e.type = .usable ∧ b.Within e ∧ ¬ b.Separate e ∧
      Mm.splitAt mm i = some (cutPieces mm i k e b) := by
  have hb0 : mm0[i]? = some b := h.kept i b hb (by simp [hbt])
  have hboot : b.IsBoot := .inl hbt
  have hpos := hm.nonempty b (List.mem_of_getElem? hb0)
  obtain ⟨v, hv, hvt, hbv⟩ := hm.contained b (List.mem_of_getElem? hb0) hboot
  obtain ⟨j, hj⟩ := List.mem_iff_getElem?.mp hv
  have hbefore : ∀ (k : ℕ) (b' : MmEntry), k < i → mm0[k]? = some b' → b'.type = .bootloader →
      b.Separate b' :=
    fun k b' hk hb' hbt' => hm.separate_boot (by omega) hb0 hb' hboot (.inl hbt')
  obtain ⟨k, e, hk, ht, -, hbe⟩ := h.complete j v b hj hvt hbv hpos hbefore
  have hki : k ≠ i := slot_ne hk hb (by simp [ht, hbt])
  have hothers : ∀ l w, l ≠ i → l ≠ k → mm[l]? = some w → b.Separate w := by
    intro l w hli hlk hw
    by_cases hwt : w.type = .usable
    · exact (h.separate_usable hm (Ne.symm hlk) hk hw ht (MmEntry.not_isBoot hwt)).mono hbe
    · exact h.separate_others hm (Ne.symm hli) hb hw (by simp [hbt]) hwt
  refine ⟨k, e, hki, hk, ht, hbe, hbe.not_separate hpos, ?_⟩
  rw [Mm.splitAt, hb]
  dsimp only
  rw [if_neg (not_not.mpr hbt)]
  exact splitScan_found (h.noWrap hm.noWrap) hk (Ne.symm hki) ht hbe hpos
    (fun l hl => List.mem_range.mp hl) hothers (List.mem_range.mpr (List.getElem?_eq_some_iff.mp hk).1)

/-- Every bootloader entry visited has become the piece behind it, and each usable entry still begins
where it began. -/
structure SplitAll (mm0 : List MmEntry) (i : ℕ) (mm : List MmEntry) : Prop where
  trace : ∃ owner, SplitTrace mm0 i mm owner
  gone : ∀ (k : ℕ) (e : MmEntry), k < i → mm[k]? = some e → e.type ≠ .bootloader
  ends : ∀ (k : ℕ) (b : MmEntry), k < i → mm0[k]? = some b → b.type = .bootloader →
    ∃ e ∈ mm, e.type = .usable ∧ e.base = b.base + b.len
  begins : ∀ u ∈ mm0, u.type = .usable → ∃ e ∈ mm, e.type = .usable ∧ e.base = u.base

theorem SplitAll.init (mm : List MmEntry) : SplitAll mm 0 mm where
  trace := ⟨id, .init mm⟩
  gone k _ hk := absurd hk (Nat.not_lt_zero k)
  ends k _ hk := absurd hk (Nat.not_lt_zero k)
  begins u hu ht := ⟨u, hu, ht, rfl⟩

/-- A usable entry leaves one that begins where it began. -/
theorem cutPieces_begins (hb : mm[i]? = some b) (hbt : b.type = .bootloader) (hu : mm[j]? = some u)
    (hut : u.type = .usable) (hne : j ≠ i) (he : e ∈ mm) (ht : e.type = .usable) :
    ∃ e' ∈ cutPieces mm i j u b, e'.type = .usable ∧ e'.base = e.base := by
  have hi := (List.getElem?_eq_some_iff.mp hb).1
  have hj := (List.getElem?_eq_some_iff.mp hu).1
  obtain ⟨k, hk⟩ := List.mem_iff_getElem?.mp he
  have hki : k ≠ i := slot_ne hk hb (by simp [ht, hbt])
  have hget := @getElem?_cutPieces mm i j u b hj hi hne k
  rw [if_neg hki] at hget
  by_cases hkj : k = j
  · subst hkj
    obtain rfl : u = e := Option.some.inj (hu.symm.trans hk)
    rw [if_pos rfl] at hget
    exact ⟨_, List.mem_of_getElem? hget, hut, rfl⟩
  · rw [if_neg hkj, hk] at hget
    exact ⟨e, List.mem_of_getElem? hget, ht, rfl⟩

theorem SplitAll.splitAt (h : SplitAll mm0 i mm) (hm : AssumedMap mm0) :
    ∃ mm', Mm.splitAt mm i = some mm' ∧ SplitAll mm0 (i + 1) mm' := by
  obtain ⟨owner, htrace⟩ := h.trace
  by_cases hboot : ∃ b, mm[i]? = some b ∧ b.type = .bootloader
  · obtain ⟨b, hb, hbt⟩ := hboot
    obtain ⟨k, u, hki, hu, hut, hin, hmeets, hsplit⟩ := htrace.splitAt_boot hm hb hbt
    have hi := (List.getElem?_eq_some_iff.mp hb).1
    have hk := (List.getElem?_eq_some_iff.mp hu).1
    have hget := @getElem?_cutPieces mm i k u b hk hi hki
    have hright : rightPiece u b ∈ cutPieces mm i k u b :=
      List.mem_of_getElem? (by rw [hget i, if_pos rfl])
    refine ⟨_, hsplit, ⟨_, htrace.cutOut hb hu hki hbt hut hin hmeets⟩, ?_, ?_, ?_⟩
    · intro l e hl hle
      rcases cutPieces_cases hb hu hki hle with ⟨-, rfl⟩ | ⟨-, rfl⟩ | ⟨hli, -, hold⟩
      · simp [rightPiece]
      · simp [leftPiece, hut]
      · exact h.gone l e (by omega) hold
    · intro l b' hl hb' hbt'
      rcases Nat.lt_succ_iff_lt_or_eq.mp hl with hl | rfl
      · obtain ⟨e, he, ht, hbase⟩ := h.ends l b' hl hb' hbt'
        obtain ⟨e', he', ht', hbase'⟩ := cutPieces_begins hb hbt hu hut hki he ht
        exact ⟨e', he', ht', hbase'.trans hbase⟩
      · obtain rfl : b = b' := Option.some.inj (hb.symm.trans (htrace.ahead l b' le_rfl hb' hbt'))
        exact ⟨_, hright, rfl, rfl⟩
    · intro v hv hvt
      obtain ⟨e, he, ht, hbase⟩ := h.begins v hv hvt
      obtain ⟨e', he', ht', hbase'⟩ := cutPieces_begins hb hbt hu hut hki he ht
      exact ⟨e', he', ht', hbase'.trans hbase⟩
  · have hsplit : Mm.splitAt mm i = some mm := by
      unfold Mm.splitAt
      cases hb : mm[i]? with
      | none => rfl
      | some b => exact if_pos fun hbt => hboot ⟨b, hb, hbt⟩
    have hskip : ∀ b, mm0[i]? = some b → b.type ≠ .bootloader :=
      fun b hb0 hbt => hboot ⟨b, htrace.ahead i b le_rfl hb0 hbt, hbt⟩
    refine ⟨mm, hsplit, ⟨owner, htrace.skip fun b hb0 hbt => absurd hbt (hskip b hb0)⟩, ?_, ?_, h.begins⟩
    · intro k e hk he hbt
      rcases Nat.lt_succ_iff_lt_or_eq.mp hk with hk | rfl
      · exact h.gone k e hk he hbt
      · exact hboot ⟨e, he, hbt⟩
    · intro k b hk hb hbt
      rcases Nat.lt_succ_iff_lt_or_eq.mp hk with hk | rfl
      · exact h.ends k b hk hb hbt
      · exact absurd hbt (hskip b hb)

theorem SplitAll.splitBootloader (h : SplitAll mm0 i mm) (hm : AssumedMap mm0) (n : ℕ) :
    ∃ mm', Mm.splitBootloader (List.range' i n) mm = some mm' ∧ SplitAll mm0 (i + n) mm' := by
  induction n generalizing i mm with
  | zero => exact ⟨mm, rfl, h⟩
  | succ n ih =>
    obtain ⟨mm1, hstep, h1⟩ := h.splitAt hm
    obtain ⟨mm', hrun, h'⟩ := ih h1
    refine ⟨mm', ?_, by rwa [← Nat.add_assoc, Nat.add_right_comm]⟩
    rw [List.range'_succ, Mm.splitBootloader, hstep, Option.bind_some, hrun]

end HmmOS.Mm
