import HmmOS.Mm.PageFrameTable

/-! # Cutting the bootloader's memory out of the map

The splitting loop of `normalize_mm` on any map without wrapping entries. Every usable
entry that it leaves is a piece of an entry of the firmware map, its owner.
-/
namespace HmmOS.Mm
open Lib Util.Algorithm Function

def MmEntry.Covers (e : MmEntry) (x : ℕ) : Prop := e.base ≤ x ∧ x < e.base + e.len

def MmEntry.Apart (e1 e2 : MmEntry) : Prop := ∀ x, e1.Covers x → ¬ e2.Covers x

/-- One entry ends before the other begins. This says more than `Apart` where an entry is empty. -/
def MmEntry.Separate (e1 e2 : MmEntry) : Prop := e1.base + e1.len ≤ e2.base ∨ e2.base + e2.len ≤ e1.base

def MmEntry.Within (e u : MmEntry) : Prop := u.base ≤ e.base ∧ e.base + e.len ≤ u.base + u.len

def MmEntry.NoWrap (e : MmEntry) : Prop := e.base + e.len < 2 ^ 64

section Entries
variable {e e1 e2 u : MmEntry}

theorem MmEntry.Apart.symm (h : e1.Apart e2) : e2.Apart e1 := fun x h2 h1 => h x h1 h2

theorem MmEntry.Apart.mono (h : e1.Apart e2) (hin : e.Within e1) : e.Apart e2 :=
  fun x hx => h x ⟨hin.1.trans hx.1, hx.2.trans_le hin.2⟩

theorem MmEntry.Apart.le (h : e1.Apart e2) (hs : e1.base ≤ e2.base) (hl : 0 < e2.len) :
    e1.base + e1.len ≤ e2.base := by
  by_contra hc
  exact h e2.base ⟨hs, by omega⟩ ⟨le_rfl, by omega⟩

theorem MmEntry.Separate.symm (h : e1.Separate e2) : e2.Separate e1 := Or.symm h

theorem MmEntry.Separate.mono (h : e1.Separate e2) (hin : e.Within e1) : e.Separate e2 :=
  h.imp hin.2.trans fun hle => hle.trans hin.1

theorem MmEntry.Separate.apart (h : e1.Separate e2) : e1.Apart e2 := by
  rintro x ⟨hlo1, hhi1⟩ ⟨hlo2, hhi2⟩
  rcases h with h | h <;> omega

theorem MmEntry.Apart.separate (h : e1.Apart e2) (h1 : 0 < e1.len) (h2 : 0 < e2.len) : e1.Separate e2 := by
  rcases le_total e1.base e2.base with hle | hle
  · exact .inl (h.le hle h2)
  · exact .inr (h.symm.le hle h1)

theorem MmEntry.Within.refl (e : MmEntry) : e.Within e := ⟨le_rfl, le_rfl⟩

theorem MmEntry.Within.trans (h : e.Within e1) (h1 : e1.Within u) : e.Within u :=
  ⟨h1.1.trans h.1, h.2.trans h1.2⟩

theorem MmEntry.NoWrap.within (h : u.NoWrap) (hin : e.Within u) : e.NoWrap := hin.2.trans_lt h

theorem MmEntry.Within.not_separate (h : e.Within u) (hl : 0 < e.len) : ¬ e.Separate u := by
  obtain ⟨hlo, hhi⟩ := h
  rintro (hsep | hsep) <;> omega

theorem overlaps_iff (h1 : e1.NoWrap) (h2 : e2.NoWrap) : e1.overlaps e2 = true ↔ ¬ e1.Separate e2 := by
  rw [MmEntry.overlaps, rangeOverlaps2_exclusive h1 h2, MmEntry.Separate]
  omega

end Entries

def pageEntry (p : ℕ) : MmEntry := ⟨p * 4096, 4096, .usable, 0⟩

theorem pageEntry_within {p : ℕ} {e : MmEntry} :
    (pageEntry p).Within e ↔ e.base ≤ p * 4096 ∧ (p + 1) * 4096 ≤ e.base + e.len := by
  simp only [MmEntry.Within, pageEntry]
  omega

theorem pageEntry_covers {p x : ℕ} : (pageEntry p).Covers x ↔ p * 4096 ≤ x ∧ x < (p + 1) * 4096 := by
  simp only [MmEntry.Covers, pageEntry]
  omega

theorem pageEntry_pos (p : ℕ) : 0 < (pageEntry p).len := Nat.zero_lt_succ _

/-- The part of the usable entry `u` below `b`. -/
def leftPiece (u b : MmEntry) : MmEntry := { u with len := b.base - u.base }

/-- The part of the usable entry `u` above `b`, stored in the slot of `b`. -/
def rightPiece (u b : MmEntry) : MmEntry :=
  { b with base := b.base + b.len, len := u.base + u.len - (b.base + b.len), type := .usable }

/-- The map after `b` in slot `i` has been cut out of `u` in slot `j`. -/
def cutPieces (mm : List MmEntry) (i j : ℕ) (u b : MmEntry) : List MmEntry :=
  (mm.set j (leftPiece u b)).set i (rightPiece u b)

theorem slot_ne {mm : List MmEntry} {j k : ℕ} {e1 e2 : MmEntry} (h1 : mm[j]? = some e1)
    (h2 : mm[k]? = some e2) (ht : e1.type ≠ e2.type) : j ≠ k := by
  rintro rfl
  exact ht (congrArg MmEntry.type (Option.some.inj (h1.symm.trans h2)))

section Scan
variable {mm mm' : List MmEntry} {i j : ℕ} {u b : MmEntry} {js : List ℕ}

theorem splitScan_cut (hij : i ≠ j) (hu : mm[j]? = some u) (huw : u.NoWrap) (hin : b.Within u)
    (hmeets : ¬ b.Separate u) (ht : u.type = .usable) :
    splitScan mm i b (j :: js) = some (cutPieces mm i j u b) := by
  have hbw : b.NoWrap := huw.within hin
  have hover : b.overlaps u = true := (overlaps_iff hbw huw).mpr hmeets
  have hsub : rangeSubsumes2 64 u.base u.len b.base b.len true = true :=
    (rangeSubsumes2_inclusive huw hbw).mpr hin
  obtain ⟨hl, hr⟩ := hin
  unfold MmEntry.NoWrap at huw hbw
  have hpieces : Word.add 64 (b.base - u.base) (u.base + u.len - (b.base + b.len)) = u.len - b.len := by
    rw [Word.add_of_lt (by omega)]
    omega
  rw [splitScan, if_neg hij, hu]
  dsimp only
  rw [Word.sub_of_le hl (by omega), Word.add_of_lt hbw, Word.add_of_lt huw, Word.sub_of_le hr huw,
    hpieces, Word.add_of_lt (by omega), if_neg (by simp [hover]), if_neg (by simp [ht]),
    if_neg (by simp [hsub]), if_neg (by omega)]
  rfl

/-- One scan either meets no entry or cuts the bootloader entry out of a usable one. -/
theorem splitScan_cases (hw : ∀ e ∈ mm, e.NoWrap) (hb : b.NoWrap) (h : splitScan mm i b js = some mm') :
    (mm' = mm ∧ ∀ j ∈ js, j ≠ i → ∀ u, mm[j]? = some u → b.Separate u) ∨
    ∃ j u, j ≠ i ∧ mm[j]? = some u ∧ u.type = .usable ∧ b.Within u ∧ ¬ b.Separate u ∧
      mm' = cutPieces mm i j u b := by
  induction js with
  | nil => exact .inl ⟨(Option.some.inj h).symm, by simp⟩
  | cons j js ih =>
    by_cases hij : i = j
    · subst hij
      rw [splitScan, if_pos rfl] at h
      rcases ih h with ⟨he, hall⟩ | hcut
      · refine .inl ⟨he, fun j hj hne => ?_⟩
        exact hall j ((List.mem_cons.mp hj).resolve_left hne) hne
      · exact .inr hcut
    · cases hu : mm[j]? with
      | none =>
        rw [splitScan, if_neg hij, hu] at h
        cases h
      | some u =>
        have hwu : u.NoWrap := hw u (List.mem_of_getElem? hu)
        have hover := overlaps_iff hb hwu
        by_cases hsep : b.Separate u
        · have hno : b.overlaps u = false := by simpa [hsep] using hover
          rw [splitScan, if_neg hij, hu] at h
          dsimp only at h
          rw [if_pos (by simp [hno])] at h
          rcases ih h with ⟨he, hall⟩ | hcut
          · refine .inl ⟨he, fun k hk hne v hv => ?_⟩
            rcases List.mem_cons.mp hk with rfl | hk
            · rw [hu, Option.some.injEq] at hv
              exact hv ▸ hsep
            · exact hall k hk hne v hv
          · exact .inr hcut
        · have hyes : b.overlaps u = true := hover.mpr hsep
          have hassert := h
          rw [splitScan, if_neg hij, hu] at hassert
          dsimp only at hassert
          split_ifs at hassert with ht hsub
          have ht : u.type = .usable := not_not.mp ht
          have hin : b.Within u := (rangeSubsumes2_inclusive hwu hb).mp hsub
          rw [splitScan_cut hij hu hwu hin hsep ht, Option.some.injEq] at h
          exact .inr ⟨j, u, Ne.symm hij, hu, ht, hin, hsep, h.symm⟩

theorem getElem?_cutPieces (hj : j < mm.length) (hi : i < mm.length) (hne : j ≠ i) (k : ℕ) :
    (cutPieces mm i j u b)[k]? =
      if k = i then some (rightPiece u b) else if k = j then some (leftPiece u b) else mm[k]? := by
  unfold cutPieces
  by_cases hki : k = i
  · subst hki
    simp [hi]
  · by_cases hkj : k = j
    · subst hkj
      simp [hki, hj, Ne.symm hne]
    · simp [hki, hkj, Ne.symm hki, Ne.symm hkj]

theorem leftPiece_within (hin : b.Within u) : (leftPiece u b).Within u := by
  obtain ⟨hl, hr⟩ := hin
  refine ⟨le_rfl, ?_⟩
  simp only [leftPiece]
  omega

theorem rightPiece_within (hin : b.Within u) : (rightPiece u b).Within u := by
  obtain ⟨hl, hr⟩ := hin
  constructor
  · simp only [rightPiece]
    omega
  · simp only [rightPiece]
    omega

theorem leftPiece_le (hin : b.Within u) : (leftPiece u b).base + (leftPiece u b).len = b.base := by
  have := hin.1
  simp only [leftPiece]
  omega

end Scan

/-- After the entries below `i` of `mm0` have been visited, the usable entry in slot `k` is a piece of
the one that was in slot `owner k`. -/
structure SplitTrace (mm0 : List MmEntry) (i : ℕ) (mm : List MmEntry) (owner : ℕ → ℕ) : Prop where
  length : mm.length = mm0.length
  kept : ∀ (j : ℕ) (e : MmEntry), mm[j]? = some e → e.type ≠ .usable → mm0[j]? = some e
  ahead : ∀ (j : ℕ) (b : MmEntry), i ≤ j → mm0[j]? = some b → b.type = .bootloader → mm[j]? = some b
  inside : ∀ (k : ℕ) (e : MmEntry), mm[k]? = some e → e.type = .usable →
    ∃ u, mm0[owner k]? = some u ∧ u.type = .usable ∧ e.Within u
  origin : ∀ e ∈ mm, e.type = .usable → (∃ u ∈ mm0, u.type = .usable ∧ e.base = u.base) ∨
    ∃ b ∈ mm0, b.type = .bootloader ∧ e.base = b.base + b.len
  separate : ∀ (j k : ℕ) (e1 e2 : MmEntry), j ≠ k → owner j = owner k → mm[j]? = some e1 →
    mm[k]? = some e2 → e1.type = .usable → e2.type = .usable → e1.Separate e2
  cut : ∀ (k : ℕ) (b : MmEntry), k < i → mm0[k]? = some b → b.type = .bootloader →
    (∀ e ∈ mm, e.type = .usable → e.Separate b) ∨
    ∃ j u, mm0[j]? = some u ∧ u.type = .usable ∧ b.Within u ∧ ¬ b.Separate u ∧
      ∀ (l : ℕ) (e : MmEntry), mm[l]? = some e → e.type = .usable → owner l = j → e.Separate b
  complete : ∀ (j : ℕ) (u f : MmEntry), mm0[j]? = some u → u.type = .usable → f.Within u → 0 < f.len →
    (∀ (k : ℕ) (b : MmEntry), k < i → mm0[k]? = some b → b.type = .bootloader → f.Separate b) →
    ∃ k e, mm[k]? = some e ∧ e.type = .usable ∧ owner k = j ∧ f.Within e

section Trace
variable {mm0 mm mm' : List MmEntry} {i j : ℕ} {owner : ℕ → ℕ} {u b : MmEntry}

theorem SplitTrace.init (mm : List MmEntry) : SplitTrace mm 0 mm id where
  length := rfl
  kept _ _ he _ := he
  ahead _ _ _ hb _ := hb
  inside _ e he ht := ⟨e, he, ht, .refl e⟩
  origin e he ht := .inl ⟨e, he, ht, rfl⟩
  separate _ _ _ _ hne hown := absurd hown hne
  cut k _ hk := absurd hk (Nat.not_lt_zero k)
  complete j u _ hu ht hin _ _ := ⟨j, u, hu, ht, rfl, hin⟩

theorem SplitTrace.noWrap (h : SplitTrace mm0 i mm owner) (hw : ∀ e ∈ mm0, e.NoWrap) : ∀ e ∈ mm, e.NoWrap := by
  intro e he
  obtain ⟨k, hk⟩ := List.mem_iff_getElem?.mp he
  by_cases ht : e.type = .usable
  · obtain ⟨u, hu, -, hin⟩ := h.inside k e hk ht
    exact (hw u (List.mem_of_getElem? hu)).within hin
  · exact hw e (List.mem_of_getElem? (h.kept k e hk ht))

theorem SplitTrace.skip (h : SplitTrace mm0 i mm owner)
    (hs : ∀ b, mm0[i]? = some b → b.type = .bootloader → ∀ e ∈ mm, e.type = .usable → e.Separate b) :
    SplitTrace mm0 (i + 1) mm owner :=
  { h with
    ahead := fun j b hj => h.ahead j b (by omega)
    cut := fun k b hk hb ht => by
      rcases Nat.lt_succ_iff_lt_or_eq.mp hk with hk | rfl
      · exact h.cut k b hk hb ht
      · exact .inl (hs b hb ht)
    complete := fun j u f hu ht hin hf hsep =>
      h.complete j u f hu ht hin hf fun k b hk => hsep k b (by omega) }

section Cut
variable (hb : mm[i]? = some b) (hu : mm[j]? = some u) (hne : j ≠ i) {e : MmEntry}
include hb hu hne

/-- A usable entry after the cut is one of the two pieces, or an entry that was there before. -/
theorem cutPieces_cases {k : ℕ} (hk : (cutPieces mm i j u b)[k]? = some e) :
    (k = i ∧ e = rightPiece u b) ∨ (k = j ∧ e = leftPiece u b) ∨ (k ≠ i ∧ k ≠ j ∧ mm[k]? = some e) := by
  have hi := (List.getElem?_eq_some_iff.mp hb).1
  have hj := (List.getElem?_eq_some_iff.mp hu).1
  rw [getElem?_cutPieces hj hi hne] at hk
  split_ifs at hk with hki hkj
  · exact .inl ⟨hki, (Option.some.inj hk).symm⟩
  · exact .inr (.inl ⟨hkj, (Option.some.inj hk).symm⟩)
  · exact .inr (.inr ⟨hki, hkj, hk⟩)

theorem cutPieces_parent (own : ℕ → ℕ) (hut : u.type = .usable) (hin : b.Within u) {k : ℕ}
    (hk : (cutPieces mm i j u b)[k]? = some e) (ht : e.type = .usable) :
    ∃ k' e', mm[k']? = some e' ∧ e'.type = .usable ∧ e.Within e' ∧
      update own i (own j) k = own k' ∧ (k' = k ∨ k' = j ∧ k = i) := by
  rcases cutPieces_cases hb hu hne hk with ⟨rfl, rfl⟩ | ⟨rfl, rfl⟩ | ⟨hki, -, hk⟩
  · exact ⟨j, u, hu, hut, rightPiece_within hin, update_self .., .inr ⟨rfl, rfl⟩⟩
  · exact ⟨k, u, hu, hut, leftPiece_within hin, update_of_ne hne .., .inl rfl⟩
  · exact ⟨k, e, hk, ht, .refl e, update_of_ne hki .., .inl rfl⟩

theorem SplitTrace.cutOut_separate (h : SplitTrace mm0 i mm owner) (hut : u.type = .usable)
    (hin : b.Within u) {k l : ℕ} {e1 e2 : MmEntry} (hkl : k ≠ l)
    (hown : update owner i (owner j) k = update owner i (owner j) l)
    (hk : (cutPieces mm i j u b)[k]? = some e1) (hl : (cutPieces mm i j u b)[l]? = some e2)
    (ht1 : e1.type = .usable) (ht2 : e2.type = .usable) : e1.Separate e2 := by
  have hi := (List.getElem?_eq_some_iff.mp hb).1
  have hj := (List.getElem?_eq_some_iff.mp hu).1
  obtain ⟨k', f1, hk', hf1, hin1, hown1, hkk⟩ := cutPieces_parent hb hu hne owner hut hin hk ht1
  obtain ⟨l', f2, hl', hf2, hin2, hown2, hll⟩ := cutPieces_parent hb hu hne owner hut hin hl ht2
  rw [hown1, hown2] at hown
  by_cases hsame : k' = l'
  · -- the two pieces of `u`
    have hsides : (leftPiece u b).Separate (rightPiece u b) :=
      .inl ((leftPiece_le hin).le.trans (Nat.le_add_right _ _))
    have hpair : (k = j ∧ l = i) ∨ (k = i ∧ l = j) := by omega
    rw [getElem?_cutPieces hj hi hne] at hk hl
    rcases hpair with ⟨rfl, rfl⟩ | ⟨rfl, rfl⟩
    · rw [if_neg hne, if_pos rfl, Option.some.injEq] at hk
      rw [if_pos rfl, Option.some.injEq] at hl
      exact hk ▸ hl ▸ hsides
    · rw [if_pos rfl, Option.some.injEq] at hk
      rw [if_neg hne, if_pos rfl, Option.some.injEq] at hl
      exact hk ▸ hl ▸ hsides.symm
  · have hsep := h.separate k' l' f1 f2 hsame hown hk' hl' hf1 hf2
    exact ((hsep.mono hin1).symm.mono hin2).symm

theorem SplitTrace.cutOut_beside (h : SplitTrace mm0 i mm owner) (hut : u.type = .usable)
    (hin : b.Within u) {l : ℕ} (hl : (cutPieces mm i j u b)[l]? = some e) (ht : e.type = .usable)
    (hown : update owner i (owner j) l = owner j) : e.Separate b := by
  rcases cutPieces_cases hb hu hne hl with ⟨-, rfl⟩ | ⟨-, rfl⟩ | ⟨hli, hlj, hold⟩
  · exact .inr le_rfl
  · exact .inl (leftPiece_le hin).le
  · rw [update_of_ne hli] at hown
    have hsep := h.separate l j e u hlj hown hold hu ht hut
    exact (hsep.symm.mono hin).symm

theorem cutPieces_complete (own : ℕ → ℕ) (hut : u.type = .usable) (hin : b.Within u) {f : MmEntry}
    (hf : f.Within u) (hsep : f.Separate b) : ∃ k e, (cutPieces mm i j u b)[k]? = some e ∧ e.type = .usable ∧
      update own i (own j) k = own j ∧ f.Within e := by
  have hi := (List.getElem?_eq_some_iff.mp hb).1
  have hj := (List.getElem?_eq_some_iff.mp hu).1
  have hget := @getElem?_cutPieces mm i j u b hj hi hne
  obtain ⟨hlo, hhi⟩ := hf
  rcases hsep with hle | hle
  · refine ⟨j, leftPiece u b, ?_, hut, update_of_ne hne .., hlo, ?_⟩
    · rw [hget, if_neg hne, if_pos rfl]
    · rw [leftPiece_le hin]
      exact hle
  · refine ⟨i, rightPiece u b, ?_, rfl, update_self .., hle, ?_⟩
    · rw [hget, if_pos rfl]
    · simp only [rightPiece]
      omega

theorem SplitTrace.cutOut (h : SplitTrace mm0 i mm owner) (hbt : b.type = .bootloader)
    (hut : u.type = .usable) (hin : b.Within u) (hmeets : ¬ b.Separate u) :
    SplitTrace mm0 (i + 1) (cutPieces mm i j u b) (update owner i (owner j)) := by
  have hi := (List.getElem?_eq_some_iff.mp hb).1
  have hj := (List.getElem?_eq_some_iff.mp hu).1
  have hb0 : mm0[i]? = some b := h.kept i b hb (by simp [hbt])
  constructor
  case length => simpa [cutPieces] using h.length
  case kept =>
    intro k e hk ht
    rcases cutPieces_cases hb hu hne hk with ⟨-, rfl⟩ | ⟨-, rfl⟩ | ⟨-, -, hk⟩
    · exact absurd rfl ht
    · exact absurd hut ht
    · exact h.kept k e hk ht
  case ahead =>
    intro k b' hk hb' hbt'
    have hk' := h.ahead k b' (by omega) hb' hbt'
    have hkj : k ≠ j := slot_ne hk' hu (by simp [hbt', hut])
    rw [getElem?_cutPieces hj hi hne, if_neg (by omega), if_neg hkj, hk']
  case inside =>
    intro k e hk ht
    obtain ⟨k', e', hk', ht', hin', hown, -⟩ := cutPieces_parent hb hu hne owner hut hin hk ht
    obtain ⟨v, hv, hvt, hev⟩ := h.inside k' e' hk' ht'
    exact ⟨v, by rw [hown, hv], hvt, hin'.trans hev⟩
  case origin =>
    intro e he ht
    obtain ⟨k, hk⟩ := List.mem_iff_getElem?.mp he
    rcases cutPieces_cases hb hu hne hk with ⟨-, rfl⟩ | ⟨-, rfl⟩ | ⟨-, -, hk⟩
    · exact .inr ⟨b, List.mem_of_getElem? hb0, hbt, rfl⟩
    · exact h.origin u (List.mem_of_getElem? hu) hut
    · exact h.origin e (List.mem_of_getElem? hk) ht
  case separate => exact fun k l e1 e2 => h.cutOut_separate hb hu hne hut hin
  case cut =>
    intro k b' hk hb' hbt'
    rcases Nat.lt_succ_iff_lt_or_eq.mp hk with hk | rfl
    · rcases h.cut k b' hk hb' hbt' with hall | ⟨j', v, hv, hvt, hbv, hmv, hown⟩
      · refine .inl fun e he ht => ?_
        obtain ⟨l, hl⟩ := List.mem_iff_getElem?.mp he
        obtain ⟨l', e', hl', ht', hin', -⟩ := cutPieces_parent hb hu hne owner hut hin hl ht
        exact (hall e' (List.mem_of_getElem? hl') ht').mono hin'
      · refine .inr ⟨j', v, hv, hvt, hbv, hmv, fun l e hl ht hlo => ?_⟩
        obtain ⟨l', e', hl', ht', hin', hlown, -⟩ := cutPieces_parent hb hu hne owner hut hin hl ht
        exact (hown l' e' hl' ht' (hlown.symm.trans hlo)).mono hin'
    · obtain rfl : b = b' := Option.some.inj (hb0.symm.trans hb')
      obtain ⟨v, hv, hvt, huv⟩ := h.inside j u hu hut
      have hmv : ¬ b.Separate v := fun hsep => hmeets (hsep.symm.mono huv).symm
      exact .inr ⟨owner j, v, hv, hvt, hin.trans huv, hmv, fun l e => h.cutOut_beside hb hu hne hut hin⟩
  case complete =>
    intro j' v f hv hvt hfv hf hsep
    obtain ⟨k, e, hk, ht, rfl, hfe⟩ := h.complete j' v f hv hvt hfv hf fun k b' hk => hsep k b' (by omega)
    have hki : k ≠ i := slot_ne hk hb (by simp [ht, hbt])
    by_cases hkj : k = j
    · subst hkj
      obtain rfl : u = e := Option.some.inj (hu.symm.trans hk)
      exact cutPieces_complete hb hu hne owner hut hin hfe (hsep i b (Nat.lt_succ_self i) hb0 hbt)
    · refine ⟨k, e, ?_, ht, update_of_ne hki .., hfe⟩
      rw [getElem?_cutPieces hj hi hne, if_neg hki, if_neg hkj, hk]

end Cut

theorem SplitTrace.splitAt (h : SplitTrace mm0 i mm owner) (hw : ∀ e ∈ mm0, e.NoWrap)
    (hs : splitAt mm i = some mm') : ∃ owner', SplitTrace mm0 (i + 1) mm' owner' := by
  unfold Mm.splitAt at hs
  cases hb : mm[i]? with
  | none =>
    rw [hb] at hs
    obtain rfl : mm = mm' := Option.some.inj hs
    have hlen := h.length ▸ List.getElem?_eq_none_iff.mp hb
    exact ⟨owner, h.skip fun b hb0 => absurd (List.getElem?_eq_some_iff.mp hb0).1 (by omega)⟩
  | some b =>
    rw [hb] at hs
    dsimp only at hs
    by_cases hbt : b.type = .bootloader
    · rw [if_neg (not_not.mpr hbt)] at hs
      have hwm := h.noWrap hw
      have hbw := hwm b (List.mem_of_getElem? hb)
      rcases splitScan_cases hwm hbw hs with ⟨rfl, hno⟩ | ⟨j, u, hne, hu, hut, hin, hmeets, rfl⟩
      · refine ⟨owner, h.skip fun b' hb0 hbt' e he ht => ?_⟩
        obtain rfl : b' = b := Option.some.inj ((h.ahead i b' le_rfl hb0 hbt').symm.trans hb)
        obtain ⟨k, hk⟩ := List.mem_iff_getElem?.mp he
        have hki : k ≠ i := slot_ne hk hb (by simp [ht, hbt])
        have hkl : k ∈ List.range mm'.length :=
          List.mem_range.mpr (List.getElem?_eq_some_iff.mp hk).1
        exact (hno k hkl hki e hk).symm
      · exact ⟨_, h.cutOut hb hu hne hbt hut hin hmeets⟩
    · rw [if_pos hbt, Option.some.injEq] at hs
      subst hs
      refine ⟨owner, h.skip fun b' hb0 hbt' => ?_⟩
      rw [h.ahead i b' le_rfl hb0 hbt', Option.some.injEq] at hb
      exact absurd (hb ▸ hbt') hbt

theorem SplitTrace.splitBootloader {n : ℕ} (h : SplitTrace mm0 i mm owner) (hw : ∀ e ∈ mm0, e.NoWrap)
    (hs : splitBootloader (List.range' i n) mm = some mm') : ∃ owner', SplitTrace mm0 (i + n) mm' owner' := by
  induction n generalizing i mm owner with
  | zero =>
    obtain rfl : mm = mm' := Option.some.inj hs
    exact ⟨owner, h⟩
  | succ n ih =>
    rw [List.range'_succ, Mm.splitBootloader, Option.bind_eq_some_iff] at hs
    obtain ⟨mm1, h1, h2⟩ := hs
    obtain ⟨owner1, htrace⟩ := h.splitAt hw h1
    rw [← Nat.add_assoc, Nat.add_right_comm]
    exact ih htrace h2

theorem splitTrace_of_splitBootloader (hw : ∀ e ∈ mm, e.NoWrap)
    (hs : splitBootloader (List.range mm.length) mm = some mm') :
    ∃ owner, SplitTrace mm mm.length mm' owner := by
  rw [List.range_eq_range'] at hs
  simpa using (SplitTrace.init mm).splitBootloader hw hs

end Trace

end HmmOS.Mm
