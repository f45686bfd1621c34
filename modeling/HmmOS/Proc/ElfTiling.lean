import HmmOS.Proc.ElfPlan

/-! # How a segment is laid out

The four cases cut the pages of a segment into consecutive pieces. A piece that is
copied by hand comes out right only if `lseek` accepts its file offset.
-/
namespace HmmOS.Proc
open Fs Lib Lib.IntervalList Nonstd Util.Algorithm

/-- Consecutive areas from `a` to `b`. -/
abbrev AreasTile (a b : ℕ) (vmas : List VirtualMemoryArea) : Prop :=
  Tiles VirtualMemoryArea.addr VirtualMemoryArea.end_ a b vmas

def Free (vmas : List VirtualMemoryArea) (lo hi : ℕ) : Prop :=
  ∀ v ∈ vmas, v.end_ ≤ lo ∨ hi ≤ v.addr

structure Adds (fs : Filesystem) (dev : Bytes) (clusters fd : ℕ) (n : Inode) (st st' : Loader)
    (new : List VirtualMemoryArea) : Prop where
  binary : Binary fs dev clusters fd n st'.vfs st'.proc
  vmas : VmasOk st'.proc.vmas
  perm : st'.proc.vmas.Perm (new ++ st.proc.vmas)
  backing : st'.proc.backing fd = st.proc.backing fd

variable {fs : Filesystem} {dev : Bytes} {clusters fd : ℕ} {n : Inode} {st st' : Loader}
  {ph : PHEntry}

theorem Adds.trans {st'' : Loader} {new new' : List VirtualMemoryArea}
    (h : Adds fs dev clusters fd n st st' new) (h' : Adds fs dev clusters fd n st' st'' new') :
    Adds fs dev clusters fd n st st'' (new ++ new') where
  binary := h'.binary
  vmas := h'.vmas
  perm := by
    refine h'.perm.trans ((h.perm.append_left new').trans ?_)
    rw [← List.append_assoc]
    exact List.perm_append_comm.append_right _
  backing := h'.backing.trans h.backing

theorem Adds.free {new : List VirtualMemoryArea} (h : Adds fs dev clusters fd n st st' new)
    {a lo hi : ℕ} (hnew : AreasTile a lo new) (hfree : Free st.proc.vmas lo hi) : Free st'.proc.vmas lo hi := by
  intro v hv
  rcases List.mem_append.mp (h.perm.subset hv) with hv | hv
  · exact .inl (hnew.bounds v hv).2
  · exact hfree v hv

theorem checked_ok {f g : LoadStep} (h : f st = .ok (st', .Ok)) : checked f g st = g st' := by
  rw [checked, h]
  rfl

theorem checked_error {f g : LoadStep} {res : Result} (h : f st = .ok (st', res)) (hres : res ≠ .Ok) :
    checked f g st = .ok (st', res) := by
  rw [checked, h]
  exact if_pos hres

theorem mmapStep_adds (hb : Binary fs dev clusters fd n st.vfs st.proc) (hok : VmasOk st.proc.vmas)
    {addr len offset : ℕ} (hfree : Free st.proc.vmas addr (addr + len)) (ha : pgAligned addr = true)
    (hlen : 0 < len) (hlt : addr + len < 2 ^ 32) (ho : pgAligned offset = true) (prot : Access)
    (flags : Flags) : ∃ st', mmapStep addr len prot flags (if flags.mapAnon then invalidFD else fd) offset st =
        .ok (st', .Ok) ∧ Adds fs dev clusters fd n st st' [⟨addr, len, prot, flags,
        if flags.mapAnon then none else st.proc.backing fd, offset⟩] ∧ st'.mem = st.mem ∧ st'.buf = st.buf := by
  rcases mmapStep_spec hb ha hlen ho prot flags with ⟨hk, -⟩ | ⟨s', k, hk, hm, hb'⟩
  · rw [findGap_eq hok.bounded hlt,
      place_none_iff hok.separated hok.nonempty (Nat.lt_add_of_pos_right hlen)] at hk
    obtain ⟨v, hv, hlo, hhi⟩ := hk
    have := hfree v hv
    omega
  · refine ⟨_, hm, ⟨hb' _ rfl, ?_, ?_, rfl⟩, rfl, rfl⟩
    · exact hok.insert (Nat.lt_add_of_pos_right hlen) hlt ha hk
    · rw [findGap_eq hok.bounded hlt] at hk
      exact List.perm_insertIdx _ _ (place_le hk)

theorem sub_lt_iff {dst k a : ℕ} (hk : dst + k ≤ 2 ^ 32) (ha : a < 2 ^ 32) :
    Word.sub 32 a dst < k ↔ dst ≤ a ∧ a < dst + k := by
  rcases Nat.lt_or_ge a dst with hlt | hle
  · have hwrap : ¬ Word.sub 32 a dst < k := by
      simp only [Word.sub]
      omega
    omega
  · rw [Word.sub_of_le hle ha]
    omega

/-- The byte that belongs at `a`, if the file is long enough to have it. -/
def PHEntry.ByteAt (fs : Filesystem) (dev : Bytes) (n : Inode) (ph : PHEntry) (a : ℕ) (byte : UInt8) :
    Prop :=
  if ph.vaddr ≤ a ∧ a < ph.vaddr + ph.filesz then
    ph.offset + (a - ph.vaddr) < n.size → byte = n.fileByte fs dev (ph.offset + (a - ph.vaddr))
  else byte = 0

/-- Memory has the bytes of the segment on `S` and is unchanged elsewhere. -/
structure PHEntry.Written (fs : Filesystem) (dev : Bytes) (n : Inode) (ph : PHEntry) (S : ℕ → Prop)
    (mem mem' : Bytes) : Prop where
  bytes : ∀ a < 2 ^ 32, S a → ph.ByteAt fs dev n a (mem' a)
  kept : ∀ a < 2 ^ 32, ¬ S a → mem' a = mem a

/-- An area of the segment: it maps the file exactly on the pages that lie wholly in the file part. -/
structure PHEntry.Area (ph : PHEntry) (file : Option ℕ) (v : VirtualMemoryArea) : Prop where
  prot : v.prot = ph.prot
  dentry : ∀ pg, pgAligned pg = true → v.addr ≤ pg → pg < v.end_ →
    v.dentry = if ph.vaddr ≤ pg ∧ pg + pgSz ≤ ph.vaddr + ph.filesz then file else none
  offset : v.dentry ≠ none → pgAligned v.offset = true ∧ v.offset + ph.vaddr = ph.offset + v.addr

/-- What a case of the loader does: it maps `[a, b)` and writes `S`. -/
structure PHEntry.Part (fs : Filesystem) (dev : Bytes) (clusters fd : ℕ) (n : Inode) (ph : PHEntry)
    (a b : ℕ) (S : ℕ → Prop) (new : List VirtualMemoryArea) (st st' : Loader) : Prop where
  adds : Adds fs dev clusters fd n st st' new
  tiles : AreasTile a b new
  areas : ∀ v ∈ new, ph.Area (st.proc.backing fd) v
  written : ph.Written fs dev n S st.mem st'.mem

section Compose
variable {S T : ℕ → Prop} {a b : ℕ} {new new' : List VirtualMemoryArea}

theorem PHEntry.Written.trans {m1 m2 m3 : Bytes} (h : ph.Written fs dev n S m1 m2)
    (h' : ph.Written fs dev n T m2 m3) : ph.Written fs dev n (fun a => S a ∨ T a) m1 m3 := by
  constructor
  · intro a ha hST
    by_cases hT : T a
    · exact h'.bytes a ha hT
    · rw [h'.kept a ha hT]
      exact h.bytes a ha (hST.resolve_right hT)
  · intro a ha hST
    rw [not_or] at hST
    rw [h'.kept a ha hST.2, h.kept a ha hST.1]

theorem PHEntry.Part.trans {c : ℕ} {st'' : Loader} (h : ph.Part fs dev clusters fd n a b S new st st')
    (h' : ph.Part fs dev clusters fd n b c T new' st' st'') :
    ph.Part fs dev clusters fd n a c (fun a => S a ∨ T a) (new ++ new') st st'' where
  adds := h.adds.trans h'.adds
  tiles := h.tiles.append h'.tiles
  areas := by
    intro v hv
    cases List.mem_append.mp hv with
    | inl hv => exact h.areas v hv
    | inr hv =>
      rw [← h.adds.backing]
      exact h'.areas v hv
  written := h.written.trans h'.written

theorem PHEntry.Part.skip (hb : Binary fs dev clusters fd n st.vfs st.proc)
    (hok : VmasOk st.proc.vmas) (ph : PHEntry) (a : ℕ) :
    ph.Part fs dev clusters fd n a a (fun _ => False) [] st st where
  adds := ⟨hb, hok, List.Perm.refl _, rfl⟩
  tiles := .nil
  areas := nofun
  written := ⟨nofun, fun _ _ _ => rfl⟩

theorem PHEntry.Part.congr (h : ph.Part fs dev clusters fd n a b S new st st')
    (hST : ∀ x, S x ↔ T x) : ph.Part fs dev clusters fd n a b T new st st' := by
  obtain rfl : S = T := funext fun x => propext (hST x)
  exact h

theorem areasTile_singleton {v : VirtualMemoryArea} (hlo : v.addr = a) (hhi : v.end_ = b)
    (h : a < b) : AreasTile a b [v] := by
  subst hlo hhi
  exact .cons h .nil

theorem PHEntry.area_hand (ph : PHEntry) (file : Option ℕ) {pg : ℕ} (hpg : pgAligned pg = true)
    (hpart : ¬ (ph.vaddr ≤ pg ∧ pg + pgSz ≤ ph.vaddr + ph.filesz)) :
    ph.Area file ⟨pg, 4096, ph.prot, flagsAnon, none, 0⟩ where
  prot := rfl
  dentry := by
    intro pg' hpg' hlo hhi
    rw [pgAligned_iff] at hpg hpg'
    have hend : (⟨pg, 4096, ph.prot, flagsAnon, none, 0⟩ : VirtualMemoryArea).end_ = pg + 4096 := rfl
    obtain rfl : pg' = pg := by
      dsimp only at hlo
      omega
    rw [if_neg hpart]
  offset := fun h => absurd rfl h

theorem handPage_part (hb : Binary fs dev clusters fd n st.vfs st.proc) (hok : VmasOk st.proc.vmas)
    {pg o : ℕ} (hfree : Free st.proc.vmas pg (pg + 4096)) (hpg : pgAligned pg = true)
    (hlt : pg + 4096 < 2 ^ 32) (ho : pgAligned o = true) (holt : o < 2 ^ 32)
    (hpart : ¬ (ph.vaddr ≤ pg ∧ pg + pgSz ≤ ph.vaddr + ph.filesz)) {write : LoadStep}
    (hwrite : ∀ st1 : Loader, (∀ i < 4096, o + i < n.size → st1.buf i = n.fileByte fs dev (o + i)) →
      ∃ mem trace, write st1 = .ok ({ st1 with mem := mem, trace := trace }, .Ok) ∧
        ph.Written fs dev n S st1.mem mem) :
    (2 ^ 31 ≤ o ∧ ∃ st', checked (mmapStep pg 4096 ph.prot flagsAnon invalidFD 0)
        (checked (copyPage fs dev fd o) write) st = .ok (st', .InvalidArgs)) ∨
    (o < 2 ^ 31 ∧ ∃ st' new, checked (mmapStep pg 4096 ph.prot flagsAnon invalidFD 0)
        (checked (copyPage fs dev fd o) write) st = .ok (st', .Ok) ∧
      ph.Part fs dev clusters fd n pg (pg + 4096) S new st st') := by
  obtain ⟨st1, hm, hadds, hmem, -⟩ := mmapStep_adds hb hok hfree hpg (by norm_num) hlt
    (by decide : pgAligned 0 = true) ph.prot flagsAnon
  change mmapStep pg 4096 ph.prot flagsAnon invalidFD 0 st = _ at hm
  rw [checked_ok hm]
  rcases copyPage_spec hadds.binary ho holt with
    ⟨hbig, hc⟩ | ⟨hsmall, p', buf', hc, hvmas, hback, hb', hbytes⟩
  · exact .inl ⟨hbig, st1, checked_error hc nofun⟩
  · obtain ⟨mem, trace, hst, hwritten⟩ := hwrite { st1 with proc := p', buf := buf' } hbytes
    refine .inr ⟨hsmall, _, _, (checked_ok hc).trans hst,
      ⟨hb', hvmas ▸ hadds.vmas, hvmas ▸ hadds.perm, hback.trans hadds.backing⟩, ?_, ?_, hmem ▸ hwritten⟩
    · exact areasTile_singleton rfl rfl (by omega)
    · intro v hv
      rw [List.mem_singleton.mp hv]
      exact ph.area_hand _ hpg hpart

/-- Pages that are mapped in one piece. -/
theorem mapped_part (hb : Binary fs dev clusters fd n st.vfs st.proc) (hok : VmasOk st.proc.vmas)
    (hlt : a < b) (hfree : Free st.proc.vmas a b) (ha : pgAligned a = true) (hb32 : b < 2 ^ 32) {o : ℕ}
    (ho : pgAligned o = true) {flags : Flags} (harea : ph.Area (st.proc.backing fd)
      ⟨a, b - a, ph.prot, flags, if flags.mapAnon then none else st.proc.backing fd, o⟩) :
    ∃ st' new, mmapStep a (b - a) ph.prot flags (if flags.mapAnon then invalidFD else fd) o st = .ok (st', .Ok) ∧
      ph.Part fs dev clusters fd n a b (fun _ => False) new st st' := by
  have hlen : a + (b - a) = b := Nat.add_sub_cancel' hlt.le
  obtain ⟨st', hm, hadds, hmem, -⟩ := mmapStep_adds hb hok (by rwa [hlen]) ha (Nat.sub_pos_of_lt hlt) (by rwa [hlen])
    ho ph.prot flags
  refine ⟨st', _, hm, hadds, areasTile_singleton rfl hlen hlt, ?_, fun _ _ hS => hS.elim, fun _ _ _ => by rw [hmem]⟩
  intro v hv
  rw [List.mem_singleton.mp hv]
  exact harea

end Compose

theorem firstPage_written (hw : ph.NoWrap) (hcong : ph.vaddr % 4096 = ph.offset % 4096)
    (hbuf : ∀ i < 4096, 4096 * (ph.offset / 4096) + i < n.size →
      st.buf i = n.fileByte fs dev (4096 * (ph.offset / 4096) + i)) : ∃ mem trace,
      checked (zeroStep (4096 * (ph.vaddr / 4096)) (ph.vaddr % 4096))
        (checked (memcpyStep ph.vaddr (ph.vaddr % 4096) (ph.firstEnd - ph.vaddr))
          (zeroStep ph.firstEnd (4096 * (ph.vaddr / 4096) + 4096 - ph.firstEnd))) st =
        .ok ({ st with mem := mem, trace := trace }, .Ok) ∧
      ph.Written fs dev n (fun a => a / 4096 = ph.vaddr / 4096) st.mem mem := by
  have hfile := hw.file
  have hmin : ph.firstEnd = min (ph.vaddr + ph.filesz) (4096 * (ph.vaddr / 4096) + 4096) := rfl
  refine ⟨_, _, rfl, ?_, ?_⟩
  · intro a ha hS
    have hzero := @sub_lt_iff (4096 * (ph.vaddr / 4096)) (ph.vaddr % 4096) a (by omega) ha
    have hcopy := @sub_lt_iff ph.vaddr (ph.firstEnd - ph.vaddr) a (by omega) ha
    have htail := @sub_lt_iff ph.firstEnd (4096 * (ph.vaddr / 4096) + 4096 - ph.firstEnd) a
      (by omega) ha
    dsimp only
    rcases Nat.lt_or_ge a ph.firstEnd with hlt | hge
    · rw [if_neg (by omega)]
      rcases Nat.lt_or_ge a ph.vaddr with hlt' | hge'
      · rw [if_neg (by omega), if_pos (by omega), PHEntry.ByteAt, if_neg (by omega)]
      · rw [if_pos (by omega), PHEntry.ByteAt, if_pos (by omega), Word.sub_of_le hge' ha]
        intro hsize
        rw [hbuf _ (by omega) (by omega)]
        congr 1
        omega
    · rw [if_pos (by omega), PHEntry.ByteAt, if_neg (by omega)]
  · intro a ha hS
    dsimp only
    rw [if_neg, if_neg, if_neg]
    all_goals
      rw [sub_lt_iff (by omega) ha]
      omega

theorem lastPage_written {o : ℕ} (hw : ph.NoWrap) (hpg : ph.vaddr ≤ ph.fullPgEnd)
    (ho : o = (ph.offset + (ph.fullPgEnd - ph.vaddr)) % 2 ^ 32) (hsize : n.size < 2 ^ 32)
    (hbuf : ∀ i < 4096, o + i < n.size → st.buf i = n.fileByte fs dev (o + i)) :
    ∃ mem trace, checked (memcpyStep ph.fullPgEnd 0 (ph.fileEnd - ph.fullPgEnd))
        (zeroStep ph.fileEnd (4096 - (ph.fileEnd - ph.fullPgEnd))) st =
        .ok ({ st with mem := mem, trace := trace }, .Ok) ∧
      ph.Written fs dev n (fun a => a / 4096 = (ph.vaddr + ph.filesz) / 4096) st.mem mem := by
  have hfile := hw.file
  have hpages := hw.pages
  refine ⟨_, _, rfl, ?_, ?_⟩
  · intro a ha hS
    have hcopy := @sub_lt_iff ph.fullPgEnd (ph.fileEnd - ph.fullPgEnd) a (by omega) ha
    have htail := @sub_lt_iff ph.fileEnd (4096 - (ph.fileEnd - ph.fullPgEnd)) a (by omega) ha
    dsimp only
    rcases Nat.lt_or_ge a ph.fileEnd with hlt | hge
    · rw [if_neg (by omega), if_pos (by omega), PHEntry.ByteAt, if_pos (by omega),
        Word.sub_of_le (by omega) ha]
      intro hlen
      rw [hbuf _ (by omega) (by omega)]
      congr 1
      omega
    · rw [if_pos (by omega), PHEntry.ByteAt, if_neg (by omega)]
  · intro a ha hS
    dsimp only
    rw [if_neg, if_neg]
    all_goals
      rw [sub_lt_iff (by omega) ha]
      omega

/-- `lseek` accepts the offset of the page of the start. -/
def PHEntry.FirstOk (ph : PHEntry) : Prop := ph.vaddr % 4096 ≠ 0 → ph.offset < 2 ^ 31

/-- `lseek` accepts the offset of the page of the end. -/
def PHEntry.LastOk (ph : PHEntry) : Prop :=
  (ph.vaddr + ph.filesz) % 4096 ≠ 0 ∧
      4096 * ((ph.vaddr + 4095) / 4096) ≤ 4096 * ((ph.vaddr + ph.filesz) / 4096) →
    (ph.offset + (4096 * ((ph.vaddr + ph.filesz) / 4096) - ph.vaddr)) % 2 ^ 32 < 2 ^ 31

theorem firstPage_part (hw : ph.NoWrap) (hcong : ph.vaddr % 4096 = ph.offset % 4096)
    (ho : ph.offset < 2 ^ 32) (hb : Binary fs dev clusters fd n st.vfs st.proc) (hok : VmasOk st.proc.vmas)
    (hfree : Free st.proc.vmas (4096 * (ph.vaddr / 4096)) ph.fullPgStart) :
    (¬ ph.FirstOk ∧ ∃ st', mapFirstPage fs dev fd ph st = .ok (st', .InvalidArgs)) ∨
    (ph.FirstOk ∧ ∃ st' new, mapFirstPage fs dev fd ph st = .ok (st', .Ok) ∧
      ph.Part fs dev clusters fd n (4096 * (ph.vaddr / 4096)) ph.fullPgStart
        (fun a => ph.vaddr % 4096 ≠ 0 ∧ a / 4096 = ph.vaddr / 4096) new st st') := by
  have hfile := hw.file
  have hpages := hw.pages
  rw [← execAll_firstPage, hw.firstPage_eq ho]
  by_cases hal : ph.vaddr % 4096 = 0
  · refine .inr ⟨fun hne => absurd hal hne, st, [], by rw [if_pos hal]; rfl, ?_⟩
    rw [show ph.fullPgStart = 4096 * (ph.vaddr / 4096) by omega]
    exact (PHEntry.Part.skip hb hok ph _).congr fun a => by simp [hal]
  rw [if_neg hal]
  rw [show ph.fullPgStart = 4096 * (ph.vaddr / 4096) + 4096 by omega] at hfree ⊢
  have hhalf : 4096 * (ph.offset / 4096) < 2 ^ 31 ↔ ph.FirstOk := by
    rw [PHEntry.FirstOk]
    omega
  rcases handPage_part hb hok hfree (pgAligned_mul _) (by omega)
    (pgAligned_mul (ph.offset / 4096)) (by omega) (by rw [pgSz_eq]; omega)
    (fun st1 => firstPage_written hw hcong) with ⟨hbig, st', hm⟩ | ⟨hsmall, st', new, hm, hpart⟩
  · exact .inl ⟨by rw [← hhalf]; omega, st', hm⟩
  · exact .inr ⟨hhalf.mp hsmall, st', new, hm, hpart.congr fun a => by simp [hal]⟩

/-- Where the last page starts, or the end of the file part if there is no such page. -/
def PHEntry.lastStart (ph : PHEntry) : ℕ :=
  if ph.fullPgStart ≤ ph.fullPgEnd then ph.fullPgEnd else ph.fileszCeil

theorem fullPages_part (hw : ph.NoWrap) (hcong : ph.vaddr % 4096 = ph.offset % 4096)
    (ho : ph.offset < 2 ^ 32) (hfirst : ph.FirstOk)
    (hb : Binary fs dev clusters fd n st.vfs st.proc) (hok : VmasOk st.proc.vmas)
    (hfree : Free st.proc.vmas ph.fullPgStart ph.lastStart) :
    ∃ st' new, mapFullPages fd ph st = .ok (st', .Ok) ∧
      ph.Part fs dev clusters fd n ph.fullPgStart ph.lastStart (fun _ => False) new st st' := by
  have hfile := hw.file
  have hpages := hw.pages
  rw [← execAll_fullPages fs dev, hw.fullPages_eq]
  by_cases hgt : ph.fullPgStart < ph.fullPgEnd
  · have hlast : ph.lastStart = ph.fullPgEnd := if_pos hgt.le
    have hoff : Word.add 32 ph.offset (ph.fullPgStart - ph.vaddr) = ph.offset + (ph.fullPgStart - ph.vaddr) := by
      rw [PHEntry.FirstOk] at hfirst
      exact Word.add_of_lt (by omega)
    have hal : pgAligned (ph.offset + (ph.fullPgStart - ph.vaddr)) = true := by
      rw [pgAligned_iff]
      omega
    rw [hlast] at hfree ⊢
    rw [if_pos hgt, hoff]
    simp only [execAll, exec, checked_skip_right]
    refine mapped_part hb hok hgt hfree (pgAligned_iff.mpr (by omega)) (by omega) hal
      ⟨rfl, fun pg hpg hlo hhi => ?_, fun _ => ⟨hal, ?_⟩⟩
    · rw [pgAligned_iff] at hpg
      rw [VirtualMemoryArea.end_] at hhi
      dsimp only at hlo hhi
      exact (if_pos (by rw [pgSz_eq]; omega)).symm
    · dsimp only
      omega
  · have hlast : ph.lastStart = ph.fullPgStart := by
      rw [PHEntry.lastStart]
      split_ifs <;> omega
    rw [hlast, if_neg hgt]
    exact ⟨st, [], rfl, PHEntry.Part.skip hb hok ph _⟩

theorem lastPage_part (hw : ph.NoWrap) (hcong : ph.vaddr % 4096 = ph.offset % 4096)
    (hb : Binary fs dev clusters fd n st.vfs st.proc) (hok : VmasOk st.proc.vmas)
    (hfree : Free st.proc.vmas ph.lastStart ph.fileszCeil) :
    (¬ ph.LastOk ∧ ∃ st', mapLastPage fs dev fd ph st = .ok (st', .InvalidArgs)) ∨
    (ph.LastOk ∧ ∃ st' new, mapLastPage fs dev fd ph st = .ok (st', .Ok) ∧
      ph.Part fs dev clusters fd n ph.lastStart ph.fileszCeil
        (fun a => (ph.fullPgEnd < ph.fileszCeil ∧ ph.fullPgStart ≤ ph.fullPgEnd) ∧
          a / 4096 = (ph.vaddr + ph.filesz) / 4096) new st st') := by
  have hfile := hw.file
  have hpages := hw.pages
  have hinside : ph.fullPgEnd < ph.fileszCeil ↔ (ph.vaddr + ph.filesz) % 4096 ≠ 0 := by omega
  have hok' : ph.LastOk ↔ (ph.fullPgEnd < ph.fileszCeil ∧ ph.fullPgStart ≤ ph.fullPgEnd →
      Word.add 32 ph.offset (ph.fullPgEnd - ph.vaddr) < 2 ^ 31) := by
    rw [PHEntry.LastOk, ← hpages.2.1, ← hpages.2.2.1, ← hinside]
    rfl
  rw [← execAll_lastPage, hw.lastPage_eq, hok']
  by_cases hlast : ph.fullPgEnd < ph.fileszCeil ∧ ph.fullPgStart ≤ ph.fullPgEnd
  · have hal : pgAligned (Word.add 32 ph.offset (ph.fullPgEnd - ph.vaddr)) = true := by
      rw [pgAligned_iff, Word.add]
      omega
    have hup : ph.fileszCeil = ph.fullPgEnd + 4096 := by omega
    rw [if_pos hlast, forall_prop_of_true hlast]
    rw [show ph.lastStart = ph.fullPgEnd from if_pos hlast.2] at hfree ⊢
    rw [hup] at hfree
    rcases handPage_part hb hok hfree (pgAligned_iff.mpr (by omega)) (by omega) hal
      (Nat.mod_lt _ (by norm_num)) (by rw [pgSz_eq]; omega)
      (fun st1 => lastPage_written hw (by omega) rfl hb.regular.size_lt) with
      ⟨hbig, st', hm⟩ | ⟨hsmall, st', new, hm, hpart⟩
    · exact .inl ⟨hbig.not_gt, st', hm⟩
    · exact .inr ⟨hsmall, st', new, hm, (hup ▸ hpart).congr fun a => (and_iff_right hlast).symm⟩
  · have hstart : ph.lastStart = ph.fileszCeil := by
      rw [PHEntry.lastStart]
      split_ifs <;> omega
    rw [hstart, if_neg hlast]
    refine .inr ⟨fun h => absurd h hlast, st, [], rfl, ?_⟩
    exact (PHEntry.Part.skip hb hok ph _).congr fun a => iff_of_false id fun h => hlast h.1

theorem anonPages_part (hw : ph.NoWrap) (hb : Binary fs dev clusters fd n st.vfs st.proc)
    (hok : VmasOk st.proc.vmas) (hfree : Free st.proc.vmas ph.fileszCeil (max ph.fileszCeil ph.memszCeil)) :
    ∃ st' new, mapAnonPages ph st = .ok (st', .Ok) ∧
      ph.Part fs dev clusters fd n ph.fileszCeil (max ph.fileszCeil ph.memszCeil) (fun _ => False) new st st' := by
  have hmem := hw.mem
  have hpages := hw.pages
  rw [← execAll_anonPages fs dev fd, ph.anonPages_eq]
  by_cases hgt : ph.fileszCeil < ph.memszCeil
  · rw [max_eq_right hgt.le] at hfree ⊢
    rw [if_pos hgt]
    simp only [execAll, exec, checked_skip_right]
    refine mapped_part hb hok hgt hfree (pgAligned_iff.mpr (by omega)) (by omega) (by decide)
      ⟨rfl, fun pg hpg hlo hhi => ?_, fun hne => absurd rfl hne⟩
    dsimp only at hlo
    exact (if_neg (by rw [pgSz_eq]; omega)).symm
  · rw [max_eq_left (not_lt.mp hgt), if_neg hgt]
    exact ⟨st, [], rfl, PHEntry.Part.skip hb hok ph _⟩

/-- The pages that are written by hand: those where the file part starts or ends inside the page. -/
def PHEntry.ByHand (ph : PHEntry) (a : ℕ) : Prop :=
  (ph.vaddr % 4096 ≠ 0 ∧ a / 4096 = ph.vaddr / 4096) ∨
    (ph.vaddr + ph.filesz) % 4096 ≠ 0 ∧ a / 4096 = (ph.vaddr + ph.filesz) / 4096

theorem PHEntry.NoWrap.byHand_iff (hw : ph.NoWrap) (a : ℕ) :
    (ph.vaddr % 4096 ≠ 0 ∧ a / 4096 = ph.vaddr / 4096 ∨
      (ph.fullPgEnd < ph.fileszCeil ∧ ph.fullPgStart ≤ ph.fullPgEnd) ∧
        a / 4096 = (ph.vaddr + ph.filesz) / 4096) ↔ ph.ByHand a := by
  have hpages := hw.pages
  -- a file part that ends in the page of its start is in the page of case 1
  have hsame : ¬ ph.fullPgStart ≤ ph.fullPgEnd →
      ph.vaddr % 4096 ≠ 0 ∧ (ph.vaddr + ph.filesz) / 4096 = ph.vaddr / 4096 := by omega
  have hinside : ph.fullPgEnd < ph.fileszCeil ↔ (ph.vaddr + ph.filesz) % 4096 ≠ 0 := by omega
  rw [PHEntry.ByHand, hinside]
  constructor
  · rintro (hstart | ⟨hne, ha⟩)
    · exact .inl hstart
    · exact .inr ⟨hne.1, ha⟩
  · rintro (hstart | ⟨hne, ha⟩)
    · exact .inl hstart
    · by_cases hle : ph.fullPgStart ≤ ph.fullPgEnd
      · exact .inr ⟨⟨hne, hle⟩, ha⟩
      · exact .inl ⟨(hsame hle).1, ha.trans (hsame hle).2⟩

structure PHEntry.Loaded (fs : Filesystem) (dev : Bytes) (fd : ℕ) (n : Inode) (ph : PHEntry)
    (st st' : Loader) (new : List VirtualMemoryArea) : Prop where
  added : st'.proc.vmas.Perm (new ++ st.proc.vmas)
  disjoint : new.Pairwise fun v w => v.end_ ≤ w.addr
  union : ∀ a, (∃ v ∈ new, v.addr ≤ a ∧ a < v.end_) ↔
    floorPg ph.vaddr ≤ a ∧ a < ceilPg (max (ph.vaddr + ph.filesz) (ph.vaddr + ph.memsz))
  areas : ∀ v ∈ new, ph.Area (st.proc.backing fd) v
  written : ph.Written fs dev n ph.ByHand st.mem st'.mem

theorem Free.mono {vmas : List VirtualMemoryArea} {lo hi lo' hi' : ℕ} (h : Free vmas lo hi)
    (hlo : lo ≤ lo') (hhi : hi' ≤ hi) : Free vmas lo' hi' := by
  intro v hv
  have := h v hv
  omega

/-- A loadable segment is laid out as its header says exactly if `lseek` accepts the offsets of the
pages that are copied by hand. -/
theorem mapSegment_loaded_iff (hload : ph.type = typeLoad)
    (hcong : ph.vaddr % pgSz = ph.offset % pgSz) (hf : ph.Fields) (hw : ph.NoWrap)
    (hb : Binary fs dev clusters fd n st.vfs st.proc) (hok : VmasOk st.proc.vmas)
    (hfree : Free st.proc.vmas (floorPg ph.vaddr)
      (ceilPg (max (ph.vaddr + ph.filesz) (ph.vaddr + ph.memsz)))) :
    (∃ st' new, mapSegment fs dev fd ph st = .ok (st', .Ok) ∧ ph.Loaded fs dev fd n st st' new) ↔
      ph.FirstOk ∧ ph.LastOk := by
  have hfile := hw.file
  have hmem := hw.mem
  have hpages := hw.pages
  have hfirst : 4096 * (ph.vaddr / 4096) ≤ ph.fullPgStart := by omega
  have hlast : ph.fullPgStart ≤ ph.lastStart ∧ ph.lastStart ≤ ph.fileszCeil := by
    rw [PHEntry.lastStart]
    split_ifs <;> omega
  have hmax : ph.lastStart ≤ max ph.fileszCeil ph.memszCeil := hlast.2.trans (le_max_left _ _)
  have hlo : floorPg ph.vaddr = 4096 * (ph.vaddr / 4096) := by
    rw [floorPg_eq (by omega), Nat.mul_comm]
  have hhi : ceilPg (max (ph.vaddr + ph.filesz) (ph.vaddr + ph.memsz)) = max ph.fileszCeil ph.memszCeil := by
    rcases Nat.le_total (ph.vaddr + ph.filesz) (ph.vaddr + ph.memsz) with hle | hle
    · rw [max_eq_right hle, ceilPg_of_lt (by omega), max_eq_right (by omega)]
      omega
    · rw [max_eq_left hle, ceilPg_of_lt (by omega), max_eq_left (by omega)]
      omega
  rw [hlo, hhi] at hfree
  rw [mapSegment, if_neg (not_not.mpr hload), if_neg (not_not.mpr hcong)]
  rcases firstPage_part hw hcong hf.offset_lt hb hok (hfree.mono le_rfl (hlast.1.trans hmax)) with
    ⟨hno, st1, h1⟩ | ⟨hstart, st1, new1, h1, part1⟩
  · rw [checked_error h1 (by decide)]
    refine iff_of_false ?_ fun h => hno h.1
    rintro ⟨st', new, heq, -⟩
    cases heq
  have free1 := part1.adds.free part1.tiles (hfree.mono hfirst le_rfl)
  obtain ⟨st2, new2, h2, part2⟩ := fullPages_part hw hcong hf.offset_lt hstart part1.adds.binary
    part1.adds.vmas (free1.mono le_rfl hmax)
  have free2 := part2.adds.free part2.tiles (free1.mono hlast.1 le_rfl)
  rw [checked_ok h1, checked_ok h2]
  rcases lastPage_part hw hcong part2.adds.binary part2.adds.vmas (free2.mono le_rfl (le_max_left _ _)) with
    ⟨hno, st3, h3⟩ | ⟨hend, st3, new3, h3, part3⟩
  · rw [checked_error h3 (by decide)]
    refine iff_of_false ?_ fun h => hno h.2
    rintro ⟨st', new, heq, -⟩
    cases heq
  have free3 := part3.adds.free part3.tiles (free2.mono hlast.2 le_rfl)
  obtain ⟨st4, new4, h4, part4⟩ := anonPages_part hw part3.adds.binary part3.adds.vmas free3
  rw [checked_ok h3]
  have part := ((part1.trans part2).trans part3).trans part4
  refine ⟨fun _ => ⟨hstart, hend⟩, fun _ => ⟨st4, _, h4, part.adds.perm, part.tiles.separated, ?_,
    part.areas, ?_⟩⟩
  · intro a
    rw [hlo, hhi]
    exact part.tiles.mem_iff
  · exact (part.congr fun a => by simpa only [or_false] using hw.byHand_iff a).written

def longVolume : Filesystem := { sectorsPerCluster := 8, fatOffsetLba := 1, dataRegionOffsetLba := 8192 }

def longDev : Bytes := fun i => UInt8.ofNat (((i - 512) / 4 + 1) / 256 ^ ((i - 512) % 4))

def longFile : Inode := { id := 1, startCluster := 3, size := 0x80001000, isDirectory := false, rc := 1 }

theorem longVolume_volume : Volume longVolume 600000 := ⟨rfl, by decide, by decide, by decide⟩

theorem longDev_fatEntry {c : ℕ} (h : c + 1 < 0x10000000) : longVolume.fatEntry longDev c = c + 1 := by
  have hle : le32 longDev (512 * longVolume.fatOffsetLba + 4 * c) = c + 1 := by
    have hbyte : ∀ j < 4, longDev (512 * longVolume.fatOffsetLba + 4 * c + j) =
        UInt8.ofNat ((c + 1) / 256 ^ j) := by
      intro j hj
      rw [longDev, show longVolume.fatOffsetLba = 1 from rfl,
        show (512 * 1 + 4 * c + j - 512) / 4 = c by omega,
        show (512 * 1 + 4 * c + j - 512) % 4 = j by omega]
    have h0 := hbyte 0 (by norm_num)
    have h1 := hbyte 1 (by norm_num)
    have h2 := hbyte 2 (by norm_num)
    have h3 := hbyte 3 (by norm_num)
    rw [Nat.add_zero] at h0
    simp only [le32, h0, h1, h2, h3, UInt8.toNat_ofNat']
    omega
  rw [Filesystem.fatEntry, hle, maskCluster_of_lt h]

theorem longDev_chain (k : ℕ) (h : 3 + k < 0x10000000) : longVolume.chain longDev 3 k = 3 + k := by
  induction k with
  | zero => rfl
  | succ k ih =>
    rw [Filesystem.chain, ih (by omega)]
    exact longDev_fatEntry h

theorem longFile_regular : RegularFile longVolume longDev 600000 longFile where
  regular := rfl
  size_lt := by decide
  chain := by
    intro k hk
    rw [pgSz_eq, show longFile.size = 0x80001000 from rfl] at hk
    rw [show longFile.startCluster = 3 from rfl, longDev_chain k (by omega)]
    omega

def longDisk : Disk := fun cluster name =>
  if cluster = 2 ∧ name = "A          ".toList then some (some ⟨0, 3, 0x80001000, false⟩) else some none

def longOpen : Vfs × Process × Except Result ℕ :=
  (({} : Process).open longDisk (Vfs.init 2) "/A".toList [(5, 5), (1, 1)]).toOption.get
    (by decide +kernel)

def longDentry : Dentry where
  inode := 1
  parent := some 0
  component := "A".toList
  inHashtable := true
  rc := 1
  level := 1

def longStart : Loader := ⟨longOpen.1, longOpen.2.1, fun _ => 0, fun _ => 0, []⟩

theorem longStart_binary : Binary longVolume longDev 600000 0 longFile longStart.vfs longStart.proc where
  volume := longVolume_volume
  regular := longFile_regular
  fd_ne := by decide
  opened := ⟨{ dentry := some 1 }, 1, longDentry, by decide +kernel, rfl, by decide +kernel,
    by decide +kernel⟩

theorem longStart_vmas : longStart.proc.vmas = [] := by decide +kernel

/-- The data segment that the comment in the loader talks about. -/
def dataSegment : PHEntry := ⟨1, 0x2ff4, 0x0804bff4, 0x140c, 0x340c, 6⟩

theorem mapSegment_loaded_dataSegment :
    ∃ st' new, mapSegment longVolume longDev 0 dataSegment longStart = .ok (st', .Ok) ∧
      dataSegment.Loaded longVolume longDev 0 longFile longStart st' new := by
  refine (mapSegment_loaded_iff rfl (by decide) ⟨by decide, by decide, by decide, by decide⟩
    ⟨by decide, by decide⟩ longStart_binary ?_ ?_).mpr ⟨fun _ => by decide, fun _ => by decide⟩
  · rw [longStart_vmas]
    exact ⟨List.Pairwise.nil, nofun, nofun, nofun⟩
  · rw [longStart_vmas]
    exact nofun

/-- The start of this segment is aligned, and the file has its bytes. They are `2^31` bytes into the
file. -/
def farSegment : PHEntry := ⟨1, 0x80000000, 0x08048000, 10, 0x5000, 6⟩

/-- The loader gives up at the page of the ten bytes: the page is mapped, but neither the bytes nor
the pages behind it are there. -/
theorem mapSegment_farSegment_incomplete :
    (farSegment.type = typeLoad ∧ farSegment.vaddr % pgSz = farSegment.offset % pgSz ∧
      farSegment.NoWrap ∧ farSegment.offset + farSegment.filesz ≤ longFile.size) ∧
    (Binary longVolume longDev 600000 0 longFile longStart.vfs longStart.proc ∧
      longStart.proc.vmas = []) ∧
    (∃ st', mapSegment longVolume longDev 0 farSegment longStart = .ok (st', .InvalidArgs) ∧
      st'.proc.vmas = [⟨0x08048000, 0x1000, ⟨false, true, true⟩, ⟨true, true⟩, none, 0⟩]) ∧
    ¬ ∃ st' new, mapSegment longVolume longDev 0 farSegment longStart = .ok (st', .Ok) ∧
      farSegment.Loaded longVolume longDev 0 longFile longStart st' new := by
  have hrun : (mapSegment longVolume longDev 0 farSegment longStart).toOption.map
      (fun r => (r.1.proc.vmas, r.2)) =
      some ([⟨0x08048000, 0x1000, ⟨false, true, true⟩, ⟨true, true⟩, none, 0⟩], .InvalidArgs) := by
    decide +kernel
  refine ⟨⟨rfl, by decide, ⟨by decide, by decide⟩, by decide⟩, ⟨longStart_binary, longStart_vmas⟩, ?_⟩
  cases hmap : mapSegment longVolume longDev 0 farSegment longStart with
  | error e =>
    rw [hmap] at hrun
    cases hrun
  | ok r =>
    obtain ⟨st', res⟩ := r
    rw [hmap] at hrun
    injection hrun with hrun
    injection hrun with hvmas hres
    dsimp only at hvmas hres
    constructor
    · exact ⟨st', by rw [hres], hvmas⟩
    · rintro ⟨st'', new, heq, -⟩
      rw [hres] at heq
      cases heq

end HmmOS.Proc
