import HmmOS.Proc.ElfPlan
import HmmOS.Proc.ElfTable
import HmmOS.Proc.RefCounts

/-! # Where the loader maps and writes

The loader does not check that a segment stays below the kernel's part of the address
space.
-/
namespace HmmOS.Proc
open Fs Lib Nonstd Util.Algorithm

/-- The effect is confined to the user part of the address space. -/
def Effect.InUser : Effect → Prop
  | .mapped addr len => addr + len ≤ hhdmStart
  | .wrote dst len => ∀ i < len, (dst + i) % 2 ^ 32 < hhdmStart

/-- A loadable segment with a byte outside of the user part. -/
def PHEntry.Reaches (ph : PHEntry) : Prop :=
  ph.type = typeLoad ∧ ∃ a, ph.vaddr ≤ a ∧ a < ph.vaddr + max ph.filesz ph.memsz ∧ hhdmStart ≤ a

/-- A loadable segment ends in the user part, or is empty and starts on a page boundary. -/
def PHEntry.Fits (ph : PHEntry) : Prop :=
  ph.type = typeLoad → ph.vaddr + max ph.filesz ph.memsz ≤ hhdmStart ∨
    (max ph.filesz ph.memsz = 0 ∧ pgAligned ph.vaddr = true)

/-- Everything stays in the user part, and an image with a segment that reaches out of it is
rejected before anything is written. -/
def Confined (phs : List PHEntry) (trace : List Effect) (res : Result) : Prop :=
  (∀ e ∈ trace, e.InUser) ∧
    ((∃ ph ∈ phs, ph.Reaches) → res ≠ .Ok ∧ ∀ dst len, .wrote dst len ∈ trace → len = 0)

/-- Some step of the plan cannot be carried out, and what comes before it is harmless. -/
def GivesUp (phs : List PHEntry) (dentry : Option ℕ) (vmas : List VirtualMemoryArea) : Prop :=
  ∃ done bad rest, phs.flatMap PHEntry.plan = done ++ bad :: rest ∧ Succeeds dentry vmas done ∧
    ¬ bad.Feasible (afterAll dentry vmas done) ∧
    (∀ e ∈ done.flatMap PlanStep.effects, e.InUser) ∧
    ((∃ ph ∈ phs, ph.Reaches) →
      ∀ dst len, .wrote dst len ∈ done.flatMap PlanStep.effects → len = 0)

section Fits
variable {ph : PHEntry}

theorem PHEntry.Fits.not_reaches (h : ph.Fits) : ¬ ph.Reaches := by
  rintro ⟨htype, a, hle', hlt, hge⟩
  rcases h htype with hle | ⟨hzero, -⟩
  · omega
  · omega

theorem wrote_inUser {dst len : ℕ} (h : dst + len ≤ 3221225472) : (Effect.wrote dst len).InUser := by
  intro i hi
  rw [hhdmStart_eq, Nat.mod_eq_of_lt (by omega)]
  omega

theorem PHEntry.plan_of_empty (hf : ph.Fields) (htype : ph.type = typeLoad)
    (hcong : ph.vaddr % pgSz = ph.offset % pgSz) (hzero : max ph.filesz ph.memsz = 0)
    (hal : pgAligned ph.vaddr = true) : ph.plan = [] := by
  have hv := hf.vaddr_lt
  have ha := pgAligned_iff.mp hal
  have hfz : ph.filesz = 0 := by omega
  have hmz : ph.memsz = 0 := by omega
  have hw : ph.NoWrap := ⟨by rw [hfz]; omega, by rw [hmz]; omega⟩
  have hpages := hw.pages
  rw [PHEntry.plan, if_neg (not_not.mpr htype), if_neg (not_not.mpr hcong),
    hw.firstPage_eq hf.offset_lt, if_pos ha, hw.fullPages_eq, if_neg (by omega),
    hw.lastPage_eq, if_neg (by omega), ph.anonPages_eq, if_neg (by omega)]
  rfl

theorem mapped_inUser {addr len : ℕ} (h : addr + len ≤ 3221225472) :
    (Effect.mapped addr len).InUser := h

theorem mapped_not_inUser {addr len : ℕ} (h : 3221225472 < addr + len) :
    ¬ (Effect.mapped addr len).InUser := not_le.mpr h

theorem PHEntry.plan_inUser (hf : ph.Fields) (hle : ph.vaddr + max ph.filesz ph.memsz ≤ hhdmStart) :
    ∀ step ∈ ph.plan, ∀ e ∈ step.effects, e.InUser := by
  rw [hhdmStart_eq] at hle
  have hw : ph.NoWrap := ⟨by omega, by omega⟩
  have hpages := hw.pages
  have hhi : ph.firstEnd ≤ 4096 * (ph.vaddr / 4096) + 4096 := min_le_right _ _
  refine PHEntry.forall_plan (by simp [PlanStep.effects]) fun _ => ?_
  rw [hw.firstPage_eq hf.offset_lt, hw.fullPages_eq, hw.lastPage_eq, ph.anonPages_eq]
  refine ⟨?_, ?_, ?_, ?_⟩ <;> split_ifs with hgt <;>
    simp only [List.forall_mem_cons, List.not_mem_nil, PlanStep.effects, false_implies, implies_true, and_true, true_and]
  · have hlo : ph.vaddr ≤ ph.firstEnd := by
      rw [PHEntry.firstEnd]
      omega
    exact ⟨mapped_inUser (by omega), wrote_inUser (by omega), wrote_inUser (by omega), wrote_inUser (by omega)⟩
  · exact mapped_inUser (by omega)
  · exact ⟨mapped_inUser (by omega), wrote_inUser (by omega), wrote_inUser (by omega)⟩
  · exact mapped_inUser (by omega)

theorem PHEntry.Fits.plan_inUser (h : ph.Fits) (hf : ph.Fields) :
    ∀ step ∈ ph.plan, ∀ e ∈ step.effects, e.InUser := by
  by_cases htype : ph.type = typeLoad
  · rcases h htype with hle | ⟨hzero, hal⟩
    · exact PHEntry.plan_inUser hf hle
    · by_cases hcong : ph.vaddr % pgSz = ph.offset % pgSz
      · rw [PHEntry.plan_of_empty hf htype hcong hzero hal]
        simp
      · rw [PHEntry.plan, if_neg (not_not.mpr htype), if_pos hcong]
        simp [PlanStep.effects]
  · rw [PHEntry.plan, if_pos htype]
    simp

/-- A segment that neither fits nor reaches out is empty and starts inside a page of the kernel. -/
theorem PHEntry.not_inUser_of_not_fits (hf : ph.Fields) (hfit : ¬ ph.Fits) (hreach : ¬ ph.Reaches)
    (hsucc : PlanStep.reject ∉ ph.plan) : ∃ step ∈ ph.plan, ∃ e ∈ step.effects, ¬ e.InUser := by
  have hv := hf.vaddr_lt
  have htype : ph.type = typeLoad := by
    by_contra hne
    exact hfit fun h => absurd h hne
  have hnot : ¬ (ph.vaddr + max ph.filesz ph.memsz ≤ hhdmStart ∨
      (max ph.filesz ph.memsz = 0 ∧ pgAligned ph.vaddr = true)) := fun h => hfit fun _ => h
  rw [not_or, not_le] at hnot
  have hzero : max ph.filesz ph.memsz = 0 := by
    by_contra hpos
    exact hreach ⟨htype, ph.vaddr + max ph.filesz ph.memsz - 1, by omega, by omega, by omega⟩
  have hal : ¬ pgAligned ph.vaddr = true := fun h => hnot.2 ⟨hzero, h⟩
  have hgt := hnot.1
  rw [hzero, Nat.add_zero] at hgt
  have hcong : ph.vaddr % pgSz = ph.offset % pgSz := by
    by_contra hne
    rw [PHEntry.plan, if_neg (not_not.mpr htype), if_pos hne] at hsucc
    exact hsucc (List.mem_singleton_self _)
  rw [hhdmStart_eq] at hgt
  refine ⟨.map (4096 * (ph.vaddr / 4096)) 4096 ph.prot flagsAnon 0, ?_,
    .mapped (4096 * (ph.vaddr / 4096)) 4096, List.mem_singleton_self _, ?_⟩
  · rw [PHEntry.plan, if_neg (not_not.mpr htype), if_neg (not_not.mpr hcong), PHEntry.firstPage,
      if_pos hal]
    dsimp only
    rw [floorPg_of_lt hv, pgSz_eq, List.append_assoc, List.append_assoc, List.cons_append]
    exact List.mem_cons_self
  · exact mapped_not_inUser (by omega)

end Fits

theorem Succeeds.feasible {dentry : Option ℕ} {vmas : List VirtualMemoryArea} {steps : List PlanStep}
    (h : Succeeds dentry vmas steps) {step : PlanStep} (hm : step ∈ steps) :
    ∃ vmas', step.Feasible vmas' := by
  induction steps generalizing vmas with
  | nil => simp at hm
  | cons step' steps ih =>
    rcases List.mem_cons.mp hm with rfl | hm
    · exact ⟨vmas, h.1⟩
    · exact ih h.2 hm

section Loader
variable {fs : Filesystem} {dev : Bytes} {clusters fd : ℕ} {n : Inode} {st : Loader}
  {phs : List PHEntry}

theorem fits_inUser (hf : ∀ ph ∈ phs, ph.Fields) (hfits : ∀ ph ∈ phs, ph.Fits) :
    ∀ e ∈ (phs.flatMap PHEntry.plan).flatMap PlanStep.effects, e.InUser := by
  intro e he
  obtain ⟨step, hstep, he⟩ := List.mem_flatMap.mp he
  obtain ⟨ph, hph, hstep⟩ := List.mem_flatMap.mp hstep
  exact (hfits ph hph).plan_inUser (hf ph hph) step hstep e he

/-- An image all of whose steps succeed is confined only if its segments fit. -/
theorem fits_of_confined (hf : ∀ ph ∈ phs, ph.Fields) {dentry : Option ℕ}
    {vmas : List VirtualMemoryArea} (hsucc : Succeeds dentry vmas (phs.flatMap PHEntry.plan))
    (hconf : Confined phs ((phs.flatMap PHEntry.plan).flatMap PlanStep.effects) .Ok) : ∀ ph ∈ phs, ph.Fits := by
  intro ph hph
  by_contra hfit
  have hreach : ¬ ph.Reaches := fun h => (hconf.2 ⟨ph, hph, h⟩).1 rfl
  have hno : PlanStep.reject ∉ ph.plan := by
    intro hm
    obtain ⟨vmas', hfeas⟩ := hsucc.feasible (List.mem_flatMap.mpr ⟨ph, hph, hm⟩)
    exact hfeas
  obtain ⟨step, hstep, e, he, hout⟩ := PHEntry.not_inUser_of_not_fits (hf ph hph) hfit hreach hno
  exact hout (hconf.1 e (List.mem_flatMap.mpr
    ⟨step, List.mem_flatMap.mpr ⟨ph, hph, hstep⟩, he⟩))

/-- The loop over program headers, from a state without effects. -/
theorem mapSegments_confined_iff (hb : Binary fs dev clusters fd n st.vfs st.proc)
    (htrace : st.trace = []) (hf : ∀ ph ∈ phs, ph.Fields) :
    ∃ st' res, mapSegments fs dev fd phs st = .ok (st', res) ∧
      (res = .Ok → Binary fs dev clusters fd n st'.vfs st'.proc) ∧ (Confined phs st'.trace res ↔
        (∀ ph ∈ phs, ph.Fits) ∨ GivesUp phs (st.proc.backing fd) st.proc.vmas) := by
  have hsound : ∀ step ∈ phs.flatMap PHEntry.plan, step.Sound := by
    intro step hstep
    obtain ⟨ph, hph, hstep⟩ := List.mem_flatMap.mp hstep
    exact PHEntry.plan_sound (hf ph hph) step hstep
  rw [mapSegments_eq]
  -- a plan that fails has the effects of the steps before
  have hfails : ∀ {done bad rest}, phs.flatMap PHEntry.plan = done ++ bad :: rest →
      Succeeds (st.proc.backing fd) st.proc.vmas done →
      ¬ bad.Feasible (afterAll (st.proc.backing fd) st.proc.vmas done) →
      ∃ st' res, execAll fs dev fd (phs.flatMap PHEntry.plan) st = .ok (st', res) ∧ res ≠ .Ok ∧
        st'.trace = done.flatMap PlanStep.effects := by
    intro done bad rest hplan hdone hbad
    rw [hplan] at hsound ⊢
    obtain ⟨st', res, hexec, hres, htr⟩ := execAll_of_fails hb hsound hdone hbad
    exact ⟨st', res, hexec, hres, by rw [htr, htrace, List.nil_append]⟩
  rcases succeeds_or_fails (st.proc.backing fd) st.proc.vmas (phs.flatMap PHEntry.plan) with
    hsucc | ⟨done, bad, rest, hplan, hdone, hbad⟩
  · obtain ⟨st', hexec, hb', htr, -⟩ := execAll_of_succeeds hb hsound hsucc []
    rw [List.append_nil] at hexec
    rw [htrace, List.nil_append] at htr
    refine ⟨st', .Ok, hexec, fun _ => hb', ?_⟩
    rw [htr]
    constructor
    · exact fun hconf => .inl (fits_of_confined hf hsucc hconf)
    · rintro (hfits | ⟨done, bad, rest, hplan, hdone, hbad, -⟩)
      · refine ⟨fits_inUser hf hfits, ?_⟩
        rintro ⟨ph, hph, hreach⟩
        exact absurd hreach (hfits ph hph).not_reaches
      · -- the plan cannot both succeed and fail
        obtain ⟨st'', res, hexec', hres, -⟩ := hfails hplan hdone hbad
        rw [hexec] at hexec'
        exact absurd (Prod.mk.inj (Except.ok.inj hexec')).2.symm hres
  · obtain ⟨st', res, hexec, hres, htr⟩ := hfails hplan hdone hbad
    refine ⟨st', res, hexec, fun hok => absurd hok hres, ?_⟩
    constructor
    · intro hconf
      rw [htr] at hconf
      exact .inr ⟨done, bad, rest, hplan, hdone, hbad, hconf.1, fun h => (hconf.2 h).2⟩
    · rintro (hfits | ⟨done', bad', rest', hplan', hdone', hbad', huser, hwrite⟩)
      · rw [htr]
        refine ⟨fun e he => ?_, ?_⟩
        · apply fits_inUser hf hfits
          rw [hplan, List.flatMap_append]
          exact List.mem_append_left _ he
        · rintro ⟨ph, hph, hreach⟩
          exact absurd hreach (hfits ph hph).not_reaches
      · obtain ⟨st'', res', hexec', hres', htr'⟩ := hfails hplan' hdone' hbad'
        rw [hexec] at hexec'
        obtain ⟨rfl, rfl⟩ := Prod.mk.inj (Except.ok.inj hexec')
        rw [htr']
        exact ⟨huser, fun h => ⟨hres, hwrite h⟩⟩

end Loader

theorem parseExecutable_fields {image : Bytes} {length : ℕ} {exe : ELFExecutable}
    (h : parseExecutable image length = some (.ok exe)) : ∀ ph ∈ exe.phTable, ph.Fields := by
  obtain ⟨-, -, -, rfl⟩ := parseExecutable_ok h
  intro ph hph
  obtain ⟨i, -, rfl⟩ := List.mem_map.mp hph
  exact ⟨le32_lt _ _, le32_lt _ _, le32_lt _ _, le32_lt _ _⟩

theorem Process.open_inv {disk : Disk} {s s' : Vfs} {p p' : Process} {path : Name}
    {addrs : List (ℕ × ℕ)} {fd : ℕ} (h : p.open disk s path addrs = .ok (s', p', .ok fd)) :
    p'.vmas = p.vmas ∧ ∃ d, p'.file fd = some { dentry := some d } := by
  rw [Process.open] at h
  obtain ⟨⟨s1, dentry⟩, -, h⟩ := bind_eq_ok h
  cases dentry with
  | none => cases h
  | some d =>
    obtain ⟨p1, fd', hnext, hvmas, hnone, -⟩ := p.getNextFd_spec s1
    dsimp only at h
    rw [hnext, ok_bind] at h
    obtain ⟨s3, -, h⟩ := bind_eq_ok h
    cases h
    obtain ⟨hlt, -⟩ := List.getElem?_eq_some_iff.mp hnone
    refine ⟨hvmas, d, ?_⟩
    simp [Process.file, Process.setFile, hlt]

def imageOf (fs : Filesystem) (dev : Bytes) (n : Inode) (elfBuf : Bytes) : Bytes :=
  fun i => if i < min pgSz n.size then n.fileByte fs dev i else elfBuf i

/-- `close` comes after the last effect. -/
theorem Process.mapElfSegments_eq {disk : Disk} {fs : Filesystem} {dev : Bytes} {fd : ℕ} {s : Vfs}
    {p : Process} {path : Name} {addrs : List (ℕ × ℕ)} {mem elfBuf scopedBuf : Bytes} {st st' : Loader}
    {res res' : Result} (hload : p.loadSegments disk fs dev s path addrs mem elfBuf scopedBuf = .ok (fd, st, res))
    (hopen : res = .Ok → st.proc.file fd ≠ none)
    (h : p.mapElfSegments disk fs dev s path addrs mem elfBuf scopedBuf = .ok (st', res')) :
    st'.trace = st.trace ∧ st'.mem = st.mem ∧ st'.proc.vmas = st.proc.vmas ∧ res' = res := by
  rw [mapElfSegments, hload, ok_bind] at h
  dsimp only at h
  split_ifs at h with hres
  · obtain ⟨rfl, rfl⟩ := Prod.mk.inj (Except.ok.inj h)
    exact ⟨rfl, rfl, rfl, rfl⟩
  · rw [ne_eq, not_not] at hres
    obtain ⟨f, hf⟩ := Option.ne_none_iff_exists'.mp (hopen hres)
    rw [Process.close, hf] at h
    obtain ⟨r, hclose, h⟩ := bind_eq_ok h
    obtain ⟨s1, -, hclose⟩ := bind_eq_ok hclose
    obtain rfl := Except.ok.inj hclose
    obtain ⟨rfl, rfl⟩ := Prod.mk.inj (Except.ok.inj h)
    exact ⟨rfl, rfl, rfl, hres.symm⟩

/-- The loader returns, and it is confined exactly if all segments fit or it gives up in time. -/
theorem loadSegments_confined_iff {disk : Disk} {fs : Filesystem} {dev : Bytes} {clusters fd : ℕ}
    {n : Inode} {s s1 : Vfs} {p p1 : Process} {path : Name} {addrs : List (ℕ × ℕ)}
    {elfBuf : Bytes} {exe : ELFExecutable} (mem scopedBuf : Bytes)
    (hopen : p.open disk s path addrs = .ok (s1, p1, .ok fd))
    (hb : Binary fs dev clusters fd n s1 p1)
    (hparse : parseExecutable (imageOf fs dev n elfBuf) (min pgSz n.size) = some (.ok exe)) :
    ∃ st res, p.loadSegments disk fs dev s path addrs mem elfBuf scopedBuf = .ok (fd, st, res) ∧
      (∀ st' res', p.mapElfSegments disk fs dev s path addrs mem elfBuf scopedBuf = .ok (st', res') →
        st'.trace = st.trace ∧ st'.mem = st.mem ∧ st'.proc.vmas = st.proc.vmas ∧ res' = res) ∧
      (Confined exe.phTable st.trace res ↔
        (∀ ph ∈ exe.phTable, ph.Fits) ∨ GivesUp exe.phTable (p1.backing fd) p.vmas) := by
  obtain ⟨hvmas, d, hfile⟩ := Process.open_inv hopen
  obtain ⟨p2, buf, hread, hvmas2, hback2, hb2, hbytes⟩ := hb.read_eq hfile (show 0 < 2 ^ 32 by norm_num) elfBuf
  have hbuf : buf = imageOf fs dev n elfBuf := by
    funext i
    rw [hbytes i, imageOf]
    simp
  have hb2' : Binary fs dev clusters fd n (Loader.mk s1 p2 mem scopedBuf []).vfs p2 := hb2
  obtain ⟨st, res, hmap, hdone, hiff⟩ :=
    mapSegments_confined_iff hb2' rfl (parseExecutable_fields hparse)
  have hload : p.loadSegments disk fs dev s path addrs mem elfBuf scopedBuf = .ok (fd, st, res) := by
    rw [Process.loadSegments, hopen, ok_bind]
    dsimp only
    rw [hread, ok_bind]
    dsimp only
    rw [hbuf, Nat.sub_zero, hparse]
    dsimp only
    rw [hmap]
    rfl
  refine ⟨st, res, hload, fun st' res' => Process.mapElfSegments_eq hload fun hok => ?_, ?_⟩
  · obtain ⟨f, -, -, hf, -⟩ := (hdone hok).opened
    simp [hf]
  · rw [hiff]
    dsimp only
    rw [hvmas2, hvmas, hback2]

/-- An ELF image with one readable segment of 16 bytes, at file offset 16 and the given address. -/
def tinyImage (vaddr : List UInt8) : List UInt8 :=
  [0x7F, 0x45, 0x4C, 0x46, 1, 1, 1, 0, 0, 0, 0, 0, 0, 0, 0, 0, 2, 0, 3, 0, 1, 0, 0, 0, 1, 0, 0, 0,
    0x34, 0, 0, 0, 0, 0, 0, 0, 0, 0, 0, 0, 0x34, 0, 0x20, 0, 1, 0, 0x28, 0, 0, 0, 0, 0] ++
  [1, 0, 0, 0, 0x10, 0, 0, 0] ++ vaddr ++
  [0, 0, 0, 0, 0x10, 0, 0, 0, 0x10, 0, 0, 0, 4, 0, 0, 0, 0, 0, 0, 0]

def tinyDev (vaddr : List UInt8) : Bytes :=
  fun i => if i < 8192 then 0 else (tinyImage vaddr).getD (i - 8192) 0

def tinyDisk : Disk := fun cluster name =>
  if cluster = 2 ∧ name = "A          ".toList then some (some ⟨0, 3, 4096, false⟩) else some none

def tinyFile : Inode := { id := 1, startCluster := 3, size := 4096, isDirectory := false, rc := 1 }

def tinyDentry : Dentry where
  inode := 1
  parent := some 0
  component := "A".toList
  inHashtable := true
  rc := 1
  level := 1

def userVaddr : List UInt8 := [0x10, 0x80, 0x04, 0x08]
def kernelVaddr : List UInt8 := [0x10, 0x00, 0x10, 0xC0]

def loadTiny (vaddr : List UInt8) : Except Stop (ℕ × Loader × Result) :=
  ({} : Process).loadSegments tinyDisk twoClusters (tinyDev vaddr) (Vfs.init 2) "/A".toList
    [(5, 5), (1, 1)] (fun _ => 0) (fun _ => 0) (fun _ => 0)

def tinyOpen : Vfs × Process × Except Result ℕ :=
  (({} : Process).open tinyDisk (Vfs.init 2) "/A".toList [(5, 5), (1, 1)]).toOption.get
    (by decide +kernel)

def tinyExe (vaddr : List UInt8) : Option (Except Result ELFExecutable) :=
  parseExecutable (imageOf twoClusters (tinyDev vaddr) tinyFile fun _ => 0) (min pgSz tinyFile.size)

theorem tiny_regular (vaddr : List UInt8) : RegularFile twoClusters (tinyDev vaddr) 2 tinyFile where
  regular := rfl
  size_lt := by decide
  chain := by
    intro k hk
    have hk' : k = 0 := by
      rw [pgSz_eq] at hk
      change 4096 * k < 4096 at hk
      omega
    rw [hk']
    exact ⟨show 2 ≤ 3 by decide, show 3 < 4 by decide⟩

theorem tiny_binary (vaddr : List UInt8) :
    Binary twoClusters (tinyDev vaddr) 2 0 tinyFile tinyOpen.1 tinyOpen.2.1 where
  volume := twoClusters_volume
  regular := tiny_regular vaddr
  fd_ne := by decide
  opened := ⟨{ dentry := some 1 }, 1, tinyDentry, by decide +kernel, rfl, by decide +kernel,
    by decide +kernel⟩

/-- The segment of the first image fits, so its page is mapped and written below the kernel. -/
theorem loadSegments_confined_tiny :
    ∃ exe st res, tinyExe userVaddr = some (.ok exe) ∧ loadTiny userVaddr = .ok (0, st, res) ∧
      Confined exe.phTable st.trace res := by
  obtain ⟨exe, hexe, hvaddr⟩ : ∃ exe, tinyExe userVaddr = some (.ok exe) ∧
      exe.phTable = [⟨1, 0x10, 0x08048010, 0x10, 0x10, 4⟩] :=
    ⟨⟨ELFHeader.ofBytes (imageOf twoClusters (tinyDev userVaddr) tinyFile fun _ => 0),
      [⟨1, 0x10, 0x08048010, 0x10, 0x10, 4⟩]⟩, by decide +kernel, rfl⟩
  have hopen : ({} : Process).open tinyDisk (Vfs.init 2) "/A".toList [(5, 5), (1, 1)] =
      .ok (tinyOpen.1, tinyOpen.2.1, .ok 0) := by
    have hfd : tinyOpen.2.2.toOption = some 0 := by decide +kernel
    have heq : ∀ x : Except Stop (Vfs × Process × Except Result ℕ), ∀ h : x.toOption.isSome = true,
        (x.toOption.get h).2.2.toOption = some 0 →
        x = .ok ((x.toOption.get h).1, (x.toOption.get h).2.1, .ok 0) := by
      rintro (e | ⟨s, p, r⟩) h hr
      · cases h
      · cases r with
        | error e => cases hr
        | ok fd =>
          obtain rfl : fd = 0 := Option.some.inj hr
          rfl
    exact heq _ (by decide +kernel) hfd
  obtain ⟨st, res, hload, -, hiff⟩ := loadSegments_confined_iff (fun _ => 0) (fun _ => 0) hopen
    (tiny_binary userVaddr) hexe
  refine ⟨exe, st, res, hexe, hload, hiff.mpr (.inl ?_)⟩
  rw [hvaddr]
  intro ph hph
  rw [List.mem_singleton.mp hph]
  exact fun _ => .inl (by decide)

/-- The second image is accepted too. Its page is mapped and written in the kernel's memory. -/
theorem loadSegments_writes_kernel :
    ∃ exe st, tinyExe kernelVaddr = some (.ok exe) ∧ loadTiny kernelVaddr = .ok (0, st, .Ok) ∧
      .mapped 0xC0100000 0x1000 ∈ st.trace ∧ .wrote 0xC0100000 0x10 ∈ st.trace ∧
      ¬ Confined exe.phTable st.trace .Ok := by
  have hrun : (loadTiny kernelVaddr).toOption.map (fun r => (r.1, r.2.1.trace, r.2.2)) =
      some (0, [.mapped 0xC0100000 0x1000, .wrote 0xC0100000 0x10, .wrote 0xC0100010 0x10,
        .wrote 0xC0100020 0xFE0], .Ok) := by decide +kernel
  cases hload : loadTiny kernelVaddr with
  | error e =>
    rw [hload] at hrun
    cases hrun
  | ok r =>
    obtain ⟨fd, st, res⟩ := r
    rw [hload] at hrun
    simp only [Except.toOption, Option.map_some, Option.some.injEq, Prod.mk.injEq] at hrun
    obtain ⟨rfl, htrace, rfl⟩ := hrun
    refine ⟨⟨ELFHeader.ofBytes (imageOf twoClusters (tinyDev kernelVaddr) tinyFile fun _ => 0),
      [⟨1, 0x10, 0xC0100010, 0x10, 0x10, 4⟩]⟩, st, by decide +kernel, rfl, ?_, ?_, fun hconf => ?_⟩
    · rw [htrace]
      exact List.mem_cons_self
    · rw [htrace]
      exact List.mem_cons_of_mem _ List.mem_cons_self
    · refine mapped_not_inUser (by decide) (hconf.1 (.mapped 0xC0100000 0x1000) ?_)
      rw [htrace]
      exact List.mem_cons_self

end HmmOS.Proc
