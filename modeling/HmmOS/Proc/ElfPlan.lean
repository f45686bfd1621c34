import HmmOS.Fs.ReadCorrect
import HmmOS.Proc.Elf
import HmmOS.Proc.Mmap

/-! # The loader as a plan

The plan of a list of headers is the list of the mappings and copies that they need,
and `map_elf_segments` carries out the plan until a step fails.
-/
namespace HmmOS.Proc
open Fs Lib Nonstd Util.Algorithm PHEntry

inductive PlanStep where
  | reject
  | map (addr len : ℕ) (prot : Access) (flags : Flags) (offset : ℕ)
  | copy (offset : ℕ)
  | memcpy (dst from_ n : ℕ)
  | zero (dst n : ℕ)
  deriving DecidableEq, Repr

namespace PHEntry
variable (ph : PHEntry)

def firstPage : List PlanStep :=
  if ¬ pgAligned ph.vaddr then
    let pgStart := floorPg ph.vaddr % 2 ^ 32
    let startOff := ph.vaddr % pgSz
    let endOff := Word.sub 64 (min ph.fileEnd (ceilPg ph.vaddr)) pgStart % 2 ^ 32
    [.map pgStart pgSz ph.prot flagsAnon 0, .copy (floorPg ph.offset % 2 ^ 32),
      .zero pgStart startOff,
      .memcpy (Word.add 32 pgStart startOff) startOff (Word.sub 32 endOff startOff),
      .zero (Word.add 32 pgStart endOff) (Word.sub 32 pgSz endOff)]
  else []

def fullPages : List PlanStep :=
  if ph.fullPgEnd > ph.fullPgStart then
    [.map ph.fullPgStart (Word.sub 32 ph.fullPgEnd ph.fullPgStart) ph.prot flagsFile
      (Word.add 32 ph.offset (Word.sub 32 ph.fullPgStart ph.vaddr))]
  else []

def lastPage : List PlanStep :=
  if ph.fileszCeil > ph.fullPgEnd ∧ ph.fullPgEnd ≥ ph.fullPgStart then
    let pgStart := ph.fullPgEnd
    let endOff := Word.sub 32 ph.fileEnd pgStart
    [.map pgStart pgSz ph.prot flagsAnon 0,
      .copy (Word.add 32 ph.offset (Word.sub 32 pgStart ph.vaddr)), .memcpy pgStart 0 endOff,
      .zero (Word.add 32 pgStart endOff) (Word.sub 32 pgSz endOff)]
  else []

def anonPages : List PlanStep :=
  if ph.memszCeil > ph.fileszCeil then
    [.map ph.fileszCeil (Word.sub 32 ph.memszCeil ph.fileszCeil) ph.prot flagsAnon 0]
  else []

def plan : List PlanStep :=
  if ph.type ≠ typeLoad then []
  else if ph.vaddr % pgSz ≠ ph.offset % pgSz then [.reject]
  else ph.firstPage ++ ph.fullPages ++ ph.lastPage ++ ph.anonPages

end PHEntry

section Exec
variable (fs : Filesystem) (dev : Bytes) (fd : ℕ)

def exec : PlanStep → LoadStep
  | .reject => fun st => return (st, .NonExecutable)
  | .map addr len prot flags offset =>
    mmapStep addr len prot flags (if flags.mapAnon then invalidFD else fd) offset
  | .copy offset => copyPage fs dev fd offset
  | .memcpy dst from_ n => memcpyStep dst from_ n
  | .zero dst n => zeroStep dst n

def execAll : List PlanStep → LoadStep
  | [] => skip
  | step :: steps => checked (exec fs dev fd step) (execAll steps)

theorem checked_skip_left (f : LoadStep) : checked skip f = f := by
  funext st
  simp [checked, skip]

theorem checked_skip_right (f : LoadStep) : checked f skip = f := by
  funext st
  rw [checked]
  cases f st with
  | error e => rfl
  | ok r =>
    obtain ⟨st', res⟩ := r
    by_cases hres : res = .Ok
    · simp only [hres, ok_bind, ne_eq, not_true_eq_false, if_false]
      rfl
    · simp only [ok_bind, ne_eq, hres, not_false_eq_true, if_true]
      rfl

theorem checked_assoc (f g h : LoadStep) : checked (checked f g) h = checked f (checked g h) := by
  funext st
  simp only [checked]
  cases f st with
  | error e => rfl
  | ok r =>
    obtain ⟨st', res⟩ := r
    by_cases hres : res = .Ok <;> simp [hres]

theorem execAll_append (l1 l2 : List PlanStep) :
    execAll fs dev fd (l1 ++ l2) = checked (execAll fs dev fd l1) (execAll fs dev fd l2) := by
  induction l1 with
  | nil => rw [List.nil_append, execAll, checked_skip_left]
  | cons step l1 ih => rw [List.cons_append, execAll, execAll, ih, checked_assoc]

theorem execAll_firstPage (ph : PHEntry) : execAll fs dev fd ph.firstPage = mapFirstPage fs dev fd ph := by
  rw [firstPage, mapFirstPage]
  split_ifs
  · rfl
  · simp only [execAll, exec, checked_skip_right, flagsAnon, if_true]

theorem execAll_fullPages (ph : PHEntry) : execAll fs dev fd ph.fullPages = mapFullPages fd ph := by
  rw [fullPages, mapFullPages]
  split_ifs
  · simp only [execAll, exec, checked_skip_right, flagsFile, Bool.false_eq_true, if_false]
  · rfl

theorem execAll_lastPage (ph : PHEntry) : execAll fs dev fd ph.lastPage = mapLastPage fs dev fd ph := by
  rw [lastPage, mapLastPage]
  split_ifs
  · simp only [execAll, exec, checked_skip_right, flagsAnon, if_true]
  · rfl

theorem execAll_anonPages (ph : PHEntry) : execAll fs dev fd ph.anonPages = mapAnonPages ph := by
  rw [anonPages, mapAnonPages]
  split_ifs
  · simp only [execAll, exec, checked_skip_right, flagsAnon, if_true]
  · rfl

theorem mapSegment_eq (ph : PHEntry) : mapSegment fs dev fd ph = execAll fs dev fd ph.plan := by
  rw [mapSegment, plan]
  split_ifs
  · rfl
  · exact (checked_skip_right _).symm
  · rw [execAll_append, execAll_append, execAll_append, execAll_firstPage, execAll_fullPages,
      execAll_lastPage, execAll_anonPages, checked_assoc, checked_assoc]

theorem mapSegments_eq (phs : List PHEntry) :
    mapSegments fs dev fd phs = execAll fs dev fd (phs.flatMap plan) := by
  induction phs with
  | nil => rfl
  | cons ph phs ih =>
    rw [mapSegments, List.flatMap_cons, execAll_append, ih, mapSegment_eq]

end Exec

namespace PlanStep

def Feasible (vmas : List VirtualMemoryArea) : PlanStep → Prop
  | .reject => False
  | .map addr len _ _ _ => findGap addr len vmas ≠ none
  | .copy offset => offset < 2 ^ 31
  | _ => True

/-- The areas after a step that did not fail, for the binary of this dentry. -/
def after (dentry : Option ℕ) (vmas : List VirtualMemoryArea) : PlanStep → List VirtualMemoryArea
  | .map addr len prot flags offset => vmas.insertIdx ((findGap addr len vmas).getD 0)
      ⟨addr, len, prot, flags, if flags.mapAnon then none else dentry, offset⟩
  | _ => vmas

def effects : PlanStep → List Effect
  | .map addr len _ _ _ => [.mapped addr len]
  | .memcpy dst _ n => [.wrote dst n]
  | .zero dst n => [.wrote dst n]
  | _ => []

/-- What `mmap` and `copy_page` insist on. -/
def Sound : PlanStep → Prop
  | .map addr len _ _ offset => pgAligned addr = true ∧ 0 < len ∧ pgAligned offset = true
  | .copy offset => pgAligned offset = true ∧ offset < 2 ^ 32
  | _ => True

instance (vmas : List VirtualMemoryArea) (step : PlanStep) : Decidable (step.Feasible vmas) := by
  cases step <;> unfold Feasible <;> infer_instance

end PlanStep

def Succeeds (dentry : Option ℕ) : List VirtualMemoryArea → List PlanStep → Prop
  | _, [] => True
  | vmas, step :: steps => step.Feasible vmas ∧ Succeeds dentry (step.after dentry vmas) steps

def afterAll (dentry : Option ℕ) (vmas : List VirtualMemoryArea) (steps : List PlanStep) :
    List VirtualMemoryArea :=
  steps.foldl (PlanStep.after dentry) vmas

structure Binary (fs : Filesystem) (dev : Bytes) (clusters fd : ℕ) (n : Inode) (s : Vfs)
    (p : Process) : Prop where
  volume : Volume fs clusters
  regular : RegularFile fs dev clusters n
  fd_ne : fd ≠ invalidFD
  opened : ∃ f d e, p.file fd = some f ∧ f.dentry = some d ∧ s.dentries d = some e ∧
    s.inodes e.inode = some n

def Process.backing (p : Process) (fd : ℕ) : Option ℕ := (p.file fd).bind File.dentry

section Steps
variable {fs : Filesystem} {dev : Bytes} {clusters fd offset : ℕ} {n : Inode} {st : Loader}
  {f : File} {p : Process} {s : Vfs}

theorem Process.file_setFile (h : p.file fd = some f) (g : File) :
    (p.setFile fd (some g)).file fd = some g := by
  have hlt : fd < p.fds.data.length := by
    by_contra hge
    rw [Process.file, List.getElem?_eq_none (not_lt.mp hge)] at h
    cases h
  simp [Process.file, Process.setFile, hlt]

theorem Binary.setFile (hb : Binary fs dev clusters fd n s p) (hf : p.file fd = some f) (o : ℕ) :
    Binary fs dev clusters fd n s (p.setFile fd (some { f with offset := o })) := by
  obtain ⟨f', d, e, hf', hd, he, hn⟩ := hb.opened
  obtain rfl : f = f' := Option.some.inj (hf.symm.trans hf')
  exact ⟨hb.volume, hb.regular, hb.fd_ne, _, d, e, Process.file_setFile hf _, hd, he, hn⟩

theorem Binary.takeRef {s' : Vfs} {p' : Process} {dentry : Option ℕ}
    (hb : Binary fs dev clusters fd n s p) (ht : takeRef s dentry = .ok s') (hp : p'.fds = p.fds) :
    Binary fs dev clusters fd n s' p' := by
  obtain ⟨f, d, e, hf, hd, he, hn⟩ := hb.opened
  have hf' : p'.file fd = some f := by rw [Process.file, hp]; exact hf
  refine ⟨hb.volume, hb.regular, hb.fd_ne, f, d, ?_⟩
  cases dentry with
  | none =>
    obtain rfl : s = s' := Except.ok.inj ht
    exact ⟨e, hf', hd, he, hn⟩
  | some d' =>
    rw [Proc.takeRef, Dentry.incRc, Vfs.getDentry] at ht
    cases he' : s.dentries d' with
    | none =>
      rw [he'] at ht
      cases ht
    | some e' =>
      rw [he'] at ht
      obtain rfl := Except.ok.inj ht
      by_cases hdd : d = d'
      · obtain rfl : e = e' := Option.some.inj (he.symm.trans (hdd ▸ he'))
        refine ⟨{ e with rc := e.rc + 1 }, hf', hd, ?_, hn⟩
        rw [hdd]
        exact Function.update_self _ _ _
      · exact ⟨e, hf', hd, (Function.update_of_ne hdd _ _).trans he, hn⟩

/-- The dentry of a mapping: that of the file, or none for an anonymous one. -/
theorem Binary.validArgs (hb : Binary fs dev clusters fd n s p) {addr : ℕ}
    (ha : pgAligned addr = true) (ho : pgAligned offset = true) (flags : Flags) :
    ValidArgs s p addr flags (if flags.mapAnon then invalidFD else fd) offset
      (if flags.mapAnon then none else p.backing fd) := by
  obtain ⟨f, d, e, hf, hd, he, -⟩ := hb.opened
  have hback : p.backing fd = some d := by rw [Process.backing, hf, Option.bind_some, hd]
  cases hanon : flags.mapAnon with
  | true => exact ⟨by simp [Process.mmapDentry], nofun, by simp [hanon], ha, ho⟩
  | false =>
    rw [if_neg Bool.false_ne_true, if_neg Bool.false_ne_true, hback]
    refine ⟨?_, fun d' hd' => ?_, by simp [hanon], ha, ho⟩
    · rw [Process.mmapDentry, if_neg hb.fd_ne, hf]
      exact congrArg Except.ok hd
    · exact ⟨e, Option.some.inj hd' ▸ he⟩

theorem mmapStep_spec (hb : Binary fs dev clusters fd n st.vfs st.proc) {addr len : ℕ}
    (ha : pgAligned addr = true) (hlen : 0 < len) (ho : pgAligned offset = true) (prot : Access)
    (flags : Flags) : (findGap addr len st.proc.vmas = none ∧
      mmapStep addr len prot flags (if flags.mapAnon then invalidFD else fd) offset st =
        .ok (st, .MappingExists)) ∨ ∃ s' k, findGap addr len st.proc.vmas = some k ∧
      mmapStep addr len prot flags (if flags.mapAnon then invalidFD else fd) offset st =
        .ok ({ st with
          vfs := s'
          proc := { st.proc with
            vmas := st.proc.vmas.insertIdx k ⟨addr, len, prot, flags,
              if flags.mapAnon then none else st.proc.backing fd, offset⟩ }
          trace := st.trace ++ [.mapped addr len] }, .Ok) ∧
      ∀ p', p'.fds = st.proc.fds → Binary fs dev clusters fd n s' p' := by
  have hv := hb.validArgs ha ho flags
  rcases Process.mmap_valid hv hlen prot with ⟨hk, hm⟩ | ⟨s', k, ht, hk, hm⟩
  · refine .inl ⟨hk, ?_⟩
    rw [mmapStep, hm]
    rfl
  · refine .inr ⟨s', k, hk, ?_, fun p' hp' => hb.takeRef ht hp'⟩
    rw [mmapStep, hm]
    rfl

theorem Process.lseek_negative (hf : p.file fd = some f) (hge : 2 ^ 31 ≤ offset)
    (hlt : offset < 2 ^ 32) : p.lseek fd (Int.bmod offset (2 ^ 32)) .Set = (p, .InvalidArgs) := by
  rw [Process.lseek, hf]
  exact if_pos (Word.bmod_natCast_neg hge hlt)

theorem Process.lseek_set (hf : p.file fd = some f) (hlt : offset < 2 ^ 31) :
    p.lseek fd (Int.bmod offset (2 ^ 32)) .Set =
      (p.setFile fd (some { f with offset := offset }), .Ok) := by
  rw [Process.lseek, hf, Word.bmod_natCast hlt]
  exact if_neg (not_lt.mpr (Int.natCast_nonneg offset))

theorem Binary.read_eq (hb : Binary fs dev clusters fd n s p) (hf : p.file fd = some f)
    (hlt : f.offset < 2 ^ 32) (buf : Bytes) : ∃ p' buf', p.read fs dev s fd buf pgSz =
        .ok (p', buf', .ok (min pgSz (n.size - f.offset))) ∧
      p'.vmas = p.vmas ∧ p'.backing fd = p.backing fd ∧ Binary fs dev clusters fd n s p' ∧
      ∀ i, buf' i = if i < min pgSz (n.size - f.offset) then n.fileByte fs dev (f.offset + i) else buf i := by
  obtain ⟨f', d, e, hf', hd, he, hn⟩ := hb.opened
  obtain rfl : f = f' := Option.some.inj (hf.symm.trans hf')
  obtain ⟨buf', hread, hbytes⟩ := read_contents hb.volume hb.regular buf f.offset pgSz
  rw [Word.bmod_natCast ((min_le_left _ _).trans_lt (by decide))] at hread
  have hnode : (f.dentry.bind fun d => (s.dentries d).bind fun e => s.inodes e.inode) = some n := by
    rw [hd, Option.bind_some, he, Option.bind_some, hn]
  refine ⟨p.setFile fd (some { f with offset :=
    (f.offset + min pgSz (n.size - f.offset)) % 2 ^ 64 }), buf', ?_, rfl, ?_, hb.setFile hf _, hbytes⟩
  swap
  · rw [Process.backing, Process.backing, Process.file_setFile hf, hf]
    rfl
  rw [Process.read, hf]
  dsimp only
  rw [hnode]
  dsimp only
  rw [Nat.mod_eq_of_lt hlt, hread]
  rfl

section
variable (hb : Binary fs dev clusters fd n st.vfs st.proc)
include hb

/-- A page is copied to the buffer exactly if its offset is not negative. -/
theorem copyPage_spec (ha : pgAligned offset = true) (hlt : offset < 2 ^ 32) :
    (2 ^ 31 ≤ offset ∧ copyPage fs dev fd offset st = .ok (st, .InvalidArgs)) ∨ (offset < 2 ^ 31 ∧ ∃ p' buf',
      copyPage fs dev fd offset st = .ok ({ st with proc := p', buf := buf' }, .Ok) ∧
      p'.vmas = st.proc.vmas ∧ p'.backing fd = st.proc.backing fd ∧
      Binary fs dev clusters fd n st.vfs p' ∧
      ∀ i < pgSz, offset + i < n.size → buf' i = n.fileByte fs dev (offset + i)) := by
  obtain ⟨f, -, -, hf, -⟩ := hb.opened
  rw [copyPage, if_neg (not_not.mpr ha), checked, lseekStep]
  rcases Nat.lt_or_ge offset (2 ^ 31) with hsmall | hbig
  · have hback : (st.proc.setFile fd (some { f with offset := offset })).backing fd =
        st.proc.backing fd := by
      rw [Process.backing, Process.backing, Process.file_setFile hf, hf]
      rfl
    obtain ⟨p', buf', hread, hvmas, hback', hb', hbytes⟩ := (hb.setFile hf offset).read_eq
      (Process.file_setFile hf { f with offset := offset }) hlt st.buf
    refine .inr ⟨hsmall, p', buf', ?_, hvmas, hback'.trans hback, hb', fun i hi hsize => ?_⟩
    · rw [Process.lseek_set hf hsmall]
      simp only [pure_bind, ne_eq, not_true_eq_false, if_false]
      rw [readStep]
      rw [hread]
      rfl
    · rw [hbytes i, if_pos]
      dsimp only
      omega
  · refine .inl ⟨hbig, ?_⟩
    rw [Process.lseek_negative hf hbig hlt]
    rfl

theorem exec_spec {step : PlanStep} (hs : step.Sound) : ∃ st' res, exec fs dev fd step st = .ok (st', res) ∧
      Binary fs dev clusters fd n st'.vfs st'.proc ∧ if step.Feasible st.proc.vmas then
        res = .Ok ∧ st'.trace = st.trace ++ step.effects ∧ st'.proc.backing fd = st.proc.backing fd ∧
          st'.proc.vmas = step.after (st.proc.backing fd) st.proc.vmas else res ≠ .Ok ∧ st'.trace = st.trace := by
  cases step with
  | reject => exact ⟨st, .NonExecutable, rfl, hb, by simp [PlanStep.Feasible]⟩
  | map addr len prot flags offset =>
    rcases mmapStep_spec hb hs.1 hs.2.1 hs.2.2 prot flags with
      ⟨hk, hm⟩ | ⟨s', k, hk, hm, hb'⟩
    · exact ⟨st, .MappingExists, hm, hb, by simp [PlanStep.Feasible, hk]⟩
    · refine ⟨_, .Ok, hm, hb' _ rfl, ?_⟩
      rw [if_pos (by simp [PlanStep.Feasible, hk])]
      refine ⟨rfl, rfl, rfl, ?_⟩
      rw [PlanStep.after, hk, Option.getD_some]
  | copy offset =>
    rcases copyPage_spec hb hs.1 hs.2 with ⟨hbig, hm⟩ | ⟨hsmall, p', buf', hm, hvmas, hback, hb', -⟩
    · have hno : ¬ (PlanStep.copy offset).Feasible st.proc.vmas := not_lt.mpr hbig
      exact ⟨st, .InvalidArgs, hm, hb, by rw [if_neg hno]; exact ⟨nofun, rfl⟩⟩
    · have hyes : (PlanStep.copy offset).Feasible st.proc.vmas := hsmall
      refine ⟨_, .Ok, hm, hb', ?_⟩
      rw [if_pos hyes]
      exact ⟨rfl, (List.append_nil _).symm, hback, hvmas⟩
  | memcpy dst from_ k =>
    have hyes : (PlanStep.memcpy dst from_ k).Feasible st.proc.vmas := trivial
    exact ⟨_, .Ok, rfl, hb, by rw [if_pos hyes]; exact ⟨rfl, rfl, rfl, rfl⟩⟩
  | zero dst k =>
    have hyes : (PlanStep.zero dst k).Feasible st.proc.vmas := trivial
    exact ⟨_, .Ok, rfl, hb, by rw [if_pos hyes]; exact ⟨rfl, rfl, rfl, rfl⟩⟩

theorem execAll_of_succeeds {steps : List PlanStep} (hs : ∀ step ∈ steps, step.Sound)
    (h : Succeeds (st.proc.backing fd) st.proc.vmas steps) (rest : List PlanStep) :
    ∃ st', execAll fs dev fd (steps ++ rest) st = execAll fs dev fd rest st' ∧
      Binary fs dev clusters fd n st'.vfs st'.proc ∧ st'.trace = st.trace ++ steps.flatMap PlanStep.effects ∧
      st'.proc.vmas = afterAll (st.proc.backing fd) st.proc.vmas steps := by
  induction steps generalizing st with
  | nil => exact ⟨st, rfl, hb, (List.append_nil _).symm, rfl⟩
  | cons step steps ih =>
    obtain ⟨st1, res, hexec, hb1, hres⟩ := exec_spec hb (hs step (by simp))
    rw [if_pos h.1] at hres
    obtain ⟨rfl, htrace, hback, hvmas⟩ := hres
    have hrest : Succeeds (st1.proc.backing fd) st1.proc.vmas steps := by
      rw [hback, hvmas]
      exact h.2
    obtain ⟨st', hall, hb', htrace', hvmas'⟩ := ih hb1 (fun step' hm => hs step' (by simp [hm])) hrest
    refine ⟨st', ?_, hb', ?_, ?_⟩
    · rw [List.cons_append, execAll, checked, hexec, ← hall]
      rfl
    · rw [htrace', htrace, List.flatMap_cons, List.append_assoc]
    · rw [hvmas', hback, hvmas]
      rfl

theorem execAll_of_fails {done rest : List PlanStep} {bad : PlanStep}
    (hs : ∀ step ∈ done ++ bad :: rest, step.Sound) (hdone : Succeeds (st.proc.backing fd) st.proc.vmas done)
    (hbad : ¬ bad.Feasible (afterAll (st.proc.backing fd) st.proc.vmas done)) :
    ∃ st' res, execAll fs dev fd (done ++ bad :: rest) st = .ok (st', res) ∧ res ≠ .Ok ∧
      st'.trace = st.trace ++ done.flatMap PlanStep.effects := by
  obtain ⟨st1, hall, hb1, htrace, hvmas⟩ := execAll_of_succeeds hb
    (fun step hm => hs step (by simp [hm])) hdone (bad :: rest)
  obtain ⟨st', res, hexec, -, hres⟩ := exec_spec hb1 (hs bad (by simp))
  rw [if_neg (by rw [hvmas]; exact hbad)] at hres
  refine ⟨st', res, ?_, hres.1, hres.2.trans htrace⟩
  rw [hall, execAll, checked, hexec]
  simp only [ok_bind, ne_eq, hres.1, not_false_eq_true, if_true]
  rfl

end

end Steps

theorem succeeds_or_fails (dentry : Option ℕ) (vmas : List VirtualMemoryArea) (steps : List PlanStep) :
    Succeeds dentry vmas steps ∨ ∃ done bad rest, steps = done ++ bad :: rest ∧
      Succeeds dentry vmas done ∧ ¬ bad.Feasible (afterAll dentry vmas done) := by
  induction steps generalizing vmas with
  | nil => exact .inl trivial
  | cons step steps ih =>
    by_cases hf : step.Feasible vmas
    · rcases ih (step.after dentry vmas) with h | ⟨done, bad, rest, rfl, hdone, hbad⟩
      · exact .inl ⟨hf, h⟩
      · exact .inr ⟨step :: done, bad, rest, rfl, ⟨hf, hdone⟩, hbad⟩
    · exact .inr ⟨[], step, steps, rfl, trivial, hf⟩

structure PHEntry.Fields (ph : PHEntry) : Prop where
  offset_lt : ph.offset < 2 ^ 32
  vaddr_lt : ph.vaddr < 2 ^ 32
  filesz_lt : ph.filesz < 2 ^ 32
  memsz_lt : ph.memsz < 2 ^ 32

structure PHEntry.NoWrap (ph : PHEntry) : Prop where
  file : 4096 * ((ph.vaddr + ph.filesz + 4095) / 4096) < 2 ^ 32
  mem : 4096 * ((ph.vaddr + ph.memsz + 4095) / 4096) < 2 ^ 32

section NoWrap
variable {ph : PHEntry}

theorem floorPg_of_lt {a : ℕ} (h : a < 2 ^ 32) : floorPg a % 2 ^ 32 = 4096 * (a / 4096) := by
  rw [floorPg_eq (h.trans (by norm_num)), Nat.mul_comm, Nat.mod_eq_of_lt (by omega)]

theorem ceilPg_of_lt {a : ℕ} (h : a < 2 ^ 32) : ceilPg a = 4096 * ((a + 4095) / 4096) := by
  rw [ceilPg_eq (by omega), Nat.mul_comm]

theorem PHEntry.NoWrap.pages (h : ph.NoWrap) : ph.fileEnd = ph.vaddr + ph.filesz ∧
    ph.fullPgStart = 4096 * ((ph.vaddr + 4095) / 4096) ∧ ph.fullPgEnd = 4096 * ((ph.vaddr + ph.filesz) / 4096) ∧
    ph.fileszCeil = 4096 * ((ph.vaddr + ph.filesz + 4095) / 4096) ∧
    ph.memszCeil = 4096 * ((ph.vaddr + ph.memsz + 4095) / 4096) := by
  obtain ⟨hfile, hmem⟩ := h
  have hfe : ph.fileEnd = ph.vaddr + ph.filesz := Word.add_of_lt (by omega)
  have hme : ph.memEnd = ph.vaddr + ph.memsz := Word.add_of_lt (by omega)
  rw [fullPgStart, fullPgEnd, fileszCeil, memszCeil, hfe, hme, ceilPg_of_lt (by omega), floorPg_of_lt (by omega),
    ceilPg_of_lt (by omega), ceilPg_of_lt (by omega)]
  omega

/-- Where the bytes of the file end in the page of case 1. -/
def PHEntry.firstEnd (ph : PHEntry) : ℕ :=
  min (ph.vaddr + ph.filesz) (4096 * (ph.vaddr / 4096) + 4096)

theorem PHEntry.NoWrap.firstPage_eq (h : ph.NoWrap) (ho : ph.offset < 2 ^ 32) : ph.firstPage =
    if ph.vaddr % 4096 = 0 then [] else [.map (4096 * (ph.vaddr / 4096)) 4096 ph.prot flagsAnon 0,
        .copy (4096 * (ph.offset / 4096)), .zero (4096 * (ph.vaddr / 4096)) (ph.vaddr % 4096),
        .memcpy ph.vaddr (ph.vaddr % 4096) (ph.firstEnd - ph.vaddr),
        .zero ph.firstEnd (4096 * (ph.vaddr / 4096) + 4096 - ph.firstEnd)] := by
  have hfile := h.file
  have hv : ph.vaddr < 2 ^ 32 := by omega
  rw [firstPage, h.pages.1]
  by_cases hal : ph.vaddr % 4096 = 0
  · rw [if_neg (not_not.mpr (pgAligned_iff.mpr hal)), if_pos hal]
  · have hup : 4096 * ((ph.vaddr + 4095) / 4096) = 4096 * (ph.vaddr / 4096) + 4096 := by omega
    have hlo : ph.vaddr ≤ ph.firstEnd := by
      rw [firstEnd]
      omega
    have hhi : ph.firstEnd ≤ 4096 * (ph.vaddr / 4096) + 4096 := min_le_right _ _
    have hend : Word.sub 64 ph.firstEnd (4096 * (ph.vaddr / 4096)) % 2 ^ 32 =
        ph.firstEnd - 4096 * (ph.vaddr / 4096) := by
      rw [Word.sub_of_le (by omega) (by omega), Nat.mod_eq_of_lt (by omega)]
    rw [if_pos (mt pgAligned_iff.mp hal), if_neg hal]
    dsimp only
    rw [floorPg_of_lt hv, floorPg_of_lt ho, ceilPg_of_lt hv, hup,
      ← firstEnd, hend, pgSz_eq, Word.add_of_lt (by omega),
      Word.sub_of_le (by omega) (by omega), Word.add_of_lt (by omega), Word.sub_of_le (by omega) (by omega),
      show 4096 * (ph.vaddr / 4096) + ph.vaddr % 4096 = ph.vaddr by omega,
      show ph.firstEnd - 4096 * (ph.vaddr / 4096) - ph.vaddr % 4096 = ph.firstEnd - ph.vaddr by omega,
      show 4096 * (ph.vaddr / 4096) + (ph.firstEnd - 4096 * (ph.vaddr / 4096)) = ph.firstEnd by omega,
      show 4096 - (ph.firstEnd - 4096 * (ph.vaddr / 4096)) =
        4096 * (ph.vaddr / 4096) + 4096 - ph.firstEnd by omega]

theorem PHEntry.NoWrap.fullPages_eq (h : ph.NoWrap) : ph.fullPages = if ph.fullPgStart < ph.fullPgEnd then
      [.map ph.fullPgStart (ph.fullPgEnd - ph.fullPgStart) ph.prot flagsFile
        (Word.add 32 ph.offset (ph.fullPgStart - ph.vaddr))] else [] := by
  have hfile := h.file
  have hpages := h.pages
  rw [fullPages]
  split_ifs with hgt
  · rw [Word.sub_of_le hgt.le (by omega), Word.sub_of_le (by omega) (by omega)]
  · rfl

theorem PHEntry.NoWrap.lastPage_eq (h : ph.NoWrap) : ph.lastPage =
    if ph.fullPgEnd < ph.fileszCeil ∧ ph.fullPgStart ≤ ph.fullPgEnd then
      [.map ph.fullPgEnd 4096 ph.prot flagsAnon 0, .copy (Word.add 32 ph.offset (ph.fullPgEnd - ph.vaddr)),
        .memcpy ph.fullPgEnd 0 (ph.fileEnd - ph.fullPgEnd), .zero ph.fileEnd (4096 - (ph.fileEnd - ph.fullPgEnd))]
    else [] := by
  have hfile := h.file
  have hpages := h.pages
  rw [lastPage]
  split_ifs with hgt
  · dsimp only
    rw [@Word.sub_of_le 32 _ ph.vaddr (by omega) (by omega), @Word.sub_of_le 32 ph.fileEnd _ (by omega) (by omega),
      @Word.add_of_lt 32 ph.fullPgEnd _ (by omega), pgSz_eq, Word.sub_of_le (by omega) (by omega),
      Nat.add_sub_of_le (by omega : ph.fullPgEnd ≤ ph.fileEnd)]
  · rfl

theorem PHEntry.anonPages_eq (ph : PHEntry) : ph.anonPages = if ph.fileszCeil < ph.memszCeil then
      [.map ph.fileszCeil (ph.memszCeil - ph.fileszCeil) ph.prot flagsAnon 0] else [] := by
  rw [anonPages]
  split_ifs with hgt
  · rw [Word.sub_of_le hgt.le (Nat.mod_lt _ (by norm_num))]
  · rfl

end NoWrap

theorem pgAligned_mul (k : ℕ) : pgAligned (4096 * k) = true := pgAligned_iff.mpr (by omega)

theorem pgAligned_mod {a : ℕ} (h : pgAligned a = true) : pgAligned (a % 2 ^ 32) = true := by
  rw [pgAligned_iff] at h ⊢
  omega

theorem PHEntry.forall_plan {ph : PHEntry} {P : PlanStep → Prop} (hreject : P .reject)
    (h : ph.vaddr % 4096 = ph.offset % 4096 → (∀ step ∈ ph.firstPage, P step) ∧ (∀ step ∈ ph.fullPages, P step) ∧
      (∀ step ∈ ph.lastPage, P step) ∧ ∀ step ∈ ph.anonPages, P step) : ∀ step ∈ ph.plan, P step := by
  rw [plan]
  split_ifs with htype hcong
  · simp
  · simpa using hreject
  · obtain ⟨h1, h2, h3, h4⟩ := h (not_not.mp hcong)
    simp only [List.forall_mem_append]
    exact ⟨⟨⟨h1, h2⟩, h3⟩, h4⟩

theorem PHEntry.plan_sound {ph : PHEntry} (hf : ph.Fields) : ∀ step ∈ ph.plan, step.Sound := by
  have hv := hf.vaddr_lt
  have ho := hf.offset_lt
  have hfile : ph.fileEnd < 2 ^ 32 := Nat.mod_lt _ (by norm_num)
  have hstart : pgAligned ph.fullPgStart = true := by
    rw [fullPgStart, ceilPg_of_lt hv]
    exact pgAligned_mod (pgAligned_mul _)
  have hend : pgAligned ph.fullPgEnd = true := by
    rw [fullPgEnd, floorPg_of_lt hfile]
    exact pgAligned_mul _
  have hceil : pgAligned ph.fileszCeil = true := by
    rw [fileszCeil, ceilPg_of_lt hfile]
    exact pgAligned_mod (pgAligned_mul _)
  have hzero : pgAligned 0 = true := by decide
  have hpg : 0 < pgSz := by decide
  refine forall_plan trivial fun hcong => ?_
  -- offsets keep the alignment, also when the sum wraps
  have hshift : ∀ a, pgAligned a = true → a < 2 ^ 32 →
      pgAligned (Word.add 32 ph.offset (Word.sub 32 a ph.vaddr)) = true := by
    intro a ha halt
    rw [pgAligned_iff] at ha ⊢
    simp only [Word.add, Word.sub]
    omega
  have hstartlt : ph.fullPgStart < 2 ^ 32 := Nat.mod_lt _ (by norm_num)
  have hendlt : ph.fullPgEnd < 2 ^ 32 := Nat.mod_lt _ (by norm_num)
  have hmemlt : ph.memszCeil < 2 ^ 32 := Nat.mod_lt _ (by norm_num)
  rw [firstPage, fullPages, lastPage, anonPages, floorPg_of_lt hv, floorPg_of_lt ho]
  refine ⟨?_, ?_, ?_, ?_⟩ <;> split_ifs with hgt <;>
    simp only [List.forall_mem_cons, List.not_mem_nil, false_implies, implies_true, and_true]
  · exact ⟨⟨pgAligned_mul _, hpg, hzero⟩, ⟨pgAligned_mul _, by omega⟩, trivial, trivial, trivial⟩
  · exact ⟨hstart, by rw [Word.sub_of_le hgt.le hendlt]; omega, hshift _ hstart hstartlt⟩
  · exact ⟨⟨hend, hpg, hzero⟩, ⟨hshift _ hend hendlt, Nat.mod_lt _ (by norm_num)⟩, trivial, trivial⟩
  · exact ⟨hceil, by rw [Word.sub_of_le hgt.le hmemlt]; omega, hzero⟩

end HmmOS.Proc
