import HmmOS.Proc.ElfPlan

/-! # Seeking and reading

The position has 64 bits, but `Inode::read` takes 32 of them and returns the number of
bytes as a signed number.
-/
namespace HmmOS.Proc
open Fs Lib Nonstd

inductive FileCall where
  | lseek (offset : ℤ) (whence : Seek)
  | read (buf : Bytes) (count : ℕ)

inductive Answer where
  | sought (res : Result)
  | data (bytes : List UInt8)
  | failed (res : Result)
  deriving DecidableEq, Repr

def FileCall.Fits : FileCall → Prop
  | .lseek offset _ => -2 ^ 31 ≤ offset ∧ offset < 2 ^ 31
  | .read _ count => count < 2 ^ 32

instance : DecidablePred FileCall.Fits
  | .lseek _ _ => inferInstanceAs (Decidable (_ ∧ _))
  | .read _ _ => inferInstanceAs (Decidable (_ < _))

def FileCall.run (fs : Filesystem) (dev : Bytes) (s : Vfs) (fd : ℕ) (p : Process) :
    FileCall → Except Stop (Process × Answer)
  | .lseek offset whence =>
    let (p, res) := p.lseek fd offset whence
    return (p, .sought res)
  | .read buf count => do
    let (p, buf, r) ← p.read fs dev s fd buf count
    match r with
    | .ok rval => return (p, .data ((List.range rval).map buf))
    | .error res => return (p, .failed res)

def runCalls (fs : Filesystem) (dev : Bytes) (s : Vfs) (fd : ℕ) :
    List FileCall → Process → Except Stop (Process × List Answer)
  | [], p => return (p, [])
  | c :: calls, p => do
    let (p, a) ← c.run fs dev s fd p
    let (p, as) ← runCalls fs dev s fd calls p
    return (p, a :: as)

def fileContents (fs : Filesystem) (dev : Bytes) (n : Inode) : List UInt8 :=
  (List.range n.size).map (n.fileByte fs dev)

/-- A position is a signed 64-bit number that is not negative. -/
def position (v : ℤ) : Except Result ℕ :=
  if 0 ≤ v ∧ v < 2 ^ 63 then .ok v.toNat else .error .InvalidArgs

def seekPosition (off : ℕ) (offset : ℤ) : Seek → Except Result ℕ
  | .Set => position offset
  | .Cur => position (off + offset)
  | .End => .error .Unsupported

/-- The new position and the answer of a call on a file with these bytes. -/
def FileCall.spec (contents : List UInt8) (off : ℕ) : FileCall → ℕ × Answer
  | .lseek offset whence => match seekPosition off offset whence with
    | .ok off => (off, .sought .Ok)
    | .error res => (off, .sought res)
  | .read _ count =>
    let bytes := (contents.drop off).take count
    (off + bytes.length, .data bytes)

def specCalls (contents : List UInt8) : List FileCall → ℕ → ℕ × List Answer
  | [], off => (off, [])
  | c :: calls, off =>
    let (off, a) := c.spec contents off
    let (off, as) := specCalls contents calls off
    (off, a :: as)

/-- A read is at a position whose lower half does not lead back into the file, and its bytes can be
counted by a signed 32-bit number. -/
def FileCall.InRange (size off : ℕ) : FileCall → Prop
  | .lseek _ _ => True
  | .read _ count => (off < 2 ^ 32 ∨ size ≤ off % 2 ^ 32 ∨ count = 0) ∧ min count (size - off) < 2 ^ 31

instance (size off : ℕ) : DecidablePred (FileCall.InRange size off)
  | .lseek _ _ => .isTrue trivial
  | .read _ _ => inferInstanceAs (Decidable (_ ∧ _))

/-- All reads are in range, at the positions the calls before them lead to. -/
def CallsInRange (contents : List UInt8) : List FileCall → ℕ → Prop
  | [], _ => True
  | c :: calls, off =>
    c.InRange contents.length off ∧ CallsInRange contents calls (c.spec contents off).1

instance CallsInRange.decidable (contents : List UInt8) :
    ∀ calls off, Decidable (CallsInRange contents calls off)
  | [], _ => .isTrue trivial
  | _ :: calls, _ => @instDecidableAnd _ _ _ (CallsInRange.decidable contents calls _)

def File.inode (s : Vfs) (f : File) : Option Inode :=
  f.dentry.bind fun d => (s.dentries d).bind fun e => s.inodes e.inode

section Conform
variable {fs : Filesystem} {dev : Bytes} {clusters : ℕ} {n : Inode} {s : Vfs} {fd : ℕ}
  {c : FileCall} {f : File} {p : Process}

theorem contents_length : (fileContents fs dev n).length = n.size := by simp [fileContents]

theorem contents_part (off count : ℕ) : ((fileContents fs dev n).drop off).take count =
    (List.range (min count (n.size - off))).map fun i => n.fileByte fs dev (off + i) := by
  apply List.ext_getElem
  · simp [contents_length]
  · intro i _ _
    simp [fileContents]

theorem length_part (off count : ℕ) :
    (((fileContents fs dev n).drop off).take count).length = min count (n.size - off) := by
  simp [contents_length]

theorem position_bmod {v : ℤ} (hlo : -2 ^ 31 ≤ v) (hhi : v < 2 ^ 63 + 2 ^ 31) :
    position v = if Int.bmod v (2 ^ 64) < 0 then .error .InvalidArgs else .ok (Int.bmod v (2 ^ 64)).toNat := by
  rw [position]
  rcases lt_or_ge v (2 ^ 63) with hlt | hge
  · rw [Int.bmod_eq_of_le (by omega) (by omega)]
    split_ifs <;> first | rfl | omega
  · have hneg : Int.bmod v (2 ^ 64) < 0 := by
      rw [Int.bmod_def, Int.emod_eq_of_lt (by omega) (by omega), if_neg (by omega)]
      omega
    rw [if_pos hneg, if_neg (by omega)]

theorem Process.lseek_spec (hf : p.file fd = some f) (hpos : f.offset < 2 ^ 63) {offset : ℤ}
    (hlo : -2 ^ 31 ≤ offset) (hhi : offset < 2 ^ 31) (whence : Seek) :
    p.lseek fd offset whence = match seekPosition f.offset offset whence with
      | .ok off => (p.setFile fd (some { f with offset := off }), .Ok)
      | .error res => (p, res) := by
  rw [Process.lseek, hf]
  cases whence with
  | Set =>
    dsimp only [seekPosition]
    rw [position]
    split_ifs <;> first | rfl | omega
  | Cur =>
    dsimp only [seekPosition]
    rw [position_bmod (by omega) (by omega)]
    split_ifs <;> rfl
  | End => rfl

section
variable (hv : Volume fs clusters) (hr : RegularFile fs dev clusters n) (hf : p.file fd = some f)
include hv hr hf

/-- A read starts at the lower half of the position, and stops at a negative number of bytes. -/
theorem Process.read_run (hn : f.inode s = some n) (hpos : f.offset < 2 ^ 63) (buf : Bytes)
    (count : ℕ) {m : ℕ} (hm : m = min count (n.size - f.offset % 2 ^ 32)) :
    FileCall.run fs dev s fd p (.read buf count) = if m < 2 ^ 31 then
        .ok (p.setFile fd (some { f with offset := f.offset + m }),
          .data (((fileContents fs dev n).drop (f.offset % 2 ^ 32)).take count))
      else .error .assertion := by
  rcases read_contents hv hr buf (f.offset % 2 ^ 32) count with ⟨buf', hread, hbytes⟩
  have hmsize : m < 2 ^ 32 := by
    have := hr.size_lt
    omega
  rw [← hm] at hread hbytes
  rw [FileCall.run, Process.read, hf]
  dsimp only
  rw [File.inode] at hn
  rw [hn]
  dsimp only
  rw [hread]
  dsimp only
  by_cases hsmall : m < 2 ^ 31
  · have hpart : (List.range m).map buf' =
        ((fileContents fs dev n).drop (f.offset % 2 ^ 32)).take count := by
      rw [contents_part, ← hm]
      apply List.map_congr_left
      intro i hi
      rw [hbytes i, if_pos (List.mem_range.mp hi)]
    have hsum : f.offset + m < 2 ^ 64 := (Nat.add_lt_add hpos hsmall).trans (by norm_num)
    rw [if_pos hsmall, Word.bmod_natCast hsmall, if_neg (not_lt.mpr (Int.natCast_nonneg m)),
      Int.toNat_natCast, Nat.mod_eq_of_lt hsum, ← hpart]
    rfl
  · rw [if_neg hsmall, if_pos (Word.bmod_natCast_neg (not_lt.mp hsmall) hmsize)]
    rfl

theorem FileCall.run_inRange (hn : f.inode s = some n) (hpos : f.offset < 2 ^ 63) (hc : c.Fits)
    (hin : c.InRange n.size f.offset) :
    ∃ p', c.run fs dev s fd p = .ok (p', (c.spec (fileContents fs dev n) f.offset).2) ∧
      p'.file fd = some { f with offset := (c.spec (fileContents fs dev n) f.offset).1 } := by
  cases c with
  | lseek offset whence =>
    rw [FileCall.run, Process.lseek_spec hf hpos hc.1 hc.2, FileCall.spec]
    cases seekPosition f.offset offset whence with
    | ok off => exact ⟨_, rfl, Process.file_setFile hf _⟩
    | error res => exact ⟨p, rfl, hf⟩
  | read buf count =>
    -- Either nothing is cut off, or both read nothing.
    have hsame : min count (n.size - f.offset % 2 ^ 32) = min count (n.size - f.offset) ∧
        ((fileContents fs dev n).drop (f.offset % 2 ^ 32)).take count =
          ((fileContents fs dev n).drop f.offset).take count := by
      rcases hin.1 with hlt | hge
      · rw [Nat.mod_eq_of_lt hlt]
        exact ⟨rfl, rfl⟩
      · have hzero : min count (n.size - f.offset % 2 ^ 32) = min count (n.size - f.offset) := by
          omega
        have hnone : min count (n.size - f.offset) = 0 := by
          omega
        rw [contents_part, contents_part, hzero, hnone]
        exact ⟨rfl, rfl⟩
    rw [Process.read_run hv hr hf hn hpos buf count rfl, hsame.1, hsame.2, if_pos hin.2,
      FileCall.spec, length_part]
    exact ⟨_, rfl, Process.file_setFile hf _⟩

/-- A call out of range does something else, if it returns. -/
theorem FileCall.run_not_inRange (hn : f.inode s = some n) (hpos : f.offset < 2 ^ 63)
    (hin : ¬ c.InRange n.size f.offset) (p' : Process) :
    c.run fs dev s fd p ≠ .ok (p', (c.spec (fileContents fs dev n) f.offset).2) := by
  cases c with
  | lseek offset whence => exact absurd trivial hin
  | read buf count =>
    rw [Process.read_run hv hr hf hn hpos buf count rfl, FileCall.spec]
    split_ifs with hsmall
    · intro h
      have hlen := congrArg List.length (Answer.data.inj (Prod.mk.inj (Except.ok.inj h)).2)
      rw [length_part, length_part] at hlen
      apply hin
      rcases Nat.lt_or_ge f.offset (2 ^ 32) with hlt | hge
      · rw [Nat.mod_eq_of_lt hlt] at hsmall
        exact ⟨.inl hlt, hsmall⟩
      · have := hr.size_lt
        exact ⟨.inr (by omega), by omega⟩
    · nofun

end

theorem FileCall.spec_position {off : ℕ} (hr : RegularFile fs dev clusters n) (hpos : off < 2 ^ 63)
    (c : FileCall) : (c.spec (fileContents fs dev n) off).1 < 2 ^ 63 := by
  have hposition : ∀ {v : ℤ} {off' : ℕ}, position v = .ok off' → off' < 2 ^ 63 := by
    intro v off' h
    rw [position] at h
    split_ifs at h with hv
    obtain rfl := Except.ok.inj h
    omega
  cases c with
  | lseek offset whence =>
    rw [FileCall.spec]
    cases h : seekPosition off offset whence with
    | error res => exact hpos
    | ok off' =>
      cases whence with
      | Set => exact hposition h
      | Cur => exact hposition h
      | End => cases h
  | read buf count =>
    have := hr.size_lt
    rw [FileCall.spec, length_part]
    omega

theorem runCalls_cons {calls : List FileCall} {p' : Process} {a : Answer} {as : List Answer} :
    runCalls fs dev s fd (c :: calls) p = .ok (p', a :: as) ↔
      ∃ p1, c.run fs dev s fd p = .ok (p1, a) ∧ runCalls fs dev s fd calls p1 = .ok (p', as) := by
  rw [runCalls]
  constructor
  · intro h
    rcases bind_eq_ok h with ⟨⟨p1, a1⟩, hc, h⟩
    rcases bind_eq_ok h with ⟨⟨p2, as2⟩, hrest, h⟩
    cases h
    exact ⟨p1, hc, hrest⟩
  · rintro ⟨p1, hc, hrest⟩
    rw [hc]
    change (runCalls fs dev s fd calls p1 >>= _) = _
    rw [hrest]
    rfl

/-- Every run of calls answers as the bytes and the position say, and ends at that position, if and
only if each of its reads is in range. -/
theorem runCalls_conform (hv : Volume fs clusters) (hr : RegularFile fs dev clusters n)
    {p : Process} {f : File} (hf : p.file fd = some f) (hn : f.inode s = some n)
    (hpos : f.offset < 2 ^ 63) {calls : List FileCall} (hcalls : ∀ c ∈ calls, c.Fits) :
    (∃ p', runCalls fs dev s fd calls p =
        .ok (p', (specCalls (fileContents fs dev n) calls f.offset).2) ∧
      p'.file fd = some { f with offset := (specCalls (fileContents fs dev n) calls f.offset).1 }) ↔
    CallsInRange (fileContents fs dev n) calls f.offset := by
  induction calls generalizing p f with
  | nil => simpa [runCalls, specCalls, CallsInRange] using ⟨p, rfl, hf⟩
  | cons c calls ih =>
    have hc := hcalls c List.mem_cons_self
    have hrest : ∀ c ∈ calls, c.Fits := fun c hmem => hcalls c (List.mem_cons_of_mem _ hmem)
    rw [CallsInRange, contents_length]
    by_cases hin : c.InRange n.size f.offset
    · rcases FileCall.run_inRange hv hr hf hn hpos hc hin with ⟨p1, hrun, hf1⟩
      rw [← ih hf1 hn (c.spec_position hr hpos) hrest]
      constructor
      · rintro ⟨p', hcalls, hf'⟩
        rcases runCalls_cons.mp hcalls with ⟨p2, hrun', hcalls⟩
        obtain rfl : p1 = p2 := (Prod.mk.inj (Except.ok.inj (hrun.symm.trans hrun'))).1
        exact ⟨hin, p', hcalls, hf'⟩
      · rintro ⟨-, p', hcalls, hf'⟩
        exact ⟨p', runCalls_cons.mpr ⟨p1, hrun, hcalls⟩, hf'⟩
    · constructor
      · rintro ⟨p', hcalls, -⟩
        rcases runCalls_cons.mp hcalls with ⟨p1, hrun, -⟩
        exact absurd hrun (FileCall.run_not_inRange hv hr hf hn hpos hin p1)
      · intro h
        exact absurd h.1 hin

end Conform

/-- A process with one open file, that of `twoClusters`. -/
def seekVfs : Vfs where
  dentries := fun d => if d = 0 then some { inode := 1, parent := none, component := [], rc := 1 } else none
  inodes := fun i => if i = 1 then some twoClustersFile else none
  dcache := fun _ => none
  startClusterToInode := fun c => if c = 2 then some 1 else none
  root := 0
  nextInode := 2

def seekProcess : Process := { fds := { data := [some { dentry := some 0 }], capacity := 1 } }

/-- A read across the boundary of the clusters, a seek before the start and a seek past the end. -/
def nearCalls : List FileCall :=
  [.lseek 4090 .Set, .read (fun _ => 0) 20, .lseek (-5000) .Cur, .lseek 900 .Cur, .read (fun _ => 0) 20]

def farCalls : List FileCall :=
  [.lseek (2 ^ 31 - 1) .Set, .lseek (2 ^ 31 - 1) .Cur, .lseek 2 .Cur, .read (fun _ => 0) 4]

theorem runCalls_nearCalls :
    ∃ p', runCalls twoClusters twoClustersDev seekVfs 0 nearCalls seekProcess =
        .ok (p', (specCalls (fileContents twoClusters twoClustersDev twoClustersFile) nearCalls 0).2) ∧
      p'.file 0 = some { dentry := some 0, offset :=
        (specCalls (fileContents twoClusters twoClustersDev twoClustersFile) nearCalls 0).1 } := by
  apply (runCalls_conform twoClusters_volume twoClustersFile_regular (f := { dentry := some 0 }) rfl rfl
    (by decide) (by decide)).mpr
  decide +kernel

/-- The read returns the first bytes of the file, although the position is past its end. -/
theorem runCalls_farCalls :
    (runCalls twoClusters twoClustersDev seekVfs 0 farCalls seekProcess).map Prod.snd =
      .ok [.sought .Ok, .sought .Ok, .sought .Ok, .data [0, 1, 2, 3]] ∧
    specCalls (fileContents twoClusters twoClustersDev twoClustersFile) farCalls 0 =
      (2 ^ 32, [.sought .Ok, .sought .Ok, .sought .Ok, .data []]) := by
  decide +kernel

end HmmOS.Proc
