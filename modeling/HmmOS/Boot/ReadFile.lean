import HmmOS.Boot.RootDirectory

/-! # Loading the kernel

`copy_bytes` copies whole sectors, so that the end of a file can be missing.
-/
namespace HmmOS.Boot
open Lib Nonstd Fs

structure FileRead where
  cluster : ℕ
  remainingBytes : ℕ
  lastFatSector : ℕ
  mem : Bytes

section Model
variable (fs : Fat32Desc) (dev : Bytes) (buf dst : ℕ) (file : Fat32FileDesc)

def FileRead.start (mem : Bytes) : FileRead where
  cluster := file.startCluster
  remainingBytes := file.fileSzBytes
  lastFatSector := 2 ^ 32 - 1
  mem := mem

def FileRead.loop (st : FileRead) : ReadLoop where
  cluster := st.cluster
  remainingBytes := st.remainingBytes
  lastFatSector := st.lastFatSector
  buf := fun i => st.mem (buf + i)

/-- One turn of the loop, up to its condition: `copy_bytes` writes to the buffer of the file and to
the sector buffer. -/
def FileRead.turn (st : FileRead) : FileRead :=
  let copy := (st.loop buf).copy fs file
  let mem := copyBytes dev st.mem (dst + copy.offset) copy.diskAddr copy.len
  let fatSector := st.cluster / fs.fatEntriesPerSector
  let mem :=
    if fatSector ≠ st.lastFatSector then
      copyBytes dev mem buf (fs.fatSectorPosition fatSector) fs.bytesPerSector
    else mem
  { cluster := le32 mem (buf + 4 * (st.cluster % fs.fatEntriesPerSector))
    remainingBytes := st.remainingBytes - copy.len
    lastFatSector := fatSector
    mem := mem }

/-- The loop in at most `fuel` turns: the memory at the end, if nothing remains. -/
def FileRead.run : ℕ → FileRead → Option Bytes
  | 0, _ => none
  | fuel + 1, st =>
    let next := st.turn fs dev buf dst file
    if fat32IsLastClusterInFile next.cluster then
      if next.remainingBytes = 0 then some next.mem else none
    else FileRead.run fuel next

def fat32ReadFile (fuel : ℕ) (mem : Bytes) : Option Bytes :=
  FileRead.run fs dev buf dst file fuel (FileRead.start file mem)

end Model

def applyCopies (dev : Bytes) (dst : ℕ) (copies : List Copy) (mem : Bytes) : Bytes :=
  copies.foldl (fun mem c => copyBytes dev mem (dst + c.offset) c.diskAddr c.len) mem

theorem applyCopies_cons (dev : Bytes) (dst : ℕ) (c : Copy) (copies : List Copy) (mem : Bytes) :
    applyCopies dev dst (c :: copies) mem =
      applyCopies dev dst copies (copyBytes dev mem (dst + c.offset) c.diskAddr c.len) :=
  List.foldl_cons ..

theorem applyCopies_nil (dev : Bytes) (dst : ℕ) (mem : Bytes) : applyCopies dev dst [] mem = mem :=
  List.foldl_nil ..

theorem applyCopies_congr {dev mem mem' : Bytes} {dst a : ℕ} {copies : List Copy} (h : mem a = mem' a) :
    applyCopies dev dst copies mem a = applyCopies dev dst copies mem' a := by
  induction copies generalizing mem mem' with
  | nil => exact h
  | cons c copies ih =>
    exact ih (copyBytes_congr h dev _ _ _)

/-- A result that is the memory after some copies, outside a buffer of `n` bytes. -/
def Performs (dev : Bytes) (buf n dst : ℕ) (mem : Bytes) : Option (List Copy) → Option Bytes → Prop
  | none, none => True
  | some copies, some mem' =>
    ∀ a, ¬ (buf ≤ a ∧ a < buf + n) → mem' a = applyCopies dev dst copies mem a
  | _, _ => False

theorem Performs.cons {dev mem mem1 : Bytes} {buf n dst : ℕ} {copies : Option (List Copy)}
    {result : Option Bytes} {c : Copy} (h : Performs dev buf n dst mem1 copies result)
    (hmem : ∀ a, ¬ (buf ≤ a ∧ a < buf + n) → mem1 a = copyBytes dev mem (dst + c.offset) c.diskAddr c.len a) :
    Performs dev buf n dst mem (copies.map (c :: ·)) result := by
  match copies, result, h with
  | none, none, _ => trivial
  | some copies, some mem', h =>
    intro a ha
    rw [h a ha, applyCopies_congr (hmem a ha), applyCopies_cons]

structure SameLoop (fs : Fat32Desc) (buf : ℕ) (st : FileRead) (lp : ReadLoop) : Prop where
  cluster : st.cluster = lp.cluster
  cluster_lt : lp.cluster < 2 ^ 32
  remaining : st.remainingBytes = lp.remainingBytes
  last : st.lastFatSector = lp.lastFatSector
  sector : lp.lastFatSector = 2 ^ 32 - 1 ∨ ∀ i < fs.bytesPerSector, st.mem (buf + i) = lp.buf i

variable {fs : Fat32Desc} {dev : Bytes} {file : Fat32FileDesc} {buf dst k size fuel : ℕ} {st : FileRead}

section Copies
variable {lp : ReadLoop}

theorem SameLoop.copy_eq (h : SameLoop fs buf st lp) : (st.loop buf).copy fs file = lp.copy fs file := by
  simp only [ReadLoop.copy, FileRead.loop, h.cluster, h.remaining]

/-- No copy gets more than a sector past the end of the file. -/
theorem ReadLoop.copy_end (hsize : file.fileSzBytes < 2 ^ 32)
    (hremaining : lp.remainingBytes ≤ file.fileSzBytes) :
    (lp.copy fs file).offset + copiedBytes (lp.copy fs file).len ≤ file.fileSzBytes + mbrSectorSz := by
  have hoffset : (lp.copy fs file).offset = file.fileSzBytes - lp.remainingBytes :=
    Word.sub_of_le hremaining hsize
  have hlen : (lp.copy fs file).len ≤ lp.remainingBytes := Nat.min_le_right _ _
  have hcopied := copiedBytes_le (lp.copy fs file).len
  omega

theorem Fat32Desc.WholeSectors.fatSector_aligned (hw : fs.WholeSectors) (fatSector : ℕ) :
    fs.fatSectorPosition fatSector % mbrSectorSz = 0 := by
  have hfat := hw.fat
  have hmul : fatSector * fs.bytesPerSector % mbrSectorSz = 0 :=
    Nat.mod_eq_zero_of_dvd ((Nat.dvd_of_mod_eq_zero hw.sector).mul_left _)
  rw [Fat32Desc.fatSectorPosition, Word.add, Word.mul]
  rw [mbrSectorSz] at *
  omega

section Turn
variable (hsize : file.fileSzBytes < 2 ^ 32)
  (hapart : dst + (file.fileSzBytes + mbrSectorSz) ≤ buf ∨ buf + fs.bytesPerSector ≤ dst)
include hsize hapart

theorem ReadLoop.copy_apart (hremaining : lp.remainingBytes ≤ file.fileSzBytes) {mem : Bytes} {i : ℕ}
    (hi : i < fs.bytesPerSector) : copyBytes dev mem (dst + (lp.copy fs file).offset) (lp.copy fs file).diskAddr
      (lp.copy fs file).len (buf + i) = mem (buf + i) := by
  have hend := @ReadLoop.copy_end fs file lp hsize hremaining
  apply copyBytes_of_not_mem
  omega

variable (hw : fs.WholeSectors)
include hw

theorem SameLoop.turn (h : SameLoop fs buf st lp) (hremaining : lp.remainingBytes ≤ file.fileSzBytes) :
    SameLoop fs buf (st.turn fs dev buf dst file) (lp.turn fs dev file) ∧
      ∀ a, ¬ (buf ≤ a ∧ a < buf + fs.bytesPerSector) → (st.turn fs dev buf dst file).mem a =
        copyBytes dev st.mem (dst + (lp.copy fs file).offset) (lp.copy fs file).diskAddr
          (lp.copy fs file).len a := by
  have hge := hw.sector_ge
  have hlt := h.cluster_lt
  have hpos : 0 < fs.fatEntriesPerSector := by
    rw [Fat32Desc.fatEntriesPerSector]
    omega
  let fatSector := lp.cluster / fs.fatEntriesPerSector
  obtain ⟨copied, hcopied⟩ : ∃ copied, copied = copyBytes dev st.mem
      (dst + (lp.copy fs file).offset) (lp.copy fs file).diskAddr (lp.copy fs file).len := ⟨_, rfl⟩
  have hmem : (st.turn fs dev buf dst file).mem = if fatSector ≠ lp.lastFatSector then
      copyBytes dev copied buf (fs.fatSectorPosition fatSector) fs.bytesPerSector else copied := by
    simp only [FileRead.turn, h.copy_eq, h.cluster, h.last, hcopied]
    rfl
  have hload : ∀ mem, copyBytes dev mem buf (fs.fatSectorPosition fatSector) fs.bytesPerSector =
      buffered dev mem buf (fs.fatSectorPosition fatSector) fs.bytesPerSector := by
    intro mem
    rw [copyBytes_aligned (hw.fatSector_aligned _), copiedBytes_of_dvd hw.sector_pos hw.sector]
    rfl
  have hbuf : (lp.turn fs dev file).buf = if fatSector ≠ lp.lastFatSector then
      fun i => dev (fs.fatSectorPosition fatSector + i) else lp.buf := rfl
  have hsector : ∀ i < fs.bytesPerSector,
      (st.turn fs dev buf dst file).mem (buf + i) = (lp.turn fs dev file).buf i := by
    intro i hi
    rw [hmem, hbuf]
    split_ifs with hloaded
    · rw [hload, buffered_of_lt hi]
    · have hquarter : 128 ≤ fs.fatEntriesPerSector := by
        rw [Fat32Desc.fatEntriesPerSector]
        omega
      have hsmall : fatSector ≤ lp.cluster / 128 := Nat.div_le_div_left hquarter (by omega)
      rw [hcopied, ReadLoop.copy_apart hsize hapart hremaining hi]
      exact h.sector.resolve_left (by omega) i hi
  have hcluster : (st.turn fs dev buf dst file).cluster = (lp.turn fs dev file).cluster := by
    have hlt := Nat.mod_lt lp.cluster hpos
    have hfit : 4 * (lp.cluster % fs.fatEntriesPerSector) + 3 < fs.bytesPerSector := by
      rw [Fat32Desc.fatEntriesPerSector] at *
      omega
    have hst : (st.turn fs dev buf dst file).cluster =
        le32 (st.turn fs dev buf dst file).mem (buf + 4 * (st.cluster % fs.fatEntriesPerSector)) := rfl
    have hlp : (lp.turn fs dev file).cluster =
        le32 (lp.turn fs dev file).buf (4 * (lp.cluster % fs.fatEntriesPerSector)) := rfl
    rw [hst, hlp, h.cluster]
    apply le32_congr
    intro i hi
    rw [Nat.add_assoc, hsector _ (by omega)]
  refine ⟨⟨hcluster, le32_lt _ _, ?_, ?_, .inr hsector⟩, ?_⟩
  · have hst : (st.turn fs dev buf dst file).remainingBytes =
        st.remainingBytes - ((st.loop buf).copy fs file).len := rfl
    rw [hst, h.copy_eq, h.remaining]
    rfl
  · have hst : (st.turn fs dev buf dst file).lastFatSector = st.cluster / fs.fatEntriesPerSector := rfl
    rw [hst, h.cluster]
    rfl
  · intro a ha
    rw [hmem, ← hcopied]
    split_ifs
    · rw [hload, buffered, memcpy_of_not_mem ha]
    · exact Eq.refl _

/-- The function returns with the memory after the copies, outside the sector buffer. -/
theorem SameLoop.run (h : SameLoop fs buf st lp) (hremaining : lp.remainingBytes ≤ file.fileSzBytes) :
    Performs dev buf fs.bytesPerSector dst st.mem (fat32ReadFileFrom fs dev file fuel lp)
      (FileRead.run fs dev buf dst file fuel st) := by
  induction fuel generalizing st lp with
  | zero => exact True.intro
  | succ fuel ih =>
    obtain ⟨hturn, hmem⟩ := @SameLoop.turn fs dev file buf dst st lp hsize hapart hw h hremaining
    rw [fat32ReadFileFrom, FileRead.run, hturn.cluster, hturn.remaining]
    split_ifs
    · intro a ha
      rw [applyCopies_cons, applyCopies_nil]
      exact hmem a ha
    · exact True.intro
    · have hrest : (lp.turn fs dev file).remainingBytes ≤ file.fileSzBytes :=
        (Nat.sub_le _ _).trans hremaining
      exact (ih hturn hrest).cons hmem

end Turn

/-- The two models of `fat32_read_file` agree when the sector buffer is apart from the file. -/
theorem fat32ReadFile_performs (hw : fs.WholeSectors) (hsize : file.fileSzBytes < 2 ^ 32)
    (hstart : file.startCluster < 2 ^ 32)
    (hapart : dst + (file.fileSzBytes + mbrSectorSz) ≤ buf ∨ buf + fs.bytesPerSector ≤ dst) (b mem : Bytes) :
    Performs dev buf fs.bytesPerSector dst mem (fat32ReadFileFrom fs dev file fuel (ReadLoop.start file b))
      (fat32ReadFile fs dev buf dst file fuel mem) :=
  have hsame : SameLoop fs buf (FileRead.start file mem) (ReadLoop.start file b) :=
    ⟨rfl, hstart, rfl, rfl, .inl rfl⟩
  hsame.run hsize hapart hw le_rfl

end Copies

section Spec
variable (fs dev file)

def Fat32Desc.clustersOf (size : ℕ) : ℕ := (size + fs.clusterBytes - 1) / fs.clusterBytes

/-- A byte of the concatenated clusters of a file. -/
def Fat32Desc.fileByte (i : ℕ) : UInt8 :=
  dev (fs.clusterStart (fs.chain dev file.startCluster (i / fs.clusterBytes)) + i % fs.clusterBytes)

/-- The chain of a file has just the clusters that its size needs, which lie below `2^32`. The reserved
bits of the entries are clear. -/
structure FileChain : Prop where
  size_pos : 0 < file.fileSzBytes
  size_lt : file.fileSzBytes < 2 ^ 32
  below : ∀ k < fs.clustersOf file.fileSzBytes, fs.Below (fs.chain dev file.startCluster k)
  clear : ∀ k < fs.clustersOf file.fileSzBytes,
    fs.fatEntry dev (fs.chain dev file.startCluster k) < 2 ^ 28
  last : fat32IsLastClusterInFile (fs.fatEntry dev
    (fs.chain dev file.startCluster (fs.clustersOf file.fileSzBytes - 1))) = true

/-- The sector buffer is apart from the sectors that the file takes in memory. -/
def BuffersApart (buf dst : ℕ) : Prop :=
  dst + mbrSectorSz * ((file.fileSzBytes + 511) / mbrSectorSz) ≤ buf ∨ buf + fs.bytesPerSector ≤ dst

end Spec

theorem Fat32Desc.WholeSectors.clusterBytes_mod (hw : fs.WholeSectors) : fs.clusterBytes % mbrSectorSz = 0 :=
  Nat.mod_eq_zero_of_dvd ((Nat.dvd_of_mod_eq_zero hw.sector).mul_left _)

theorem Fat32Desc.WholeSectors.lt_clustersOf_iff (hw : fs.WholeSectors) :
    k < fs.clustersOf size ↔ k * fs.clusterBytes < size := by
  have hge := hw.clusterBytes_ge
  rw [Fat32Desc.clustersOf, Nat.lt_div_iff_mul_lt (by omega)]
  omega

def Fat32Desc.turnBytes (fs : Fat32Desc) (size k : ℕ) : ℕ :=
  copiedBytes (min fs.clusterBytes (size - k * fs.clusterBytes))

theorem Fat32Desc.WholeSectors.turnBytes_le (hw : fs.WholeSectors) (hk : k * fs.clusterBytes < size) :
    fs.turnBytes size k ≤ fs.clusterBytes ∧
      k * fs.clusterBytes + fs.turnBytes size k ≤ mbrSectorSz * ((size + 511) / mbrSectorSz) := by
  have hge := hw.clusterBytes_ge
  have hmod := hw.clusterBytes_mod
  have hmul : k * fs.clusterBytes % mbrSectorSz = 0 :=
    Nat.mod_eq_zero_of_dvd ((Nat.dvd_of_mod_eq_zero hmod).mul_left _)
  rw [Fat32Desc.turnBytes, copiedBytes]
  rw [mbrSectorSz] at *
  omega

theorem Fat32Desc.WholeSectors.turnBytes_full (hw : fs.WholeSectors)
    (hk : (k + 1) * fs.clusterBytes ≤ size) : fs.turnBytes size k = fs.clusterBytes := by
  have hge := hw.clusterBytes_ge
  rw [Nat.succ_mul] at hk
  rw [Fat32Desc.turnBytes, Nat.min_eq_left (by omega)]
  exact copiedBytes_of_dvd (by omega) hw.clusterBytes_mod

theorem Fat32Desc.fileByte_add {j : ℕ} (hj : j < fs.clusterBytes) :
    fs.fileByte dev file (k * fs.clusterBytes + j) =
      dev (fs.clusterStart (fs.chain dev file.startCluster k) + j) := by
  have hpos : 0 < fs.clusterBytes := by omega
  rw [Fat32Desc.fileByte, Nat.mul_comm, Nat.mul_add_div hpos, Nat.div_eq_of_lt hj, Nat.add_zero,
    Nat.mul_add_mod, Nat.mod_eq_of_lt hj]

/-- The loop has written `w` bytes of the file and nothing else outside the sector buffer, which holds
the sector that was loaded last. -/
structure Reading (fs : Fat32Desc) (dev : Bytes) (buf dst : ℕ) (file : Fat32FileDesc) (mem0 : Bytes)
    (w lastFatSector : ℕ) (mem : Bytes) : Prop where
  sector : lastFatSector = 2 ^ 32 - 1 ∨
    ∀ i < fs.bytesPerSector, mem (buf + i) = dev (fs.fatSectorPosition lastFatSector + i)
  contents : ∀ i < w, mem (dst + i) = fs.fileByte dev file i
  other : ∀ a, ¬ (dst ≤ a ∧ a < dst + w) → ¬ (buf ≤ a ∧ a < buf + fs.bytesPerSector) → mem a = mem0 a

section Loop
variable {mem0 : Bytes}

theorem FileChain.copy_eq (h : FileChain fs dev file) (hw : fs.WholeSectors)
    (hk : k < fs.clustersOf file.fileSzBytes) (hcluster : st.cluster = fs.chain dev file.startCluster k)
    (hremaining : st.remainingBytes = file.fileSzBytes - k * fs.clusterBytes) : (st.loop buf).copy fs file =
      ⟨k * fs.clusterBytes, fs.clusterStart (fs.chain dev file.startCluster k),
        min fs.clusterBytes (file.fileSzBytes - k * fs.clusterBytes)⟩ := by
  have hbelow := h.below k hk
  have hcontents := hbelow.contents
  have hge := hw.clusterBytes_ge
  have hlt := h.size_lt
  have hsize := hw.lt_clustersOf_iff.mp hk
  have hoffset : Word.sub 32 file.fileSzBytes st.remainingBytes = k * fs.clusterBytes := by
    rw [hremaining, Word.sub_of_le (by omega) hlt]
    omega
  have haddr : fs.clusterDataOffsetBytes st.cluster % 2 ^ 32 =
      fs.clusterStart (fs.chain dev file.startCluster k) := by
    rw [hcluster, hbelow.clusterDataOffsetBytes hw, Nat.mod_eq_of_lt (by omega)]
  have hlen : min (fs.sectorsPerCluster * fs.bytesPerSector) st.remainingBytes =
      min fs.clusterBytes (file.fileSzBytes - k * fs.clusterBytes) := by
    rw [hremaining]
    rfl
  exact congr (congrArg₂ Copy.mk hoffset haddr) hlen

variable {mem : Bytes} {last w c : ℕ}

theorem Reading.copied (h : Reading fs dev buf dst file mem0 (k * fs.clusterBytes) last mem)
    (hw : fs.WholeSectors) (hapart : BuffersApart fs file buf dst)
    (hk : k * fs.clusterBytes < file.fileSzBytes) :
    Reading fs dev buf dst file mem0 (k * fs.clusterBytes + fs.turnBytes file.fileSzBytes k) last
      (copyBytes dev mem (dst + k * fs.clusterBytes) (fs.clusterStart (fs.chain dev file.startCluster k))
        (min fs.clusterBytes (file.fileSzBytes - k * fs.clusterBytes))) := by
  obtain ⟨hcluster, hsectors⟩ := hw.turnBytes_le hk
  rw [copyBytes_aligned (hw.clusterStart_aligned _)]
  change Reading _ _ _ _ _ _ _ _ (memcpy mem _ _ (fs.turnBytes file.fileSzBytes k))
  constructor
  case sector =>
    refine h.sector.imp_right fun hsector i hi => ?_
    rw [memcpy_of_not_mem, hsector i hi]
    rcases hapart with hbefore | hafter <;> omega
  case contents =>
    intro i hi
    by_cases hbefore : i < k * fs.clusterBytes
    · rw [memcpy_of_not_mem (by omega), h.contents i hbefore]
    · obtain ⟨j, rfl⟩ := Nat.exists_eq_add_of_le (Nat.le_of_not_lt hbefore)
      rw [memcpy_of_mem (by omega) (by omega), Fat32Desc.fileByte_add (by omega)]
      congr 2
      omega
  case other =>
    intro a ha hbuf
    rw [memcpy_of_not_mem (by omega)]
    exact h.other a (by omega) hbuf

theorem Reading.loaded (h : Reading fs dev buf dst file mem0 w last mem) (hw : fs.WholeSectors)
    (hapart : BuffersApart fs file buf dst)
    (hsize : w ≤ mbrSectorSz * ((file.fileSzBytes + 511) / mbrSectorSz)) (hb : fs.Below c) :
    let mem' := if c / fs.fatEntriesPerSector ≠ last then
      copyBytes dev mem buf (fs.fatSectorPosition (c / fs.fatEntriesPerSector)) fs.bytesPerSector
    else mem
    le32 mem' (buf + 4 * (c % fs.fatEntriesPerSector)) = fs.fatEntry dev c ∧
      Reading fs dev buf dst file mem0 w (c / fs.fatEntriesPerSector) mem' := by
  intro mem'
  have hsector : ∀ i < fs.bytesPerSector,
      mem' (buf + i) = dev (fs.fatSectorPosition (c / fs.fatEntriesPerSector) + i) := by
    intro i hi
    by_cases hload : c / fs.fatEntriesPerSector ≠ last
    · have hmem : mem' = _ := if_pos hload
      rw [hmem, hb.copyFatSector hw, buffered_of_lt hi]
    · have hmem : mem' = mem := if_neg hload
      have hsmall := hb.small hw
      have hle : c / fs.fatEntriesPerSector ≤ c := Nat.div_le_self _ _
      have hlast := not_not.mp hload
      rw [hmem, hlast]
      exact h.sector.resolve_left (by omega) i hi
  have hframe : ∀ a, ¬ (buf ≤ a ∧ a < buf + fs.bytesPerSector) → mem' a = mem a := by
    intro a ha
    by_cases hload : c / fs.fatEntriesPerSector ≠ last
    · have hmem : mem' = _ := if_pos hload
      rw [hmem, hb.copyFatSector hw, buffered, memcpy_of_not_mem ha]
    · have hmem : mem' = mem := if_neg hload
      rw [hmem]
  refine ⟨hb.le32_fatSector hw hsector, .inr hsector, ?_, ?_⟩
  · intro i hi
    rw [hframe, h.contents i hi]
    rcases hapart with hbefore | hafter <;> omega
  · intro a ha hbuf
    rw [hframe a hbuf, h.other a ha hbuf]

theorem Reading.turn (h : Reading fs dev buf dst file mem0 (k * fs.clusterBytes) st.lastFatSector st.mem)
    (hchain : FileChain fs dev file) (hw : fs.WholeSectors) (hapart : BuffersApart fs file buf dst)
    (hk : k < fs.clustersOf file.fileSzBytes) (hcluster : st.cluster = fs.chain dev file.startCluster k)
    (hremaining : st.remainingBytes = file.fileSzBytes - k * fs.clusterBytes) :
    (st.turn fs dev buf dst file).cluster = fs.fatEntry dev (fs.chain dev file.startCluster k) ∧
      (st.turn fs dev buf dst file).remainingBytes = file.fileSzBytes - (k + 1) * fs.clusterBytes ∧
      Reading fs dev buf dst file mem0 (k * fs.clusterBytes + fs.turnBytes file.fileSzBytes k)
        (st.turn fs dev buf dst file).lastFatSector (st.turn fs dev buf dst file).mem := by
  have hsize := hw.lt_clustersOf_iff.mp hk
  have hcopied := h.copied hw hapart hsize
  obtain ⟨hentry, hreading⟩ := hcopied.loaded hw hapart (hw.turnBytes_le hsize).2 (hchain.below k hk)
  rw [FileRead.turn, hchain.copy_eq hw hk hcluster hremaining, hcluster]
  refine ⟨hentry, ?_, hreading⟩
  have hnext : (k + 1) * fs.clusterBytes = k * fs.clusterBytes + fs.clusterBytes := Nat.succ_mul _ _
  dsimp only
  omega

/-- The bytes of the file that are in memory at the end. -/
def Fat32Desc.writtenBytes (fs : Fat32Desc) (size : ℕ) : ℕ :=
  (fs.clustersOf size - 1) * fs.clusterBytes + fs.turnBytes size (fs.clustersOf size - 1)

theorem Reading.run (h : Reading fs dev buf dst file mem0 (k * fs.clusterBytes) st.lastFatSector st.mem)
    (hchain : FileChain fs dev file) (hw : fs.WholeSectors) (hapart : BuffersApart fs file buf dst)
    (hk : k < fs.clustersOf file.fileSzBytes) (hfuel : fs.clustersOf file.fileSzBytes ≤ k + fuel)
    (hcluster : st.cluster = fs.chain dev file.startCluster k)
    (hremaining : st.remainingBytes = file.fileSzBytes - k * fs.clusterBytes) :
    ∃ last mem', FileRead.run fs dev buf dst file fuel st = some mem' ∧
      Reading fs dev buf dst file mem0 (fs.writtenBytes file.fileSzBytes) last mem' := by
  induction fuel generalizing k st with
  | zero => omega
  | succ fuel ih =>
    obtain ⟨hnext, hrest, hreading⟩ := h.turn hchain hw hapart hk hcluster hremaining
    rw [FileRead.run]
    by_cases hmore : k + 1 < fs.clustersOf file.fileSzBytes
    · have hbelow := hchain.below (k + 1) hmore
      have hentry : fs.fatEntry dev (fs.chain dev file.startCluster k) =
          fs.chain dev file.startCluster (k + 1) :=
        (maskCluster_of_lt (hchain.clear k hk)).symm
      rw [hentry] at hnext
      have hnotlast : fat32IsLastClusterInFile (st.turn fs dev buf dst file).cluster = false := by
        rw [hnext]
        exact hbelow.not_last hw
      rw [hw.turnBytes_full (hw.lt_clustersOf_iff.mp hmore).le, ← Nat.succ_mul] at hreading
      rw [hnotlast]
      exact ih hreading hmore (by omega) hnext hrest
    · obtain rfl : k = fs.clustersOf file.fileSzBytes - 1 := by omega
      have hdone : (st.turn fs dev buf dst file).remainingBytes = 0 := by
        have hle := mt hw.lt_clustersOf_iff.mpr hmore
        omega
      rw [hnext, if_pos hchain.last, if_pos hdone]
      exact ⟨_, _, rfl, hreading⟩

end Loop

/-- The whole file is in memory exactly if what remains for the last cluster is a number of whole
sectors, or less than one. -/
theorem Fat32Desc.WholeSectors.le_writtenBytes_iff (hw : fs.WholeSectors) (hpos : 0 < size) :
    size ≤ fs.writtenBytes size ↔ size % mbrSectorSz = 0 ∨ size % fs.clusterBytes < mbrSectorSz := by
  have hmod := hw.clusterBytes_mod
  have hfirst : 0 < fs.clustersOf size := hw.lt_clustersOf_iff.mpr (by omega)
  obtain ⟨q, hq⟩ := Nat.exists_eq_add_one_of_ne_zero hfirst.ne'
  have hlast : q * fs.clusterBytes < size := hw.lt_clustersOf_iff.mp (by omega)
  have hend : ¬ (q + 1) * fs.clusterBytes < size := mt hw.lt_clustersOf_iff.mpr (by omega)
  have hmul : q * fs.clusterBytes % mbrSectorSz = 0 :=
    Nat.mod_eq_zero_of_dvd ((Nat.dvd_of_mod_eq_zero hmod).mul_left _)
  obtain ⟨r, rfl⟩ := Nat.exists_eq_add_of_le hlast.le
  have hrest : (q * fs.clusterBytes + r) % fs.clusterBytes = r % fs.clusterBytes := by
    rw [Nat.mul_comm, Nat.mul_add_mod]
  rw [Fat32Desc.writtenBytes, hq, Nat.add_sub_cancel, Fat32Desc.turnBytes, copiedBytes, hrest]
  rw [Nat.succ_mul] at hend
  rw [mbrSectorSz] at *
  by_cases hfull : r < fs.clusterBytes
  · rw [Nat.mod_eq_of_lt hfull]
    omega
  · obtain rfl : r = fs.clusterBytes := by omega
    omega

/-- The function returns, and what it has written is as far as it goes what the file holds. -/
theorem FileChain.reads (h : FileChain fs dev file) (hw : fs.WholeSectors)
    (hapart : BuffersApart fs file buf dst) (hfuel : fs.clustersOf file.fileSzBytes ≤ fuel) (mem : Bytes) :
    ∃ last mem', fat32ReadFile fs dev buf dst file fuel mem = some mem' ∧
      Reading fs dev buf dst file mem (fs.writtenBytes file.fileSzBytes) last mem' := by
  have hpos := h.size_pos
  have hfirst : 0 < fs.clustersOf file.fileSzBytes := hw.lt_clustersOf_iff.mpr (by omega)
  have hstart : Reading fs dev buf dst file mem (0 * fs.clusterBytes) (2 ^ 32 - 1) mem :=
    ⟨.inl rfl, by omega, fun _ _ _ => rfl⟩
  have hremaining : file.fileSzBytes = file.fileSzBytes - 0 * fs.clusterBytes := by
    rw [Nat.zero_mul, Nat.sub_zero]
  exact @Reading.run fs dev file buf dst 0 fuel (FileRead.start file mem) mem hstart h hw hapart hfirst
    (by omega) rfl hremaining

/-- The bytes of the file are in memory exactly if no part of a sector is left over in the last cluster,
or there is nothing else in it. -/
theorem fat32ReadFile_iff (hw : fs.WholeSectors) (h : FileChain fs dev file)
    (hapart : BuffersApart fs file buf dst) (hfuel : fs.clustersOf file.fileSzBytes ≤ fuel) :
    (∀ mem, ∃ mem', fat32ReadFile fs dev buf dst file fuel mem = some mem' ∧
        ∀ i < file.fileSzBytes, mem' (dst + i) = fs.fileByte dev file i) ↔
      file.fileSzBytes % mbrSectorSz = 0 ∨ file.fileSzBytes % fs.clusterBytes < mbrSectorSz := by
  have hpos := h.size_pos
  rw [← hw.le_writtenBytes_iff hpos]
  constructor
  · intro hall
    by_contra hlost
    -- the last byte keeps the value that it had before
    let byte := fs.fileByte dev file (file.fileSzBytes - 1)
    obtain ⟨last, mem', hmem', hreading⟩ := h.reads hw hapart hfuel fun _ => byte + 1
    obtain ⟨mem'', hmem'', hbytes⟩ := hall fun _ => byte + 1
    obtain rfl := Option.some.inj (hmem'.symm.trans hmem'')
    have hkept : mem' (dst + (file.fileSzBytes - 1)) = byte + 1 := by
      apply hreading.other
      · omega
      · rw [BuffersApart, mbrSectorSz] at hapart
        omega
    have hread : mem' (dst + (file.fileSzBytes - 1)) = byte := hbytes _ (by omega)
    rw [hread] at hkept
    exact absurd hkept (by simp)
  · intro hwritten mem
    obtain ⟨last, mem', hmem', hreading⟩ := h.reads hw hapart hfuel mem
    exact ⟨mem', hmem', fun i hi => hreading.contents i (by omega)⟩

def fileDisk : Bytes := fun a =>
  match a with
  | 20492 => 4
  | 20493 | 20494 | 20495 => 0
  | 20496 | 20497 | 20498 => 0xFF
  | 20499 => 0x0F
  | _ => 0x41

theorem fileDisk_chain {size : ℕ} (hlt : 4096 < size) (hle : size ≤ 8192) :
    FileChain bootVolume fileDisk ⟨3, size⟩ := by
  have hclusters : bootVolume.clustersOf size = 2 := by
    change (size + 4096 - 1) / 4096 = 2
    omega
  have hfirst : bootVolume.Below 3 := ⟨by decide, by decide, by decide⟩
  have hsecond : bootVolume.Below (bootVolume.chain fileDisk 3 1) :=
    ⟨by decide +kernel, by decide +kernel, by decide +kernel⟩
  have hentries : ∀ k < 2, bootVolume.fatEntry fileDisk (bootVolume.chain fileDisk 3 k) < 2 ^ 28 := by
    decide +kernel
  have hlast : fat32IsLastClusterInFile
      (bootVolume.fatEntry fileDisk (bootVolume.chain fileDisk 3 1)) = true := by decide +kernel
  constructor
  case size_pos => exact Nat.zero_lt_of_lt hlt
  case size_lt => exact Nat.lt_of_le_of_lt hle (by norm_num)
  all_goals rw [hclusters]
  case below =>
    intro k hk
    match k with
    | 0 => exact hfirst
    | 1 => exact hsecond
  case clear => exact hentries
  case last => exact hlast

theorem fat32ReadFile_performs_fileDisk : Performs fileDisk 0x8000 512 0x100000 (fun _ => 0)
    (fat32ReadFileFrom bootVolume fileDisk ⟨3, 5120⟩ 2 (ReadLoop.start ⟨3, 5120⟩ fun _ => 0))
    (fat32ReadFile bootVolume fileDisk 0x8000 0x100000 ⟨3, 5120⟩ 2 fun _ => 0) :=
  fat32ReadFile_performs ⟨by decide, by decide, by decide, by decide, by decide⟩ (by decide) (by decide)
    (.inr (by decide)) _ _

/-- Two clusters, of which the second has two sectors of the file. -/
theorem fat32ReadFile_wholeSectors :
    FileChain bootVolume fileDisk ⟨3, 5120⟩ ∧
      ∀ mem, ∃ mem', fat32ReadFile bootVolume fileDisk 0x8000 0x100000 ⟨3, 5120⟩ 2 mem = some mem' ∧
        ∀ i < 5120, mem' (0x100000 + i) = bootVolume.fileByte fileDisk ⟨3, 5120⟩ i :=
  have hchain := fileDisk_chain (by omega) (by omega)
  ⟨hchain, (fat32ReadFile_iff ⟨by decide, by decide, by decide, by decide, by decide⟩
    hchain (.inr (by decide)) (by decide)).mpr (.inl (by decide))⟩

/-- The second cluster has 904 bytes of the file, of which 512 are read. -/
theorem fat32ReadFile_losesTail :
    FileChain bootVolume fileDisk ⟨3, 5000⟩ ∧ BuffersApart bootVolume ⟨3, 5000⟩ 0x8000 0x100000 ∧
      bootVolume.fileByte fileDisk ⟨3, 5000⟩ 4999 = 0x41 ∧
      ∃ mem', fat32ReadFile bootVolume fileDisk 0x8000 0x100000 ⟨3, 5000⟩ 2 (fun _ => 0) = some mem' ∧
        mem' (0x100000 + 4999) = 0 := by
  have hw : bootVolume.WholeSectors := ⟨by decide, by decide, by decide, by decide, by decide⟩
  have hchain := @fileDisk_chain 5000 (by omega) (by omega)
  have hapart : BuffersApart bootVolume ⟨3, 5000⟩ 0x8000 0x100000 := .inr (by decide)
  have hwritten : bootVolume.writtenBytes 5000 = 4608 := by decide
  obtain ⟨last, mem', hmem', hreading⟩ := hchain.reads hw hapart (by decide : _ ≤ 2) fun _ => 0
  refine ⟨hchain, hapart, by decide +kernel, mem', hmem', ?_⟩
  apply hreading.other
  · rw [hwritten]
    decide
  · decide

end HmmOS.Boot
