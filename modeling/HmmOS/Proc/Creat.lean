import HmmOS.Proc.FdTable

/-! # Paths and assertions

A path that leads through a regular file stops the kernel in an assertion of the
driver. `creat` looks up a second path, with the error of the first lookup still in its
result; the first lookup has left every part of the directory in the dcache.
-/
namespace HmmOS.Proc
open Fs Lib Nonstd

/-- `Process::truncate`, which has an empty body. -/
def Process.truncate (_path : Name) (_len : ℕ) (res : Result) : Result := res

def inodeCreat (_n : Inode) (_name : Name) : Result := .Unsupported

/-- `Process::creat`, with the result it starts with; the two lists are the addresses for objects
that the two lookups create. -/
def Process.creat (disk : Disk) (s : Vfs) (path : Name) (res : Result) (addrs addrs' : List (ℕ × ℕ)) :
    Option (Except Stop (Vfs × Result)) :=
  match lookupLoop disk (path.length + 1) s s.root path res addrs with
  | none => none
  | some (.error e) => some (.error e)
  | some (.ok (s, some d, res)) => some do
    let e ← s.getDentry d
    let n ← s.getInode e.inode
    if n.isDirectory then return (s, .IsDirectory)
    else return (s, Process.truncate path 0 res)
  | some (.ok (s, none, res)) =>
    let (dirname, basename) := StringView.partitionPath path
    -- `res` is the error of the first lookup
    match lookupLoop disk (dirname.length + 1) s s.root dirname res addrs' with
    | none => none
    | some (.error e) => some (.error e)
    | some (.ok (s, none, _)) => some (.ok (s, .FileNotFound))
    | some (.ok (s, some d, _)) => some do
      let e ← s.getDentry d
      let n ← s.getInode e.inode
      if ¬ n.isDirectory then return (s, .IsFile)
      else return (s, inodeCreat n basename)

def dirnameOf (path : PathString) : PathString where
  chars := (StringView.partitionPath path.chars).1
  nul_free := by
    intro hnul
    rcases StringView.partitionPath_spec path.fits with ⟨-, heq⟩ | ⟨heq, -⟩
    · rw [heq] at hnul
      cases hnul
    · exact path.nul_free (heq ▸ List.mem_append_left _ hnul)
  fits := by
    rcases StringView.partitionPath_spec path.fits with ⟨-, heq⟩ | ⟨heq, -⟩
    · rw [heq]
      exact Nat.two_pow_pos 31
    · have hlen := congrArg List.length heq
      have hfits := path.fits
      rw [List.length_append] at hlen
      omega

theorem names_dirname (path : PathString) :
    ∃ rest, names path.chars = names (dirnameOf path).chars ++ rest := by
  rcases StringView.partitionPath_spec path.fits with ⟨-, heq⟩ | ⟨heq, -⟩
  · refine ⟨names path.chars, ?_⟩
    have hnil : (dirnameOf path).chars = [] := congrArg Prod.fst heq
    rw [hnil]
    rfl
  · refine ⟨names (StringView.partitionPath path.chars).2, ?_⟩
    rw [← names_append]
    exact congrArg names heq

section Creat
variable {disk : Disk} {rootCluster : ℕ} {s : Vfs} {ext : ℕ → ℕ} {path : PathString}
  {addrs addrs' : List (ℕ × ℕ)}

theorem resolve_dirname {l : Place} (h : resolve disk rootCluster path.chars = some l) :
    resolve disk rootCluster (dirnameOf path).chars ≠ none := by
  rcases names_dirname path with ⟨rest, hnames⟩
  intro hnone
  rw [resolve, hnames, List.foldlM_append, ← resolve, hnone] at h
  cases h

/-- The second lookup of `creat` finds what the first one left in the dcache, whatever the result it
starts with. -/
theorem lookupLoop_dirname {s1 : Vfs} {res : Result} (hcon : Consistent disk rootCluster s1)
    (hdesc : Place.Descends disk rootCluster s1.kind [] (names path.chars))
    (hcre : Creates s s1 (Place.visited disk rootCluster [] (names path.chars))) :
    ∃ r, lookupLoop disk ((dirnameOf path).chars.length + 1) s1 s1.root (dirnameOf path).chars res
        addrs' = some (.ok (s1, r)) ∧ Answers s1 res (resolve disk rootCluster (dirnameOf path).chars) r := by
  rcases names_dirname path with ⟨rest, hnames⟩
  rw [hnames] at hdesc hcre
  have hfilter : (components (dirnameOf path).chars).filter (· ≠ []) = names (dirnameOf path).chars :=
    components_filter _
  have hall : ∀ l ∈ Place.visited disk rootCluster [] (names (dirnameOf path).chars),
      ∃ d, Locates s1 d l :=
    fun l hl => hcre.located l (Place.visited_append _ _ _ l hl)
  obtain ⟨s2, r, hturns, -, -, hans, hsame⟩ := lookupTurns_spec (l := []) hcon .root
    (dirnameOf path).nul_free_components (hfilter ▸ hdesc.of_append) (.inl (hfilter ▸ hall))
  obtain rfl := hsame (hfilter ▸ hall)
  rw [hfilter, ← resolve] at hans
  refine ⟨r, ?_, hans⟩
  rw [lookupLoop_eq (dirnameOf path).fits (Nat.lt_succ_self _), hturns]

/-- On a path through directories `creat` returns, and reports a missing file exactly if the
directory part is missing. -/
theorem Process.creat_returns (h : DcacheReach disk rootCluster s ext) (hheap : HeapFor s path addrs)
    (hdesc : Place.Descends disk rootCluster s.kind [] (names path.chars)) :
    ∃ s' res, Process.creat disk s path.chars .Ok addrs addrs' = some (.ok (s', res)) ∧
      (res = .FileNotFound ↔ resolve disk rootCluster (dirnameOf path).chars = none) := by
  have hfuel : path.chars.length < path.chars.length + 1 := Nat.lt_succ_self _
  obtain ⟨s1, r, hrun, hans, hcre, hcon⟩ := lookupLoop_resolves h.consistent.2
    (⟨hheap.fresh, hheap.enough, hdesc, .inl rfl⟩ : Lookup disk rootCluster s path .Ok addrs)
  have hloop := hrun _ hfuel
  have hturns := hloop
  rw [lookupLoop_eq path.fits hfuel, Option.some.injEq] at hturns
  obtain ⟨-, hagain, -⟩ := lookupTurns_returns h.consistent.2 h.dirParents .root
    path.nul_free_components hheap.fresh hheap.enough hturns
  rw [components_filter] at hagain
  rw [Process.creat, hloop]
  cases hres : resolve disk rootCluster path.chars with
  | some l =>
    rw [hres] at hans
    rcases hans with ⟨hok, d, hd, hloc⟩
    rcases r with ⟨r1, r2⟩
    dsimp only at hok hd
    rw [hok, hd]
    rcases hloc.objects hcon with ⟨e, n, he, hn⟩
    have hdir := resolve_dirname hres
    dsimp only
    rw [he, ok_bind, hn, ok_bind]
    by_cases hn : n.isDirectory
    · rw [if_pos hn]
      exact ⟨s1, .IsDirectory, rfl, by simp [hdir]⟩
    · rw [if_neg hn]
      exact ⟨s1, .Ok, rfl, by simp [hdir]⟩
  | none =>
    rw [hres] at hans
    rw [show r = (none, Result.FileNotFound) from hans]
    obtain ⟨r', hloop', hans'⟩ :=
      @lookupLoop_dirname disk rootCluster s path addrs' s1 .FileNotFound hcon hagain hcre
    dsimp only [dirnameOf] at hloop' hans' ⊢
    rw [hloop']
    rcases r' with ⟨r1, r2⟩
    cases hdir : resolve disk rootCluster (StringView.partitionPath path.chars).1 with
    | none =>
      rw [hdir] at hans'
      cases hans'
      exact ⟨s1, .FileNotFound, rfl, by simp⟩
    | some l =>
      rw [hdir] at hans'
      rcases hans' with ⟨-, d, hd, hloc⟩
      dsimp only at hd
      rw [hd]
      rcases hloc.objects hcon with ⟨e, n, he, hn⟩
      dsimp only
      rw [he, ok_bind, hn, ok_bind]
      by_cases hn : n.isDirectory
      · rw [if_neg (not_not.mpr hn)]
        exact ⟨s1, .Unsupported, rfl, by simp⟩
      · rw [if_pos hn]
        exact ⟨s1, .IsFile, rfl, by simp⟩

/-- A first lookup that stops does so in the driver, and `creat` with it. -/
theorem Process.creat_stops (h : DcacheReach disk rootCluster s ext) (hheap : HeapFor s path addrs)
    (hdesc : ¬ Place.Descends disk rootCluster s.kind [] (names path.chars)) :
    ∃ stop, Benign stop ∧ Process.creat disk s path.chars .Ok addrs addrs' = some (.error stop) := by
  have hloop := @lookupLoop_eq_pathnameLookup disk s addrs path _ (Nat.lt_succ_self path.chars.length)
  cases hlook : pathnameLookup disk s path.chars addrs with
  | ok q => exact absurd ((h.returns_iff hheap).mp ⟨q.1, q.2, hlook⟩) hdesc
  | error stop =>
    refine ⟨stop, (pathnameLookup_spec h.consistent.1 path.chars addrs).error hlook, ?_⟩
    rw [hlook] at hloop
    rw [Process.creat, hloop]
    rfl

/-- A lookup, and so `open` and `creat`, returns if and only if every name is looked up in a directory
with a whole chain. -/
theorem lookups_return_iff (h : DcacheReach disk rootCluster s ext) (hheap : HeapFor s path addrs)
    (p : Process) (addrs' : List (ℕ × ℕ)) :
    ((∃ s' r, lookupLoop disk (path.chars.length + 1) s s.root path.chars .Ok addrs =
        some (.ok (s', r)) ∧ (r.1.isSome ↔ r.2 = .Ok)) ↔
      Place.Descends disk rootCluster s.kind [] (names path.chars)) ∧
    ((∃ s' p' r, p.open disk s path.chars addrs = .ok (s', p', r)) ↔
      Place.Descends disk rootCluster s.kind [] (names path.chars)) ∧
    ((∃ s' res, Process.creat disk s path.chars .Ok addrs addrs' = some (.ok (s', res))) ↔
      Place.Descends disk rootCluster s.kind [] (names path.chars)) := by
  have hloop := @lookupLoop_eq_pathnameLookup disk s addrs path _ (Nat.lt_succ_self path.chars.length)
  refine ⟨?_, ?_, ?_⟩
  · rw [← h.returns_iff hheap, hloop]
    cases pathnameLookup disk s path.chars addrs with
    | error stop => simp [Except.map]
    | ok q =>
      rcases q with ⟨s', dentry⟩
      constructor
      · exact fun _ => ⟨s', dentry, rfl⟩
      · intro _
        refine ⟨s', (withRes (s', dentry)).2, rfl, ?_⟩
        cases dentry <;> simp [withRes]
  · rw [← h.returns_iff hheap]
    constructor
    · rintro ⟨s', p', r, hopen⟩
      rcases bind_eq_ok hopen with ⟨⟨s1, dentry⟩, hlook, -⟩
      exact ⟨s1, dentry, hlook⟩
    · rintro ⟨s1, dentry, hlook⟩
      cases dentry with
      | none =>
        refine ⟨s1, p, .error .FileNotFound, ?_⟩
        rw [Process.open, hlook]
        rfl
      | some d =>
        rcases (pathnameLookup_spec h.consistent.1 path.chars addrs).ok hlook with ⟨hok, hlive⟩
        rcases hlive d rfl with ⟨e, he⟩
        obtain ⟨s', p', fd, hopen, -⟩ :=
          @Process.open_of_lookup disk s p (fun _ => 0) path addrs s1 d _ hok hlook e he
        exact ⟨s', p', .ok fd, hopen⟩
  · constructor
    · rintro ⟨s', res, hcreat⟩
      by_contra hdesc
      obtain ⟨stop, -, hstop⟩ := @Process.creat_stops disk rootCluster s ext path addrs addrs' h hheap hdesc
      rw [hstop] at hcreat
      cases hcreat
    · intro hdesc
      rcases Process.creat_returns h hheap hdesc with ⟨s', res, hcreat, -⟩
      exact ⟨s', res, hcreat⟩

def fileTxt : Disk := fun cluster name =>
  if cluster = 2 ∧ name = "FILE    TXT".toList then some (some ⟨0, 3, 10, false⟩) else some none

def throughFile : PathString := ⟨"/FILE.TXT/X".toList, by decide, by decide⟩

/-- Looking up a name in the regular file stops in the driver. -/
theorem lookups_stop_throughFile :
    (lookupLoop fileTxt 12 (Vfs.init 2) 0 throughFile.chars .Ok [(1, 1), (2, 2), (3, 3)]).map
        (Except.map Prod.snd) = some (.error .lookup) ∧
    (Process.open fileTxt (Vfs.init 2) {} throughFile.chars [(1, 1), (2, 2), (3, 3)]).map
        (fun r => r.2.2.toOption) = .error .lookup ∧
    (Process.creat fileTxt (Vfs.init 2) throughFile.chars .Ok [(1, 1), (2, 2), (3, 3)] []).map
        (Except.map Prod.snd) = some (.error .lookup) := by
  decide +kernel

def missingFile : PathString := ⟨"/BIN/MISSING".toList, by decide, by decide⟩

theorem missingFile_descends : Place.Descends binInit 2 (Vfs.init 2).kind [] (names missingFile.chars) := by
  exact ⟨rfl, rfl, trivial⟩

theorem missingFile_heap : HeapFor (Vfs.init 2) missingFile [(1, 1), (2, 2), (3, 3)] :=
  ⟨⟨by decide +kernel, by decide +kernel, by decide +kernel, by decide +kernel⟩, by decide +kernel⟩

theorem lookups_return_missingFile :
    Place.Descends binInit 2 (Vfs.init 2).kind [] (names missingFile.chars) ∧
    ∃ s' res, Process.creat binInit (Vfs.init 2) missingFile.chars .Ok [(1, 1), (2, 2), (3, 3)] [] =
      some (.ok (s', res)) :=
  ⟨missingFile_descends, (lookups_return_iff .init missingFile_heap {} []).2.2.mpr missingFile_descends⟩

/-- In every reachable state and on every path, `creat` that starts with `Ok` does not fail the assertion
of the loop, in its second lookup or before. -/
theorem creat_stale_result (h : DcacheReach disk rootCluster s ext) (hheap : HeapFor s path addrs)
    (addrs' : List (ℕ × ℕ)) :
    Process.creat disk s path.chars .Ok addrs addrs' ≠ some (.error .assertion) ∧
    (Place.Descends disk rootCluster s.kind [] (names path.chars) →
      ∃ s' res, Process.creat disk s path.chars .Ok addrs addrs' = some (.ok (s', res)) ∧
        (res = .FileNotFound ↔ resolve disk rootCluster (StringView.partitionPath path.chars).1 = none)) := by
  refine ⟨?_, fun hdesc => Process.creat_returns h hheap hdesc⟩
  by_cases hdesc : Place.Descends disk rootCluster s.kind [] (names path.chars)
  · obtain ⟨s', res, hcreat, -⟩ :=
      @Process.creat_returns disk rootCluster s ext path addrs addrs' h hheap hdesc
    rw [hcreat]
    simp
  · obtain ⟨stop, hbenign, hstop⟩ :=
      @Process.creat_stops disk rootCluster s ext path addrs addrs' h hheap hdesc
    rw [hstop]
    rintro hassert
    cases hassert
    rcases hbenign with hb | hb <;> cases hb

/-- The directory of the missing file exists, so the answer is another one. -/
theorem creat_stale_missingFile :
    resolve binInit 2 (StringView.partitionPath missingFile.chars).1 = some [("BIN".toList, 3)] ∧
    ∃ s' res, Process.creat binInit (Vfs.init 2) missingFile.chars .Ok [(1, 1), (2, 2), (3, 3)] [] =
      some (.ok (s', res)) ∧ res ≠ .FileNotFound := by
  have hdir : resolve binInit 2 (StringView.partitionPath missingFile.chars).1 =
      some [("BIN".toList, 3)] := by decide +kernel
  rcases creat_stale_result .init missingFile_heap [] with ⟨-, hret⟩
  rcases hret missingFile_descends with ⟨s', res, hcreat, hres⟩
  refine ⟨hdir, s', res, hcreat, fun hmiss => ?_⟩
  exact absurd (hres.mp hmiss) (Option.some_ne_none _)

end Creat

end HmmOS.Proc
