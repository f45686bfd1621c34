import HmmOS.Fs.DcacheReach

/-! # When a lookup returns

`pathname_lookup` does not ask whether a dentry is a directory before it looks up a
name there, but the driver asserts it.
-/
namespace HmmOS.Fs
open Lib Nonstd

/-- Only directories have children. -/
def Vfs.DirParents (s : Vfs) : Prop :=
  ∀ d e p, s.dentries d = some e → e.parent = some p →
    ∃ ep n, s.dentries p = some ep ∧ s.inodes ep.inode = some n ∧ n.isDirectory = true

variable {disk : Disk} {rootCluster : ℕ} {s s' : Vfs} {ext : ℕ → ℕ} {it : ℕ} {l : Place} {c : Name}
  {res : Result} {addrs : List (ℕ × ℕ)}

section Parents
variable {l' : Place}

theorem vfsInit_dirParents (rootCluster : ℕ) : (Vfs.init rootCluster).DirParents := by
  intro d e p hd hp
  rcases vfsInit_dentries.mp hd with ⟨-, rfl⟩
  cases hp

theorem Vfs.DirParents.shrink (h : s.DirParents) (hx : Extends s' s) (hok : VfsOk s' ext ∅) :
    s'.DirParents := by
  intro d e' p hd hp
  rcases hok.dentries.parent d e' p hd hp with ⟨ep', hep', -⟩
  rcases hok.inodes.live ⟨p, ep', hep', rfl⟩ with ⟨n', hn'⟩
  rcases hx.dentries d e' hd with ⟨e, he, -, hpar, -⟩
  rcases h d e p he (hpar.trans hp) with ⟨ep, n, hep, hn, hdir⟩
  rcases hx.dentries p ep' hep' with ⟨ep0, hep0, hino, -⟩
  rcases hx.inodes _ n' hn' with ⟨n0, hn0, -, hdir0, -⟩
  rw [hep, Option.some.injEq] at hep0
  rw [← hino, ← hep0, hn, Option.some.injEq] at hn0
  exact ⟨ep', n', hep', hn', by rw [← hdir0, ← hn0, hdir]⟩

/-- The flag of the cluster where a dentry is located is that of its inode. -/
theorem Locates.kind_eq (h : Consistent disk rootCluster s) (hl : Locates s it l) :
    ∃ e n, s.dentries it = some e ∧ s.inodes e.inode = some n ∧ n.startCluster = l.cluster rootCluster ∧
      s.kind (l.cluster rootCluster) = some n.isDirectory := by
  rcases h.counts with ⟨ext, hok⟩
  rcases hl.hasCluster h with ⟨e, n, he, hn, hc⟩
  have hi : s.startClusterToInode (l.cluster rootCluster) = some e.inode :=
    hok.inodes.clusters.find.mpr ⟨n, hn, hc⟩
  exact ⟨e, n, he, hn, hc, by simp [Vfs.kind, hi, hn]⟩

theorem Locates.objects (h : Consistent disk rootCluster s) (hl : Locates s it l) :
    ∃ e n, s.getDentry it = .ok e ∧ s.getInode e.inode = .ok n := by
  rcases hl.kind_eq h with ⟨e, n, he, hn, -⟩
  exact ⟨e, n, getDentry_of_some he, by rw [Vfs.getInode, hn]⟩

theorem Extends.kind_mono (hx : Extends s s') (hok : VfsOk s ext ∅) {c : ℕ} {b : Bool}
    (hc : s.kind c = some b) : s'.kind c = some b := by
  cases hi : s.startClusterToInode c with
  | none =>
    rw [Vfs.kind, hi] at hc
    cases hc
  | some i =>
    rw [hx.kind_eq hok ((hx.clusters c i hi).trans hi.symm)]
    exact hc

/-- A child that is live is known, so that remembering it changes nothing. -/
theorem Locates.remember_kind (h : Consistent disk rootCluster s) {dirent : DirectoryEntry}
    (hl : Locates s it ((c, dirent.startCluster) :: l)) (hx : Extends s s') :
    remember s'.kind dirent = s'.kind := by
  rcases h.counts with ⟨ext, hok⟩
  rcases hl.kind_eq h with ⟨e, n, -, -, -, hkind⟩
  have hchild : s'.kind dirent.startCluster = some n.isDirectory := hx.kind_mono hok hkind
  rw [remember, hchild, Option.getD_some, ← hchild, Function.update_eq_self]

/-- A turn of the loop creates at most a child of a directory. -/
theorem Vfs.DirParents.turn (hdirs : s.DirParents) (h : Consistent disk rootCluster s)
    (h' : Consistent disk rootCluster s') (hl : Locates s it l)
    (hstep : l.step disk rootCluster c = some l') (hcre : Creates s s' [l'])
    (hkind : c ≠ ['.'] → c ≠ ['.', '.'] → s.kind (l.cluster rootCluster) = some true) : s'.DirParents := by
  rcases h'.counts with ⟨ext', hok'⟩
  have hx := hcre.toExtends
  -- a directory of `s` is one of `s'`
  have hmono : ∀ {p : ℕ}, (∃ ep n, s.dentries p = some ep ∧ s.inodes ep.inode = some n ∧
      n.isDirectory = true) → ∃ ep n, s'.dentries p = some ep ∧ s'.inodes ep.inode = some n ∧
        n.isDirectory = true := by
    rintro p ⟨ep, n, hep, hn, hdir⟩
    rcases hx.dentries p ep hep with ⟨ep', hep', hino, -⟩
    rcases hx.inodes _ n hn with ⟨n', hn', -, hdir', -⟩
    exact ⟨ep', n', hep', hino ▸ hn', hdir'.trans hdir⟩
  intro d e' p hd hp
  cases hold : s.dentries d with
  | some e =>
    rcases hx.dentries d e hold with ⟨e1, he1, -, hpar, -⟩
    rw [hd, Option.some.injEq] at he1
    exact hmono (hdirs d e p hold (by rw [← hpar, ← he1, hp]))
  | none =>
    rcases hcre.missing d e' hold hd with ⟨l1, hl1, hloc, hno⟩
    rw [List.mem_singleton.mp hl1] at hloc hno
    rw [Place.step] at hstep
    by_cases hdot : c = ['.']
    · rw [if_pos hdot, Option.some.injEq] at hstep
      exact absurd (hstep ▸ hl) (hno it)
    by_cases hdots : c = ['.', '.']
    · rw [if_neg hdot, if_pos hdots, Option.some.injEq] at hstep
      rcases hl.getDentry h with ⟨e, he, -⟩
      exact absurd (hstep ▸ hl.tail h he) (hno _)
    · rw [if_neg hdot, if_neg hdots] at hstep
      rcases Option.map_eq_some_iff.mp hstep with ⟨dirent, -, rfl⟩
      cases hloc with
      | child hd1 hp1 _ _ hlp =>
        rw [hd, Option.some.injEq] at hd1
        rw [← hd1, hp, Option.some.injEq] at hp1
        rw [hp1, hlp.dentry_unique hok' (hl.mono hx)]
        rcases hl.directory h (hkind hdot hdots) with ⟨e, n, he, hn, -, hdir⟩
        exact hmono ⟨e, n, he, hn, hdir⟩

end Parents

section Turn
variable {res' : Result} {a : ℕ × ℕ} {next : Option ℕ}

theorem lookupTurn_stop (hc : IsName c) {e : Dentry} {stop : Stop} (he : s.dentries it = some e)
    (hmiss : s.dcache (it, c) = none) (hlook : Inode.lookup disk s e.inode a.1 c = .error stop) :
    lookupTurn disk s it c res a = .error stop := by
  simp [lookupTurn, StringView.eq_iff hc.nul_free, hc.ne_nil, hc.ne_dot, hc.ne_dots,
    getDentry_of_some he, hmiss, Inode.lookupRes, hlook, bind, Except.bind]

/-- An inode that is found while the result is an error fails the assertion of the loop. -/
theorem lookupTurn_stale (hc : IsName c) {e : Dentry} {j : ℕ} (he : s.dentries it = some e)
    (hmiss : s.dcache (it, c) = none)
    (hlook : Inode.lookup disk s e.inode a.1 c = .ok (s', some j)) (hres : res ≠ .Ok) :
    lookupTurn disk s it c res a = .error .assertion := by
  simp [lookupTurn, StringView.eq_iff hc.nul_free, hc.ne_nil, hc.ne_dot, hc.ne_dots,
    getDentry_of_some he, hmiss, Inode.lookupRes, hlook, hres, bind, Except.bind, pure, Except.pure]

/-- The assertions of `lookup`: it is asked of a directory, whose chain of clusters is whole. -/
theorem Inode.lookup_asserts {n : Inode} {i j : ℕ} (hn : s.inodes i = some n)
    (h : n.isDirectory = false ∨ disk n.startCluster (convertNormalTo83Filename c) = none) :
    Inode.lookup disk s i j c = .error .lookup := by
  have hget : s.getInode i = .ok n := by rw [Vfs.getInode, hn]
  rw [Inode.lookup, hget, ok_bind]
  cases hdir : n.isDirectory with
  | false => rfl
  | true =>
    rw [hdir] at h
    rw [h.resolve_left (by simp)]
    rfl

/-- When a turn returns, a name was looked up in a directory with a whole chain, and the result was `Ok` if an
inode had to be found. -/
theorem lookupTurn_open (h : Consistent disk rootCluster s) (hdirs : s.DirParents) (hl : Locates s it l)
    (hnul : StringView.nul ∉ c) (hc : c ≠ []) (hi : s.inodes a.1 = none)
    (hrun : lookupTurn disk s it c res a = .ok (s', next, res')) : l.Open disk rootCluster s.kind c ∧
      ((∀ l', l.step disk rootCluster c = some l' → ∃ d, Locates s d l') ∨ res = .Ok) := by
  by_cases hdot : c = ['.']
  · rw [Place.step, if_pos hdot]
    exact ⟨fun hno => absurd hdot hno, .inl fun l' hl' => ⟨it, Option.some.inj hl' ▸ hl⟩⟩
  by_cases hdots : c = ['.', '.']
  · rcases hl.getDentry h with ⟨e, he, -⟩
    rw [Place.step, if_neg hdot, if_pos hdots]
    exact ⟨fun _ hno => absurd hdots hno, .inl fun l' hl' => ⟨_, Option.some.inj hl' ▸ hl.tail h he⟩⟩
  have hname : IsName c := ⟨hnul, hc, hdot, hdots⟩
  rcases h.counts with ⟨ext, hok⟩
  rcases hl.kind_eq h with ⟨e, n, he, hn, hsc, hkind⟩
  rw [Place.step, if_neg hdot, if_neg hdots, childEntry]
  cases hcache : s.dcache (it, c) with
  | some d =>
    rcases h.locates_of_cached hl hcache with ⟨dirent, i, hent, -, hloc⟩
    have hdisk : disk (l.cluster rootCluster) (convertNormalTo83Filename c) = some (some dirent) :=
      Option.join_eq_some_iff.mp hent
    rw [Place.Open, hdisk]
    refine ⟨fun _ _ => ⟨?_, Option.some_ne_none _⟩, .inl fun l' hl' => ⟨d, Option.some.inj hl' ▸ hloc⟩⟩
    rcases (hok.dentries.cached it c d).mp hcache with ⟨e', he', hp', -⟩ | hstale
    · rcases hdirs d e' it he' hp' with ⟨ep, n', hep, hn', hdir⟩
      rw [he, Option.some.injEq] at hep
      rw [← hep, hn, Option.some.injEq] at hn'
      rw [hkind, hn', hdir]
    · cases hstale
  | none =>
    cases hdir : n.isDirectory with
    | false =>
      rw [lookupTurn_stop hname he hcache (Inode.lookup_asserts hn (.inl hdir))] at hrun
      cases hrun
    | true =>
      rw [hdir] at hkind
      rw [Place.Open]
      cases hdisk : disk (l.cluster rootCluster) (convertNormalTo83Filename c) with
      | none =>
        rw [lookupTurn_stop hname he hcache (Inode.lookup_asserts hn (.inr (hsc ▸ hdisk)))] at hrun
        cases hrun
      | some entry =>
        refine ⟨fun _ _ => ⟨hkind, Option.some_ne_none _⟩, ?_⟩
        cases entry with
        | none => exact .inl (by simp)
        | some dirent =>
          right
          by_contra hres
          rcases Inode.lookup_found hok hn hdir (hsc ▸ hdisk) hi with ⟨s1, j, hlook, -⟩
          rw [lookupTurn_stale hname he hcache hlook hres] at hrun
          cases hrun

end Turn

section Turns
variable {r : Option ℕ × Result}

/-- Where a component has led it leads again, and nothing new is learned. -/
theorem Locates.learn_eq {l' : Place} (h : Consistent disk rootCluster s) {d : ℕ}
    (hstep : l.step disk rootCluster c = some l') (hl : Locates s d l') (hx : Extends s s') :
    l.learn disk rootCluster s'.kind c = s'.kind := by
  rw [Place.step] at hstep
  rw [Place.learn]
  split_ifs with hdots
  · rfl
  · rw [if_neg fun hdot => hdots (.inl hdot), if_neg fun hdot => hdots (.inr hdot)] at hstep
    obtain ⟨dirent, hent, rfl⟩ := Option.map_eq_some_iff.mp hstep
    rw [hent]
    exact hl.remember_kind h hx

/-- Lookups that return have descended through directories only, and would do so again. -/
theorem lookupTurns_returns {cs : List Name} (h : Consistent disk rootCluster s) (hdirs : s.DirParents)
    (hl : Locates s it l) (hnul : ∀ c ∈ cs, StringView.nul ∉ c) (hfresh : FreshAddrs s addrs)
    (hlen : cs.length ≤ addrs.length) (hrun : lookupTurns disk s it cs res addrs = .ok (s', r)) :
    l.Descends disk rootCluster s.kind (cs.filter (· ≠ [])) ∧
      l.Descends disk rootCluster s'.kind (cs.filter (· ≠ [])) ∧ Extends s s' ∧ s'.DirParents := by
  induction cs generalizing s it l addrs res with
  | nil =>
    cases hrun
    exact ⟨trivial, trivial, .refl _, hdirs⟩
  | cons c cs ih =>
    have hnulc := hnul c List.mem_cons_self
    have hnuls : ∀ c ∈ cs, StringView.nul ∉ c := fun x hx => hnul x (List.mem_cons_of_mem _ hx)
    have hlens : cs.length ≤ addrs.tail.length := by
      rw [List.length_cons] at hlen
      rw [List.length_tail]
      omega
    rw [lookupTurns] at hrun
    by_cases hc : c = []
    · have hskip : (c :: cs).filter (· ≠ []) = cs.filter (· ≠ []) := by simp [hc]
      rw [lookupTurn_stay hnulc (.inl hc)] at hrun
      rw [hskip]
      exact ih h hdirs hl hnuls (hfresh.tail (fun _ _ hx => hx) fun _ _ hx => hx) hlens hrun
    have hkeep : (c :: cs).filter (· ≠ []) = c :: cs.filter (· ≠ []) := by simp [hc]
    rw [hkeep, Place.descends_cons, Place.descends_cons]
    cases hturn : lookupTurn disk s it c res (addrs.headD (0, 0)) with
    | error stop =>
      rw [hturn] at hrun
      cases hrun
    | ok q =>
      rcases q with ⟨s1, next, res1⟩
      have hhead := hfresh.head (Nat.lt_of_lt_of_le (Nat.succ_pos _) hlen)
      obtain ⟨hopen, hres⟩ := lookupTurn_open h hdirs hl hnulc hc hhead.1 hturn
      have hspec := lookupTurn_spec h hl hnulc hc hopen (hres.imp_right fun hok => ⟨hok, hhead⟩)
      rw [hturn] at hrun hspec
      cases hstep : l.step disk rootCluster c with
      | none =>
        rw [hstep] at hspec
        cases hspec
        cases hrun
        exact ⟨⟨hopen, by simp⟩, ⟨hopen, by simp⟩, .refl _, hdirs⟩
      | some l' =>
        rw [hstep] at hspec
        obtain ⟨s2, d, hsame, hr, hkind⟩ := hspec
        cases hsame
        rcases h.counts with ⟨ext, hok⟩
        have hdirs1 := hdirs.turn h hr.consistent hl hstep hr.creates fun hdot hdots => (hopen hdot hdots).1
        obtain ⟨hdesc, hdesc', hx, hdirs'⟩ := ih hr.consistent hdirs1 hr.locates hnuls
          (hfresh.tail hr.inodes hr.dentries) hlens hrun
        have hx' := hr.creates.toExtends.trans hx
        rw [hr.locates.learn_eq hr.consistent hstep hx, ← hkind]
        refine ⟨⟨hopen, ?_⟩, ⟨fun hdot hdots => ?_, ?_⟩, hx', hdirs'⟩
        · rintro _ ⟨⟩
          exact hdesc
        · exact (hopen hdot hdots).imp_left (hx'.kind_mono hok)
        · rintro _ ⟨⟩
          exact hdesc'

end Turns

theorem Place.Descends.of_append {kind : ℕ → Option Bool} {l : Place} {cs cs' : List Name}
    (h : l.Descends disk rootCluster kind (cs ++ cs')) : l.Descends disk rootCluster kind cs := by
  induction cs generalizing kind l with
  | nil => trivial
  | cons c cs ih =>
    rw [List.cons_append, Place.descends_cons] at h
    rw [Place.descends_cons]
    exact ⟨h.1, fun l' hl' => ih (h.2 l' hl')⟩

theorem Place.visited_append (l : Place) (cs cs' : List Name) :
    ∀ l' ∈ l.visited disk rootCluster cs, l' ∈ l.visited disk rootCluster (cs ++ cs') := by
  induction cs generalizing l with
  | nil => exact fun l' h => absurd h List.not_mem_nil
  | cons c cs ih =>
    intro l' h
    rw [Place.visited] at h
    rw [List.cons_append, Place.visited]
    cases hstep : l.step disk rootCluster c with
    | none =>
      rw [hstep] at h
      exact absurd h List.not_mem_nil
    | some l1 =>
      rw [hstep] at h
      rcases List.mem_cons.mp h with rfl | h
      · exact List.mem_cons_self
      · exact List.mem_cons_of_mem _ (ih l1 l' h)

structure HeapFor (s : Vfs) (path : PathString) (addrs : List (ℕ × ℕ)) : Prop where
  fresh : FreshAddrs s addrs
  enough : (components path.chars).length ≤ addrs.length

/-- A lookup that starts with `Ok` returns exactly if it descends through directories only. -/
theorem lookupTurns_returns_iff (h : Consistent disk rootCluster s) (hdirs : s.DirParents)
    {path : PathString} (hheap : HeapFor s path addrs) :
    (∃ s' r, lookupTurns disk s s.root (components path.chars) .Ok addrs = .ok (s', r)) ↔
      Place.Descends disk rootCluster s.kind [] (names path.chars) := by
  constructor
  · rintro ⟨s', r, hrun⟩
    have hdesc := (lookupTurns_returns h hdirs .root path.nul_free_components hheap.fresh
      hheap.enough hrun).1
    rwa [components_filter] at hdesc
  · intro hdesc
    obtain ⟨s', r, hrun, -⟩ := lookupLoop_resolves h
      (⟨hheap.fresh, hheap.enough, hdesc, .inl rfl⟩ : Lookup disk rootCluster s path .Ok addrs)
    have hrun := hrun (path.chars.length + 1) (Nat.lt_succ_self _)
    rw [lookupLoop_eq path.fits (Nat.lt_succ_self _), Option.some.injEq] at hrun
    exact ⟨s', r, hrun⟩

/-- In every reachable state only directories have children. -/
theorem DcacheReach.dirParents {disk : Disk} {rootCluster : ℕ} {s : Vfs} {ext : ℕ → ℕ}
    (h : DcacheReach disk rootCluster s ext) : s.DirParents := by
  induction h with
  | init => exact vfsInit_dirParents rootCluster
  | @lookup s s' ext path addrs fuel r hr hp hfuel hs ih =>
    rw [lookupLoop_eq path.fits hfuel, Option.some.injEq] at hs
    exact (lookupTurns_returns hr.consistent.2 ih .root path.nul_free_components hp.fresh hp.enough
      hs).2.2.2
  | @incRc s s' ext d hr hs ih => exact ih.shrink (Dentry.incRc_extends hs) (hr.incRc hs).consistent.1
  | @decRc s s' ext d hr hpos hs ih =>
    exact ih.shrink (Dentry.decRc_extends hs) (hr.decRc hpos hs).consistent.1

section Reach
variable {path : PathString}

theorem DcacheReach.returns_iff (h : DcacheReach disk rootCluster s ext) (hheap : HeapFor s path addrs) :
    (∃ s' dentry, pathnameLookup disk s path.chars addrs = .ok (s', dentry)) ↔
      Place.Descends disk rootCluster s.kind [] (names path.chars) := by
  rw [← lookupTurns_returns_iff h.consistent.2 h.dirParents hheap, lookupTurns_ok path.nul_free_components]
  change _ ↔ ∃ s' r, (pathnameLookup disk s path.chars addrs).map withRes = .ok (s', r)
  cases pathnameLookup disk s path.chars addrs with
  | error stop => simp [Except.map]
  | ok q => exact ⟨fun _ => ⟨_, _, rfl⟩, fun _ => ⟨q.1, q.2, rfl⟩⟩

theorem DcacheReach.resolves (h : DcacheReach disk rootCluster s ext) (hheap : HeapFor s path addrs)
    (hdesc : Place.Descends disk rootCluster s.kind [] (names path.chars)) :
    ∃ s' dentry, pathnameLookup disk s path.chars addrs = .ok (s', dentry) ∧
      DcacheReach disk rootCluster s' ext ∧
      Creates s s' (Place.visited disk rootCluster [] (names path.chars)) ∧
      match resolve disk rootCluster path.chars with
      | none => dentry = none
      | some l => ∃ d, dentry = some d ∧ Locates s' d l := by
  have hlookup : Lookup disk rootCluster s path .Ok addrs :=
    ⟨hheap.fresh, hheap.enough, hdesc, .inl rfl⟩
  have hfuel : path.chars.length < path.chars.length + 1 := Nat.lt_succ_self _
  rcases lookupLoop_resolves h.consistent.2 hlookup with ⟨s', r, hrun, hans, hcre, -⟩
  have hloop := hrun _ hfuel
  have hsame := hloop
  rw [lookupLoop_eq_pathnameLookup path hfuel, Option.some.injEq] at hsame
  cases hq : pathnameLookup disk s path.chars addrs with
  | error stop =>
    rw [hq] at hsame
    cases hsame
  | ok q =>
    rw [hq] at hsame
    cases hsame
    refine ⟨q.1, q.2, rfl, .lookup h hlookup hfuel hloop, hcre, ?_⟩
    cases hres : resolve disk rootCluster path.chars with
    | none =>
      rw [hres] at hans
      exact (Prod.mk.inj hans).1
    | some l =>
      rw [hres] at hans
      exact hans.2

end Reach

end HmmOS.Fs
