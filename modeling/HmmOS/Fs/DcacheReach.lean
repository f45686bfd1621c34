import HmmOS.Fs.PathResolution

/-! # The states of the dcache

Dropping a reference may delete dentries and inodes, and what is left is as it was.
-/
namespace HmmOS.Fs
open Lib Nonstd Function

variable {disk : Disk} {rootCluster : ℕ} {s : Vfs}

section Shrink
variable {s' : Vfs} {ext : ℕ → ℕ} {d i : ℕ}

theorem Extends.of_freeDentry (s : Vfs) (d : ℕ) : Extends (s.freeDentry d) s where
  root := rfl
  dentries := kept_of_update (fun _ => ⟨rfl, rfl, rfl⟩) nofun
  inodes := fun _ n hn => ⟨n, hn, rfl, rfl, rfl⟩
  clusters := fun _ _ h => h

theorem Extends.of_setDentry {e e' : Dentry} (he : s.dentries d = some e)
    (hi : e'.inode = e.inode) (hp : e'.parent = e.parent) (hc : e'.component = e.component) :
    Extends (s.setDentry d e') s where
  root := rfl
  dentries := by
    refine kept_of_update (fun _ => ⟨rfl, rfl, rfl⟩) fun e₀ he₀ => ?_
    rw [← Option.some.inj he₀]
    exact ⟨e, he, hi.symm, hp.symm, hc.symm⟩
  inodes := fun _ n hn => ⟨n, hn, rfl, rfl, rfl⟩
  clusters := fun _ _ h => h

theorem getDentry_eq_ok {e : Dentry} (h : s.getDentry d = .ok e) : s.dentries d = some e := by
  rw [Vfs.getDentry] at h
  cases hd : s.dentries d with
  | none =>
    rw [hd] at h
    cases h
  | some e' =>
    rw [hd] at h
    cases h
    rfl

theorem getInode_eq_ok {n : Inode} (h : s.getInode i = .ok n) : s.inodes i = some n := by
  rw [Vfs.getInode] at h
  cases hi : s.inodes i with
  | none =>
    rw [hi] at h
    cases h
  | some n' =>
    rw [hi] at h
    cases h
    rfl

theorem Inode.destroy_extends {n : Inode} (h : Inode.destroy s i n = .ok s') : Extends s' s := by
  rw [Inode.destroy] at h
  split_ifs at h
  cases h
  constructor
  case root => rfl
  case dentries => exact fun _ e he => ⟨e, he, rfl, rfl, rfl⟩
  case inodes => exact kept_of_update (fun _ => ⟨rfl, rfl, rfl⟩) (by simp)
  case clusters =>
    intro c j hj
    dsimp only [Vfs.setCluster] at hj
    by_cases hc : c = n.startCluster
    · rw [hc, update_self] at hj
      cases hj
    · rwa [update_of_ne hc] at hj

theorem Inode.decRc_extends (h : Inode.decRc s i = .ok s') : Extends s' s := by
  obtain ⟨n, hget, h⟩ := bind_eq_ok h
  have hn := getInode_eq_ok hget
  split_ifs at h
  · exact Inode.destroy_extends h
  · cases h
    constructor
    case root => rfl
    case dentries => exact fun _ e he => ⟨e, he, rfl, rfl, rfl⟩
    case inodes =>
      refine kept_of_update (fun _ => ⟨rfl, rfl, rfl⟩) fun m hm => ?_
      rw [← Option.some.inj hm]
      exact ⟨n, hn, rfl, rfl, rfl⟩
    case clusters => exact fun _ _ hc => hc

/-- A dentry loses one of several references, or it is deleted with what only it referred to. -/
theorem Dentry.decRcAux_cases {fuel : ℕ} (h : Dentry.decRcAux fuel s d = .ok s') : ∃ e, s.dentries d = some e ∧
      ((1 < e.rc ∧ s' = s.setDentry d { e with rc := e.rc - 1 }) ∨ Extends s' (s.freeDentry d)) := by
  induction fuel generalizing s s' d with
  | zero => cases h
  | succ fuel ih =>
    obtain ⟨e, hget, h⟩ := bind_eq_ok h
    refine ⟨e, getDentry_eq_ok hget, ?_⟩
    by_cases hzero : e.rc = 0
    · rw [if_pos hzero] at h
      cases h
    rw [if_neg hzero] at h
    by_cases hlast : e.rc - 1 = 0
    · right
      rw [if_pos hlast] at h
      by_cases hnil : e.children = []
      · rw [if_neg (not_not.mpr hnil)] at h
        obtain ⟨s1, hs1, h⟩ := bind_eq_ok h
        have hx1 : Extends s1 (s.freeDentry d) := Inode.decRc_extends hs1
        cases hp : e.parent with
        | none =>
          rw [hp] at h
          cases h
          exact hx1
        | some p =>
          rw [hp] at h
          obtain ⟨ep, hep, h⟩ := bind_eq_ok h
          obtain ⟨s2, hs2, h⟩ := bind_eq_ok h
          have hdetach : Extends (s1.setDentry p { ep with children := ep.children.erase d }) s1 :=
            .of_setDentry (getDentry_eq_ok hep) rfl rfl rfl
          have hparent : Extends s2 (s1.setDentry p { ep with children := ep.children.erase d }) := by
            obtain ⟨ep', hep', ⟨-, rfl⟩ | hx⟩ := ih hs2
            · exact .of_setDentry hep' rfl rfl rfl
            · exact hx.trans (.of_freeDentry _ p)
          have hx2 : Extends s2 (s.freeDentry d) := hparent.trans (hdetach.trans hx1)
          -- the dcache is no part of the comparison
          split_ifs at h
          · cases h
            exact ⟨hx2.root, hx2.dentries, hx2.inodes, hx2.clusters⟩
          · cases h
            exact hx2
      · rw [if_pos hnil] at h
        cases h
    · left
      rw [if_neg hlast] at h
      cases h
      exact ⟨by omega, rfl⟩

theorem Dentry.decRcAux_extends {fuel : ℕ} (h : Dentry.decRcAux fuel s d = .ok s') : Extends s' s := by
  obtain ⟨e, he, ⟨-, rfl⟩ | hx⟩ := Dentry.decRcAux_cases h
  · exact .of_setDentry he rfl rfl rfl
  · exact hx.trans (.of_freeDentry s d)

theorem Consistent.shrink (h : Consistent disk rootCluster s) (hx : Extends s' s)
    (hok' : VfsOk s' ext ∅) : Consistent disk rootCluster s' := by
  obtain ⟨ext0, hok⟩ := h.counts
  refine ⟨⟨ext, hok'⟩, ?_, ?_⟩
  · obtain ⟨e, he, -⟩ := hok'.dentries.rooted
    obtain ⟨c, hc⟩ := hok'.hasCluster he
    have hroot := hc.mono hx
    rw [← hx.root] at hroot
    rwa [hroot.unique h.root] at hc
  · intro p name d hd
    rcases (hok'.dentries.cached p name d).mp hd with ⟨e', he', hp', hn'⟩ | hstale
    · obtain ⟨ep', hep', -⟩ := hok'.dentries.parent d e' p he' hp'
      obtain ⟨c, hc⟩ := hok'.hasCluster hep'
      obtain ⟨n', hn'i⟩ := hok'.inodes.live ⟨d, e', he', rfl⟩
      obtain ⟨e0, he0, hi0, hp0, hn0⟩ := hx.dentries d e' he'
      have hcached : s.dcache (p, name) = some d :=
        (hok.dentries.cached p name d).mpr (.inl ⟨e0, he0, hp0.trans hp', hn0.trans hn'⟩)
      obtain ⟨c0, e, dirent, hc0, he, hent, hi⟩ := h.cached p name d hcached
      rw [he0, Option.some.injEq] at he
      rw [← he, hi0] at hi
      obtain ⟨m, hm, hmc⟩ := hok.inodes.clusters.find.mp hi
      obtain ⟨n0, hn0i, hnc, -, -⟩ := hx.inodes e'.inode n' hn'i
      rw [hm, Option.some.injEq] at hn0i
      refine ⟨c, e', dirent, hc, he', ?_, ?_⟩
      · rwa [(hc.mono hx).unique hc0]
      · exact hok'.inodes.clusters.find.mpr ⟨n', hn'i, by rw [← hnc, ← hn0i, hmc]⟩
    · cases hstale

theorem Dentry.decRc_extends (h : Dentry.decRc s d = .ok s') : Extends s' s := by
  obtain ⟨e, -, h⟩ := bind_eq_ok h
  exact Dentry.decRcAux_extends h

theorem Dentry.extends_incRc (h : Dentry.incRc s d = .ok s') : Extends s s' := by
  obtain ⟨e, hget, h⟩ := bind_eq_ok h
  cases h
  exact .setDentry (getDentry_eq_ok hget) rfl rfl rfl

theorem Dentry.incRc_extends (h : Dentry.incRc s d = .ok s') : Extends s' s := by
  obtain ⟨e, hget, h⟩ := bind_eq_ok h
  cases h
  exact .of_setDentry (getDentry_eq_ok hget) rfl rfl rfl

end Shrink

theorem consistent_init (disk : Disk) (rootCluster : ℕ) :
    Consistent disk rootCluster (Vfs.init rootCluster) where
  counts := ⟨_, vfsInit_ok rootCluster⟩
  root := ⟨rootDentry, _, rfl, rfl, rfl⟩
  cached := fun _ _ _ h => nomatch h

section Lookup
variable {res : Result} {addrs : List (ℕ × ℕ)}

/-- Free addresses for new objects, directories on the way, and a result that is `Ok` unless every dentry
on the way exists. -/
structure Lookup (disk : Disk) (rootCluster : ℕ) (s : Vfs) (path : PathString) (res : Result)
    (addrs : List (ℕ × ℕ)) : Prop where
  fresh : FreshAddrs s addrs
  enough : (components path.chars).length ≤ addrs.length
  descends : Place.Descends disk rootCluster s.kind [] (names path.chars)
  res : res = .Ok ∨ ∀ l ∈ Place.visited disk rootCluster [] (names path.chars), ∃ d, Locates s d l

theorem lookupLoop_resolves (h : Consistent disk rootCluster s) {path : PathString}
    (hp : Lookup disk rootCluster s path res addrs) : ∃ s' r, (∀ fuel, path.chars.length < fuel →
        lookupLoop disk fuel s s.root path.chars res addrs = some (.ok (s', r))) ∧
      Answers s' res (resolve disk rootCluster path.chars) r ∧
      Creates s s' (Place.visited disk rootCluster [] (names path.chars)) ∧ Consistent disk rootCluster s' := by
  have hnames := components_filter path.chars
  obtain ⟨s', r, hrun, hcon, hcre, hans, -⟩ := lookupTurns_spec (l := []) h .root path.nul_free_components
    (hnames ▸ hp.descends) (by
      rw [hnames]
      exact hp.res.symm.imp_right fun hok => ⟨hok, hp.fresh, hp.enough⟩)
  rw [hnames] at hcre hans
  refine ⟨s', r, ?_, hans, hcre, hcon⟩
  intro fuel hfuel
  rw [lookupLoop_eq path.fits hfuel, hrun]

/-- A lookup adds the places on its way to those that have a dentry. -/
theorem Creates.places {s' : Vfs} {places : List Place} (h : Consistent disk rootCluster s)
    (h' : Consistent disk rootCluster s') (hc : Creates s s' places) (l : Place) :
    (∃ d, Locates s' d l) ↔ (∃ d, Locates s d l) ∨ l ∈ places := by
  obtain ⟨ext, hok⟩ := h.counts
  obtain ⟨ext', hok'⟩ := h'.counts
  constructor
  · rintro ⟨d, hd⟩
    obtain ⟨e', -, he', -⟩ := hd.hasCluster h'
    cases he : s.dentries d with
    | none =>
      obtain ⟨l', hl', hloc, -⟩ := hc.missing d e' he he'
      rw [hd.place_unique hok' hloc]
      exact .inr hl'
    | some e =>
      obtain ⟨l', hl'⟩ := hok.locates he
      rw [hd.place_unique hok' (hl'.mono hc.toExtends)]
      exact .inl ⟨d, hl'⟩
  · rintro (⟨d, hd⟩ | hl)
    · exact ⟨d, hd.mono hc.toExtends⟩
    · exact hc.located l hl

/-- The loop returns the dentry of the place where the names lead, or null and `FileNotFound`. Exactly
the places on the way get a dentry if they have none. -/
theorem pathnameLookup_folds (h : Consistent disk rootCluster s) {path : PathString}
    (hp : Lookup disk rootCluster s path res addrs) :
    ∃ s' r, (∀ fuel, path.chars.length < fuel →
        lookupLoop disk fuel s s.root path.chars res addrs = some (.ok (s', r))) ∧
      Answers s' res (resolve disk rootCluster path.chars) r ∧
      Creates s s' (Place.visited disk rootCluster [] (names path.chars)) ∧
      (∀ l, (∃ d, Locates s' d l) ↔ (∃ d, Locates s d l) ∨
        l ∈ Place.visited disk rootCluster [] (names path.chars)) ∧
      (∀ l d d', Locates s' d l → Locates s' d' l → d = d') ∧
      Consistent disk rootCluster s' := by
  obtain ⟨s', r, hrun, hans, hcre, hcon⟩ := lookupLoop_resolves h hp
  obtain ⟨ext, hok⟩ := hcon.counts
  exact ⟨s', r, hrun, hans, hcre, hcre.places h hcon, fun _ _ _ hd hd' => hd.dentry_unique hok hd',
    hcon⟩

def binInit : Disk := fun cluster name =>
  if cluster = 2 ∧ name = "BIN        ".toList then some (some ⟨0, 3, 0, true⟩)
  else if cluster = 3 ∧ name = "INIT       ".toList then some (some ⟨0, 4, 10, false⟩)
  else some none

def binInitPath : PathString where
  chars := "//BIN/./../BIN//INIT/".toList
  nul_free := by decide
  fits := by decide

def binInitAddrs : List (ℕ × ℕ) := (List.range 21).map fun k => (k + 1, k + 1)

/-- The file is found, and its dentry is below the one of its directory. -/
theorem pathnameLookup_folds_binInit :
    resolve binInit 2 binInitPath.chars = some [("INIT".toList, 4), ("BIN".toList, 3)] ∧
    ∃ s' d, lookupLoop binInit 22 (Vfs.init 2) 0 binInitPath.chars .Ok binInitAddrs =
        some (.ok (s', some d, .Ok)) ∧ Locates s' d [("INIT".toList, 4), ("BIN".toList, 3)] := by
  have hresolve : resolve binInit 2 binInitPath.chars =
      some [("INIT".toList, 4), ("BIN".toList, 3)] := by decide +kernel
  have hlookup : Lookup binInit 2 (Vfs.init 2) binInitPath .Ok binInitAddrs := by
    constructor
    case fresh => exact ⟨by decide +kernel, by decide +kernel, by decide +kernel, by decide +kernel⟩
    case enough => exact components_length_le _
    case descends =>
      exact ⟨rfl, rfl, rfl, trivial⟩
    case res => exact .inl rfl
  obtain ⟨s', ⟨next, res⟩, hrun, hans, -⟩ :=
    pathnameLookup_folds (consistent_init binInit 2) hlookup
  obtain ⟨rfl, d, rfl, hloc⟩ := hans
  exact ⟨hresolve, s', d, hrun 22 (by decide), hloc⟩

end Lookup

/-- The states that lookups and references reach, with the number of references from outside. -/
inductive DcacheReach (disk : Disk) (rootCluster : ℕ) : Vfs → (ℕ → ℕ) → Prop
  | init : DcacheReach disk rootCluster (Vfs.init rootCluster) fun _ => 0
  | lookup {s s' : Vfs} {ext : ℕ → ℕ} {path : PathString} {addrs : List (ℕ × ℕ)} {fuel : ℕ}
      {r : Option ℕ × Result} (hr : DcacheReach disk rootCluster s ext)
      (hp : Lookup disk rootCluster s path .Ok addrs) (hfuel : path.chars.length < fuel)
      (hs : lookupLoop disk fuel s s.root path.chars .Ok addrs = some (.ok (s', r))) :
      DcacheReach disk rootCluster s' ext
  | incRc {s s' : Vfs} {ext : ℕ → ℕ} {d : ℕ} (hr : DcacheReach disk rootCluster s ext)
      (hs : Dentry.incRc s d = .ok s') :
      DcacheReach disk rootCluster s' (Function.update ext d (ext d + 1))
  | decRc {s s' : Vfs} {ext : ℕ → ℕ} {d : ℕ} (hr : DcacheReach disk rootCluster s ext)
      (hpos : 0 < ext d) (hs : Dentry.decRc s d = .ok s') :
      DcacheReach disk rootCluster s' (Function.update ext d (ext d - 1))

theorem DcacheReach.consistent {disk : Disk} {rootCluster : ℕ} {s : Vfs} {ext : ℕ → ℕ}
    (h : DcacheReach disk rootCluster s ext) : VfsOk s ext ∅ ∧ Consistent disk rootCluster s := by
  induction h with
  | init => exact ⟨vfsInit_ok rootCluster, consistent_init disk rootCluster⟩
  | @lookup s s' ext path addrs fuel r _ hp hfuel hs ih =>
    obtain ⟨s'', r', hrun, -, -, hcon⟩ := lookupLoop_resolves ih.2 hp
    rw [hrun fuel hfuel, Option.some.injEq] at hs
    cases hs
    have hsame := hrun fuel hfuel
    rw [lookupLoop_eq_pathnameLookup path hfuel, Option.some.injEq] at hsame
    have hspec := @pathnameLookup_spec disk s ext ih.1 path.chars addrs
    cases hq : pathnameLookup disk s path.chars addrs with
    | error e =>
      rw [hq] at hsame
      cases hsame
    | ok q =>
      rw [hq] at hsame
      cases hsame
      exact ⟨(hspec.ok hq).1, hcon⟩
  | @incRc s s' ext d _ hs ih =>
    obtain ⟨e, hget, -⟩ := bind_eq_ok hs
    obtain ⟨s'', hs'', hok⟩ := Dentry.incRc_spec ih.1 (getDentry_eq_ok hget)
    rw [hs] at hs''
    cases hs''
    exact ⟨hok, ih.2.shrink (Dentry.incRc_extends hs) hok⟩
  | @decRc s s' ext d _ hpos hs ih =>
    obtain ⟨s'', hs'', hok⟩ := Dentry.decRc_spec ih.1 hpos
    rw [hs] at hs''
    cases hs''
    exact ⟨hok, ih.2.shrink (Dentry.decRc_extends hs) hok⟩

end HmmOS.Fs
