import HmmOS.Fs.PathnameLookup

/-! # Path lookup is a fold over the names of a path

The directories on disk span a tree; a place in it is the list of the names and
clusters that lead to it from the root. Every dentry has a place of its own.
-/
namespace HmmOS.Fs
open Lib Nonstd Function

/-- The names below the root, innermost first, each with the cluster it leads to. -/
abbrev Place := List (Name × ℕ)

/-- What the directory that starts at a cluster has under a name. -/
def childEntry (disk : Disk) (c : ℕ) (name : Name) : Option DirectoryEntry :=
  (disk c (convertNormalTo83Filename name)).join

section Places
variable (disk : Disk) (rootCluster : ℕ)

def Place.cluster (l : Place) : ℕ := (l.head?.map Prod.snd).getD rootCluster

/-- `.` stays, `..` goes to the parent and stays at the root, a name goes to that child. -/
def Place.step (l : Place) (component : Name) : Option Place :=
  if component = ['.'] then some l
  else if component = ['.', '.'] then some l.tail
  else (childEntry disk (l.cluster rootCluster) component).map fun e =>
    (component, e.startCluster) :: l

/-- Where the names of a path lead, unless one of them is missing. -/
def resolve (path : Name) : Option Place := (names path).foldlM (Place.step disk rootCluster) []

/-- The places on the way, up to the first missing name. -/
def Place.visited : Place → List Name → List Place
  | _, [] => []
  | l, c :: cs => match l.step disk rootCluster c with
    | none => []
    | some l' => l' :: Place.visited l' cs

/-- `lookup` yields the live inode of the entry's cluster, with the flag that it has, or a new one
with the flag of the entry. -/
def remember (kind : ℕ → Option Bool) (e : DirectoryEntry) : ℕ → Option Bool :=
  Function.update kind e.startCluster (some ((kind e.startCluster).getD e.subdir))

/-- Names are only looked up in directories, and the cluster chains of these directories do not end early. -/
def Place.Descends (kind : ℕ → Option Bool) (l : Place) : List Name → Prop
  | [] => True
  | c :: cs =>
    if c = ['.'] then Place.Descends kind l cs
    else if c = ['.', '.'] then Place.Descends kind l.tail cs
    else kind (l.cluster rootCluster) = some true ∧
      match disk (l.cluster rootCluster) (convertNormalTo83Filename c) with
      | none => False
      | some none => True
      | some (some e) => Place.Descends (remember kind e) ((c, e.startCluster) :: l) cs

/-- A component that is looked up is looked up in a directory with a whole chain of clusters. -/
def Place.Open (kind : ℕ → Option Bool) (l : Place) (c : Name) : Prop :=
  c ≠ ['.'] → c ≠ ['.', '.'] → kind (l.cluster rootCluster) = some true ∧
    disk (l.cluster rootCluster) (convertNormalTo83Filename c) ≠ none

def Place.learn (kind : ℕ → Option Bool) (l : Place) (c : Name) : ℕ → Option Bool :=
  if c = ['.'] ∨ c = ['.', '.'] then kind
  else (childEntry disk (l.cluster rootCluster) c).elim kind (remember kind)

theorem Place.descends_cons {kind : ℕ → Option Bool} {l : Place} {c : Name} {cs : List Name} :
    l.Descends disk rootCluster kind (c :: cs) ↔ l.Open disk rootCluster kind c ∧
      ∀ l', l.step disk rootCluster c = some l' →
        l'.Descends disk rootCluster (l.learn disk rootCluster kind c) cs := by
  rw [Place.Descends, Place.Open, Place.step, Place.learn, childEntry]
  by_cases hdot : c = ['.']
  · simp [hdot]
  by_cases hdots : c = ['.', '.']
  · simp [hdots]
  rw [if_neg hdot, if_neg hdots, if_neg hdot, if_neg hdots, if_neg (not_or.mpr ⟨hdot, hdots⟩)]
  cases disk (l.cluster rootCluster) (convertNormalTo83Filename c) with
  | none => simp [hdot, hdots]
  | some entry => cases entry <;> simp [hdot, hdots]

end Places

def Vfs.HasCluster (s : Vfs) (d c : ℕ) : Prop :=
  ∃ e n, s.dentries d = some e ∧ s.inodes e.inode = some n ∧ n.startCluster = c

/-- The directory flag of the live inode of a cluster. -/
def Vfs.kind (s : Vfs) (c : ℕ) : Option Bool :=
  (s.startClusterToInode c).bind fun i => (s.inodes i).map Inode.isDirectory

inductive Locates (s : Vfs) : ℕ → Place → Prop
  | root : Locates s s.root []
  | child {d p c : ℕ} {e : Dentry} {name : Name} {l : Place} (hd : s.dentries d = some e)
      (hp : e.parent = some p) (hn : e.component = name) (hc : s.HasCluster d c)
      (hl : Locates s p l) : Locates s d ((name, c) :: l)

structure Consistent (disk : Disk) (rootCluster : ℕ) (s : Vfs) : Prop where
  counts : ∃ ext, VfsOk s ext ∅
  root : s.HasCluster s.root rootCluster
  cached : ∀ p name d, s.dcache (p, name) = some d → ∃ c e dirent, s.HasCluster p c ∧
    s.dentries d = some e ∧ childEntry disk c name = some dirent ∧
    s.startClusterToInode dirent.startCluster = some e.inode

structure Extends (s s' : Vfs) : Prop where
  root : s'.root = s.root
  dentries : ∀ d e, s.dentries d = some e → ∃ e', s'.dentries d = some e' ∧
    e'.inode = e.inode ∧ e'.parent = e.parent ∧ e'.component = e.component
  inodes : ∀ i n, s.inodes i = some n → ∃ n', s'.inodes i = some n' ∧
    n'.startCluster = n.startCluster ∧ n'.isDirectory = n.isDirectory ∧ n'.size = n.size
  clusters : ∀ c i, s.startClusterToInode c = some i → s'.startClusterToInode c = some i

/-- The dentries for `places` are there, and the new ones are those that were missing. -/
structure Creates (s s' : Vfs) (places : List Place) : Prop extends Extends s s' where
  located : ∀ l ∈ places, ∃ d, Locates s' d l
  missing : ∀ d e, s.dentries d = none → s'.dentries d = some e →
    ∃ l ∈ places, Locates s' d l ∧ ∀ d', ¬ Locates s d' l

structure FreshAddrs (s : Vfs) (addrs : List (ℕ × ℕ)) : Prop where
  inodes : ∀ a ∈ addrs, s.inodes a.1 = none
  dentries : ∀ a ∈ addrs, s.dentries a.2 = none
  inodes_nodup : (addrs.map Prod.fst).Nodup
  dentries_nodup : (addrs.map Prod.snd).Nodup

variable {disk : Disk} {rootCluster : ℕ} {s s' : Vfs} {ext : ℕ → ℕ} {d p : ℕ} {e : Dentry} {l : Place}

section Locating
variable {s'' : Vfs} {d' c : ℕ} {l' : Place} {ls ls' : List Place}

theorem Extends.refl (s : Vfs) : Extends s s where
  root := rfl
  dentries := fun _ e he => ⟨e, he, rfl, rfl, rfl⟩
  inodes := fun _ n hn => ⟨n, hn, rfl, rfl, rfl⟩
  clusters := fun _ _ h => h

theorem Extends.trans (h : Extends s s') (h' : Extends s' s'') : Extends s s'' where
  root := h'.root.trans h.root
  dentries := by
    intro d e he
    obtain ⟨e', he', hi, hp, hc⟩ := h.dentries d e he
    obtain ⟨e'', he'', hi', hp', hc'⟩ := h'.dentries d e' he'
    exact ⟨e'', he'', hi'.trans hi, hp'.trans hp, hc'.trans hc⟩
  inodes := by
    intro i n hn
    obtain ⟨n', hn', hc, hd, hs⟩ := h.inodes i n hn
    obtain ⟨n'', hn'', hc', hd', hs'⟩ := h'.inodes i n' hn'
    exact ⟨n'', hn'', hc'.trans hc, hd'.trans hd, hs'.trans hs⟩
  clusters := fun c i hi => h'.clusters c i (h.clusters c i hi)

theorem Extends.setDentry {e' : Dentry} (he : s.dentries d = some e) (hi : e'.inode = e.inode)
    (hp : e'.parent = e.parent) (hc : e'.component = e.component) : Extends s (s.setDentry d e') where
  root := rfl
  dentries := by
    refine kept_update (fun _ => ⟨rfl, rfl, rfl⟩) fun e₀ he₀ => ?_
    rw [← Option.some.inj (he.symm.trans he₀)]
    exact ⟨e', rfl, hi, hp, hc⟩
  inodes := fun _ n hn => ⟨n, hn, rfl, rfl, rfl⟩
  clusters := fun _ _ h => h

theorem Vfs.HasCluster.mono (h : s.HasCluster d c) (hx : Extends s s') : s'.HasCluster d c := by
  obtain ⟨e, n, he, hn, hc⟩ := h
  obtain ⟨e', he', hi, -, -⟩ := hx.dentries d e he
  obtain ⟨n', hn', hc', -, -⟩ := hx.inodes _ n hn
  exact ⟨e', n', he', hi ▸ hn', hc'.trans hc⟩

theorem Vfs.HasCluster.unique {c' : ℕ} (h : s.HasCluster d c) (h' : s.HasCluster d c') : c = c' := by
  obtain ⟨e, n, he, hn, hc⟩ := h
  obtain ⟨e', n', he', hn', hc'⟩ := h'
  rw [he, Option.some.injEq] at he'
  rw [← he', hn, Option.some.injEq] at hn'
  rw [← hc, ← hc', hn']

theorem Locates.mono (h : Locates s d l) (hx : Extends s s') : Locates s' d l := by
  induction h with
  | root =>
    rw [← hx.root]
    exact .root
  | child hd hp hn hc _ ih =>
    obtain ⟨e', he', -, hp', hn'⟩ := hx.dentries _ _ hd
    exact .child he' (hp'.trans hp) (hn'.trans hn) (hc.mono hx) ih

theorem Locates.place_unique (hok : VfsOk s ext ∅) (h : Locates s d l) (h' : Locates s d l') : l = l' := by
  obtain ⟨er, her, hnone⟩ := hok.dentries.rooted
  induction h generalizing l' with
  | root =>
    cases h' with
    | root => rfl
    | child hd hp _ _ _ =>
      rw [her, Option.some.injEq] at hd
      rw [← hd, hnone] at hp
      cases hp
  | child hd hp hn hc _ ih =>
    cases h' with
    | root =>
      rw [her, Option.some.injEq] at hd
      rw [← hd, hnone] at hp
      cases hp
    | child hd' hp' hn' hc' hl' =>
      rw [hd, Option.some.injEq] at hd'
      subst hd'
      rw [hp, Option.some.injEq] at hp'
      subst hp'
      rw [ih hl', hc.unique hc', ← hn, hn']

theorem Locates.dentry_unique (hok : VfsOk s ext ∅) (h : Locates s d l) (h' : Locates s d' l) : d = d' := by
  induction h generalizing d' with
  | root =>
    cases h' with
    | root => rfl
  | child hd hp hn _ _ ih =>
    cases h' with
    | child hd' hp' hn' _ hl' =>
      rw [← ih hl'] at hp'
      exact hok.dentries.keys_inj hd hd' hp hp' (hn.trans hn'.symm)

theorem VfsOk.hasCluster (hok : VfsOk s ext ∅) (hd : s.dentries d = some e) : ∃ c, s.HasCluster d c := by
  obtain ⟨n, hn⟩ := hok.inodes.live ⟨d, e, hd, rfl⟩
  exact ⟨n.startCluster, e, n, hd, hn, rfl⟩

theorem VfsOk.locates (hok : VfsOk s ext ∅) (hd : s.dentries d = some e) : ∃ l, Locates s d l := by
  induction hlevel : e.level using Nat.strong_induction_on generalizing d e with
  | _ level ih =>
    cases hp : e.parent with
    | none =>
      rw [hok.dentries.orphan d e hd hp]
      exact ⟨[], .root⟩
    | some p =>
      obtain ⟨ep, hep, hlt⟩ := hok.dentries.parent d e p hd hp
      obtain ⟨l, hl⟩ := ih ep.level (hlevel ▸ hlt) hep rfl
      obtain ⟨c, hc⟩ := hok.hasCluster hd
      exact ⟨_, .child hd hp rfl hc hl⟩

theorem Locates.hasCluster (h : Consistent disk rootCluster s) (hl : Locates s d l) :
    s.HasCluster d (l.cluster rootCluster) := by
  cases hl with
  | root => exact h.root
  | child _ _ _ hc _ => exact hc

theorem Creates.stay (hl : Locates s d l) : Creates s s [l] where
  toExtends := .refl s
  located := by
    intro l' hl'
    rw [List.mem_singleton.mp hl']
    exact ⟨d, hl⟩
  missing := by
    intro d' e hd' hd
    rw [hd'] at hd
    cases hd

theorem Creates.none (s : Vfs) : Creates s s [] where
  toExtends := .refl s
  located := fun _ hl => absurd hl List.not_mem_nil
  missing := by
    intro d e hd hd'
    rw [hd] at hd'
    cases hd'

theorem Creates.trans (h : Creates s s' ls) (h' : Creates s' s'' ls') : Creates s s'' (ls ++ ls') where
  toExtends := h.toExtends.trans h'.toExtends
  located := by
    intro l hl
    rcases List.mem_append.mp hl with hl | hl
    · obtain ⟨d, hd⟩ := h.located l hl
      exact ⟨d, hd.mono h'.toExtends⟩
    · exact h'.located l hl
  missing := by
    intro d e hd hd''
    cases hd' : s'.dentries d with
    | none =>
      obtain ⟨l, hl, hloc, hno⟩ := h'.missing d e hd' hd''
      exact ⟨l, List.mem_append_right _ hl, hloc, fun x hx => hno x (hx.mono h.toExtends)⟩
    | some e' =>
      obtain ⟨l, hl, hloc, hno⟩ := h.missing d e' hd hd'
      exact ⟨l, List.mem_append_left _ hl, hloc.mono h'.toExtends, hno⟩

end Locating

section Growth
variable {i addr : ℕ} {ep : Dentry} {n : Inode} {name : Name} {dirent : DirectoryEntry}

/-- The flags of live inodes stay, also when the map from clusters grows. -/
theorem Extends.kind_eq (hok : VfsOk s ext ∅) (hx : Extends s s') {c : ℕ}
    (hc : s'.startClusterToInode c = s.startClusterToInode c) : s'.kind c = s.kind c := by
  rw [Vfs.kind, Vfs.kind, hc]
  cases hi : s.startClusterToInode c with
  | none => rfl
  | some i =>
    obtain ⟨n, hn, -⟩ := hok.inodes.clusters.find.mp hi
    obtain ⟨n', hn', -, hdir, -⟩ := hx.inodes i n hn
    simp [hn, hn', hdir]

theorem VfsOk.kind_isSome (hok : VfsOk s ext ∅) {c : ℕ} (hi : s.startClusterToInode c = some i) :
    ∃ b, s.kind c = some b := by
  obtain ⟨n, hn, -⟩ := hok.inodes.clusters.find.mp hi
  exact ⟨n.isDirectory, by simp [Vfs.kind, hi, hn]⟩

theorem VfsOk.remember_kind (hok : VfsOk s ext ∅) (hi : s.startClusterToInode dirent.startCluster = some i) :
    remember s.kind dirent = s.kind := by
  obtain ⟨b, hb⟩ := hok.kind_isSome hi
  rw [remember, hb, Option.getD_some, ← hb, update_eq_self]

def Vfs.addInode (s : Vfs) (addr : ℕ) (dirent : DirectoryEntry) : Vfs :=
  { s with
    nextInode := (s.nextInode + 1) % 2 ^ 32
    inodes := Function.update s.inodes addr (some
      { id := s.nextInode, startCluster := dirent.startCluster,
        size := dirent.fileSzBytes, isDirectory := dirent.subdir })
    startClusterToInode :=
      Function.update s.startClusterToInode dirent.startCluster (some addr) }

theorem Inode.lookup_live (hn : s.inodes i = some n) (hdir : n.isDirectory = true)
    (hdisk : disk n.startCluster (convertNormalTo83Filename name) = some (some dirent)) {j : ℕ}
    (hj : s.startClusterToInode dirent.startCluster = some j) :
    Inode.lookup disk s i addr name = .ok (s, some j) := by
  have hget : s.getInode i = .ok n := by rw [Vfs.getInode, hn]
  simp [Inode.lookup, hget, hdir, hdisk, hj, pure, Except.pure]

theorem Inode.lookup_new (hn : s.inodes i = some n) (hdir : n.isDirectory = true)
    (hdisk : disk n.startCluster (convertNormalTo83Filename name) = some (some dirent))
    (hj : s.startClusterToInode dirent.startCluster = none) (haddr : s.inodes addr = none) :
    Inode.lookup disk s i addr name = .ok (s.addInode addr dirent, some addr) := by
  have hget : s.getInode i = .ok n := by rw [Vfs.getInode, hn]
  simp [Inode.lookup, hget, hdir, hdisk, hj, Inode.construct, haddr, Vfs.setInode,
    Vfs.setCluster, Vfs.addInode, pure, Except.pure]

theorem Vfs.addInode_extends (hj : s.startClusterToInode dirent.startCluster = none)
    (haddr : s.inodes addr = none) : Extends s (s.addInode addr dirent) where
  root := rfl
  dentries := fun _ e he => ⟨e, he, rfl, rfl, rfl⟩
  inodes := kept_update (fun _ => ⟨rfl, rfl, rfl⟩) fun m hm => nomatch haddr.symm.trans hm
  clusters := by
    intro c k hk
    have hc : c ≠ dirent.startCluster := fun hc => by rw [hc, hj] at hk; cases hk
    exact (update_of_ne hc _ _).trans hk

/-- `lookup` finds the live inode of the entry's cluster, or makes one. -/
theorem Inode.lookup_found (hok : VfsOk s ext ∅) (hn : s.inodes i = some n) (hdir : n.isDirectory = true)
    (hdisk : disk n.startCluster (convertNormalTo83Filename name) = some (some dirent))
    (haddr : s.inodes addr = none) :
    ∃ s' j, Inode.lookup disk s i addr name = .ok (s', some j) ∧ VfsOk s' ext ∅ ∧ Extends s s' ∧
      s'.startClusterToInode dirent.startCluster = some j ∧ s'.kind = remember s.kind dirent ∧
      (∀ a, a ≠ addr → s.inodes a = none → s'.inodes a = none) ∧
      (s' = s ∨ s.startClusterToInode dirent.startCluster = none ∧ j = addr ∧ s' = s.addInode addr dirent) := by
  have hspec := @Inode.lookup_spec disk s ext i addr hok n hn name
  cases hj : s.startClusterToInode dirent.startCluster with
  | some j =>
    exact ⟨s, j, Inode.lookup_live hn hdir hdisk hj, hok, .refl s, hj, (hok.remember_kind hj).symm,
      fun _ _ h => h, .inl rfl⟩
  | none =>
    have hlook := Inode.lookup_new hn hdir hdisk hj haddr
    have hx := Vfs.addInode_extends hj haddr
    refine ⟨_, addr, hlook, (hspec.ok hlook).1, hx, update_self _ _ _, ?_, ?_, .inr ⟨rfl, rfl, rfl⟩⟩
    · funext c
      by_cases hc : c = dirent.startCluster
      · have hnew : s.kind dirent.startCluster = none := by rw [Vfs.kind, hj]; rfl
        rw [hc, remember, update_self, hnew]
        simp [Vfs.kind, Vfs.addInode]
      · rw [remember, update_of_ne hc]
        exact hx.kind_eq hok (update_of_ne hc _ _)
    · intro a ha hnone
      exact (update_of_ne ha _ _).trans hnone

theorem Inode.lookup_missing (hn : s.inodes i = some n) (hdir : n.isDirectory = true)
    (hdisk : disk n.startCluster (convertNormalTo83Filename name) = some none) :
    Inode.lookup disk s i addr name = .ok (s, none) := by
  have hget : s.getInode i = .ok n := by rw [Vfs.getInode, hn]
  simp [Inode.lookup, hget, hdir, hdisk, pure, Except.pure]

theorem Dentry.construct_extends (hok : VfsOk s ext ∅) (hp : s.dentries p = some ep)
    (hn : s.inodes i = some n) (hk : s.dcache (p, name) = none) (hd : s.dentries d = none) :
    ∃ s' e, Dentry.construct s d p i name = .ok s' ∧ VfsOk s' ext ∅ ∧ Extends s s' ∧
      s'.dentries d = some e ∧ e.inode = i ∧ e.parent = some p ∧ e.component = name ∧
      s'.dcache = update s.dcache (p, name) (some d) ∧ s'.startClusterToInode = s.startClusterToInode ∧
      (∀ x, x ≠ d → s.dentries x = none → s'.dentries x = none) ∧
      ∀ x, s.inodes x = none → s'.inodes x = none := by
  have hget : s.getDentry p = .ok ep := getDentry_of_some hp
  have hspec := @Dentry.construct_spec s ext d p i ep hok hp n hn name hk
  have heq : Dentry.construct s d p i name = .ok
      { s with
        dentries := update (update s.dentries p
          (some { ep with rc := ep.rc + 1, children := ep.children ++ [d] })) d
          (some { inode := i, parent := some p, component := name, inHashtable := true, level := ep.level + 1 })
        dcache := update s.dcache (p, name) (some d)
        inodes := update s.inodes i (some { n with rc := n.rc + 1 }) } := by
    simp [Dentry.construct, hd, hget, hk, Vfs.setDentry, Vfs.setDcache, Inode.incRc, Vfs.getInode,
      hn, Vfs.setInode, pure, Except.pure]
  refine ⟨_, _, heq, (hspec.ok heq).1, ?_, update_self _ _ _, rfl, rfl, rfl, rfl, rfl, ?_, ?_⟩
  · have hparent : Extends s (s.setDentry p { ep with rc := ep.rc + 1, children := ep.children ++ [d] }) :=
      .setDentry hp rfl rfl rfl
    refine hparent.trans ?_
    constructor
    case root => rfl
    case dentries =>
      have hfree : (s.setDentry p { ep with rc := ep.rc + 1, children := ep.children ++ [d] }).dentries d = none := by
        have hdp : d ≠ p := by
          rintro rfl
          cases hd.symm.trans hp
        exact (update_of_ne hdp _ _).trans hd
      refine kept_update (fun _ => ⟨rfl, rfl, rfl⟩) fun m hm => ?_
      cases hfree.symm.trans hm
    case inodes =>
      refine kept_update (fun _ => ⟨rfl, rfl, rfl⟩) fun m hm => ?_
      rw [← Option.some.inj (hn.symm.trans hm)]
      exact ⟨_, rfl, rfl, rfl, rfl⟩
    case clusters => exact fun _ _ h => h
  · intro x hxd hx
    have hxp : x ≠ p := fun h => by rw [h, hp] at hx; cases hx
    dsimp only
    rw [update_of_ne hxd, update_of_ne hxp, hx]
  · intro x hx
    have hxi : x ≠ i := fun h => by rw [h, hn] at hx; cases hx
    exact (update_of_ne hxi _ _).trans hx

end Growth

section Turn
variable {it : ℕ} {c : Name} {res : Result} {a : ℕ × ℕ} {cs : List Name}

section
variable (h : Consistent disk rootCluster s) (hl : Locates s it l)
include h hl

theorem Consistent.locates_of_cached (hd : s.dcache (it, c) = some d) :
    ∃ dirent i, childEntry disk (l.cluster rootCluster) c = some dirent ∧
      s.startClusterToInode dirent.startCluster = some i ∧ Locates s d ((c, dirent.startCluster) :: l) := by
  obtain ⟨ext, hok⟩ := h.counts
  obtain ⟨c', e, dirent, hc', he, hent, hi⟩ := h.cached it c d hd
  obtain ⟨n, hn, hsc⟩ := hok.inodes.clusters.find.mp hi
  have hcluster : c' = l.cluster rootCluster := hc'.unique (hl.hasCluster h)
  refine ⟨dirent, e.inode, hcluster ▸ hent, hi, ?_⟩
  rcases (hok.dentries.cached it c d).mp hd with ⟨e', he', hp, hname⟩ | hstale
  · exact .child he' hp hname ⟨e, n, he, hn, hsc⟩ hl
  · cases hstale

theorem Consistent.cached_of_locates {x : ℕ} (hd : Locates s d ((c, x) :: l)) : s.dcache (it, c) = some d := by
  obtain ⟨ext, hok⟩ := h.counts
  cases hd with
  | child he hp hname _ hl' =>
    rw [hl'.dentry_unique hok hl] at hp
    exact (hok.dentries.cached it c d).mpr (.inl ⟨_, he, hp, hname⟩)

theorem Locates.getDentry : ∃ e, s.dentries it = some e ∧ s.getDentry it = .ok e := by
  obtain ⟨e, -, he, -⟩ := hl.hasCluster h
  exact ⟨e, he, getDentry_of_some he⟩

theorem Locates.tail {e : Dentry} (he : s.dentries it = some e) : Locates s (e.parent.getD it) l.tail := by
  obtain ⟨ext, hok⟩ := h.counts
  cases hl with
  | root =>
    obtain ⟨er, her, hnone⟩ := hok.dentries.rooted
    rw [her, Option.some.injEq] at he
    rw [← he, hnone]
    exact .root
  | child hd hp _ _ hl' =>
    rw [hd, Option.some.injEq] at he
    rw [← he, hp]
    exact hl'

end

theorem lookupTurn_stay (hnul : StringView.nul ∉ c) (hc : c = [] ∨ c = ['.']) :
    lookupTurn disk s it c res a = .ok (s, some it, res) := by
  rw [lookupTurn, if_pos (hc.imp_right (StringView.eq_iff hnul).mpr)]
  rfl

theorem lookupTurn_up (hnul : StringView.nul ∉ c) (hc : c = ['.', '.']) {e : Dentry}
    (he : s.getDentry it = .ok e) : lookupTurn disk s it c res a = .ok (s, some (e.parent.getD it), res) := by
  have hstay : ¬ (c = [] ∨ StringView.eq c ['.'] = true) := by
    rw [StringView.eq_iff hnul, hc]
    simp
  rw [lookupTurn, if_neg hstay, he, ok_bind, if_pos ((StringView.eq_iff hnul).mpr hc)]
  rfl

structure IsName (c : Name) : Prop where
  nul_free : StringView.nul ∉ c
  ne_nil : c ≠ []
  ne_dot : c ≠ ['.']
  ne_dots : c ≠ ['.', '.']

section
variable (h : Consistent disk rootCluster s) {dirent : DirectoryEntry}
include h

theorem lookupTurn_cached (hl : Locates s it l) (hc : IsName c) (hd : s.dcache (it, c) = some d) :
    lookupTurn disk s it c res a = .ok (s, some d, res) := by
  obtain ⟨e, -, hget⟩ := hl.getDentry h
  simp [lookupTurn, StringView.eq_iff hc.nul_free, hc.ne_nil, hc.ne_dot, hc.ne_dots, hget, hd, pure,
    Except.pure]

theorem Locates.directory (hl : Locates s it l) (hkind : s.kind (l.cluster rootCluster) = some true) :
    ∃ e n, s.dentries it = some e ∧ s.inodes e.inode = some n ∧
      n.startCluster = l.cluster rootCluster ∧ n.isDirectory = true := by
  obtain ⟨ext, hok⟩ := h.counts
  obtain ⟨e, n, he, hn, hc⟩ := hl.hasCluster h
  have hi : s.startClusterToInode (l.cluster rootCluster) = some e.inode :=
    hok.inodes.clusters.find.mpr ⟨n, hn, hc⟩
  refine ⟨e, n, he, hn, hc, ?_⟩
  simpa [Vfs.kind, hi, hn] using hkind

theorem lookupTurn_missing (hl : Locates s it l) (hc : IsName c)
    (hkind : s.kind (l.cluster rootCluster) = some true)
    (hdisk : disk (l.cluster rootCluster) (convertNormalTo83Filename c) = some none) :
    lookupTurn disk s it c res a = .ok (s, none, .FileNotFound) := by
  obtain ⟨e, n, he, hn, hsc, hdir⟩ := hl.directory h hkind
  have hmiss : s.dcache (it, c) = none := by
    cases hd : s.dcache (it, c) with
    | none => rfl
    | some d =>
      obtain ⟨dirent, -, hent, -⟩ := h.locates_of_cached hl hd
      rw [childEntry, hdisk] at hent
      cases hent
  have hlook := @Inode.lookup_missing disk s e.inode a.1 n c hn hdir (hsc ▸ hdisk)
  simp [lookupTurn, StringView.eq_iff hc.nul_free, hc.ne_nil, hc.ne_dot, hc.ne_dots,
    getDentry_of_some he, hmiss, Inode.lookupRes, hlook, pure, Except.pure, bind, Except.bind]

/-- A new key of the cache, with the inode that the disk has under it. -/
theorem Consistent.cache {s' : Vfs} {ext : ℕ → ℕ} (hok : VfsOk s' ext ∅) (hx : Extends s s')
    {e : Dentry} {cluster : ℕ} (hdc : s'.dcache = update s.dcache (it, c) (some d))
    (hit : s.HasCluster it cluster) (he : s'.dentries d = some e)
    (hent : childEntry disk cluster c = some dirent)
    (hi : s'.startClusterToInode dirent.startCluster = some e.inode) : Consistent disk rootCluster s' := by
  refine ⟨⟨ext, hok⟩, ?_, ?_⟩
  · rw [hx.root]
    exact h.root.mono hx
  · intro p name d' hd'
    rw [hdc] at hd'
    by_cases hkey : (p, name) = (it, c)
    · rw [hkey, update_self, Option.some.injEq] at hd'
      obtain ⟨rfl, rfl⟩ := Prod.mk.inj hkey
      exact ⟨cluster, e, dirent, hit.mono hx, hd' ▸ he, hent, hi⟩
    · rw [update_of_ne hkey] at hd'
      obtain ⟨c', e', dirent', hc', he', hent, hi'⟩ := h.cached p name d' hd'
      obtain ⟨e'', he'', hinode, -, -⟩ := hx.dentries d' e' he'
      exact ⟨c', e'', dirent', hc'.mono hx, he'', hent, hinode ▸ hx.clusters _ _ hi'⟩

theorem lookupTurn_found (hl : Locates s it l) (hc : IsName c)
    (hkind : s.kind (l.cluster rootCluster) = some true)
    (hdisk : disk (l.cluster rootCluster) (convertNormalTo83Filename c) = some (some dirent))
    (hmiss : s.dcache (it, c) = none) (hi : s.inodes a.1 = none) (hd : s.dentries a.2 = none) :
    ∃ s', lookupTurn disk s it c .Ok a = .ok (s', some a.2, .Ok) ∧
      Consistent disk rootCluster s' ∧ Locates s' a.2 ((c, dirent.startCluster) :: l) ∧
      Creates s s' [(c, dirent.startCluster) :: l] ∧ s'.kind = remember s.kind dirent ∧
      (∀ x, x ≠ a.1 → s.inodes x = none → s'.inodes x = none) ∧
      ∀ x, x ≠ a.2 → s.dentries x = none → s'.dentries x = none := by
  obtain ⟨ext, hok⟩ := h.counts
  obtain ⟨e, n, he, hn, hsc, hdir⟩ := hl.directory h hkind
  obtain ⟨s1, j, hlook, hok1, hx1, hj, hkind1, hfi1, hs1⟩ := Inode.lookup_found hok hn hdir (hsc ▸ hdisk) hi
  obtain ⟨hde1, hdc1⟩ : s1.dentries = s.dentries ∧ s1.dcache = s.dcache := by
    rcases hs1 with rfl | ⟨-, -, rfl⟩ <;> exact ⟨rfl, rfl⟩
  obtain ⟨m, hm, hmc⟩ := hok1.inodes.clusters.find.mp hj
  obtain ⟨s2, e2, hcon, hok2, hx2, he2, hino, hpar, hcomp, hdc2, hcl2, hfd2, hfi2⟩ :=
    Dentry.construct_extends hok1 (hde1 ▸ he) hm (hdc1 ▸ hmiss) (hde1 ▸ hd)
  have hx : Extends s s2 := hx1.trans hx2
  have hcluster : s2.HasCluster a.2 dirent.startCluster := by
    obtain ⟨m', hm', hmc', -, -⟩ := hx2.inodes j m hm
    exact ⟨e2, m', he2, hino ▸ hm', hmc'.trans hmc⟩
  have hloc : Locates s2 a.2 ((c, dirent.startCluster) :: l) :=
    .child he2 hpar hcomp hcluster (hl.mono hx)
  have hent : childEntry disk (l.cluster rootCluster) c = some dirent := by
    rw [childEntry, hdisk]
    rfl
  have hcon2 : Consistent disk rootCluster s2 :=
    h.cache hok2 hx (hdc1 ▸ hdc2) (hl.hasCluster h) he2 hent (by rw [hcl2, hino]; exact hj)
  refine ⟨s2, ?_, hcon2, hloc, ⟨hx, ?_, ?_⟩, ?_, ?_, ?_⟩
  · simp [lookupTurn, StringView.eq_iff hc.nul_free, hc.ne_nil, hc.ne_dot, hc.ne_dots,
      getDentry_of_some he, hmiss, Inode.lookupRes, hlook, hcon, pure, Except.pure, bind, Except.bind]
  · intro l' hl'
    rw [List.mem_singleton.mp hl']
    exact ⟨a.2, hloc⟩
  · intro x ex hx' hxs
    have hxa : x = a.2 := by
      by_contra hne
      rw [hfd2 x hne (hde1 ▸ hx')] at hxs
      cases hxs
    refine ⟨_, List.mem_singleton_self _, hxa ▸ hloc, ?_⟩
    intro d' hd'
    rw [h.cached_of_locates hl hd'] at hmiss
    cases hmiss
  · funext x
    rw [← hkind1]
    exact hx2.kind_eq hok1 (congrFun hcl2 x)
  · intro x hxa hnone
    exact hfi2 x (hfi1 x hxa hnone)
  · intro x hxa hnone
    exact hfd2 x hxa (hde1 ▸ hnone)

end

/-- A turn has led to the dentry `d` of the place `l`. -/
structure Reached (disk : Disk) (rootCluster : ℕ) (s s' : Vfs) (d : ℕ) (l : Place) (a : ℕ × ℕ) : Prop where
  consistent : Consistent disk rootCluster s'
  locates : Locates s' d l
  creates : Creates s s' [l]
  same : (∃ d, Locates s d l) → s' = s
  inodes : ∀ x, x ≠ a.1 → s.inodes x = none → s'.inodes x = none
  dentries : ∀ x, x ≠ a.2 → s.dentries x = none → s'.dentries x = none

theorem Reached.stay (h : Consistent disk rootCluster s) (hl : Locates s d l) :
    Reached disk rootCluster s s d l a where
  consistent := h
  locates := hl
  creates := .stay hl
  same := fun _ => rfl
  inodes := fun _ _ hx => hx
  dentries := fun _ _ hx => hx

/-- Every turn takes the step of its component. A result other than `Ok` does no harm, and no memory is
needed, as long as no inode has to be found. -/
theorem lookupTurn_spec (h : Consistent disk rootCluster s) (hl : Locates s it l)
    (hnul : StringView.nul ∉ c) (hc : c ≠ []) (hopen : l.Open disk rootCluster s.kind c)
    (hres : (∀ l', l.step disk rootCluster c = some l' → ∃ d, Locates s d l') ∨
      res = .Ok ∧ s.inodes a.1 = none ∧ s.dentries a.2 = none) :
    match l.step disk rootCluster c with
    | none => lookupTurn disk s it c res a = .ok (s, none, .FileNotFound)
    | some l' => ∃ s' d, lookupTurn disk s it c res a = .ok (s', some d, res) ∧
        Reached disk rootCluster s s' d l' a ∧ s'.kind = l.learn disk rootCluster s.kind c := by
  rw [Place.step] at hres ⊢
  rw [Place.learn]
  by_cases hdot : c = ['.']
  · rw [if_pos hdot, if_pos (.inl hdot)]
    exact ⟨s, it, lookupTurn_stay hnul (.inr hdot), .stay h hl, rfl⟩
  by_cases hdots : c = ['.', '.']
  · obtain ⟨e, he, hget⟩ := hl.getDentry h
    rw [if_neg hdot, if_pos hdots, if_pos (.inr hdots)]
    exact ⟨s, _, lookupTurn_up hnul hdots hget, .stay h (hl.tail h he), rfl⟩
  have hname : IsName c := ⟨hnul, hc, hdot, hdots⟩
  rw [if_neg hdot, if_neg hdots] at hres ⊢
  rw [if_neg (not_or.mpr ⟨hdot, hdots⟩)]
  obtain ⟨hkind, hchain⟩ := hopen hdot hdots
  obtain ⟨entry, hdisk⟩ := Option.ne_none_iff_exists'.mp hchain
  have hent : childEntry disk (l.cluster rootCluster) c = entry := by
    rw [childEntry, hdisk]
    rfl
  rw [hent] at hres ⊢
  cases entry with
  | none => exact lookupTurn_missing h hl hname hkind hdisk
  | some dirent =>
    dsimp only [Option.map_some, Option.elim_some] at hres ⊢
    cases hcache : s.dcache (it, c) with
    | some d =>
      obtain ⟨ext, hok⟩ := h.counts
      obtain ⟨dirent', i, hent', hlive, hloc⟩ := h.locates_of_cached hl hcache
      rw [hent, Option.some.injEq] at hent'
      subst hent'
      exact ⟨s, d, lookupTurn_cached h hl hname hcache, .stay h hloc, (hok.remember_kind hlive).symm⟩
    | none =>
      have hnew : ¬ ∃ d, Locates s d ((c, dirent.startCluster) :: l) := by
        rintro ⟨d, hd⟩
        rw [h.cached_of_locates hl hd] at hcache
        cases hcache
      obtain ⟨rfl, hi, hd⟩ := hres.resolve_left fun hall => hnew (hall _ rfl)
      obtain ⟨s', hturn, hcon, hloc, hcre, hkind', hfi, hfd⟩ :=
        lookupTurn_found h hl hname hkind hdisk hcache hi hd
      exact ⟨s', a.2, hturn, ⟨hcon, hloc, hcre, fun hold => absurd hold hnew, hfi, hfd⟩, hkind'⟩

end Turn

section Turns
variable {it : ℕ} {res : Result} {addrs : List (ℕ × ℕ)}

theorem FreshAddrs.head (h : FreshAddrs s addrs) (hne : 0 < addrs.length) :
    s.inodes (addrs.headD (0, 0)).1 = none ∧ s.dentries (addrs.headD (0, 0)).2 = none := by
  cases addrs with
  | nil => exact absurd hne (Nat.lt_irrefl 0)
  | cons a addrs => exact ⟨h.inodes a List.mem_cons_self, h.dentries a List.mem_cons_self⟩

theorem FreshAddrs.tail (h : FreshAddrs s addrs)
    (hi : ∀ x, x ≠ (addrs.headD (0, 0)).1 → s.inodes x = none → s'.inodes x = none)
    (hd : ∀ x, x ≠ (addrs.headD (0, 0)).2 → s.dentries x = none → s'.dentries x = none) :
    FreshAddrs s' addrs.tail := by
  cases addrs with
  | nil => exact ⟨nofun, nofun, List.nodup_nil, List.nodup_nil⟩
  | cons a addrs =>
    obtain ⟨hni, hnodup⟩ := List.nodup_cons.mp h.inodes_nodup
    obtain ⟨hnd, hnodup'⟩ := List.nodup_cons.mp h.dentries_nodup
    refine ⟨fun b hb => ?_, fun b hb => ?_, hnodup, hnodup'⟩
    · exact hi b.1 (fun he => hni (he ▸ List.mem_map_of_mem hb)) (h.inodes b (List.mem_cons_of_mem _ hb))
    · exact hd b.2 (fun he => hnd (he ▸ List.mem_map_of_mem hb)) (h.dentries b (List.mem_cons_of_mem _ hb))

/-- What a lookup returns for the place that its names lead to. -/
def Answers (s : Vfs) (res : Result) : Option Place → Option ℕ × Result → Prop
  | some l, r => r.2 = res ∧ ∃ d, r.1 = some d ∧ Locates s d l
  | none, r => r = (none, .FileNotFound)

/-- All turns together take the steps of all names. Empty components are skipped. -/
theorem lookupTurns_spec {cs : List Name} (h : Consistent disk rootCluster s) (hl : Locates s it l)
    (hnul : ∀ c ∈ cs, StringView.nul ∉ c) (hdesc : l.Descends disk rootCluster s.kind (cs.filter (· ≠ [])))
    (hres : (∀ l' ∈ l.visited disk rootCluster (cs.filter (· ≠ [])), ∃ d, Locates s d l') ∨
      res = .Ok ∧ FreshAddrs s addrs ∧ cs.length ≤ addrs.length) :
    ∃ s' r, lookupTurns disk s it cs res addrs = .ok (s', r) ∧ Consistent disk rootCluster s' ∧
      Creates s s' (l.visited disk rootCluster (cs.filter (· ≠ []))) ∧
      Answers s' res ((cs.filter (· ≠ [])).foldlM (Place.step disk rootCluster) l) r ∧
      ((∀ l' ∈ l.visited disk rootCluster (cs.filter (· ≠ [])), ∃ d, Locates s d l') → s' = s) := by
  induction cs generalizing s it l addrs with
  | nil => exact ⟨s, _, rfl, h, .none s, ⟨rfl, it, rfl, hl⟩, fun _ => rfl⟩
  | cons c cs ih =>
    have hnulc := hnul c List.mem_cons_self
    have hnuls : ∀ c ∈ cs, StringView.nul ∉ c := fun x hx => hnul x (List.mem_cons_of_mem _ hx)
    have hlens : (c :: cs).length ≤ addrs.length → cs.length ≤ addrs.tail.length := by
      rw [List.length_tail, List.length_cons]
      omega
    rw [lookupTurns]
    by_cases hc : c = []
    · have hskip : (c :: cs).filter (· ≠ []) = cs.filter (· ≠ []) := by simp [hc]
      rw [hskip] at hdesc hres ⊢
      rw [lookupTurn_stay hnulc (.inl hc)]
      exact ih h hl hnuls hdesc (hres.imp_right fun hnew =>
        ⟨hnew.1, hnew.2.1.tail (fun _ _ hx => hx) fun _ _ hx => hx, hlens hnew.2.2⟩)
    · have hkeep : (c :: cs).filter (· ≠ []) = c :: cs.filter (· ≠ []) := by simp [hc]
      rw [hkeep] at hdesc hres ⊢
      rw [Place.visited] at hres ⊢
      rw [List.foldlM_cons]
      obtain ⟨hopen, hrest⟩ := (Place.descends_cons disk rootCluster).mp hdesc
      have hturn := lookupTurn_spec (a := addrs.headD (0, 0)) h hl hnulc hc hopen <| hres.imp
        (fun hall l' hl' => hall l' (by rw [hl']; exact List.mem_cons_self))
        fun hnew => ⟨hnew.1, hnew.2.1.head (Nat.lt_of_lt_of_le (Nat.succ_pos _) hnew.2.2)⟩
      cases hstep : l.step disk rootCluster c with
      | none =>
        rw [hstep] at hturn
        rw [hturn]
        exact ⟨s, _, rfl, h, .none s, rfl, fun _ => rfl⟩
      | some l' =>
        rw [hstep] at hturn hres
        obtain ⟨s1, d, hturn, hr, hkind⟩ := hturn
        rw [hturn]
        have hkeeps : (∀ x ∈ l' :: l'.visited disk rootCluster (cs.filter (· ≠ [])), ∃ d, Locates s d x) →
            ∀ x ∈ l'.visited disk rootCluster (cs.filter (· ≠ [])), ∃ d, Locates s1 d x := by
          intro hall x hx
          obtain ⟨d', hd'⟩ := hall x (List.mem_cons_of_mem _ hx)
          exact ⟨d', hd'.mono hr.creates.toExtends⟩
        obtain ⟨s', r, hrun, hcon, hcre, hans, hsame⟩ := ih hr.consistent hr.locates hnuls
          (hkind ▸ hrest l' hstep) (hres.imp hkeeps fun hnew =>
            ⟨hnew.1, hnew.2.1.tail hr.inodes hr.dentries, hlens hnew.2.2⟩)
        refine ⟨s', r, hrun, hcon, hr.creates.trans hcre, hans, fun hall => ?_⟩
        rw [hsame (hkeeps hall), hr.same (hall l' List.mem_cons_self)]

end Turns

end HmmOS.Fs
