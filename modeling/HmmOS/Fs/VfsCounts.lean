import HmmOS.Fs.VfsInvariant

/-! # Reference counting is exact

Taking and dropping references, and looking up paths, keep all counts exact; no
assertion of a constructor, a destructor or `dec_rc` fails on the way.
-/
namespace HmmOS.Fs
open Lib Function

structure VfsOk (s : Vfs) (ext : ℕ → ℕ) (stale : Set ((ℕ × Name) × ℕ)) : Prop where
  dentries : DentriesOk s.dentries s.dcache s.root ext stale
  inodes : InodesOk s.inodes s.startClusterToInode (naming s.dentries)

section Steps
variable {s : Vfs} {ext : ℕ → ℕ} {stale : Set ((ℕ × Name) × ℕ)} {d : ℕ} {e : Dentry}

theorem getDentry_of_some (h : s.dentries d = some e) : s.getDentry d = .ok e := by
  rw [Vfs.getDentry, h]

theorem VfsOk.setRc (h : VfsOk s ext stale) (hd : s.dentries d = some e) {rc refs : ℕ}
    (hrc : rc = e.children.length + refs + if d = s.root then 1 else 0) :
    VfsOk (s.setDentry d { e with rc := rc }) (update ext d refs) stale := by
  refine ⟨h.dentries.setRc hd hrc, ?_⟩
  rw [Vfs.setDentry, naming_set hd { e with rc := rc } rfl]
  exact h.inodes

theorem Dentry.incRc_spec (h : VfsOk s ext stale) (hd : s.dentries d = some e) :
    ∃ s', Dentry.incRc s d = .ok s' ∧ VfsOk s' (update ext d (ext d + 1)) stale := by
  refine ⟨s.setDentry d { e with rc := e.rc + 1 }, ?_, h.setRc hd ?_⟩
  · rw [Dentry.incRc, getDentry_of_some hd]
    rfl
  · have := h.dentries.rc d e hd
    omega

section Release
variable {p : ℕ} {ep : Dentry}

/-- The last reference: the dentry has no children, and a parent that is another one. -/
theorem VfsOk.last_ref (h : VfsOk s ext stale) (hpos : 0 < ext d) (hd : s.dentries d = some e)
    (hlast : e.rc - 1 = 0) : d ≠ s.root ∧ e.children = [] ∧ ext d = 1 ∧
      ∃ p ep, e.parent = some p ∧ s.dentries p = some ep ∧ ep.level < e.level ∧ p ≠ d := by
  have hrc := h.dentries.rc d e hd
  have hroot : d ≠ s.root := fun hr => by rw [if_pos hr] at hrc; omega
  have hnil : e.children = [] := List.length_eq_zero_iff.mp (by omega)
  refine ⟨hroot, hnil, by omega, ?_⟩
  cases hp : e.parent with
  | none => exact absurd (h.dentries.orphan d e hd hp) hroot
  | some p =>
    obtain ⟨ep, hep, hlevel⟩ := h.dentries.parent d e p hd hp
    refine ⟨p, ep, rfl, hep, hlevel, ?_⟩
    rintro rfl
    rw [hd, Option.some.injEq] at hep
    exact absurd (hep ▸ hlevel) (lt_irrefl _)

/-- The dentry goes and with it a child of the parent, whose own count is repaired later. -/
theorem VfsOk.release (h : VfsOk s ext stale) (hd : s.dentries d = some e) (hnil : e.children = [])
    (hext : ext d = 1) (hroot : d ≠ s.root) (hp : e.parent = some p) (hep : s.dentries p = some ep)
    (hpd : p ≠ d) : ∃ s1, Inode.decRc (s.freeDentry d) e.inode = .ok s1 ∧
      s1.dentries = update s.dentries d none ∧
      VfsOk (s1.setDentry p { ep with children := ep.children.erase d })
        (update (update ext d 0) p (ext p + 1)) (insert ((p, e.component), d) stale) := by
  obtain ⟨inodes, clusters, hdec, hino⟩ :=
    Inode.decRc_spec (s := s.freeDentry d) (i := e.inode) (d := d) h.inodes ⟨e, hd, rfl⟩
  refine ⟨_, hdec, rfl, h.dentries.detach hd hnil hext hroot hp hep, ?_⟩
  have hep' : update s.dentries d none p = some ep := (update_of_ne hpd _ _).trans hep
  dsimp only [Vfs.setDentry, Vfs.freeDentry]
  rw [naming_set hep' { ep with children := ep.children.erase d } rfl, naming_free hd]
  exact hino

end Release

/-- One reference less from outside. No assertion fails, whatever the call deletes. -/
theorem Dentry.decRcAux_spec {fuel : ℕ} (h : VfsOk s ext stale) (hpos : 0 < ext d)
    (hd : s.dentries d = some e) (hfuel : e.level < fuel) : ∃ s', Dentry.decRcAux fuel s d = .ok s' ∧
      VfsOk s' (update ext d (ext d - 1)) stale ∧ (∀ x, s.dentries x = none → s'.dentries x = none) := by
  induction fuel generalizing s ext stale d e with
  | zero => omega
  | succ fuel ih =>
    have hrc := h.dentries.rc d e hd
    rw [Dentry.decRcAux, getDentry_of_some hd, ok_bind, if_neg (by omega)]
    by_cases hlast : e.rc - 1 = 0
    · obtain ⟨hroot, hnil, hext, p, ep, hp, hep, hlevel, hpd⟩ := h.last_ref hpos hd hlast
      obtain ⟨s1, hdec, hs1, hmid⟩ := h.release hd hnil hext hroot hp hep hpd
      have hep1 : s1.dentries p = some ep := by rw [hs1, update_of_ne hpd, hep]
      obtain ⟨s', hs', hok, hdead⟩ := ih hmid (by rw [update_self]; omega) (update_self _ _ _)
        (by dsimp only; omega)
      have hgone : ∀ x, s.dentries x = none ∨ x = d → s'.dentries x = none := by
        intro x hx
        have hxp : x ≠ p := by
          rintro rfl
          rcases hx with hx | hx
          · simp [hep] at hx
          · exact hpd hx
        apply hdead
        dsimp only [Vfs.setDentry]
        rw [update_of_ne hxp, hs1, update_apply]
        split_ifs with hxd
        · rfl
        · exact hx.resolve_right hxd
      have hfresh : ((p, e.component), d) ∉ stale := fun hmem => by
        rw [h.dentries.stale_dead _ _ hmem] at hd
        cases hd
      have hext' : update (update (update ext d 0) p (ext p + 1)) p
          (update (update ext d 0) p (ext p + 1) p - 1) = update ext d (ext d - 1) := by
        funext x
        grind
      rw [hext'] at hok
      obtain ⟨hkey, hforget⟩ := hok.dentries.forget (hgone d (.inr rfl)) hfresh
      have hhashed : e.inHashtable = true := by rw [h.dentries.hashed d e hd, hp]; rfl
      rw [if_pos hlast, if_neg (not_not.mpr hnil), hdec, ok_bind, hp]
      dsimp only
      rw [getDentry_of_some hep1, ok_bind, hs', ok_bind, if_pos hhashed, if_pos hkey]
      exact ⟨_, rfl, ⟨hforget, hok.inodes⟩, fun x hx => hgone x (.inl hx)⟩
    · rw [if_neg hlast]
      refine ⟨_, rfl, h.setRc hd (by omega), ?_⟩
      intro x hx
      have hxd : x ≠ d := fun hxd => by rw [hxd, hd] at hx; cases hx
      exact (update_of_ne hxd _ _).trans hx

theorem Dentry.decRc_spec (h : VfsOk s ext stale) (hpos : 0 < ext d) :
    ∃ s', Dentry.decRc s d = .ok s' ∧ VfsOk s' (update ext d (ext d - 1)) stale := by
  obtain ⟨e, hd⟩ := h.dentries.ext_live d hpos
  obtain ⟨s', hs', hok, -⟩ := Dentry.decRcAux_spec h hpos hd (Nat.lt_succ_self e.level)
  exact ⟨s', by rw [Dentry.decRc, getDentry_of_some hd, ok_bind, hs'], hok⟩

end Steps

/-- The reasons to stop that are not failures of the reference counts. -/
def Benign (e : Stop) : Prop := e = .lookup ∨ e = .heap

section Lookup
variable {disk : Disk} {s : Vfs} {ext : ℕ → ℕ} {d p i addr : ℕ} {e : Dentry}

theorem Inode.lookup_spec (h : VfsOk s ext ∅) {n : Inode} (hn : s.inodes i = some n) (name : Name) :
    Ensures Benign (Inode.lookup disk s i addr name) fun r =>
      VfsOk r.1 ext ∅ ∧ r.1.dentries = s.dentries ∧ r.1.dcache = s.dcache ∧
        ∀ j, r.2 = some j → ∃ m, r.1.inodes j = some m := by
  have hget : s.getInode i = .ok n := by rw [Vfs.getInode, hn]
  rw [Inode.lookup, hget, ok_bind]
  by_cases hdir : n.isDirectory
  · rw [if_neg (not_not.mpr hdir)]
    split
    · exact .stop (.inl rfl)
    · exact .pure ⟨h, rfl, rfl, fun j hj => by cases hj⟩
    · rename_i dirent _
      split
      · rename_i j hj
        refine .pure ⟨h, rfl, rfl, fun k hk => ?_⟩
        obtain ⟨m, hm, -⟩ := h.inodes.clusters.find.mp hj
        exact ⟨m, Option.some.inj hk ▸ hm⟩
      · rename_i hfree
        rw [Inode.construct]
        split_ifs with haddr hused
        · exact .stop (.inr rfl)
        · rw [hfree] at hused
          cases hused
        · have hnone : s.inodes addr = none := by simpa using haddr
          refine .pure ⟨⟨h.dentries, h.inodes.add hnone hfree rfl⟩, rfl, rfl, fun k hk => ?_⟩
          rw [← Option.some.inj hk]
          exact ⟨_, update_self _ _ _⟩
  · rw [if_pos hdir]
    exact .stop (.inl rfl)

theorem Dentry.construct_spec (h : VfsOk s ext ∅) (hp : s.dentries p = some e)
    {n : Inode} (hn : s.inodes i = some n) {component : Name} (hk : s.dcache (p, component) = none) :
    Ensures Benign (Dentry.construct s d p i component) fun s' =>
      VfsOk s' ext ∅ ∧ ∃ e', s'.dentries d = some e' := by
  rw [Dentry.construct]
  split_ifs with haddr
  · exact .stop (.inr rfl)
  · have hd : s.dentries d = none := by simpa using haddr
    rw [getDentry_of_some hp, ok_bind]
    have hdp : d ≠ p := fun he => by rw [he, hp] at hd; cases hd
    have hd' : (update s.dentries p
        (some { e with rc := e.rc + 1, children := e.children ++ [d] })) d = none :=
      (update_of_ne hdp _ _).trans hd
    have hfree : d ∉ naming s.dentries i := by
      rintro ⟨e', he', -⟩
      rw [hd] at he'
      cases he'
    dsimp only [Vfs.setDentry, Vfs.setDcache]
    rw [if_neg (by simp [hk])]
    obtain ⟨inodes, hinc, hino⟩ := Inode.incRc_spec (s :=
      { s with
        dentries := update (update s.dentries p
          (some { e with rc := e.rc + 1, children := e.children ++ [d] })) d
          (some { inode := i, parent := some p, component := component,
                  inHashtable := true, level := e.level + 1 })
        dcache := update s.dcache (p, component) (some d) }) h.inodes hn hfree
    rw [hinc]
    refine ⟨⟨h.dentries.attach hd rfl hp hk, ?_⟩, _, update_self _ _ _⟩
    rw [naming_add hd', naming_set hp { e with rc := e.rc + 1, children := e.children ++ [d] } rfl]
    exact hino

theorem lookupComponent_spec (h : VfsOk s ext ∅) (hd : s.dentries d = some e) (component : Name)
    (addrs : ℕ × ℕ) :
    Ensures Benign (lookupComponent disk s d component addrs) fun r =>
      VfsOk r.1 ext ∅ ∧ ∀ x, r.2 = some x → ∃ e', r.1.dentries x = some e' := by
  rw [lookupComponent, getDentry_of_some hd, ok_bind]
  split_ifs with hskip hup
  · refine .pure ⟨h, fun x hx => ⟨e, ?_⟩⟩
    rw [← Option.some.inj hx, hd]
  · refine .pure ⟨h, fun x hx => ?_⟩
    rw [← Option.some.inj hx]
    cases hp : e.parent with
    | none => exact ⟨e, hd⟩
    | some p =>
      obtain ⟨ep, hep, -⟩ := h.dentries.parent d e p hd hp
      exact ⟨ep, hep⟩
  · split
    · rename_i c hc
      refine .pure ⟨h, fun x hx => ?_⟩
      rw [← Option.some.inj hx]
      rcases (h.dentries.cached _ _ _).mp hc with ⟨ec, hec, -⟩ | hstale
      · exact ⟨ec, hec⟩
      · cases hstale
    · rename_i hmiss
      obtain ⟨n, hn⟩ := h.inodes.live ⟨d, e, hd, rfl⟩
      refine (Inode.lookup_spec h hn component).bind ?_
      rintro ⟨s', inode⟩ ⟨hok, hsame, hcache, hlive⟩
      cases inode with
      | none => exact .pure ⟨hok, fun x hx => by cases hx⟩
      | some j =>
        obtain ⟨m, hm⟩ := hlive j rfl
        refine (Dentry.construct_spec hok (hsame ▸ hd) hm (hcache ▸ hmiss)).bind ?_
        rintro s'' ⟨hok', e', he'⟩
        exact .pure ⟨hok', fun x hx => ⟨e', Option.some.inj hx ▸ he'⟩⟩

theorem lookupComponents_spec (cs : List Name) {addrs : List (ℕ × ℕ)} (h : VfsOk s ext ∅)
    (hd : s.dentries d = some e) :
    Ensures Benign (lookupComponents disk s d cs addrs) fun r =>
      VfsOk r.1 ext ∅ ∧ ∀ x, r.2 = some x → ∃ e', r.1.dentries x = some e' := by
  induction cs generalizing s d e addrs with
  | nil =>
    refine .pure ⟨h, fun x hx => ⟨e, ?_⟩⟩
    rw [← Option.some.inj hx, hd]
  | cons c cs ih =>
    refine (lookupComponent_spec h hd c _).bind ?_
    rintro ⟨s', next⟩ ⟨hok, hlive⟩
    cases next with
    | none => exact .pure ⟨hok, fun x hx => by cases hx⟩
    | some x =>
      obtain ⟨e', he'⟩ := hlive x rfl
      exact ih hok he'

theorem pathnameLookup_spec (h : VfsOk s ext ∅) (path : Name) (addrs : List (ℕ × ℕ)) :
    Ensures Benign (pathnameLookup disk s path addrs) fun r =>
      VfsOk r.1 ext ∅ ∧ ∀ x, r.2 = some x → ∃ e', r.1.dentries x = some e' := by
  obtain ⟨e, he, -⟩ := h.dentries.rooted
  exact lookupComponents_spec _ h he

end Lookup

theorem update_none_eq_some {α β : Type} [DecidableEq α] {a b : α} {x y : β} :
    update (fun _ => none) a (some x) b = some y ↔ b = a ∧ x = y := by
  rw [update_apply]
  split_ifs with hb <;> simp [hb]

theorem vfsInit_dentries {rootCluster d : ℕ} {e : Dentry} :
    (Vfs.init rootCluster).dentries d = some e ↔ d = 0 ∧ rootDentry = e :=
  update_none_eq_some

theorem vfsInit_dentriesOk (rootCluster : ℕ) :
    DentriesOk (Vfs.init rootCluster).dentries (Vfs.init rootCluster).dcache
      (Vfs.init rootCluster).root (fun _ => 0) ∅ where
  rooted := ⟨rootDentry, vfsInit_dentries.mpr ⟨rfl, rfl⟩, rfl⟩
  orphan := fun _ _ he _ => (vfsInit_dentries.mp he).1
  parent := by
    intro d e p he hp
    rw [← (vfsInit_dentries.mp he).2] at hp
    cases hp
  hashed := by
    intro d e he
    rw [← (vfsInit_dentries.mp he).2]
    rfl
  nodup := by
    intro d e he
    rw [← (vfsInit_dentries.mp he).2]
    exact List.nodup_nil
  children := by
    intro d e he c
    rw [← (vfsInit_dentries.mp he).2]
    constructor
    · intro hc
      cases hc
    · rintro ⟨ec, hec, hp⟩
      rw [← (vfsInit_dentries.mp hec).2] at hp
      cases hp
  rc := by
    intro d e he
    obtain ⟨rfl, rfl⟩ := vfsInit_dentries.mp he
    rfl
  ext_live := fun d hd => absurd hd (lt_irrefl 0)
  stale_dead := fun k d hk => absurd hk (Set.notMem_empty _)
  cached := by
    intro p n d
    constructor
    · intro h
      cases h
    · rintro (⟨e, he, hp, -⟩ | hstale)
      · rw [← (vfsInit_dentries.mp he).2] at hp
        cases hp
      · cases hstale

theorem vfsInit_ok (rootCluster : ℕ) : VfsOk (Vfs.init rootCluster) (fun _ => 0) ∅ := by
  have hnone : ∀ _ : ℕ, Inode.Named none ∅ := fun _ => Counts.zero_iff.mpr rfl
  have hnaming : naming (Vfs.init rootCluster).dentries = update (fun _ => ∅) 0 {0} := by
    ext i d
    simp only [naming, Set.mem_ofPred_eq, vfsInit_dentries, update_apply]
    grind [rootDentry]
  refine ⟨vfsInit_dentriesOk rootCluster, ?_, ?_⟩
  · rw [hnaming]
    exact forall_update₂ hnone (Set.encard_singleton 0)
  · rw [Vfs.init, comp_update]
    exact indexes_empty.insert rfl rfl

end HmmOS.Fs
