import HmmOS.Fs.Vfs
import HmmOS.Lib.Counts
import HmmOS.Lib.Table
import HmmOS.Lib.Outcome
import Mathlib.Data.List.Nodup
import Mathlib.Tactic.Common

/-! # Reference counts of dentries and inodes

`ext d` is the number of references to `d` from open files and mappings. While a
destructor runs the dcache still has the key of the dying dentry; such pairs are `stale`.
-/
namespace HmmOS.Fs
open Lib Function

/-- The count of an inode, as far as there is one. -/
def Inode.Named (n : Option Inode) (names : Set ℕ) : Prop := Counts (n.elim 0 Inode.rc) names

/-- `names i` are the dentries that name the inode `i`. -/
structure InodesOk (inodes : ℕ → Option Inode) (clusters : ℕ → Option ℕ) (names : ℕ → Set ℕ) :
    Prop where
  counted : ∀ i, Inode.Named (inodes i) (names i)
  clusters : Indexes clusters (Option.map Inode.startCluster ∘ inodes)

section Inodes
variable {inodes : ℕ → Option Inode} {clusters : ℕ → Option ℕ} {names : ℕ → Set ℕ} {i : ℕ}
  {n : Inode}

theorem InodesOk.rc (h : InodesOk inodes clusters names) (hn : inodes i = some n) : Counts n.rc (names i) := by
  have hcount := h.counted i
  rwa [hn] at hcount

theorem InodesOk.live (h : InodesOk inodes clusters names) (hi : (names i).Nonempty) : ∃ n, inodes i = some n := by
  have hcount := h.counted i
  cases hn : inodes i with
  | none =>
    rw [hn] at hcount
    exact absurd (Counts.zero_iff.mp hcount) hi.ne_empty
  | some n => exact ⟨n, rfl⟩

theorem InodesOk.set (h : InodesOk inodes clusters names) (hn : inodes i = some n) {rc : ℕ}
    {users : Set ℕ} (hrc : Counts rc users) :
    InodesOk (update inodes i (some { n with rc := rc })) clusters (update names i users) where
  counted := forall_update₂ h.counted hrc
  clusters := h.clusters.set hn rfl

theorem InodesOk.remove (h : InodesOk inodes clusters names) (hn : inodes i = some n) :
    InodesOk (update inodes i none) (update clusters n.startCluster none) (update names i ∅) where
  counted := forall_update₂ h.counted (Counts.zero_iff.mpr rfl)
  clusters := by
    rw [comp_update]
    exact h.clusters.erase (congrArg (Option.map Inode.startCluster) hn)

theorem InodesOk.add (h : InodesOk inodes clusters names) (hi : inodes i = none)
    (hc : clusters n.startCluster = none) (hrc : n.rc = 0) :
    InodesOk (update inodes i (some n)) (update clusters n.startCluster (some i)) names where
  counted := by
    have hnone := h.counted i
    rw [hi, Inode.Named, Option.elim_none, ← hrc] at hnone
    have hall : ∀ j, Inode.Named (update inodes i (some n) j) (update names i (names i) j) :=
      forall_update₂ h.counted hnone
    rwa [update_eq_self] at hall
  clusters := by
    rw [comp_update]
    exact h.clusters.insert hc (congrArg (Option.map Inode.startCluster) hi)

theorem Inode.decRc_spec {s : Vfs} (h : InodesOk s.inodes s.startClusterToInode names) {d : ℕ}
    (hd : d ∈ names i) : ∃ inodes clusters, Inode.decRc s i =
        .ok { s with inodes := inodes, startClusterToInode := clusters } ∧
      InodesOk inodes clusters (update names i (names i \ {d})) := by
  obtain ⟨n, hn⟩ := h.live ⟨d, hd⟩
  have hpos := (h.rc hn).pos_of_mem hd
  have hless := (h.rc hn).erase hd
  by_cases hlast : n.rc - 1 = 0
  · have hc : s.startClusterToInode n.startCluster = some i := h.clusters.find.mpr ⟨n, hn, rfl⟩
    rw [hlast, Counts.zero_iff] at hless
    rw [hless]
    refine ⟨_, _, ?_, h.remove hn⟩
    simp [Inode.decRc, Vfs.getInode, hn, hpos.ne', hlast, Inode.destroy, hc, Vfs.setCluster]
  · refine ⟨_, _, ?_, h.set hn hless⟩
    simp [Inode.decRc, Vfs.getInode, hn, hpos.ne', hlast, Vfs.setInode, pure, Except.pure]

theorem Inode.incRc_spec {s : Vfs} (h : InodesOk s.inodes s.startClusterToInode names)
    (hn : s.inodes i = some n) {d : ℕ} (hd : d ∉ names i) :
    ∃ inodes, Inode.incRc s i = .ok { s with inodes := inodes } ∧
      InodesOk inodes s.startClusterToInode (update names i (insert d (names i))) := by
  refine ⟨_, ?_, h.set hn ((h.rc hn).insert hd)⟩
  simp [Inode.incRc, Vfs.getInode, hn, Vfs.setInode, pure, Except.pure]

end Inodes

/-- The live dentries that name the inode `i`. -/
def naming (dentries : ℕ → Option Dentry) (i : ℕ) : Set ℕ :=
  {d | ∃ e, dentries d = some e ∧ e.inode = i}

def childrenOf (dentries : ℕ → Option Dentry) (d : ℕ) : Set ℕ :=
  {c | ∃ e, dentries c = some e ∧ e.parent = some d}

structure DentriesOk (dentries : ℕ → Option Dentry) (dcache : ℕ × Name → Option ℕ) (root : ℕ)
    (ext : ℕ → ℕ) (stale : Set ((ℕ × Name) × ℕ)) : Prop where
  rooted : ∃ e, dentries root = some e ∧ e.parent = none
  orphan : ∀ d e, dentries d = some e → e.parent = none → d = root
  parent : ∀ d e p, dentries d = some e → e.parent = some p →
    ∃ ep, dentries p = some ep ∧ ep.level < e.level
  hashed : ∀ d e, dentries d = some e → e.inHashtable = e.parent.isSome
  nodup : ∀ d e, dentries d = some e → e.children.Nodup
  children : ∀ d e, dentries d = some e → ∀ c, c ∈ e.children ↔ c ∈ childrenOf dentries d
  rc : ∀ d e, dentries d = some e →
    e.rc = e.children.length + ext d + if d = root then 1 else 0
  ext_live : ∀ d, 0 < ext d → ∃ e, dentries d = some e
  stale_dead : ∀ k d, (k, d) ∈ stale → dentries d = none
  cached : ∀ p n d, dcache (p, n) = some d ↔
    (∃ e, dentries d = some e ∧ e.parent = some p ∧ e.component = n) ∨ ((p, n), d) ∈ stale

section Dentries
variable {dentries : ℕ → Option Dentry} {dcache : ℕ × Name → Option ℕ} {root d p : ℕ} {ext : ℕ → ℕ}
  {stale : Set ((ℕ × Name) × ℕ)} {e ep e' : Dentry}

theorem childrenOf_set (hd : dentries d = some e) (e' : Dentry) (hp : e'.parent = e.parent) (x : ℕ) :
    childrenOf (update dentries d (some e')) x = childrenOf dentries x := by
  ext c
  simp only [childrenOf, Set.mem_ofPred_eq, update_apply]
  grind

theorem naming_set (hd : dentries d = some e) (e' : Dentry) (hp : e'.inode = e.inode) :
    naming (update dentries d (some e')) = naming dentries := by
  ext i c
  simp only [naming, Set.mem_ofPred_eq, update_apply]
  grind

theorem DentriesOk.setRc (h : DentriesOk dentries dcache root ext stale) (hd : dentries d = some e)
    {rc refs : ℕ} (hrc : rc = e.children.length + refs + if d = root then 1 else 0) :
    DentriesOk (update dentries d (some { e with rc := rc })) dcache root
      (update ext d refs) stale := by
  have hsame := childrenOf_set hd { e with rc := rc } rfl
  obtain ⟨hroot, horphan, hparent, hhashed, hnodup, hchildren, hrcs, hlive, hdead, hcached⟩ := h
  constructor
  case children =>
    grind
  all_goals
    grind

theorem DentriesOk.keys_inj (h : DentriesOk dentries dcache root ext stale) {d' : ℕ}
    (hd : dentries d = some e) (hd' : dentries d' = some e') (hp : e.parent = some p)
    (hp' : e'.parent = some p) (hc : e.component = e'.component) : d = d' := by
  have hk := (h.cached p e.component d).mpr (.inl ⟨e, hd, hp, rfl⟩)
  have hk' := (h.cached p e.component d').mpr (.inl ⟨e', hd', hp', hc.symm⟩)
  exact Option.some.inj (hk.symm.trans hk')

theorem childrenOf_detach (hne : p ≠ d) (hp : dentries p = some ep) {children : List ℕ} (x : ℕ) :
    childrenOf (update (update dentries d none) p
      (some { ep with children := children })) x = childrenOf dentries x \ {d} := by
  ext c
  simp only [childrenOf, Set.mem_sdiff, Set.mem_ofPred_eq, Set.mem_singleton_iff, update_apply]
  grind

/-- A dentry without children or references dies: its parent owes a `dec_rc`, and its key in the
dcache is stale. -/
theorem DentriesOk.detach (h : DentriesOk dentries dcache root ext stale) (hd : dentries d = some e)
    (hnil : e.children = []) (hext : ext d = 1) (hroot : d ≠ root) (hp : e.parent = some p)
    (hep : dentries p = some ep) : DentriesOk (update (update dentries d none) p
        (some { ep with children := ep.children.erase d })) dcache root
      (update (update ext d 0) p (ext p + 1))
      (insert ((p, e.component), d) stale) := by
  have hne : p ≠ d := by
    rintro rfl
    obtain ⟨ep', hep', hlt⟩ := h.parent p e p hd hp
    rw [hd, Option.some.injEq] at hep'
    exact absurd (hep' ▸ hlt) (lt_irrefl _)
  have hmem : d ∈ ep.children := (h.children p ep hep d).mpr ⟨e, hd, hp⟩
  have hsame := @childrenOf_detach dentries d p ep hne hep (ep.children.erase d)
  have honly : ∀ x, d ∈ childrenOf dentries x → x = p := by
    rintro x ⟨e', he', hx⟩
    rw [hd, Option.some.injEq] at he'
    rw [← he', hp, Option.some.injEq] at hx
    exact hx.symm
  have hchildless : ∀ c e', dentries c = some e' → e'.parent ≠ some d := by
    intro c e' hc hcp
    have hcd := (h.children d e hd c).mpr ⟨e', hc, hcp⟩
    rw [hnil] at hcd
    cases hcd
  obtain ⟨hrooted, horphan, hparent, hhashed, hnodup, hchildren, hrcs, hlive, hdead, hcached⟩ := h
  constructor
  case children =>
    grind
  all_goals
    simp only [update_apply, Set.mem_insert_iff]
    grind

theorem DentriesOk.forget {k : ℕ × Name}
    (h : DentriesOk dentries dcache root ext (insert (k, d) stale)) (hd : dentries d = none)
    (hk : (k, d) ∉ stale) : dcache k = some d ∧ DentriesOk dentries (update dcache k none) root ext stale := by
  have hkd : dcache k = some d := (h.cached k.1 k.2 d).mpr (.inr (Set.mem_insert _ _))
  refine ⟨hkd, h.rooted, h.orphan, h.parent, h.hashed, h.nodup, h.children, h.rc, h.ext_live,
    fun k' d' hk' => h.stale_dead k' d' (Set.mem_insert_of_mem _ hk'), ?_⟩
  intro q n c
  have hc := h.cached q n c
  grind

theorem DentriesOk.attach (h : DentriesOk dentries dcache root ext stale) (hd : dentries d = none)
    (hstale : stale = ∅) (hep : dentries p = some ep) {component : Name} {inode : ℕ}
    (hk : dcache (p, component) = none) : DentriesOk (update (update dentries p
          (some { ep with rc := ep.rc + 1, children := ep.children ++ [d] })) d
        (some { inode := inode, parent := some p, component := component,
                inHashtable := true, level := ep.level + 1 }))
      (update dcache (p, component) (some d)) root ext stale := by
  have hfree : d ∉ ep.children := by
    intro hmem
    obtain ⟨e', he', -⟩ := (h.children p ep hep d).mp hmem
    rw [hd] at he'
    cases he'
  obtain ⟨hrooted, horphan, hparent, hhashed, hnodup, hchildren, hrcs, hlive, hdead, hcached⟩ := h
  constructor
  case children =>
    simp only [childrenOf, Set.mem_ofPred_eq, update_apply] at hchildren ⊢
    grind
  case nodup =>
    grind [List.nodup_append]
  all_goals
    simp only [update_apply]
    grind

theorem naming_free (hd : dentries d = some e) : naming (update dentries d none) =
      update (naming dentries) e.inode (naming dentries e.inode \ {d}) := by
  ext i c
  simp only [naming, Set.mem_ofPred_eq, update_apply]
  grind

theorem naming_add (hd : dentries d = none) : naming (update dentries d (some e)) =
      update (naming dentries) e.inode (insert d (naming dentries e.inode)) := by
  ext i c
  simp only [naming, Set.mem_ofPred_eq, update_apply]
  grind

end Dentries

end HmmOS.Fs
