import HmmOS.Util.LruOrder

/-! # Leases given up by hand

`evict_one(Lease &&)` destroys the lease and evicts the node. The destructor does not
clear the pointer of the lease, and the lease is destroyed again at the end of its scope:
this drops a hold of a node that is gone.
-/
namespace HmmOS.Util
open Lib Function LRUCache
variable {K V : Type}

def LRUCache.mapLeases (c : LRUCache K V)
    (f : (ℕ → Option (Option ℕ)) → ℕ → Option (Option ℕ)) : LRUCache K V :=
  { c with leases := f c.leases }

def LRUCache.without (c : LRUCache K V) (spent : List ℕ) : LRUCache K V :=
  c.mapLeases fun leases l => if l ∈ spent then none else leases l

def Session.without (s : Session K V) (spent : List ℕ) : Session K V :=
  { s with cache := s.cache.without spent }

def LruOp.leases : LruOp K V → List ℕ
  | .get _ _ _ l _ => [l]
  | .lease l => [l]
  | .moveAssign l other => [l, other]
  | .moveConstruct l other => [l, other]
  | .destroy l => [l]
  | .inc l => [l]
  | .dec l => [l]
  | .evict _ => []

def LruOp.Avoids (op : LruOp K V) (spent : List ℕ) : Prop := ∀ l ∈ op.leases, l ∉ spent

variable {c : LRUCache K V} {l a : ℕ} {s : Session K V} {spent : List ℕ}
  {xs : List ℕ}

section MapLeases
variable {f : (ℕ → Option (Option ℕ)) → ℕ → Option (Option ℕ)}

theorem incLeases_mapLeases : (c.mapLeases f).incLeases a = (c.incLeases a).map (·.mapLeases f) := by
  simp only [incLeases, mapLeases, setNode]
  cases c.nodes a with
  | none => rfl
  | some n =>
    simp only [Option.bind_eq_bind, Option.bind_some]
    split_ifs <;> simp [Function.comp_def]

theorem decLeases_mapLeases : (c.mapLeases f).decLeases a = (c.decLeases a).map (·.mapLeases f) := by
  simp only [decLeases, mapLeases, setNode]
  cases c.nodes a with
  | none => rfl
  | some n =>
    simp only [Option.bind_eq_bind, Option.bind_some]
    split_ifs <;> simp [Function.comp_def]

variable [DecidableEq K]

theorem evictOne_mapLeases : (c.mapLeases f).evictOne a = (c.evictOne a).map (·.mapLeases f) := by
  simp only [evictOne, mapLeases, setNode]
  cases c.nodes a with
  | none => rfl
  | some n =>
    simp only [Option.bind_eq_bind, Option.bind_some]
    split_ifs
    · rfl
    · cases IntrusiveListHead.erase c.links (some a) <;> rfl

theorem evictOne_leases {c' : LRUCache K V} (h : c.evictOne a = some c') : c'.leases = c.leases := by
  simp only [evictOne, Option.bind_eq_bind, Option.bind_eq_some_iff] at h
  rcases h with ⟨n, -, h⟩
  split_ifs at h
  rcases Option.bind_eq_some_iff.mp h with ⟨r, -, h⟩
  rw [← Option.some.inj h]
  rfl

theorem evictLoop_mapLeases (sizeHint fuel : ℕ) (evicted : ℕ) :
    LRUCache.evictLoop sizeHint fuel (c.mapLeases f) evicted =
      (LRUCache.evictLoop sizeHint fuel c evicted).map fun r => (r.1.mapLeases f, r.2) := by
  induction fuel generalizing c evicted with
  | zero => rfl
  | succ fuel ih =>
    have hsize : (c.mapLeases f).size = c.size := rfl
    have hlinks : (c.mapLeases f).links = c.links := rfl
    rw [evictLoop, evictLoop, hsize, hlinks]
    split_ifs
    · cases IntrusiveListHead.empty c.links none with
      | none => rfl
      | some empty =>
        cases empty with
        | true => rfl
        | false =>
          cases c.links.prev none with
          | none => rfl
          | some a =>
            simp only [Option.bind_eq_bind, Option.bind_some, evictOne_mapLeases]
            cases c.evictOne a with
            | none => rfl
            | some c' => exact ih (evicted + 1)
    · rfl

end MapLeases

section Without

theorem without_leases (hl : l ∉ spent) : (c.without spent).leases l = c.leases l := if_neg hl

theorem setLease_without (hl : l ∉ spent) (x : Option (Option ℕ)) :
    (c.without spent).setLease l x = (c.setLease l x).without spent := by
  simp only [without, mapLeases, setLease]
  congr 1
  funext l'
  by_cases h : l' = l
  · simp [h, hl]
  · simp [h]

theorem without_cons : c.without (l :: spent) = (c.without spent).setLease l none := by
  simp only [without, mapLeases, setLease]
  congr 1
  funext l'
  by_cases h : l' = l
  · simp [h]
  · simp [h]

theorem newLease_without (hl : l ∉ spent) (a : ℕ) :
    (c.without spent).newLease l a = (c.newLease l a).map (·.without spent) := by
  rw [newLease, setLease_without hl]
  exact incLeases_mapLeases

theorem leaseMoveAssign_without {other : ℕ} (hl : l ∉ spent) (ho : other ∉ spent) :
    (c.without spent).leaseMoveAssign l other = (c.leaseMoveAssign l other).map (·.without spent) := by
  rw [leaseMoveAssign, leaseMoveAssign, without_leases hl, without_leases ho]
  cases c.leases l with
  | none => rfl
  | some x =>
    cases c.leases other with
    | none => rfl
    | some y =>
      apply congrArg some
      rw [setLease_without hl, setLease_without ho]

theorem leaseDestroy_without (hl : l ∉ spent) :
    (c.without spent).leaseDestroy l = (c.leaseDestroy l).map (·.without spent) := by
  rw [leaseDestroy, leaseDestroy, without_leases hl]
  rcases c.leases l with - | - | a
  · rfl
  · exact congrArg some (setLease_without hl none)
  · have hdec : (c.without spent).decLeases a = (c.decLeases a).map (·.without spent) :=
      decLeases_mapLeases
    simp only [Option.bind_eq_bind, Option.bind_some, hdec, Option.map_map]
    congr 1
    funext c'
    exact setLease_without hl none

theorem leaseInc_without (hl : l ∉ spent) :
    (c.without spent).leaseInc l = (c.leaseInc l).map (·.without spent) := by
  rw [leaseInc, leaseInc, without_leases hl]
  rcases c.leases l with - | - | a
  · rfl
  · rfl
  · exact incLeases_mapLeases

theorem leaseDec_without (hl : l ∉ spent) :
    (c.without spent).leaseDec l = (c.leaseDec l).map (·.without spent) := by
  rw [leaseDec, leaseDec, without_leases hl]
  rcases c.leases l with - | - | a
  · rfl
  · rfl
  · exact decLeases_mapLeases

variable [DecidableEq K]

theorem get_without (hl : l ∉ spent) (key : K) (val : V) (ins : Bool) (addr : ℕ) :
    (c.without spent).get key val ins l addr =
      (c.get key val ins l addr).map (·.without spent) := by
  have hlookup : (c.without spent).lookup = c.lookup := rfl
  rw [LRUCache.get, LRUCache.get, hlookup]
  cases c.lookup.lookup key with
  | some a => exact newLease_without hl a
  | none =>
    cases ins with
    | true => exact newLease_without (c := { c with
        populated := c.populated ++ [key]
        lookup := c.lookup.insert key addr
        nodes := update c.nodes addr (some ⟨0, key, val⟩)
        links := IntrusiveListHead.construct c.links (some addr) }) hl addr
    | false => exact congrArg some (setLease_without hl (some none))

omit [DecidableEq K] in
theorem released_without (hl : l ∉ spent) (c : LRUCache K V) :
    (s.without spent).released (c.without spent) l = s.released c l := by
  have hs : (s.without spent).cache.leases l = s.cache.leases l := without_leases hl
  rw [Session.released, Session.released, hs]
  rfl

omit [DecidableEq K] in
theorem setManual_without (hl : l ∉ spent) (g : ℕ → ℕ) :
    (s.without spent).setManual l g = s.setManual l g := by
  have hs : (s.without spent).cache.leases l = s.cache.leases l := without_leases hl
  rw [Session.setManual, Session.setManual, hs]
  rfl

/-- An operation does not notice spent leases that it does not name. -/
theorem LruOp.Avoids.run_without_spent {op : LruOp K V} (h : op.Avoids spent) : (s.without spent).run op =
      (s.run op).map fun r => (r.1.without spent, r.2) := by
  have hcache : (s.without spent).cache = s.cache.without spent := rfl
  cases op with
  | get key val ins l addr =>
    have hl : l ∉ spent := h l List.mem_cons_self
    rw [Session.run, Session.run, hcache, get_without hl, Option.map_map, Option.map_map]
    rfl
  | lease l =>
    have hl : l ∉ spent := h l List.mem_cons_self
    rw [Session.run, Session.run, hcache, leaseConstruct, setLease_without hl]
    rfl
  | moveAssign l other =>
    have hl : l ∉ spent := h l List.mem_cons_self
    have ho : other ∉ spent := h other (by simp [LruOp.leases])
    rw [Session.run, Session.run, hcache, leaseMoveAssign_without hl ho, Option.map_map, Option.map_map]
    rfl
  | moveConstruct l other =>
    have hl : l ∉ spent := h l List.mem_cons_self
    have ho : other ∉ spent := h other (by simp [LruOp.leases])
    rw [Session.run, Session.run, hcache, leaseMoveConstruct, leaseConstruct,
      setLease_without hl, leaseMoveAssign_without hl ho, Option.map_map, Option.map_map]
    rfl
  | destroy l =>
    have hl : l ∉ spent := h l List.mem_cons_self
    rw [Session.run, Session.run, hcache, leaseDestroy_without hl, Option.map_map, Option.map_map]
    congr 1
    funext c'
    simp only [Function.comp_apply, released_without hl]
    rfl
  | inc l =>
    have hl : l ∉ spent := h l List.mem_cons_self
    rw [Session.run, Session.run, hcache, leaseInc_without hl, setManual_without hl, Option.map_map,
      Option.map_map]
    rfl
  | dec l =>
    have hl : l ∉ spent := h l List.mem_cons_self
    rw [Session.run, Session.run, hcache, leaseDec_without hl, setManual_without hl, Option.map_map,
      Option.map_map]
    congr 1
    funext c'
    simp only [Function.comp_apply, released_without hl]
    rfl
  | evict sizeHint =>
    have hevict : (s.cache.without spent).evict sizeHint =
        (s.cache.evict sizeHint).map fun r => (r.1.without spent, r.2) :=
      evictLoop_mapLeases sizeHint _ 0
    rw [Session.run, Session.run, hcache, hevict, Option.map_map, Option.map_map]
    rfl

theorem valid_without {op : LruOp K V} (h : op.Avoids spent) (hv : s.Valid op) : (s.without spent).Valid op := by
  have hlease : ∀ l ∈ op.leases, (s.without spent).cache.leases l = s.cache.leases l :=
    fun l hl => without_leases (h l hl)
  cases op with
  | get key val ins l addr => exact ⟨(hlease l (by simp [LruOp.leases])).trans hv.1, hv.2⟩
  | lease l => exact (hlease l (by simp [LruOp.leases])).trans hv
  | moveAssign l other =>
    rw [Session.Valid, hlease l (by simp [LruOp.leases]), hlease other (by simp [LruOp.leases])]
    exact hv
  | moveConstruct l other =>
    rw [Session.Valid, hlease l (by simp [LruOp.leases]), hlease other (by simp [LruOp.leases])]
    exact hv
  | destroy l =>
    rw [Session.Valid, hlease l (by simp [LruOp.leases])]
    exact hv
  | inc l =>
    rw [Session.Valid, hlease l (by simp [LruOp.leases])]
    exact hv
  | dec l =>
    rw [Session.Valid, hlease l (by simp [LruOp.leases])]
    exact hv
  | evict sizeHint => trivial

theorem evictOneLease_without (hl : l ∉ spent) : (c.without spent).evictOneLease l =
      (c.evictOneLease l).map fun r => (r.1.without spent, r.2) := by
  have hnodes : (c.without spent).nodes = c.nodes := rfl
  have hdec : ∀ a, (c.without spent).decLeases a = (c.decLeases a).map (·.without spent) :=
    fun a => decLeases_mapLeases
  rw [evictOneLease, evictOneLease, without_leases hl]
  rcases c.leases l with - | - | a
  · rfl
  · rfl
  · simp only [Option.bind_eq_bind, Option.bind_some, hnodes, hdec]
    cases c.nodes a with
    | none => rfl
    | some n =>
      simp only [Option.bind_some]
      split_ifs
      · rfl
      · cases c.decLeases a with
        | none => rfl
        | some c1 =>
          have hone : (c1.without spent).evictOne a = (c1.evictOne a).map (·.without spent) :=
            evictOne_mapLeases
          simp only [Option.map_some, Option.bind_some, hone]
          cases c1.evictOne a <;> rfl

end Without

/-- `evict_one(Lease &&)` beside the history: the hold that it drops is a last one. -/
def Session.evictOneLease [DecidableEq K] (s : Session K V) (l : ℕ) : Option (Session K V × Bool) :=
  (s.cache.evictOneLease l).map fun (c, evicted) =>
    ({ s with
        cache := c
        releases := match s.cache.leases l with
          | some (some a) => if evicted then a :: s.releases else s.releases
          | _ => s.releases }, evicted)

section Evict
variable [DecidableEq K] {n : CacheNode K V}

theorem evictOneLease_shared (hl : s.cache.leases l = some (some a)) (hn : s.cache.nodes a = some n)
    (hshared : n.refcount ≠ 1) : s.cache.evictOneLease l = some (s.cache, false) := by
  simp [evictOneLease, hl, hn, hshared]

/-- A node that only the lease holds is evicted, and the lease keeps its pointer. -/
theorem LruOk.evictOneLease (h : LruOk s xs) (hl : s.cache.leases l = some (some a))
    (hn : s.cache.nodes a = some n) (hone : n.refcount = 1) :
    ∃ c, s.cache.evictOneLease l = some (c, true) ∧ c.nodes = update s.cache.nodes a none ∧
      c.leases = s.cache.leases ∧
      LruOk { s with cache := c.setLease l none, releases := a :: s.releases } xs := by
  rcases h.releaseLease hl with ⟨c1, n', hdec, hn', -, hnodes, hleases, -, -, hrel, hok⟩
  rw [hn] at hn'
  cases hn'
  rw [if_pos hone] at hrel hok
  rw [hrel] at hok
  rcases @LruOk.evictOne K V _ _ _ [] _ hok with ⟨c2, _, hmap, -, hnodes2, -, -, -, hok2⟩
  -- the eviction does not look at the lease
  have hcomm : (c1.setLease l none).evictOne a = (c1.evictOne a).map (·.setLease l none) :=
    evictOne_mapLeases (f := fun leases => update leases l none)
  rw [hcomm] at hmap
  rcases Option.map_eq_some_iff.mp hmap with ⟨c, hevict, rfl⟩
  refine ⟨c, ?_, ?_, (evictOne_leases hevict).trans hleases, hok2⟩
  · simp [LRUCache.evictOneLease, hl, hn, hone, hdec, hevict]
  · have hc : c.nodes = update c1.nodes a none := hnodes2
    rw [hc, hnodes, update_idem]

end Evict

/-- A session and the leases that `evict_one` has given up. The clients do what they owe, and do not
touch a spent lease. -/
inductive LeaseReach [DecidableEq K] : Session K V → List ℕ → Prop
  | construct : LeaseReach ⟨LRUCache.construct, fun _ => 0, []⟩ []
  | step {s s' : Session K V} {spent : List ℕ} {op : LruOp K V} {r : Option ℕ}
      (h : LeaseReach s spent) (havoid : op.Avoids spent) (hv : s.Valid op)
      (hrun : s.run op = some (s', r)) : LeaseReach s' spent
  | evictOne {s s' : Session K V} {spent : List ℕ} {l a : ℕ} {evicted : Bool}
      (h : LeaseReach s spent) (hl : l ∉ spent)
      (hlease : s.cache.leases l = some (some a))
      (hrun : s.evictOneLease l = some (s', evicted)) :
      LeaseReach s' (if evicted then l :: spent else spent)

/-- If the node is evicted, the lease is empty and what happens to it later has no effect on nodes;
otherwise nothing changes. -/
def GivesUpOnce [DecidableEq K] (c : LRUCache K V) (l a : ℕ) : Prop :=
  ∃ c' evicted, c.evictOneLease l = some (c', evicted) ∧
    (evicted = true → c'.nodes a = none ∧ c'.leases l = some none ∧
      (∃ c'', c'.leaseDestroy l = some c'' ∧ c''.nodes = c'.nodes) ∧
      ∀ other, c'.leases other ≠ none →
        ∃ c'', c'.leaseMoveAssign l other = some c'' ∧ c''.nodes = c'.nodes ∧
          c''.leases other = some none) ∧
    (evicted = false → c' = c)

section Runs
variable [DecidableEq K] {s' : Session K V}

theorem LruOk.without_evictOneLease {evicted : Bool} (hok : LruOk (s.without spent) xs)
    (hl : l ∉ spent) (hlease : s.cache.leases l = some (some a))
    (hrun : s.evictOneLease l = some (s', evicted)) :
    LruOk (s'.without (if evicted then l :: spent else spent)) xs := by
  have hlease' : (s.without spent).cache.leases l = some (some a) := (without_leases hl).trans hlease
  rcases Option.ne_none_iff_exists'.mp (hok.leased hlease') with ⟨n, hn⟩
  rcases Option.map_eq_some_iff.mp hrun with ⟨⟨c', r⟩, hevict, hs'⟩
  by_cases hone : n.refcount = 1
  · rcases hok.evictOneLease hlease' hn hone with ⟨c, hc, -, -, hok'⟩
    have hsame : (s.without spent).cache.evictOneLease l = some (c'.without spent, r) := by
      change (s.cache.without spent).evictOneLease l = _
      rw [evictOneLease_without hl, hevict]
      rfl
    rw [hsame] at hc
    cases hc
    simp only [hlease, if_true] at hs'
    cases hs'
    change LruOk { s with cache := c'.without (l :: spent), releases := a :: s.releases } xs
    rw [without_cons]
    exact hok'
  · rw [evictOneLease_shared hlease hn hone] at hevict
    cases hevict
    simp only [hlease] at hs'
    cases hs'
    exact hok

/-- Without the spent leases the cache is as it should be. -/
theorem LeaseReach.ok (h : LeaseReach s spent) : ∃ xs, LruOk (s.without spent) xs := by
  induction h with
  | construct =>
    rcases (LruReach.construct (K := K) (V := V)).ok with ⟨xs, hok⟩
    exact ⟨xs, hok⟩
  | step _ havoid hv hrun ih =>
    rcases ih with ⟨xs, hok⟩
    obtain ⟨s', r, xs', hrun', hok', -⟩ :=
      hok.step (valid_without havoid hv)
    rw [havoid.run_without_spent, hrun] at hrun'
    cases hrun'
    exact ⟨xs', hok'⟩
  | evictOne _ hl hlease hrun ih =>
    rcases ih with ⟨xs, hok⟩
    exact ⟨xs, hok.without_evictOneLease hl hlease hrun⟩

/-- The next operation that leaves spent leases alone returns. -/
theorem LruOk.without_run (hok : LruOk (s.without spent) xs) {op : LruOp K V}
    (havoid : op.Avoids spent) (hv : s.Valid op) : ∃ r, s.run op = some r := by
  obtain ⟨s', r, -, hrun, -, -⟩ :=
    hok.step (valid_without havoid hv)
  rw [havoid.run_without_spent] at hrun
  rcases Option.map_eq_some_iff.mp hrun with ⟨r', hr', -⟩
  exact ⟨r', hr'⟩

/-- A lease whose node was evicted points to nowhere, and destroying it again drops a hold of a node that
is gone. -/
theorem LruOk.without_spent {n : CacheNode K V} (hok : LruOk (s.without spent) xs) (hl : l ∉ spent)
    (hlease : s.cache.leases l = some (some a)) (hn : s.cache.nodes a = some n) (hone : n.refcount = 1) :
    ∃ c, s.cache.evictOneLease l = some (c, true) ∧ c.nodes a = none ∧ c.leases l = some (some a) ∧
      c.leaseDestroy l = none := by
  have hlease' : (s.without spent).cache.leases l = some (some a) := (without_leases hl).trans hlease
  rcases hok.evictOneLease hlease' hn hone with ⟨c', hc', hnodes, hleases, -⟩
  change (s.cache.without spent).evictOneLease l = _ at hc'
  rw [evictOneLease_without hl] at hc'
  rcases Option.map_eq_some_iff.mp hc' with ⟨⟨c, _⟩, hc, hr⟩
  cases hr
  have hgone : c.nodes a = none := by
    change (c.without spent).nodes a = none
    rw [hnodes, update_self]
  have hkept : c.leases l = some (some a) := by
    rw [← without_leases hl, hleases]
    exact hlease'
  refine ⟨c, hc, hgone, hkept, ?_⟩
  simp [LRUCache.leaseDestroy, hkept, LRUCache.decLeases, hgone]

/-- A lease that keeps its pointer has not been given up. -/
theorem not_givesUpOnce {c c' : LRUCache K V} (hrun : c.evictOneLease l = some (c', true))
    (hkept : c'.leases l = some (some a)) : ¬ GivesUpOnce c l a := by
  rintro ⟨c'', evicted, hrun', htrue, -⟩
  rw [hrun] at hrun'
  cases hrun'
  rw [(htrue rfl).2.1] at hkept
  cases hkept

/-- As long as spent leases are left alone every count is right, but the lease is given up at most once
only if something else holds the node too. -/
theorem evictOneLease_gives_up_iff (h : LeaseReach s spent) (hl : l ∉ spent)
    (hlease : s.cache.leases l = some (some a)) :
    (∀ b m, s.cache.nodes b = some m → ∃ k : ℕ,
      Counts k {l | l ∉ spent ∧ s.cache.leases l = some (some b)} ∧ m.refcount = k + s.manual b) ∧
    (∀ op : LruOp K V, op.Avoids spent → s.Valid op → ∃ r, s.run op = some r) ∧
    ∃ n, s.cache.nodes a = some n ∧ (GivesUpOnce s.cache l a ↔ n.refcount ≠ 1) ∧
      (n.refcount = 1 → ∃ c, s.cache.evictOneLease l = some (c, true) ∧ c.nodes a = none ∧
        c.leases l = some (some a) ∧ c.leaseDestroy l = none) := by
  rcases h.ok with ⟨xs, hok⟩
  obtain ⟨n, hn⟩ := Option.ne_none_iff_exists'.mp
    (hok.leased ((without_leases hl).trans hlease))
  refine ⟨?_, fun op havoid hv => hok.without_run havoid hv, n, hn, ?_, fun hone =>
    hok.without_spent hl hlease hn hone⟩
  · intro b m hm
    rcases hok.counted hm with ⟨k, hk, hcount⟩
    refine ⟨k, ?_, hcount⟩
    convert hk using 2
    ext l'
    simp [Session.without, without, mapLeases]
  · constructor
    · intro honce hone
      rcases hok.without_spent hl hlease hn hone with ⟨c, hc, -, hkept, -⟩
      exact not_givesUpOnce hc hkept honce
    · intro hshared
      exact ⟨s.cache, false, evictOneLease_shared hlease hn hshared, nofun, fun _ => rfl⟩

end Runs

theorem leasedItem_reach : LeaseReach leasedItem [] :=
  .step .construct (fun _ _ => List.not_mem_nil) leasedItem_valid (Option.some_get (by decide +kernel)).symm

/-- Its only lease could be passed to `evict_one`. -/
theorem evictOneLease_gives_up_leasedItem :
    ∃ n, leasedItem.cache.nodes 0x1000 = some n ∧
      (GivesUpOnce leasedItem.cache 0 0x1000 ↔ n.refcount ≠ 1) := by
  obtain ⟨-, -, n, hn, hiff, -⟩ := evictOneLease_gives_up_iff leasedItem_reach (l := 0) (a := 0x1000)
    List.not_mem_nil (by decide +kernel)
  exact ⟨n, hn, hiff⟩

/-- The lease is passed to `evict_one` and destroyed. -/
theorem evictOneLease_leasedItem :
    LeaseReach leasedItem [] ∧ ¬ GivesUpOnce leasedItem.cache 0 0x1000 ∧
      ∃ c, leasedItem.cache.evictOneLease 0 = some (c, true) ∧ c.nodes 0x1000 = none ∧
        c.leaseDestroy 0 = none := by
  have hlease : leasedItem.cache.leases 0 = some (some 0x1000) := by decide +kernel
  have hn : leasedItem.cache.nodes 0x1000 = some ⟨1, 1, 3⟩ := by decide +kernel
  rcases leasedItem_reach.ok with ⟨xs, hok⟩
  rcases hok.without_spent List.not_mem_nil hlease hn rfl with ⟨c, hc, hgone, hkept, hdestroy⟩
  exact ⟨leasedItem_reach, not_givesUpOnce hc hkept, c, hc, hgone, hdestroy⟩

end HmmOS.Util
