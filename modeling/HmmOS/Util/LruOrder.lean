import HmmOS.Lib.Counts
import HmmOS.Lib.Table
import HmmOS.Util.Lru

/-! # Eviction in the order of release

Beside the cache we keep how often each node is held by `inc_leases` alone, and the
releases of last leases, the latest one first.
-/
namespace HmmOS.Util
open Lib Lib.Ring IntrusiveListHead Function LRUCache
variable {K V : Type}

structure Session (K V : Type) where
  cache : LRUCache K V
  manual : ℕ → ℕ
  releases : List ℕ

/-- The leases and manual holds of a node are its count, and a node that is not held is evictable. Where there
is no node, nothing is held. -/
structure Held (node : Option (CacheNode K V)) (leases : Set ℕ) (manual : ℕ) (evictable : Prop) : Prop where
  count : ∃ k : ℕ, Counts k leases ∧ node.elim 0 CacheNode.refcount = k + manual
  evictable : evictable ↔ ∃ n, node = some n ∧ n.refcount = 0

structure LruOk [DecidableEq K] (s : Session K V) (xs : List ℕ) : Prop where
  list : OneList s.cache.links none (xs.map some)
  resident : Indexes s.cache.lookup.lookup (Option.map CacheNode.key ∘ s.cache.nodes)
  held : ∀ a, Held (s.cache.nodes a) {l | s.cache.leases l = some (some a)} (s.manual a) (a ∈ xs)
  order : xs.Pairwise fun a b => s.releases.idxOf a < s.releases.idxOf b
  logged : ∀ a ∈ xs, a ∈ s.releases

section Counting
variable [DecidableEq K] {s s' : Session K V} {xs : List ℕ} {a : ℕ} {n : CacheNode K V}

theorem LruOk.nodup (h : LruOk s xs) : xs.Nodup :=
  List.Nodup.of_map some (List.nodup_cons.mp h.list.ring.nodup).2

theorem LruOk.leased {l : ℕ} (h : LruOk s xs) (hl : s.cache.leases l = some (some a)) : s.cache.nodes a ≠ none := by
  intro ha
  obtain ⟨k, hk, hcount⟩ := (h.held a).count
  have hpos := hk.pos_of_mem (show l ∈ {l | s.cache.leases l = some (some a)} from hl)
  rw [ha, Option.elim_none] at hcount
  omega

section
variable (h : LruOk s xs) (ha : s.cache.nodes a = some n)
include h ha

theorem LruOk.counted : ∃ k : ℕ, Counts k {l | s.cache.leases l = some (some a)} ∧ n.refcount = k + s.manual a := by
  have hcount := (h.held a).count
  rwa [ha] at hcount

theorem LruOk.refcount_nonneg : 0 ≤ n.refcount := by
  obtain ⟨k, -, hk⟩ := h.counted ha
  omega

theorem LruOk.refcount_pos {l : ℕ} (hl : s.cache.leases l = some (some a)) : s.manual a < n.refcount := by
  obtain ⟨k, hc, hk⟩ := h.counted ha
  have hpos := hc.pos_of_mem (show l ∈ {l | s.cache.leases l = some (some a)} from hl)
  omega

theorem LruOk.mem_iff : a ∈ xs ↔ n.refcount = 0 := by
  rw [(h.held a).evictable, ha]
  simp

end

theorem LruOk.incLeases (h : LruOk s xs) {c : LRUCache K V} (hlinks : c.links = s.cache.links)
    (hnodes : c.nodes = s.cache.nodes) (ha : c.nodes a = some n) (hmax : n.refcount < 2 ^ 31 - 1) :
    ∃ L', c.incLeases a =
        some { c.setNode a (some { n with refcount := n.refcount + 1 }) with links := L' } ∧
      OneList L' none ((xs.erase a).map some) := by
  have ha' : s.cache.nodes a = some n := hnodes ▸ ha
  have hmem := h.mem_iff ha'
  by_cases hz : n.refcount = 0
  · obtain ⟨l, r, rfl⟩ := List.append_of_mem (hmem.mpr hz)
    have hlist : OneList s.cache.links none (l.map some ++ some a :: r.map some) := by
      simpa using h.list
    obtain ⟨L', herase, hL'⟩ := hlist.erase
    refine ⟨L', ?_, ?_⟩
    · simp only [LRUCache.incLeases, ha, Option.bind_eq_bind, Option.bind_some, hz,
        LRUCache.setNode, hlinks, herase]
      rfl
    · rw [erase_middle h.nodup]
      simpa using hL'
  · refine ⟨c.links, ?_, ?_⟩
    · have hne : ¬ n.refcount + 1 = 1 := by omega
      simp only [LRUCache.incLeases, ha, Option.bind_eq_bind, Option.bind_some, if_neg hmax.ne, if_neg hne]
      rfl
    · rw [List.erase_of_not_mem (mt hmem.mp hz), hlinks]
      exact h.list

/-- One lease less puts it back in front, if it was the last one. -/
theorem LruOk.decLeases (h : LruOk s xs) (ha : s.cache.nodes a = some n) (hpos : 0 < n.refcount) :
    ∃ L', s.cache.decLeases a =
        some { s.cache.setNode a (some { n with refcount := n.refcount - 1 }) with links := L' } ∧
      OneList L' none ((if n.refcount = 1 then a :: xs else xs).map some) := by
  have hmin : n.refcount ≠ -2 ^ 31 := by omega
  have hmem : a ∉ xs := fun hm => hpos.ne' ((h.mem_iff ha).mp hm)
  by_cases hone : n.refcount = 1
  · obtain ⟨L', hpush, hL'⟩ := h.list.pushFront (show (some a : Option ℕ) ∉ none :: xs.map some by
      simpa using hmem)
    refine ⟨L', ?_, ?_⟩
    · simp only [LRUCache.decLeases, ha, Option.bind_eq_bind, Option.bind_some, hone,
        LRUCache.setNode, hpush]
      rfl
    · rw [if_pos hone]
      simpa using hL'
  · refine ⟨s.cache.links, ?_, ?_⟩
    · have hne : ¬ n.refcount - 1 = 0 := by omega
      simp only [LRUCache.decLeases, ha, Option.bind_eq_bind, Option.bind_some, if_neg hmin, if_neg hne]
      rfl
    · rw [if_neg hone]
      exact h.list

/-- A count changes by `d`, and the leases and manual holds of the node with it. -/
structure Recount (s s' : Session K V) (a : ℕ) (n : CacheNode K V) (d : ℤ) : Prop where
  node : s.cache.nodes a = some n
  nodes : s'.cache.nodes = Function.update s.cache.nodes a (some { n with refcount := n.refcount + d })
  lookup : s'.cache.lookup = s.cache.lookup
  same : ∀ b, b ≠ a → s'.manual b = s.manual b ∧
    ∀ l, s'.cache.leases l = some (some b) ↔ s.cache.leases l = some (some b)
  more : ∀ k : ℕ, Counts k {l | s.cache.leases l = some (some a)} → ∃ k' : ℕ,
    Counts k' {l | s'.cache.leases l = some (some a)} ∧ (k' + s'.manual a : ℤ) = k + s.manual a + d

/-- The nodes stay held if only one of them changes. -/
theorem LruOk.held_of_same (h : LruOk s xs) {xs' : List ℕ}
    (hsame : ∀ b, b ≠ a → s'.cache.nodes b = s.cache.nodes b ∧ s'.manual b = s.manual b ∧
      (∀ l, s'.cache.leases l = some (some b) ↔ s.cache.leases l = some (some b)) ∧ (b ∈ xs' ↔ b ∈ xs))
    (ha : Held (s'.cache.nodes a) {l | s'.cache.leases l = some (some a)} (s'.manual a) (a ∈ xs')) (b : ℕ) :
    Held (s'.cache.nodes b) {l | s'.cache.leases l = some (some b)} (s'.manual b) (b ∈ xs') := by
  by_cases hb : b = a
  · exact hb ▸ ha
  · obtain ⟨hnodes, hmanual, hleases, hxs⟩ := hsame b hb
    simp only [hnodes, hmanual, hleases, hxs]
    exact h.held b

theorem LruOk.change (h : LruOk s xs) {d : ℤ} (hc : Recount s s' a n d) {xs' : List ℕ}
    (hlist : OneList s'.cache.links none (xs'.map some))
    (hxs : ∀ b, b ∈ xs' ↔ if b = a then n.refcount + d = 0 else b ∈ xs)
    (horder : xs'.Pairwise fun a b => s'.releases.idxOf a < s'.releases.idxOf b)
    (hlogged : ∀ b ∈ xs', b ∈ s'.releases) : LruOk s' xs' where
  list := hlist
  resident := by
    rw [hc.lookup, hc.nodes]
    exact h.resident.set hc.node rfl
  held := by
    apply h.held_of_same (a := a)
    · intro b hb
      obtain ⟨hmanual, hleases⟩ := hc.same b hb
      exact ⟨by rw [hc.nodes, update_of_ne hb], hmanual, hleases, by rw [hxs, if_neg hb]⟩
    · obtain ⟨k, hk, hn⟩ := h.counted hc.node
      obtain ⟨k', hk', hn'⟩ := hc.more k hk
      rw [hc.nodes, update_self]
      exact ⟨⟨k', hk', by rw [hn', ← hn]; rfl⟩, by simp [hxs]⟩
  order := horder
  logged := hlogged

theorem LruOk.heldOnce (h : LruOk s xs) (hc : Recount s s' a n 1) (hrel : s'.releases = s.releases)
    (hlist : OneList s'.cache.links none ((xs.erase a).map some)) : LruOk s' (xs.erase a) := by
  have hnn := h.refcount_nonneg hc.node
  apply h.change hc hlist
  · intro b
    rw [h.nodup.mem_erase_iff]
    by_cases hb : b = a
    · simp [hb]
      omega
    · simp [hb]
  · rw [hrel]
    exact h.order.sublist List.erase_sublist
  · intro b hb
    rw [hrel]
    exact h.logged b (List.mem_of_mem_erase hb)

/-- A node that is held once less is evictable first if that was the last hold. -/
theorem LruOk.dropped (h : LruOk s xs) (hc : Recount s s' a n (-1)) (hpos : 0 < n.refcount)
    (hrel : s'.releases = if n.refcount = 1 then a :: s.releases else s.releases)
    (hlist : OneList s'.cache.links none ((if n.refcount = 1 then a :: xs else xs).map some)) :
    LruOk s' (if n.refcount = 1 then a :: xs else xs) := by
  have hmem : a ∉ xs := fun hm => hpos.ne' ((h.mem_iff hc.node).mp hm)
  have hne : ∀ b ∈ xs, b ≠ a := fun b hb he => hmem (he ▸ hb)
  by_cases hone : n.refcount = 1
  · rw [if_pos hone] at hrel hlist ⊢
    apply h.change hc hlist
    · intro b
      by_cases hb : b = a
      · simp [hb, hone]
      · simp [hb]
    · rw [hrel, List.pairwise_cons]
      constructor
      · intro b hb
        rw [List.idxOf_cons_self, List.idxOf_cons_ne _ (hne b hb).symm]
        exact Nat.succ_pos _
      · apply h.order.imp_of_mem
        intro b c hb hc hlt
        rw [List.idxOf_cons_ne _ (hne b hb).symm, List.idxOf_cons_ne _ (hne c hc).symm]
        exact Nat.succ_lt_succ hlt
    · intro b hb
      rw [hrel]
      rcases List.mem_cons.mp hb with rfl | hb
      · exact List.mem_cons_self
      · exact List.mem_cons_of_mem _ (h.logged b hb)
  · rw [if_neg hone] at hrel hlist ⊢
    apply h.change hc hlist
    · intro b
      by_cases hb : b = a
      · simp [hb, hmem]
        omega
      · simp [hb]
    · rw [hrel]
      exact h.order
    · rw [hrel]
      exact h.logged

theorem LruOk.permute (h : LruOk s xs) (e : Equiv.Perm ℕ) :
    LruOk { s with cache := { s.cache with leases := fun l => s.cache.leases (e l) } } xs where
  list := h.list
  resident := h.resident
  held := by
    intro a
    obtain ⟨k, hk, hn⟩ := (h.held a).count
    exact ⟨⟨k, hk.preimage e, hn⟩, (h.held a).evictable⟩
  order := h.order
  logged := h.logged

end Counting

/-- `val` is what `populate_cache` returns, if it is called. -/
inductive LruOp (K V : Type) where
  | get (key : K) (val : V) (insertIfMissing : Bool) (l addr : ℕ)
  | lease (l : ℕ)
  | moveAssign (l other : ℕ)
  | moveConstruct (l other : ℕ)
  | destroy (l : ℕ)
  | inc (l : ℕ)
  | dec (l : ℕ)
  | evict (sizeHint : ℕ)
  deriving Repr

namespace Session

/-- The history after a hold through `l` was dropped: a release is logged if no hold is left. -/
def released (s : Session K V) (c : LRUCache K V) (l : ℕ) : List ℕ :=
  match s.cache.leases l with
  | some (some a) => if (c.nodes a).any fun n => n.refcount = 0 then a :: s.releases else s.releases
  | _ => s.releases

def setManual (s : Session K V) (l : ℕ) (f : ℕ → ℕ) : ℕ → ℕ :=
  match s.cache.leases l with
  | some (some a) => Function.update s.manual a (f (s.manual a))
  | _ => s.manual

variable [DecidableEq K]

/-- An operation, with the number that `evict` returns. -/
def run (s : Session K V) : LruOp K V → Option (Session K V × Option ℕ)
  | .get key val insertIfMissing l addr =>
    (s.cache.get key val insertIfMissing l addr).map fun c => ({ s with cache := c }, none)
  | .lease l => some ({ s with cache := s.cache.leaseConstruct l }, none)
  | .moveAssign l other =>
    (s.cache.leaseMoveAssign l other).map fun c => ({ s with cache := c }, none)
  | .moveConstruct l other =>
    (s.cache.leaseMoveConstruct l other).map fun c => ({ s with cache := c }, none)
  | .destroy l =>
    (s.cache.leaseDestroy l).map fun c => ({ s with cache := c, releases := s.released c l }, none)
  | .inc l =>
    (s.cache.leaseInc l).map fun c => ({ s with cache := c, manual := s.setManual l (· + 1) }, none)
  | .dec l =>
    (s.cache.leaseDec l).map fun c =>
      ({ cache := c, manual := s.setManual l (· - 1), releases := s.released c l }, none)
  | .evict sizeHint => (s.cache.evict sizeHint).map fun r => ({ s with cache := r.1 }, some r.2)

/-- Objects are constructed in unused memory and used while they exist, `dec_leases` undoes an
`inc_leases`, and no count overflows. -/
def Valid (s : Session K V) : LruOp K V → Prop
  | .get key _ _ l addr => s.cache.leases l = none ∧ s.cache.nodes addr = none ∧
      ∀ a n, s.cache.lookup.lookup key = some a → s.cache.nodes a = some n → n.refcount < 2 ^ 31 - 1
  | .lease l => s.cache.leases l = none
  | .moveAssign l other => s.cache.leases l ≠ none ∧ s.cache.leases other ≠ none
  | .moveConstruct l other => s.cache.leases l = none ∧ s.cache.leases other ≠ none
  | .destroy l => s.cache.leases l ≠ none
  | .inc l => ∃ a n, s.cache.leases l = some (some a) ∧ s.cache.nodes a = some n ∧
      n.refcount < 2 ^ 31 - 1
  | .dec l => ∃ a, s.cache.leases l = some (some a) ∧ 0 < s.manual a
  | .evict _ => True

end Session

/-- The keys for which an operation calls `populate_cache`. -/
def LruOp.inserts [DecidableEq K] (c : LRUCache K V) : LruOp K V → List K
  | .get key _ true _ _ => if c.lookup.lookup key = none then [key] else []
  | _ => []

/-- The nodes that an operation removes, in this order, if `xs` is the list of evictable nodes. -/
def LruOp.evicts [DecidableEq K] (c : LRUCache K V) (xs : List ℕ) : LruOp K V → List ℕ
  | .evict sizeHint => xs.reverse.take (c.size - sizeHint)
  | _ => []

def LRUCache.entry (c : LRUCache K V) (a : ℕ) : Option (K × V) :=
  (c.nodes a).map fun n => (n.key, n.val)

structure LruEffect [DecidableEq K] (op : LruOp K V) (xs : List ℕ) (s s' : Session K V) (r : Option ℕ) :
    Prop where
  populated : s'.cache.populated = s.cache.populated ++ op.inserts s.cache
  removed : ∀ a, s.cache.nodes a ≠ none → (s'.cache.nodes a = none ↔ a ∈ op.evicts s.cache xs)
  on_evict : s'.cache.evicted = s.cache.evicted ++ (op.evicts s.cache xs).filterMap s.cache.entry
  returned : ∀ sizeHint, op = .evict sizeHint → r = some (min xs.length (s.cache.size - sizeHint))

section Steps
variable [DecidableEq K] {s : Session K V} {xs : List ℕ} {a addr l : ℕ}
  {lookup : AList fun _ : K => ℕ} {n : CacheNode K V} {nodes : ℕ → Option (CacheNode K V)}
  {x : Option (Option ℕ)}

theorem lruEffect_keeps {op : LruOp K V} {s' : Session K V} {r : Option ℕ}
    (hop : ∀ sizeHint, op ≠ .evict sizeHint)
    (hpop : s'.cache.populated = s.cache.populated ++ op.inserts s.cache)
    (hevicted : s'.cache.evicted = s.cache.evicted)
    (hkeep : ∀ a, s.cache.nodes a ≠ none → s'.cache.nodes a ≠ none) : LruEffect op xs s s' r := by
  have hev : op.evicts s.cache xs = [] := by
    cases op with
    | evict sizeHint => exact absurd rfl (hop sizeHint)
    | _ => rfl
  refine ⟨hpop, ?_, ?_, fun sizeHint he => absurd he (hop sizeHint)⟩
  · intro a ha
    rw [hev]
    exact iff_of_false (hkeep a ha) List.not_mem_nil
  · rw [hev, List.filterMap_nil, List.append_nil, hevicted]

/-- The leases on `b` do not change if neither the old nor the new value of `l` is one. -/
theorem setLease_other {leases : ℕ → Option (Option ℕ)} {b : ℕ} (hold : leases l ≠ some (some b))
    (hnew : x ≠ some (some b)) (l' : ℕ) : update leases l x l' = some (some b) ↔ leases l' = some (some b) := by
  rw [update_apply]
  by_cases hl : l' = l
  · rw [if_pos hl, hl]
    exact iff_of_false hnew hold
  · rw [if_neg hl]

theorem setLease_insert (leases : ℕ → Option (Option ℕ)) (l a : ℕ) :
    {l' | update leases l (some (some a)) l' = some (some a)} = insert l {l' | leases l' = some (some a)} := by
  ext l'
  by_cases hl : l' = l <;> simp [hl]

theorem setLease_erase (leases : ℕ → Option (Option ℕ)) (l a : ℕ) :
    {l' | update leases l none l' = some (some a)} = {l' | leases l' = some (some a)} \ {l} := by
  ext l'
  by_cases hl : l' = l <;> simp [hl]

omit [DecidableEq K] in
theorem nodes_kept : ∀ b, nodes b ≠ none → update nodes a (some n) b ≠ none := by
  intro b hb
  rw [update_apply]
  by_cases hba : b = a
  · rw [if_pos hba]
    nofun
  · rw [if_neg hba]
    exact hb

theorem LruOk.newLease (h : LruOk s xs) (ha : s.cache.nodes a = some n)
    (hmax : n.refcount < 2 ^ 31 - 1) (hl : s.cache.leases l = none) :
    ∃ c, s.cache.newLease l a = some c ∧ LruOk { s with cache := c } (xs.erase a) ∧
      c.populated = s.cache.populated ∧ c.evicted = s.cache.evicted ∧
      ∀ b, s.cache.nodes b ≠ none → c.nodes b ≠ none := by
  obtain ⟨L', hinc, hL'⟩ := h.incLeases (c := s.cache.setLease l (some (some a))) rfl rfl ha hmax
  refine ⟨_, hinc, ?_, rfl, rfl, nodes_kept⟩
  refine h.heldOnce ⟨ha, rfl, rfl, ?_, ?_⟩ rfl hL'
  · intro b hb
    refine ⟨rfl, setLease_other (by rw [hl]; nofun) ?_⟩
    intro he
    exact hb (Option.some.inj (Option.some.inj he)).symm
  · intro k hk
    refine ⟨k + 1, ?_, by dsimp only; omega⟩
    have hset := setLease_insert s.cache.leases l a
    change Counts (k + 1) {l' | update s.cache.leases l (some (some a)) l' = some (some a)}
    rw [hset]
    apply hk.insert
    rw [Set.mem_ofPred_eq, hl]
    nofun

theorem LruOk.inserted (h : LruOk s xs) (hl : s.cache.leases l = none)
    (haddr : s.cache.nodes addr = none) (n : CacheNode K V) (hone : n.refcount = 1)
    (hkey : s.cache.lookup.lookup n.key = none) (populated : List K) :
    LruOk { s with cache := { s.cache.setLease l (some (some addr)) with
      populated := populated
      lookup := s.cache.lookup.insert n.key addr
      nodes := update s.cache.nodes addr (some n) } } xs := by
  have hempty : Counts 0 {l' | s.cache.leases l' = some (some addr)} :=
    Counts.zero_iff.mpr (Set.eq_empty_iff_forall_notMem.mpr fun l' hl' => h.leased hl' haddr)
  obtain ⟨k, hk, hcount⟩ := (h.held addr).count
  have hxs := (h.held addr).evictable
  rw [haddr] at hcount hxs
  rw [Option.elim_none] at hcount
  refine ⟨h.list, ?_, ?_, h.order, h.logged⟩
  · dsimp only
    rw [lookup_insert_eq, comp_update]
    exact h.resident.insert hkey (congrArg (Option.map CacheNode.key) haddr)
  · apply h.held_of_same (a := addr)
    · intro b hb
      refine ⟨update_of_ne hb _ _, rfl, setLease_other (by rw [hl]; nofun) ?_, Iff.rfl⟩
      intro he
      exact hb (Option.some.inj (Option.some.inj he)).symm
    · dsimp only [setLease]
      rw [update_self, setLease_insert, hxs]
      refine ⟨⟨1, hempty.insert fun hl' => h.leased hl' haddr, ?_⟩, by simp [hone]⟩
      rw [Option.elim_some, hone]
      omega

theorem LruOk.insertLease (h : LruOk s xs) {key : K} (val : V) (hl : s.cache.leases l = none)
    (haddr : s.cache.nodes addr = none) (hkey : s.cache.lookup.lookup key = none) :
    ∃ c, s.cache.get key val true l addr = some c ∧ LruOk { s with cache := c } xs ∧
      c.populated = s.cache.populated ++ [key] ∧ c.evicted = s.cache.evicted ∧
      ∀ b, s.cache.nodes b ≠ none → c.nodes b ≠ none := by
  have hnode : (some addr : Option ℕ) ∉ none :: xs.map some := by
    have hxs : addr ∉ xs := by
      rw [(h.held addr).evictable, haddr]
      simp
    simpa using hxs
  refine ⟨{ s.cache.setLease l (some (some addr)) with
    populated := s.cache.populated ++ [key]
    lookup := s.cache.lookup.insert key addr
    nodes := update s.cache.nodes addr (some ⟨1, key, val⟩) }, ?_,
    h.inserted hl haddr ⟨1, key, val⟩ rfl hkey _, rfl, rfl, nodes_kept⟩
  simp [LRUCache.get, hkey, LRUCache.newLease, LRUCache.incLeases, LRUCache.setLease,
    LRUCache.setNode, h.list.construct hnode, h.list.erase_off hnode]

theorem LruOk.setEmpty (h : LruOk s xs) (hl : ∀ a, s.cache.leases l ≠ some (some a))
    (hx : ∀ a, x ≠ some (some a)) : LruOk { s with cache := s.cache.setLease l x } xs := by
  refine ⟨h.list, h.resident, ?_, h.order, h.logged⟩
  intro a
  dsimp only [setLease]
  simp only [setLease_other (hl a) (hx a)]
  exact h.held a

/-- What is to be shown of an operation. -/
def LruStep (xs : List ℕ) (s : Session K V) (op : LruOp K V) : Prop :=
  ∃ s' r xs', s.run op = some (s', r) ∧ LruOk s' xs' ∧ LruEffect op xs s s' r

theorem LruOk.get (h : LruOk s xs) {key : K} {val : V} {ins : Bool} (hv : s.Valid (.get key val ins l addr)) :
    LruStep xs s (.get key val ins l addr) := by
  obtain ⟨hl, haddr, hmax⟩ := hv
  cases hkey : s.cache.lookup.lookup key with
  | some a =>
    obtain ⟨n, hn, -⟩ := h.resident.find.mp hkey
    obtain ⟨c, hc, hok, hpop, hev, hkeep⟩ := h.newLease hn (hmax a n hkey hn) hl
    refine ⟨{ s with cache := c }, none, _, ?_, hok, lruEffect_keeps nofun ?_ hev hkeep⟩
    · rw [Session.run, LRUCache.get, hkey]
      dsimp only
      rw [hc]
      rfl
    · cases ins <;> simp [LruOp.inserts, hkey, hpop]
  | none =>
    cases ins with
    | true =>
      obtain ⟨c, hc, hok, hpop, hev, hkeep⟩ := h.insertLease val hl haddr hkey
      refine ⟨{ s with cache := c }, none, xs, by rw [Session.run, hc]; rfl, hok,
        lruEffect_keeps nofun ?_ hev hkeep⟩
      rw [LruOp.inserts, if_pos hkey]
      exact hpop
    | false =>
      refine ⟨_, none, xs, ?_, h.setEmpty (by rw [hl]; nofun) (x := some none) nofun,
        lruEffect_keeps nofun (List.append_nil _).symm rfl fun a ha => ha⟩
      rw [Session.run, LRUCache.get, hkey]
      rfl

theorem LruOk.lease (h : LruOk s xs) (hv : s.Valid (.lease l)) : LruStep xs s (.lease l) := by
  have hl : s.cache.leases l = none := hv
  exact ⟨_, none, xs, rfl, h.setEmpty (by rw [hl]; nofun) nofun,
    lruEffect_keeps nofun (List.append_nil _).symm rfl fun a ha => ha⟩

omit [DecidableEq K] in
theorem leaseMoveAssign_eq {c : LRUCache K V} {other : ℕ} (hl : c.leases l ≠ none)
    (ho : c.leases other ≠ none) :
    c.leaseMoveAssign l other = some { c with leases := fun x => c.leases (Equiv.swap l other x) } := by
  obtain ⟨x, hx⟩ := Option.ne_none_iff_exists'.mp hl
  obtain ⟨y, hy⟩ := Option.ne_none_iff_exists'.mp ho
  rw [leaseMoveAssign, hx, hy]
  apply congrArg some
  simp only [setLease]
  congr 1
  funext z
  rw [update_apply, update_apply, Equiv.swap_apply_def]
  by_cases hz : z = other
  · subst hz
    by_cases hzl : z = l
    · simp [hzl, hx]
    · simp [hzl, hx]
  · by_cases hzl : z = l
    · rw [if_neg hz, if_pos hzl, if_pos hzl, hy]
    · rw [if_neg hz, if_neg hzl, if_neg hzl, if_neg hz]

section
variable (h : LruOk s xs)
include h

theorem LruOk.moveAssign {other : ℕ} (hv : s.Valid (.moveAssign l other)) :
    LruStep xs s (.moveAssign l other) := by
  refine ⟨_, none, xs, ?_, h.permute (Equiv.swap l other),
    lruEffect_keeps nofun (List.append_nil _).symm rfl fun a ha => ha⟩
  rw [Session.run, leaseMoveAssign_eq hv.1 hv.2]
  rfl

theorem LruOk.moveConstruct {other : ℕ} (hv : s.Valid (.moveConstruct l other)) :
    LruStep xs s (.moveConstruct l other) := by
  have hempty := h.setEmpty (l := l) (x := some none) (by rw [hv.1]; nofun) nofun
  have hne : other ≠ l := fun he => hv.2 (he ▸ hv.1)
  refine ⟨_, none, xs, ?_, hempty.permute (Equiv.swap l other),
    lruEffect_keeps nofun (List.append_nil _).symm rfl fun a ha => ha⟩
  have hl : (s.cache.leaseConstruct l).leases l ≠ none := by
    simp [leaseConstruct, setLease]
  have ho : (s.cache.leaseConstruct l).leases other ≠ none := by
    simpa [leaseConstruct, setLease, hne] using hv.2
  rw [Session.run, leaseMoveConstruct, leaseMoveAssign_eq hl ho]
  rfl

theorem LruOk.release (hl : s.cache.leases l = some (some a)) :
    ∃ c n, s.cache.decLeases a = some c ∧ s.cache.nodes a = some n ∧ (s.manual a : ℤ) < n.refcount ∧
      c.nodes = update s.cache.nodes a (some { n with refcount := n.refcount - 1 }) ∧
      c.lookup = s.cache.lookup ∧ c.leases = s.cache.leases ∧ c.populated = s.cache.populated ∧
      c.evicted = s.cache.evicted ∧
      s.released c l = (if n.refcount = 1 then a :: s.releases else s.releases) ∧
      OneList c.links none ((if n.refcount = 1 then a :: xs else xs).map some) := by
  obtain ⟨n, hn⟩ := Option.ne_none_iff_exists'.mp (h.leased hl)
  have hpos := h.refcount_pos hn hl
  obtain ⟨L', hdec, hL'⟩ := h.decLeases hn (by omega)
  refine ⟨_, n, hdec, hn, hpos, rfl, rfl, rfl, rfl, rfl, ?_, hL'⟩
  have hzero : n.refcount - 1 = 0 ↔ n.refcount = 1 := by omega
  simp [Session.released, hl, setNode, hzero]

theorem LruOk.releaseLease (hl : s.cache.leases l = some (some a)) :
    ∃ c n, s.cache.decLeases a = some c ∧ s.cache.nodes a = some n ∧ 0 < n.refcount ∧
      c.nodes = update s.cache.nodes a (some { n with refcount := n.refcount - 1 }) ∧
      c.leases = s.cache.leases ∧ c.populated = s.cache.populated ∧ c.evicted = s.cache.evicted ∧
      s.released (c.setLease l none) l = (if n.refcount = 1 then a :: s.releases else s.releases) ∧
      LruOk { s with cache := c.setLease l none, releases := s.released (c.setLease l none) l }
        (if n.refcount = 1 then a :: xs else xs) := by
  obtain ⟨c, n, hdec, hn, hpos, hnodes, hlookup, hleases, hpop, hev, hrel, hlist⟩ := h.release hl
  refine ⟨c, n, hdec, hn, by omega, hnodes, hleases, hpop, hev, hrel, ?_⟩
  refine h.dropped ⟨hn, hnodes, hlookup, ?_, ?_⟩ (by omega) hrel hlist
  · intro b hb
    refine ⟨rfl, ?_⟩
    dsimp only [setLease]
    rw [hleases]
    apply setLease_other
    · rw [hl]
      intro he
      exact hb (Option.some.inj (Option.some.inj he)).symm
    · nofun
  · intro k hk
    have hpos' := hk.pos_of_mem (show l ∈ {l | s.cache.leases l = some (some a)} from hl)
    refine ⟨k - 1, ?_, by dsimp only; omega⟩
    dsimp only [setLease]
    rw [hleases, setLease_erase]
    exact hk.erase hl

theorem LruOk.destroy (hv : s.Valid (.destroy l)) : LruStep xs s (.destroy l) := by
  obtain ⟨x, hx⟩ := Option.ne_none_iff_exists'.mp (show s.cache.leases l ≠ none from hv)
  cases x with
  | none =>
    refine ⟨_, none, xs, ?_, h.setEmpty (by rw [hx]; nofun) (x := none) nofun,
      lruEffect_keeps nofun (List.append_nil _).symm rfl fun a ha => ha⟩
    simp [Session.run, leaseDestroy, hx, Session.released]
  | some a =>
    obtain ⟨c, n, hdec, -, -, hnodes, -, hpop, hev, -, hok⟩ := h.releaseLease hx
    refine ⟨_, none, _, ?_, hok, lruEffect_keeps nofun ?_ hev ?_⟩
    · simp [Session.run, leaseDestroy, hx, hdec]
    · rw [← hpop]
      exact (List.append_nil _).symm
    · dsimp only [setLease]
      rw [hnodes]
      exact nodes_kept

theorem LruOk.dec (hv : s.Valid (.dec l)) : LruStep xs s (.dec l) := by
  obtain ⟨a, hl, hman⟩ := hv
  obtain ⟨c, n, hdec, hn, hpos, hnodes, hlookup, hleases, hpop, hev, hrel, hlist⟩ := h.release hl
  refine ⟨⟨c, s.setManual l (· - 1), s.released c l⟩, none,
    (if n.refcount = 1 then a :: xs else xs), ?_, ?_, lruEffect_keeps nofun ?_ hev ?_⟩
  · simp [Session.run, leaseDec, hl, hdec]
  · refine h.dropped ⟨hn, hnodes, hlookup, ?_, ?_⟩ (by omega) hrel hlist
    · intro b hb
      rw [hleases]
      refine ⟨?_, fun _ => Iff.rfl⟩
      simp [Session.setManual, hl, hb]
    · intro k hk
      rw [hleases]
      refine ⟨k, hk, ?_⟩
      simp only [Session.setManual, hl, update_self]
      omega
  · rw [← hpop]
    exact (List.append_nil _).symm
  · rw [hnodes]
    exact nodes_kept

theorem LruOk.inc (hv : s.Valid (.inc l)) : LruStep xs s (.inc l) := by
  obtain ⟨a, n, hl, hn, hmax⟩ := hv
  obtain ⟨L', hinc, hL'⟩ := h.incLeases (c := s.cache) rfl rfl hn hmax
  refine ⟨⟨{ s.cache.setNode a (some { n with refcount := n.refcount + 1 }) with links := L' },
    s.setManual l (· + 1), s.releases⟩, none, xs.erase a, ?_, ?_,
    lruEffect_keeps nofun (List.append_nil _).symm rfl nodes_kept⟩
  · simp [Session.run, leaseInc, hl, hinc]
  · refine h.heldOnce ⟨hn, rfl, rfl, ?_, ?_⟩ rfl hL'
    · intro b hb
      refine ⟨?_, fun _ => Iff.rfl⟩
      simp [Session.setManual, hl, hb]
    · intro k hk
      refine ⟨k, hk, ?_⟩
      simp only [Session.setManual, hl, update_self]
      omega

end

theorem LruOk.removed {ys zs : List ℕ} (h : LruOk s (ys ++ a :: zs)) (hn : s.cache.nodes a = some n)
    (hzero : n.refcount = 0) {L' : Links (Option ℕ)} (hL' : OneList L' none ((ys ++ zs).map some))
    (evicted : List (K × V)) : LruOk { s with cache := { s.cache.setNode a none with
      evicted := evicted
      links := L'
      lookup := s.cache.lookup.erase n.key } } (ys ++ zs) := by
  have ha : a ∉ ys ++ zs := (List.nodup_middle.mp h.nodup).notMem
  have hsub : (ys ++ zs).Sublist (ys ++ a :: zs) :=
    (List.Sublist.refl ys).append (List.sublist_cons_self a zs)
  obtain ⟨k, hk, hcount⟩ := h.counted hn
  refine ⟨hL', ?_, ?_, ?_, ?_⟩
  · dsimp only [setNode]
    rw [lookup_erase_eq, comp_update]
    exact h.resident.erase (congrArg (Option.map CacheNode.key) hn)
  · apply h.held_of_same (a := a)
    · intro b hb
      exact ⟨update_of_ne hb _ _, rfl, fun _ => Iff.rfl, by simp [hb]⟩
    · dsimp only [setNode]
      rw [update_self]
      exact ⟨⟨k, hk, by rw [← hcount, hzero]; rfl⟩, by simpa using ha⟩
  · exact h.order.sublist hsub
  · exact fun b hb => h.logged b (hsub.subset hb)

theorem LruOk.evictOne {ys zs : List ℕ} (h : LruOk s (ys ++ a :: zs)) :
    ∃ c n, s.cache.evictOne a = some c ∧ s.cache.nodes a = some n ∧
      c.nodes = update s.cache.nodes a none ∧ c.populated = s.cache.populated ∧
      c.evicted = s.cache.evicted ++ [(n.key, n.val)] ∧ c.size + 1 = s.cache.size ∧
      LruOk { s with cache := c } (ys ++ zs) := by
  obtain ⟨n, hn, hzero⟩ := (h.held a).evictable.mp (by simp)
  have hlist : OneList s.cache.links none (ys.map some ++ some a :: zs.map some) := by
    simpa using h.list
  obtain ⟨L', herase, hL'⟩ := hlist.erase
  have hlookup := h.resident.find.mpr ⟨n, hn, rfl⟩
  have hmem : n.key ∈ s.cache.lookup.keys :=
    AList.mem_keys.mp (AList.lookup_isSome.mp (by rw [hlookup]; rfl))
  refine ⟨{ s.cache.setNode a none with
    evicted := s.cache.evicted ++ [(n.key, n.val)]
    links := L'
    lookup := s.cache.lookup.erase n.key }, n, ?_, hn, rfl, rfl, rfl, ?_,
    h.removed hn hzero (by simpa using hL') _⟩
  · simp [LRUCache.evictOne, hn, hzero, herase]
  · have hlen := List.length_erase_add_one hmem
    rw [LRUCache.size, LRUCache.size, AList.keys_erase]
    exact hlen

/-- The loop removes nodes from the end of the list until the size or the list is down. -/
theorem LruOk.evictLoop (h : LruOk s xs) (sizeHint fuel evicted : ℕ) (hfuel : s.cache.size < fuel) :
    ∃ c ys, LRUCache.evictLoop sizeHint fuel s.cache evicted =
        some (c, evicted + min xs.length (s.cache.size - sizeHint)) ∧
      LruOk { s with cache := c } ys ∧ c.populated = s.cache.populated ∧
      c.evicted = s.cache.evicted ++
        (xs.reverse.take (s.cache.size - sizeHint)).filterMap s.cache.entry ∧
      ∀ b, c.nodes b = if b ∈ xs.reverse.take (s.cache.size - sizeHint) then none
        else s.cache.nodes b := by
  induction fuel generalizing s xs evicted with
  | zero => omega
  | succ fuel ih =>
    rw [evictLoop]
    by_cases hsize : s.cache.size > sizeHint
    · rw [if_pos hsize, h.list.empty]
      rcases List.eq_nil_or_concat xs with rfl | ⟨ys, a, rfl⟩
      · refine ⟨s.cache, [], ?_, h, rfl, ?_, ?_⟩ <;> simp
      · rw [List.concat_eq_append] at h ⊢
        have hprev : s.cache.links.prev none = some a := by
          rw [h.list.ring.prev_head]
          simp
        obtain ⟨c1, n, hone, hn, hnodes, hpop, hev, hsz, hok⟩ := h.evictOne
        rw [List.append_nil] at hok
        obtain ⟨c, zs, hloop, hok', hpop', hev', hnodes'⟩ := ih hok (evicted + 1) (by dsimp only; omega)
        have hsub : s.cache.size - sizeHint = c1.size - sizeHint + 1 := by omega
        have htake : (ys ++ [a]).reverse.take (s.cache.size - sizeHint) =
            a :: ys.reverse.take (c1.size - sizeHint) := by
          rw [hsub, List.reverse_append, List.reverse_singleton, List.singleton_append, List.take_succ_cons]
        have ha : a ∉ ys := not_mem_of_nodup_middle h.nodup
        have hne : ∀ b ∈ ys.reverse.take (c1.size - sizeHint), b ≠ a := by
          rintro b hb rfl
          exact ha (List.mem_reverse.mp (List.mem_of_mem_take hb))
        refine ⟨c, zs, ?_, hok', hpop'.trans hpop, ?_, ?_⟩
        · have hlen : evicted + 1 + min ys.length (c1.size - sizeHint) =
              evicted + min (ys ++ [a]).length (s.cache.size - sizeHint) := by
            rw [hsub, List.length_append, List.length_singleton]
            omega
          rw [hlen] at hloop
          simp [hprev, hone, hloop]
        · have hentry : (ys.reverse.take (c1.size - sizeHint)).filterMap c1.entry =
              (ys.reverse.take (c1.size - sizeHint)).filterMap s.cache.entry := by
            apply List.filterMap_congr
            intro b hb
            rw [entry, entry, hnodes, update_of_ne (hne b hb)]
          rw [hev', hev, htake, hentry, List.filterMap_cons, entry, hn]
          simp
        · intro b
          rw [hnodes', htake, hnodes, update_apply]
          by_cases hb : b = a
          · simp [hb]
          · simp [hb]
    · have hzero : s.cache.size - sizeHint = 0 := by omega
      rw [if_neg hsize, hzero]
      refine ⟨s.cache, xs, ?_, h, rfl, ?_, ?_⟩ <;> simp

theorem LruOk.evict (h : LruOk s xs) (sizeHint : ℕ) : LruStep xs s (.evict sizeHint) := by
  obtain ⟨c, ys, hloop, hok, hpop, hev, hnodes⟩ :=
    h.evictLoop sizeHint (s.cache.size + 1) 0 (Nat.lt_succ_self _)
  refine ⟨{ s with cache := c }, some (min xs.length (s.cache.size - sizeHint)), ys, ?_, hok, ?_⟩
  · rw [Session.run, LRUCache.evict, hloop]
    simp
  · refine ⟨?_, ?_, hev, ?_⟩
    · rw [hpop]
      exact (List.append_nil _).symm
    · intro a ha
      rw [hnodes, LruOp.evicts]
      by_cases hm : a ∈ xs.reverse.take (s.cache.size - sizeHint)
      · simp [hm]
      · simp [hm, ha]
    · rintro _ ⟨rfl⟩
      rfl

theorem LruOk.step (h : LruOk s xs) {op : LruOp K V} (hv : s.Valid op) : LruStep xs s op := by
  cases op with
  | get key val ins l addr => exact h.get hv
  | lease l => exact h.lease hv
  | moveAssign l other => exact h.moveAssign hv
  | moveConstruct l other => exact h.moveConstruct hv
  | destroy l => exact h.destroy hv
  | inc l => exact h.inc hv
  | dec l => exact h.dec hv
  | evict sizeHint => exact h.evict sizeHint

theorem LruOk.length_le (h : LruOk s xs) : xs.length ≤ s.cache.size := by
  have hsub : xs ⊆ s.cache.lookup.keys.filterMap s.cache.lookup.lookup := by
    intro a ha
    obtain ⟨n, hn, -⟩ := (h.held a).evictable.mp ha
    have hlookup := h.resident.find.mpr ⟨n, hn, rfl⟩
    refine List.mem_filterMap.mpr ⟨n.key, ?_, hlookup⟩
    exact AList.mem_keys.mp (AList.lookup_isSome.mp (by rw [hlookup]; rfl))
  exact (h.nodup.subperm hsub).length_le.trans (List.length_filterMap_le _ _)

end Steps

/-- The states of a cache that is used as `Valid` says. -/
inductive LruReach [DecidableEq K] : Session K V → Prop
  | construct : LruReach ⟨LRUCache.construct, fun _ => 0, []⟩
  | step {s s' : Session K V} {op : LruOp K V} {r : Option ℕ} (h : LruReach s)
      (hv : s.Valid op) (hrun : s.run op = some (s', r)) : LruReach s'

structure EvictableList [DecidableEq K] (s : Session K V) (xs : List ℕ) : Prop where
  list : IsRing s.cache.links none (xs.map some)
  length : s.cache.evictable = some xs.length
  members : ∀ a, a ∈ xs ↔ ∃ k n, s.cache.lookup.lookup k = some a ∧ s.cache.nodes a = some n ∧
    n.key = k ∧ n.refcount = 0
  order : xs.Pairwise fun a b => s.releases.idxOf a < s.releases.idxOf b
  logged : ∀ a ∈ xs, a ∈ s.releases

section Runs
variable [DecidableEq K] {s : Session K V} {xs : List ℕ}

theorem LruReach.ok (h : LruReach s) : ∃ xs, LruOk s xs := by
  induction h with
  | construct =>
    refine ⟨[], oneList_fresh none, indexes_empty, ?_, List.Pairwise.nil, nofun⟩
    intro a
    exact ⟨⟨0, Counts.zero_iff.mpr (by simp [LRUCache.construct]), rfl⟩, by simp [LRUCache.construct]⟩
  | step _ hv hrun ih =>
    obtain ⟨xs, hok⟩ := ih
    obtain ⟨s1, r1, xs', hrun', hok', -⟩ := hok.step hv
    rw [hrun] at hrun'
    cases hrun'
    exact ⟨xs', hok'⟩

theorem LruOk.evictableList (h : LruOk s xs) : EvictableList s xs where
  list := h.list.ring
  length := by
    have hlen : (xs.map some).length < s.cache.size + 1 := by
      rw [List.length_map]
      exact Nat.lt_succ_of_le h.length_le
    rw [LRUCache.evictable, size_spec h.list.ring hlen, List.length_map]
  members := by
    intro a
    rw [(h.held a).evictable]
    constructor
    · rintro ⟨n, hn, hzero⟩
      exact ⟨n.key, n, h.resident.find.mpr ⟨n, hn, rfl⟩, hn, rfl, hzero⟩
    · rintro ⟨k, n, -, hn, -, hzero⟩
      exact ⟨n, hn, hzero⟩
  order := h.order
  logged := h.logged

/-- A node with a lease is not among those that an operation removes. -/
theorem LruOk.leased_not_evicted (h : LruOk s xs) {l a : ℕ} (hl : s.cache.leases l = some (some a))
    (op : LruOp K V) : a ∉ op.evicts s.cache xs := by
  have hxs : a ∉ xs := by
    intro hm
    obtain ⟨n, hn, hzero⟩ := (h.held a).evictable.mp hm
    have := h.refcount_pos hn hl
    omega
  cases op with
  | evict sizeHint => exact fun hm => hxs (List.mem_reverse.mp (List.mem_of_mem_take hm))
  | _ => exact List.not_mem_nil

/-- `lru` has the nodes without leases in the order of their release, and the next operation does what it
is for. -/
theorem lruReach_evicts_in_order (h : LruReach s) :
    ∃ xs, EvictableList s xs ∧
      ∀ op, s.Valid op → ∃ s' r, s.run op = some (s', r) ∧ LruEffect op xs s s' r ∧
        ∀ l a, s.cache.leases l = some (some a) → s'.cache.nodes a ≠ none := by
  obtain ⟨xs, hok⟩ := h.ok
  refine ⟨xs, hok.evictableList, ?_⟩
  intro op hv
  obtain ⟨s', r, xs', hrun, -, heff⟩ := hok.step hv
  refine ⟨s', r, hrun, heff, ?_⟩
  intro l a hl hnone
  exact hok.leased_not_evicted hl op ((heff.removed a (hok.leased hl)).mp hnone)

end Runs

/-- A cache with one leased item, with two, and after both leases are gone, the second one first. -/
def leasedItem : Session ℕ ℕ :=
  ((Session.run ⟨LRUCache.construct, fun _ => 0, []⟩ (.get 1 3 true 0 0x1000)).get (by decide +kernel)).1

def leasedItems : Session ℕ ℕ := ((leasedItem.run (.get 2 4 true 1 0x2000)).get (by decide +kernel)).1

def firstLeased : Session ℕ ℕ := ((leasedItems.run (.destroy 1)).get (by decide +kernel)).1

def twoItems : Session ℕ ℕ := ((firstLeased.run (.destroy 0)).get (by decide +kernel)).1

theorem leasedItem_valid : (⟨construct, fun _ => 0, []⟩ : Session ℕ ℕ).Valid (.get 1 3 true 0 0x1000) :=
  ⟨rfl, rfl, nofun⟩

theorem twoItems_reach : LruReach twoItems := by
  have hone : LruReach leasedItem := .step .construct leasedItem_valid (Option.some_get (by decide +kernel)).symm
  have hget : leasedItem.Valid (.get 2 4 true 1 0x2000) := by
    refine ⟨by decide +kernel, by decide +kernel, fun a n ha => ?_⟩
    have hnone : leasedItem.cache.lookup.lookup 2 = none := by decide +kernel
    rw [hnone] at ha
    cases ha
  have htwo : LruReach leasedItems := hone.step hget (Option.some_get (by decide +kernel)).symm
  have hsecond : leasedItems.Valid (.destroy 1) := by
    change leasedItems.cache.leases 1 ≠ none
    decide +kernel
  have hthree : LruReach firstLeased := htwo.step hsecond (Option.some_get (by decide +kernel)).symm
  have hfirst : firstLeased.Valid (.destroy 0) := by
    change firstLeased.cache.leases 0 ≠ none
    decide +kernel
  exact hthree.step hfirst (Option.some_get (by decide +kernel)).symm

/-- Shrinking the cache to one item evicts the one that was released first. -/
theorem lruReach_evicts_twoItems : ∃ xs s' r, EvictableList twoItems xs ∧
    twoItems.run (.evict 1) = some (s', r) ∧ LruEffect (.evict 1) xs twoItems s' r ∧
    r = some 1 ∧ s'.cache.evicted = [(2, 4)] := by
  obtain ⟨xs, hlist, hstep⟩ := lruReach_evicts_in_order twoItems_reach
  obtain ⟨s', r, hrun, heff, -⟩ := hstep (.evict 1) trivial
  have hvalues : (twoItems.run (.evict 1)).map (fun p => (p.2, p.1.cache.evicted)) =
      some (some 1, [(2, 4)]) := by decide +kernel
  rw [hrun, Option.map_some, Option.some.injEq, Prod.mk.injEq] at hvalues
  exact ⟨xs, s', r, hlist, hrun, heff, hvalues⟩

end HmmOS.Util
