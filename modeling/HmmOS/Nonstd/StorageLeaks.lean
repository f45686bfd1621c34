import HmmOS.Nonstd.Storage

/-! # Buffers of capacity zero

A constructor that allocates does so for an empty object too, and the buffer is then
nobody's, because the capacity is zero.
-/
namespace HmmOS.Nonstd
open Lib Function
variable {α : Type*} {ops : List (ContainerOp α)} {st st' : Containers α}

namespace Storage
variable {term : List α} {l l' : Ledger} {v v' tmp : Storage α} {pos : ℕ} {xs : List (Option α)}

/-- The allocation that the destructor will free. -/
def owned (v : Storage α) : Option ℕ := if v.capacity ≠ 0 then v.data.map Buffer.addr else none

def slot (v : Storage α) : Unit → Option ℕ := fun _ => v.owned

theorem slot_of_zero (h : v.capacity = 0) : v.slot = fun _ => none := by
  funext
  simp [slot, owned, h]

theorem slot_of_pos {b : Buffer α} (h : v.capacity ≠ 0) (hb : v.data = some b) :
    v.slot = update (fun _ => none) () (some b.addr) := by
  funext
  simp [slot, owned, h, hb]

theorem write_addr {data data' : Option (Buffer α)} (h : Buffer.write data pos xs = some data') :
    data'.map Buffer.addr = data.map Buffer.addr := by
  rw [Buffer.write] at h
  split_ifs at h
  · rw [Option.some.inj h]
  · rcases Option.bind_eq_some_iff.mp h with ⟨b, rfl, hb⟩
    split_ifs at hb
    rw [← Option.some.inj hb]
    rfl

theorem write_buffer {b : Buffer α} {data' : Option (Buffer α)}
    (h : Buffer.write (some b) pos xs = some data') : ∃ b', data' = some b' ∧ b'.addr = b.addr :=
  Option.map_eq_some_iff.mp (write_addr h)

theorem slot_setLen (v : Storage α) (n : ℕ) : slot ⟨n, v.capacity, v.data⟩ = v.slot := rfl

theorem put_slot (h : v.put pos xs = some v') : v'.slot = v.slot := by
  rcases Option.map_eq_some_iff.mp h with ⟨data, hdata, rfl⟩
  funext
  simp only [slot, owned, write_addr hdata]

theorem fill_loses {len capacity : ℕ} {cells : List (Option α)}
    (h : fill term l len capacity cells = some (l', v')) :
    Ledger.Loses (if capacity = 0 then 1 else 0) l (fun _ : Unit => none) l' v'.slot := by
  rcases Option.map_eq_some_iff.mp h with ⟨data, hdata, he⟩
  rcases write_buffer hdata with ⟨b, rfl, hb⟩
  obtain ⟨rfl, rfl⟩ := Prod.mk.inj he
  split_ifs with hzero
  · rw [slot_of_zero hzero]
    exact .lost
  · rw [slot_of_pos hzero rfl, hb]
    exact .allocate rfl

theorem destroy_loses (h : v.destroy l = some l') : Ledger.Loses 0 l v.slot l' fun _ => none := by
  rw [destroy] at h
  split_ifs at h with hzero
  · rcases Option.map_eq_some_iff.mp h with ⟨b, hb, rfl⟩
    have hheld : v.slot () = some b.addr := by simp [slot, owned, hzero, hb]
    exact .free hheld
  · rw [← Option.some.inj h, slot_of_zero (not_not.mp hzero)]
    exact .refl

theorem reserve_loses {n : ℕ} (h : reserve term l v n = some (l', v')) :
    Ledger.Loses 0 l v.slot l' v'.slot := by
  rw [reserve] at h
  split_ifs at h with hle
  · obtain ⟨rfl, rfl⟩ := Prod.mk.inj (Option.some.inj h)
    exact .refl
  · rcases Option.bind_eq_some_iff.mp h with ⟨cells, -, h⟩
    rcases Option.bind_eq_some_iff.mp h with ⟨data, hdata, h⟩
    rcases Option.map_eq_some_iff.mp h with ⟨l1, hl1, he⟩
    rcases write_buffer hdata with ⟨b, rfl, hb⟩
    obtain ⟨rfl, rfl⟩ := Prod.mk.inj he
    have hpos : max n (Word.mul 32 v.capacity 2) ≠ 0 := by
      omega
    have hslot : slot ⟨v.len, max n (Word.mul 32 v.capacity 2), some b⟩ =
        update (fun _ => none) () (some b.addr) := slot_of_pos hpos rfl
    rw [hslot, hb]
    exact Ledger.Loses.replace (.allocate rfl) (destroy_loses hl1)

theorem pushBack_loses {x : α} (h : pushBack term l v x = some (l', v')) :
    Ledger.Loses 0 l v.slot l' v'.slot := by
  rcases Option.bind_eq_some_iff.mp h with ⟨⟨l1, v1⟩, hreserve, h⟩
  rcases Option.bind_eq_some_iff.mp h with ⟨v2, hput, h⟩
  rcases Option.map_eq_some_iff.mp h with ⟨v3, hterm, he⟩
  obtain ⟨rfl, rfl⟩ := Prod.mk.inj he
  rw [put_slot hterm, slot_setLen v2, put_slot hput]
  exact reserve_loses hreserve

theorem pushAll_loses {xs : List α} (h : pushAll term l v xs = some (l', v')) :
    Ledger.Loses 0 l v.slot l' v'.slot := by
  induction xs generalizing l v with
  | nil =>
    obtain ⟨rfl, rfl⟩ := Prod.mk.inj (Option.some.inj h)
    exact .refl
  | cons x xs ih =>
    rcases Option.bind_eq_some_iff.mp h with ⟨⟨l1, v1⟩, hpush, hrest⟩
    exact (pushBack_loses hpush).trans (ih hrest)

theorem setAt_loses {x : α} (h : v.setAt l pos x = some (l', v')) : Ledger.Loses 0 l v.slot l' v'.slot := by
  rw [setAt] at h
  split_ifs at h
  rcases Option.map_eq_some_iff.mp h with ⟨v1, hput, he⟩
  obtain ⟨rfl, rfl⟩ := Prod.mk.inj he
  rw [put_slot hput]
  exact .refl

theorem assign_loses {n : ℕ} {l1 : Ledger} (htmp : Ledger.Loses n l (fun _ => none) l1 tmp.slot)
    (h : v.assign l1 tmp = some (l', v')) : Ledger.Loses n l v.slot l' v'.slot := by
  rcases Option.map_eq_some_iff.mp h with ⟨l2, hdestroy, he⟩
  obtain ⟨rfl, rfl⟩ := Prod.mk.inj he
  exact htmp.replace (destroy_loses hdestroy)

end Storage

open Storage

section Modifiers
variable {l l' : Ledger} {v v' : Storage α} {s s' : Storage Char}

theorem Vector.resize_loses {count : ℕ} {x : Option α} (h : Vector.resize l v count x = some (l', v')) :
    Ledger.Loses 0 l v.slot l' v'.slot := by
  rcases Option.bind_eq_some_iff.mp h with ⟨⟨l1, v1⟩, hreserve, h⟩
  rcases Option.map_eq_some_iff.mp h with ⟨v2, hput, he⟩
  obtain ⟨rfl, rfl⟩ := Prod.mk.inj he
  have hslot : v2.slot = v1.slot := by
    split_ifs at hput
    · exact put_slot hput
    · exact put_slot hput
  rw [slot_setLen v2, hslot]
  exact reserve_loses hreserve

theorem VectorMod.run_loses {m : VectorMod α} (h : m.run l v = some (l', v')) :
    Ledger.Loses 0 l v.slot l' v'.slot := by
  cases m with
  | reserve n => exact reserve_loses h
  | clear =>
    rw [VectorMod.run, Vector.clear] at h
    exact Vector.resize_loses h
  | pushBack x => exact pushBack_loses h
  | popBack =>
    rw [VectorMod.run, Vector.popBack] at h
    split_ifs at h
    rcases Option.map_eq_some_iff.mp h with ⟨v1, hput, he⟩
    obtain ⟨rfl, rfl⟩ := Prod.mk.inj he
    rw [put_slot hput, slot_setLen v (Word.sub 32 v.len 1)]
    exact .refl
  | resize n x => exact Vector.resize_loses h
  | setAt pos x => exact setAt_loses h

theorem String.resize_loses {count : ℕ} (h : String.resize l s count = some (l', s')) :
    Ledger.Loses 0 l s.slot l' s'.slot := by
  rcases Option.bind_eq_some_iff.mp h with ⟨⟨l1, s1⟩, hreserve, h⟩
  rcases Option.bind_eq_some_iff.mp h with ⟨s2, hput, h⟩
  rcases Option.map_eq_some_iff.mp h with ⟨s3, hterm, he⟩
  obtain ⟨rfl, rfl⟩ := Prod.mk.inj he
  have hslot : s2.slot = s1.slot := by
    split_ifs at hput
    · exact put_slot hput
    · rw [Option.some.inj hput]
  rw [put_slot hterm, slot_setLen s2, hslot]
  exact reserve_loses hreserve

theorem String.append_loses {xs : List Char} (h : String.append l s xs = some (l', s')) :
    Ledger.Loses 0 l s.slot l' s'.slot := by
  rcases Option.bind_eq_some_iff.mp h with ⟨⟨l1, s1⟩, hresize, h⟩
  rcases Option.map_eq_some_iff.mp h with ⟨s2, hput, he⟩
  obtain ⟨rfl, rfl⟩ := Prod.mk.inj he
  rw [put_slot hput]
  exact String.resize_loses hresize

def StringMod.allocatesEmpty : StringMod → Bool
  | .assignChars xs => xs.isEmpty
  | _ => false

theorem StringMod.run_loses {m : StringMod} (h : m.run l s = some (l', s')) :
    Ledger.Loses (if m.allocatesEmpty then 1 else 0) l s.slot l' s'.slot := by
  cases m with
  | reserve n => exact reserve_loses h
  | clear =>
    rw [StringMod.run, String.clear] at h
    exact String.resize_loses h
  | pushBack c => exact pushBack_loses h
  | appendCount n c => exact String.append_loses h
  | append xs => exact String.append_loses h
  | appendRange xs => exact pushAll_loses h
  | resize n => exact String.resize_loses h
  | setAt pos c => exact setAt_loses h
  | assignChars xs =>
    rcases Option.bind_eq_some_iff.mp h with ⟨⟨l1, tmp⟩, hfill, hassign⟩
    have htmp := fill_loses hfill
    simp only [List.length_eq_zero_iff] at htmp
    simp only [StringMod.allocatesEmpty, List.isEmpty_iff]
    exact assign_loses htmp hassign

def VectorInit.allocatesEmpty : VectorInit α → Bool
  | .count n _ => n == 0
  | .list xs => xs.isEmpty
  | .default | .range _ => false

def StringInit.allocatesEmpty : StringInit → Bool
  | .count n _ => n == 0
  | .chars xs => xs.isEmpty
  | .default | .range _ => false

theorem VectorInit.run_loses {c : VectorInit α} (h : c.run l = some (l', v')) :
    Ledger.Loses (if c.allocatesEmpty then 1 else 0) l (fun _ => none) l' v'.slot := by
  cases c with
  | default =>
    obtain ⟨rfl, rfl⟩ := Prod.mk.inj (Option.some.inj h)
    exact .refl
  | count n x =>
    have hfill := fill_loses h
    simpa [VectorInit.allocatesEmpty] using hfill
  | range xs => exact pushAll_loses (v := {}) h
  | list xs =>
    have hfill := fill_loses h
    simpa [VectorInit.allocatesEmpty] using hfill

theorem StringInit.run_loses {c : StringInit} (h : c.run l = some (l', s')) :
    Ledger.Loses (if c.allocatesEmpty then 1 else 0) l (fun _ => none) l' s'.slot := by
  cases c with
  | default =>
    obtain ⟨rfl, rfl⟩ := Prod.mk.inj (Option.some.inj h)
    exact .refl
  | count n ch =>
    have hfill := fill_loses h
    simpa [StringInit.allocatesEmpty] using hfill
  | chars xs =>
    have hfill := fill_loses h
    simpa [StringInit.allocatesEmpty] using hfill
  | range xs => exact pushAll_loses (v := {}) h

end Modifiers

namespace Object
variable {l l' : Ledger} {o o' : Object α}

def slot : Object α → Unit → Option ℕ
  | .vector v => v.slot
  | .string s => s.slot

/-- Its copy constructor allocates an empty buffer: the capacity of a vector is copied, that of a
string becomes its length. -/
def copiesEmpty : Object α → Bool
  | .vector v => v.capacity == 0
  | .string s => s.len == 0

theorem copy_loses (h : o.copy l = some (l', o')) :
    Ledger.Loses (if o.copiesEmpty then 1 else 0) l (fun _ => none) l' o'.slot := by
  cases o with
  | vector v =>
    rcases Option.map_eq_some_iff.mp h with ⟨r, hcopy, he⟩
    obtain ⟨rfl, rfl⟩ := Prod.mk.inj he
    rcases Option.bind_eq_some_iff.mp hcopy with ⟨cells, -, hfill⟩
    simpa [copiesEmpty, slot] using fill_loses hfill
  | string s =>
    rcases Option.map_eq_some_iff.mp h with ⟨r, hcopy, he⟩
    obtain ⟨rfl, rfl⟩ := Prod.mk.inj he
    rcases Option.bind_eq_some_iff.mp hcopy with ⟨cells, -, hfill⟩
    simpa [copiesEmpty, slot] using fill_loses hfill

theorem fresh_slot : o.fresh.slot = fun _ => none := by
  cases o with
  | vector v => exact slot_of_zero rfl
  | string s => exact slot_of_zero rfl

theorem destroy_loses (h : o.destroy l = some l') : Ledger.Loses 0 l o.slot l' fun _ => none := by
  cases o with
  | vector v => exact Storage.destroy_loses h
  | string s => exact Storage.destroy_loses h

theorem modifyVector_loses {m : VectorMod α} (h : o.modifyVector l m = some (l', o')) :
    Ledger.Loses 0 l o.slot l' o'.slot := by
  cases o with
  | vector v =>
    rcases Option.map_eq_some_iff.mp h with ⟨r, hrun, he⟩
    obtain ⟨rfl, rfl⟩ := Prod.mk.inj he
    exact VectorMod.run_loses hrun
  | string s => cases h

theorem modifyString_loses {m : StringMod} (h : o.modifyString l m = some (l', o')) :
    Ledger.Loses (if m.allocatesEmpty then 1 else 0) l o.slot l' o'.slot := by
  cases o with
  | vector v => cases h
  | string s =>
    rcases Option.map_eq_some_iff.mp h with ⟨r, hrun, he⟩
    obtain ⟨rfl, rfl⟩ := Prod.mk.inj he
    exact StringMod.run_loses hrun

end Object

/-- An operation allocates a buffer of capacity zero. -/
def ContainerOp.allocatesEmpty (st : Containers α) : ContainerOp α → Bool
  | .vector _ c => c.allocatesEmpty
  | .string _ c => c.allocatesEmpty
  | .copy _ j | .copyAssign _ j => (st.objects j).any Object.copiesEmpty
  | .modifyString _ m => m.allocatesEmpty
  | .move .. | .moveAssign .. | .swap .. | .modifyVector .. | .destroy _ => false

namespace Containers
variable {st st' : Containers α} {i j m n : ℕ} {l : Ledger} {o : Object α} {x : Option (Object α)}

def slots (st : Containers α) : ℕ → Unit → Option ℕ := Ledger.held Object.slot st.objects

theorem slots_of_some (ho : st.objects i = some o) : st.slots i = o.slot := by
  rw [slots, Ledger.held, ho, Option.elim_some]

/-- Every allocation is freed, held by an object, or one of `n` that were lost. -/
def Short (n : ℕ) (st : Containers α) : Prop :=
  ∃ lost : List ℕ, lost.length = n ∧
    (st.ledger.writeOff lost).Balanced (Function.uncurry st.slots)

theorem Short.empty : (Containers.empty : Containers α).Short 0 := ⟨[], rfl, .empty⟩

theorem Short.update (h : st.Short m)
    (hloses : Ledger.Loses n st.ledger (st.slots i) l (x.elim (fun _ => none) Object.slot)) :
    Short (m + n) ⟨l, update st.objects i x⟩ := by
  rcases h with ⟨lost, hlost, hbal⟩
  rcases hloses lost with ⟨more, hmore, hkeep⟩
  refine ⟨more ++ lost, by rw [List.length_append, hlost, hmore, Nat.add_comm], ?_⟩
  rw [slots, Ledger.held_update]
  exact hkeep _ _ _ rfl hbal

theorem Short.add (h : st.Short m) {r : Option (Ledger × Object α)}
    (hr : ∀ l o, r = some (l, o) → Ledger.Loses n st.ledger (fun _ => none) l o.slot)
    (hadd : st.add i r = some st') : st'.Short (m + n) := by
  rw [Containers.add] at hadd
  split_ifs at hadd with hnone
  rcases Option.map_eq_some_iff.mp hadd with ⟨⟨l, o⟩, ho, rfl⟩
  apply h.update
  have hslot : st.slots i = fun _ => none := by
    rw [Option.not_isSome_iff_eq_none] at hnone
    rw [slots, Ledger.held, hnone, Option.elim_none]
  rw [hslot]
  exact hr l o ho

theorem Short.modify (h : st.Short m) {f : Object α → Option (Ledger × Object α)}
    (hf : ∀ o l o', f o = some (l, o') → Ledger.Loses n st.ledger o.slot l o'.slot)
    (hmod : st.modify i f = some st') : st'.Short (m + n) := by
  rcases Option.bind_eq_some_iff.mp hmod with ⟨o, ho, hmap⟩
  rcases Option.map_eq_some_iff.mp hmap with ⟨⟨l, o'⟩, ho', rfl⟩
  apply h.update
  rw [slots_of_some ho]
  exact hf o l o' ho'

theorem Short.swap (h : st.Short m) (hswap : st.swap i j = some st') : st'.Short m := by
  rcases Option.bind_eq_some_iff.mp hswap with ⟨a, ha, hswap⟩
  rcases Option.bind_eq_some_iff.mp hswap with ⟨b, hb, hswap⟩
  split_ifs at hswap
  obtain rfl := Option.some.inj hswap
  rcases h with ⟨lost, hlost, hbal⟩
  refine ⟨lost, hlost, ?_⟩
  rw [← ha, ← hb]
  exact hbal.held_swap i j

end Containers

open Containers in
/-- One operation loses a buffer exactly if it allocates one of capacity zero. -/
theorem Containers.Short.run {m : ℕ} {op : ContainerOp α} (h : st.Short m)
    (hrun : op.run st = some st') : st'.Short (m + if op.allocatesEmpty st then 1 else 0) := by
  cases op with
  | vector i c =>
    apply h.add _ hrun
    intro l o ho
    rcases Option.map_eq_some_iff.mp ho with ⟨r, hr, he⟩
    obtain ⟨rfl, rfl⟩ := Prod.mk.inj he
    exact VectorInit.run_loses hr
  | string i c =>
    apply h.add _ hrun
    intro l o ho
    rcases Option.map_eq_some_iff.mp ho with ⟨r, hr, he⟩
    obtain ⟨rfl, rfl⟩ := Prod.mk.inj he
    exact StringInit.run_loses hr
  | copy i j =>
    rcases Option.bind_eq_some_iff.mp hrun with ⟨o, ho, hadd⟩
    apply h.add _ hadd
    intro l o' ho'
    simp only [ContainerOp.allocatesEmpty, ho, Option.any_some]
    exact Object.copy_loses ho'
  | move i j =>
    rcases Option.bind_eq_some_iff.mp hrun with ⟨o, ho, hrun⟩
    rcases Option.bind_eq_some_iff.mp hrun with ⟨st1, hadd, hswap⟩
    refine Short.swap (h.add ?_ hadd) hswap
    intro l o' ho'
    obtain ⟨rfl, rfl⟩ := Prod.mk.inj (Option.some.inj ho')
    rw [Object.fresh_slot]
    exact .refl
  | copyAssign i j =>
    rcases Option.bind_eq_some_iff.mp hrun with ⟨o, ho, hrun⟩
    rcases Option.bind_eq_some_iff.mp hrun with ⟨⟨l1, tmp⟩, hcopy, hmod⟩
    apply h.modify _ hmod
    intro old l o' ho'
    split_ifs at ho'
    rcases Option.map_eq_some_iff.mp ho' with ⟨l2, hdestroy, he⟩
    obtain ⟨rfl, rfl⟩ := Prod.mk.inj he
    simp only [ContainerOp.allocatesEmpty, ho, Option.any_some]
    exact (Object.copy_loses hcopy).replace (Object.destroy_loses hdestroy)
  | moveAssign i j => exact h.swap hrun
  | swap i j => exact h.swap hrun
  | modifyVector i m => exact h.modify (fun o l o' => Object.modifyVector_loses) hrun
  | modifyString i m => exact h.modify (fun o l o' => Object.modifyString_loses) hrun
  | destroy i =>
    rcases Option.bind_eq_some_iff.mp hrun with ⟨o, ho, hmap⟩
    rcases Option.map_eq_some_iff.mp hmap with ⟨l, hl, rfl⟩
    apply h.update
    rw [slots_of_some ho]
    exact Object.destroy_loses hl

/-- How many operations of a sequence allocate a buffer of capacity zero. -/
def emptyBuffers : Containers α → List (ContainerOp α) → ℕ
  | _, [] => 0
  | st, op :: ops => (if op.allocatesEmpty st then 1 else 0) +
      (op.run st).elim 0 fun st => emptyBuffers st ops

theorem Containers.Short.runOps {m : ℕ} (h : st.Short m) (hrun : runOps st ops = some st') :
    st'.Short (m + emptyBuffers st ops) := by
  induction ops generalizing st m with
  | nil =>
    rw [← Option.some.inj hrun]
    exact h
  | cons op ops ih =>
    rcases Option.bind_eq_some_iff.mp hrun with ⟨st1, hop, hrest⟩
    have hlast := ih (h.run hop) hrest
    rwa [Nat.add_assoc, ← Option.elim_some 0 (fun st => emptyBuffers st ops) st1, ← hop] at hlast

/-- No operation constructs or assigns an empty object in a way that allocates. -/
def NoEmptyBuffers : Containers α → List (ContainerOp α) → Prop
  | _, [] => True
  | st, op :: ops => op.allocatesEmpty st = false ∧
      ∀ st', op.run st = some st' → NoEmptyBuffers st' ops

theorem emptyBuffers_eq_zero_iff : emptyBuffers st ops = 0 ↔ NoEmptyBuffers st ops := by
  induction ops generalizing st with
  | nil => simp [emptyBuffers, NoEmptyBuffers]
  | cons op ops ih =>
    rw [emptyBuffers, NoEmptyBuffers, Nat.add_eq_zero_iff]
    cases op.run st with
    | none => simp
    | some st' => simp [ih]

/-- No buffer is freed twice. When no object is left, every buffer was freed exactly if no operation
allocated one of capacity zero. -/
theorem runOps_balance_iff {ops : List (ContainerOp α)} {st : Containers α}
    (hrun : runOps .empty ops = some st) (hnone : ∀ i, st.objects i = none) :
    st.ledger.freed.Nodup ∧
      (st.ledger.next = st.ledger.freed.length ↔ NoEmptyBuffers .empty ops) := by
  rcases Containers.Short.empty.runOps hrun with ⟨lost, hlost, hbal⟩
  have hslots : ∀ q, Function.uncurry st.slots q = none := by
    rintro ⟨i, u⟩
    simp [Containers.slots, Ledger.held, hnone i]
  rcases hbal.length_eq hslots with ⟨honce, hnext⟩
  refine ⟨honce, ?_⟩
  rw [← emptyBuffers_eq_zero_iff]
  omega

def fullRun : List (ContainerOp ℕ) :=
  [.vector 0 (.count 2 7), .string 1 (.chars ['a', 'b']), .copyAssign 0 0,
    .modifyString 1 (.append ['c']), .destroy 0, .destroy 1]

def afterFullRun : Containers ℕ := (runOps .empty fullRun).get (by decide +kernel)

theorem runOps_balance_fullRun :
    afterFullRun.ledger.freed = [0, 1, 2, 3] ∧
      afterFullRun.ledger.next = afterFullRun.ledger.freed.length := by
  have hrun : runOps .empty fullRun = some afterFullRun := by
    rw [afterFullRun, Option.some_get]
  have hnone : ∀ i, afterFullRun.objects i = none
    | 0 | 1 | _ + 2 => rfl
  have hfree : NoEmptyBuffers .empty fullRun := by
    rw [← emptyBuffers_eq_zero_iff]
    decide +kernel
  exact ⟨by decide +kernel, (runOps_balance_iff hrun hnone).2.mpr hfree⟩

/-- A vector of no elements, and a string from the empty C string: both buffers stay allocated. -/
def emptyRun : List (ContainerOp ℕ) :=
  [.vector 0 (.count 0 7), .string 1 (.chars []), .destroy 0, .destroy 1]

theorem emptyRun_leaks : ∃ st, runOps .empty emptyRun = some st ∧ (∀ i, st.objects i = none) ∧
    st.ledger.next = 2 ∧ st.ledger.freed = [] := by
  refine ⟨(runOps .empty emptyRun).get (by decide +kernel), (Option.some_get _).symm, ?_, ?_, ?_⟩
  · intro i
    match i with
    | 0 => rfl
    | 1 => rfl
    | n + 2 => rfl
  · rfl
  · rfl

end HmmOS.Nonstd
