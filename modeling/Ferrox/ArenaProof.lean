import Ferrox.Arena
import Ferrox.Lib.Chain
import Mathlib.Data.List.Perm.Subperm
import Mathlib.Algebra.BigOperators.Group.List.Basic

/-!
# The arena refines lists

An arena is seen through three functions of the slot: its forward link (`nextOf`), its backward
link (`prevOf`) and the order stored there (`orderOf`). Each operation is first described by what
it does to these views, and from then on only the views are used: the free list is a chain through
`nextOf`, a price level's queue is a doubly linked list through `nextOf` and `prevOf`.

* `LevelQueue a lv l` — the level `lv` links exactly the slots `l`, in queue order, with the right
  count. `Level a lv l` says that its total quantity is right, too.
* `LevelQueue.pushBack`, `LevelQueue.remove` — the two ways to change a queue are `l ++ [i]` and
  `l₁ ++ l₂`; `popFront` is the second one, at the front (`popFront_eq_remove`).
* `LevelQueue.frame` — a queue notices nothing that happens outside its own slots.
-/

namespace Ferrox

open Linked

namespace Arena

/-! ## Views -/

/-- The forward link of a slot. -/
def nextOf (a : Arena) (i : UInt32) : UInt32 := (a.get i).next

/-- The backward link of a slot. -/
def prevOf (a : Arena) (i : UInt32) : UInt32 := (a.get i).prev

/-- The order stored in a slot. -/
def orderOf (a : Arena) (i : UInt32) : Order := (a.get i).toOrder

/-- The slot lies in the pool. -/
def InPool (a : Arena) (i : UInt32) : Prop := i.toNat < a.storage.length

theorem InPool.ne_null {a : Arena} {i : UInt32} (hi : a.InPool i)
    (hsize : a.storage.length = a.capacity.toNat) : i ≠ arenaNull := by
  intro hnull
  have h₁ : i.toNat < a.storage.length := hi
  have h₂ := a.capacity.toNat_lt
  rw [hnull, hsize, show arenaNull.toNat = 4294967295 from rfl] at h₁
  omega

section Views

variable {a : Arena} {i j : UInt32}

theorem get_set (hi : a.InPool i) (n : OrderNode) (j : UInt32) :
    (a.set i n).get j = if j = i then n else a.get j := by
  simp only [get, set, List.getD_eq_getElem?_getD, List.getElem?_set]
  by_cases hj : j = i
  · subst hj
    have hlt : j.toNat < a.storage.length := hi
    simp [hlt]
  · have hne : ¬ i.toNat = j.toNat := fun h => hj (UInt32.toNat_inj.1 h).symm
    simp [hj, hne]

@[simp] theorem length_set (n : OrderNode) : (a.set i n).storage.length = a.storage.length := by
  simp [set]

@[simp] theorem inPool_set {n : OrderNode} : (a.set i n).InPool j ↔ a.InPool j := by
  simp [InPool]

theorem nextOf_set (hi : a.InPool i) (n : OrderNode) :
    (a.set i n).nextOf = Function.update a.nextOf i n.next := by
  funext j
  simp only [nextOf, get_set hi, Function.update_apply]
  split <;> rfl

theorem prevOf_set (hi : a.InPool i) (n : OrderNode) :
    (a.set i n).prevOf = Function.update a.prevOf i n.prev := by
  funext j
  simp only [prevOf, get_set hi, Function.update_apply]
  split <;> rfl

theorem orderOf_set (hi : a.InPool i) (n : OrderNode) :
    (a.set i n).orderOf = Function.update a.orderOf i n.toOrder := by
  funext j
  simp only [orderOf, get_set hi, Function.update_apply]
  split <;> rfl

theorem nextOf_setNext (hi : a.InPool i) (v : UInt32) :
    (a.setNext i v).nextOf = Function.update a.nextOf i v :=
  nextOf_set hi _

theorem prevOf_setNext (hi : a.InPool i) (v : UInt32) : (a.setNext i v).prevOf = a.prevOf := by
  rw [setNext, prevOf_set hi]
  exact Function.update_eq_self i a.prevOf

theorem orderOf_setNext (hi : a.InPool i) (v : UInt32) : (a.setNext i v).orderOf = a.orderOf := by
  rw [setNext, orderOf_set hi]
  exact Function.update_eq_self i a.orderOf

theorem nextOf_setPrev (hi : a.InPool i) (v : UInt32) : (a.setPrev i v).nextOf = a.nextOf := by
  rw [setPrev, nextOf_set hi]
  exact Function.update_eq_self i a.nextOf

theorem prevOf_setPrev (hi : a.InPool i) (v : UInt32) :
    (a.setPrev i v).prevOf = Function.update a.prevOf i v :=
  prevOf_set hi _

theorem orderOf_setPrev (hi : a.InPool i) (v : UInt32) : (a.setPrev i v).orderOf = a.orderOf := by
  rw [setPrev, orderOf_set hi]
  exact Function.update_eq_self i a.orderOf

end Views

/-- What the queue operations leave alone: the orders, the free list's entry point, the counters
and the pool itself. -/
structure SameOrders (a a' : Arena) : Prop where
  orderOf : a'.orderOf = a.orderOf
  freeHead : a'.freeHead = a.freeHead
  count : a'.count = a.count
  capacity : a'.capacity = a.capacity
  length : a'.storage.length = a.storage.length

theorem SameOrders.refl (a : Arena) : SameOrders a a := ⟨rfl, rfl, rfl, rfl, rfl⟩

theorem SameOrders.trans {a a' a'' : Arena} (h : SameOrders a a') (h' : SameOrders a' a'') :
    SameOrders a a'' :=
  ⟨h'.orderOf.trans h.orderOf, h'.freeHead.trans h.freeHead, h'.count.trans h.count,
    h'.capacity.trans h.capacity, h'.length.trans h.length⟩

theorem SameOrders.inPool {a a' : Arena} (h : SameOrders a a') {i : UInt32} :
    a'.InPool i ↔ a.InPool i := by
  simp [InPool, h.length]

section Links

variable {a : Arena} {i : UInt32} {lv : PriceLevel}

theorem sameOrders_setNext (hi : a.InPool i) (v : UInt32) : SameOrders a (a.setNext i v) :=
  ⟨orderOf_setNext hi v, rfl, rfl, rfl, length_set _⟩

theorem sameOrders_setPrev (hi : a.InPool i) (v : UInt32) : SameOrders a (a.setPrev i v) :=
  ⟨orderOf_setPrev hi v, rfl, rfl, rfl, length_set _⟩

/-- `if last != ARENA_NULL { storage[last].next = v }`, as it acts on the forward links. -/
theorem nextOf_relinkNext {last v : UInt32} (hl : last ≠ arenaNull → a.InPool last) :
    (if last ≠ arenaNull then a.setNext last v else a).nextOf =
      DList.relink a.nextOf arenaNull last v := by
  unfold DList.relink
  split_ifs with h
  · exact nextOf_setNext (hl h) v
  · rfl

theorem prevOf_relinkPrev {last v : UInt32} (hl : last ≠ arenaNull → a.InPool last) :
    (if last ≠ arenaNull then a.setPrev last v else a).prevOf =
      DList.relink a.prevOf arenaNull last v := by
  unfold DList.relink
  split_ifs with h
  · exact prevOf_setPrev (hl h) v
  · rfl

theorem sameOrders_relinkNext {last v : UInt32} (hl : last ≠ arenaNull → a.InPool last) :
    SameOrders a (if last ≠ arenaNull then a.setNext last v else a) := by
  split_ifs with h
  · exact sameOrders_setNext (hl h) v
  · exact .refl a

theorem sameOrders_relinkPrev {last v : UInt32} (hl : last ≠ arenaNull → a.InPool last) :
    SameOrders a (if last ≠ arenaNull then a.setPrev last v else a) := by
  split_ifs with h
  · exact sameOrders_setPrev (hl h) v
  · exact .refl a

theorem prevOf_relinkNext {last v : UInt32} (hl : last ≠ arenaNull → a.InPool last) :
    (if last ≠ arenaNull then a.setNext last v else a).prevOf = a.prevOf := by
  split_ifs with h
  · exact prevOf_setNext (hl h) v
  · rfl

theorem nextOf_relinkPrev {last v : UInt32} (hl : last ≠ arenaNull → a.InPool last) :
    (if last ≠ arenaNull then a.setPrev last v else a).nextOf = a.nextOf := by
  split_ifs with h
  · exact nextOf_setPrev (hl h) v
  · rfl

/-! ## The operations, as they act on the views -/

theorem pushBack_fst (a : Arena) (lv : PriceLevel) (i : UInt32) :
    (a.pushBack lv i).1 =
      (((if lv.tail ≠ arenaNull then a.setNext lv.tail i else a).setPrev i lv.tail).setNext i
        arenaNull) := by
  unfold pushBack
  by_cases h : lv.tail = arenaNull <;> simp [h]

theorem pushBack_snd (a : Arena) (lv : PriceLevel) (i : UInt32) :
    (a.pushBack lv i).2 =
      { head := if lv.tail ≠ arenaNull then lv.head else i
        tail := i
        count := lv.count + 1
        qty := lv.qty + (a.get i).quantity } := by
  unfold pushBack
  by_cases h : lv.tail = arenaNull <;> simp [h]

theorem remove_fst (a : Arena) (lv : PriceLevel) (i : UInt32) :
    (a.remove lv i).1 =
      (let a' := if a.prevOf i ≠ arenaNull then a.setNext (a.prevOf i) (a.nextOf i) else a
       if a.nextOf i ≠ arenaNull then a'.setPrev (a.nextOf i) (a.prevOf i) else a') := by
  unfold remove prevOf nextOf
  by_cases hp : (a.get i).prev = arenaNull <;> by_cases hn : (a.get i).next = arenaNull <;>
    simp [hp, hn]

theorem remove_snd (a : Arena) (lv : PriceLevel) (i : UInt32) :
    (a.remove lv i).2 =
      { head := if a.prevOf i ≠ arenaNull then lv.head else a.nextOf i
        tail := if a.nextOf i ≠ arenaNull then lv.tail else a.prevOf i
        count := lv.count - 1
        qty := lv.qty - (a.get i).quantity } := by
  unfold remove prevOf nextOf
  by_cases hp : (a.get i).prev = arenaNull <;> by_cases hn : (a.get i).next = arenaNull <;>
    simp [hp, hn]

theorem popFront_eq_remove (a : Arena) (lv : PriceLevel) (hh : lv.head ≠ arenaNull)
    (hp : a.prevOf lv.head = arenaNull) :
    a.popFront lv = ((a.remove lv lv.head).1, (a.remove lv lv.head).2, some lv.head) := by
  have hp' : (a.get lv.head).prev = arenaNull := hp
  unfold popFront remove
  by_cases hn : (a.get lv.head).next = arenaNull <;> simp [hh, hp', hn]

end Links

end Arena

/-! ## Queues as lists of slots -/

/-- The slots `l` are linked from one end of the level to the other, and counted. -/
structure LevelQueue (a : Arena) (lv : PriceLevel) (l : List UInt32) : Prop where
  links : DList a.nextOf a.prevOf arenaNull lv.head lv.tail l
  count : lv.count.toNat = l.length

namespace LevelQueue

open Arena

variable {a a' : Arena} {lv : PriceLevel} {l l₁ l₂ : List UInt32} {i : UInt32}

/-- **The frame rule.** A queue reads nothing outside its own slots. -/
theorem frame (h : LevelQueue a lv l) (hn : ∀ j ∈ l, a'.nextOf j = a.nextOf j)
    (hp : ∀ j ∈ l, a'.prevOf j = a.prevOf j) : LevelQueue a' lv l :=
  ⟨h.links.congr hn hp, h.count⟩

section Append

variable (hpool : ∀ j ∈ l, a.InPool j)
include hpool

theorem inPool_tail (h : LevelQueue a lv l) (ht : lv.tail ≠ arenaNull) : a.InPool lv.tail :=
  hpool _ (List.mem_reverse.1 (h.links.bwd.head_mem ht))

theorem views_pushBack (h : LevelQueue a lv l) (hi : a.InPool i) :
    (a.pushBack lv i).1.nextOf =
        Function.update (DList.relink a.nextOf arenaNull lv.tail i) i arenaNull ∧
      (a.pushBack lv i).1.prevOf = Function.update a.prevOf i lv.tail ∧
      SameOrders a (a.pushBack lv i).1 := by
  have ht : lv.tail ≠ arenaNull → a.InPool lv.tail := inPool_tail hpool h
  have h₁ := sameOrders_relinkNext (v := i) ht
  have hi₁ := h₁.inPool.2 hi
  have h₂ := sameOrders_setPrev hi₁ lv.tail
  have hi₂ := h₂.inPool.2 hi₁
  rw [pushBack_fst]
  refine ⟨?_, ?_, h₁.trans (h₂.trans (sameOrders_setNext hi₂ arenaNull))⟩
  · rw [nextOf_setNext hi₂, nextOf_setPrev hi₁, nextOf_relinkNext ht]
  · rw [prevOf_setNext hi₂, prevOf_setPrev hi₁, prevOf_relinkNext ht]

/-- **Appending** a slot that is on no list. -/
theorem pushBack (h : LevelQueue a lv l) (hi : a.InPool i) (hnull : i ≠ arenaNull) (hil : i ∉ l)
    (hlen : l.length + 1 < 2 ^ 32) :
    LevelQueue (a.pushBack lv i).1 (a.pushBack lv i).2 (l ++ [i]) := by
  obtain ⟨hnext, hprev, -⟩ := views_pushBack hpool h hi
  rw [pushBack_snd]
  constructor
  · rw [hnext, hprev]
    exact h.links.push_back hnull hil
  · have hc := h.count
    simp only [UInt32.toNat_add, UInt32.toNat_one, hc, List.length_append, List.length_singleton]
    exact Nat.mod_eq_of_lt hlen

theorem frame_pushBack (h : LevelQueue a lv l) (hi : a.InPool i) {j : UInt32} (hj : j ∉ l)
    (hji : j ≠ i) (hnull : j ≠ arenaNull) :
    (a.pushBack lv i).1.nextOf j = a.nextOf j ∧ (a.pushBack lv i).1.prevOf j = a.prevOf j := by
  obtain ⟨hnext, hprev, -⟩ := views_pushBack hpool h hi
  have hjt : j ≠ lv.tail := by
    intro e
    exact hj (List.mem_reverse.1 (e ▸ h.links.bwd.head_mem (e ▸ hnull)))
  rw [hnext, hprev, Function.update_of_ne hji, Function.update_of_ne hji]
  exact ⟨DList.relink_of_ne hjt, rfl⟩

end Append

section Unlink

variable (hpool : ∀ j ∈ l₁ ++ i :: l₂, a.InPool j)
include hpool

theorem inPool_neighbours (h : LevelQueue a lv (l₁ ++ i :: l₂)) :
    (a.prevOf i ≠ arenaNull → a.InPool (a.prevOf i)) ∧
      (a.nextOf i ≠ arenaNull → a.InPool (a.nextOf i)) := by
  rw [h.links.prev_eq, h.links.next_eq]
  constructor
  · intro hp
    rcases List.eq_nil_or_concat l₁ with rfl | ⟨l₀, t, rfl⟩
    · simp at hp
    · exact hpool _ (by simp)
  · intro hn
    cases l₂ with
    | nil => simp at hn
    | cons j l₂ => exact hpool _ (by simp)

theorem views_remove (h : LevelQueue a lv (l₁ ++ i :: l₂)) :
    (a.remove lv i).1.nextOf = DList.relink a.nextOf arenaNull (a.prevOf i) (a.nextOf i) ∧
      (a.remove lv i).1.prevOf = DList.relink a.prevOf arenaNull (a.nextOf i) (a.prevOf i) ∧
      SameOrders a (a.remove lv i).1 := by
  obtain ⟨hp, hn⟩ := inPool_neighbours hpool h
  have h₁ := sameOrders_relinkNext (v := a.nextOf i) hp
  have hn₁ := fun e => h₁.inPool.2 (hn e)
  rw [remove_fst]
  refine ⟨?_, ?_, h₁.trans (sameOrders_relinkPrev hn₁)⟩
  · exact (nextOf_relinkPrev hn₁).trans (nextOf_relinkNext hp)
  · refine (prevOf_relinkPrev hn₁).trans ?_
    rw [prevOf_relinkNext hp]

/-- **Unlinking** a slot from any position of its queue. -/
theorem remove (h : LevelQueue a lv (l₁ ++ i :: l₂)) :
    LevelQueue (a.remove lv i).1 (a.remove lv i).2 (l₁ ++ l₂) := by
  obtain ⟨hnext, hprev, -⟩ := views_remove hpool h
  rw [remove_snd]
  constructor
  · rw [hnext, hprev]
    exact h.links.remove
  · have hc := h.count
    have hle : (1 : UInt32) ≤ lv.count := by
      rw [UInt32.le_iff_toNat_le, hc]
      simp only [UInt32.toNat_one, List.length_append, List.length_cons]
      omega
    simp only [UInt32.toNat_sub_of_le _ _ hle, hc, List.length_append, List.length_cons,
      UInt32.toNat_one]
    omega

theorem frame_remove (h : LevelQueue a lv (l₁ ++ i :: l₂)) {j : UInt32} (hj : j ∉ l₁ ++ i :: l₂)
    (hnull : j ≠ arenaNull) :
    (a.remove lv i).1.nextOf j = a.nextOf j ∧ (a.remove lv i).1.prevOf j = a.prevOf j := by
  obtain ⟨hnext, hprev, -⟩ := views_remove hpool h
  have hjp : j ≠ a.prevOf i := by
    intro e
    rw [h.links.prev_eq] at e
    rcases List.eq_nil_or_concat l₁ with rfl | ⟨l₀, t, rfl⟩
    · exact hnull (by simpa using e)
    · exact hj (by simp [e])
  have hjn : j ≠ a.nextOf i := by
    intro e
    rw [h.links.next_eq] at e
    cases l₂ with
    | nil => exact hnull (by simpa using e)
    | cons k l₂ => exact hj (by simp [e])
  rw [hnext, hprev]
  exact ⟨DList.relink_of_ne hjp, DList.relink_of_ne hjn⟩

end Unlink

end LevelQueue

/-! ## Levels -/

/-- The level `lv` holds exactly the slots `l`, in queue order. -/
structure Level (a : Arena) (lv : PriceLevel) (l : List UInt32) : Prop where
  links : DList a.nextOf a.prevOf arenaNull lv.head lv.tail l
  count : lv.count.toNat = l.length
  qty : lv.qty = (l.map fun i => (a.orderOf i).quantity).sum

namespace Level

open Arena

variable {a a' : Arena} {lv : PriceLevel} {l l₁ l₂ : List UInt32} {i : UInt32}

theorem new (a : Arena) : Level a PriceLevel.new [] := ⟨DList.nil, rfl, rfl⟩

theorem queue (h : Level a lv l) : LevelQueue a lv l := ⟨h.links, h.count⟩

theorem frame (h : Level a lv l) (hn : ∀ j ∈ l, a'.nextOf j = a.nextOf j)
    (hp : ∀ j ∈ l, a'.prevOf j = a.prevOf j) (ho : ∀ j ∈ l, a'.orderOf j = a.orderOf j) :
    Level a' lv l := by
  refine ⟨h.links.congr hn hp, h.count, ?_⟩
  rw [h.qty]
  congr 1
  exact List.map_congr_left fun j hj => by rw [ho j hj]

theorem count_eq_zero (h : Level a lv l) : lv.count = 0 ↔ l = [] := by
  rw [← UInt32.toNat_inj, h.count]
  simp

theorem pushBack (hpool : ∀ j ∈ l, a.InPool j) (h : Level a lv l) (hi : a.InPool i)
    (hnull : i ≠ arenaNull) (hil : i ∉ l) (hlen : l.length + 1 < 2 ^ 32) :
    Level (a.pushBack lv i).1 (a.pushBack lv i).2 (l ++ [i]) := by
  obtain ⟨hlinks, hcount⟩ := h.queue.pushBack hpool hi hnull hil hlen
  obtain ⟨-, -, hsame⟩ := h.queue.views_pushBack hpool hi
  refine ⟨hlinks, hcount, ?_⟩
  simp only [pushBack_snd, hsame.orderOf, List.map_append, List.map_singleton, List.sum_append,
    List.sum_singleton, ← h.qty]
  rfl

theorem remove (hpool : ∀ j ∈ l₁ ++ i :: l₂, a.InPool j) (h : Level a lv (l₁ ++ i :: l₂)) :
    Level (a.remove lv i).1 (a.remove lv i).2 (l₁ ++ l₂) := by
  obtain ⟨hlinks, hcount⟩ := h.queue.remove hpool
  obtain ⟨-, -, hsame⟩ := h.queue.views_remove hpool
  refine ⟨hlinks, hcount, ?_⟩
  have hq := h.qty
  simp only [List.map_append, List.map_cons, List.sum_append, List.sum_cons] at hq
  simp only [remove_snd, hsame.orderOf, List.map_append, List.sum_append, hq]
  have : (a.get i).quantity = (a.orderOf i).quantity := rfl
  rw [this]
  grind

end Level

/-! ## Slots of the pool -/

theorem length_le_of_slots {l : List UInt32} {n : Nat} (hnd : l.Nodup)
    (hl : ∀ i ∈ l, i.toNat < n) : l.length ≤ n := by
  have hmap : (l.map UInt32.toNat).Nodup := hnd.map fun _ _ h => UInt32.toNat_inj.1 h
  have hsub : l.map UInt32.toNat ⊆ List.range n := by
    intro k hk
    obtain ⟨i, hi, rfl⟩ := List.mem_map.1 hk
    exact List.mem_range.2 (hl i hi)
  have := (hmap.subperm hsub).length_le
  simpa using this

/-- A list that does not have all slots leaves room in its count. -/
theorem Arena.InPool.length_lt {a : Arena} {l : List UInt32} {i : UInt32} (hi : a.InPool i)
    (hsize : a.storage.length = a.capacity.toNat) (hnd : l.Nodup) (hl : ∀ j ∈ l, a.InPool j)
    (hil : i ∉ l) : l.length + 1 < 2 ^ 32 := by
  have hpool : ∀ j ∈ i :: l, j.toNat < a.capacity.toNat := by
    intro j hj
    rw [← hsize]
    rcases List.mem_cons.1 hj with rfl | hj
    · exact hi
    · exact hl j hj
  exact lt_of_le_of_lt (length_le_of_slots (List.nodup_cons.2 ⟨hil, hnd⟩) hpool) a.capacity.toNat_lt

theorem length_eq_of_slots {l : List UInt32} {n : UInt32} (hnd : l.Nodup)
    (hl : ∀ i : UInt32, i ∈ l ↔ i.toNat < n.toNat) : l.length = n.toNat := by
  refine le_antisymm (length_le_of_slots hnd fun i hi => (hl i).1 hi) ?_
  have hsub : List.range n.toNat ⊆ l.map UInt32.toNat := by
    intro k hk
    have hk := List.mem_range.1 hk
    have hk' : (UInt32.ofNat k).toNat = k :=
      UInt32.toNat_ofNat_of_lt' (lt_trans hk n.toNat_lt)
    exact List.mem_map.2 ⟨UInt32.ofNat k, (hl _).2 (by rw [hk']; exact hk), hk'⟩
  have := (List.nodup_range.subperm hsub).length_le
  simpa using this

/-! ## The free list -/

/-- The free list holds exactly the slots `free`, and `count` slots are in use. -/
structure FreeList (a : Arena) (free : List UInt32) : Prop where
  chain : Chain a.nextOf arenaNull a.freeHead free
  size : a.storage.length = a.capacity.toNat
  count : free.length + a.count.toNat = a.capacity.toNat

namespace FreeList

open Arena

variable {a a' : Arena} {free : List UInt32} {i : UInt32} {o : Order}

theorem ne_null_of_inPool (h : FreeList a free) (hi : a.InPool i) : i ≠ arenaNull :=
  hi.ne_null h.size

theorem frame (h : FreeList a free) (hn : ∀ j ∈ free, a'.nextOf j = a.nextOf j)
    (hs : SameOrders a a') : FreeList a' free where
  chain := by
    rw [hs.freeHead]
    exact h.chain.congr hn
  size := by rw [hs.length, hs.capacity, h.size]
  count := by rw [hs.count, hs.capacity, h.count]

theorem alloc_eq_full (h : Chain a.nextOf arenaNull a.freeHead []) (o : Order) :
    a.alloc o = (a, .error .full) := by
  have : a.freeHead = arenaNull := h
  simp [alloc, this]

/-- The arena after storing `o` in the front slot `i` of the free list. -/
def allocated (a : Arena) (i : UInt32) (o : Order) : Arena :=
  { a.set i (OrderNode.fromOrder o) with freeHead := a.nextOf i, count := a.count + 1 }

theorem alloc_eq_ok (h : Chain a.nextOf arenaNull a.freeHead (i :: free)) (o : Order) :
    a.alloc o = (allocated a i o, .ok i) := by
  obtain ⟨hh, hi, -⟩ := h
  unfold alloc
  rw [if_neg (by rw [hh]; exact hi), hh]
  rfl

theorem views_alloc (hi : a.InPool i) (o : Order) :
    (allocated a i o).nextOf = Function.update a.nextOf i arenaNull ∧
      (allocated a i o).prevOf = Function.update a.prevOf i arenaNull ∧
      (allocated a i o).orderOf = Function.update a.orderOf i o :=
  ⟨nextOf_set hi _, prevOf_set hi _, orderOf_set hi _⟩

@[simp] theorem length_allocated (a : Arena) (i : UInt32) (o : Order) :
    (allocated a i o).storage.length = a.storage.length :=
  length_set _

theorem chain_allocated (h : Chain a.nextOf arenaNull a.freeHead (i :: free)) (hi : a.InPool i)
    (o : Order) : Chain (allocated a i o).nextOf arenaNull (allocated a i o).freeHead free := by
  have hnot : i ∉ free := (List.nodup_cons.1 h.nodup).1
  obtain ⟨-, -, hc⟩ := h
  rw [(views_alloc hi o).1]
  exact hc.congr fun j hj => Function.update_of_ne (ne_of_mem_of_not_mem hj hnot) _ _

theorem alloc (h : FreeList a (i :: free)) (hi : a.InPool i) (o : Order) :
    FreeList (allocated a i o) free where
  chain := chain_allocated h.chain hi o
  size := (length_allocated a i o).trans h.size
  count := by
    have h₁ := h.count
    have h₂ := a.capacity.toNat_lt
    simp only [List.length_cons] at h₁
    show free.length + (a.count + 1).toNat = a.capacity.toNat
    rw [UInt32.toNat_add, UInt32.toNat_one, Nat.mod_eq_of_lt (by omega)]
    omega

theorem views_dealloc (hi : a.InPool i) :
    (a.dealloc i).nextOf = Function.update a.nextOf i a.freeHead ∧
      (a.dealloc i).prevOf = a.prevOf ∧ (a.dealloc i).orderOf = a.orderOf :=
  ⟨nextOf_setNext hi _, prevOf_setNext hi _, orderOf_setNext hi _⟩

@[simp] theorem length_dealloc (a : Arena) (i : UInt32) :
    (a.dealloc i).storage.length = a.storage.length :=
  length_set _

theorem chain_dealloc (h : Chain a.nextOf arenaNull a.freeHead free) (hi : a.InPool i)
    (hnull : i ≠ arenaNull) (hnot : i ∉ free) :
    Chain (a.dealloc i).nextOf arenaNull (a.dealloc i).freeHead (i :: free) := by
  refine ⟨rfl, hnull, ?_⟩
  rw [(views_dealloc hi).1, Function.update_self]
  exact h.congr fun j hj => Function.update_of_ne (ne_of_mem_of_not_mem hj hnot) _ _

theorem dealloc (h : FreeList a free) (hi : a.InPool i) (hnot : i ∉ free) (hc : 0 < a.count.toNat) :
    FreeList (a.dealloc i) (i :: free) where
  chain := chain_dealloc h.chain hi (h.ne_null_of_inPool hi) hnot
  size := (length_dealloc a i).trans h.size
  count := by
    have h₁ := h.count
    have hle : (1 : UInt32) ≤ a.count := by
      rw [UInt32.le_iff_toNat_le, UInt32.toNat_one]
      omega
    show (i :: free).length + (a.count - 1).toNat = a.capacity.toNat
    rw [UInt32.toNat_sub_of_le _ _ hle, UInt32.toNat_one, List.length_cons]
    omega

/-- Every slot below `c`, in index order. -/
def slots (c : UInt32) : List UInt32 := (List.range c.toNat).map UInt32.ofNat

theorem toNat_ofNat_slot {c : UInt32} {k : Nat} (hk : k < c.toNat) : (UInt32.ofNat k).toNat = k :=
  UInt32.toNat_ofNat_of_lt' (lt_trans hk c.toNat_lt)

theorem mem_slots {c i : UInt32} : i ∈ slots c ↔ i.toNat < c.toNat := by
  simp only [slots, List.mem_map, List.mem_range]
  constructor
  · rintro ⟨k, hk, rfl⟩
    rwa [toNat_ofNat_slot hk]
  · exact fun hi => ⟨i.toNat, hi, UInt32.ofNat_toNat⟩

theorem nextOf_new {c : UInt32} {k : Nat} (hk : k < c.toNat) :
    (Arena.new c).nextOf (UInt32.ofNat k) =
      if k + 1 < c.toNat then UInt32.ofNat (k + 1) else arenaNull := by
  simp [nextOf, Arena.get, Arena.new, toNat_ofNat_slot hk, hk]

theorem chain_new {c : UInt32} (n k : Nat) (hk : k + n = c.toNat) :
    Chain (Arena.new c).nextOf arenaNull
      (if k < c.toNat then UInt32.ofNat k else arenaNull)
      ((List.range' k n).map UInt32.ofNat) := by
  induction n generalizing k with
  | zero => simp [Chain, show ¬ k < c.toNat by omega]
  | succ n ih =>
    have hlt : k < c.toNat := by omega
    rw [List.range'_succ, List.map_cons, if_pos hlt]
    refine ⟨rfl, ?_, ?_⟩
    · intro h
      have h₁ := congrArg UInt32.toNat h
      rw [toNat_ofNat_slot hlt, show arenaNull.toNat = 4294967295 from rfl] at h₁
      have := c.toNat_lt
      omega
    · rw [nextOf_new hlt]
      exact ih (k + 1) (by omega)

theorem new (c : UInt32) : FreeList (Arena.new c) (slots c) where
  chain := by
    have h := chain_new (c := c) c.toNat 0 (by simp)
    have hh : (Arena.new c).freeHead = if 0 < c.toNat then UInt32.ofNat 0 else arenaNull := by
      simp only [Arena.new, UInt32.lt_iff_toNat_lt]
      rfl
    rw [hh, slots, List.range_eq_range']
    exact h
  size := by simp [Arena.new]
  count := by simp [Arena.new, slots]

end FreeList

end Ferrox
