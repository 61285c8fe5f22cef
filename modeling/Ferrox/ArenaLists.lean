import Ferrox.Reachable

/-!
# Disjoint lists in one arena

One `next` field links the free list and the queues of all levels, and `dealloc` leaves a stale
`prev` behind. What keeps the lists apart is that no slot is on two of them: `Lists` says so of the
free list and of any family of levels. Each operation of the arena is then an operation on lists
(`arena_refines_lists`), and the lists it is not about stay as they are.

A level's total is not looked at: it changes by the quantity of the slot, whatever it was before.
The levels of a book, at all prices of both sides, are such a family (`Reachable.lists`).
-/

namespace Ferrox

open Arena Linked

variable {ι : Type*}

/-- **Lists of one arena.** The slots `free` are free and the slots `queue k` are linked at
`level k`; no slot is on two lists. -/
structure Lists (a : Arena) (free : List UInt32) (level : ι → PriceLevel)
    (queue : ι → List UInt32) : Prop where
  size : a.storage.length = a.capacity.toNat
  chain : Chain a.nextOf arenaNull a.freeHead free
  levels : ∀ k, LevelQueue a (level k) (queue k)
  inPoolFree : ∀ i ∈ free, a.InPool i
  inPool : ∀ k, ∀ i ∈ queue k, a.InPool i
  disjointFree : ∀ k, ∀ i ∈ queue k, i ∉ free
  disjoint : ∀ k k', k ≠ k' → ∀ i ∈ queue k, i ∉ queue k'

/-- A slot of the pool that is on no list. -/
structure OnNoList (a : Arena) (free : List UInt32) (queue : ι → List UInt32) (i : UInt32) :
    Prop where
  inPool : a.InPool i
  free : i ∉ free
  queue : ∀ k, i ∉ queue k

/-- The lists of a book: its free slots, and the slots at each price of each side. -/
theorem OrderBook.Rep.lists {b : OrderBook} {free : List UInt32}
    {queue : Side → Int64 → List UInt32} (h : OrderBook.Rep b free queue) :
    Lists b.arena free (fun k : Side × Int64 => ((b.levels k.1).get? k.2).getD PriceLevel.new)
      fun k => queue k.1 k.2 where
  size := h.freeList.size
  chain := h.freeList.chain
  levels := by
    intro k
    cases hl : (b.levels k.1).get? k.2 with
    | none =>
      rw [(h.nonempty k.1 k.2).2 hl]
      exact (Level.new b.arena).queue
    | some lv => exact (h.level k.1 k.2 lv hl).queue
  inPoolFree _ hi := h.inPool_free hi
  inPool _ _ hi := h.inPool_queue hi
  disjointFree k i hi hfree := h.disjoint i hfree k.1 k.2 hi
  disjoint k k' hne i hi hi' := hne (Prod.ext_iff.2 (h.queue_unique hi' hi))

/-- **The lists of a reachable engine.** -/
theorem Reachable.lists {c : UInt32} {e : MatchingEngine} (h : Reachable c e) :
    ∃ free queue, Lists e.book.arena free
      (fun k : Side × Int64 => ((e.book.levels k.1).get? k.2).getD PriceLevel.new) queue := by
  obtain ⟨free, queue, hrep⟩ := h.sound.wf
  exact ⟨free, _, hrep.lists⟩

namespace Lists

variable {a a' : Arena} {free : List UInt32} {level : ι → PriceLevel} {queue : ι → List UInt32}
  {k : ι} {i : UInt32} {lv : PriceLevel} {l : List UInt32}

theorem frame (h : Lists a free level queue) {free' : List UInt32}
    (hsize : a'.storage.length = a.storage.length) (hcapacity : a'.capacity = a.capacity)
    (hchain : Chain a'.nextOf arenaNull a'.freeHead free') (hfree : ∀ i ∈ free', a.InPool i)
    (hdisjoint : ∀ k, ∀ i ∈ queue k, i ∉ free')
    (hnext : ∀ k, ∀ j ∈ queue k, a'.nextOf j = a.nextOf j)
    (hprev : ∀ k, ∀ j ∈ queue k, a'.prevOf j = a.prevOf j) : Lists a' free' level queue where
  size := by rw [hsize, hcapacity, h.size]
  chain := hchain
  levels k := (h.levels k).frame (hnext k) (hprev k)
  inPoolFree i hi := by rw [InPool, hsize]; exact hfree i hi
  inPool k i hi := by rw [InPool, hsize]; exact h.inPool k i hi
  disjointFree := hdisjoint
  disjoint := h.disjoint

/-! ## The free list -/

theorem alloc {rest : List UInt32} (h : Lists a (i :: rest) level queue) (o : Order) :
    Lists (FreeList.allocated a i o) rest level queue ∧
      OnNoList (FreeList.allocated a i o) rest queue i ∧
      (FreeList.allocated a i o).orderOf = Function.update a.orderOf i o := by
  have hi : a.InPool i := h.inPoolFree i List.mem_cons_self
  have hqueue : ∀ k, i ∉ queue k := fun k hk => h.disjointFree k i hk List.mem_cons_self
  obtain ⟨hnext, hprev, horder⟩ := FreeList.views_alloc hi o
  have hlinks : ∀ k, ∀ j ∈ queue k, j ≠ i := fun k j hj => ne_of_mem_of_not_mem hj (hqueue k)
  refine ⟨?_, ⟨inPool_set.2 hi, (List.nodup_cons.1 h.chain.nodup).1, hqueue⟩, horder⟩
  refine h.frame (FreeList.length_allocated a i o) rfl (FreeList.chain_allocated h.chain hi o)
    (fun j hj => h.inPoolFree j (List.mem_cons_of_mem _ hj))
    (fun k j hj hfree => h.disjointFree k j hj (List.mem_cons_of_mem _ hfree)) ?_ ?_
  · intro k j hj
    rw [hnext, Function.update_of_ne (hlinks k j hj)]
  · intro k j hj
    rw [hprev, Function.update_of_ne (hlinks k j hj)]

theorem dealloc (h : Lists a free level queue) (hi : OnNoList a free queue i) :
    Lists (a.dealloc i) (i :: free) level queue ∧ (a.dealloc i).orderOf = a.orderOf := by
  obtain ⟨hnext, hprev, horder⟩ := FreeList.views_dealloc hi.inPool
  have hchain := FreeList.chain_dealloc h.chain hi.inPool (hi.inPool.ne_null h.size) hi.free
  refine ⟨h.frame (FreeList.length_dealloc a i) rfl hchain ?_ ?_ ?_ ?_, horder⟩
  · intro j hj
    rcases List.mem_cons.1 hj with rfl | hj
    · exact hi.inPool
    · exact h.inPoolFree j hj
  · intro k j hj hfree
    rcases List.mem_cons.1 hfree with rfl | hfree
    · exact hi.queue k hj
    · exact h.disjointFree k j hj hfree
  · intro k j hj
    rw [hnext, Function.update_of_ne (ne_of_mem_of_not_mem hj (hi.queue k))]
  · intro k j hj
    rw [hprev]

/-! ## The queues -/

theorem popFront_eq {rest : List UInt32} (h : Lists a free level queue) (hq : queue k = i :: rest) :
    a.popFront (level k) =
      ((a.remove (level k) i).1, (a.remove (level k) i).2, some i) := by
  have hlinks : DList a.nextOf a.prevOf arenaNull (level k).head (level k).tail ([] ++ i :: rest) :=
    hq ▸ (h.levels k).links
  have hhead : (level k).head = i := hlinks.head_eq
  have hprev : a.prevOf i = arenaNull := hlinks.prev_eq
  have hi : i ∈ queue k := hq ▸ List.mem_cons_self
  have hnull := (h.inPool k i hi).ne_null h.size
  rw [popFront_eq_remove a (level k) (hhead ▸ hnull) (hhead ▸ hprev), hhead]

theorem popFront_nil (h : Lists a free level queue) (hq : queue k = []) :
    a.popFront (level k) = (a, level k, none) := by
  have hhead := (h.levels k).links.head_eq
  rw [hq] at hhead
  exact if_pos hhead

section Queues

variable [DecidableEq ι]

theorem mem_update {k' : ι} (hi : i ∈ Function.update queue k l k') :
    k' = k ∧ i ∈ l ∨ k' ≠ k ∧ i ∈ queue k' := by
  rw [Function.update_apply] at hi
  by_cases hk : k' = k
  · rw [if_pos hk] at hi
    exact Or.inl ⟨hk, hi⟩
  · rw [if_neg hk] at hi
    exact Or.inr ⟨hk, hi⟩

/-- **One queue changes.** Its slots were on it before or on no list, and no other link changes. -/
theorem update (h : Lists a free level queue) (hsame : SameOrders a a')
    (hqueue : LevelQueue a' lv l) (hmem : ∀ i ∈ l, i ∈ queue k ∨ OnNoList a free queue i)
    (hlinks : ∀ j, j ∉ queue k → j ∉ l → j ≠ arenaNull →
      a'.nextOf j = a.nextOf j ∧ a'.prevOf j = a.prevOf j) :
    Lists a' free (Function.update level k lv) (Function.update queue k l) := by
  have hpool : ∀ i ∈ l, a.InPool i := by
    intro i hi
    rcases hmem i hi with hk | hno
    · exact h.inPool k i hk
    · exact hno.inPool
  have hfree : ∀ i ∈ l, i ∉ free := by
    intro i hi
    rcases hmem i hi with hk | hno
    · exact h.disjointFree k i hk
    · exact hno.free
  have hother : ∀ k', k' ≠ k → ∀ i ∈ l, i ∉ queue k' := by
    intro k' hne i hi
    rcases hmem i hi with hk | hno
    · exact h.disjoint k k' hne.symm i hk
    · exact hno.queue k'
  constructor
  · rw [hsame.length, hsame.capacity, h.size]
  · rw [hsame.freeHead]
    refine h.chain.congr fun j hj => (hlinks j ?_ ?_ ?_).1
    · exact fun hk => h.disjointFree k j hk hj
    · exact fun hl => hfree j hl hj
    · exact (h.inPoolFree j hj).ne_null h.size
  · intro k'
    by_cases hk : k' = k
    · subst hk
      simpa using hqueue
    · have hj : ∀ j ∈ queue k', a'.nextOf j = a.nextOf j ∧ a'.prevOf j = a.prevOf j :=
        fun j hj => hlinks j (h.disjoint k' k hk j hj) (fun hl => hother k' hk j hl hj)
          ((h.inPool k' j hj).ne_null h.size)
      rw [Function.update_of_ne hk, Function.update_of_ne hk]
      exact (h.levels k').frame (fun j hj' => (hj j hj').1) fun j hj' => (hj j hj').2
  · exact fun i hi => hsame.inPool.2 (h.inPoolFree i hi)
  · intro k' i hi
    rw [hsame.inPool]
    obtain ⟨-, hi⟩ | ⟨-, hi⟩ := mem_update hi
    · exact hpool i hi
    · exact h.inPool k' i hi
  · intro k' i hi
    obtain ⟨-, hi⟩ | ⟨-, hi⟩ := mem_update hi
    · exact hfree i hi
    · exact h.disjointFree k' i hi
  · intro k₁ k₂ hne i hi₁ hi₂
    obtain ⟨h₁, hi₁⟩ | ⟨h₁, hi₁⟩ := mem_update hi₁
    · obtain ⟨h₂, -⟩ | ⟨h₂, hi₂⟩ := mem_update hi₂
      · exact hne (h₁.trans h₂.symm)
      · exact hother k₂ h₂ i hi₁ hi₂
    · obtain ⟨-, hi₂⟩ | ⟨-, hi₂⟩ := mem_update hi₂
      · exact hother k₁ h₁ i hi₂ hi₁
      · exact h.disjoint k₁ k₂ hne i hi₁ hi₂

theorem pushBack (h : Lists a free level queue) (k : ι) (hi : OnNoList a free queue i) :
    Lists (a.pushBack (level k) i).1 free (Function.update level k (a.pushBack (level k) i).2)
        (Function.update queue k (queue k ++ [i])) ∧
      (a.pushBack (level k) i).2.qty = (level k).qty + (a.orderOf i).quantity ∧
      (a.pushBack (level k) i).1.orderOf = a.orderOf := by
  have hqueue := h.levels k
  obtain ⟨-, -, hsame⟩ := hqueue.views_pushBack (h.inPool k) hi.inPool
  have hlen := hi.inPool.length_lt h.size hqueue.links.nodup (h.inPool k) (hi.queue k)
  refine ⟨?_, by rw [pushBack_snd]; rfl, hsame.orderOf⟩
  refine h.update hsame (hqueue.pushBack (h.inPool k) hi.inPool (hi.inPool.ne_null h.size)
    (hi.queue k) hlen) ?_ ?_
  · intro j hj
    rcases List.mem_append.1 hj with hj | hj
    · exact Or.inl hj
    · rw [List.mem_singleton.1 hj]
      exact Or.inr hi
  · intro j hj hj' hnull
    exact hqueue.frame_pushBack (h.inPool k) hi.inPool hj
      (fun e => hj' (List.mem_append_right _ (List.mem_singleton.2 e))) hnull

theorem remove (h : Lists a free level queue) (hi : i ∈ queue k) :
    Lists (a.remove (level k) i).1 free (Function.update level k (a.remove (level k) i).2)
        (Function.update queue k ((queue k).erase i)) ∧
      OnNoList (a.remove (level k) i).1 free (Function.update queue k ((queue k).erase i)) i ∧
      (a.remove (level k) i).2.qty = (level k).qty - (a.orderOf i).quantity ∧
      (a.remove (level k) i).1.orderOf = a.orderOf := by
  obtain ⟨l₁, l₂, -, hq, herase⟩ := List.exists_erase_eq hi
  have hpool : ∀ j ∈ l₁ ++ i :: l₂, a.InPool j := hq ▸ h.inPool k
  have hqueue : LevelQueue a (level k) (l₁ ++ i :: l₂) := hq ▸ h.levels k
  obtain ⟨-, -, hsame⟩ := hqueue.views_remove hpool
  refine ⟨?_, ⟨hsame.inPool.2 (h.inPool k i hi), h.disjointFree k i hi, ?_⟩,
    by rw [remove_snd]; rfl, hsame.orderOf⟩
  · refine h.update hsame (herase ▸ hqueue.remove hpool) ?_ ?_
    · exact fun j hj => Or.inl (List.mem_of_mem_erase hj)
    · exact fun j hj _ hnull => hqueue.frame_remove hpool (hq ▸ hj) hnull
  · intro k'
    by_cases hk : k' = k
    · subst hk
      rw [Function.update_self]
      exact (h.levels k').links.nodup.not_mem_erase
    · rw [Function.update_of_ne hk]
      exact h.disjoint k k' (Ne.symm hk) i hi

end Queues

theorem new (c : UInt32) :
    Lists (Arena.new c) (FreeList.slots c) (fun _ : ι => PriceLevel.new) fun _ => [] where
  size := (FreeList.new c).size
  chain := (FreeList.new c).chain
  levels _ := (Level.new _).queue
  inPoolFree i hi := by
    rw [InPool, (FreeList.new c).size]
    exact FreeList.mem_slots.1 hi
  inPool _ _ hi := nomatch hi
  disjointFree _ _ hi := nomatch hi
  disjoint _ _ _ _ hi := nomatch hi

end Lists

/-- **The operations of the arena are operations on lists**, and each leaves the other lists and the
orders alone. -/
theorem arena_refines_lists [DecidableEq ι] {a : Arena} {free : List UInt32}
    {level : ι → PriceLevel} {queue : ι → List UInt32} (h : Lists a free level queue) :
    (∀ o, a.alloc o = (a, .error .full) ↔ free = []) ∧
      (∀ o i rest, free = i :: rest → ∃ a', a.alloc o = (a', .ok i) ∧
        Lists a' rest level queue ∧ OnNoList a' rest queue i ∧
        a'.orderOf = Function.update a.orderOf i o) ∧
      (∀ k i, OnNoList a free queue i → ∃ a' lv, a.pushBack (level k) i = (a', lv) ∧
        Lists a' free (Function.update level k lv) (Function.update queue k (queue k ++ [i])) ∧
        lv.qty = (level k).qty + (a.orderOf i).quantity ∧ a'.orderOf = a.orderOf) ∧
      (∀ k, queue k = [] → a.popFront (level k) = (a, level k, none)) ∧
      (∀ k i rest, queue k = i :: rest → ∃ a' lv, a.popFront (level k) = (a', lv, some i) ∧
        Lists a' free (Function.update level k lv) (Function.update queue k rest) ∧
        OnNoList a' free (Function.update queue k rest) i ∧
        lv.qty = (level k).qty - (a.orderOf i).quantity ∧ a'.orderOf = a.orderOf) ∧
      (∀ k i, i ∈ queue k → ∃ a' lv, a.remove (level k) i = (a', lv) ∧
        Lists a' free (Function.update level k lv) (Function.update queue k ((queue k).erase i)) ∧
        OnNoList a' free (Function.update queue k ((queue k).erase i)) i ∧
        lv.qty = (level k).qty - (a.orderOf i).quantity ∧ a'.orderOf = a.orderOf) ∧
      ∀ i, OnNoList a free queue i →
        Lists (a.dealloc i) (i :: free) level queue ∧ (a.dealloc i).orderOf = a.orderOf := by
  refine ⟨?_, ?_, ?_, fun k hq => h.popFront_nil hq, ?_, ?_, fun i hi => h.dealloc hi⟩
  · intro o
    have hchain := h.chain
    cases free with
    | nil => simp [FreeList.alloc_eq_full hchain]
    | cons i rest => simp [FreeList.alloc_eq_ok hchain]
  · intro o i rest hfree
    subst hfree
    exact ⟨_, FreeList.alloc_eq_ok h.chain o, h.alloc o⟩
  · intro k i hi
    exact ⟨_, _, rfl, h.pushBack k hi⟩
  · intro k i rest hq
    have hi : i ∈ queue k := hq ▸ List.mem_cons_self
    have herase : (queue k).erase i = rest := by
      rw [hq, List.erase_cons_head]
    exact ⟨_, _, h.popFront_eq hq, herase ▸ h.remove hi⟩
  · intro k i hi
    exact ⟨_, _, rfl, h.remove hi⟩

/-- Three orders at one level and one at another, and what removing the second of the three leaves. -/
theorem arena_refines_lists_middle : ∃ (a : Arena) (level : Bool → PriceLevel)
    (queue : Bool → List UInt32), queue true = [0, 1, 3] ∧ queue false = [2] ∧
      Lists a [4] level queue ∧ ∃ a' lv, a.remove (level true) 1 = (a', lv) ∧
        lv = ⟨0, 3, 2, 12⟩ ∧ a'.nextOf 0 = 3 ∧ a'.prevOf 3 = 0 ∧
        Lists a' [4] (Function.update level true lv) (Function.update queue true [0, 3]) ∧
        OnNoList a' [4] (Function.update queue true [0, 3]) 1 := by
  have hnew : Lists (Arena.new 5) (FreeList.slots 5) (fun _ : Bool => PriceLevel.new) fun _ => [] :=
    Lists.new 5
  obtain ⟨hlists, hno, -⟩ := hnew.alloc ⟨1, 10, .bid, 100, 5, 7⟩
  obtain ⟨hlists, -⟩ := hlists.pushBack true hno
  obtain ⟨hlists, hno, -⟩ := hlists.alloc ⟨2, 11, .bid, 100, 4, 8⟩
  obtain ⟨hlists, -⟩ := hlists.pushBack true hno
  obtain ⟨hlists, hno, -⟩ := hlists.alloc ⟨3, 12, .ask, 101, 6, 9⟩
  obtain ⟨hlists, -⟩ := hlists.pushBack false hno
  obtain ⟨hlists, hno, -⟩ := hlists.alloc ⟨4, 13, .bid, 100, 7, 10⟩
  obtain ⟨hlists, -⟩ := hlists.pushBack true hno
  refine ⟨_, _, _, by decide, by decide, hlists, ?_⟩
  obtain ⟨-, -, -, -, -, hremove, -⟩ := arena_refines_lists hlists
  obtain ⟨a', lv, hr, hlists', hno', -⟩ := hremove true 1 (by decide)
  have harena : _ = a' := congrArg Prod.fst hr
  have hlv := congrArg Prod.snd hr
  refine ⟨a', lv, hr, ?_, ?_, ?_, hlists', hno'⟩
  · exact hlv.symm.trans (by decide +kernel)
  · rw [← harena]
    decide +kernel
  · rw [← harena]
    decide +kernel

end Ferrox
