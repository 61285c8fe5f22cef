import Ferrox.Book
import Ferrox.ArenaProof
import Ferrox.PriceTime

/-!
# The book refines the price-time book

`Rep b free queue` is the representation invariant: the free list holds the slots `free`, the level
at price `p` of side `s` holds the slots `queue s p`, and together they are the whole pool; the id
index, the cached best prices and the counters describe the same lists.

The pieces the operations are made of are `linked` (a slot leaves the free list and joins a level),
`unlinked` (the reverse, from any position) and `filled` (the quantity at the front of a level
drops). Each keeps `Rep`, with the obvious change of `free` and `queue`, and does to the resting
orders what `Ferrox.PriceTime` says.
-/

namespace Ferrox

open Linked Ranked

namespace OrderBook

/-! ## Prices in order of priority -/

/-- The prices of a side, best first. -/
def prices (s : Side) (m : OrdMap Int64 PriceLevel) : List Int64 :=
  match s with
  | .ask => m.keys
  | .bid => m.keys.reverse

/-- The end of the key order at which a side's best price stands. -/
def bestKey (s : Side) (m : OrdMap Int64 PriceLevel) : Option Int64 :=
  match s with
  | .ask => m.minKey?
  | .bid => m.maxKey?

/-- The cached best price of a side. -/
def bestPrice (b : OrderBook) : Side → Option Int64
  | .bid => b.bestBid
  | .ask => b.bestAsk

@[simp] theorem mem_prices {s : Side} {m : OrdMap Int64 PriceLevel} {p : Int64} :
    p ∈ prices s m ↔ p ∈ m.keys := by
  cases s <;> simp [prices]

theorem prices_sorted (s : Side) (m : OrdMap Int64 PriceLevel) :
    (prices s m).Pairwise fun p q => s.rank p < s.rank q := by
  cases s with
  | ask => exact m.keys_sorted.imp fun h => Side.rank_ask_lt.2 h
  | bid => exact List.pairwise_reverse.2 (m.keys_sorted.imp fun h => Side.rank_bid_lt.2 h)

theorem bestKey_eq_head (s : Side) (m : OrdMap Int64 PriceLevel) :
    bestKey s m = (prices s m).head? := by
  cases s with
  | ask => rfl
  | bid => simp [bestKey, prices, OrdMap.maxKey?]

/-! ## The representation invariant -/

/-- Slots `free` are free, slots `queue s p` rest at price `p` of side `s`, and nothing else is
there. -/
structure Rep (b : OrderBook) (free : List UInt32) (queue : Side → Int64 → List UInt32) : Prop where
  freeList : FreeList b.arena free
  level : ∀ s p lv, (b.levels s).get? p = some lv → Level b.arena lv (queue s p)
  nonempty : ∀ s p, queue s p = [] ↔ (b.levels s).get? p = none
  node : ∀ s p, ∀ i ∈ queue s p, (b.arena.orderOf i).side = s ∧ (b.arena.orderOf i).price = p
  slots : ∀ i : UInt32, i.toNat < b.arena.capacity.toNat ↔ i ∈ free ∨ ∃ s p, i ∈ queue s p
  disjoint : ∀ i ∈ free, ∀ s p, i ∉ queue s p
  index : ∀ id i, b.orderIndex.lookup id = some i ↔
    (∃ s p, i ∈ queue s p) ∧ (b.arena.orderOf i).id = id
  indexCount : b.orderCount = b.arena.count.toNat
  best : ∀ s, b.bestPrice s = bestKey s (b.levels s)

/-- `queue` with the slots at one price of one side replaced. -/
def setQueue (queue : Side → Int64 → List UInt32) (s : Side) (p : Int64) (l : List UInt32) :
    Side → Int64 → List UInt32 :=
  fun s' p' => if s' = s ∧ p' = p then l else queue s' p'

section Queues

variable {queue : Side → Int64 → List UInt32} {s s' : Side} {p p' : Int64} {l : List UInt32}

@[simp] theorem setQueue_self : setQueue queue s p l s p = l := by simp [setQueue]

theorem setQueue_of_ne (h : ¬ (s' = s ∧ p' = p)) : setQueue queue s p l s' p' = queue s' p' := by
  simp [setQueue, h]

end Queues

section Levels

variable {b : OrderBook} {s s' : Side} {m : OrdMap Int64 PriceLevel}

@[simp] theorem levels_setLevels_self : (b.setLevels s m).levels s = m := by cases s <;> rfl

theorem levels_setLevels_of_ne (h : s' ≠ s) : (b.setLevels s m).levels s' = b.levels s' := by
  cases s <;> cases s' <;> first | rfl | exact absurd rfl h

@[simp] theorem orderIndex_setLevels : (b.setLevels s m).orderIndex = b.orderIndex := by
  cases s <;> rfl

theorem get?_setLevels_insert {p : Int64} {lv : PriceLevel} (s' : Side) (p' : Int64) :
    ((b.setLevels s ((b.levels s).insert p lv)).levels s').get? p' =
      if s' = s ∧ p' = p then some lv else (b.levels s').get? p' := by
  by_cases hs : s' = s
  · subst hs
    rw [levels_setLevels_self, OrdMap.get?_insert]
    simp
  · rw [levels_setLevels_of_ne hs]
    simp [hs]

end Levels

namespace Rep

variable {b : OrderBook} {free : List UInt32} {queue : Side → Int64 → List UInt32}
variable {s s' : Side} {p p' : Int64} {i j : UInt32}

theorem inPool_iff (h : Rep b free queue) :
    b.arena.InPool i ↔ i ∈ free ∨ ∃ s p, i ∈ queue s p := by
  rw [← h.slots, Arena.InPool, h.freeList.size]

theorem inPool_queue (h : Rep b free queue) (hi : i ∈ queue s p) : b.arena.InPool i :=
  h.inPool_iff.2 (Or.inr ⟨s, p, hi⟩)

theorem inPool_free (h : Rep b free queue) (hi : i ∈ free) : b.arena.InPool i :=
  h.inPool_iff.2 (Or.inl hi)

theorem queue_unique (h : Rep b free queue) (hi : i ∈ queue s p) (hi' : i ∈ queue s' p') :
    s' = s ∧ p' = p := by
  obtain ⟨h₁, h₂⟩ := h.node s p i hi
  obtain ⟨h₃, h₄⟩ := h.node s' p' i hi'
  exact ⟨h₃.symm.trans h₁, h₄.symm.trans h₂⟩

theorem notMem_other (h : Rep b free queue) (hi : i ∈ queue s p) (hne : ¬ (s' = s ∧ p' = p))
    (hj : j ∈ queue s' p') : j ≠ i := by
  rintro rfl
  exact hne (h.queue_unique hi hj)

/-- Resting ids are distinct: each is indexed under its own slot. -/
theorem id_injective (h : Rep b free queue) (hi : i ∈ queue s p) (hj : j ∈ queue s' p')
    (hid : (b.arena.orderOf i).id = (b.arena.orderOf j).id) : i = j := by
  have h₁ := (h.index _ i).2 ⟨⟨s, p, hi⟩, rfl⟩
  have h₂ := (h.index _ j).2 ⟨⟨s', p', hj⟩, rfl⟩
  rw [hid, h₂] at h₁
  exact (Option.some.inj h₁).symm

theorem queue_nodup (h : Rep b free queue) (s : Side) (p : Int64) : (queue s p).Nodup := by
  cases hl : (b.levels s).get? p with
  | none => rw [(h.nonempty s p).2 hl]; exact List.nodup_nil
  | some lv => exact (h.level s p lv hl).links.nodup

theorem exists_level (h : Rep b free queue) (hi : i ∈ queue s p) :
    ∃ lv, (b.levels s).get? p = some lv ∧ Level b.arena lv (queue s p) := by
  cases hl : (b.levels s).get? p with
  | none => rw [(h.nonempty s p).2 hl] at hi; simp at hi
  | some lv => exact ⟨lv, rfl, h.level s p lv hl⟩

theorem count_pos (h : Rep b free queue) (hi : i ∈ queue s p) : 0 < b.arena.count.toNat := by
  have hidx := (h.index _ i).2 ⟨⟨s, p, hi⟩, rfl⟩
  have hmem : (b.arena.orderOf i).id ∈ b.orderIndex.keys := by
    rw [← AList.mem_keys, ← AList.lookup_isSome, hidx]
    rfl
  rw [← h.indexCount]
  exact List.length_pos_of_mem hmem

end Rep

theorem rep_withCapacity (c : UInt32) :
    Rep (withCapacity c) (FreeList.slots c) (fun _ _ => []) where
  freeList := FreeList.new c
  level := by
    intro s p lv h
    cases s <;> simp [withCapacity, levels] at h
  nonempty := by
    intro s p
    cases s <;> simp [withCapacity, levels]
  node := by simp
  slots := by
    intro i
    rw [FreeList.mem_slots]
    simp [withCapacity, Arena.new]
  disjoint := by simp
  index := by simp [withCapacity]
  indexCount := rfl
  best := by
    intro s
    cases s <;> rfl

/-! ## Inserting -/

/-- The book after `o` took the free slot `i` and joined the back of its level. -/
def linked (b : OrderBook) (o : Order) (i : UInt32) : OrderBook :=
  let level := ((b.levels o.side).get? o.price).getD PriceLevel.new
  let r := (FreeList.allocated b.arena i o).pushBack level i
  { b.setLevels o.side ((b.levels o.side).insert o.price r.2) with
    arena := r.1
    orderIndex := b.orderIndex.insert o.id i }.updateBestAfterInsert o.side o.price

section Linked

variable {b : OrderBook} {free : List UInt32} {queue : Side → Int64 → List UInt32}
variable {o : Order} {i : UInt32}

theorem insertOrder_duplicate (h : o.id ∈ b.orderIndex) :
    b.insertOrder o = (b, .error (.duplicateOrderId o.id)) := by
  simp [insertOrder, h]

theorem insertOrder_full (h : Rep b [] queue) (hid : o.id ∉ b.orderIndex) :
    b.insertOrder o = (b, .error .arenaFull) := by
  simp [insertOrder, hid, FreeList.alloc_eq_full h.freeList.chain, BookError.ofArena]

theorem insertOrder_ok (h : Rep b (i :: free) queue) (hid : o.id ∉ b.orderIndex) :
    b.insertOrder o = (linked b o i, .ok ()) := by
  simp [insertOrder, hid, FreeList.alloc_eq_ok h.freeList.chain, linked]

/-- The level an order joins, seen in the arena that already holds it. -/
theorem level_allocated (h : Rep b (i :: free) queue) (o : Order) :
    Level (FreeList.allocated b.arena i o)
      (((b.levels o.side).get? o.price).getD PriceLevel.new) (queue o.side o.price) := by
  have hi : b.arena.InPool i := h.inPool_free List.mem_cons_self
  obtain ⟨hnext, hprev, hord⟩ := FreeList.views_alloc hi o
  have hold : Level b.arena (((b.levels o.side).get? o.price).getD PriceLevel.new)
      (queue o.side o.price) := by
    cases hl : (b.levels o.side).get? o.price with
    | none =>
      rw [(h.nonempty _ _).2 hl]
      exact Level.new b.arena
    | some lv => exact h.level _ _ lv hl
  have hne : ∀ j ∈ queue o.side o.price, j ≠ i := by
    rintro j hj rfl
    exact h.disjoint j List.mem_cons_self _ _ hj
  apply hold.frame <;> intro j hj
  · rw [hnext, Function.update_of_ne (hne j hj)]
  · rw [hprev, Function.update_of_ne (hne j hj)]
  · rw [hord, Function.update_of_ne (hne j hj)]

@[simp] theorem arena_updateBest (s : Side) (p : Int64) :
    (b.updateBestAfterInsert s p).arena = b.arena := by cases s <;> rfl

@[simp] theorem orderIndex_updateBest (s : Side) (p : Int64) :
    (b.updateBestAfterInsert s p).orderIndex = b.orderIndex := by cases s <;> rfl

@[simp] theorem levels_updateBest (s : Side) (p : Int64) :
    (b.updateBestAfterInsert s p).levels = b.levels := by
  funext s'
  cases s <;> cases s' <;> rfl

theorem arena_linked : (linked b o i).arena =
    ((FreeList.allocated b.arena i o).pushBack
      (((b.levels o.side).get? o.price).getD PriceLevel.new) i).1 := by
  simp [linked]

theorem get?_linked (s : Side) (p : Int64) : ((linked b o i).levels s).get? p =
    if s = o.side ∧ p = o.price then
      some ((FreeList.allocated b.arena i o).pushBack
        (((b.levels o.side).get? o.price).getD PriceLevel.new) i).2
    else (b.levels s).get? p := by
  rw [← get?_setLevels_insert]
  simp only [linked, levels_updateBest]
  cases s <;> rfl

theorem orderIndex_linked : (linked b o i).orderIndex = b.orderIndex.insert o.id i := by
  simp [linked]

/-- Linking a slot stores the order there and rewrites links of its own level only. -/
theorem views_linked (h : Rep b (i :: free) queue) :
    Arena.SameOrders (FreeList.allocated b.arena i o) (linked b o i).arena ∧
      (linked b o i).arena.orderOf = Function.update b.arena.orderOf i o ∧
      ∀ j, j ≠ i → j ≠ arenaNull → j ∉ queue o.side o.price →
        (linked b o i).arena.nextOf j = b.arena.nextOf j ∧
          (linked b o i).arena.prevOf j = b.arena.prevOf j := by
  have hi : b.arena.InPool i := h.inPool_free List.mem_cons_self
  have hlv := level_allocated h o
  have hpool : ∀ j ∈ queue o.side o.price, (FreeList.allocated b.arena i o).InPool j := fun j hj =>
    Arena.inPool_set.2 (h.inPool_queue hj)
  have hi' : (FreeList.allocated b.arena i o).InPool i := Arena.inPool_set.2 hi
  obtain ⟨hnext, hprev, hord⟩ := FreeList.views_alloc hi o
  obtain ⟨-, -, hsame⟩ := LevelQueue.views_pushBack hpool hlv.queue hi'
  rw [arena_linked]
  refine ⟨hsame, hsame.orderOf.trans hord, ?_⟩
  intro j hji hnull hj
  obtain ⟨h₁, h₂⟩ := LevelQueue.frame_pushBack hpool hlv.queue hi' hj hji hnull
  rw [h₁, h₂, hnext, hprev, Function.update_of_ne hji, Function.update_of_ne hji]
  exact ⟨rfl, rfl⟩

theorem best_linked (h : Rep b free queue) (s : Side) :
    (linked b o i).bestPrice s = bestKey s ((linked b o i).levels s) := by
  have hbest := h.best s
  simp only [linked, levels_updateBest]
  generalize Arena.pushBack _ _ _ = r
  rcases ho : o.side with _ | _ <;> cases s <;>
    simp_all [updateBestAfterInsert, bestPrice, bestKey, setLevels, levels, OrdMap.minKey?_insert,
      OrdMap.maxKey?_insert]

theorem exists_mem_snoc {j : UInt32} :
    (∃ s p, j ∈ setQueue queue o.side o.price (queue o.side o.price ++ [i]) s p) ↔
      j = i ∨ ∃ s p, j ∈ queue s p := by
  constructor
  · rintro ⟨s, p, hj⟩
    by_cases hsp : s = o.side ∧ p = o.price
    · obtain ⟨rfl, rfl⟩ := hsp
      rw [setQueue_self, List.mem_append, List.mem_singleton] at hj
      exact hj.elim (fun hj => Or.inr ⟨_, _, hj⟩) Or.inl
    · rw [setQueue_of_ne hsp] at hj
      exact Or.inr ⟨s, p, hj⟩
  · rintro (rfl | ⟨s, p, hj⟩)
    · exact ⟨o.side, o.price, by simp⟩
    · by_cases hsp : s = o.side ∧ p = o.price
      · obtain ⟨rfl, rfl⟩ := hsp
        exact ⟨o.side, o.price, by simp [hj]⟩
      · exact ⟨s, p, by rwa [setQueue_of_ne hsp]⟩

/-- A level does not take all slots as long as one is free. -/
theorem Rep.length_queue_lt (h : Rep b (i :: free) queue) (s : Side) (p : Int64) :
    (queue s p).length + 1 < 2 ^ 32 := by
  have hi : b.arena.InPool i := h.inPool_free List.mem_cons_self
  exact hi.length_lt h.freeList.size (h.queue_nodup s p) (fun j hj => h.inPool_queue hj)
    (h.disjoint i List.mem_cons_self s p)

theorem freeList_linked (h : Rep b (i :: free) queue) : FreeList (linked b o i).arena free := by
  have hi : b.arena.InPool i := h.inPool_free List.mem_cons_self
  have hfree : i ∉ free := (List.nodup_cons.1 h.freeList.chain.nodup).1
  obtain ⟨hsame, -, hlinks⟩ := views_linked (o := o) h
  refine (h.freeList.alloc hi o).frame ?_ hsame
  intro j hj
  have hji : j ≠ i := ne_of_mem_of_not_mem hj hfree
  have hjpool := h.inPool_free (List.mem_cons_of_mem i hj)
  rw [(hlinks j hji (h.freeList.ne_null_of_inPool hjpool)
    (h.disjoint j (List.mem_cons_of_mem i hj) _ _)).1, (FreeList.views_alloc hi o).1,
    Function.update_of_ne hji]

theorem level_linked (h : Rep b (i :: free) queue) (s : Side) (p : Int64) (lv : PriceLevel)
    (hl : ((linked b o i).levels s).get? p = some lv) : Level (linked b o i).arena lv
      (setQueue queue o.side o.price (queue o.side o.price ++ [i]) s p) := by
  have hi : b.arena.InPool i := h.inPool_free List.mem_cons_self
  have hinot : ∀ s p, i ∉ queue s p := h.disjoint i List.mem_cons_self
  obtain ⟨-, hord, hlinks⟩ := views_linked (o := o) h
  rw [get?_linked] at hl
  split_ifs at hl with hsp
  · obtain ⟨rfl, rfl⟩ := hsp
    rw [setQueue_self, arena_linked, ← Option.some.inj hl]
    exact Level.pushBack (fun j hj => Arena.inPool_set.2 (h.inPool_queue hj)) (level_allocated h o)
      (Arena.inPool_set.2 hi) (h.freeList.ne_null_of_inPool hi) (hinot _ _) (h.length_queue_lt _ _)
  · have hother : ∀ j ∈ queue s p, j ≠ i ∧ j ≠ arenaNull ∧ j ∉ queue o.side o.price := fun j hj =>
      ⟨ne_of_mem_of_not_mem hj (hinot s p), h.freeList.ne_null_of_inPool (h.inPool_queue hj),
        fun hj' => hsp (h.queue_unique hj' hj)⟩
    rw [setQueue_of_ne hsp]
    refine (h.level s p lv hl).frame ?_ ?_ ?_ <;> intro j hj
    · exact (hlinks j (hother j hj).1 (hother j hj).2.1 (hother j hj).2.2).1
    · exact (hlinks j (hother j hj).1 (hother j hj).2.1 (hother j hj).2.2).2
    · rw [hord, Function.update_of_ne (hother j hj).1]

theorem index_linked (h : Rep b (i :: free) queue) (hid : o.id ∉ b.orderIndex) (id : UInt64)
    (j : UInt32) : (linked b o i).orderIndex.lookup id = some j ↔
      (∃ s p, j ∈ setQueue queue o.side o.price (queue o.side o.price ++ [i]) s p) ∧
        ((linked b o i).arena.orderOf j).id = id := by
  have hinot : ∀ s p, i ∉ queue s p := h.disjoint i List.mem_cons_self
  have hlookup : ∀ j s p, j ∈ queue s p → (b.arena.orderOf j).id ≠ o.id := by
    intro j s p hj e
    exact hid (AList.lookup_isSome.1 (by rw [(h.index o.id j).2 ⟨⟨s, p, hj⟩, e⟩]; rfl))
  obtain ⟨-, hord, -⟩ := views_linked (o := o) h
  rw [exists_mem_snoc, orderIndex_linked, hord]
  by_cases hii : id = o.id
  · subst hii
    rw [AList.lookup_insert, Option.some.injEq]
    constructor
    · rintro rfl
      exact ⟨Or.inl rfl, by rw [Function.update_self]⟩
    · rintro ⟨rfl | ⟨s, p, hj⟩, he⟩
      · rfl
      · rw [Function.update_of_ne (ne_of_mem_of_not_mem hj (hinot s p))] at he
        exact absurd he (hlookup j s p hj)
  · rw [AList.lookup_insert_ne hii, h.index id j]
    by_cases hji : j = i
    · subst hji
      rw [Function.update_self]
      constructor
      · rintro ⟨⟨s, p, hj⟩, -⟩
        exact absurd hj (hinot s p)
      · rintro ⟨-, he⟩
        exact absurd he.symm hii
    · rw [Function.update_of_ne hji]
      simp [hji]

theorem orderCount_linked (h : Rep b (i :: free) queue) (hid : o.id ∉ b.orderIndex) :
    (linked b o i).orderCount = (linked b o i).arena.count.toNat := by
  have hcount := h.freeList.count
  have hcap := b.arena.capacity.toNat_lt
  obtain ⟨hsame, -, -⟩ := views_linked (o := o) h
  rw [hsame.count, orderCount, orderIndex_linked, AList.keys_insert, List.length_cons,
    List.erase_of_not_mem (fun hm => hid (AList.mem_keys.2 hm))]
  show b.orderCount + 1 = (b.arena.count + 1).toNat
  rw [List.length_cons] at hcount
  rw [UInt32.toNat_add, UInt32.toNat_one, Nat.mod_eq_of_lt (by omega), h.indexCount]

/-- **Inserting an order** moves the front slot of the free list to the back of its level. -/
theorem rep_linked (h : Rep b (i :: free) queue) (hid : o.id ∉ b.orderIndex) :
    Rep (linked b o i) free
      (setQueue queue o.side o.price (queue o.side o.price ++ [i])) := by
  have hinot : ∀ s p, i ∉ queue s p := h.disjoint i List.mem_cons_self
  obtain ⟨hsame, hord, -⟩ := views_linked (o := o) h
  exact {
    freeList := freeList_linked h
    level := level_linked h
    nonempty := by
      intro s p
      rw [get?_linked]
      split_ifs with hsp
      · obtain ⟨rfl, rfl⟩ := hsp
        simp
      · rw [setQueue_of_ne hsp]
        exact h.nonempty s p
    node := by
      intro s p j hj
      by_cases hji : j = i
      · subst hji
        by_cases hsp : s = o.side ∧ p = o.price
        · obtain ⟨rfl, rfl⟩ := hsp
          rw [hord, Function.update_self]
          exact ⟨rfl, rfl⟩
        · rw [setQueue_of_ne hsp] at hj
          exact absurd hj (hinot s p)
      · rw [hord, Function.update_of_ne hji]
        apply h.node
        by_cases hsp : s = o.side ∧ p = o.price
        · obtain ⟨rfl, rfl⟩ := hsp
          simpa [hji] using hj
        · rwa [setQueue_of_ne hsp] at hj
    slots := by
      intro j
      rw [exists_mem_snoc, hsame.capacity]
      show j.toNat < b.arena.capacity.toNat ↔ _
      rw [h.slots j, List.mem_cons]
      tauto
    disjoint := by
      intro j hj s p hjq
      rcases exists_mem_snoc.1 ⟨s, p, hjq⟩ with rfl | ⟨s', p', hj'⟩
      · exact (List.nodup_cons.1 h.freeList.chain.nodup).1 hj
      · exact h.disjoint j (List.mem_cons_of_mem i hj) s' p' hj'
    index := index_linked h hid
    indexCount := orderCount_linked h hid
    best := best_linked h }

end Linked

/-! ## Removing -/

/-- The book with one level, the arena and the index written back. -/
def withLevel (b : OrderBook) (s : Side) (p : Int64) (lv : PriceLevel) (arena : Arena)
    (index : AList fun _ : UInt64 => UInt32) : OrderBook :=
  { b.setLevels s ((b.levels s).insert p lv) with arena, orderIndex := index }

/-- The book after slot `i`, holding the order `id`, left the level `lv` at price `p`. -/
def unlinked (b : OrderBook) (s : Side) (p : Int64) (lv : PriceLevel) (i : UInt32) (id : UInt64) :
    OrderBook :=
  if (b.arena.remove lv i).2.count = 0 then
    (b.withLevel s p (b.arena.remove lv i).2 ((b.arena.remove lv i).1.dealloc i)
      (b.orderIndex.erase id)).removeLevel s p
  else
    b.withLevel s p (b.arena.remove lv i).2 ((b.arena.remove lv i).1.dealloc i)
      (b.orderIndex.erase id)

section Unlinked

variable {b : OrderBook} {free l₁ l₂ : List UInt32} {queue : Side → Int64 → List UInt32}
variable {s : Side} {p : Int64} {lv : PriceLevel} {i : UInt32} {id : UInt64}

@[simp] theorem arena_removeLevel : (b.removeLevel s p).arena = b.arena := by cases s <;> rfl

@[simp] theorem orderIndex_removeLevel : (b.removeLevel s p).orderIndex = b.orderIndex := by
  cases s <;> rfl

theorem get?_removeLevel (s' : Side) (p' : Int64) : ((b.removeLevel s p).levels s').get? p' =
    if s' = s ∧ p' = p then none else (b.levels s').get? p' := by
  cases s <;> cases s' <;> simp [removeLevel, levels, OrdMap.get?_erase]

theorem best_removeLevel (h : ∀ s', b.bestPrice s' = bestKey s' (b.levels s')) (s' : Side) :
    (b.removeLevel s p).bestPrice s' = bestKey s' ((b.removeLevel s p).levels s') := by
  cases s <;> cases s' <;> first | rfl | exact h .bid | exact h .ask

theorem bestKey_congr {m m' : OrdMap Int64 PriceLevel} (h : m'.keys = m.keys) (s : Side) :
    bestKey s m' = bestKey s m := by
  rw [bestKey_eq_head, bestKey_eq_head]
  cases s <;> simp [prices, h]

theorem get?_withLevel {arena : Arena} {index : AList fun _ : UInt64 => UInt32} (s' : Side)
    (p' : Int64) : ((b.withLevel s p lv arena index).levels s').get? p' =
      if s' = s ∧ p' = p then some lv else (b.levels s').get? p' := by
  rw [← get?_setLevels_insert]
  cases s' <;> rfl

/-- Writing a level that exists already moves no best price. -/
theorem best_withLevel {arena : Arena} {index : AList fun _ : UInt64 => UInt32}
    (h : ∀ s', b.bestPrice s' = bestKey s' (b.levels s')) (hl : (b.levels s).get? p = some lv)
    (lv' : PriceLevel) (s' : Side) : (b.withLevel s p lv' arena index).bestPrice s' =
      bestKey s' ((b.withLevel s p lv' arena index).levels s') := by
  have hkeys : ((b.levels s).insert p lv').keys = (b.levels s).keys :=
    OrdMap.keys_insert_of_mem _ _ ((b.levels s).mem_keys_iff.2 ⟨lv, hl⟩)
  have hprice : (b.withLevel s p lv' arena index).bestPrice s' = b.bestPrice s' := by
    cases s <;> cases s' <;> rfl
  have hlevels : (b.withLevel s p lv' arena index).levels s' =
      (b.setLevels s ((b.levels s).insert p lv')).levels s' := by
    cases s' <;> rfl
  rw [hprice, h s', hlevels]
  by_cases hs : s' = s
  · subst hs
    rw [levels_setLevels_self, bestKey_congr hkeys]
  · rw [levels_setLevels_of_ne hs]

theorem arena_unlinked : (unlinked b s p lv i id).arena = (b.arena.remove lv i).1.dealloc i := by
  unfold unlinked
  split <;> simp [withLevel]

theorem orderIndex_unlinked :
    (unlinked b s p lv i id).orderIndex = b.orderIndex.erase id := by
  unfold unlinked
  split <;> simp [withLevel]

theorem get?_unlinked (s' : Side) (p' : Int64) : ((unlinked b s p lv i id).levels s').get? p' =
    if s' = s ∧ p' = p then
      if (b.arena.remove lv i).2.count = 0 then none else some (b.arena.remove lv i).2
    else (b.levels s').get? p' := by
  unfold unlinked
  by_cases hc : (b.arena.remove lv i).2.count = 0
  · rw [if_pos hc, if_pos hc, get?_removeLevel, get?_withLevel]
    split_ifs <;> rfl
  · rw [if_neg hc, if_neg hc, get?_withLevel]

variable (h : Rep b free queue) (hq : queue s p = l₁ ++ i :: l₂)
include h hq

theorem inPool_level : ∀ j ∈ l₁ ++ i :: l₂, b.arena.InPool j :=
  fun _ hj => h.inPool_queue (hq ▸ hj)

variable (hl : (b.levels s).get? p = some lv)
include hl

theorem level_eq : Level b.arena lv (l₁ ++ i :: l₂) := hq ▸ h.level s p lv hl

theorem views_unlinked (id : UInt64) :
    (unlinked b s p lv i id).arena.orderOf = b.arena.orderOf ∧
      ∀ j, j ≠ arenaNull → j ∉ queue s p →
        (unlinked b s p lv i id).arena.nextOf j = b.arena.nextOf j ∧
          (unlinked b s p lv i id).arena.prevOf j = b.arena.prevOf j := by
  have hlv := level_eq h hq hl
  have hpool := inPool_level h hq
  obtain ⟨-, -, hsame⟩ := LevelQueue.views_remove hpool hlv.queue
  have hi : (b.arena.remove lv i).1.InPool i := hsame.inPool.2 (hpool i (by simp))
  obtain ⟨hnext, hprev, hord⟩ := FreeList.views_dealloc hi
  rw [arena_unlinked]
  refine ⟨hord.trans hsame.orderOf, ?_⟩
  intro j hnull hj
  have hji : j ≠ i := by
    rintro rfl
    exact hj (by simp [hq])
  obtain ⟨h₁, h₂⟩ := LevelQueue.frame_remove hpool hlv.queue (hq ▸ hj) hnull
  rw [hnext, hprev, Function.update_of_ne hji]
  exact ⟨h₁, h₂⟩

theorem freeList_unlinked : FreeList (unlinked b s p lv i id).arena (i :: free) := by
  have hlv := level_eq h hq hl
  have hpool := inPool_level h hq
  have hiq : i ∈ queue s p := by simp [hq]
  obtain ⟨-, -, hsame⟩ := LevelQueue.views_remove hpool hlv.queue
  rw [arena_unlinked]
  refine FreeList.dealloc (h.freeList.frame ?_ hsame) (hsame.inPool.2 (h.inPool_queue hiq)) ?_ ?_
  · intro j hj
    exact (LevelQueue.frame_remove hpool hlv.queue (hq ▸ h.disjoint j hj s p)
      (h.freeList.ne_null_of_inPool (h.inPool_free hj))).1
  · exact fun hi => h.disjoint i hi s p hiq
  · rw [hsame.count]
    exact h.count_pos hiq

theorem level_unlinked (id : UInt64) :
    Level (unlinked b s p lv i id).arena (b.arena.remove lv i).2 (l₁ ++ l₂) := by
  have hlv := level_eq h hq hl
  have hpool := inPool_level h hq
  obtain ⟨-, -, hsame⟩ := LevelQueue.views_remove hpool hlv.queue
  obtain ⟨hnext, hprev, hord⟩ := FreeList.views_dealloc (hsame.inPool.2 (hpool i (by simp)))
  have hne : ∀ j ∈ l₁ ++ l₂, j ≠ i := by
    rintro j hj rfl
    have hnd := hlv.links.nodup
    rw [List.nodup_middle, List.nodup_cons] at hnd
    exact hnd.1 hj
  rw [arena_unlinked]
  apply (Level.remove hpool hlv).frame <;> intro j hj
  · rw [hnext, Function.update_of_ne (hne j hj)]
  · rw [hprev]
  · rw [hord]

omit hl in
theorem mem_removed {j : UInt32} {s' : Side} {p' : Int64} :
    j ∈ setQueue queue s p (l₁ ++ l₂) s' p' ↔ j ≠ i ∧ j ∈ queue s' p' := by
  have hiq : i ∈ queue s p := by simp [hq]
  have hnd : i ∉ l₁ ++ l₂ := by
    have := h.queue_nodup s p
    rw [hq, List.nodup_middle, List.nodup_cons] at this
    exact this.1
  by_cases hsp : s' = s ∧ p' = p
  · obtain ⟨rfl, rfl⟩ := hsp
    rw [setQueue_self, hq]
    simp only [List.mem_append, List.mem_cons] at hnd ⊢
    constructor
    · intro hj
      exact ⟨fun e => hnd (e ▸ hj), by tauto⟩
    · tauto
  · rw [setQueue_of_ne hsp]
    exact ⟨fun hj => ⟨h.notMem_other hiq hsp hj, hj⟩, fun hj => hj.2⟩

theorem slots_unlinked (id : UInt64) (j : UInt32) :
    j.toNat < (unlinked b s p lv i id).arena.capacity.toNat ↔
      j ∈ i :: free ∨ ∃ s' p', j ∈ setQueue queue s p (l₁ ++ l₂) s' p' := by
  have hiq : i ∈ queue s p := by simp [hq]
  have hcap : (unlinked b s p lv i id).arena.capacity = b.arena.capacity := by
    rw [arena_unlinked]
    exact (LevelQueue.views_remove (inPool_level h hq) (level_eq h hq hl).queue).2.2.capacity
  rw [hcap, h.slots j]
  simp only [mem_removed h hq, List.mem_cons]
  constructor
  · rintro (hj | ⟨s', p', hj⟩)
    · exact Or.inl (Or.inr hj)
    · by_cases hji : j = i
      · exact Or.inl (Or.inl hji)
      · exact Or.inr ⟨s', p', hji, hj⟩
  · rintro ((rfl | hj) | ⟨s', p', -, hj⟩)
    · exact Or.inr ⟨s, p, hiq⟩
    · exact Or.inl hj
    · exact Or.inr ⟨s', p', hj⟩

theorem index_unlinked (id : UInt64) (j : UInt32) :
    (unlinked b s p lv i (b.arena.orderOf i).id).orderIndex.lookup id = some j ↔
      (∃ s' p', j ∈ setQueue queue s p (l₁ ++ l₂) s' p') ∧
        ((unlinked b s p lv i (b.arena.orderOf i).id).arena.orderOf j).id = id := by
  have hiq : i ∈ queue s p := by simp [hq]
  rw [orderIndex_unlinked, (views_unlinked h hq hl _).1]
  simp only [mem_removed h hq]
  by_cases hid : id = (b.arena.orderOf i).id
  · subst hid
    rw [AList.lookup_erase]
    refine iff_of_false (by simp) ?_
    rintro ⟨⟨s', p', hji, hj⟩, he⟩
    exact hji (h.id_injective hj hiq he)
  · rw [AList.lookup_erase_ne hid, h.index id j]
    constructor
    · rintro ⟨⟨s', p', hj⟩, he⟩
      exact ⟨⟨s', p', fun e => hid (e ▸ he.symm), hj⟩, he⟩
    · rintro ⟨⟨s', p', -, hj⟩, he⟩
      exact ⟨⟨s', p', hj⟩, he⟩

theorem orderCount_unlinked : (unlinked b s p lv i (b.arena.orderOf i).id).orderCount =
    (unlinked b s p lv i (b.arena.orderOf i).id).arena.count.toNat := by
  have hiq : i ∈ queue s p := by simp [hq]
  have hlook := (h.index _ i).2 ⟨⟨s, p, hiq⟩, rfl⟩
  have hkey : (b.arena.orderOf i).id ∈ b.orderIndex.keys := by
    rw [← AList.mem_keys, ← AList.lookup_isSome, hlook]
    rfl
  have hsame := (LevelQueue.views_remove (inPool_level h hq) (level_eq h hq hl).queue).2.2
  have hle : (1 : UInt32) ≤ b.arena.count := by
    rw [UInt32.le_iff_toNat_le, UInt32.toNat_one]
    exact h.count_pos hiq
  rw [orderCount, orderIndex_unlinked, arena_unlinked, AList.keys_erase,
    List.length_erase_of_mem hkey]
  show b.orderCount - 1 = ((b.arena.remove lv i).1.count - 1).toNat
  rw [hsame.count, UInt32.toNat_sub_of_le _ _ hle, UInt32.toNat_one, h.indexCount]

/-- **Removing an order** from any position of its level puts its slot at the front of the free
list. -/
theorem rep_unlinked : Rep (unlinked b s p lv i (b.arena.orderOf i).id) (i :: free)
    (setQueue queue s p (l₁ ++ l₂)) := by
  obtain ⟨hord, hlinks⟩ := views_unlinked h hq hl (b.arena.orderOf i).id
  have hlevel := level_unlinked h hq hl (b.arena.orderOf i).id
  exact {
    freeList := freeList_unlinked h hq hl
    level := by
      intro s' p' lv' hl'
      rw [get?_unlinked] at hl'
      split_ifs at hl' with hsp hc
      · obtain ⟨rfl, rfl⟩ := hsp
        rw [setQueue_self, ← Option.some.inj hl']
        exact hlevel
      · rw [setQueue_of_ne hsp]
        have hother : ∀ j ∈ queue s' p', j ≠ arenaNull ∧ j ∉ queue s p := fun j hj =>
          ⟨h.freeList.ne_null_of_inPool (h.inPool_queue hj), fun hj' => hsp (h.queue_unique hj' hj)⟩
        refine (h.level s' p' lv' hl').frame ?_ ?_ ?_ <;> intro j hj
        · exact (hlinks j (hother j hj).1 (hother j hj).2).1
        · exact (hlinks j (hother j hj).1 (hother j hj).2).2
        · rw [hord]
    nonempty := by
      intro s' p'
      rw [get?_unlinked]
      split_ifs with hsp hc
      · obtain ⟨rfl, rfl⟩ := hsp
        rw [setQueue_self]
        exact iff_of_true (hlevel.count_eq_zero.1 hc) rfl
      · obtain ⟨rfl, rfl⟩ := hsp
        rw [setQueue_self]
        exact iff_of_false (fun e => hc (hlevel.count_eq_zero.2 e)) (by simp)
      · rw [setQueue_of_ne hsp]
        exact h.nonempty s' p'
    node := by
      intro s' p' j hj
      rw [hord]
      exact h.node s' p' j ((mem_removed h hq).1 hj).2
    slots := slots_unlinked h hq hl _
    disjoint := by
      intro j hj s' p' hjq
      obtain ⟨hji, hjq⟩ := (mem_removed h hq).1 hjq
      rcases List.mem_cons.1 hj with rfl | hj
      · exact hji rfl
      · exact h.disjoint j hj s' p' hjq
    index := index_unlinked h hq hl
    indexCount := orderCount_unlinked h hq hl
    best := by
      intro s'
      unfold unlinked
      split_ifs
      · exact best_removeLevel (best_withLevel h.best hl _) s'
      · exact best_withLevel h.best hl _ s' }

end Unlinked

/-! ## Filling the front of a level -/

/-- The book after `fillQty` was taken off the order in slot `i`, the front of the level `lv`. -/
def filled (b : OrderBook) (s : Side) (p : Int64) (lv : PriceLevel) (i : UInt32)
    (fillQty : UInt64) : OrderBook :=
  b.withLevel s p { lv with qty := lv.qty - fillQty }
    (b.arena.set i { b.arena.get i with quantity := (b.arena.get i).quantity - fillQty })
    b.orderIndex

section Filled

variable {b : OrderBook} {free l : List UInt32} {queue : Side → Int64 → List UInt32}
variable {s : Side} {p : Int64} {lv : PriceLevel} {i : UInt32}

theorem views_filled (s : Side) (p : Int64) (lv : PriceLevel) (fillQty : UInt64)
    (hi : b.arena.InPool i) :
    (filled b s p lv i fillQty).arena.nextOf = b.arena.nextOf ∧
      (filled b s p lv i fillQty).arena.prevOf = b.arena.prevOf ∧
      (filled b s p lv i fillQty).arena.orderOf = Function.update b.arena.orderOf i
        { b.arena.orderOf i with quantity := (b.arena.orderOf i).quantity - fillQty } := by
  refine ⟨?_, ?_, ?_⟩
  · exact (Arena.nextOf_set hi _).trans (Function.update_eq_self i b.arena.nextOf)
  · exact (Arena.prevOf_set hi _).trans (Function.update_eq_self i b.arena.prevOf)
  · exact Arena.orderOf_set hi _

theorem level_filled (fillQty : UInt64) (h : Rep b free queue) (hq : queue s p = i :: l)
    (hl : (b.levels s).get? p = some lv) :
    Level (filled b s p lv i fillQty).arena { lv with qty := lv.qty - fillQty } (queue s p) := by
  have hlv := h.level s p lv hl
  have hnot : i ∉ l := (List.nodup_cons.1 (hq ▸ h.queue_nodup s p)).1
  obtain ⟨hnext, hprev, hord⟩ := views_filled s p lv fillQty
    (h.inPool_queue (hq ▸ List.mem_cons_self))
  refine ⟨by rw [hnext, hprev]; exact hlv.links, hlv.count, ?_⟩
  have hrest : l.map (fun j => ((filled b s p lv i fillQty).arena.orderOf j).quantity) =
      l.map fun j => (b.arena.orderOf j).quantity :=
    List.map_congr_left fun j hj => by
      rw [hord, Function.update_of_ne (ne_of_mem_of_not_mem hj hnot)]
  have hqty := hlv.qty
  rw [hq, List.map_cons, List.sum_cons] at hqty
  rw [hq, List.map_cons, List.sum_cons, hrest, hord, Function.update_self]
  simp only [hqty]
  grind

/-- **A partial fill** changes one quantity and the total of its level, and nothing else. -/
theorem rep_filled (fillQty : UInt64) (h : Rep b free queue) (hq : queue s p = i :: l)
    (hl : (b.levels s).get? p = some lv) : Rep (filled b s p lv i fillQty) free queue := by
  have hiq : i ∈ queue s p := by simp [hq]
  have hi := h.inPool_queue hiq
  obtain ⟨hnext, hprev, hord⟩ := views_filled s p lv fillQty hi
  have hsame : ∀ j, j ≠ i → (filled b s p lv i fillQty).arena.orderOf j = b.arena.orderOf j := by
    intro j hj
    rw [hord, Function.update_of_ne hj]
  have hid : ∀ j, ((filled b s p lv i fillQty).arena.orderOf j).id = (b.arena.orderOf j).id := by
    intro j
    by_cases hj : j = i
    · rw [hj, hord, Function.update_self]
    · rw [hsame j hj]
  exact {
    freeList := by
      refine ⟨?_, ?_, h.freeList.count⟩
      · rw [hnext]
        exact h.freeList.chain
      · exact (Arena.length_set _).trans h.freeList.size
    level := by
      intro s' p' lv' hl'
      rw [filled, get?_withLevel] at hl'
      split_ifs at hl' with hsp
      · obtain ⟨rfl, rfl⟩ := hsp
        rw [← Option.some.inj hl']
        exact level_filled fillQty h hq hl
      · refine (h.level s' p' lv' hl').frame ?_ ?_ ?_ <;> intro j hj
        · rw [hnext]
        · rw [hprev]
        · exact hsame j (h.notMem_other hiq hsp hj)
    nonempty := by
      intro s' p'
      rw [filled, get?_withLevel]
      split_ifs with hsp
      · obtain ⟨rfl, rfl⟩ := hsp
        simp [hq]
      · exact h.nonempty s' p'
    node := by
      intro s' p' j hj
      by_cases hji : j = i
      · subst hji
        rw [hord, Function.update_self]
        exact h.node s' p' j hj
      · rw [hsame j hji]
        exact h.node s' p' j hj
    slots := h.slots
    disjoint := h.disjoint
    index := by
      intro id j
      rw [hid]
      exact h.index id j
    indexCount := h.indexCount
    best := best_withLevel h.best hl _ }

end Filled

end OrderBook

end Ferrox
