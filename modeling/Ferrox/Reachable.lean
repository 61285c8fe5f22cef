import Ferrox.MatchingProof

/-!
# The representation invariant of every reachable engine

`Reachable c e`: the engine `e` of capacity `c` arises from an empty one by adding and cancelling
orders, successfully or not, and by restoring the captured orders of a reachable engine.

`Invariant c b free queue` spells out, on the words of the source, what is true of such a book: how
the free list, the level lists, the id index, the cached best prices and the counters fit together.
Every operation computes the price-time book, so all that is left to prove here is that quantities
stay positive, and that `OrderBook.Rep` gives `Invariant`.
-/

namespace Ferrox

open Linked

/-- The engines that adding, cancelling and restoring lead to. -/
inductive Reachable : UInt32 → MatchingEngine → Prop
  | init (c : UInt32) : Reachable c (MatchingEngine.withCapacity c)
  | add {c : UInt32} {e : MatchingEngine} (h : Reachable c e) (order : Order) :
      Reachable c (e.addOrder order).1
  | cancel {c : UInt32} {e : MatchingEngine} (h : Reachable c e) (orderId : UInt64) :
      Reachable c (e.cancelOrder orderId).1
  | restore {c c' : UInt32} {e e' : MatchingEngine} (h : Reachable c e)
      (hr : MatchingEngine.restoreFromOrders e.book.allRestingOrders c' = .ok e') :
      Reachable c' e'

/-- **What a reachable engine carries**: a represented book of its capacity, all of whose orders
have something left to trade. -/
structure Sound (c : UInt32) (e : MatchingEngine) : Prop where
  wf : e.book.WF
  capacity : e.book.toBook.capacity = c.toNat
  positive : e.book.toBook.Positive

theorem Sound.restore {c c' : UInt32} {e e' : MatchingEngine} (h : Sound c e)
    (hr : MatchingEngine.restoreFromOrders e.book.allRestingOrders c' = .ok e') : Sound c' e' := by
  obtain ⟨hwf, hbook⟩ := (MatchingEngine.restoreFromOrders_sim _ c').2 e' hr
  obtain ⟨hcap, hperm⟩ := Book.insertAll_ok hbook
  refine ⟨hwf, hcap, ?_⟩
  intro x hx
  have hx' := hperm.mem_iff.1 hx
  rw [show (Book.empty c'.toNat).orders = [] from rfl, List.append_nil] at hx'
  exact h.positive x hx'

theorem Reachable.sound {c : UInt32} {e : MatchingEngine} (h : Reachable c e) : Sound c e := by
  induction h with
  | init c =>
    obtain ⟨hwf, hbook⟩ := MatchingEngine.withCapacity_sim c
    refine ⟨hwf, ?_, ?_⟩
    · rw [hbook]
      rfl
    · rw [hbook]
      exact Book.positive_empty _
  | add h order ih =>
    obtain ⟨hwf, hbook, -⟩ := MatchingEngine.addOrder_sim ih.wf order
    refine ⟨hwf, ?_, ?_⟩
    · rw [hbook, Book.capacity_add]
      exact ih.capacity
    · rw [hbook]
      exact Book.positive_add ih.positive order
  | cancel h orderId ih =>
    obtain ⟨hwf, hbook, -⟩ := MatchingEngine.cancelOrder_sim ih.wf orderId
    refine ⟨hwf, ?_, ?_⟩
    · rw [hbook, Book.capacity_cancel]
      exact ih.capacity
    · rw [hbook]
      exact Book.positive_cancel ih.positive orderId
  | restore h hr ih => exact ih.restore hr

/-- **The representation invariant of the order book**, with `free` the slots of the free list and
`queue s p` the slots of the level at price `p` of side `s`. -/
structure Invariant (c : UInt32) (b : OrderBook) (free : List UInt32)
    (queue : Side → Int64 → List UInt32) : Prop where
  /-- The free list is acyclic and holds the slots that are not in use. -/
  freeList : Chain (fun i => (b.arena.get i).next) arenaNull b.arena.freeHead free ∧
    free.Nodup ∧ b.arena.count.toNat ≤ c.toNat ∧ free.length = c.toNat - b.arena.count.toNat
  /-- Exactly the levels of the maps hold slots. -/
  nonempty : ∀ s p, queue s p ≠ [] ↔ p ∈ (b.levels s).keys
  /-- A level's links run through the same slots in opposite orders. -/
  links : ∀ s p lv, (b.levels s).get? p = some lv →
    Chain (fun i => (b.arena.get i).next) arenaNull lv.head (queue s p) ∧
      Chain (fun i => (b.arena.get i).prev) arenaNull lv.tail (queue s p).reverse ∧
      (queue s p).Nodup ∧ (queue s p).length = lv.count.toNat
  /-- A node stands at its own side and price and has something left to trade. -/
  node : ∀ s p, ∀ i ∈ queue s p, (b.arena.get i).side = s ∧ (b.arena.get i).price = p ∧
    0 < (b.arena.get i).quantity
  /-- The free list and the level lists partition the pool. -/
  slots : (free ++ b.asks.keys.flatMap (queue .ask) ++
      b.bids.keys.reverse.flatMap (queue .bid)).Nodup ∧
    ∀ i : UInt32, i ∈ free ++ b.asks.keys.flatMap (queue .ask) ++
      b.bids.keys.reverse.flatMap (queue .bid) ↔ i.toNat < c.toNat
  /-- The index maps the ids of the listed nodes to their slots. -/
  index : ∀ id i, b.orderIndex.lookup id = some i ↔
    (∃ s p, i ∈ queue s p) ∧ (b.arena.get i).id = id
  /-- No slot is indexed under two ids, and none is missing. -/
  indexCount : b.arena.count.toNat = b.orderCount ∧
    ∀ id id' i, b.orderIndex.lookup id = some i → b.orderIndex.lookup id' = some i → id = id'
  /-- The cached best prices are the ends of the maps. -/
  bestBid : ∀ p, b.bestBid = some p ↔ p ∈ b.bids.keys ∧ ∀ q ∈ b.bids.keys, q ≤ p
  bestAsk : ∀ p, b.bestAsk = some p ↔ p ∈ b.asks.keys ∧ ∀ q ∈ b.asks.keys, p ≤ q
  bestNone : (b.bestBid = none ↔ b.bids.keys = []) ∧ (b.bestAsk = none ↔ b.asks.keys = [])
  /-- A level's total wraps as the machine word it is. -/
  qty : ∀ s p lv, (b.levels s).get? p = some lv →
    lv.qty.toNat = ((queue s p).map fun i => (b.arena.get i).quantity.toNat).sum % 2 ^ 64
  /-- The traversal visits every listed slot once, best price first and oldest first. -/
  resting : b.allRestingOrders =
    (b.asks.keys.flatMap (queue .ask) ++ b.bids.keys.reverse.flatMap (queue .bid)).map
      fun i => (b.arena.get i).toOrder

theorem toNat_sum (l : List UInt64) : l.sum.toNat = (l.map UInt64.toNat).sum % 2 ^ 64 := by
  induction l with
  | nil => rfl
  | cons a l ih =>
    rw [List.sum_cons, UInt64.toNat_add, ih, List.map_cons, List.sum_cons]
    omega

theorem OrderBook.invariant_of_rep {c : UInt32} {b : OrderBook} {free : List UInt32}
    {queue : Side → Int64 → List UInt32} (h : Rep b free queue) (hc : b.toBook.capacity = c.toNat)
    (hpos : b.toBook.Positive) : Invariant c b free queue where
  freeList := by
    have h₁ := h.freeList.count
    have h₂ : b.arena.capacity.toNat = c.toNat := hc
    exact ⟨h.freeList.chain, h.freeList.chain.nodup, by omega, by omega⟩
  nonempty s p := by
    rw [ne_eq, h.nonempty, OrdMap.get?_eq_none_iff, not_not]
  links s p lv hl := by
    have hlv := h.level s p lv hl
    exact ⟨hlv.links.fwd, hlv.links.bwd, h.queue_nodup s p, hlv.count.symm⟩
  node s p i hi := by
    obtain ⟨hs, hp⟩ := h.node s p i hi
    refine ⟨hs, hp, UInt64.pos_iff_ne_zero.2 ?_⟩
    exact hpos (b.arena.orderOf i) ((mem_allRestingOrders h).2 ⟨s, p, i, hi, rfl⟩)
  slots := by
    have hmem : ∀ i, i ∈ free ++ (listed b queue .ask ++ listed b queue .bid) ↔
        i.toNat < c.toNat := by
      intro i
      rw [List.mem_append, mem_listed_append h, ← hc]
      exact (h.slots i).symm
    rw [List.append_assoc]
    refine ⟨List.nodup_append.2 ⟨h.freeList.chain.nodup, listed_append_nodup h, ?_⟩, hmem⟩
    intro i hi j hj e
    obtain ⟨s, p, hp⟩ := (mem_listed_append h).1 hj
    exact h.disjoint j (e ▸ hi) s p hp
  index := h.index
  indexCount := by
    refine ⟨h.indexCount.symm, ?_⟩
    intro id id' i hi hi'
    exact ((h.index id i).1 hi).2.symm.trans ((h.index id' i).1 hi').2
  bestBid p := by
    have hbest : b.bestBid = b.bids.maxKey? := h.best .bid
    rw [hbest, OrdMap.maxKey?_eq_some_iff]
  bestAsk p := by
    have hbest : b.bestAsk = b.asks.minKey? := h.best .ask
    rw [hbest, OrdMap.minKey?_eq_some_iff]
  bestNone := by
    have hbid : b.bestBid = b.bids.maxKey? := h.best .bid
    have hask : b.bestAsk = b.asks.minKey? := h.best .ask
    rw [hbid, hask, OrdMap.maxKey?_eq_none_iff, OrdMap.minKey?_eq_none_iff]
    exact ⟨Iff.rfl, Iff.rfl⟩
  qty s p lv hl := by
    rw [(h.level s p lv hl).qty, toNat_sum, List.map_map]
    rfl
  resting := allRestingOrders_eq_listed h

/-- **Every reachable book satisfies the representation invariant.** -/
theorem invariant_of_reachable {c : UInt32} {e : MatchingEngine} (h : Reachable c e) :
    ∃ free queue, Invariant c e.book free queue := by
  obtain ⟨free, queue, hrep⟩ := h.sound.wf
  exact ⟨free, queue, OrderBook.invariant_of_rep hrep h.sound.capacity h.sound.positive⟩

/-- A book in which an order was partly filled, a second one refused for its id and the first one
restored elsewhere. -/
theorem invariant_of_reachable_restored :
    ∃ e', MatchingEngine.restoreFromOrders
        ((((MatchingEngine.withCapacity 2).addOrder ⟨1, 10, .ask, 100, 5, 7⟩).1.addOrder
          ⟨2, 11, .bid, 100, 2, 8⟩).1.addOrder ⟨1, 12, .ask, 101, 1, 9⟩).1.book.allRestingOrders
        3 = .ok e' ∧ e'.book.allRestingOrders = [⟨1, 10, .ask, 100, 3, 7⟩] ∧
      ∃ free queue, Invariant 3 e'.book free queue := by
  refine ⟨_, rfl, by decide, ?_⟩
  exact invariant_of_reachable (.restore (.add (.add (.add (.init 2) ⟨1, 10, .ask, 100, 5, 7⟩)
    ⟨2, 11, .bid, 100, 2, 8⟩) ⟨1, 12, .ask, 101, 1, 9⟩) rfl)

end Ferrox
