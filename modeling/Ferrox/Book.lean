import Ferrox.Arena
import Ferrox.Lib.OrdMap
import Mathlib.Data.List.AList

/-!
# The order book

The limit order book of `src/book.rs`: one ordered map from price to queue for each side, the best
price of each side cached, an index from order id to arena slot, and the arena the orders live in.

`BTreeMap` is `OrdMap`. `HashMap<u64, u32>` is an association list with distinct keys: the code
only looks ids up, inserts, removes and counts them. An operation returns the book it leaves
behind together with its result, because a Rust method that returns `Err` keeps every mutation it
made before.
-/

namespace Ferrox

inductive BookError where
  | duplicateOrderId (id : UInt64)
  | orderNotFound (id : UInt64)
  | priceLevelNotFound (price : Int64)
  | fillExceedsQuantity (available requested : UInt64)
  | arenaFull
  deriving DecidableEq, Repr

/-- `impl From<ArenaError> for BookError`. -/
def BookError.ofArena : ArenaError → BookError
  | .full => .arenaFull

structure OrderBook where
  bids : OrdMap Int64 PriceLevel
  asks : OrdMap Int64 PriceLevel
  bestBid : Option Int64
  bestAsk : Option Int64
  orderIndex : AList fun _ : UInt64 => UInt32
  arena : Arena

namespace OrderBook

def withCapacity (arenaCapacity : UInt32) : OrderBook where
  bids := OrdMap.empty
  asks := OrdMap.empty
  bestBid := none
  bestAsk := none
  orderIndex := ∅
  arena := Arena.new arenaCapacity

/-- `self.order_index.len()`. -/
def orderCount (b : OrderBook) : Nat := b.orderIndex.keys.length

/-- The levels of a side. -/
def levels (b : OrderBook) : Side → OrdMap Int64 PriceLevel
  | .bid => b.bids
  | .ask => b.asks

/-- Write the levels of a side back. -/
def setLevels (b : OrderBook) (side : Side) (m : OrdMap Int64 PriceLevel) : OrderBook :=
  match side with
  | .bid => { b with bids := m }
  | .ask => { b with asks := m }

def updateBestAfterInsert (b : OrderBook) (side : Side) (price : Int64) : OrderBook :=
  match side with
  | .bid => { b with bestBid := some (b.bestBid.elim price fun best => max best price) }
  | .ask => { b with bestAsk := some (b.bestAsk.elim price fun best => min best price) }

def insertOrder (b : OrderBook) (order : Order) : OrderBook × Except BookError Unit :=
  if order.id ∈ b.orderIndex then (b, .error (.duplicateOrderId order.id))
  else
    match b.arena.alloc order with
    | (arena, .error e) => ({ b with arena }, .error (.ofArena e))
    | (arena, .ok index) =>
        let level := ((b.levels order.side).get? order.price).getD PriceLevel.new
        let (arena, level) := arena.pushBack level index
        let b := b.setLevels order.side ((b.levels order.side).insert order.price level)
        let b := { b with arena, orderIndex := b.orderIndex.insert order.id index }
        (b.updateBestAfterInsert order.side order.price, .ok ())

/-- Drop an emptied level and read the side's best price off the remaining ones. -/
def removeLevel (b : OrderBook) (side : Side) (price : Int64) : OrderBook :=
  match side with
  | .bid =>
      let bids := b.bids.erase price
      { b with bids, bestBid := bids.maxKey? }
  | .ask =>
      let asks := b.asks.erase price
      { b with asks, bestAsk := asks.minKey? }

def cancelOrder (b : OrderBook) (orderId : UInt64) : OrderBook × Except BookError Order :=
  match b.orderIndex.lookup orderId with
  | none => (b, .error (.orderNotFound orderId))
  | some index =>
      -- the index entry goes before the level is looked up
      let b := { b with orderIndex := b.orderIndex.erase orderId }
      let order := (b.arena.get index).toOrder
      match (b.levels order.side).get? order.price with
      | none => (b, .error (.priceLevelNotFound order.price))
      | some level =>
          let (arena, level) := b.arena.remove level index
          let arena := arena.dealloc index
          let b := { b.setLevels order.side ((b.levels order.side).insert order.price level) with
            arena }
          let b := if level.count = 0 then b.removeLevel order.side order.price else b
          (b, .ok order)

def peekFront (b : OrderBook) (side : Side) (price : Int64) : Option OrderNode :=
  match (b.levels side).get? price with
  | none => none
  | some level => if level.head = arenaNull then none else some (b.arena.get level.head)

def reduceFrontQuantity (b : OrderBook) (side : Side) (price : Int64) (fillQty : UInt64) :
    OrderBook × Except BookError UInt64 :=
  match (b.levels side).get? price with
  | none => (b, .error (.priceLevelNotFound price))
  | some level =>
      if level.head = arenaNull then (b, .error (.priceLevelNotFound price))
      else
        let headIdx := level.head
        let front := b.arena.get headIdx
        if front.quantity < fillQty then
          (b, .error (.fillExceedsQuantity front.quantity fillQty))
        else
          let remaining := front.quantity - fillQty
          let arena := b.arena.set headIdx { front with quantity := remaining }
          let level := { level with qty := level.qty - fillQty }
          if remaining = 0 then
            let removedId := (arena.get headIdx).id
            let (arena, level, _) := arena.popFront level
            let arena := arena.dealloc headIdx
            let b := { b.setLevels side ((b.levels side).insert price level) with
              arena, orderIndex := b.orderIndex.erase removedId }
            let b := if level.count = 0 then b.removeLevel side price else b
            (b, .ok 0)
          else
            ({ b.setLevels side ((b.levels side).insert price level) with arena }, .ok remaining)

/-- The orders met by `while idx != ARENA_NULL { ..; idx = node.next; }`. The loop is cut off after
`fuel` nodes, which a list of distinct slots of the pool never reaches. -/
def walk (a : Arena) : Nat → UInt32 → List Order
  | 0, _ => []
  | fuel + 1, idx =>
      if idx = arenaNull then []
      else (a.get idx).toOrder :: walk a fuel (a.get idx).next

/-- The orders of a level, oldest first. -/
def levelOrders (b : OrderBook) (level : PriceLevel) : List Order :=
  walk b.arena b.arena.storage.length level.head

/-- Asks ascending price, then bids descending price; FIFO within each level. -/
def allRestingOrders (b : OrderBook) : List Order :=
  b.asks.values.flatMap b.levelOrders ++ b.bids.values.reverse.flatMap b.levelOrders

end OrderBook

end Ferrox
