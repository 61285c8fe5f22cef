import Ferrox.Recovery
import Ferrox.MatchingProof

/-!
# Builds with overflow checks

The counters of the arena and of the levels are updated with `+=` and `-=`. A release build lets them
wrap, as the functions of `Ferrox.Arena` do; a build with overflow checks panics at the first update
that leaves the type, and otherwise computes the same.

Here `none` is that panic. Every operation is the one it is named after, with its updates checked
first.
-/

namespace Ferrox

/-- `count += 1`. -/
def CanIncrement (count : UInt32) : Prop := count.toNat + 1 < 2 ^ 32

/-- `count -= 1`. -/
def CanDecrement (count : UInt32) : Prop := 1 ≤ count

/-- `qty += quantity`. -/
def CanAdd (qty quantity : UInt64) : Prop := qty.toNat + quantity.toNat < 2 ^ 64

/-- `qty -= quantity`. -/
def CanSub (qty quantity : UInt64) : Prop := quantity ≤ qty

instance (count : UInt32) : Decidable (CanIncrement count) := inferInstanceAs (Decidable (_ < _))
instance (count : UInt32) : Decidable (CanDecrement count) := inferInstanceAs (Decidable (_ ≤ _))
instance (qty quantity : UInt64) : Decidable (CanAdd qty quantity) :=
  inferInstanceAs (Decidable (_ < _))
instance (qty quantity : UInt64) : Decidable (CanSub qty quantity) :=
  inferInstanceAs (Decidable (_ ≤ _))

namespace Arena

def allocChecked (a : Arena) (order : Order) : Option (Arena × Except ArenaError UInt32) :=
  if a.freeHead = arenaNull then some (a, .error .full)
  else if CanIncrement a.count then some (a.alloc order) else none

def deallocChecked (a : Arena) (index : UInt32) : Option Arena :=
  if CanDecrement a.count then some (a.dealloc index) else none

def pushBackChecked (a : Arena) (level : PriceLevel) (index : UInt32) :
    Option (Arena × PriceLevel) :=
  if CanIncrement level.count ∧ CanAdd level.qty (a.get index).quantity then
    some (a.pushBack level index)
  else none

def popFrontChecked (a : Arena) (level : PriceLevel) :
    Option (Arena × PriceLevel × Option UInt32) :=
  if level.head = arenaNull then some (a, level, none)
  else if CanDecrement level.count ∧ CanSub level.qty (a.get level.head).quantity then
    some (a.popFront level)
  else none

def removeChecked (a : Arena) (level : PriceLevel) (index : UInt32) :
    Option (Arena × PriceLevel) :=
  if CanDecrement level.count ∧ CanSub level.qty (a.get index).quantity then
    some (a.remove level index)
  else none

end Arena

namespace OrderBook

def insertOrderChecked (b : OrderBook) (order : Order) :
    Option (OrderBook × Except BookError Unit) :=
  if order.id ∈ b.orderIndex then some (b, .error (.duplicateOrderId order.id))
  else do
    let (arena, result) ← b.arena.allocChecked order
    match result with
    | .error e => some ({ b with arena }, .error (.ofArena e))
    | .ok index =>
        let level := ((b.levels order.side).get? order.price).getD PriceLevel.new
        let (arena, level) ← arena.pushBackChecked level index
        let b := b.setLevels order.side ((b.levels order.side).insert order.price level)
        let b := { b with arena, orderIndex := b.orderIndex.insert order.id index }
        some (b.updateBestAfterInsert order.side order.price, .ok ())

def cancelOrderChecked (b : OrderBook) (orderId : UInt64) :
    Option (OrderBook × Except BookError Order) :=
  match b.orderIndex.lookup orderId with
  | none => some (b, .error (.orderNotFound orderId))
  | some index =>
      let b := { b with orderIndex := b.orderIndex.erase orderId }
      let order := (b.arena.get index).toOrder
      match (b.levels order.side).get? order.price with
      | none => some (b, .error (.priceLevelNotFound order.price))
      | some level => do
          let (arena, level) ← b.arena.removeChecked level index
          let arena ← arena.deallocChecked index
          let b := { b.setLevels order.side ((b.levels order.side).insert order.price level) with
            arena }
          let b := if level.count = 0 then b.removeLevel order.side order.price else b
          some (b, .ok order)

def reduceFrontQuantityChecked (b : OrderBook) (side : Side) (price : Int64) (fillQty : UInt64) :
    Option (OrderBook × Except BookError UInt64) :=
  match (b.levels side).get? price with
  | none => some (b, .error (.priceLevelNotFound price))
  | some level =>
      if level.head = arenaNull then some (b, .error (.priceLevelNotFound price))
      else
        let headIdx := level.head
        let front := b.arena.get headIdx
        if front.quantity < fillQty then
          some (b, .error (.fillExceedsQuantity front.quantity fillQty))
        else if CanSub level.qty fillQty then
          let remaining := front.quantity - fillQty
          let arena := b.arena.set headIdx { front with quantity := remaining }
          let level := { level with qty := level.qty - fillQty }
          if remaining = 0 then do
            let removedId := (arena.get headIdx).id
            let (arena, level, _) ← arena.popFrontChecked level
            let arena ← arena.deallocChecked headIdx
            let b := { b.setLevels side ((b.levels side).insert price level) with
              arena, orderIndex := b.orderIndex.erase removedId }
            let b := if level.count = 0 then b.removeLevel side price else b
            some (b, .ok 0)
          else
            some ({ b.setLevels side ((b.levels side).insert price level) with arena },
              .ok remaining)
        else none

end OrderBook

namespace MatchingEngine

/-- The matching loop against the makers on side `s`. -/
def matchSideChecked (order : Order) (s : Side) : Nat → Matched → Option Matched
  | 0, m => some m
  | fuel + 1, m =>
      if m.quantity = 0 then some m
      else
        match m.book.bestPrice s with
        | none => some m
        | some best =>
            if Book.crosses order best then
              match m.book.peekFront s best with
              | none => some m
              | some maker =>
                  if maker.traderId = order.traderId then some { m with selfTrade := true }
                  else
                    let fillQty := min m.quantity maker.quantity
                    match m.book.reduceFrontQuantityChecked s best fillQty with
                    | none => none
                    | some (book, .error e) => some { m with book, error := some e }
                    | some (book, .ok makerRemaining) =>
                        matchSideChecked order s fuel { m with
                          book
                          fills := m.fills ++ [{
                            takerOrderId := order.id
                            makerOrderId := maker.id
                            price := maker.price
                            quantity := fillQty
                            makerFullyFilled := makerRemaining = 0 }]
                          quantity := m.quantity - fillQty }
            else some m

def addOrderChecked (e : MatchingEngine) (order : Order) :
    Option (MatchingEngine × Except MatchingError AddOrderResult) :=
  if order.quantity = 0 then some (e, .error .zeroQuantity)
  else do
    let m ← matchSideChecked order order.side.opposite (e.book.orderCount + 1)
      { book := e.book, fills := [], quantity := order.quantity, selfTrade := false, error := none }
    match m.error with
    | some err => some (⟨m.book, m.fills⟩, .error (.book err))
    | none =>
        if m.selfTrade then
          some (⟨m.book, m.fills⟩,
            .ok { orderId := order.id, status := .cancelledSelfTrade, fills := m.fills })
        else if m.quantity = 0 then
          some (⟨m.book, m.fills⟩,
            .ok { orderId := order.id, status := .fullyFilled, fills := m.fills })
        else do
          let (book, result) ← m.book.insertOrderChecked { order with quantity := m.quantity }
          match result with
          | .error err => some (⟨book, m.fills⟩, .error (.book err))
          | .ok () =>
              let status := if m.fills = [] then .resting else .partiallyFilled
              some (⟨book, m.fills⟩, .ok { orderId := order.id, status, fills := m.fills })

def cancelOrderChecked (e : MatchingEngine) (orderId : UInt64) :
    Option (MatchingEngine × Except MatchingError Order) :=
  match e.book.cancelOrderChecked orderId with
  | none => none
  | some (book, .error err) => some ({ e with book }, .error (.book err))
  | some (book, .ok order) => some ({ e with book }, .ok order)

def applyCommandChecked (e : MatchingEngine) : EngineCommand → Option MatchingEngine
  | .newOrder order => (e.addOrderChecked order).map Prod.fst
  | .cancelOrder orderId => (e.cancelOrderChecked orderId).map Prod.fst

/-- A run of commands, live or in a replay. -/
def applyAllChecked (e : MatchingEngine) (cmds : List EngineCommand) : Option MatchingEngine :=
  cmds.foldlM applyCommandChecked e

end MatchingEngine

end Ferrox
