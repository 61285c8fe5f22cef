import Ferrox.Book

/-!
# The matching engine

The engine of `src/matching.rs`: an incoming order (the *taker*) trades against the best resting
orders of the opposite side (the *makers*) for as long as prices cross, and what is left of it
rests in the book.

The two `while` loops of `add_order` are `matchBid` and `matchAsk`, kept apart as in the source.
They take the number of iterations they may make: one more than the number of resting orders is
always enough, since an iteration that does not exhaust the taker removes a maker
(`Ferrox.MatchingProof` proves that any larger number gives the same result). A `?` inside a loop
is the field `error`.
-/

namespace Ferrox

structure Fill where
  takerOrderId : UInt64
  makerOrderId : UInt64
  price : Int64
  quantity : UInt64
  makerFullyFilled : Bool
  deriving DecidableEq, Repr

inductive OrderStatus where
  | fullyFilled
  | partiallyFilled
  | resting
  | cancelledSelfTrade
  deriving DecidableEq, Repr

structure AddOrderResult where
  orderId : UInt64
  status : OrderStatus
  fills : List Fill
  deriving DecidableEq, Repr

inductive MatchingError where
  | book (e : BookError)
  | zeroQuantity
  deriving DecidableEq, Repr

structure MatchingEngine where
  book : OrderBook
  fillsBuf : List Fill

/-- What the matching loop carries: the book, the fills so far, the taker's remaining quantity,
and how the loop was left. -/
structure Matched where
  book : OrderBook
  fills : List Fill
  quantity : UInt64
  selfTrade : Bool
  error : Option BookError

namespace MatchingEngine

def withCapacity (arenaCapacity : UInt32) : MatchingEngine where
  book := OrderBook.withCapacity arenaCapacity
  fillsBuf := []

/-- The matching loop of a bid, against the asks. -/
def matchBid (order : Order) : Nat → Matched → Matched
  | 0, m => m
  | fuel + 1, m =>
      if m.quantity = 0 then m
      else
        match m.book.bestAsk with
        | none => m
        | some bestAsk =>
            if bestAsk ≤ order.price then
              match m.book.peekFront .ask bestAsk with
              | none => m
              | some maker =>
                  if maker.traderId = order.traderId then { m with selfTrade := true }
                  else
                    let fillQty := min m.quantity maker.quantity
                    match m.book.reduceFrontQuantity .ask bestAsk fillQty with
                    | (book, .error e) => { m with book, error := some e }
                    | (book, .ok makerRemaining) =>
                        matchBid order fuel { m with
                          book
                          fills := m.fills ++ [{
                            takerOrderId := order.id
                            makerOrderId := maker.id
                            price := maker.price
                            quantity := fillQty
                            makerFullyFilled := makerRemaining = 0 }]
                          quantity := m.quantity - fillQty }
            else m

/-- The matching loop of an ask, against the bids. -/
def matchAsk (order : Order) : Nat → Matched → Matched
  | 0, m => m
  | fuel + 1, m =>
      if m.quantity = 0 then m
      else
        match m.book.bestBid with
        | none => m
        | some bestBid =>
            if bestBid ≥ order.price then
              match m.book.peekFront .bid bestBid with
              | none => m
              | some maker =>
                  if maker.traderId = order.traderId then { m with selfTrade := true }
                  else
                    let fillQty := min m.quantity maker.quantity
                    match m.book.reduceFrontQuantity .bid bestBid fillQty with
                    | (book, .error e) => { m with book, error := some e }
                    | (book, .ok makerRemaining) =>
                        matchAsk order fuel { m with
                          book
                          fills := m.fills ++ [{
                            takerOrderId := order.id
                            makerOrderId := maker.id
                            price := maker.price
                            quantity := fillQty
                            makerFullyFilled := makerRemaining = 0 }]
                          quantity := m.quantity - fillQty }
            else m

/-- The loop of the taker's own side. -/
def matchLoop (order : Order) (fuel : Nat) (m : Matched) : Matched :=
  match order.side with
  | .bid => matchBid order fuel m
  | .ask => matchAsk order fuel m

def addOrder (e : MatchingEngine) (order : Order) :
    MatchingEngine × Except MatchingError AddOrderResult :=
  if order.quantity = 0 then (e, .error .zeroQuantity)
  else
    let m := matchLoop order (e.book.orderCount + 1)
      { book := e.book, fills := [], quantity := order.quantity, selfTrade := false, error := none }
    match m.error with
    | some err => (⟨m.book, m.fills⟩, .error (.book err))
    | none =>
        if m.selfTrade then
          (⟨m.book, m.fills⟩,
            .ok { orderId := order.id, status := .cancelledSelfTrade, fills := m.fills })
        else if m.quantity = 0 then
          (⟨m.book, m.fills⟩, .ok { orderId := order.id, status := .fullyFilled, fills := m.fills })
        else
          match m.book.insertOrder { order with quantity := m.quantity } with
          | (book, .error err) => (⟨book, m.fills⟩, .error (.book err))
          | (book, .ok ()) =>
              let status := if m.fills = [] then .resting else .partiallyFilled
              (⟨book, m.fills⟩, .ok { orderId := order.id, status, fills := m.fills })

def cancelOrder (e : MatchingEngine) (orderId : UInt64) :
    MatchingEngine × Except MatchingError Order :=
  match e.book.cancelOrder orderId with
  | (book, .error err) => ({ e with book }, .error (.book err))
  | (book, .ok order) => ({ e with book }, .ok order)

/-- Insert orders one after the other, stopping at the first error. -/
def insertAll : List Order → OrderBook → Except BookError OrderBook
  | [], b => .ok b
  | order :: orders, b =>
      match b.insertOrder order with
      | (_, .error e) => .error e
      | (b, .ok ()) => insertAll orders b

/-- Inserts directly into the book without matching (non-crossed snapshot state). -/
def restoreFromOrders (orders : List Order) (arenaCapacity : UInt32) :
    Except MatchingError MatchingEngine :=
  match insertAll orders (OrderBook.withCapacity arenaCapacity) with
  | .error e => .error (.book e)
  | .ok book => .ok ⟨book, []⟩

end MatchingEngine

end Ferrox
