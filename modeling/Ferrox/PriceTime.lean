import Ferrox.Matching
import Ferrox.Lib.Ranked

/-!
# The price-time book

What the engine is for, without its data structures. A book is, for each side, the list of its
resting orders in the order in which they would trade: best price first, and first come first
served within a price. Adding an order is one structural recursion along the opposite list
(`sweep`) followed by queueing the rest; cancelling is deleting from a list.

Nothing here knows of slots, links, cached prices or loops with early exits.
`Ferrox.MatchingProof` shows that the engine computes exactly these functions, results and
errors included, so every question about the engine's behaviour is one about this file.
-/

namespace Ferrox

open Ranked

/-- Resting orders of each side, in the order in which they trade, and the room there is. -/
structure Book where
  capacity : Nat
  side : Side → List Order

namespace Book

/-- Every resting order: asks from the lowest price, then bids from the highest. -/
def orders (B : Book) : List Order := B.side .ask ++ B.side .bid

def empty (capacity : Nat) : Book := ⟨capacity, fun _ => []⟩

/-- The best price of a side. -/
def best (B : Book) (s : Side) : Option Int64 := (B.side s).head?.map (·.price)

/-- Replace the orders of one side. -/
def setSide (B : Book) (s : Side) (l : List Order) : Book :=
  { B with side := Function.update B.side s l }

/-- Queue an order behind everything of its own price or better, if its id is new and there is
room. -/
def insert (B : Book) (o : Order) : Book × Except BookError Unit :=
  if o.id ∈ B.orders.map (·.id) then (B, .error (.duplicateOrderId o.id))
  else if B.capacity ≤ B.orders.length then (B, .error .arenaFull)
  else (B.setSide o.side (enqueue (o.side.rank ·.price) o (B.side o.side)), .ok ())

/-- Delete the order with the given id. -/
def cancel (B : Book) (id : UInt64) : Book × Except BookError Order :=
  match B.orders.find? (·.id = id) with
  | none => (B, .error (.orderNotFound id))
  | some o => (⟨B.capacity, fun s => (B.side s).filter (·.id ≠ id)⟩, .ok o)

/-! ## Matching -/

/-- The maker's price is within the taker's limit. -/
def crosses (taker : Order) (price : Int64) : Prop :=
  taker.side.opposite.rank price ≤ taker.side.opposite.rank taker.price

instance (taker : Order) (price : Int64) : Decidable (crosses taker price) :=
  inferInstanceAs (Decidable (_ ≤ _))

/-- The trade of `quantity` against a maker. -/
def fill (taker maker : Order) (quantity : UInt64) : Fill where
  takerOrderId := taker.id
  makerOrderId := maker.id
  price := maker.price
  quantity := quantity
  makerFullyFilled := maker.quantity - quantity = 0

/-- What is left of a side after a taker went along it. -/
structure Sweep where
  makers : List Order
  fills : List Fill
  left : UInt64
  selfTrade : Bool

/-- A taker with `q` left to trade goes along the makers until it is exhausted, meets a price
beyond its limit, or meets an order of its own trader. -/
def sweep (taker : Order) : List Order → UInt64 → Sweep
  | [], q => ⟨[], [], q, false⟩
  | m :: ms, q =>
      if q = 0 then ⟨m :: ms, [], q, false⟩
      else if ¬ crosses taker m.price then ⟨m :: ms, [], q, false⟩
      else if m.traderId = taker.traderId then ⟨m :: ms, [], q, true⟩
      else
        let f := min q m.quantity
        if m.quantity - f = 0 then
          let rest := sweep taker ms (q - f)
          { rest with fills := fill taker m f :: rest.fills }
        else
          ⟨{ m with quantity := m.quantity - f } :: ms, [fill taker m f], q - f, false⟩

/-- The way of a taker along the opposite side. -/
def swept (B : Book) (o : Order) : Sweep := sweep o (B.side o.side.opposite) o.quantity

/-- The book a taker leaves behind before what is left of it is queued. -/
def afterSweep (B : Book) (o : Order) : Book := B.setSide o.side.opposite (B.swept o).makers

/-- What is left of a taker. -/
def remainder (B : Book) (o : Order) : Order := { o with quantity := (B.swept o).left }

/-- Trade against the opposite side, then queue what is left. -/
def add (B : Book) (o : Order) : Book × Except MatchingError AddOrderResult :=
  if o.quantity = 0 then (B, .error .zeroQuantity)
  else
    let fills := (B.swept o).fills
    if (B.swept o).selfTrade then
      (B.afterSweep o, .ok { orderId := o.id, status := .cancelledSelfTrade, fills })
    else if (B.swept o).left = 0 then
      (B.afterSweep o, .ok { orderId := o.id, status := .fullyFilled, fills })
    else
      match (B.afterSweep o).insert (B.remainder o) with
      | (B', .error e) => (B', .error (.book e))
      | (B', .ok ()) =>
          let status := if fills = [] then .resting else .partiallyFilled
          (B', .ok { orderId := o.id, status, fills })

end Book

end Ferrox
