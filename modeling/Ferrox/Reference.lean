import Ferrox.Matching
import Mathlib.Data.List.Sort

/-!
# The reference book

The deliberately naive book of `tests/book_model.rs`: a flat list of resting orders, each with the
number of its arrival, scanned from end to end for the best maker on every step. Arrival numbers
are unbounded here.

`engineTrace` and `referenceTrace` are the two sides of the differential test: what is observed of
the engine and of the reference after every single operation of a sequence.
-/

namespace Ferrox

structure Resting where
  order : Order
  seq : Nat
  deriving DecidableEq, Repr

structure ReferenceBook where
  resting : List Resting
  nextSeq : Nat

namespace ReferenceBook

def default : ReferenceBook := ⟨[], 0⟩

/-- The test by which the scan of `best_index` moves on from `cur` to `r`. -/
def better (side : Side) (r cur : Resting) : Bool :=
  let betterPrice : Bool :=
    match side with
    | .ask => r.order.price < cur.order.price
    | .bid => r.order.price > cur.order.price
  let samePriceEarlier : Bool := r.order.price = cur.order.price ∧ r.seq < cur.seq
  betterPrice || samePriceEarlier

/-- Index of the maker with the best price on `side`, FIFO among equal prices. -/
def bestIndex (b : ReferenceBook) (side : Side) : Option Nat :=
  b.resting.zipIdx.foldl (fun best (r, i) =>
    if r.order.side ≠ side then best
    else
      match best with
      | none => some i
      | some j => if better side r (b.resting.getD j r) then some i else some j) none

def crosses (taker maker : Order) : Bool :=
  match taker.side with
  | .bid => maker.price ≤ taker.price
  | .ask => maker.price ≥ taker.price

/-- What the loop of `add` carries. -/
structure Matching where
  book : ReferenceBook
  taker : Order
  fills : List Fill
  selfTrade : Bool

/-- The loop of `add`, for at most `fuel` iterations. -/
def matchLoop : Nat → Matching → Matching
  | 0, m => m
  | fuel + 1, m =>
      if m.taker.quantity = 0 then m
      else
        let makerSide := m.taker.side.opposite
        match m.book.bestIndex makerSide with
        | none => m
        | some i =>
            match m.book.resting[i]? with
            | none => m
            | some r =>
                let maker := r.order
                if !crosses m.taker maker then m
                else if maker.traderId = m.taker.traderId then { m with selfTrade := true }
                else
                  let qty := min m.taker.quantity maker.quantity
                  let fills := m.fills ++ [{
                    takerOrderId := m.taker.id
                    makerOrderId := maker.id
                    price := maker.price
                    quantity := qty
                    makerFullyFilled := maker.quantity = qty }]
                  let left := { r with order := { maker with quantity := maker.quantity - qty } }
                  let resting :=
                    if left.order.quantity = 0 then m.book.resting.eraseIdx i
                    else m.book.resting.set i left
                  matchLoop fuel { m with
                    book := { m.book with resting }
                    taker := { m.taker with quantity := m.taker.quantity - qty }
                    fills }

/-- Every iteration but the last removes a resting order, so the loop ends within one more
iteration than there are orders. -/
def add (b : ReferenceBook) (taker : Order) : ReferenceBook × OrderStatus × List Fill :=
  let m := matchLoop (b.resting.length + 1) ⟨b, taker, [], false⟩
  if m.selfTrade then (m.book, .cancelledSelfTrade, m.fills)
  else if m.taker.quantity = 0 then (m.book, .fullyFilled, m.fills)
  else
    let resting := m.book.resting ++ [⟨m.taker, m.book.nextSeq⟩]
    (⟨resting, m.book.nextSeq + 1⟩,
      if m.fills = [] then .resting else .partiallyFilled, m.fills)

def cancel (b : ReferenceBook) (id : UInt64) : ReferenceBook × Option Order :=
  match b.resting.findIdx? (·.order.id = id) with
  | none => (b, none)
  | some i => ({ b with resting := b.resting.eraseIdx i }, b.resting[i]?.map (·.order))

/-- The resting orders of a side, in order of arrival. -/
def onSide (b : ReferenceBook) (side : Side) : List Resting :=
  b.resting.filter (·.order.side = side)

def bestBid (b : ReferenceBook) : Option Int64 := ((b.onSide .bid).map (·.order.price)).max?

def bestAsk (b : ReferenceBook) : Option Int64 := ((b.onSide .ask).map (·.order.price)).min?

/-- The sort key of `canonical`: price, the better first, then arrival. -/
def keyLE (side : Side) (r r' : Resting) : Prop :=
  match side with
  | .ask => r.order.price < r'.order.price ∨ r.order.price = r'.order.price ∧ r.seq ≤ r'.seq
  | .bid => r.order.price > r'.order.price ∨ r.order.price = r'.order.price ∧ r.seq ≤ r'.seq

instance : (side : Side) → DecidableRel (keyLE side)
  | .ask, _, _ => inferInstanceAs (Decidable (_ ∨ _ ∧ _))
  | .bid, _, _ => inferInstanceAs (Decidable (_ ∨ _ ∧ _))

/-- Asks ascending by price, then bids descending by price, FIFO within a level. -/
def canonical (b : ReferenceBook) : List Order :=
  ((b.onSide .ask).insertionSort (keyLE .ask) ++ (b.onSide .bid).insertionSort (keyLE .bid)).map
    (·.order)

end ReferenceBook

/-! ## The differential test -/

inductive Op where
  | add (order : Order)
  | cancel (id : UInt64)

/-- What an operation returns, as far as both books can return it. -/
inductive Outcome where
  | added (status : OrderStatus) (fills : List Fill)
  | cancelled (order : Order)
  | notFound
  | rejected (e : MatchingError)
  deriving DecidableEq

/-- What is compared after an operation. -/
structure Observation where
  outcome : Outcome
  bestBid : Option Int64
  bestAsk : Option Int64
  orderCount : Nat
  resting : List Order
  deriving DecidableEq

namespace MatchingEngine

def apply (e : MatchingEngine) : Op → MatchingEngine × Outcome
  | .add order =>
      match e.addOrder order with
      | (e', .ok r) => (e', .added r.status r.fills)
      | (e', .error err) => (e', .rejected err)
  | .cancel id =>
      match e.cancelOrder id with
      | (e', .ok order) => (e', .cancelled order)
      | (e', .error (.book (.orderNotFound _))) => (e', .notFound)
      | (e', .error err) => (e', .rejected err)

def observe (e : MatchingEngine) (outcome : Outcome) : Observation where
  outcome
  bestBid := e.book.bestBid
  bestAsk := e.book.bestAsk
  orderCount := e.book.orderCount
  resting := e.book.allRestingOrders

/-- The observations of the engine along a sequence of operations. -/
def trace : MatchingEngine → List Op → List Observation
  | _, [] => []
  | e, op :: ops => (e.apply op).1.observe (e.apply op).2 :: trace (e.apply op).1 ops

/-- The sequences the comparison is about: an added order has something to trade, its id does not
rest, and fewer than `capacity` orders do. -/
def Admissible (capacity : UInt32) : MatchingEngine → List Op → Prop
  | _, [] => True
  | e, op :: ops =>
      (match op with
        | .add order => 0 < order.quantity ∧
            (∀ x ∈ e.book.allRestingOrders, x.id ≠ order.id) ∧
            e.book.orderCount < capacity.toNat
        | .cancel _ => True) ∧
      Admissible capacity (e.apply op).1 ops

end MatchingEngine

namespace ReferenceBook

def apply (b : ReferenceBook) : Op → ReferenceBook × Outcome
  | .add order => ((b.add order).1, .added (b.add order).2.1 (b.add order).2.2)
  | .cancel id =>
      match b.cancel id with
      | (b', some order) => (b', .cancelled order)
      | (b', none) => (b', .notFound)

def observe (b : ReferenceBook) (outcome : Outcome) : Observation where
  outcome
  bestBid := b.bestBid
  bestAsk := b.bestAsk
  orderCount := b.resting.length
  resting := b.canonical

/-- The observations of the reference along a sequence of operations. -/
def trace : ReferenceBook → List Op → List Observation
  | _, [] => []
  | b, op :: ops => (b.apply op).1.observe (b.apply op).2 :: trace (b.apply op).1 ops

end ReferenceBook

end Ferrox
