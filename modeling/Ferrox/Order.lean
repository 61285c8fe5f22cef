import Mathlib.Algebra.Ring.Nat
import Mathlib.Data.UInt
import Mathlib.Order.Lattice
import Mathlib.Tactic.Common

/-!
# Orders

The data the engine trades in, following `src/order.rs`: an order is a side, a limit price, a
quantity, the trader it belongs to, an id chosen by the client and a timestamp. Prices are signed
and quantities unsigned 64-bit machine words, as in the source.

`rank` turns price priority into one order for both sides: the smaller the rank, the better the
price for the taker. It is not a function of the source; the book's own comparisons are related
to it in the proofs.
-/

namespace Ferrox

/-- Machine prices are linearly ordered by their signed value. -/
instance instLinearOrderInt64 : LinearOrder Int64 where
  le_refl _ := Int64.le_refl _
  le_trans _ _ _ := Int64.le_trans
  lt_iff_le_not_ge a b := by
    rw [Int64.not_le]
    exact ⟨fun h => ⟨Int64.le_of_lt h, h⟩, fun h => h.2⟩
  le_antisymm _ _ := Int64.le_antisymm
  le_total := Int64.le_total
  min := min
  max := max
  toDecidableLE := inferInstance
  toDecidableEq := inferInstance
  toDecidableLT := inferInstance

inductive Side where
  | bid
  | ask
  deriving DecidableEq, Repr

namespace Side

/-- The side a taker on `s` trades against. -/
def opposite : Side → Side
  | .bid => .ask
  | .ask => .bid

@[simp] theorem opposite_opposite (s : Side) : s.opposite.opposite = s := by cases s <;> rfl

theorem opposite_ne (s : Side) : s.opposite ≠ s := by cases s <;> decide

/-- Price priority on a side: asks are better the cheaper they are, bids the dearer. -/
def rank : Side → Int64 → Int
  | .ask, p => p.toInt
  | .bid, p => -p.toInt

theorem rank_injective (s : Side) : Function.Injective s.rank := by
  intro p q h
  refine Int64.toInt_inj.1 ?_
  cases s <;> simp only [rank] at h <;> omega

@[simp] theorem rank_inj {s : Side} {p q : Int64} : s.rank p = s.rank q ↔ p = q :=
  s.rank_injective.eq_iff

theorem rank_ask_lt {p q : Int64} : ask.rank p < ask.rank q ↔ p < q :=
  Int64.lt_iff_toInt_lt.symm

theorem rank_bid_lt {p q : Int64} : bid.rank p < bid.rank q ↔ q < p := by
  rw [Int64.lt_iff_toInt_lt]
  simp only [rank]
  omega

end Side

structure Order where
  id : UInt64
  traderId : UInt64
  side : Side
  price : Int64
  quantity : UInt64
  timestamp : UInt64
  deriving DecidableEq, Repr

namespace Order

/-- The order without its timestamp. -/
def untimed (o : Order) : Order := { o with timestamp := 0 }

@[simp] theorem untimed_id (o : Order) : o.untimed.id = o.id := rfl
@[simp] theorem untimed_traderId (o : Order) : o.untimed.traderId = o.traderId := rfl
@[simp] theorem untimed_side (o : Order) : o.untimed.side = o.side := rfl
@[simp] theorem untimed_price (o : Order) : o.untimed.price = o.price := rfl
@[simp] theorem untimed_quantity (o : Order) : o.untimed.quantity = o.quantity := rfl

end Order

end Ferrox
