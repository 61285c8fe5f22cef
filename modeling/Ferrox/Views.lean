import Ferrox.Reachable
import Ferrox.Reference
import Ferrox.SnapshotProof
import Ferrox.Bincode

/-!
# What a caller sees of an engine

An engine is seen through the results of its calls and through the book it shows in between: the
resting orders in canonical order, the best prices and the number of orders. `views` is all of that
along a sequence of calls.

None of it depends on slots or links: an engine shows what the price-time book it represents shows
(`views_sim`), so engines with the same price-time book cannot be told apart. A restored engine is
the first instance (`restored_indistinguishable`).
-/

namespace Ferrox

open Bytes

/-- What a call returns. -/
inductive Reply where
  | added (result : Except MatchingError AddOrderResult)
  | cancelled (result : Except MatchingError Order)
  deriving DecidableEq

/-- The book between two calls. -/
structure Shown where
  resting : List Order
  bestBid : Option Int64
  bestAsk : Option Int64
  orderCount : Nat
  deriving DecidableEq

namespace MatchingEngine

def perform (e : MatchingEngine) : Op → MatchingEngine × Reply
  | .add order => ((e.addOrder order).1, .added (e.addOrder order).2)
  | .cancel id => ((e.cancelOrder id).1, .cancelled (e.cancelOrder id).2)

def shown (e : MatchingEngine) : Shown where
  resting := e.book.allRestingOrders
  bestBid := e.book.bestBid
  bestAsk := e.book.bestAsk
  orderCount := e.book.orderCount

/-- The results of a sequence of calls, each with the book it leaves. -/
def views : MatchingEngine → List Op → List (Reply × Shown)
  | _, [] => []
  | e, op :: ops => ((e.perform op).2, (e.perform op).1.shown) :: views (e.perform op).1 ops

end MatchingEngine

namespace Book

def perform (B : Book) : Op → Book × Reply
  | .add order => ((B.add order).1, .added (B.add order).2)
  | .cancel id => ((B.cancel id).1, .cancelled (MatchingEngine.liftError (B.cancel id).2))

def shown (B : Book) : Shown where
  resting := B.orders
  bestBid := B.best .bid
  bestAsk := B.best .ask
  orderCount := B.orders.length

def views : Book → List Op → List (Reply × Shown)
  | _, [] => []
  | B, op :: ops => ((B.perform op).2, (B.perform op).1.shown) :: views (B.perform op).1 ops

end Book

namespace MatchingEngine

variable {e e' : MatchingEngine}

theorem shown_sim (h : e.book.WF) : e.shown = e.book.toBook.shown := by
  have hbid : e.book.bestBid = e.book.toBook.best .bid := OrderBook.bestPrice_sim h .bid
  have hask : e.book.bestAsk = e.book.toBook.best .ask := OrderBook.bestPrice_sim h .ask
  have hcount : e.book.orderCount = e.book.toBook.orders.length := by
    obtain ⟨free, queue, hrep⟩ := h
    exact (OrderBook.length_allRestingOrders hrep).symm
  unfold shown
  rw [hbid, hask, hcount]
  rfl

/-- **A call does to the price-time book what it does to the engine.** -/
theorem perform_sim (h : e.book.WF) (op : Op) :
    (e.perform op).1.book.WF ∧ (e.perform op).1.book.toBook = (e.book.toBook.perform op).1 ∧
      (e.perform op).2 = (e.book.toBook.perform op).2 := by
  cases op with
  | add order =>
    obtain ⟨hwf, hbook, hresult⟩ := addOrder_sim h order
    exact ⟨hwf, hbook, congrArg Reply.added hresult⟩
  | cancel id =>
    obtain ⟨hwf, hbook, hresult⟩ := cancelOrder_sim h id
    exact ⟨hwf, hbook, congrArg Reply.cancelled hresult⟩

/-- **An engine shows what its price-time book shows**, along every sequence of calls. -/
theorem views_sim (h : e.book.WF) (ops : List Op) : e.views ops = e.book.toBook.views ops := by
  induction ops generalizing e with
  | nil => rfl
  | cons op ops ih =>
    obtain ⟨hwf, hbook, hreply⟩ := perform_sim h op
    rw [views, Book.views, hreply, shown_sim hwf, ih hwf, hbook]

theorem views_eq_of_toBook_eq (h : e.book.WF) (h' : e'.book.WF)
    (heq : e'.book.toBook = e.book.toBook) :
    e'.shown = e.shown ∧ ∀ ops, e'.views ops = e.views ops := by
  refine ⟨?_, ?_⟩
  · rw [shown_sim h, shown_sim h', heq]
  · intro ops
    rw [views_sim h, views_sim h', heq]

end MatchingEngine

/-- **A restored engine is indistinguishable from the original.** Capturing a reachable engine and
restoring the snapshot into the same capacity succeeds. The new engine shows the same book, which is
the one the snapshot has stored, and every further sequence of calls gives the same results and the
same books. -/
theorem restored_indistinguishable {c : UInt32} {e : MatchingEngine} (h : Reachable c e)
    (crc : List UInt8 → UInt32) (bincode : Bincode) (n : UInt64) :
    ∃ e', (Snapshot.capture crc bincode e n).restore c = .ok e' ∧
      e'.shown = e.shown ∧
      e'.shown.resting = (Snapshot.capture crc bincode e n).orders ∧
      e'.shown.bestBid = (Snapshot.capture crc bincode e n).bestBid ∧
      e'.shown.bestAsk = (Snapshot.capture crc bincode e n).bestAsk ∧
      e'.shown.orderCount = (Snapshot.capture crc bincode e n).orders.length ∧
      ∀ ops, e'.views ops = e.views ops := by
  have hsound := h.sound
  obtain ⟨e', hrestore, hwf, hbook⟩ :=
    Snapshot.restore_capture crc bincode hsound.wf hsound.capacity n
  obtain ⟨hshown, hviews⟩ := MatchingEngine.views_eq_of_toBook_eq hsound.wf hwf hbook
  refine ⟨e', hrestore, hshown, ?_, ?_, ?_, ?_, hviews⟩
  · rw [hshown]
    rfl
  · rw [hshown]
    rfl
  · rw [hshown]
    rfl
  · rw [hshown, MatchingEngine.shown_sim hsound.wf]
    rfl

/-- A full book with a cancelled and a partly filled order, and calls that are refused for lack of
room and for their id. -/
theorem restored_indistinguishable_full : ∃ e e',
    e = (((((MatchingEngine.withCapacity 2).addOrder ⟨1, 10, .ask, 100, 5, 7⟩).1.addOrder
      ⟨2, 11, .ask, 100, 4, 8⟩).1.cancelOrder 1).1.addOrder ⟨3, 12, .ask, 99, 1, 9⟩).1 ∧
    (Snapshot.capture crc32 .fixint e 4).restore 2 = .ok e' ∧
    e'.views [.add ⟨4, 10, .ask, 101, 1, 10⟩, .add ⟨2, 10, .bid, 90, 1, 11⟩, .cancel 3] =
      e.views [.add ⟨4, 10, .ask, 101, 1, 10⟩, .add ⟨2, 10, .bid, 90, 1, 11⟩, .cancel 3] ∧
    (e.views [.add ⟨4, 10, .ask, 101, 1, 10⟩, .add ⟨2, 10, .bid, 90, 1, 11⟩, .cancel 3]).map
      Prod.fst = [.added (.error (.book .arenaFull)),
        .added (.error (.book (.duplicateOrderId 2))), .cancelled (.ok ⟨3, 12, .ask, 99, 1, 9⟩)] := by
  have hreach : Reachable 2 (((((MatchingEngine.withCapacity 2).addOrder
      ⟨1, 10, .ask, 100, 5, 7⟩).1.addOrder ⟨2, 11, .ask, 100, 4, 8⟩).1.cancelOrder 1).1.addOrder
        ⟨3, 12, .ask, 99, 1, 9⟩).1 := .add (.cancel (.add (.add (.init 2) _) _) _) _
  obtain ⟨e', hrestore, -, -, -, -, -, hviews⟩ :=
    restored_indistinguishable hreach crc32 .fixint 4
  exact ⟨_, e', rfl, hrestore, hviews _, by decide +kernel⟩

end Ferrox
