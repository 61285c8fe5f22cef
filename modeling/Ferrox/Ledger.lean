import Ferrox.Priority
import Ferrox.Rejection
import Ferrox.Views

/-!
# Where the quantity of an order goes

Every unit of an accepted order ends in one of three ways: it is traded, it is handed back, or it
still rests. Handed back is what a cancellation returns, and what is left of an order that meets one
of its own trader. The tests check this for two orders; here it is for any sequence of calls on any
reachable engine, with what the calls returned as the only evidence (`ledger_balances_iff`). And each
trade is between two orders that were added, one before the other (`trades_of_added_orders`).

There is one way for the ledger not to balance: an order that trades and is then refused for its id.
Its trades are not returned, and the makers lose what it took. From then on the ledger does not
balance any more, whatever comes.
-/

namespace Ferrox

/-! ## The ledger -/

/-- A call, the engine it is made on, and what it returns. -/
structure Transaction where
  before : MatchingEngine
  op : Op
  reply : Reply

namespace MatchingEngine

/-- One call after the other. -/
def performAll (e : MatchingEngine) (ops : List Op) : MatchingEngine :=
  ops.foldl (fun e op => (e.perform op).1) e

def transactions : MatchingEngine → List Op → List Transaction
  | _, [] => []
  | e, op :: ops => ⟨e, op, (e.perform op).2⟩ :: transactions (e.perform op).1 ops

end MatchingEngine

namespace Ledger

/-- The quantity that fills take for the order with an id, as the taker. -/
def takenQuantity (fills : List Fill) (id : UInt64) : Nat :=
  ((fills.filter (·.takerOrderId = id)).map (·.quantity.toNat)).sum

/-- What comes in under an id. -/
def accepted (id : UInt64) : Op → Reply → Nat
  | .add o, .added (.ok _) => if o.id = id then o.quantity.toNat else 0
  | _, _ => 0

/-- What is traded under an id, on either side of the trade. -/
def traded (id : UInt64) : Reply → Nat
  | .added (.ok r) => takenQuantity r.fills id + Book.filledQuantity r.fills id
  | _ => 0

/-- What is handed back under an id. -/
def returned (id : UInt64) : Op → Reply → Nat
  | .add o, .added (.ok r) =>
      if o.id = id ∧ r.status = .cancelledSelfTrade then
        o.quantity.toNat - (r.fills.map (·.quantity.toNat)).sum
      else 0
  | .cancel _, .cancelled (.ok x) => if x.id = id then x.quantity.toNat else 0
  | _, _ => 0

/-- The totals of some transactions. -/
def totalAccepted (id : UInt64) (ts : List Transaction) : Nat :=
  (ts.map fun t => accepted id t.op t.reply).sum

def totalTraded (id : UInt64) (ts : List Transaction) : Nat :=
  (ts.map fun t => traded id t.reply).sum

def totalReturned (id : UInt64) (ts : List Transaction) : Nat :=
  (ts.map fun t => returned id t.op t.reply).sum

/-- **The ledger balances**: what rested at first and what came in was traded, handed back, or still
rests. -/
def Balances (e : MatchingEngine) (ops : List Op) : Prop :=
  ∀ id, Book.restingQuantity e.book.allRestingOrders id + totalAccepted id (e.transactions ops) =
    totalTraded id (e.transactions ops) + totalReturned id (e.transactions ops) +
      Book.restingQuantity (e.performAll ops).book.allRestingOrders id

end Ledger

/-- The orders that a taker could trade with. -/
def Book.crossed (resting : List Order) (o : Order) : List Order :=
  resting.filter fun m => m.side = o.side.opposite ∧ crosses o m.price

instance (resting : List Order) (o : Order) : Decidable (Book.Swallowed resting o) :=
  decidable_of_iff (0 < ((Book.crossed resting o).map (·.quantity.toNat)).sum ∧
    ((Book.crossed resting o).map (·.quantity.toNat)).sum < o.quantity.toNat ∧
    (∀ m ∈ Book.crossed resting o, m.traderId ≠ o.traderId) ∧
    ∃ x ∈ resting, x.id = o.id ∧ x ∉ Book.crossed resting o) Iff.rfl

/-- The call trades and is refused all the same. -/
def Transaction.Swallows (t : Transaction) : Prop :=
  match t.op with
  | .add o => Book.Swallowed t.before.book.allRestingOrders o
  | .cancel _ => False

instance (t : Transaction) : Decidable t.Swallows :=
  match h : t.op with
  | .add o => decidable_of_iff (Book.Swallowed t.before.book.allRestingOrders o)
      (by rw [Transaction.Swallows, h])
  | .cancel _ => .isFalse (by rw [Transaction.Swallows, h]; exact id)

/-! ## Quantities -/

namespace Book

variable {B : Book} {o : Order}

theorem restingQuantity_append (l l' : List Order) (id : UInt64) :
    restingQuantity (l ++ l') id = restingQuantity l id + restingQuantity l' id := by
  rw [restingQuantity, List.filter_append, List.map_append, List.sum_append]
  rfl

theorem restingQuantity_perm {l l' : List Order} (h : l.Perm l') (id : UInt64) :
    restingQuantity l id = restingQuantity l' id := ((h.filter _).map _).sum_eq

theorem restingQuantity_orders (B : Book) (s : Side) (id : UInt64) :
    restingQuantity B.orders id =
      restingQuantity (B.side s) id + restingQuantity (B.side s.opposite) id := by
  rw [orders, restingQuantity_append]
  cases s with
  | ask => rfl
  | bid => exact Nat.add_comm _ _

/-- Under one id rests one order. -/
theorem restingQuantity_of_mem {l : List Order} (h : (l.map (·.id)).Nodup) {x : Order}
    (hx : x ∈ l) : restingQuantity l x.id = x.quantity.toNat := by
  induction l with
  | nil => cases hx
  | cons y l ih =>
    obtain ⟨hy, hl⟩ := List.nodup_cons.1 h
    rw [restingQuantity_cons]
    rcases List.mem_cons.1 hx with rfl | hx
    · have hnone : l.filter (·.id = x.id) = [] := by
        rw [List.filter_eq_nil_iff]
        intro z hz hzx
        exact hy (List.mem_map.2 ⟨z, hz, by simpa using hzx⟩)
      simp [restingQuantity, hnone]
    · have hne : y.id ≠ x.id := fun heq => hy (List.mem_map.2 ⟨x, hx, heq.symm⟩)
      rw [if_neg hne, Nat.zero_add, ih hl hx]

theorem restingQuantity_filter_ne (l : List Order) (id id' : UInt64) :
    restingQuantity (l.filter (·.id ≠ id')) id = if id = id' then 0 else restingQuantity l id := by
  unfold restingQuantity
  rw [List.filter_filter]
  split_ifs with heq
  · have hnone : l.filter (fun x => decide (x.id = id) && decide (x.id ≠ id')) = [] := by
      rw [List.filter_eq_nil_iff]
      intro x _ hx
      simp [heq] at hx
    rw [hnone]
    rfl
  · congr 2
    apply List.filter_congr
    intro x _
    by_cases hx : x.id = id
    · simp [hx, heq]
    · simp [hx]

theorem takenQuantity_sweep (taker : Order) (ms : List Order) (q : UInt64) (id : UInt64) :
    Ledger.takenQuantity (sweep taker ms q).fills id =
      if taker.id = id then ((sweep taker ms q).fills.map (·.quantity.toNat)).sum else 0 := by
  have htaker : ∀ f ∈ (sweep taker ms q).fills, f.takerOrderId = taker.id := by
    induction ms, q using sweep_induction taker with
    | stop ms q => exact nofun
    | own m ms q => exact nofun
    | all m ms q _ _ _ _ r _ ih =>
      intro f hf
      rcases List.mem_cons.1 hf with rfl | hf
      · rfl
      · exact ih f hf
    | part m ms q =>
      intro f hf
      rw [List.mem_singleton.1 hf]
      rfl
  unfold Ledger.takenQuantity
  split_ifs with hid
  · rw [List.filter_eq_self.2]
    intro f hf
    simp [htaker f hf, hid]
  · rw [List.filter_eq_nil_iff.2]
    · rfl
    · intro f hf
      simp [htaker f hf, hid]

/-! ## One call -/

/-- What makers lose to an order that is refused: it is not in the reply. -/
def lost (B : Book) (id : UInt64) : Op → Nat
  | .add o =>
      match (B.add o).2 with
      | .ok _ => 0
      | .error _ => filledQuantity (B.swept o).fills id
  | .cancel _ => 0

theorem restingQuantity_afterSweep (B : Book) (o : Order) (id : UInt64) :
    restingQuantity B.orders id =
      restingQuantity (B.afterSweep o).orders id + filledQuantity (B.swept o).fills id := by
  have haccounts := sweep_accounts o (B.side o.side.opposite) o.quantity id
  rw [restingQuantity_orders B o.side, restingQuantity_orders (B.afterSweep o) o.side,
    side_afterSweep_self, side_afterSweep_opposite, haccounts]
  exact (Nat.add_assoc _ _ _).symm

theorem ledger_add (B : Book) (o : Order) (id : UInt64) :
    restingQuantity B.orders id + Ledger.accepted id (.add o) (.added (B.add o).2) =
      Ledger.traded id (.added (B.add o).2) + Ledger.returned id (.add o) (.added (B.add o).2) +
        restingQuantity (B.add o).1.orders id + B.lost id (.add o) := by
  have hswept := restingQuantity_afterSweep B o id
  have hleft : o.quantity.toNat = (B.swept o).left.toNat +
      ((B.swept o).fills.map (·.quantity.toNat)).sum :=
    sweep_left o (B.side o.side.opposite) o.quantity
  have htaken : Ledger.takenQuantity (B.swept o).fills id =
      if o.id = id then ((B.swept o).fills.map (·.quantity.toNat)).sum else 0 :=
    takenQuantity_sweep o _ _ id
  cases hresult : (B.add o).2 with
  | error err =>
    simp only [Ledger.accepted, Ledger.traded, Ledger.returned, lost, hresult]
    have hadd := added B o
    generalize B.add o = result at hadd hresult
    cases hadd with
    | zero hq =>
      have hnone : (B.swept o).fills = [] := by
        have hstop : B.swept o = ⟨B.side o.side.opposite, [], o.quantity, false⟩ := by
          rw [swept, hq]
          cases B.side o.side.opposite <;> simp [sweep]
        rw [hstop]
      simp [hnone, filledQuantity]
    | refused =>
      dsimp only
      omega
    | ended => cases hresult
    | queued => cases hresult
  | ok r =>
    obtain ⟨-, hfills, hcases⟩ := add_ok hresult
    simp only [Ledger.accepted, Ledger.traded, Ledger.returned, lost, hresult, hfills, htaken]
    obtain ⟨-, hstatus, hbook⟩ | ⟨-, hzero, hstatus, hbook⟩ | ⟨-, -, hstatus, hinsert⟩ := hcases
    · rw [hbook, hstatus]
      simp only [and_true]
      split_ifs <;> omega
    · have hzero' : (B.swept o).left.toNat = 0 := by rw [hzero]; rfl
      rw [hbook, hstatus]
      simp only [reduceCtorEq, and_false, if_false]
      split_ifs <;> omega
    · obtain ⟨-, -, hbook⟩ := insert_ok hinsert
      have hqueued := restingQuantity_perm (orders_enqueue_perm (B.afterSweep o) (B.remainder o)) id
      have hne : r.status ≠ .cancelledSelfTrade := by
        rw [hstatus]
        split_ifs <;> simp
      have hrest : restingQuantity (B.remainder o :: (B.afterSweep o).orders) id =
          (if o.id = id then (B.swept o).left.toNat else 0) +
            restingQuantity (B.afterSweep o).orders id := restingQuantity_cons _ _ id
      rw [hbook, hqueued, hrest]
      simp only [hne, and_false, if_false]
      by_cases hid : o.id = id
      · simp only [if_pos hid]
        omega
      · simp only [if_neg hid]
        omega

theorem ledger_cancel (h : B.WF) (id' id : UInt64) :
    restingQuantity B.orders id = Ledger.returned id (.cancel id')
      (.cancelled (MatchingEngine.liftError (B.cancel id').2)) +
        restingQuantity (B.cancel id').1.orders id := by
  rcases cancel_cases B id' with ⟨-, hcancel⟩ | ⟨x, hx, rfl, hcancel⟩
  · rw [hcancel]
    simp [MatchingEngine.liftError, Ledger.returned]
  · have horders : (B.cancel x.id).1.orders = B.orders.filter (·.id ≠ x.id) := by
      rw [hcancel]
      exact (List.filter_append ..).symm
    rw [horders, restingQuantity_filter_ne, hcancel]
    simp only [MatchingEngine.liftError, Ledger.returned]
    by_cases hid : id = x.id
    · rw [if_pos hid, if_pos hid.symm, hid, restingQuantity_of_mem h.nodup hx, Nat.add_zero]
    · rw [if_neg hid, if_neg (Ne.symm hid), Nat.zero_add]

/-- **The ledger of a call**: what rested and what came in was traded, handed back or lost, or still
rests. -/
theorem ledger_perform (h : B.WF) (op : Op) (id : UInt64) :
    restingQuantity B.orders id + Ledger.accepted id op (B.perform op).2 =
      Ledger.traded id (B.perform op).2 + Ledger.returned id op (B.perform op).2 +
        restingQuantity (B.perform op).1.orders id + B.lost id op := by
  cases op with
  | add o => exact ledger_add B o id
  | cancel id' =>
    have := ledger_cancel h id' id
    simp only [perform, Ledger.accepted, Ledger.traded, lost]
    omega

/-- Something is lost to some maker just in case an order is refused that has traded. -/
theorem lost_add_eq_zero_iff (h : B.WF) (o : Order) :
    (∀ id, B.lost id (.add o) = 0) ↔ ¬ Swallowed B.orders o := by
  simp only [lost]
  rw [swallowed_iff h]
  cases hresult : (B.add o).2 with
  | ok r => simp
  | error err =>
    have hzero := filledQuantity_eq_zero_iff (B.swept o).fills
    simp only [Except.error.injEq, exists_eq', true_and, Nat.not_lt, Nat.le_zero]
    exact hzero

end Book

/-! ## Sequences of calls -/

namespace MatchingEngine

variable {e : MatchingEngine}

/-- What makers lose along a sequence of calls. -/
def totalLost (id : UInt64) (ts : List Transaction) : Nat :=
  (ts.map fun t => t.before.book.toBook.lost id t.op).sum

/-- **The ledger of a sequence of calls**, with what is lost. -/
theorem ledger_performAll (h : e.book.WF) (ops : List Op) (id : UInt64) :
    Book.restingQuantity e.book.allRestingOrders id +
        Ledger.totalAccepted id (e.transactions ops) =
      Ledger.totalTraded id (e.transactions ops) + Ledger.totalReturned id (e.transactions ops) +
        Book.restingQuantity (e.performAll ops).book.allRestingOrders id +
        totalLost id (e.transactions ops) := by
  induction ops generalizing e with
  | nil => simp [transactions, performAll, Ledger.totalAccepted, Ledger.totalTraded,
      Ledger.totalReturned, totalLost]
  | cons op ops ih =>
    obtain ⟨hwf, hbook, hreply⟩ := perform_sim h op
    have hstep := Book.ledger_perform h.wf_toBook op id
    have hrest := ih hwf
    rw [← OrderBook.orders_toBook] at hrest ⊢
    rw [← hbook, ← hreply] at hstep
    simp only [Ledger.totalAccepted, Ledger.totalTraded, Ledger.totalReturned, totalLost,
      transactions, List.map_cons, List.sum_cons] at hrest ⊢
    rw [show e.performAll (op :: ops) = (e.perform op).1.performAll ops from rfl]
    omega

theorem wf_transactions (h : e.book.WF) (ops : List Op) :
    ∀ t ∈ e.transactions ops, t.before.book.WF := by
  induction ops generalizing e with
  | nil => exact nofun
  | cons op ops ih =>
    intro t ht
    rcases List.mem_cons.1 ht with rfl | ht
    · exact h
    · exact ih (perform_sim h op).1 t ht

theorem lost_eq_zero_iff {t : Transaction} (h : t.before.book.WF) :
    (∀ id, t.before.book.toBook.lost id t.op = 0) ↔ ¬ t.Swallows := by
  unfold Transaction.Swallows
  cases hop : t.op with
  | cancel id => simp [Book.lost]
  | add o =>
    rw [← OrderBook.orders_toBook]
    exact Book.lost_add_eq_zero_iff h.wf_toBook o

/-- **Where the quantity of orders goes.** On every reachable engine and for every sequence of
calls: under every id, what rested at first and what was accepted is what was traded, what was handed
back by a cancellation or after a self-trade, and what rests at the end, exactly when none of the
calls swallowed trades. -/
theorem ledger_balances_iff {c : UInt32} (h : Reachable c e) (ops : List Op) :
    Ledger.Balances e ops ↔ ∀ t ∈ e.transactions ops, ¬ t.Swallows := by
  have hwf := h.sound.wf
  have hbalances : Ledger.Balances e ops ↔ ∀ id, totalLost id (e.transactions ops) = 0 := by
    apply forall_congr'
    intro id
    rw [ledger_performAll hwf ops id]
    omega
  have hlost : (∀ id, totalLost id (e.transactions ops) = 0) ↔
      ∀ t ∈ e.transactions ops, ∀ id, t.before.book.toBook.lost id t.op = 0 := by
    simp only [totalLost, List.sum_eq_zero_iff_forall_eq_nat, List.forall_mem_map]
    exact ⟨fun h t ht id => h id t ht, fun h id t ht => h t ht id⟩
  rw [hbalances, hlost]
  apply forall₂_congr
  intro t ht
  exact lost_eq_zero_iff (wf_transactions hwf ops t ht)

/-- Trades, a cancellation and a self-trade. -/
theorem ledger_balances_iff_selfTrade :
    Ledger.Balances (withCapacity 4) [.add ⟨1, 10, .ask, 100, 5, 7⟩, .add ⟨2, 11, .bid, 100, 2, 8⟩,
      .add ⟨3, 12, .ask, 101, 4, 9⟩, .add ⟨4, 12, .bid, 102, 9, 10⟩, .cancel 3] ∧
    Ledger.totalReturned 4 ((withCapacity 4).transactions [.add ⟨1, 10, .ask, 100, 5, 7⟩,
      .add ⟨2, 11, .bid, 100, 2, 8⟩, .add ⟨3, 12, .ask, 101, 4, 9⟩,
      .add ⟨4, 12, .bid, 102, 9, 10⟩, .cancel 3]) = 6 :=
  ⟨(ledger_balances_iff (.init 4) _).2 (by decide +kernel), by decide +kernel⟩

end MatchingEngine

/-! ## Who trades with whom -/

/-- Some of an order: the same order, with no more quantity. -/
structure Order.PartOf (x o : Order) : Prop where
  same : x = { o with quantity := x.quantity }
  le : x.quantity ≤ o.quantity

theorem Order.PartOf.refl (o : Order) : o.PartOf o := ⟨rfl, UInt64.le_refl _⟩

theorem Order.PartOf.trans {x y o : Order} (h : x.PartOf y) (h' : y.PartOf o) : x.PartOf o := by
  refine ⟨?_, UInt64.le_trans h.le h'.le⟩
  rw [h.same, h'.same]

namespace Book

variable {B : Book} {o : Order}

/-- **A trade of a sweep** is with one of the makers, at its price, for no more than there is. -/
structure TradeWith (taker m : Order) (f : Fill) : Prop where
  fill : f = fill taker m f.quantity
  crosses : crosses taker m.price
  trader : m.traderId ≠ taker.traderId
  le : f.quantity ≤ m.quantity

theorem tradeWith_of_mem_sweep (taker : Order) (ms : List Order) (q : UInt64) :
    ∀ f ∈ (sweep taker ms q).fills, f.quantity ≤ q ∧ ∃ m ∈ ms, TradeWith taker m f := by
  induction ms, q using sweep_induction taker with
  | stop ms q => exact nofun
  | own m ms q => exact nofun
  | all m ms q hq hc ht hle r _ ih =>
    intro f hf
    rcases List.mem_cons.1 hf with rfl | hf
    · exact ⟨hle, m, List.mem_cons_self, rfl, hc, ht, UInt64.le_refl _⟩
    · obtain ⟨hfq, m', hm', htrade⟩ := ih f hf
      refine ⟨UInt64.le_trans hfq ?_, m', List.mem_cons_of_mem _ hm', htrade⟩
      rw [UInt64.le_iff_toNat_le, UInt64.toNat_sub_of_le _ _ hle]
      exact Nat.sub_le _ _
  | part m ms q hq hc ht hlt =>
    intro f hf
    rw [List.mem_singleton.1 hf]
    exact ⟨UInt64.le_refl _, m, List.mem_cons_self, rfl, hc, ht, UInt64.le_of_lt hlt⟩

theorem partOf_of_mem_sweep (taker : Order) (ms : List Order) (q : UInt64) :
    ∀ x ∈ (sweep taker ms q).makers, ∃ m ∈ ms, x.PartOf m := by
  induction ms, q using sweep_induction taker with
  | stop ms q => exact fun x hx => ⟨x, hx, .refl x⟩
  | own m ms q => exact fun x hx => ⟨x, hx, .refl x⟩
  | all m ms q _ _ _ _ r _ ih =>
    intro x hx
    obtain ⟨m', hm', hpart⟩ := ih x hx
    exact ⟨m', List.mem_cons_of_mem _ hm', hpart⟩
  | part m ms q _ _ _ hlt =>
    intro x hx
    rcases List.mem_cons.1 hx with rfl | hx
    · refine ⟨m, List.mem_cons_self, rfl, ?_⟩
      show m.quantity - q ≤ m.quantity
      rw [UInt64.le_iff_toNat_le, UInt64.toNat_sub_of_le _ _ (UInt64.le_of_lt hlt)]
      exact Nat.sub_le _ _
    · exact ⟨x, List.mem_cons_of_mem _ hx, .refl x⟩

theorem remainder_partOf (B : Book) (o : Order) : (B.remainder o).PartOf o := by
  refine ⟨rfl, ?_⟩
  have hleft := sweep_left o (B.side o.side.opposite) o.quantity
  rw [UInt64.le_iff_toNat_le, hleft]
  exact Nat.le_add_right _ _

/-- **What rests comes from somewhere**: from the book before, or from the order that was added. -/
theorem partOf_of_mem_perform {op : Op} {x : Order} (hx : x ∈ (B.perform op).1.orders) :
    (∃ y ∈ B.orders, x.PartOf y) ∨ ∃ o, op = .add o ∧ x.PartOf o := by
  cases op with
  | cancel id =>
    left
    rcases cancel_cases B id with ⟨-, hcancel⟩ | ⟨y, -, -, hcancel⟩
    · rw [perform, hcancel] at hx
      exact ⟨x, hx, .refl x⟩
    · rw [perform, hcancel] at hx
      obtain ⟨s, hx⟩ := mem_orders.1 hx
      exact ⟨x, mem_orders.2 ⟨s, List.mem_of_mem_filter hx⟩, .refl x⟩
  | add o =>
    have hswept : ∀ y ∈ (B.afterSweep o).orders, ∃ z ∈ B.orders, y.PartOf z := by
      intro y hy
      obtain ⟨s, hy⟩ := mem_orders.1 hy
      by_cases hs : s = o.side.opposite
      · subst hs
        rw [side_afterSweep_opposite] at hy
        obtain ⟨m, hm, hpart⟩ := partOf_of_mem_sweep _ _ _ y hy
        exact ⟨m, mem_orders.2 ⟨_, hm⟩, hpart⟩
      · rw [afterSweep, side_setSide_of_ne hs] at hy
        exact ⟨y, mem_orders.2 ⟨s, hy⟩, .refl y⟩
    have hadd := added B o
    have hx : x ∈ (B.add o).1.orders := hx
    generalize B.add o = r at hadd hx
    cases hadd with
    | zero => exact Or.inl ⟨x, hx, .refl x⟩
    | ended => exact Or.inl (hswept x hx)
    | refused => exact Or.inl (hswept x hx)
    | queued _ _ _ B' hi =>
      obtain ⟨-, -, rfl⟩ := insert_ok hi
      rcases List.mem_cons.1 ((orders_enqueue_perm _ _).mem_iff.1 hx) with rfl | hx
      · exact Or.inr ⟨o, rfl, remainder_partOf B o⟩
      · exact Or.inl (hswept x hx)

end Book

namespace MatchingEngine

theorem reachable_performAll {c : UInt32} {e : MatchingEngine} (h : Reachable c e) (ops : List Op) :
    Reachable c (e.performAll ops) := by
  induction ops generalizing e with
  | nil => exact h
  | cons op ops ih =>
    cases op with
    | add o => exact ih (h.add o)
    | cancel id => exact ih (h.cancel id)

/-- **Every resting order is some of an order that was added**, or rested before. -/
theorem partOf_of_mem_performAll {e : MatchingEngine} (h : e.book.WF) (ops : List Op) {x : Order}
    (hx : x ∈ (e.performAll ops).book.allRestingOrders) :
    (∃ y ∈ e.book.allRestingOrders, x.PartOf y) ∨ ∃ o, .add o ∈ ops ∧ x.PartOf o := by
  induction ops generalizing e with
  | nil => exact Or.inl ⟨x, hx, .refl x⟩
  | cons op ops ih =>
    obtain ⟨hwf, hbook, -⟩ := perform_sim h op
    obtain ⟨y, hy, hpart⟩ | ⟨o, ho, hpart⟩ := ih hwf hx
    · rw [← OrderBook.orders_toBook, hbook] at hy
      obtain ⟨z, hz, hpart'⟩ | ⟨o, rfl, hpart'⟩ := Book.partOf_of_mem_perform hy
      · exact Or.inl ⟨z, hz, hpart.trans hpart'⟩
      · exact Or.inr ⟨o, List.mem_cons_self, hpart.trans hpart'⟩
    · exact Or.inr ⟨o, List.mem_cons_of_mem _ ho, hpart⟩

/-- **A trade is between two orders that were added**: of different traders, on different sides, at
the price of the one that came first and within the limit of the other, for a positive quantity that
neither of them exceeds. -/
structure TradeOf (taker maker : Order) (f : Fill) : Prop where
  takerOrderId : f.takerOrderId = taker.id
  makerOrderId : f.makerOrderId = maker.id
  price : f.price = maker.price
  limit : Book.crosses taker maker.price
  side : maker.side = taker.side.opposite
  trader : maker.traderId ≠ taker.traderId
  pos : 0 < f.quantity
  le_taker : f.quantity ≤ taker.quantity
  le_maker : f.quantity ≤ maker.quantity

/-- **Who trades with whom.** Whatever calls were made on a fresh engine, each fill that adding an
order returns is a trade of this order with one that was added before. -/
theorem trades_of_added_orders (c : UInt32) (ops : List Op) (o : Order) :
    ∀ r, (((withCapacity c).performAll ops).addOrder o).2 = .ok r → ∀ f ∈ r.fills,
      ∃ m, .add m ∈ ops ∧ TradeOf o m f := by
  intro r hr f hf
  have hsound := (reachable_performAll (.init c) ops).sound
  obtain ⟨hwf₀, hempty⟩ := withCapacity_sim c
  obtain ⟨-, -, hresult⟩ := addOrder_sim hsound.wf o
  rw [hresult] at hr
  rw [Book.fills_of_ok hr] at hf
  have hpos := Book.swept_fills_pos hsound.positive o f hf
  obtain ⟨hle, x, hx, hfill, hlimit, htrader, hlex⟩ := Book.tradeWith_of_mem_sweep _ _ _ f hf
  have hside := hsound.wf.wf_toBook.side _ x hx
  have hx' : x ∈ ((withCapacity c).performAll ops).book.allRestingOrders := by
    rw [← OrderBook.orders_toBook]
    exact Book.mem_orders.2 ⟨_, hx⟩
  obtain ⟨y, hy, -⟩ | ⟨m, hm, hpart⟩ := partOf_of_mem_performAll hwf₀ ops hx'
  · rw [← OrderBook.orders_toBook, hempty] at hy
    cases hy
  have hid : x.id = m.id := by rw [hpart.same]
  have hprice : x.price = m.price := by rw [hpart.same]
  have hmside : x.side = m.side := by rw [hpart.same]
  have hmtrader : x.traderId = m.traderId := by rw [hpart.same]
  refine ⟨m, hm, ?_, ?_, ?_, hprice ▸ hlimit, hmside ▸ hside, hmtrader ▸ htrader, hpos, hle,
    UInt64.le_trans hlex hpart.le⟩
  · rw [hfill]
    rfl
  · rw [hfill, ← hid]
    rfl
  · rw [hfill, ← hprice]
    rfl

/-- A bid that takes part of an ask, below its own limit. -/
theorem trades_of_added_orders_part :
    (((withCapacity 4).performAll [.add ⟨1, 10, .ask, 100, 5, 7⟩]).addOrder
      ⟨2, 11, .bid, 101, 2, 8⟩).2 = .ok ⟨2, .fullyFilled, [⟨2, 1, 100, 2, false⟩]⟩ ∧
    ∃ m, .add m ∈ [Op.add ⟨1, 10, .ask, 100, 5, 7⟩] ∧
      TradeOf ⟨2, 11, .bid, 101, 2, 8⟩ m ⟨2, 1, 100, 2, false⟩ := by
  have hresult : (((withCapacity 4).performAll [.add ⟨1, 10, .ask, 100, 5, 7⟩]).addOrder
      ⟨2, 11, .bid, 101, 2, 8⟩).2 = .ok ⟨2, .fullyFilled, [⟨2, 1, 100, 2, false⟩]⟩ := by
    decide +kernel
  exact ⟨hresult, trades_of_added_orders 4 _ _ _ hresult _ List.mem_cons_self⟩

end MatchingEngine

end Ferrox
