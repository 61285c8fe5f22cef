import Ferrox.BookSim
import Ferrox.PriceTimeProof

/-!
# The engine computes the price-time book

`addOrder_sim` and `cancelOrder_sim`: on a well-formed book the engine returns what the price-time
book returns, errors included, and leaves behind the book it leaves behind. `restoreFromOrders_sim`
says the same of rebuilding a book from a list of orders.

The two matching loops are instances of one loop over the maker's side (`matchSide`), and that loop
is `Book.sweep` (`matchSide_sim`). The proof is an induction along the makers: an iteration that
exhausts its maker moves one step along the list, any other iteration is the last one.
-/

namespace Ferrox

open Ranked

/-- **A represented book is a well-formed price-time book.** -/
theorem OrderBook.WF.wf_toBook {b : OrderBook} (h : b.WF) : b.toBook.WF := by
  obtain ⟨free, queue, hrep⟩ := h
  refine ⟨?_, restingOn_sorted hrep, nodup_ids hrep, ?_⟩
  · intro s x hx
    obtain ⟨p, i, hi, rfl⟩ := (mem_restingOn hrep).1 hx
    exact (hrep.node s p i hi).1
  · have h₁ := length_listed hrep
    rw [orders_toBook, allRestingOrders_eq_listed hrep, List.length_map]
    show _ ≤ b.arena.capacity.toNat
    omega

/-- The cached best price is the best price. -/
theorem OrderBook.bestPrice_sim {b : OrderBook} (h : b.WF) (s : Side) :
    b.bestPrice s = b.toBook.best s := by
  have hside : b.toBook.side s = b.restingOn s := rfl
  unfold Book.best
  cases hr : b.restingOn s with
  | nil =>
    rw [hside, hr, bestPrice_none h hr]
    rfl
  | cons m ms =>
    rw [hside, hr, (peekFront_sim h hr).1]
    rfl

/-! ## One loop for both sides -/

namespace MatchingEngine

/-- The matching loop against the makers on side `s`. -/
def matchSide (order : Order) (s : Side) : Nat → Matched → Matched
  | 0, m => m
  | fuel + 1, m =>
      if m.quantity = 0 then m
      else
        match m.book.bestPrice s with
        | none => m
        | some best =>
            if Book.crosses order best then
              match m.book.peekFront s best with
              | none => m
              | some maker =>
                  if maker.traderId = order.traderId then { m with selfTrade := true }
                  else
                    let fillQty := min m.quantity maker.quantity
                    match m.book.reduceFrontQuantity s best fillQty with
                    | (book, .error e) => { m with book, error := some e }
                    | (book, .ok makerRemaining) =>
                        matchSide order s fuel { m with
                          book
                          fills := m.fills ++ [{
                            takerOrderId := order.id
                            makerOrderId := maker.id
                            price := maker.price
                            quantity := fillQty
                            makerFullyFilled := makerRemaining = 0 }]
                          quantity := m.quantity - fillQty }
            else m

theorem crosses_bid {order : Order} (h : order.side = .bid) (p : Int64) :
    Book.crosses order p ↔ p ≤ order.price := by
  rw [Book.crosses, h, Int64.le_iff_toInt_le]
  rfl

theorem crosses_ask {order : Order} (h : order.side = .ask) (p : Int64) :
    Book.crosses order p ↔ p ≥ order.price := by
  rw [Book.crosses, h, ge_iff_le, Int64.le_iff_toInt_le]
  simp only [Side.opposite, Side.rank]
  omega

theorem matchBid_eq {order : Order} (h : order.side = .bid) (fuel : Nat) (m : Matched) :
    matchBid order fuel m = matchSide order .ask fuel m := by
  induction fuel generalizing m with
  | zero => rfl
  | succ fuel ih =>
    have hloop : matchBid order fuel = matchSide order .ask fuel := funext ih
    simp only [matchBid, matchSide, OrderBook.bestPrice, crosses_bid h]
    exact hloop ▸ rfl

theorem matchAsk_eq {order : Order} (h : order.side = .ask) (fuel : Nat) (m : Matched) :
    matchAsk order fuel m = matchSide order .bid fuel m := by
  induction fuel generalizing m with
  | zero => rfl
  | succ fuel ih =>
    have hloop : matchAsk order fuel = matchSide order .bid fuel := funext ih
    simp only [matchAsk, matchSide, OrderBook.bestPrice, crosses_ask h]
    exact hloop ▸ rfl

theorem matchLoop_eq (order : Order) (fuel : Nat) (m : Matched) :
    matchLoop order fuel m = matchSide order order.side.opposite fuel m := by
  unfold matchLoop
  cases h : order.side with
  | bid => exact matchBid_eq h fuel m
  | ask => exact matchAsk_eq h fuel m

/-! ## The loop is the sweep -/

theorem matchSide_done {order : Order} {s : Side} {m : Matched} (h : m.quantity = 0) (fuel : Nat) :
    matchSide order s fuel m = m := by
  cases fuel <;> simp [matchSide, h]

/-- The trade of one iteration either exhausts the maker or the taker. -/
theorem fill_cases (q mq : UInt64) :
    (min q mq = mq ∧ mq - min q mq = 0) ∨ (min q mq = q ∧ min q mq ≤ mq ∧ q - min q mq = 0) := by
  have hmin : min q mq = if q ≤ mq then q else mq := rfl
  by_cases h : q ≤ mq
  · rw [hmin, if_pos h]
    exact Or.inr ⟨rfl, h, by simp⟩
  · rw [hmin, if_neg h]
    exact Or.inl ⟨rfl, by simp⟩

theorem min_le_maker (q mq : UInt64) : min q mq ≤ mq := by
  rcases fill_cases q mq with ⟨h, -⟩ | ⟨-, h, -⟩
  · rw [h]
    exact UInt64.le_refl _
  · exact h

theorem taker_exhausted {q mq : UInt64} (h : mq - min q mq ≠ 0) : q - min q mq = 0 := by
  rcases fill_cases q mq with ⟨-, hzero⟩ | ⟨-, -, hzero⟩
  · exact absurd hzero h
  · exact hzero

/-- A loop with fuel for `n` iterations after the first one. -/
theorem eq_of_iteration {α : Type*} {run : Nat → α} {n : Nat} {result : α}
    (h : ∀ fuel, n ≤ fuel → run (fuel + 1) = result) (fuel : Nat) (hfuel : n + 1 ≤ fuel) :
    run fuel = result := by
  obtain ⟨k, rfl⟩ : ∃ k, fuel = k + 1 := ⟨fuel - 1, by omega⟩
  exact h k (by omega)

/-- The loop `m'` reached from `m` what the sweep `sw` says. -/
structure Reaches (s : Side) (m m' : Matched) (sw : Book.Sweep) : Prop where
  wf : m'.book.WF
  book : m'.book.toBook = m.book.toBook.setSide s sw.makers
  fills : m'.fills = m.fills ++ sw.fills
  quantity : m'.quantity = sw.left
  selfTrade : m'.selfTrade = sw.selfTrade
  error : m'.error = none

theorem setSide_restingOn (b : OrderBook) (s : Side) :
    b.toBook.setSide s (b.restingOn s) = b.toBook := by
  simp only [Book.setSide, OrderBook.toBook, Function.update_eq_self]

theorem Reaches.refl {s : Side} {m : Matched} (h : m.book.WF) (hst : m.selfTrade = false)
    (herr : m.error = none) : Reaches s m m ⟨m.book.restingOn s, [], m.quantity, false⟩ :=
  ⟨h, (setSide_restingOn m.book s).symm, by simp, rfl, hst, herr⟩

theorem setSide_setSide (B : Book) (s : Side) (l l' : List Order) :
    (B.setSide s l).setSide s l' = B.setSide s l' := by
  simp [Book.setSide]

/-- **One iteration** with `a` at the front of the makers. -/
theorem matchSide_cons (order : Order) {s : Side} {m : Matched} {a : Order} {as : List Order}
    (h : m.book.WF) (hr : m.book.restingOn s = a :: as) :
    ∃ book : OrderBook, book.WF ∧
      book.toBook = m.book.toBook.setSide s
        (if a.quantity - min m.quantity a.quantity = 0 then as
          else { a with quantity := a.quantity - min m.quantity a.quantity } :: as) ∧
      ∀ fuel, matchSide order s (fuel + 1) m =
        if m.quantity = 0 then m
        else if ¬ Book.crosses order a.price then m
        else if a.traderId = order.traderId then { m with selfTrade := true }
        else matchSide order s fuel { m with
          book
          fills := m.fills ++ [Book.fill order a (min m.quantity a.quantity)]
          quantity := m.quantity - min m.quantity a.quantity } := by
  obtain ⟨hbest, node, hpeek, rfl⟩ := OrderBook.peekFront_sim h hr
  obtain ⟨hwf, hbook, hok⟩ := OrderBook.reduceFrontQuantity_sim h hr
    (min_le_maker m.quantity node.toOrder.quantity)
  refine ⟨_, hwf, hbook, ?_⟩
  intro fuel
  rw [matchSide, hbest]
  have htr : node.toOrder.traderId = node.traderId := rfl
  have hnq : node.toOrder.quantity = node.quantity := rfl
  rw [hnq] at hok
  rw [htr, hnq]
  by_cases hq : m.quantity = 0
  · rw [if_pos hq, if_pos hq]
  by_cases hcross : Book.crosses order node.toOrder.price
  · simp only [hq, hcross, hpeek, not_true_eq_false, if_true, if_false]
    by_cases htrader : node.traderId = order.traderId
    · rw [if_pos htrader, if_pos htrader]
    · rw [if_neg htrader, if_neg htrader]
      generalize m.book.reduceFrontQuantity s node.toOrder.price
        (min m.quantity node.quantity) = r at hok
      obtain ⟨book, res⟩ := r
      obtain rfl : res = .ok (node.quantity - min m.quantity node.quantity) := hok
      rfl
  · simp only [hq, hcross, not_false_eq_true, if_true, if_false]

/-- **The matching loop is the sweep.** It stops within as many iterations as there are makers, so
any bound from there on gives the same result. -/
theorem matchSide_sim (order : Order) (s : Side) (m : Matched) (h : m.book.WF)
    (hst : m.selfTrade = false) (herr : m.error = none) :
    ∃ m', (∀ fuel, (m.book.restingOn s).length ≤ fuel → matchSide order s fuel m = m') ∧
      Reaches s m m' (Book.sweep order (m.book.restingOn s) m.quantity) := by
  generalize hr : m.book.restingOn s = makers
  induction makers generalizing m with
  | nil =>
    have hbest := OrderBook.bestPrice_none h hr
    refine ⟨m, ?_, ?_⟩
    · intro fuel _
      cases fuel <;> simp [matchSide, hbest]
    · rw [Book.sweep, ← hr]
      exact .refl h hst herr
  | cons a as ih =>
    obtain ⟨book, hwf, hbook, hstep⟩ := matchSide_cons order h hr
    rw [Book.sweep]
    by_cases hq : m.quantity = 0
    · simp only [if_pos hq] at hstep ⊢
      exact ⟨m, eq_of_iteration fun fuel _ => hstep fuel, hr ▸ .refl h hst herr⟩
    by_cases hcross : ¬ Book.crosses order a.price
    · simp only [if_neg hq, if_pos hcross] at hstep ⊢
      exact ⟨m, eq_of_iteration fun fuel _ => hstep fuel, hr ▸ .refl h hst herr⟩
    by_cases htrader : a.traderId = order.traderId
    · simp only [if_neg hq, if_neg hcross, if_pos htrader] at hstep ⊢
      refine ⟨_, eq_of_iteration fun fuel _ => hstep fuel, h, ?_, by simp, rfl, rfl, herr⟩
      rw [← hr]
      exact (setSide_restingOn m.book s).symm
    simp only [if_neg hq, if_neg hcross, if_neg htrader] at hstep ⊢
    by_cases hrem : a.quantity - min m.quantity a.quantity = 0
    · -- the maker is exhausted: go on with the rest of the list
      rw [if_pos hrem] at hbook ⊢
      have hrest : book.restingOn s = as := by
        have := congrFun (congrArg Book.side hbook) s
        simpa [OrderBook.toBook, Book.setSide] using this
      obtain ⟨m', hm', hreach⟩ := ih { m with
          book
          fills := m.fills ++ [Book.fill order a (min m.quantity a.quantity)]
          quantity := m.quantity - min m.quantity a.quantity } hwf hst herr hrest
      refine ⟨m', eq_of_iteration fun fuel hfuel => (hstep fuel).trans (hm' fuel hfuel), ?_⟩
      refine ⟨hreach.wf, ?_, ?_, hreach.quantity, hreach.selfTrade, hreach.error⟩
      · rw [← setSide_setSide m.book.toBook s as, ← hbook]
        exact hreach.book
      · rw [hreach.fills, List.append_assoc]
        rfl
    · -- the taker is exhausted: the next test of the loop leaves it
      have htaker := taker_exhausted hrem
      rw [if_neg hrem] at hbook ⊢
      exact ⟨_, eq_of_iteration fun fuel _ => (hstep fuel).trans (matchSide_done htaker fuel),
        hwf, hbook, rfl, rfl, hst, herr⟩

/-! ## The engine -/

theorem withCapacity_sim (c : UInt32) :
    (withCapacity c).book.WF ∧ (withCapacity c).book.toBook = Book.empty c.toNat := by
  refine ⟨⟨_, _, OrderBook.rep_withCapacity c⟩, ?_⟩
  show Book.mk _ _ = Book.mk _ _
  congr 1
  funext s
  cases s <;> rfl

theorem length_restingOn_le {b : OrderBook} (h : b.WF) (s : Side) :
    (b.restingOn s).length ≤ b.orderCount := by
  obtain ⟨free, queue, hrep⟩ := h
  rw [← OrderBook.length_allRestingOrders hrep, OrderBook.allRestingOrders_eq, List.length_append]
  cases s <;> omega

/-- **The engine adds an order as the price-time book does**: same result, same error, same book
afterwards. -/
theorem addOrder_sim {e : MatchingEngine} (h : e.book.WF) (o : Order) :
    (e.addOrder o).1.book.WF ∧ (e.addOrder o).1.book.toBook = (e.book.toBook.add o).1 ∧
      (e.addOrder o).2 = (e.book.toBook.add o).2 := by
  unfold addOrder Book.add
  by_cases hq : o.quantity = 0
  · rw [if_pos hq, if_pos hq]
    exact ⟨h, rfl, rfl⟩
  rw [if_neg hq, if_neg hq]
  obtain ⟨m, hm, hreach⟩ := matchSide_sim o o.side.opposite
    { book := e.book, fills := [], quantity := o.quantity, selfTrade := false, error := none } h
    rfl rfl
  have hloop := hm (e.book.orderCount + 1)
    (Nat.le_succ_of_le (length_restingOn_le h o.side.opposite))
  have hside : e.book.toBook.side o.side.opposite = e.book.restingOn o.side.opposite := rfl
  have hfills : m.fills = (Book.sweep o (e.book.restingOn o.side.opposite) o.quantity).fills :=
    hreach.fills
  simp only [matchLoop_eq, hloop, hreach.error, hreach.selfTrade, hreach.quantity, hfills,
    Book.afterSweep, Book.remainder, Book.swept, hside]
  split_ifs
  · exact ⟨hreach.wf, hreach.book, rfl⟩
  · exact ⟨hreach.wf, hreach.book, rfl⟩
  all_goals
    obtain ⟨hwf, hbook, hres⟩ := OrderBook.insertOrder_sim hreach.wf
      { o with quantity := (Book.sweep o (e.book.restingOn o.side.opposite) o.quantity).left }
    rw [hreach.book] at hbook hres
    simp only at hbook hres
    generalize OrderBook.insertOrder _ _ = r at hwf hbook hres
    obtain ⟨book, res⟩ := r
    generalize Book.insert _ _ = r' at hbook hres
    obtain ⟨B, res'⟩ := r'
    simp only at hbook hres
    subst hbook hres
    cases res with
    | error err => exact ⟨hwf, rfl, rfl⟩
    | ok u => exact ⟨hwf, rfl, rfl⟩

/-- The engine's error for a failed book operation. -/
def liftError {α : Type} : Except BookError α → Except MatchingError α
  | .error e => .error (.book e)
  | .ok a => .ok a

/-- **The engine cancels an order as the price-time book does.** -/
theorem cancelOrder_sim {e : MatchingEngine} (h : e.book.WF) (id : UInt64) :
    (e.cancelOrder id).1.book.WF ∧
      (e.cancelOrder id).1.book.toBook = (e.book.toBook.cancel id).1 ∧
      (e.cancelOrder id).2 = liftError (e.book.toBook.cancel id).2 := by
  obtain ⟨hwf, hbook, hres⟩ := OrderBook.cancelOrder_sim h id
  unfold cancelOrder
  generalize e.book.cancelOrder id = r at hwf hbook hres
  obtain ⟨book, res⟩ := r
  rw [← hbook, ← hres]
  cases res <;> exact ⟨hwf, rfl, rfl⟩

theorem insertAll_sim {b : OrderBook} (h : b.WF) (os : List Order) :
    (∀ e, insertAll os b = .error e → Book.insertAll os b.toBook = .error e) ∧
      ∀ b', insertAll os b = .ok b' →
        b'.WF ∧ Book.insertAll os b.toBook = .ok b'.toBook := by
  induction os generalizing b with
  | nil =>
    constructor
    · intro e he
      cases he
    · intro b' hb'
      cases hb'
      exact ⟨h, rfl⟩
  | cons o os ih =>
    obtain ⟨hwf, hbook, hres⟩ := OrderBook.insertOrder_sim h o
    unfold insertAll Book.insertAll
    generalize b.insertOrder o = r at hwf hbook hres
    generalize b.toBook.insert o = R at hbook hres
    obtain ⟨b₁, res⟩ := r
    obtain ⟨B₁, res'⟩ := R
    simp only at hbook hres hwf
    subst hbook hres
    cases res with
    | error e =>
      constructor
      · intro e' he'
        cases he'
        rfl
      · intro b' hb'
        cases hb'
    | ok u => exact ih hwf

/-- **Rebuilding a book from a list of orders**: the engine refuses what the price-time book
refuses, and otherwise represents what it builds. -/
theorem restoreFromOrders_sim (os : List Order) (c : UInt32) :
    (∀ e, restoreFromOrders os c = .error e →
        ∃ e', e = .book e' ∧ Book.insertAll os (Book.empty c.toNat) = .error e') ∧
      ∀ e, restoreFromOrders os c = .ok e →
        e.book.WF ∧ Book.insertAll os (Book.empty c.toNat) = .ok e.book.toBook := by
  obtain ⟨hwf, hempty⟩ := withCapacity_sim c
  obtain ⟨herr, hok⟩ := insertAll_sim hwf os
  rw [hempty] at herr hok
  have hbook : (withCapacity c).book = OrderBook.withCapacity c := rfl
  rw [hbook] at herr hok
  unfold restoreFromOrders
  generalize insertAll os (OrderBook.withCapacity c) = r at herr hok
  cases r with
  | error e =>
    constructor
    · intro e' he'
      cases he'
      exact ⟨e, rfl, herr e rfl⟩
    · intro e' he'
      cases he'
  | ok b =>
    constructor
    · intro e' he'
      cases he'
    · intro e' he'
      cases he'
      exact hok b rfl

/-- **A captured book can be restored**, into any capacity that holds it, and is the same book. -/
theorem restoreFromOrders_allRestingOrders {b : OrderBook} (h : b.WF) {c : UInt32}
    (hc : b.allRestingOrders.length ≤ c.toNat) :
    ∃ e, restoreFromOrders b.allRestingOrders c = .ok e ∧ e.book.WF ∧
      e.book.toBook = ⟨c.toNat, b.toBook.side⟩ := by
  have hB : Book.insertAll b.allRestingOrders (Book.empty c.toNat) = .ok ⟨c.toNat, b.toBook.side⟩ :=
    Book.insertAll_orders h.wf_toBook hc
  obtain ⟨herr, hok⟩ := restoreFromOrders_sim b.allRestingOrders c
  cases hr : restoreFromOrders b.allRestingOrders c with
  | error e =>
    obtain ⟨e', -, he'⟩ := herr e hr
    rw [hB] at he'
    cases he'
  | ok e =>
    obtain ⟨hwf, hbook⟩ := hok e hr
    rw [hB] at hbook
    exact ⟨e, rfl, hwf, (Except.ok.inj hbook).symm⟩

end MatchingEngine

end Ferrox
