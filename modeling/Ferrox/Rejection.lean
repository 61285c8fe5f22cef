import Ferrox.Views

/-!
# Orders that are refused

`add_order` trades first and checks the id last, when it queues what is left. So an order whose id
is already in the book is refused as it should be only if nothing stands in its way: if there is a
maker within its limit, the order trades, or stops at an order of its own trader, before the check
is reached (`duplicate_refused_iff`). And an order that is refused after it traded has changed the
book (`refused_unchanged_iff`).

No call fails for any other reason than the id, the room and the quantity of its order, and a
cancellation only for want of the order (`failures_of_reachable`).
-/

namespace Ferrox

open Ranked

/-! ## On the price-time book -/

namespace Book

variable {B : Book} {o : Order}

/-- **The trades of the order are swallowed**: it trades with every crossing maker, has something
left, and its id belongs to a resting order that is not among those makers. -/
def Swallowed (resting : List Order) (o : Order) : Prop :=
  let makers := resting.filter fun m => m.side = o.side.opposite ∧ crosses o m.price
  0 < (makers.map (·.quantity.toNat)).sum ∧
    (makers.map (·.quantity.toNat)).sum < o.quantity.toNat ∧
    (∀ m ∈ makers, m.traderId ≠ o.traderId) ∧
    ∃ x ∈ resting, x.id = o.id ∧ x ∉ makers

theorem makers_eq (h : B.WF) (o : Order) :
    (B.orders.filter fun m => m.side = o.side.opposite ∧ crosses o m.price) =
      crossing o (B.side o.side.opposite) := by
  rw [crossing, ← filter_orders h, List.filter_filter]
  apply List.filter_congr
  intro m _
  simp [and_comm]

theorem mem_afterSweep_of_through (h : B.WF) (hst : (B.swept o).selfTrade = false)
    (hl : (B.swept o).left ≠ 0) {x : Order} :
    x ∈ (B.afterSweep o).orders ↔
      x ∈ B.orders ∧ x ∉ B.orders.filter fun m => m.side = o.side.opposite ∧ crosses o m.price := by
  obtain ⟨hmakers, -⟩ := sweep_through (h.sorted o.side.opposite) o.quantity hst hl
  have hmem : ∀ s, x ∈ (B.afterSweep o).side s ↔
      x ∈ B.side s ∧ (s = o.side.opposite → ¬ crosses o x.price) := by
    intro s
    by_cases hs : s = o.side.opposite
    · subst hs
      rw [side_afterSweep_opposite, swept, hmakers, List.mem_filter]
      simp
    · rw [afterSweep, side_setSide_of_ne hs]
      simp [hs]
  rw [mem_orders, List.mem_filter, mem_orders]
  simp only [hmem, decide_eq_true_eq]
  constructor
  · rintro ⟨s, hx, hn⟩
    refine ⟨⟨s, hx⟩, ?_⟩
    rintro ⟨-, hside, hc⟩
    exact hn ((h.side s x hx).symm.trans hside) hc
  · rintro ⟨⟨s, hx⟩, hn⟩
    refine ⟨s, hx, ?_⟩
    intro hs hc
    exact hn ⟨⟨s, hx⟩, (h.side s x hx).trans hs, hc⟩

theorem length_afterSweep_lt (hf : (B.swept o).fills ≠ []) (hl : (B.swept o).left ≠ 0) :
    (B.afterSweep o).orders.length < B.orders.length := by
  have hlt := length_sweep_makers_lt o (B.side o.side.opposite) o.quantity hf hl
  unfold afterSweep swept orders
  rw [List.length_append, List.length_append]
  generalize (sweep o (B.side o.side.opposite) o.quantity).makers = makers at hlt
  generalize o.side.opposite = s at hlt
  cases s with
  | ask =>
    rw [side_setSide_self, side_setSide_of_ne (by decide)]
    omega
  | bid =>
    rw [side_setSide_self, side_setSide_of_ne (by decide)]
    omega

theorem side_add_opposite (B : Book) (o : Order) :
    (B.add o).1.side o.side.opposite = (B.swept o).makers := by
  have hafter := side_afterSweep_opposite B o
  have hadd := added B o
  generalize B.add o = r at hadd
  cases hadd with
  | zero hq =>
    unfold swept
    rw [hq]
    cases B.side o.side.opposite with
    | nil => rfl
    | cons m ms => rw [sweep, if_pos rfl]
  | ended => exact hafter
  | refused => exact hafter
  | queued hq hst hl B' hi r hr =>
    obtain ⟨-, -, rfl⟩ := insert_ok hi
    exact (side_setSide_of_ne (Side.opposite_ne _)).trans hafter

theorem fills_of_ok {r : AddOrderResult} (h : (B.add o).2 = .ok r) :
    r.fills = (B.swept o).fills := by
  have hadd := added B o
  generalize B.add o = res at hadd h
  cases hadd with
  | zero => cases h
  | ended hq hend r' hr =>
    cases h
    exact hr
  | refused => cases h
  | queued hq hst hl B' hi r' hr =>
    cases h
    exact hr

/-- Trading makes room for the remainder, so that it can be refused for its id only. -/
theorem exists_id_of_refused (h : B.WF) (hst : (B.swept o).selfTrade = false)
    (hl : (B.swept o).left ≠ 0) (hfills : (B.swept o).fills ≠ []) {e : BookError}
    (hi : (B.afterSweep o).insert (B.remainder o) = (B.afterSweep o, .error e)) :
    ∃ x ∈ B.orders, x.id = o.id ∧
      x ∉ crossing o (B.side o.side.opposite) := by
  rcases insert_error hi with ⟨hid, -⟩ | ⟨-, hfull, -⟩
  · obtain ⟨x, hx, hxid⟩ := List.mem_map.1 hid
    have hmem := (mem_afterSweep_of_through h hst hl).1 hx
    rw [makers_eq h] at hmem
    exact ⟨x, hmem.1, hxid, hmem.2⟩
  · exact absurd (length_afterSweep_lt hfills hl) (not_lt.2 (h.room.trans hfull))

/-- **The trades of an order are swallowed** just in case it trades something and is refused. -/
theorem swallowed_iff (h : B.WF) (o : Order) :
    Swallowed B.orders o ↔ (∃ err, (B.add o).2 = .error err) ∧
      0 < ((B.swept o).fills.map (·.quantity.toNat)).sum := by
  have hthrough := sweep_through_iff (h.sorted o.side.opposite) o.quantity
  have hswallowed : Swallowed B.orders o →
      (B.swept o).selfTrade = false ∧ (B.swept o).left ≠ 0 := by
    rintro ⟨-, hlt, htraders, -⟩
    rw [makers_eq h] at hlt htraders
    exact hthrough.2 ⟨htraders, hlt⟩
  have hadd := added B o
  generalize B.add o = r at hadd
  cases hadd with
  | zero hq =>
    refine ⟨fun hsw => absurd hsw.2.1 ?_, fun hpos => absurd hpos.2 ?_⟩
    · rw [hq]
      exact Nat.not_lt_zero _
    · have hleft := sweep_left o (B.side o.side.opposite) o.quantity
      rw [hq] at hleft
      rw [swept, hq]
      exact Nat.not_lt.2 (Nat.le_trans (Nat.le_add_left _ _) (Nat.le_of_eq hleft.symm))
  | ended hq hend r hr =>
    constructor
    · intro hsw
      obtain ⟨hst, hl⟩ := hswallowed hsw
      rcases hend with hend | hend
      · rw [hst] at hend
        cases hend
      · exact absurd hend hl
    · intro herr
      obtain ⟨⟨err, herr⟩, -⟩ := herr
      cases herr
  | queued hq hst hl B' hi r hr =>
    constructor
    · intro hsw
      obtain ⟨-, -, -, x, hx, hxid, hnot⟩ := hsw
      obtain ⟨hid, -, -⟩ := insert_ok hi
      have hmem : x ∈ (B.afterSweep o).orders :=
        (mem_afterSweep_of_through h hst hl).2 ⟨hx, hnot⟩
      exact absurd (List.mem_map.2 ⟨x, hmem, hxid⟩) hid
    · intro herr
      obtain ⟨⟨err, herr⟩, -⟩ := herr
      cases herr
  | refused hq hst hl e hi =>
    obtain ⟨-, hsum⟩ := sweep_through (h.sorted o.side.opposite) o.quantity hst hl
    obtain ⟨htraders, hlt⟩ := hthrough.1 ⟨hst, hl⟩
    unfold Swallowed
    simp only [makers_eq h]
    rw [swept, hsum]
    refine ⟨fun hsw => ⟨⟨_, rfl⟩, hsw.1⟩, ?_⟩
    rintro ⟨-, hpos⟩
    have hfills : (B.swept o).fills ≠ [] := by
      intro hnil
      rw [swept] at hnil
      rw [hnil] at hsum
      exact absurd hsum.symm hpos.ne'
    refine ⟨hpos, hlt, htraders, ?_⟩
    exact exists_id_of_refused h hst hl hfills hi

theorem afterSweep_eq_self (h : (B.swept o).fills = []) : B.afterSweep o = B := by
  unfold afterSweep
  rw [swept, sweep_makers_of_fills_nil o _ _ h]
  simp only [setSide, Function.update_eq_self]

/-- A sweep that got past all crossing makers and left the side as it was met none. -/
theorem not_crosses_of_unchanged (h : B.WF) (hst : (B.swept o).selfTrade = false)
    (hl : (B.swept o).left ≠ 0) (hmakers : (B.swept o).makers = B.side o.side.opposite) :
    ∀ m ∈ B.side o.side.opposite, ¬ crosses o m.price := by
  obtain ⟨hthrough, -⟩ := sweep_through (h.sorted o.side.opposite) o.quantity hst hl
  intro m hm
  rw [← hmakers, swept, hthrough, List.mem_filter] at hm
  simpa using hm.2

theorem add_of_not_crosses (hq : o.quantity ≠ 0)
    (hcross : ∀ m ∈ B.side o.side.opposite, ¬ crosses o m.price) :
    B.add o = ((B.insert o).1, match (B.insert o).2 with
      | .error e => .error (.book e)
      | .ok () => .ok { orderId := o.id, status := .resting, fills := [] }) := by
  have hswept : B.swept o = ⟨B.side o.side.opposite, [], o.quantity, false⟩ :=
    sweep_of_not_crosses hcross
  have hafter : B.afterSweep o = B := afterSweep_eq_self (by rw [hswept])
  have hremainder : B.remainder o = o := by
    unfold remainder
    rw [hswept]
  unfold add
  rw [if_neg hq, hafter, hremainder, hswept]
  simp only [Bool.false_eq_true, if_false, if_neg hq, if_true]
  generalize B.insert o = r
  obtain ⟨B', res⟩ := r
  cases res <;> rfl

/-- **A refused order leaves the book as it was** just in case its trades were not swallowed. -/
theorem unchanged_iff (h : B.WF) (hpos : B.Positive) (o : Order) :
    ((∃ err, (B.add o).2 = .error err) → (B.add o).1 = B) ↔ ¬ Swallowed B.orders o := by
  rw [swallowed_iff h]
  constructor
  · rintro hunchanged ⟨herr, hsum⟩
    -- an unchanged book has lost nothing to the fills
    have hmakers := side_add_opposite B o
    rw [hunchanged herr] at hmakers
    have hzero : ∀ id, filledQuantity (B.swept o).fills id = 0 := by
      intro id
      have haccounts := sweep_accounts o (B.side o.side.opposite) o.quantity id
      unfold swept at hmakers ⊢
      rw [← hmakers] at haccounts
      omega
    rw [filledQuantity_eq_zero_iff] at hzero
    omega
  · intro hsum herr
    have hfills : (B.swept o).fills = [] := by
      by_contra hne
      exact hsum ⟨herr, sum_fills_pos o _ _ (fun m hm => hpos m (mem_orders.2 ⟨_, hm⟩)) hne⟩
    have hafter := afterSweep_eq_self hfills
    obtain ⟨err, herr⟩ := herr
    have hadd := added B o
    generalize B.add o = r at hadd herr
    cases hadd with
    | zero => rfl
    | ended => cases herr
    | refused => exact hafter
    | queued => cases herr

/-- **An order with the id of a resting one is refused, and changes nothing**, just in case no maker
is within its limit. -/
theorem duplicate_iff (h : B.WF) (hq : o.quantity ≠ 0) (hid : o.id ∈ B.orders.map (·.id)) :
    ((B.add o).2 = .error (.book (.duplicateOrderId o.id)) ∧ (B.add o).1 = B) ↔
      ∀ m ∈ B.side o.side.opposite, ¬ crosses o m.price := by
  constructor
  · rintro ⟨herr, hunchanged⟩
    have hmakers := side_add_opposite B o
    rw [hunchanged] at hmakers
    have hadd := added B o
    generalize B.add o = r at hadd herr
    cases hadd with
    | zero hq' => exact absurd hq' hq
    | ended => cases herr
    | queued => cases herr
    | refused _ hst hl => exact not_crosses_of_unchanged h hst hl hmakers.symm
  · intro hcross
    rw [add_of_not_crosses hq hcross]
    simp only [insert, if_pos hid]
    exact ⟨trivial, trivial⟩

/-! ### Orders that find no room -/

/-- **The order is out of room**: it has a quantity to be queued, no maker within its limit, a new
id, and all of the `c` slots are taken. -/
def OutOfRoom (resting : List Order) (c : Nat) (o : Order) : Prop :=
  o.quantity ≠ 0 ∧ (∀ m ∈ resting, m.side = o.side.opposite → ¬ crosses o m.price) ∧
    (∀ x ∈ resting, x.id ≠ o.id) ∧ c ≤ resting.length

theorem not_crosses_iff (h : B.WF) (o : Order) :
    (∀ m ∈ B.orders, m.side = o.side.opposite → ¬ crosses o m.price) ↔
      ∀ m ∈ B.side o.side.opposite, ¬ crosses o m.price := by
  rw [← filter_orders h]
  simp only [List.mem_filter, decide_eq_true_eq, and_imp]

/-- **An order finds the arena full** just in case it is out of room: one that trades either is used
up or makes room. -/
theorem arenaFull_iff (h : B.WF) (o : Order) :
    (B.add o).2 = .error (.book .arenaFull) ↔ OutOfRoom B.orders B.capacity o := by
  unfold OutOfRoom
  rw [not_crosses_iff h]
  constructor
  · intro hfull
    have hadd := added B o
    generalize B.add o = r at hadd hfull
    cases hadd with
    | zero => cases hfull
    | ended => cases hfull
    | queued => cases hfull
    | refused hq hst hl e hi =>
      obtain rfl := MatchingError.book.inj (Except.error.inj hfull)
      rcases insert_error hi with ⟨-, herr⟩ | ⟨hid, hlen, -⟩
      · cases herr
      · have hfills : (B.swept o).fills = [] := by
          by_contra hne
          exact absurd (length_afterSweep_lt hne hl) (not_lt.2 (h.room.trans hlen))
        have hself := afterSweep_eq_self hfills
        rw [hself] at hid hlen
        have hmakers : (B.swept o).makers = B.side o.side.opposite :=
          sweep_makers_of_fills_nil o _ _ hfills
        refine ⟨hq, not_crosses_of_unchanged h hst hl hmakers, ?_, hlen⟩
        intro x hx hxid
        exact hid (List.mem_map.2 ⟨x, hx, hxid⟩)
  · rintro ⟨hq, hcross, hid, hlen⟩
    have hid' : o.id ∉ B.orders.map (·.id) := by simpa using hid
    rw [add_of_not_crosses hq hcross]
    simp only [insert, if_neg hid', if_pos hlen]

/-- **The only errors of an order**: those of the internal lookups are never returned. -/
theorem error_of_add {err : MatchingError} (h : (B.add o).2 = .error err) :
    err = .zeroQuantity ∨ err = .book (.duplicateOrderId o.id) ∨ err = .book .arenaFull := by
  have hadd := added B o
  generalize B.add o = r at hadd h
  cases hadd with
  | zero =>
    left
    exact (Except.error.inj h).symm
  | ended => cases h
  | queued => cases h
  | refused hq hst hl e hi =>
    right
    obtain rfl := Except.error.inj h
    rcases insert_error hi with ⟨-, herr⟩ | ⟨-, -, herr⟩
    · exact Or.inl (congrArg _ herr)
    · exact Or.inr (congrArg _ herr)

/-- **A cancellation takes out the order under the id** and leaves all others in their order. -/
theorem cancel_resting (h : B.WF) {x : Order} (hx : x ∈ B.orders) :
    ∃ l₁ l₂, B.orders = l₁ ++ x :: l₂ ∧ (B.cancel x.id).1.orders = l₁ ++ l₂ ∧
      (B.cancel x.id).2 = .ok x := by
  have hnodup := h.nodup
  have hfind := OrderBook.find?_id_eq hnodup hx
  have horders : (B.cancel x.id).1.orders = B.orders.filter (·.id ≠ x.id) := by
    rw [cancel, hfind]
    exact (List.filter_append _ _).symm
  obtain ⟨l₁, l₂, hsplit⟩ := List.append_of_mem hx
  rw [hsplit, List.map_append, List.map_cons, List.nodup_middle, ← List.map_append,
    List.nodup_cons] at hnodup
  have hkeep : ∀ y ∈ l₁ ++ l₂, y.id ≠ x.id := by
    intro y hy hid
    exact hnodup.1 (List.mem_map.2 ⟨y, hy, hid⟩)
  refine ⟨l₁, l₂, hsplit, ?_, ?_⟩
  · rw [horders, hsplit, List.filter_append, List.filter_cons_of_neg (by simp),
      ← List.filter_append]
    exact List.filter_eq_self.2 fun y hy => decide_eq_true (hkeep y hy)
  · simp only [cancel, hfind]

end Book

/-! ## On the engine -/

namespace MatchingEngine

variable {c : UInt32} {e e' : MatchingEngine} {o : Order}

/-- Nothing that can be seen of the two engines is different, now or later. -/
def Indistinguishable (e e' : MatchingEngine) : Prop :=
  e.shown = e'.shown ∧ ∀ ops, e.views ops = e'.views ops

theorem indistinguishable_iff (h : e.book.WF) (h' : e'.book.WF)
    (hcap : e'.book.toBook.capacity = e.book.toBook.capacity) :
    Indistinguishable e' e ↔ e'.book.toBook = e.book.toBook := by
  constructor
  · rintro ⟨hshown, -⟩
    refine h.wf_toBook.ext h'.wf_toBook hcap ?_
    exact congrArg Shown.resting hshown
  · exact views_eq_of_toBook_eq h h'

/-- **An order that is refused changes nothing** just in case its trades are not swallowed: not
visible now, and not in the result of any later call. -/
theorem refused_unchanged_iff (h : Reachable c e) (o : Order) :
    ((∃ err, (e.addOrder o).2 = .error err) → Indistinguishable (e.addOrder o).1 e) ↔
      ¬ Book.Swallowed e.book.allRestingOrders o := by
  have hsound := h.sound
  obtain ⟨hwf, hbook, hresult⟩ := addOrder_sim hsound.wf o
  have hcap : (e.addOrder o).1.book.toBook.capacity = e.book.toBook.capacity := by
    rw [hbook, Book.capacity_add]
  rw [indistinguishable_iff hsound.wf hwf hcap, hbook, hresult, ← OrderBook.orders_toBook]
  exact Book.unchanged_iff hsound.wf.wf_toBook hsound.positive o

/-- An order that finds the arena full. -/
theorem refused_unchanged_iff_full :
    let e := ((withCapacity 1).addOrder ⟨1, 10, .ask, 100, 5, 7⟩).1
    (e.addOrder ⟨2, 11, .ask, 90, 1, 8⟩).2 = .error (.book .arenaFull) ∧
      Indistinguishable (e.addOrder ⟨2, 11, .ask, 90, 1, 8⟩).1 e := by
  intro e
  have hfull : (e.addOrder ⟨2, 11, .ask, 90, 1, 8⟩).2 = .error (.book .arenaFull) := by
    decide +kernel
  refine ⟨hfull, (refused_unchanged_iff (c := 1) (e := e) (.add (.init 1) _)
    ⟨2, 11, .ask, 90, 1, 8⟩).2 ?_ ⟨_, hfull⟩⟩
  rintro ⟨hpos, -⟩
  revert hpos
  decide +kernel

/-- **A refused order that changed the book.** It takes the ask away, and its remainder is refused
because its id is that of the resting bid. -/
theorem not_unchanged_duplicate_id :
    let e := (((withCapacity 4).addOrder ⟨1, 10, .ask, 100, 5, 7⟩).1.addOrder
      ⟨2, 11, .bid, 90, 1, 8⟩).1
    Reachable 4 e ∧
      (e.addOrder ⟨2, 12, .bid, 100, 8, 9⟩).2 = .error (.book (.duplicateOrderId 2)) ∧
      e.shown.resting = [⟨1, 10, .ask, 100, 5, 7⟩, ⟨2, 11, .bid, 90, 1, 8⟩] ∧
      (e.addOrder ⟨2, 12, .bid, 100, 8, 9⟩).1.shown.resting = [⟨2, 11, .bid, 90, 1, 8⟩] ∧
      ¬ Indistinguishable (e.addOrder ⟨2, 12, .bid, 100, 8, 9⟩).1 e := by
  intro e
  have hbefore : e.shown.resting = [⟨1, 10, .ask, 100, 5, 7⟩, ⟨2, 11, .bid, 90, 1, 8⟩] := by
    decide +kernel
  have hafter : (e.addOrder ⟨2, 12, .bid, 100, 8, 9⟩).1.shown.resting =
      [⟨2, 11, .bid, 90, 1, 8⟩] := by decide +kernel
  refine ⟨.add (.add (.init 4) _) _, by decide +kernel, hbefore, hafter, ?_⟩
  rintro ⟨hshown, -⟩
  rw [hshown, hbefore] at hafter
  cases hafter

/-! ## Ids that are in use -/

/-- The order is refused for its id: no fill, and nothing that can be seen is different. -/
def RefusedAsDuplicate (e : MatchingEngine) (o : Order) : Prop :=
  (e.addOrder o).2 = .error (.book (.duplicateOrderId o.id)) ∧ (e.addOrder o).1.fillsBuf = [] ∧
    Indistinguishable (e.addOrder o).1 e

theorem fillsBuf_addOrder (h : e.book.WF) (hq : o.quantity ≠ 0) :
    (e.addOrder o).1.fillsBuf = (e.book.toBook.swept o).fills := by
  unfold addOrder
  rw [if_neg hq]
  obtain ⟨m, hm, hreach⟩ := matchSide_sim o o.side.opposite
    { book := e.book, fills := [], quantity := o.quantity, selfTrade := false, error := none } h
    rfl rfl
  have hloop := hm (e.book.orderCount + 1)
    (Nat.le_succ_of_le (length_restingOn_le h o.side.opposite))
  have hfills : m.fills = (e.book.toBook.swept o).fills := hreach.fills
  simp only [matchLoop_eq, hloop, hreach.error]
  rw [← hfills]
  split_ifs
  · rfl
  · rfl
  all_goals
    generalize OrderBook.insertOrder _ _ = r
    obtain ⟨book, result⟩ := r
    cases result <;> rfl

/-- **An order with the id of a resting order is refused, without a fill and without a change**, just
in case no resting order of the other side is within its limit. -/
theorem duplicate_refused_iff (h : Reachable c e) (hq : 0 < o.quantity)
    (hid : ∃ x ∈ e.book.allRestingOrders, x.id = o.id) :
    e.RefusedAsDuplicate o ↔ ∀ m ∈ e.book.allRestingOrders, m.side = o.side.opposite →
      ¬ Book.crosses o m.price := by
  have hsound := h.sound
  have hB := hsound.wf.wf_toBook
  have hq' : o.quantity ≠ 0 := UInt64.pos_iff_ne_zero.1 hq
  obtain ⟨hwf, hbook, hresult⟩ := addOrder_sim hsound.wf o
  have hcap : (e.addOrder o).1.book.toBook.capacity = e.book.toBook.capacity := by
    rw [hbook, Book.capacity_add]
  have hside : (∀ m ∈ e.book.allRestingOrders, m.side = o.side.opposite →
      ¬ Book.crosses o m.price) ↔
      ∀ m ∈ e.book.toBook.side o.side.opposite, ¬ Book.crosses o m.price := by
    rw [← Book.filter_orders hB, OrderBook.orders_toBook]
    simp only [List.mem_filter, decide_eq_true_eq, and_imp]
  have hdup := Book.duplicate_iff hB hq' (List.mem_map.2 hid)
  unfold RefusedAsDuplicate
  rw [hside, ← hdup, indistinguishable_iff hsound.wf hwf hcap, hbook, hresult,
    fillsBuf_addOrder hsound.wf hq']
  constructor
  · rintro ⟨herr, -, hunchanged⟩
    exact ⟨herr, hunchanged⟩
  · rintro ⟨herr, hunchanged⟩
    refine ⟨herr, ?_, hunchanged⟩
    rw [Book.swept, Book.sweep_of_not_crosses (hdup.1 ⟨herr, hunchanged⟩)]

/-- A second bid under the id of the first. -/
theorem duplicate_refused_iff_bid :
    let e := ((withCapacity 4).addOrder ⟨1, 10, .bid, 100, 5, 7⟩).1
    e.RefusedAsDuplicate ⟨1, 11, .bid, 105, 2, 8⟩ := by
  intro e
  refine (duplicate_refused_iff (c := 4) (e := e) (o := ⟨1, 11, .bid, 105, 2, 8⟩)
    (.add (.init 4) _) (by decide) ?_).2 ?_
  · exact ⟨⟨1, 10, .bid, 100, 5, 7⟩, by decide +kernel, rfl⟩
  · have hresting : e.book.allRestingOrders = [⟨1, 10, .bid, 100, 5, 7⟩] := by decide +kernel
    rw [hresting]
    simp [Side.opposite]

/-- **An id that is accepted twice.** The second order takes the very order whose id it has, and
another one stops at an order of its own trader. -/
theorem not_refused_duplicate_id :
    let e := ((withCapacity 4).addOrder ⟨1, 10, .ask, 100, 5, 7⟩).1
    Reachable 4 e ∧ e.book.allRestingOrders = [⟨1, 10, .ask, 100, 5, 7⟩] ∧
      (e.addOrder ⟨1, 11, .bid, 100, 5, 8⟩).2 =
        .ok ⟨1, .fullyFilled, [⟨1, 1, 100, 5, true⟩]⟩ ∧
      (e.addOrder ⟨1, 10, .bid, 100, 5, 8⟩).2 = .ok ⟨1, .cancelledSelfTrade, []⟩ ∧
      ¬ e.RefusedAsDuplicate ⟨1, 11, .bid, 100, 5, 8⟩ := by
  intro e
  have hfilled : (e.addOrder ⟨1, 11, .bid, 100, 5, 8⟩).2 =
      .ok ⟨1, .fullyFilled, [⟨1, 1, 100, 5, true⟩]⟩ := by decide +kernel
  refine ⟨.add (.init 4) _, by decide +kernel, hfilled, by decide +kernel, ?_⟩
  rintro ⟨herr, -⟩
  rw [hfilled] at herr
  cases herr

/-! ## Exactly when operations fail -/

theorem cancelOrder_of_not_resting (h : e.book.WF) {id : UInt64}
    (hid : ∀ x ∈ e.book.allRestingOrders, x.id ≠ id) :
    e.cancelOrder id = (e, .error (.book (.orderNotFound id))) := by
  obtain ⟨free, queue, hrep⟩ := h
  have hlook : e.book.orderIndex.lookup id = none := by
    rw [AList.lookup_eq_none, OrderBook.mem_orderIndex_iff hrep, List.mem_map]
    rintro ⟨x, hx, hxid⟩
    exact hid x hx hxid
  simp only [cancelOrder, OrderBook.cancelOrder, hlook]

theorem cancelOrder_of_resting (h : e.book.WF) {x : Order} (hx : x ∈ e.book.allRestingOrders) :
    ∃ l₁ l₂, e.book.allRestingOrders = l₁ ++ x :: l₂ ∧
      (e.cancelOrder x.id).1.book.allRestingOrders = l₁ ++ l₂ ∧
      (e.cancelOrder x.id).2 = .ok x := by
  obtain ⟨-, hbook, hresult⟩ := cancelOrder_sim h x.id
  obtain ⟨l₁, l₂, hsplit, hafter, hok⟩ := Book.cancel_resting h.wf_toBook hx
  refine ⟨l₁, l₂, hsplit, ?_, ?_⟩
  · rw [← OrderBook.orders_toBook, hbook]
    exact hafter
  · rw [hresult, hok]
    rfl

theorem resting_of_cancelOrder (h : e.book.WF) {id : UInt64} {x : Order}
    (hx : (e.cancelOrder id).2 = .ok x) : x ∈ e.book.allRestingOrders ∧ x.id = id := by
  by_cases hid : ∃ y ∈ e.book.allRestingOrders, y.id = id
  · obtain ⟨y, hy, rfl⟩ := hid
    obtain ⟨l₁, l₂, -, -, hres⟩ := cancelOrder_of_resting h hy
    rw [hres] at hx
    cases hx
    exact ⟨hy, rfl⟩
  · push Not at hid
    rw [cancelOrder_of_not_resting h hid] at hx
    cases hx

/-- **How the operations of an engine with `c` slots fail.** -/
structure Failures (c : UInt32) (e : MatchingEngine) : Prop where
  /-- An order is refused for its quantity, for its id or for want of room, and for nothing else. -/
  error : ∀ o err, (e.addOrder o).2 = .error err →
    err = .zeroQuantity ∨ err = .book (.duplicateOrderId o.id) ∨ err = .book .arenaFull
  /-- The arena is full when all slots are taken and the order neither trades nor is a duplicate. -/
  arenaFull : ∀ o, (e.addOrder o).2 = .error (.book .arenaFull) ↔
    0 < o.quantity ∧ e.book.allRestingOrders.length = c.toNat ∧
      (∀ m ∈ e.book.allRestingOrders, m.side = o.side.opposite → ¬ Book.crosses o m.price) ∧
      ∀ x ∈ e.book.allRestingOrders, x.id ≠ o.id
  noFill : ∀ o, (e.addOrder o).2 = .error (.book .arenaFull) → (e.addOrder o).1.fillsBuf = []
  /-- A cancellation returns the order under its id, with what is left of it. -/
  cancelled : ∀ id x, (e.cancelOrder id).2 = .ok x ↔ x ∈ e.book.allRestingOrders ∧ x.id = id
  /-- It removes that order and nothing else. -/
  removed : ∀ id x, (e.cancelOrder id).2 = .ok x → ∃ l₁ l₂,
    e.book.allRestingOrders = l₁ ++ x :: l₂ ∧
      (e.cancelOrder id).1.book.allRestingOrders = l₁ ++ l₂
  /-- Without such an order it changes nothing. -/
  notFound : ∀ id, (∀ x ∈ e.book.allRestingOrders, x.id ≠ id) →
    e.cancelOrder id = (e, .error (.book (.orderNotFound id)))

/-- **Exactly when operations fail**, in every reachable state. -/
theorem failures_of_reachable (h : Reachable c e) : Failures c e := by
  have hsound := h.sound
  have hB := hsound.wf.wf_toBook
  have hadd : ∀ o, (e.addOrder o).2 = (e.book.toBook.add o).2 := fun o =>
    (addOrder_sim hsound.wf o).2.2
  have hfull : ∀ o, (e.addOrder o).2 = .error (.book .arenaFull) ↔
      Book.OutOfRoom e.book.allRestingOrders c.toNat o := by
    intro o
    rw [hadd, Book.arenaFull_iff hB, hsound.capacity]
    rfl
  refine ⟨?_, ?_, ?_, ?_, ?_, fun id hid => cancelOrder_of_not_resting hsound.wf hid⟩
  · intro o err herr
    rw [hadd] at herr
    exact Book.error_of_add herr
  · intro o
    have hroom := hB.room
    rw [hsound.capacity, OrderBook.orders_toBook] at hroom
    rw [hfull]
    constructor
    · rintro ⟨hq, hcross, hid, hlen⟩
      exact ⟨UInt64.pos_iff_ne_zero.2 hq, le_antisymm hroom hlen, hcross, hid⟩
    · rintro ⟨hq, hlen, hcross, hid⟩
      exact ⟨UInt64.pos_iff_ne_zero.1 hq, hcross, hid, hlen.ge⟩
  · intro o herr
    obtain ⟨hq, hcross, -, -⟩ := (hfull o).1 herr
    rw [fillsBuf_addOrder hsound.wf hq, Book.swept,
      Book.sweep_of_not_crosses ((Book.not_crosses_iff hB o).1 hcross)]
  · intro id x
    refine ⟨resting_of_cancelOrder hsound.wf, ?_⟩
    rintro ⟨hx, rfl⟩
    obtain ⟨l₁, l₂, -, -, hres⟩ := cancelOrder_of_resting hsound.wf hx
    exact hres
  · intro id x hx
    obtain ⟨hmem, rfl⟩ := resting_of_cancelOrder hsound.wf hx
    obtain ⟨l₁, l₂, hsplit, hafter, -⟩ := cancelOrder_of_resting hsound.wf hmem
    exact ⟨l₁, l₂, hsplit, hafter⟩

/-- An order was cancelled and its slot taken by another one: its id is not found. -/
theorem failures_of_reachable_reused :
    ∃ e, e = (((((withCapacity 1).addOrder ⟨1, 10, .ask, 100, 5, 7⟩).1.cancelOrder 1).1).addOrder
        ⟨2, 11, .ask, 101, 4, 8⟩).1 ∧
      e.book.allRestingOrders = [⟨2, 11, .ask, 101, 4, 8⟩] ∧ Failures 1 e ∧
      e.cancelOrder 1 = (e, .error (.book (.orderNotFound 1))) := by
  have hresting : (((((withCapacity 1).addOrder ⟨1, 10, .ask, 100, 5, 7⟩).1.cancelOrder
      1).1).addOrder ⟨2, 11, .ask, 101, 4, 8⟩).1.book.allRestingOrders =
      [⟨2, 11, .ask, 101, 4, 8⟩] := by decide +kernel
  have hfail := failures_of_reachable
    (.add (.cancel (.add (.init 1) ⟨1, 10, .ask, 100, 5, 7⟩) 1) ⟨2, 11, .ask, 101, 4, 8⟩)
  refine ⟨_, rfl, hresting, hfail, hfail.notFound 1 ?_⟩
  rw [hresting]
  decide

end MatchingEngine

end Ferrox
