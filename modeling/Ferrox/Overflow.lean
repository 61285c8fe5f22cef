import Ferrox.Checked
import Ferrox.RecoveryProof
import Ferrox.Rejection
import Ferrox.Codec
import Mathlib.Algebra.Order.BigOperators.Group.List
import Mathlib.Algebra.Order.Group.Nat

/-!
# When a level's total overflows

The counts of the arena and of the levels are bounded by the number of slots, and every subtraction
takes away what was added before. Only the total quantity of a level has no bound of its own: it
overflows when an order is queued at a price where, together with what rests there, 2^64 or more
would be resting (`Overflows`).

As long as that has not happened every total is below 2^64 (`Bounded`), so that the machine word is
the exact sum, every other update is within its type, and the checked operation is the operation. A
run with overflow checks comes to its end if and only if no order overflows where it is added
(`neverOverflows_iff`).
-/

namespace Ferrox

open Ranked

/-! ## Totals on the price-time book -/

/-- The total quantity of the orders at a price. -/
def total (l : List Order) (p : Int64) : Nat :=
  ((l.filter (·.price = p)).map (·.quantity.toNat)).sum

theorem total_cons (x : Order) (l : List Order) (p : Int64) :
    total (x :: l) p = (if x.price = p then x.quantity.toNat else 0) + total l p := by
  unfold total
  by_cases hx : x.price = p
  · rw [List.filter_cons_of_pos (by simpa using hx), List.map_cons, List.sum_cons, if_pos hx]
  · rw [List.filter_cons_of_neg (by simpa using hx), if_neg hx, Nat.zero_add]

theorem total_perm {l l' : List Order} (h : l'.Perm l) (p : Int64) : total l' p = total l p :=
  ((h.filter _).map _).sum_eq

theorem total_sublist {l l' : List Order} (h : l'.Sublist l) (p : Int64) :
    total l' p ≤ total l p :=
  ((h.filter _).map _).sum_le_sum fun _ _ => Nat.zero_le _

theorem quantity_le_total {l : List Order} {x : Order} (hx : x ∈ l) :
    x.quantity.toNat ≤ total l x.price := by
  have hmem : x ∈ l.filter (·.price = x.price) := List.mem_filter.2 ⟨hx, by simp⟩
  exact List.single_le_sum (fun _ _ => Nat.zero_le _) _ (List.mem_map.2 ⟨x, hmem, rfl⟩)

namespace Book

variable {B : Book} {o : Order}

/-- The total of every price fits a machine word. -/
def Bounded (B : Book) : Prop := ∀ s p, total (B.side s) p < 2 ^ 64

theorem bounded_empty (c : Nat) : (empty c).Bounded := by
  intro s p
  simp [total, empty]

theorem Bounded.setSide (h : B.Bounded) {s : Side} {l : List Order}
    (hl : ∀ p, total l p < 2 ^ 64) : (B.setSide s l).Bounded := by
  intro s' p
  by_cases hs : s' = s
  · rw [hs, side_setSide_self]
    exact hl p
  · rw [side_setSide_of_ne hs]
    exact h s' p

theorem total_sweep (taker : Order) (ms : List Order) (q : UInt64) (p : Int64) :
    total (sweep taker ms q).makers p ≤ total ms p := by
  induction ms, q using sweep_induction taker with
  | stop ms q => exact Nat.le_refl _
  | own m ms q => exact Nat.le_refl _
  | all m ms q _ _ _ _ r _ ih =>
    rw [total_cons]
    exact Nat.le_trans ih (Nat.le_add_left _ _)
  | part m ms q _ _ _ hlt =>
    have hsub : (m.quantity - q).toNat = m.quantity.toNat - q.toNat :=
      UInt64.toNat_sub_of_le _ _ (UInt64.le_of_lt hlt)
    rw [total_cons, total_cons]
    split_ifs
    · simp only [hsub]
      omega
    · exact Nat.le_refl _

theorem Bounded.afterSweep (h : B.Bounded) (o : Order) : (B.afterSweep o).Bounded :=
  h.setSide fun p => Nat.lt_of_le_of_lt (total_sweep o _ _ p) (h _ p)

theorem Bounded.cancel (h : B.Bounded) (id : UInt64) : (B.cancel id).1.Bounded := by
  rcases cancel_cases B id with ⟨-, hc⟩ | ⟨x, -, -, hc⟩
  · rw [hc]
    exact h
  · rw [hc]
    exact fun s p => Nat.lt_of_le_of_lt (total_sublist List.filter_sublist p) (h s p)

theorem Bounded.insert (h : B.Bounded) {B' : Book} (hi : B.insert o = (B', .ok ()))
    (hlt : total (B.side o.side) o.price + o.quantity.toNat < 2 ^ 64) : B'.Bounded := by
  obtain ⟨-, -, rfl⟩ := insert_ok hi
  refine h.setSide fun p => ?_
  rw [total_perm (enqueue_perm o _), total_cons]
  split_ifs with hp
  · rw [← hp, Nat.add_comm]
    exact hlt
  · rw [Nat.zero_add]
    exact h _ p

/-! ## Orders that overflow -/

/-- **The order overflows the total of its price.** It gets past all the makers within its limit and
is not refused, and what is left of it, together with what rests at its price, does not fit a machine
word. -/
def Overflows (capacity : Nat) (resting : List Order) (o : Order) : Prop :=
  let makers := resting.filter fun m => m.side = o.side.opposite ∧ crosses o m.price
  let traded := (makers.map (·.quantity.toNat)).sum
  (∀ m ∈ makers, m.traderId ≠ o.traderId) ∧ traded < o.quantity.toNat ∧
    (∀ x ∈ resting, x.id = o.id → x.side = o.side.opposite ∧ crosses o x.price) ∧
    resting.length < capacity + makers.length ∧
    2 ^ 64 ≤ total (resting.filter (·.side = o.side)) o.price + (o.quantity.toNat - traded)

theorem length_afterSweep_of_through (h : B.WF) (hst : (B.swept o).selfTrade = false)
    (hl : (B.swept o).left ≠ 0) :
    (B.afterSweep o).orders.length + (crossing o (B.side o.side.opposite)).length =
      B.orders.length := by
  obtain ⟨hmakers, -⟩ := sweep_through (h.sorted o.side.opposite) o.quantity hst hl
  have hsplit := List.length_eq_length_filter_add (l := B.side o.side.opposite)
    (fun m => decide (crosses o m.price))
  simp only [← decide_not] at hsplit
  unfold afterSweep swept crossing orders
  rw [hmakers, List.length_append, List.length_append]
  generalize o.side.opposite = s at hsplit
  cases s with
  | ask =>
    rw [side_setSide_self, side_setSide_of_ne (by decide)]
    omega
  | bid =>
    rw [side_setSide_self, side_setSide_of_ne (by decide)]
    omega

/-- What is left of an order that got past all the makers within its limit. -/
theorem left_of_through (h : B.WF) (hst : (B.swept o).selfTrade = false)
    (hl : (B.swept o).left ≠ 0) :
    (B.swept o).left.toNat = o.quantity.toNat -
      ((crossing o (B.side o.side.opposite)).map (·.quantity.toNat)).sum := by
  obtain ⟨-, hsum⟩ := sweep_through (h.sorted o.side.opposite) o.quantity hst hl
  have hleft := sweep_left o (B.side o.side.opposite) o.quantity
  rw [hsum] at hleft
  unfold swept
  omega

theorem insert_remainder_ok_iff (h : B.WF) (hst : (B.swept o).selfTrade = false)
    (hl : (B.swept o).left ≠ 0) :
    (∃ B', (B.afterSweep o).insert (B.remainder o) = (B', .ok ())) ↔
      (∀ x ∈ B.orders, x.id = o.id → x.side = o.side.opposite ∧ crosses o x.price) ∧
        B.orders.length < B.capacity + (crossing o (B.side o.side.opposite)).length := by
  have hmem := @mem_afterSweep_of_through B o h hst hl
  have hlen := length_afterSweep_of_through h hst hl
  have hid : (B.remainder o).id ∉ (B.afterSweep o).orders.map (·.id) ↔
      ∀ x ∈ B.orders, x.id = o.id → x.side = o.side.opposite ∧ crosses o x.price := by
    rw [List.mem_map]
    simp only [hmem, List.mem_filter, decide_eq_true_eq]
    constructor
    · intro hnot x hx hxid
      by_contra hcross
      exact hnot ⟨x, ⟨hx, fun hm => hcross hm.2⟩, hxid⟩
    · intro hall hex
      obtain ⟨x, ⟨hx, hnot⟩, hxid⟩ := hex
      exact hnot ⟨hx, hall x hx hxid⟩
  have hcap : (B.afterSweep o).capacity = B.capacity := rfl
  rw [insert_ok_iff, hid, hcap]
  refine and_congr_right fun _ => ?_
  omega

/-- **An order overflows** just in case it comes to be queued where there is no room for its
quantity. -/
theorem overflows_iff (h : B.WF) (o : Order) :
    Overflows B.capacity B.orders o ↔
      (B.swept o).selfTrade = false ∧ (B.swept o).left ≠ 0 ∧
        (∃ B', (B.afterSweep o).insert (B.remainder o) = (B', .ok ())) ∧
        2 ^ 64 ≤ total (B.side o.side) o.price + (B.swept o).left.toNat := by
  have hthrough := sweep_through_iff (h.sorted o.side.opposite) o.quantity
  unfold Overflows
  simp only [makers_eq h, filter_orders h]
  constructor
  · intro hover
    obtain ⟨htraders, hlt, hids, hroom, hbig⟩ := hover
    obtain ⟨hst, hl⟩ := hthrough.2 ⟨htraders, hlt⟩
    refine ⟨hst, hl, (insert_remainder_ok_iff h hst hl).2 ⟨hids, hroom⟩, ?_⟩
    rw [left_of_through h hst hl]
    exact hbig
  · intro hqueued
    obtain ⟨hst, hl, hins, hbig⟩ := hqueued
    obtain ⟨htraders, hlt⟩ := hthrough.1 ⟨hst, hl⟩
    obtain ⟨hids, hroom⟩ := (insert_remainder_ok_iff h hst hl).1 hins
    rw [left_of_through h hst hl] at hbig
    exact ⟨htraders, hlt, hids, hroom, hbig⟩

theorem overflows_untimed (c : Nat) (resting : List Order) (o : Order) :
    Overflows c (resting.map Order.untimed) o.untimed ↔ Overflows c resting o := by
  have hcrosses : ∀ p, crosses o.untimed p ↔ crosses o p := fun p => Iff.rfl
  have htotal : ∀ (l : List Order) (p : Int64), total (l.map Order.untimed) p = total l p := by
    intro l p
    unfold total
    rw [List.filter_map, List.map_map]
    rfl
  unfold Overflows
  simp only [List.filter_map, Function.comp_def, Order.untimed_side, Order.untimed_price,
    Order.untimed_quantity, Order.untimed_traderId, Order.untimed_id, hcrosses, htotal,
    List.length_map, List.map_map, List.forall_mem_map]
  exact Iff.rfl

/-- **Totals stay bounded** as long as no order overflows. -/
theorem Bounded.add (h : B.Bounded) (hwf : B.WF) (ho : ¬ Overflows B.capacity B.orders o) :
    (B.add o).1.Bounded := by
  have hadd := added B o
  generalize B.add o = r at hadd
  cases hadd with
  | zero => exact h
  | ended => exact h.afterSweep o
  | refused => exact h.afterSweep o
  | queued hq hst hl B' hi r hr =>
    refine (h.afterSweep o).insert hi ?_
    rw [overflows_iff hwf] at ho
    by_contra hbig
    refine ho ⟨hst, hl, ⟨B', hi⟩, ?_⟩
    have hside : (B.afterSweep o).side (B.remainder o).side = B.side o.side :=
      side_afterSweep_self B o
    rw [hside] at hbig
    exact Nat.le_of_not_lt hbig

end Book

/-! ## The checked operations -/

namespace Arena

theorem count_popFront (a : Arena) (lv : PriceLevel) : (a.popFront lv).1.count = a.count := by
  unfold popFront
  by_cases hhead : lv.head = arenaNull
  · rw [if_pos hhead]
  · rw [if_neg hhead]
    by_cases hnext : (a.get lv.head).next = arenaNull <;> simp [hnext, setPrev, set]

theorem popFrontChecked_eq {a : Arena} {l : PriceLevel} (hne : l.head ≠ arenaNull)
    (hcount : CanDecrement l.count) (hqty : CanSub l.qty (a.get l.head).quantity)
    (harena : CanDecrement a.count) (i : UInt32) :
    a.popFrontChecked l = some (a.popFront l) ∧
      (a.popFront l).1.deallocChecked i = some ((a.popFront l).1.dealloc i) := by
  refine ⟨?_, if_pos ?_⟩
  · unfold popFrontChecked
    rw [if_neg hne, if_pos ⟨hcount, hqty⟩]
  · rw [count_popFront]
    exact harena

end Arena

namespace OrderBook

variable {b : OrderBook} {free : List UInt32} {queue : Side → Int64 → List UInt32}

/-- **A bounded total is exact.** -/
theorem toNat_qty (h : Rep b free queue) (hb : b.toBook.Bounded) {s : Side} {p : Int64}
    {lv : PriceLevel} (hl : (b.levels s).get? p = some lv) :
    lv.qty.toNat = total (b.restingOn s) p := by
  have hsum : total (b.restingOn s) p =
      (((queue s p).map fun i => (b.arena.orderOf i).quantity).map UInt64.toNat).sum := by
    unfold total
    rw [restingOn_filter h, List.map_map, List.map_map]
    rfl
  have hlt : total (b.restingOn s) p < 2 ^ 64 := hb s p
  rw [(h.level s p lv hl).qty, toNat_sum, ← hsum, Nat.mod_eq_of_lt hlt]

theorem toNat_qty_getD (h : Rep b free queue) (hb : b.toBook.Bounded) (s : Side) (p : Int64) :
    (((b.levels s).get? p).getD PriceLevel.new).qty.toNat = total (b.restingOn s) p := by
  cases hl : (b.levels s).get? p with
  | some lv => exact toNat_qty h hb hl
  | none =>
    unfold total
    rw [restingOn_filter h, (h.nonempty s p).2 hl]
    rfl

theorem canSub_quantity (h : Rep b free queue) (hb : b.toBook.Bounded) {s : Side} {p : Int64}
    {lv : PriceLevel} (hl : (b.levels s).get? p = some lv) {i : UInt32} (hi : i ∈ queue s p) :
    CanSub lv.qty (b.arena.get i).quantity := by
  have hmem : b.arena.orderOf i ∈ b.restingOn s := (mem_restingOn h).2 ⟨p, i, hi, rfl⟩
  have hle := quantity_le_total hmem
  rw [(h.node s p i hi).2, ← toNat_qty h hb hl] at hle
  exact UInt64.le_iff_toNat_le.2 hle

theorem canDecrement_level {a : Arena} {lv : PriceLevel} {l : List UInt32} (h : Level a lv l)
    {i : UInt32} (hi : i ∈ l) : CanDecrement lv.count := by
  refine UInt32.le_iff_toNat_le.2 ?_
  rw [h.count]
  exact List.length_pos_of_mem hi

theorem canDecrement_arena (h : Rep b free queue) {s : Side} {p : Int64} {i : UInt32}
    (hi : i ∈ queue s p) : CanDecrement b.arena.count :=
  UInt32.le_iff_toNat_le.2 (h.count_pos hi)

/-- Into a book with a free slot, only the total of the level is in question. -/
theorem insertOrderChecked_of_free {i : UInt32} {o : Order} (h : Rep b (i :: free) queue)
    (hid : o.id ∉ b.orderIndex) :
    b.insertOrderChecked o =
      if CanAdd (((b.levels o.side).get? o.price).getD PriceLevel.new).qty o.quantity then
        some (b.insertOrder o)
      else none := by
  have hhead : b.arena.freeHead ≠ arenaNull := by
    obtain ⟨hhead, hnull, -⟩ := h.freeList.chain
    rw [hhead]
    exact hnull
  have hcount : CanIncrement b.arena.count := by
    have hfree := h.freeList.count
    have hcap := b.arena.capacity.toNat_lt
    rw [List.length_cons] at hfree
    unfold CanIncrement
    omega
  have halloc : b.arena.allocChecked o = some (FreeList.allocated b.arena i o, .ok i) := by
    unfold Arena.allocChecked
    rw [if_neg hhead, if_pos hcount, FreeList.alloc_eq_ok h.freeList.chain]
  have hlevel : CanIncrement (((b.levels o.side).get? o.price).getD PriceLevel.new).count := by
    unfold CanIncrement
    rw [(level_allocated h o).count]
    exact h.length_queue_lt o.side o.price
  have hqty : ((FreeList.allocated b.arena i o).get i).quantity = o.quantity := by
    have hord := (FreeList.views_alloc (h.inPool_free List.mem_cons_self) o).2.2
    exact congrArg Order.quantity ((congrFun hord i).trans (Function.update_self ..))
  rw [insertOrder_ok h hid]
  unfold insertOrderChecked linked Arena.pushBackChecked
  simp only [hid, halloc, hlevel, hqty, if_false, true_and, Option.bind_eq_bind, Option.bind_some]
  split_ifs
  · simp only [Option.bind_some, orderIndex_setLevels]
  · rfl

/-- **Inserting** an order that is refused, or whose level has room for it, does not panic. -/
theorem insertOrderChecked_of_fits (h : b.WF) (hb : b.toBook.Bounded) {o : Order}
    (ho : (∃ B', b.toBook.insert o = (B', .ok ())) →
      total (b.restingOn o.side) o.price + o.quantity.toNat < 2 ^ 64) :
    b.insertOrderChecked o = some (b.insertOrder o) := by
  obtain ⟨free, queue, hrep⟩ := h
  by_cases hid : o.id ∈ b.orderIndex
  · unfold insertOrderChecked
    rw [insertOrder_duplicate hid, if_pos hid]
  cases free with
  | nil =>
    have hhead : b.arena.freeHead = arenaNull := hrep.freeList.chain
    have halloc : b.arena.allocChecked o = some (b.arena, .error .full) := if_pos hhead
    unfold insertOrderChecked
    rw [insertOrder_full hrep hid, if_neg hid, halloc]
    rfl
  | cons i free =>
    have hok : (b.toBook.insert o).2 = .ok () := by
      rw [← (insertOrder_sim ⟨_, _, hrep⟩ o).2.2, insertOrder_ok hrep hid]
    have hlt := ho ⟨_, Prod.ext rfl hok⟩
    rw [insertOrderChecked_of_free hrep hid, if_pos]
    unfold CanAdd
    rw [toNat_qty_getD hrep hb]
    exact hlt

theorem insertOrderChecked_of_overflows (h : b.WF) (hb : b.toBook.Bounded) {o : Order}
    (hok : ∃ B', b.toBook.insert o = (B', .ok ()))
    (hbig : 2 ^ 64 ≤ total (b.restingOn o.side) o.price + o.quantity.toNat) :
    b.insertOrderChecked o = none := by
  obtain ⟨free, queue, hrep⟩ := h
  obtain ⟨B', hok⟩ := hok
  obtain ⟨hnew, hroom, -⟩ := Book.insert_ok hok
  have hid : o.id ∉ b.orderIndex := fun hm => hnew ((mem_orderIndex_iff hrep).1 hm)
  cases free with
  | nil => exact absurd ((free_eq_nil_iff hrep).1 rfl) (Nat.not_le.2 hroom)
  | cons i free =>
    rw [insertOrderChecked_of_free hrep hid, if_neg]
    unfold CanAdd
    rw [toNat_qty_getD hrep hb]
    exact Nat.not_lt.2 hbig

theorem removeChecked_eq (h : Rep b free queue) (hb : b.toBook.Bounded) {s : Side} {p : Int64}
    {lv : PriceLevel} (hl : (b.levels s).get? p = some lv) {i : UInt32} (hi : i ∈ queue s p) :
    b.arena.removeChecked lv i = some (b.arena.remove lv i) ∧
      (b.arena.remove lv i).1.deallocChecked i = some ((b.arena.remove lv i).1.dealloc i) := by
  obtain ⟨l₁, l₂, hq⟩ := List.append_of_mem hi
  have hsame := (LevelQueue.views_remove (inPool_level h hq) (level_eq h hq hl).queue).2.2
  refine ⟨if_pos ⟨canDecrement_level (h.level s p lv hl) hi, canSub_quantity h hb hl hi⟩, if_pos ?_⟩
  rw [hsame.count]
  exact canDecrement_arena h hi

theorem cancelOrderChecked_eq (h : b.WF) (hb : b.toBook.Bounded) (id : UInt64) :
    b.cancelOrderChecked id = some (b.cancelOrder id) := by
  obtain ⟨free, queue, hrep⟩ := h
  unfold cancelOrderChecked cancelOrder
  cases hlook : b.orderIndex.lookup id with
  | none => rfl
  | some i =>
    obtain ⟨⟨s, p, hi⟩, -⟩ := (hrep.index id i).1 hlook
    obtain ⟨rfl, rfl⟩ := hrep.node s p i hi
    obtain ⟨lv, hl, -⟩ := hrep.exists_level hi
    obtain ⟨hremove, hdealloc⟩ := removeChecked_eq hrep hb hl hi
    have hl' : (({ b with orderIndex := b.orderIndex.erase id } : OrderBook).levels
        (b.arena.get i).toOrder.side).get? (b.arena.get i).toOrder.price = some lv := by
      refine Eq.trans ?_ hl
      show _ = (b.levels (b.arena.get i).toOrder.side).get? (b.arena.get i).toOrder.price
      cases (b.arena.get i).toOrder.side <;> rfl
    simp only [hl', hremove, hdealloc, Option.bind_eq_bind, Option.bind_some]

theorem reduceFrontQuantityChecked_eq (h : b.WF) (hb : b.toBook.Bounded) {s : Side} {m : Order}
    {ms : List Order} (hr : b.restingOn s = m :: ms) {fillQty : UInt64}
    (hle : fillQty ≤ m.quantity) :
    b.reduceFrontQuantityChecked s m.price fillQty =
      some (b.reduceFrontQuantity s m.price fillQty) := by
  obtain ⟨free, queue, hrep⟩ := h
  obtain ⟨lv, i, l, -, hl, hq, hm, rfl⟩ := exists_front hrep hr
  have hi : lv.head ∈ queue s m.price := by rw [hq]; exact List.mem_cons_self
  have hne : lv.head ≠ arenaNull := hrep.freeList.ne_null_of_inPool (hrep.inPool_queue hi)
  have hsub : CanSub lv.qty fillQty := by
    have hfront := canSub_quantity hrep hb hl hi
    have hqty : (b.arena.get lv.head).quantity = m.quantity := congrArg Order.quantity hm
    rw [hqty] at hfront
    exact UInt64.le_trans hle hfront
  have hnot : ¬ (b.arena.get lv.head).quantity < fillQty := by
    rw [UInt64.not_lt]
    exact hle.trans_eq (congrArg Order.quantity hm).symm
  unfold reduceFrontQuantityChecked reduceFrontQuantity
  simp only [hl, hne, hnot, hsub, if_false, if_true]
  by_cases hrem : (b.arena.get lv.head).quantity - fillQty = 0
  · rw [if_pos hrem, if_pos hrem]
    -- the order is popped with nothing left, so the second subtraction takes nothing away
    have hget := Arena.get_set (hrep.inPool_queue hi) { b.arena.get lv.head with
      quantity := (b.arena.get lv.head).quantity - fillQty } lv.head
    rw [if_pos rfl] at hget
    have hcount : CanDecrement lv.count := canDecrement_level (hrep.level s m.price lv hl) hi
    obtain ⟨hpop, hdealloc⟩ := Arena.popFrontChecked_eq
      (a := b.arena.set lv.head { b.arena.get lv.head with
        quantity := (b.arena.get lv.head).quantity - fillQty })
      (l := { lv with qty := lv.qty - fillQty }) hne hcount
      (by rw [hget, hrem]; exact UInt64.zero_le) (canDecrement_arena hrep hi) lv.head
    simp only [hpop, hdealloc, Option.bind_eq_bind, Option.bind_some]
  · rw [if_neg hrem, if_neg hrem]

end OrderBook

namespace MatchingEngine

variable {e : MatchingEngine} {o : Order}

theorem total_filled {m : Order} {f : UInt64} (hle : f ≤ m.quantity) (ms : List Order) (p : Int64) :
    total (if m.quantity - f = 0 then ms else { m with quantity := m.quantity - f } :: ms) p ≤
      total (m :: ms) p := by
  have hsub : (m.quantity - f).toNat = m.quantity.toNat - f.toNat :=
    UInt64.toNat_sub_of_le _ _ hle
  rw [total_cons]
  by_cases hrem : m.quantity - f = 0
  · rw [if_pos hrem]
    exact Nat.le_add_left _ _
  · rw [if_neg hrem, total_cons]
    simp only [hsub]
    split_ifs
    · omega
    · exact Nat.le_refl _

theorem matchSideChecked_eq (order : Order) (s : Side) (fuel : Nat) (m : Matched)
    (h : m.book.WF) (hb : m.book.toBook.Bounded) :
    matchSideChecked order s fuel m = some (matchSide order s fuel m) := by
  induction fuel generalizing m with
  | zero => rfl
  | succ fuel ih =>
    rw [matchSideChecked, matchSide]
    by_cases hq : m.quantity = 0
    · rw [if_pos hq, if_pos hq]
    rw [if_neg hq, if_neg hq]
    cases hr : m.book.restingOn s with
    | nil => rw [OrderBook.bestPrice_none h hr]
    | cons a as =>
      obtain ⟨hbest, node, hpeek, rfl⟩ := OrderBook.peekFront_sim h hr
      have hle : min m.quantity node.quantity ≤ node.toOrder.quantity := min_le_maker _ _
      have hchecked := OrderBook.reduceFrontQuantityChecked_eq h hb hr hle
      obtain ⟨hwf, hbook, hok⟩ := OrderBook.reduceFrontQuantity_sim h hr hle
      have hbounded : (m.book.reduceFrontQuantity s node.toOrder.price
          (min m.quantity node.quantity)).1.toBook.Bounded := by
        rw [hbook]
        refine hb.setSide fun p => Nat.lt_of_le_of_lt (total_filled hle as p) ?_
        rw [← hr]
        exact hb s p
      simp only [hbest, hpeek, hchecked]
      generalize m.book.reduceFrontQuantity s node.toOrder.price
        (min m.quantity node.quantity) = r at hwf hok hbounded
      obtain ⟨book, res⟩ := r
      obtain rfl : res = .ok _ := hok
      split_ifs
      · rfl
      · exact ih _ hwf hbounded
      · rfl

/-- **The checked call** comes to the insertion of what is left of the order, or is the call. -/
theorem addOrderChecked_cases (h : e.book.WF) (hb : e.book.toBook.Bounded) (hq : o.quantity ≠ 0) :
    ∃ b : OrderBook, b.WF ∧ b.toBook = e.book.toBook.afterSweep o ∧
      ((e.book.toBook.swept o).selfTrade = true ∨ (e.book.toBook.swept o).left = 0 ∨
          b.insertOrderChecked (e.book.toBook.remainder o) =
            some (b.insertOrder (e.book.toBook.remainder o)) →
        e.addOrderChecked o = some (e.addOrder o)) ∧
      ((e.book.toBook.swept o).selfTrade = false → (e.book.toBook.swept o).left ≠ 0 →
        b.insertOrderChecked (e.book.toBook.remainder o) = none → e.addOrderChecked o = none) := by
  obtain ⟨m, hm, hreach⟩ := matchSide_sim o o.side.opposite
    { book := e.book, fills := [], quantity := o.quantity, selfTrade := false, error := none } h
    rfl rfl
  have hloop := hm (e.book.orderCount + 1)
    (Nat.le_succ_of_le (length_restingOn_le h o.side.opposite))
  have hchecked : matchSideChecked o o.side.opposite (e.book.orderCount + 1)
      { book := e.book, fills := [], quantity := o.quantity, selfTrade := false, error := none } =
      some m :=
    (matchSideChecked_eq o _ _ _ h hb).trans (congrArg some hloop)
  have hst : m.selfTrade = (e.book.toBook.swept o).selfTrade := hreach.selfTrade
  have hleft : m.quantity = (e.book.toBook.swept o).left := hreach.quantity
  have hrem : { o with quantity := m.quantity } = e.book.toBook.remainder o := by
    rw [hleft]
    rfl
  refine ⟨m.book, hreach.wf, hreach.book, ?_, ?_⟩
  · intro hcase
    unfold addOrderChecked addOrder
    simp only [hq, if_false, matchLoop_eq, hchecked, hloop, hreach.error, Option.bind_eq_bind,
      Option.bind_some, hrem]
    rw [hst, hleft]
    rcases hcase with hcase | hcase | hcase
    · rw [if_pos hcase, if_pos hcase]
    · rw [if_pos hcase, if_pos hcase]
      split_ifs <;> rfl
    · rw [hcase]
      generalize m.book.insertOrder (e.book.toBook.remainder o) = r
      obtain ⟨book, res⟩ := r
      cases res <;> simp only [Option.bind_some] <;> split_ifs <;> rfl
  · intro hself hne hnone
    unfold addOrderChecked
    simp only [hq, if_false, hchecked, hreach.error, Option.bind_eq_bind, Option.bind_some, hrem,
      hnone, Option.bind_none]
    rw [hst, hleft, hself, if_neg Bool.false_ne_true, if_neg hne]

theorem addOrderChecked_of_not_overflows (h : e.book.WF) (hb : e.book.toBook.Bounded)
    (ho : ¬ Book.Overflows e.book.toBook.capacity e.book.allRestingOrders o) :
    e.addOrderChecked o = some (e.addOrder o) := by
  by_cases hq : o.quantity = 0
  · unfold addOrderChecked addOrder
    rw [if_pos hq, if_pos hq]
  obtain ⟨b, hwf, hbook, hsome, -⟩ := addOrderChecked_cases h hb hq
  apply hsome
  by_cases hst : (e.book.toBook.swept o).selfTrade = true
  · exact Or.inl hst
  by_cases hl : (e.book.toBook.swept o).left = 0
  · exact Or.inr (Or.inl hl)
  refine Or.inr (Or.inr (OrderBook.insertOrderChecked_of_fits hwf ?_ ?_))
  · rw [hbook]
    exact hb.afterSweep o
  · intro hins
    rw [← OrderBook.orders_toBook, Book.overflows_iff h.wf_toBook] at ho
    rw [hbook] at hins
    have hside : b.restingOn o.side = e.book.toBook.side o.side :=
      (congrFun (congrArg Book.side hbook) o.side).trans (Book.side_afterSweep_self _ o)
    by_contra hbig
    refine ho ⟨by simpa using hst, hl, hins, ?_⟩
    rw [← hside]
    exact Nat.le_of_not_lt hbig

theorem addOrderChecked_of_overflows (h : e.book.WF) (hb : e.book.toBook.Bounded)
    (ho : Book.Overflows e.book.toBook.capacity e.book.allRestingOrders o) :
    e.addOrderChecked o = none := by
  have hq : o.quantity ≠ 0 := by
    intro hq
    have hlt := ho.2.1
    rw [hq] at hlt
    exact absurd hlt (Nat.not_lt_zero _)
  rw [← OrderBook.orders_toBook, Book.overflows_iff h.wf_toBook] at ho
  obtain ⟨hst, hl, hins, hbig⟩ := ho
  obtain ⟨b, hwf, hbook, -, hnone⟩ := addOrderChecked_cases h hb hq
  have hside : b.restingOn o.side = e.book.toBook.side o.side :=
    (congrFun (congrArg Book.side hbook) o.side).trans (Book.side_afterSweep_self _ o)
  refine hnone hst hl (OrderBook.insertOrderChecked_of_overflows hwf ?_ ?_ ?_)
  · rw [hbook]
    exact hb.afterSweep o
  · rw [hbook]
    exact hins
  · show _ ≤ total (b.restingOn o.side) o.price + _
    rw [hside]
    exact hbig

theorem cancelOrderChecked_eq (h : e.book.WF) (hb : e.book.toBook.Bounded) (id : UInt64) :
    e.cancelOrderChecked id = some (e.cancelOrder id) := by
  unfold cancelOrderChecked cancelOrder
  rw [OrderBook.cancelOrderChecked_eq h hb]
  generalize e.book.cancelOrder id = r
  obtain ⟨book, res⟩ := r
  cases res with
  | error err => rfl
  | ok order => rfl

/-! ## Runs -/

/-- **A command that does not overflow** is carried out as without checks, and the totals stay
bounded. -/
theorem applyCommandChecked_of_not_overflows (h : e.book.WF) (hb : e.book.toBook.Bounded)
    {cmd : EngineCommand}
    (ho : ∀ o, cmd = .newOrder o →
      ¬ Book.Overflows e.book.toBook.capacity e.book.allRestingOrders o) :
    e.applyCommandChecked cmd = some (e.applyCommand cmd) ∧
      (e.applyCommand cmd).book.toBook.Bounded := by
  obtain ⟨-, hbook⟩ := applyCommand_sim h cmd
  rw [hbook]
  cases cmd with
  | newOrder o =>
    have ho := ho o rfl
    refine ⟨?_, ?_⟩
    · rw [applyCommandChecked, addOrderChecked_of_not_overflows h hb ho]
      rfl
    · exact hb.add h.wf_toBook ho
  | cancelOrder id =>
    refine ⟨?_, hb.cancel id⟩
    rw [applyCommandChecked, cancelOrderChecked_eq h hb]
    rfl

theorem capacity_applyCommand (h : e.book.WF) (cmd : EngineCommand) :
    (e.applyCommand cmd).book.toBook.capacity = e.book.toBook.capacity := by
  rw [(applyCommand_sim h cmd).2, Book.capacity_apply]

theorem applyAllChecked_of_not_overflows (h : e.book.WF) (hb : e.book.toBook.Bounded)
    {cmds : List EngineCommand}
    (ho : ∀ before o after, cmds = before ++ .newOrder o :: after →
      ¬ Book.Overflows e.book.toBook.capacity (e.applyAll before).book.allRestingOrders o) :
    e.applyAllChecked cmds = some (e.applyAll cmds) ∧ (e.applyAll cmds).book.toBook.Bounded := by
  induction cmds generalizing e with
  | nil => exact ⟨rfl, hb⟩
  | cons cmd cmds ih =>
    have hfirst : ∀ o, cmd = .newOrder o →
        ¬ Book.Overflows e.book.toBook.capacity e.book.allRestingOrders o :=
      fun o heq => ho [] o cmds (by rw [heq]; rfl)
    obtain ⟨hcmd, hbounded⟩ := applyCommandChecked_of_not_overflows h hb hfirst
    have hrest := ih (applyCommand_sim h cmd).1 hbounded fun before o after heq => by
      rw [capacity_applyCommand h]
      exact ho (cmd :: before) o after (by rw [heq]; rfl)
    refine ⟨?_, hrest.2⟩
    rw [applyAllChecked, List.foldlM_cons, hcmd]
    exact hrest.1

theorem not_overflows_of_applyAllChecked (h : e.book.WF) (hb : e.book.toBook.Bounded)
    {cmds before after : List EngineCommand} {e' : MatchingEngine}
    (hrun : e.applyAllChecked cmds = some e') (hcmds : cmds = before ++ .newOrder o :: after) :
    ¬ Book.Overflows e.book.toBook.capacity (e.applyAll before).book.allRestingOrders o := by
  induction before generalizing e cmds with
  | nil =>
    intro hover
    rw [hcmds, applyAllChecked, List.nil_append, List.foldlM_cons, applyCommandChecked,
      addOrderChecked_of_overflows h hb hover] at hrun
    cases hrun
  | cons cmd before ih =>
    rw [hcmds, applyAllChecked, List.cons_append, List.foldlM_cons] at hrun
    have hcmd : ∀ x, cmd = .newOrder x →
        ¬ Book.Overflows e.book.toBook.capacity e.book.allRestingOrders x := by
      intro x hx hover
      rw [hx, applyCommandChecked, addOrderChecked_of_overflows h hb hover] at hrun
      cases hrun
    obtain ⟨hstep, hbounded⟩ := applyCommandChecked_of_not_overflows h hb hcmd
    rw [hstep] at hrun
    have := ih (applyCommand_sim h cmd).1 hbounded hrun rfl
    rwa [capacity_applyCommand h] at this

end MatchingEngine

/-- **Every level's total is the sum of the quantities that rest there.** -/
def OrderBook.Exact (b : OrderBook) : Prop :=
  ∀ s p lv, (b.levels s).get? p = some lv →
    lv.qty.toNat = total (b.allRestingOrders.filter (·.side = s)) p

theorem OrderBook.exact_of_bounded {b : OrderBook} (h : b.WF) (hb : b.toBook.Bounded) :
    b.Exact := by
  intro s p lv hl
  have hside := Book.filter_orders h.wf_toBook s
  obtain ⟨free, queue, hrep⟩ := h
  rw [toNat_qty hrep hb hl, ← orders_toBook, hside]
  rfl

/-- **A run that never overflows**: with overflow checks it comes to its end, as without them; the
totals are exact in every state on the way; and what was logged on the way can be replayed. -/
structure NeverOverflows (c : UInt32) (cmds : List EngineCommand) : Prop where
  live : (MatchingEngine.withCapacity c).applyAllChecked cmds =
    some ((MatchingEngine.withCapacity c).applyAll cmds)
  exact : ∀ before, before <+: cmds → ((MatchingEngine.withCapacity c).applyAll before).book.Exact
  replay : ∀ before replayed, before <+: cmds →
    decodeRecords (before.map Wal.recordOf) = .ok replayed →
    (MatchingEngine.withCapacity c).applyAllChecked replayed =
      some ((MatchingEngine.withCapacity c).applyAll replayed)

theorem tradable_of_decodeMessage_payload {cmd cmd' : EngineCommand}
    (h : Protocol.decodeMessage (Protocol.payload cmd) = .ok cmd') : cmd.Tradable := by
  cases cmd with
  | cancelOrder id => trivial
  | newOrder o =>
    rcases Protocol.accepts_of_decodeMessage h with hacc | hacc
    · have hquantity : Protocol.u64At (Protocol.newOrderBytes o) 32 = o.quantity :=
        Protocol.u64At_of_slice rfl
      show o.quantity ≠ 0
      rw [← hquantity]
      exact hacc.quantity
    · have htype : some (1 : UInt8) = some 2 := hacc.type
      exact absurd htype (by decide)

theorem eq_untimed_of_decodeRecords {cmds replayed : List EngineCommand}
    (h : decodeRecords (cmds.map Wal.recordOf) = .ok replayed) :
    replayed = cmds.map EngineCommand.untimed := by
  induction cmds generalizing replayed with
  | nil => exact (Except.ok.inj h).symm
  | cons cmd cmds ih =>
    have hpayload : (Wal.recordOf cmd).payload = Protocol.payload cmd := rfl
    rw [List.map_cons, decodeRecords, hpayload] at h
    cases hcmd : Protocol.decodeMessage (Protocol.payload cmd) with
    | error err =>
      rw [hcmd] at h
      cases h
    | ok cmd' =>
      have hdecode := Protocol.decodeMessage_payload (tradable_of_decodeMessage_payload hcmd)
      cases hrest : decodeRecords (cmds.map Wal.recordOf) with
      | error err =>
        rw [hcmd, hrest] at h
        cases h
      | ok rest =>
        rw [hdecode, hrest] at h
        rw [← Except.ok.inj h, ih hrest, List.map_cons]

theorem overflows_replay (c : UInt32) (before : List EngineCommand) (o : Order) :
    Book.Overflows c.toNat ((MatchingEngine.withCapacity c).applyAll
        (before.map EngineCommand.untimed)).book.allRestingOrders o.untimed ↔
      Book.Overflows c.toNat ((MatchingEngine.withCapacity c).applyAll
        before).book.allRestingOrders o := by
  obtain ⟨hwf, -⟩ := MatchingEngine.withCapacity_sim c
  have hsame : ((MatchingEngine.withCapacity c).applyAll
        (before.map EngineCommand.untimed)).book.allRestingOrders.map Order.untimed =
      ((MatchingEngine.withCapacity c).applyAll before).book.allRestingOrders.map Order.untimed := by
    rw [← OrderBook.orders_toBook, ← OrderBook.orders_toBook, ← Book.orders_untimed,
      ← Book.orders_untimed, (MatchingEngine.applyAll_sim hwf _).2,
      (MatchingEngine.applyAll_sim hwf _).2, Book.applyAll_map_untimed]
  have huntimed : o.untimed.untimed = o.untimed := rfl
  rw [← Book.overflows_untimed, hsame, huntimed, Book.overflows_untimed]

/-- **A run never overflows exactly when** no order that it adds overflows the total of its price in
the state in which it is added. -/
theorem neverOverflows_iff (c : UInt32) (cmds : List EngineCommand) :
    NeverOverflows c cmds ↔
      ∀ before o after, cmds = before ++ .newOrder o :: after →
        ¬ Book.Overflows c.toNat
          ((MatchingEngine.withCapacity c).applyAll before).book.allRestingOrders o := by
  obtain ⟨hwf, hbook⟩ := MatchingEngine.withCapacity_sim c
  have hb : (MatchingEngine.withCapacity c).book.toBook.Bounded := by
    rw [hbook]
    exact Book.bounded_empty _
  have hcap : (MatchingEngine.withCapacity c).book.toBook.capacity = c.toNat := by
    rw [hbook]
    rfl
  constructor
  · intro h before o after hcmds
    rw [← hcap]
    exact MatchingEngine.not_overflows_of_applyAllChecked hwf hb h.live hcmds
  · intro h
    -- what holds of the run holds of what was run before
    have hrun : ∀ before, before <+: cmds →
        (MatchingEngine.withCapacity c).applyAllChecked before =
            some ((MatchingEngine.withCapacity c).applyAll before) ∧
          ((MatchingEngine.withCapacity c).applyAll before).book.toBook.Bounded := by
      intro before hbefore
      obtain ⟨rest, rfl⟩ := hbefore
      apply MatchingEngine.applyAllChecked_of_not_overflows hwf hb
      intro pre o post heq
      rw [hcap]
      exact h pre o (post ++ rest) (by rw [heq, List.append_assoc]; rfl)
    refine ⟨(hrun cmds (List.prefix_refl _)).1, ?_, ?_⟩
    · intro before hbefore
      exact OrderBook.exact_of_bounded (MatchingEngine.applyAll_sim hwf before).1
        (hrun before hbefore).2
    · intro before replayed hbefore hdecode
      obtain ⟨rest, rfl⟩ := hbefore
      refine (MatchingEngine.applyAllChecked_of_not_overflows hwf hb ?_).1
      intro pre o' post heq
      rw [eq_untimed_of_decodeRecords hdecode] at heq
      obtain ⟨l₁, l₂, rfl, rfl, hl₂⟩ := List.map_eq_append_iff.1 heq
      obtain ⟨cmd, l₃, rfl, hcmd, rfl⟩ := List.map_eq_cons_iff.1 hl₂
      cases cmd with
      | cancelOrder id => cases hcmd
      | newOrder o =>
        obtain rfl : o.untimed = o' := EngineCommand.newOrder.inj hcmd
        rw [hcap, overflows_replay]
        exact h l₁ o (l₃ ++ rest) (by rw [List.append_assoc]; rfl)

/-- **Two orders of one price, whose quantities add up to 2^64.** With overflow checks the second one
makes the run panic, and every replay of its log; without them the total of the level is zero. -/
theorem not_neverOverflows_two :
    ∃ cmds, cmds = [EngineCommand.newOrder ⟨1, 10, .ask, 100, 18446744073709551615, 7⟩,
        EngineCommand.newOrder ⟨2, 11, .ask, 100, 1, 8⟩] ∧
      (MatchingEngine.withCapacity 4).applyAllChecked cmds = none ∧
      (((MatchingEngine.withCapacity 4).applyAll cmds).book.asks.get? 100).map (·.qty) = some 0 ∧
      ¬ NeverOverflows 4 cmds := by
  have hnone : (MatchingEngine.withCapacity 4).applyAllChecked
      [.newOrder ⟨1, 10, .ask, 100, 18446744073709551615, 7⟩, .newOrder ⟨2, 11, .ask, 100, 1, 8⟩] =
      none := by decide +kernel
  refine ⟨_, rfl, hnone, by decide +kernel, ?_⟩
  intro h
  rw [h.live] at hnone
  cases hnone

end Ferrox
