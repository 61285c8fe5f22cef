import Ferrox.Ledger

/-!
# Cancelling earlier

An order that rests and that nobody trades with might as well not be there. Of a cancellation this
says that it can be brought forward: past every call that is not about the order, as long as the
order still rests whole when its cancellation is due. The calls in between return the same, and the
engines afterwards cannot be told apart.

What does make a difference is the room. With the order cancelled there is one slot more, so a call
for which the arena was full returns something else. Nothing more is in the way
(`cancel_earlier_iff`).
-/

namespace Ferrox

open Ranked

/-- A call that is not about an order: it is under another id, and it is not an order of the same
trader that would meet it. -/
def Op.Spares (x : Order) : Op → Prop
  | .add o => o.id ≠ x.id ∧
      (o.side = x.side.opposite → o.traderId = x.traderId → ¬ Book.crosses o x.price)
  | .cancel id => id ≠ x.id

instance (x : Order) : DecidablePred (Op.Spares x)
  | .add o => inferInstanceAs (Decidable (o.id ≠ x.id ∧ (_ → _ → ¬ Book.crosses o x.price)))
  | .cancel id => inferInstanceAs (Decidable (id ≠ x.id))

namespace Book

variable {B : Book} {o x : Order} {s : Side} {l ms : List Order} {id id' : UInt64}

/-- The book without the order under an id. -/
def without (B : Book) (id : UInt64) : Book :=
  ⟨B.capacity, fun s => (B.side s).filter (·.id ≠ id)⟩

/-- A sweep, of which the order under an id is not seen. -/
def Sweep.without (S : Sweep) (id : UInt64) : Sweep :=
  { S with makers := S.makers.filter (·.id ≠ id) }

/-! ## The book without an order -/

theorem cancel_eq_without (h : B.WF) (hx : x ∈ B.orders) :
    B.cancel x.id = (B.without x.id, .ok x) := by
  rw [cancel, OrderBook.find?_id_eq h.nodup hx]
  rfl

theorem orders_without : (B.without id).orders = B.orders.filter (·.id ≠ id) :=
  (List.filter_append _ _).symm

theorem mem_ids_without (hne : id' ≠ id) :
    id' ∈ (B.without id).orders.map (·.id) ↔ id' ∈ B.orders.map (·.id) := by
  rw [orders_without]
  simp only [List.mem_map, List.mem_filter]
  constructor
  · rintro ⟨y, ⟨hy, -⟩, hid⟩
    exact ⟨y, hy, hid⟩
  · rintro ⟨y, hy, rfl⟩
    exact ⟨y, ⟨hy, by simpa using hne⟩, rfl⟩

theorem length_without_lt (hx : x ∈ B.orders) :
    (B.without x.id).orders.length < B.orders.length := by
  rw [orders_without]
  exact List.length_filter_lt_length_iff_exists.2 ⟨x, hx, by simp⟩

theorem setSide_without :
    (B.setSide s l).without id = (B.without id).setSide s (l.filter (·.id ≠ id)) := by
  unfold without setSide
  congr 1
  funext s'
  by_cases hs : s' = s
  · subst hs
    simp
  · simp [hs]

/-- An order that is queued, or refused for its id, is so without the other one as well. One that
finds no room is queued. -/
theorem insert_without (hsorted : Sorted (o.side.rank ·.price) (B.side o.side))
    (hroom : B.orders.length ≤ B.capacity) (hx : x ∈ B.orders) (hid : o.id ≠ x.id) :
    ((B.insert o).2 ≠ .error .arenaFull →
      (B.without x.id).insert o = ((B.insert o).1.without x.id, (B.insert o).2)) ∧
    ((B.insert o).2 = .error .arenaFull → ((B.without x.id).insert o).2 = .ok ()) := by
  have hids := mem_ids_without (B := B) hid
  have hlt : ¬ (B.without x.id).capacity ≤ (B.without x.id).orders.length :=
    not_le.2 ((length_without_lt hx).trans_le hroom)
  rcases insert_cases B o with ⟨hmem, hi⟩ | ⟨hmem, -, hi⟩ | ⟨hmem, -, hi⟩
  · rw [hi]
    refine ⟨fun _ => ?_, fun h => absurd h (by simp)⟩
    rw [insert, if_pos (hids.2 hmem)]
  · rw [hi]
    refine ⟨fun h => absurd rfl h, fun _ => ?_⟩
    rw [insert, if_neg (mt hids.1 hmem), if_neg hlt]
  · rw [hi]
    refine ⟨fun _ => ?_, fun h => absurd h (by simp)⟩
    rw [insert, if_neg (mt hids.1 hmem), if_neg hlt, setSide_without,
      enqueue_filter hsorted (by simpa using hid)]
    rfl

/-! ## A sweep without an order -/

theorem sweep_zero (taker : Order) (ms : List Order) : sweep taker ms 0 = ⟨ms, [], 0, false⟩ := by
  cases ms with
  | nil => rfl
  | cons m ms => rw [sweep, if_pos rfl]

/-- **A sweep that leaves an order whole does not need it**, unless the order is of the taker's own
trader, so that the sweep would end there. -/
theorem sweep_without (taker : Order) (ms : List Order) (q : UInt64) :
    Sorted (taker.side.opposite.rank ·.price) ms → (ms.map (·.id)).Nodup → x ∈ ms →
      x ∈ (sweep taker ms q).makers → (taker.traderId = x.traderId → ¬ crosses taker x.price) →
      sweep taker (ms.filter (·.id ≠ x.id)) q = (sweep taker ms q).without x.id := by
  induction ms, q using sweep_induction taker with
  | stop ms q h =>
    intro hsorted _ _ _ _
    rcases h with rfl | h
    · rw [sweep_zero]
      rfl
    · -- behind a maker beyond the limit there are only such makers
      have hnone := List.filter_eq_nil_iff.1 (crossing_eq_nil hsorted h)
      rw [sweep_of_not_crosses]
      · rfl
      · intro m hm
        simpa using hnone m (List.mem_of_mem_filter hm)
  | own m ms q hq hc ht =>
    intro _ hnodup hx _ hself
    have hne : m ≠ x := fun h => hself (h ▸ ht).symm (h ▸ hc)
    have hid : m.id ≠ x.id := fun h =>
      hne (List.inj_on_of_nodup_map hnodup List.mem_cons_self hx h)
    rw [List.filter_cons_of_pos (by simpa using hid), sweep, if_neg hq, if_neg (not_not.2 hc),
      if_pos ht, Sweep.without, List.filter_cons_of_pos (by simpa using hid)]
  | all m ms q hq hc ht hle r hr ih =>
    subst hr
    intro hsorted hnodup hx hx' hself
    obtain ⟨hm, hnodup⟩ := List.nodup_cons.1 hnodup
    -- the order is among the makers behind the one that is taken
    have hids : x.id ∈ ms.map (·.id) :=
      (sweep_makers_id_sublist taker ms _).subset (List.mem_map_of_mem hx')
    have hid : m.id ≠ x.id := by
      intro h
      rw [← h] at hids
      exact hm hids
    have hx : x ∈ ms := (List.mem_cons.1 hx).resolve_left fun h => hid (congrArg Order.id h).symm
    rw [List.filter_cons_of_pos (by simpa using hid), sweep_cons_all hq hc ht hle,
      ih (List.pairwise_cons.1 hsorted).2 hnodup hx hx' hself]
    rfl
  | part m ms q hq hc ht hlt =>
    intro _ hnodup hx hx' _
    have hid : m.id ≠ x.id := by
      intro h
      obtain rfl := List.inj_on_of_nodup_map hnodup List.mem_cons_self hx h
      -- it is not whole: what is left of it has less than it
      have hless : m.quantity ≠ m.quantity - q := by
        intro h
        have hnat := congrArg UInt64.toNat h
        rw [UInt64.toNat_sub_of_le _ _ (UInt64.le_of_lt hlt)] at hnat
        have hpos : 0 < q.toNat := UInt64.pos_iff_ne_zero.2 hq
        have hle : q.toNat < m.quantity.toNat := hlt
        omega
      rcases List.mem_cons.1 hx' with hpart | hms
      · exact hless (congrArg Order.quantity hpart)
      · exact (List.nodup_cons.1 hnodup).1 (List.mem_map_of_mem hms)
    rw [List.filter_cons_of_pos (by simpa using hid), sweep_cons_part hq hc ht hlt, Sweep.without,
      List.filter_cons_of_pos (by simpa using hid)]

/-! ## A call without an order -/

theorem WF.mem_side (h : B.WF) (hx : x ∈ B.orders) : x ∈ B.side x.side := by
  rw [← filter_orders h, List.mem_filter]
  exact ⟨hx, by simp⟩

theorem swept_without (h : B.WF) (h' : (B.add o).1.WF) (hx : x ∈ B.orders)
    (hx' : x ∈ (B.add o).1.orders) (hspares : (Op.add o).Spares x) :
    (B.without x.id).swept o = (B.swept o).without x.id := by
  obtain ⟨-, hself⟩ := hspares
  have hnodup : ((B.side o.side.opposite).map (·.id)).Nodup := by
    rw [← filter_orders h]
    exact h.nodup.sublist (List.filter_sublist.map _)
  by_cases hs : o.side.opposite = x.side
  · have hmem := h.mem_side hx
    have hmem' := h'.mem_side hx'
    rw [← hs] at hmem hmem'
    rw [side_add_opposite] at hmem'
    refine sweep_without o _ _ (h.sorted _) hnodup hmem hmem' fun ht => hself ?_ ht
    rw [← hs, Side.opposite_opposite]
  · -- the sweep goes along the other side
    have hother : ∀ m ∈ B.side o.side.opposite, m.id ≠ x.id := by
      intro m hm hid
      obtain rfl := List.inj_on_of_nodup_map h.nodup (mem_orders.2 ⟨_, hm⟩) hx hid
      exact hs (h.side _ m hm).symm
    have hmakers : ∀ m ∈ (B.swept o).makers, m.id ≠ x.id := by
      intro m hm
      obtain ⟨y, hy, hid⟩ := List.mem_map.1
        ((sweep_makers_id_sublist o _ _).subset (List.mem_map_of_mem hm))
      exact hid ▸ hother y hy
    have hside : (B.without x.id).side o.side.opposite = B.side o.side.opposite :=
      List.filter_eq_self.2 fun m hm => by simpa using hother m hm
    have hsame : (B.swept o).without x.id = B.swept o := by
      rw [Sweep.without, List.filter_eq_self.2 fun m hm => by simpa using hmakers m hm]
    rw [hsame, swept, hside, swept]

/-- An order of the book after a call rested before what is left of the taker was queued. -/
theorem mem_afterSweep (hx' : x ∈ (B.add o).1.orders) (hid : o.id ≠ x.id) :
    o.quantity = 0 ∨ x ∈ (B.afterSweep o).orders := by
  have hadd := added B o
  generalize B.add o = r at hadd hx'
  cases hadd with
  | zero hq => exact Or.inl hq
  | ended => exact Or.inr hx'
  | refused => exact Or.inr hx'
  | queued _ _ _ B' hi =>
    obtain ⟨-, -, rfl⟩ := insert_ok hi
    rcases List.mem_cons.1 ((orders_enqueue_perm _ _).mem_iff.1 hx') with rfl | hmem
    · exact absurd rfl hid
    · exact Or.inr hmem

/-- **Adding an order** does the same without an order that it leaves whole, except that it may find
the room that it lacks. -/
theorem add_without (h : B.WF) (h' : (B.add o).1.WF) (hx : x ∈ B.orders)
    (hx' : x ∈ (B.add o).1.orders) (hspares : (Op.add o).Spares x) :
    ((B.add o).2 ≠ .error (.book .arenaFull) →
      (B.without x.id).add o = ((B.add o).1.without x.id, (B.add o).2)) ∧
    ((B.add o).2 = .error (.book .arenaFull) →
      ((B.without x.id).add o).2 ≠ .error (.book .arenaFull)) := by
  have hswept := swept_without h h' hx hx' hspares
  have hafter : (B.without x.id).afterSweep o = (B.afterSweep o).without x.id := by
    rw [afterSweep, hswept, afterSweep, setSide_without]
    rfl
  have hremainder : (B.without x.id).remainder o = B.remainder o := by
    rw [remainder, hswept]
    rfl
  have hmem := mem_afterSweep hx' hspares.1
  unfold add
  by_cases hq : o.quantity = 0
  · simp [hq]
  replace hmem := hmem.resolve_left hq
  simp only [if_neg hq, hswept, hafter, hremainder, Sweep.without]
  by_cases hst : (B.swept o).selfTrade
  · simp [hst]
  by_cases hl : (B.swept o).left = 0
  · simp [hst, hl]
  simp only [if_neg hst, if_neg hl]
  have hsorted : Sorted (o.side.rank ·.price) ((B.afterSweep o).side o.side) := by
    rw [side_afterSweep_self]
    exact h.sorted _
  have hroom : (B.afterSweep o).orders.length ≤ (B.afterSweep o).capacity :=
    (afterSweep_room B o).2.trans h.room
  obtain ⟨hsame, hfull⟩ := insert_without (o := B.remainder o) hsorted hroom hmem hspares.1
  generalize (B.afterSweep o).insert (B.remainder o) = r at hsame hfull
  obtain ⟨B', res⟩ := r
  cases res with
  | ok =>
    rw [hsame (by simp)]
    simp
  | error e =>
    by_cases he : e = .arenaFull
    · subst he
      refine ⟨fun hne => absurd rfl hne, fun _ => ?_⟩
      have hok := hfull rfl
      generalize ((B.afterSweep o).without x.id).insert (B.remainder o) = r at hok
      obtain ⟨B'', res⟩ := r
      simp only at hok
      subst hok
      simp
    · rw [hsame (by simpa using he)]
      simp [he]

theorem cancel_without (hne : id' ≠ id) :
    (B.without id).cancel id' = ((B.cancel id').1.without id, (B.cancel id').2) := by
  have hfind : (B.without id).orders.find? (·.id = id') = B.orders.find? (·.id = id') := by
    rw [orders_without, List.find?_filter]
    congr 1
    funext y
    by_cases hy : y.id = id'
    · simp [hy, hne]
    · simp [hy]
  rw [cancel, hfind, cancel]
  cases B.orders.find? (·.id = id') with
  | none => rfl
  | some y =>
    simp only [without, List.filter_filter, Bool.and_comm]

/-- The answer of a call that finds no room. -/
def full : Reply := .added (.error (.book .arenaFull))

theorem perform_without (h : B.WF) {op : Op} (h' : (B.perform op).1.WF) (hx : x ∈ B.orders)
    (hx' : x ∈ (B.perform op).1.orders) (hspares : op.Spares x) :
    ((B.perform op).2 ≠ full →
      (B.without x.id).perform op = ((B.perform op).1.without x.id, (B.perform op).2)) ∧
    ((B.perform op).2 = full → ((B.without x.id).perform op).2 ≠ full) := by
  cases op with
  | add o =>
    obtain ⟨hsame, hfull⟩ := add_without h h' hx hx' hspares
    simp only [perform, full, ne_eq, Reply.added.injEq, Prod.mk.injEq]
    refine ⟨fun hne => ?_, hfull⟩
    rw [hsame hne]
    exact ⟨rfl, rfl⟩
  | cancel id =>
    constructor
    · intro _
      rw [perform, cancel_without hspares]
      rfl
    · intro hfull
      cases hfull

end Book

namespace MatchingEngine

variable {c : UInt32} {e e' : MatchingEngine} {x : Order} {ops : List Op}

/-- What the calls return. -/
def replies (e : MatchingEngine) (ops : List Op) : List Reply :=
  (e.transactions ops).map (·.reply)

theorem id_eq_of_partOf {y : Order} (h : x.PartOf y) : x.id = y.id := by
  rw [h.same]

/-- An order that rests whole after some calls that are not about it did so after the first. -/
theorem mem_perform (h : e.book.WF) (hx : x ∈ e.book.allRestingOrders) {op : Op}
    (hops : ∀ op' ∈ op :: ops, op'.Spares x)
    (hrests : x ∈ (e.performAll (op :: ops)).book.allRestingOrders) :
    x ∈ (e.perform op).1.book.allRestingOrders := by
  obtain ⟨hwf, hbook, -⟩ := perform_sim h op
  obtain ⟨y, hy, hxy⟩ | ⟨o, ho, hpart⟩ := partOf_of_mem_performAll hwf ops hrests
  · have hy' := hy
    rw [← OrderBook.orders_toBook, hbook] at hy'
    obtain ⟨z, hz, hyz⟩ | ⟨o, rfl, hpart⟩ := Book.partOf_of_mem_perform hy'
    · -- the order under its id was never more than it, and is never less
      obtain rfl : x = z := List.inj_on_of_nodup_map h.wf_toBook.nodup
        (by rwa [OrderBook.orders_toBook]) hz ((id_eq_of_partOf hxy).trans (id_eq_of_partOf hyz))
      have hq := UInt64.le_antisymm hxy.le hyz.le
      have hsame := hxy.same
      rw [hq] at hsame
      rwa [hsame]
    · exact absurd ((id_eq_of_partOf hxy).trans (id_eq_of_partOf hpart)).symm
        (hops _ List.mem_cons_self).1
  · exact absurd (id_eq_of_partOf hpart).symm (hops _ (List.mem_cons_of_mem _ ho)).1

/-- **Without the order**: from the book without it, calls return the same unless one of them finds
no room, and lead to the book without it. -/
theorem run_without (h : e.book.WF) (h' : e'.book.WF)
    (hbook : e'.book.toBook = e.book.toBook.without x.id) (hx : x ∈ e.book.allRestingOrders)
    (hops : ∀ op ∈ ops, op.Spares x)
    (hrests : x ∈ (e.performAll ops).book.allRestingOrders) :
    (e'.replies ops = e.replies ops ↔ Book.full ∉ e.replies ops) ∧
      (Book.full ∉ e.replies ops →
        (e'.performAll ops).book.toBook = (e.performAll ops).book.toBook.without x.id) := by
  induction ops generalizing e e' with
  | nil => exact ⟨by simp [replies, transactions], fun _ => hbook⟩
  | cons op ops ih =>
    obtain ⟨hwf, hsim, hreply⟩ := perform_sim h op
    obtain ⟨hwf', hsim', hreply'⟩ := perform_sim h' op
    have hx' := mem_perform h hx hops hrests
    have hmem := hx'
    rw [← OrderBook.orders_toBook, hsim] at hmem
    obtain ⟨hsame, hfull⟩ := Book.perform_without h.wf_toBook (hsim ▸ hwf.wf_toBook)
      (by rwa [OrderBook.orders_toBook]) hmem (hops op List.mem_cons_self)
    rw [← hbook, ← hreply'] at hfull
    rw [← hbook] at hsame
    rw [← hreply] at hsame hfull
    have hcons : ∀ e : MatchingEngine, e.replies (op :: ops) =
      (e.perform op).2 :: (e.perform op).1.replies ops := fun _ => rfl
    rw [hcons, hcons, List.cons.injEq, List.mem_cons, not_or]
    by_cases hroom : (e.perform op).2 = Book.full
    · -- the calls part here: without the order there is room
      have hne := hfull hroom
      constructor
      · simp [hroom, hne]
      · intro hcontra
        exact absurd hroom.symm hcontra.1
    · have hstep : (e'.perform op).1.book.toBook = (e.perform op).1.book.toBook.without x.id := by
        rw [hsim', hsame hroom, hsim]
      have hanswer : (e'.perform op).2 = (e.perform op).2 := by
        rw [hreply', hsame hroom]
      obtain ⟨hiff, hlast⟩ := ih hwf hwf' hstep hx'
        (fun op' hop' => hops op' (List.mem_cons_of_mem _ hop')) hrests
      exact ⟨by simp [hanswer, hiff, Ne.symm hroom], fun hno => hlast hno.2⟩

/-- **A cancellation can be brought forward** past all calls that are not about the order, if it
still rests whole when they are over. The calls return the same just in case none of them finds the
arena full, and then the engines that cancel early and late cannot be told apart. -/
theorem cancel_earlier_iff (x : Order) (ops : List Op) (h : Reachable c e)
    (hx : x ∈ e.book.allRestingOrders) (hops : ∀ op ∈ ops, op.Spares x)
    (hrests : x ∈ (e.performAll ops).book.allRestingOrders) :
    ((e.cancelOrder x.id).1.replies ops = e.replies ops ↔
        .added (.error (.book .arenaFull)) ∉ e.replies ops) ∧
      (.added (.error (.book .arenaFull)) ∉ e.replies ops →
        Indistinguishable ((e.cancelOrder x.id).1.performAll ops)
          ((e.performAll ops).cancelOrder x.id).1) := by
  have hwf := h.sound.wf
  obtain ⟨hwf₀, hbook₀, -⟩ := cancelOrder_sim hwf x.id
  rw [Book.cancel_eq_without hwf.wf_toBook (by rwa [OrderBook.orders_toBook])] at hbook₀
  obtain ⟨hiff, hlast⟩ := run_without hwf hwf₀ hbook₀ hx hops hrests
  refine ⟨hiff, fun hno => ?_⟩
  have hwf₁ := (reachable_performAll h ops).sound.wf
  have hwf₂ := (reachable_performAll (h.cancel x.id) ops).sound.wf
  obtain ⟨hwf₃, hbook₃, -⟩ := cancelOrder_sim hwf₁ x.id
  rw [Book.cancel_eq_without hwf₁.wf_toBook (by rwa [OrderBook.orders_toBook])] at hbook₃
  exact views_eq_of_toBook_eq hwf₃ hwf₂ ((hlast hno).trans hbook₃.symm)

/-- An order comes in front of `1` and is traded, and another one queues behind it. -/
def aroundOne : List Op :=
  [.add ⟨2, 11, .ask, 100, 2, 8⟩, .add ⟨3, 12, .bid, 101, 2, 9⟩, .add ⟨4, 10, .ask, 101, 3, 10⟩]

/-- With `1` cancelled these go the same, but then there is room for one more. -/
theorem cancel_earlier_iff_room : ∃ e, Reachable 2 e ∧
    Indistinguishable ((e.cancelOrder 1).1.performAll aroundOne)
      ((e.performAll aroundOne).cancelOrder 1).1 ∧
    (e.cancelOrder 1).1.replies aroundOne = e.replies aroundOne ∧
    (e.cancelOrder 1).1.replies (aroundOne ++ [.add ⟨5, 12, .bid, 90, 1, 11⟩]) ≠
      e.replies (aroundOne ++ [.add ⟨5, 12, .bid, 90, 1, 11⟩]) := by
  have hreach : Reachable 2 ((withCapacity 2).addOrder ⟨1, 10, .ask, 101, 5, 7⟩).1 :=
    .add (.init 2) _
  obtain ⟨hiff, hlast⟩ := cancel_earlier_iff ⟨1, 10, .ask, 101, 5, 7⟩ aroundOne hreach
    (by decide +kernel) (by decide +kernel) (by decide +kernel)
  obtain ⟨hiff', -⟩ := cancel_earlier_iff ⟨1, 10, .ask, 101, 5, 7⟩
    (aroundOne ++ [.add ⟨5, 12, .bid, 90, 1, 11⟩]) hreach
    (by decide +kernel) (by decide +kernel) (by decide +kernel)
  exact ⟨_, hreach, hlast (by decide +kernel), hiff.2 (by decide +kernel),
    fun h => hiff'.1 h (by decide +kernel)⟩

end MatchingEngine

end Ferrox
