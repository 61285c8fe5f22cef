import Ferrox.PriceTime

/-!
# Properties of the price-time book

What holds of every operation of `Ferrox.PriceTime`, proved by induction along the sweep: the
capacity never changes, quantities stay positive, and what a taker leaves of the makers is a suffix
of them whose first order may have shrunk.
-/

namespace Ferrox

open Ranked

namespace Book

variable {B : Book} {o : Order} {s : Side} {l : List Order}

/-! ## The pieces of a book -/

@[simp] theorem capacity_setSide : (B.setSide s l).capacity = B.capacity := rfl

@[simp] theorem side_setSide_self : (B.setSide s l).side s = l := by simp [setSide]

theorem side_setSide_of_ne {s' : Side} (h : s' ≠ s) : (B.setSide s l).side s' = B.side s' := by
  simp [setSide, h]

theorem side_afterSweep_self (B : Book) (o : Order) :
    (B.afterSweep o).side o.side = B.side o.side :=
  side_setSide_of_ne (Side.opposite_ne _).symm

theorem side_afterSweep_opposite (B : Book) (o : Order) :
    (B.afterSweep o).side o.side.opposite = (B.swept o).makers :=
  side_setSide_self

theorem mem_orders {x : Order} : x ∈ B.orders ↔ ∃ s, x ∈ B.side s := by
  rw [orders, List.mem_append]
  constructor
  · rintro (h | h)
    · exact ⟨_, h⟩
    · exact ⟨_, h⟩
  · rintro ⟨s, h⟩
    cases s with
    | ask => exact Or.inl h
    | bid => exact Or.inr h

theorem insert_cases (B : Book) (o : Order) :
    (o.id ∈ B.orders.map (·.id) ∧ B.insert o = (B, .error (.duplicateOrderId o.id))) ∨
      (o.id ∉ B.orders.map (·.id) ∧ B.capacity ≤ B.orders.length ∧
        B.insert o = (B, .error .arenaFull)) ∨
      (o.id ∉ B.orders.map (·.id) ∧ B.orders.length < B.capacity ∧
        B.insert o =
          (B.setSide o.side (enqueue (o.side.rank ·.price) o (B.side o.side)), .ok ())) := by
  unfold insert
  by_cases hid : o.id ∈ B.orders.map (·.id)
  · exact Or.inl ⟨hid, if_pos hid⟩
  · rw [if_neg hid]
    by_cases hcap : B.capacity ≤ B.orders.length
    · exact Or.inr (Or.inl ⟨hid, hcap, if_pos hcap⟩)
    · exact Or.inr (Or.inr ⟨hid, not_le.1 hcap, if_neg hcap⟩)

theorem insert_ok {B' : Book} (h : B.insert o = (B', .ok ())) :
    o.id ∉ B.orders.map (·.id) ∧ B.orders.length < B.capacity ∧
      B' = B.setSide o.side (enqueue (o.side.rank ·.price) o (B.side o.side)) := by
  rcases insert_cases B o with ⟨-, hi⟩ | ⟨-, -, hi⟩ | ⟨hid, hroom, hi⟩
  · rw [hi] at h
    cases (Prod.mk.inj h).2
  · rw [hi] at h
    cases (Prod.mk.inj h).2
  · rw [hi] at h
    exact ⟨hid, hroom, (Prod.mk.inj h).1.symm⟩

theorem insert_ok_iff (B : Book) (o : Order) :
    (∃ B', B.insert o = (B', .ok ())) ↔
      o.id ∉ B.orders.map (·.id) ∧ B.orders.length < B.capacity := by
  constructor
  · intro h
    obtain ⟨B', hi⟩ := h
    obtain ⟨hid, hroom, -⟩ := insert_ok hi
    exact ⟨hid, hroom⟩
  · intro h
    rw [insert, if_neg h.1, if_neg (not_le.2 h.2)]
    exact ⟨_, rfl⟩

theorem insert_error {B' : Book} {e : BookError} (h : B.insert o = (B', .error e)) :
    (o.id ∈ B.orders.map (·.id) ∧ e = .duplicateOrderId o.id) ∨
      (o.id ∉ B.orders.map (·.id) ∧ B.capacity ≤ B.orders.length ∧ e = .arenaFull) := by
  rcases insert_cases B o with ⟨hid, hi⟩ | ⟨hid, hfull, hi⟩ | ⟨-, -, hi⟩
  · rw [hi] at h
    exact Or.inl ⟨hid, (Except.error.inj (Prod.mk.inj h).2).symm⟩
  · rw [hi] at h
    exact Or.inr ⟨hid, hfull, (Except.error.inj (Prod.mk.inj h).2).symm⟩
  · rw [hi] at h
    cases (Prod.mk.inj h).2

theorem cancel_cases (B : Book) (id : UInt64) :
    ((∀ x ∈ B.orders, x.id ≠ id) ∧ B.cancel id = (B, .error (.orderNotFound id))) ∨
      ∃ x ∈ B.orders, x.id = id ∧
        B.cancel id = (⟨B.capacity, fun s => (B.side s).filter (·.id ≠ id)⟩, .ok x) := by
  unfold cancel
  cases h : B.orders.find? (·.id = id) with
  | none =>
    left
    refine ⟨?_, rfl⟩
    intro x hx
    simpa using List.find?_eq_none.1 h x hx
  | some x =>
    right
    exact ⟨x, List.mem_of_find?_eq_some h, by simpa using List.find?_some h, rfl⟩

/-- The outcomes of adding an order: it is refused outright, it ends inside the sweep, its
remainder is refused, or its remainder is queued. -/
inductive Added (B : Book) (o : Order) : Book × Except MatchingError AddOrderResult → Prop
  | zero (hq : o.quantity = 0) : Added B o (B, .error .zeroQuantity)
  | ended (hq : o.quantity ≠ 0) (hend : (B.swept o).selfTrade = true ∨ (B.swept o).left = 0)
      (r : AddOrderResult) (hr : r.fills = (B.swept o).fills) : Added B o (B.afterSweep o, .ok r)
  | refused (hq : o.quantity ≠ 0) (hst : (B.swept o).selfTrade = false)
      (hl : (B.swept o).left ≠ 0) (e : BookError)
      (hi : (B.afterSweep o).insert (B.remainder o) = (B.afterSweep o, .error e)) :
      Added B o (B.afterSweep o, .error (.book e))
  | queued (hq : o.quantity ≠ 0) (hst : (B.swept o).selfTrade = false)
      (hl : (B.swept o).left ≠ 0) (B' : Book)
      (hi : (B.afterSweep o).insert (B.remainder o) = (B', .ok ()))
      (r : AddOrderResult) (hr : r.fills = (B.swept o).fills) : Added B o (B', .ok r)

theorem added (B : Book) (o : Order) : Added B o (B.add o) := by
  unfold add
  by_cases hq : o.quantity = 0
  · rw [if_pos hq]
    exact .zero hq
  rw [if_neg hq]
  simp only
  by_cases hst : (B.swept o).selfTrade
  · rw [if_pos hst]
    exact .ended hq (Or.inl hst) _ rfl
  rw [if_neg hst]
  by_cases hl : (B.swept o).left = 0
  · rw [if_pos hl]
    exact .ended hq (Or.inr hl) _ rfl
  rw [if_neg hl]
  have hst' : (B.swept o).selfTrade = false := by simpa using hst
  rcases insert_cases (B.afterSweep o) (B.remainder o) with
    ⟨-, h⟩ | ⟨-, -, h⟩ | ⟨-, -, h⟩
  · rw [h]
    exact .refused hq hst' hl _ h
  · rw [h]
    exact .refused hq hst' hl _ h
  · rw [h]
    exact .queued hq hst' hl _ h _ rfl

theorem add_empty {c : Nat} (hc : 0 < c) {o : Order} (ho : o.quantity ≠ 0) :
    (empty c).add o = ((empty c).setSide o.side [o],
      .ok { orderId := o.id, status := .resting, fills := [] }) := by
  have hswept : (empty c).swept o = ⟨[], [], o.quantity, false⟩ := rfl
  have hafter : (empty c).afterSweep o = empty c := by
    simp only [afterSweep, setSide, empty, mk.injEq, true_and]
    exact Function.update_eq_self _ _
  have hremainder : (empty c).remainder o = o := rfl
  have hid : o.id ∉ (empty c).orders.map (·.id) := List.not_mem_nil
  have hroom : ¬ (empty c).capacity ≤ (empty c).orders.length := not_le.2 hc
  have hinsert : (empty c).insert o = ((empty c).setSide o.side [o], .ok ()) := by
    unfold insert
    rw [if_neg hid, if_neg hroom]
    rfl
  unfold add
  rw [if_neg ho, hafter, hremainder, hinsert, hswept]
  simp [ho]

/-! ## Along the sweep -/

theorem sub_eq_zero_iff {a b : UInt64} : a - b = 0 ↔ a = b := by
  constructor
  · intro h
    have := congrArg (· + b) h
    simpa using this
  · intro h
    rw [h, UInt64.sub_self]

section

variable {taker m : Order} {ms : List Order} {q : UInt64} (hq : q ≠ 0)
  (hc : crosses taker m.price) (ht : m.traderId ≠ taker.traderId)
include hq hc ht

theorem sweep_cons_all (hle : m.quantity ≤ q) : sweep taker (m :: ms) q =
    { sweep taker ms (q - m.quantity) with
      fills := fill taker m m.quantity :: (sweep taker ms (q - m.quantity)).fills } := by
  have hm : min q m.quantity = m.quantity := by
    rw [show min q m.quantity = if q ≤ m.quantity then q else m.quantity from rfl]
    split_ifs with h
    · exact UInt64.le_antisymm h hle
    · rfl
  rw [sweep, if_neg hq, if_neg (not_not.2 hc), if_neg ht]
  simp only [hm, UInt64.sub_self, if_true]

theorem sweep_cons_part (hlt : q < m.quantity) : sweep taker (m :: ms) q =
    ⟨{ m with quantity := m.quantity - q } :: ms, [fill taker m q], 0, false⟩ := by
  have hm : min q m.quantity = q := if_pos (UInt64.le_of_lt hlt)
  have hne : ¬ m.quantity - q = 0 := by
    rw [sub_eq_zero_iff]
    exact fun h => UInt64.lt_irrefl q (h ▸ hlt)
  rw [sweep, if_neg hq, if_neg (not_not.2 hc), if_neg ht]
  simp only [hm, hne, if_false, UInt64.sub_self]

end

/-- **The four ways in which a sweep goes on**, each with the sweep it comes to: it stops, it meets
an order of its own trader, it takes all of a maker and goes on, or it takes part of a maker. -/
theorem sweep_induction (taker : Order) {P : List Order → UInt64 → Sweep → Prop}
    (stop : ∀ ms q, (q = 0 ∨ ∀ m ∈ ms.head?, ¬ crosses taker m.price) → P ms q ⟨ms, [], q, false⟩)
    (own : ∀ m ms q, q ≠ 0 → crosses taker m.price → m.traderId = taker.traderId →
      P (m :: ms) q ⟨m :: ms, [], q, true⟩)
    (all : ∀ m ms q, q ≠ 0 → crosses taker m.price → m.traderId ≠ taker.traderId →
      m.quantity ≤ q → ∀ r, r = sweep taker ms (q - m.quantity) → P ms (q - m.quantity) r →
      P (m :: ms) q ⟨r.makers, fill taker m m.quantity :: r.fills, r.left, r.selfTrade⟩)
    (part : ∀ m ms q, q ≠ 0 → crosses taker m.price → m.traderId ≠ taker.traderId →
      q < m.quantity → P (m :: ms) q
        ⟨{ m with quantity := m.quantity - q } :: ms, [fill taker m q], 0, false⟩)
    (ms : List Order) (q : UInt64) : P ms q (sweep taker ms q) := by
  induction ms generalizing q with
  | nil => exact stop [] q (Or.inr (by simp))
  | cons m ms ih =>
    by_cases hq : q = 0
    · rw [sweep, if_pos hq]
      exact stop _ q (Or.inl hq)
    by_cases hc : crosses taker m.price
    · by_cases ht : m.traderId = taker.traderId
      · rw [sweep, if_neg hq, if_neg (not_not.2 hc), if_pos ht]
        exact own m ms q hq hc ht
      · by_cases hle : m.quantity ≤ q
        · rw [sweep_cons_all hq hc ht hle]
          exact all m ms q hq hc ht hle _ rfl (ih _)
        · have hlt : q < m.quantity := UInt64.not_le.1 hle
          rw [sweep_cons_part hq hc ht hlt]
          exact part m ms q hq hc ht hlt
    · rw [sweep, if_neg hq, if_pos hc]
      exact stop _ q (Or.inr (by simpa using hc))

/-- What is left of the makers is a suffix of them, but for the quantity of its first order. -/
theorem sweep_makers (taker : Order) (ms : List Order) (q : UInt64) :
    (sweep taker ms q).makers = [] ∨
      ∃ done m rest left, ms = done ++ m :: rest ∧
        (sweep taker ms q).makers = { m with quantity := left } :: rest ∧
        (m.quantity ≠ 0 → left ≠ 0) := by
  induction ms, q using sweep_induction taker with
  | stop ms q h =>
    cases ms with
    | nil => exact Or.inl rfl
    | cons m ms => exact Or.inr ⟨[], m, ms, m.quantity, rfl, rfl, id⟩
  | own m ms q => exact Or.inr ⟨[], m, ms, m.quantity, rfl, rfl, id⟩
  | all m ms q _ _ _ _ r _ ih =>
    rcases ih with h | ⟨done, m', rest, left, rfl, h, hne⟩
    · exact Or.inl h
    · exact Or.inr ⟨m :: done, m', rest, left, rfl, h, hne⟩
  | part m ms q _ _ _ hlt =>
    refine Or.inr ⟨[], m, ms, _, rfl, rfl, fun _ => ?_⟩
    rw [ne_eq, sub_eq_zero_iff]
    exact fun h => UInt64.lt_irrefl q (h ▸ hlt)

theorem sweep_makers_id_sublist (taker : Order) (ms : List Order) (q : UInt64) :
    ((sweep taker ms q).makers.map (·.id)).Sublist (ms.map (·.id)) := by
  rcases sweep_makers taker ms q with h | ⟨done, m, rest, left, rfl, h, -⟩
  · rw [h]
    exact List.nil_sublist _
  · rw [h, List.map_append]
    exact List.sublist_append_right _ _

theorem length_sweep_makers (taker : Order) (ms : List Order) (q : UInt64) :
    (sweep taker ms q).makers.length ≤ ms.length := by
  simpa using (sweep_makers_id_sublist taker ms q).length_le

theorem afterSweep_room (B : Book) (o : Order) :
    (B.afterSweep o).orders.map (·.id) ⊆ B.orders.map (·.id) ∧
      (B.afterSweep o).orders.length ≤ B.orders.length := by
  have hsub : ((B.afterSweep o).orders.map (·.id)).Sublist (B.orders.map (·.id)) := by
    have hmakers := sweep_makers_id_sublist o (B.side o.side.opposite) o.quantity
    unfold afterSweep swept orders
    rw [List.map_append, List.map_append]
    cases hs : o.side with
    | bid =>
      rw [hs] at hmakers
      rw [Side.opposite, side_setSide_self, side_setSide_of_ne (by decide)]
      exact hmakers.append_right _
    | ask =>
      rw [hs] at hmakers
      rw [Side.opposite, side_setSide_self, side_setSide_of_ne (by decide)]
      exact hmakers.append_left _
  exact ⟨hsub.subset, by simpa using hsub.length_le⟩

/-- A taker that traded and still has something left has taken all of some maker. -/
theorem length_sweep_makers_lt (taker : Order) (ms : List Order) (q : UInt64) :
    (sweep taker ms q).fills ≠ [] → (sweep taker ms q).left ≠ 0 →
      (sweep taker ms q).makers.length < ms.length := by
  induction ms, q using sweep_induction taker with
  | stop ms q h => exact fun h _ => absurd rfl h
  | own m ms q => exact fun h _ => absurd rfl h
  | all m ms q _ _ _ _ r hr =>
    intro _ _
    rw [hr]
    exact Nat.lt_succ_of_le (length_sweep_makers taker ms _)
  | part m ms q => exact fun _ h => absurd rfl h

/-! ## Accounting

What a sweep takes from the makers is what its fills say, maker by maker. -/

/-- The quantity resting under an id. -/
def restingQuantity (l : List Order) (id : UInt64) : Nat :=
  ((l.filter (·.id = id)).map (·.quantity.toNat)).sum

/-- The quantity traded against the maker with an id. -/
def filledQuantity (fills : List Fill) (id : UInt64) : Nat :=
  ((fills.filter (·.makerOrderId = id)).map (·.quantity.toNat)).sum

theorem restingQuantity_cons (x : Order) (l : List Order) (id : UInt64) :
    restingQuantity (x :: l) id =
      (if x.id = id then x.quantity.toNat else 0) + restingQuantity l id := by
  by_cases h : x.id = id <;> simp [restingQuantity, h]

theorem filledQuantity_cons (f : Fill) (l : List Fill) (id : UInt64) :
    filledQuantity (f :: l) id =
      (if f.makerOrderId = id then f.quantity.toNat else 0) + filledQuantity l id := by
  by_cases h : f.makerOrderId = id <;> simp [filledQuantity, h]

theorem filledQuantity_eq_zero_iff (fills : List Fill) :
    (∀ id, filledQuantity fills id = 0) ↔ (fills.map (·.quantity.toNat)).sum = 0 := by
  induction fills with
  | nil => simp [filledQuantity]
  | cons f fills ih =>
    simp only [filledQuantity_cons, List.map_cons, List.sum_cons, Nat.add_eq_zero_iff]
    rw [forall_and, ih]
    simp

/-- **Maker by maker, what rested is what still rests and what was traded.** -/
theorem sweep_accounts (taker : Order) (ms : List Order) (q : UInt64) (id : UInt64) :
    restingQuantity ms id = restingQuantity (sweep taker ms q).makers id +
      filledQuantity (sweep taker ms q).fills id := by
  induction ms, q using sweep_induction taker with
  | stop ms q => simp [filledQuantity]
  | own m ms q => simp [filledQuantity]
  | all m ms q _ _ _ _ r _ ih =>
    have hid : (fill taker m m.quantity).makerOrderId = m.id := rfl
    have hqty : (fill taker m m.quantity).quantity = m.quantity := rfl
    simp only [restingQuantity_cons, filledQuantity_cons, ih, hid, hqty]
    omega
  | part m ms q _ _ _ hlt =>
    have hid : (fill taker m q).makerOrderId = m.id := rfl
    have hqty : (fill taker m q).quantity = q := rfl
    have hsub : (m.quantity - q).toNat = m.quantity.toNat - q.toNat :=
      UInt64.toNat_sub_of_le _ _ (UInt64.le_of_lt hlt)
    have hlt' : q.toNat < m.quantity.toNat := UInt64.lt_iff_toNat_lt.1 hlt
    rw [restingQuantity_cons, restingQuantity_cons, filledQuantity_cons, hid, hqty, hsub]
    split_ifs
    · simp [filledQuantity]
      omega
    · simp [filledQuantity]

theorem sweep_left (taker : Order) (ms : List Order) (q : UInt64) :
    q.toNat = (sweep taker ms q).left.toNat +
      ((sweep taker ms q).fills.map (·.quantity.toNat)).sum := by
  induction ms, q using sweep_induction taker with
  | stop ms q => simp
  | own m ms q => simp
  | all m ms q _ _ _ hle r _ ih =>
    have hsub : (q - m.quantity).toNat = q.toNat - m.quantity.toNat :=
      UInt64.toNat_sub_of_le _ _ hle
    have hle' : m.quantity.toNat ≤ q.toNat := UInt64.le_iff_toNat_le.1 hle
    have hqty : (fill taker m m.quantity).quantity = m.quantity := rfl
    simp only [List.map_cons, List.sum_cons, hqty]
    omega
  | part m ms q => simp [fill]

theorem sweep_makers_of_fills_nil (taker : Order) (ms : List Order) (q : UInt64) :
    (sweep taker ms q).fills = [] → (sweep taker ms q).makers = ms := by
  induction ms, q using sweep_induction taker with
  | stop ms q => exact fun _ => rfl
  | own m ms q => exact fun _ => rfl
  | all m ms q => exact fun h => nomatch h
  | part m ms q => exact fun h => nomatch h

theorem sum_fills_pos (taker : Order) (ms : List Order) (q : UInt64)
    (hms : ∀ m ∈ ms, m.quantity ≠ 0) :
    (sweep taker ms q).fills ≠ [] → 0 < ((sweep taker ms q).fills.map (·.quantity.toNat)).sum := by
  revert hms
  induction ms, q using sweep_induction taker with
  | stop ms q => exact fun _ h => absurd rfl h
  | own m ms q => exact fun _ h => absurd rfl h
  | all m ms q _ _ _ _ r =>
    intro hms _
    have hm : 0 < m.quantity.toNat := UInt64.pos_iff_ne_zero.2 (hms m List.mem_cons_self)
    rw [List.map_cons, List.sum_cons]
    exact Nat.lt_of_lt_of_le hm (Nat.le_add_right _ _)
  | part m ms q hq =>
    intro _ _
    have hq' : 0 < q.toNat := UInt64.pos_iff_ne_zero.2 hq
    rw [List.map_cons, List.sum_cons]
    exact Nat.lt_of_lt_of_le hq' (Nat.le_add_right _ _)

theorem sweep_of_not_crosses {taker : Order} {ms : List Order} {q : UInt64}
    (h : ∀ m ∈ ms, ¬ crosses taker m.price) : sweep taker ms q = ⟨ms, [], q, false⟩ := by
  cases ms with
  | nil => rfl
  | cons m ms =>
    rw [sweep, if_pos (h m List.mem_cons_self), ite_self]

/-- The makers within the taker's limit. -/
def crossing (taker : Order) (ms : List Order) : List Order :=
  ms.filter fun m => crosses taker m.price

/-- Behind a maker beyond the limit there are only such makers. -/
theorem crossing_eq_nil {taker : Order} {ms : List Order}
    (hs : Sorted (taker.side.opposite.rank ·.price) ms)
    (h : ∀ m ∈ ms.head?, ¬ crosses taker m.price) : crossing taker ms = [] := by
  cases ms with
  | nil => rfl
  | cons m ms =>
    have hm : ¬ crosses taker m.price := h m rfl
    apply List.filter_eq_nil_iff.2
    intro x hx
    rw [decide_eq_true_eq]
    rcases List.mem_cons.1 hx with rfl | hx
    · exact hm
    · have hle := (List.pairwise_cons.1 hs).1 x hx
      exact fun hc => hm (le_trans hle hc)

/-- **When a taker gets past all crossing makers**: none of them is its own trader's, and together
they have less than it wants. -/
theorem sweep_through_iff {taker : Order} {ms : List Order}
    (hs : Sorted (taker.side.opposite.rank ·.price) ms) (q : UInt64) :
    (sweep taker ms q).selfTrade = false ∧ (sweep taker ms q).left ≠ 0 ↔
      (∀ m ∈ crossing taker ms, m.traderId ≠ taker.traderId) ∧
        ((crossing taker ms).map (·.quantity.toNat)).sum < q.toNat := by
  revert hs
  induction ms, q using sweep_induction taker with
  | stop ms q h =>
    intro hs
    rcases h with rfl | h
    · simp
    · have hq : q ≠ 0 ↔ 0 < q.toNat := by
        rw [Nat.pos_iff_ne_zero, ne_eq, ne_eq, ← UInt64.toNat_inj]
        rfl
      simp [crossing_eq_nil hs h, hq]
  | own m ms q _ hc ht =>
    intro _
    have hmem : m ∈ crossing taker (m :: ms) :=
      List.mem_filter.2 ⟨List.mem_cons_self, decide_eq_true hc⟩
    constructor
    · intro h
      cases h.1
    · intro h
      exact absurd ht (h.1 m hmem)
  | all m ms q _ hc ht hle r hr ih =>
    intro hs
    have hcross : crossing taker (m :: ms) = m :: crossing taker ms :=
      List.filter_cons_of_pos (decide_eq_true hc)
    have hsub : (q - m.quantity).toNat = q.toNat - m.quantity.toNat :=
      UInt64.toNat_sub_of_le _ _ hle
    have hle' : m.quantity.toNat ≤ q.toNat := UInt64.le_iff_toNat_le.1 hle
    have hqty : m.quantity.toNat + ((crossing taker ms).map (·.quantity.toNat)).sum < q.toNat ↔
        ((crossing taker ms).map (·.quantity.toNat)).sum < (q - m.quantity).toNat := by omega
    have := ih (List.pairwise_cons.1 hs).2
    simp only [hcross, List.forall_mem_cons, List.map_cons, List.sum_cons, hqty]
    rw [this]
    simp [ht]
  | part m ms q _ hc _ hlt =>
    intro _
    have hcross : crossing taker (m :: ms) = m :: crossing taker ms :=
      List.filter_cons_of_pos (decide_eq_true hc)
    have hlt' : q.toNat < m.quantity.toNat := UInt64.lt_iff_toNat_lt.1 hlt
    constructor
    · intro h
      exact absurd rfl h.2
    · intro h
      rw [hcross, List.map_cons, List.sum_cons] at h
      omega

/-- **What is left then** are the makers beyond the limit; everything else was traded. -/
theorem sweep_through {taker : Order} {ms : List Order}
    (hs : Sorted (taker.side.opposite.rank ·.price) ms) (q : UInt64) :
    (sweep taker ms q).selfTrade = false → (sweep taker ms q).left ≠ 0 →
      (sweep taker ms q).makers = ms.filter (fun m => ¬ crosses taker m.price) ∧
        ((sweep taker ms q).fills.map (·.quantity.toNat)).sum =
          ((crossing taker ms).map (·.quantity.toNat)).sum := by
  revert hs
  induction ms, q using sweep_induction taker with
  | stop ms q h =>
    intro hs _ hleft
    have hnil := crossing_eq_nil hs (h.resolve_left hleft)
    refine ⟨?_, by rw [hnil]; rfl⟩
    symm
    apply List.filter_eq_self.2
    intro m hm
    simpa using List.filter_eq_nil_iff.1 hnil m hm
  | own m ms q =>
    intro _ hst
    cases hst
  | all m ms q _ hc _ _ r _ ih =>
    intro hs hst hleft
    obtain ⟨hmakers, hsum⟩ := ih (List.pairwise_cons.1 hs).2 hst hleft
    have hcross : crossing taker (m :: ms) = m :: crossing taker ms :=
      List.filter_cons_of_pos (decide_eq_true hc)
    refine ⟨?_, ?_⟩
    · rw [List.filter_cons_of_neg (by simpa using hc)]
      exact hmakers
    · rw [hcross, List.map_cons, List.map_cons, List.sum_cons, List.sum_cons, hsum]
      rfl
  | part m ms q =>
    intro _ _ hleft
    exact absurd rfl hleft

/-! ## Well-formed books -/

/-- What every book of the engine satisfies: orders stand on their own side, in order of priority,
under distinct ids, and there is room for all of them. -/
structure WF (B : Book) : Prop where
  side : ∀ s, ∀ x ∈ B.side s, x.side = s
  sorted : ∀ s, Sorted (s.rank ·.price) (B.side s)
  nodup : (B.orders.map (·.id)).Nodup
  room : B.orders.length ≤ B.capacity

theorem filter_orders (h : B.WF) (s : Side) : B.orders.filter (·.side = s) = B.side s := by
  have hself : (B.side s).filter (·.side = s) = B.side s :=
    List.filter_eq_self.2 fun x hx => by simpa using h.side s x hx
  have hother : ∀ s', s' ≠ s → (B.side s').filter (·.side = s) = [] := by
    intro s' hs'
    refine List.filter_eq_nil_iff.2 fun x hx => ?_
    rw [h.side s' x hx]
    simpa using hs'
  rw [orders, List.filter_append]
  cases s with
  | ask => rw [hself, hother .bid (by decide), List.append_nil]
  | bid => rw [hself, hother .ask (by decide), List.nil_append]

theorem WF.ext {B' : Book} (h : B.WF) (h' : B'.WF) (hcap : B'.capacity = B.capacity)
    (horders : B'.orders = B.orders) : B' = B := by
  have hside : B'.side = B.side := by
    funext s
    rw [← filter_orders h, ← filter_orders h', horders]
  obtain ⟨capacity, side⟩ := B
  obtain ⟨capacity', side'⟩ := B'
  simp only at hcap hside
  rw [hcap, hside]

/-- Nothing rests with quantity zero. -/
def Positive (B : Book) : Prop := ∀ x ∈ B.orders, x.quantity ≠ 0

theorem positive_empty (c : Nat) : (empty c).Positive := by
  intro x hx
  simp [empty, orders] at hx

theorem positive_setSide (h : B.Positive) (hl : ∀ x ∈ l, x.quantity ≠ 0) :
    (B.setSide s l).Positive := by
  intro x hx
  obtain ⟨s', hx⟩ := mem_orders.1 hx
  by_cases hs : s' = s
  · rw [hs, side_setSide_self] at hx
    exact hl x hx
  · rw [side_setSide_of_ne hs] at hx
    exact h x (mem_orders.2 ⟨s', hx⟩)

theorem positive_insert (h : B.Positive) (ho : o.quantity ≠ 0) : (B.insert o).1.Positive := by
  rcases insert_cases B o with ⟨-, hi⟩ | ⟨-, -, hi⟩ | ⟨-, -, hi⟩
  · rw [hi]
    exact h
  · rw [hi]
    exact h
  · rw [hi]
    apply positive_setSide h
    intro x hx
    rcases mem_enqueue.1 hx with rfl | hx
    · exact ho
    · exact h x (mem_orders.2 ⟨_, hx⟩)

theorem positive_afterSweep (h : B.Positive) : (B.afterSweep o).Positive := by
  apply positive_setSide h
  have hm : ∀ m ∈ B.side o.side.opposite, m.quantity ≠ 0 := fun m hm => h m (mem_orders.2 ⟨_, hm⟩)
  intro x hx
  rcases sweep_makers o (B.side o.side.opposite) o.quantity with
    hn | ⟨done, m, rest, left, e, hn, hne⟩
  · rw [swept, hn] at hx
    simp at hx
  · rw [swept, hn] at hx
    rw [e] at hm
    rcases List.mem_cons.1 hx with rfl | hx
    · exact hne (hm m (by simp))
    · exact hm x (by simp [hx])

theorem positive_add (h : B.Positive) (o : Order) : (B.add o).1.Positive := by
  have ha := added B o
  generalize B.add o = r at ha ⊢
  cases ha with
  | zero => exact h
  | ended => exact positive_afterSweep h
  | refused => exact positive_afterSweep h
  | queued hq hst hl B' hi r hr =>
    have hB' : B' = ((B.afterSweep o).insert (B.remainder o)).1 := by rw [hi]
    rw [hB']
    exact positive_insert (positive_afterSweep h) hl

theorem positive_cancel (h : B.Positive) (id : UInt64) : (B.cancel id).1.Positive := by
  rcases cancel_cases B id with ⟨-, hc⟩ | ⟨x, -, -, hc⟩
  · rw [hc]
    exact h
  · rw [hc]
    intro y hy
    obtain ⟨s, hy⟩ := mem_orders.1 hy
    exact h y (mem_orders.2 ⟨s, (List.mem_filter.1 hy).1⟩)

/-! ## Restoring a captured book -/

/-- Queue orders one after the other, stopping at the first that is refused. -/
def insertAll : List Order → Book → Except BookError Book
  | [], B => .ok B
  | o :: os, B =>
      match B.insert o with
      | (_, .error e) => .error e
      | (B', .ok ()) => insertAll os B'

/-- Each order of a list queued on its own side. -/
def enqueueAll (os : List Order) (B : Book) : Book :=
  os.foldl (fun B o => B.setSide o.side (enqueue (o.side.rank ·.price) o (B.side o.side))) B

theorem orders_enqueue_perm (B : Book) (o : Order) :
    (B.setSide o.side (enqueue (o.side.rank ·.price) o (B.side o.side))).orders.Perm
      (o :: B.orders) := by
  cases hs : o.side with
  | ask =>
    rw [orders, side_setSide_self, side_setSide_of_ne (by decide)]
    exact (enqueue_perm o (B.side .ask)).append_right _
  | bid =>
    rw [orders, side_setSide_self, side_setSide_of_ne (by decide)]
    exact ((enqueue_perm o (B.side .bid)).append_left _).trans List.perm_middle

theorem insertAll_eq {os : List Order} (hid : ((os ++ B.orders).map (·.id)).Nodup)
    (hroom : os.length + B.orders.length ≤ B.capacity) :
    insertAll os B = .ok (enqueueAll os B) := by
  induction os generalizing B with
  | nil => rfl
  | cons o os ih =>
    rw [List.cons_append, List.map_cons, List.nodup_cons] at hid
    have hnew : o.id ∉ B.orders.map (·.id) := by
      intro h
      apply hid.1
      rw [List.map_append]
      exact List.mem_append_right _ h
    rw [List.length_cons] at hroom
    have hperm := orders_enqueue_perm B o
    have hins : B.insert o =
        (B.setSide o.side (enqueue (o.side.rank ·.price) o (B.side o.side)), .ok ()) := by
      rw [insert, if_neg hnew, if_neg (by omega)]
    rw [insertAll, hins]
    apply ih
    · refine (((hperm.append_left os).trans List.perm_middle).map (·.id)).nodup_iff.2 ?_
      rw [List.map_cons, List.nodup_cons]
      exact hid
    · rw [hperm.length_eq, capacity_setSide, List.length_cons]
      omega

theorem insertAll_ok {os : List Order} {B' : Book} (h : insertAll os B = .ok B') :
    B'.capacity = B.capacity ∧ B'.orders.Perm (os ++ B.orders) := by
  induction os generalizing B with
  | nil =>
    cases h
    exact ⟨rfl, List.Perm.refl _⟩
  | cons o os ih =>
    rw [insertAll] at h
    rcases insert_cases B o with ⟨-, hi⟩ | ⟨-, -, hi⟩ | ⟨-, -, hi⟩
    · rw [hi] at h
      cases h
    · rw [hi] at h
      cases h
    · rw [hi] at h
      obtain ⟨hcap, hperm⟩ := ih h
      refine ⟨hcap, hperm.trans ?_⟩
      exact ((orders_enqueue_perm B o).append_left os).trans List.perm_middle

theorem side_enqueueAll (os : List Order) (B : Book) (s : Side) :
    (enqueueAll os B).side s =
      (os.filter (·.side = s)).foldl (fun l o => enqueue (s.rank ·.price) o l) (B.side s) := by
  induction os generalizing B with
  | nil => rfl
  | cons o os ih =>
    rw [enqueueAll, List.foldl_cons]
    refine (ih _).trans ?_
    by_cases hs : o.side = s
    · subst hs
      simp
    · rw [side_setSide_of_ne (Ne.symm hs)]
      simp [hs]

theorem capacity_enqueueAll (os : List Order) (B : Book) :
    (enqueueAll os B).capacity = B.capacity := by
  induction os generalizing B with
  | nil => rfl
  | cons o os ih => exact ih _

/-- **Re-inserting the orders of a book in their canonical order gives back the book**, whatever
the new capacity, as long as they fit. -/
theorem insertAll_orders (h : B.WF) {c : Nat} (hc : B.orders.length ≤ c) :
    insertAll B.orders (empty c) = .ok ⟨c, B.side⟩ := by
  have hempty : (empty c).orders = [] := rfl
  rw [insertAll_eq (by rw [hempty, List.append_nil]; exact h.nodup) (by rw [hempty]; exact hc)]
  refine congrArg Except.ok ?_
  have hfun : (enqueueAll B.orders (empty c)).side = B.side := by
    funext s
    rw [side_enqueueAll, filter_orders h]
    exact foldl_enqueue (h.sorted s)
  have hcap := capacity_enqueueAll B.orders (empty c)
  generalize enqueueAll B.orders (empty c) = B' at hfun hcap
  obtain ⟨c', side'⟩ := B'
  simp only [empty] at hfun hcap
  rw [hfun, hcap]

/-! ## Capacity -/

@[simp] theorem capacity_insert (B : Book) (o : Order) : (B.insert o).1.capacity = B.capacity := by
  rcases insert_cases B o with ⟨-, hi⟩ | ⟨-, -, hi⟩ | ⟨-, -, hi⟩
  all_goals simp [hi]

@[simp] theorem capacity_add (B : Book) (o : Order) : (B.add o).1.capacity = B.capacity := by
  have ha := added B o
  generalize B.add o = r at ha ⊢
  cases ha with
  | zero => rfl
  | ended => rfl
  | refused => rfl
  | queued hq hst hl B' hi r hr =>
    have hB' : B' = ((B.afterSweep o).insert (B.remainder o)).1 := by rw [hi]
    rw [hB', capacity_insert]
    rfl

@[simp] theorem capacity_cancel (B : Book) (id : UInt64) :
    (B.cancel id).1.capacity = B.capacity := by
  rcases cancel_cases B id with ⟨-, hc⟩ | ⟨x, -, -, hc⟩ <;> rw [hc]

/-! ## Timestamps

Nothing the book does looks at a timestamp, so forgetting them commutes with every operation. -/

/-- A book with every timestamp set to zero. -/
def untimed (B : Book) : Book := ⟨B.capacity, fun s => (B.side s).map Order.untimed⟩

theorem orders_untimed (B : Book) : B.untimed.orders = B.orders.map Order.untimed := by
  rw [orders, orders, List.map_append]
  rfl

theorem ids_untimed (B : Book) : B.untimed.orders.map (·.id) = B.orders.map (·.id) := by
  rw [orders_untimed, List.map_map]
  rfl

theorem setSide_untimed (B : Book) (s : Side) (l : List Order) :
    (B.setSide s l).untimed = B.untimed.setSide s (l.map Order.untimed) := by
  simp only [untimed, setSide, mk.injEq, true_and]
  funext s'
  by_cases h : s' = s
  · subst h
    simp
  · simp [h]

theorem insert_untimed (B : Book) (o : Order) :
    B.untimed.insert o.untimed = ((B.insert o).1.untimed, (B.insert o).2) := by
  have hlen : B.untimed.orders.length = B.orders.length := by rw [orders_untimed, List.length_map]
  have hcap : B.untimed.capacity = B.capacity := rfl
  have hside : B.untimed.side o.side = (B.side o.side).map Order.untimed := rfl
  have henq : enqueue (o.side.rank ·.price) o.untimed ((B.side o.side).map Order.untimed) =
      (enqueue (o.side.rank ·.price) o (B.side o.side)).map Order.untimed :=
    (map_enqueue Order.untimed fun _ _ => Iff.rfl).symm
  unfold insert
  simp only [ids_untimed, hlen, hcap, hside, henq, Order.untimed_id, Order.untimed_side]
  split_ifs
  · rfl
  · rfl
  · rw [setSide_untimed]

theorem cancel_untimed (B : Book) (id : UInt64) :
    B.untimed.cancel id = ((B.cancel id).1.untimed, (B.cancel id).2.map Order.untimed) := by
  have hfind : B.untimed.orders.find? (·.id = id) =
      (B.orders.find? (·.id = id)).map Order.untimed := by
    rw [orders_untimed, List.find?_map]
    rfl
  unfold cancel
  rw [hfind]
  cases B.orders.find? (·.id = id) with
  | none => rfl
  | some x =>
    simp only [Option.map_some, untimed, Except.map, Prod.mk.injEq, mk.injEq, true_and, and_true]
    funext s
    rw [List.filter_map]
    rfl

theorem sweep_untimed (taker : Order) (ms : List Order) (q : UInt64) :
    sweep taker.untimed (ms.map Order.untimed) q =
      { sweep taker ms q with makers := (sweep taker ms q).makers.map Order.untimed } := by
  induction ms generalizing q with
  | nil => rfl
  | cons m ms ih =>
    have hcross : crosses taker.untimed m.price ↔ crosses taker m.price := Iff.rfl
    have hfill : ∀ n, fill taker.untimed m.untimed n = fill taker m n := fun _ => rfl
    simp only [List.map_cons, sweep, ih, hcross, hfill, Order.untimed_traderId, Order.untimed_price,
      Order.untimed_quantity]
    split_ifs
    all_goals rfl

theorem add_untimed (B : Book) (o : Order) :
    B.untimed.add o.untimed = ((B.add o).1.untimed, (B.add o).2) := by
  have hsw : B.untimed.swept o.untimed =
      { B.swept o with makers := (B.swept o).makers.map Order.untimed } := sweep_untimed _ _ _
  have hafter : B.untimed.afterSweep o.untimed = (B.afterSweep o).untimed := by
    rw [afterSweep, hsw, afterSweep, setSide_untimed]
    rfl
  have hrem : B.untimed.remainder o.untimed = (B.remainder o).untimed := by
    rw [remainder, hsw]
    rfl
  unfold add
  simp only [hafter, hrem, insert_untimed, hsw, Order.untimed_quantity, Order.untimed_id]
  split_ifs
  · rfl
  · rfl
  · rfl
  all_goals
    generalize (B.afterSweep o).insert (B.remainder o) = r
    obtain ⟨B', res⟩ := r
    cases res <;> rfl

end Book

end Ferrox
