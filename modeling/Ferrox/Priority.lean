import Ferrox.Rejection

/-!
# Price-time priority in closed form

A sweep meets the makers one at a time. Seen from the outside it is one greedy split of the taker's
quantity along a prefix of the opposite side: the longest prefix within the taker's limit in which
no order is its own trader's (`eligible`). The maker at place `i` gets whatever its predecessors
left of the taker (`unfilled`), up to its own quantity, and how the order ends depends only on what
is left behind the prefix and on the order that comes next.

Each of these readings is proved by induction along the sweep; `priority_of_ok` puts them together
for an order that the engine accepts.
-/

namespace Ferrox

open Ranked

namespace Book

variable {B B' : Book} {o taker m : Order} {ms : List Order} {q : UInt64}

/-! ## The makers in reach -/

/-- The makers that a taker may trade with: the longest prefix within its limit and without an order
of its own trader. -/
def eligible (taker : Order) (ms : List Order) : List Order :=
  ms.takeWhile fun m => crosses taker m.price ∧ m.traderId ≠ taker.traderId

/-- The makers behind them. -/
def beyond (taker : Order) (ms : List Order) : List Order :=
  ms.dropWhile fun m => crosses taker m.price ∧ m.traderId ≠ taker.traderId

/-- What is left of a quantity when the first `i` makers have taken theirs. -/
def unfilled (q : Nat) (ms : List Order) (i : Nat) : Nat :=
  q - ((ms.take i).map (·.quantity.toNat)).sum

/-- What the maker at place `i` gets. -/
def allotted (q : Nat) (ms : List Order) (i : Nat) (m : Order) : Nat :=
  min m.quantity.toNat (unfilled q ms i)

/-- The maker at place `i`, without what it traded. -/
def reduced (q : Nat) (ms : List Order) (i : Nat) (m : Order) : Order :=
  { m with quantity := UInt64.ofNat (m.quantity.toNat - allotted q ms i m) }

/-- The fill of the maker at place `i`. -/
def allottedFill (taker : Order) (q : Nat) (ms : List Order) (i : Nat) (m : Order) : Fill where
  takerOrderId := taker.id
  makerOrderId := m.id
  price := m.price
  quantity := UInt64.ofNat (allotted q ms i m)
  makerFullyFilled := m.quantity.toNat ≤ unfilled q ms i

theorem eligible_append_beyond (taker : Order) (ms : List Order) :
    eligible taker ms ++ beyond taker ms = ms :=
  List.takeWhile_append_dropWhile

theorem eligible_cons (hc : crosses taker m.price) (ht : m.traderId ≠ taker.traderId) :
    eligible taker (m :: ms) = m :: eligible taker ms :=
  List.takeWhile_cons_of_pos (decide_eq_true ⟨hc, ht⟩)

theorem beyond_cons (hc : crosses taker m.price) (ht : m.traderId ≠ taker.traderId) :
    beyond taker (m :: ms) = beyond taker ms :=
  List.dropWhile_cons_of_pos (decide_eq_true ⟨hc, ht⟩)

theorem eligible_eq_nil (taker : Order) {ms : List Order}
    (h : ∀ m ∈ ms.head?, ¬ (crosses taker m.price ∧ m.traderId ≠ taker.traderId)) :
    eligible taker ms = [] ∧ beyond taker ms = ms := by
  have hnil : eligible taker ms = [] := by
    cases ms with
    | nil => rfl
    | cons m ms => exact List.takeWhile_cons_of_neg (by simpa using h m rfl)
  have happend := eligible_append_beyond taker ms
  rw [hnil, List.nil_append] at happend
  exact ⟨hnil, happend⟩

@[simp] theorem unfilled_zero (n : Nat) (ms : List Order) : unfilled n ms 0 = n := by
  simp [unfilled]

@[simp] theorem zero_unfilled (ms : List Order) (i : Nat) : unfilled 0 ms i = 0 := by
  simp [unfilled]

@[simp] theorem unfilled_cons (n : Nat) (m : Order) (ms : List Order) (i : Nat) :
    unfilled n (m :: ms) (i + 1) = unfilled (n - m.quantity.toNat) ms i := by
  simp only [unfilled, List.take_succ_cons, List.map_cons, List.sum_cons]
  omega

@[simp] theorem reduced_cons (n : Nat) (m : Order) (ms : List Order) (i : Nat) :
    reduced n (m :: ms) (i + 1) = reduced (n - m.quantity.toNat) ms i := by
  funext m'
  simp only [reduced, allotted, unfilled_cons]

@[simp] theorem allottedFill_cons (taker : Order) (n : Nat) (m : Order) (ms : List Order) (i : Nat) :
    allottedFill taker n (m :: ms) (i + 1) = allottedFill taker (n - m.quantity.toNat) ms i := by
  funext m'
  simp only [allottedFill, allotted, unfilled_cons]

@[simp] theorem zero_reduced (ms : List Order) (i : Nat) : reduced 0 ms i = id := by
  funext m
  simp [reduced, allotted]

/-! ## The sweep as a greedy split -/

theorem fill_all (h : m.quantity ≤ q) :
    fill taker m m.quantity = allottedFill taker q.toNat (m :: ms) 0 m := by
  have hle : m.quantity.toNat ≤ q.toNat := UInt64.le_iff_toNat_le.1 h
  simp [fill, allottedFill, allotted, hle]

theorem fill_part (h : q < m.quantity) :
    fill taker m q = allottedFill taker q.toNat (m :: ms) 0 m := by
  have hlt : q.toNat < m.quantity.toNat := UInt64.lt_iff_toNat_lt.1 h
  have hne : m.quantity - q ≠ 0 := by
    rw [ne_eq, sub_eq_zero_iff]
    exact fun h' => UInt64.lt_irrefl q (h' ▸ h)
  simp [fill, allottedFill, allotted, hlt.le, hlt.not_ge, hne]

/-- **The fills are the greedy split** of the taker along the makers in reach. -/
theorem sweep_fills_getElem? (taker : Order) (ms : List Order) (q : UInt64) (i : Nat) :
    (sweep taker ms q).fills[i]? =
      if unfilled q.toNat (eligible taker ms) i = 0 then none
      else (eligible taker ms)[i]?.map (allottedFill taker q.toNat (eligible taker ms) i) := by
  induction ms, q using sweep_induction taker generalizing i with
  | stop ms q h =>
    rcases h with rfl | h
    · simp
    · rw [(eligible_eq_nil taker fun m hm hc => h m hm hc.1).1]
      simp
  | own m ms q _ _ ht =>
    rw [(eligible_eq_nil taker (by simp [ht])).1]
    simp
  | all m ms q hq hc ht hle r hr ih =>
    have hsub : (q - m.quantity).toNat = q.toNat - m.quantity.toNat :=
      UInt64.toNat_sub_of_le _ _ hle
    have hq' : q.toNat ≠ 0 := (UInt64.pos_iff_ne_zero.2 hq).ne'
    rw [eligible_cons hc ht]
    cases i with
    | zero => simpa [hq'] using fill_all hle
    | succ i =>
      rw [hsub] at ih
      simpa using ih i
  | part m ms q hq hc ht hlt =>
    have hlt' : q.toNat < m.quantity.toNat := UInt64.lt_iff_toNat_lt.1 hlt
    have hq' : q.toNat ≠ 0 := (UInt64.pos_iff_ne_zero.2 hq).ne'
    rw [eligible_cons hc ht]
    cases i with
    | zero => simpa [hq'] using fill_part hlt
    | succ i =>
      rw [unfilled_cons, Nat.sub_eq_zero_of_le hlt'.le]
      simp

/-- A taker with nothing to trade leaves everybody in place. -/
theorem reduced_zero_append_beyond (taker : Order) (hpos : ∀ m ∈ ms, m.quantity ≠ 0) :
    ((eligible taker ms).mapIdx (reduced 0 (eligible taker ms))).filter (·.quantity ≠ 0) ++
      beyond taker ms = ms := by
  have hsame : (eligible taker ms).mapIdx (reduced 0 (eligible taker ms)) =
      eligible taker ms := by
    apply List.ext_getElem?
    simp
  rw [hsame, List.filter_eq_self.2, eligible_append_beyond]
  intro m hm
  exact decide_eq_true (hpos m ((List.takeWhile_sublist _).subset hm))

/-- **What is left of the makers**: those in reach without what they traded, as long as something is
left of them, and then the others. -/
theorem sweep_makers_eq (taker : Order) (ms : List Order) (q : UInt64)
    (hpos : ∀ m ∈ ms, m.quantity ≠ 0) :
    (sweep taker ms q).makers =
      ((eligible taker ms).mapIdx (reduced q.toNat (eligible taker ms))).filter (·.quantity ≠ 0) ++
        beyond taker ms := by
  revert hpos
  induction ms, q using sweep_induction taker with
  | stop ms q h =>
    intro hpos
    rcases h with rfl | h
    · exact (reduced_zero_append_beyond taker hpos).symm
    · obtain ⟨hnil, hbeyond⟩ := eligible_eq_nil taker fun m hm hc => h m hm hc.1
      rw [hnil, hbeyond]
      rfl
  | own m ms q _ _ ht =>
    intro _
    obtain ⟨hnil, hbeyond⟩ := eligible_eq_nil taker (show ∀ x ∈ (m :: ms).head?, _ by simp [ht])
    rw [hnil, hbeyond]
    rfl
  | all m ms q hq hc ht hle r hr ih =>
    intro hpos
    have hsub : (q - m.quantity).toNat = q.toNat - m.quantity.toNat :=
      UInt64.toNat_sub_of_le _ _ hle
    have hle' : m.quantity.toNat ≤ q.toNat := UInt64.le_iff_toNat_le.1 hle
    have hgone : (reduced q.toNat (m :: eligible taker ms) 0 m).quantity = 0 := by
      simp [reduced, allotted, hle']
    rw [eligible_cons hc ht, beyond_cons hc ht, List.mapIdx_cons, List.filter_cons_of_neg]
    · have := ih fun x hx => hpos x (List.mem_cons_of_mem _ hx)
      rw [hsub] at this
      simpa using this
    · simpa using hgone
  | part m ms q hq hc ht hlt =>
    intro hpos
    have hlt' : q.toNat < m.quantity.toNat := UInt64.lt_iff_toNat_lt.1 hlt
    have hleft : m.quantity - q = UInt64.ofNat (m.quantity.toNat - q.toNat) := by
      rw [← UInt64.toNat_inj, UInt64.toNat_sub_of_le _ _ (UInt64.le_of_lt hlt),
        UInt64.toNat_ofNat_of_lt' (lt_of_le_of_lt (Nat.sub_le _ _) m.quantity.toNat_lt)]
    have hm : reduced q.toNat (m :: eligible taker ms) 0 m =
        { m with quantity := m.quantity - q } := by
      simp [reduced, allotted, hlt'.le, hleft]
    have hne : m.quantity - q ≠ 0 := by
      rw [ne_eq, sub_eq_zero_iff]
      exact fun h => UInt64.lt_irrefl q (h ▸ hlt)
    have hrest := reduced_zero_append_beyond taker fun x hx => hpos x (List.mem_cons_of_mem _ hx)
    rw [eligible_cons hc ht, beyond_cons hc ht, List.mapIdx_cons, hm,
      List.filter_cons_of_pos (by simpa using hne), List.cons_append]
    simp only [reduced_cons, Nat.sub_eq_zero_of_le hlt'.le]
    rw [hrest]

theorem sweep_left_eq (taker : Order) (ms : List Order) (q : UInt64) :
    (sweep taker ms q).left.toNat =
      unfilled q.toNat (eligible taker ms) (eligible taker ms).length := by
  induction ms, q using sweep_induction taker with
  | stop ms q h =>
    rcases h with rfl | h
    · simp
    · rw [(eligible_eq_nil taker fun m hm hc => h m hm hc.1).1]
      simp
  | own m ms q _ _ ht =>
    rw [(eligible_eq_nil taker (by simp [ht])).1]
    simp
  | all m ms q hq hc ht hle r hr ih =>
    have hsub : (q - m.quantity).toNat = q.toNat - m.quantity.toNat :=
      UInt64.toNat_sub_of_le _ _ hle
    rw [eligible_cons hc ht, List.length_cons, unfilled_cons, ← hsub]
    exact ih
  | part m ms q hq hc ht hlt =>
    have hlt' : q.toNat < m.quantity.toNat := UInt64.lt_iff_toNat_lt.1 hlt
    rw [eligible_cons hc ht, List.length_cons, unfilled_cons, Nat.sub_eq_zero_of_le hlt'.le]
    simp

/-- **When the taker stops at its own trader**: it has something left, and the first order out of
reach is within its limit. -/
theorem sweep_selfTrade_iff (taker : Order) (ms : List Order) (q : UInt64) :
    (sweep taker ms q).selfTrade = true ↔ (sweep taker ms q).left ≠ 0 ∧
      ∃ m ∈ (beyond taker ms).head?, crosses taker m.price ∧ m.traderId = taker.traderId := by
  induction ms, q using sweep_induction taker with
  | stop ms q h =>
    rcases h with rfl | h
    · simp
    · rw [(eligible_eq_nil taker fun m hm hc => h m hm hc.1).2]
      simp only [Bool.false_eq_true, false_iff]
      rintro ⟨-, m, hm, hc, -⟩
      exact h m hm hc
  | own m ms q hq hc ht =>
    rw [(eligible_eq_nil taker (by simp [ht])).2]
    simp [hq, hc, ht]
  | all m ms q hq hc ht hle r hr ih =>
    rw [beyond_cons hc ht]
    exact ih
  | part m ms q hq hc ht hlt => simp

/-! ## An accepted order -/

/-- The three ways in which an accepted order ends. -/
theorem add_ok {r : AddOrderResult} (h : (B.add o).2 = .ok r) :
    r.orderId = o.id ∧ r.fills = (B.swept o).fills ∧
      (((B.swept o).selfTrade = true ∧ r.status = .cancelledSelfTrade ∧
          (B.add o).1 = B.afterSweep o) ∨
        ((B.swept o).selfTrade = false ∧ (B.swept o).left = 0 ∧ r.status = .fullyFilled ∧
          (B.add o).1 = B.afterSweep o) ∨
        ((B.swept o).selfTrade = false ∧ (B.swept o).left ≠ 0 ∧
          r.status = (if r.fills = [] then .resting else .partiallyFilled) ∧
          (B.afterSweep o).insert (B.remainder o) = ((B.add o).1, .ok ()))) := by
  unfold add at h ⊢
  by_cases hq : o.quantity = 0
  · rw [if_pos hq] at h
    cases h
  simp only [if_neg hq] at h ⊢
  by_cases hst : (B.swept o).selfTrade
  · simp only [if_pos hst] at h ⊢
    cases h
    exact ⟨rfl, rfl, Or.inl ⟨hst, rfl, trivial⟩⟩
  have hst' : (B.swept o).selfTrade = false := by simpa using hst
  simp only [if_neg hst] at h ⊢
  by_cases hl : (B.swept o).left = 0
  · simp only [if_pos hl] at h ⊢
    cases h
    exact ⟨rfl, rfl, Or.inr (Or.inl ⟨hst', hl, rfl, trivial⟩)⟩
  simp only [if_neg hl] at h ⊢
  rcases hi : (B.afterSweep o).insert (B.remainder o) with ⟨B', _ | _⟩
  · rw [hi] at h
    cases h
  · rw [hi] at h
    cases h
    exact ⟨rfl, rfl, Or.inr (Or.inr ⟨hst', hl, rfl, rfl⟩)⟩

/-- The orders that an order may trade with. -/
def opposing (o : Order) (resting : List Order) : List Order :=
  resting.filter (·.side = o.side.opposite)

/-- The makers of an order, in the order in which it trades with them. -/
def makersOf (o : Order) (resting : List Order) : List Order := eligible o (opposing o resting)

/-- What is left of an order behind its makers. -/
def leftover (o : Order) (resting : List Order) : Nat :=
  unfilled o.quantity.toNat (makersOf o resting) (makersOf o resting).length

/-- The order behind the makers is within the limit and belongs to the same trader. -/
def MeetsItself (o : Order) (resting : List Order) : Prop :=
  ∃ m ∈ (beyond o (opposing o resting)).head?, crosses o m.price ∧ m.traderId = o.traderId

/-- **Price-time priority**: what an accepted order does to the orders resting before it. -/
structure Priority (o : Order) (before after : List Order) (r : AddOrderResult) : Prop where
  orderId : r.orderId = o.id
  /-- The `i`-th fill is that of the `i`-th maker, as long as there is something to trade. -/
  fills : ∀ i, r.fills[i]? =
    if unfilled o.quantity.toNat (makersOf o before) i = 0 then none
    else (makersOf o before)[i]?.map (allottedFill o o.quantity.toNat (makersOf o before) i)
  positive : ∀ f ∈ r.fills, 0 < f.quantity
  /-- Exhausted makers leave the book; the others keep their places. -/
  makers : opposing o after =
    ((makersOf o before).mapIdx (reduced o.quantity.toNat (makersOf o before))).filter
      (·.quantity ≠ 0) ++ beyond o (opposing o before)
  cancelledSelfTrade : r.status = .cancelledSelfTrade ↔
    0 < leftover o before ∧ MeetsItself o before
  fullyFilled : r.status = .fullyFilled ↔ leftover o before = 0
  partiallyFilled : r.status = .partiallyFilled ↔
    0 < leftover o before ∧ ¬ MeetsItself o before ∧ r.fills ≠ []
  resting : r.status = .resting ↔
    0 < leftover o before ∧ ¬ MeetsItself o before ∧ r.fills = []
  /-- Nothing rests of an order that is cancelled or used up. -/
  gone : leftover o before = 0 ∨ MeetsItself o before →
    after.filter (·.side = o.side) = before.filter (·.side = o.side)
  /-- The leftover of any other order rests at the back of its price level. -/
  queued : 0 < leftover o before → ¬ MeetsItself o before → ∃ front back,
    before.filter (·.side = o.side) = front ++ back ∧
      after.filter (·.side = o.side) =
        front ++ { o with quantity := UInt64.ofNat (leftover o before) } :: back ∧
      (∀ x ∈ front, o.side.rank x.price ≤ o.side.rank o.price) ∧
      ∀ x ∈ back, o.side.rank o.price < o.side.rank x.price

theorem opposing_orders (h : B.WF) (o : Order) : opposing o B.orders = B.side o.side.opposite :=
  filter_orders h _

theorem leftover_eq (h : B.WF) (o : Order) : leftover o B.orders = (B.swept o).left.toNat := by
  rw [leftover, makersOf, opposing_orders h, swept, sweep_left_eq]

theorem leftover_pos_iff (h : B.WF) (o : Order) :
    0 < leftover o B.orders ↔ (B.swept o).left ≠ 0 := by
  rw [leftover_eq h]
  exact UInt64.pos_iff_ne_zero

/-- A taker stops at its own trader just in case it has something left and meets itself. -/
theorem selfTrade_iff (h : B.WF) (o : Order) : (B.swept o).selfTrade = true ↔
    0 < leftover o B.orders ∧ MeetsItself o B.orders := by
  rw [leftover_pos_iff h, MeetsItself, opposing_orders h]
  exact sweep_selfTrade_iff o _ _

theorem allottedFill_pos {n i : Nat} (hm : m.quantity ≠ 0) (hn : unfilled n ms i ≠ 0) :
    0 < (allottedFill taker n ms i m).quantity := by
  have hpos : 0 < allotted n ms i m := by
    have hm' : 0 < m.quantity.toNat := UInt64.pos_iff_ne_zero.2 hm
    unfold allotted
    omega
  have hlt : allotted n ms i m < 2 ^ 64 :=
    lt_of_le_of_lt (Nat.min_le_left _ _) m.quantity.toNat_lt
  rw [UInt64.lt_iff_toNat_lt, allottedFill, UInt64.toNat_ofNat_of_lt' hlt]
  exact hpos

theorem swept_fills_pos (hpos : B.Positive) (o : Order) :
    ∀ f ∈ (B.swept o).fills, 0 < f.quantity := by
  intro f hf
  obtain ⟨i, hi⟩ := List.mem_iff_getElem?.1 hf
  rw [swept, sweep_fills_getElem?] at hi
  split_ifs at hi with hzero
  obtain ⟨m, hm, rfl⟩ := Option.map_eq_some_iff.1 hi
  have hmem := (List.takeWhile_sublist _).subset (List.mem_of_getElem? hm)
  exact allottedFill_pos (hpos m (mem_orders.2 ⟨_, hmem⟩)) hzero

theorem status_iff (h : B.WF) {r : AddOrderResult} (hr : (B.add o).2 = .ok r) :
    (r.status = .cancelledSelfTrade ↔ 0 < leftover o B.orders ∧ MeetsItself o B.orders) ∧
      (r.status = .fullyFilled ↔ leftover o B.orders = 0) ∧
      (r.status = .partiallyFilled ↔
        0 < leftover o B.orders ∧ ¬ MeetsItself o B.orders ∧ r.fills ≠ []) ∧
      (r.status = .resting ↔
        0 < leftover o B.orders ∧ ¬ MeetsItself o B.orders ∧ r.fills = []) := by
  have hself := selfTrade_iff h o
  have hleft := leftover_pos_iff h o
  obtain ⟨-, -, ⟨hst, hstatus, -⟩ | ⟨-, hl, hstatus, -⟩ | ⟨hst, hl, hstatus, -⟩⟩ := add_ok hr
  · obtain ⟨hpos, hmeets⟩ := hself.1 hst
    simp [hstatus, hpos, hpos.ne', hmeets]
  · have hzero : leftover o B.orders = 0 := by simpa [hl] using hleft
    simp [hstatus, hzero]
  · have hpos := hleft.2 hl
    have hmeets : ¬ MeetsItself o B.orders := by
      intro hmeets
      rw [hself.2 ⟨hpos, hmeets⟩] at hst
      cases hst
    by_cases hnil : r.fills = []
    · simp [hstatus, hnil, hpos, hpos.ne', hmeets]
    · simp [hstatus, hnil, hpos, hpos.ne', hmeets]

theorem own_side_add (h : B.WF) {r : AddOrderResult} (hr : (B.add o).2 = .ok r) :
    (leftover o B.orders = 0 ∨ MeetsItself o B.orders → (B.add o).1.side o.side = B.side o.side) ∧
      (0 < leftover o B.orders → ¬ MeetsItself o B.orders →
        (B.add o).1.side o.side =
          enqueue (o.side.rank ·.price) (B.remainder o) (B.side o.side)) := by
  have hself := selfTrade_iff h o
  have hleft := leftover_pos_iff h o
  obtain ⟨-, -, ⟨hst, -, hbook⟩ | ⟨-, hl, -, hbook⟩ | ⟨hst, hl, -, hi⟩⟩ := add_ok hr
  · obtain ⟨-, hmeets⟩ := hself.1 hst
    rw [hbook, side_afterSweep_self]
    exact ⟨fun _ => rfl, fun _ hnot => absurd hmeets hnot⟩
  · rw [hbook, side_afterSweep_self]
    exact ⟨fun _ => rfl, fun hpos => absurd hl (hleft.1 hpos)⟩
  · have hpos := hleft.2 hl
    obtain ⟨-, -, hbook⟩ := insert_ok hi
    constructor
    · rintro (hzero | hmeets)
      · exact absurd hzero hpos.ne'
      · rw [hself.2 ⟨hpos, hmeets⟩] at hst
        cases hst
    · intro _ _
      rw [hbook, show (B.remainder o).side = o.side from rfl, side_setSide_self,
        side_afterSweep_self]

/-- **An accepted order trades by price-time priority.** -/
theorem priority_add (h : B.WF) (h' : (B.add o).1.WF) (hpos : B.Positive) {r : AddOrderResult}
    (hr : (B.add o).2 = .ok r) : Priority o B.orders (B.add o).1.orders r := by
  obtain ⟨hid, hfills, -⟩ := add_ok hr
  obtain ⟨hcancelled, hfull, hpartial, hresting⟩ := status_iff h hr
  obtain ⟨hgone, hqueued⟩ := own_side_add h hr
  refine ⟨hid, ?_, ?_, ?_, hcancelled, hfull, hpartial, hresting, ?_, ?_⟩
  · intro i
    rw [hfills, makersOf, opposing_orders h]
    exact sweep_fills_getElem? o _ _ i
  · rw [hfills]
    exact swept_fills_pos hpos o
  · rw [opposing_orders h', side_add_opposite, makersOf, opposing_orders h]
    exact sweep_makers_eq o _ _ fun m hm => hpos m (mem_orders.2 ⟨_, hm⟩)
  · rw [filter_orders h, filter_orders h']
    exact hgone
  · intro hleft hmeets
    have hremainder : B.remainder o =
        { o with quantity := UInt64.ofNat (leftover o B.orders) } := by
      rw [leftover_eq h, UInt64.ofNat_toNat]
      rfl
    rw [filter_orders h, filter_orders h', hqueued hleft hmeets, hremainder]
    obtain ⟨front, back, hside, hsplit, hfront, hback⟩ :=
      enqueue_eq_split (a := { o with quantity := UInt64.ofNat (leftover o B.orders) })
        (h.sorted o.side)
    exact ⟨front, back, hside, hsplit, hfront, hback⟩

end Book

/-- **Price-time priority in closed form**, from every reachable state. -/
theorem priority_of_ok {c : UInt32} {e : MatchingEngine} (h : Reachable c e) {o : Order}
    {r : AddOrderResult} (hr : (e.addOrder o).2 = .ok r) :
    Book.Priority o e.book.allRestingOrders (e.addOrder o).1.book.allRestingOrders r := by
  have hsound := h.sound
  obtain ⟨hwf, hbook, hresult⟩ := MatchingEngine.addOrder_sim hsound.wf o
  rw [← OrderBook.orders_toBook, ← OrderBook.orders_toBook, hbook]
  exact Book.priority_add hsound.wf.wf_toBook (hbook ▸ hwf.wf_toBook) hsound.positive
    (hresult ▸ hr)

/-- A bid that takes one ask, takes part of a second one at the next price and is used up. -/
theorem priority_of_ok_two_levels :
    ∃ e, e = (((MatchingEngine.withCapacity 4).addOrder ⟨1, 10, .ask, 100, 5, 7⟩).1.addOrder
        ⟨2, 11, .ask, 101, 4, 8⟩).1 ∧
      (e.addOrder ⟨3, 12, .bid, 101, 7, 9⟩).2 =
        .ok ⟨3, .fullyFilled, [⟨3, 1, 100, 5, true⟩, ⟨3, 2, 101, 2, false⟩]⟩ ∧
      Book.Priority ⟨3, 12, .bid, 101, 7, 9⟩ e.book.allRestingOrders
        (e.addOrder ⟨3, 12, .bid, 101, 7, 9⟩).1.book.allRestingOrders
        ⟨3, .fullyFilled, [⟨3, 1, 100, 5, true⟩, ⟨3, 2, 101, 2, false⟩]⟩ := by
  have hfilled : ((((MatchingEngine.withCapacity 4).addOrder ⟨1, 10, .ask, 100, 5, 7⟩).1.addOrder
      ⟨2, 11, .ask, 101, 4, 8⟩).1.addOrder ⟨3, 12, .bid, 101, 7, 9⟩).2 =
      .ok ⟨3, .fullyFilled, [⟨3, 1, 100, 5, true⟩, ⟨3, 2, 101, 2, false⟩]⟩ := by decide +kernel
  exact ⟨_, rfl, hfilled, priority_of_ok (.add (.add (.init 4) _) _) hfilled⟩

end Ferrox
