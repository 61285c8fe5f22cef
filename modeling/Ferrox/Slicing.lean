import Ferrox.Priority
import Mathlib.Data.List.Dedup

/-!
# Slicing a taker

An order of quantity `q₁ + q₂`, or two orders of `q₁` and `q₂` one after the other: the makers
cannot tell. If the first slice is used up, the second one goes on where it stopped, perhaps in the
middle of a maker, and that maker is filled twice (`sweep_slices`). If it is not, there is nobody left
in reach and the second slice trades nothing, whatever became of the first: resting, cancelled at an
order of its own trader, or refused because the arena is full.

The fills of the two slices list every maker once, except the one at which they meet. So the makers
are compared without repetition, and what each of them traded by its total.
-/

namespace Ferrox

/-- The maker of a fill and the price it got. -/
def Fill.maker (f : Fill) : UInt64 × Int64 := (f.makerOrderId, f.price)

/-- The fills that are reported to the taker. -/
def reportedFills : Except MatchingError AddOrderResult → List Fill
  | .ok r => r.fills
  | .error _ => []

/-- The orders are of the same trader, on the same side and at the same price. -/
structure Order.SliceOf (slice o : Order) : Prop where
  side : slice.side = o.side
  price : slice.price = o.price
  traderId : slice.traderId = o.traderId

namespace Book

variable {B : Book} {o o₁ o₂ taker m : Order} {ms : List Order} {q q₁ q₂ : UInt64}

/-! ## Two sweeps in a row -/

theorem sweep_slice {slice : Order} (h : slice.SliceOf taker) (ms : List Order) (q : UInt64) :
    sweep slice ms q = { sweep taker ms q with
      fills := (sweep taker ms q).fills.map fun f => { f with takerOrderId := slice.id } } := by
  induction ms generalizing q with
  | nil => rfl
  | cons m ms ih =>
    have hcross : crosses slice m.price ↔ crosses taker m.price := by
      unfold crosses
      rw [h.side, h.price]
    simp only [sweep, ih, hcross, h.traderId]
    split_ifs
    all_goals rfl

theorem sweep_slice_makers {slice : Order} (h : slice.SliceOf taker) (ms : List Order)
    (q : UInt64) : (sweep slice ms q).makers = (sweep taker ms q).makers := by
  rw [sweep_slice h]

theorem sweep_slice_fills {slice : Order} (h : slice.SliceOf taker) (ms : List Order)
    (q : UInt64) : (sweep slice ms q).fills.map Fill.maker =
      (sweep taker ms q).fills.map Fill.maker := by
  rw [sweep_slice h, List.map_map]
  rfl

theorem sweep_of_eligible_nil (h : eligible taker ms = []) (q : UInt64) :
    (sweep taker ms q).makers = ms ∧ (sweep taker ms q).fills = [] := by
  have hfills : (sweep taker ms q).fills = [] := by
    apply List.ext_getElem?
    intro i
    rw [sweep_fills_getElem?, h]
    simp
  exact ⟨sweep_makers_of_fills_nil taker ms q hfills, hfills⟩

theorem le_add (hsum : q₁.toNat + q₂.toNat < 2 ^ 64) : q₁ ≤ q₁ + q₂ := by
  rw [UInt64.le_iff_toNat_le, UInt64.toNat_add, Nat.mod_eq_of_lt hsum]
  exact Nat.le_add_right _ _

theorem add_ne_zero (hsum : q₁.toNat + q₂.toNat < 2 ^ 64) (h : q₁ ≠ 0) : q₁ + q₂ ≠ 0 := by
  intro hzero
  have hle := le_add hsum
  rw [hzero] at hle
  exact h (UInt64.le_antisymm hle UInt64.zero_le)

/-- Taking `q₁` of a maker first leaves it with enough for `q₂` just in case it had enough for
both. -/
theorem sub_le_iff (hsum : q₁.toNat + q₂.toNat < 2 ^ 64) (h : q₁ < q) :
    q - q₁ ≤ q₂ ↔ q ≤ q₁ + q₂ := by
  have hlt : q₁.toNat < q.toNat := UInt64.lt_iff_toNat_lt.1 h
  rw [UInt64.le_iff_toNat_le, UInt64.le_iff_toNat_le, UInt64.toNat_add, Nat.mod_eq_of_lt hsum,
    UInt64.toNat_sub_of_le _ _ (UInt64.le_of_lt h)]
  omega

/-- A sweep that goes on in the middle of a maker ends as one that begins with it. -/
theorem sweep_middle (ms : List Order) (hsum : q₁.toNat + q₂.toNat < 2 ^ 64) (hq₁ : q₁ ≠ 0)
    (hq₂ : q₂ ≠ 0) {m : Order} (hc : crosses taker m.price) (ht : m.traderId ≠ taker.traderId)
    (hlt : q₁ < m.quantity) :
    (sweep taker ({ m with quantity := m.quantity - q₁ } :: ms) q₂).makers =
        (sweep taker (m :: ms) (q₁ + q₂)).makers ∧
      (sweep taker ({ m with quantity := m.quantity - q₁ } :: ms) q₂).fills.map Fill.maker =
        (sweep taker (m :: ms) (q₁ + q₂)).fills.map Fill.maker ∧
      (fill taker m q₁).maker ∈ (sweep taker (m :: ms) (q₁ + q₂)).fills.map Fill.maker := by
  have hq := add_ne_zero hsum hq₁
  have hiff := sub_le_iff hsum hlt
  by_cases hle : m.quantity ≤ q₁ + q₂
  · have hleft : q₂ - (m.quantity - q₁) = q₁ + q₂ - m.quantity := by
      rw [sub_sub_eq_add_sub, add_comm]
    rw [sweep_cons_all hq hc ht hle,
      sweep_cons_all (m := { m with quantity := m.quantity - q₁ }) hq₂ hc ht (hiff.2 hle), hleft]
    exact ⟨rfl, rfl, List.mem_cons_self⟩
  · have hlt₂ : q₂ < m.quantity - q₁ := UInt64.not_le.1 fun h => hle (hiff.1 h)
    rw [sweep_cons_part hq hc ht (UInt64.not_le.1 hle),
      sweep_cons_part (m := { m with quantity := m.quantity - q₁ }) hq₂ hc ht hlt₂, sub_sub]
    exact ⟨rfl, rfl, List.mem_cons_self⟩

/-- **Two sweeps in a row leave the makers of one sweep.** -/
theorem sweep_slices (taker : Order) (ms : List Order) (q₁ : UInt64) :
    ∀ q₂ : UInt64, q₁.toNat + q₂.toNat < 2 ^ 64 →
      (sweep taker (sweep taker ms q₁).makers q₂).makers = (sweep taker ms (q₁ + q₂)).makers := by
  induction ms, q₁ using sweep_induction taker with
  | stop ms q h =>
    intro q₂ _
    rcases h with rfl | h
    · rw [zero_add]
    · have hnil := (eligible_eq_nil taker fun m hm hc => h m hm hc.1).1
      rw [(sweep_of_eligible_nil hnil _).1, (sweep_of_eligible_nil hnil _).1]
  | own m ms q hq hc ht =>
    intro q₂ _
    have hnil := (eligible_eq_nil taker (show ∀ x ∈ (m :: ms).head?, _ by simp [ht])).1
    rw [(sweep_of_eligible_nil hnil _).1, (sweep_of_eligible_nil hnil _).1]
  | all m ms q hq hc ht hle r hr ih =>
    intro q₂ hsum
    have hsub : (q - m.quantity).toNat ≤ q.toNat := by
      rw [UInt64.toNat_sub_of_le _ _ hle]
      exact Nat.sub_le _ _
    rw [sweep_cons_all (add_ne_zero hsum hq) hc ht (UInt64.le_trans hle (le_add hsum)),
      add_sub_right_comm]
    exact ih q₂ (lt_of_le_of_lt (Nat.add_le_add_right hsub _) hsum)
  | part m ms q hq hc ht hlt =>
    intro q₂ hsum
    by_cases hq₂ : q₂ = 0
    · rw [hq₂, add_zero, sweep_cons_part hq hc ht hlt, sweep, if_pos rfl]
    · exact (sweep_middle ms hsum hq hq₂ hc ht hlt).1

/-! ## The makers of the fills -/

/-- An order as the maker of a fill. -/
def asMaker (m : Order) : UInt64 × Int64 := (m.id, m.price)

theorem sweep_fills_sublist (taker : Order) (ms : List Order) (q : UInt64) :
    ((sweep taker ms q).fills.map Fill.maker).Sublist (ms.map asMaker) := by
  induction ms, q using sweep_induction taker with
  | stop ms q => exact List.nil_sublist _
  | own m ms q => exact List.nil_sublist _
  | all m ms q _ _ _ _ r _ ih => exact ih.cons_cons _
  | part m ms q => exact (List.nil_sublist _).cons_cons _

theorem sweep_makers_sublist (taker : Order) (ms : List Order) (q : UInt64) :
    ((sweep taker ms q).makers.map asMaker).Sublist (ms.map asMaker) := by
  rcases sweep_makers taker ms q with h | ⟨done, m, rest, left, rfl, h, -⟩
  · rw [h]
    exact List.nil_sublist _
  · rw [h, List.map_append]
    exact List.sublist_append_right _ _

/-- **Two sweeps in a row trade with the makers of one sweep**, in the same order. -/
theorem sweep_slices_fills (taker : Order) (ms : List Order) (q₁ : UInt64) :
    ∀ q₂ : UInt64, q₁.toNat + q₂.toNat < 2 ^ 64 → (ms.map asMaker).Nodup →
      (((sweep taker ms q₁).fills ++
          (sweep taker (sweep taker ms q₁).makers q₂).fills).map Fill.maker).dedup =
        (sweep taker ms (q₁ + q₂)).fills.map Fill.maker := by
  induction ms, q₁ using sweep_induction taker with
  | stop ms q h =>
    intro q₂ _ hnodup
    rcases h with rfl | h
    · rw [zero_add]
      exact (hnodup.sublist (sweep_fills_sublist taker ms q₂)).dedup
    · have hnil := (eligible_eq_nil taker fun m hm hc => h m hm hc.1).1
      rw [(sweep_of_eligible_nil hnil _).2, (sweep_of_eligible_nil hnil _).2]
      rfl
  | own m ms q hq hc ht =>
    intro q₂ _ _
    have hnil := (eligible_eq_nil taker (show ∀ x ∈ (m :: ms).head?, _ by simp [ht])).1
    rw [(sweep_of_eligible_nil hnil _).2, (sweep_of_eligible_nil hnil _).2]
    rfl
  | all m ms q hq hc ht hle r hr ih =>
    intro q₂ hsum hnodup
    obtain ⟨hm, hms⟩ := List.nodup_cons.1 hnodup
    have hsub : (q - m.quantity).toNat ≤ q.toNat := by
      rw [UInt64.toNat_sub_of_le _ _ hle]
      exact Nat.sub_le _ _
    have hrest := ih q₂ (lt_of_le_of_lt (Nat.add_le_add_right hsub _) hsum) hms
    -- the maker is gone, so that no later fill is against it
    have hgone : (fill taker m m.quantity).maker ∉
        (r.fills ++ (sweep taker r.makers q₂).fills).map Fill.maker := by
      intro hmem
      rw [List.map_append, List.mem_append] at hmem
      rcases hmem with hmem | hmem
      · rw [hr] at hmem
        exact hm ((sweep_fills_sublist taker ms _).subset hmem)
      · have hmem' := (sweep_fills_sublist taker _ _).subset hmem
        rw [hr] at hmem'
        exact hm ((sweep_makers_sublist taker ms _).subset hmem')
    rw [sweep_cons_all (add_ne_zero hsum hq) hc ht (UInt64.le_trans hle (le_add hsum)),
      add_sub_right_comm, List.cons_append, List.map_cons, List.dedup_cons_of_notMem hgone, hrest]
    rfl
  | part m ms q hq hc ht hlt =>
    intro q₂ hsum hnodup
    by_cases hq₂ : q₂ = 0
    · rw [hq₂, add_zero, sweep_cons_part hq hc ht hlt, sweep, if_pos rfl]
      rfl
    · -- both fills of the maker count once
      obtain ⟨-, hfills, hmem⟩ := sweep_middle ms hsum hq hq₂ hc ht hlt
      have hwhole := hnodup.sublist (sweep_fills_sublist taker (m :: ms) (q + q₂))
      rw [List.singleton_append, List.map_cons, hfills, List.dedup_cons_of_mem hmem,
        hwhole.dedup]

/-! ## Slices and the whole -/

/-- An order under a new id reports all its fills: if it is refused, then for want of room, and
without a fill. -/
theorem reportedFills_add (h : B.WF) (hq : o.quantity ≠ 0) (hid : ∀ x ∈ B.orders, x.id ≠ o.id) :
    reportedFills (B.add o).2 = (B.swept o).fills := by
  have hadd := added B o
  generalize B.add o = r at hadd
  cases hadd with
  | zero hq' => exact absurd hq' hq
  | ended _ _ r hr => exact hr
  | queued _ _ _ B' _ r hr => exact hr
  | refused _ hst hl e hi =>
    by_contra hne
    have hfills : (B.swept o).fills ≠ [] := fun hnil => hne hnil.symm
    obtain ⟨x, hx, hxid, -⟩ := exists_id_of_refused h hst hl hfills hi
    exact hid x hx hxid

theorem id_of_mem_add {x : Order} (hx : x ∈ (B.add o).1.orders) :
    x.id = o.id ∨ ∃ y ∈ B.orders, y.id = x.id := by
  have hswept : ∀ y ∈ (B.afterSweep o).orders, ∃ z ∈ B.orders, z.id = y.id := by
    intro y hy
    obtain ⟨z, hz, hzid⟩ := List.mem_map.1 ((afterSweep_room B o).1 (List.mem_map.2 ⟨y, hy, rfl⟩))
    exact ⟨z, hz, hzid⟩
  have hadd := added B o
  generalize B.add o = r at hadd hx
  cases hadd with
  | zero => exact Or.inr ⟨x, hx, rfl⟩
  | ended => exact Or.inr (hswept x hx)
  | refused => exact Or.inr (hswept x hx)
  | queued _ _ _ B' hi =>
    obtain ⟨-, -, rfl⟩ := insert_ok hi
    obtain ⟨s, hx⟩ := mem_orders.1 hx
    by_cases hs : s = (B.remainder o).side
    · subst hs
      rw [side_setSide_self, Ranked.mem_enqueue] at hx
      rcases hx with rfl | hx
      · exact Or.inl rfl
      · exact Or.inr (hswept x (mem_orders.2 ⟨_, hx⟩))
    · rw [side_setSide_of_ne hs] at hx
      exact Or.inr (hswept x (mem_orders.2 ⟨s, hx⟩))

/-- The id of the second slice is still new when the first one has been added. -/
theorem id_ne_of_mem_add {id : UInt64} (hid : ∀ x ∈ B.orders, x.id ≠ id) (hne : o.id ≠ id) :
    ∀ x ∈ (B.add o).1.orders, x.id ≠ id := by
  intro x hx hxid
  rcases id_of_mem_add hx with hx | ⟨y, hy, hyid⟩
  · exact hne (hx.symm.trans hxid)
  · exact hid y hy (hyid.trans hxid)

section

variable (hs₁ : o₁.SliceOf o) (hs₂ : o₂.SliceOf o)
include hs₁ hs₂

theorem swept_second : ((B.add o₁).1.swept o₂) =
    sweep o₂ (sweep o (B.side o.side.opposite) o₁.quantity).makers o₂.quantity := by
  have hside := side_add_opposite B o₁
  rw [hs₁.side, swept, hs₁.side, sweep_slice_makers hs₁] at hside
  rw [swept, hs₂.side, hside]

variable (hq : o.quantity = o₁.quantity + o₂.quantity)
  (hsum : o₁.quantity.toNat + o₂.quantity.toNat < 2 ^ 64)
include hq hsum

theorem slices_side :
    ((B.add o₁).1.add o₂).1.side o.side.opposite = (B.add o).1.side o.side.opposite := by
  have hside := side_add_opposite (B.add o₁).1 o₂
  rw [hs₂.side, swept_second hs₁ hs₂, sweep_slice_makers hs₂, sweep_slices o _ _ _ hsum] at hside
  rw [hside, side_add_opposite, swept, hq]

theorem slices_makers (h : B.WF) :
    (((B.swept o₁).fills ++ ((B.add o₁).1.swept o₂).fills).map Fill.maker).dedup =
      (B.swept o).fills.map Fill.maker := by
  have hnodup : ((B.side o.side.opposite).map asMaker).Nodup := by
    apply List.Nodup.of_map Prod.fst
    rw [List.map_map]
    refine h.nodup.sublist (List.Sublist.map _ ?_)
    rw [← filter_orders h]
    exact List.filter_sublist
  rw [swept_second hs₁ hs₂, List.map_append, sweep_slice_fills hs₂, swept, hs₁.side,
    sweep_slice_fills hs₁, ← List.map_append, sweep_slices_fills o _ _ _ hsum hnodup, swept, hq]

/-- The slices trade with each maker what the whole order trades: each account is settled by what is
left of the maker. -/
theorem slices_filled (id : UInt64) :
    filledQuantity ((B.swept o₁).fills ++ ((B.add o₁).1.swept o₂).fills) id =
      filledQuantity (B.swept o).fills id := by
  have hfirst := sweep_accounts o₁ (B.side o.side.opposite) o₁.quantity id
  have hsecond := sweep_accounts o₂ (sweep o (B.side o.side.opposite) o₁.quantity).makers
    o₂.quantity id
  have hwhole := sweep_accounts o (B.side o.side.opposite) (o₁.quantity + o₂.quantity) id
  have happend : ∀ f₁ f₂ : List Fill,
      filledQuantity (f₁ ++ f₂) id = filledQuantity f₁ id + filledQuantity f₂ id := by
    intro f₁ f₂
    simp [filledQuantity]
  rw [sweep_slice_makers hs₁] at hfirst
  rw [sweep_slice_makers hs₂, sweep_slices o _ _ _ hsum] at hsecond
  rw [swept_second hs₁ hs₂, happend, swept, hs₁.side, swept, hq]
  omega

end

end Book

/-! ## On the engine -/

namespace MatchingEngine

variable {c : UInt32} {e : MatchingEngine}

/-- **Nothing is different for the makers** on the other side of `s`: neither in the book nor in the
fills, whether the quantity comes as a `whole` or as a `first` and a `second` slice. -/
structure SameForMakers (s : Side)
    (whole first second : MatchingEngine × Except MatchingError AddOrderResult) : Prop where
  resting : second.1.book.allRestingOrders.filter (·.side = s.opposite) =
    whole.1.book.allRestingOrders.filter (·.side = s.opposite)
  best : second.1.book.bestPrice s.opposite = whole.1.book.bestPrice s.opposite
  filled : ∀ id, Book.filledQuantity (reportedFills first.2 ++ reportedFills second.2) id =
    Book.filledQuantity (reportedFills whole.2) id
  makers : ((reportedFills first.2 ++ reportedFills second.2).map Fill.maker).dedup =
    (reportedFills whole.2).map Fill.maker

/-- **Slicing a taker changes nothing for the makers.** -/
theorem slicing_same_for_makers (h : Reachable c e) {o o₁ o₂ : Order} (hs₁ : o₁.SliceOf o)
    (hs₂ : o₂.SliceOf o) (hq₁ : 0 < o₁.quantity) (hq₂ : 0 < o₂.quantity)
    (hsum : o₁.quantity.toNat + o₂.quantity.toNat < 2 ^ 64)
    (hq : o.quantity = o₁.quantity + o₂.quantity) (hne : o₁.id ≠ o₂.id)
    (hid : ∀ x ∈ e.book.allRestingOrders, x.id ≠ o.id ∧ x.id ≠ o₁.id ∧ x.id ≠ o₂.id) :
    SameForMakers o.side (e.addOrder o) (e.addOrder o₁) ((e.addOrder o₁).1.addOrder o₂) := by
  have hsound := h.sound
  have hB := hsound.wf.wf_toBook
  obtain ⟨hwf, hbook, hres⟩ := addOrder_sim hsound.wf o
  obtain ⟨hwf₁, hbook₁, hres₁⟩ := addOrder_sim hsound.wf o₁
  obtain ⟨hwf₂, hbook₂, hres₂⟩ := addOrder_sim hwf₁ o₂
  have hB₁ := hwf₁.wf_toBook
  rw [hbook₁] at hbook₂ hres₂ hB₁
  have hside := Book.slices_side hs₁ hs₂ (B := e.book.toBook) hq hsum
  rw [← hbook₂, ← hbook] at hside
  have hne₁ : o₁.quantity ≠ 0 := UInt64.pos_iff_ne_zero.1 hq₁
  have hne₂ : o₂.quantity ≠ 0 := UInt64.pos_iff_ne_zero.1 hq₂
  have hne₀ : o.quantity ≠ 0 := hq ▸ Book.add_ne_zero hsum hne₁
  have hfills : reportedFills (e.addOrder o).2 = (e.book.toBook.swept o).fills := by
    rw [hres]
    exact Book.reportedFills_add hB hne₀ fun x hx => (hid x hx).1
  have hfills₁ : reportedFills (e.addOrder o₁).2 = (e.book.toBook.swept o₁).fills := by
    rw [hres₁]
    exact Book.reportedFills_add hB hne₁ fun x hx => (hid x hx).2.1
  have hfills₂ : reportedFills ((e.addOrder o₁).1.addOrder o₂).2 =
      ((e.book.toBook.add o₁).1.swept o₂).fills := by
    rw [hres₂]
    exact Book.reportedFills_add hB₁ hne₂
      (Book.id_ne_of_mem_add (fun x hx => (hid x hx).2.2) hne)
  refine ⟨?_, ?_, ?_, ?_⟩
  · rw [← OrderBook.orders_toBook, ← OrderBook.orders_toBook, Book.filter_orders hwf₂.wf_toBook,
      Book.filter_orders hwf.wf_toBook, hside]
  · rw [OrderBook.bestPrice_sim hwf₂, OrderBook.bestPrice_sim hwf, Book.best, Book.best, hside]
  · rw [hfills, hfills₁, hfills₂]
    exact Book.slices_filled hs₁ hs₂ hq hsum
  · rw [hfills, hfills₁, hfills₂]
    exact Book.slices_makers hs₁ hs₂ hq hsum hB

/-- The slices meet in the middle of a maker. -/
theorem slicing_same_for_makers_middle :
    ∃ e, e = (((withCapacity 2).addOrder ⟨1, 10, .ask, 100, 5, 7⟩).1.addOrder
        ⟨2, 11, .ask, 101, 4, 8⟩).1 ∧
      reportedFills (e.addOrder ⟨3, 12, .bid, 101, 7, 9⟩).2 =
        [⟨3, 1, 100, 5, true⟩, ⟨3, 2, 101, 2, false⟩] ∧
      reportedFills (e.addOrder ⟨4, 12, .bid, 101, 3, 9⟩).2 = [⟨4, 1, 100, 3, false⟩] ∧
      SameForMakers .bid (e.addOrder ⟨3, 12, .bid, 101, 7, 9⟩)
        (e.addOrder ⟨4, 12, .bid, 101, 3, 9⟩)
        ((e.addOrder ⟨4, 12, .bid, 101, 3, 9⟩).1.addOrder ⟨5, 12, .bid, 101, 4, 9⟩) := by
  refine ⟨_, rfl, by decide +kernel, by decide +kernel, ?_⟩
  exact slicing_same_for_makers (o := ⟨3, 12, .bid, 101, 7, 9⟩) (.add (.add (.init 2) _) _)
    ⟨rfl, rfl, rfl⟩ ⟨rfl, rfl, rfl⟩ (by decide) (by decide) (by decide) (by decide) (by decide)
    (by decide +kernel)

end MatchingEngine

end Ferrox
