import Ferrox.Reachable

/-!
# The book is never crossed

Every resting bid is below every resting ask. A sweep takes prices away and adds none. What is left
of a taker is queued only when the sweep ran through all the makers within its limit, and then no
maker left on the other side is within it (`uncrossed_add`).
-/

namespace Ferrox

open Ranked

namespace Book

variable {B B' : Book} {o : Order}

/-- Every bid is strictly below every ask. -/
def Uncrossed (B : Book) : Prop := ∀ b ∈ B.side .bid, ∀ a ∈ B.side .ask, b.price < a.price

theorem uncrossed_empty (c : Nat) : (empty c).Uncrossed := by
  intro b hb
  cases hb

theorem Uncrossed.mono (h : B.Uncrossed)
    (hsub : ∀ s, ∀ x ∈ B'.side s, ∃ y ∈ B.side s, y.price = x.price) : B'.Uncrossed := by
  intro b hb a ha
  obtain ⟨b', hb', hbp⟩ := hsub .bid b hb
  obtain ⟨a', ha', hap⟩ := hsub .ask a ha
  rw [← hbp, ← hap]
  exact h b' hb' a' ha'

theorem exists_price_of_mem_afterSweep (s : Side) {x : Order} (hx : x ∈ (B.afterSweep o).side s) :
    ∃ y ∈ B.side s, y.price = x.price := by
  unfold afterSweep at hx
  by_cases hs : s = o.side.opposite
  · subst hs
    rw [side_setSide_self, swept] at hx
    rcases sweep_makers o (B.side o.side.opposite) o.quantity with
      hnil | ⟨done, m, rest, left, hside, hmakers, -⟩
    · rw [hnil] at hx
      cases hx
    · rw [hmakers] at hx
      rw [hside]
      rcases List.mem_cons.1 hx with rfl | hx
      · exact ⟨m, by simp, rfl⟩
      · exact ⟨x, by simp [hx], rfl⟩
  · rw [side_setSide_of_ne hs] at hx
    exact ⟨x, hx, rfl⟩

theorem uncrossed_afterSweep (h : B.Uncrossed) : (B.afterSweep o).Uncrossed :=
  h.mono fun s _ hx => exists_price_of_mem_afterSweep s hx

/-- An order that crosses nothing on the other side can be queued. -/
theorem uncrossed_enqueue (h : B.Uncrossed)
    (hcross : ∀ m ∈ B.side o.side.opposite, ¬ crosses o m.price) :
    (B.setSide o.side (enqueue (o.side.rank ·.price) o (B.side o.side))).Uncrossed := by
  intro b hb a ha
  cases hs : o.side with
  | bid =>
    rw [hs] at hb ha hcross
    rw [side_setSide_self, mem_enqueue] at hb
    rw [side_setSide_of_ne (by decide)] at ha
    rcases hb with rfl | hb
    · have hnot := hcross a ha
      rwa [MatchingEngine.crosses_bid hs, not_le] at hnot
    · exact h b hb a ha
  | ask =>
    rw [hs] at hb ha hcross
    rw [side_setSide_of_ne (by decide)] at hb
    rw [side_setSide_self, mem_enqueue] at ha
    rcases ha with rfl | ha
    · have hnot := hcross b hb
      rwa [MatchingEngine.crosses_ask hs, ge_iff_le, not_le] at hnot
    · exact h b hb a ha

/-- **Adding an order leaves the book uncrossed**, whichever way the sweep ends. -/
theorem uncrossed_add (hwf : B.WF) (h : B.Uncrossed) (o : Order) : (B.add o).1.Uncrossed := by
  have hadd := added B o
  generalize B.add o = r at hadd
  cases hadd with
  | zero => exact h
  | ended => exact uncrossed_afterSweep h
  | refused => exact uncrossed_afterSweep h
  | queued hq hst hl B' hi r hr =>
    obtain ⟨hmakers, -⟩ := sweep_through (hwf.sorted o.side.opposite) o.quantity hst hl
    have hcross : ∀ m ∈ (B.afterSweep o).side (B.remainder o).side.opposite,
        ¬ crosses (B.remainder o) m.price := by
      intro m hm
      have hside : (B.remainder o).side.opposite = o.side.opposite := rfl
      rw [hside, afterSweep, side_setSide_self, swept, hmakers, List.mem_filter] at hm
      have hnot : ¬ crosses o m.price := by simpa using hm.2
      exact hnot
    obtain ⟨-, -, rfl⟩ := insert_ok hi
    exact uncrossed_enqueue (uncrossed_afterSweep h) hcross

theorem uncrossed_cancel (h : B.Uncrossed) (id : UInt64) : (B.cancel id).1.Uncrossed := by
  rcases cancel_cases B id with ⟨-, hc⟩ | ⟨x, -, -, hc⟩
  · rw [hc]
    exact h
  · rw [hc]
    exact h.mono fun s x hx => ⟨x, (List.mem_filter.1 hx).1, rfl⟩

theorem Uncrossed.of_orders (h : B.Uncrossed) (hwf : B.WF) (hwf' : B'.WF)
    (hsub : ∀ x ∈ B'.orders, x ∈ B.orders) : B'.Uncrossed := by
  refine h.mono fun s x hx => ⟨x, ?_, rfl⟩
  obtain ⟨s', hx'⟩ := mem_orders.1 (hsub x (mem_orders.2 ⟨s, hx⟩))
  have hs := hwf'.side s x hx
  rw [hwf.side s' x hx'] at hs
  rwa [← hs]

end Book

theorem Reachable.uncrossed {c : UInt32} {e : MatchingEngine} (h : Reachable c e) :
    e.book.toBook.Uncrossed := by
  induction h with
  | init c =>
    rw [(MatchingEngine.withCapacity_sim c).2]
    exact Book.uncrossed_empty _
  | add h order ih =>
    rw [(MatchingEngine.addOrder_sim h.sound.wf order).2.1]
    exact Book.uncrossed_add h.sound.wf.wf_toBook ih order
  | cancel h orderId ih =>
    rw [(MatchingEngine.cancelOrder_sim h.sound.wf orderId).2.1]
    exact Book.uncrossed_cancel ih orderId
  | @restore c c' e e' h hr ih =>
    obtain ⟨hwf, hbook⟩ := (MatchingEngine.restoreFromOrders_sim _ c').2 e' hr
    obtain ⟨-, hperm⟩ := Book.insertAll_ok hbook
    refine ih.of_orders h.sound.wf.wf_toBook hwf.wf_toBook fun x hx => ?_
    have hx' := hperm.mem_iff.1 hx
    rwa [show (Book.empty c'.toNat).orders = [] from rfl, List.append_nil] at hx'

/-- **The book is never crossed**: every resting bid is below every resting ask, and so are the
cached best prices. -/
theorem uncrossed_of_reachable {c : UInt32} {e : MatchingEngine} (h : Reachable c e) :
    (∀ b ∈ e.book.allRestingOrders, ∀ a ∈ e.book.allRestingOrders,
      b.side = .bid → a.side = .ask → b.price < a.price) ∧
      ∀ b a, e.book.bestBid = some b → e.book.bestAsk = some a → b < a := by
  have hwf := h.sound.wf
  have hside : ∀ x ∈ e.book.allRestingOrders, x ∈ e.book.toBook.side x.side := by
    intro x hx
    rw [← OrderBook.orders_toBook] at hx
    obtain ⟨s, hx⟩ := Book.mem_orders.1 hx
    rwa [hwf.wf_toBook.side s x hx]
  refine ⟨?_, ?_⟩
  · intro b hb a ha hbid hask
    exact h.uncrossed b (hbid ▸ hside b hb) a (hask ▸ hside a ha)
  · intro b a hb ha
    have hbid : e.book.bestPrice .bid = some b := hb
    have hask : e.book.bestPrice .ask = some a := ha
    rw [OrderBook.bestPrice_sim hwf, Book.best, Option.map_eq_some_iff] at hbid hask
    obtain ⟨x, hx, rfl⟩ := hbid
    obtain ⟨y, hy, rfl⟩ := hask
    exact h.uncrossed x (List.mem_of_mem_head? hx) y (List.mem_of_mem_head? hy)

/-- A bid that takes part of an ask and rests below the other one. -/
theorem uncrossed_of_reachable_partial :
    let e := (((MatchingEngine.withCapacity 4).addOrder ⟨1, 10, .ask, 100, 5, 7⟩).1.addOrder
      ⟨2, 10, .ask, 101, 5, 8⟩).1.addOrder ⟨3, 11, .bid, 100, 8, 9⟩
    e.1.book.bestBid = some 100 ∧ e.1.book.bestAsk = some 101 ∧
      ∀ b ∈ e.1.book.allRestingOrders, ∀ a ∈ e.1.book.allRestingOrders,
        b.side = .bid → a.side = .ask → b.price < a.price :=
  ⟨by decide, by decide, (uncrossed_of_reachable (.add (.add (.add (.init 4)
    ⟨1, 10, .ask, 100, 5, 7⟩) ⟨2, 10, .ask, 101, 5, 8⟩) ⟨3, 11, .bid, 100, 8, 9⟩)).1⟩

end Ferrox
