import Ferrox.Views

/-!
# Bids and asks are mirror images

The source has every loop, comparison and cached price twice, once for each side. `mirror` swaps the
sides and turns the prices around, by the order-reversing map `p ↦ -1 - p` of the 64-bit integers
onto themselves. Whatever is done to an engine, doing its mirror image to another engine of the same
capacity gives the mirror image of every result and of every book (`views_mirror`).

On the price-time book there is only one path, and all it knows of a price is its rank; the mirror
image shifts all ranks of a side by the same amount (`rank_mirror`).
-/

namespace Ferrox

open Ranked

/-! ## Mirror images -/

/-- The order-reversing bijection of the prices. -/
def mirrorPrice (p : Int64) : Int64 := -1 - p

namespace Order

def mirror (o : Order) : Order := { o with side := o.side.opposite, price := mirrorPrice o.price }

@[simp] theorem mirror_id (o : Order) : o.mirror.id = o.id := rfl
@[simp] theorem mirror_traderId (o : Order) : o.mirror.traderId = o.traderId := rfl
@[simp] theorem mirror_side (o : Order) : o.mirror.side = o.side.opposite := rfl
@[simp] theorem mirror_price (o : Order) : o.mirror.price = mirrorPrice o.price := rfl
@[simp] theorem mirror_quantity (o : Order) : o.mirror.quantity = o.quantity := rfl

end Order

def Fill.mirror (f : Fill) : Fill := { f with price := mirrorPrice f.price }

def AddOrderResult.mirror (r : AddOrderResult) : AddOrderResult :=
  { r with fills := r.fills.map Fill.mirror }

/-- Errors stay the same. -/
def Reply.mirror : Reply → Reply
  | .added result => .added (result.map AddOrderResult.mirror)
  | .cancelled result => .cancelled (result.map Order.mirror)

def Op.mirror : Op → Op
  | .add order => .add order.mirror
  | .cancel id => .cancel id

/-- The two parts of the canonical list change places. -/
def Shown.mirror (s : Shown) : Shown where
  resting := (s.resting.filter (·.side = .bid)).map Order.mirror ++
    (s.resting.filter (·.side = .ask)).map Order.mirror
  bestBid := s.bestAsk.map mirrorPrice
  bestAsk := s.bestBid.map mirrorPrice
  orderCount := s.orderCount

def Book.mirror (B : Book) : Book := ⟨B.capacity, fun s => (B.side s.opposite).map Order.mirror⟩

/-! ## Ranks -/

theorem toInt_mirrorPrice (p : Int64) : (mirrorPrice p).toInt = -1 - p.toInt := by
  have hlo := p.le_toInt
  have hhi := p.toInt_lt
  have hone : (-1 : Int64).toInt = -1 := rfl
  rw [mirrorPrice, Int64.toInt_sub, hone]
  exact Int.bmod_eq_of_le (by omega) (by omega)

/-- A mirrored price has the rank it had on its own side, shifted by one. -/
theorem rank_mirror (s : Side) (p : Int64) :
    s.opposite.rank (mirrorPrice p) = s.rank p + (if s = .ask then 1 else -1) := by
  cases s with
  | ask =>
    rw [if_pos rfl]
    simp only [Side.opposite, Side.rank, toInt_mirrorPrice]
    omega
  | bid =>
    rw [if_neg (by decide)]
    simp only [Side.opposite, Side.rank, toInt_mirrorPrice]
    omega

namespace Book

variable {B : Book}

theorem crosses_mirror (taker : Order) (p : Int64) :
    crosses taker.mirror (mirrorPrice p) ↔ crosses taker p := by
  unfold crosses
  rw [Order.mirror_side, Order.mirror_price, rank_mirror, rank_mirror]
  omega

/-! ## Operations -/

theorem side_mirror (B : Book) (s : Side) :
    B.mirror.side s.opposite = (B.side s).map Order.mirror := by
  show (B.side s.opposite.opposite).map Order.mirror = _
  rw [Side.opposite_opposite]

theorem orders_mirror_perm (B : Book) : B.mirror.orders.Perm (B.orders.map Order.mirror) := by
  have hask := side_mirror B .bid
  have hbid := side_mirror B .ask
  simp only [Side.opposite] at hask hbid
  rw [orders, hask, hbid, orders, List.map_append]
  exact List.perm_append_comm

theorem mem_ids_mirror (id : UInt64) :
    id ∈ B.mirror.orders.map (·.id) ↔ id ∈ B.orders.map (·.id) := by
  rw [((orders_mirror_perm B).map (·.id)).mem_iff, List.map_map]
  rfl

theorem length_orders_mirror (B : Book) : B.mirror.orders.length = B.orders.length := by
  rw [(orders_mirror_perm B).length_eq, List.length_map]

theorem setSide_mirror (B : Book) (s : Side) (l : List Order) :
    (B.setSide s l).mirror = B.mirror.setSide s.opposite (l.map Order.mirror) := by
  simp only [mirror, setSide, mk.injEq, true_and]
  funext s'
  by_cases h : s' = s.opposite
  · subst h
    rw [Side.opposite_opposite, Function.update_self, Function.update_self]
  · have h' : s'.opposite ≠ s := by
      intro heq
      rw [← heq, Side.opposite_opposite] at h
      exact h rfl
    rw [Function.update_of_ne h', Function.update_of_ne h]

theorem insert_mirror (B : Book) (o : Order) :
    B.mirror.insert o.mirror = ((B.insert o).1.mirror, (B.insert o).2) := by
  have hcap : B.mirror.capacity = B.capacity := rfl
  have henq : enqueue (o.side.opposite.rank ·.price) o.mirror ((B.side o.side).map Order.mirror) =
      (enqueue (o.side.rank ·.price) o (B.side o.side)).map Order.mirror := by
    refine (map_enqueue Order.mirror fun x y => ?_).symm
    rw [Order.mirror_price, Order.mirror_price, rank_mirror, rank_mirror]
    omega
  unfold insert
  simp only [Order.mirror_id, mem_ids_mirror, length_orders_mirror, hcap, Order.mirror_side,
    side_mirror, henq]
  split_ifs
  · rfl
  · rfl
  · rw [setSide_mirror]

theorem sweep_mirror (taker : Order) (ms : List Order) (q : UInt64) :
    sweep taker.mirror (ms.map Order.mirror) q =
      { sweep taker ms q with
        makers := (sweep taker ms q).makers.map Order.mirror
        fills := (sweep taker ms q).fills.map Fill.mirror } := by
  induction ms generalizing q with
  | nil => rfl
  | cons m ms ih =>
    have hfill : ∀ n, fill taker.mirror m.mirror n = (fill taker m n).mirror := fun _ => rfl
    simp only [List.map_cons, sweep, ih, crosses_mirror, hfill, Order.mirror_traderId,
      Order.mirror_price, Order.mirror_quantity]
    split_ifs
    all_goals rfl

theorem add_mirror (B : Book) (o : Order) :
    B.mirror.add o.mirror = ((B.add o).1.mirror, (B.add o).2.map AddOrderResult.mirror) := by
  have hswept : B.mirror.swept o.mirror =
      { B.swept o with
        makers := (B.swept o).makers.map Order.mirror
        fills := (B.swept o).fills.map Fill.mirror } := by
    unfold swept
    rw [Order.mirror_side, side_mirror]
    exact sweep_mirror o _ _
  have hafter : B.mirror.afterSweep o.mirror = (B.afterSweep o).mirror := by
    rw [afterSweep, hswept, afterSweep, setSide_mirror]
    rfl
  have hremainder : B.mirror.remainder o.mirror = (B.remainder o).mirror := by
    rw [remainder, hswept]
    rfl
  unfold add
  simp only [hafter, hremainder, insert_mirror, hswept, Order.mirror_quantity, Order.mirror_id,
    List.map_eq_nil_iff]
  split_ifs
  · rfl
  · rfl
  · rfl
  all_goals
    generalize (B.afterSweep o).insert (B.remainder o) = r
    obtain ⟨B', res⟩ := r
    cases res <;> rfl

theorem find?_id_eq_some_iff {l : List Order} (h : (l.map (·.id)).Nodup) {id : UInt64}
    {x : Order} : l.find? (·.id = id) = some x ↔ x ∈ l ∧ x.id = id := by
  constructor
  · intro hfind
    exact ⟨List.mem_of_find?_eq_some hfind, by simpa using List.find?_some hfind⟩
  · rintro ⟨hx, rfl⟩
    cases hfind : l.find? (·.id = x.id) with
    | none =>
      rw [List.find?_eq_none] at hfind
      exact absurd (decide_eq_true rfl) (hfind x hx)
    | some y =>
      have hid : y.id = x.id := by simpa using List.find?_some hfind
      rw [List.inj_on_of_nodup_map h (List.mem_of_find?_eq_some hfind) hx hid]

/-- It does not matter in which order the sides are searched. -/
theorem find?_orders_mirror (h : B.WF) (id : UInt64) :
    B.mirror.orders.find? (·.id = id) = (B.orders.find? (·.id = id)).map Order.mirror := by
  have hperm := orders_mirror_perm B
  have hnodup : (B.mirror.orders.map (·.id)).Nodup := by
    rw [(hperm.map _).nodup_iff, List.map_map]
    exact h.nodup
  apply Option.ext
  intro x
  rw [find?_id_eq_some_iff hnodup, hperm.mem_iff, List.mem_map, Option.map_eq_some_iff]
  simp only [find?_id_eq_some_iff h.nodup]
  constructor
  · rintro ⟨⟨y, hy, rfl⟩, hid⟩
    exact ⟨y, ⟨hy, hid⟩, rfl⟩
  · rintro ⟨y, ⟨hy, hid⟩, rfl⟩
    exact ⟨⟨y, hy, rfl⟩, hid⟩

theorem cancel_mirror (h : B.WF) (id : UInt64) :
    B.mirror.cancel id = ((B.cancel id).1.mirror, (B.cancel id).2.map Order.mirror) := by
  unfold cancel
  rw [find?_orders_mirror h]
  cases B.orders.find? (·.id = id) with
  | none => rfl
  | some x =>
    simp only [Option.map_some, mirror, Except.map, Prod.mk.injEq, mk.injEq, true_and, and_true]
    funext s
    rw [List.filter_map]
    rfl

theorem perform_mirror (h : B.WF) (op : Op) :
    B.mirror.perform op.mirror = ((B.perform op).1.mirror, (B.perform op).2.mirror) := by
  cases op with
  | add order =>
    simp only [Op.mirror, perform, add_mirror]
    rfl
  | cancel id =>
    simp only [Op.mirror, perform, cancel_mirror h]
    cases (B.cancel id).2 <;> rfl

theorem shown_mirror (h : B.WF) : B.mirror.shown = B.shown.mirror := by
  have hask := side_mirror B .bid
  have hbid := side_mirror B .ask
  simp only [Side.opposite] at hask hbid
  have hbest : ∀ s, B.mirror.best s.opposite = (B.best s).map mirrorPrice := by
    intro s
    unfold best
    rw [side_mirror]
    cases B.side s <;> rfl
  have hbestBid := hbest .ask
  have hbestAsk := hbest .bid
  simp only [Side.opposite] at hbestBid hbestAsk
  have horders : B.mirror.orders = (B.side .bid).map Order.mirror ++
      (B.side .ask).map Order.mirror := by rw [orders, hask, hbid]
  unfold shown Shown.mirror
  simp only [filter_orders h, hbestBid, hbestAsk, horders]
  rw [← horders, length_orders_mirror]

end Book

/-! ## Runs -/

namespace MatchingEngine

theorem views_mirror_of_toBook {e e' : MatchingEngine} (h : e.book.WF) (h' : e'.book.WF)
    (hmirror : e'.book.toBook = e.book.toBook.mirror) (ops : List Op) :
    e'.views (ops.map Op.mirror) = (e.views ops).map fun v => (v.1.mirror, v.2.mirror) := by
  induction ops generalizing e e' with
  | nil => rfl
  | cons op ops ih =>
    obtain ⟨hwf, hbook, hreply⟩ := perform_sim h op
    obtain ⟨hwf', hbook', hreply'⟩ := perform_sim h' op.mirror
    rw [hmirror, Book.perform_mirror h.wf_toBook] at hbook' hreply'
    have hnext : (e'.perform op.mirror).1.book.toBook = (e.perform op).1.book.toBook.mirror := by
      rw [hbook', hbook]
    have hshown : (e'.perform op.mirror).1.shown = (e.perform op).1.shown.mirror := by
      rw [shown_sim hwf', hnext, Book.shown_mirror hwf.wf_toBook, shown_sim hwf]
    rw [List.map_cons, views, views, List.map_cons, ih hwf hwf' hnext, hshown, hreply', hreply]

/-- **Mirror symmetry.** Running the mirror images of a sequence of calls on an empty engine gives,
call by call, the mirror images of the results and of the books. -/
theorem views_mirror (c : UInt32) (ops : List Op) :
    (withCapacity c).views (ops.map Op.mirror) =
      ((withCapacity c).views ops).map fun v => (v.1.mirror, v.2.mirror) := by
  obtain ⟨hwf, hbook⟩ := withCapacity_sim c
  refine views_mirror_of_toBook hwf hwf ?_ ops
  rw [hbook]
  rfl

end MatchingEngine

end Ferrox
