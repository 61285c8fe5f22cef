import Ferrox.Lib.Alphabet
import Ferrox.Views

/-!
# What the engine looks at

Of an order's price the engine only asks how it compares with other prices, of ids and traders
whether two of them are the same, and of a timestamp nothing at all. So calls that *correspond*,
with other ids, traders, prices and timestamps of which this much is the same, get corresponding
results and leave corresponding books. It does ask that much: if values stand for each other in
any other way, there are corresponding calls that tell them apart (`rel_views_iff`).

It follows that few values are enough to show everything the engine does. A run that uses `n`
prices corresponds to one whose prices are taken from any `n` given ones, and the same holds for
its ids and its traders (`exists_rel_views`). The random tests of `tests/book_model.rs` draw from
eleven prices and four traders: in these, they stand for every run that uses no more of them.
-/

namespace Ferrox

open Alphabet Ranked Relator

/-- Which ids, traders, prices and timestamps stand for each other. -/
structure Correspondence where
  id : UInt64 → UInt64 → Prop
  trader : UInt64 → UInt64 → Prop
  price : Int64 → Int64 → Prop
  timestamp : UInt64 → UInt64 → Prop

namespace Correspondence

variable (R : Correspondence)

/-- As much is the same as the engine looks at. -/
structure Faithful : Prop where
  id : BiUnique R.id
  trader : BiUnique R.trader
  price : SameOrder R.price

structure OrderRel (o o' : Order) : Prop where
  id : R.id o.id o'.id
  trader : R.trader o.traderId o'.traderId
  side : o.side = o'.side
  price : R.price o.price o'.price
  quantity : o.quantity = o'.quantity
  timestamp : R.timestamp o.timestamp o'.timestamp

structure FillRel (f f' : Fill) : Prop where
  taker : R.id f.takerOrderId f'.takerOrderId
  maker : R.id f.makerOrderId f'.makerOrderId
  price : R.price f.price f'.price
  quantity : f.quantity = f'.quantity
  makerFullyFilled : f.makerFullyFilled = f'.makerFullyFilled

structure ResultRel (r r' : AddOrderResult) : Prop where
  orderId : R.id r.orderId r'.orderId
  status : r.status = r'.status
  fills : List.Forall₂ R.FillRel r.fills r'.fills

inductive BookErrorRel : BookError → BookError → Prop
  | duplicateOrderId {i i' : UInt64} (h : R.id i i') :
      BookErrorRel (.duplicateOrderId i) (.duplicateOrderId i')
  | orderNotFound {i i' : UInt64} (h : R.id i i') :
      BookErrorRel (.orderNotFound i) (.orderNotFound i')
  | priceLevelNotFound {p p' : Int64} (h : R.price p p') :
      BookErrorRel (.priceLevelNotFound p) (.priceLevelNotFound p')
  | fillExceedsQuantity (available requested : UInt64) :
      BookErrorRel (.fillExceedsQuantity available requested)
        (.fillExceedsQuantity available requested)
  | arenaFull : BookErrorRel .arenaFull .arenaFull

inductive ErrorRel : MatchingError → MatchingError → Prop
  | book {e e' : BookError} (h : R.BookErrorRel e e') : ErrorRel (.book e) (.book e')
  | zeroQuantity : ErrorRel .zeroQuantity .zeroQuantity

/-- The same call returned, with the same kind of result. -/
inductive ReplyRel : Reply → Reply → Prop
  | added {r r' : AddOrderResult} (h : R.ResultRel r r') : ReplyRel (.added (.ok r)) (.added (.ok r'))
  | refused {e e' : MatchingError} (h : R.ErrorRel e e') :
      ReplyRel (.added (.error e)) (.added (.error e'))
  | cancelled {o o' : Order} (h : R.OrderRel o o') :
      ReplyRel (.cancelled (.ok o)) (.cancelled (.ok o'))
  | notCancelled {e e' : MatchingError} (h : R.ErrorRel e e') :
      ReplyRel (.cancelled (.error e)) (.cancelled (.error e'))

structure ShownRel (s s' : Shown) : Prop where
  resting : List.Forall₂ R.OrderRel s.resting s'.resting
  bestBid : Option.Rel R.price s.bestBid s'.bestBid
  bestAsk : Option.Rel R.price s.bestAsk s'.bestAsk
  orderCount : s.orderCount = s'.orderCount

structure ViewRel (v v' : Reply × Shown) : Prop where
  reply : R.ReplyRel v.1 v'.1
  shown : R.ShownRel v.2 v'.2

inductive OpRel : Op → Op → Prop
  | add {o o' : Order} (h : R.OrderRel o o') : OpRel (.add o) (.add o')
  | cancel {i i' : UInt64} (h : R.id i i') : OpRel (.cancel i) (.cancel i')

/-- Books of one capacity, with corresponding orders in the same places. -/
structure BookRel (B B' : Book) : Prop where
  capacity : B.capacity = B'.capacity
  side : ∀ s, List.Forall₂ R.OrderRel (B.side s) (B'.side s)

/-- What two sweeps leave. -/
structure SweepRel (w w' : Book.Sweep) : Prop where
  makers : List.Forall₂ R.OrderRel w.makers w'.makers
  fills : List.Forall₂ R.FillRel w.fills w'.fills
  left : w.left = w'.left
  selfTrade : w.selfTrade = w'.selfTrade

variable {R} {o o' taker taker' : Order} {B B' : Book}

/-! ## Comparisons -/

theorem rank_lt_iff (hR : R.Faithful) {p p' q q' : Int64} (hp : R.price p p')
    (hq : R.price q q') (s : Side) : s.rank p < s.rank q ↔ s.rank p' < s.rank q' := by
  cases s with
  | ask =>
    rw [Side.rank_ask_lt, Side.rank_ask_lt]
    exact hR.price hp hq
  | bid =>
    rw [Side.rank_bid_lt, Side.rank_bid_lt]
    exact hR.price hq hp

theorem crosses_iff (hR : R.Faithful) (h : R.OrderRel taker taker') {p p' : Int64}
    (hp : R.price p p') : Book.crosses taker p ↔ Book.crosses taker' p' := by
  unfold Book.crosses
  rw [← not_lt, ← not_lt, h.side, rank_lt_iff hR h.price hp]

/-! ## Operations -/

theorem rel_fill {m m' : Order} (h : R.OrderRel taker taker') (hm : R.OrderRel m m')
    (n : UInt64) : R.FillRel (Book.fill taker m n) (Book.fill taker' m' n) where
  taker := h.id
  maker := hm.id
  price := hm.price
  quantity := rfl
  makerFullyFilled := by simp only [Book.fill, hm.quantity]

theorem rel_sweep (hR : R.Faithful) (h : R.OrderRel taker taker') {ms ms' : List Order}
    (hms : List.Forall₂ R.OrderRel ms ms') (q : UInt64) :
    R.SweepRel (Book.sweep taker ms q) (Book.sweep taker' ms' q) := by
  induction hms generalizing q with
  | nil => exact ⟨.nil, .nil, rfl, rfl⟩
  | @cons m m' ms ms' hm hrest ih =>
    have htrader : m.traderId = taker.traderId ↔ m'.traderId = taker'.traderId :=
      rel_eq hR.trader hm.trader h.trader
    unfold Book.sweep
    simp only [crosses_iff hR h hm.price, htrader, hm.quantity]
    split_ifs with hq hc ht hall
    · exact ⟨.cons hm hrest, .nil, rfl, rfl⟩
    · exact ⟨.cons hm hrest, .nil, rfl, rfl⟩
    · -- the maker is taken whole
      obtain ⟨hmakers, hfills, hleft, hself⟩ := ih (q - min q m'.quantity)
      exact ⟨hmakers, .cons (rel_fill h hm _) hfills, hleft, hself⟩
    · exact ⟨.cons { hm with quantity := rfl } hrest, .cons (rel_fill h hm _) .nil, rfl, rfl⟩
    · exact ⟨.cons hm hrest, .nil, rfl, rfl⟩

namespace BookRel

theorem orders (h : R.BookRel B B') : List.Forall₂ R.OrderRel B.orders B'.orders :=
  List.rel_append (h.side .ask) (h.side .bid)

theorem mem_ids (h : R.BookRel B B') (hR : R.Faithful) {i i' : UInt64} (hi : R.id i i') :
    i ∈ B.orders.map (·.id) ↔ i' ∈ B'.orders.map (·.id) :=
  List.rel_mem hR.id hi (List.rel_map (fun _ _ ho => ho.id) h.orders)

theorem setSide (h : R.BookRel B B') (s : Side) {l l' : List Order}
    (hl : List.Forall₂ R.OrderRel l l') : R.BookRel (B.setSide s l) (B'.setSide s l') where
  capacity := h.capacity
  side s' := by
    by_cases hs : s' = s
    · subst hs
      rwa [Book.side_setSide_self, Book.side_setSide_self]
    · rw [Book.side_setSide_of_ne hs, Book.side_setSide_of_ne hs]
      exact h.side s'

end BookRel

theorem rel_insert (hR : R.Faithful) (h : R.BookRel B B') (ho : R.OrderRel o o') :
    R.BookRel (B.insert o).1 (B'.insert o').1 ∧
      ((∃ e e', R.BookErrorRel e e' ∧ (B.insert o).2 = .error e ∧ (B'.insert o').2 = .error e') ∨
        (B.insert o).2 = .ok () ∧ (B'.insert o').2 = .ok ()) := by
  unfold Book.insert
  rw [h.orders.length_eq, h.capacity, ← ho.side]
  simp only [h.mem_ids hR ho.id]
  split_ifs
  · exact ⟨h, .inl ⟨_, _, .duplicateOrderId ho.id, rfl, rfl⟩⟩
  · exact ⟨h, .inl ⟨_, _, .arenaFull, rfl, rfl⟩⟩
  · refine ⟨h.setSide _ (rel_enqueue ?_ ho (h.side _)), .inr ⟨rfl, rfl⟩⟩
    intro x x' hx y y' hy
    exact rank_lt_iff hR hx.price hy.price o.side

theorem rel_swept (hR : R.Faithful) (h : R.BookRel B B') (ho : R.OrderRel o o') :
    R.SweepRel (B.swept o) (B'.swept o') := by
  unfold Book.swept
  rw [← ho.quantity, ← ho.side]
  exact rel_sweep hR ho (h.side _) _

theorem rel_add (hR : R.Faithful) (h : R.BookRel B B') (ho : R.OrderRel o o') :
    R.BookRel (B.add o).1 (B'.add o').1 ∧
      R.ReplyRel (.added (B.add o).2) (.added (B'.add o').2) := by
  have hswept := rel_swept hR h ho
  have hafter : R.BookRel (B.afterSweep o) (B'.afterSweep o') := by
    unfold Book.afterSweep
    rw [← ho.side]
    exact h.setSide _ hswept.makers
  have hremainder : R.OrderRel (B.remainder o) (B'.remainder o') :=
    { ho with quantity := hswept.left }
  have hnil : (B.swept o).fills = [] ↔ (B'.swept o').fills = [] := by
    rw [← List.length_eq_zero_iff, hswept.fills.length_eq, List.length_eq_zero_iff]
  have hresult : ∀ status, R.ResultRel ⟨o.id, status, (B.swept o).fills⟩
      ⟨o'.id, status, (B'.swept o').fills⟩ := fun _ => ⟨ho.id, rfl, hswept.fills⟩
  obtain ⟨hinsert, hreply⟩ := rel_insert hR hafter hremainder
  unfold Book.add
  simp only [ho.quantity, hswept.left, hswept.selfTrade, hnil]
  split_ifs with hq hself hleft
  · exact ⟨h, .refused .zeroQuantity⟩
  · exact ⟨hafter, .added (hresult _)⟩
  · exact ⟨hafter, .added (hresult _)⟩
  all_goals
    generalize (B.afterSweep o).insert (B.remainder o) = r at hinsert hreply ⊢
    generalize (B'.afterSweep o').insert (B'.remainder o') = r' at hinsert hreply ⊢
    obtain ⟨C, res⟩ := r
    obtain ⟨C', res'⟩ := r'
    rcases hreply with ⟨e, e', he, rfl, rfl⟩ | ⟨rfl, rfl⟩
    · exact ⟨hinsert, .refused (.book he)⟩
    · exact ⟨hinsert, .added (hresult _)⟩

theorem rel_cancel (hR : R.Faithful) (h : R.BookRel B B') {i i' : UInt64} (hi : R.id i i') :
    R.BookRel (B.cancel i).1 (B'.cancel i').1 ∧
      R.ReplyRel (.cancelled (MatchingEngine.liftError (B.cancel i).2))
        (.cancelled (MatchingEngine.liftError (B'.cancel i').2)) := by
  have hfind : Option.Rel R.OrderRel (B.orders.find? (·.id = i)) (B'.orders.find? (·.id = i')) :=
    rel_find? (fun _ _ ho => decide_eq_decide.2 (rel_eq hR.id ho.id hi)) h.orders
  unfold Book.cancel
  generalize B.orders.find? (·.id = i) = r at hfind ⊢
  generalize B'.orders.find? (·.id = i') = r' at hfind ⊢
  cases hfind with
  | none => exact ⟨h, .notCancelled (.book (.orderNotFound hi))⟩
  | some ho =>
    refine ⟨⟨h.capacity, fun s => ?_⟩, .cancelled ho⟩
    refine List.rel_filter (fun x x' hx => ?_) (h.side s)
    have hid : x.id = i ↔ x'.id = i' := rel_eq hR.id hx.id hi
    simp only [decide_eq_true_eq, ne_eq, hid]

theorem rel_perform (hR : R.Faithful) (h : R.BookRel B B') {op op' : Op} (hop : R.OpRel op op') :
    R.BookRel (B.perform op).1 (B'.perform op').1 ∧
      R.ReplyRel (B.perform op).2 (B'.perform op').2 := by
  cases hop with
  | add ho => exact rel_add hR h ho
  | cancel hi => exact rel_cancel hR h hi

theorem rel_shown (h : R.BookRel B B') : R.ShownRel B.shown B'.shown := by
  have hbest : ∀ s, Option.Rel R.price (B.best s) (B'.best s) := by
    intro s
    have hhead := rel_head? (h.side s)
    unfold Book.best
    generalize (B.side s).head? = r at hhead ⊢
    generalize (B'.side s).head? = r' at hhead ⊢
    cases hhead with
    | none => exact .none
    | some ho => exact .some ho.price
  exact ⟨h.orders, hbest .bid, hbest .ask, h.orders.length_eq⟩

/-! ## Runs -/

theorem rel_views_book (hR : R.Faithful) (h : R.BookRel B B') {ops ops' : List Op}
    (hops : List.Forall₂ R.OpRel ops ops') :
    List.Forall₂ R.ViewRel (B.views ops) (B'.views ops') := by
  induction hops generalizing B B' with
  | nil => exact .nil
  | cons hop _ ih =>
    obtain ⟨hnext, hreply⟩ := rel_perform hR h hop
    exact .cons ⟨hreply, rel_shown hnext⟩ (ih hnext)

theorem rel_empty (capacity : Nat) : R.BookRel (Book.empty capacity) (Book.empty capacity) :=
  ⟨rfl, fun _ => .nil⟩

/-! ## Probes

Two calls are enough to find out how two values relate: an ask and a bid of the same id, or an order
and a cancellation. -/

/-- A price, an id and a trader on one side of the book. -/
def probe (side : Side) (id trader : UInt64) (price : Int64) (timestamp : UInt64) : Order where
  id
  traderId := trader
  side
  price
  quantity := 1
  timestamp

variable {capacity : Nat} {i i' j j' t t' u u' s s' : UInt64} {p p' q q' : Int64}

theorem rel_probe (side : Side) (hi : R.id i i') (ht : R.trader t t') (hp : R.price p p')
    (hs : R.timestamp s s') : R.OrderRel (probe side i t p s) (probe side i' t' p' s') :=
  ⟨hi, ht, rfl, hp, rfl, hs⟩

theorem probe_quantity_ne_zero {side : Side} : (probe side i t p s).quantity ≠ 0 := by
  show (1 : UInt64) ≠ 0
  decide

theorem add_probe (hc : 0 < capacity) (i t : UInt64) (p : Int64) (s : UInt64) :
    (Book.empty capacity).add (probe .ask i t p s) =
      ((Book.empty capacity).setSide .ask [probe .ask i t p s],
        .ok { orderId := i, status := .resting, fills := [] }) :=
  Book.add_empty hc probe_quantity_ne_zero

/-- A bid of the same id meets it, or is refused. -/
theorem add_second_probe {B : Book} (hB : B.side .ask = [probe .ask i t p s]) (u : UInt64)
    (q : Int64) : (B.add (probe .bid i u q s)).2 =
      if p ≤ q then
        if t = u then .ok { orderId := i, status := .cancelledSelfTrade, fills := [] }
        else .ok {
          orderId := i
          status := .fullyFilled
          fills := [Book.fill (probe .bid i u q s) (probe .ask i t p s) 1] }
      else .error (.book (.duplicateOrderId i)) := by
  have hone : (1 : UInt64) ≠ 0 := by decide
  have hq : (probe .bid i u q s).quantity ≠ 0 := hone
  have hcrosses : Book.crosses (probe .bid i u q s) (probe .ask i t p s).price ↔ p ≤ q := by
    rw [← not_lt, ← Side.rank_ask_lt, not_lt]
    rfl
  have hswept : B.swept (probe .bid i u q s) =
      Book.sweep (probe .bid i u q s) [probe .ask i t p s] 1 :=
    congrArg (fun l => Book.sweep (probe .bid i u q s) l 1) hB
  by_cases hle : p ≤ q
  · by_cases ht : t = u
    · have ht' : (probe .ask i t p s).traderId = (probe .bid i u q s).traderId := ht
      have hown : B.swept (probe .bid i u q s) = ⟨[probe .ask i t p s], [], 1, true⟩ := by
        rw [hswept, Book.sweep, if_neg hone, if_neg (not_not.2 (hcrosses.2 hle)), if_pos ht']
      rw [if_pos hle, if_pos ht, Book.add, if_neg hq, hown]
      rfl
    · have ht' : (probe .ask i t p s).traderId ≠ (probe .bid i u q s).traderId := ht
      have hall : B.swept (probe .bid i u q s) =
          ⟨[], [Book.fill (probe .bid i u q s) (probe .ask i t p s) 1], 0, false⟩ := by
        rw [hswept, Book.sweep_cons_all hone (hcrosses.2 hle) ht' (UInt64.le_refl 1)]
        show Book.Sweep.mk _ _ (1 - 1) _ = _
        rw [UInt64.sub_self]
        rfl
      rw [if_pos hle, if_neg ht, Book.add, if_neg hq, hall]
      rfl
  · have hnone : B.swept (probe .bid i u q s) = ⟨[probe .ask i t p s], [], 1, false⟩ := by
      rw [hswept, Book.sweep, if_neg hone, if_pos (mt hcrosses.1 hle)]
    have hmem : i ∈ (B.afterSweep (probe .bid i u q s)).orders.map (·.id) := by
      refine List.mem_map.2 ⟨probe .ask i t p s, List.mem_append_left _ ?_, rfl⟩
      show probe .ask i t p s ∈ (B.setSide .ask (B.swept (probe .bid i u q s)).makers).side .ask
      rw [hnone, Book.side_setSide_self]
      exact List.mem_singleton_self _
    have hinsert : (B.afterSweep (probe .bid i u q s)).insert (B.remainder (probe .bid i u q s)) =
        (B.afterSweep (probe .bid i u q s), .error (.duplicateOrderId i)) := if_pos hmem
    rw [if_neg hle, Book.add, if_neg hq, hinsert, hnone]
    rfl

theorem cancel_probe (i t : UInt64) (p : Int64) (s j : UInt64) :
    (((Book.empty capacity).setSide .ask [probe .ask i t p s]).cancel j).2 =
      if i = j then .ok (probe .ask i t p s) else .error (.orderNotFound j) := by
  have horders : ((Book.empty capacity).setSide .ask [probe .ask i t p s]).orders =
      [probe .ask i t p s] := rfl
  rcases Book.cancel_cases ((Book.empty capacity).setSide .ask [probe .ask i t p s]) j with
    ⟨hne, hcancel⟩ | ⟨x, hx, hid, hcancel⟩
  · have hij : i ≠ j := hne (probe .ask i t p s) (horders ▸ List.mem_singleton_self _)
    rw [hcancel, if_neg hij]
  · rw [horders, List.mem_singleton] at hx
    subst hx
    have hij : i = j := hid
    rw [hcancel, if_pos hij]

section Distinguishing

variable (hc : 0 < capacity) (hid : ∃ i i', R.id i i') (htrader : ∃ t t', R.trader t t')
  (hprice : ∃ p p', R.price p p') (htimestamp : ∃ s s', R.timestamp s s')
  (h : ∀ ops ops', List.Forall₂ R.OpRel ops ops' →
    List.Forall₂ R.ViewRel ((Book.empty capacity).views ops) ((Book.empty capacity).views ops'))

include h in
theorem rel_second_reply {a a' b b' : Op} (ha : R.OpRel a a') (hb : R.OpRel b b') :
    R.ReplyRel (((Book.empty capacity).perform a).1.perform b).2
      (((Book.empty capacity).perform a').1.perform b').2 := by
  have hviews := h [a, b] [a', b'] (.cons ha (.cons hb .nil))
  obtain ⟨-, hrest⟩ := List.forall₂_cons.1 hviews
  exact (List.forall₂_cons.1 hrest).1.reply

include hc hid htimestamp h in
theorem rel_probes (ht : R.trader t t') (hu : R.trader u u') (hp : R.price p p')
    (hq : R.price q q') : (p ≤ q ↔ p' ≤ q') ∧ (p ≤ q → (t = u ↔ t' = u')) := by
  obtain ⟨i, i', hi⟩ := hid
  obtain ⟨s, s', hs⟩ := htimestamp
  have hreply := rel_second_reply h (.add (rel_probe .ask hi ht hp hs))
    (.add (rel_probe .bid hi hu hq hs))
  simp only [Book.perform, add_probe hc, add_second_probe Book.side_setSide_self] at hreply
  by_cases hle : p ≤ q
  · by_cases hle' : p' ≤ q'
    · simp only [if_pos hle, if_pos hle'] at hreply
      refine ⟨iff_of_true hle hle', fun _ => ?_⟩
      split_ifs at hreply with htu htu' htu'
      · exact iff_of_true htu htu'
      · cases hreply with
        | added h => cases h.status
      · cases hreply with
        | added h => cases h.status
      · exact iff_of_false htu htu'
    · -- the bid trades in one book and is refused in the other
      rw [if_pos hle, if_neg hle'] at hreply
      split_ifs at hreply <;> cases hreply
  · by_cases hle' : p' ≤ q'
    · rw [if_neg hle, if_pos hle'] at hreply
      split_ifs at hreply <;> cases hreply
    · exact ⟨iff_of_false hle hle', fun h => absurd h hle⟩

include hc htrader hprice htimestamp h in
theorem rel_cancelled (hi : R.id i i') (hj : R.id j j') : i = j ↔ i' = j' := by
  obtain ⟨t, t', ht⟩ := htrader
  obtain ⟨p, p', hp⟩ := hprice
  obtain ⟨s, s', hs⟩ := htimestamp
  have hreply := rel_second_reply h (.add (rel_probe .ask hi ht hp hs)) (.cancel hj)
  simp only [Book.perform, add_probe hc, cancel_probe] at hreply
  by_cases hij : i = j
  · by_cases hij' : i' = j'
    · exact iff_of_true hij hij'
    · rw [if_pos hij, if_neg hij'] at hreply
      cases hreply
  · by_cases hij' : i' = j'
    · rw [if_neg hij, if_pos hij'] at hreply
      cases hreply
    · exact iff_of_false hij hij'

include hc hid htrader hprice htimestamp h in
/-- Whatever corresponding calls do not tell apart is as alike as the engine wants it. -/
theorem faithful_of_views : R.Faithful where
  id := biUnique_of_eq_iff fun _ _ hi _ _ hj =>
    rel_cancelled hc htrader hprice htimestamp h hi hj
  trader := by
    obtain ⟨p, p', hp⟩ := hprice
    refine biUnique_of_eq_iff fun t t' ht u u' hu => ?_
    exact (rel_probes hc hid htimestamp h ht hu hp hp).2 le_rfl
  price := by
    obtain ⟨t, t', ht⟩ := htrader
    intro p p' hp q q' hq
    rw [← not_le, ← not_le, (rel_probes hc hid htimestamp h ht ht hq hp).1]

end Distinguishing

end Correspondence

namespace MatchingEngine

theorem views_withCapacity (c : UInt32) (ops : List Op) :
    (withCapacity c).views ops = (Book.empty c.toNat).views ops := by
  obtain ⟨hwf, hbook⟩ := withCapacity_sim c
  rw [views_sim hwf, hbook]

/-- **The engine looks at no more and no less.** Let ids, traders, prices and timestamps stand for
each other in some way. Corresponding sequences of calls on fresh engines with room for an order
always give corresponding results and books exactly when ids and traders that stand for each other
do so one to one, and prices in the same order. -/
theorem rel_views_iff {c : UInt32} (hc : 0 < c) (R : Correspondence)
    (hid : ∃ i i', R.id i i') (htrader : ∃ t t', R.trader t t') (hprice : ∃ p p', R.price p p')
    (htimestamp : ∃ s s', R.timestamp s s') :
    (∀ ops ops', List.Forall₂ R.OpRel ops ops' →
      List.Forall₂ R.ViewRel ((withCapacity c).views ops) ((withCapacity c).views ops')) ↔
    R.Faithful := by
  simp only [views_withCapacity]
  constructor
  · intro h
    exact Correspondence.faithful_of_views hc hid htrader hprice htimestamp h
  · intro hR ops ops' hops
    exact Correspondence.rel_views_book hR (Correspondence.rel_empty _) hops

/-- With two prices exchanged, an engine with room for one order gives itself away. -/
theorem rel_views_iff_exchanged : ∃ R : Correspondence,
    R.id = Eq ∧ R.trader = Eq ∧ R.timestamp = Eq ∧ BiUnique R.price ∧
      R.price 99 100 ∧ R.price 100 99 ∧ ∃ ops ops', List.Forall₂ R.OpRel ops ops' ∧
        ¬ List.Forall₂ R.ViewRel ((withCapacity 1).views ops) ((withCapacity 1).views ops') := by
  let R : Correspondence :=
    ⟨Eq, Eq, fun p p' => p = 99 ∧ p' = 100 ∨ p = 100 ∧ p' = 99, Eq⟩
  have hup : R.price 99 100 := .inl ⟨rfl, rfl⟩
  have hdown : R.price 100 99 := .inr ⟨rfl, rfl⟩
  have hone : BiUnique R.price := by
    refine biUnique_of_eq_iff ?_
    rintro p p' (⟨rfl, rfl⟩ | ⟨rfl, rfl⟩) q q' (⟨rfl, rfl⟩ | ⟨rfl, rfl⟩) <;> decide
  refine ⟨R, rfl, rfl, rfl, hone, hup, hdown, ?_⟩
  by_contra hall
  have h : ∀ ops ops', List.Forall₂ R.OpRel ops ops' →
      List.Forall₂ R.ViewRel ((withCapacity 1).views ops) ((withCapacity 1).views ops') := by
    intro ops ops' hops
    by_contra hviews
    exact hall ⟨ops, ops', hops, hviews⟩
  have hR := (rel_views_iff (by decide) R ⟨1, 1, rfl⟩ ⟨1, 1, rfl⟩ ⟨_, _, hup⟩ ⟨0, 0, rfl⟩).1 h
  exact absurd ((hR.price hup hdown).1 (by decide)) (by decide)

end MatchingEngine

/-! ## Few values are enough -/

namespace Op

/-- The ids that a call names. -/
def ids : Op → List UInt64
  | .add order => [order.id]
  | .cancel id => [id]

def traders : Op → List UInt64
  | .add order => [order.traderId]
  | .cancel _ => []

def prices : Op → List Int64
  | .add order => [order.price]
  | .cancel _ => []

end Op

namespace Correspondence

variable {R : Correspondence}

theorem exists_opRel {op : Op} (hid : ∀ i ∈ op.ids, ∃ i', R.id i i')
    (htrader : ∀ t ∈ op.traders, ∃ t', R.trader t t')
    (hprice : ∀ p ∈ op.prices, ∃ p', R.price p p') (htimestamp : R.timestamp = Eq) :
    ∃ op', R.OpRel op op' := by
  cases op with
  | add o =>
    obtain ⟨i', hi⟩ := hid o.id (List.mem_singleton_self _)
    obtain ⟨t', ht⟩ := htrader o.traderId (List.mem_singleton_self _)
    obtain ⟨p', hp⟩ := hprice o.price (List.mem_singleton_self _)
    have hs : R.timestamp o.timestamp o.timestamp := by rw [htimestamp]
    exact ⟨.add { o with id := i', traderId := t', price := p' }, .add ⟨hi, ht, rfl, hp, rfl, hs⟩⟩
  | cancel i =>
    obtain ⟨i', hi⟩ := hid i (List.mem_singleton_self _)
    exact ⟨.cancel i', .cancel hi⟩

end Correspondence

namespace MatchingEngine

/-- **Few values are enough.** Every sequence of calls corresponds to one whose ids, traders and
prices are taken from any given ones, if there are as many of each as the sequence uses, and so do
the results and the books on fresh engines. Only ids, traders and prices are exchanged, one to one
and in the same order. -/
theorem exists_rel_views (c : UInt32) (ops : List Op) {I T : Finset UInt64} {P : Finset Int64}
    (hI : (ops.flatMap Op.ids).toFinset.card ≤ I.card)
    (hT : (ops.flatMap Op.traders).toFinset.card ≤ T.card)
    (hP : (ops.flatMap Op.prices).toFinset.card ≤ P.card) :
    ∃ R : Correspondence, R.Faithful ∧ R.timestamp = Eq ∧
      (∀ i i', R.id i i' → i' ∈ I) ∧ (∀ t t', R.trader t t' → t' ∈ T) ∧
      (∀ p p', R.price p p' → p' ∈ P) ∧ ∃ ops', List.Forall₂ R.OpRel ops ops' ∧
        List.Forall₂ R.ViewRel ((withCapacity c).views ops) ((withCapacity c).views ops') := by
  obtain ⟨id, hid, hids, hI⟩ := exists_biUnique hI
  obtain ⟨trader, htrader, htraders, hT⟩ := exists_biUnique hT
  obtain ⟨price, hprice, hprices, hP⟩ := exists_sameOrder hP
  let R : Correspondence := ⟨id, trader, price, Eq⟩
  have hR : R.Faithful := ⟨hid, htrader, hprice⟩
  have hpartner : ∀ op ∈ ops, ∃ op', R.OpRel op op' := by
    intro op hop
    refine Correspondence.exists_opRel ?_ ?_ ?_ rfl
    · exact fun i hi => hids i (List.mem_toFinset.2 (List.mem_flatMap.2 ⟨op, hop, hi⟩))
    · exact fun t ht => htraders t (List.mem_toFinset.2 (List.mem_flatMap.2 ⟨op, hop, ht⟩))
    · exact fun p hp => hprices p (List.mem_toFinset.2 (List.mem_flatMap.2 ⟨op, hop, hp⟩))
  obtain ⟨ops', hops⟩ := exists_forall₂ hpartner
  refine ⟨R, hR, rfl, hI, hT, hP, ops', hops, ?_⟩
  rw [views_withCapacity, views_withCapacity]
  exact Correspondence.rel_views_book hR (Correspondence.rel_empty _) hops

/-- Orders at the ends of the price range, within the prices and traders of the random tests. -/
theorem exists_rel_views_eleven : ∃ ops : List Op,
    ops = [.add ⟨900, 7, .ask, 9223372036854775807, 5, 1⟩,
      .add ⟨17, 8, .bid, -9223372036854775808, 2, 2⟩,
      .add ⟨4, 8, .bid, 9223372036854775807, 9, 3⟩, .cancel 17] ∧
    ∃ R : Correspondence, R.Faithful ∧
      (∀ t t', R.trader t t' → t' ∈ ({0, 1, 2, 3} : Finset UInt64)) ∧
      (∀ p p', R.price p p' →
        p' ∈ ({95, 96, 97, 98, 99, 100, 101, 102, 103, 104, 105} : Finset Int64)) ∧
      ∃ ops', List.Forall₂ R.OpRel ops ops' ∧
        List.Forall₂ R.ViewRel ((withCapacity 1024).views ops)
          ((withCapacity 1024).views ops') := by
  obtain ⟨R, hR, -, -, hT, hP, ops', hops, hviews⟩ := exists_rel_views 1024
    [.add ⟨900, 7, .ask, 9223372036854775807, 5, 1⟩,
      .add ⟨17, 8, .bid, -9223372036854775808, 2, 2⟩,
      .add ⟨4, 8, .bid, 9223372036854775807, 9, 3⟩, .cancel 17]
    (I := {1, 2, 3}) (T := {0, 1, 2, 3})
    (P := {95, 96, 97, 98, 99, 100, 101, 102, 103, 104, 105})
    (by decide) (by decide) (by decide)
  exact ⟨_, rfl, R, hR, hT, hP, ops', hops, hviews⟩

end MatchingEngine

end Ferrox
