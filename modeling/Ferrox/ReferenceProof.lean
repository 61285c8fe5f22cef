import Ferrox.Reference
import Ferrox.MatchingProof

/-!
# The engine agrees with the reference book

Both the engine and the reference implement the price-time book. `Models B R` relates the two
descriptions: along each side, `B` holds the orders of `R` arranged by price and arrival. A scan of
the flat list for the best maker finds the front of the queue (`bestIndex_front`), so the
reference's loop is the sweep too (`matchLoop_sim`), and every observation of the reference is one
of the price-time book. `Ferrox.MatchingProof` says the same of the engine.
-/

namespace Ferrox

open Ranked
open MatchingEngine (eq_of_iteration)

/-- The price-time book `B` holds the orders of the flat book `R`. -/
structure Models (B : Book) (R : ReferenceBook) : Prop where
  arrivals : R.resting.Pairwise fun r r' => r.seq < r'.seq
  next : ∀ r ∈ R.resting, r.seq < R.nextSeq
  side : ∀ s, Arranges (s.rank ·.price) (B.side s) ((R.onSide s).map (·.order))

namespace ReferenceBook

/-! ## The linear scan -/

/-- What a scan of `l` for the best maker on `s` has found. -/
inductive Scanned (s : Side) : List Resting → Option Nat → Prop
  | none {l : List Resting} (h : ∀ r ∈ l, r.order.side ≠ s) : Scanned s l none
  | some {l₁ l₂ : List Resting} {r : Resting} (hs : r.order.side = s)
      (h₁ : ∀ x ∈ l₁, x.order.side = s → s.rank r.order.price < s.rank x.order.price)
      (h₂ : ∀ x ∈ l₂, x.order.side = s → s.rank r.order.price ≤ s.rank x.order.price) :
      Scanned s (l₁ ++ r :: l₂) (some l₁.length)

/-- Among arrivals, the scan moves on only to a better price. -/
theorem better_iff {s : Side} {r cur : Resting} (h : cur.seq < r.seq) :
    better s r cur = true ↔ s.rank r.order.price < s.rank cur.order.price := by
  have hseq : ¬ r.seq < cur.seq := by omega
  cases s with
  | ask => simp [better, hseq, Side.rank_ask_lt]
  | bid => simp [better, hseq, Side.rank_bid_lt]

namespace Scanned

variable {s : Side} {l l₁ l₂ : List Resting} {r x : Resting}

theorem keep (hr : r.order.side = s)
    (h₁ : ∀ y ∈ l₁, y.order.side = s → s.rank r.order.price < s.rank y.order.price)
    (h₂ : ∀ y ∈ l₂, y.order.side = s → s.rank r.order.price ≤ s.rank y.order.price)
    (hx : x.order.side = s → s.rank r.order.price ≤ s.rank x.order.price) :
    Scanned s (l₁ ++ r :: l₂ ++ [x]) (Option.some l₁.length) := by
  rw [List.append_assoc, List.cons_append]
  refine .some hr h₁ ?_
  intro y hy
  rcases List.mem_append.1 hy with hy | hy
  · exact h₂ y hy
  · rw [List.mem_singleton.1 hy]
    exact hx

theorem move (hx : x.order.side = s)
    (h : ∀ y ∈ l, y.order.side = s → s.rank x.order.price < s.rank y.order.price) :
    Scanned s (l ++ [x]) (Option.some l.length) :=
  .some hx h (by simp)

theorem pass {best : Option Nat} (h : Scanned s l best) (hx : x.order.side ≠ s) :
    Scanned s (l ++ [x]) best := by
  cases h with
  | none hnone =>
    refine .none ?_
    intro y hy
    rcases List.mem_append.1 hy with hy | hy
    · exact hnone y hy
    · rw [List.mem_singleton.1 hy]
      exact hx
  | some hr h₁ h₂ => exact keep hr h₁ h₂ fun hs => absurd hs hx

end Scanned

theorem scanned_foldl {R : ReferenceBook} (h : R.resting.Pairwise fun r r' => r.seq < r'.seq)
    (s : Side) (l l' : List Resting) (hl : R.resting = l ++ l') :
    Scanned s l (l.zipIdx.foldl (fun best (r, i) =>
      if r.order.side ≠ s then best
      else
        match best with
        | none => some i
        | some j => if better s r (R.resting.getD j r) then some i else some j) none) := by
  induction l using List.reverseRecOn generalizing l' with
  | nil => exact .none (by simp)
  | append_singleton l x ih =>
    have ih := ih (x :: l') (by rw [hl, List.append_assoc]; rfl)
    rw [List.zipIdx_append, List.foldl_append]
    generalize l.zipIdx.foldl _ none = best at ih
    simp only [List.zipIdx_cons, List.zipIdx_nil, List.foldl_cons, List.foldl_nil, zero_add]
    by_cases hx : x.order.side = s
    · rw [if_neg (not_not.2 hx)]
      cases ih with
      | none hnone => exact .move hx fun y hy hys => absurd hys (hnone y hy)
      | @some l₁ l₂ r hr h₁ h₂ =>
        have hget : R.resting.getD l₁.length x = r := by
          rw [hl]
          simp
        have hseq : r.seq < x.seq := by
          rw [hl, List.append_assoc] at h
          exact (List.pairwise_append.1 h).2.2 r (by simp) x (by simp)
        simp only [hget, better_iff hseq]
        split_ifs with hlt
        · refine .move hx ?_
          intro y hy hys
          rcases List.mem_append.1 hy with hy | hy
          · exact hlt.trans (h₁ y hy hys)
          · rcases List.mem_cons.1 hy with rfl | hy
            · exact hlt
            · exact hlt.trans_le (h₂ y hy hys)
        · exact .keep hr h₁ h₂ fun _ => not_lt.1 hlt
    · rw [if_pos hx]
      exact ih.pass hx

theorem scanned_bestIndex {R : ReferenceBook} (h : R.resting.Pairwise fun r r' => r.seq < r'.seq)
    (s : Side) : Scanned s R.resting (R.bestIndex s) :=
  scanned_foldl h s R.resting [] (by simp)

/-! ## The front of a side -/

section Front

variable {B : Book} {R : ReferenceBook} {s : Side} {a : Order} {as : List Order}

theorem onSide_append (l₁ l₂ : List Resting) (n : Nat) (s : Side) :
    ((onSide ⟨l₁ ++ l₂, n⟩ s).map (·.order)) =
      (onSide ⟨l₁, n⟩ s).map (·.order) ++ (onSide ⟨l₂, n⟩ s).map (·.order) := by
  simp [onSide]

theorem onSide_cons_self {r : Resting} (hr : r.order.side = s) (l : List Resting) (n : Nat) :
    (onSide ⟨r :: l, n⟩ s).map (·.order) = r.order :: (onSide ⟨l, n⟩ s).map (·.order) := by
  simp [onSide, hr]

theorem onSide_cons_of_ne {r : Resting} (hr : r.order.side ≠ s) (l : List Resting) (n : Nat) :
    (onSide ⟨r :: l, n⟩ s).map (·.order) = (onSide ⟨l, n⟩ s).map (·.order) := by
  simp [onSide, hr]

theorem bestIndex_none (h : Models B R) (hs : B.side s = []) : R.bestIndex s = none := by
  have hscan := scanned_bestIndex h.arrivals s
  have hside := h.side s
  obtain ⟨l, n⟩ := R
  simp only at hscan
  generalize bestIndex ⟨l, n⟩ s = best at hscan ⊢
  cases hscan with
  | none => rfl
  | @some l₁ l₂ r hr h₁ h₂ =>
    have hmem : r.order ∈ B.side s := by
      rw [hside.mem_iff]
      exact List.mem_map_of_mem (List.mem_filter.2 ⟨by simp, by simpa using hr⟩)
    rw [hs] at hmem
    simp at hmem

section Split

variable {l₁ l₂ : List Resting} {r : Resting} {n : Nat}

theorem models_erase (h : Models B ⟨l₁ ++ r :: l₂, n⟩) (hr : r.order.side = s)
    (has : Arranges (s.rank ·.price) as
      ((onSide ⟨l₁, n⟩ s).map (·.order) ++ (onSide ⟨l₂, n⟩ s).map (·.order))) :
    Models (B.setSide s as) ⟨l₁ ++ l₂, n⟩ where
  arrivals := h.arrivals.sublist (by simp)
  next := by
    intro x hx
    apply h.next
    rcases List.mem_append.1 hx with hx | hx
    · simp [hx]
    · simp [hx]
  side := by
    intro s'
    rw [onSide_append]
    by_cases hs' : s' = s
    · rw [hs', Book.side_setSide_self]
      exact has
    · have hside := h.side s'
      rw [onSide_append, onSide_cons_of_ne (hr ▸ Ne.symm hs')] at hside
      rw [Book.side_setSide_of_ne hs']
      exact hside

theorem models_replace (h : Models B ⟨l₁ ++ r :: l₂, n⟩) (hr : r.order.side = s) {o : Order}
    (ho : o.side = s)
    (has : Arranges (s.rank ·.price) as
      ((onSide ⟨l₁, n⟩ s).map (·.order) ++ o :: (onSide ⟨l₂, n⟩ s).map (·.order))) :
    Models (B.setSide s as) ⟨l₁ ++ { r with order := o } :: l₂, n⟩ where
  arrivals := by
    have hmap : ∀ l : List Resting, (l.Pairwise fun r r' => r.seq < r'.seq) ↔
        (l.map (·.seq)).Pairwise (· < ·) := fun l => List.pairwise_map.symm
    have harr := h.arrivals
    rw [hmap] at harr ⊢
    simpa using harr
  next := by
    intro x hx
    rcases List.mem_append.1 hx with hx | hx
    · exact h.next x (by simp [hx])
    · rcases List.mem_cons.1 hx with rfl | hx
      · exact h.next r (by simp)
      · exact h.next x (by simp [hx])
  side := by
    intro s'
    rw [onSide_append]
    by_cases hs' : s' = s
    · rw [hs', Book.side_setSide_self, onSide_cons_self (r := { r with order := o }) ho]
      exact has
    · have hside := h.side s'
      rw [onSide_append, onSide_cons_of_ne (hr ▸ Ne.symm hs')] at hside
      rw [Book.side_setSide_of_ne hs',
        onSide_cons_of_ne (r := { r with order := o }) (ho ▸ Ne.symm hs')]
      exact hside

end Split

theorem mem_onSide {l : List Resting} {n : Nat} {x : Order}
    (hx : x ∈ (onSide ⟨l, n⟩ s).map (·.order)) : ∃ y ∈ l, y.order.side = s ∧ y.order = x := by
  obtain ⟨y, hy, rfl⟩ := List.mem_map.1 hx
  obtain ⟨hy, hys⟩ := List.mem_filter.1 hy
  exact ⟨y, hy, by simpa using hys, rfl⟩

/-- **The scan finds the front of the queue.** Taking it out of the flat list, or changing its
quantity there, does the same to the queue. -/
theorem bestIndex_front (h : Models B R) (hs : B.side s = a :: as) :
    ∃ l₁ l₂ r, R.resting = l₁ ++ r :: l₂ ∧ R.bestIndex s = some l₁.length ∧ r.order = a ∧
      Models (B.setSide s as) { R with resting := l₁ ++ l₂ } ∧
      ∀ q, Models (B.setSide s ({ a with quantity := q } :: as))
        { R with resting := l₁ ++ { r with order := { a with quantity := q } } :: l₂ } := by
  have hscan := scanned_bestIndex h.arrivals s
  have hside := h.side s
  obtain ⟨l, n⟩ := R
  simp only at hscan
  generalize bestIndex ⟨l, n⟩ s = best at hscan ⊢
  cases hscan with
  | none hnone =>
    have hmem : a ∈ ((onSide ⟨l, n⟩ s).map (·.order)) := by
      rw [← hside.mem_iff, hs]
      exact List.mem_cons_self
    obtain ⟨r, hr, hrs, -⟩ := mem_onSide hmem
    exact absurd hrs (hnone r hr)
  | @some l₁ l₂ r hr h₁ h₂ =>
    have hleft : ∀ x ∈ (onSide ⟨l₁, n⟩ s).map (·.order),
        s.rank r.order.price < s.rank x.price := by
      intro x hx
      obtain ⟨y, hy, hys, rfl⟩ := mem_onSide hx
      exact h₁ y hy hys
    have hright : ∀ x ∈ (onSide ⟨l₂, n⟩ s).map (·.order),
        s.rank r.order.price ≤ s.rank x.price := by
      intro x hx
      obtain ⟨y, hy, hys, rfl⟩ := mem_onSide hx
      exact h₂ y hy hys
    rw [onSide_append, onSide_cons_self hr] at hside
    obtain ⟨q', hq', hrest⟩ := hside.front hleft hright
    rw [hs] at hq'
    obtain ⟨rfl, rfl⟩ := List.cons.inj hq'
    rw [hs] at hside
    refine ⟨l₁, l₂, r, rfl, rfl, rfl, models_erase h hr hrest, fun q => ?_⟩
    exact models_replace h hr hr (hside.replace_front hleft rfl)

end Front

/-! ## The loop -/

theorem crosses_eq (taker maker : Order) :
    crosses taker maker = decide (Book.crosses taker maker.price) := by
  unfold crosses
  cases h : taker.side with
  | bid => simp only [MatchingEngine.crosses_bid h]
  | ask => simp only [MatchingEngine.crosses_ask h]

theorem matchLoop_done {m : Matching} (h : m.taker.quantity = 0) (fuel : Nat) :
    matchLoop fuel m = m := by
  cases fuel <;> simp [matchLoop, h]

theorem matchLoop_cons (o : Order) {B : Book} {R : ReferenceBook} (h : Models B R) (q : UInt64)
    (fills : List Fill) {a : Order} {as : List Order} (hm : B.side o.side.opposite = a :: as) :
    ∃ R', Models (B.setSide o.side.opposite
        (if a.quantity - min q a.quantity = 0 then as
          else { a with quantity := a.quantity - min q a.quantity } :: as)) R' ∧
      ∀ fuel, matchLoop (fuel + 1) ⟨R, { o with quantity := q }, fills, false⟩ =
        if q = 0 then ⟨R, { o with quantity := q }, fills, false⟩
        else if ¬ Book.crosses o a.price then ⟨R, { o with quantity := q }, fills, false⟩
        else if a.traderId = o.traderId then ⟨R, { o with quantity := q }, fills, true⟩
        else matchLoop fuel ⟨R', { o with quantity := q - min q a.quantity },
          fills ++ [Book.fill o a (min q a.quantity)], false⟩ := by
  obtain ⟨l₁, l₂, r, hl, hbest, rfl, hdrop, hset⟩ := bestIndex_front h hm
  have hget : R.resting[l₁.length]? = some r := by
    rw [hl]
    simp
  have herase : R.resting.eraseIdx l₁.length = l₁ ++ l₂ := by
    rw [hl]
    simp [List.eraseIdx_append_of_length_le]
  have hreplace : ∀ r', R.resting.set l₁.length r' = l₁ ++ r' :: l₂ := by
    intro r'
    rw [hl]
    simp
  have hfull : ∀ n : UInt64, decide (r.order.quantity = n) = decide (r.order.quantity - n = 0) := by
    intro n
    simp only [Book.sub_eq_zero_iff]
  have hcross : crosses { o with quantity := q } r.order =
      decide (Book.crosses o r.order.price) := crosses_eq _ _
  by_cases hrem : r.order.quantity - min q r.order.quantity = 0
  · rw [if_pos hrem]
    refine ⟨_, hdrop, ?_⟩
    intro fuel
    rw [matchLoop]
    simp only [hbest, hget, hcross, herase, hrem, hfull, if_true]
    split_ifs <;> simp_all [Book.fill]
  · rw [if_neg hrem]
    refine ⟨_, hset _, ?_⟩
    intro fuel
    rw [matchLoop]
    simp only [hbest, hget, hcross, hreplace, hrem, hfull, if_false]
    split_ifs <;> simp_all [Book.fill]

/-- **The loop of the reference is the sweep**, within as many iterations as there are makers. -/
theorem matchLoop_sim (o : Order) {B : Book} {R : ReferenceBook} (h : Models B R) (q : UInt64)
    (fills : List Fill) {makers : List Order} (hm : B.side o.side.opposite = makers) :
    ∃ m', (∀ fuel, makers.length ≤ fuel →
        matchLoop fuel ⟨R, { o with quantity := q }, fills, false⟩ = m') ∧
      Models (B.setSide o.side.opposite (Book.sweep o makers q).makers) m'.book ∧
      m'.taker = { o with quantity := (Book.sweep o makers q).left } ∧
      m'.fills = fills ++ (Book.sweep o makers q).fills ∧
      m'.selfTrade = (Book.sweep o makers q).selfTrade := by
  have hsame : ∀ {B : Book} {makers : List Order}, B.side o.side.opposite = makers →
      B.setSide o.side.opposite makers = B := by
    intro B makers hB
    rw [← hB]
    simp only [Book.setSide, Function.update_eq_self]
  induction makers generalizing B R q fills with
  | nil =>
    have hbest := bestIndex_none h hm
    refine ⟨⟨R, { o with quantity := q }, fills, false⟩, ?_, ?_, rfl,
      (List.append_nil fills).symm, rfl⟩
    · intro fuel _
      cases fuel <;> simp [matchLoop, hbest]
    · rw [Book.sweep, hsame hm]
      exact h
  | cons a as ih =>
    obtain ⟨R', hR', hstep⟩ := matchLoop_cons o h q fills hm
    rw [Book.sweep]
    by_cases hq : q = 0
    · simp only [if_pos hq] at hstep ⊢
      exact ⟨_, eq_of_iteration fun fuel _ => hstep fuel, by rw [hsame hm]; exact h, rfl, by simp,
        rfl⟩
    by_cases hcross : ¬ Book.crosses o a.price
    · simp only [if_neg hq, if_pos hcross] at hstep ⊢
      exact ⟨_, eq_of_iteration fun fuel _ => hstep fuel, by rw [hsame hm]; exact h, rfl, by simp,
        rfl⟩
    by_cases htrader : a.traderId = o.traderId
    · simp only [if_neg hq, if_neg hcross, if_pos htrader] at hstep ⊢
      exact ⟨_, eq_of_iteration fun fuel _ => hstep fuel, by rw [hsame hm]; exact h, rfl, by simp,
        rfl⟩
    simp only [if_neg hq, if_neg hcross, if_neg htrader] at hstep ⊢
    by_cases hrem : a.quantity - min q a.quantity = 0
    · rw [if_pos hrem] at hR' ⊢
      obtain ⟨m', hm', hbook, htaker, hfills, hst⟩ := ih hR' (q - min q a.quantity)
        (fills ++ [Book.fill o a (min q a.quantity)]) Book.side_setSide_self
      rw [MatchingEngine.setSide_setSide] at hbook
      refine ⟨m', eq_of_iteration fun fuel hfuel => (hstep fuel).trans (hm' fuel hfuel), hbook,
        htaker, ?_, hst⟩
      rw [hfills, List.append_assoc]
      rfl
    · have htaker := MatchingEngine.taker_exhausted hrem
      rw [if_neg hrem] at hR' ⊢
      exact ⟨_, eq_of_iteration fun fuel _ => (hstep fuel).trans (matchLoop_done htaker fuel),
        hR', rfl, rfl, rfl⟩

end ReferenceBook

/-! ## Operations -/

namespace Models

variable {B : Book} {R : ReferenceBook}

theorem perm (h : Models B R) : B.orders.Perm (R.resting.map (·.order)) := by
  have hsides : (R.onSide .ask ++ R.onSide .bid).Perm R.resting := by
    have hbid : R.onSide .bid = R.resting.filter fun r => !decide (r.order.side = .ask) := by
      refine List.filter_congr fun r _ => ?_
      cases r.order.side <;> rfl
    rw [hbid]
    exact List.filter_append_perm _ _
  have := hsides.map (·.order)
  rw [List.map_append] at this
  exact ((h.side .ask).perm.append (h.side .bid).perm).trans this

theorem empty (c : Nat) : Models (Book.empty c) ReferenceBook.default :=
  ⟨List.Pairwise.nil, by simp [ReferenceBook.default], fun _ => Arranges.nil⟩

theorem push (h : Models B R) (o : Order) :
    Models (B.setSide o.side (enqueue (o.side.rank ·.price) o (B.side o.side)))
      ⟨R.resting ++ [⟨o, R.nextSeq⟩], R.nextSeq + 1⟩ := by
  refine ⟨?_, ?_, ?_⟩
  · refine List.pairwise_append.2 ⟨h.arrivals, List.pairwise_singleton _ _, ?_⟩
    intro r hr r' hr'
    rw [List.mem_singleton.1 hr']
    exact h.next r hr
  · intro r hr
    rcases List.mem_append.1 hr with hr | hr
    · exact Nat.lt_succ_of_lt (h.next r hr)
    · rw [List.mem_singleton.1 hr]
      exact Nat.lt_succ_self _
  · intro s
    have hR : (ReferenceBook.onSide ⟨R.resting, R.nextSeq + 1⟩ s) = R.onSide s := rfl
    rw [ReferenceBook.onSide_append, hR]
    by_cases hs : s = o.side
    · subst hs
      rw [Book.side_setSide_self, ReferenceBook.onSide_cons_self rfl]
      exact (h.side o.side).append o
    · rw [Book.side_setSide_of_ne hs, ReferenceBook.onSide_cons_of_ne (Ne.symm hs)]
      have hnil : (ReferenceBook.onSide ⟨[], R.nextSeq + 1⟩ s).map (·.order) = [] := rfl
      rw [hnil, List.append_nil]
      exact h.side s

theorem erase (h : Models B R) (id : UInt64) :
    Models ⟨B.capacity, fun s => (B.side s).filter (·.id ≠ id)⟩
      { R with resting := R.resting.filter (·.order.id ≠ id) } := by
  refine ⟨h.arrivals.sublist List.filter_sublist, ?_, ?_⟩
  · intro r hr
    exact h.next r (List.mem_filter.1 hr).1
  · intro s
    have := (h.side s).filter (fun o => decide (o.id ≠ id))
    have hcomm : ReferenceBook.onSide ⟨R.resting.filter (·.order.id ≠ id), R.nextSeq⟩ s =
        (R.onSide s).filter (·.order.id ≠ id) := by
      simp only [ReferenceBook.onSide]
      exact List.filter_comm _ _ _
    rw [List.filter_map] at this
    rw [hcomm]
    exact this

end Models

namespace ReferenceBook

variable {B : Book} {R : ReferenceBook}

/-- **The reference adds an order as the price-time book does**, when that one accepts it. -/
theorem add_sim (h : Models B R) (o : Order) (hq : o.quantity ≠ 0)
    (hid : o.id ∉ B.orders.map (·.id)) (hroom : B.orders.length < B.capacity) :
    Models (B.add o).1 (R.add o).1 ∧
      (B.add o).2 = .ok ⟨o.id, (R.add o).2.1, (R.add o).2.2⟩ := by
  obtain ⟨m, hm, hbook, htaker, hfills, hst⟩ := matchLoop_sim o h o.quantity [] rfl
  have hlen : (B.side o.side.opposite).length ≤ R.resting.length + 1 := by
    have h₁ := h.perm.length_eq
    rw [List.length_map, Book.orders, List.length_append] at h₁
    cases o.side <;> simp only [Side.opposite] <;> omega
  have hloop := hm _ hlen
  have hafter := B.afterSweep_room o
  rw [List.nil_append] at hfills
  unfold add Book.add
  have ho : (⟨R, { o with quantity := o.quantity }, [], false⟩ : Matching) = ⟨R, o, [], false⟩ := rfl
  rw [ho] at hloop
  have hquantity : m.taker.quantity = (B.swept o).left := by rw [htaker]; rfl
  have hst' : m.selfTrade = (B.swept o).selfTrade := hst
  have hfills' : m.fills = (B.swept o).fills := hfills
  have hins : (B.afterSweep o).insert (B.remainder o) =
      ((B.afterSweep o).setSide o.side (enqueue (o.side.rank ·.price) (B.remainder o)
        ((B.afterSweep o).side o.side)), .ok ()) := by
    rw [Book.insert, if_neg, if_neg]
    · rfl
    · rw [not_le]
      exact lt_of_le_of_lt hafter.2 hroom
    · exact fun hmem => hid (hafter.1 hmem)
  simp only [hloop, hq, if_false, hst', hquantity, hfills', hins]
  split_ifs
  · exact ⟨hbook, rfl⟩
  · exact ⟨hbook, rfl⟩
  all_goals
    refine ⟨?_, rfl⟩
    have := hbook.push (B.remainder o)
    rw [htaker]
    exact this

/-- The position of an id splits the list at the one order that has it. -/
theorem eraseIdx_eq_filter {l : List Resting} (hnd : (l.map (·.order.id)).Nodup) {i : Nat}
    {id : UInt64} (hi : l.findIdx? (·.order.id = id) = some i) :
    ∃ r, l[i]? = some r ∧ r ∈ l ∧ r.order.id = id ∧
      l.eraseIdx i = l.filter (·.order.id ≠ id) := by
  obtain ⟨hlt, hid, -⟩ := List.findIdx?_eq_some_iff_getElem.1 hi
  have hid' : l[i].order.id = id := by simpa using hid
  refine ⟨l[i], List.getElem?_eq_getElem hlt, List.getElem_mem hlt, hid', ?_⟩
  have hsplit : l = l.take i ++ l[i] :: l.drop (i + 1) := by
    rw [← List.drop_eq_getElem_cons hlt, List.take_append_drop]
  have hkeep : ∀ x ∈ l.take i ++ l.drop (i + 1), x.order.id ≠ id := by
    rw [hsplit, List.map_append, List.map_cons, List.nodup_middle, List.nodup_cons,
      ← List.map_append, hid'] at hnd
    intro x hx he
    exact hnd.1 (List.mem_map.2 ⟨x, hx, he⟩)
  rw [List.eraseIdx_eq_take_drop_succ]
  conv_rhs => rw [hsplit]
  rw [List.filter_append, List.filter_cons_of_neg (by simpa using hid'), ← List.filter_append]
  exact (List.filter_eq_self.2 fun x hx => by simpa using hkeep x hx).symm

/-- **The reference cancels an order as the price-time book does.** -/
theorem cancel_sim (h : Models B R) (hB : B.WF) (id : UInt64) :
    Models (B.cancel id).1 (R.cancel id).1 ∧
      (B.cancel id).2 = match (R.cancel id).2 with
        | some o => .ok o
        | none => .error (.orderNotFound id) := by
  have hnd : (R.resting.map (·.order.id)).Nodup := by
    have := (h.perm.map (·.id)).nodup_iff.1 hB.nodup
    rwa [List.map_map] at this
  unfold cancel
  cases hi : R.resting.findIdx? (·.order.id = id) with
  | none =>
    have hnone := List.findIdx?_eq_none_iff.1 hi
    rcases Book.cancel_cases B id with ⟨-, hc⟩ | ⟨x, hx, hxid, -⟩
    · rw [hc]
      exact ⟨h, rfl⟩
    · obtain ⟨r, hr, rfl⟩ := List.mem_map.1 (h.perm.mem_iff.1 hx)
      have := hnone r hr
      simp [hxid] at this
  | some i =>
    obtain ⟨r, hget, hr, hrid, herase⟩ := eraseIdx_eq_filter hnd hi
    have hmem : r.order ∈ B.orders := h.perm.mem_iff.2 (List.mem_map_of_mem hr)
    rcases Book.cancel_cases B id with ⟨hno, -⟩ | ⟨x, hx, hxid, hc⟩
    · exact absurd hrid (hno _ hmem)
    · have hxr : x = r.order :=
        List.inj_on_of_nodup_map hB.nodup hx hmem (hxid.trans hrid.symm)
      simp only [hc, hget, herase, hxr, Option.map_some, and_true]
      exact h.erase id

/-! ## Observations -/

theorem keyLE_iff {s : Side} {r r' : Resting} :
    keyLE s r r' ↔ s.rank r.order.price < s.rank r'.order.price ∨
      r.order.price = r'.order.price ∧ r.seq ≤ r'.seq := by
  cases s with
  | ask => rw [Side.rank_ask_lt]; rfl
  | bid => rw [Side.rank_bid_lt]; rfl

theorem pairwise_sort (s : Side) (l : List Resting) :
    (l.insertionSort (keyLE s)).Pairwise (keyLE s) := by
  have htotal : Std.Total (keyLE s) := by
    refine ⟨fun r r' => ?_⟩
    rw [keyLE_iff, keyLE_iff]
    rcases lt_trichotomy (s.rank r.order.price) (s.rank r'.order.price) with h | h | h
    · exact Or.inl (Or.inl h)
    · have hp := Side.rank_inj.1 h
      rcases Nat.le_total r.seq r'.seq with hle | hle
      · exact Or.inl (Or.inr ⟨hp, hle⟩)
      · exact Or.inr (Or.inr ⟨hp.symm, hle⟩)
    · exact Or.inr (Or.inl h)
  have htrans : IsTrans Resting (keyLE s) := by
    refine ⟨fun a b c hab hbc => ?_⟩
    rw [keyLE_iff] at hab hbc ⊢
    rcases hab with hab | ⟨hab, hab'⟩
    · rcases hbc with hbc | ⟨hbc, -⟩
      · exact Or.inl (hab.trans hbc)
      · exact Or.inl (hbc ▸ hab)
    · rcases hbc with hbc | ⟨hbc, hbc'⟩
      · exact Or.inl (hab ▸ hbc)
      · exact Or.inr ⟨hab.trans hbc, hab'.trans hbc'⟩
  exact List.pairwise_insertionSort _ l

theorem arranges_sort (s : Side) {l : List Resting} (h : l.Pairwise fun r r' => r.seq < r'.seq) :
    Arranges (s.rank ·.price) ((l.insertionSort (keyLE s)).map (·.order)) (l.map (·.order)) := by
  refine ⟨?_, fun k => ?_⟩
  · refine List.pairwise_map.2 ((pairwise_sort s l).imp ?_)
    intro r r' hr
    rcases keyLE_iff.1 hr with hlt | ⟨heq, -⟩
    · exact hlt.le
    · exact le_of_eq (congrArg s.rank heq)
  · unfold atRank
    rw [List.filter_map, List.filter_map]
    refine congrArg _ (List.Sublist.eq_of_length ?_ ?_).symm
    · -- the arrivals of one price are already in key order, so the sort keeps them
      have hpair : (l.filter ((fun a : Order => decide (s.rank a.price = k)) ∘ (·.order))).Pairwise
          (keyLE s) := by
        refine (h.sublist List.filter_sublist).imp_of_mem ?_
        intro r r' hr hr' hlt
        have hr := (List.mem_filter.1 hr).2
        have hr' := (List.mem_filter.1 hr').2
        simp only [Function.comp_apply, decide_eq_true_eq] at hr hr'
        exact keyLE_iff.2 (Or.inr ⟨Side.rank_inj.1 (hr.trans hr'.symm), hlt.le⟩)
      have := (List.sublist_insertionSort hpair List.filter_sublist).filter
        ((fun a : Order => decide (s.rank a.price = k)) ∘ (·.order))
      simpa only [List.filter_filter, Bool.and_self] using this
    · exact ((List.perm_insertionSort (keyLE s) l).filter _).length_eq.symm

theorem canonical_sim (h : Models B R) : R.canonical = B.orders := by
  have hside : ∀ s, ((R.onSide s).insertionSort (keyLE s)).map (·.order) = B.side s := by
    intro s
    have harr : (R.onSide s).Pairwise fun r r' => r.seq < r'.seq :=
      h.arrivals.sublist List.filter_sublist
    exact (arranges_sort s harr).eq (h.side s)
  rw [canonical, List.map_append, hside, hside]
  rfl

theorem orderCount_sim (h : Models B R) : R.resting.length = B.orders.length := by
  rw [h.perm.length_eq, List.length_map]

theorem mem_prices (h : Models B R) {s : Side} {p : Int64} :
    p ∈ (R.onSide s).map (·.order.price) ↔ p ∈ (B.side s).map (·.price) := by
  have := ((h.side s).perm.map (·.price)).mem_iff (a := p)
  rw [List.map_map] at this
  exact this.symm

theorem best_cases (h : Models B R) (s : Side) :
    ((R.onSide s).map (·.order.price) = [] ∧ B.best s = none) ∨
      ∃ p ∈ (R.onSide s).map (·.order.price), B.best s = some p ∧
        ∀ p' ∈ (R.onSide s).map (·.order.price), s.rank p ≤ s.rank p' := by
  have hsorted := (h.side s).sorted
  unfold Book.best
  cases hB : B.side s with
  | nil =>
    left
    refine ⟨List.eq_nil_iff_forall_not_mem.2 fun p hp => ?_, rfl⟩
    rw [mem_prices h, hB] at hp
    simp at hp
  | cons a as =>
    right
    rw [hB] at hsorted
    refine ⟨a.price, ?_, rfl, ?_⟩
    · rw [mem_prices h, hB]
      exact List.mem_cons_self
    · intro p hp
      rw [mem_prices h, hB] at hp
      rcases List.mem_cons.1 hp with rfl | hp
      · exact le_rfl
      · obtain ⟨x, hx, rfl⟩ := List.mem_map.1 hp
        exact (List.pairwise_cons.1 hsorted).1 x hx

theorem bestBid_sim (h : Models B R) : R.bestBid = B.best .bid := by
  unfold bestBid
  rcases best_cases h .bid with ⟨hnil, hbest⟩ | ⟨p, hp, hbest, hle⟩
  · rw [hnil, hbest]
    rfl
  · rw [hbest]
    refine List.max?_eq_some_iff.2 ⟨hp, ?_⟩
    intro p' hp'
    exact not_lt.1 fun hlt => not_lt.2 (hle p' hp') (Side.rank_bid_lt.2 hlt)

theorem bestAsk_sim (h : Models B R) : R.bestAsk = B.best .ask := by
  unfold bestAsk
  rcases best_cases h .ask with ⟨hnil, hbest⟩ | ⟨p, hp, hbest, hle⟩
  · rw [hnil, hbest]
    rfl
  · rw [hbest]
    refine List.min?_eq_some_iff.2 ⟨hp, ?_⟩
    intro p' hp'
    exact not_lt.1 fun hlt => not_lt.2 (hle p' hp') (Side.rank_ask_lt.2 hlt)

end ReferenceBook

/-! ## Agreement -/

theorem observe_eq {e : MatchingEngine} {R : ReferenceBook} (he : e.book.WF)
    (h : Models e.book.toBook R) (outcome : Outcome) : e.observe outcome = R.observe outcome := by
  have hbid : e.book.bestBid = e.book.toBook.best .bid := OrderBook.bestPrice_sim he .bid
  have hask : e.book.bestAsk = e.book.toBook.best .ask := OrderBook.bestPrice_sim he .ask
  have hcount : e.book.orderCount = e.book.toBook.orders.length := by
    obtain ⟨free, queue, hrep⟩ := he
    exact (OrderBook.length_allRestingOrders hrep).symm
  unfold MatchingEngine.observe ReferenceBook.observe
  rw [hbid, hask, hcount, ReferenceBook.bestBid_sim h, ReferenceBook.bestAsk_sim h,
    ReferenceBook.orderCount_sim h, ReferenceBook.canonical_sim h]
  rfl

theorem apply_sim {c : UInt32} {e : MatchingEngine} {R : ReferenceBook} (he : e.book.WF)
    (hc : e.book.toBook.capacity = c.toNat) (h : Models e.book.toBook R) {op : Op} {ops : List Op}
    (hop : e.Admissible c (op :: ops)) :
    (e.apply op).1.book.WF ∧ (e.apply op).1.book.toBook.capacity = c.toNat ∧
      Models (e.apply op).1.book.toBook (R.apply op).1 ∧ (e.apply op).2 = (R.apply op).2 := by
  cases op with
  | add o =>
    obtain ⟨⟨hq, hid, hroom⟩, -⟩ := hop
    obtain ⟨hwf, hbook, hres⟩ := MatchingEngine.addOrder_sim he o
    have hid' : o.id ∉ e.book.toBook.orders.map (·.id) := by
      intro hmem
      obtain ⟨x, hx, hxid⟩ := List.mem_map.1 hmem
      exact hid x hx hxid
    have hroom' : e.book.toBook.orders.length < e.book.toBook.capacity := by
      obtain ⟨free, queue, hrep⟩ := he
      rw [hc]
      exact OrderBook.length_allRestingOrders hrep ▸ hroom
    obtain ⟨hmodels, hok⟩ :=
      ReferenceBook.add_sim h o (UInt64.pos_iff_ne_zero.1 hq) hid' hroom'
    have hcap := Book.capacity_add e.book.toBook o
    rw [← hbook] at hmodels hcap
    rw [hok] at hres
    simp only [MatchingEngine.apply, ReferenceBook.apply]
    generalize e.addOrder o = r at hwf hmodels hcap hres
    obtain ⟨e', res⟩ := r
    subst hres
    exact ⟨hwf, hcap.trans hc, hmodels, rfl⟩
  | cancel id =>
    obtain ⟨hwf, hbook, hres⟩ := MatchingEngine.cancelOrder_sim he id
    obtain ⟨hmodels, hok⟩ := ReferenceBook.cancel_sim h he.wf_toBook id
    have hcap := Book.capacity_cancel e.book.toBook id
    rw [← hbook] at hmodels hcap
    rw [hok] at hres
    simp only [MatchingEngine.apply, ReferenceBook.apply]
    generalize e.cancelOrder id = r at hwf hmodels hcap hres
    generalize R.cancel id = r' at hmodels hres
    obtain ⟨e', res⟩ := r
    obtain ⟨R', found⟩ := r'
    subst hres
    cases found with
    | none => exact ⟨hwf, hcap.trans hc, hmodels, rfl⟩
    | some o => exact ⟨hwf, hcap.trans hc, hmodels, rfl⟩

theorem trace_eq {c : UInt32} {e : MatchingEngine} {R : ReferenceBook} (he : e.book.WF)
    (hc : e.book.toBook.capacity = c.toNat) (h : Models e.book.toBook R) {ops : List Op}
    (hops : e.Admissible c ops) : e.trace ops = R.trace ops := by
  induction ops generalizing e R with
  | nil => rfl
  | cons op ops ih =>
    obtain ⟨hwf, hcap, hmodels, hout⟩ := apply_sim he hc h hops
    rw [MatchingEngine.trace, ReferenceBook.trace, hout, observe_eq hwf hmodels,
      ih hwf hcap hmodels hops.2]

/-- **The engine and the reference book agree after every operation** of every admissible sequence:
on what the operation returns, on the best prices, on the number of resting orders and on the
resting orders themselves, in order. -/
theorem engine_matches_reference_model (c : UInt32) (ops : List Op)
    (h : (MatchingEngine.withCapacity c).Admissible c ops) :
    (MatchingEngine.withCapacity c).trace ops = ReferenceBook.default.trace ops := by
  obtain ⟨hwf, hbook⟩ := MatchingEngine.withCapacity_sim c
  apply trace_eq hwf _ _ h
  · rw [hbook]
    rfl
  · rw [hbook]
    exact Models.empty _

/-- Two asks at one price, a bid that takes the first and part of the second, an order under the id
that became free, and a cancellation. -/
theorem engine_matches_reference_model_sweep :
    (MatchingEngine.withCapacity 3).trace
        [.add ⟨1, 10, .ask, 100, 5, 1⟩, .add ⟨2, 11, .ask, 100, 5, 2⟩,
          .add ⟨3, 12, .bid, 101, 7, 3⟩, .add ⟨1, 12, .ask, 99, 1, 4⟩, .cancel 2, .cancel 2] =
      ReferenceBook.default.trace
        [.add ⟨1, 10, .ask, 100, 5, 1⟩, .add ⟨2, 11, .ask, 100, 5, 2⟩,
          .add ⟨3, 12, .bid, 101, 7, 3⟩, .add ⟨1, 12, .ask, 99, 1, 4⟩, .cancel 2, .cancel 2] := by
  apply engine_matches_reference_model
  simp only [MatchingEngine.Admissible]
  decide

end Ferrox
