import Ferrox.BookProof

/-!
# The resting orders of a book

`restingOn b s` is what `all_resting_orders` collects on one side, and `toBook` reads a book as a
price-time book. For a well-formed book (`WF`) every operation of `OrderBook` is the operation of
the same name in `Ferrox.PriceTime`:

* `insertOrder_sim` and `cancelOrder_sim`, with their errors;
* `peekFront_sim` and `reduceFrontQuantity_sim`, the two steps of the matching loop.

A side is recovered from its levels price by price (`restingOn_ext`), so each proof only says what
happens at every single price.
-/

namespace Ferrox

open Linked Ranked

namespace OrderBook

/-- The orders of a side as `all_resting_orders` lists them. -/
def restingOn (b : OrderBook) : Side → List Order
  | .ask => b.asks.values.flatMap b.levelOrders
  | .bid => b.bids.values.reverse.flatMap b.levelOrders

theorem allRestingOrders_eq (b : OrderBook) :
    b.allRestingOrders = b.restingOn .ask ++ b.restingOn .bid := rfl

/-- The price-time book a book stands for. -/
def toBook (b : OrderBook) : Book := ⟨b.arena.capacity.toNat, b.restingOn⟩

theorem orders_toBook (b : OrderBook) : b.toBook.orders = b.allRestingOrders := rfl

/-- The book represents some lists of slots. -/
def WF (b : OrderBook) : Prop := ∃ free queue, Rep b free queue

/-! ## Reading the levels -/

/-- **The traversal loop stops** at the end of the list it walks, for any bound on its iterations
that the list fits in. -/
theorem walk_eq {a : Arena} {h : UInt32} {l : List UInt32} {fuel : Nat}
    (hc : Chain a.nextOf arenaNull h l) (hl : l.length ≤ fuel) :
    walk a fuel h = l.map a.orderOf := by
  induction l generalizing h fuel with
  | nil =>
    have hh : h = arenaNull := hc
    cases fuel <;> simp [walk, hh]
  | cons i l ih =>
    obtain ⟨rfl, hi, hc⟩ := hc
    cases fuel with
    | zero => simp at hl
    | succ fuel =>
      rw [walk, if_neg hi, List.map_cons]
      exact congrArg (_ :: ·) (ih hc (by simpa using hl))

section Reading

variable {b : OrderBook} {free : List UInt32} {queue : Side → Int64 → List UInt32}
variable {s : Side} {p : Int64}

theorem levelOrders_eq (h : Rep b free queue) {lv : PriceLevel}
    (hl : (b.levels s).get? p = some lv) :
    b.levelOrders lv = (queue s p).map b.arena.orderOf :=
  walk_eq (h.level s p lv hl).links.fwd
    (length_le_of_slots (h.queue_nodup s p) fun _ hi => h.inPool_queue hi)

theorem flatMap_values (h : Rep b free queue) (s : Side) (ks : List Int64)
    (hks : ∀ p ∈ ks, p ∈ (b.levels s).keys) :
    (ks.filterMap (b.levels s).get?).flatMap b.levelOrders =
      ks.flatMap fun p => (queue s p).map b.arena.orderOf := by
  induction ks with
  | nil => rfl
  | cons p ks ih =>
    obtain ⟨lv, hl⟩ := (b.levels s).mem_keys_iff.1 (hks p List.mem_cons_self)
    rw [List.filterMap_cons, hl, List.flatMap_cons, List.flatMap_cons, levelOrders_eq h hl,
      ih fun p' hp' => hks p' (List.mem_cons_of_mem _ hp')]

/-- A side is its prices in order of priority, each with its queue. -/
theorem restingOn_eq (h : Rep b free queue) (s : Side) :
    b.restingOn s = (prices s (b.levels s)).flatMap fun p => (queue s p).map b.arena.orderOf := by
  have hv := flatMap_values h s (prices s (b.levels s)) fun p hp => mem_prices.1 hp
  rw [← hv]
  cases s with
  | ask => rw [restingOn, OrdMap.values_eq]; rfl
  | bid =>
    rw [restingOn, OrdMap.values_eq, ← List.filterMap_reverse]
    rfl

theorem rank_queue (h : Rep b free queue) :
    ∀ o ∈ (queue s p).map b.arena.orderOf, s.rank o.price = s.rank p := by
  intro o ho
  obtain ⟨i, hi, rfl⟩ := List.mem_map.1 ho
  rw [(h.node s p i hi).2]

theorem restingOn_sorted (h : Rep b free queue) (s : Side) :
    Sorted (s.rank ·.price) (b.restingOn s) := by
  rw [restingOn_eq h]
  exact sorted_flatMap (prices_sorted s _) fun p _ => rank_queue h

theorem restingOn_filter (h : Rep b free queue) (s : Side) (p : Int64) :
    (b.restingOn s).filter (·.price = p) = (queue s p).map b.arena.orderOf := by
  have hrank : (b.restingOn s).filter (·.price = p) =
      atRank (s.rank ·.price) (s.rank p) (b.restingOn s) :=
    List.filter_congr fun o _ => by simp
  rw [hrank, restingOn_eq h]
  by_cases hp : p ∈ prices s (b.levels s)
  · exact filter_flatMap (prices_sorted s _) (fun _ _ => rank_queue h) hp
  · have hnil : queue s p = [] := by
      rw [h.nonempty, OrdMap.get?_eq_none_iff]
      exact fun hk => hp (mem_prices.2 hk)
    rw [hnil, List.map_nil]
    refine filter_flatMap_of_notMem (f := s.rank) (fun _ _ => rank_queue h) ?_
    rintro p' hp' e
    exact hp (Side.rank_inj.1 e ▸ hp')

/-- **A side is determined price by price.** -/
theorem restingOn_ext (h : Rep b free queue) {l : List Order} (hl : Sorted (s.rank ·.price) l)
    (hp : ∀ p, l.filter (·.price = p) = (queue s p).map b.arena.orderOf) : b.restingOn s = l := by
  refine eq_of_filter_eq (restingOn_sorted h s) hl fun k => ?_
  by_cases hk : ∃ p, s.rank p = k
  · obtain ⟨p, rfl⟩ := hk
    have hfilter : ∀ l : List Order,
        atRank (s.rank ·.price) (s.rank p) l = l.filter (·.price = p) :=
      fun l => List.filter_congr fun o _ => by simp
    rw [hfilter, hfilter, hp, restingOn_filter h]
  · -- no price has this rank, so neither list has anything there
    have hnone : ∀ l : List Order, atRank (s.rank ·.price) k l = [] := fun l =>
      List.filter_eq_nil_iff.2 fun o _ => by simpa using fun e => hk ⟨o.price, e⟩
    rw [hnone, hnone]

theorem mem_restingOn (h : Rep b free queue) {o : Order} :
    o ∈ b.restingOn s ↔ ∃ p, ∃ i ∈ queue s p, b.arena.orderOf i = o := by
  rw [restingOn_eq h, List.mem_flatMap]
  constructor
  · rintro ⟨p, -, ho⟩
    obtain ⟨i, hi, rfl⟩ := List.mem_map.1 ho
    exact ⟨p, i, hi, rfl⟩
  · rintro ⟨p, i, hi, rfl⟩
    refine ⟨p, mem_prices.2 ?_, List.mem_map.2 ⟨i, hi, rfl⟩⟩
    obtain ⟨lv, hl, -⟩ := h.exists_level hi
    exact (b.levels s).mem_keys_iff.2 ⟨lv, hl⟩

theorem mem_allRestingOrders (h : Rep b free queue) {o : Order} :
    o ∈ b.allRestingOrders ↔ ∃ s p, ∃ i ∈ queue s p, b.arena.orderOf i = o := by
  rw [allRestingOrders_eq, List.mem_append, mem_restingOn h, mem_restingOn h]
  constructor
  · rintro (ho | ho)
    · exact ⟨_, ho⟩
    · exact ⟨_, ho⟩
  · rintro ⟨s, ho⟩
    cases s with
    | ask => exact Or.inl ho
    | bid => exact Or.inr ho

/-- **The index holds exactly the ids of the resting orders.** -/
theorem mem_orderIndex_iff (h : Rep b free queue) {id : UInt64} :
    id ∈ b.orderIndex ↔ id ∈ b.allRestingOrders.map (·.id) := by
  rw [List.mem_map]
  constructor
  · intro hid
    obtain ⟨i, hi⟩ := Option.isSome_iff_exists.1 (AList.lookup_isSome.2 hid)
    obtain ⟨⟨s, p, hq⟩, rfl⟩ := (h.index id i).1 hi
    exact ⟨_, (mem_allRestingOrders h).2 ⟨s, p, i, hq, rfl⟩, rfl⟩
  · rintro ⟨o, ho, rfl⟩
    obtain ⟨s, p, i, hq, rfl⟩ := (mem_allRestingOrders h).1 ho
    rw [← AList.lookup_isSome, (h.index _ i).2 ⟨⟨s, p, hq⟩, rfl⟩]
    rfl

/-- The slots in use on a side, in order of priority. -/
def listed (b : OrderBook) (queue : Side → Int64 → List UInt32) (s : Side) : List UInt32 :=
  (prices s (b.levels s)).flatMap (queue s)

theorem restingOn_eq_listed (h : Rep b free queue) (s : Side) :
    b.restingOn s = (listed b queue s).map b.arena.orderOf := by
  rw [restingOn_eq h, listed, List.map_flatMap]

theorem mem_listed (h : Rep b free queue) {i : UInt32} :
    i ∈ listed b queue s ↔ ∃ p, i ∈ queue s p := by
  rw [listed, List.mem_flatMap]
  constructor
  · rintro ⟨p, -, hi⟩
    exact ⟨p, hi⟩
  · rintro ⟨p, hi⟩
    obtain ⟨lv, hl, -⟩ := h.exists_level hi
    exact ⟨p, mem_prices.2 ((b.levels s).mem_keys_iff.2 ⟨lv, hl⟩), hi⟩

theorem listed_nodup (h : Rep b free queue) (s : Side) : (listed b queue s).Nodup := by
  refine List.nodup_flatMap.2 ⟨fun p _ => h.queue_nodup s p, ?_⟩
  refine (prices_sorted s (b.levels s)).imp ?_
  intro p p' hlt i hi hi'
  have heq := (h.queue_unique hi hi').2
  rw [heq] at hlt
  exact lt_irrefl _ hlt

theorem listed_append_nodup (h : Rep b free queue) :
    (listed b queue .ask ++ listed b queue .bid).Nodup := by
  refine List.nodup_append.2 ⟨listed_nodup h .ask, listed_nodup h .bid, ?_⟩
  rintro i hi j hj rfl
  obtain ⟨p, hp⟩ := (mem_listed h).1 hi
  obtain ⟨q, hq⟩ := (mem_listed h).1 hj
  exact absurd (h.queue_unique hp hq).1 (by decide)

theorem mem_listed_append (h : Rep b free queue) {i : UInt32} :
    i ∈ listed b queue .ask ++ listed b queue .bid ↔ ∃ s p, i ∈ queue s p := by
  rw [List.mem_append, mem_listed h, mem_listed h]
  constructor
  · rintro (hi | hi)
    · exact ⟨_, hi⟩
    · exact ⟨_, hi⟩
  · rintro ⟨s, hi⟩
    cases s with
    | ask => exact Or.inl hi
    | bid => exact Or.inr hi

theorem allRestingOrders_eq_listed (h : Rep b free queue) :
    b.allRestingOrders =
      (listed b queue .ask ++ listed b queue .bid).map b.arena.orderOf := by
  rw [allRestingOrders_eq, restingOn_eq_listed h, restingOn_eq_listed h, List.map_append]

theorem length_listed (h : Rep b free queue) :
    free.length + (listed b queue .ask ++ listed b queue .bid).length =
      b.arena.capacity.toNat := by
  rw [← List.length_append]
  refine length_eq_of_slots (List.nodup_append.2 ⟨h.freeList.chain.nodup,
    listed_append_nodup h, ?_⟩) ?_
  · rintro i hi j hj rfl
    obtain ⟨s, p, hq⟩ := (mem_listed_append h).1 hj
    exact h.disjoint i hi s p hq
  · intro i
    rw [h.slots i, List.mem_append, mem_listed_append h]

/-- **The order count counts the resting orders.** -/
theorem length_allRestingOrders (h : Rep b free queue) :
    b.allRestingOrders.length = b.orderCount := by
  have h₁ := length_listed h
  have h₂ := h.freeList.count
  rw [allRestingOrders_eq_listed h, List.length_map, h.indexCount]
  omega

/-- **No two resting orders share an id.** -/
theorem nodup_ids (h : Rep b free queue) : (b.allRestingOrders.map (·.id)).Nodup := by
  rw [allRestingOrders_eq_listed h, List.map_map]
  refine List.Nodup.map_on ?_ (listed_append_nodup h)
  intro i hi j hj e
  obtain ⟨s, p, hp⟩ := (mem_listed_append h).1 hi
  obtain ⟨s', p', hp'⟩ := (mem_listed_append h).1 hj
  exact h.id_injective hp hp' e

theorem free_eq_nil_iff (h : Rep b free queue) :
    free = [] ↔ b.toBook.capacity ≤ b.toBook.orders.length := by
  have h₁ := length_listed h
  rw [orders_toBook, allRestingOrders_eq_listed h, List.length_map]
  show _ ↔ b.arena.capacity.toNat ≤ _
  cases free with
  | nil =>
    simp only [List.length_nil, Nat.zero_add] at h₁
    simp [h₁]
  | cons i free =>
    simp only [List.length_cons] at h₁
    exact iff_of_false (by simp) (by omega)

end Reading

/-! ## Inserting and cancelling -/

section Operations

variable {b b' : OrderBook} {o : Order} {s : Side}

theorem toBook_ext (hcap : b'.arena.capacity = b.arena.capacity) {f : Side → List Order}
    (hs : ∀ s, b'.restingOn s = f s) : b'.toBook = ⟨b.arena.capacity.toNat, f⟩ := by
  simp only [toBook, hcap, Book.mk.injEq, true_and]
  funext s
  exact hs s

theorem toBook_linked {free : List UInt32} {queue : Side → Int64 → List UInt32} {i : UInt32}
    (h : Rep b (i :: free) queue) (hid : o.id ∉ b.orderIndex) :
    (linked b o i).toBook =
      b.toBook.setSide o.side (enqueue (o.side.rank ·.price) o (b.restingOn o.side)) := by
  have hrep := rep_linked h hid
  obtain ⟨hsame, hord, -⟩ := views_linked (o := o) h
  have hmap : ∀ s p, (queue s p).map (linked b o i).arena.orderOf =
      (queue s p).map b.arena.orderOf := by
    intro s p
    refine List.map_congr_left fun j hj => ?_
    have hji : j ≠ i := by
      rintro rfl
      exact h.disjoint j List.mem_cons_self s p hj
    rw [hord, Function.update_of_ne hji]
  refine toBook_ext hsame.capacity fun s => ?_
  by_cases hs : s = o.side
  · subst hs
    have hsorted := restingOn_sorted h o.side
    show _ = Function.update b.restingOn o.side _ o.side
    rw [Function.update_self]
    refine restingOn_ext hrep (sorted_enqueue hsorted) fun p => ?_
    have hfilter := filter_enqueue (a := o) hsorted (o.side.rank p)
    simp only [atRank, Side.rank_inj] at hfilter
    rw [hfilter, restingOn_filter h]
    by_cases hp : o.price = p
    · subst hp
      rw [if_pos rfl, setQueue_self, List.map_append, hmap, List.map_singleton, hord,
        Function.update_self]
    · rw [if_neg hp, setQueue_of_ne (fun hc => hp hc.2.symm), hmap]
  · show _ = Function.update b.restingOn o.side _ s
    rw [Function.update_of_ne hs]
    refine restingOn_ext hrep (restingOn_sorted h s) fun p => ?_
    rw [restingOn_filter h, setQueue_of_ne (fun hc => hs hc.1), hmap]

/-- **Inserting an order** is inserting it into the price-time book, errors included. -/
theorem insertOrder_sim (h : b.WF) (o : Order) :
    (b.insertOrder o).1.WF ∧ (b.insertOrder o).1.toBook = (b.toBook.insert o).1 ∧
      (b.insertOrder o).2 = (b.toBook.insert o).2 := by
  obtain ⟨free, queue, hrep⟩ := h
  unfold Book.insert
  by_cases hid : o.id ∈ b.orderIndex
  · rw [insertOrder_duplicate hid, orders_toBook, if_pos ((mem_orderIndex_iff hrep).1 hid)]
    exact ⟨⟨free, queue, hrep⟩, rfl, rfl⟩
  · have hid' : o.id ∉ b.toBook.orders.map (·.id) := fun hm => hid ((mem_orderIndex_iff hrep).2 hm)
    rw [if_neg hid']
    cases free with
    | nil =>
      rw [insertOrder_full hrep hid, if_pos ((free_eq_nil_iff hrep).1 rfl)]
      exact ⟨⟨[], queue, hrep⟩, rfl, rfl⟩
    | cons i free =>
      rw [insertOrder_ok hrep hid, if_neg fun hle => by
        simpa using (free_eq_nil_iff hrep).2 hle]
      exact ⟨⟨_, _, rep_linked hrep hid⟩, toBook_linked hrep hid, rfl⟩

theorem toBook_unlinked {free l₁ l₂ : List UInt32} {queue : Side → Int64 → List UInt32}
    {p : Int64} {lv : PriceLevel} {i : UInt32} (h : Rep b free queue)
    (hq : queue s p = l₁ ++ i :: l₂) (hl : (b.levels s).get? p = some lv) :
    (unlinked b s p lv i (b.arena.orderOf i).id).toBook =
      ⟨b.arena.capacity.toNat,
        fun s' => (b.restingOn s').filter (·.id ≠ (b.arena.orderOf i).id)⟩ := by
  have hrep := rep_unlinked h hq hl
  have hiq : i ∈ queue s p := by simp [hq]
  obtain ⟨hord, -⟩ := views_unlinked h hq hl (b.arena.orderOf i).id
  have hcap : (unlinked b s p lv i (b.arena.orderOf i).id).arena.capacity = b.arena.capacity := by
    rw [arena_unlinked]
    exact (LevelQueue.views_remove (inPool_level h hq) (level_eq h hq hl).queue).2.2.capacity
  refine toBook_ext hcap fun s' => ?_
  refine restingOn_ext hrep ((restingOn_sorted h s').sublist List.filter_sublist) fun p' => ?_
  -- dropping the id drops exactly the slot
  have hdrop : ((queue s' p').map b.arena.orderOf).filter (·.id ≠ (b.arena.orderOf i).id) =
      ((queue s' p').filter (· ≠ i)).map b.arena.orderOf := by
    rw [List.filter_map]
    congr 1
    refine List.filter_congr fun j hj => ?_
    simp only [Function.comp, decide_not, Bool.not_inj_iff, decide_eq_decide]
    exact ⟨fun e => h.id_injective hj hiq e, fun e => by rw [e]⟩
  rw [List.filter_comm, restingOn_filter h, hdrop, hord]
  by_cases hsp : s' = s ∧ p' = p
  · obtain ⟨rfl, rfl⟩ := hsp
    have hnd := h.queue_nodup s' p'
    rw [hq, List.nodup_middle, List.nodup_cons] at hnd
    have hkeep : ∀ l : List UInt32, i ∉ l → l.filter (· ≠ i) = l := fun l hil =>
      List.filter_eq_self.2 fun j hj => by simpa using ne_of_mem_of_not_mem hj hil
    have h₁ : i ∉ l₁ := fun hm => hnd.1 (List.mem_append_left _ hm)
    have h₂ : i ∉ l₂ := fun hm => hnd.1 (List.mem_append_right _ hm)
    rw [setQueue_self, hq, List.filter_append, List.filter_cons_of_neg (by simp), hkeep l₁ h₁,
      hkeep l₂ h₂]
  · rw [setQueue_of_ne hsp, List.filter_eq_self.2]
    intro j hj
    simpa using h.notMem_other hiq hsp hj

theorem cancelOrder_eq {free : List UInt32} {queue : Side → Int64 → List UInt32} {p : Int64}
    {lv : PriceLevel} {i : UInt32} (h : Rep b free queue) (hi : i ∈ queue s p)
    (hl : (b.levels s).get? p = some lv) :
    b.cancelOrder (b.arena.orderOf i).id =
      (unlinked b s p lv i (b.arena.orderOf i).id, .ok (b.arena.orderOf i)) := by
  obtain ⟨rfl, rfl⟩ := h.node s p i hi
  have hlook := (h.index _ i).2 ⟨⟨_, _, hi⟩, rfl⟩
  unfold cancelOrder unlinked
  rw [hlook]
  have hl' : (({ b with orderIndex := b.orderIndex.erase (b.arena.orderOf i).id } :
      OrderBook).levels (b.arena.orderOf i).side).get? (b.arena.orderOf i).price = some lv := by
    rw [← hl]
    cases (b.arena.orderOf i).side <;> rfl
  simp only [Arena.orderOf] at hl' ⊢
  rw [hl']
  cases (b.arena.get i).toOrder.side <;> rfl

theorem find?_id_eq {l : List Order} (hnd : (l.map (·.id)).Nodup) (ho : o ∈ l) :
    l.find? (·.id = o.id) = some o := by
  induction l with
  | nil => simp at ho
  | cons a l ih =>
    rw [List.map_cons, List.nodup_cons] at hnd
    rcases List.mem_cons.1 ho with rfl | ho
    · simp
    · have hne : a.id ≠ o.id := fun e => hnd.1 (List.mem_map.2 ⟨o, ho, e.symm⟩)
      rw [List.find?_cons_of_neg (by simpa using hne)]
      exact ih hnd.2 ho

/-- **Cancelling an order** is deleting it from the price-time book, wherever it stands. -/
theorem cancelOrder_sim (h : b.WF) (id : UInt64) :
    (b.cancelOrder id).1.WF ∧ (b.cancelOrder id).1.toBook = (b.toBook.cancel id).1 ∧
      (b.cancelOrder id).2 = (b.toBook.cancel id).2 := by
  obtain ⟨free, queue, hrep⟩ := h
  unfold Book.cancel
  cases hlook : b.orderIndex.lookup id with
  | none =>
    have hnot : id ∉ b.allRestingOrders.map (·.id) := fun hm => by
      have := AList.lookup_isSome.2 ((mem_orderIndex_iff hrep).2 hm)
      rw [hlook] at this
      cases this
    have hfind : b.toBook.orders.find? (·.id = id) = none := by
      rw [orders_toBook, List.find?_eq_none]
      intro o ho
      simpa using fun e : o.id = id => hnot (List.mem_map.2 ⟨o, ho, e⟩)
    have hcancel : b.cancelOrder id = (b, .error (.orderNotFound id)) := by
      unfold cancelOrder
      rw [hlook]
    rw [hfind, hcancel]
    exact ⟨⟨free, queue, hrep⟩, rfl, rfl⟩
  | some i =>
    obtain ⟨⟨s, p, hi⟩, rfl⟩ := (hrep.index id i).1 hlook
    obtain ⟨lv, hl, -⟩ := hrep.exists_level hi
    obtain ⟨l₁, l₂, hq⟩ := List.append_of_mem hi
    have hmem := (mem_allRestingOrders hrep).2 ⟨s, p, i, hi, rfl⟩
    have hfind : b.toBook.orders.find? (·.id = (b.arena.orderOf i).id) =
        some (b.arena.orderOf i) := by
      rw [orders_toBook]
      exact find?_id_eq (nodup_ids hrep) hmem
    rw [hfind, cancelOrder_eq hrep hi hl]
    exact ⟨⟨_, _, rep_unlinked hrep hq hl⟩, toBook_unlinked hrep hq hl, rfl⟩

end Operations

/-! ## The front of a side -/

section Front

variable {b : OrderBook} {s : Side} {m : Order} {ms : List Order}

/-- The slot of the order that trades first on a side. -/
theorem exists_front {free : List UInt32} {queue : Side → Int64 → List UInt32}
    (h : Rep b free queue) (hr : b.restingOn s = m :: ms) :
    ∃ lv i l, b.bestPrice s = some m.price ∧ (b.levels s).get? m.price = some lv ∧
      queue s m.price = i :: l ∧ b.arena.orderOf i = m ∧ lv.head = i := by
  cases hp : prices s (b.levels s) with
  | nil =>
    rw [restingOn_eq h, hp] at hr
    simp at hr
  | cons p ps =>
    have hkey : p ∈ (b.levels s).keys := mem_prices.1 (by rw [hp]; exact List.mem_cons_self)
    obtain ⟨lv, hl⟩ := (b.levels s).mem_keys_iff.1 hkey
    have hlv := h.level s p lv hl
    cases hq : queue s p with
    | nil =>
      rw [h.nonempty, hl] at hq
      cases hq
    | cons i l =>
      rw [restingOn_eq h, hp, List.flatMap_cons, hq, List.map_cons, List.cons_append] at hr
      obtain ⟨hm, -⟩ := List.cons.inj hr
      have hprice : m.price = p := by
        rw [← hm]
        exact (h.node s p i (by simp [hq])).2
      subst hprice
      refine ⟨lv, i, l, ?_, hl, hq, hm, ?_⟩
      · rw [h.best s, bestKey_eq_head, hp, List.head?_cons]
      · rw [hlv.links.head_eq, hq]
        rfl

/-- **The cached best price is the price of the first order to trade**, and `peek_front` there
finds that order. -/
theorem peekFront_sim (h : b.WF) (hr : b.restingOn s = m :: ms) :
    b.bestPrice s = some m.price ∧ ∃ node, b.peekFront s m.price = some node ∧ node.toOrder = m := by
  obtain ⟨free, queue, hrep⟩ := h
  obtain ⟨lv, i, l, hbest, hl, hq, rfl, rfl⟩ := exists_front hrep hr
  refine ⟨hbest, b.arena.get lv.head, ?_, rfl⟩
  have hne : lv.head ≠ arenaNull :=
    hrep.freeList.ne_null_of_inPool (hrep.inPool_queue (by rw [hq]; exact List.mem_cons_self))
  simp [peekFront, hl, hne]

theorem bestPrice_none (h : b.WF) (hr : b.restingOn s = []) : b.bestPrice s = none := by
  obtain ⟨free, queue, hrep⟩ := h
  have hnil : prices s (b.levels s) = [] := by
    refine List.eq_nil_iff_forall_not_mem.2 fun p hp => ?_
    obtain ⟨lv, hl⟩ := (b.levels s).mem_keys_iff.1 (mem_prices.1 hp)
    have hne : queue s p ≠ [] := by
      intro e
      rw [hrep.nonempty, hl] at e
      cases e
    obtain ⟨i, hi⟩ := List.exists_mem_of_ne_nil _ hne
    have : b.arena.orderOf i ∈ b.restingOn s := (mem_restingOn hrep).2 ⟨p, i, hi, rfl⟩
    rw [hr] at this
    simp at this
  rw [hrep.best s, bestKey_eq_head, hnil]
  rfl

theorem toBook_filled {free l : List UInt32} {queue : Side → Int64 → List UInt32} {lv : PriceLevel}
    {i : UInt32} (fillQty : UInt64) (h : Rep b free queue) (hr : b.restingOn s = m :: ms)
    (hl : (b.levels s).get? m.price = some lv) (hq : queue s m.price = i :: l)
    (hi : b.arena.orderOf i = m) :
    (filled b s m.price lv i fillQty).toBook =
      b.toBook.setSide s ({ m with quantity := m.quantity - fillQty } :: ms) := by
  have hiq : i ∈ queue s m.price := by simp [hq]
  have hrep := rep_filled fillQty h hq hl
  obtain ⟨-, -, hord⟩ := views_filled s m.price lv fillQty
    (h.inPool_queue hiq)
  have hsame : ∀ l : List UInt32, i ∉ l →
      l.map (filled b s m.price lv i fillQty).arena.orderOf = l.map b.arena.orderOf := by
    intro l hil
    refine List.map_congr_left fun j hj => ?_
    rw [hord, Function.update_of_ne (ne_of_mem_of_not_mem hj hil)]
  refine toBook_ext rfl fun s' => ?_
  show _ = Function.update b.restingOn s _ s'
  by_cases hs : s' = s
  · subst hs
    rw [Function.update_self]
    have hsorted := restingOn_sorted h s'
    rw [hr] at hsorted
    refine restingOn_ext hrep (List.pairwise_cons.2 (List.pairwise_cons.1 hsorted)) fun p => ?_
    have hfilter := restingOn_filter h s' p
    rw [hr] at hfilter
    by_cases hp : m.price = p
    · subst hp
      rw [hq, List.map_cons, List.filter_cons_of_pos (by simp)] at hfilter
      have hnot : i ∉ l := (List.nodup_cons.1 (hq ▸ h.queue_nodup s' m.price)).1
      rw [hq, List.map_cons, List.filter_cons_of_pos (by simp), hsame l hnot, hord,
        Function.update_self, hi, (List.cons.inj hfilter).2]
    · rw [List.filter_cons_of_neg (by simpa using hp)] at hfilter
      rw [List.filter_cons_of_neg (by simpa using hp), hfilter, hsame]
      exact fun hm => hp (h.queue_unique hm hiq).2
  · rw [Function.update_of_ne hs]
    refine restingOn_ext hrep (restingOn_sorted h s') fun p => ?_
    rw [restingOn_filter h, hsame]
    exact fun hm => hs (h.queue_unique hiq hm).1

theorem withLevel_withLevel {p : Int64} {lv lv' : PriceLevel} {a a' : Arena}
    {x x' : AList fun _ : UInt64 => UInt32} :
    (b.withLevel s p lv a x).withLevel s p lv' a' x' = b.withLevel s p lv' a' x' := by
  cases s <;> simp [withLevel, setLevels, levels, OrdMap.insert_insert]

/-- `reduce_front_quantity` that leaves something of the maker. -/
theorem reduceFrontQuantity_left {p : Int64} {lv : PriceLevel} {fillQty : UInt64}
    (hl : (b.levels s).get? p = some lv) (hne : lv.head ≠ arenaNull)
    (hle : fillQty ≤ (b.arena.orderOf lv.head).quantity)
    (hrem : (b.arena.orderOf lv.head).quantity - fillQty ≠ 0) :
    b.reduceFrontQuantity s p fillQty =
      (filled b s p lv lv.head fillQty, .ok ((b.arena.orderOf lv.head).quantity - fillQty)) := by
  have hle' : ¬ (b.arena.get lv.head).quantity < fillQty := by
    rw [UInt64.not_lt]
    exact hle
  have hrem' : (b.arena.get lv.head).quantity - fillQty ≠ 0 := hrem
  unfold reduceFrontQuantity filled withLevel
  rw [hl]
  simp only [hne, hle', hrem', if_false, Arena.orderOf, OrderNode.toOrder]
  cases s <;> rfl

/-- `reduce_front_quantity` that exhausts the maker. -/
theorem reduceFrontQuantity_full {free l : List UInt32} {queue : Side → Int64 → List UInt32}
    {p : Int64} {lv : PriceLevel} {fillQty : UInt64} (h : Rep b free queue)
    (hl : (b.levels s).get? p = some lv) (hq : queue s p = lv.head :: l)
    (hle : fillQty ≤ (b.arena.orderOf lv.head).quantity)
    (hrem : (b.arena.orderOf lv.head).quantity - fillQty = 0) :
    b.reduceFrontQuantity s p fillQty =
      (unlinked (filled b s p lv lv.head fillQty) s p { lv with qty := lv.qty - fillQty } lv.head
        (b.arena.orderOf lv.head).id, .ok 0) := by
  have hpool := h.inPool_queue (s := s) (p := p) (i := lv.head) (by rw [hq]; exact List.mem_cons_self)
  have hne : lv.head ≠ arenaNull := h.freeList.ne_null_of_inPool hpool
  have hle' : ¬ (b.arena.get lv.head).quantity < fillQty := by
    rw [UInt64.not_lt]
    exact hle
  have hrem' : (b.arena.get lv.head).quantity - fillQty = 0 := hrem
  have hlinks := (h.level s p lv hl).links
  rw [hq] at hlinks
  have hprev : (filled b s p lv lv.head fillQty).arena.prevOf lv.head = arenaNull := by
    rw [(views_filled s p lv fillQty hpool).2.1]
    rw [← List.nil_append (lv.head :: l)] at hlinks
    exact DList.prev_eq hlinks
  have hpop := Arena.popFront_eq_remove (filled b s p lv lv.head fillQty).arena
    { lv with qty := lv.qty - fillQty } hne hprev
  have hid : ((filled b s p lv lv.head fillQty).arena.get lv.head).id =
      (b.arena.orderOf lv.head).id := by
    have := congrArg Order.id (congrFun (views_filled s p lv fillQty hpool).2.2
      lv.head)
    rw [Function.update_self] at this
    exact this
  have harena : (filled b s p lv lv.head fillQty).arena = b.arena.set lv.head
      { b.arena.get lv.head with quantity := (b.arena.get lv.head).quantity - fillQty } := rfl
  rw [harena] at hpop hid
  unfold reduceFrontQuantity unlinked
  rw [hl]
  simp only [hne, hle', hrem', if_false, if_true] at hpop hid ⊢
  rw [hpop, hid, harena, hrem']
  simp only [filled, withLevel_withLevel]
  unfold withLevel
  cases s <;> split_ifs <;> rfl

theorem front_id_notMem {free : List UInt32} {queue : Side → Int64 → List UInt32}
    (h : Rep b free queue) (hr : b.restingOn s = m :: ms) :
    m.id ∉ ms.map (·.id) ∧ ∀ s', s' ≠ s → m.id ∉ (b.restingOn s').map (·.id) := by
  have hids := nodup_ids h
  rw [allRestingOrders_eq, List.map_append, List.nodup_append] at hids
  cases s with
  | ask =>
    rw [hr, List.map_cons, List.nodup_cons] at hids
    refine ⟨hids.1.1, ?_⟩
    intro s' hs' hmem
    cases s' with
    | ask => exact hs' rfl
    | bid => exact hids.2.2 m.id List.mem_cons_self m.id hmem rfl
  | bid =>
    rw [hr, List.map_cons, List.nodup_cons] at hids
    refine ⟨hids.2.1.1, ?_⟩
    intro s' hs' hmem
    cases s' with
    | ask => exact hids.2.2 m.id hmem m.id List.mem_cons_self rfl
    | bid => exact hs' rfl

/-- Dropping its id drops the first order to trade, whatever its quantity. -/
theorem filter_front {free : List UInt32} {queue : Side → Int64 → List UInt32}
    (h : Rep b free queue) (hr : b.restingOn s = m :: ms) (q : UInt64) (s' : Side) :
    (Function.update b.restingOn s ({ m with quantity := q } :: ms) s').filter (·.id ≠ m.id) =
      Function.update b.restingOn s ms s' := by
  obtain ⟨hms, hother⟩ := front_id_notMem h hr
  have hkeep : ∀ l : List Order, m.id ∉ l.map (·.id) → l.filter (·.id ≠ m.id) = l := by
    intro l hnot
    refine List.filter_eq_self.2 fun o ho => ?_
    simpa using fun e => hnot (List.mem_map.2 ⟨o, ho, e⟩)
  by_cases hs : s' = s
  · subst hs
    rw [Function.update_self, Function.update_self, List.filter_cons_of_neg (by simp), hkeep ms hms]
  · rw [Function.update_of_ne hs, Function.update_of_ne hs]
    exact hkeep _ (hother s' hs)

/-- **Filling the first order to trade** takes the quantity off it, and takes it out of the book
when nothing is left. -/
theorem reduceFrontQuantity_sim (h : b.WF) (hr : b.restingOn s = m :: ms) {fillQty : UInt64}
    (hle : fillQty ≤ m.quantity) :
    (b.reduceFrontQuantity s m.price fillQty).1.WF ∧
      (b.reduceFrontQuantity s m.price fillQty).1.toBook = b.toBook.setSide s
        (if m.quantity - fillQty = 0 then ms
          else { m with quantity := m.quantity - fillQty } :: ms) ∧
      (b.reduceFrontQuantity s m.price fillQty).2 = .ok (m.quantity - fillQty) := by
  obtain ⟨free, queue, hrep⟩ := h
  obtain ⟨lv, i, l, -, hl, hq, hm, rfl⟩ := exists_front hrep hr
  have hfilled := rep_filled fillQty hrep hq hl
  have hbook := toBook_filled fillQty hrep hr hl hq hm
  by_cases hrem : m.quantity - fillQty = 0
  · have hl' : ((filled b s m.price lv lv.head fillQty).levels s).get? m.price =
        some { lv with qty := lv.qty - fillQty } := by
      rw [filled, get?_withLevel, if_pos ⟨rfl, rfl⟩]
    have hq' : queue s m.price = [] ++ lv.head :: l := hq
    have hid : ((filled b s m.price lv lv.head fillQty).arena.orderOf lv.head).id =
        (b.arena.orderOf lv.head).id := by
      rw [(views_filled _ _ _ _ (hrep.inPool_queue (by rw [hq]; exact List.mem_cons_self))).2.2,
        Function.update_self]
    have hsim := toBook_unlinked hfilled hq' hl'
    have hrep' := rep_unlinked hfilled hq' hl'
    rw [reduceFrontQuantity_full hrep hl hq (by rw [hm]; exact hle) (by rw [hm]; exact hrem),
      if_pos hrem, ← hid]
    refine ⟨⟨_, _, hrep'⟩, ?_, by rw [hrem]⟩
    rw [hsim]
    have hside : ∀ s', (filled b s m.price lv lv.head fillQty).restingOn s' =
        Function.update b.restingOn s ({ m with quantity := m.quantity - fillQty } :: ms) s' :=
      fun s' => congrFun (congrArg Book.side hbook) s'
    show Book.mk _ _ = Book.mk _ _
    congr 1
    funext s'
    rw [hid, hm, hside s', filter_front hrep hr]
    rfl
  · have hne : lv.head ≠ arenaNull :=
      hrep.freeList.ne_null_of_inPool (hrep.inPool_queue (by rw [hq]; exact List.mem_cons_self))
    rw [reduceFrontQuantity_left hl hne (by rw [hm]; exact hle) (by rw [hm]; exact hrem),
      if_neg hrem, hm]
    exact ⟨⟨_, _, hfilled⟩, hbook, rfl⟩

end Front

end OrderBook

end Ferrox
