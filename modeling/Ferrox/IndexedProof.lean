import Ferrox.Indexed
import Ferrox.Progress

/-!
# No index is out of bounds

On a well-formed book every slot that is read or written is in the pool: it comes from the free
list, from the index, from an end of a level or from a link of a slot in a level. So the operations
of `Ferrox.Indexed` do what the ones of `Ferrox.Arena` do, and from there up to the rounds of the
matching thread nothing panics. The scan, the iterator and the appends of the log look at their
bounds before they index.

`stepIndexed_of_start` puts this together for every start of a gateway and every run of its loop.
-/

namespace Ferrox

open Bytes Linked

/-! ## The arena -/

namespace Arena

variable {a : Arena} {i : UInt32} {lv : PriceLevel}

theorem read_eq (hi : a.InPool i) : a.read i = some (a.get i) := by
  have hlt : i.toNat < a.storage.length := hi
  simp [read, get, hlt]

theorem modify_eq (hi : a.InPool i) (f : OrderNode → OrderNode) :
    a.modify i f = some (a.set i (f (a.get i))) := by
  rw [modify, read_eq hi]
  rfl

theorem allocIndexed_eq (h : a.freeHead ≠ arenaNull → a.InPool a.freeHead) (o : Order) :
    a.allocIndexed o = some (a.alloc o) := by
  unfold allocIndexed alloc
  by_cases hnull : a.freeHead = arenaNull
  · rw [if_pos hnull, if_pos hnull]
  · have hi := h hnull
    have hi' : ({ a with freeHead := (a.get a.freeHead).next } : Arena).InPool a.freeHead := hi
    rw [if_neg hnull, if_neg hnull]
    simp only [read_eq hi, modify_eq hi', Option.bind_eq_bind, Option.bind_some]

theorem deallocIndexed_eq (hi : a.InPool i) : a.deallocIndexed i = some (a.dealloc i) := by
  unfold deallocIndexed dealloc
  rw [modify_eq hi]
  rfl

theorem pushBackIndexed_eq (hi : a.InPool i) (ht : lv.tail ≠ arenaNull → a.InPool lv.tail) :
    a.pushBackIndexed lv i = some (a.pushBack lv i) := by
  unfold pushBackIndexed pushBack
  by_cases hnull : lv.tail = arenaNull
  · simp [hnull, read_eq hi, modify_eq, hi, setPrev, setNext]
  · simp [hnull, read_eq hi, modify_eq, hi, ht hnull, setPrev, setNext]

theorem popFrontIndexed_eq (hh : lv.head ≠ arenaNull → a.InPool lv.head)
    (hn : a.nextOf lv.head ≠ arenaNull → a.InPool (a.nextOf lv.head)) :
    a.popFrontIndexed lv = some (a.popFront lv) := by
  unfold popFrontIndexed popFront
  by_cases hnull : lv.head = arenaNull
  · rw [if_pos hnull, if_pos hnull]
  · rw [if_neg hnull, if_neg hnull]
    by_cases hnext : (a.get lv.head).next = arenaNull
    · simp [read_eq (hh hnull), hnext]
    · have hpool := hn hnext
      simp only [nextOf] at hpool
      simp [read_eq (hh hnull), hnext, modify_eq hpool, setPrev]

theorem removeIndexed_eq (hi : a.InPool i) (hp : a.prevOf i ≠ arenaNull → a.InPool (a.prevOf i))
    (hn : a.nextOf i ≠ arenaNull → a.InPool (a.nextOf i)) :
    a.removeIndexed lv i = some (a.remove lv i) := by
  unfold removeIndexed remove
  simp only [nextOf] at hn
  simp only [prevOf] at hp
  by_cases hprev : (a.get i).prev = arenaNull <;> by_cases hnext : (a.get i).next = arenaNull
  · simp [read_eq hi, hprev, hnext]
  · simp [read_eq hi, hprev, hnext, modify_eq (hn hnext), setPrev]
  · simp [read_eq hi, hprev, hnext, modify_eq (hp hprev), setNext]
  · simp [read_eq hi, hprev, hnext, modify_eq (hp hprev), modify_eq, hn hnext, setNext, setPrev]

@[simp] theorem inPool_popFront : (a.popFront lv).1.InPool i ↔ a.InPool i := by
  unfold popFront
  dsimp only
  split_ifs <;> simp [setPrev]

end Arena

/-! ## The book -/

namespace OrderBook

variable {b : OrderBook} {free : List UInt32} {queue : Side → Int64 → List UInt32} {s : Side}
  {p : Int64} {lv : PriceLevel}

theorem inPool_head (h : Rep b free queue) (hl : (b.levels s).get? p = some lv)
    (hne : lv.head ≠ arenaNull) : lv.head ∈ queue s p :=
  (h.level s p lv hl).links.fwd.head_mem hne

theorem inPool_links (h : Rep b free queue) (hl : (b.levels s).get? p = some lv) {i : UInt32}
    (hi : i ∈ queue s p) :
    (b.arena.prevOf i ≠ arenaNull → b.arena.InPool (b.arena.prevOf i)) ∧
      (b.arena.nextOf i ≠ arenaNull → b.arena.InPool (b.arena.nextOf i)) := by
  obtain ⟨l₁, l₂, hq⟩ := List.append_of_mem hi
  exact LevelQueue.inPool_neighbours (inPool_level h hq) (level_eq h hq hl).queue

theorem insertOrderIndexed_eq (h : b.WF) (o : Order) :
    b.insertOrderIndexed o = some (b.insertOrder o) := by
  obtain ⟨free, queue, hrep⟩ := h
  unfold insertOrderIndexed
  by_cases hid : o.id ∈ b.orderIndex
  · rw [if_pos hid, insertOrder_duplicate hid]
  have halloc : b.arena.allocIndexed o = some (b.arena.alloc o) :=
    Arena.allocIndexed_eq (fun hne => hrep.inPool_free (hrep.freeList.chain.head_mem hne)) o
  rw [if_neg hid, halloc]
  cases free with
  | nil =>
    rw [FreeList.alloc_eq_full hrep.freeList.chain, insertOrder_full hrep hid]
    rfl
  | cons i free =>
    have hi : (FreeList.allocated b.arena i o).InPool i :=
      Arena.inPool_set.2 (hrep.inPool_free List.mem_cons_self)
    have hpush := Arena.pushBackIndexed_eq hi (LevelQueue.inPool_tail
      (fun j hj => Arena.inPool_set.2 (hrep.inPool_queue hj)) (level_allocated hrep o).queue)
    rw [FreeList.alloc_eq_ok hrep.freeList.chain, insertOrder_ok hrep hid]
    simp only [Option.bind_eq_bind, Option.bind_some, hpush, linked, orderIndex_setLevels]

theorem cancelOrderIndexed_eq (h : b.WF) (id : UInt64) :
    b.cancelOrderIndexed id = some (b.cancelOrder id) := by
  obtain ⟨free, queue, hrep⟩ := h
  unfold cancelOrderIndexed cancelOrder
  cases hlook : b.orderIndex.lookup id with
  | none => rfl
  | some i =>
    obtain ⟨⟨s, p, hi⟩, -⟩ := (hrep.index id i).1 hlook
    obtain ⟨rfl, rfl⟩ := hrep.node s p i hi
    obtain ⟨lv, hl, hlv⟩ := hrep.exists_level hi
    obtain ⟨l₁, l₂, hq⟩ := List.append_of_mem hi
    have hpool := hrep.inPool_queue hi
    obtain ⟨hp, hn⟩ := inPool_links hrep hl hi
    have hsame := (LevelQueue.views_remove (inPool_level hrep hq) (level_eq hrep hq hl).queue).2.2
    have hdealloc := Arena.deallocIndexed_eq (hsame.inPool.2 hpool)
    have hl' : (({ b with orderIndex := b.orderIndex.erase id } : OrderBook).levels
        (b.arena.get i).toOrder.side).get? (b.arena.get i).toOrder.price = some lv := by
      refine Eq.trans ?_ hl
      show _ = (b.levels (b.arena.get i).toOrder.side).get? (b.arena.get i).toOrder.price
      cases (b.arena.get i).toOrder.side <;> rfl
    simp only [Arena.read_eq hpool, Option.bind_eq_bind, Option.bind_some, hl',
      Arena.removeIndexed_eq hpool hp hn, hdealloc]

theorem peekFrontIndexed_eq (h : b.WF) (s : Side) (p : Int64) :
    b.peekFrontIndexed s p = some (b.peekFront s p) := by
  obtain ⟨free, queue, hrep⟩ := h
  unfold peekFrontIndexed peekFront
  cases hl : (b.levels s).get? p with
  | none => rfl
  | some lv =>
    by_cases hnull : lv.head = arenaNull
    · simp [hnull]
    · have hpool := hrep.inPool_queue (inPool_head hrep hl hnull)
      simp [hnull, Arena.read_eq hpool]

theorem reduceFrontQuantityIndexed_eq (h : b.WF) (s : Side) (p : Int64) (fillQty : UInt64) :
    b.reduceFrontQuantityIndexed s p fillQty = some (b.reduceFrontQuantity s p fillQty) := by
  obtain ⟨free, queue, hrep⟩ := h
  unfold reduceFrontQuantityIndexed reduceFrontQuantity
  cases hl : (b.levels s).get? p with
  | none => rfl
  | some lv =>
    by_cases hnull : lv.head = arenaNull
    · simp [hnull]
    have hmem := inPool_head hrep hl hnull
    have hpool := hrep.inPool_queue hmem
    have hn := (inPool_links hrep hl hmem).2
    simp only [hnull, if_false, Arena.read_eq hpool, Arena.modify_eq hpool, Option.bind_eq_bind,
      Option.bind_some]
    generalize hnode : { b.arena.get lv.head with
      quantity := (b.arena.get lv.head).quantity - fillQty } = node
    have hpool' : (b.arena.set lv.head node).InPool lv.head := Arena.inPool_set.2 hpool
    -- the links of the front order are those it had before it was filled
    have hnext : (b.arena.set lv.head node).nextOf lv.head = b.arena.nextOf lv.head := by
      rw [Arena.nextOf_set hpool, Function.update_self, ← hnode]
      rfl
    have hpop : (b.arena.set lv.head node).popFrontIndexed { lv with qty := lv.qty - fillQty } =
        some ((b.arena.set lv.head node).popFront { lv with qty := lv.qty - fillQty }) := by
      refine Arena.popFrontIndexed_eq (fun _ => hpool') ?_
      show Arena.nextOf _ lv.head ≠ arenaNull → Arena.InPool _ (Arena.nextOf _ lv.head)
      rw [hnext]
      exact fun hne => Arena.inPool_set.2 (hn hne)
    have hpool'' : ((b.arena.set lv.head node).popFront
        { lv with qty := lv.qty - fillQty }).1.InPool lv.head := Arena.inPool_popFront.2 hpool'
    have hdealloc := Arena.deallocIndexed_eq hpool''
    simp only [Arena.read_eq hpool', hpop, hdealloc, Option.bind_some]
    split_ifs <;> rfl

theorem walkIndexed_eq {a : Arena} {h : UInt32} {l : List UInt32}
    (hc : Chain a.nextOf arenaNull h l) (hpool : ∀ i ∈ l, a.InPool i) (fuel : Nat) :
    walkIndexed a fuel h = some (walk a fuel h) := by
  induction fuel generalizing h l with
  | zero => rfl
  | succ fuel ih =>
    rw [walkIndexed, walk]
    cases l with
    | nil =>
      have hh : h = arenaNull := hc
      rw [if_pos hh, if_pos hh]
    | cons i l =>
      obtain ⟨rfl, hi, hc⟩ := hc
      have hrest := ih hc fun j hj => hpool j (List.mem_cons_of_mem _ hj)
      rw [if_neg hi, if_neg hi, Arena.read_eq (hpool h List.mem_cons_self)]
      show (walkIndexed a fuel (a.nextOf h)).bind _ = _
      rw [hrest]
      rfl

theorem levelsIndexed_eq (h : Rep b free queue) (s : Side) {levels : List PriceLevel}
    (hlevels : ∀ lv ∈ levels, ∃ p, (b.levels s).get? p = some lv) :
    b.levelsIndexed levels = some (levels.flatMap b.levelOrders) := by
  induction levels with
  | nil => rfl
  | cons lv levels ih =>
    obtain ⟨p, hl⟩ := hlevels lv List.mem_cons_self
    have hpool : ∀ i ∈ queue s p, b.arena.InPool i := fun _ hi => h.inPool_queue hi
    have hwalk := walkIndexed_eq (h.level s p lv hl).links.fwd hpool b.arena.storage.length
    have hrest := ih fun lv' hlv' => hlevels lv' (List.mem_cons_of_mem _ hlv')
    rw [levelsIndexed, hwalk, hrest]
    rfl

theorem allRestingOrdersIndexed_eq (h : b.WF) :
    b.allRestingOrdersIndexed = some b.allRestingOrders := by
  obtain ⟨free, queue, hrep⟩ := h
  have hvalues : ∀ s, ∀ lv ∈ (b.levels s).values, ∃ p, (b.levels s).get? p = some lv := by
    intro s lv hlv
    rw [OrdMap.values_eq] at hlv
    obtain ⟨p, -, hl⟩ := List.mem_filterMap.1 hlv
    exact ⟨p, hl⟩
  have hasks : b.levelsIndexed b.asks.values = _ := levelsIndexed_eq hrep .ask (hvalues .ask)
  have hbids : b.levelsIndexed b.bids.values.reverse = _ :=
    levelsIndexed_eq hrep .bid fun lv hlv => hvalues .bid lv (List.mem_reverse.1 hlv)
  rw [allRestingOrdersIndexed, hasks, hbids]
  rfl

end OrderBook

/-! ## The engine -/

namespace MatchingEngine

variable {e : MatchingEngine}

theorem matchSideIndexed_eq (order : Order) (s : Side) (fuel : Nat) (m : Matched)
    (h : m.book.WF) : matchSideIndexed order s fuel m = some (matchSide order s fuel m) := by
  induction fuel generalizing m with
  | zero => rfl
  | succ fuel ih =>
    rw [matchSideIndexed, matchSide]
    by_cases hq : m.quantity = 0
    · rw [if_pos hq, if_pos hq]
    rw [if_neg hq, if_neg hq]
    cases hr : m.book.restingOn s with
    | nil => rw [OrderBook.bestPrice_none h hr]
    | cons a as =>
      obtain ⟨hbest, node, hpeek, rfl⟩ := OrderBook.peekFront_sim h hr
      have hle : min m.quantity node.quantity ≤ node.toOrder.quantity := min_le_maker _ _
      obtain ⟨hwf, -, hok⟩ := OrderBook.reduceFrontQuantity_sim h hr hle
      simp only [hbest, OrderBook.peekFrontIndexed_eq h, hpeek,
        OrderBook.reduceFrontQuantityIndexed_eq h, Option.bind_eq_bind, Option.bind_some]
      generalize m.book.reduceFrontQuantity s node.toOrder.price
        (min m.quantity node.quantity) = r at hwf hok
      obtain ⟨book, res⟩ := r
      obtain rfl : res = .ok _ := hok
      split_ifs
      · rfl
      · exact ih _ hwf
      · rfl

theorem addOrderIndexed_eq (h : e.book.WF) (o : Order) :
    e.addOrderIndexed o = some (e.addOrder o) := by
  unfold addOrderIndexed addOrder
  by_cases hq : o.quantity = 0
  · rw [if_pos hq, if_pos hq]
  obtain ⟨m, hm, hreach⟩ := matchSide_sim o o.side.opposite
    { book := e.book, fills := [], quantity := o.quantity, selfTrade := false, error := none } h
    rfl rfl
  have hloop := hm (e.book.orderCount + 1)
    (Nat.le_succ_of_le (length_restingOn_le h o.side.opposite))
  have hindexed : matchSideIndexed o o.side.opposite (e.book.orderCount + 1)
      { book := e.book, fills := [], quantity := o.quantity, selfTrade := false, error := none } =
      some m :=
    (matchSideIndexed_eq o _ _ _ h).trans (congrArg some hloop)
  have hinsert := OrderBook.insertOrderIndexed_eq hreach.wf { o with quantity := m.quantity }
  simp only [hq, if_false, matchLoop_eq, hindexed, hloop, hreach.error, hinsert,
    Option.bind_eq_bind, Option.bind_some]
  generalize m.book.insertOrder { o with quantity := m.quantity } = r
  obtain ⟨book, res⟩ := r
  cases res <;> simp only <;> split_ifs <;> rfl

theorem cancelOrderIndexed_eq (h : e.book.WF) (id : UInt64) :
    e.cancelOrderIndexed id = some (e.cancelOrder id) := by
  unfold cancelOrderIndexed cancelOrder
  rw [OrderBook.cancelOrderIndexed_eq h]
  generalize e.book.cancelOrder id = r
  obtain ⟨book, res⟩ := r
  cases res with
  | error err => rfl
  | ok order => rfl

theorem applyCommandIndexed_eq (h : e.book.WF) (cmd : EngineCommand) :
    e.applyCommandIndexed cmd = some (e.applyCommand cmd) := by
  cases cmd with
  | newOrder o =>
    rw [applyCommandIndexed, addOrderIndexed_eq h]
    rfl
  | cancelOrder id =>
    rw [applyCommandIndexed, cancelOrderIndexed_eq h]
    rfl

theorem insertAllIndexed_eq {b : OrderBook} (h : b.WF) (os : List Order) :
    insertAllIndexed os b = some (insertAll os b) := by
  induction os generalizing b with
  | nil => rfl
  | cons o os ih =>
    obtain ⟨hwf, -, -⟩ := OrderBook.insertOrder_sim h o
    rw [insertAllIndexed, insertAll, OrderBook.insertOrderIndexed_eq h]
    generalize b.insertOrder o = r at hwf
    obtain ⟨b₁, res⟩ := r
    cases res with
    | error e => rfl
    | ok u => exact ih hwf

theorem restoreFromOrdersIndexed_eq (os : List Order) (c : UInt32) :
    restoreFromOrdersIndexed os c = some (restoreFromOrders os c) := by
  have hwf : (OrderBook.withCapacity c).WF := (withCapacity_sim c).1
  rw [restoreFromOrdersIndexed, restoreFromOrders, insertAllIndexed_eq hwf]
  cases insertAll os (OrderBook.withCapacity c) with
  | error e => rfl
  | ok b => rfl

end MatchingEngine

/-! ## The log -/

theorem sliceIndexed_eq {data : List UInt8} {pos n : Nat} (h : pos + n ≤ data.length) :
    sliceIndexed data pos n = some (slice data pos n) := if_pos h

theorem headerSize_le_alignUp (n : Nat) : headerSize + n ≤ alignUp (headerSize + n) := by
  unfold alignUp alignment headerSize
  omega

namespace Wal

variable {crc : List UInt8 → UInt32} {w : Wal} {rs : List Record}

theorem scanLoopIndexed_eq (crc : List UInt8 → UInt32) (data : List UInt8) (fuel : Nat)
    (scan : Scan) : scanLoopIndexed crc data fuel scan = some (scanLoop crc data fuel scan) := by
  induction fuel generalizing scan with
  | zero => rfl
  | succ fuel ih =>
    rw [scanLoopIndexed, scanLoop]
    dsimp only
    by_cases hheader : data.length < scan.endPos + headerSize
    · rw [if_pos hheader, if_pos hheader]
    rw [if_neg hheader, if_neg hheader, sliceIndexed_eq (by unfold headerSize at hheader; omega)]
    simp only [Option.bind_eq_bind, Option.bind_some]
    split_ifs with hzero hrecord hcrc
    · rfl
    · rfl
    all_goals
      have := headerSize_le_alignUp (ofLE (slice data scan.endPos 4))
      rw [sliceIndexed_eq (by unfold headerSize at hheader; omega), sliceIndexed_eq (by omega)]
      simp only [Option.bind_some]
    · rw [if_pos hcrc]
    · rw [if_neg hcrc]
      exact ih _

theorem openWithSizeIndexed_eq (crc : List UInt8 → UInt32) (io : OpenIo) (file : List UInt8)
    (size : Nat) :
    openWithSizeIndexed crc io file size = some (openWithSize crc io file size) := by
  unfold openWithSizeIndexed openWithSize scanRecords
  simp only [scanLoopIndexed_eq, Option.bind_eq_bind, Option.bind_some]
  by_cases hopen : io = some .openFile
  · rw [if_pos hopen, if_pos hopen]
  rw [if_neg hopen, if_neg hopen]
  cases (if file.length < size then if io = some .extend then none else setLen file size
    else some file) with
  | none => rfl
  | some file₁ =>
    by_cases hmap : io = some .map
    · simp only [hmap, if_true]
    simp only [hmap, if_false]
    generalize scanLoop crc file₁ file₁.length ⟨0, 0⟩ = scan
    cases (if io = some .truncate then none else setLen file₁ scan.endPos) with
    | none => rfl
    | some file₂ =>
      dsimp only
      cases (if io = some .reextend then none
        else setLen file₂ (if file.length < size then size else file.length)) with
      | none => rfl
      | some file₃ =>
        dsimp only
        split_ifs <;> rfl

theorem writeRecordIndexed_eq (crc : List UInt8 → UInt32) {payloadLen : Nat}
    (h : payloadLen ≤ w.encodeBuf.length) (recordSize : Nat) :
    w.writeRecordIndexed crc payloadLen recordSize = w.writeRecord crc payloadLen recordSize := by
  have hslice : sliceIndexed w.encodeBuf 0 payloadLen = some (w.encodeBuf.take payloadLen) :=
    sliceIndexed_eq (by omega)
  rw [writeRecordIndexed, writeRecord, hslice]
  rfl

/-- The payload of an append is in the buffer that it was written to. -/
theorem appendIndexed_eq (h : w.Holds crc rs) (io : GrowIo) (cmd : EngineCommand) :
    w.appendIndexed crc io cmd = w.append crc io cmd := by
  obtain ⟨rest, henc, hbuf⟩ := encode_eq h.encodeBuf cmd
  have h' : Holds crc { w with encodeBuf := Protocol.payload cmd ++ rest } rs :=
    ⟨h.valid, h.file, h.writePos, h.recordCount, h.mapLen, h.fits, h.mapped, h.limit, hbuf⟩
  obtain ⟨w₁, -, hbuf₁, ⟨hio, -⟩ | ⟨hok, -⟩⟩ := ensureCapacity_spec h' io
    (alignUp (headerSize + (Protocol.payload cmd).length))
  · rw [appendIndexed, append, henc]
    simp only [hio]
  · have hpayload : (Protocol.payload cmd).length ≤ w₁.encodeBuf.length := by
      rw [hbuf₁, List.length_append]
      omega
    rw [appendIndexed, append, henc]
    simp only [hok, writeRecordIndexed_eq crc hpayload]
    cases writeRecord crc w₁ (Protocol.payload cmd).length
      (alignUp (headerSize + (Protocol.payload cmd).length)) with
    | none => rfl
    | some w₂ => rfl

end Wal

namespace WalIterator

variable {crc : List UInt8 → UInt32} {it : WalIterator}

theorem nextLoopIndexed_eq (h : it.endPos ≤ it.mmap.length) (fuel : Nat) :
    nextLoopIndexed crc fuel it = some (nextLoop crc fuel it) := by
  induction fuel generalizing it with
  | zero => rfl
  | succ fuel ih =>
    rw [nextLoopIndexed, nextLoop]
    dsimp only
    by_cases hheader : it.endPos < it.readPos + headerSize
    · rw [if_pos hheader, if_pos hheader]
    rw [if_neg hheader, if_neg hheader, sliceIndexed_eq (by unfold headerSize at hheader; omega)]
    simp only [Option.bind_eq_bind, Option.bind_some]
    by_cases hzero : ofLE (slice it.mmap it.readPos 4) = 0
    · rw [if_pos hzero, if_pos hzero]
    rw [if_neg hzero, if_neg hzero]
    by_cases hrecord : it.endPos < it.readPos +
        alignUp (headerSize + ofLE (slice it.mmap it.readPos 4))
    · rw [if_pos hrecord, if_pos hrecord]
    have := headerSize_le_alignUp (ofLE (slice it.mmap it.readPos 4))
    rw [if_neg hrecord, if_neg hrecord,
      sliceIndexed_eq (by unfold headerSize at hheader; omega), sliceIndexed_eq (by omega)]
    simp only [Option.bind_some]
    split_ifs with hcrc hskip
    · rfl
    · exact ih h
    · cases Protocol.decodeMessage (slice it.mmap (it.readPos + headerSize)
        (ofLE (slice it.mmap it.readPos 4))) with
      | error e => rfl
      | ok cmd => rfl

theorem nextLoop_snd (crc : List UInt8 → UInt32) (fuel : Nat) (it : WalIterator) :
    (nextLoop crc fuel it).2.mmap = it.mmap ∧ (nextLoop crc fuel it).2.endPos = it.endPos := by
  induction fuel generalizing it with
  | zero => exact ⟨rfl, rfl⟩
  | succ fuel ih =>
    rw [nextLoop]
    dsimp only
    split_ifs
    · exact ⟨rfl, rfl⟩
    · exact ⟨rfl, rfl⟩
    · exact ⟨rfl, rfl⟩
    · exact ⟨rfl, rfl⟩
    · exact ih _
    · split <;> exact ⟨rfl, rfl⟩

end WalIterator

/-! ## Recovery -/

namespace Recovery

variable {crc : List UInt8 → UInt32} {bincode : Bincode}

theorem replayLoopIndexed_eq (wal : Wal) (fuel : Nat) {e : MatchingEngine} (he : e.book.WF)
    {it : WalIterator} (hit : it.endPos ≤ it.mmap.length) (n : Nat) :
    replayLoopIndexed crc wal fuel e it n = replayLoop crc wal fuel e it n := by
  induction fuel generalizing e it n with
  | zero => rfl
  | succ fuel ih =>
    obtain ⟨hmmap, hend⟩ := WalIterator.nextLoop_snd crc (it.endPos + 1) it
    rw [replayLoopIndexed, replayLoop, WalIterator.nextLoopIndexed_eq hit, WalIterator.next]
    generalize WalIterator.nextLoop crc (it.endPos + 1) it = r at hmmap hend
    obtain ⟨item, it'⟩ := r
    have hit' : it'.endPos ≤ it'.mmap.length := by
      rw [hmmap, hend]
      exact hit
    rcases item with _ | (err | ⟨k, cmd⟩)
    · rfl
    · cases err with
      | io => rfl
      | protocol p => rfl
      | corruption offset =>
        simp only [Option.bind_eq_bind, Option.bind_some]
        cases wal.truncateTo offset n <;> rfl
      | truncatedRecord offset =>
        simp only [Option.bind_eq_bind, Option.bind_some]
        cases wal.truncateTo offset n <;> rfl
    · simp only [MatchingEngine.applyCommandIndexed_eq he, Option.bind_eq_bind, Option.bind_some]
      exact ih (MatchingEngine.applyCommand_sim he cmd).1 hit' (n + 1)

theorem startingPointIndexed_eq (crc : List UInt8 → UInt32) (bincode : Bincode)
    (dir : Option SnapshotDir) (c : UInt32) :
    startingPointIndexed crc bincode dir c = some (startingPoint crc bincode dir c) := by
  unfold startingPointIndexed startingPoint
  cases dir.bind (Snapshot.loadLatest crc bincode) with
  | none => rfl
  | some snap =>
    simp only [MatchingEngine.restoreFromOrdersIndexed_eq, Option.bind_eq_bind, Option.bind_some,
      Snapshot.restore]
    cases MatchingEngine.restoreFromOrders snap.orders c with
    | error e => rfl
    | ok e => rfl

/-- **A recovery does not panic**, whatever the directory holds and whichever call fails. -/
theorem recoverIndexed_eq (crc : List UInt8 → UInt32) (bincode : Bincode) (io : RecoverIo)
    (dir : DataDir) (c : UInt32) : ∃ dir' r, recover crc bincode io dir c = (dir', some r) ∧
      recoverIndexed crc bincode io dir c = some (dir', r) := by
  unfold recoverIndexed recover recoverWithWalSize
  simp only [startingPointIndexed_eq, Wal.openWithSizeIndexed_eq, Option.bind_eq_bind,
    Option.bind_some, Option.getD_none]
  cases io.createDirFails with
  | true => exact ⟨_, _, rfl, rfl⟩
  | false =>
    cases io.readDirFails with
    | true => exact ⟨_, _, rfl, rfl⟩
    | false =>
      cases hstart : startingPoint crc bincode dir.snapshots c with
      | error e => exact ⟨_, _, rfl, rfl⟩
      | ok start =>
        obtain ⟨e₀, n⟩ := start
        have hwf := (startingPoint_sound hstart).1
        obtain ⟨file', hopen⟩ | ⟨w, rs, hopen, hw, -, -⟩ := Wal.openWithSize_cases crc io.wal
          (dir.wal.getD []) defaultInitialSize
        · simp only [hopen]
          exact ⟨_, _, rfl, rfl⟩
        · have hit : (w.iterFrom n).endPos ≤ (w.iterFrom n).mmap.length := by
            show w.writePos ≤ w.mmap.length
            rw [hw.length_mmap]
            exact hw.fits
          simp only [hopen, replayLoopIndexed_eq w _ hwf hit, replayLoop_iterFrom hw,
            Option.bind_some]
          cases replayed w e₀ (rs.drop n) with
          | error e => exact ⟨_, _, rfl, rfl⟩
          | ok r => exact ⟨_, _, rfl, rfl⟩

end Recovery

/-! ## The matching thread -/

theorem Snapshot.captureIndexed_eq (crc : List UInt8 → UInt32) (bincode : Bincode)
    {e : MatchingEngine} (h : e.book.WF) (n : UInt64) :
    captureIndexed crc bincode e n = some (capture crc bincode e n) := by
  rw [captureIndexed, OrderBook.allRestingOrdersIndexed_eq h]
  rfl

namespace MatchingLoop

variable {crc : List UInt8 → UInt32} {bincode : Bincode} {c : UInt32} {m : MatchingLoop}

theorem Steady.logIndexed_eq (h : Steady crc c m) (grow : GrowIo) (cmd : EngineCommand) :
    logIndexed crc grow m cmd = MatchingLoop.log crc grow m cmd := by
  unfold logIndexed MatchingLoop.log
  cases hw : m.wal with
  | none => rfl
  | some w =>
    obtain ⟨rs, hholds⟩ := h.wal w hw
    simp only [Wal.appendIndexed_eq hholds]
    cases w.append crc grow cmd with
    | none => rfl
    | some r => rfl

theorem Steady.processCommandIndexed (h : Steady crc c m) (grow : GrowIo) (cmd : EngineCommand) :
    ∃ m', processCommandIndexed crc grow m cmd = some m' ∧
      MatchingLoop.processCommand crc grow m cmd = some m' ∧ Steady crc c m' := by
  obtain ⟨m', hm', hsteady⟩ := h.processCommand grow cmd
  refine ⟨m', ?_, hm', hsteady⟩
  rw [← hm', MatchingLoop.processCommandIndexed, MatchingLoop.processCommand,
    h.logIndexed_eq grow cmd]
  obtain ⟨m₁, hlog, -⟩ := h.log grow cmd
  have hwf : m₁.engine.book.WF := by
    rcases log_cases hlog with ⟨-, rfl⟩ | ⟨w, w', result, -, -, rfl⟩
    · exact h.sound.wf
    · exact h.sound.wf
  rw [hlog]
  cases cmd with
  | newOrder o =>
    have hadd := MatchingEngine.addOrderIndexed_eq hwf o
    cases hresult : m₁.engine.addOrder o with
    | mk e res =>
      rw [hresult] at hadd
      cases res with
      | ok result => simp only [hadd, hresult, Option.bind_eq_bind, Option.bind_some]
      | error err => simp only [hadd, hresult, Option.bind_eq_bind, Option.bind_some]
  | cancelOrder id =>
    simp only [MatchingEngine.cancelOrderIndexed_eq hwf, Option.bind_eq_bind, Option.bind_some]

theorem Steady.countCommandIndexed_eq (h : Steady crc c m) (save : Snapshot.SaveIo) :
    countCommandIndexed crc bincode save m = some (MatchingLoop.countCommand crc bincode save m) := by
  have hwf := h.sound.wf
  unfold countCommandIndexed MatchingLoop.countCommand
  simp only [Snapshot.captureIndexed_eq crc bincode hwf, Option.bind_eq_bind, Option.bind_some]
  cases m.wal with
  | none => rfl
  | some w =>
    cases m.snapshotDir with
    | false => rfl
    | true =>
      dsimp only
      split_ifs <;> rfl

/-- **A round is made as in the model without panics.** -/
theorem Steady.stepIndexed_eq {s : Phase × MatchingLoop} (h : Steady crc c s.2) (event : Event) :
    stepIndexed crc bincode s event = MatchingLoop.step crc bincode s event := by
  obtain ⟨phase, m⟩ := s
  cases event with
  | empty shutdown => cases phase <;> rfl
  | command cmd grow save =>
    obtain ⟨m', hindexed, hm', hsteady⟩ := h.processCommandIndexed grow cmd
    cases phase with
    | running =>
      simp only [stepIndexed, MatchingLoop.step, hindexed, hm', Option.bind_eq_bind,
        Option.bind_some, hsteady.countCommandIndexed_eq, Option.map_some]
    | draining =>
      simp only [stepIndexed, MatchingLoop.step, hindexed, hm', Option.bind_eq_bind,
        Option.bind_some, Option.map_some]
    | stopped => rfl

theorem Steady.runIndexed_eq {s : Phase × MatchingLoop} (h : Steady crc c s.2)
    (events : List Event) :
    runIndexed crc bincode s events = MatchingLoop.run crc bincode s events := by
  induction events generalizing s with
  | nil => rfl
  | cons event events ih =>
    rw [runIndexed, List.foldlM_cons, h.stepIndexed_eq, MatchingLoop.run]
    cases hs : MatchingLoop.step crc bincode s event with
    | none => rfl
    | some s' =>
      have hrun : MatchingLoop.run crc bincode s [event] = some s' := by
        simp only [MatchingLoop.run, hs]
      exact ih (h.run hrun)

theorem startIndexed_eq (crc : List UInt8 → UInt32) (bincode : Bincode) (io : RecoverIo)
    (dataDir : Option DataDir) (c : UInt32) (interval : UInt64) :
    startIndexed crc bincode io dataDir c interval = start crc bincode io dataDir c interval := by
  unfold startIndexed start
  cases dataDir with
  | none => rfl
  | some dir =>
    obtain ⟨dir', r, hrec, hindexed⟩ := Recovery.recoverIndexed_eq crc bincode io dir c
    simp only [hrec, hindexed, Option.bind_eq_bind, Option.bind_some]
    cases r with
    | error e => rfl
    | ok r => rfl

/-- **The matching thread does not panic on an index.** Whatever the directory held, whichever
commands come and whichever calls fail: the gateway starts, and every round up to the end of its
loop can be made with all indices checked, and does what it does without the checks. -/
theorem stepIndexed_of_start (crc : List UInt8 → UInt32) (bincode : Bincode) (io : RecoverIo)
    (dataDir : Option DataDir) (c : UInt32) (interval : UInt64) :
    ∃ s₀, startIndexed crc bincode io dataDir c interval = some s₀ ∧
      start crc bincode io dataDir c interval = some s₀ ∧
      ∀ events, runIndexed crc bincode s₀ events = run crc bincode s₀ events ∧
        ∀ s, runIndexed crc bincode s₀ events = some s → s.1 ≠ .stopped →
          ∀ event, ∃ s', stepIndexed crc bincode s event = some s' := by
  obtain ⟨s₀, hs₀, -, hsteady⟩ := steady_start crc bincode io dataDir c interval
  refine ⟨s₀, (startIndexed_eq ..).trans hs₀, hs₀, ?_⟩
  intro events
  refine ⟨hsteady.runIndexed_eq events, ?_⟩
  intro s hrun hphase event
  rw [hsteady.runIndexed_eq] at hrun
  have hs := hsteady.run hrun
  obtain ⟨s', hs', -⟩ := hs.step bincode hphase event
  exact ⟨s', (hs.stepIndexed_eq event).trans hs'⟩

/-- A trade, and the shutdown. -/
theorem stepIndexed_of_start_trade : ∃ s₀ s,
    startIndexed crc32 .fixint .ok none 4 10 = some s₀ ∧
      runIndexed crc32 .fixint s₀ [.command (.newOrder ⟨1, 10, .ask, 100, 5, 7⟩) .ok .ok,
        .command (.newOrder ⟨2, 11, .bid, 100, 2, 8⟩) .ok .ok, .empty true] = some s ∧
      s.1 = .draining ∧ s.2.sent.length = 1 ∧
      ∀ event, ∃ s', stepIndexed crc32 .fixint s event = some s' := by
  obtain ⟨s₀, hstart, -, hrun⟩ := stepIndexed_of_start crc32 .fixint .ok none 4 10
  obtain rfl : enter (MatchingEngine.withCapacity 4) none false ⟨none, none⟩ 10 = s₀ :=
    Option.some.inj hstart
  obtain ⟨s, hs, hphase, hlen⟩ : ∃ s, runIndexed crc32 .fixint
      (enter (MatchingEngine.withCapacity 4) none false ⟨none, none⟩ 10)
      [.command (.newOrder ⟨1, 10, .ask, 100, 5, 7⟩) .ok .ok,
        .command (.newOrder ⟨2, 11, .bid, 100, 2, 8⟩) .ok .ok, .empty true] = some s ∧
      s.1 = .draining ∧ s.2.sent.length = 1 :=
    ⟨_, rfl, by decide +kernel, by decide +kernel⟩
  have hrunning : s.1 ≠ .stopped := by
    rw [hphase]
    decide
  exact ⟨_, s, hstart, hs, hphase, hlen, (hrun _).2 s hs hrunning⟩

end MatchingLoop

end Ferrox
