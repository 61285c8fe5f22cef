import Ferrox.Gateway
import Ferrox.MatchingProof

/-!
# Indices are checked

Rust checks every index. `storage[i]` panics for an `i` outside the vector, and so does a range that
leaves its slice. `Ferrox.Arena` and `Ferrox.Wal` read zeroed nodes and shorter ranges there, which
is convenient and hides the panic.

Here `none` is that panic, and every index is checked where the source has it: in the arena, in the
walks over the levels, in the scan, the iterator and the appends of the log. Everything on top of
them, from the engine to the rounds of the matching thread and to the recovery it starts with,
passes a panic on. Counters wrap as in a release build; `Ferrox.Checked` is about the other builds.

The fields of messages have no such index: they are read and written through `get` and `get_mut`,
behind a check of the length.
-/

namespace Ferrox

open Bytes

namespace Arena

/-! ## The arena -/

/-- `self.storage[index as usize]`. -/
def read (a : Arena) (index : UInt32) : Option OrderNode := a.storage[index.toNat]?

/-- An assignment to `self.storage[index as usize]`, or to fields of it. -/
def modify (a : Arena) (index : UInt32) (f : OrderNode → OrderNode) : Option Arena :=
  (a.read index).map fun node => { a with storage := a.storage.set index.toNat (f node) }

def allocIndexed (a : Arena) (order : Order) : Option (Arena × Except ArenaError UInt32) :=
  if a.freeHead = arenaNull then some (a, .error .full)
  else do
    let index := a.freeHead
    let node ← a.read index
    let a := { a with freeHead := node.next }
    let a ← a.modify index fun _ => OrderNode.fromOrder order
    some ({ a with count := a.count + 1 }, .ok index)

def deallocIndexed (a : Arena) (index : UInt32) : Option Arena := do
  let a ← a.modify index fun node => { node with next := a.freeHead }
  some { a with freeHead := index, count := a.count - 1 }

def pushBackIndexed (a : Arena) (level : PriceLevel) (index : UInt32) :
    Option (Arena × PriceLevel) := do
  let quantity := (← a.read index).quantity
  let (a, level) ←
    if level.tail ≠ arenaNull then do
      let oldTail := level.tail
      let a ← a.modify oldTail fun node => { node with next := index }
      let a ← a.modify index fun node => { node with prev := oldTail }
      some (a, level)
    else do
      let a ← a.modify index fun node => { node with prev := arenaNull }
      some (a, { level with head := index })
  let a ← a.modify index fun node => { node with next := arenaNull }
  some (a, { level with tail := index, count := level.count + 1, qty := level.qty + quantity })

def popFrontIndexed (a : Arena) (level : PriceLevel) :
    Option (Arena × PriceLevel × Option UInt32) :=
  if level.head = arenaNull then some (a, level, none)
  else do
    let index := level.head
    let next := (← a.read index).next
    let quantity := (← a.read index).quantity
    let (a, level) ←
      if next ≠ arenaNull then do
        let a ← a.modify next fun node => { node with prev := arenaNull }
        some (a, { level with head := next })
      else some (a, { level with head := arenaNull, tail := arenaNull })
    some (a, { level with count := level.count - 1, qty := level.qty - quantity }, some index)

-- a level whose head is outside the pool
example : (Arena.new 2).popFrontIndexed ⟨7, 7, 1, 5⟩ = none := by decide

def removeIndexed (a : Arena) (level : PriceLevel) (index : UInt32) :
    Option (Arena × PriceLevel) := do
  let prevIdx := (← a.read index).prev
  let nextIdx := (← a.read index).next
  let quantity := (← a.read index).quantity
  let (a, level) ←
    if prevIdx ≠ arenaNull then do
      let a ← a.modify prevIdx fun node => { node with next := nextIdx }
      some (a, level)
    else some (a, { level with head := nextIdx })
  let (a, level) ←
    if nextIdx ≠ arenaNull then do
      let a ← a.modify nextIdx fun node => { node with prev := prevIdx }
      some (a, level)
    else some (a, { level with tail := prevIdx })
  some (a, { level with count := level.count - 1, qty := level.qty - quantity })

end Arena

namespace OrderBook

/-! ## The book -/

def insertOrderIndexed (b : OrderBook) (order : Order) :
    Option (OrderBook × Except BookError Unit) :=
  if order.id ∈ b.orderIndex then some (b, .error (.duplicateOrderId order.id))
  else do
    match ← b.arena.allocIndexed order with
    | (arena, .error e) => some ({ b with arena }, .error (.ofArena e))
    | (arena, .ok index) =>
        let level := ((b.levels order.side).get? order.price).getD PriceLevel.new
        let (arena, level) ← arena.pushBackIndexed level index
        let b := b.setLevels order.side ((b.levels order.side).insert order.price level)
        let b := { b with arena, orderIndex := b.orderIndex.insert order.id index }
        some (b.updateBestAfterInsert order.side order.price, .ok ())

def cancelOrderIndexed (b : OrderBook) (orderId : UInt64) :
    Option (OrderBook × Except BookError Order) :=
  match b.orderIndex.lookup orderId with
  | none => some (b, .error (.orderNotFound orderId))
  | some index => do
      let b := { b with orderIndex := b.orderIndex.erase orderId }
      let order := (← b.arena.read index).toOrder
      match (b.levels order.side).get? order.price with
      | none => some (b, .error (.priceLevelNotFound order.price))
      | some level =>
          let (arena, level) ← b.arena.removeIndexed level index
          let arena ← arena.deallocIndexed index
          let b := { b.setLevels order.side ((b.levels order.side).insert order.price level) with
            arena }
          let b := if level.count = 0 then b.removeLevel order.side order.price else b
          some (b, .ok order)

def peekFrontIndexed (b : OrderBook) (side : Side) (price : Int64) : Option (Option OrderNode) :=
  match (b.levels side).get? price with
  | none => some none
  | some level => if level.head = arenaNull then some none else (b.arena.read level.head).map some

def reduceFrontQuantityIndexed (b : OrderBook) (side : Side) (price : Int64) (fillQty : UInt64) :
    Option (OrderBook × Except BookError UInt64) :=
  match (b.levels side).get? price with
  | none => some (b, .error (.priceLevelNotFound price))
  | some level =>
      if level.head = arenaNull then some (b, .error (.priceLevelNotFound price))
      else do
        let headIdx := level.head
        let front ← b.arena.read headIdx
        if front.quantity < fillQty then
          some (b, .error (.fillExceedsQuantity front.quantity fillQty))
        else
          let remaining := front.quantity - fillQty
          let arena ← b.arena.modify headIdx fun front => { front with quantity := remaining }
          let level := { level with qty := level.qty - fillQty }
          if remaining = 0 then
            let removedId := (← arena.read headIdx).id
            let (arena, level, _) ← arena.popFrontIndexed level
            let arena ← arena.deallocIndexed headIdx
            let b := { b.setLevels side ((b.levels side).insert price level) with
              arena, orderIndex := b.orderIndex.erase removedId }
            let b := if level.count = 0 then b.removeLevel side price else b
            some (b, .ok 0)
          else
            some ({ b.setLevels side ((b.levels side).insert price level) with arena },
              .ok remaining)

/-- The loop over the orders of a level, as `walk`. -/
def walkIndexed (a : Arena) : Nat → UInt32 → Option (List Order)
  | 0, _ => some []
  | fuel + 1, idx =>
      if idx = arenaNull then some []
      else do
        let node ← a.read idx
        let orders ← walkIndexed a fuel node.next
        some (node.toOrder :: orders)

/-- The loop over some levels. -/
def levelsIndexed (b : OrderBook) : List PriceLevel → Option (List Order)
  | [] => some []
  | level :: levels => do
      let orders ← walkIndexed b.arena b.arena.storage.length level.head
      let rest ← b.levelsIndexed levels
      some (orders ++ rest)

def allRestingOrdersIndexed (b : OrderBook) : Option (List Order) := do
  let asks ← b.levelsIndexed b.asks.values
  let bids ← b.levelsIndexed b.bids.values.reverse
  some (asks ++ bids)

end OrderBook

namespace MatchingEngine

/-! ## The engine -/

/-- The matching loop against the makers on side `s`. -/
def matchSideIndexed (order : Order) (s : Side) : Nat → Matched → Option Matched
  | 0, m => some m
  | fuel + 1, m =>
      if m.quantity = 0 then some m
      else
        match m.book.bestPrice s with
        | none => some m
        | some best =>
            if Book.crosses order best then do
              match ← m.book.peekFrontIndexed s best with
              | none => some m
              | some maker =>
                  if maker.traderId = order.traderId then some { m with selfTrade := true }
                  else
                    let fillQty := min m.quantity maker.quantity
                    match ← m.book.reduceFrontQuantityIndexed s best fillQty with
                    | (book, .error e) => some { m with book, error := some e }
                    | (book, .ok makerRemaining) =>
                        matchSideIndexed order s fuel { m with
                          book
                          fills := m.fills ++ [{
                            takerOrderId := order.id
                            makerOrderId := maker.id
                            price := maker.price
                            quantity := fillQty
                            makerFullyFilled := makerRemaining = 0 }]
                          quantity := m.quantity - fillQty }
            else some m

def addOrderIndexed (e : MatchingEngine) (order : Order) :
    Option (MatchingEngine × Except MatchingError AddOrderResult) :=
  if order.quantity = 0 then some (e, .error .zeroQuantity)
  else do
    let m ← matchSideIndexed order order.side.opposite (e.book.orderCount + 1)
      { book := e.book, fills := [], quantity := order.quantity, selfTrade := false, error := none }
    match m.error with
    | some err => some (⟨m.book, m.fills⟩, .error (.book err))
    | none =>
        if m.selfTrade then
          some (⟨m.book, m.fills⟩,
            .ok { orderId := order.id, status := .cancelledSelfTrade, fills := m.fills })
        else if m.quantity = 0 then
          some (⟨m.book, m.fills⟩,
            .ok { orderId := order.id, status := .fullyFilled, fills := m.fills })
        else
          match ← m.book.insertOrderIndexed { order with quantity := m.quantity } with
          | (book, .error err) => some (⟨book, m.fills⟩, .error (.book err))
          | (book, .ok ()) =>
              let status := if m.fills = [] then .resting else .partiallyFilled
              some (⟨book, m.fills⟩, .ok { orderId := order.id, status, fills := m.fills })

def cancelOrderIndexed (e : MatchingEngine) (orderId : UInt64) :
    Option (MatchingEngine × Except MatchingError Order) := do
  match ← e.book.cancelOrderIndexed orderId with
  | (book, .error err) => some ({ e with book }, .error (.book err))
  | (book, .ok order) => some ({ e with book }, .ok order)

def insertAllIndexed : List Order → OrderBook → Option (Except BookError OrderBook)
  | [], b => some (.ok b)
  | order :: orders, b => do
      match ← b.insertOrderIndexed order with
      | (_, .error e) => some (.error e)
      | (b, .ok ()) => insertAllIndexed orders b

def restoreFromOrdersIndexed (orders : List Order) (arenaCapacity : UInt32) :
    Option (Except MatchingError MatchingEngine) := do
  match ← insertAllIndexed orders (OrderBook.withCapacity arenaCapacity) with
  | .error e => some (.error (.book e))
  | .ok book => some (.ok ⟨book, []⟩)

def applyCommandIndexed (e : MatchingEngine) : EngineCommand → Option MatchingEngine
  | .newOrder order => (e.addOrderIndexed order).map Prod.fst
  | .cancelOrder orderId => (e.cancelOrderIndexed orderId).map Prod.fst

end MatchingEngine

/-! ## The log -/

/-- `&data[pos..pos + n]`. -/
def sliceIndexed (data : List UInt8) (pos n : Nat) : Option (List UInt8) :=
  if pos + n ≤ data.length then some (slice data pos n) else none

namespace Wal

variable (crc : List UInt8 → UInt32)

def scanLoopIndexed (data : List UInt8) : Nat → Scan → Option Scan
  | 0, scan => some scan
  | fuel + 1, scan =>
      let pos := scan.endPos
      if data.length < pos + headerSize then some scan
      else do
        let payloadLen := ofLE (← sliceIndexed data pos 4)
        if payloadLen = 0 then some scan
        else
          let recordSize := alignUp (headerSize + payloadLen)
          if data.length < pos + recordSize then some scan
          else
            let storedCrc := UInt32.ofNat (ofLE (← sliceIndexed data (pos + 4) 4))
            let computedCrc := crc (← sliceIndexed data (pos + headerSize) payloadLen)
            if storedCrc ≠ computedCrc then some scan
            else scanLoopIndexed data fuel ⟨pos + recordSize, scan.count + 1⟩

def openWithSizeIndexed (io : OpenIo) (file : List UInt8) (initialSize : Nat) :
    Option (List UInt8 × Except WalError Wal) :=
  if io = some .openFile then some (file, .error .io)
  else
    let fileLen := file.length
    let extended : Option (List UInt8) :=
      if fileLen < initialSize then
        if io = some .extend then none else setLen file initialSize
      else some file
    match extended with
    | none => some (file, .error .io)
    | some file =>
        let mappedSize := if fileLen < initialSize then initialSize else fileLen
        if io = some .map then some (file, .error .io)
        else do
          let scan ← scanLoopIndexed crc file file.length ⟨0, 0⟩
          match if io = some .truncate then none else setLen file scan.endPos with
          | none => some (file, .error .io)
          | some file =>
              match if io = some .reextend then none else setLen file mappedSize with
              | none => some (file, .error .io)
              | some file =>
                  if io = some .remap then some (file, .error .io)
                  else
                    some (file, .ok {
                      file
                      mapLen := file.length
                      writePos := scan.endPos
                      mappedSize
                      encodeBuf := List.replicate newOrderSize 0
                      recordCount := scan.count })

/-- The writes of `append`, whose source is checked like their target. -/
def writeRecordIndexed (w : Wal) (payloadLen recordSize : Nat) : Option Wal := do
  let pos := w.writePos
  let payload ← sliceIndexed w.encodeBuf 0 payloadLen
  let w ← w.write pos (leBytes 4 payloadLen)
  let w ← w.write (pos + 4) (leBytes 4 (crc payload).toNat)
  let w ← w.write (pos + headerSize) payload
  let padStart := pos + headerSize + payloadLen
  let padEnd := pos + recordSize
  let w ← if padEnd > padStart then w.write padStart (List.replicate (padEnd - padStart) 0)
    else some w
  some { w with writePos := w.writePos + recordSize, recordCount := w.recordCount + 1 }

def appendIndexed (io : GrowIo) (w : Wal) (cmd : EngineCommand) :
    Option (Wal × Except WalError Nat) :=
  match encode w.encodeBuf cmd with
  | .error e => some (w, .error (.protocol e))
  | .ok (encodeBuf, payloadLen) =>
      let w := { w with encodeBuf }
      let recordSize := alignUp (headerSize + payloadLen)
      match ensureCapacity io w recordSize with
      | (w, .error e) => some (w, .error e)
      | (w, .ok ()) => do
          let w ← writeRecordIndexed crc w payloadLen recordSize
          some (w, .ok w.recordCount)

end Wal

namespace WalIterator

variable (crc : List UInt8 → UInt32)

def nextLoopIndexed : Nat → WalIterator → Option (Option WalItem × WalIterator)
  | 0, it => some (none, it)
  | fuel + 1, it =>
      let p := it.readPos
      if it.endPos < p + headerSize then some (none, it)
      else do
        let payloadLen := ofLE (← sliceIndexed it.mmap p 4)
        if payloadLen = 0 then some (none, it)
        else
          let recordSize := alignUp (headerSize + payloadLen)
          if it.endPos < p + recordSize then some (some (.error (.truncatedRecord p)), it)
          else
            let storedCrc := UInt32.ofNat (ofLE (← sliceIndexed it.mmap (p + 4) 4))
            let payload ← sliceIndexed it.mmap (p + headerSize) payloadLen
            if storedCrc ≠ crc payload then some (some (.error (.corruption p)), it)
            else
              let it := { it with
                readPos := p + recordSize
                currentRecord := it.currentRecord + 1 }
              if it.currentRecord ≤ it.startRecord then nextLoopIndexed fuel it
              else
                match Protocol.decodeMessage payload with
                | .ok cmd => some (some (.ok (it.currentRecord, cmd)), it)
                | .error e => some (some (.error (.protocol e)), it)

end WalIterator

/-! ## Recovery -/

namespace Recovery

variable (crc : List UInt8 → UInt32) (bincode : Bincode)

def replayLoopIndexed (wal : Wal) : Nat → MatchingEngine → WalIterator → Nat →
    Option (Except RecoveryError (MatchingEngine × Wal))
  | 0, engine, _, _ => some (.ok (engine, wal))
  | fuel + 1, engine, it, recordCountAtReplay => do
      match ← it.nextLoopIndexed crc (it.endPos + 1) with
      | (none, _) => some (.ok (engine, wal))
      | (some (.ok (_, cmd)), it) =>
          let engine ← engine.applyCommandIndexed cmd
          replayLoopIndexed wal fuel engine it (recordCountAtReplay + 1)
      | (some (.error (.corruption offset)), _) | (some (.error (.truncatedRecord offset)), _) =>
          let wal ← wal.truncateTo offset recordCountAtReplay
          some (.ok (engine, wal))
      | (some (.error e), _) => some (.error (.wal e))

def startingPointIndexed (dir : Option SnapshotDir) (arenaCapacity : UInt32) :
    Option (Except RecoveryError (MatchingEngine × Nat)) :=
  match dir.bind (Snapshot.loadLatest crc bincode) with
  | none => some (.ok (MatchingEngine.withCapacity arenaCapacity, 0))
  | some snap => do
      match ← MatchingEngine.restoreFromOrdersIndexed snap.orders arenaCapacity with
      | .error e => some (.error (.snapshot (.restore e)))
      | .ok engine => some (.ok (engine, snap.walRecordCount.toNat))

def recoverIndexed (io : RecoverIo) (dir : DataDir) (arenaCapacity : UInt32) :
    Option (DataDir × Except RecoveryError (MatchingEngine × Wal)) :=
  if io.createDirFails then some (dir, .error (.wal .io))
  else if io.readDirFails then some (dir, .error (.snapshot .io))
  else do
    match ← startingPointIndexed crc bincode dir.snapshots arenaCapacity with
    | .error e => some (dir, .error e)
    | .ok (engine, startRecord) =>
        match ← Wal.openWithSizeIndexed crc io.wal (dir.wal.getD []) defaultInitialSize with
        | (file, .error e) =>
            let wal := if io.wal = some .openFile then dir.wal else some file
            some ({ dir with wal }, .error (.wal e))
        | (file, .ok wal) =>
            match ← replayLoopIndexed crc wal (wal.writePos + 1) engine (wal.iterFrom startRecord)
              startRecord with
            | .ok (engine, wal) => some ({ dir with wal := some wal.file }, .ok (engine, wal))
            | result => some ({ dir with wal := some file }, result)

end Recovery

/-! ## The matching thread -/

def Snapshot.captureIndexed (crc : List UInt8 → UInt32) (bincode : Bincode)
    (engine : MatchingEngine) (walRecordCount : UInt64) : Option Snapshot := do
  let orders ← engine.book.allRestingOrdersIndexed
  let bestBid := engine.book.bestBid
  let bestAsk := engine.book.bestAsk
  some { walRecordCount, orders, bestBid, bestAsk
         checksum := computeChecksum crc bincode walRecordCount bestBid bestAsk orders }

namespace MatchingLoop

variable (crc : List UInt8 → UInt32) (bincode : Bincode)

def logIndexed (io : GrowIo) (m : MatchingLoop) (cmd : EngineCommand) : Option MatchingLoop :=
  match m.wal with
  | none => some m
  | some w => do
      let (w, _) ← w.appendIndexed crc io cmd
      some { m with wal := some w, dir := { m.dir with wal := some w.file } }

def processCommandIndexed (io : GrowIo) (m : MatchingLoop) (cmd : EngineCommand) :
    Option MatchingLoop := do
  let m ← logIndexed crc io m cmd
  match cmd with
  | .newOrder order =>
      match ← m.engine.addOrderIndexed order with
      | (engine, .ok result) => some (report order.timestamp result.fills { m with engine })
      | (engine, .error _) => some { m with engine }
  | .cancelOrder orderId =>
      let (engine, _) ← m.engine.cancelOrderIndexed orderId
      some { m with engine }

def countCommandIndexed (io : Snapshot.SaveIo) (m : MatchingLoop) : Option MatchingLoop :=
  let m := { m with cmdsSinceSnapshot := m.cmdsSinceSnapshot + 1 }
  match m.wal, m.snapshotDir with
  | some w, true =>
      if m.cmdsSinceSnapshot ≥ m.snapshotInterval then do
        let snap ← Snapshot.captureIndexed crc bincode m.engine (UInt64.ofNat w.recordCount)
        some { m with
          dir := { m.dir with snapshots := (snap.save bincode io m.dir.snapshots).1 }
          cmdsSinceSnapshot := 0 }
      else some m
  | _, _ => some m

/-- One round. After the end there is none. -/
def stepIndexed : Phase × MatchingLoop → Event → Option (Phase × MatchingLoop)
  | (.running, m), .command cmd grow save => do
      let m ← processCommandIndexed crc grow m cmd
      let m ← countCommandIndexed crc bincode save m
      some (.running, m)
  | (.running, m), .empty shutdown => some (if shutdown then .draining else .running, m)
  | (.draining, m), .command cmd grow _ => do
      let m ← processCommandIndexed crc grow m cmd
      some (.draining, m)
  | (.draining, m), .empty _ => some (.stopped, m)
  | (.stopped, _), _ => none

def runIndexed (s : Phase × MatchingLoop) (events : List Event) :
    Option (Phase × MatchingLoop) :=
  events.foldlM (stepIndexed crc bincode) s

def startIndexed (io : RecoverIo) (dataDir : Option DataDir) (arenaCapacity : UInt32)
    (snapshotInterval : UInt64) : Option (Phase × MatchingLoop) :=
  match dataDir with
  | none =>
      some (enter (MatchingEngine.withCapacity arenaCapacity) none false ⟨none, none⟩
        snapshotInterval)
  | some dir => do
      match ← Recovery.recoverIndexed crc bincode io dir arenaCapacity with
      | (dir, .ok (engine, wal)) => some (enter engine (some wal) true dir snapshotInterval)
      | (dir, .error _) =>
          some (enter (MatchingEngine.withCapacity arenaCapacity) none false dir snapshotInterval)

end MatchingLoop

end Ferrox
