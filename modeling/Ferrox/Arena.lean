import Ferrox.Order

/-!
# The order arena

Resting orders live in a fixed pool of nodes, following `src/arena.rs`. A node is linked either
into the free list (through `next` only) or into the queue of one price level (through `next` and
`prev`); the pool never grows. The index `arenaNull = u32::MAX` ends every list.

`Vec<OrderNode>` is a list of nodes. Indexing is total here, with a zeroed node outside the pool,
where the code panics: `Ferrox.Indexed` has the operations that do, and `Ferrox.IndexedProof` shows
that they never do so on a well-formed book. The counters are machine words and wrap as they do in a
release build.
-/

namespace Ferrox

inductive ArenaError where
  | full
  deriving DecidableEq, Repr

/-- The index that ends a list: `u32::MAX`. -/
def arenaNull : UInt32 := 0xFFFFFFFF

/-- A pooled order with its links. -/
structure OrderNode where
  id : UInt64
  traderId : UInt64
  price : Int64
  quantity : UInt64
  timestamp : UInt64
  prev : UInt32
  next : UInt32
  side : Side
  deriving DecidableEq, Repr

namespace OrderNode

def zeroed : OrderNode where
  id := 0
  traderId := 0
  price := 0
  quantity := 0
  timestamp := 0
  prev := arenaNull
  next := arenaNull
  side := .bid

def fromOrder (order : Order) : OrderNode where
  id := order.id
  traderId := order.traderId
  price := order.price
  quantity := order.quantity
  timestamp := order.timestamp
  prev := arenaNull
  next := arenaNull
  side := order.side

def toOrder (n : OrderNode) : Order where
  id := n.id
  traderId := n.traderId
  side := n.side
  price := n.price
  quantity := n.quantity
  timestamp := n.timestamp

end OrderNode

/-- The queue of one price: its two ends, its length and its total quantity. -/
structure PriceLevel where
  head : UInt32
  tail : UInt32
  count : UInt32
  qty : UInt64
  deriving DecidableEq, Repr

def PriceLevel.new : PriceLevel where
  head := arenaNull
  tail := arenaNull
  count := 0
  qty := 0

structure Arena where
  storage : List OrderNode
  freeHead : UInt32
  count : UInt32
  capacity : UInt32
  deriving DecidableEq, Repr

namespace Arena

/-- All nodes on the free list, in index order. -/
def new (capacity : UInt32) : Arena where
  storage := (List.range capacity.toNat).map fun i =>
    { OrderNode.zeroed with
      next := if i + 1 < capacity.toNat then UInt32.ofNat (i + 1) else arenaNull }
  freeHead := if 0 < capacity then 0 else arenaNull
  count := 0
  capacity := capacity

/-- `self.storage[index as usize]`, also as `get` and the target of `get_mut`. -/
def get (a : Arena) (index : UInt32) : OrderNode := a.storage.getD index.toNat OrderNode.zeroed

/-- Overwrite a node: assignment through `self.storage[index as usize]` or `get_mut`. -/
def set (a : Arena) (index : UInt32) (n : OrderNode) : Arena :=
  { a with storage := a.storage.set index.toNat n }

def setNext (a : Arena) (index next : UInt32) : Arena :=
  a.set index { a.get index with next }

def setPrev (a : Arena) (index prev : UInt32) : Arena :=
  a.set index { a.get index with prev }

def alloc (a : Arena) (order : Order) : Arena × Except ArenaError UInt32 :=
  if a.freeHead = arenaNull then (a, .error .full)
  else
    let index := a.freeHead
    let a := { a with freeHead := (a.get index).next }
    let a := a.set index (OrderNode.fromOrder order)
    ({ a with count := a.count + 1 }, .ok index)

def dealloc (a : Arena) (index : UInt32) : Arena :=
  let a := a.setNext index a.freeHead
  { a with freeHead := index, count := a.count - 1 }

def pushBack (a : Arena) (level : PriceLevel) (index : UInt32) : Arena × PriceLevel :=
  let quantity := (a.get index).quantity
  let (a, level) :=
    if level.tail ≠ arenaNull then
      let oldTail := level.tail
      ((a.setNext oldTail index).setPrev index oldTail, level)
    else (a.setPrev index arenaNull, { level with head := index })
  (a.setNext index arenaNull,
    { level with tail := index, count := level.count + 1, qty := level.qty + quantity })

def popFront (a : Arena) (level : PriceLevel) : Arena × PriceLevel × Option UInt32 :=
  if level.head = arenaNull then (a, level, none)
  else
    let index := level.head
    let next := (a.get index).next
    let quantity := (a.get index).quantity
    let (a, level) :=
      if next ≠ arenaNull then (a.setPrev next arenaNull, { level with head := next })
      else (a, { level with head := arenaNull, tail := arenaNull })
    (a, { level with count := level.count - 1, qty := level.qty - quantity }, some index)

def remove (a : Arena) (level : PriceLevel) (index : UInt32) : Arena × PriceLevel :=
  let prevIdx := (a.get index).prev
  let nextIdx := (a.get index).next
  let quantity := (a.get index).quantity
  let (a, level) :=
    if prevIdx ≠ arenaNull then (a.setNext prevIdx nextIdx, level)
    else (a, { level with head := nextIdx })
  let (a, level) :=
    if nextIdx ≠ arenaNull then (a.setPrev nextIdx prevIdx, level)
    else (a, { level with tail := prevIdx })
  (a, { level with count := level.count - 1, qty := level.qty - quantity })

end Arena

end Ferrox
