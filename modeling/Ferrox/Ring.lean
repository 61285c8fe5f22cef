import Ferrox.Lib.Circular

/-!
# The ring buffer

The single-producer single-consumer ring of `ring.rs`, as two threads that take turns in any order.
A call is cut where the other thread can act: at the check of the cached cursor, the load of the
other side's cursor, the access to the slot and the store of the own cursor. What a thread computes
in between belongs to the step before it.

A load does not have to see the latest store. An atomic cursor is the list of all values stored to
it, and a load may read any of them that is not older than the one its thread read last.
-/

namespace Ferrox

universe u

/-! ## Memory -/

/-- `Slot<T>`: storage for one value. Reading copies the bits and leaves them where they are, so a
slot also tells whether its value is still owned by the ring (`live`) or by somebody else
(`taken`). -/
inductive Slot (T : Type u) where
  | uninit
  | live (value : T)
  | taken (value : T)
deriving DecidableEq

namespace Slot

variable {T : Type u}

/-- The value the ring owns. -/
def unread? : Slot T → Option T
  | .live value => some value
  | _ => none

/-- `assume_init_read`; there is nothing to read from uninitialized storage. -/
def read : Slot T → Option (T × Slot T)
  | .uninit => none
  | .live value => some (value, .taken value)
  | .taken value => some (value, .taken value)

/-- `assume_init_drop`. Only a value the ring owns may be dropped. -/
def dropInPlace : Slot T → Option (T × Slot T)
  | .live value => some (value, .taken value)
  | _ => none

end Slot

/-- An atomic cursor: the values stored to it, oldest first. The first one is its initial value. -/
structure AtomicUsize where
  stores : List UInt64
  stores_ne_nil : stores ≠ []
deriving DecidableEq

namespace AtomicUsize

def new (value : UInt64) : AtomicUsize := ⟨[value], List.cons_ne_nil _ _⟩

/-- A load that sees the store number `i`. -/
def load (a : AtomicUsize) (i : Nat) : Option UInt64 := a.stores[i]?

def store (a : AtomicUsize) (value : UInt64) : AtomicUsize :=
  ⟨a.stores ++ [value], List.append_ne_nil_of_right_ne_nil _ (List.cons_ne_nil _ _)⟩

/-- What a thread reads that is alone with the cursor. -/
def latest (a : AtomicUsize) : UInt64 := a.stores.getLast a.stores_ne_nil

end AtomicUsize

structure RingBufferInner (T : Type u) where
  buffer : List (Slot T)
  capacity : UInt64
  mask : UInt64
  head : AtomicUsize
  tail : AtomicUsize
deriving DecidableEq

/-- The index `slot` computes for a cursor. -/
def RingBufferInner.slotIndex {T : Type u} (inner : RingBufferInner T) (cursor : UInt64) : Nat :=
  (cursor &&& inner.mask).toNat

/-! ## The two ends -/

/-- `Full<T>` -/
structure Full (T : Type u) where
  value : T
deriving DecidableEq

/-- `Empty` -/
inductive Empty where
  | empty
deriving DecidableEq

/-- Where the producer is in `push`. -/
inductive PushPhase (T : Type u) where
  | idle
  | loadTail (value : T)
  | writeSlot (value : T)
  | storeHead (value : T)
deriving DecidableEq

/-- The producer, with what its last call returned. -/
structure Producer (T : Type u) where
  cachedHead : UInt64
  cachedTail : UInt64
  phase : PushPhase T
  result : Option (Except (Full T) Unit)
deriving DecidableEq

/-- Where the consumer is in `pop`. -/
inductive PopPhase (T : Type u) where
  | idle
  | loadHead
  | readSlot
  | storeTail (value : T)
deriving DecidableEq

/-- The consumer, with what its last call returned. -/
structure Consumer (T : Type u) where
  cachedTail : UInt64
  cachedHead : UInt64
  phase : PopPhase T
  result : Option (Except Empty T)
deriving DecidableEq

/-- A ring in use. `tailSeen` and `headSeen` number the stores that the producer and the consumer
read last; `pushed` and `popped` list the calls that returned `Ok`, each as the cursor it used and
its value. -/
structure Ring (T : Type u) where
  inner : RingBufferInner T
  producer : Producer T
  consumer : Consumer T
  tailSeen : Nat
  headSeen : Nat
  pushed : List (UInt64 × T)
  popped : List (UInt64 × T)
deriving DecidableEq

/-! ## `ring_buffer` -/

/-- `usize::is_power_of_two` -/
def isPowerOfTwo (n : UInt64) : Prop := ∃ k < 64, n.toNat = 2 ^ k

instance (n : UInt64) : Decidable (isPowerOfTwo n) :=
  inferInstanceAs (Decidable (∃ k < 64, n.toNat = 2 ^ k))

/-- The ring as it is made, unless one of the two assertions fails. -/
def ringBuffer (T : Type u) (capacity : UInt64) : Option (Ring T) :=
  if capacity > 0 then
    if isPowerOfTwo capacity then
      some {
        inner := {
          buffer := List.replicate capacity.toNat .uninit
          capacity
          mask := capacity - 1
          head := .new 0
          tail := .new 0 }
        producer := { cachedHead := 0, cachedTail := 0, phase := .idle, result := none }
        consumer := { cachedTail := 0, cachedHead := 0, phase := .idle, result := none }
        tailSeen := 0
        headSeen := 0
        pushed := []
        popped := [] }
    else none
  else none

/-! ## Steps -/

/-- A step of one of the threads. A load comes with the number of the store it sees. -/
inductive RingEvent (T : Type u) where
  | push (value : T)
  | loadTail (i : Nat)
  | writeSlot
  | storeHead
  | pop
  | loadHead (i : Nat)
  | readSlot
  | storeTail
deriving DecidableEq

namespace Ring

variable {T : Type u} (noCursorCache : Bool)

/-- `push` is called, and checks the cached cursor. -/
def push (s : Ring T) (value : T) : Option (Ring T) :=
  match s.producer.phase with
  | .idle =>
      if noCursorCache ∨ s.producer.cachedHead - s.producer.cachedTail = s.inner.capacity then
        some { s with producer := { s.producer with phase := .loadTail value, result := none } }
      else
        some { s with producer := { s.producer with phase := .writeSlot value, result := none } }
  | _ => none

/-- `push` loads the tail, and checks again. -/
def loadTail (s : Ring T) (i : Nat) : Option (Ring T) :=
  match s.producer.phase with
  | .loadTail value =>
      if s.tailSeen ≤ i then
        match s.inner.tail.load i with
        | none => none
        | some tail =>
            if s.producer.cachedHead - tail = s.inner.capacity then
              some { s with
                producer := { s.producer with
                  cachedTail := tail, phase := .idle, result := some (.error ⟨value⟩) }
                tailSeen := i }
            else
              some { s with
                producer := { s.producer with cachedTail := tail, phase := .writeSlot value }
                tailSeen := i }
      else none
  | _ => none

/-- `push` writes the slot. An index that is out of bounds is a panic. -/
def writeSlot (s : Ring T) : Option (Ring T) :=
  match s.producer.phase with
  | .writeSlot value =>
      let index := s.inner.slotIndex s.producer.cachedHead
      if index < s.inner.buffer.length then
        some { s with
          inner := { s.inner with buffer := s.inner.buffer.set index (.live value) }
          producer := { s.producer with phase := .storeHead value } }
      else none
  | _ => none

/-- `push` stores the head, and returns. -/
def storeHead (s : Ring T) : Option (Ring T) :=
  match s.producer.phase with
  | .storeHead value =>
      let head := s.producer.cachedHead
      some { s with
        inner := { s.inner with head := s.inner.head.store (head + 1) }
        producer := { s.producer with
          cachedHead := head + 1, phase := .idle, result := some (.ok ()) }
        pushed := s.pushed ++ [(head, value)] }
  | _ => none

/-- `pop` is called, and checks the cached cursor. -/
def pop (s : Ring T) : Option (Ring T) :=
  match s.consumer.phase with
  | .idle =>
      if noCursorCache ∨ s.consumer.cachedTail = s.consumer.cachedHead then
        some { s with consumer := { s.consumer with phase := .loadHead, result := none } }
      else
        some { s with consumer := { s.consumer with phase := .readSlot, result := none } }
  | _ => none

/-- `pop` loads the head, and checks again. -/
def loadHead (s : Ring T) (i : Nat) : Option (Ring T) :=
  match s.consumer.phase with
  | .loadHead =>
      if s.headSeen ≤ i then
        match s.inner.head.load i with
        | none => none
        | some head =>
            if s.consumer.cachedTail = head then
              some { s with
                consumer := { s.consumer with
                  cachedHead := head, phase := .idle, result := some (.error .empty) }
                headSeen := i }
            else
              some { s with
                consumer := { s.consumer with cachedHead := head, phase := .readSlot }
                headSeen := i }
      else none
  | _ => none

/-- `pop` reads the slot. -/
def readSlot (s : Ring T) : Option (Ring T) :=
  match s.consumer.phase with
  | .readSlot =>
      let index := s.inner.slotIndex s.consumer.cachedTail
      match s.inner.buffer[index]?.bind Slot.read with
      | none => none
      | some (value, slot) =>
          some { s with
            inner := { s.inner with buffer := s.inner.buffer.set index slot }
            consumer := { s.consumer with phase := .storeTail value } }
  | _ => none

/-- `pop` stores the tail, and returns. -/
def storeTail (s : Ring T) : Option (Ring T) :=
  match s.consumer.phase with
  | .storeTail value =>
      let tail := s.consumer.cachedTail
      some { s with
        inner := { s.inner with tail := s.inner.tail.store (tail + 1) }
        consumer := { s.consumer with
          cachedTail := tail + 1, phase := .idle, result := some (.ok value) }
        popped := s.popped ++ [(tail, value)] }
  | _ => none

def step (s : Ring T) : RingEvent T → Option (Ring T)
  | .push value => s.push noCursorCache value
  | .loadTail i => s.loadTail i
  | .writeSlot => s.writeSlot
  | .storeHead => s.storeHead
  | .pop => s.pop noCursorCache
  | .loadHead i => s.loadHead i
  | .readSlot => s.readSlot
  | .storeTail => s.storeTail

/-- An interleaving of the two threads. -/
def run (s : Ring T) : List (RingEvent T) → Option (Ring T)
  | [] => some s
  | event :: events =>
      match s.step noCursorCache event with
      | none => none
      | some s => run s events

end Ring

/-! ## `Drop` -/

namespace RingBufferInner

variable {T : Type u}

/-- The loop of `drop`, from `i` on: the index of every slot it visits, with the value it drops
there. -/
def dropLoop (mask head : UInt64) (buffer : List (Slot T)) (i : UInt64) :
    Option (List (Slot T) × List (Nat × T)) :=
  if _h : i = head then some (buffer, [])
  else
    let index := (i &&& mask).toNat
    match buffer[index]?.bind Slot.dropInPlace with
    | none => none
    | some (value, slot) =>
        (dropLoop mask head (buffer.set index slot) (i + 1)).map fun (buffer, visited) =>
          (buffer, (index, value) :: visited)
termination_by (head - i).toNat
decreasing_by exact Circular.toNat_sub_succ_lt ‹_›

/-- `drop`, when both ends are gone. -/
def drop (inner : RingBufferInner T) : Option (List (Slot T) × List (Nat × T)) :=
  dropLoop inner.mask inner.head.latest inner.buffer inner.tail.latest

end RingBufferInner

end Ferrox
