import Ferrox.Matching
import Ferrox.Lib.Bytes

/-!
# The wire protocol

The binary messages of `src/protocol.rs`, which are also the payloads of the write-ahead log. All
numbers are little-endian; a message has a fixed size and fixed offsets, and unused bytes are zero.
A buffer is a byte list; encoding overwrites the front of one and reports how much it wrote.
-/

namespace Ferrox

open Bytes

def msgNewOrder : UInt8 := 0x01
def msgCancelOrder : UInt8 := 0x02
def msgExecutionReport : UInt8 := 0x03

def newOrderSize : Nat := 40
def cancelOrderSize : Nat := 16
def executionReportSize : Nat := 48

inductive EngineCommand where
  | newOrder (order : Order)
  | cancelOrder (orderId : UInt64)
  deriving DecidableEq, Repr

structure ExecutionReport where
  seqNum : UInt32
  takerOrderId : UInt64
  makerOrderId : UInt64
  price : Int64
  quantity : UInt64
  timestamp : UInt64
  deriving DecidableEq, Repr

inductive ProtocolError where
  | bufferTooShort
  | unknownMessageType (t : UInt8)
  | invalidSide (s : UInt8)
  | zeroQuantity
  deriving DecidableEq, Repr

namespace Protocol

/-! ## Fields -/

def readU8 (buf : List UInt8) (offset : Nat) : Except ProtocolError UInt8 :=
  match buf[offset]? with
  | some b => .ok b
  | none => .error .bufferTooShort

/-- `n` bytes at an offset, as a number. -/
def readLE (n : Nat) (buf : List UInt8) (offset : Nat) : Except ProtocolError Nat :=
  if offset + n ≤ buf.length then .ok (ofLE (slice buf offset n)) else .error .bufferTooShort

def readU32 (buf : List UInt8) (offset : Nat) : Except ProtocolError UInt32 :=
  (readLE 4 buf offset).map UInt32.ofNat

def readU64 (buf : List UInt8) (offset : Nat) : Except ProtocolError UInt64 :=
  (readLE 8 buf offset).map UInt64.ofNat

def readI64 (buf : List UInt8) (offset : Nat) : Except ProtocolError Int64 :=
  (readLE 8 buf offset).map fun n => (UInt64.ofNat n).toInt64

/-- Bytes written at an offset. -/
def writeBytes (buf : List UInt8) (offset : Nat) (bs : List UInt8) :
    Except ProtocolError (List UInt8) :=
  if offset + bs.length ≤ buf.length then .ok (overwrite buf offset bs) else .error .bufferTooShort

def writeU8 (buf : List UInt8) (offset : Nat) (val : UInt8) : Except ProtocolError (List UInt8) :=
  writeBytes buf offset [val]

def writeU32 (buf : List UInt8) (offset : Nat) (val : UInt32) :
    Except ProtocolError (List UInt8) :=
  writeBytes buf offset (leBytes 4 val.toNat)

def writeU64 (buf : List UInt8) (offset : Nat) (val : UInt64) :
    Except ProtocolError (List UInt8) :=
  writeBytes buf offset (leBytes 8 val.toNat)

def writeI64 (buf : List UInt8) (offset : Nat) (val : Int64) : Except ProtocolError (List UInt8) :=
  writeBytes buf offset (leBytes 8 val.toUInt64.toNat)

def decodeSide (val : UInt8) : Except ProtocolError Side :=
  if val = 0 then .ok .bid else if val = 1 then .ok .ask else .error (.invalidSide val)

def encodeSide : Side → UInt8
  | .bid => 0
  | .ask => 1

/-! ## Messages -/

def decodeNewOrder (buf : List UInt8) : Except ProtocolError Order :=
  if buf.length < newOrderSize then .error .bufferTooShort
  else do
    let side ← decodeSide (← readU8 buf 1)
    let orderId ← readU64 buf 8
    let traderId ← readU64 buf 16
    let price ← readI64 buf 24
    let quantity ← readU64 buf 32
    if quantity = 0 then .error .zeroQuantity
    else .ok { id := orderId, traderId, side, price, quantity, timestamp := 0 }

def encodeNewOrder (buf : List UInt8) (order : Order) :
    Except ProtocolError (List UInt8 × Nat) :=
  if buf.length < newOrderSize then .error .bufferTooShort
  else do
    let buf := overwrite buf 0 (List.replicate newOrderSize 0)
    let buf ← writeU8 buf 0 msgNewOrder
    let buf ← writeU8 buf 1 (encodeSide order.side)
    let buf ← writeU64 buf 8 order.id
    let buf ← writeU64 buf 16 order.traderId
    let buf ← writeI64 buf 24 order.price
    let buf ← writeU64 buf 32 order.quantity
    .ok (buf, newOrderSize)

def decodeCancelOrder (buf : List UInt8) : Except ProtocolError UInt64 :=
  if buf.length < cancelOrderSize then .error .bufferTooShort else readU64 buf 8

def encodeCancelOrder (buf : List UInt8) (orderId : UInt64) :
    Except ProtocolError (List UInt8 × Nat) :=
  if buf.length < cancelOrderSize then .error .bufferTooShort
  else do
    let buf := overwrite buf 0 (List.replicate cancelOrderSize 0)
    let buf ← writeU8 buf 0 msgCancelOrder
    let buf ← writeU64 buf 8 orderId
    .ok (buf, cancelOrderSize)

def decodeMessage (buf : List UInt8) : Except ProtocolError EngineCommand := do
  let msgType ← readU8 buf 0
  if msgType = msgNewOrder then .ok (.newOrder (← decodeNewOrder buf))
  else if msgType = msgCancelOrder then .ok (.cancelOrder (← decodeCancelOrder buf))
  else .error (.unknownMessageType msgType)

def messageSize (msgType : UInt8) : Except ProtocolError Nat :=
  if msgType = msgNewOrder then .ok newOrderSize
  else if msgType = msgCancelOrder then .ok cancelOrderSize
  else .error (.unknownMessageType msgType)

def encodeExecutionReport (buf : List UInt8) (seqNum : UInt32) (fill : Fill) (timestamp : UInt64) :
    Except ProtocolError (List UInt8 × Nat) :=
  if buf.length < executionReportSize then .error .bufferTooShort
  else do
    let buf := overwrite buf 0 (List.replicate executionReportSize 0)
    let buf ← writeU8 buf 0 msgExecutionReport
    let buf ← writeU32 buf 4 seqNum
    let buf ← writeU64 buf 8 fill.takerOrderId
    let buf ← writeU64 buf 16 fill.makerOrderId
    let buf ← writeI64 buf 24 fill.price
    let buf ← writeU64 buf 32 fill.quantity
    let buf ← writeU64 buf 40 timestamp
    .ok (buf, executionReportSize)

def decodeExecutionReport (buf : List UInt8) : Except ProtocolError ExecutionReport :=
  if buf.length < executionReportSize then .error .bufferTooShort
  else do
    .ok {
      seqNum := ← readU32 buf 4
      takerOrderId := ← readU64 buf 8
      makerOrderId := ← readU64 buf 16
      price := ← readI64 buf 24
      quantity := ← readU64 buf 32
      timestamp := ← readU64 buf 40 }

end Protocol

end Ferrox
