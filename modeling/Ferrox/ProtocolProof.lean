import Ferrox.Protocol

/-!
# Round trips of the wire protocol

Encoding overwrites the front of the buffer with the message and leaves the rest alone; decoding
the message gives back what was encoded. A new order comes back without its timestamp, which the
protocol does not carry.
-/

namespace Ferrox

open Bytes

/-- What survives encoding: everything but an order's timestamp. -/
def EngineCommand.untimed : EngineCommand → EngineCommand
  | .newOrder order => .newOrder order.untimed
  | .cancelOrder orderId => .cancelOrder orderId

/-- A new order has something to trade. -/
def EngineCommand.Tradable : EngineCommand → Prop
  | .newOrder order => order.quantity ≠ 0
  | .cancelOrder _ => True

instance (cmd : EngineCommand) : Decidable cmd.Tradable :=
  match cmd with
  | .newOrder order => inferInstanceAs (Decidable (order.quantity ≠ 0))
  | .cancelOrder _ => inferInstanceAs (Decidable True)

namespace Protocol

/-! ## Messages as bytes -/

def newOrderBytes (o : Order) : List UInt8 :=
  [msgNewOrder, encodeSide o.side] ++ List.replicate 6 0 ++ leBytes 8 o.id.toNat ++
    leBytes 8 o.traderId.toNat ++ leBytes 8 o.price.toUInt64.toNat ++ leBytes 8 o.quantity.toNat

def cancelOrderBytes (orderId : UInt64) : List UInt8 :=
  msgCancelOrder :: List.replicate 7 0 ++ leBytes 8 orderId.toNat

def executionReportBytes (seqNum : UInt32) (fill : Fill) (timestamp : UInt64) : List UInt8 :=
  msgExecutionReport :: List.replicate 3 0 ++ leBytes 4 seqNum.toNat ++
    leBytes 8 fill.takerOrderId.toNat ++ leBytes 8 fill.makerOrderId.toNat ++
    leBytes 8 fill.price.toUInt64.toNat ++ leBytes 8 fill.quantity.toNat ++
    leBytes 8 timestamp.toNat

theorem encodeNewOrder_eq {buf : List UInt8} (h : newOrderSize ≤ buf.length) (o : Order) :
    encodeNewOrder buf o = .ok (newOrderBytes o ++ buf.drop newOrderSize, newOrderSize) := by
  have hfill : overwrite buf 0 (List.replicate newOrderSize 0) =
      List.replicate 40 0 ++ buf.drop newOrderSize := by
    simp [overwrite, newOrderSize]
  rw [encodeNewOrder, if_neg (Nat.not_lt.2 h), hfill]
  generalize buf.drop newOrderSize = rest
  simp [writeU8, writeU64, writeI64, writeBytes, overwrite, leBytes, List.replicate, newOrderBytes,
    newOrderSize, bind, Except.bind]

theorem encodeCancelOrder_eq {buf : List UInt8} (h : cancelOrderSize ≤ buf.length)
    (orderId : UInt64) :
    encodeCancelOrder buf orderId =
      .ok (cancelOrderBytes orderId ++ buf.drop cancelOrderSize, cancelOrderSize) := by
  have hfill : overwrite buf 0 (List.replicate cancelOrderSize 0) =
      List.replicate 16 0 ++ buf.drop cancelOrderSize := by
    simp [overwrite, cancelOrderSize]
  rw [encodeCancelOrder, if_neg (Nat.not_lt.2 h), hfill]
  generalize buf.drop cancelOrderSize = rest
  simp [writeU8, writeU64, writeBytes, overwrite, leBytes, List.replicate, cancelOrderBytes,
    cancelOrderSize, bind, Except.bind]

theorem encodeExecutionReport_eq {buf : List UInt8} (h : executionReportSize ≤ buf.length)
    (seqNum : UInt32) (fill : Fill) (timestamp : UInt64) :
    encodeExecutionReport buf seqNum fill timestamp =
      .ok (executionReportBytes seqNum fill timestamp ++ buf.drop executionReportSize,
        executionReportSize) := by
  have hfill : overwrite buf 0 (List.replicate executionReportSize 0) =
      List.replicate 48 0 ++ buf.drop executionReportSize := by
    simp [overwrite, executionReportSize]
  rw [encodeExecutionReport, if_neg (Nat.not_lt.2 h), hfill]
  generalize buf.drop executionReportSize = rest
  simp [writeU8, writeU32, writeU64, writeI64, writeBytes, overwrite, leBytes, List.replicate,
    executionReportBytes, executionReportSize, bind, Except.bind]

@[simp] theorem length_newOrderBytes (o : Order) : (newOrderBytes o).length = newOrderSize := by
  simp [newOrderBytes, newOrderSize]

@[simp] theorem length_cancelOrderBytes (orderId : UInt64) :
    (cancelOrderBytes orderId).length = cancelOrderSize := by
  simp [cancelOrderBytes, cancelOrderSize]

@[simp] theorem length_executionReportBytes (seqNum : UInt32) (fill : Fill) (timestamp : UInt64) :
    (executionReportBytes seqNum fill timestamp).length = executionReportSize := by
  simp [executionReportBytes, executionReportSize]

/-! ## Reading fields back -/

section Fields

variable {buf : List UInt8} {i : Nat}

theorem readU32_of_slice {x : UInt32} (hi : i + 4 ≤ buf.length)
    (h : slice buf i 4 = leBytes 4 x.toNat) : readU32 buf i = .ok x := by
  rw [readU32, readLE, if_pos hi, h, ofLE_leBytes x.toNat_lt]
  exact congrArg Except.ok UInt32.ofNat_toNat

theorem readU64_of_slice {x : UInt64} (hi : i + 8 ≤ buf.length)
    (h : slice buf i 8 = leBytes 8 x.toNat) : readU64 buf i = .ok x := by
  rw [readU64, readLE, if_pos hi, h, ofLE_leBytes x.toNat_lt]
  exact congrArg Except.ok UInt64.ofNat_toNat

theorem readI64_of_slice {x : Int64} (hi : i + 8 ≤ buf.length)
    (h : slice buf i 8 = leBytes 8 x.toUInt64.toNat) : readI64 buf i = .ok x := by
  rw [readI64, readLE, if_pos hi, h, ofLE_leBytes x.toUInt64.toNat_lt]
  show Except.ok (UInt64.ofNat x.toUInt64.toNat).toInt64 = _
  rw [UInt64.ofNat_toNat]
  rfl

end Fields

theorem decodeSide_encodeSide (s : Side) : decodeSide (encodeSide s) = .ok s := by
  cases s <;> rfl

/-! ## Round trips -/

/-- **A new order comes back as it was sent**, but for its timestamp. -/
theorem decodeNewOrder_newOrderBytes {o : Order} (h : o.quantity ≠ 0) :
    decodeNewOrder (newOrderBytes o) = .ok o.untimed := by
  have hlen := length_newOrderBytes o
  rw [newOrderSize] at hlen
  have hside : readU8 (newOrderBytes o) 1 = .ok (encodeSide o.side) := rfl
  have hid : readU64 (newOrderBytes o) 8 = .ok o.id := readU64_of_slice (by omega) rfl
  have htrader : readU64 (newOrderBytes o) 16 = .ok o.traderId :=
    readU64_of_slice (by omega) rfl
  have hprice : readI64 (newOrderBytes o) 24 = .ok o.price := readI64_of_slice (by omega) rfl
  have hquantity : readU64 (newOrderBytes o) 32 = .ok o.quantity :=
    readU64_of_slice (by omega) rfl
  rw [decodeNewOrder, if_neg (by simp)]
  simp only [hside, hid, htrader, hprice, hquantity, decodeSide_encodeSide, bind, Except.bind, h,
    if_false]
  rfl

theorem decodeCancelOrder_cancelOrderBytes (orderId : UInt64) :
    decodeCancelOrder (cancelOrderBytes orderId) = .ok orderId := by
  have hlen := length_cancelOrderBytes orderId
  rw [cancelOrderSize] at hlen
  rw [decodeCancelOrder, if_neg (by simp)]
  exact readU64_of_slice (by omega) rfl

/-- **An execution report is read back field by field.** -/
theorem decodeExecutionReport_executionReportBytes (seqNum : UInt32) (fill : Fill)
    (timestamp : UInt64) :
    decodeExecutionReport (executionReportBytes seqNum fill timestamp) =
      .ok ⟨seqNum, fill.takerOrderId, fill.makerOrderId, fill.price, fill.quantity, timestamp⟩ := by
  have hlen := length_executionReportBytes seqNum fill timestamp
  rw [executionReportSize] at hlen
  have hseq : readU32 (executionReportBytes seqNum fill timestamp) 4 = .ok seqNum :=
    readU32_of_slice (by omega) rfl
  have htaker : readU64 (executionReportBytes seqNum fill timestamp) 8 = .ok fill.takerOrderId :=
    readU64_of_slice (by omega) rfl
  have hmaker : readU64 (executionReportBytes seqNum fill timestamp) 16 = .ok fill.makerOrderId :=
    readU64_of_slice (by omega) rfl
  have hprice : readI64 (executionReportBytes seqNum fill timestamp) 24 = .ok fill.price :=
    readI64_of_slice (by omega) rfl
  have hquantity : readU64 (executionReportBytes seqNum fill timestamp) 32 = .ok fill.quantity :=
    readU64_of_slice (by omega) rfl
  have htime : readU64 (executionReportBytes seqNum fill timestamp) 40 = .ok timestamp :=
    readU64_of_slice (by omega) rfl
  rw [decodeExecutionReport, if_neg (by simp)]
  simp only [hseq, htaker, hmaker, hprice, hquantity, htime, bind, Except.bind]

/-- The payload a command is logged as. -/
def payload : EngineCommand → List UInt8
  | .newOrder order => newOrderBytes order
  | .cancelOrder orderId => cancelOrderBytes orderId

/-- **A logged command is read back** as itself, without its timestamp. -/
theorem decodeMessage_payload {cmd : EngineCommand} (h : cmd.Tradable) :
    decodeMessage (payload cmd) = .ok cmd.untimed := by
  cases cmd with
  | newOrder o =>
    have htype : readU8 (newOrderBytes o) 0 = .ok msgNewOrder := rfl
    rw [payload, decodeMessage, htype]
    simp only [bind, Except.bind, if_true, decodeNewOrder_newOrderBytes h]
    rfl
  | cancelOrder id =>
    have htype : readU8 (cancelOrderBytes id) 0 = .ok msgCancelOrder := rfl
    have hne : msgCancelOrder ≠ msgNewOrder := by decide
    rw [payload, decodeMessage, htype]
    simp only [bind, Except.bind, if_true, if_neg hne, decodeCancelOrder_cancelOrderBytes]
    rfl

theorem payload_ne_nil (cmd : EngineCommand) : payload cmd ≠ [] := by
  cases cmd <;> exact List.cons_ne_nil _ _

theorem length_payload_le (cmd : EngineCommand) : (payload cmd).length ≤ newOrderSize := by
  cases cmd with
  | newOrder o => exact (length_newOrderBytes o).le
  | cancelOrder id => exact (length_cancelOrderBytes id).trans_le (by decide)

/-! ## What is accepted -/

theorem exists_of_bind_ok {ε α β : Type} {x : Except ε α} {f : α → Except ε β} {b : β}
    (h : (x >>= f) = .ok b) : ∃ a, x = .ok a ∧ f a = .ok b := by
  cases x with
  | error e => cases h
  | ok a => exact ⟨a, rfl, h⟩

theorem decodeNewOrder_quantity {buf : List UInt8} {o : Order} (h : decodeNewOrder buf = .ok o) :
    o.quantity ≠ 0 := by
  unfold decodeNewOrder at h
  split_ifs at h with hlen
  obtain ⟨val, -, h⟩ := exists_of_bind_ok h
  obtain ⟨side, -, h⟩ := exists_of_bind_ok h
  obtain ⟨orderId, -, h⟩ := exists_of_bind_ok h
  obtain ⟨traderId, -, h⟩ := exists_of_bind_ok h
  obtain ⟨price, -, h⟩ := exists_of_bind_ok h
  obtain ⟨quantity, -, h⟩ := exists_of_bind_ok h
  split_ifs at h with hq
  cases h
  exact hq

theorem tradable_of_decodeMessage {msg : List UInt8} {cmd : EngineCommand}
    (h : decodeMessage msg = .ok cmd) : cmd.Tradable := by
  unfold decodeMessage at h
  obtain ⟨msgType, -, h⟩ := exists_of_bind_ok h
  split_ifs at h with hnew hcancel
  · obtain ⟨order, horder, h⟩ := exists_of_bind_ok h
    cases h
    exact decodeNewOrder_quantity horder
  · obtain ⟨orderId, -, h⟩ := exists_of_bind_ok h
    cases h
    trivial

end Protocol

end Ferrox
