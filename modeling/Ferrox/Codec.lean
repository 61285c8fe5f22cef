import Ferrox.ProtocolProof
import Ferrox.Wal

/-!
# The command codec

Which byte strings are commands, and what becomes of them. `decode_message` looks at the type byte,
the length, the side byte and the quantity, and at nothing else (`Accepts`); the fields of a command
stand at fixed offsets (`orderAt`). Encoding is its inverse on both sides: what was encoded is
decoded, trailing bytes and all, and what was decoded is encoded as it stood there, but for the
reserved bytes, which come out as zeros.
-/

namespace Ferrox

open Bytes

namespace Protocol

variable {buf : List UInt8} {cmd : EngineCommand} {i : Nat}

/-! ## Commands in a buffer -/

/-- The little-endian number in the eight bytes at an offset. -/
def u64At (buf : List UInt8) (offset : Nat) : UInt64 := UInt64.ofNat (ofLE (slice buf offset 8))

/-- The buffer starts with a new order. -/
structure AcceptsNewOrder (buf : List UInt8) : Prop where
  type : buf[0]? = some 1
  size : 40 ≤ buf.length
  side : buf[1]? = some 0 ∨ buf[1]? = some 1
  quantity : u64At buf 32 ≠ 0

/-- The buffer starts with a cancellation. -/
structure AcceptsCancelOrder (buf : List UInt8) : Prop where
  type : buf[0]? = some 2
  size : 16 ≤ buf.length

/-- The order whose fields stand in the buffer. -/
def orderAt (buf : List UInt8) : Order where
  id := u64At buf 8
  traderId := u64At buf 16
  side := if buf[1]? = some 0 then .bid else .ask
  price := (u64At buf 24).toInt64
  quantity := u64At buf 32
  timestamp := 0

theorem readU8_eq {b : UInt8} (h : buf[i]? = some b) : readU8 buf i = .ok b := by
  rw [readU8, h]

theorem readU64_eq (h : i + 8 ≤ buf.length) : readU64 buf i = .ok (u64At buf i) := by
  rw [readU64, readLE, if_pos h]
  rfl

theorem readI64_eq (h : i + 8 ≤ buf.length) : readI64 buf i = .ok (u64At buf i).toInt64 := by
  rw [readI64, readLE, if_pos h]
  rfl

theorem decodeNewOrder_eq {b : UInt8} (hsize : 40 ≤ buf.length) (hb : buf[1]? = some b) :
    decodeNewOrder buf = decodeSide b >>= fun side =>
      if u64At buf 32 = 0 then .error .zeroQuantity else .ok { orderAt buf with side } := by
  rw [decodeNewOrder, if_neg (by rw [newOrderSize]; omega), readU8_eq hb, readU64_eq (by omega),
    readU64_eq (by omega), readI64_eq (by omega), readU64_eq (by omega)]
  rfl

theorem decodeMessage_newOrder (h : AcceptsNewOrder buf) :
    decodeMessage buf = .ok (.newOrder (orderAt buf)) := by
  have hside : ∃ b, buf[1]? = some b ∧ decodeSide b = .ok (orderAt buf).side := by
    rcases h.side with hb | hb
    · exact ⟨0, hb, by rw [orderAt, hb]; rfl⟩
    · exact ⟨1, hb, by rw [orderAt, hb]; rfl⟩
  obtain ⟨b, hb, hdecode⟩ := hside
  have hnew : decodeNewOrder buf = .ok (orderAt buf) := by
    rw [decodeNewOrder_eq h.size hb, hdecode]
    exact if_neg h.quantity
  rw [decodeMessage, readU8_eq h.type, hnew]
  rfl

theorem decodeMessage_cancelOrder (h : AcceptsCancelOrder buf) :
    decodeMessage buf = .ok (.cancelOrder (u64At buf 8)) := by
  have hcancel : decodeCancelOrder buf = .ok (u64At buf 8) := by
    rw [decodeCancelOrder, if_neg (by rw [cancelOrderSize]; have := h.size; omega),
      readU64_eq (by have := h.size; omega)]
  rw [decodeMessage, readU8_eq h.type, hcancel]
  rfl

theorem readU8_ok {b : UInt8} (h : readU8 buf i = .ok b) : buf[i]? = some b := by
  unfold readU8 at h
  cases hb : buf[i]? with
  | none =>
    rw [hb] at h
    cases h
  | some b' =>
    rw [hb] at h
    cases h
    rfl

theorem decodeSide_ok {b : UInt8} {side : Side} (h : decodeSide b = .ok side) : b = 0 ∨ b = 1 := by
  unfold decodeSide at h
  split_ifs at h with h₀ h₁
  · exact Or.inl h₀
  · exact Or.inr h₁

/-- **Nothing else is accepted.** -/
theorem accepts_of_decodeMessage (h : decodeMessage buf = .ok cmd) :
    AcceptsNewOrder buf ∨ AcceptsCancelOrder buf := by
  unfold decodeMessage at h
  obtain ⟨msgType, htype, h⟩ := exists_of_bind_ok h
  have htype := readU8_ok htype
  split_ifs at h with hnew hcancel
  · left
    obtain ⟨order, horder, -⟩ := exists_of_bind_ok h
    have hsize : 40 ≤ buf.length := by
      by_contra hlt
      rw [decodeNewOrder, if_pos (show buf.length < newOrderSize from not_le.1 hlt)] at horder
      cases horder
    have hb : buf[1]? = some buf[1] := List.getElem?_eq_getElem _
    rw [decodeNewOrder_eq hsize hb] at horder
    obtain ⟨side, hside, horder⟩ := exists_of_bind_ok horder
    split_ifs at horder with hq
    refine ⟨htype.trans (congrArg some hnew), hsize, ?_, hq⟩
    rw [hb]
    exact (decodeSide_ok hside).imp (congrArg some) (congrArg some)
  · right
    obtain ⟨orderId, hid, -⟩ := exists_of_bind_ok h
    refine ⟨htype.trans (congrArg some hcancel), ?_⟩
    by_contra hlt
    rw [decodeCancelOrder, if_pos (show buf.length < cancelOrderSize from not_le.1 hlt)] at hid
    cases hid

/-! ## What was encoded -/

/-- The type byte of a command. -/
def msgType : EngineCommand → UInt8
  | .newOrder _ => msgNewOrder
  | .cancelOrder _ => msgCancelOrder

theorem messageSize_msgType (cmd : EngineCommand) :
    messageSize (msgType cmd) = .ok (payload cmd).length := by
  cases cmd with
  | newOrder o => rw [payload, length_newOrderBytes, msgType, messageSize, if_pos rfl]
  | cancelOrder id =>
    rw [payload, length_cancelOrderBytes, msgType, messageSize, if_neg (by decide), if_pos rfl]

/-- **Encoding writes the message and nothing else.** -/
theorem encode_payload (cmd : EngineCommand) (h : (payload cmd).length ≤ buf.length) :
    Wal.encode buf cmd =
      .ok (payload cmd ++ buf.drop (payload cmd).length, (payload cmd).length) := by
  cases cmd with
  | newOrder o =>
    rw [payload, length_newOrderBytes] at h ⊢
    exact encodeNewOrder_eq h o
  | cancelOrder id =>
    rw [payload, length_cancelOrderBytes] at h ⊢
    exact encodeCancelOrder_eq h id

theorem u64At_of_slice {x : UInt64} (h : slice buf i 8 = leBytes 8 x.toNat) : u64At buf i = x := by
  rw [u64At, h, ofLE_leBytes x.toNat_lt, UInt64.ofNat_toNat]

theorem orderAt_newOrderBytes (o : Order) (tail : List UInt8) :
    orderAt (newOrderBytes o ++ tail) = o.untimed := by
  have hid : u64At (newOrderBytes o ++ tail) 8 = o.id := u64At_of_slice rfl
  have htrader : u64At (newOrderBytes o ++ tail) 16 = o.traderId := u64At_of_slice rfl
  have hprice : u64At (newOrderBytes o ++ tail) 24 = o.price.toUInt64 := u64At_of_slice rfl
  have hquantity : u64At (newOrderBytes o ++ tail) 32 = o.quantity := u64At_of_slice rfl
  have hside : (newOrderBytes o ++ tail)[1]? = some (encodeSide o.side) := rfl
  simp only [orderAt, hid, htrader, hprice, hquantity, hside, Order.untimed]
  cases o.side <;> rfl

/-- **What was encoded is decoded**, whatever follows it. -/
theorem decodeMessage_payload_append (h : cmd.Tradable) (tail : List UInt8) :
    decodeMessage (payload cmd ++ tail) = .ok cmd.untimed := by
  cases cmd with
  | newOrder o =>
    have horder := orderAt_newOrderBytes o tail
    have haccepts : AcceptsNewOrder (newOrderBytes o ++ tail) := by
      refine ⟨rfl, ?_, ?_, ?_⟩
      · rw [List.length_append, length_newOrderBytes, newOrderSize]
        omega
      · have hside : (newOrderBytes o ++ tail)[1]? = some (encodeSide o.side) := rfl
        rw [hside]
        cases o.side with
        | bid => exact Or.inl rfl
        | ask => exact Or.inr rfl
      · rw [show u64At (newOrderBytes o ++ tail) 32 = o.quantity from u64At_of_slice rfl]
        exact h
    rw [payload, decodeMessage_newOrder haccepts, horder]
    rfl
  | cancelOrder id =>
    have haccepts : AcceptsCancelOrder (cancelOrderBytes id ++ tail) := by
      refine ⟨rfl, ?_⟩
      rw [List.length_append, length_cancelOrderBytes, cancelOrderSize]
      omega
    rw [payload, decodeMessage_cancelOrder haccepts,
      show u64At (cancelOrderBytes id ++ tail) 8 = id from u64At_of_slice rfl]
    rfl

/-! ## What was decoded -/

/-- The bytes of a message with the reserved ones set to zero. -/
def zeroReserved (bytes : List UInt8) : EngineCommand → List UInt8
  | .newOrder _ => overwrite bytes 2 (List.replicate 6 0)
  | .cancelOrder _ => overwrite bytes 1 (List.replicate 7 0)

theorem leBytes_u64At (h : i + 8 ≤ buf.length) : leBytes 8 (u64At buf i).toNat = slice buf i 8 := by
  rw [u64At, UInt64.toNat_ofNat_of_lt' (ofLE_slice_lt h), leBytes_ofLE_slice h]

theorem slice_append_slice (buf : List UInt8) (i m n : Nat) :
    slice buf i m ++ slice buf (i + m) n = slice buf i (m + n) := by
  rw [slice, slice, slice, List.take_add, List.drop_drop]

theorem take_two {a b : UInt8} (ha : buf[0]? = some a) (hb : buf[1]? = some b) :
    buf.take 2 = [a, b] := by
  rw [List.take_add_one, List.take_add_one, ha, hb]
  rfl

theorem take_two_newOrder (h : AcceptsNewOrder buf) :
    buf.take 2 = [msgNewOrder, encodeSide (orderAt buf).side] := by
  rcases h.side with hb | hb
  · rw [take_two h.type hb, orderAt, hb]
    rfl
  · rw [take_two h.type hb, orderAt, hb]
    rfl

/-- **What was decoded is encoded as it stood there**, with its reserved bytes zeroed. -/
theorem payload_of_decodeMessage (h : decodeMessage buf = .ok cmd) :
    payload cmd = zeroReserved (buf.take (payload cmd).length) cmd := by
  rcases accepts_of_decodeMessage h with haccepts | haccepts
  · rw [decodeMessage_newOrder haccepts] at h
    cases h
    have hsize := haccepts.size
    have hfields : (buf.take 40).drop 8 =
        slice buf 8 8 ++ slice buf 16 8 ++ slice buf 24 8 ++ slice buf 32 8 := by
      rw [slice_append_slice buf 8, slice_append_slice buf 8, slice_append_slice buf 8,
        List.drop_take]
      rfl
    have hprice : (orderAt buf).price.toUInt64 = u64At buf 24 := rfl
    rw [payload, length_newOrderBytes, newOrderSize, zeroReserved, overwrite, List.take_take,
      List.length_replicate, hfields, newOrderBytes, hprice, ← take_two_newOrder haccepts,
      ← leBytes_u64At (by omega), ← leBytes_u64At (by omega), ← leBytes_u64At (by omega),
      ← leBytes_u64At (by omega)]
    simp only [List.append_assoc]
    rfl
  · rw [decodeMessage_cancelOrder haccepts] at h
    cases h
    have hsize := haccepts.size
    have hfield : (buf.take 16).drop 8 = slice buf 8 8 := by
      rw [List.drop_take]
      rfl
    have htype : buf.take 1 = [msgCancelOrder] := by
      rw [List.take_add_one, haccepts.type]
      rfl
    rw [payload, length_cancelOrderBytes, cancelOrderSize, zeroReserved, overwrite, List.take_take,
      List.length_replicate, hfield, ← leBytes_u64At (by omega)]
    exact congrArg (· ++ _ ++ _) htype.symm

/-! ## The codec -/

theorem decodeMessage_newOrder_iff (buf : List UInt8) (o : Order) :
    decodeMessage buf = .ok (.newOrder o) ↔ AcceptsNewOrder buf ∧ o = orderAt buf := by
  constructor
  · intro h
    rcases accepts_of_decodeMessage h with haccepts | haccepts
    · rw [decodeMessage_newOrder haccepts] at h
      cases h
      exact ⟨haccepts, rfl⟩
    · rw [decodeMessage_cancelOrder haccepts] at h
      cases h
  · rintro ⟨haccepts, rfl⟩
    exact decodeMessage_newOrder haccepts

theorem decodeMessage_cancelOrder_iff (buf : List UInt8) (orderId : UInt64) :
    decodeMessage buf = .ok (.cancelOrder orderId) ↔
      AcceptsCancelOrder buf ∧ orderId = u64At buf 8 := by
  constructor
  · intro h
    rcases accepts_of_decodeMessage h with haccepts | haccepts
    · rw [decodeMessage_newOrder haccepts] at h
      cases h
    · rw [decodeMessage_cancelOrder haccepts] at h
      cases h
      exact ⟨haccepts, rfl⟩
  · rintro ⟨haccepts, rfl⟩
    exact decodeMessage_cancelOrder haccepts

theorem decodeMessage_error_iff (buf : List UInt8) :
    (∃ err, decodeMessage buf = .error err) ↔ ¬ AcceptsNewOrder buf ∧ ¬ AcceptsCancelOrder buf := by
  constructor
  · rintro ⟨err, herr⟩
    constructor
    · intro haccepts
      rw [decodeMessage_newOrder haccepts] at herr
      cases herr
    · intro haccepts
      rw [decodeMessage_cancelOrder haccepts] at herr
      cases herr
  · rintro ⟨hnew, hcancel⟩
    cases h : decodeMessage buf with
    | error err => exact ⟨err, rfl⟩
    | ok cmd => exact absurd (accepts_of_decodeMessage h) (by simp [hnew, hcancel])

/-- **The command codec.** A byte string is a new order, a cancellation or an error, as its bytes
say; encoding writes a message of its size whatever the buffer held before, and is inverse to decoding
from both sides. -/
theorem command_codec :
    (∀ buf o, decodeMessage buf = .ok (.newOrder o) ↔ AcceptsNewOrder buf ∧ o = orderAt buf) ∧
      (∀ buf orderId, decodeMessage buf = .ok (.cancelOrder orderId) ↔
        AcceptsCancelOrder buf ∧ orderId = u64At buf 8) ∧
      (∀ buf, (∃ err, decodeMessage buf = .error err) ↔
        ¬ AcceptsNewOrder buf ∧ ¬ AcceptsCancelOrder buf) ∧
      (∀ cmd : EngineCommand, cmd.Tradable → ∃ bytes n, messageSize (msgType cmd) = .ok n ∧
        bytes.length = n ∧
        (∀ buf, n ≤ buf.length → Wal.encode buf cmd = .ok (bytes ++ buf.drop n, n)) ∧
        ∀ tail, decodeMessage (bytes ++ tail) = .ok cmd.untimed) ∧
      ∀ buf cmd, decodeMessage buf = .ok cmd → ∃ n, messageSize (msgType cmd) = .ok n ∧
        ∀ out, n ≤ out.length →
          Wal.encode out cmd = .ok (zeroReserved (buf.take n) cmd ++ out.drop n, n) := by
  refine ⟨decodeMessage_newOrder_iff, decodeMessage_cancelOrder_iff, decodeMessage_error_iff, ?_, ?_⟩
  · intro cmd h
    exact ⟨payload cmd, _, messageSize_msgType cmd, rfl, fun buf => encode_payload cmd,
      decodeMessage_payload_append h⟩
  · intro buf cmd h
    refine ⟨_, messageSize_msgType cmd, ?_⟩
    intro out hout
    rw [encode_payload cmd hout, ← payload_of_decodeMessage h]

end Protocol

end Ferrox
