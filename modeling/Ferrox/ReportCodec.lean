import Ferrox.Codec

/-!
# The execution report codec

There is one kind of message on the feed, and `decode_execution_report` asks for nothing but its
length: any 48 bytes are a report, whatever their type byte says (`decodeExecutionReport_ok_iff`).
The fields stand at fixed offsets (`reportAt`).

What was encoded is decoded as it was. What was decoded is encoded as it stood there, but for the
first four bytes: the type and three reserved bytes come out as those of an execution report.
-/

namespace Ferrox

open Bytes

/-- The fill that a report is about. Whether it exhausted its maker is not on the wire. -/
def ExecutionReport.fill (r : ExecutionReport) (makerFullyFilled : Bool) : Fill where
  takerOrderId := r.takerOrderId
  makerOrderId := r.makerOrderId
  price := r.price
  quantity := r.quantity
  makerFullyFilled := makerFullyFilled

namespace Protocol

variable {buf : List UInt8} {i : Nat}

/-- The little-endian number in the four bytes at an offset. -/
def u32At (buf : List UInt8) (offset : Nat) : UInt32 := UInt32.ofNat (ofLE (slice buf offset 4))

/-- The report whose fields stand in the buffer. -/
def reportAt (buf : List UInt8) : ExecutionReport where
  seqNum := u32At buf 4
  takerOrderId := u64At buf 8
  makerOrderId := u64At buf 16
  price := (u64At buf 24).toInt64
  quantity := u64At buf 32
  timestamp := u64At buf 40

/-! ## What is accepted -/

theorem readU32_eq (h : i + 4 ≤ buf.length) : readU32 buf i = .ok (u32At buf i) := by
  rw [readU32, readLE, if_pos h]
  rfl

theorem decodeExecutionReport_eq (h : executionReportSize ≤ buf.length) :
    decodeExecutionReport buf = .ok (reportAt buf) := by
  rw [decodeExecutionReport, if_neg (not_lt.2 h)]
  rw [executionReportSize] at h
  rw [readU32_eq (by omega), readU64_eq (by omega), readU64_eq (by omega), readI64_eq (by omega),
    readU64_eq (by omega), readU64_eq (by omega)]
  rfl

theorem decodeExecutionReport_ok_iff (buf : List UInt8) (r : ExecutionReport) :
    decodeExecutionReport buf = .ok r ↔ executionReportSize ≤ buf.length ∧ r = reportAt buf := by
  by_cases h : executionReportSize ≤ buf.length
  · rw [decodeExecutionReport_eq h]
    simp [h, eq_comm]
  · rw [decodeExecutionReport, if_pos (not_le.1 h)]
    simp [h]

theorem slice_take {n m : Nat} (h : i + n ≤ m) : slice (buf.take m) i n = slice buf i n := by
  rw [slice, slice, List.drop_take, List.take_take, Nat.min_eq_left (by omega)]

theorem reportAt_take (buf : List UInt8) :
    reportAt (buf.take executionReportSize) = reportAt buf := by
  simp (disch := decide) only [reportAt, u32At, u64At, slice_take]

/-! ## What was encoded -/

theorem u32At_of_slice {x : UInt32} (h : slice buf i 4 = leBytes 4 x.toNat) : u32At buf i = x := by
  rw [u32At, h, ofLE_leBytes x.toNat_lt, UInt32.ofNat_toNat]

theorem reportAt_executionReportBytes (seqNum : UInt32) (fill : Fill) (timestamp : UInt64)
    (tail : List UInt8) :
    reportAt (executionReportBytes seqNum fill timestamp ++ tail) =
      ⟨seqNum, fill.takerOrderId, fill.makerOrderId, fill.price, fill.quantity, timestamp⟩ := by
  have hseq : u32At (executionReportBytes seqNum fill timestamp ++ tail) 4 = seqNum :=
    u32At_of_slice rfl
  have htaker : u64At (executionReportBytes seqNum fill timestamp ++ tail) 8 = fill.takerOrderId :=
    u64At_of_slice rfl
  have hmaker : u64At (executionReportBytes seqNum fill timestamp ++ tail) 16 = fill.makerOrderId :=
    u64At_of_slice rfl
  have hprice : u64At (executionReportBytes seqNum fill timestamp ++ tail) 24 =
      fill.price.toUInt64 := u64At_of_slice rfl
  have hquantity : u64At (executionReportBytes seqNum fill timestamp ++ tail) 32 = fill.quantity :=
    u64At_of_slice rfl
  have htime : u64At (executionReportBytes seqNum fill timestamp ++ tail) 40 = timestamp :=
    u64At_of_slice rfl
  simp only [reportAt, hseq, htaker, hmaker, hprice, hquantity, htime]
  rfl

/-! ## What was decoded -/

theorem leBytes_u32At (h : i + 4 ≤ buf.length) : leBytes 4 (u32At buf i).toNat = slice buf i 4 := by
  rw [u32At, UInt32.toNat_ofNat_of_lt' (ofLE_slice_lt h), leBytes_ofLE_slice h]

/-- **What was decoded is encoded as it stood there**, behind the first four bytes. -/
theorem executionReportBytes_reportAt (h : executionReportSize ≤ buf.length)
    (makerFullyFilled : Bool) :
    executionReportBytes (reportAt buf).seqNum ((reportAt buf).fill makerFullyFilled)
        (reportAt buf).timestamp =
      overwrite (buf.take executionReportSize) 0 (msgExecutionReport :: List.replicate 3 0) := by
  rw [executionReportSize] at h
  have hfields : (buf.take 48).drop 4 = slice buf 4 4 ++ slice buf 8 8 ++ slice buf 16 8 ++
      slice buf 24 8 ++ slice buf 32 8 ++ slice buf 40 8 := by
    rw [slice_append_slice buf 4, slice_append_slice buf 4, slice_append_slice buf 4,
      slice_append_slice buf 4, slice_append_slice buf 4, List.drop_take]
    rfl
  have hprice : (reportAt buf).price.toUInt64 = u64At buf 24 := rfl
  rw [executionReportBytes, executionReportSize, overwrite, List.length_cons, List.length_replicate,
    Nat.zero_add, hfields, ← leBytes_u32At (by omega), ← leBytes_u64At (by omega),
    ← leBytes_u64At (by omega), ← leBytes_u64At (by omega), ← leBytes_u64At (by omega),
    ← leBytes_u64At (by omega), ExecutionReport.fill, hprice]
  simp only [List.take_zero, List.nil_append, List.append_assoc]
  rfl

/-- The reserved bytes make the only difference just in case the type byte is that of a report. -/
theorem overwrite_type_iff (h : executionReportSize ≤ buf.length) :
    overwrite (buf.take executionReportSize) 0 (msgExecutionReport :: List.replicate 3 0) =
        overwrite (buf.take executionReportSize) 1 (List.replicate 3 0) ↔
      buf[0]? = some msgExecutionReport := by
  cases buf with
  | nil => simp [executionReportSize] at h
  | cons b rest => simp [overwrite, executionReportSize, eq_comm]

/-! ## The codec -/

/-- **The execution report codec.** What was encoded is decoded, whatever the buffer held before; a
byte string is a report just in case it is long enough; and what was decoded is encoded as it stood
there, with the type byte of a report and zeros in the reserved bytes. -/
theorem report_codec :
    (∀ seqNum fill timestamp buf, executionReportSize ≤ buf.length → ∃ out,
      encodeExecutionReport buf seqNum fill timestamp = .ok (out, executionReportSize) ∧
        decodeExecutionReport out = .ok
          ⟨seqNum, fill.takerOrderId, fill.makerOrderId, fill.price, fill.quantity, timestamp⟩) ∧
      (∀ b, (∃ r, decodeExecutionReport b = .ok r) ↔ executionReportSize ≤ b.length) ∧
      ∀ b r, decodeExecutionReport b = .ok r →
        ∀ buf makerFullyFilled, executionReportSize ≤ buf.length → ∃ out,
          encodeExecutionReport buf r.seqNum (r.fill makerFullyFilled) r.timestamp =
              .ok (out, executionReportSize) ∧
            out.take executionReportSize = overwrite (b.take executionReportSize) 0
              (msgExecutionReport :: List.replicate 3 0) ∧
            (out.take executionReportSize =
                overwrite (b.take executionReportSize) 1 (List.replicate 3 0) ↔
              b[0]? = some msgExecutionReport) := by
  refine ⟨?_, ?_, ?_⟩
  · intro seqNum fill timestamp buf h
    refine ⟨_, encodeExecutionReport_eq h seqNum fill timestamp, ?_⟩
    have hlen : executionReportSize ≤ (executionReportBytes seqNum fill timestamp ++
        buf.drop executionReportSize).length := by
      rw [List.length_append, length_executionReportBytes]
      exact Nat.le_add_right _ _
    rw [decodeExecutionReport_eq hlen, reportAt_executionReportBytes]
  · intro b
    constructor
    · intro h
      obtain ⟨r, hr⟩ := h
      exact ((decodeExecutionReport_ok_iff b r).1 hr).1
    · intro h
      exact ⟨_, decodeExecutionReport_eq h⟩
  · intro b r hr buf makerFullyFilled h
    obtain ⟨hb, rfl⟩ := (decodeExecutionReport_ok_iff b r).1 hr
    refine ⟨_, encodeExecutionReport_eq h _ _ _, ?_, ?_⟩
    · rw [List.take_left' (length_executionReportBytes _ _ _), executionReportBytes_reportAt hb]
    · rw [List.take_left' (length_executionReportBytes _ _ _), executionReportBytes_reportAt hb,
        overwrite_type_iff hb]

/-- **A cancellation, and zeros behind it.** A datagram of 48 bytes with another type is a
report. -/
theorem not_report_codec_cancel : ∃ b : List UInt8,
    b = cancelOrderBytes 7 ++ List.replicate 32 0 ∧ b[0]? = some msgCancelOrder ∧
      decodeExecutionReport b = .ok ⟨0, 7, 0, 0, 0, 0⟩ ∧
      ¬ ((∃ r, decodeExecutionReport b = .ok r) ↔
        executionReportSize ≤ b.length ∧ b[0]? = some msgExecutionReport) := by
  refine ⟨_, rfl, rfl, by decide +kernel, ?_⟩
  intro h
  have haccepts := (h.1 ⟨_, decodeExecutionReport_eq (by decide)⟩).2
  exact absurd haccepts (by decide)

end Protocol

end Ferrox
