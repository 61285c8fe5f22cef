import Ferrox.ReportCodec
import Ferrox.Feed
import Ferrox.Lib.Arrivals

/-!
# The subscriber

The receive loop of `examples/subscriber.rs`, over whatever UDP delivers of a numbered feed. The
loop keeps one number, the one it expects next. A report with another number is logged as a gap,
with the distance to it; then the report is printed and the number behind it expected, whatever it
was.

As long as the numbers rise, that is right (`heard`): the gaps are the numbers that were overtaken.
But the loop does not discard what it has seen. A report that comes twice is printed twice, and a
report that comes late turns the expected number back (`detectsGaps_iff`).
-/

namespace Ferrox

open Bytes Protocol Arrivals

/-- What `recv_from` returns. -/
inductive Received where
  | error
  | datagram (bytes : List UInt8)
  deriving DecidableEq

/-- What the loop prints. -/
inductive Line where
  | recvError
  | shortPacket (n : Nat)
  | decodeError (e : ProtocolError)
  | gap (expected got missing : UInt32)
  | report (report : ExecutionReport)
  deriving DecidableEq

/-- The variables of the loop. -/
structure Subscriber where
  buf : List UInt8
  expectedSeq : UInt32
  deriving DecidableEq

namespace Subscriber

def start : Subscriber where
  buf := List.replicate executionReportSize 0
  expectedSeq := 1

/-- One round of the loop. What the buffer cannot hold of a datagram is lost. -/
def receive (s : Subscriber) : Received → Subscriber × List Line
  | .error => (s, [.recvError])
  | .datagram bytes =>
      let n := min bytes.length s.buf.length
      let s := { s with buf := overwrite s.buf 0 (bytes.take n) }
      if n < executionReportSize then (s, [.shortPacket n])
      else
        match decodeExecutionReport s.buf with
        | .error e => (s, [.decodeError e])
        | .ok report =>
            let gap :=
              if report.seqNum ≠ s.expectedSeq then
                [Line.gap s.expectedSeq report.seqNum (report.seqNum - s.expectedSeq)]
              else []
            ({ s with expectedSeq := report.seqNum + 1 }, gap ++ [.report report])

/-- Round after round. -/
def listen (s : Subscriber) : List Received → Subscriber × List Line
  | [] => (s, [])
  | r :: rs => (((s.receive r).1.listen rs).1, (s.receive r).2 ++ ((s.receive r).1.listen rs).2)

theorem listen_append (s : Subscriber) (rs rs' : List Received) :
    s.listen (rs ++ rs') =
      (((s.listen rs).1.listen rs').1, (s.listen rs).2 ++ ((s.listen rs).1.listen rs').2) := by
  induction rs generalizing s with
  | nil => simp [listen]
  | cons r rs ih =>
    rw [List.cons_append, listen, ih]
    simp [listen]

theorem listen_concat (s : Subscriber) (rs : List Received) (r : Received) :
    s.listen (rs ++ [r]) =
      (((s.listen rs).1.receive r).1, (s.listen rs).2 ++ ((s.listen rs).1.receive r).2) := by
  rw [listen_append]
  simp [listen]

theorem receive_datagram {s : Subscriber} {bytes : List UInt8}
    (hbuf : s.buf.length = executionReportSize) (hlen : executionReportSize ≤ bytes.length) :
    s.receive (.datagram bytes) =
      (⟨bytes.take executionReportSize, (reportAt bytes).seqNum + 1⟩,
        (if (reportAt bytes).seqNum ≠ s.expectedSeq then
          [.gap s.expectedSeq (reportAt bytes).seqNum ((reportAt bytes).seqNum - s.expectedSeq)]
        else []) ++ [.report (reportAt bytes)]) := by
  have hn : min bytes.length s.buf.length = executionReportSize := by
    rw [hbuf, min_eq_right hlen]
  have htake : (bytes.take executionReportSize).length = executionReportSize :=
    List.length_take_of_le hlen
  have hwrite : overwrite s.buf 0 (bytes.take executionReportSize) =
      bytes.take executionReportSize := by
    rw [overwrite, htake, Nat.zero_add, List.drop_of_length_le hbuf.le, List.take_zero,
      List.nil_append, List.append_nil]
  have hdecode : decodeExecutionReport (bytes.take executionReportSize) = .ok (reportAt bytes) := by
    rw [decodeExecutionReport_eq htake.ge, reportAt_take]
  simp only [receive, hn, hwrite, hdecode, lt_irrefl, if_false]

end Subscriber

/-! ## Deliveries -/

/-- The number of the report that arrives, if one does. -/
def Received.seq? : Received → Option Nat
  | .error => none
  | .datagram bytes => some (reportAt bytes).seqNum.toNat

/-- The numbers that arrive, in the order in which they do. -/
def arrivals (delivery : List Received) : List Nat := delivery.filterMap Received.seq?

@[simp] theorem arrivals_concat_error (delivery : List Received) :
    arrivals (delivery ++ [.error]) = arrivals delivery := by
  rw [arrivals, List.filterMap_append]
  exact List.append_nil _

@[simp] theorem arrivals_concat_datagram (delivery : List Received) (bytes : List UInt8) :
    arrivals (delivery ++ [.datagram bytes]) =
      arrivals delivery ++ [(reportAt bytes).seqNum.toNat] := by
  rw [arrivals, List.filterMap_append]
  rfl

/-- Datagrams of the stream: any of them may be lost, come twice or late. -/
def Delivers (stream : List (List UInt8)) (delivery : List Received) : Prop :=
  ∀ bytes, .datagram bytes ∈ delivery → bytes ∈ stream

/-- The report that a line shows. -/
def Line.report? : Line → Option ExecutionReport
  | .report r => some r
  | _ => none

/-- How many reports a line says are missing. -/
def Line.missing : Line → Nat
  | .gap _ _ missing => missing.toNat
  | _ => 0

/-- All reports that were printed. -/
def printed (lines : List Line) : List ExecutionReport := lines.filterMap Line.report?

/-- The total of the missing counts. -/
def totalMissing (lines : List Line) : Nat := (lines.map Line.missing).sum

/-- **The subscriber detects gaps**: it prints no report twice, it does not go back, and at each
point it has logged as many reports as missing as were overtaken. -/
structure DetectsGaps (delivery : List Received) : Prop where
  once : (printed (Subscriber.start.listen delivery).2).Nodup
  rises : ∀ before r, before ++ [r] <+: delivery →
    (Subscriber.start.listen before).1.expectedSeq ≤
      (Subscriber.start.listen (before ++ [r])).1.expectedSeq
  missing : ∀ before, before <+: delivery →
    totalMissing (Subscriber.start.listen before).2 = overtaken (arrivals before)

theorem DetectsGaps.mono {before delivery : List Received} (h : DetectsGaps delivery)
    (hpre : before <+: delivery) : DetectsGaps before := by
  refine ⟨?_, fun b r hb => h.rises b r (hb.trans hpre), fun b hb => h.missing b (hb.trans hpre)⟩
  obtain ⟨after, rfl⟩ := hpre
  have honce := h.once
  rw [Subscriber.listen_append, printed, List.filterMap_append] at honce
  exact (List.nodup_append.1 honce).1

/-! ## Numbers that rise -/

section Stream

variable {stream : List (List UInt8)} {delivery : List Received} {bytes : List UInt8}
  (hstream : MatchingLoop.Numbered stream) (hsize : stream.length < 2 ^ 31)
include hstream hsize

theorem getElem_of_mem_stream (h : bytes ∈ stream) : executionReportSize ≤ bytes.length ∧
    ∃ i, stream[i]? = some bytes ∧ (reportAt bytes).seqNum.toNat = i + 1 := by
  obtain ⟨i, hi, rfl⟩ := List.getElem_of_mem h
  obtain ⟨r, hr, hseq⟩ := hstream i hi
  obtain ⟨hlen, rfl⟩ := (decodeExecutionReport_ok_iff _ r).1 hr
  refine ⟨hlen, i, List.getElem?_eq_getElem hi, ?_⟩
  rw [hseq, Nat.mod_eq_of_lt (by omega)]

theorem seqNum_lt_of_mem_stream (h : bytes ∈ stream) :
    0 < (reportAt bytes).seqNum.toNat ∧ (reportAt bytes).seqNum.toNat < 2 ^ 31 := by
  obtain ⟨-, i, hi, hseq⟩ := getElem_of_mem_stream hstream hsize h
  have := (List.getElem?_eq_some_iff.1 hi).1
  omega

theorem eq_of_seqNum_eq {bytes' : List UInt8} (h : bytes ∈ stream) (h' : bytes' ∈ stream)
    (heq : (reportAt bytes).seqNum.toNat = (reportAt bytes').seqNum.toNat) : bytes = bytes' := by
  obtain ⟨-, i, hi, hseq⟩ := getElem_of_mem_stream hstream hsize h
  obtain ⟨-, j, hj, hseq'⟩ := getElem_of_mem_stream hstream hsize h'
  obtain rfl : i = j := by omega
  exact Option.some.inj (hi.symm.trans hj)

end Stream

/-- The report that arrives, if one does. -/
def Received.report? : Received → Option ExecutionReport
  | .error => none
  | .datagram bytes => some (reportAt bytes)

theorem map_seqNum_reports (delivery : List Received) :
    (delivery.filterMap Received.report?).map (·.seqNum.toNat) = arrivals delivery := by
  rw [List.map_filterMap, arrivals]
  congr 1
  funext r
  cases r <;> rfl

/-- **A subscriber that heard the delivery, and nothing late**: it expects the number behind the
highest one, has printed what arrived, and has logged what was overtaken. -/
structure Heard (delivery : List Received) (s : Subscriber) (lines : List Line) : Prop where
  buf : s.buf.length = executionReportSize
  expectedSeq : s.expectedSeq.toNat = highest (arrivals delivery) + 1
  printed : printed lines = delivery.filterMap Received.report?
  missing : totalMissing lines = overtaken (arrivals delivery)

theorem Heard.error {delivery : List Received} {s : Subscriber} {lines : List Line}
    (h : Heard delivery s lines) :
    Heard (delivery ++ [.error]) (s.receive .error).1 (lines ++ (s.receive .error).2) := by
  refine ⟨h.buf, ?_, ?_, ?_⟩
  · rw [arrivals_concat_error]
    exact h.expectedSeq
  · rw [List.filterMap_append, ← h.printed, Ferrox.printed, List.filterMap_append]
    rfl
  · rw [arrivals_concat_error, ← h.missing, totalMissing, List.map_append, List.sum_append]
    rfl

theorem Heard.datagram {delivery : List Received} {s : Subscriber} {lines : List Line}
    {bytes : List UInt8} (h : Heard delivery s lines) (hlen : executionReportSize ≤ bytes.length)
    (hlt : (reportAt bytes).seqNum.toNat < 2 ^ 31)
    (hnew : highest (arrivals delivery) < (reportAt bytes).seqNum.toNat) :
    Heard (delivery ++ [.datagram bytes]) (s.receive (.datagram bytes)).1
      (lines ++ (s.receive (.datagram bytes)).2) := by
  have hexpected := h.expectedSeq
  rw [Subscriber.receive_datagram h.buf hlen]
  refine ⟨List.length_take_of_le hlen, ?_, ?_, ?_⟩
  · rw [arrivals_concat_datagram, highest_concat, max_eq_right hnew.le, UInt32.toNat_add,
      UInt32.toNat_one]
    exact Nat.mod_eq_of_lt (by omega)
  · rw [List.filterMap_append, ← h.printed, Ferrox.printed, List.filterMap_append]
    split_ifs
    all_goals rfl
  · rw [arrivals_concat_datagram, overtaken_concat hnew, ← hexpected, ← h.missing, totalMissing,
      List.map_append, List.sum_append]
    congr 1
    by_cases hgap : (reportAt bytes).seqNum = s.expectedSeq
    · simp [hgap, Line.missing]
    · have hle : s.expectedSeq ≤ (reportAt bytes).seqNum := by
        rw [UInt32.le_iff_toNat_le]
        omega
      simp [hgap, Line.missing, UInt32.toNat_sub_of_le _ _ hle]

section Run

variable {stream : List (List UInt8)} {delivery : List Received}
  (hstream : MatchingLoop.Numbered stream) (hsize : stream.length < 2 ^ 31)
include hstream hsize

/-- **As long as the numbers rise**, the subscriber keeps count. -/
theorem heard (hdelivers : Delivers stream delivery)
    (hrise : (arrivals delivery).Pairwise (· < ·)) :
    Heard delivery (Subscriber.start.listen delivery).1 (Subscriber.start.listen delivery).2 := by
  induction delivery using List.reverseRecOn with
  | nil => exact ⟨List.length_replicate, rfl, rfl, rfl⟩
  | append_singleton delivery r ih =>
    rw [arrivals, List.filterMap_append, List.pairwise_append] at hrise
    have hheard := ih (fun bytes hb => hdelivers bytes (List.mem_append_left _ hb)) hrise.1
    rw [Subscriber.listen_concat]
    cases r with
    | error => exact hheard.error
    | datagram bytes =>
      have hbytes := hdelivers bytes (List.mem_append_right _ List.mem_cons_self)
      obtain ⟨hlen, -⟩ := getElem_of_mem_stream hstream hsize hbytes
      obtain ⟨hpos, hlt⟩ := seqNum_lt_of_mem_stream hstream hsize hbytes
      refine hheard.datagram hlen hlt ?_
      by_cases hzero : highest (arrivals delivery) = 0
      · rw [hzero]
        exact hpos
      · exact hrise.2.2 _ (highest_mem hzero) _ List.mem_cons_self

/-- Not to go back and to print nothing twice is all it takes for the numbers to rise. -/
theorem DetectsGaps.pairwise_lt (h : DetectsGaps delivery) (hdelivers : Delivers stream delivery) :
    (arrivals delivery).Pairwise (· < ·) := by
  induction delivery using List.reverseRecOn with
  | nil => exact List.Pairwise.nil
  | append_singleton delivery r ih =>
    have hdelivers' : Delivers stream delivery := fun bytes hb =>
      hdelivers bytes (List.mem_append_left _ hb)
    have hrise := ih (h.mono (List.prefix_append _ _)) hdelivers'
    have hheard := heard hstream hsize hdelivers' hrise
    cases r with
    | error => simpa using hrise
    | datagram bytes =>
      have hbytes := hdelivers bytes (List.mem_append_right _ List.mem_cons_self)
      obtain ⟨hlen, -⟩ := getElem_of_mem_stream hstream hsize hbytes
      obtain ⟨-, hlt⟩ := seqNum_lt_of_mem_stream hstream hsize hbytes
      have hle := h.rises delivery _ (List.prefix_refl _)
      have honce := h.once
      rw [Subscriber.listen_concat, Subscriber.receive_datagram hheard.buf hlen] at hle honce
      rw [UInt32.le_iff_toNat_le, hheard.expectedSeq, UInt32.toNat_add, UInt32.toNat_one,
        Nat.mod_eq_of_lt (by omega)] at hle
      rw [printed, List.filterMap_append, ← printed, hheard.printed] at honce
      rw [arrivals_concat_datagram, List.pairwise_append]
      refine ⟨hrise, List.pairwise_singleton _ _, ?_⟩
      intro x hx y hy
      rw [List.mem_singleton.1 hy]
      refine lt_of_le_of_ne ((le_highest hx).trans (Nat.le_of_succ_le_succ hle)) ?_
      intro heq
      -- the report with this number was printed before, and is printed again
      obtain ⟨r, hr, hrx⟩ := List.mem_filterMap.1 hx
      cases r with
      | error => cases hrx
      | datagram bytes' =>
        obtain rfl := eq_of_seqNum_eq hstream hsize (hdelivers' _ hr) hbytes
          ((Option.some.inj hrx).trans heq)
        refine (List.nodup_append.1 honce).2.2 (reportAt bytes')
          (List.mem_filterMap.2 ⟨_, hr, rfl⟩) (reportAt bytes') ?_ rfl
        rw [List.filterMap_append]
        exact List.mem_append_right _ List.mem_cons_self

theorem DetectsGaps.of_pairwise_lt (hdelivers : Delivers stream delivery)
    (hrise : (arrivals delivery).Pairwise (· < ·)) : DetectsGaps delivery := by
  have hheard : ∀ before, before <+: delivery →
      Heard before (Subscriber.start.listen before).1 (Subscriber.start.listen before).2 := by
    intro before hpre
    obtain ⟨after, rfl⟩ := hpre
    rw [arrivals, List.filterMap_append, List.pairwise_append] at hrise
    exact heard hstream hsize (fun bytes hb => hdelivers bytes (List.mem_append_left _ hb)) hrise.1
  refine ⟨?_, ?_, fun before hpre => (hheard before hpre).missing⟩
  · rw [(hheard delivery (List.prefix_refl _)).printed]
    refine List.Nodup.of_map (·.seqNum.toNat) ?_
    rw [map_seqNum_reports]
    exact hrise.imp fun hlt => hlt.ne
  · intro before r hpre
    have hbefore := hheard before ((List.prefix_append _ _).trans hpre)
    have hafter := hheard (before ++ [r]) hpre
    rw [UInt32.le_iff_toNat_le, hbefore.expectedSeq, hafter.expectedSeq]
    cases r with
    | error => simp
    | datagram bytes => simp

/-- **Gap detection works exactly when** every report that arrives has a higher number than all
reports before it. -/
theorem detectsGaps_iff (hdelivers : Delivers stream delivery) :
    DetectsGaps delivery ↔ (arrivals delivery).Pairwise (· < ·) := by
  constructor
  · intro h
    exact h.pairwise_lt hstream hsize hdelivers
  · intro hrise
    exact DetectsGaps.of_pairwise_lt hstream hsize hdelivers hrise

end Run

/-- The report of one fill, under any number. -/
def fillReport (seqNum : UInt32) : List UInt8 :=
  executionReportBytes seqNum ⟨1, 2, 100, 5, false⟩ 7

theorem numbered_fillReport : MatchingLoop.Numbered [fillReport 1, fillReport 2, fillReport 3] := by
  have hnone : MatchingLoop.Numbered [] := fun i hi => nomatch hi
  exact hnone.append 7 (List.replicate 3 ⟨1, 2, 100, 5, false⟩)

/-- **A loss is seen.** The second report does not arrive. -/
theorem detectsGaps_iff_loss :
    MatchingLoop.Numbered [fillReport 1, fillReport 2, fillReport 3] ∧
      DetectsGaps [.datagram (fillReport 1), .error, .datagram (fillReport 3)] ∧
      totalMissing (Subscriber.start.listen
        [.datagram (fillReport 1), .error, .datagram (fillReport 3)]).2 = 1 := by
  refine ⟨numbered_fillReport, ?_, by decide +kernel⟩
  refine (detectsGaps_iff numbered_fillReport (by decide) ?_).2 (by decide +kernel)
  intro bytes hb
  simp only [List.mem_cons, Received.datagram.injEq, reduceCtorEq, false_or, List.not_mem_nil,
    or_false] at hb
  obtain rfl | rfl := hb
  · exact List.mem_cons_self
  · exact List.mem_cons_of_mem _ (List.mem_cons_of_mem _ List.mem_cons_self)

/-- **Reports that come late, and again.** The second report overtakes the first one and is then
delivered once more. It is printed both times, the first one turns the expected number back, and is
logged with all but two of the numbers missing. -/
theorem not_detectsGaps_reordered : ∃ delivery,
    delivery = [.datagram (fillReport 2), .datagram (fillReport 1), .datagram (fillReport 2)] ∧
      MatchingLoop.Numbered [fillReport 1, fillReport 2, fillReport 3] ∧
      Delivers [fillReport 1, fillReport 2, fillReport 3] delivery ∧
      (Subscriber.start.listen delivery).2 =
        [.gap 1 2 1, .report (reportAt (fillReport 2)), .gap 3 1 4294967294,
          .report (reportAt (fillReport 1)), .report (reportAt (fillReport 2))] ∧
      overtaken (arrivals delivery) = 1 ∧
      ¬ DetectsGaps delivery := by
  refine ⟨_, rfl, numbered_fillReport, ?_, by decide +kernel, by decide +kernel, ?_⟩
  · intro bytes hb
    simp only [List.mem_cons, Received.datagram.injEq, List.not_mem_nil, or_false] at hb
    obtain rfl | rfl | rfl := hb
    · exact List.mem_cons_of_mem _ List.mem_cons_self
    · exact List.mem_cons_self
    · exact List.mem_cons_of_mem _ List.mem_cons_self
  · intro h
    exact absurd h.once (by decide +kernel)

end Ferrox
