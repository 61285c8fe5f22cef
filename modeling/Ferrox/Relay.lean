import Ferrox.Pipeline
import Ferrox.Subscriber

/-!
# The relay

`examples/relay.rs` takes the multicast feed to a subscriber that multicast does not reach. It
forwards every datagram that is long enough to be a report, and repairs nothing.

So a subscriber behind a relay prints the reports and the gaps that a subscriber in its place would
print, of what the relay managed to send (`relay_transparent`). Together with the feed of a gateway
this gives the way of a trade to the screen: as long as the reports keep their order, wherever they
get lost, the subscriber prints the trades that arrive and counts those that do not
(`relayed_trades`). The numbers of the reports wrap around, and that does no harm until `2 ^ 32`
reports in a row get lost.
-/

namespace Ferrox

open Bytes Protocol

/-! ## The model -/

/-- What the loop prints. -/
inductive RelayLine where
  | recvError
  | shortPacket (n : Nat)
  | sendError
  | forwarded (packets : UInt64)
  deriving DecidableEq

/-- The variables of the loop. -/
structure Relay where
  buf : List UInt8
  forwarded : UInt64

namespace Relay

def start : Relay where
  buf := List.replicate executionReportSize 0
  forwarded := 0

/-- One round of the loop: the datagram that it sends, if any, and what it prints. Whether a `send`
succeeds is up to the network. -/
def receive (s : Relay) (sends : Bool) : Received → Relay × Option (List UInt8) × List RelayLine
  | .error => (s, none, [.recvError])
  | .datagram bytes =>
      let n := min bytes.length s.buf.length
      let s := { s with buf := overwrite s.buf 0 (bytes.take n) }
      if n < executionReportSize then (s, none, [.shortPacket n])
      else if sends then
        let s := { s with forwarded := s.forwarded + 1 }
        (s, some (s.buf.take n),
          if s.forwarded % 100000 = 0 then [.forwarded s.forwarded] else [])
      else (s, none, [.sendError])

/-- Round after round. -/
def run (s : Relay) : List (Received × Bool) → Relay × List (List UInt8) × List RelayLine
  | [] => (s, [], [])
  | (r, sends) :: rounds =>
      let (s, sent, lines) := s.receive sends r
      let (s, sent', lines') := run s rounds
      (s, sent.toList ++ sent', lines ++ lines')

/-! ## What is sent -/

/-- What a round makes of a datagram: the part that the buffer holds, if that is a report. -/
def forwarded? : Received × Bool → Option (List UInt8)
  | (.datagram bytes, true) =>
      if executionReportSize ≤ bytes.length then some (bytes.take executionReportSize) else none
  | _ => none

theorem length_overwrite_take (buf bytes : List UInt8) :
    (overwrite buf 0 (bytes.take (min bytes.length buf.length))).length = buf.length := by
  rw [overwrite, List.take_zero, List.nil_append, Nat.zero_add, List.length_append,
    List.length_drop, List.length_take]
  omega

theorem receive_spec {s : Relay} (hbuf : s.buf.length = executionReportSize) (r : Received)
    (sends : Bool) :
    (s.receive sends r).2.1 = forwarded? (r, sends) ∧
      (s.receive sends r).1.buf.length = executionReportSize := by
  cases r with
  | error => exact ⟨rfl, hbuf⟩
  | datagram bytes =>
    have hlen : (overwrite s.buf 0 (bytes.take (min bytes.length s.buf.length))).length =
        executionReportSize := by
      rw [length_overwrite_take, hbuf]
    by_cases hle : executionReportSize ≤ bytes.length
    · have hn : min bytes.length s.buf.length = executionReportSize := by
        rw [hbuf, min_eq_right hle]
      have hwrite : overwrite s.buf 0 (bytes.take executionReportSize) =
          bytes.take executionReportSize := by
        rw [overwrite, List.length_take_of_le hle, Nat.zero_add, List.drop_of_length_le hbuf.le,
          List.take_zero, List.nil_append, List.append_nil]
      rw [hn, hwrite] at hlen
      simp only [receive, hn, hwrite, lt_irrefl, if_false]
      cases sends with
      | false => exact ⟨rfl, hlen⟩
      | true =>
        refine ⟨?_, hlen⟩
        simp only [forwarded?, if_pos hle, if_true]
        rw [List.take_of_length_le hlen.le]
    · have hn : min bytes.length s.buf.length < executionReportSize := by
        rw [hbuf]
        exact lt_of_le_of_lt (min_le_left _ _) (not_le.1 hle)
      simp only [receive, if_pos hn]
      refine ⟨?_, hlen⟩
      cases sends with
      | false => rfl
      | true => simp only [forwarded?, if_neg hle]

theorem run_sent {s : Relay} (hbuf : s.buf.length = executionReportSize)
    (rounds : List (Received × Bool)) :
    (s.run rounds).2.1 = rounds.filterMap forwarded? := by
  induction rounds generalizing s with
  | nil => rfl
  | cons round rounds ih =>
    obtain ⟨r, sends⟩ := round
    obtain ⟨hsent, hbuf'⟩ := receive_spec hbuf r sends
    simp only [run, hsent, ih hbuf']
    cases hcase : forwarded? (r, sends) with
    | none => rw [List.filterMap_cons_none hcase, Option.toList_none, List.nil_append]
    | some bytes =>
      rw [List.filterMap_cons_some hcase, Option.toList_some, List.singleton_append]

end Relay

/-! ## The subscriber behind it -/

/-- The lines that are about reports. -/
def Line.isReport : Line → Bool
  | .gap _ _ _ | .report _ => true
  | .recvError | .shortPacket _ | .decodeError _ => false

theorem Subscriber.receive_short {s : Subscriber} {bytes : List UInt8}
    (hbuf : s.buf.length = executionReportSize) (hlen : ¬ executionReportSize ≤ bytes.length) :
    ∃ buf, buf.length = executionReportSize ∧
      s.receive (.datagram bytes) = ({ s with buf }, [.shortPacket bytes.length]) := by
  have hn : min bytes.length s.buf.length = bytes.length := by
    rw [hbuf, min_eq_left (not_le.1 hlen).le]
  refine ⟨overwrite s.buf 0 (bytes.take bytes.length), ?_, ?_⟩
  · rw [← hbuf, ← Relay.length_overwrite_take s.buf bytes, hn]
  · simp only [receive, hn, if_pos (not_le.1 hlen)]

/-- The two subscribers, round by round: they expect the same number, and the one behind the relay
prints what the other one prints about reports. -/
theorem listen_relayed {s s' : Subscriber} (hbuf : s.buf.length = executionReportSize)
    (hbuf' : s'.buf.length = executionReportSize) (hseq : s.expectedSeq = s'.expectedSeq)
    (rounds : List (Received × Bool)) :
    (s.listen ((rounds.filterMap Relay.forwarded?).map .datagram)).2 =
      (s'.listen ((rounds.filter (·.2)).map (·.1))).2.filter Line.isReport := by
  induction rounds generalizing s s' with
  | nil => rfl
  | cons round rounds ih =>
    obtain ⟨r, sends⟩ := round
    cases sends with
    | false =>
      have hnone : Relay.forwarded? (r, false) = none := by cases r <;> rfl
      rw [List.filterMap_cons_none hnone, List.filter_cons_of_neg (by simp)]
      exact ih hbuf hbuf' hseq
    | true =>
      rw [List.filter_cons_of_pos rfl, List.map_cons, Subscriber.listen]
      cases r with
      | error =>
        rw [List.filterMap_cons_none rfl, ih hbuf hbuf' hseq]
        rfl
      | datagram bytes =>
        by_cases hlen : executionReportSize ≤ bytes.length
        · have hsome : Relay.forwarded? (.datagram bytes, true) =
              some (bytes.take executionReportSize) := if_pos hlen
          have htake : (bytes.take executionReportSize).length = executionReportSize :=
            List.length_take_of_le hlen
          rw [List.filterMap_cons_some hsome, List.map_cons, Subscriber.listen,
            Subscriber.receive_datagram hbuf htake.ge, Subscriber.receive_datagram hbuf' hlen,
            reportAt_take, hseq, List.take_of_length_le htake.le, List.filter_append,
            ih htake htake rfl]
          split_ifs
          all_goals rfl
        · have hnone : Relay.forwarded? (.datagram bytes, true) = none := if_neg hlen
          obtain ⟨buf, hlen', heq⟩ := Subscriber.receive_short hbuf' hlen
          rw [List.filterMap_cons_none hnone, heq]
          exact ih hbuf hlen' hseq

/-- What a subscriber behind a relay prints. -/
def relayedLines (rounds : List (Received × Bool)) : List Line :=
  (Subscriber.start.listen ((Relay.start.run rounds).2.1.map .datagram)).2

/-- **The relay repairs nothing and adds nothing.** Whatever arrives at the relay and whichever of
its sends fail, a subscriber behind it prints the reports and the gaps that a subscriber prints that
is in its place and does not get the datagrams of the failed sends. -/
theorem relay_transparent (rounds : List (Received × Bool)) :
    relayedLines rounds =
      (Subscriber.start.listen ((rounds.filter (·.2)).map (·.1))).2.filter Line.isReport := by
  rw [relayedLines, Relay.run_sent List.length_replicate]
  exact listen_relayed List.length_replicate List.length_replicate rfl rounds

/-! ## Reports in order -/

/-- Positions in order, from `n` on. -/
def InOrder : Nat → List Nat → Prop
  | _, [] => True
  | n, i :: is => n ≤ i ∧ InOrder (i + 1) is

/-- Fewer than `2 ^ 32` positions in a row are left out. -/
def ShortLosses : Nat → List Nat → Prop
  | _, [] => True
  | n, i :: is => i < n + 2 ^ 32 ∧ ShortLosses (i + 1) is

/-- The position behind the last one. -/
def behind : Nat → List Nat → Nat
  | n, [] => n
  | _, i :: is => behind (i + 1) is

/-- The reports at some positions of a stream. -/
def reportsAt (stream : List (List UInt8)) (is : List Nat) : List (List UInt8) :=
  is.map fun i => stream.getD i []

theorem printed_append (lines lines' : List Line) :
    printed (lines ++ lines') = printed lines ++ printed lines' := List.filterMap_append

theorem totalMissing_append (lines lines' : List Line) :
    totalMissing (lines ++ lines') = totalMissing lines + totalMissing lines' := by
  rw [totalMissing, List.map_append, List.sum_append]
  rfl

theorem toNat_sub_of_mod {a b : UInt32} {n i : Nat} (hb : b.toNat = (n + 1) % 2 ^ 32)
    (ha : a.toNat = (i + 1) % 2 ^ 32) (hle : n ≤ i) : (a - b).toNat = (i - n) % 2 ^ 32 := by
  rw [UInt32.toNat_sub, ha, hb]
  omega

/-- **As long as the reports keep their order**, the subscriber prints those that arrive, and counts
those that do not. What it says is missing and what it prints add up to the last position, unless a
loss was so long that its number wrapped around. -/
theorem listen_inOrder {stream : List (List UInt8)} (hstream : MatchingLoop.Numbered stream)
    {s : Subscriber} (hbuf : s.buf.length = executionReportSize) {n : Nat}
    (hseq : s.expectedSeq.toNat = (n + 1) % 2 ^ 32) {is : List Nat} (horder : InOrder n is)
    (hmem : ∀ i ∈ is, i < stream.length) :
    printed (s.listen ((reportsAt stream is).map .datagram)).2 =
        (reportsAt stream is).map reportAt ∧
      totalMissing (s.listen ((reportsAt stream is).map .datagram)).2 + is.length + n ≤
        behind n is ∧
      (totalMissing (s.listen ((reportsAt stream is).map .datagram)).2 + is.length + n =
        behind n is ↔ ShortLosses n is) := by
  induction is generalizing s n with
  | nil => simp [reportsAt, Subscriber.listen, printed, totalMissing, behind, ShortLosses]
  | cons i is ih =>
    obtain ⟨hle, horder⟩ := horder
    have hi := hmem i List.mem_cons_self
    obtain ⟨r, hdecode, hr⟩ := hstream i hi
    obtain ⟨hlen, rfl⟩ := (decodeExecutionReport_ok_iff _ r).1 hdecode
    have hget : stream.getD i [] = stream[i] := by simp [hi]
    have hnext : ((reportAt stream[i]).seqNum + 1).toNat = (i + 1 + 1) % 2 ^ 32 := by
      rw [UInt32.toNat_add, hr, UInt32.toNat_one]
      omega
    obtain ⟨hprinted, hbound, hmissing⟩ := ih (s := ⟨stream[i].take executionReportSize, _⟩)
      (List.length_take_of_le hlen) hnext horder (fun j hj => hmem j (List.mem_cons_of_mem _ hj))
    have hcons : reportsAt stream (i :: is) = stream[i] :: reportsAt stream is := by
      rw [reportsAt, List.map_cons, hget]
      rfl
    have hgap : totalMissing ((if (reportAt stream[i]).seqNum ≠ s.expectedSeq then
          [.gap s.expectedSeq (reportAt stream[i]).seqNum
            ((reportAt stream[i]).seqNum - s.expectedSeq)]
        else []) ++ [.report (reportAt stream[i])]) = (i - n) % 2 ^ 32 := by
      have hsub := toNat_sub_of_mod hseq hr hle
      split_ifs with hne
      · exact hsub
      · rw [not_ne_iff.1 hne, sub_self] at hsub
        exact hsub
    rw [hcons, List.map_cons, Subscriber.listen, Subscriber.receive_datagram hbuf hlen]
    dsimp only
    constructor
    · rw [printed_append, hprinted, List.map_cons]
      split_ifs
      all_goals rfl
    · rw [totalMissing_append, hgap, behind, ShortLosses, List.length_cons, ← hmissing]
      omega

theorem fill_reportAt {sent : List (List UInt8)} {trades : List Fill}
    (hnumbered : MatchingLoop.Numbered sent)
    (hsent : sent.map reportedFill = trades.map (some ∘ Fill.onWire)) {i : Nat}
    (hi : i < sent.length) :
    some ((reportAt (sent.getD i [])).fill false) = (trades[i]?).map Fill.onWire := by
  obtain ⟨r, hdecode, -⟩ := hnumbered i hi
  obtain ⟨hlen, rfl⟩ := (decodeExecutionReport_ok_iff _ r).1 hdecode
  have hreport : reportedFill sent[i] = some ((reportAt sent[i]).fill false) := by
    rw [reportedFill, hdecode]
  have hat := congrArg (·[i]?) hsent
  simp only [List.getElem?_map, List.getElem?_eq_getElem hi, Option.map_some, hreport] at hat
  have hget : sent.getD i [] = sent[i] := by simp [hi]
  rw [hget]
  cases htrade : trades[i]? with
  | none =>
    rw [htrade] at hat
    cases hat
  | some trade =>
    rw [htrade] at hat
    exact Option.some.inj hat

/-- **From trades to the screen.** Take any run of a gateway from any start-up, and let its reports
reach the relay in order, with losses on the way and sends that fail. What the subscriber behind the
relay prints are the trades whose reports got through, each once and in order. The counts of its gap
lines are never too high, and they add up to the number of reports that got lost before the last one
that arrived exactly when no `2 ^ 32` reports in a row got lost. -/
theorem relayed_trades {crc : List UInt8 → UInt32} {bincode : Bincode} {c : UInt32}
    {io : RecoverIo} {dataDir : Option DataDir} {interval : UInt64}
    {s₀ s : Phase × MatchingLoop} {events : List Event} {rounds : List (Received × Bool)}
    {is : List Nat} (hstart : MatchingLoop.start crc bincode io dataDir c interval = some s₀)
    (hrun : MatchingLoop.run crc bincode s₀ events = some s)
    (hrounds : rounds.filterMap Relay.forwarded? = reportsAt s.2.sent is)
    (horder : InOrder 0 is) (hmem : ∀ i ∈ is, i < s.2.sent.length) :
    (printed (relayedLines rounds)).map (fun r => some (r.fill false)) =
        is.map (fun i => ((MatchingLoop.executed s₀.2.engine
          (events.filterMap Event.command?))[i]?).map Fill.onWire) ∧
      totalMissing (relayedLines rounds) + is.length ≤ behind 0 is ∧
      (totalMissing (relayedLines rounds) + is.length = behind 0 is ↔ ShortLosses 0 is) := by
  obtain ⟨-, hfeed, hnumbered⟩ := MatchingLoop.outcome_of_run hstart hrun rfl
  obtain ⟨hprinted, hmissing⟩ := listen_inOrder (s := Subscriber.start) hnumbered
    List.length_replicate rfl horder hmem
  rw [relayedLines, Relay.run_sent List.length_replicate, hrounds]
  refine ⟨?_, hmissing⟩
  rw [hprinted, reportsAt, List.map_map, List.map_map]
  apply List.map_congr_left
  intro i hi
  exact fill_reportAt hnumbered hfeed (hmem i hi)

/-- An order that three others trade with. -/
def threeTrades : List Event :=
  [.command (.newOrder ⟨1, 10, .ask, 100, 5, 7⟩) .ok .ok,
    .command (.newOrder ⟨2, 11, .bid, 100, 1, 8⟩) .ok .ok,
    .command (.newOrder ⟨3, 12, .bid, 100, 2, 8⟩) .ok .ok,
    .command (.newOrder ⟨4, 11, .bid, 100, 1, 8⟩) .ok .ok]

/-- The relay fails to send the second of three reports. -/
theorem relayed_trades_sendError : ∃ s₀ s rounds,
    MatchingLoop.start crc32 .fixint .ok none 4 10 = some s₀ ∧
    MatchingLoop.run crc32 .fixint s₀ threeTrades = some s ∧ s.2.sent.length = 3 ∧
    rounds.filterMap Relay.forwarded? = reportsAt s.2.sent [0, 2] ∧
    (printed (relayedLines rounds)).map (fun r => some (r.fill false)) =
      [some ⟨2, 1, 100, 1, false⟩, some ⟨4, 1, 100, 1, false⟩] ∧
    totalMissing (relayedLines rounds) + 2 = 3 := by
  have hstart : MatchingLoop.start crc32 .fixint .ok none 4 10 =
      some (MatchingLoop.enter (MatchingEngine.withCapacity 4) none false ⟨none, none⟩ 10) := rfl
  obtain ⟨s, hrun, hlen, hrounds⟩ : ∃ s, MatchingLoop.run crc32 .fixint
      (MatchingLoop.enter (MatchingEngine.withCapacity 4) none false ⟨none, none⟩ 10)
      threeTrades = some s ∧ s.2.sent.length = 3 ∧
      [(.datagram (s.2.sent.getD 0 []), true), (.error, true), (.datagram (s.2.sent.getD 1 []), false),
        (.datagram (s.2.sent.getD 2 []), true)].filterMap Relay.forwarded? =
        reportsAt s.2.sent [0, 2] :=
    ⟨_, rfl, by decide +kernel, by decide +kernel⟩
  have horder : InOrder 0 [0, 2] := ⟨Nat.zero_le _, by decide, trivial⟩
  have hmem : ∀ i ∈ [0, 2], i < s.2.sent.length := by
    rw [hlen]
    decide
  obtain ⟨hprinted, -, hmissing⟩ := relayed_trades hstart hrun hrounds horder hmem
  refine ⟨_, s, _, hstart, hrun, hlen, hrounds, hprinted.trans (by decide +kernel),
    hmissing.2 ⟨by decide, by decide, trivial⟩⟩

end Ferrox
