import Ferrox.GatewayProof
import Ferrox.Rejection

/-!
# The feed of execution reports

The reports of a run are numbered without gaps. For each command they account for what the command
takes from the opposite side, maker by maker, with one exception: an order that trades, is not
exhausted, and whose id is that of an order that still rests. Its remainder is refused, `add_order`
returns an error, and the trades that were made are not reported (`accounted_iff`).
-/

namespace Ferrox

open Bytes

/-! ## On the price-time book -/

namespace Book

variable {B : Book} {o : Order}

/-- The fills that are reported for an order. -/
def reported (B : Book) (o : Order) : List Fill :=
  match (B.add o).2 with
  | .ok result => result.fills
  | .error _ => []

/-- **What is reported for an order is what it takes**, maker by maker, unless its trades are
swallowed. -/
theorem accounted_iff (h : B.WF) (o : Order) :
    (∀ id, restingQuantity (B.side o.side.opposite) id =
        restingQuantity ((B.add o).1.side o.side.opposite) id +
          filledQuantity (B.reported o) id) ↔ ¬ Swallowed B.orders o := by
  have hfilled : (∀ id, restingQuantity (B.side o.side.opposite) id =
      restingQuantity ((B.add o).1.side o.side.opposite) id + filledQuantity (B.reported o) id) ↔
      ∀ id, filledQuantity (B.swept o).fills id = filledQuantity (B.reported o) id := by
    apply forall_congr'
    intro id
    rw [side_add_opposite, sweep_accounts o (B.side o.side.opposite) o.quantity id]
    exact Nat.add_left_cancel_iff
  rw [hfilled, swallowed_iff h]
  unfold reported
  cases hresult : (B.add o).2 with
  | ok r =>
    simp only [fills_of_ok hresult, reduceCtorEq, exists_false, false_and, not_false_eq_true,
      implies_true]
  | error err =>
    -- nothing is reported, which is right just in case nothing was traded
    have hzero := filledQuantity_eq_zero_iff (B.swept o).fills
    simp only [Except.error.injEq, exists_eq', true_and, Nat.not_lt, Nat.le_zero]
    exact hzero

end Book

namespace MatchingLoop

variable {crc : List UInt8 → UInt32} {bincode : Bincode} {c : UInt32}

/-! ## Datagrams -/

/-- The quantity that datagrams report for the maker with an id. -/
def reportedQuantity (sent : List (List UInt8)) (id : UInt64) : Nat :=
  (sent.map fun datagram =>
    match Protocol.decodeExecutionReport datagram with
    | .ok r => if r.makerOrderId = id then r.quantity.toNat else 0
    | .error _ => 0).sum

/-- The `n`-th datagram, counted from one, is a report with number `n`. -/
def Numbered (sent : List (List UInt8)) : Prop :=
  ∀ i (hi : i < sent.length), ∃ r, Protocol.decodeExecutionReport sent[i] = .ok r ∧
    r.seqNum.toNat = (i + 1) % 2 ^ 32

theorem reportedQuantity_datagrams (timestamp : UInt64) (seqNum : UInt32) (fills : List Fill)
    (id : UInt64) :
    reportedQuantity (datagrams timestamp seqNum fills) id = Book.filledQuantity fills id := by
  induction fills generalizing seqNum with
  | nil => rfl
  | cons fill fills ih =>
    rw [Book.filledQuantity_cons, ← ih (seqNum + 1), datagrams, reportedQuantity, List.map_cons,
      List.sum_cons, Protocol.decodeExecutionReport_executionReportBytes]
    rfl

theorem Numbered.snoc {sent : List (List UInt8)} (h : Numbered sent) (fill : Fill)
    (timestamp : UInt64) : Numbered (sent ++
      [Protocol.executionReportBytes (UInt32.ofNat sent.length + 1) fill timestamp]) := by
  intro i hi
  by_cases hlt : i < sent.length
  · rw [List.getElem_append_left hlt]
    exact h i hlt
  · obtain rfl : i = sent.length := by
      rw [List.length_append, List.length_singleton] at hi
      omega
    rw [List.getElem_concat_length rfl]
    refine ⟨_, Protocol.decodeExecutionReport_executionReportBytes _ _ _, ?_⟩
    show (UInt32.ofNat sent.length + 1).toNat = _
    rw [← UInt32.ofNat_one, ← UInt32.ofNat_add]
    exact UInt32.toNat_ofNat'

theorem Numbered.append {sent : List (List UInt8)} (h : Numbered sent) (timestamp : UInt64)
    (fills : List Fill) :
    Numbered (sent ++ datagrams timestamp (UInt32.ofNat sent.length) fills) := by
  induction fills generalizing sent with
  | nil =>
    rw [datagrams, List.append_nil]
    exact h
  | cons fill fills ih =>
    have := ih (h.snoc fill timestamp)
    rw [List.length_append, List.length_singleton, UInt32.ofNat_add, List.append_assoc] at this
    exact this

theorem length_datagrams (timestamp : UInt64) (seqNum : UInt32) (fills : List Fill) :
    (datagrams timestamp seqNum fills).length = fills.length := by
  induction fills generalizing seqNum with
  | nil => rfl
  | cons fill fills ih => rw [datagrams, List.length_cons, List.length_cons, ih]

/-! ## Runs -/

/-- A command of a run, and the thread before and after its round. -/
structure Processing where
  cmd : EngineCommand
  before : MatchingLoop
  after : MatchingLoop

/-- The datagrams sent for the command. -/
def Processing.reports (p : Processing) : List (List UInt8) :=
  p.after.sent.drop p.before.sent.length

/-- **The reports account for the trades of a new order**: maker by maker, they say what was taken
from the opposite side. -/
def Processing.Accounted (p : Processing) (o : Order) : Prop :=
  ∀ id, Book.restingQuantity (p.before.engine.book.restingOn o.side.opposite) id =
    Book.restingQuantity (p.after.engine.book.restingOn o.side.opposite) id +
      reportedQuantity p.reports id

/-- The commands of a run. -/
def history (crc : List UInt8 → UInt32) (bincode : Bincode) :
    Phase × MatchingLoop → List Event → List Processing
  | _, [] => []
  | s, event :: events =>
      match step crc bincode s event, event with
      | none, _ => []
      | some s', .command cmd _ _ => ⟨cmd, s.2, s'.2⟩ :: history crc bincode s' events
      | some s', .empty _ => history crc bincode s' events

theorem step_command {s s' : Phase × MatchingLoop} {cmd : EngineCommand} {grow : GrowIo}
    {save : Snapshot.SaveIo} (h : Sound c s.2)
    (hs : step crc bincode s (.command cmd grow save) = some s') :
    Sound c s'.2 ∧ s'.2.engine = s.2.engine.applyCommand cmd ∧
      s'.2.sent = s.2.sent ++ datagrams (timestampOf cmd) s.2.seqNum (fillsOf s.2.engine cmd) ∧
      s'.2.seqNum = s.2.seqNum + UInt32.ofNat (fillsOf s.2.engine cmd).length := by
  rcases step_cases hs with ⟨_, heq, _⟩ | ⟨cmd', grow', save', m, heq, hm, hs'⟩
  · cases heq
  · cases heq
    have hsound := h.processCommand hm
    obtain ⟨m₁, buf, -, -, rfl⟩ := processCommand_spec h.reportBuf hm
    rcases hs' with hs' | hs'
    · rw [hs']
      exact ⟨hsound, rfl, rfl, rfl⟩
    · rw [hs']
      refine ⟨hsound.countCommand crc bincode save, ?_⟩
      rcases countCommand_cases crc bincode save _ with ⟨k, hcount⟩ | ⟨w, -, hcount⟩
      · rw [hcount]
        exact ⟨rfl, rfl, rfl⟩
      · rw [hcount]
        exact ⟨rfl, rfl, rfl⟩

theorem fillsOf_newOrder {e : MatchingEngine} (h : e.book.WF) (o : Order) :
    fillsOf e (.newOrder o) = e.book.toBook.reported o := by
  obtain ⟨-, -, hresult⟩ := MatchingEngine.addOrder_sim h o
  cases hadd : (e.book.toBook.add o).2 with
  | ok result => simp only [fillsOf, Book.reported, hresult, hadd]
  | error err => simp only [fillsOf, Book.reported, hresult, hadd]

/-- **One command**: its reports are what `Swallowed` leaves of its trades. -/
theorem accounted_step {s s' : Phase × MatchingLoop} {o : Order} {grow : GrowIo}
    {save : Snapshot.SaveIo} (h : Sound c s.2)
    (hs : step crc bincode s (.command (.newOrder o) grow save) = some s') :
    (Processing.mk (.newOrder o) s.2 s'.2).Accounted o ↔
      ¬ Book.Swallowed s.2.engine.book.allRestingOrders o := by
  obtain ⟨-, hengine, hsent, -⟩ := step_command h hs
  obtain ⟨-, hbook, -⟩ := MatchingEngine.addOrder_sim h.wf o
  have hreports : (Processing.mk (.newOrder o) s.2 s'.2).reports =
      datagrams o.timestamp s.2.seqNum (fillsOf s.2.engine (.newOrder o)) := by
    show s'.2.sent.drop s.2.sent.length = _
    rw [hsent, List.drop_left]
    rfl
  have hfills : fillsOf s.2.engine (.newOrder o) = s.2.engine.book.toBook.reported o :=
    fillsOf_newOrder h.wf o
  have hafter : s'.2.engine.book.restingOn o.side.opposite =
      (s.2.engine.book.toBook.add o).1.side o.side.opposite := by
    rw [hengine, ← hbook]
    rfl
  rw [← OrderBook.orders_toBook, ← Book.accounted_iff h.wf.wf_toBook o]
  unfold Processing.Accounted
  rw [hreports]
  simp only [reportedQuantity_datagrams, hfills, hafter]
  rfl

/-- The invariant of the feed. -/
structure Feed (c : UInt32) (m : MatchingLoop) : Prop where
  sound : Sound c m
  numbered : Numbered m.sent
  seqNum : m.seqNum = UInt32.ofNat m.sent.length

theorem Feed.step {s s' : Phase × MatchingLoop} {cmd : EngineCommand} {grow : GrowIo}
    {save : Snapshot.SaveIo} (h : Feed c s.2)
    (hs : step crc bincode s (.command cmd grow save) = some s') : Feed c s'.2 := by
  obtain ⟨hsound, -, hsent, hseq⟩ := step_command h.sound hs
  refine ⟨hsound, ?_, ?_⟩
  · rw [hsent, h.seqNum]
    exact h.numbered.append _ _
  · rw [hseq, hsent, h.seqNum, List.length_append, length_datagrams, UInt32.ofNat_add]

theorem Feed.run {s s' : Phase × MatchingLoop} {events : List Event} (h : Feed c s.2)
    (hrun : run crc bincode s events = some s') :
    Feed c s'.2 ∧
      s'.2.sent = s.2.sent ++ (history crc bincode s events).flatMap Processing.reports ∧
      ∀ p ∈ history crc bincode s events, ∀ o, p.cmd = .newOrder o →
        (p.Accounted o ↔ ¬ Book.Swallowed p.before.engine.book.allRestingOrders o) := by
  induction events generalizing s with
  | nil =>
    obtain rfl := Option.some.inj hrun
    rw [history, List.flatMap_nil, List.append_nil]
    refine ⟨h, rfl, ?_⟩
    intro p hp
    cases hp
  | cons event events ih =>
    obtain ⟨s₁, hs, hrun₁⟩ := run_cons hrun
    unfold history
    simp only [hs]
    cases event with
    | empty shutdown =>
      rcases step_cases hs with ⟨_, _, heq⟩ | ⟨_, _, _, _, heq, _⟩
      · have := ih (heq ▸ h) hrun₁
        rwa [heq] at this
      · cases heq
    | command cmd grow save =>
      obtain ⟨hfeed, hsent, hhistory⟩ := ih (h.step hs) hrun₁
      obtain ⟨-, -, hsent₁, -⟩ := step_command h.sound hs
      refine ⟨hfeed, ?_, ?_⟩
      · rw [hsent, List.flatMap_cons, ← List.append_assoc]
        congr 1
        show s₁.2.sent = s.2.sent ++ s₁.2.sent.drop s.2.sent.length
        rw [hsent₁, List.drop_left]
      · intro p hp o ho
        rcases List.mem_cons.1 hp with rfl | hp
        · obtain rfl : cmd = .newOrder o := ho
          exact accounted_step h.sound hs
        · exact hhistory p hp o ho

theorem feed_start {io : RecoverIo} {dataDir : Option DataDir} {interval : UInt64}
    {s : Phase × MatchingLoop} (h : start crc bincode io dataDir c interval = some s) :
    Feed c s.2 := by
  obtain ⟨hsound, hsent, hseq⟩ := sound_start h
  refine ⟨hsound, ?_, ?_⟩
  · rw [hsent]
    exact nofun
  · rw [hseq, hsent]
    rfl

/-- **The feed of a run**, from any start-up. The `n`-th report carries `n` modulo `2 ^ 32`; the
reports are those of the commands, in order; and for each new order they account, maker by maker,
for what its processing takes from the opposite side, exactly when its trades are not swallowed. -/
theorem feed_accounts {io : RecoverIo} {dataDir : Option DataDir} {interval : UInt64}
    {s₀ s : Phase × MatchingLoop} {events : List Event}
    (hstart : start crc bincode io dataDir c interval = some s₀)
    (hrun : run crc bincode s₀ events = some s) :
    Numbered s.2.sent ∧ s.2.sent = (history crc bincode s₀ events).flatMap Processing.reports ∧
      ∀ p ∈ history crc bincode s₀ events, ∀ o, p.cmd = .newOrder o →
        (p.Accounted o ↔ ¬ Book.Swallowed p.before.engine.book.allRestingOrders o) := by
  obtain ⟨-, hsent, -⟩ := sound_start hstart
  obtain ⟨hfeed, hsent', hhistory⟩ := (feed_start hstart).run hrun
  rw [hsent, List.nil_append] at hsent'
  exact ⟨hfeed.numbered, hsent', hhistory⟩

/-- An order that trades, and its report. -/
theorem feed_accounts_trade : ∃ s₀ s,
    start crc32 .fixint .ok none 4 10 = some s₀ ∧
      run crc32 .fixint s₀ [.command (.newOrder ⟨1, 10, .ask, 100, 5, 7⟩) .ok .ok,
        .command (.newOrder ⟨2, 11, .bid, 100, 2, 8⟩) .ok .ok] = some s ∧
      s.2.sent.length = 1 ∧ Numbered s.2.sent ∧
      ∀ p ∈ history crc32 .fixint s₀ [.command (.newOrder ⟨1, 10, .ask, 100, 5, 7⟩) .ok .ok,
        .command (.newOrder ⟨2, 11, .bid, 100, 2, 8⟩) .ok .ok], ∀ o, p.cmd = .newOrder o →
        (p.Accounted o ↔ ¬ Book.Swallowed p.before.engine.book.allRestingOrders o) := by
  have hstart : start crc32 .fixint .ok none 4 10 =
      some (enter (MatchingEngine.withCapacity 4) none false ⟨none, none⟩ 10) := rfl
  obtain ⟨s, hrun, hlen⟩ : ∃ s, run crc32 .fixint
      (enter (MatchingEngine.withCapacity 4) none false ⟨none, none⟩ 10)
      [.command (.newOrder ⟨1, 10, .ask, 100, 5, 7⟩) .ok .ok,
        .command (.newOrder ⟨2, 11, .bid, 100, 2, 8⟩) .ok .ok] = some s ∧ s.2.sent.length = 1 :=
    ⟨_, rfl, by decide +kernel⟩
  obtain ⟨hnumbered, -, hhistory⟩ := feed_accounts hstart hrun
  exact ⟨_, s, hstart, hrun, hlen, hnumbered, hhistory⟩

/-- **Trades without a report.** The third order takes the whole maker, and its remainder is refused
because its id is that of the second one. -/
theorem not_accounted_duplicate_id : ∃ s₀ s p,
    start crc32 .fixint .ok none 4 10 = some s₀ ∧
      run crc32 .fixint s₀ [.command (.newOrder ⟨1, 10, .ask, 100, 5, 7⟩) .ok .ok,
        .command (.newOrder ⟨2, 11, .bid, 90, 1, 8⟩) .ok .ok,
        .command (.newOrder ⟨2, 12, .bid, 100, 8, 9⟩) .ok .ok] = some s ∧
      p ∈ history crc32 .fixint s₀ [.command (.newOrder ⟨1, 10, .ask, 100, 5, 7⟩) .ok .ok,
        .command (.newOrder ⟨2, 11, .bid, 90, 1, 8⟩) .ok .ok,
        .command (.newOrder ⟨2, 12, .bid, 100, 8, 9⟩) .ok .ok] ∧
      p.cmd = .newOrder ⟨2, 12, .bid, 100, 8, 9⟩ ∧ s.2.sent = [] ∧
      ¬ p.Accounted ⟨2, 12, .bid, 100, 8, 9⟩ := by
  refine ⟨_, _, _, rfl, rfl, List.mem_cons_of_mem _ (List.mem_cons_of_mem _ List.mem_cons_self),
    rfl, by decide +kernel, ?_⟩
  intro h
  have := h 1
  revert this
  decide +kernel

end MatchingLoop

end Ferrox
