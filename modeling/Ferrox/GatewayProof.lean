import Ferrox.Gateway
import Ferrox.RecoverTwice

/-!
# What a round of the matching thread does

One lemma for each part of a round says everything it can do: the append (`log_cases`), the reports
(`report_eq`), the whole of `process_command` (`processCommand_spec`) and the snapshot
(`countCommand_cases`). `step_cases` puts them together. What all rounds keep up is `Sound`.
-/

namespace Ferrox

open Bytes

namespace MatchingLoop

variable {crc : List UInt8 → UInt32} {bincode : Bincode}

/-- Reports to send for a command that was applied to `e`. -/
def fillsOf (e : MatchingEngine) : EngineCommand → List Fill
  | .newOrder order =>
      match (e.addOrder order).2 with
      | .ok result => result.fills
      | .error _ => []
  | .cancelOrder _ => []

def timestampOf : EngineCommand → UInt64
  | .newOrder order => order.timestamp
  | .cancelOrder _ => 0

/-- The datagrams of some fills, numbered behind `seqNum`. -/
def datagrams (timestamp : UInt64) : UInt32 → List Fill → List (List UInt8)
  | _, [] => []
  | seqNum, fill :: fills =>
      Protocol.executionReportBytes (seqNum + 1) fill timestamp ::
        datagrams timestamp (seqNum + 1) fills

theorem log_cases {io : GrowIo} {m m' : MatchingLoop} {cmd : EngineCommand}
    (h : log crc io m cmd = some m') :
    (m.wal = none ∧ m' = m) ∨ ∃ w w' result, m.wal = some w ∧
      w.append crc io cmd = some (w', result) ∧
      m' = { m with wal := some w', dir := { m.dir with wal := some w'.file } } := by
  unfold log at h
  cases hw : m.wal with
  | none =>
    rw [hw] at h
    exact Or.inl ⟨rfl, (Option.some.inj h).symm⟩
  | some w =>
    right
    cases happ : w.append crc io cmd with
    | none => simp only [hw, happ, reduceCtorEq] at h
    | some r =>
      obtain ⟨w', result⟩ := r
      simp only [hw, happ, Option.some.injEq] at h
      exact ⟨w, w', result, rfl, happ, h.symm⟩

theorem log_enter {io : GrowIo} {w w' : Wal} {cmd : EngineCommand} {result : Except WalError Nat}
    (happ : w.append crc io cmd = some (w', result)) (e : MatchingEngine) (dir : DataDir)
    (interval : UInt64) :
    log crc io (enter e (some w) true dir interval).2 cmd =
      some { (enter e (some w) true dir interval).2 with
        wal := some w', dir := { dir with wal := some w'.file } } := by
  unfold log enter
  simp only [happ]

theorem report_eq (timestamp : UInt64) (fills : List Fill) {m : MatchingLoop}
    (hbuf : m.reportBuf.length = executionReportSize) :
    ∃ buf, buf.length = executionReportSize ∧ report timestamp fills m = { m with
      seqNum := m.seqNum + UInt32.ofNat fills.length
      reportBuf := buf
      sent := m.sent ++ datagrams timestamp m.seqNum fills } := by
  induction fills generalizing m with
  | nil =>
    refine ⟨m.reportBuf, hbuf, ?_⟩
    simp [report, datagrams]
  | cons fill fills ih =>
    have henc := Protocol.encodeExecutionReport_eq hbuf.ge (m.seqNum + 1) fill timestamp
    have hdrop : m.reportBuf.drop executionReportSize = [] := List.drop_eq_nil_of_le hbuf.le
    rw [hdrop, List.append_nil] at henc
    obtain ⟨buf, hlen, heq⟩ := @ih { m with
      seqNum := m.seqNum + 1
      reportBuf := Protocol.executionReportBytes (m.seqNum + 1) fill timestamp
      sent := m.sent ++ [Protocol.executionReportBytes (m.seqNum + 1) fill timestamp] }
      (Protocol.length_executionReportBytes _ _ _)
    refine ⟨buf, hlen, ?_⟩
    rw [report]
    simp only [henc, heq, datagrams, List.length_cons, List.append_assoc, List.singleton_append]
    congr 1
    rw [UInt32.add_assoc, UInt32.add_comm 1, ← UInt32.ofNat_one, ← UInt32.ofNat_add]

/-- **What `process_command` does**: after the append, the command is applied, whatever became of
the append, and the fills of an accepted order are sent. -/
theorem processCommand_spec {io : GrowIo} {m m' : MatchingLoop} {cmd : EngineCommand}
    (hbuf : m.reportBuf.length = executionReportSize)
    (h : processCommand crc io m cmd = some m') :
    ∃ m₁ buf, log crc io m cmd = some m₁ ∧ buf.length = executionReportSize ∧ m' = { m₁ with
      engine := m.engine.applyCommand cmd
      seqNum := m.seqNum + UInt32.ofNat (fillsOf m.engine cmd).length
      reportBuf := buf
      sent := m.sent ++ datagrams (timestampOf cmd) m.seqNum (fillsOf m.engine cmd) } := by
  unfold processCommand at h
  cases hlog : log crc io m cmd with
  | none => simp only [hlog, reduceCtorEq] at h
  | some m₁ =>
    have hm₁ : m₁ = { m with wal := m₁.wal, dir := m₁.dir } := by
      rcases log_cases hlog with ⟨-, rfl⟩ | ⟨w, w', result, -, -, rfl⟩
      · rfl
      · rfl
    have hengine : m₁.engine = m.engine := by rw [hm₁]
    have hseq : m₁.seqNum = m.seqNum := by rw [hm₁]
    have hsent : m₁.sent = m.sent := by rw [hm₁]
    have hbuf₁ : m₁.reportBuf.length = executionReportSize := by
      rw [hm₁]
      exact hbuf
    simp only [hlog] at h
    cases cmd with
    | cancelOrder id =>
      refine ⟨m₁, m₁.reportBuf, rfl, hbuf₁, ?_⟩
      rw [← Option.some.inj h, hengine]
      simp [fillsOf, datagrams, MatchingEngine.applyCommand, ← hseq, ← hsent]
    | newOrder order =>
      simp only [hengine] at h
      cases hadd : m.engine.addOrder order with
      | mk e result =>
        cases result with
        | error err =>
          simp only [hadd, Option.some.injEq] at h
          refine ⟨m₁, m₁.reportBuf, rfl, hbuf₁, ?_⟩
          rw [← h]
          simp [fillsOf, datagrams, MatchingEngine.applyCommand, hadd, ← hseq, ← hsent]
        | ok result =>
          simp only [hadd, Option.some.injEq] at h
          obtain ⟨buf, hlen, heq⟩ := @report_eq order.timestamp result.fills
            { m₁ with engine := e } hbuf₁
          refine ⟨m₁, buf, rfl, hlen, ?_⟩
          rw [← h, heq]
          simp [fillsOf, timestampOf, MatchingEngine.applyCommand, hadd, hseq, hsent]

theorem countCommand_cases (crc : List UInt8 → UInt32) (bincode : Bincode)
    (io : Snapshot.SaveIo) (m : MatchingLoop) :
    (∃ k, countCommand crc bincode io m = { m with cmdsSinceSnapshot := k }) ∨
      ∃ w, m.wal = some w ∧ countCommand crc bincode io m = { m with
        dir := { m.dir with snapshots := ((Snapshot.capture crc bincode m.engine
          (UInt64.ofNat w.recordCount)).save bincode io m.dir.snapshots).1 }
        cmdsSinceSnapshot := 0 } := by
  unfold countCommand
  cases hw : m.wal with
  | none => exact Or.inl ⟨_, rfl⟩
  | some w =>
    cases hdir : m.snapshotDir with
    | false => exact Or.inl ⟨_, rfl⟩
    | true =>
      simp only
      split_ifs with hk
      · exact Or.inr ⟨w, rfl, rfl⟩
      · exact Or.inl ⟨_, rfl⟩

/-! ## Rounds and runs -/

/-- **What a round does**: nothing, or a command is processed, and a snapshot may follow. -/
theorem step_cases {s s' : Phase × MatchingLoop} {event : Event}
    (h : step crc bincode s event = some s') :
    (∃ shutdown, event = .empty shutdown ∧ s'.2 = s.2) ∨
      ∃ cmd grow save m, event = .command cmd grow save ∧
        processCommand crc grow s.2 cmd = some m ∧
        (s'.2 = m ∨ s'.2 = countCommand crc bincode save m) := by
  obtain ⟨phase, m⟩ := s
  cases event with
  | empty shutdown =>
    left
    refine ⟨shutdown, rfl, ?_⟩
    cases phase with
    | running =>
      obtain rfl := Option.some.inj h
      rfl
    | draining =>
      obtain rfl := Option.some.inj h
      rfl
    | stopped => cases h
  | command cmd grow save =>
    right
    cases phase with
    | running =>
      obtain ⟨m', hm', rfl⟩ := Option.map_eq_some_iff.1 h
      exact ⟨cmd, grow, save, m', rfl, hm', Or.inr rfl⟩
    | draining =>
      obtain ⟨m', hm', rfl⟩ := Option.map_eq_some_iff.1 h
      exact ⟨cmd, grow, save, m', rfl, hm', Or.inl rfl⟩
    | stopped => cases h

theorem run_cons {s s' : Phase × MatchingLoop} {event : Event} {events : List Event}
    (h : run crc bincode s (event :: events) = some s') :
    ∃ s₁, step crc bincode s event = some s₁ ∧ run crc bincode s₁ events = some s' := by
  rw [run] at h
  cases hs : step crc bincode s event with
  | none => simp only [hs, reduceCtorEq] at h
  | some s₁ =>
    simp only [hs] at h
    exact ⟨s₁, rfl, h⟩

/-- **What every round keeps up**: a sound engine of the configured capacity, and a buffer that
holds a report. -/
structure Sound (c : UInt32) (m : MatchingLoop) : Prop where
  wf : m.engine.book.WF
  capacity : m.engine.book.toBook.capacity = c.toNat
  reportBuf : m.reportBuf.length = executionReportSize

variable {c : UInt32}

theorem Sound.processCommand {m m' : MatchingLoop} {cmd : EngineCommand} {grow : GrowIo}
    (h : Sound c m) (hm : processCommand crc grow m cmd = some m') : Sound c m' := by
  obtain ⟨m₁, buf, -, hbuf, rfl⟩ := processCommand_spec h.reportBuf hm
  obtain ⟨hwf, hbook⟩ := MatchingEngine.applyCommand_sim h.wf cmd
  exact ⟨hwf, by rw [hbook, Book.capacity_apply]; exact h.capacity, hbuf⟩

theorem Sound.countCommand {m : MatchingLoop} (h : Sound c m) (crc : List UInt8 → UInt32)
    (bincode : Bincode) (save : Snapshot.SaveIo) : Sound c (countCommand crc bincode save m) := by
  rcases countCommand_cases crc bincode save m with ⟨k, heq⟩ | ⟨w, -, heq⟩
  · rw [heq]
    exact ⟨h.wf, h.capacity, h.reportBuf⟩
  · rw [heq]
    exact ⟨h.wf, h.capacity, h.reportBuf⟩

/-- However the start-up goes, the loop is entered with a sound engine. -/
theorem sound_start {io : RecoverIo} {dataDir : Option DataDir} {interval : UInt64}
    {s : Phase × MatchingLoop} (h : start crc bincode io dataDir c interval = some s) :
    Sound c s.2 ∧ s.2.sent = [] ∧ s.2.seqNum = 0 := by
  have hfresh : ∀ dir, Sound c (enter (MatchingEngine.withCapacity c) none false dir interval).2 := by
    intro dir
    obtain ⟨hwf, hbook⟩ := MatchingEngine.withCapacity_sim c
    refine ⟨hwf, ?_, List.length_replicate⟩
    show (MatchingEngine.withCapacity c).book.toBook.capacity = c.toNat
    rw [hbook]
    rfl
  unfold start at h
  cases dataDir with
  | none =>
    obtain rfl := Option.some.inj h
    exact ⟨hfresh _, rfl, rfl⟩
  | some dir =>
    cases hrec : Recovery.recover crc bincode io dir c with
    | mk dir' result =>
      cases result with
      | none => simp only [hrec, reduceCtorEq] at h
      | some result =>
        cases result with
        | error e =>
          simp only [hrec, Option.some.injEq] at h
          rw [← h]
          exact ⟨hfresh _, rfl, rfl⟩
        | ok r =>
          obtain ⟨e, w⟩ := r
          simp only [hrec, Option.some.injEq] at h
          rw [← h]
          obtain ⟨-, e₀, n, rs, hsucc⟩ := Recovery.succeeded hrec
          obtain ⟨hwf, hcap⟩ := hsucc.sound
          exact ⟨⟨hwf, hcap, List.length_replicate⟩, rfl, rfl⟩

end MatchingLoop

end Ferrox
