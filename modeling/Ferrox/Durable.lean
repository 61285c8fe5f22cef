import Ferrox.DataDirectory
import Ferrox.ReportCodec
import Ferrox.Restarts

/-!
# The life of a data directory

A data directory starts out empty. Gateways of one capacity run on it, one after the other. Each one
recovers what it finds, or fails to and runs without a log; it logs commands, applies them, reports
their fills and saves snapshots; and it stops at any point. While no gateway is running, snapshot
files get lost or damaged. `World` is the state of all this, with what a history needs to remember:
the commands whose records are in the log, and the datagrams sent by the gateways that had a log.

A history has two limits. What a stop inside an append leaves of the record is not found as a record
(`LeftIn`), although with CRC-32 an order could be made whose torn record is. And a damaged snapshot
is not accepted (`Survived`); `Ferrox.DamagedSnapshot` is about the damage that cannot be.

Two results hold in every world that can be reached. Recovering gives the book of all logged
commands (`recover_world`), and the live book of a gateway with a log is that book as well. And the
reports are those of the fills that this book gives the orders it accepts: none was ever sent for a
fill that recovery does not replay, and those not sent are the ones a stop cut off
(`published_world`).

Both follow from the invariant `World.Sound`: the directory holds the logged commands.
-/

namespace Ferrox

open Bytes Framing Recovery

/-! ## Worlds -/

namespace Book

/-- The fills of the orders that the book accepts, one command after the other. -/
def executions (B : Book) : List EngineCommand → List Fill
  | [] => []
  | cmd :: cmds => B.fillsOf cmd ++ (B.apply cmd).executions cmds

end Book

/-- What a report says about a trade. -/
def reportedFill (datagram : List UInt8) : Option Fill :=
  match Protocol.decodeExecutionReport datagram with
  | .ok r => some (r.fill false)
  | .error _ => none

/-- What the report of a trade has of it. -/
def Fill.onWire (fill : Fill) : Fill := { fill with makerFullyFilled := false }

namespace MatchingLoop

/-- A machine with a data directory, and the gateway that runs on it, if any. -/
inductive Machine where
  | down (dir : DataDir)
  | up (s : Phase × MatchingLoop)

def Machine.dir : Machine → DataDir
  | .down dir => dir
  | .up s => s.2.dir

/-- The datagrams of a gateway, if it has a log. -/
def sentLogged (m : MatchingLoop) : List (List UInt8) := if m.wal.isSome then m.sent else []

/-- **A machine with its history**: the commands whose records are in the log, the datagrams of the
gateways with a log that have stopped, and how many reports their stops cut off. -/
structure World where
  machine : Machine
  logged : List EngineCommand
  published : List (List UInt8)
  unsent : Nat

/-- The reports of the whole history. -/
def World.feed (x : World) : List (List UInt8) :=
  match x.machine with
  | .down _ => x.published
  | .up s => x.published ++ s.2.sentLogged

/-- The command that a round logs, if any. -/
def loggedBy (m : MatchingLoop) (event : Event) : List EngineCommand :=
  if m.wal.isSome then event.command?.toList else []

/-- **What happens to a machine.** A gateway of capacity `c` is started, whichever calls of its
recovery fail; a stop inside the recovery is one after it, with the next call failing. It makes a
round; its appends succeed. It stops, between two rounds, or inside an append whose record is not
found later, or with `k` reports of a command sent; a stop inside a save is one after it, with a
save that was cut off. Snapshot files get lost, or damaged so that they are not accepted. -/
inductive World.Step (crc : List UInt8 → UInt32) (bincode : Bincode) (c : UInt32) :
    World → World → Prop
  | boot {dir : DataDir} {cmds : List EngineCommand} {sent : List (List UInt8)} {u : Nat}
      {io : RecoverIo} {interval : UInt64} {s : Phase × MatchingLoop}
      (hstart : start crc bincode io (some dir) c interval = some s) :
      Step crc bincode c ⟨.down dir, cmds, sent, u⟩ ⟨.up s, cmds, sent, u⟩
  | round {s s' : Phase × MatchingLoop} {cmds : List EngineCommand} {sent : List (List UInt8)}
      {u : Nat} {event : Event} (hdel : ∀ cmd ∈ event.command?, Delivered cmd)
      (happ : AppendOk crc s.2 event) (hstep : step crc bincode s event = some s') :
      Step crc bincode c ⟨.up s, cmds, sent, u⟩ ⟨.up s', cmds ++ loggedBy s.2 event, sent, u⟩
  | stop {s : Phase × MatchingLoop} {cmds : List EngineCommand} {sent : List (List UInt8)}
      {u : Nat} :
      Step crc bincode c ⟨.up s, cmds, sent, u⟩ ⟨.down s.2.dir, cmds, sent ++ s.2.sentLogged, u⟩
  | stopLogging {s : Phase × MatchingLoop} {cmds : List EngineCommand}
      {sent : List (List UInt8)} {u : Nat} {w : Wal} {file : List UInt8}
      (hphase : s.1 ≠ .stopped) (hw : s.2.wal = some w) (hfile : LeftIn crc w file) :
      Step crc bincode c ⟨.up s, cmds, sent, u⟩
        ⟨.down { s.2.dir with wal := some file }, cmds, sent ++ s.2.sentLogged, u⟩
  | stopReporting {s : Phase × MatchingLoop} {cmds : List EngineCommand}
      {sent : List (List UInt8)} {u : Nat} {w : Wal} {cmd : EngineCommand} {grow : GrowIo}
      {save : Snapshot.SaveIo} {m : MatchingLoop} (hphase : s.1 ≠ .stopped)
      (hw : s.2.wal = some w) (hdel : Delivered cmd)
      (happ : AppendOk crc s.2 (.command cmd grow save)) (hlog : log crc grow s.2 cmd = some m)
      (k : Nat) :
      Step crc bincode c ⟨.up s, cmds, sent, u⟩
        ⟨.down m.dir, cmds ++ [cmd],
          sent ++ (report (timestampOf cmd) ((fillsOf m.engine cmd).take k) m).sent,
          u + ((fillsOf m.engine cmd).length - k)⟩
  | damage {dir : DataDir} {cmds : List EngineCommand} {sent : List (List UInt8)} {u : Nat}
      {left : Option SnapshotDir} (hleft : Survived crc bincode dir.snapshots left) :
      Step crc bincode c ⟨.down dir, cmds, sent, u⟩
        ⟨.down { dir with snapshots := left }, cmds, sent, u⟩

/-- The histories of a directory that was empty at first. -/
def World.Reachable (crc : List UInt8 → UInt32) (bincode : Bincode) (c : UInt32) (x : World) :
    Prop :=
  Relation.ReflTransGen (World.Step crc bincode c) ⟨.down ⟨none, none⟩, [], [], 0⟩ x

end MatchingLoop

/-! ## The fills of a history -/

namespace Book

theorem executions_append (B : Book) (cmds cmds' : List EngineCommand) :
    B.executions (cmds ++ cmds') = B.executions cmds ++ (B.applyAll cmds).executions cmds' := by
  induction cmds generalizing B with
  | nil => rfl
  | cons cmd cmds ih =>
    rw [List.cons_append, executions, executions, ih, List.append_assoc]
    rfl

theorem executions_concat (B : Book) (cmds : List EngineCommand) (cmd : EngineCommand) :
    B.executions (cmds ++ [cmd]) = B.executions cmds ++ (B.applyAll cmds).fillsOf cmd := by
  rw [executions_append, executions, executions, List.append_nil]

theorem fillsOf_congr {B B' : Book} (h : B.untimed = B'.untimed) {cmd cmd' : EngineCommand}
    (hcmd : cmd.untimed = cmd'.untimed) : B.fillsOf cmd = B'.fillsOf cmd' := by
  cases cmd with
  | cancelOrder id =>
    cases cmd' with
    | cancelOrder id' => rfl
    | newOrder o' => cases hcmd
  | newOrder o =>
    cases cmd' with
    | cancelOrder id' => cases hcmd
    | newOrder o' =>
      have horder : o.untimed = o'.untimed := EngineCommand.newOrder.inj hcmd
      have hresult : (B.add o).2 = (B'.add o').2 := by
        have h₁ := congrArg Prod.snd (add_untimed B o)
        have h₂ := congrArg Prod.snd (add_untimed B' o')
        rw [h, horder] at h₁
        exact h₁.symm.trans h₂
      show B.reported o = B'.reported o'
      unfold reported
      rw [hresult]

end Book

namespace MatchingLoop

variable {crc : List UInt8 → UInt32} {bincode : Bincode} {c : UInt32} {cmds : List EngineCommand}

theorem map_reportedFill_datagrams (timestamp : UInt64) (seqNum : UInt32) (fills : List Fill) :
    (datagrams timestamp seqNum fills).map reportedFill = fills.map (some ∘ Fill.onWire) := by
  induction fills generalizing seqNum with
  | nil => rfl
  | cons fill fills ih =>
    rw [datagrams, List.map_cons, List.map_cons, ih]
    unfold reportedFill
    rw [Protocol.decodeExecutionReport_executionReportBytes]
    rfl

/-- The fills of the orders that an engine accepts, one command after the other. What an order traded
before it was refused is not among them. -/
def executed (e : MatchingEngine) : List EngineCommand → List Fill
  | [] => []
  | cmd :: cmds => fillsOf e cmd ++ executed (e.applyCommand cmd) cmds

theorem executed_eq {e : MatchingEngine} (h : e.book.WF) (cmds : List EngineCommand) :
    executed e cmds = e.book.toBook.executions cmds := by
  induction cmds generalizing e with
  | nil => rfl
  | cons cmd cmds ih =>
    obtain ⟨hwf, hbook⟩ := MatchingEngine.applyCommand_sim h cmd
    rw [executed, Book.executions, ih hwf, hbook, fillsOf_toBook h]

/-- **The reports are those of the fills**, in their order, and all but `u` of them were sent. -/
structure Accounts (fills : List Fill) (sent : List (List UInt8)) (u : Nat) : Prop where
  sublist : (sent.map reportedFill).Sublist (fills.map (some ∘ Fill.onWire))
  length : sent.length + u = fills.length

/-- The reports of another command, of which the first `k` are sent. -/
theorem Accounts.append {trades : List Fill} {sent : List (List UInt8)} {u : Nat}
    (h : Accounts trades sent u) (timestamp : UInt64) (seqNum : UInt32) (fills : List Fill)
    (k : Nat) :
    Accounts (trades ++ fills) (sent ++ datagrams timestamp seqNum (fills.take k))
      (u + (fills.length - k)) := by
  refine ⟨?_, ?_⟩
  · rw [List.map_append, List.map_append, map_reportedFill_datagrams]
    exact h.sublist.append ((List.take_sublist k fills).map _)
  · have := h.length
    rw [List.length_append, List.length_append, length_datagrams, List.length_take]
    omega

theorem Accounts.appendAll {trades : List Fill} {sent : List (List UInt8)} {u : Nat}
    (h : Accounts trades sent u) (timestamp : UInt64) (seqNum : UInt32) (fills : List Fill) :
    Accounts (trades ++ fills) (sent ++ datagrams timestamp seqNum fills) u := by
  have := h.append timestamp seqNum fills fills.length
  rwa [List.take_length, Nat.sub_self] at this

/-! ## What a gateway preserves -/

/-- **The invariant of a running gateway**: its directory holds the logged commands, and if it has a
log, it is this one, and the live book is that of the commands. -/
structure Live (crc : List UInt8 → UInt32) (bincode : Bincode) (c : UInt32)
    (cmds : List EngineCommand) (m : MatchingLoop) : Prop where
  sound : Sound c m
  dir : m.dir.Holds crc bincode c cmds
  wal : ∀ w, m.wal = some w → w.Holds crc (cmds.map Wal.recordOf) ∧
    m.engine.book.toBook.untimed = ((Book.empty c.toNat).applyAll cmds).untimed

theorem Live.log {m m₁ : MatchingLoop} (h : Live crc bincode c cmds m) {w : Wal}
    (hw : m.wal = some w) {cmd : EngineCommand} (hdel : Delivered cmd) {grow : GrowIo}
    {save : Snapshot.SaveIo} (happ : AppendOk crc m (.command cmd grow save))
    (hlog : MatchingLoop.log crc grow m cmd = some m₁) :
    ∃ w', m₁ = { m with wal := some w', dir := { m.dir with wal := some w'.file } } ∧
      w'.Holds crc ((cmds ++ [cmd]).map Wal.recordOf) ∧
      m₁.dir.Holds crc bincode c (cmds ++ [cmd]) := by
  obtain ⟨w₁, n, hok⟩ := happ w hw
  obtain ⟨w', ⟨happ', -⟩ | ⟨happ', hw'⟩⟩ := Wal.append_spec (h.wal w hw).1 grow cmd
  · rw [hok] at happ'
    cases happ'
  rw [hok] at happ'
  cases happ'
  rcases log_cases hlog with ⟨hnone, -⟩ | ⟨w₂, w₂', result, hw₂, happ₂, rfl⟩
  · rw [hw] at hnone
    cases hnone
  rw [hw] at hw₂
  cases hw₂
  rw [hok] at happ₂
  cases happ₂
  refine ⟨w₁, rfl, ?_, h.dir.append hdel.tradable hw'⟩
  rw [List.map_append]
  exact hw'

theorem Live.processCommand {m m' : MatchingLoop} (h : Live crc bincode c cmds m) {w : Wal}
    (hw : m.wal = some w) {cmd : EngineCommand} (hdel : Delivered cmd) {grow : GrowIo}
    {save : Snapshot.SaveIo} (happ : AppendOk crc m (.command cmd grow save))
    (hm : processCommand crc grow m cmd = some m') :
    Live crc bincode c (cmds ++ [cmd]) m' ∧ m'.wal.isSome = true := by
  have hsound := h.sound.processCommand hm
  obtain ⟨m₁, buf, hlog, -, rfl⟩ := processCommand_spec h.sound.reportBuf hm
  obtain ⟨w', rfl, hw', hdir⟩ := h.log hw hdel happ hlog
  refine ⟨⟨hsound, hdir, ?_⟩, rfl⟩
  intro w₂ hw₂
  obtain rfl := Option.some.inj hw₂
  refine ⟨hw', ?_⟩
  obtain ⟨-, hbook⟩ := MatchingEngine.applyCommand_sim h.sound.wf cmd
  show (m.engine.applyCommand cmd).book.toBook.untimed = _
  rw [hbook, Book.applyAll_append]
  exact Book.apply_congr (h.wal w hw).2 rfl

/-- A command of a gateway without a log leaves the directory as it is. -/
theorem Live.processCommand_none {m m' : MatchingLoop} (h : Live crc bincode c cmds m)
    (hw : m.wal = none) {cmd : EngineCommand} {grow : GrowIo}
    (hm : MatchingLoop.processCommand crc grow m cmd = some m') :
    Live crc bincode c cmds m' ∧ m'.wal = none := by
  have hsound := h.sound.processCommand hm
  obtain ⟨m₁, buf, hlog, -, rfl⟩ := processCommand_spec h.sound.reportBuf hm
  rcases log_cases hlog with ⟨-, rfl⟩ | ⟨w, w', result, hw', -, -⟩
  · refine ⟨⟨hsound, h.dir, ?_⟩, hw⟩
    intro w hw'
    have hnone : m₁.wal = some w := hw'
    rw [hw] at hnone
    cases hnone
  · rw [hw] at hw'
    cases hw'

theorem Live.countCommand (hbin : bincode.RoundTrip) {m : MatchingLoop}
    (h : Live crc bincode c cmds m) (save : Snapshot.SaveIo) :
    Live crc bincode c cmds (countCommand crc bincode save m) ∧
      (countCommand crc bincode save m).wal = m.wal := by
  have hsound := h.sound.countCommand crc bincode save
  rcases countCommand_cases crc bincode save m with ⟨k, heq⟩ | ⟨w, hw, heq⟩
  · rw [heq] at hsound ⊢
    exact ⟨⟨hsound, h.dir, h.wal⟩, rfl⟩
  · rw [heq] at hsound ⊢
    obtain ⟨hholds, hbook⟩ := h.wal w hw
    exact ⟨⟨hsound, h.dir.save hbin hholds h.sound.wf hbook save, h.wal⟩, rfl⟩

/-- **What a round preserves**, with a log or without. -/
theorem Live.step (hbin : bincode.RoundTrip) {s s' : Phase × MatchingLoop}
    (h : Live crc bincode c cmds s.2) {event : Event}
    (hdel : ∀ cmd ∈ event.command?, Delivered cmd) (happ : AppendOk crc s.2 event)
    (hstep : step crc bincode s event = some s') :
    Live crc bincode c (cmds ++ loggedBy s.2 event) s'.2 ∧
      s'.2.wal.isSome = s.2.wal.isSome := by
  rcases step_cases hstep with ⟨shutdown, rfl, heq⟩ | ⟨cmd, grow, save, m, rfl, hm, heq⟩
  · have hnone : loggedBy s.2 (.empty shutdown) = [] := ite_self _
    rw [hnone, List.append_nil, heq]
    exact ⟨h, rfl⟩
  have hlive : Live crc bincode c (cmds ++ loggedBy s.2 (.command cmd grow save)) m ∧
      m.wal.isSome = s.2.wal.isSome := by
    unfold loggedBy
    cases hw : s.2.wal with
    | none =>
      obtain ⟨hlive, hnone⟩ := h.processCommand_none hw hm
      rw [hnone]
      exact ⟨(List.append_nil cmds).symm ▸ hlive, rfl⟩
    | some w => exact h.processCommand hw (hdel cmd rfl) happ hm
  rcases heq with heq | heq
  · rw [heq]
    exact hlive
  · obtain ⟨hlive', hwal⟩ := hlive.1.countCommand hbin save
    rw [heq, hwal]
    exact ⟨hlive', hlive.2⟩

/-- **A gateway starts** with what the directory holds, or without a log. -/
theorem live_start {dir : DataDir} (h : dir.Holds crc bincode c cmds)
    (hcmds : ∀ cmd ∈ cmds, cmd.Tradable) {io : RecoverIo} {interval : UInt64}
    {s : Phase × MatchingLoop} (hstart : start crc bincode io (some dir) c interval = some s) :
    Live crc bincode c cmds s.2 := by
  obtain ⟨hsound, -, -⟩ := sound_start hstart
  obtain ⟨dir', result, hrec, hdir, hok⟩ :=
    h.recover hcmds io (show walSize none < 2 ^ 63 by decide)
  unfold start at hstart
  cases result with
  | error err =>
    simp only [recover, hrec, Option.some.injEq] at hstart
    subst hstart
    exact ⟨hsound, hdir, nofun⟩
  | ok r =>
    obtain ⟨e, w⟩ := r
    simp only [recover, hrec, Option.some.injEq] at hstart
    subst hstart
    obtain ⟨-, hw, -, hbook⟩ := hok e w rfl
    refine ⟨hsound, hdir, ?_⟩
    intro w' hw'
    obtain rfl := Option.some.inj hw'
    exact ⟨hw, hbook⟩

theorem Live.fillsOf {m : MatchingLoop} (h : Live crc bincode c cmds m) {w : Wal}
    (hw : m.wal = some w) (cmd : EngineCommand) :
    MatchingLoop.fillsOf m.engine cmd = ((Book.empty c.toNat).applyAll cmds).fillsOf cmd := by
  rw [fillsOf_toBook h.sound.wf]
  exact Book.fillsOf_congr (h.wal w hw).2 rfl

/-! ## What a history preserves -/

/-- **The invariant of a history.** -/
structure World.Sound (crc : List UInt8 → UInt32) (bincode : Bincode) (c : UInt32) (x : World) :
    Prop where
  tradable : ∀ cmd ∈ x.logged, cmd.Tradable
  dir : x.machine.dir.Holds crc bincode c x.logged
  live : ∀ s, x.machine = .up s → Live crc bincode c x.logged s.2
  feed : Accounts ((Book.empty c.toNat).executions x.logged) x.feed x.unsent

/-- While no gateway is running, there is only the directory. -/
theorem World.Sound.down {dir : DataDir} {sent : List (List UInt8)} {u : Nat}
    (htradable : ∀ cmd ∈ cmds, cmd.Tradable) (hdir : dir.Holds crc bincode c cmds)
    (hfeed : Accounts ((Book.empty c.toNat).executions cmds) sent u) :
    World.Sound crc bincode c ⟨.down dir, cmds, sent, u⟩ := by
  refine ⟨htradable, hdir, ?_, hfeed⟩
  intro s hs
  cases hs

theorem tradable_append (h : ∀ cmd ∈ cmds, cmd.Tradable) {cmds' : List EngineCommand}
    (h' : ∀ cmd ∈ cmds', Delivered cmd) : ∀ cmd ∈ cmds ++ cmds', cmd.Tradable := by
  intro cmd hcmd
  rcases List.mem_append.1 hcmd with hcmd | hcmd
  · exact h cmd hcmd
  · exact (h' cmd hcmd).tradable

theorem Live.feed {s s' : Phase × MatchingLoop} (h : Live crc bincode c cmds s.2) {event : Event}
    (hwal : s'.2.wal.isSome = s.2.wal.isSome)
    (hstep : MatchingLoop.step crc bincode s event = some s') {sent : List (List UInt8)}
    {u : Nat} (hfeed : Accounts ((Book.empty c.toNat).executions cmds) (sent ++ s.2.sentLogged) u) :
    Accounts ((Book.empty c.toNat).executions (cmds ++ loggedBy s.2 event))
      (sent ++ s'.2.sentLogged) u := by
  cases hw : s.2.wal with
  | none =>
    have hnone : sentLogged s'.2 = sentLogged s.2 := by
      unfold sentLogged
      rw [hwal, hw]
      rfl
    have hlogged : loggedBy s.2 event = [] := by
      unfold loggedBy
      rw [hw]
      rfl
    rwa [hnone, hlogged, List.append_nil]
  | some w =>
    have hsent : sentLogged s.2 = s.2.sent := by simp [sentLogged, hw]
    have hsent' : sentLogged s'.2 = s'.2.sent := by simp [sentLogged, hwal, hw]
    rw [hsent] at hfeed
    rw [hsent']
    cases event with
    | empty shutdown =>
      obtain ⟨-, -, heq⟩ | ⟨_, _, _, _, hevent, _⟩ := step_cases hstep
      · have hlogged : loggedBy s.2 (.empty shutdown) = [] := ite_self _
        rwa [heq, hlogged, List.append_nil]
      · cases hevent
    | command cmd grow save =>
      obtain ⟨-, -, hsent'', -⟩ := step_command h.sound hstep
      have hlogged : loggedBy s.2 (.command cmd grow save) = [cmd] := by
        simp [loggedBy, hw, Event.command?]
      rw [hsent'', hlogged, Book.executions_concat, ← h.fillsOf hw, ← List.append_assoc]
      exact hfeed.appendAll _ _ _

/-- **What happens to a machine keeps its history sound.** -/
theorem World.Sound.step (hbin : bincode.RoundTrip) {x y : World} (h : World.Sound crc bincode c x)
    (hxy : World.Step crc bincode c x y) : World.Sound crc bincode c y := by
  cases hxy with
  | @boot dir cmds sent u io interval s hstart =>
    have hlive := live_start h.dir h.tradable hstart
    obtain ⟨-, hsent, -⟩ := sound_start hstart
    refine ⟨h.tradable, hlive.dir, ?_, ?_⟩
    · intro s' hs'
      cases hs'
      exact hlive
    · have hnone : sentLogged s.2 = [] := by simp [sentLogged, hsent]
      show Accounts _ (sent ++ sentLogged s.2) u
      rw [hnone, List.append_nil]
      exact h.feed
  | @round s s' cmds sent u event hdel happ hstep =>
    have hlive := h.live s rfl
    obtain ⟨hlive', hwal⟩ := hlive.step hbin hdel happ hstep
    refine ⟨?_, hlive'.dir, ?_, hlive.feed hwal hstep h.feed⟩
    · refine tradable_append h.tradable ?_
      intro cmd hcmd
      unfold loggedBy at hcmd
      split_ifs at hcmd
      · exact hdel cmd (Option.mem_toList.1 hcmd)
      · cases hcmd
    · intro s₂ hs₂
      cases hs₂
      exact hlive'
  | stop => exact .down h.tradable h.dir h.feed
  | @stopLogging s cmds sent u w file hphase hw hfile =>
    have hlive := h.live s rfl
    exact .down h.tradable ⟨hfile.keeps (hlive.wal w hw).1, h.dir.snapshots⟩ h.feed
  | @stopReporting s cmds sent u w cmd grow save m hphase hw hdel happ hlog k =>
    have hlive := h.live s rfl
    obtain ⟨w', rfl, -, hdir⟩ := hlive.log hw hdel happ hlog
    refine .down (tradable_append h.tradable (by simpa using hdel)) hdir ?_
    obtain ⟨buf, -, heq⟩ := @report_eq (timestampOf cmd)
      ((MatchingLoop.fillsOf s.2.engine cmd).take k)
      { s.2 with wal := some w', dir := { s.2.dir with wal := some w'.file } }
      hlive.sound.reportBuf
    have hsent : sentLogged s.2 = s.2.sent := by simp [sentLogged, hw]
    have hfeed : Accounts _ (sent ++ sentLogged s.2) u := h.feed
    show Accounts ((Book.empty c.toNat).executions (cmds ++ [cmd])) (sent ++ (report _ _ _).sent)
      (u + ((MatchingLoop.fillsOf s.2.engine cmd).length - k))
    rw [hsent] at hfeed
    rw [heq, Book.executions_concat, ← hlive.fillsOf hw]
    show Accounts _ (sent ++ (s.2.sent ++ datagrams _ s.2.seqNum _)) _
    rw [← List.append_assoc]
    exact hfeed.append _ _ _ k
  | damage hleft => exact .down h.tradable (h.dir.survived hleft) h.feed

theorem World.Reachable.sound (hbin : bincode.RoundTrip) {x : World}
    (h : World.Reachable crc bincode c x) : World.Sound crc bincode c x := by
  induction h with
  | refl => exact .down nofun DataDir.holds_empty ⟨List.Sublist.refl _, rfl⟩
  | tail _ hstep ih => exact ih.step hbin hstep

theorem recover_holds {dir : DataDir} (h : dir.Holds crc bincode c cmds)
    (hcmds : ∀ cmd ∈ cmds, cmd.Tradable) {size : Option Nat} (hsize : walSize size < 2 ^ 63) :
    ∃ e w, recoverWithWalSize crc bincode .ok dir c size =
        ({ dir with wal := some w.file }, some (.ok (e, w))) ∧
      w.Holds crc (cmds.map Wal.recordOf) ∧
      e.SameBook ((MatchingEngine.withCapacity c).applyAll cmds) := by
  obtain ⟨e₀, n, hstart, hleads⟩ := h.startingPoint hcmds
  obtain ⟨w, hopen, hw⟩ := h.log.opens hsize
  obtain ⟨e, hrec, hwf, hbook⟩ := recover_of_leads dir hstart hleads hw hopen
  obtain ⟨hwf', hbook'⟩ := MatchingEngine.fresh_applyAll c cmds
  exact ⟨e, w, hrec, hw,
    MatchingEngine.sameBook_of_untimed hwf hwf' (hbook.trans (congrArg _ hbook'.symm))⟩

/-! ## Histories of one command a run -/

/-- A gateway recovers, logs a command and stops. -/
theorem World.Reachable.session (hbin : bincode.RoundTrip) {dir : DataDir}
    {sent : List (List UInt8)} {u : Nat}
    (h : World.Reachable crc bincode c ⟨.down dir, cmds, sent, u⟩)
    (hroom : 2 * ((logBytes crc (cmds.map Wal.recordOf)).length + 48) < 2 ^ 63)
    {cmd : EngineCommand} (hcmd : cmd.Tradable) :
    ∃ dir' sent', World.Reachable crc bincode c ⟨.down dir', cmds ++ [cmd], sent', u⟩ := by
  have hdir : dir.Holds crc bincode c cmds := (h.sound hbin).dir
  obtain ⟨e, w, hrec, hw, -⟩ := recover_holds hdir (h.sound hbin).tradable
    (show walSize none < 2 ^ 63 by decide)
  have hrec' : recover crc bincode .ok dir c =
      ({ dir with wal := some w.file }, some (.ok (e, w))) := hrec
  have hstart : start crc bincode .ok (some dir) c 10000 =
      some (enter e (some w) true { dir with wal := some w.file } 10000) := by
    unfold start
    simp only [hrec']
  obtain ⟨w', ⟨-, -, hbig⟩ | ⟨happ, -⟩⟩ := Wal.append_spec hw .ok cmd
  · have := hbig rfl
    rw [hw.writePos] at this
    omega
  have hlog := log_enter happ e { dir with wal := some w.file } 10000
  obtain ⟨s, hrun, -, -⟩ := run_first bincode hlog (by decide) .ok
  obtain ⟨s₁, hstep, hrun₁⟩ := run_cons hrun
  obtain rfl := Option.some.inj hrun₁
  have hok : AppendOk crc (enter e (some w) true { dir with wal := some w.file } 10000).2
      (.command cmd .ok .ok) := by
    intro w₂ hw₂
    obtain rfl := Option.some.inj hw₂
    exact ⟨w', _, happ⟩
  have hdel : ∀ x ∈ (Event.command cmd .ok .ok).command?, Delivered x := by
    intro x hx
    obtain rfl := Option.some.inj hx
    exact delivered_of_tradable hcmd
  exact ⟨_, _, ((h.tail (.boot hstart)).tail (.round hdel hok hstep)).tail .stop⟩

theorem reachable_trade : ∃ dir sent, World.Reachable crc32 .fixint 4
    ⟨.down dir, [.newOrder ⟨1, 10, .ask, 100, 5, 7⟩, .newOrder ⟨2, 11, .bid, 100, 2, 8⟩],
      sent, 0⟩ := by
  have hnil : World.Reachable crc32 .fixint 4 ⟨.down ⟨none, none⟩, [], [], 0⟩ := .refl
  obtain ⟨dir₁, sent₁, h₁⟩ := hnil.session Bincode.roundTrip_fixint (by decide +kernel)
    (show (EngineCommand.newOrder ⟨1, 10, .ask, 100, 5, 7⟩).Tradable by decide)
  exact h₁.session Bincode.roundTrip_fixint (by decide +kernel)
    (show (EngineCommand.newOrder ⟨2, 11, .bid, 100, 2, 8⟩).Tradable by decide)

/-! ## The results -/

/-- **Recovery is exact over whole histories.** At every point of every history, recovering
succeeds; the log has the logged commands, each once and in order; the book is that of a fresh
engine that applied them; and so is the live book of a gateway with a log. -/
theorem recover_world (hbin : bincode.RoundTrip) {x : World}
    (h : World.Reachable crc bincode c x) {size : Option Nat} (hsize : walSize size < 2 ^ 63) :
    (∃ dir e w, recoverWithWalSize crc bincode .ok x.machine.dir c size =
        (dir, some (.ok (e, w))) ∧
      WalIterator.Yields crc (w.iterFrom 0) (Wal.commandItems 0 x.logged) ∧
      e.SameBook ((MatchingEngine.withCapacity c).applyAll x.logged)) ∧
    ∀ s, x.machine = .up s → s.2.wal.isSome →
      s.2.engine.SameBook ((MatchingEngine.withCapacity c).applyAll x.logged) := by
  have hsound := h.sound hbin
  constructor
  · obtain ⟨e, w, hrec, hw, hsame⟩ := recover_holds hsound.dir hsound.tradable hsize
    refine ⟨_, e, w, hrec, ?_, hsame⟩
    have := hw.yields 0
    rwa [List.drop_zero, Wal.items_recordOf hsound.tradable] at this
  · intro s hs hwal
    have hlive := hsound.live s hs
    obtain ⟨w, hw⟩ := Option.isSome_iff_exists.1 hwal
    obtain ⟨hwf, hbook⟩ := MatchingEngine.fresh_applyAll c x.logged
    refine MatchingEngine.sameBook_of_untimed hlive.sound.wf hwf ?_
    rw [hbook]
    exact (hlive.wal w hw).2

/-- Two runs, and what the next one recovers. -/
theorem recover_world_trade : ∃ x, World.Reachable crc32 .fixint 4 x ∧
    x.logged = [.newOrder ⟨1, 10, .ask, 100, 5, 7⟩, .newOrder ⟨2, 11, .bid, 100, 2, 8⟩] ∧
    ∃ dir e w, recoverWithWalSize crc32 .fixint .ok x.machine.dir 4 none =
        (dir, some (.ok (e, w))) ∧
      WalIterator.Yields crc32 (w.iterFrom 0) (Wal.commandItems 0 x.logged) ∧
      e.SameBook ((MatchingEngine.withCapacity 4).applyAll x.logged) := by
  obtain ⟨dir, sent, h⟩ := reachable_trade
  exact ⟨_, h, rfl, (recover_world Bincode.roundTrip_fixint h (by decide)).1⟩

/-- **No report is ever sent for a fill that recovery does not replay.** Over a whole history, the
reports of the gateways with a log are those of the fills of the orders that a fresh engine accepts
when it applies the logged commands, in order, and the ones left out are those that a stop cut off.
An order that is refused has no reports, even if it traded before. -/
theorem published_world (hbin : bincode.RoundTrip) {x : World}
    (h : World.Reachable crc bincode c x) :
    Accounts (executed (MatchingEngine.withCapacity c) x.logged) x.feed x.unsent := by
  obtain ⟨hwf, hbook⟩ := MatchingEngine.withCapacity_sim c
  rw [executed_eq hwf, hbook]
  exact (h.sound hbin).feed

/-- The one fill of two runs, and its report. -/
theorem published_world_trade : ∃ x, World.Reachable crc32 .fixint 4 x ∧ x.feed.length = 1 ∧
    Accounts [⟨2, 1, 100, 2, false⟩] x.feed 0 := by
  obtain ⟨dir, sent, h⟩ := reachable_trade
  have hfeed := published_world Bincode.roundTrip_fixint h
  have hone : executed (MatchingEngine.withCapacity 4) [.newOrder ⟨1, 10, .ask, 100, 5, 7⟩,
      .newOrder ⟨2, 11, .bid, 100, 2, 8⟩] = [⟨2, 1, 100, 2, false⟩] := by decide +kernel
  rw [hone] at hfeed
  exact ⟨_, h, hfeed.length, hfeed⟩

end MatchingLoop

end Ferrox
