import Ferrox.Recovery

/-!
# The gateway

The matching thread of `src/gateway.rs`, from the recovery at start-up to the drained queue. The
state has, next to the variables of `matching_loop`, what the thread does to the world: the data
directory, and the datagrams handed to UDP, oldest first. An event is what one round of the loop
meets in the queue, with the outcome of every system call of that round. A panic is `none`.
-/

namespace Ferrox

/-! ## Messages -/

/-- What `handle_client` makes of a message: a new order gets the time of its arrival. -/
def handleMessage (msg : List UInt8) (now : UInt64) : Except ProtocolError EngineCommand :=
  match Protocol.decodeMessage msg with
  | .error e => .error e
  | .ok (.newOrder order) => .ok (.newOrder { order with timestamp := now })
  | .ok (.cancelOrder orderId) => .ok (.cancelOrder orderId)

/-! ## The matching thread -/

structure MatchingLoop where
  engine : MatchingEngine
  wal : Option Wal
  /-- whether there is a directory to save snapshots to -/
  snapshotDir : Bool
  snapshotInterval : UInt64
  seqNum : UInt32
  reportBuf : List UInt8
  cmdsSinceSnapshot : UInt64
  dir : DataDir
  sent : List (List UInt8)

/-- The loop itself, its inner loop after the shutdown, and its end. -/
inductive Phase where
  | running
  | draining
  | stopped
  deriving DecidableEq, Repr

inductive Event where
  | command (cmd : EngineCommand) (grow : GrowIo) (save : Snapshot.SaveIo)
  | empty (shutdown : Bool)

/-- What a round takes from the queue. -/
def Event.command? : Event → Option EngineCommand
  | .command cmd _ _ => some cmd
  | .empty _ => none

namespace MatchingLoop

variable (crc : List UInt8 → UInt32) (bincode : Bincode)

/-- The append of `process_command`; its result is dropped. -/
def log (io : GrowIo) (m : MatchingLoop) (cmd : EngineCommand) : Option MatchingLoop :=
  match m.wal with
  | none => some m
  | some w =>
      match w.append crc io cmd with
      | none => none
      | some (w, _) => some { m with wal := some w, dir := { m.dir with wal := some w.file } }

/-- The loop over the fills of an accepted order. -/
def report (timestamp : UInt64) : List Fill → MatchingLoop → MatchingLoop
  | [], m => m
  | fill :: fills, m =>
      let seqNum := m.seqNum + 1
      match Protocol.encodeExecutionReport m.reportBuf seqNum fill timestamp with
      | .ok (reportBuf, _) =>
          report timestamp fills { m with seqNum, reportBuf, sent := m.sent ++ [reportBuf] }
      | .error _ => report timestamp fills { m with seqNum }

def processCommand (io : GrowIo) (m : MatchingLoop) (cmd : EngineCommand) : Option MatchingLoop :=
  match log crc io m cmd with
  | none => none
  | some m =>
      match cmd with
      | .newOrder order =>
          match m.engine.addOrder order with
          | (engine, .ok result) => some (report order.timestamp result.fills { m with engine })
          | (engine, .error _) => some { m with engine }
      | .cancelOrder orderId => some { m with engine := (m.engine.cancelOrder orderId).1 }

/-- What follows `process_command` while the loop is running. -/
def countCommand (io : Snapshot.SaveIo) (m : MatchingLoop) : MatchingLoop :=
  let m := { m with cmdsSinceSnapshot := m.cmdsSinceSnapshot + 1 }
  match m.wal, m.snapshotDir with
  | some w, true =>
      if m.cmdsSinceSnapshot ≥ m.snapshotInterval then
        let snap := Snapshot.capture crc bincode m.engine (UInt64.ofNat w.recordCount)
        { m with
          dir := { m.dir with snapshots := (snap.save bincode io m.dir.snapshots).1 }
          cmdsSinceSnapshot := 0 }
      else m
  | _, _ => m

/-- One round. -/
def step : Phase × MatchingLoop → Event → Option (Phase × MatchingLoop)
  | (.running, m), .command cmd grow save =>
      (processCommand crc grow m cmd).map fun m => (.running, countCommand crc bincode save m)
  | (.running, m), .empty shutdown => some (if shutdown then .draining else .running, m)
  | (.draining, m), .command cmd grow _ =>
      (processCommand crc grow m cmd).map fun m => (.draining, m)
  | (.draining, m), .empty _ => some (.stopped, m)
  | (.stopped, _), _ => none

def run : Phase × MatchingLoop → List Event → Option (Phase × MatchingLoop)
  | s, [] => some s
  | s, event :: events =>
      match step crc bincode s event with
      | none => none
      | some s => run s events

/-- The loop as it is entered. -/
def enter (engine : MatchingEngine) (wal : Option Wal) (snapshotDir : Bool) (dir : DataDir)
    (snapshotInterval : UInt64) : Phase × MatchingLoop :=
  (.running, {
    engine, wal, snapshotDir, snapshotInterval, dir
    seqNum := 0
    reportBuf := List.replicate executionReportSize 0
    cmdsSinceSnapshot := 0
    sent := [] })

/-- The start of `run`: with a data directory the engine is recovered, and when that fails, the
gateway starts fresh and without a log. -/
def start (io : RecoverIo) (dataDir : Option DataDir) (arenaCapacity : UInt32)
    (snapshotInterval : UInt64) : Option (Phase × MatchingLoop) :=
  match dataDir with
  | none =>
      some (enter (MatchingEngine.withCapacity arenaCapacity) none false ⟨none, none⟩
        snapshotInterval)
  | some dir =>
      match Recovery.recover crc bincode io dir arenaCapacity with
      | (_, none) => none
      | (dir, some (.ok (engine, wal))) => some (enter engine (some wal) true dir snapshotInterval)
      | (dir, some (.error _)) =>
          some (enter (MatchingEngine.withCapacity arenaCapacity) none false dir snapshotInterval)

end MatchingLoop

end Ferrox
