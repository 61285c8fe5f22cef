import Ferrox.Snapshot
import Ferrox.Wal

/-!
# Recovery

`src/recovery.rs`: the newest acceptable snapshot is restored, and the records of the log behind the
number the snapshot names are replayed.

A data directory is what `recover` reads of it, the log file and the snapshot directory, each of
which may be missing. A panic is `none`.
-/

namespace Ferrox

structure DataDir where
  wal : Option (List UInt8)
  snapshots : Option SnapshotDir

inductive RecoveryError where
  | wal (e : WalError)
  | snapshot (e : SnapshotError)
  deriving DecidableEq, Repr

/-- The system calls of `recover` that fail, if any. -/
structure RecoverIo where
  createDirFails : Bool
  readDirFails : Bool
  wal : OpenIo

/-- No system call fails. -/
def RecoverIo.ok : RecoverIo := ⟨false, false, none⟩

/-- `replay_command`; also what `process_command` does to the engine. -/
def MatchingEngine.applyCommand (engine : MatchingEngine) : EngineCommand → MatchingEngine
  | .newOrder order => (engine.addOrder order).1
  | .cancelOrder orderId => (engine.cancelOrder orderId).1

def MatchingEngine.applyAll (engine : MatchingEngine) (cmds : List EngineCommand) :
    MatchingEngine := cmds.foldl applyCommand engine

namespace Recovery

variable (crc : List UInt8 → UInt32) (bincode : Bincode)

/-- The loop over the log, for at most `fuel` items. -/
def replayLoop (wal : Wal) : Nat → MatchingEngine → WalIterator → Nat →
    Option (Except RecoveryError (MatchingEngine × Wal))
  | 0, engine, _, _ => some (.ok (engine, wal))
  | fuel + 1, engine, it, recordCountAtReplay =>
      match it.next crc with
      | (none, _) => some (.ok (engine, wal))
      | (some (.ok (_, cmd)), it) =>
          replayLoop wal fuel (engine.applyCommand cmd) it (recordCountAtReplay + 1)
      | (some (.error (.corruption offset)), _) | (some (.error (.truncatedRecord offset)), _) =>
          -- truncate the log at the corruption point
          (wal.truncateTo offset recordCountAtReplay).map fun wal => .ok (engine, wal)
      | (some (.error e), _) => some (.error (.wal e))

/-- The engine a recovery starts from, and the record its replay starts behind. -/
def startingPoint (dir : Option SnapshotDir) (arenaCapacity : UInt32) :
    Except RecoveryError (MatchingEngine × Nat) :=
  match dir.bind (Snapshot.loadLatest crc bincode) with
  | none => .ok (MatchingEngine.withCapacity arenaCapacity, 0)
  | some snap =>
      match snap.restore arenaCapacity with
      | .error e => .error (.snapshot e)
      | .ok engine => .ok (engine, snap.walRecordCount.toNat)

/-- Rebuilds the engine from the snapshots and the log, and returns it together with the opened
log: what the log file is afterwards, and the result. Every item but the last one of an iteration
moves past a record, so there are at most as many items as bytes. -/
def recoverWithWalSize (io : RecoverIo) (dir : DataDir) (arenaCapacity : UInt32)
    (walInitialSize : Option Nat) :
    DataDir × Option (Except RecoveryError (MatchingEngine × Wal)) :=
  if io.createDirFails then (dir, some (.error (.wal .io)))
  else if io.readDirFails then (dir, some (.error (.snapshot .io)))
  else
    match startingPoint crc bincode dir.snapshots arenaCapacity with
    | .error e => (dir, some (.error e))
    | .ok (engine, startRecord) =>
        match Wal.openWithSize crc io.wal (dir.wal.getD [])
            (walInitialSize.getD defaultInitialSize) with
        | (file, .error e) =>
            -- the file is created even when a later call fails
            let wal := if io.wal = some .openFile then dir.wal else some file
            ({ dir with wal }, some (.error (.wal e)))
        | (file, .ok wal) =>
            let result := replayLoop crc wal (wal.writePos + 1) engine (wal.iterFrom startRecord)
              startRecord
            match result with
            | some (.ok (engine, wal)) =>
                ({ dir with wal := some wal.file }, some (.ok (engine, wal)))
            | result => ({ dir with wal := some file }, result)

def recover (io : RecoverIo) (dir : DataDir) (arenaCapacity : UInt32) :
    DataDir × Option (Except RecoveryError (MatchingEngine × Wal)) :=
  recoverWithWalSize crc bincode io dir arenaCapacity none

end Recovery

end Ferrox
