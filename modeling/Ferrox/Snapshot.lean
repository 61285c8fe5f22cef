import Ferrox.Matching
import Mathlib.Data.List.Sort
import Mathlib.Data.List.Lex
import Mathlib.Data.Char

/-!
# Snapshots

The snapshots of `src/snapshot.rs`: the resting orders of a book in canonical order, with the number
of log records they account for, under a checksum.

`Bincode` is what the code uses of the `bincode` crate: it writes and reads a snapshot, and it
writes the tuple of fields that the checksum covers.
-/

namespace Ferrox

structure Snapshot where
  walRecordCount : UInt64
  orders : List Order
  bestBid : Option Int64
  bestAsk : Option Int64
  checksum : UInt32
  deriving DecidableEq, Repr

inductive SnapshotError where
  | io
  | restore (e : MatchingError)
  deriving DecidableEq, Repr

/-- The serializer. -/
structure Bincode where
  serialize : Snapshot → List UInt8
  deserialize : List UInt8 → Option Snapshot
  serializeFields : UInt64 × Option Int64 × Option Int64 × List Order → List UInt8

/-- Reading undoes writing, for vectors whose length a `u64` can hold. -/
def Bincode.RoundTrip (bincode : Bincode) : Prop :=
  ∀ s : Snapshot, s.orders.length < 2 ^ 64 → bincode.deserialize (bincode.serialize s) = some s

/-- A file name, as the characters of a path component. -/
abbrev FileName := List Char

/-- A file of the snapshot directory, with its contents. -/
abbrev SnapshotFile := FileName × List UInt8

/-- The snapshot directory. No two files have the same name. -/
structure SnapshotDir where
  files : List SnapshotFile
  distinct : (files.map Prod.fst).Nodup

namespace SnapshotDir

def empty : SnapshotDir := ⟨[], List.nodup_nil⟩

def remove (d : SnapshotDir) (name : FileName) : SnapshotDir where
  files := d.files.filter (·.1 ≠ name)
  distinct := d.distinct.sublist (List.filter_sublist.map _)

/-- Writing a file, or replacing it. -/
def put (d : SnapshotDir) (name : FileName) (data : List UInt8) : SnapshotDir where
  files := (name, data) :: (d.remove name).files
  distinct := by
    refine List.nodup_cons.2 ⟨?_, (d.remove name).distinct⟩
    simp [remove]

end SnapshotDir

/-- `format!("snapshot_{:010}.bin", n)`. -/
def snapshotFileName (n : Nat) : FileName :=
  let digits := Nat.toDigits 10 n
  "snapshot_".toList ++ List.replicate (10 - digits.length) '0' ++ digits ++ ".bin".toList

/-- `format!("{filename}.tmp")`. -/
def tmpFileName (name : FileName) : FileName := name ++ ".tmp".toList

/-- `n.starts_with("snapshot_") && n.ends_with(".bin")`. -/
def isSnapshotFileName (name : FileName) : Bool :=
  "snapshot_".toList.isPrefixOf name && ".bin".toList.isSuffixOf name

namespace Snapshot

variable (crc : List UInt8 → UInt32) (bincode : Bincode)

def computeChecksum (walRecordCount : UInt64) (bestBid bestAsk : Option Int64)
    (orders : List Order) : UInt32 :=
  crc (bincode.serializeFields (walRecordCount, bestBid, bestAsk, orders))

def capture (engine : MatchingEngine) (walRecordCount : UInt64) : Snapshot :=
  let orders := engine.book.allRestingOrders
  let bestBid := engine.book.bestBid
  let bestAsk := engine.book.bestAsk
  { walRecordCount, orders, bestBid, bestAsk
    checksum := computeChecksum crc bincode walRecordCount bestBid bestAsk orders }

/-- `verify_checksum().is_ok()`. -/
def verifyChecksum (s : Snapshot) : Bool :=
  s.checksum = computeChecksum crc bincode s.walRecordCount s.bestBid s.bestAsk s.orders

/-- The loop of `load_latest` over the files, newest name first. -/
def loadFirst : List SnapshotFile → Option Snapshot
  | [] => none
  | (_, data) :: files =>
      match bincode.deserialize data with
      | some snap => if verifyChecksum crc bincode snap then some snap else loadFirst files
      | none => loadFirst files

/-- `load_latest` on a directory that exists; `none` if no file is accepted. -/
def loadLatest (dir : SnapshotDir) : Option Snapshot :=
  let snapshotFiles := dir.files.filter fun f => isSnapshotFileName f.1
  -- sorted lexicographically, then popped from the back
  loadFirst crc bincode (snapshotFiles.insertionSort fun f g => f.1 ≤ g.1).reverse

def restore (s : Snapshot) (arenaCapacity : UInt32) : Except SnapshotError MatchingEngine :=
  match MatchingEngine.restoreFromOrders s.orders arenaCapacity with
  | .ok engine => .ok engine
  | .error e => .error (.restore e)

/-- What becomes of the system calls of `save`. A failed write leaves some bytes behind. -/
inductive SaveIo where
  | ok
  | createDirFails
  | writeFails (written : List UInt8)
  | renameFails

/-- Atomic save: write to temp file, then rename. The directory is created if it is not there. -/
def save (io : SaveIo) (s : Snapshot) (dir : Option SnapshotDir) :
    Option SnapshotDir × Except SnapshotError Unit :=
  let finalName := snapshotFileName s.walRecordCount.toNat
  let tmpName := tmpFileName finalName
  let data := bincode.serialize s
  match io with
  | .createDirFails => (dir, .error .io)
  | .writeFails written => (some ((dir.getD .empty).put tmpName written), .error .io)
  | .renameFails => (some ((dir.getD .empty).put tmpName data), .error .io)
  | .ok => (some ((((dir.getD .empty).put tmpName data).remove tmpName).put finalName data), .ok ())

end Snapshot

end Ferrox
