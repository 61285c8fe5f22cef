import Ferrox.Protocol

/-!
# The write-ahead log

The append-only log of `src/wal.rs`. A record is an 8-byte header (payload length and CRC-32, both
little-endian), the payload, and padding to a multiple of 8 bytes. The file is mapped into memory
and written in place; it is longer than the log, and the space behind the log is zero.

What the code asks of its environment is explicit:

* `crc` is the checksum of `crc32fast`, some function of the bytes;
* `setLen` truncates and zero-extends, and refuses lengths from `2 ^ 63` on, which is where file
  sizes end; so no 64-bit sum or product of sizes wraps, and sizes are natural numbers here;
* the mapping shares the contents of the file, so a `Wal` holds the file and the length it is mapped
  up to. An index past that length is a panic, `none`;
* `OpenIo` and `GrowIo` say which system call fails, if any.
-/

namespace Ferrox

open Bytes

/-- WAL record header size: 4 bytes `payload_len` + 4 bytes CRC32. -/
def headerSize : Nat := 8

def alignment : Nat := 8

def defaultInitialSize : Nat := 64 * 1024 * 1024

/-- `(n + ALIGNMENT - 1) & !(ALIGNMENT - 1)`, the next multiple of the alignment. -/
def alignUp (n : Nat) : Nat := (n + alignment - 1) / alignment * alignment

inductive WalError where
  | io
  | protocol (e : ProtocolError)
  | corruption (offset : Nat)
  | truncatedRecord (offset : Nat)
  deriving DecidableEq, Repr

/-- `File::set_len`. -/
def setLen (file : List UInt8) (size : Nat) : Option (List UInt8) :=
  if size < 2 ^ 63 then some (file.take size ++ List.replicate (size - file.length) 0) else none

/-- The system calls of `open_with_size`, in order. -/
inductive OpenCall where
  | openFile
  | extend
  | map
  | truncate
  | reextend
  | remap
  deriving DecidableEq, Repr

/-- The call of `open_with_size` that fails, if any. -/
abbrev OpenIo := Option OpenCall

/-- What becomes of `ensure_capacity`'s system calls. -/
inductive GrowIo where
  | ok
  | setLenFails
  | mapFails
  deriving DecidableEq, Repr

structure Wal where
  file : List UInt8
  mapLen : Nat
  writePos : Nat
  mappedSize : Nat
  encodeBuf : List UInt8
  recordCount : Nat
  deriving DecidableEq

/-- Result of walking the records at the start of a mapped log. -/
structure Scan where
  endPos : Nat
  count : Nat
  deriving DecidableEq, Repr

namespace Wal

variable (crc : List UInt8 → UInt32)

/-! ## Opening -/

/-- The loop of `scan_records`, for at most `fuel` records. -/
def scanLoop (data : List UInt8) : Nat → Scan → Scan
  | 0, scan => scan
  | fuel + 1, scan =>
      let pos := scan.endPos
      if data.length < pos + headerSize then scan
      else
        let payloadLen := ofLE (slice data pos 4)
        if payloadLen = 0 then scan
        else
          let recordSize := alignUp (headerSize + payloadLen)
          if data.length < pos + recordSize then scan
          else
            let storedCrc := UInt32.ofNat (ofLE (slice data (pos + 4) 4))
            let computedCrc := crc (slice data (pos + headerSize) payloadLen)
            if storedCrc ≠ computedCrc then scan
            else scanLoop data fuel ⟨pos + recordSize, scan.count + 1⟩

/-- Walks records from offset 0 until the first zero header, torn record, CRC mismatch, or end of
data. A record takes more than one byte, so there are fewer records than bytes. -/
def scanRecords (data : List UInt8) : Scan := scanLoop crc data data.length ⟨0, 0⟩

/-- `Wal::open_with_size` on a file with the given contents: what the file is afterwards, and the
log or an error. -/
def openWithSize (io : OpenIo) (file : List UInt8) (initialSize : Nat) :
    List UInt8 × Except WalError Wal :=
  if io = some .openFile then (file, .error .io)
  else
    let fileLen := file.length
    let extended : Option (List UInt8) :=
      if fileLen < initialSize then
        if io = some .extend then none else setLen file initialSize
      else some file
    match extended with
    | none => (file, .error .io)
    | some file =>
        let mappedSize := if fileLen < initialSize then initialSize else fileLen
        if io = some .map then (file, .error .io)
        else
          let scan := scanRecords crc file
          match if io = some .truncate then none else setLen file scan.endPos with
          | none => (file, .error .io)
          | some file =>
              match if io = some .reextend then none else setLen file mappedSize with
              | none => (file, .error .io)
              | some file =>
                  if io = some .remap then (file, .error .io)
                  else
                    (file, .ok {
                      file
                      mapLen := file.length
                      writePos := scan.endPos
                      mappedSize
                      encodeBuf := List.replicate newOrderSize 0
                      recordCount := scan.count })

/-! ## Appending -/

/-- The mapped bytes. -/
def mmap (w : Wal) : List UInt8 := w.file.take w.mapLen

/-- A write through the mapping. -/
def write (w : Wal) (pos : Nat) (bs : List UInt8) : Option Wal :=
  if pos + bs.length ≤ w.mapLen then some { w with file := overwrite w.file pos bs } else none

def ensureCapacity (io : GrowIo) (w : Wal) (needed : Nat) : Wal × Except WalError Unit :=
  if w.writePos + needed ≤ w.mappedSize then (w, .ok ())
  else
    let newSize := max (w.mappedSize * 2) (w.writePos + needed)
    match if io = .setLenFails then none else setLen w.file newSize with
    | none => (w, .error .io)
    | some file =>
        if io = .mapFails then ({ w with file }, .error .io)
        else ({ w with file, mapLen := file.length, mappedSize := newSize }, .ok ())

/-- The message of a command, in a buffer, with its length. -/
def encode (buf : List UInt8) : EngineCommand → Except ProtocolError (List UInt8 × Nat)
  | .newOrder order => Protocol.encodeNewOrder buf order
  | .cancelOrder orderId => Protocol.encodeCancelOrder buf orderId

/-- The writes of `append`, at the position they go to. -/
def writeRecord (w : Wal) (payloadLen recordSize : Nat) : Option Wal := do
  let pos := w.writePos
  let payload := w.encodeBuf.take payloadLen
  let w ← w.write pos (leBytes 4 payloadLen)
  let w ← w.write (pos + 4) (leBytes 4 (crc payload).toNat)
  let w ← w.write (pos + headerSize) payload
  let padStart := pos + headerSize + payloadLen
  let padEnd := pos + recordSize
  let w ← if padEnd > padStart then w.write padStart (List.replicate (padEnd - padStart) 0)
    else some w
  some { w with writePos := w.writePos + recordSize, recordCount := w.recordCount + 1 }

/-- Append an `EngineCommand` to the WAL. Returns the record number (1-based). -/
def append (io : GrowIo) (w : Wal) (cmd : EngineCommand) : Option (Wal × Except WalError Nat) :=
  match encode w.encodeBuf cmd with
  | .error e => some (w, .error (.protocol e))
  | .ok (encodeBuf, payloadLen) =>
      let w := { w with encodeBuf }
      let recordSize := alignUp (headerSize + payloadLen)
      match ensureCapacity io w recordSize with
      | (w, .error e) => some (w, .error e)
      | (w, .ok ()) =>
          match writeRecord crc w payloadLen recordSize with
          | none => none
          | some w => some (w, .ok w.recordCount)

/-- Appends that all succeed. -/
def appendAll : Wal → List EngineCommand → Option Wal
  | w, [] => some w
  | w, cmd :: cmds =>
      match append crc .ok w cmd with
      | some (w, .ok _) => appendAll w cmds
      | _ => none

/-- `truncate_to`. The range is only touched when it is not empty. -/
def truncateTo (w : Wal) (offset recordCount : Nat) : Option Wal := do
  let w ← if w.writePos > offset then w.write offset (List.replicate (w.writePos - offset) 0)
    else some w
  some { w with writePos := offset, recordCount }

end Wal

/-! ## Iterating -/

structure WalIterator where
  mmap : List UInt8
  readPos : Nat
  endPos : Nat
  currentRecord : Nat
  startRecord : Nat

/-- What an iterator yields: a numbered command, or an error. -/
abbrev WalItem := Except WalError (Nat × EngineCommand)

/-- Iterate all valid records starting from record number `startRecord` (1-based). -/
def Wal.iterFrom (w : Wal) (startRecord : Nat) : WalIterator where
  mmap := w.mmap
  readPos := 0
  endPos := w.writePos
  currentRecord := 0
  startRecord := startRecord

namespace WalIterator

variable (crc : List UInt8 → UInt32)

/-- The loop of `next`, for at most `fuel` records. -/
def nextLoop : Nat → WalIterator → Option WalItem × WalIterator
  | 0, it => (none, it)
  | fuel + 1, it =>
      let p := it.readPos
      if it.endPos < p + headerSize then (none, it)
      else
        let payloadLen := ofLE (slice it.mmap p 4)
        if payloadLen = 0 then (none, it)
        else
          let recordSize := alignUp (headerSize + payloadLen)
          if it.endPos < p + recordSize then (some (.error (.truncatedRecord p)), it)
          else
            let storedCrc := UInt32.ofNat (ofLE (slice it.mmap (p + 4) 4))
            let payload := slice it.mmap (p + headerSize) payloadLen
            if storedCrc ≠ crc payload then (some (.error (.corruption p)), it)
            else
              let it := { it with
                readPos := p + recordSize
                currentRecord := it.currentRecord + 1 }
              if it.currentRecord ≤ it.startRecord then nextLoop fuel it
              else
                match Protocol.decodeMessage payload with
                | .ok cmd => (some (.ok (it.currentRecord, cmd)), it)
                | .error e => (some (.error (.protocol e)), it)

/-- `Iterator::next`. Every round moves past a record, so there are fewer rounds than bytes. -/
def next (it : WalIterator) : Option WalItem × WalIterator := nextLoop crc (it.endPos + 1) it

/-- Calling `next` until it returns `None` gives exactly these items. -/
inductive Yields : WalIterator → List WalItem → Prop
  | done {it it' : WalIterator} (h : next crc it = (none, it')) : Yields it []
  | item {it it' : WalIterator} {x : WalItem} {xs : List WalItem}
      (h : next crc it = (some x, it')) (hxs : Yields it' xs) : Yields it (x :: xs)

end WalIterator

end Ferrox
