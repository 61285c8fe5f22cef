import Ferrox.WalRun

/-!
# Torn appends

An append that is interrupted has written some of the bytes of its record, in whichever order the
system writes them, and left zeros in the place of the others. The length field has one byte that is
not zero. So whatever was written, the scanner reads the length of the record or none at all; it
finds a record of the right length there, or it stops (`Record.of_partlyWritten`). In either case
what was logged before is read back, and the space behind is zero (`torn_append`).
-/

namespace Ferrox

open Bytes Framing

/-! ## A record that is partly written -/

/-- Every byte is the one that was to be written, or still zero. -/
def PartlyWritten (bs region : List UInt8) : Prop :=
  List.Forall₂ (fun b t => t = b ∨ t = 0) bs region

theorem PartlyWritten.length_eq {bs region : List UInt8} (h : PartlyWritten bs region) :
    bs.length = region.length := List.Forall₂.length_eq h

/-- A small number that is partly written is that number, or zero. -/
theorem PartlyWritten.ofLE_cases {n : Nat} (hn : n < 256) {bs region : List UInt8}
    (h : PartlyWritten (leBytes 4 n ++ bs) region) (d : List UInt8) :
    ofLE (slice (region ++ d) 0 4) = n ∨ ofLE (slice (region ++ d) 0 4) = 0 := by
  have hbytes : leBytes 4 n = [UInt8.ofNat n, 0, 0, 0] := by
    simp [leBytes, Nat.div_eq_of_lt hn]
  have hlow : (UInt8.ofNat n).toNat = n := UInt8.toNat_ofNat_of_lt' hn
  rw [hbytes] at h
  cases h with
  | @cons _ t₀ _ _ h₀ h =>
  cases h with
  | @cons _ t₁ _ _ h₁ h =>
  cases h with
  | @cons _ t₂ _ _ h₂ h =>
  cases h with
  | @cons _ t₃ _ region h₃ h =>
  obtain rfl : t₁ = 0 := h₁.elim id id
  obtain rfl : t₂ = 0 := h₂.elim id id
  obtain rfl : t₃ = 0 := h₃.elim id id
  obtain rfl | rfl := h₀
  · left
    simp [slice, ofLE, hlow]
  · right
    simp [slice, ofLE]

variable {crc : List UInt8 → UInt32}

/-- **What can be read of a partly written record** is a record of the same length. -/
theorem Record.of_partlyWritten {r r' : Record} (hr : r.Valid) (hlen : r.payload.length < 256)
    {region : List UInt8} (h : PartlyWritten (r.bytes crc) region) (hr' : r'.Valid) {n : Nat}
    (hp : r'.bytes crc <+: region ++ List.replicate n 0) :
    r'.payload.length = r.payload.length ∧ r'.bytes crc = region := by
  obtain ⟨d, hd⟩ := hp
  obtain ⟨hread, -⟩ := read crc hr' [] d rfl (hd.symm.trans (List.nil_append _).symm)
  have hpayload : r'.payload.length = r.payload.length := by
    rcases PartlyWritten.ofLE_cases hlen h (List.replicate n 0) with hl | hl
    · exact hread.symm.trans hl
    · exact absurd (List.length_eq_zero_iff.1 (hread.symm.trans hl)) hr'.nonempty
  refine ⟨hpayload, (List.append_inj hd ?_).1⟩
  rw [length_bytes crc hr', hpayload, ← length_bytes crc hr, h.length_eq]

namespace Wal

variable {w w' : Wal} {rs : List Record}

/-- **What an interrupted append leaves**, when it would have made `w'` of `w`: the file as it was, or
the file of `w'` with its last record partly written. -/
def Torn (w w' : Wal) (file : List UInt8) : Prop :=
  file = w.file ∨ ∃ region,
    PartlyWritten (slice w'.file w.writePos (w'.writePos - w.writePos)) region ∧
      file = overwrite w'.file w.writePos region

/-- **The log is exactly these records**: it has their number, the file is their bytes and then
zeros, iterating reads them, and what is appended comes behind them, also when the file is opened
again. -/
structure IsLog (crc : List UInt8 → UInt32) (w : Wal) (rs : List Record) : Prop where
  recordCount : w.recordCount = rs.length
  file : ∃ n, w.file = logBytes crc rs ++ List.replicate n 0
  yields : ∀ n, WalIterator.Yields crc (w.iterFrom n) (items n (rs.drop n))
  further : ∀ cmds w', appendAll crc w cmds = some w' → ∀ w'', Reopened crc w' w'' →
    Holds crc w'' (rs ++ cmds.map recordOf)

theorem Holds.isLog (h : Holds crc w rs) : IsLog crc w rs where
  recordCount := h.recordCount
  file := h.file
  yields := h.yields
  further _ _ happ _ hre := hre.holds (appendAll_spec h happ)

theorem Torn.cases (h : Holds crc w rs) {cmd : EngineCommand}
    (h' : Holds crc w' (rs ++ [recordOf cmd])) {file : List UInt8} (htorn : Torn w w' file) :
    file = w.file ∨ ∃ region n, PartlyWritten ((recordOf cmd).bytes crc) region ∧
      file = logBytes crc rs ++ region ++ List.replicate n 0 ∧ file.length = w'.file.length := by
  rcases htorn with hfile | ⟨region, hregion, hfile⟩
  · exact Or.inl hfile
  right
  obtain ⟨n, hfile'⟩ := h'.file
  have hlog : logBytes crc (rs ++ [recordOf cmd]) =
      logBytes crc rs ++ (recordOf cmd).bytes crc := by rw [logBytes_append, logBytes_singleton]
  have hpos : w'.writePos - w.writePos = ((recordOf cmd).bytes crc).length := by
    rw [h'.writePos, h.writePos, hlog, List.length_append, Nat.add_sub_cancel_left]
  rw [hlog] at hfile'
  rw [hpos, hfile', slice_append h.writePos.symm rfl] at hregion
  rw [hfile', overwrite_append h.writePos.symm hregion.length_eq] at hfile
  refine ⟨region, n, hregion, hfile, ?_⟩
  simp only [hfile, hfile', List.length_append, hregion.length_eq]

/-- **Reopening after a torn append**: the records from before, or these and one more, which stands
where the append was writing. -/
theorem open_torn (h : Holds crc w rs) {cmd : EngineCommand}
    (h' : Holds crc w' (rs ++ [recordOf cmd])) {file : List UInt8} (htorn : Torn w w' file)
    {size : Nat} (hsize : size < 2 ^ 63) :
    ∃ w₂, openWithSize crc none file size = (w₂.file, .ok w₂) ∧ (Holds crc w₂ rs ∨
      ∃ r, r.Valid ∧ r.payload.length = (Protocol.payload cmd).length ∧
        Holds crc w₂ (rs ++ [r])) := by
  rcases htorn.cases h h' with rfl | ⟨region, n, hregion, hfile, hlen⟩
  · obtain ⟨w₂, hopen, hw₂⟩ := holds_reopen h hsize
    exact ⟨w₂, hopen, Or.inl hw₂⟩
  obtain ⟨w₂, rs', hopen, hw₂, hparse, -⟩ :=
    openWithSize_ok crc (Nat.max_lt.2 ⟨hlen.trans_lt h'.limit, hsize⟩)
  refine ⟨w₂, hopen, ?_⟩
  have hext : extend file size =
      logBytes crc rs ++ (region ++ List.replicate (n + (size - file.length)) 0) := by
    rw [extend]
    nth_rewrite 1 [hfile]
    rw [List.append_assoc, List.append_assoc, List.replicate_append_replicate]
  rw [hext] at hparse
  by_cases hstop : Stops (Record.bytes crc) Record.Valid
      (region ++ List.replicate (n + (size - file.length)) 0)
  · left
    rwa [(Parses.append h.valid hstop).unique Record.selfDelimiting hparse] at hw₂
  · right
    simp only [Stops, not_forall, not_not] at hstop
    obtain ⟨r, hr, hp⟩ := hstop
    have hsmall : (recordOf cmd).payload.length < 256 :=
      (Protocol.length_payload_le cmd).trans_lt (by decide)
    obtain ⟨hpayload, hbytes⟩ := Record.of_partlyWritten (valid_recordOf cmd) hsmall hregion hr hp
    refine ⟨r, hr, hpayload, ?_⟩
    have hparse' : Parses (Record.bytes crc) Record.Valid
        (logBytes crc (rs ++ [r]) ++ List.replicate (n + (size - file.length)) 0) (rs ++ [r]) :=
      .append (Record.valid_snoc h.valid hr) (Record.stops_zeros _)
    rw [logBytes_append, logBytes_singleton, hbytes, List.append_assoc] at hparse'
    rwa [hparse'.unique Record.selfDelimiting hparse] at hw₂

/-- **A torn append loses at most the record being written.** Opening the file gives the records
from before, or these and one more. In that case the extra record has the length of the one that was
being written, and the checksum that is stored is that of the payload that is stored. -/
theorem torn_append {size₀ size n : Nat} {file₀ file : List UInt8} {w₀ : Wal}
    {cmds : List EngineCommand} {cmd : EngineCommand} {io : GrowIo}
    (hopen : openWithSize crc none [] size₀ = (file₀, .ok w₀))
    (happ : appendAll crc w₀ cmds = some w) (hlast : append crc io w cmd = some (w', .ok n))
    (htorn : Torn w w' file) (hsize : size < 2 ^ 63) :
    ∃ w₂, openWithSize crc none file size = (w₂.file, .ok w₂) ∧
      (IsLog crc w₂ (cmds.map recordOf) ∨
        ∃ r, r.payload.length = (Protocol.payload cmd).length ∧
          UInt32.ofNat (ofLE (slice w₂.file (w.writePos + 4) 4)) =
            crc (slice w₂.file (w.writePos + headerSize) (Protocol.payload cmd).length) ∧
          IsLog crc w₂ (cmds.map recordOf ++ [r])) := by
  have h := appendAll_spec (holds_fresh hopen) happ
  rw [List.nil_append] at h
  obtain ⟨w'', ⟨hio, -⟩ | ⟨hok, h'⟩⟩ := append_spec h io cmd
  · rw [hio] at hlast
    cases hlast
  rw [hok] at hlast
  cases hlast
  obtain ⟨w₂, hopen₂, hw₂ | ⟨r, hr, hpayload, hw₂⟩⟩ := open_torn h h' htorn hsize
  · exact ⟨w₂, hopen₂, Or.inl hw₂.isLog⟩
  · refine ⟨w₂, hopen₂, Or.inr ⟨r, hpayload, ?_, hw₂.isLog⟩⟩
    obtain ⟨k, hfile⟩ := hw₂.file
    rw [logBytes_append, logBytes_singleton, List.append_assoc] at hfile
    obtain ⟨-, hstored, hcomputed, -⟩ := Record.read crc hr _ _ h.writePos.symm hfile
    rw [hstored, ← hpayload, hcomputed]

/-- An order whose append makes the file grow, and of which five bytes were written. -/
theorem torn_append_grown : ∃ (w w' : Wal) (file : List UInt8),
    append crc32 .ok w (.newOrder ⟨1, 10, .ask, 100, 5, 7⟩) = some (w', .ok 2) ∧
      w.mappedSize < w'.mappedSize ∧ Torn w w' file ∧
      slice file 24 8 = [40, 0, 0, 0, 32, 0, 0, 0] ∧
      ∃ w₂, openWithSize crc32 none file 64 = (w₂.file, .ok w₂) ∧
        (IsLog crc32 w₂ [recordOf (.cancelOrder 9)] ∨
          ∃ r, r.payload.length = 40 ∧
            UInt32.ofNat (ofLE (slice w₂.file (w.writePos + 4) 4)) =
              crc32 (slice w₂.file (w.writePos + headerSize) 40) ∧
            IsLog crc32 w₂ [recordOf (.cancelOrder 9), r]) := by
  let w₀ : Wal := ⟨List.replicate 64 0, 64, 0, 64, List.replicate 40 0, 0⟩
  let w : Wal := ⟨(recordOf (.cancelOrder 9)).bytes crc32 ++ List.replicate 40 0, 64, 24, 64,
    Protocol.payload (.cancelOrder 9) ++ List.replicate 24 0, 1⟩
  let w' : Wal := ⟨(recordOf (.cancelOrder 9)).bytes crc32 ++
    (recordOf (.newOrder ⟨1, 10, .ask, 100, 5, 7⟩)).bytes crc32 ++ List.replicate 56 0, 128, 72, 128,
    Protocol.payload (.newOrder ⟨1, 10, .ask, 100, 5, 7⟩), 2⟩
  let region : List UInt8 := ((recordOf (.newOrder ⟨1, 10, .ask, 100, 5, 7⟩)).bytes crc32).take 5 ++
    List.replicate 43 0
  have hopen : openWithSize crc32 none [] 64 = (w₀.file, .ok w₀) := by decide +kernel
  have happ : appendAll crc32 w₀ [.cancelOrder 9] = some w := by decide +kernel
  have hlast : append crc32 .ok w (.newOrder ⟨1, 10, .ask, 100, 5, 7⟩) = some (w', .ok 2) := by
    decide +kernel
  have hregion : PartlyWritten (slice w'.file w.writePos (w'.writePos - w.writePos)) region := by
    unfold PartlyWritten
    decide +kernel
  have htorn : Torn w w' (overwrite w'.file w.writePos region) := Or.inr ⟨region, hregion, rfl⟩
  exact ⟨w, w', _, hlast, by decide, htorn, by decide +kernel,
    torn_append hopen happ hlast htorn (by decide)⟩

end Wal

end Ferrox
