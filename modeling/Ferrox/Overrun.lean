import Ferrox.RecoverTwice
import Ferrox.Codec

/-!
# Records past the end of the file

The file of a log is filled up with zeros before it is scanned. No record starts among the zeros, but
one may end there: where the bytes break off inside a record of which only zeros are missing, the
record is accepted (`BreaksOff`), and the log goes on behind the end of the data.

For any other bytes every accepted record lies within them (`acceptsOnly_iff`). The number of records
is bounded either way: each one but the last lies in the data, and takes at least 24 bytes.
-/

namespace Ferrox

open Bytes Framing

/-- The payload is a message. -/
def Record.Decodes (r : Record) : Prop := ∃ cmd, Protocol.decodeMessage r.payload = .ok cmd

/-- **The data breaks off inside a record**, behind others, and the rest of the record is zeros for
which the file of the given size has room. -/
def BreaksOff (crc : List UInt8 → UInt32) (size : Nat) (data : List UInt8) : Prop :=
  ∃ (rs : List Record) (r : Record) (t : List UInt8) (missing : Nat),
    (∀ x ∈ rs ++ [r], x.Valid ∧ x.Decodes) ∧ data = logBytes crc rs ++ t ∧
      r.bytes crc = t ++ List.replicate missing 0 ∧ 0 < missing ∧ data.length + missing ≤ size

variable {crc : List UInt8 → UInt32} {bincode : Bincode} {c : UInt32} {rs : List Record}
  {data : List UInt8}

/-! ## Records that decode -/

theorem decodes_iff (rs : List Record) :
    (∃ cmds, decodeRecords rs = .ok cmds) ↔ ∀ r ∈ rs, r.Decodes := by
  induction rs with
  | nil => simp [decodeRecords]
  | cons r rs ih =>
    rw [List.forall_mem_cons, ← ih, decodeRecords, Record.Decodes]
    cases Protocol.decodeMessage r.payload with
    | error e => simp
    | ok cmd =>
      cases decodeRecords rs with
      | error e => simp
      | ok cmds => simp

/-- A message takes at least 16 bytes, and its record 24. -/
theorem Record.Decodes.le_length (crc : List UInt8 → UInt32) {r : Record} (h : r.Decodes)
    (hr : r.Valid) :
    24 ≤ (r.bytes crc).length := by
  obtain ⟨cmd, hcmd⟩ := h
  have hsize : 16 ≤ r.payload.length := by
    rcases Protocol.accepts_of_decodeMessage hcmd with hacc | hacc
    · have := hacc.size
      omega
    · exact hacc.size
  have hle := Record.le_alignUp (headerSize + r.payload.length)
  rw [Record.length_bytes crc hr]
  rw [headerSize] at hle ⊢
  omega

theorem length_logBytes_ge (crc : List UInt8 → UInt32) (h : ∀ r ∈ rs, r.Valid)
    (hdec : ∀ r ∈ rs, r.Decodes) :
    24 * rs.length ≤ (logBytes crc rs).length := by
  induction rs with
  | nil => exact Nat.zero_le _
  | cons r rs ih =>
    have hr := (hdec r List.mem_cons_self).le_length crc (h r List.mem_cons_self)
    have hrs := ih (fun x hx => h x (List.mem_cons_of_mem _ hx))
      fun x hx => hdec x (List.mem_cons_of_mem _ hx)
    rw [logBytes_cons, List.length_append, List.length_cons]
    omega

/-! ## What the scanner finds behind the data -/

theorem stops_suffix_zeros (n : Nat) (t : List UInt8) (h : t <:+ List.replicate n 0) :
    Stops (Record.bytes crc) Record.Valid t := by
  rw [List.suffix_replicate_iff] at h
  rw [h.2]
  exact Record.stops_zeros _

namespace Recovery

/-- **Recovery accepts only what the file holds**: whenever it succeeds, the records are no more than
fit into the data, and the log does not go on behind it. -/
def AcceptsOnly (crc : List UInt8 → UInt32) (bincode : Bincode) (c : UInt32) (size : Nat)
    (data : List UInt8) : Prop :=
  ∀ io dir' e w, recoverWithWalSize crc bincode io ⟨some data, none⟩ c (some size) =
      (dir', some (.ok (e, w))) →
    w.recordCount ≤ data.length / 24 + 1 ∧ w.writePos ≤ max data.length 8

/-- A record that breaks off where only zeros are missing is accepted. -/
theorem recover_of_breaksOff (bincode : Bincode) (c : UInt32) {size : Nat} (hsize : size < 2 ^ 63)
    (h : BreaksOff crc size data) :
    ∃ dir' e w, recoverWithWalSize crc bincode .ok ⟨some data, none⟩ c (some size) =
        (dir', some (.ok (e, w))) ∧ data.length < w.writePos ∧ 24 ≤ w.writePos := by
  obtain ⟨rs, r, t, missing, hall, hdata, hr, hpos, hroom⟩ := h
  have hvalid : ∀ x ∈ rs ++ [r], x.Valid := fun x hx => (hall x hx).1
  have hdec : ∀ x ∈ rs ++ [r], x.Decodes := fun x hx => (hall x hx).2
  have hlog : logBytes crc (rs ++ [r]) = data ++ List.replicate missing 0 := by
    rw [logBytes_append, logBytes_singleton, hr, hdata, List.append_assoc]
  have hextend : Wal.extend data size =
      logBytes crc (rs ++ [r]) ++ List.replicate (size - data.length - missing) 0 := by
    rw [hlog, Wal.extend, List.append_assoc, List.replicate_append_replicate]
    congr 2
    omega
  have hparse : Parses (Record.bytes crc) Record.Valid (Wal.extend data size) (rs ++ [r]) := by
    rw [hextend]
    exact .append hvalid (Record.stops_zeros _)
  obtain ⟨w, rs', hopen, hw, hparse', -⟩ :=
    Wal.openWithSize_ok crc (show max data.length size < 2 ^ 63 by omega)
  obtain rfl := hparse.unique Record.selfDelimiting hparse'
  obtain ⟨cmds, hdecode⟩ := (decodes_iff (rs ++ [r])).2 hdec
  have hdir : RecoverIo.ok.createDirFails = false := rfl
  have hstart : startingPoint crc bincode none c = .ok (.withCapacity c, 0) := rfl
  have hopen : Wal.openWithSize crc none data (walSize (some size)) = (w.file, .ok w) := hopen
  have hrec := recoverWithWalSize_eq ⟨some data, none⟩ hdir rfl hstart hopen hw
  rw [List.drop_zero, replayed, hdecode] at hrec
  refine ⟨_, _, w, hrec, ?_, ?_⟩
  · rw [hw.writePos, hlog, List.length_append, List.length_replicate]
    omega
  · have hlen := length_logBytes_ge crc hvalid hdec
    rw [List.length_append, List.length_singleton] at hlen
    rw [hw.writePos]
    omega

/-- **The records lie in the data**, or it breaks off inside the last one of them. -/
theorem records_cases {io : RecoverIo} {size : Nat} {dir' : DataDir} {e : MatchingEngine} {w : Wal}
    (h : recoverWithWalSize crc bincode io ⟨some data, none⟩ c (some size) =
      (dir', some (.ok (e, w)))) :
    w.recordCount ≤ data.length / 24 + 1 ∧
      (w.writePos ≤ data.length ∨ BreaksOff crc size data) := by
  obtain ⟨-, e₀, n, rs, hsucc⟩ := succeeded h
  obtain ⟨cmds, hdecode, -⟩ := hsucc.replay
  have hn : n = 0 := (startingPoint_sound hsucc.start).2.2
  rw [hn, List.drop_zero] at hdecode
  have hvalid := hsucc.holds.valid
  have hdec := (decodes_iff rs).1 ⟨cmds, hdecode⟩
  rw [hsucc.holds.recordCount, hsucc.holds.writePos]
  rcases hsucc.parse.of_padded (stops_suffix_zeros _) with
    hpre | ⟨init, r, t, u, rfl, hdata, ht, hu, hr, hzeros⟩
  · have hle : (logBytes crc rs).length ≤ data.length := hpre.length_le
    have hlen := length_logBytes_ge crc hvalid hdec
    exact ⟨by omega, Or.inl hle⟩
  · have hdata : data = logBytes crc init ++ t := hdata
    refine ⟨?_, Or.inr ?_⟩
    · -- the last record starts in the data, behind 24 bytes for each other one
      have hlen := length_logBytes_ge crc
        (fun x hx => hvalid x (List.mem_append_left _ hx))
        (fun x hx => hdec x (List.mem_append_left _ hx))
      have ht' : 0 < t.length := List.length_pos_iff.2 ht
      have hsum := congrArg List.length hdata
      rw [List.length_append] at hsum
      rw [List.length_append, List.length_singleton]
      omega
    · obtain ⟨hle, hu'⟩ := List.prefix_replicate_iff.1 hzeros
      have hpos : 0 < u.length := List.length_pos_iff.2 hu
      have hsize : u.length ≤ size - data.length := hle
      rw [hu'] at hr
      exact ⟨init, r, t, u.length, fun x hx => ⟨hvalid x hx, hdec x hx⟩, hdata, hr, hpos, by omega⟩

/-- **Recovery accepts only what the file holds exactly when** the data does not break off inside a
record of which only zeros are missing. -/
theorem acceptsOnly_iff (crc : List UInt8 → UInt32) (bincode : Bincode) (c : UInt32)
    (data : List UInt8) : AcceptsOnly crc bincode c (2 ^ 16) data ↔ ¬ BreaksOff crc (2 ^ 16) data := by
  constructor
  · intro h hbreaks
    obtain ⟨dir', e, w, hrec, hlt, hge⟩ := recover_of_breaksOff bincode c (by decide) hbreaks
    have hle := (h .ok dir' e w hrec).2
    omega
  · intro h io dir' e w hrec
    obtain ⟨hcount, hpos⟩ := records_cases hrec
    have hle := hpos.resolve_right h
    exact ⟨hcount, by omega⟩

/-- **Nine bytes.** The header of a cancellation of order 0 and the first byte of its payload; the
other fifteen are zeros, and the record is accepted. -/
theorem not_acceptsOnly_nine :
    ∃ data, data = ((Wal.recordOf (.cancelOrder 0)).bytes crc32).take 9 ∧ data.length = 9 ∧
      (∃ dir' e w, recoverWithWalSize crc32 .fixint .ok ⟨some data, none⟩ 1024 (some (2 ^ 16)) =
        (dir', some (.ok (e, w))) ∧ 24 ≤ w.writePos) ∧
      ¬ AcceptsOnly crc32 .fixint 1024 (2 ^ 16) data := by
  have hbreaks : BreaksOff crc32 (2 ^ 16) (((Wal.recordOf (.cancelOrder 0)).bytes crc32).take 9) := by
    refine ⟨[], Wal.recordOf (.cancelOrder 0), _, 15, ?_, rfl, by decide +kernel, by decide,
      by decide +kernel⟩
    intro x hx
    obtain rfl := List.mem_singleton.1 hx
    have htradable : (EngineCommand.cancelOrder 0).Tradable := trivial
    exact ⟨Wal.valid_recordOf _, _, Protocol.decodeMessage_payload htradable⟩
  obtain ⟨dir', e, w, hrec, hlt, hge⟩ := recover_of_breaksOff .fixint 1024 (by decide) hbreaks
  refine ⟨_, rfl, by decide +kernel, ⟨dir', e, w, hrec, hge⟩, ?_⟩
  intro h
  have hle := (h .ok dir' e w hrec).2
  have hlen : (((Wal.recordOf (.cancelOrder 0)).bytes crc32).take 9).length = 9 := by decide +kernel
  rw [hlen] at hle
  omega

end Recovery

end Ferrox
