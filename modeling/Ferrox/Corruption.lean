import Ferrox.Lib.Crc
import Ferrox.Bincode
import Ferrox.RecoveryProof
import Ferrox.TornAppend

/-!
# A damaged byte

One byte of a log is changed. A change in the payload changes its CRC-32, a change in the checksum
leaves the payload as it was, and either way the scanner stops at the record. A change in the length
field is another matter: the checksum does not cover it, and is compared with that of as many bytes
as the damaged field says. So the damage is detected at its record just in case the two do not
collide (`detected_iff`). They do for an order whose fields are chosen for it (`not_detected`).
-/

namespace Ferrox

open Bytes Framing

/-! ## Reading a damaged record -/

/-- A record can be read at this position: its length is not zero, it fits, and its checksum is the
one that is stored. -/
def ReadsAt (crc : List UInt8 → UInt32) (data : List UInt8) (pos : Nat) : Prop :=
  ofLE (slice data pos 4) ≠ 0 ∧
    pos + alignUp (headerSize + ofLE (slice data pos 4)) ≤ data.length ∧
    UInt32.ofNat (ofLE (slice data (pos + 4) 4)) =
      crc (slice data (pos + headerSize) (ofLE (slice data pos 4)))

instance (crc : List UInt8 → UInt32) (data : List UInt8) (pos : Nat) :
    Decidable (ReadsAt crc data pos) := inferInstanceAs (Decidable (_ ∧ _ ∧ _))

variable {crc : List UInt8 → UInt32}

theorem readsAt_iff {data : List UInt8} {pos : Nat} (h : pos + headerSize ≤ data.length) :
    ReadsAt crc data pos ↔ ¬ Stops (Record.bytes crc) Record.Valid (data.drop pos) := by
  constructor
  · intro ⟨hlen, hfits, hcrc⟩ hstop
    obtain ⟨r, hr, hp⟩ := Record.of_read h hlen hfits hcrc
    exact hstop r hr hp
  · intro hstop
    simp only [Stops, not_forall, not_not] at hstop
    obtain ⟨r, hr, t, ht⟩ := hstop
    have hpos : (data.take pos).length = pos := List.length_take_of_le (by omega)
    have hdata : data = data.take pos ++ (r.bytes crc ++ t) := by
      rw [ht, List.take_append_drop]
    obtain ⟨h₁, h₂, h₃, h₄⟩ := Record.read crc hr _ t hpos hdata
    refine ⟨?_, h₁ ▸ h₄, by rw [h₁, h₂, h₃]⟩
    rw [h₁]
    exact fun h0 => hr.nonempty (List.length_eq_zero_iff.1 h0)

theorem ofLE_set_ne {bs : List UInt8} {i : Nat} (hi : i < bs.length) {b : UInt8} (h : bs[i] ≠ b) :
    ofLE (bs.set i b) ≠ ofLE bs := by
  intro heq
  have hset := leBytes_ofLE (bs.set i b)
  rw [heq, List.length_set, leBytes_ofLE bs] at hset
  apply h
  have hget := congrArg (·[i]?) hset
  simpa [hi] using hget

theorem crc32_set_ne {bs : List UInt8} {i : Nat} (hi : i < bs.length) {b : UInt8} (h : bs[i] ≠ b) :
    crc32 (bs.set i b) ≠ crc32 bs := by
  have hbs : bs = bs.take i ++ bs[i] :: bs.drop (i + 1) := by simp
  rw [List.set_eq_take_append_cons_drop, if_pos hi]
  nth_rewrite 3 [hbs]
  exact crc32_ne _ _ h.symm

/-- **A record with a damaged byte** can be read only if the byte is in its length field. -/
theorem lt_of_readsAt {r : Record} (hr : r.Valid) (hpad : r.padding = []) {i : Nat}
    (hi : i < (r.bytes crc32).length) {b : UInt8} (hb : (r.bytes crc32)[i] ≠ b)
    {pre d : List UInt8}
    (h : ReadsAt crc32 (pre ++ ((r.bytes crc32).set i b ++ d)) pre.length) : i < 4 := by
  by_contra hge
  have hlen := length_leBytes 4 r.payload.length
  have hsum := length_leBytes 4 (crc32 r.payload).toNat
  have hbytes : r.bytes crc32 = leBytes 4 r.payload.length ++
      (leBytes 4 (crc32 r.payload).toNat ++ r.payload) := by
    rw [Record.bytes, hpad, List.append_nil]
  simp only [hbytes] at hi hb h
  rw [List.set_append_right _ _ (by omega), hlen] at h
  rw [List.getElem_append_right (by omega)] at hb
  simp only [List.length_append, hlen, hsum] at hi hb
  by_cases hcrc : i - 4 < 4
  · -- the checksum is damaged and the payload is not
    rw [List.set_append_left _ _ (by omega), List.append_assoc, List.append_assoc] at h
    rw [List.getElem_append_left (by omega)] at hb
    obtain ⟨h₁, h₂, h₃⟩ := Record.slices pre hlen
      (show ((leBytes 4 (crc32 r.payload).toNat).set (i - 4) b).length = 4 by
        rw [List.length_set, hsum]) r.payload d
    obtain ⟨-, -, heq⟩ := h
    rw [h₁, ofLE_leBytes hr.lt, h₂, h₃] at heq
    have hlt := ofLE_lt ((leBytes 4 (crc32 r.payload).toNat).set (i - 4) b)
    rw [List.length_set, hsum] at hlt
    have hstored := congrArg UInt32.toNat heq
    rw [UInt32.toNat_ofNat_of_lt' hlt] at hstored
    exact ofLE_set_ne (by omega) hb
      (hstored.trans (ofLE_leBytes (crc32 r.payload).toNat_lt).symm)
  · -- the payload is damaged and the checksum is not
    rw [List.set_append_right _ _ (by omega), hsum, List.append_assoc, List.append_assoc] at h
    rw [List.getElem_append_right (by omega)] at hb
    obtain ⟨h₁, h₂, h₃⟩ := Record.slices pre hlen hsum (r.payload.set (i - 4 - 4) b) d
    obtain ⟨-, -, heq⟩ := h
    rw [List.length_set] at h₃
    rw [h₁, ofLE_leBytes hr.lt, h₂, h₃, ofLE_leBytes (crc32 r.payload).toNat_lt,
      UInt32.ofNat_toNat] at heq
    simp only [hsum] at hb
    exact crc32_set_ne (by omega) hb heq.symm

/-! ## Where the damage is -/

namespace Wal

theorem padding_recordOf (cmd : EngineCommand) : (recordOf cmd).padding = [] := by
  cases cmd with
  | newOrder o => simp [recordOf, Protocol.payload, alignUp, alignment, headerSize, newOrderSize]
  | cancelOrder id =>
    simp [recordOf, Protocol.payload, alignUp, alignment, headerSize, cancelOrderSize]

/-- The commands whose records end at or before an offset of their log. -/
def endingBy : List EngineCommand → Nat → List EngineCommand
  | [], _ => []
  | cmd :: cmds, o =>
      let recordSize := alignUp (headerSize + (Protocol.payload cmd).length)
      if recordSize ≤ o then cmd :: endingBy cmds (o - recordSize) else []

/-- An offset of a log is in the record behind these. -/
theorem endingBy_split (crc : List UInt8 → UInt32) {cmds : List EngineCommand} {o : Nat}
    (h : o < (logBytes crc (cmds.map recordOf)).length) :
    ∃ cmd rest i, cmds = endingBy cmds o ++ cmd :: rest ∧
      o = (logBytes crc ((endingBy cmds o).map recordOf)).length + i ∧
      i < ((recordOf cmd).bytes crc).length := by
  induction cmds generalizing o with
  | nil => cases h
  | cons cmd cmds ih =>
    have hlen : ((recordOf cmd).bytes crc).length =
        alignUp (headerSize + (Protocol.payload cmd).length) :=
      Record.length_bytes crc (valid_recordOf cmd)
    rw [List.map_cons, logBytes_cons, List.length_append, hlen] at h
    simp only [endingBy]
    split_ifs with hle
    · obtain ⟨cmd', rest, i, hcmds, ho, hi⟩ :=
        ih (o := o - alignUp (headerSize + (Protocol.payload cmd).length)) (by omega)
      refine ⟨cmd', rest, i, congrArg (cmd :: ·) hcmds, ?_, hi⟩
      rw [List.map_cons, logBytes_cons, List.length_append, hlen]
      omega
    · exact ⟨cmd, cmds, o, rfl, (Nat.zero_add o).symm, by omega⟩

/-- **The checksum collides**: the damaged byte is in the length field of the record at `pos`, and a
record can be read there all the same. -/
def Collides (crc : List UInt8 → UInt32) (data : List UInt8) (pos o : Nat) : Prop :=
  o < pos + 4 ∧ ReadsAt crc data pos

instance (crc : List UInt8 → UInt32) (data : List UInt8) (pos o : Nat) :
    Decidable (Collides crc data pos o) := inferInstanceAs (Decidable (_ ∧ _))

variable {w : Wal} {cmds : List EngineCommand} {o : Nat} {b : UInt8}

/-- The records up to the damage, and what is read behind them. -/
theorem damaged_split (h : Holds crc32 w (cmds.map recordOf)) (ho : o < w.writePos)
    (hb : w.file[o]? ≠ some b) (size : Nat) :
    ∃ d, extend (w.file.set o b) size = logBytes crc32 ((endingBy cmds o).map recordOf) ++ d ∧
      (Stops (Record.bytes crc32) Record.Valid d ↔ ¬ Collides crc32 (extend (w.file.set o b) size)
        (logBytes crc32 ((endingBy cmds o).map recordOf)).length o) := by
  rw [h.writePos] at ho
  obtain ⟨cmd, rest, i, hcmds, ho, hi⟩ := endingBy_split crc32 ho
  obtain ⟨n, hfile⟩ := h.file
  generalize endingBy cmds o = kept at *
  subst hcmds
  rw [List.map_append, List.map_cons, logBytes_append, logBytes_cons, List.append_assoc,
    List.append_assoc] at hfile
  generalize logBytes crc32 (kept.map recordOf) = front at *
  generalize logBytes crc32 (rest.map recordOf) ++ List.replicate n 0 = back at hfile
  subst ho
  have hset : w.file.set (front.length + i) b =
      front ++ (((recordOf cmd).bytes crc32).set i b ++ back) := by
    rw [hfile, List.set_append_right _ _ (Nat.le_add_right _ _), Nat.add_sub_cancel_left,
      List.set_append_left _ _ hi]
  have hold : ((recordOf cmd).bytes crc32)[i] ≠ b := by
    intro heq
    apply hb
    rw [hfile, List.getElem?_append_right (Nat.le_add_right _ _), Nat.add_sub_cancel_left,
      List.getElem?_append_left hi, List.getElem?_eq_getElem hi, heq]
  have hdata : extend (w.file.set (front.length + i) b) size = front ++
      (((recordOf cmd).bytes crc32).set i b ++ (back ++ List.replicate
        (size - (w.file.set (front.length + i) b).length) 0)) := by
    rw [extend]
    nth_rewrite 1 [hset]
    simp only [List.append_assoc]
  refine ⟨_, hdata, ?_⟩
  rw [hdata]
  generalize back ++ List.replicate (size - (w.file.set (front.length + i) b).length) 0 = d
  have hheader : front.length + headerSize ≤
      (front ++ (((recordOf cmd).bytes crc32).set i b ++ d)).length := by
    have hlen := Record.length_bytes crc32 (valid_recordOf cmd)
    have hle := Record.le_alignUp (headerSize + (recordOf cmd).payload.length)
    simp only [List.length_append, List.length_set, hlen]
    omega
  have hreads : ReadsAt crc32 _ _ ↔ _ := readsAt_iff hheader
  rw [List.drop_left] at hreads
  rw [Collides, hreads, not_and, not_not]
  constructor
  · intro hstop _
    exact hstop
  · intro hstop
    by_contra hread
    have hlt := lt_of_readsAt (valid_recordOf cmd) (padding_recordOf cmd) hi hold (hreads.2 hread)
    exact hread (hstop (Nat.add_lt_add_left hlt _))

end Wal

/-! ## Opening and recovering -/

/-- **The damage is detected at its record**: opening the file gives exactly the records of `kept`,
and recovering from it succeeds with their book. -/
def Detected (crc : List UInt8 → UInt32) (bincode : Bincode) (c : UInt32) (size : Option Nat)
    (file : List UInt8) (kept : List EngineCommand) : Prop :=
  ∃ w, Wal.openWithSize crc none file (Recovery.walSize size) = (w.file, .ok w) ∧
    Wal.IsLog crc w (kept.map Wal.recordOf) ∧
    ∃ dir e, Recovery.recoverWithWalSize crc bincode .ok ⟨some file, none⟩ c size =
        (dir, some (.ok (e, w))) ∧
      e.SameBook ((MatchingEngine.withCapacity c).applyAll kept)

/-- A file whose records are those of some commands is recovered to their book. -/
theorem detected_of_parses {bincode : Bincode} {c : UInt32} {size : Option Nat} {file : List UInt8}
    {kept : List EngineCommand} (hkept : ∀ cmd ∈ kept, cmd.Tradable)
    (hlimit : max file.length (Recovery.walSize size) < 2 ^ 63)
    (hparse : Parses (Record.bytes crc) Record.Valid (Wal.extend file (Recovery.walSize size))
      (kept.map Wal.recordOf)) : Detected crc bincode c size file kept := by
  obtain ⟨w, rs, hopen, hw, hparse', -⟩ := Wal.openWithSize_ok crc hlimit
  obtain rfl := hparse.unique Record.selfDelimiting hparse'
  have hstart : Recovery.startingPoint crc bincode none c =
      .ok (MatchingEngine.withCapacity c, 0) := rfl
  have hrec := Recovery.recover_recordOf ⟨some file, none⟩ hstart hkept hw hopen
  refine ⟨w, hopen, hw.isLog, _, _, hrec, ?_⟩
  obtain ⟨hwf₀, -⟩ := MatchingEngine.withCapacity_sim c
  obtain ⟨hwf, hbook⟩ := MatchingEngine.applyAll_sim hwf₀
    ((kept.drop 0).map EngineCommand.untimed)
  obtain ⟨hwf', hbook'⟩ := MatchingEngine.applyAll_sim hwf₀ kept
  refine MatchingEngine.sameBook_of_untimed hwf hwf' ?_
  rw [hbook, hbook', Book.applyAll_map_untimed]
  rfl

variable {w₀ w : Wal} {cmds : List EngineCommand} {o : Nat} {b : UInt8}

/-- **A damaged byte is detected at its record** just in case the checksum does not collide. -/
theorem detected_iff {size₀ : Nat} {file₀ : List UInt8} {size : Option Nat}
    (hopen : Wal.openWithSize crc32 none [] size₀ = (file₀, .ok w₀))
    (hcmds : ∀ cmd ∈ cmds, cmd.Tradable) (happ : Wal.appendAll crc32 w₀ cmds = some w)
    (ho : o < w.writePos) (hb : w.file[o]? ≠ some b) (hsize : Recovery.walSize size < 2 ^ 63)
    (bincode : Bincode) (c : UInt32) :
    Detected crc32 bincode c size (w.file.set o b) (Wal.endingBy cmds o) ↔
      ¬ Wal.Collides crc32 (Wal.extend (w.file.set o b) (Recovery.walSize size))
        (logBytes crc32 ((Wal.endingBy cmds o).map Wal.recordOf)).length o := by
  have h := Wal.appendAll_spec (Wal.holds_fresh hopen) happ
  rw [List.nil_append] at h
  have hlimit : max (w.file.set o b).length (Recovery.walSize size) < 2 ^ 63 := by
    rw [List.length_set]
    exact Nat.max_lt.2 ⟨h.limit, hsize⟩
  have hvalid := Wal.valid_map_recordOf (Wal.endingBy cmds o)
  obtain ⟨d, hdata, hstops⟩ := Wal.damaged_split h ho hb (Recovery.walSize size)
  rw [← hstops]
  constructor
  · intro hdetected r hr hp
    obtain ⟨w₂, hopen₂, hlog, -⟩ := hdetected
    -- a record behind those that are kept would have been found
    obtain ⟨w₃, rs, hopen₃, hw₃, hparse, -⟩ := Wal.openWithSize_ok crc32 hlimit
    rw [hopen₂] at hopen₃
    obtain rfl := Except.ok.inj (Prod.mk.inj hopen₃).2
    obtain ⟨t, rfl⟩ := hp
    have hmore : ((Wal.endingBy cmds o).map Wal.recordOf ++ [r]).flatMap (Record.bytes crc32) <+:
        Wal.extend (w.file.set o b) (Recovery.walSize size) := by
      refine ⟨t, ?_⟩
      rw [hdata, List.flatMap_append, List.append_assoc, List.flatMap_singleton]
      rfl
    have hlen := (hparse.longest Record.selfDelimiting (Record.valid_snoc hvalid hr) hmore).length_le
    rw [← hw₃.recordCount, hlog.recordCount, List.length_append, List.length_singleton] at hlen
    omega
  · intro hstop
    refine detected_of_parses ?_ hlimit ?_
    · intro cmd hcmd
      apply hcmds
      rw [h.writePos] at ho
      obtain ⟨_, _, _, hsplit, -⟩ := Wal.endingBy_split crc32 ho
      rw [hsplit]
      exact List.mem_append_left _ hcmd
    · rw [hdata]
      exact .append hvalid hstop

/-- A damaged length field behind one record. -/
theorem detected_iff_length : ∃ w : Wal,
    w.file = logBytes crc32 ([.cancelOrder 9, .newOrder ⟨1, 10, .ask, 100, 5, 7⟩].map Wal.recordOf) ++
      List.replicate 56 0 ∧ w.file[24]? = some 40 ∧
    Detected crc32 .fixint 4 (some 64) (w.file.set 24 39) [.cancelOrder 9] := by
  let w₀ : Wal := ⟨List.replicate 64 0, 64, 0, 64, List.replicate 40 0, 0⟩
  let w : Wal := ⟨logBytes crc32
    ([.cancelOrder 9, .newOrder ⟨1, 10, .ask, 100, 5, 7⟩].map Wal.recordOf) ++
      List.replicate 56 0, 128, 72, 128, Protocol.payload (.newOrder ⟨1, 10, .ask, 100, 5, 7⟩), 2⟩
  have hopen : Wal.openWithSize crc32 none [] 64 = (w₀.file, .ok w₀) := by decide +kernel
  have happ : Wal.appendAll crc32 w₀ [.cancelOrder 9, .newOrder ⟨1, 10, .ask, 100, 5, 7⟩] =
      some w := by decide +kernel
  have hcmds : ∀ cmd ∈ [EngineCommand.cancelOrder 9, .newOrder ⟨1, 10, .ask, 100, 5, 7⟩],
      cmd.Tradable := by simp [EngineCommand.Tradable]
  have hold : w.file[24]? = some 40 := by decide +kernel
  have hb : w.file[24]? ≠ some 39 := by
    rw [hold]
    decide
  have hsize : Recovery.walSize (some 64) < 2 ^ 63 := by decide
  exact ⟨w, rfl, hold, (detected_iff hopen hcmds happ (show 24 < 72 by decide) hb hsize .fixint 4).2
    (by decide +kernel)⟩

/-- **A damaged length that is not detected.** Behind the first 33 bytes of this order, zeros do not
change the CRC-32, and the rest of the order is zeros. With the length field damaged the record is
still read, and its payload is too short to be decoded. -/
theorem not_detected : ∃ w₀ w : Wal,
    Wal.openWithSize crc32 none [] 64 = (w₀.file, .ok w₀) ∧
      Wal.appendAll crc32 w₀ [.newOrder ⟨3847482141, 10, .ask, 100, 5, 7⟩] = some w ∧
      0 < w.writePos ∧ w.file[0]? = some 40 ∧
      Wal.endingBy [.newOrder ⟨3847482141, 10, .ask, 100, 5, 7⟩] 0 = [] ∧
      (Wal.openWithSize crc32 none (w.file.set 0 39) 64).2.map (·.recordCount) = .ok 1 ∧
      (Recovery.recoverWithWalSize crc32 .fixint .ok ⟨some (w.file.set 0 39), none⟩ 4
          (some 64)).2.map (·.map fun _ => ()) =
        some (.error (.wal (.protocol .bufferTooShort))) ∧
      ¬ Detected crc32 .fixint 4 (some 64) (w.file.set 0 39)
        (Wal.endingBy [.newOrder ⟨3847482141, 10, .ask, 100, 5, 7⟩] 0) := by
  let w₀ : Wal := ⟨List.replicate 64 0, 64, 0, 64, List.replicate 40 0, 0⟩
  let w : Wal := ⟨(Wal.recordOf (.newOrder ⟨3847482141, 10, .ask, 100, 5, 7⟩)).bytes crc32 ++
    List.replicate 16 0, 64, 48, 64,
    Protocol.payload (.newOrder ⟨3847482141, 10, .ask, 100, 5, 7⟩), 1⟩
  have hrec : (Recovery.recoverWithWalSize crc32 .fixint .ok ⟨some (w.file.set 0 39), none⟩ 4
      (some 64)).2.map (·.map fun _ => ()) =
        some (.error (.wal (.protocol .bufferTooShort))) := by decide +kernel
  refine ⟨w₀, w, by decide +kernel, by decide +kernel, by decide, by decide +kernel, rfl,
    by decide +kernel, hrec, ?_⟩
  intro hdetected
  obtain ⟨w₂, -, -, dir, e, hok, -⟩ := hdetected
  rw [hok] at hrec
  cases hrec

end Ferrox
