import Ferrox.Wal
import Ferrox.ProtocolProof
import Ferrox.Lib.Framing

/-!
# What the log holds

A log is a sequence of records, and a record is its payload with whatever padding follows it. The
record format is self-delimiting (`selfDelimiting`), so `scan_records` finds the longest sequence of
valid records a file starts with (`scanRecords_eq`), and the iterator walks the same sequence
(`yields_iterFrom`), though each of the two has its own bounds and its own rules for stopping.

`Wal.Holds w rs` is the invariant of an open log: the file is the records `rs` and then zeros, and
every field of `w` describes them. Opening establishes it, whatever the file was; appending and
truncating keep it; an append that the system refuses keeps it too.
-/

namespace Ferrox

open Bytes Framing

/-! ## Records -/

/-- A record as found on disk. The padding is whatever bytes stand there: nobody looks at it. -/
structure Record where
  payload : List UInt8
  padding : List UInt8
  deriving DecidableEq

namespace Record

variable (crc : List UInt8 → UInt32)

/-- `[payload_len][crc32][payload][padding]`. -/
def bytes (r : Record) : List UInt8 :=
  leBytes 4 r.payload.length ++ (leBytes 4 (crc r.payload).toNat ++ (r.payload ++ r.padding))

/-- The payload is not empty, its length fits the header, and the padding completes the record. -/
structure Valid (r : Record) : Prop where
  nonempty : r.payload ≠ []
  lt : r.payload.length < 2 ^ 32
  padding : r.padding.length =
    alignUp (headerSize + r.payload.length) - (headerSize + r.payload.length)

theorem le_alignUp (n : Nat) : n ≤ alignUp n := by
  rw [alignUp, alignment]
  omega

theorem alignUp_mod (n : Nat) : alignUp n % 8 = 0 := by
  rw [alignUp, alignment]
  omega

variable {crc} {r r' : Record} {d : List UInt8}

theorem length_bytes (crc : List UInt8 → UInt32) (h : r.Valid) :
    (r.bytes crc).length = alignUp (headerSize + r.payload.length) := by
  have hle := le_alignUp (headerSize + r.payload.length)
  have hpad := h.padding
  simp only [bytes, List.length_append, length_leBytes]
  rw [headerSize] at *
  omega

theorem bytes_ne_nil (crc : List UInt8 → UInt32) (h : r.Valid) : r.bytes crc ≠ [] := by
  apply List.ne_nil_of_length_pos
  have := le_alignUp (headerSize + r.payload.length)
  rw [length_bytes crc h]
  rw [headerSize] at *
  omega

/-- Two fields of four bytes and what follows them. -/
theorem slices (pre : List UInt8) {len sum : List UInt8} (hlen : len.length = 4)
    (hsum : sum.length = 4) (payload d : List UInt8) :
    slice (pre ++ (len ++ (sum ++ (payload ++ d)))) pre.length 4 = len ∧
      slice (pre ++ (len ++ (sum ++ (payload ++ d)))) (pre.length + 4) 4 = sum ∧
      slice (pre ++ (len ++ (sum ++ (payload ++ d)))) (pre.length + headerSize) payload.length =
        payload := by
  refine ⟨?_, ?_, ?_⟩
  · rw [← List.append_assoc pre]
    exact slice_append rfl hlen
  · rw [← List.append_assoc pre, ← List.append_assoc (pre ++ _)]
    exact slice_append (by rw [List.length_append, hlen]) hsum
  · rw [← List.append_assoc pre, ← List.append_assoc (pre ++ _), ← List.append_assoc (pre ++ _ ++ _)]
    exact slice_append (by simp only [List.length_append, hlen, hsum, headerSize]) rfl

/-- **Reading a record where one stands.** -/
theorem read (crc : List UInt8 → UInt32) (h : r.Valid) (pre d : List UInt8) {data : List UInt8}
    {pos : Nat} (hpos : pre.length = pos) (hd : data = pre ++ (r.bytes crc ++ d)) :
    ofLE (slice data pos 4) = r.payload.length ∧
      UInt32.ofNat (ofLE (slice data (pos + 4) 4)) = crc r.payload ∧
      slice data (pos + headerSize) r.payload.length = r.payload ∧
      pos + alignUp (headerSize + r.payload.length) ≤ data.length := by
  subst hpos
  obtain ⟨hlen, hcrc, hpay⟩ := slices pre (length_leBytes 4 r.payload.length)
    (length_leBytes 4 (crc r.payload).toNat) r.payload (r.padding ++ d)
  have hdata : data = pre ++ (leBytes 4 r.payload.length ++ (leBytes 4 (crc r.payload).toNat ++
      (r.payload ++ (r.padding ++ d)))) := by
    simp only [hd, bytes, List.append_assoc]
  rw [← hdata] at hlen hcrc hpay
  refine ⟨?_, ?_, hpay, ?_⟩
  · rw [hlen]
    exact ofLE_leBytes h.lt
  · rw [hcrc, ofLE_leBytes (crc r.payload).toNat_lt]
    exact UInt32.ofNat_toNat
  · rw [hd, List.length_append, List.length_append, length_bytes crc h]
    omega

/-- **What reads as a record is one.** -/
theorem of_read {data : List UInt8} {pos : Nat} (h₁ : pos + headerSize ≤ data.length)
    (h₂ : ofLE (slice data pos 4) ≠ 0)
    (h₃ : pos + alignUp (headerSize + ofLE (slice data pos 4)) ≤ data.length)
    (h₄ : UInt32.ofNat (ofLE (slice data (pos + 4) 4)) =
      crc (slice data (pos + headerSize) (ofLE (slice data pos 4)))) :
    ∃ r : Record, r.Valid ∧ r.bytes crc <+: data.drop pos := by
  rw [headerSize] at h₁
  have hlt : ofLE (slice data pos 4) < 2 ^ 32 := ofLE_slice_lt (by omega)
  have hlen : leBytes 4 (ofLE (slice data pos 4)) = slice data pos 4 :=
    leBytes_ofLE_slice (by omega)
  generalize ofLE (slice data pos 4) = n at *
  have hle := le_alignUp (headerSize + n)
  have hpay : (slice data (pos + headerSize) n).length = n := length_slice (by omega)
  refine ⟨⟨slice data (pos + headerSize) n,
    slice data (pos + headerSize + n) (alignUp (headerSize + n) - (headerSize + n))⟩,
    ⟨?_, ?_, ?_⟩, ?_⟩
  · intro h
    exact h₂ (hpay.symm.trans (congrArg List.length h))
  · rw [hpay]
    exact hlt
  · rw [hpay]
    exact length_slice (by omega)
  · have hcrc : leBytes 4 (crc (slice data (pos + headerSize) n)).toNat =
        slice data (pos + 4) 4 := by
      rw [← h₄, UInt32.toNat_ofNat_of_lt' (ofLE_slice_lt (by omega)),
        leBytes_ofLE_slice (by omega)]
    have hcut : ∀ i m, slice data i m ++ data.drop (i + m) = data.drop i := by
      intro i m
      rw [slice, ← List.drop_drop, List.take_append_drop]
    refine ⟨data.drop (pos + alignUp (headerSize + n)), ?_⟩
    simp only [bytes, hpay, hlen, hcrc, List.append_assoc]
    have h₅ : pos + headerSize + n + (alignUp (headerSize + n) - (headerSize + n)) =
        pos + alignUp (headerSize + n) := by omega
    rw [← h₅, hcut, hcut, show pos + headerSize = pos + 4 + 4 from rfl, hcut, hcut]

/-- **The record format is self-delimiting.** -/
theorem selfDelimiting : SelfDelimiting (bytes crc) Valid := by
  intro r r' d hr hr' ⟨t, ht⟩ ⟨t', ht'⟩
  obtain ⟨h₁, -, h₂, -⟩ := read crc hr [] t rfl (ht.symm.trans (List.nil_append _).symm)
  obtain ⟨h₁', -, h₂', -⟩ := read crc hr' [] t' rfl (ht'.symm.trans (List.nil_append _).symm)
  have hlen : r.payload.length = r'.payload.length := h₁.symm.trans h₁'
  have hpay : r.payload = r'.payload := by
    rw [hlen] at h₂
    exact h₂.symm.trans h₂'
  have hbytes : r.bytes crc = r'.bytes crc := by
    have hl : (r.bytes crc).length = (r'.bytes crc).length := by
      rw [length_bytes crc hr, length_bytes crc hr', hlen]
    exact (List.append_inj (ht.trans ht'.symm) hl).1
  obtain ⟨p, q⟩ := r
  obtain ⟨p', q'⟩ := r'
  obtain rfl : p = p' := hpay
  simp only [bytes, List.append_cancel_left_eq] at hbytes
  rw [hbytes]

theorem valid_snoc {rs : List Record} (h : ∀ r ∈ rs, r.Valid) (hr : r.Valid) :
    ∀ x ∈ rs ++ [r], x.Valid := by
  intro x hx
  rcases List.mem_append.1 hx with hx | hx
  · exact h x hx
  · rw [List.mem_singleton.1 hx]
    exact hr

theorem stops_zeros (n : Nat) : Stops (bytes crc) Valid (List.replicate n 0) := by
  intro r hr ⟨t, ht⟩
  obtain ⟨h₁, -, -, h₄⟩ := read crc hr [] t rfl (ht.symm.trans (List.nil_append _).symm)
  have hle := le_alignUp (headerSize + r.payload.length)
  have hzero : slice (List.replicate n (0 : UInt8)) 0 4 = List.replicate 4 0 := by
    rw [List.length_replicate] at h₄
    rw [headerSize] at hle h₄
    rw [slice, List.drop_zero, List.take_replicate, Nat.min_eq_left (by omega)]
  rw [show ([] : List UInt8).length = 0 from rfl, hzero, ofLE_replicate_zero] at h₁
  exact hr.nonempty (List.length_eq_zero_iff.1 h₁.symm)

end Record

/-- The bytes of a sequence of records. -/
def logBytes (crc : List UInt8 → UInt32) (rs : List Record) : List UInt8 :=
  rs.flatMap (Record.bytes crc)

section LogBytes

variable {crc : List UInt8 → UInt32} {rs rs' : List Record} {r : Record}

theorem logBytes_cons : logBytes crc (r :: rs) = r.bytes crc ++ logBytes crc rs := by
  simp [logBytes]

theorem logBytes_append : logBytes crc (rs ++ rs') = logBytes crc rs ++ logBytes crc rs' := by
  simp [logBytes]

theorem logBytes_singleton : logBytes crc [r] = r.bytes crc := by
  simp [logBytes]

theorem length_logBytes_replicate (crc : List UInt8 → UInt32) (n : Nat) (r : Record) :
    (logBytes crc (List.replicate n r)).length = n * (r.bytes crc).length := by
  simp [logBytes, List.length_flatMap]

theorem length_le_logBytes (crc : List UInt8 → UInt32) (h : ∀ r ∈ rs, r.Valid) :
    rs.length ≤ (logBytes crc rs).length := by
  induction rs with
  | nil => exact Nat.zero_le _
  | cons r rs ih =>
    have hr := List.length_pos_iff.2 (Record.bytes_ne_nil crc (h r List.mem_cons_self))
    have hrs := ih fun x hx => h x (List.mem_cons_of_mem _ hx)
    rw [logBytes_cons, List.length_append, List.length_cons]
    omega

theorem logBytes_mod (h : ∀ r ∈ rs, r.Valid) : (logBytes crc rs).length % 8 = 0 := by
  induction rs with
  | nil => rfl
  | cons r rs ih =>
    have hrs := ih fun x hx => h x (List.mem_cons_of_mem _ hx)
    have hr := Record.alignUp_mod (headerSize + r.payload.length)
    rw [logBytes_cons, List.length_append, Record.length_bytes crc (h r List.mem_cons_self)]
    omega

end LogBytes

/-! ## Scanning -/

namespace Wal

variable {crc : List UInt8 → UInt32}

theorem scanLoop_stop {data : List UInt8} {scan : Scan} (fuel : Nat)
    (h : Stops (Record.bytes crc) Record.Valid (data.drop scan.endPos)) :
    scanLoop crc data fuel scan = scan := by
  cases fuel with
  | zero => rfl
  | succ fuel =>
    rw [scanLoop]
    simp only
    split_ifs with h₁ h₂ h₃ h₄
    · rfl
    · rfl
    · rfl
    · rfl
    · obtain ⟨r, hr, hp⟩ := Record.of_read (Nat.not_lt.1 h₁) h₂ (Nat.not_lt.1 h₃)
        (not_not.1 h₄)
      exact absurd hp (h r hr)

theorem scanLoop_record {pre d : List UInt8} {r : Record} (hr : r.Valid) (count fuel : Nat) :
    scanLoop crc (pre ++ (r.bytes crc ++ d)) (fuel + 1) ⟨pre.length, count⟩ =
      scanLoop crc (pre ++ (r.bytes crc ++ d)) fuel
        ⟨(pre ++ r.bytes crc).length, count + 1⟩ := by
  obtain ⟨h₁, h₂, h₃, h₄⟩ := Record.read crc hr pre d rfl rfl
  have hle := Record.le_alignUp (headerSize + r.payload.length)
  have hne : r.payload.length ≠ 0 := fun h => hr.nonempty (List.length_eq_zero_iff.1 h)
  rw [scanLoop]
  simp only [h₁, h₂, h₃, ne_eq, not_true_eq_false, if_false, hne]
  rw [if_neg (by omega), if_neg (by omega), List.length_append, Record.length_bytes crc hr]

theorem scanLoop_eq (pre : List UInt8) {d : List UInt8} {rs : List Record}
    (h : Parses (Record.bytes crc) Record.Valid d rs) {fuel : Nat} (hf : rs.length ≤ fuel)
    (count : Nat) :
    scanLoop crc (pre ++ d) fuel ⟨pre.length, count⟩ =
      ⟨pre.length + (logBytes crc rs).length, count + rs.length⟩ := by
  obtain ⟨hv, rest, rfl, hstop⟩ := h
  induction rs generalizing pre count fuel with
  | nil =>
    apply scanLoop_stop
    rw [List.drop_left]
    exact hstop
  | cons r rs ih =>
    rw [List.length_cons] at hf
    obtain ⟨n, rfl⟩ : ∃ n, fuel = n + 1 := ⟨fuel - 1, by omega⟩
    rw [List.flatMap_cons, List.append_assoc, scanLoop_record (hv r List.mem_cons_self),
      ← List.append_assoc pre, ih _ (by omega) (count + 1) fun x hx => hv x (List.mem_cons_of_mem _ hx),
      logBytes_cons, List.length_append, List.length_append, List.length_cons]
    congr 1
    · omega
    · omega

/-- **`scan_records` reads the longest valid sequence of records.** -/
theorem scanRecords_eq {d : List UInt8} {rs : List Record}
    (h : Parses (Record.bytes crc) Record.Valid d rs) :
    scanRecords crc d = ⟨(logBytes crc rs).length, rs.length⟩ := by
  have hle : rs.length ≤ d.length := by
    obtain ⟨hv, rest, rfl, -⟩ := h
    rw [List.length_append]
    exact (length_le_logBytes crc hv).trans (Nat.le_add_right _ _)
  have := scanLoop_eq [] h hle 0
  rw [List.nil_append, List.length_nil, Nat.zero_add, Nat.zero_add] at this
  exact this

end Wal

/-! ## Iterating -/

/-- What the iterator makes of record number `i`. -/
def Record.item (i : Nat) (r : Record) : WalItem :=
  match Protocol.decodeMessage r.payload with
  | .ok cmd => .ok (i, cmd)
  | .error e => .error (.protocol e)

/-- The items of the records after number `i`. -/
def items : Nat → List Record → List WalItem
  | _, [] => []
  | i, r :: rs => r.item (i + 1) :: items (i + 1) rs

namespace WalIterator

variable {crc : List UInt8 → UInt32} {it : WalIterator} {r : Record} {rs : List Record}

/-- The records `rs` are still ahead of the iterator. -/
structure Ahead (crc : List UInt8 → UInt32) (it : WalIterator) (rs : List Record) : Prop where
  valid : ∀ r ∈ rs, r.Valid
  split : ∃ pre rest, it.mmap = pre ++ (logBytes crc rs ++ rest) ∧ it.readPos = pre.length ∧
    it.endPos = pre.length + (logBytes crc rs).length

/-- The iterator moved past `r`. -/
def past (it : WalIterator) (r : Record) : WalIterator :=
  { it with
    readPos := it.readPos + alignUp (headerSize + r.payload.length)
    currentRecord := it.currentRecord + 1 }

theorem Ahead.past (h : Ahead crc it (r :: rs)) : Ahead crc (it.past r) rs := by
  obtain ⟨hv, pre, rest, hm, hp, he⟩ := h
  have hlen := Record.length_bytes crc (hv r List.mem_cons_self)
  rw [logBytes_cons] at hm he
  refine ⟨fun x hx => hv x (List.mem_cons_of_mem _ hx), pre ++ r.bytes crc, rest, ?_, ?_, ?_⟩
  · rw [List.append_assoc, ← List.append_assoc (r.bytes crc)]
    exact hm
  · rw [List.length_append, hlen, ← hp]
    rfl
  · rw [List.length_append] at he ⊢
    exact he.trans (Nat.add_assoc _ _ _).symm

theorem nextLoop_nil (h : Ahead crc it []) (fuel : Nat) : nextLoop crc fuel it = (none, it) := by
  obtain ⟨-, pre, rest, -, hp, he⟩ := h
  cases fuel with
  | zero => rfl
  | succ fuel =>
    have hlt : it.endPos < it.readPos + headerSize := by
      rw [hp, he]
      show pre.length + 0 < pre.length + 8
      omega
    rw [nextLoop]
    simp only [hlt, if_true]

theorem nextLoop_cons (h : Ahead crc it (r :: rs)) (fuel : Nat) :
    nextLoop crc (fuel + 1) it =
      if it.currentRecord + 1 ≤ it.startRecord then nextLoop crc fuel (it.past r)
      else (some (r.item (it.currentRecord + 1)), it.past r) := by
  obtain ⟨hv, pre, rest, hm, hp, he⟩ := h
  have hr := hv r List.mem_cons_self
  rw [logBytes_cons, List.append_assoc] at hm
  obtain ⟨h₁, h₂, h₃, -⟩ := Record.read crc hr pre _ hp.symm hm
  have hle := Record.le_alignUp (headerSize + r.payload.length)
  have hlen := Record.length_bytes crc hr
  have hne : r.payload.length ≠ 0 := fun h => hr.nonempty (List.length_eq_zero_iff.1 h)
  have hend : it.readPos + alignUp (headerSize + r.payload.length) ≤ it.endPos := by
    rw [hp, he, logBytes_cons, List.length_append, hlen]
    omega
  rw [nextLoop]
  simp only [h₁, h₂, h₃, ne_eq, not_true_eq_false, if_false, hne]
  rw [if_neg (by omega), if_neg (by omega)]
  unfold past Record.item
  cases Protocol.decodeMessage r.payload <;> rfl

/-- **What `next` returns**: the records up to `start_record` are skipped, the first one after them
is returned, and the iterator stands behind it. -/
theorem next_eq (h : Ahead crc it rs) (fuel : Nat) (hf : rs.length ≤ fuel) :
    (rs.drop (it.startRecord - it.currentRecord) = [] ∧ (nextLoop crc fuel it).1 = none) ∨
      ∃ r rs' it', rs.drop (it.startRecord - it.currentRecord) = r :: rs' ∧
        nextLoop crc fuel it =
          (some (r.item (max it.currentRecord it.startRecord + 1)), it') ∧
        Ahead crc it' rs' ∧ it'.startRecord = it.startRecord ∧
        it'.currentRecord = max it.currentRecord it.startRecord + 1 := by
  induction rs generalizing it fuel with
  | nil =>
    left
    exact ⟨List.drop_nil, by rw [nextLoop_nil h]⟩
  | cons r rs ih =>
    rw [List.length_cons] at hf
    obtain ⟨n, rfl⟩ : ∃ n, fuel = n + 1 := ⟨fuel - 1, by omega⟩
    rw [nextLoop_cons h]
    by_cases hskip : it.currentRecord + 1 ≤ it.startRecord
    · rw [if_pos hskip]
      have hdrop : (r :: rs).drop (it.startRecord - it.currentRecord) =
          rs.drop ((it.past r).startRecord - (it.past r).currentRecord) := by
        have : it.startRecord - it.currentRecord =
            it.startRecord - (it.currentRecord + 1) + 1 := by omega
        rw [this, List.drop_succ_cons]
        rfl
      have hmax : max (it.past r).currentRecord (it.past r).startRecord =
          max it.currentRecord it.startRecord := by
        show max (it.currentRecord + 1) it.startRecord = _
        omega
      have := ih h.past n (by omega)
      rw [hmax] at this
      rw [hdrop]
      exact this
    · right
      rw [if_neg hskip]
      have hzero : it.startRecord - it.currentRecord = 0 := by omega
      have hmax : max it.currentRecord it.startRecord = it.currentRecord := by omega
      rw [hzero, hmax]
      exact ⟨r, rs, it.past r, rfl, rfl, h.past, rfl, rfl⟩

/-- **The iterator yields the records ahead of it** that come after `start_record`, each once, and
then ends. -/
theorem yields (h : Ahead crc it rs) :
    Yields crc it (items (max it.currentRecord it.startRecord)
      (rs.drop (it.startRecord - it.currentRecord))) := by
  have hfuel : rs.length ≤ it.endPos + 1 := by
    obtain ⟨hv, pre, rest, -, -, he⟩ := h
    have := length_le_logBytes crc hv
    omega
  generalize hl : rs.drop (it.startRecord - it.currentRecord) = l
  induction l generalizing it rs with
  | nil =>
    rcases next_eq h _ hfuel with ⟨-, hnone⟩ | ⟨r, rs', it', hd, -⟩
    · exact .done (Prod.ext hnone rfl)
    · rw [hl] at hd
      cases hd
  | cons r l ih =>
    rcases next_eq h _ hfuel with ⟨hd, -⟩ | ⟨r', rs', it', hd, hnext, hahead, hstart, hcur⟩
    · rw [hl] at hd
      cases hd
    · rw [hl] at hd
      obtain ⟨rfl, rfl⟩ := List.cons.inj hd
      have hmax : max it'.currentRecord it'.startRecord =
          max it.currentRecord it.startRecord + 1 := by
        rw [hstart, hcur]
        omega
      have hzero : it'.startRecord - it'.currentRecord = 0 := by
        rw [hstart, hcur]
        omega
      have hfuel' : l.length ≤ it'.endPos + 1 := by
        obtain ⟨hv, pre, rest, -, -, he⟩ := hahead
        have := length_le_logBytes crc hv
        omega
      have := ih hahead hfuel' (by rw [hzero]; rfl)
      rw [hmax] at this
      exact .item hnext this

end WalIterator

/-! ## The open log -/

namespace Wal

variable {crc : List UInt8 → UInt32} {w : Wal} {rs : List Record}

/-- **The invariant of an open log**: the file is the records `rs` followed by zeros, and the fields
describe them. The file may be longer than the mapping, when it was grown and not mapped again. -/
structure Holds (crc : List UInt8 → UInt32) (w : Wal) (rs : List Record) : Prop where
  valid : ∀ r ∈ rs, r.Valid
  file : ∃ n, w.file = logBytes crc rs ++ List.replicate n 0
  writePos : w.writePos = (logBytes crc rs).length
  recordCount : w.recordCount = rs.length
  mapLen : w.mapLen = w.mappedSize
  fits : w.writePos ≤ w.mappedSize
  mapped : w.mappedSize ≤ w.file.length
  limit : w.file.length < 2 ^ 63
  encodeBuf : w.encodeBuf.length = newOrderSize

theorem take_append_zeros {l : List UInt8} {n m : Nat} (h : l.length ≤ m)
    (hm : m ≤ l.length + n) :
    (l ++ List.replicate n 0).take m = l ++ List.replicate (m - l.length) 0 := by
  rw [List.take_append, List.take_of_length_le h, List.take_replicate,
    Nat.min_eq_left (by omega)]

theorem Holds.mmap_eq (h : Holds crc w rs) :
    w.mmap = logBytes crc rs ++ List.replicate (w.mappedSize - w.writePos) 0 := by
  obtain ⟨n, hfile⟩ := h.file
  have h₁ := h.writePos
  have h₂ := h.fits
  have h₃ := h.mapped
  rw [hfile, List.length_append, List.length_replicate] at h₃
  rw [mmap, h.mapLen, hfile, h₁]
  exact take_append_zeros (by omega) h₃

theorem Holds.length_mmap (h : Holds crc w rs) : w.mmap.length = w.mappedSize := by
  have h₁ := h.writePos
  have h₂ := h.fits
  rw [h.mmap_eq, List.length_append, List.length_replicate]
  omega

theorem Holds.length_lt (h : Holds crc w rs) : rs.length < 2 ^ 64 := by
  have h₁ := length_le_logBytes crc h.valid
  have h₂ := h.writePos
  have h₃ := h.fits
  have h₄ := h.mapped
  have h₅ := h.limit
  omega

/-- **The two parsers agree**: the scan of the mapping finds what the fields say, ... -/
theorem Holds.scan (h : Holds crc w rs) :
    scanRecords crc w.mmap = ⟨w.writePos, w.recordCount⟩ := by
  rw [h.writePos, h.recordCount, h.mmap_eq]
  exact scanRecords_eq (.append h.valid (Record.stops_zeros _))

/-- ... and the iterator yields it. -/
theorem Holds.yields (h : Holds crc w rs) (n : Nat) :
    WalIterator.Yields crc (w.iterFrom n) (items n (rs.drop n)) := by
  have hahead : WalIterator.Ahead crc (w.iterFrom n) rs :=
    ⟨h.valid, [], _, h.mmap_eq, rfl, by rw [List.length_nil, Nat.zero_add]; exact h.writePos⟩
  have := WalIterator.yields hahead
  have hmax : max (w.iterFrom n).currentRecord (w.iterFrom n).startRecord = n := Nat.zero_max n
  rw [hmax] at this
  exact this

/-! ## Opening -/

/-- A file zero-extended to a size. -/
def extend (file : List UInt8) (size : Nat) : List UInt8 :=
  file ++ List.replicate (size - file.length) 0

theorem setLen_of_le {file : List UInt8} {size : Nat} (h : file.length ≤ size)
    (hs : size < 2 ^ 63) : setLen file size = some (extend file size) := by
  rw [setLen, if_pos hs, List.take_of_length_le h]
  rfl

theorem setLen_of_ge {file : List UInt8} {size : Nat} (h : size ≤ file.length)
    (hs : size < 2 ^ 63) : setLen file size = some (file.take size) := by
  rw [setLen, if_pos hs, Nat.sub_eq_zero_of_le h, List.replicate_zero, List.append_nil]

theorem length_extend (file : List UInt8) (size : Nat) :
    (extend file size).length = max file.length size := by
  rw [extend, List.length_append, List.length_replicate]
  omega

theorem openWithSize_error {io : OpenIo} {file file' : List UInt8} {size : Nat} {e : WalError}
    (h : openWithSize crc io file size = (file', .error e)) : e = .io := by
  unfold openWithSize at h
  simp only at h
  split at h
  · exact (Except.error.inj (Prod.ext_iff.1 h).2).symm
  · split at h
    · exact (Except.error.inj (Prod.ext_iff.1 h).2).symm
    · split at h
      · exact (Except.error.inj (Prod.ext_iff.1 h).2).symm
      · split at h
        · exact (Except.error.inj (Prod.ext_iff.1 h).2).symm
        · split at h
          · exact (Except.error.inj (Prod.ext_iff.1 h).2).symm
          · split at h
            · exact (Except.error.inj (Prod.ext_iff.1 h).2).symm
            · cases (Prod.ext_iff.1 h).2

theorem openWithSize_limit {io : OpenIo} {file file' : List UInt8} {size : Nat}
    (h : openWithSize crc io file size = (file', .ok w)) : max file.length size < 2 ^ 63 := by
  by_contra hbig
  have hnone : ∀ l, setLen l (if file.length < size then size else file.length) = none := by
    intro l
    rw [setLen, if_neg]
    split_ifs <;> omega
  unfold openWithSize at h
  simp only [hnone, ite_self] at h
  split at h
  · cases (Prod.ext_iff.1 h).2
  · split at h
    · cases (Prod.ext_iff.1 h).2
    · split at h
      · cases (Prod.ext_iff.1 h).2
      · split at h
        · cases (Prod.ext_iff.1 h).2
        · cases (Prod.ext_iff.1 h).2

/-- **Opening any file** whose extended length is one a file can have: the log holds the longest
valid sequence of records the extended file starts with, and nothing else of it is left. -/
theorem openWithSize_ok (crc : List UInt8 → UInt32) {file : List UInt8} {size : Nat}
    (hlimit : max file.length size < 2 ^ 63) :
    ∃ w rs, openWithSize crc none file size = (w.file, .ok w) ∧ Holds crc w rs ∧
      Parses (Record.bytes crc) Record.Valid (extend file size) rs ∧
      w.mappedSize = max file.length size := by
  obtain ⟨rs, hparse⟩ := exists_parses (Record.bytes crc) Record.Valid
    (fun r hr => Record.bytes_ne_nil crc hr) (extend file size)
  have hscan := scanRecords_eq hparse
  obtain ⟨hv, rest, hsplit, -⟩ := id hparse
  have hlen : (logBytes crc rs).length ≤ max file.length size := by
    rw [← length_extend, hsplit, List.length_append]
    exact Nat.le_add_right _ _
  have hmapped : (if file.length < size then size else file.length) = max file.length size := by
    split_ifs <;> omega
  have hextend : (if file.length < size then setLen file size else some file) =
      some (extend file size) := by
    by_cases hlt : file.length < size
    · rw [if_pos hlt, setLen_of_le (by omega) (by omega)]
    · rw [if_neg hlt, extend, Nat.sub_eq_zero_of_le (by omega), List.replicate_zero,
        List.append_nil]
  have htake : (extend file size).take (logBytes crc rs).length = logBytes crc rs := by
    rw [hsplit]
    exact List.take_left
  have hcut : setLen (extend file size) (logBytes crc rs).length = some (logBytes crc rs) := by
    rw [setLen_of_ge (by rw [length_extend]; exact hlen) (by omega), htake]
  have hgrow : setLen (logBytes crc rs) (max file.length size) =
      some (extend (logBytes crc rs) (max file.length size)) := setLen_of_le hlen hlimit
  refine ⟨⟨extend (logBytes crc rs) (max file.length size), max file.length size,
    (logBytes crc rs).length, max file.length size, List.replicate newOrderSize 0, rs.length⟩, rs,
    ?_, ?_, hparse, rfl⟩
  · unfold openWithSize
    simp only [reduceCtorEq, if_false, hextend, hmapped, hscan, hcut, hgrow, length_extend]
    rw [Nat.max_eq_right hlen]
  · refine ⟨hv, ⟨_, rfl⟩, rfl, rfl, rfl, hlen, ?_, ?_, by simp⟩
    · rw [length_extend]
      exact Nat.le_max_right _ _
    · rw [length_extend, Nat.max_eq_right hlen]
      exact hlimit

/-- A call that would fail but is not reached makes no difference. -/
theorem openWithSize_io {io : OpenIo} {file file' : List UInt8} {size : Nat}
    (h : openWithSize crc io file size = (file', .ok w)) :
    openWithSize crc none file size = (file', .ok w) := by
  cases io with
  | none => exact h
  | some call =>
    unfold openWithSize at h ⊢
    cases call with
    | openFile => cases (Prod.ext_iff.1 h).2
    | extend =>
      by_cases hlt : file.length < size
      · simp only [hlt, reduceCtorEq, Option.some.injEq, if_true, if_false] at h
        cases (Prod.ext_iff.1 h).2
      · simpa only [hlt, reduceCtorEq, Option.some.injEq, if_true, if_false] using h
    | map =>
      simp only [reduceCtorEq, Option.some.injEq, if_true, if_false] at h
      split at h
      · cases (Prod.ext_iff.1 h).2
      · cases (Prod.ext_iff.1 h).2
    | truncate =>
      simp only [reduceCtorEq, Option.some.injEq, if_true, if_false] at h
      split at h
      · cases (Prod.ext_iff.1 h).2
      · cases (Prod.ext_iff.1 h).2
    | reextend =>
      simp only [reduceCtorEq, Option.some.injEq, if_true, if_false] at h
      split at h
      · cases (Prod.ext_iff.1 h).2
      · split at h
        · cases (Prod.ext_iff.1 h).2
        · cases (Prod.ext_iff.1 h).2
    | remap =>
      simp only [reduceCtorEq, Option.some.injEq, if_true, if_false] at h
      split at h
      · cases (Prod.ext_iff.1 h).2
      · split at h
        · cases (Prod.ext_iff.1 h).2
        · split at h
          · cases (Prod.ext_iff.1 h).2
          · cases (Prod.ext_iff.1 h).2

/-- **Opening**, whatever the file is and whichever call fails: an I/O error, or a log that holds the
longest valid sequence of records the extended file starts with. -/
theorem openWithSize_cases (crc : List UInt8 → UInt32) (io : OpenIo) (file : List UInt8)
    (size : Nat) :
    (∃ file', openWithSize crc io file size = (file', .error .io)) ∨
      ∃ w rs, openWithSize crc io file size = (w.file, .ok w) ∧ Holds crc w rs ∧
        Parses (Record.bytes crc) Record.Valid (extend file size) rs ∧
        w.mappedSize = max file.length size := by
  cases h : openWithSize crc io file size with
  | mk file' result =>
    cases result with
    | error e =>
      obtain rfl := openWithSize_error h
      exact Or.inl ⟨file', rfl⟩
    | ok w =>
      obtain ⟨w', rs, hopen, hspec⟩ := openWithSize_ok crc (openWithSize_limit h)
      rw [openWithSize_io h] at hopen
      obtain ⟨rfl, hw⟩ := Prod.mk.inj hopen
      obtain rfl := Except.ok.inj hw
      exact Or.inr ⟨w, rs, rfl, hspec⟩

/-! ## Appending -/

/-- The record an append writes. -/
def recordOf (cmd : EngineCommand) : Record where
  payload := Protocol.payload cmd
  padding := List.replicate (alignUp (headerSize + (Protocol.payload cmd).length) -
    (headerSize + (Protocol.payload cmd).length)) 0

theorem valid_recordOf (cmd : EngineCommand) : (recordOf cmd).Valid where
  nonempty := Protocol.payload_ne_nil cmd
  lt := (Protocol.length_payload_le cmd).trans_lt (by decide)
  padding := List.length_replicate

theorem valid_map_recordOf (cmds : List EngineCommand) : ∀ r ∈ cmds.map recordOf, r.Valid := by
  intro r hr
  obtain ⟨cmd, -, rfl⟩ := List.mem_map.1 hr
  exact valid_recordOf cmd

theorem alignUp_payload_le (cmd : EngineCommand) :
    alignUp (headerSize + (Protocol.payload cmd).length) ≤ 48 := by
  have := Protocol.length_payload_le cmd
  rw [newOrderSize] at this
  rw [alignUp, alignment, headerSize]
  omega

theorem encode_eq {buf : List UInt8} (h : buf.length = newOrderSize) (cmd : EngineCommand) :
    ∃ rest, encode buf cmd =
        .ok (Protocol.payload cmd ++ rest, (Protocol.payload cmd).length) ∧
      (Protocol.payload cmd ++ rest).length = newOrderSize := by
  cases cmd with
  | newOrder o =>
    refine ⟨buf.drop newOrderSize, ?_, ?_⟩
    · rw [Protocol.payload, Protocol.length_newOrderBytes]
      exact Protocol.encodeNewOrder_eq h.ge o
    · simp [Protocol.payload, h]
  | cancelOrder id =>
    refine ⟨buf.drop cancelOrderSize, ?_, ?_⟩
    · rw [Protocol.payload, Protocol.length_cancelOrderBytes]
      exact Protocol.encodeCancelOrder_eq (h ▸ by decide) id
    · simp [Protocol.payload, h, cancelOrderSize, newOrderSize]

theorem setLen_append_zeros {l file : List UInt8} {n size : Nat} (h : l.length ≤ size)
    (hset : setLen (l ++ List.replicate n 0) size = some file) :
    size < 2 ^ 63 ∧ file = l ++ List.replicate (size - l.length) 0 := by
  unfold setLen at hset
  split_ifs at hset with hs
  refine ⟨hs, ?_⟩
  obtain rfl := Option.some.inj hset
  rw [List.length_append, List.length_replicate]
  by_cases hle : size ≤ l.length + n
  · rw [take_append_zeros h hle, Nat.sub_eq_zero_of_le hle, List.replicate_zero, List.append_nil]
  · rw [List.take_of_length_le (by rw [List.length_append, List.length_replicate]; omega),
      List.append_assoc, List.replicate_append_replicate]
    congr 2
    omega

/-- **Making room** keeps what the log holds, and gives the room or an I/O error. Without a failing
system call there is an error only when the file would outgrow what a file can hold. -/
theorem ensureCapacity_spec (h : Holds crc w rs) (io : GrowIo) (needed : Nat) :
    ∃ w', Holds crc w' rs ∧ w'.encodeBuf = w.encodeBuf ∧
      (ensureCapacity io w needed = (w', .error .io) ∧
          (io = .ok → 2 ^ 63 ≤ 2 * (w.writePos + needed)) ∨
        ensureCapacity io w needed = (w', .ok ()) ∧ w'.writePos + needed ≤ w'.mappedSize) := by
  unfold ensureCapacity
  by_cases hroom : w.writePos + needed ≤ w.mappedSize
  · rw [if_pos hroom]
    exact ⟨w, h, rfl, Or.inr ⟨rfl, hroom⟩⟩
  rw [if_neg hroom]
  simp only
  generalize hn : max (w.mappedSize * 2) (w.writePos + needed) = newSize
  cases hset : (if io = .setLenFails then none else setLen w.file newSize) with
  | none =>
    refine ⟨w, h, rfl, Or.inl ⟨rfl, ?_⟩⟩
    intro hio
    have hbig : ¬ newSize < 2 ^ 63 := by
      intro hlt
      rw [if_neg (by simp [hio]), setLen, if_pos hlt] at hset
      cases hset
    omega
  | some file =>
    have hset' : setLen w.file newSize = some file := by
      split_ifs at hset
      exact hset
    obtain ⟨n, hfile⟩ := h.file
    have hpos := h.writePos
    have hfits := h.fits
    rw [hfile] at hset'
    obtain ⟨hlimit, rfl⟩ := setLen_append_zeros (by omega) hset'
    have hlen : (logBytes crc rs ++ List.replicate (newSize - (logBytes crc rs).length) 0).length =
        newSize := by
      rw [List.length_append, List.length_replicate]
      omega
    by_cases hmap : io = .mapFails
    · -- the file has grown, but the old mapping and its size stay
      simp only [hmap, if_true]
      refine ⟨_, ?_, ?_, Or.inl ⟨rfl, nofun⟩⟩
      · exact ⟨h.valid, ⟨_, rfl⟩, hpos, h.recordCount, h.mapLen, hfits,
          (show w.mappedSize ≤ newSize by omega).trans hlen.ge, hlen.trans_lt hlimit, h.encodeBuf⟩
      · rfl
    · simp only [hmap, if_false]
      refine ⟨_, ?_, ?_, Or.inr ⟨rfl, ?_⟩⟩
      · exact ⟨h.valid, ⟨_, rfl⟩, hpos, h.recordCount, hlen,
          show w.writePos ≤ newSize by omega, hlen.ge, hlen.trans_lt hlimit, h.encodeBuf⟩
      · rfl
      · show w.writePos + needed ≤ newSize
        omega

theorem write_next (w : Wal) (l bs : List UInt8) {n pos : Nat} (hpos : l.length = pos)
    (hn : bs.length ≤ n) (hroom : pos + bs.length ≤ w.mapLen) :
    Wal.write { w with file := l ++ List.replicate n 0 } pos bs =
      some { w with file := l ++ bs ++ List.replicate (n - bs.length) 0 } := by
  have hzeros : List.replicate n (0 : UInt8) =
      List.replicate bs.length 0 ++ List.replicate (n - bs.length) 0 := by
    rw [List.replicate_append_replicate]
    congr 1
    omega
  rw [write, if_pos hroom, hzeros, ← List.append_assoc,
    overwrite_append hpos List.length_replicate]

/-- **Writing a record** into the zeros behind the log. Every index is inside the mapping. -/
theorem writeRecord_eq (crc : List UInt8 → UInt32) {l rest : List UInt8} {n : Nat}
    {cmd : EngineCommand} (hbuf : w.encodeBuf = Protocol.payload cmd ++ rest)
    (hfile : w.file = l ++ List.replicate n 0) (hpos : w.writePos = l.length)
    (hmap : w.mapLen ≤ l.length + n)
    (hroom : w.writePos + alignUp (headerSize + (Protocol.payload cmd).length) ≤ w.mapLen) :
    writeRecord crc w (Protocol.payload cmd).length
        (alignUp (headerSize + (Protocol.payload cmd).length)) =
      some { w with
        file := l ++ (recordOf cmd).bytes crc ++
          List.replicate (n - alignUp (headerSize + (Protocol.payload cmd).length)) 0
        writePos := w.writePos + alignUp (headerSize + (Protocol.payload cmd).length)
        recordCount := w.recordCount + 1 } := by
  have hle := Record.le_alignUp (headerSize + (Protocol.payload cmd).length)
  have hbytes : (recordOf cmd).bytes crc = leBytes 4 (Protocol.payload cmd).length ++
      (leBytes 4 (crc (Protocol.payload cmd)).toNat ++ (Protocol.payload cmd ++
        List.replicate (alignUp (headerSize + (Protocol.payload cmd).length) -
          (headerSize + (Protocol.payload cmd).length)) 0)) := rfl
  rw [hbytes]
  generalize Protocol.payload cmd = payload at *
  generalize alignUp (headerSize + payload.length) = size at *
  have htake : w.encodeBuf.take payload.length = payload := by
    rw [hbuf]
    exact List.take_left
  rw [show headerSize = 8 from rfl] at *
  rw [hpos] at hroom
  have hw : w = { w with file := l ++ List.replicate n 0 } := by rw [← hfile]
  unfold writeRecord
  rw [htake, hpos, hw]
  simp only [bind, Option.bind, show headerSize = 8 from rfl]
  rw [write_next w l (leBytes 4 payload.length) rfl (by rw [length_leBytes]; omega)
    (by rw [length_leBytes]; omega)]
  simp only [length_leBytes]
  rw [write_next w (l ++ leBytes 4 payload.length) (leBytes 4 (crc payload).toNat)
    (by simp) (by rw [length_leBytes]; omega) (by rw [length_leBytes]; omega)]
  simp only [length_leBytes]
  rw [write_next w (l ++ leBytes 4 payload.length ++ leBytes 4 (crc payload).toNat) payload
    (by simp) (by omega) (by omega)]
  by_cases hpad : l.length + size > l.length + 8 + payload.length
  · simp only [if_pos hpad]
    rw [write_next w (l ++ leBytes 4 payload.length ++ leBytes 4 (crc payload).toNat ++ payload)
      (List.replicate (l.length + size - (l.length + 8 + payload.length)) 0) (by simp; omega)
      (by rw [List.length_replicate]; omega) (by rw [List.length_replicate]; omega)]
    have h₁ : l.length + size - (l.length + 8 + payload.length) = size - (8 + payload.length) := by
      omega
    have h₂ : n - 4 - 4 - payload.length - (size - (8 + payload.length)) = n - size := by omega
    simp only [List.length_replicate, h₁, h₂, List.append_assoc, hpos]
  · simp only [if_neg hpad]
    have h₁ : size - (8 + payload.length) = 0 := by omega
    have h₂ : n - 4 - 4 - payload.length = n - size := by omega
    simp only [h₁, h₂, List.append_assoc, List.replicate_zero, List.append_nil, hpos]

/-- **Appending** never leaves the mapping. It either adds the record of the command and returns its
number, or the system refuses to grow the file and the log stays as it was. -/
theorem append_spec (h : Holds crc w rs) (io : GrowIo) (cmd : EngineCommand) :
    ∃ w', (append crc io w cmd = some (w', .error .io) ∧ Holds crc w' rs ∧
        (io = .ok → 2 ^ 63 ≤ 2 * (w.writePos + 48))) ∨
      (append crc io w cmd = some (w', .ok (rs.length + 1)) ∧
        Holds crc w' (rs ++ [recordOf cmd])) := by
  obtain ⟨rest, henc, hbuf⟩ := encode_eq h.encodeBuf cmd
  have h' : Holds crc { w with encodeBuf := Protocol.payload cmd ++ rest } rs :=
    ⟨h.valid, h.file, h.writePos, h.recordCount, h.mapLen, h.fits, h.mapped, h.limit, hbuf⟩
  obtain ⟨w₁, h₁, hbuf₁, ⟨hio, hbig⟩ | ⟨hok, hroom⟩⟩ := ensureCapacity_spec h' io
    (alignUp (headerSize + (Protocol.payload cmd).length))
  · refine ⟨w₁, Or.inl ⟨?_, h₁, ?_⟩⟩
    · rw [append, henc]
      simp only [hio]
    · intro hnone
      have h₁ := hbig hnone
      have h₂ := alignUp_payload_le cmd
      simp only at h₁
      omega
  · obtain ⟨n, hfile⟩ := h₁.file
    have hmapped := h₁.mapped
    have hpos := h₁.writePos
    rw [hfile, List.length_append, List.length_replicate] at hmapped
    have hwrite := writeRecord_eq crc hbuf₁ hfile hpos (h₁.mapLen ▸ hmapped) (h₁.mapLen ▸ hroom)
    have hlen := Record.length_bytes crc (valid_recordOf cmd)
    have hpayload : (recordOf cmd).payload = Protocol.payload cmd := rfl
    have hlog : logBytes crc (rs ++ [recordOf cmd]) =
        logBytes crc rs ++ (recordOf cmd).bytes crc := by
      rw [logBytes_append, logBytes_singleton]
    have hsize : (logBytes crc rs ++ (recordOf cmd).bytes crc ++ List.replicate
        (n - alignUp (headerSize + (Protocol.payload cmd).length)) (0 : UInt8)).length =
        w₁.file.length := by
      rw [hpayload] at hlen
      simp only [hfile, List.length_append, List.length_replicate, hlen]
      omega
    obtain ⟨w', hw', happend⟩ : ∃ w', writeRecord crc w₁ (Protocol.payload cmd).length
        (alignUp (headerSize + (Protocol.payload cmd).length)) = some w' ∧
        append crc io w cmd = some (w', .ok w'.recordCount) := by
      refine ⟨_, hwrite, ?_⟩
      rw [append, henc]
      simp only [hok, hwrite]
    obtain rfl := Option.some.inj (hwrite.symm.trans hw')
    refine ⟨_, Or.inr ⟨by rw [happend, h₁.recordCount], ?_⟩⟩
    refine ⟨Record.valid_snoc h₁.valid (valid_recordOf cmd), ⟨_, by rw [hlog]⟩, ?_, ?_, h₁.mapLen,
      hroom, ?_, ?_, h₁.encodeBuf⟩
    · rw [hlog, List.length_append, hlen, ← hpos]
      rfl
    · rw [List.length_append, ← h₁.recordCount]
      rfl
    · exact h₁.mapped.trans hsize.ge
    · exact hsize.trans_lt h₁.limit

/-- **Appending to a full log when the file cannot grow** changes nothing but the buffer. -/
theorem append_setLenFails (h : Holds crc w rs) {cmd : EngineCommand}
    (hfull : w.mappedSize < w.writePos + alignUp (headerSize + (Protocol.payload cmd).length)) :
    ∃ w', append crc .setLenFails w cmd = some (w', .error .io) ∧ Holds crc w' rs := by
  obtain ⟨rest, henc, hbuf⟩ := encode_eq h.encodeBuf cmd
  refine ⟨{ w with encodeBuf := Protocol.payload cmd ++ rest }, ?_,
    ⟨h.valid, h.file, h.writePos, h.recordCount, h.mapLen, h.fits, h.mapped, h.limit, hbuf⟩⟩
  rw [append, henc]
  simp only [ensureCapacity]
  rw [if_neg (Nat.not_le.2 hfull)]
  rfl

/-! ## Truncating -/

/-- **Truncating at the end of a record** forgets the records behind it. -/
theorem truncateTo_spec (h : Holds crc w rs) {n : Nat} (hn : n ≤ rs.length) :
    ∃ w', truncateTo w (logBytes crc (rs.take n)).length n = some w' ∧
      Holds crc w' (rs.take n) := by
  obtain ⟨m, hfile⟩ := h.file
  have hpos := h.writePos
  have hsplit : logBytes crc rs = logBytes crc (rs.take n) ++ logBytes crc (rs.drop n) := by
    rw [← logBytes_append, List.take_append_drop]
  have hvalid : ∀ r ∈ rs.take n, r.Valid := fun r hr => h.valid r (List.mem_of_mem_take hr)
  have hcount : (rs.take n).length = n := by
    rw [List.length_take]
    omega
  rw [hsplit] at hfile
  rw [hsplit, List.length_append] at hpos
  have hzero : logBytes crc (rs.take n) ++ List.replicate (logBytes crc (rs.drop n)).length 0 ++
      List.replicate m (0 : UInt8) = logBytes crc (rs.take n) ++
        List.replicate ((logBytes crc (rs.drop n)).length + m) 0 := by
    rw [List.append_assoc, List.replicate_append_replicate]
  unfold truncateTo
  by_cases hlt : w.writePos > (logBytes crc (rs.take n)).length
  · have hlen : w.writePos - (logBytes crc (rs.take n)).length =
        (logBytes crc (rs.drop n)).length := by omega
    have hwrite : w.write (logBytes crc (rs.take n)).length
        (List.replicate (logBytes crc (rs.drop n)).length 0) =
        some { w with file := logBytes crc (rs.take n) ++
          List.replicate ((logBytes crc (rs.drop n)).length + m) 0 } := by
      rw [write, if_pos, hfile, overwrite_append rfl List.length_replicate.symm, hzero]
      rw [List.length_replicate, ← hpos, h.mapLen]
      exact h.fits
    refine ⟨_, by rw [if_pos hlt, hlen, hwrite]; rfl, ?_⟩
    have hsize : (logBytes crc (rs.take n) ++ List.replicate
        ((logBytes crc (rs.drop n)).length + m) (0 : UInt8)).length = w.file.length := by
      simp only [hfile, List.length_append, List.length_replicate]
      omega
    exact ⟨hvalid, ⟨_, rfl⟩, rfl, hcount.symm, h.mapLen, hlt.le.trans h.fits,
      h.mapped.trans hsize.ge, hsize.trans_lt h.limit, h.encodeBuf⟩
  · have hnil : logBytes crc (rs.drop n) = [] := List.length_eq_zero_iff.1 (by omega)
    rw [hnil, List.append_nil] at hfile
    rw [hnil, List.length_nil, Nat.add_zero] at hpos
    refine ⟨_, by rw [if_neg hlt]; rfl, ?_⟩
    exact ⟨hvalid, ⟨_, hfile⟩, rfl, hcount.symm, h.mapLen, hpos ▸ h.fits, h.mapped, h.limit,
      h.encodeBuf⟩

end Wal

end Ferrox
