import Ferrox.RecoveryProof

/-!
# The log in every reachable state

A log is opened on any bytes, appended to, with the file growing or refusing to, and cut at the end
of one of its records, in any order. In every state reached the fields, the scanner and the iterator
say the same (`Wal.Sound`). Each operation keeps `Wal.Holds`, and `Holds` gives `Sound`.
-/

namespace Ferrox

open Bytes Framing

/-- Where record number `n` ends. -/
def recordEnd (data : List UInt8) : Nat → Nat
  | 0 => 0
  | n + 1 =>
      let pos := recordEnd data n
      pos + alignUp (headerSize + ofLE (slice data pos 4))

namespace Wal

/-- The states a log gets into. -/
inductive Reachable (crc : List UInt8 → UInt32) : Wal → Prop
  | opened {io : OpenIo} {file file' : List UInt8} {size : Nat} {w : Wal} (hsize : 0 < size)
      (hopen : openWithSize crc io file size = (file', .ok w)) : Reachable crc w
  | append {io : GrowIo} {w w' : Wal} {cmd : EngineCommand} {result : Except WalError Nat}
      (h : Reachable crc w) (happ : append crc io w cmd = some (w', result)) : Reachable crc w'
  | truncate {w w' : Wal} {n : Nat} (h : Reachable crc w) (hn : n ≤ w.recordCount)
      (htrunc : truncateTo w (recordEnd w.mmap n) n = some w') : Reachable crc w'

variable {crc : List UInt8 → UInt32} {w : Wal} {rs : List Record}

/-! ## What a run preserves -/

theorem recordEnd_eq {rest : List UInt8} (hv : ∀ r ∈ rs, r.Valid) {n : Nat} (hn : n ≤ rs.length) :
    recordEnd (logBytes crc rs ++ rest) n = (logBytes crc (rs.take n)).length := by
  induction n with
  | zero => rfl
  | succ n ih =>
    have hlt : n < rs.length := hn
    have hr := hv rs[n] (List.getElem_mem hlt)
    have hsplit : logBytes crc rs ++ rest = logBytes crc (rs.take n) ++
        (rs[n].bytes crc ++ (logBytes crc (rs.drop (n + 1)) ++ rest)) := by
      rw [← List.append_assoc (rs[n].bytes crc), ← logBytes_cons, ← List.drop_eq_getElem_cons hlt,
        ← List.append_assoc, ← logBytes_append, List.take_append_drop]
    obtain ⟨hlen, -⟩ := Record.read crc hr (logBytes crc (rs.take n)) _ rfl hsplit
    rw [recordEnd, ih hlt.le, hlen, List.take_succ_eq_append_getElem hlt, logBytes_append,
      logBytes_singleton, List.length_append, Record.length_bytes crc hr]

theorem Reachable.holds (h : Reachable crc w) : ∃ rs, Holds crc w rs := by
  induction h with
  | @opened io file file' size w hsize hopen =>
    obtain ⟨f, herr⟩ | ⟨w', rs, hopen', hholds, -⟩ := openWithSize_cases crc io file size
    · rw [herr] at hopen
      cases hopen
    · rw [hopen'] at hopen
      cases hopen
      exact ⟨rs, hholds⟩
  | @append io w w' cmd result h happ ih =>
    obtain ⟨rs, hholds⟩ := ih
    obtain ⟨w₁, ⟨happ₁, h₁, -⟩ | ⟨happ₁, h₁⟩⟩ := append_spec hholds io cmd
    · rw [happ₁] at happ
      cases happ
      exact ⟨rs, h₁⟩
    · rw [happ₁] at happ
      cases happ
      exact ⟨_, h₁⟩
  | @truncate w w' n h hn htrunc ih =>
    obtain ⟨rs, hholds⟩ := ih
    rw [hholds.recordCount] at hn
    obtain ⟨w₁, htrunc₁, h₁⟩ := truncateTo_spec hholds hn
    rw [hholds.mmap_eq, recordEnd_eq hholds.valid hn, htrunc₁] at htrunc
    cases htrunc
    exact ⟨_, h₁⟩

/-! ## What it says -/

/-- Neither a bad checksum nor a torn record. -/
def IsRecord (i : Nat) (x : WalItem) : Prop :=
  (∃ cmd, x = .ok (i, cmd)) ∨ ∃ e, x = .error (.protocol e)

/-- **The fields of a log, its scanner and its iterator agree.** -/
structure Sound (crc : List UInt8 → UInt32) (w : Wal) : Prop where
  aligned : w.writePos % 8 = 0
  fits : w.writePos ≤ w.mappedSize
  mapped : w.mmap.length = w.mappedSize
  zeros : ∀ b ∈ w.file.drop w.writePos, b = 0
  scan : scanRecords crc w.mmap = ⟨w.writePos, w.recordCount⟩
  append : ∀ io cmd, Wal.append crc io w cmd ≠ none
  truncate : ∀ n ≤ w.recordCount, truncateTo w (recordEnd w.mmap n) n ≠ none
  iter : ∀ n, ∃ xs, WalIterator.Yields crc (w.iterFrom n) xs ∧ xs.length = w.recordCount - n ∧
    ∀ i (hi : i < xs.length), IsRecord (n + 1 + i) xs[i]

theorem length_items (i : Nat) (rs : List Record) : (items i rs).length = rs.length := by
  induction rs generalizing i with
  | nil => rfl
  | cons r rs ih => rw [items, List.length_cons, List.length_cons, ih]

theorem isRecord_items (n : Nat) (rs : List Record) (i : Nat) (hi : i < (items n rs).length) :
    IsRecord (n + 1 + i) (items n rs)[i] := by
  induction rs generalizing n i with
  | nil => cases hi
  | cons r rs ih =>
    cases i with
    | zero =>
      show IsRecord (n + 1) (r.item (n + 1))
      unfold Record.item
      cases Protocol.decodeMessage r.payload with
      | ok cmd => exact Or.inl ⟨cmd, rfl⟩
      | error e => exact Or.inr ⟨e, rfl⟩
    | succ i =>
      have := ih (n + 1) i (Nat.lt_of_succ_lt_succ hi)
      rwa [show n + 1 + 1 + i = n + 1 + (i + 1) by omega] at this

theorem Holds.sound (h : Holds crc w rs) : Sound crc w where
  aligned := h.writePos ▸ logBytes_mod h.valid
  fits := h.fits
  mapped := h.length_mmap
  zeros := by
    obtain ⟨n, hfile⟩ := h.file
    intro b hb
    rw [hfile, h.writePos, List.drop_left] at hb
    exact List.eq_of_mem_replicate hb
  scan := h.scan
  append := by
    intro io cmd hnone
    obtain ⟨w', ⟨happ, -⟩ | ⟨happ, -⟩⟩ := append_spec h io cmd
    · rw [happ] at hnone
      cases hnone
    · rw [happ] at hnone
      cases hnone
  truncate := by
    intro n hn hnone
    rw [h.recordCount] at hn
    obtain ⟨w', htrunc, -⟩ := truncateTo_spec h hn
    rw [h.mmap_eq, recordEnd_eq h.valid hn, htrunc] at hnone
    cases hnone
  iter := by
    intro n
    refine ⟨_, h.yields n, ?_, isRecord_items n _⟩
    rw [length_items, List.length_drop, h.recordCount]

end Wal

/-- **The invariant of the log.** In every state a log gets into, its fields, its scanner and its
iterator agree, and no append leaves the mapping; so on any directory `recover` returns, and the
only errors of the log it returns are I/O errors and records that do not decode. -/
theorem wal_sound_of_reachable (crc : List UInt8 → UInt32) :
    (∀ w, Wal.Reachable crc w → Wal.Sound crc w) ∧
      ∀ bincode io dir c size, ∃ dir' result,
        Recovery.recoverWithWalSize crc bincode io dir c size = (dir', some result) ∧
          ∀ e, result = .error (.wal e) → e = .io ∨ ∃ p, e = .protocol p := by
  refine ⟨?_, ?_⟩
  · intro w h
    obtain ⟨rs, hholds⟩ := h.holds
    exact hholds.sound
  · intro bincode io dir c size
    have h := Recovery.returns crc bincode io dir c size
    generalize Recovery.recoverWithWalSize crc bincode io dir c size = r at h
    cases h with
    | io h =>
      refine ⟨_, _, rfl, ?_⟩
      intro e he
      rcases h with rfl | rfl
      · cases he
        exact Or.inl rfl
      · cases he
    | refused hload h =>
      refine ⟨_, _, rfl, ?_⟩
      intro e he
      cases he
    | @replayed e₀ n w rs hstart hopen hw hparse =>
      refine ⟨_, _, rfl, ?_⟩
      intro e he
      unfold Recovery.replayed at he
      cases hdecode : decodeRecords (rs.drop n) with
      | ok cmds =>
        rw [hdecode] at he
        cases he
      | error p =>
        rw [hdecode] at he
        cases he
        exact Or.inr ⟨p, rfl⟩

/-- A log opened on garbage, appended to twice, once in vain, and emptied again. -/
theorem wal_sound_of_reachable_emptied :
    ∃ w₀ w₁ w₂ w₃ : Wal, Wal.openWithSize crc32 none (List.replicate 20 0xAA) 32 =
        (w₀.file, .ok w₀) ∧
      Wal.append crc32 .ok w₀ (.cancelOrder 7) = some (w₁, .ok 1) ∧
      Wal.append crc32 .setLenFails w₁ (.cancelOrder 8) = some (w₂, .error .io) ∧
      Wal.truncateTo w₂ (recordEnd w₂.mmap 0) 0 = some w₃ ∧
      Wal.Sound crc32 w₂ ∧ Wal.Sound crc32 w₃ := by
  let buf (id : UInt64) := Protocol.payload (.cancelOrder id) ++ List.replicate 24 (0 : UInt8)
  let w₀ : Wal := ⟨List.replicate 32 0, 32, 0, 32, List.replicate 40 0, 0⟩
  let w₁ : Wal := ⟨(Wal.recordOf (.cancelOrder 7)).bytes crc32 ++ List.replicate 8 0, 32, 24, 32,
    buf 7, 1⟩
  let w₂ : Wal := { w₁ with encodeBuf := buf 8 }
  let w₃ : Wal := ⟨List.replicate 32 0, 32, 0, 32, buf 8, 0⟩
  have hopen : Wal.openWithSize crc32 none (List.replicate 20 0xAA) 32 = (w₀.file, .ok w₀) := by
    rfl
  have happ : Wal.append crc32 .ok w₀ (.cancelOrder 7) = some (w₁, .ok 1) := by rfl
  have hfail : Wal.append crc32 .setLenFails w₁ (.cancelOrder 8) = some (w₂, .error .io) := by rfl
  have hcut : Wal.truncateTo w₂ (recordEnd w₂.mmap 0) 0 = some w₃ := by rfl
  have h₂ : Wal.Reachable crc32 w₂ := .append (.append (.opened (by decide) hopen) happ) hfail
  refine ⟨w₀, w₁, w₂, w₃, hopen, happ, hfail, hcut, ?_, ?_⟩
  · exact (wal_sound_of_reachable crc32).1 w₂ h₂
  · exact (wal_sound_of_reachable crc32).1 w₃ (.truncate h₂ (Nat.zero_le _) hcut)

end Ferrox
