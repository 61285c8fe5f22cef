import Ferrox.WalProof

/-!
# Appending and reopening

What a log holds after it was opened on arbitrary bytes, appended to, closed and opened again, any
number of times. The records found at first are the longest valid sequence the bytes start with;
every append adds one; opening again finds the same ones. Bytes behind the accepted records are
gone for good: no append can realign with them.
-/

namespace Ferrox

open Bytes Framing

namespace Wal

variable {crc : List UInt8 → UInt32} {w w' w'' : Wal} {rs : List Record}

/-! ## Appending -/

theorem appendAll_spec (h : Holds crc w rs) {cmds : List EngineCommand}
    (ha : appendAll crc w cmds = some w') : Holds crc w' (rs ++ cmds.map recordOf) := by
  induction cmds generalizing w rs with
  | nil =>
    obtain rfl := Option.some.inj ha
    rw [List.map_nil, List.append_nil]
    exact h
  | cons cmd cmds ih =>
    rw [appendAll] at ha
    obtain ⟨w₁, ⟨happ, -, -⟩ | ⟨happ, h₁⟩⟩ := append_spec h .ok cmd
    · rw [happ] at ha
      cases ha
    · rw [happ] at ha
      have := ih h₁ ha
      rwa [List.append_assoc] at this

/-- Appends succeed as long as the log stays well within what a file can hold. -/
theorem appendAll_isSome (h : Holds crc w rs) (cmds : List EngineCommand)
    (hroom : 2 * (w.writePos + 48 * cmds.length) < 2 ^ 63) :
    ∃ w', appendAll crc w cmds = some w' := by
  induction cmds generalizing w rs with
  | nil => exact ⟨w, rfl⟩
  | cons cmd cmds ih =>
    rw [List.length_cons] at hroom
    obtain ⟨w₁, ⟨-, -, hbig⟩ | ⟨happ, h₁⟩⟩ := append_spec h .ok cmd
    · have := hbig rfl
      omega
    · have hpos : w₁.writePos ≤ w.writePos + 48 := by
        have := alignUp_payload_le cmd
        rw [h₁.writePos, h.writePos, logBytes_append, logBytes_singleton, List.length_append,
          Record.length_bytes crc (valid_recordOf cmd)]
        exact Nat.add_le_add_left this _
      rw [appendAll, happ]
      exact ih h₁ (by omega)

/-! ## Opening again -/

/-- The log `w'` comes from closing `w` and opening its file, any number of times and with any
initial sizes. -/
inductive Reopened (crc : List UInt8 → UInt32) : Wal → Wal → Prop
  | refl (w : Wal) : Reopened crc w w
  | step {w w' w'' : Wal} {file : List UInt8} {size : Nat} (h : Reopened crc w w')
      (hopen : openWithSize crc none w'.file size = (file, .ok w'')) : Reopened crc w w''

theorem holds_reopen (h : Holds crc w rs) {size : Nat} (hs : size < 2 ^ 63) :
    ∃ w', openWithSize crc none w.file size = (w'.file, .ok w') ∧ Holds crc w' rs := by
  obtain ⟨n, hfile⟩ := h.file
  obtain ⟨w', rs', hopen, hholds, hparse, -⟩ :=
    openWithSize_ok crc (Nat.max_lt.2 ⟨h.limit, hs⟩)
  have hext : extend w.file size =
      logBytes crc rs ++ List.replicate (n + (size - w.file.length)) 0 := by
    rw [extend, hfile, List.append_assoc, List.replicate_append_replicate]
  rw [hext] at hparse
  have hrs : rs' = rs :=
    (Parses.append h.valid (Record.stops_zeros _)).unique Record.selfDelimiting hparse
  exact ⟨w', hopen, hrs ▸ hholds⟩

theorem Reopened.holds (h : Holds crc w rs) (hr : Reopened crc w w') : Holds crc w' rs := by
  induction hr with
  | refl => exact h
  | step _ hopen ih =>
    obtain ⟨w₁, hopen₁, h₁⟩ := holds_reopen ih (lt_of_le_of_lt (Nat.le_max_right _ _)
      (openWithSize_limit hopen))
    rw [hopen₁] at hopen
    obtain rfl := Except.ok.inj (Prod.ext_iff.1 hopen).2
    exact h₁

theorem holds_fresh {file : List UInt8} {size : Nat}
    (h : openWithSize crc none [] size = (file, .ok w)) : Holds crc w [] := by
  obtain ⟨w', rs, hopen, hholds, hparse, -⟩ := openWithSize_ok crc (openWithSize_limit h)
  rw [h] at hopen
  obtain rfl := Except.ok.inj (Prod.mk.inj hopen).2
  have hnil : Parses (Record.bytes crc) Record.Valid (extend [] size) [] :=
    .nil (Record.stops_zeros _)
  rwa [hnil.unique Record.selfDelimiting hparse] at hholds

theorem openWithSize_recordOf (crc : List UInt8 → UInt32) (cmds : List EngineCommand) {size : Nat}
    (hlimit : max (logBytes crc (cmds.map recordOf)).length size < 2 ^ 63) :
    ∃ w, openWithSize crc none (logBytes crc (cmds.map recordOf)) size = (w.file, .ok w) ∧
      Holds crc w (cmds.map recordOf) ∧
      Parses (Record.bytes crc) Record.Valid (extend (logBytes crc (cmds.map recordOf)) size)
        (cmds.map recordOf) ∧
      w.mappedSize = max (logBytes crc (cmds.map recordOf)).length size := by
  obtain ⟨w, rs, hopen, hw, hparse, hmapped⟩ := openWithSize_ok crc hlimit
  have hparse' : Parses (Record.bytes crc) Record.Valid
      (extend (logBytes crc (cmds.map recordOf)) size) (cmds.map recordOf) :=
    .append (valid_map_recordOf cmds) (Record.stops_zeros _)
  obtain rfl := hparse'.unique Record.selfDelimiting hparse
  exact ⟨w, hopen, hw, hparse, hmapped⟩

/-! ## What is read back -/

theorem drop_items (rs : List Record) (i n : Nat) :
    (items i rs).drop n = items (i + n) (rs.drop n) := by
  induction rs generalizing i n with
  | nil => simp [items]
  | cons r rs ih =>
    cases n with
    | zero => rfl
    | succ n =>
      rw [items, List.drop_succ_cons, List.drop_succ_cons, ih]
      congr 1
      omega

theorem items_append (rs rs' : List Record) (i : Nat) :
    items i (rs ++ rs') = items i rs ++ items (i + rs.length) rs' := by
  induction rs generalizing i with
  | nil => rfl
  | cons r rs ih =>
    rw [List.cons_append, items, items, ih, List.cons_append, List.length_cons]
    congr 3
    omega

/-- The items of commands logged after record number `i`: the commands, without timestamps. -/
def commandItems : Nat → List EngineCommand → List WalItem
  | _, [] => []
  | i, cmd :: cmds => .ok (i + 1, cmd.untimed) :: commandItems (i + 1) cmds

theorem items_recordOf {cmds : List EngineCommand} (h : ∀ cmd ∈ cmds, cmd.Tradable) (i : Nat) :
    items i (cmds.map recordOf) = commandItems i cmds := by
  induction cmds generalizing i with
  | nil => rfl
  | cons cmd cmds ih =>
    have hpayload : (recordOf cmd).payload = Protocol.payload cmd := rfl
    rw [List.map_cons, items, commandItems, ih fun c hc => h c (List.mem_cons_of_mem _ hc),
      Record.item, hpayload, Protocol.decodeMessage_payload (h cmd List.mem_cons_self)]

/-- The records `rs` are the longest sequence of valid records that `d` starts with. -/
structure LongestPrefix (crc : List UInt8 → UInt32) (d : List UInt8) (rs : List Record) : Prop where
  valid : ∀ r ∈ rs, r.Valid
  starts : logBytes crc rs <+: d
  longest : ∀ rs' : List Record, (∀ r ∈ rs', r.Valid) → logBytes crc rs' <+: d → rs' <+: rs

theorem longestPrefix_of_parses {d : List UInt8}
    (h : Parses (Record.bytes crc) Record.Valid d rs) : LongestPrefix crc d rs := by
  refine ⟨h.mem, ?_, fun rs' hv hp => h.longest Record.selfDelimiting hv hp⟩
  obtain ⟨rest, hd, -⟩ := h.split
  exact ⟨rest, hd.symm⟩

/-- **Longest valid prefix, and nothing comes back.** Opening any file accepts the longest sequence
of valid records that the zero-extended file starts with. After appending commands, and after
opening again any number of times with any sizes, the log has exactly those records and then the
commands, and iterating from any record reads exactly the ones behind it. -/
theorem open_append_reopen (crc : List UInt8 → UInt32) (file : List UInt8) (size : Nat)
    (hlimit : max file.length size < 2 ^ 63) (cmds : List EngineCommand)
    (hcmds : ∀ cmd ∈ cmds, cmd.Tradable) :
    ∃ w rs, openWithSize crc none file size = (w.file, .ok w) ∧
      LongestPrefix crc (extend file size) rs ∧
      w.recordCount = rs.length ∧ w.writePos = (logBytes crc rs).length ∧
      (2 * (max file.length size + 48 * cmds.length) < 2 ^ 63 →
        ∃ w', appendAll crc w cmds = some w') ∧
      ∀ w', appendAll crc w cmds = some w' → ∀ w'', Reopened crc w' w'' →
        w''.recordCount = rs.length + cmds.length ∧
        (∀ n, WalIterator.Yields crc (w''.iterFrom n)
          ((items 0 rs ++ commandItems rs.length cmds).drop n)) ∧
        ∀ size' < 2 ^ 63, ∃ w₃, openWithSize crc none w''.file size' = (w₃.file, .ok w₃) := by
  obtain ⟨w, rs, hopen, hholds, hparse, hmapped⟩ := openWithSize_ok crc hlimit
  refine ⟨w, rs, hopen, longestPrefix_of_parses hparse, hholds.recordCount, hholds.writePos, ?_, ?_⟩
  · intro hroom
    have hfits := hholds.fits
    exact appendAll_isSome hholds cmds (by omega)
  · intro w' happ w'' hre
    have h := hre.holds (appendAll_spec hholds happ)
    refine ⟨?_, ?_, ?_⟩
    · rw [h.recordCount, List.length_append, List.length_map]
    · intro n
      have hitems : (items 0 rs ++ commandItems rs.length cmds).drop n =
          items n ((rs ++ cmds.map recordOf).drop n) := by
        rw [← items_recordOf hcmds, ← Nat.zero_add rs.length, ← items_append, drop_items,
          Nat.zero_add]
      rw [hitems]
      exact h.yields n
    · intro size' hsize'
      obtain ⟨w₃, hopen₃, -⟩ := holds_reopen h hsize'
      exact ⟨w₃, hopen₃⟩

/-- A damaged record in front of an old valid one of the same size: the new append ends where the
old record begins, which is not read again, and not after another opening with a larger size either. -/
theorem open_append_reopen_realigned :
    ∃ (w w' w'' : Wal) (rs : List Record), openWithSize crc32 none
        (List.replicate 24 0xAA ++ (recordOf (.cancelOrder 9)).bytes crc32) 64 = (w.file, .ok w) ∧
      LongestPrefix crc32
        (extend (List.replicate 24 0xAA ++ (recordOf (.cancelOrder 9)).bytes crc32) 64) rs ∧
      appendAll crc32 w [.cancelOrder 7] = some w' ∧
      openWithSize crc32 none w'.file 128 = (w''.file, .ok w'') ∧
      w''.recordCount = rs.length + 1 ∧
      ∀ n, WalIterator.Yields crc32 (w''.iterFrom n)
        ((items 0 rs ++ commandItems rs.length [.cancelOrder 7]).drop n) := by
  obtain ⟨w, rs, hopen, hlongest, -, -, happ, hread⟩ := open_append_reopen crc32
    (List.replicate 24 0xAA ++ (recordOf (.cancelOrder 9)).bytes crc32) 64 (by decide +kernel)
    [.cancelOrder 7] (by simp [EngineCommand.Tradable])
  obtain ⟨w', hw'⟩ := happ (by decide +kernel)
  obtain ⟨-, -, hreopen⟩ := hread w' hw' w' (.refl w')
  obtain ⟨w'', hopen''⟩ := hreopen 128 (by decide)
  obtain ⟨hcount, hyields, -⟩ := hread w' hw' w'' (.step (.refl w') hopen'')
  exact ⟨w, w', w'', rs, hopen, hlongest, hw', hopen'', hcount, hyields⟩

end Wal

end Ferrox
