import Ferrox.SnapshotProof
import Ferrox.Bincode
import Ferrox.Lib.Decimal

/-!
# Which snapshot counts as the latest

`load_latest` sorts the file names as strings and takes the last one whose file is intact. A name
carries the record count, padded with zeros to ten digits. Up to ten digits the strings compare as
the numbers do; a longer number is compared by its first digits only (`snapshotFileName_le_iff`), so
`snapshot_10000000000.bin` comes before `snapshot_9999999999.bin`.

`Saved` is a directory that saves have filled, in any order, with temporary files left over and with
files damaged. There `load_latest` returns the intact snapshot with the greatest record count if and
only if no intact snapshot exceeds the first digits of that count (`loadLatest_greatest_iff`).
-/

namespace Ferrox

open Bytes Decimal

/-! ## The order of the names -/

theorem snapshotFileName_eq (n : Nat) :
    snapshotFileName n = "snapshot_".toList ++ (fixed (width 10 n) n ++ ".bin".toList) := by
  rw [← padded_eq_fixed]
  unfold snapshotFileName
  simp only [List.append_assoc]

/-- A name that is not longer is compared with the first digits of the other one. -/
theorem snapshotFileName_le_iff {a m : Nat} (h : a ≤ m) :
    snapshotFileName a ≤ snapshotFileName m ↔ a ≤ m / 10 ^ (width 10 m - width 10 a) := by
  obtain ⟨j, hj⟩ := Nat.exists_eq_add_of_le (width_mono h : width 10 a ≤ width 10 m)
  have hlt : m / 10 ^ j < 10 ^ width 10 a := by
    rw [Nat.div_lt_iff_lt_mul (Nat.pow_pos (by decide)), ← Nat.pow_add, ← hj]
    exact lt_pow_width 10 m
  have hrest : ¬ fixed j m ++ ".bin".toList < ".bin".toList := by
    cases j with
    | zero => exact lt_irrefl _
    | succ j => exact not_fixed_succ_append_lt (by decide) j m _ _
  have hname : snapshotFileName m < snapshotFileName a ↔ m / 10 ^ j < a := by
    rw [snapshotFileName_eq, snapshotFileName_eq, append_lt_append_iff rfl, hj, fixed_add,
      List.append_assoc, append_lt_append_iff (by simp), fixed_lt_iff hlt (lt_pow_width 10 a)]
    simp only [lt_irrefl, false_or, true_and, hrest, and_false, or_false]
  rw [← not_lt, hname, not_lt, hj, Nat.add_sub_cancel_left]

/-! ## Directories filled by saves -/

namespace Snapshot

variable {crc : List UInt8 → UInt32} {bincode : Bincode} {saved : List Snapshot}
  {dir : Option SnapshotDir}

/-- The directory after the snapshots were saved to it. A failed save leaves a temporary file, and a
damaged file is one that cannot be read or fails its checksum; both may happen at any time. -/
inductive Saved (crc : List UInt8 → UInt32) (bincode : Bincode) :
    List Snapshot → Option SnapshotDir → Prop
  | start : Saved crc bincode [] none
  | save {saved : List Snapshot} {dir : Option SnapshotDir} (h : Saved crc bincode saved dir)
      {s : Snapshot} (hlen : s.orders.length < 2 ^ 64)
      (hnew : ∀ t ∈ saved, t.walRecordCount ≠ s.walRecordCount) :
      Saved crc bincode (s :: saved) (save bincode .ok s dir).1
  | leftover {saved : List Snapshot} {dir : Option SnapshotDir} (h : Saved crc bincode saved dir)
      (name : FileName) (data : List UInt8) :
      Saved crc bincode saved (some ((dir.getD .empty).put (tmpFileName name) data))
  | damage {saved : List Snapshot} {d : SnapshotDir} (h : Saved crc bincode saved (some d))
      {f : SnapshotFile} (hf : f ∈ d.files) {data : List UInt8}
      (hdata : accepted crc bincode data = none) :
      Saved crc bincode saved (some (d.put f.1 data))

/-- A saved snapshot whose file is still accepted as that snapshot. -/
def Intact (crc : List UInt8 → UInt32) (bincode : Bincode) (saved : List Snapshot)
    (dir : Option SnapshotDir) (s : Snapshot) : Prop :=
  s ∈ saved ∧ ∃ data, (snapshotFileName s.walRecordCount.toNat, data) ∈ filesOf dir ∧
    accepted crc bincode data = some s

/-- The intact snapshot with the greatest record count. -/
structure Greatest (crc : List UInt8 → UInt32) (bincode : Bincode) (saved : List Snapshot)
    (dir : Option SnapshotDir) (s : Snapshot) : Prop where
  intact : Intact crc bincode saved dir s
  greatest : ∀ t, Intact crc bincode saved dir t → t.walRecordCount ≤ s.walRecordCount

/-- `load_latest` returns the intact snapshot with the greatest record count, and none if none is
intact. -/
structure LoadsGreatest (crc : List UInt8 → UInt32) (bincode : Bincode) (saved : List Snapshot)
    (dir : Option SnapshotDir) : Prop where
  of_greatest : ∀ s, Greatest crc bincode saved dir s → dir.bind (loadLatest crc bincode) = some s
  of_none : (∀ s, ¬ Intact crc bincode saved dir s) → dir.bind (loadLatest crc bincode) = none

theorem Saved.intact (hbin : bincode.RoundTrip) (h : Saved crc bincode saved dir)
    {f : SnapshotFile} (hf : f ∈ filesOf dir) (hname : isSnapshotFileName f.1) {s : Snapshot}
    (hacc : accepted crc bincode f.2 = some s) :
    f.1 = snapshotFileName s.walRecordCount.toNat ∧ s ∈ saved := by
  induction h generalizing f s with
  | start => cases hf
  | @save saved dir h t hlen hnew ih =>
    rcases SnapshotDir.mem_put hf with rfl | hf
    · have hdata : accepted crc bincode (bincode.serialize t) =
          (some t).filter (verifyChecksum crc bincode) := by
        rw [accepted, hbin t hlen]
      rw [hdata, Option.filter_eq_some_iff] at hacc
      obtain rfl := Option.some.inj hacc.1
      exact ⟨rfl, List.mem_cons_self⟩
    rcases SnapshotDir.mem_put (SnapshotDir.mem_remove hf) with rfl | hf
    · rw [isSnapshotFileName_tmpFileName] at hname
      cases hname
    · obtain ⟨heq, hs⟩ := ih hf hname hacc
      exact ⟨heq, List.mem_cons_of_mem _ hs⟩
  | leftover h name data ih =>
    rcases SnapshotDir.mem_put hf with rfl | hf
    · rw [isSnapshotFileName_tmpFileName] at hname
      cases hname
    · exact ih hf hname hacc
  | damage h hg hdata ih =>
    rcases SnapshotDir.mem_put hf with rfl | hf
    · rw [hdata] at hacc
      cases hacc
    · exact ih hf hname hacc

/-- **The greatest record count is loaded exactly when** no intact snapshot has a count above the
first digits of the greatest one, as many of them as its own name has. -/
theorem loadLatest_greatest_iff (hbin : bincode.RoundTrip) (h : Saved crc bincode saved dir) :
    LoadsGreatest crc bincode saved dir ↔
      ∀ a m, Intact crc bincode saved dir a → Greatest crc bincode saved dir m →
        a.walRecordCount.toNat ≤ m.walRecordCount.toNat /
          10 ^ (width 10 m.walRecordCount.toNat - width 10 a.walRecordCount.toNat) := by
  have hcases := loadLatest_cases crc bincode (dir.getD .empty)
  rw [loadLatest_getD] at hcases
  constructor
  · intro hload a m ha hm
    rw [← snapshotFileName_le_iff (UInt64.le_iff_toNat_le.1 (hm.greatest a ha))]
    obtain ⟨-, data, hfile, hacc⟩ := ha
    have hname := isSnapshotFileName_snapshotFileName a.walRecordCount.toNat
    have hne : accepted crc bincode data ≠ none := by simp [hacc]
    rcases hcases with ⟨hnone, -⟩ | ⟨f, s, hsome, hnew⟩
    · rw [hload.of_greatest m hm] at hnone
      cases hnone
    · obtain rfl : m = s := Option.some.inj ((hload.of_greatest m hm).symm.trans hsome)
      obtain ⟨hname', -⟩ := h.intact hbin hnew.mem hnew.name hnew.accepted
      rw [← hname']
      exact hnew.newest _ hfile hname hne
  · intro hcond
    constructor
    · intro m hm
      obtain ⟨-, data, hfile, hacc⟩ := hm.intact
      have hname := isSnapshotFileName_snapshotFileName m.walRecordCount.toNat
      have hne : accepted crc bincode data ≠ none := by simp [hacc]
      rcases hcases with ⟨-, hall⟩ | ⟨f, s, hsome, hnew⟩
      · exact absurd (hall _ hfile hname) hne
      · obtain ⟨hname', hs⟩ := h.intact hbin hnew.mem hnew.name hnew.accepted
        have hintact : Intact crc bincode saved dir s := ⟨hs, f.2, hname' ▸ hnew.mem, hnew.accepted⟩
        have hle := (snapshotFileName_le_iff (UInt64.le_iff_toNat_le.1 (hm.greatest s hintact))).2
          (hcond s m hintact hm)
        have hge := hnew.newest _ hfile hname hne
        -- the two files have the same name, so they are one file
        have hfeq : f = (snapshotFileName m.walRecordCount.toNat, data) :=
          List.inj_on_of_nodup_map (dir.getD .empty).distinct hnew.mem hfile
            (le_antisymm (hname' ▸ hle) hge)
        rw [hsome, ← hnew.accepted, hfeq, hacc]
    · intro hnone
      rcases hcases with ⟨hload, -⟩ | ⟨f, s, -, hnew⟩
      · exact hload
      · obtain ⟨hname, hs⟩ := h.intact hbin hnew.mem hnew.name hnew.accepted
        exact absurd ⟨hs, f.2, hname ▸ hnew.mem, hnew.accepted⟩ (hnone s)

theorem saved_two {s t : Snapshot} (hs : s.orders.length < 2 ^ 64) (ht : t.orders.length < 2 ^ 64)
    (hne : t.walRecordCount ≠ s.walRecordCount) :
    Saved crc bincode [s, t] (save bincode .ok s (save bincode .ok t none).1).1 := by
  refine (Saved.start.save ht (by simp)).save hs ?_
  intro u hu
  rwa [List.mem_singleton.1 hu]

/-- Counts of different lengths, both below eleven digits. -/
theorem loadLatest_greatest_iff_ten :
    ∃ s t dir, s.walRecordCount = 10 ∧ t.walRecordCount = 9 ∧ Saved crc32 .fixint [s, t] dir ∧
      LoadsGreatest crc32 .fixint [s, t] dir := by
  let s := capture crc32 .fixint (.withCapacity 4) 10
  let t := capture crc32 .fixint (.withCapacity 4) 9
  have hsaved : Saved crc32 .fixint [s, t] _ :=
    saved_two (by decide +kernel) (by decide +kernel) (by decide)
  refine ⟨s, t, _, rfl, rfl, hsaved, ?_⟩
  refine (loadLatest_greatest_iff Bincode.roundTrip_fixint hsaved).2 ?_
  intro a m ha hm
  have hle := hm.greatest a ha
  have hcount : ∀ x ∈ [s, t], x.walRecordCount = 10 ∨ x.walRecordCount = 9 := by
    intro x hx
    simp only [List.mem_cons, List.not_mem_nil, or_false] at hx
    rcases hx with rfl | rfl
    · exact Or.inl rfl
    · exact Or.inr rfl
  rcases hcount a ha.1 with h | h <;> rcases hcount m hm.intact.1 with h' | h' <;>
    rw [h, h'] at hle ⊢ <;> revert hle <;> decide +kernel

/-- The count of eleven digits is greater, and its name comes first. -/
theorem not_loadLatest_greatest :
    ∃ s t dir, s.walRecordCount = 10000000000 ∧ t.walRecordCount = 9999999999 ∧
      Saved crc32 .fixint [s, t] dir ∧ Greatest crc32 .fixint [s, t] dir s ∧
      dir.bind (loadLatest crc32 .fixint) = some t ∧
      ¬ LoadsGreatest crc32 .fixint [s, t] dir := by
  let s := capture crc32 .fixint (.withCapacity 4) 10000000000
  let t := capture crc32 .fixint (.withCapacity 4) 9999999999
  let dir := (save .fixint .ok s (save .fixint .ok t none).1).1
  have hsaved : Saved crc32 .fixint [s, t] dir :=
    saved_two (by decide +kernel) (by decide +kernel) (by decide)
  have hload : dir.bind (loadLatest crc32 .fixint) = some t := by decide +kernel
  have hgreatest : Greatest crc32 .fixint [s, t] dir s := by
    refine ⟨⟨List.mem_cons_self, Bincode.fixint.serialize s, List.mem_cons_self, ?_⟩, ?_⟩
    · exact accepted_serialize Bincode.roundTrip_fixint (by decide +kernel)
        (verifyChecksum_capture _ _ _ _)
    · intro x hx
      obtain ⟨hx, -⟩ := hx
      simp only [List.mem_cons, List.not_mem_nil, or_false] at hx
      rcases hx with rfl | rfl
      · exact UInt64.le_refl _
      · decide
  refine ⟨s, t, dir, rfl, rfl, hsaved, hgreatest, hload, ?_⟩
  intro h
  have hst : s = t := Option.some.inj ((h.of_greatest s hgreatest).symm.trans hload)
  exact absurd (congrArg Snapshot.walRecordCount hst) (by decide)

end Snapshot

end Ferrox
