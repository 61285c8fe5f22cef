import Ferrox.Snapshot
import Ferrox.MatchingProof

/-!
# Which snapshot is loaded

`load_latest` returns the snapshot of the newest file it accepts (`loadLatest_cases`). A save adds
such a file, or only leaves a temporary one behind, so afterwards the snapshot loaded is the saved
one or still the same (`loadLatest_save`). A captured book can be restored (`restore_capture`).
-/

namespace Ferrox

theorem isSnapshotFileName_snapshotFileName (n : Nat) :
    isSnapshotFileName (snapshotFileName n) = true := by
  unfold isSnapshotFileName snapshotFileName
  simp only [Bool.and_eq_true, List.isPrefixOf_iff_prefix, List.isSuffixOf_iff_suffix]
  refine ⟨?_, List.suffix_append _ _⟩
  simp only [List.append_assoc]
  exact List.prefix_append _ _

theorem isSnapshotFileName_tmpFileName (name : FileName) :
    isSnapshotFileName (tmpFileName name) = false := by
  have hlast : ¬ ".bin".toList <:+ name ++ ".tmp".toList := by
    intro h
    have := List.suffix_of_suffix_length_le h (List.suffix_append name ".tmp".toList) (by decide)
    revert this
    decide
  unfold isSnapshotFileName tmpFileName
  rw [Bool.and_eq_false_iff]
  right
  rw [Bool.eq_false_iff]
  intro h
  exact hlast (List.isSuffixOf_iff_suffix.1 h)

namespace SnapshotDir

variable {d : SnapshotDir} {name : FileName} {data : List UInt8} {f : SnapshotFile}

theorem mem_remove (h : f ∈ (d.remove name).files) : f ∈ d.files := List.mem_of_mem_filter h

theorem mem_put (h : f ∈ (d.put name data).files) : f = (name, data) ∨ f ∈ d.files := by
  rcases List.mem_cons.1 h with h | h
  · exact Or.inl h
  · exact Or.inr (mem_remove h)

end SnapshotDir

namespace Snapshot

variable {crc : List UInt8 → UInt32} {bincode : Bincode}

/-! ## Loading -/

/-- What `load_latest` makes of the contents of a file. -/
def accepted (crc : List UInt8 → UInt32) (bincode : Bincode) (data : List UInt8) :
    Option Snapshot :=
  (bincode.deserialize data).filter (verifyChecksum crc bincode)

theorem loadFirst_cons (f : SnapshotFile) (files : List SnapshotFile) :
    loadFirst crc bincode (f :: files) =
      (accepted crc bincode f.2).or (loadFirst crc bincode files) := by
  obtain ⟨name, data⟩ := f
  rw [loadFirst, accepted]
  cases bincode.deserialize data with
  | none => rfl
  | some snap =>
    cases h : verifyChecksum crc bincode snap with
    | false => simp [Option.filter, h]
    | true => simp [Option.filter, h]

/-- The file is accepted as `s`, and no newer one is accepted. -/
structure Newest (crc : List UInt8 → UInt32) (bincode : Bincode) (files : List SnapshotFile)
    (f : SnapshotFile) (s : Snapshot) : Prop where
  mem : f ∈ files
  name : isSnapshotFileName f.1
  accepted : accepted crc bincode f.2 = some s
  newest : ∀ g ∈ files, isSnapshotFileName g.1 → Snapshot.accepted crc bincode g.2 ≠ none →
    g.1 ≤ f.1

theorem loadFirst_cases {files : List SnapshotFile} (hname : ∀ f ∈ files, isSnapshotFileName f.1)
    (hsorted : files.Pairwise fun f g => g.1 ≤ f.1) :
    (loadFirst crc bincode files = none ∧ ∀ f ∈ files, accepted crc bincode f.2 = none) ∨
      ∃ f s, loadFirst crc bincode files = some s ∧ Newest crc bincode files f s := by
  induction files with
  | nil => exact Or.inl ⟨rfl, nofun⟩
  | cons f files ih =>
    obtain ⟨hle, hsorted⟩ := List.pairwise_cons.1 hsorted
    rw [loadFirst_cons]
    cases hf : accepted crc bincode f.2 with
    | some s =>
      refine Or.inr ⟨f, s, rfl, List.mem_cons_self, hname f List.mem_cons_self, hf, ?_⟩
      intro g hg _ _
      rcases List.mem_cons.1 hg with rfl | hg
      · exact le_refl _
      · exact hle g hg
    | none =>
      rcases ih (fun g hg => hname g (List.mem_cons_of_mem _ hg)) hsorted with
        ⟨hnone, hall⟩ | ⟨g, s, hsome, hnew⟩
      · refine Or.inl ⟨hnone, ?_⟩
        intro g hg
        rcases List.mem_cons.1 hg with rfl | hg
        · exact hf
        · exact hall g hg
      · refine Or.inr ⟨g, s, hsome, List.mem_cons_of_mem _ hnew.mem, hnew.name, hnew.accepted, ?_⟩
        intro x hx hname hacc
        rcases List.mem_cons.1 hx with rfl | hx
        · exact absurd hf hacc
        · exact hnew.newest x hx hname hacc

/-- **`load_latest` returns the newest acceptable snapshot.** -/
theorem loadLatest_cases (crc : List UInt8 → UInt32) (bincode : Bincode) (d : SnapshotDir) :
    (loadLatest crc bincode d = none ∧
        ∀ f ∈ d.files, isSnapshotFileName f.1 → accepted crc bincode f.2 = none) ∨
      ∃ f s, loadLatest crc bincode d = some s ∧ Newest crc bincode d.files f s := by
  unfold loadLatest
  simp only
  generalize hl : (d.files.filter fun f => isSnapshotFileName f.1).insertionSort
    (fun f g => f.1 ≤ g.1) = l
  have hperm : l.Perm (d.files.filter fun f => isSnapshotFileName f.1) :=
    hl ▸ List.perm_insertionSort _ _
  have hmem : ∀ f, f ∈ l.reverse ↔ f ∈ d.files ∧ isSnapshotFileName f.1 = true := by
    intro f
    rw [List.mem_reverse, hperm.mem_iff, List.mem_filter]
  have hsorted : l.reverse.Pairwise fun f g => g.1 ≤ f.1 := by
    rw [List.pairwise_reverse, ← hl]
    have : Std.Total fun f g : SnapshotFile => f.1 ≤ g.1 := ⟨fun f g => le_total f.1 g.1⟩
    have : IsTrans SnapshotFile fun f g => f.1 ≤ g.1 := ⟨fun _ _ _ => le_trans⟩
    exact List.pairwise_insertionSort _ _
  rcases loadFirst_cases (fun f hf => ((hmem f).1 hf).2) hsorted with
    ⟨hnone, hall⟩ | ⟨f, s, hsome, hnew⟩
  · exact Or.inl ⟨hnone, fun f hf hname => hall f ((hmem f).2 ⟨hf, hname⟩)⟩
  · exact Or.inr ⟨f, s, hsome, ((hmem f).1 hnew.mem).1, hnew.name, hnew.accepted,
      fun g hg hname => hnew.newest g ((hmem g).2 ⟨hg, hname⟩) hname⟩

theorem loadLatest_remove_unread (d : SnapshotDir) {name : FileName}
    (h : isSnapshotFileName name = false) :
    loadLatest crc bincode (d.remove name) = loadLatest crc bincode d := by
  have hfiles : (d.remove name).files.filter (fun f => isSnapshotFileName f.1) =
      d.files.filter fun f => isSnapshotFileName f.1 := by
    show (d.files.filter _).filter _ = _
    rw [List.filter_filter]
    apply List.filter_congr
    intro f _
    by_cases hf : f.1 = name
    · rw [hf, h, Bool.false_and]
    · simp [hf]
  unfold loadLatest
  rw [hfiles]

theorem loadLatest_put_unread (d : SnapshotDir) {name : FileName} (data : List UInt8)
    (h : isSnapshotFileName name = false) :
    loadLatest crc bincode (d.put name data) = loadLatest crc bincode d := by
  have hfiles : (d.put name data).files.filter (fun f => isSnapshotFileName f.1) =
      (d.remove name).files.filter fun f => isSnapshotFileName f.1 :=
    List.filter_cons_of_neg (by simp [h])
  rw [← loadLatest_remove_unread d h]
  unfold loadLatest
  rw [hfiles]

/-- A new acceptable file is the one that is loaded, or an even newer one still is. -/
theorem loadLatest_put (d : SnapshotDir) {name : FileName} {data : List UInt8} {s : Snapshot}
    (hname : isSnapshotFileName name) (hacc : accepted crc bincode data = some s) :
    loadLatest crc bincode (d.put name data) = some s ∨
      loadLatest crc bincode (d.put name data) = loadLatest crc bincode d := by
  have hput : (name, data) ∈ (d.put name data).files := List.mem_cons_self
  have hkeep : ∀ g ∈ d.files, g.1 ≠ name → g ∈ (d.put name data).files := by
    intro g hg hne
    exact List.mem_cons_of_mem _ (List.mem_filter.2 ⟨hg, by simpa using hne⟩)
  rcases loadLatest_cases crc bincode (d.put name data) with ⟨-, hall⟩ | ⟨f, s', hload, hnew⟩
  · have := hall _ hput hname
    rw [hacc] at this
    cases this
  rcases List.mem_cons.1 hnew.mem with rfl | hf
  · left
    rw [hload, ← hacc, hnew.accepted]
  · right
    obtain ⟨hf, hne⟩ := List.mem_filter.1 hf
    have hne : f.1 ≠ name := by simpa using hne
    have haccf : accepted crc bincode f.2 ≠ none := by
      rw [hnew.accepted]
      nofun
    rcases loadLatest_cases crc bincode d with ⟨-, hall⟩ | ⟨g, s'', hload', hnew'⟩
    · exact absurd (hall f hf hnew.name) haccf
    have haccg : accepted crc bincode g.2 ≠ none := by
      rw [hnew'.accepted]
      nofun
    have hfg : f.1 ≤ g.1 := hnew'.newest f hf hnew.name haccf
    have hgf : g.1 ≤ f.1 := by
      by_cases hg : g.1 = name
      · rw [hg]
        exact hnew.newest _ hput hname (by rw [hacc]; nofun)
      · exact hnew.newest g (hkeep g hnew'.mem hg) hnew'.name haccg
    have heq : f = g :=
      List.inj_on_of_nodup_map d.distinct hf hnew'.mem (le_antisymm hfg hgf)
    rw [hload, hload', ← hnew.accepted, ← hnew'.accepted, heq]

/-! ## Saving -/

theorem accepted_serialize (hbin : bincode.RoundTrip) {s : Snapshot}
    (hlen : s.orders.length < 2 ^ 64) (hver : verifyChecksum crc bincode s = true) :
    accepted crc bincode (bincode.serialize s) = some s := by
  rw [accepted, hbin s hlen]
  simp [Option.filter, hver]

theorem verifyChecksum_capture (crc : List UInt8 → UInt32) (bincode : Bincode)
    (e : MatchingEngine) (n : UInt64) :
    verifyChecksum crc bincode (capture crc bincode e n) = true := by
  simp [verifyChecksum, capture]

/-- The files of a directory, if there is one. -/
def filesOf (dir : Option SnapshotDir) : List SnapshotFile := (dir.getD .empty).files

theorem loadLatest_getD (dir : Option SnapshotDir) :
    loadLatest crc bincode (dir.getD .empty) = dir.bind (loadLatest crc bincode) := by
  cases dir with
  | none => rfl
  | some d => rfl

/-- **A save, finished or not**, leaves the files it found, or temporary ones, or the snapshot. -/
theorem mem_save {s : Snapshot} {io : SaveIo} {dir : Option SnapshotDir} {f : SnapshotFile}
    (h : f ∈ filesOf (save bincode io s dir).1) :
    f ∈ filesOf dir ∨ isSnapshotFileName f.1 = false ∨ f.2 = bincode.serialize s := by
  have htmp := isSnapshotFileName_tmpFileName (snapshotFileName s.walRecordCount.toNat)
  cases io with
  | createDirFails => exact Or.inl h
  | writeFails written =>
    rcases SnapshotDir.mem_put h with rfl | h
    · exact Or.inr (Or.inl htmp)
    · exact Or.inl h
  | renameFails =>
    rcases SnapshotDir.mem_put h with rfl | h
    · exact Or.inr (Or.inl htmp)
    · exact Or.inl h
  | ok =>
    rcases SnapshotDir.mem_put h with rfl | h
    · exact Or.inr (Or.inr rfl)
    · rcases SnapshotDir.mem_put (SnapshotDir.mem_remove h) with rfl | h
      · exact Or.inr (Or.inl htmp)
      · exact Or.inl h

/-- **After a save, finished or not**, the snapshot that is loaded is the saved one or the one that
was loaded before. -/
theorem loadLatest_save (hbin : bincode.RoundTrip) {s : Snapshot}
    (hlen : s.orders.length < 2 ^ 64) (hver : verifyChecksum crc bincode s = true) (io : SaveIo)
    (dir : Option SnapshotDir) :
    (save bincode io s dir).1.bind (loadLatest crc bincode) = some s ∨
      (save bincode io s dir).1.bind (loadLatest crc bincode) =
        dir.bind (loadLatest crc bincode) := by
  have hname := isSnapshotFileName_snapshotFileName s.walRecordCount.toNat
  have htmp := isSnapshotFileName_tmpFileName (snapshotFileName s.walRecordCount.toNat)
  unfold save
  simp only
  rw [← loadLatest_getD dir]
  generalize tmpFileName (snapshotFileName s.walRecordCount.toNat) = tmp at htmp
  generalize snapshotFileName s.walRecordCount.toNat = name at hname
  cases io with
  | createDirFails => exact Or.inr (loadLatest_getD dir).symm
  | writeFails written => exact Or.inr (loadLatest_put_unread _ _ htmp)
  | renameFails => exact Or.inr (loadLatest_put_unread _ _ htmp)
  | ok =>
    have := loadLatest_put (((dir.getD .empty).put tmp (bincode.serialize s)).remove tmp) hname
      (accepted_serialize hbin hlen hver)
    rw [loadLatest_remove_unread _ htmp, loadLatest_put_unread _ _ htmp] at this
    exact this

theorem loadLatest_save_fresh (hbin : bincode.RoundTrip) {s : Snapshot}
    (hlen : s.orders.length < 2 ^ 64) (hver : verifyChecksum crc bincode s = true) :
    (save bincode .ok s none).1.bind (loadLatest crc bincode) = some s := by
  rcases loadLatest_save hbin hlen hver .ok none with h | h
  · exact h
  · have hname := isSnapshotFileName_snapshotFileName s.walRecordCount.toNat
    unfold save at h ⊢
    simp only [Option.bind_some, Option.bind_none] at h ⊢
    generalize snapshotFileName s.walRecordCount.toNat = name at *
    rcases loadLatest_cases crc bincode ((((Option.getD none SnapshotDir.empty).put
        (tmpFileName name) (bincode.serialize s)).remove (tmpFileName name)).put name
          (bincode.serialize s)) with ⟨-, hall⟩ | ⟨f, s', hload, -⟩
    · have := hall (name, bincode.serialize s) List.mem_cons_self hname
      rw [accepted_serialize hbin hlen hver] at this
      cases this
    · rw [h] at hload
      cases hload

/-! ## Restoring -/

/-- **A captured book can be restored**, and is the same book. -/
theorem restore_capture (crc : List UInt8 → UInt32) (bincode : Bincode) {e : MatchingEngine}
    (h : e.book.WF) {c : UInt32} (hc : e.book.toBook.capacity = c.toNat) (n : UInt64) :
    ∃ e', (capture crc bincode e n).restore c = .ok e' ∧ e'.book.WF ∧
      e'.book.toBook = e.book.toBook := by
  have hroom : e.book.allRestingOrders.length ≤ c.toNat := hc ▸ h.wf_toBook.room
  obtain ⟨e', hrestore, hwf, hbook⟩ :=
    MatchingEngine.restoreFromOrders_allRestingOrders h hroom
  refine ⟨e', ?_, hwf, ?_⟩
  · unfold restore
    rw [show (capture crc bincode e n).orders = e.book.allRestingOrders from rfl, hrestore]
  · rw [hbook, ← hc]

theorem restore_ok {s : Snapshot} {c : UInt32} {e : MatchingEngine} (h : s.restore c = .ok e) :
    e.book.WF ∧ e.book.toBook.capacity = c.toNat ∧ e.book.allRestingOrders.Perm s.orders := by
  unfold restore at h
  cases hr : MatchingEngine.restoreFromOrders s.orders c with
  | error err => simp only [hr, reduceCtorEq] at h
  | ok e' =>
    rw [hr] at h
    obtain rfl := Except.ok.inj h
    obtain ⟨hwf, hbook⟩ := (MatchingEngine.restoreFromOrders_sim s.orders c).2 e' hr
    obtain ⟨hcap, hperm⟩ := Book.insertAll_ok hbook
    rw [show (Book.empty c.toNat).orders = [] from rfl, List.append_nil] at hperm
    exact ⟨hwf, hcap, hperm⟩

theorem length_capture_orders (crc : List UInt8 → UInt32) (bincode : Bincode)
    {e : MatchingEngine} (h : e.book.WF) {c : UInt32} (hc : e.book.toBook.capacity = c.toNat)
    (n : UInt64) :
    (capture crc bincode e n).orders.length < 2 ^ 64 := by
  have hroom : e.book.allRestingOrders.length ≤ c.toNat := hc ▸ h.wf_toBook.room
  have := c.toNat_lt
  show e.book.allRestingOrders.length < 2 ^ 64
  omega

end Snapshot

end Ferrox
