import Ferrox.RecoveryProof
import Ferrox.Uncrossed
import Ferrox.Bincode

/-!
# Snapshots that recovery cannot use

`recover` accepts a snapshot in three places. A file that does not load, or fails its checksum, is
passed over in favour of an older one; a snapshot that is then not restored is not, and the recovery
fails. Nor does anything look at what the orders of a snapshot are: with quantities of zero or prices
that cross, they are restored as they are.

`PassesOver` is what a recovery would have to do. It holds exactly when the newest snapshot that
passes its checksum is of a book that fits (`passesOver_iff`).
-/

namespace Ferrox

open Bytes Framing

/-! ## Books without flaws -/

/-- Orders with distinct ids and positive quantities, of which no bid meets an ask. -/
structure Consistent (os : List Order) : Prop where
  ids : (os.map (·.id)).Nodup
  positive : ∀ x ∈ os, x.quantity ≠ 0
  uncrossed : ∀ b ∈ os, ∀ a ∈ os, b.side = .bid → a.side = .ask → b.price < a.price

theorem Consistent.perm {os os' : List Order} (h : Consistent os) (hperm : os'.Perm os) :
    Consistent os' where
  ids := (hperm.map _).nodup_iff.2 h.ids
  positive := fun x hx => h.positive x (hperm.mem_iff.1 hx)
  uncrossed := fun b hb a ha => h.uncrossed b (hperm.mem_iff.1 hb) a (hperm.mem_iff.1 ha)

theorem Book.consistent_iff {B : Book} (h : B.WF) :
    Consistent B.orders ↔ B.Positive ∧ B.Uncrossed := by
  have hmem : ∀ {x : Order} {s : Side}, x ∈ B.orders ∧ x.side = s ↔ x ∈ B.side s := by
    intro x s
    rw [← filter_orders h s, List.mem_filter, decide_eq_true_iff]
  constructor
  · intro hc
    refine ⟨hc.positive, ?_⟩
    intro b hb a ha
    obtain ⟨hb, hbs⟩ := hmem.2 hb
    obtain ⟨ha, has⟩ := hmem.2 ha
    exact hc.uncrossed b hb a ha hbs has
  · intro ⟨hpos, hun⟩
    refine ⟨h.nodup, hpos, ?_⟩
    intro b hb a ha hbs has
    exact hun b (hmem.1 ⟨hb, hbs⟩) a (hmem.1 ⟨ha, has⟩)

namespace MatchingEngine

variable {e : MatchingEngine}

theorem consistent_applyCommand (hwf : e.book.WF) (h : Consistent e.book.allRestingOrders)
    (cmd : EngineCommand) : Consistent (e.applyCommand cmd).book.allRestingOrders := by
  obtain ⟨hwf', hbook⟩ := applyCommand_sim hwf cmd
  obtain ⟨hpos, hun⟩ := (Book.consistent_iff hwf.wf_toBook).1 h
  refine (Book.consistent_iff hwf'.wf_toBook).2 ?_
  rw [hbook]
  cases cmd with
  | newOrder o => exact ⟨Book.positive_add hpos o, Book.uncrossed_add hwf.wf_toBook hun o⟩
  | cancelOrder id => exact ⟨Book.positive_cancel hpos id, Book.uncrossed_cancel hun id⟩

theorem consistent_applyAll (hwf : e.book.WF) (h : Consistent e.book.allRestingOrders)
    (cmds : List EngineCommand) : Consistent (e.applyAll cmds).book.allRestingOrders := by
  induction cmds generalizing e with
  | nil => exact h
  | cons cmd cmds ih => exact ih (applyCommand_sim hwf cmd).1 (consistent_applyCommand hwf h cmd)

end MatchingEngine

namespace Snapshot

variable {crc : List UInt8 → UInt32} {bincode : Bincode} {s : Snapshot} {c : UInt32}
  {e : MatchingEngine}

/-- The orders of a snapshot are those of a book without flaws, and the arena has room for them. -/
structure Fits (s : Snapshot) (c : UInt32) : Prop where
  consistent : Consistent s.orders
  room : s.orders.length ≤ c.toNat

theorem Fits.restore (h : s.Fits c) : ∃ e, s.restore c = .ok e := by
  have hins : Book.insertAll s.orders (Book.empty c.toNat) =
      .ok (Book.enqueueAll s.orders (Book.empty c.toNat)) := by
    have hempty : (Book.empty c.toNat).orders = [] := rfl
    apply Book.insertAll_eq
    · rw [hempty, List.append_nil]
      exact h.consistent.ids
    · rw [hempty]
      exact h.room
  unfold Snapshot.restore
  cases hr : MatchingEngine.restoreFromOrders s.orders c with
  | ok e => exact ⟨e, rfl⟩
  | error err =>
    obtain ⟨err', -, herr⟩ := (MatchingEngine.restoreFromOrders_sim s.orders c).1 err hr
    rw [hins] at herr
    cases herr

/-- A snapshot fits if it is restored as a book without flaws. -/
theorem fits_iff_of_restore (h : s.restore c = .ok e) :
    s.Fits c ↔ Consistent e.book.allRestingOrders := by
  obtain ⟨hwf, hcap, hperm⟩ := restore_ok h
  constructor
  · intro hfits
    exact hfits.consistent.perm hperm
  · intro hcons
    refine ⟨hcons.perm hperm.symm, ?_⟩
    rw [← hperm.length_eq, ← hcap]
    exact hwf.wf_toBook.room

/-! ## Passing over what cannot be used -/

/-- The snapshot files of a directory, in the order in which `load_latest` tries them. -/
def newestFirst (dir : SnapshotDir) : List SnapshotFile :=
  ((dir.files.filter fun f => isSnapshotFileName f.1).insertionSort fun f g => f.1 ≤ g.1).reverse

theorem loadLatest_eq_findSome (dir : SnapshotDir) :
    loadLatest crc bincode dir = (newestFirst dir).findSome? fun f => accepted crc bincode f.2 := by
  show loadFirst crc bincode (newestFirst dir) = _
  induction newestFirst dir with
  | nil => rfl
  | cons f files ih =>
    rw [loadFirst_cons, List.findSome?_cons, ih]
    cases accepted crc bincode f.2 with
    | none => rfl
    | some snap => rfl

theorem loadLatest_single {name : FileName} (hname : isSnapshotFileName name = true)
    {data : List UInt8} (hacc : accepted crc bincode data = some s) {dir : SnapshotDir}
    (hdir : dir.files = [(name, data)]) : loadLatest crc bincode dir = some s := by
  have hfiles : newestFirst dir = [(name, data)] := by
    unfold newestFirst
    rw [hdir, List.filter_singleton, hname]
    rfl
  rw [loadLatest_eq_findSome, hfiles, List.findSome?_cons]
  simp only [hacc]

theorem verifyChecksum_mk (n : UInt64) (orders : List Order) (bestBid bestAsk : Option Int64) :
    verifyChecksum crc bincode
      ⟨n, orders, bestBid, bestAsk, computeChecksum crc bincode n bestBid bestAsk orders⟩ = true := by
  simp [verifyChecksum]

end Snapshot

namespace Recovery

variable {crc : List UInt8 → UInt32} {bincode : Bincode} {snapshots : Option SnapshotDir}
  {c : UInt32}

/-- What a file gives a recovery to start from, if it loads, passes its checksum and is restored. -/
def usable (crc : List UInt8 → UInt32) (bincode : Bincode) (c : UInt32) (f : SnapshotFile) :
    Option (MatchingEngine × Nat) :=
  (Snapshot.accepted crc bincode f.2).bind fun snap =>
    match snap.restore c with
    | .ok engine => some (engine, snap.walRecordCount.toNat)
    | .error _ => none

/-- The starting point of a recovery that passes over every snapshot it cannot use: the newest one
that it can, or a fresh engine and the whole log. -/
def passingOver (crc : List UInt8 → UInt32) (bincode : Bincode) (snapshots : Option SnapshotDir)
    (c : UInt32) : MatchingEngine × Nat :=
  ((Snapshot.newestFirst (snapshots.getD .empty)).findSome? (usable crc bincode c)).getD
    (MatchingEngine.withCapacity c, 0)

/-- What came of a recovery that no snapshot stops. It returns, and not with an error of a snapshot;
the engine is that of a replay from the newest snapshot it can use, without flaws. It may still
refuse the log, but not one of commands that the gateway passes on. -/
structure Unstopped (crc : List UInt8 → UInt32) (bincode : Bincode)
    (snapshots : Option SnapshotDir) (c : UInt32) (cmds : List EngineCommand)
    (result : Option (Except RecoveryError (MatchingEngine × Wal))) : Prop where
  returns : result ≠ none
  not_snapshot : ∀ err, result ≠ some (.error (.snapshot err))
  engine : ∀ e w, result = some (.ok (e, w)) → Consistent e.book.allRestingOrders ∧
    ∃ replayed, decodeRecords ((cmds.map Wal.recordOf).drop (passingOver crc bincode snapshots c).2) =
        .ok replayed ∧
      e = (passingOver crc bincode snapshots c).1.applyAll replayed
  succeeds : (∀ cmd ∈ cmds, cmd.Tradable) → ∃ e w, result = some (.ok (e, w))

/-- **No snapshot stops recovery**, whatever commands the log was written with. -/
def PassesOver (crc : List UInt8 → UInt32) (bincode : Bincode) (snapshots : Option SnapshotDir)
    (c : UInt32) : Prop :=
  ∀ (size₀ : Nat) (w₀ w : Wal) (cmds : List EngineCommand) (size : Option Nat),
    Wal.openWithSize crc none [] size₀ = (w₀.file, .ok w₀) → Wal.appendAll crc w₀ cmds = some w →
    walSize size < 2 ^ 63 →
    Unstopped crc bincode snapshots c cmds
      (recoverWithWalSize crc bincode .ok ⟨some w.file, snapshots⟩ c size).2

theorem findSome_bind {α β γ : Type} {f : α → Option β} {g : β → Option γ} {l : List α} {y : β}
    {z : γ} (h : l.findSome? f = some y) (hg : g y = some z) :
    l.findSome? (fun x => (f x).bind g) = some z := by
  obtain ⟨l₁, a, l₂, rfl, ha, hnone⟩ := List.findSome?_eq_some_iff.1 h
  refine List.findSome?_eq_some_iff.2 ⟨l₁, a, l₂, rfl, ?_, ?_⟩
  · rw [ha]
    exact hg
  · intro x hx
    rw [hnone x hx]
    rfl

/-- Where `recover` starts at all, it starts where it should. -/
theorem passingOver_eq {start : MatchingEngine × Nat}
    (h : startingPoint crc bincode snapshots c = .ok start) :
    passingOver crc bincode snapshots c = start := by
  unfold startingPoint at h
  rw [← Snapshot.loadLatest_getD, Snapshot.loadLatest_eq_findSome] at h
  unfold passingOver usable
  cases hload : (Snapshot.newestFirst (snapshots.getD .empty)).findSome?
      (fun f => Snapshot.accepted crc bincode f.2) with
  | none =>
    rw [hload] at h
    have hnone : (Snapshot.newestFirst (snapshots.getD .empty)).findSome? (usable crc bincode c) =
        none := by
      refine List.findSome?_eq_none_iff.2 fun f hf => ?_
      rw [usable, List.findSome?_eq_none_iff.1 hload f hf]
      rfl
    unfold usable at hnone
    rw [hnone]
    exact Except.ok.inj h
  | some snap =>
    rw [hload] at h
    cases hrestore : snap.restore c with
    | error err => simp only [hrestore, reduceCtorEq] at h
    | ok e =>
      simp only [hrestore] at h
      rw [findSome_bind hload (by rw [hrestore])]
      exact Except.ok.inj h

theorem recover_of_error (dir : DataDir) {err : RecoveryError} {size : Option Nat}
    (h : startingPoint crc bincode dir.snapshots c = .error err) :
    recoverWithWalSize crc bincode .ok dir c size = (dir, some (.error err)) := by
  unfold recoverWithWalSize
  simp only [h]
  rfl

/-- A recovery from a book without flaws is not stopped. -/
theorem unstopped {e₀ : MatchingEngine} {n : Nat}
    (hstart : startingPoint crc bincode snapshots c = .ok (e₀, n)) (hwf : e₀.book.WF)
    (hcons : Consistent e₀.book.allRestingOrders) {w : Wal} {cmds : List EngineCommand}
    (hw : w.Holds crc (cmds.map Wal.recordOf)) {size : Option Nat} (hsize : walSize size < 2 ^ 63) :
    Unstopped crc bincode snapshots c cmds
      (recoverWithWalSize crc bincode .ok ⟨some w.file, snapshots⟩ c size).2 := by
  obtain ⟨w', hopen, hw'⟩ := Wal.holds_reopen hw hsize
  have hdir : RecoverIo.ok.createDirFails = false := rfl
  have hrec := recoverWithWalSize_eq ⟨some w.file, snapshots⟩ hdir rfl hstart hopen hw'
  rw [hrec]
  refine ⟨Option.some_ne_none _, ?_, ?_, ?_⟩
  · intro err h
    unfold replayed at h
    cases hdecode : decodeRecords ((cmds.map Wal.recordOf).drop n) with
    | error e => simp [hdecode] at h
    | ok replayed => simp [hdecode] at h
  · intro e w'' h
    rw [passingOver_eq hstart]
    unfold replayed at h
    cases hdecode : decodeRecords ((cmds.map Wal.recordOf).drop n) with
    | error e => simp [hdecode] at h
    | ok replayed =>
      simp only [hdecode, Option.some.injEq, Except.ok.injEq, Prod.mk.injEq] at h
      obtain ⟨rfl, -⟩ := h
      exact ⟨MatchingEngine.consistent_applyAll hwf hcons replayed, replayed, rfl, rfl⟩
  · intro hcmds
    have hdecode := decodeRecords_recordOf fun cmd hcmd =>
      hcmds cmd (List.mem_of_mem_drop (i := n) hcmd)
    rw [List.map_drop] at hdecode
    rw [replayed, hdecode]
    exact ⟨_, _, rfl⟩

/-- **No snapshot stops recovery exactly when** the newest one that passes its checksum, if there is
one, is of a book without flaws that the arena has room for. -/
theorem passesOver_iff (crc : List UInt8 → UInt32) (bincode : Bincode)
    (snapshots : Option SnapshotDir) (c : UInt32) :
    PassesOver crc bincode snapshots c ↔
      ∀ snap, snapshots.bind (Snapshot.loadLatest crc bincode) = some snap → snap.Fits c := by
  constructor
  · intro h snap hload
    -- an empty log is enough
    have hlimit : max (logBytes crc ([].map Wal.recordOf)).length 64 < 2 ^ 63 := by
      simp [logBytes]
    obtain ⟨w, hopen, hw, -, -⟩ := Wal.openWithSize_recordOf crc [] hlimit
    have hun := h 64 w w [] (some 64) hopen rfl (by decide)
    cases hrestore : snap.restore c with
    | error err =>
      have hstart : startingPoint crc bincode snapshots c = .error (.snapshot err) := by
        rw [startingPoint_some _ hload, hrestore]
      rw [recover_of_error ⟨some w.file, snapshots⟩ hstart] at hun
      exact absurd rfl (hun.not_snapshot err)
    | ok e₀ =>
      have hstart := startingPoint_restored hload hrestore
      obtain ⟨w', hopen', hw'⟩ := Wal.holds_reopen hw (by decide : walSize (some 64) < 2 ^ 63)
      rw [recover_recordOf ⟨some w.file, snapshots⟩ hstart (by simp) hw' hopen', List.drop_nil] at hun
      rw [Snapshot.fits_iff_of_restore hrestore]
      exact (hun.engine _ _ rfl).1
  · intro hfits size₀ w₀ w cmds size hopen happ hsize
    have hw := Wal.appendAll_spec (Wal.holds_fresh hopen) happ
    cases hload : snapshots.bind (Snapshot.loadLatest crc bincode) with
    | none =>
      obtain ⟨hwf, hbook⟩ := MatchingEngine.withCapacity_sim c
      have hstart := startingPoint_none c hload
      have hempty : (MatchingEngine.withCapacity c).book.allRestingOrders = [] := by
        rw [← OrderBook.orders_toBook, hbook]
        rfl
      refine unstopped hstart hwf ?_ hw hsize
      rw [hempty]
      exact ⟨List.nodup_nil, by simp, by simp⟩
    | some snap =>
      obtain ⟨e₀, hrestore⟩ := (hfits snap hload).restore
      have hstart := startingPoint_restored hload hrestore
      exact unstopped hstart (Snapshot.restore_ok hrestore).1
        ((Snapshot.fits_iff_of_restore hrestore).1 (hfits snap hload)) hw hsize

/-- **A snapshot with an id that occurs twice.** Its checksum is right, it is the only one, and the
log is empty; the recovery fails instead of starting with an empty book. -/
theorem not_passesOver_duplicate :
    ∃ snap : Snapshot, Snapshot.verifyChecksum crc32 .fixint snap = true ∧
      snap.orders.map (·.id) = [1, 1] ∧ ∃ dir : SnapshotDir,
        dir.files = [("snapshot_0000000001.bin".toList, Bincode.fixint.serialize snap)] ∧
        (recoverWithWalSize crc32 .fixint .ok ⟨none, some dir⟩ 1024 (some 65536)).2 =
          some (.error (.snapshot (.restore (.book (.duplicateOrderId 1))))) ∧
        ¬ PassesOver crc32 .fixint (some dir) 1024 := by
  let orders : List Order := [⟨1, 10, .ask, 100, 5, 7⟩, ⟨1, 10, .ask, 101, 5, 8⟩]
  obtain ⟨snap, hver, horders⟩ : ∃ snap : Snapshot,
      Snapshot.verifyChecksum crc32 .fixint snap = true ∧ snap.orders = orders :=
    ⟨⟨1, orders, none, some 100, _⟩, Snapshot.verifyChecksum_mk _ _ _ _, rfl⟩
  obtain ⟨dir, hdir⟩ : ∃ dir : SnapshotDir,
      dir.files = [("snapshot_0000000001.bin".toList, Bincode.fixint.serialize snap)] :=
    ⟨SnapshotDir.empty.put _ _, rfl⟩
  have hacc : Snapshot.accepted crc32 .fixint (Bincode.fixint.serialize snap) = some snap :=
    Snapshot.accepted_serialize Bincode.roundTrip_fixint (by rw [horders]; decide) hver
  have hload : (some dir).bind (Snapshot.loadLatest crc32 .fixint) = some snap :=
    Snapshot.loadLatest_single (by decide) hacc hdir
  have hrestore : snap.restore 1024 = .error (.restore (.book (.duplicateOrderId 1))) := by
    have hins : Book.insertAll orders (Book.empty 1024) = .error (.duplicateOrderId 1) := rfl
    obtain ⟨herr, hok⟩ := MatchingEngine.restoreFromOrders_sim orders 1024
    unfold Snapshot.restore
    rw [horders]
    cases hr : MatchingEngine.restoreFromOrders orders 1024 with
    | ok e => cases hins.symm.trans (hok e hr).2
    | error e =>
      obtain ⟨e', rfl, he'⟩ := herr e hr
      obtain rfl := Except.error.inj (hins.symm.trans he')
      rfl
  have hstart : startingPoint crc32 .fixint (some dir) 1024 =
      .error (.snapshot (.restore (.book (.duplicateOrderId 1)))) := by
    rw [startingPoint_some _ hload, hrestore]
  refine ⟨snap, hver, by rw [horders]; rfl, dir, hdir, ?_, ?_⟩
  · rw [recover_of_error ⟨none, some dir⟩ hstart]
  · intro h
    let w : Wal := ⟨List.replicate 64 0, 64, 0, 64, List.replicate 40 0, 0⟩
    have hopen : Wal.openWithSize crc32 none [] 64 = (w.file, .ok w) := by decide +kernel
    have hun := h 64 w w [] (some 64) hopen rfl (by decide)
    rw [recover_of_error ⟨some w.file, some dir⟩ hstart] at hun
    exact hun.not_snapshot _ rfl

end Recovery

end Ferrox
