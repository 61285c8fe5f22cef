import Ferrox.RecoveryProof
import Ferrox.Bincode

/-!
# Recovering, going on, and recovering again

A recovery skips as many records as its snapshot accounts for. When the log is shorter than that, the
recovery succeeds all the same, and what is logged afterwards takes the numbers the next recovery
skips. Otherwise nothing is lost (`losesNothing_of_covers`); and whenever the log is too short,
something is, unless the book has no room for any order (`covers_of_losesNothing`).
-/

namespace Ferrox

open Bytes Framing

/-! ## Books and commands that change them -/

namespace Book

variable {B : Book}

theorem length_cancel {x : Order} (hx : x ∈ B.orders) :
    (B.cancel x.id).1.orders.length < B.orders.length := by
  rcases cancel_cases B x.id with ⟨hnone, -⟩ | ⟨y, -, -, hcancel⟩
  · exact absurd rfl (hnone x hx)
  · have horders : (B.cancel x.id).1.orders = B.orders.filter (·.id ≠ x.id) := by
      rw [hcancel]
      exact (List.filter_append ..).symm
    rw [horders]
    apply lt_of_le_of_ne (List.length_filter_le _ _)
    intro heq
    have := (List.length_filter_eq_length_iff.1 heq) x hx
    simp at this

theorem length_add_empty {c : Nat} (hc : 0 < c) (o : Order) (ho : o.quantity ≠ 0) :
    ((empty c).add o).1.orders.length = 1 := by
  rw [add_empty hc ho]
  cases h : o.side <;> simp [orders, setSide, empty]

/-- In a book with room, some command changes the number of orders. -/
theorem exists_length_ne (hc : 0 < B.capacity) :
    ∃ cmd : EngineCommand, cmd.Tradable ∧ (B.apply cmd).orders.length ≠ B.orders.length := by
  cases horders : B.orders with
  | nil =>
    refine ⟨.newOrder ⟨1, 1, .bid, 1, 1, 0⟩, by decide, ?_⟩
    rw [Book.eq_empty horders]
    show ((empty B.capacity).add _).1.orders.length ≠ 0
    rw [length_add_empty hc _ (by decide)]
    decide
  | cons x l =>
    refine ⟨.cancelOrder x.id, trivial, ?_⟩
    rw [← horders]
    exact (length_cancel (horders ▸ List.mem_cons_self)).ne

end Book

namespace Recovery

variable {crc : List UInt8 → UInt32} {bincode : Bincode} {dir dir' : DataDir} {c : UInt32}
  {size : Option Nat} {io : RecoverIo} {e : MatchingEngine} {w : Wal}

/-! ## What a second recovery finds -/

/-- **The second recovery loses nothing**: whatever is logged and applied after the first one, it
succeeds with the live book and all records. -/
def LosesNothing (crc : List UInt8 → UInt32) (bincode : Bincode) (dir : DataDir) (c : UInt32)
    (e : MatchingEngine) (w : Wal) : Prop :=
  ∀ cmds : List EngineCommand, (∀ cmd ∈ cmds, cmd.Tradable) →
    ∀ w', Wal.appendAll crc w cmds = some w' → ∀ size', walSize size' < 2 ^ 63 →
      ∃ dir₂ e₂ w₂, recoverWithWalSize crc bincode .ok { dir with wal := some w'.file } c size' =
          (dir₂, some (.ok (e₂, w₂))) ∧
        e₂.SameBook (e.applyAll cmds) ∧ w₂.recordCount = w.recordCount + cmds.length

/-- **The log covers the snapshot**: the snapshot that is loaded, if any, accounts for no more
records than the log has, or the book is one that has no room for any order. -/
def Covers (crc : List UInt8 → UInt32) (bincode : Bincode) (dir : DataDir) (c : UInt32)
    (size : Option Nat) : Prop :=
  c = 0 ∨ ∀ snap, dir.snapshots.bind (Snapshot.loadLatest crc bincode) = some snap →
    snap.walRecordCount.toNat ≤
      (Wal.scanRecords crc (Wal.extend (dir.wal.getD []) (walSize size))).count

theorem startingPoint_sound {snapshots : Option SnapshotDir} {e₀ : MatchingEngine} {n : Nat}
    (h : startingPoint crc bincode snapshots c = .ok (e₀, n)) :
    e₀.book.WF ∧ e₀.book.toBook.capacity = c.toNat ∧
      n = ((snapshots.bind (Snapshot.loadLatest crc bincode)).map (·.walRecordCount.toNat)).getD 0 := by
  cases hload : snapshots.bind (Snapshot.loadLatest crc bincode) with
  | none =>
    rw [startingPoint_none c hload] at h
    obtain ⟨rfl, rfl⟩ := Prod.mk.inj (Except.ok.inj h)
    obtain ⟨hwf, hbook⟩ := MatchingEngine.withCapacity_sim c
    exact ⟨hwf, by rw [hbook]; rfl, rfl⟩
  | some snap =>
    cases hrestore : snap.restore c with
    | error err =>
      rw [startingPoint_some c hload, hrestore] at h
      cases h
    | ok e₁ =>
      rw [startingPoint_restored hload hrestore] at h
      obtain ⟨rfl, rfl⟩ := Prod.mk.inj (Except.ok.inj h)
      obtain ⟨hwf, hcap, -⟩ := Snapshot.restore_ok hrestore
      exact ⟨hwf, hcap, rfl⟩

/-- What a recovery that succeeded did. -/
structure Succeeded (crc : List UInt8 → UInt32) (bincode : Bincode) (dir : DataDir) (c : UInt32)
    (size : Option Nat) (e : MatchingEngine) (w : Wal) (e₀ : MatchingEngine) (n : Nat)
    (rs : List Record) : Prop where
  start : startingPoint crc bincode dir.snapshots c = .ok (e₀, n)
  holds : w.Holds crc rs
  parse : Parses (Record.bytes crc) Record.Valid
    (Wal.extend (dir.wal.getD []) (walSize size)) rs
  limit : max (dir.wal.getD []).length (walSize size) < 2 ^ 63
  replay : ∃ cmds, decodeRecords (rs.drop n) = .ok cmds ∧ e = e₀.applyAll cmds

theorem succeeded
    (h : recoverWithWalSize crc bincode io dir c size = (dir', some (.ok (e, w)))) :
    dir' = { dir with wal := some w.file } ∧ ∃ e₀ n rs,
      Succeeded crc bincode dir c size e w e₀ n rs := by
  have hret := returns crc bincode io dir c size
  rw [h] at hret
  generalize hr : (dir', some (Except.ok (e, w))) = r at hret
  cases hret with
  | io _ => cases (Prod.mk.inj hr).2
  | refused _ _ => cases (Prod.mk.inj hr).2
  | @replayed e₀ n w₁ rs hstart hopen hw hparse =>
    obtain ⟨hdir, hres⟩ := Prod.mk.inj hr
    unfold replayed at hres
    cases hdecode : decodeRecords (rs.drop n) with
    | error err =>
      rw [hdecode] at hres
      cases hres
    | ok cmds =>
      rw [hdecode] at hres
      cases hres
      exact ⟨hdir, e₀, n, rs, hstart, hw, hparse, Wal.openWithSize_limit hopen, cmds, hdecode,
        rfl⟩

variable {e₀ : MatchingEngine} {n : Nat} {rs : List Record}

theorem covers_iff (h : Succeeded crc bincode dir c size e w e₀ n rs) :
    Covers crc bincode dir c size ↔ c = 0 ∨ n ≤ rs.length := by
  obtain ⟨-, -, hn⟩ := startingPoint_sound h.start
  unfold Covers
  rw [Wal.scanRecords_eq h.parse]
  cases hload : dir.snapshots.bind (Snapshot.loadLatest crc bincode) with
  | none =>
    rw [hload] at hn
    simp [hn]
  | some snap =>
    rw [hload] at hn
    simp [hn]

theorem drop_append_recordOf (h : rs.length ≤ n) (cmds : List EngineCommand) :
    (rs ++ cmds.map Wal.recordOf).drop n = (cmds.drop (n - rs.length)).map Wal.recordOf := by
  rw [List.drop_append, List.drop_eq_nil_of_le h, List.nil_append, List.map_drop]

/-- When the snapshot is ahead of the log, the next recovery skips the records that are logged until
they catch up with it. -/
theorem recover_behind (h : Succeeded crc bincode dir c size e w e₀ n rs) (hn : rs.length ≤ n)
    {cmds : List EngineCommand} (hcmds : ∀ cmd ∈ cmds, cmd.Tradable) {w₂ : Wal}
    (hw₂ : w₂.Holds crc (rs ++ cmds.map Wal.recordOf)) {file : List UInt8} {size' : Option Nat}
    (hopen : Wal.openWithSize crc none file (walSize size') = (w₂.file, .ok w₂)) :
    e = e₀ ∧ recoverWithWalSize crc bincode .ok { dir with wal := some file } c size' =
      ({ dir with wal := some w₂.file },
        some (.ok (e₀.applyAll ((cmds.drop (n - rs.length)).map EngineCommand.untimed), w₂))) := by
  obtain ⟨replayed, hdecode, he⟩ := h.replay
  rw [List.drop_eq_nil_of_le hn] at hdecode
  obtain rfl := Except.ok.inj hdecode
  refine ⟨he, ?_⟩
  have hdir : RecoverIo.ok.createDirFails = false := rfl
  have hrest : decodeRecords ((rs ++ cmds.map Wal.recordOf).drop n) =
      .ok ((cmds.drop (n - rs.length)).map EngineCommand.untimed) := by
    rw [drop_append_recordOf hn]
    exact decodeRecords_recordOf fun cmd hcmd => hcmds cmd (List.mem_of_mem_drop hcmd)
  have hrec := recoverWithWalSize_eq { dir with wal := some file } hdir rfl h.start hopen hw₂
  rw [Recovery.replayed, hrest] at hrec
  exact hrec

theorem Succeeded.sound (h : Succeeded crc bincode dir c size e w e₀ n rs) :
    e.book.WF ∧ e.book.toBook.capacity = c.toNat := by
  obtain ⟨hwf₀, hcap, -⟩ := startingPoint_sound h.start
  obtain ⟨replayed, -, rfl⟩ := h.replay
  obtain ⟨hwf, hbook⟩ := MatchingEngine.applyAll_sim hwf₀ replayed
  exact ⟨hwf, by rw [hbook, Book.capacity_applyAll, hcap]⟩

/-- When the log covers the snapshot, the starting point leads to the recovered book. -/
theorem Succeeded.leads (h : Succeeded crc bincode dir c size e w e₀ n rs)
    (hcov : Covers crc bincode dir c size) : Leads rs e₀ n e.book.toBook := by
  obtain ⟨hwf₀, -, -⟩ := startingPoint_sound h.start
  obtain ⟨-, hcap⟩ := h.sound
  obtain ⟨replayed, hdecode, he⟩ := h.replay
  obtain ⟨-, hbook⟩ := MatchingEngine.applyAll_sim hwf₀ replayed
  refine ⟨hwf₀, ?_, replayed, hdecode, by rw [he, hbook]⟩
  rcases (covers_iff h).1 hcov with rfl | hn
  · exact Or.inr hcap
  · exact Or.inl hn

theorem losesNothing_of_covers (h : Succeeded crc bincode dir c size e w e₀ n rs)
    (hcov : Covers crc bincode dir c size) : LosesNothing crc bincode dir c e w := by
  intro cmds hcmds w' happ size' hsize'
  obtain ⟨w₂, hopen, hw₂⟩ := Wal.holds_reopen (Wal.appendAll_spec h.holds happ) hsize'
  obtain ⟨hwf', hbook'⟩ := MatchingEngine.applyAll_sim h.sound.1 cmds
  obtain ⟨e₂, hrec, hwf₂, hbook₂⟩ := recover_of_leads { dir with wal := some w'.file } h.start
    ((h.leads hcov).appendAll hcmds) hw₂ hopen
  refine ⟨_, e₂, w₂, hrec, ?_, ?_⟩
  · exact MatchingEngine.sameBook_of_untimed hwf₂ hwf' (by rw [hbook₂, hbook'])
  · rw [hw₂.recordCount, h.holds.recordCount, List.length_append, List.length_map]

theorem covers_of_losesNothing (h : Succeeded crc bincode dir c size e w e₀ n rs)
    (hroom : 2 * (w.writePos + 48) < 2 ^ 63) (hno : LosesNothing crc bincode dir c e w) :
    Covers crc bincode dir c size := by
  rw [covers_iff h]
  by_contra hnot
  obtain ⟨hc, hn⟩ := not_or.1 hnot
  have hlt : rs.length < n := Nat.lt_of_not_le hn
  obtain ⟨hwf₀, hcap, -⟩ := startingPoint_sound h.start
  have hpos : 0 < e₀.book.toBook.capacity := by
    rw [hcap]
    exact Nat.pos_of_ne_zero fun h0 => hc (UInt32.toNat_inj.1 h0)
  -- one command that changes the number of orders, and that the next recovery skips
  obtain ⟨cmd, hcmd, hne⟩ := Book.exists_length_ne hpos
  have hcmds : ∀ x ∈ [cmd], x.Tradable := by simpa using hcmd
  obtain ⟨w', happ⟩ := Wal.appendAll_isSome h.holds [cmd] hroom
  have hw' := Wal.appendAll_spec h.holds happ
  have hsize : walSize size < 2 ^ 63 := lt_of_le_of_lt (Nat.le_max_right _ _) h.limit
  obtain ⟨w₂, hopen, hw₂⟩ := Wal.holds_reopen hw' hsize
  obtain ⟨he, hrec⟩ := recover_behind h hlt.le hcmds hw₂ hopen
  obtain ⟨dir₂, e₂, w₃, hrec₂, hsame, -⟩ := hno [cmd] hcmds w' happ size hsize
  rw [hrec] at hrec₂
  have hskip : [cmd].drop (n - rs.length) = [] :=
    List.drop_eq_nil_of_le (by rw [List.length_singleton]; omega)
  rw [hskip] at hrec₂
  obtain rfl : e₀ = e₂ := by
    have := Option.some.inj (Prod.mk.inj hrec₂).2
    exact (Prod.mk.inj (Except.ok.inj this)).1
  obtain ⟨hwf', hbook'⟩ := MatchingEngine.applyAll_sim hwf₀ [cmd]
  rw [he] at hsame
  apply hne
  have hlen := congrArg List.length hsame.orders
  rw [List.length_map, List.length_map, ← OrderBook.orders_toBook, ← OrderBook.orders_toBook,
    hbook'] at hlen
  exact hlen.symm

theorem Succeeded.writePos_le (h : Succeeded crc bincode dir c size e w e₀ n rs) :
    w.writePos ≤ max (dir.wal.getD []).length (walSize size) := by
  obtain ⟨-, rest, hsplit, -⟩ := h.parse
  have hlen := congrArg List.length hsplit
  rw [Wal.length_extend, List.length_append] at hlen
  rw [h.holds.writePos, hlen]
  exact Nat.le_add_right _ _

/-- **A second recovery loses nothing exactly when the log covers the snapshot.** Every other
directory that `recover` accepts loses a command that is logged next, as long as there is room in
the file to log it. -/
theorem losesNothing_iff_covers
    (h : recoverWithWalSize crc bincode io dir c size = (dir', some (.ok (e, w)))) :
    (Covers crc bincode dir c size → LosesNothing crc bincode dir' c e w) ∧
      (2 * (max (dir.wal.getD []).length (walSize size) + 48) < 2 ^ 63 →
        LosesNothing crc bincode dir' c e w → Covers crc bincode dir c size) := by
  obtain ⟨rfl, e₀, n, rs, hsucc⟩ := succeeded h
  refine ⟨losesNothing_of_covers hsucc, ?_⟩
  intro hroom
  have := hsucc.writePos_le
  exact covers_of_losesNothing hsucc (by omega)

/-- The snapshots of a directory to which the book of `e` was saved, as of record `k`. -/
def savedOnce (crc : List UInt8 → UInt32) (bincode : Bincode) (e : MatchingEngine) (k : UInt64) :
    Option SnapshotDir :=
  (Snapshot.save bincode .ok (Snapshot.capture crc bincode e k) none).1

theorem startingPoint_savedOnce (crc : List UInt8 → UInt32) (hbin : bincode.RoundTrip)
    (h : e.book.WF) (hc : e.book.toBook.capacity = c.toNat) (k : UInt64) :
    (savedOnce crc bincode e k).bind (Snapshot.loadLatest crc bincode) =
        some (Snapshot.capture crc bincode e k) ∧
      ∃ e₀, startingPoint crc bincode (savedOnce crc bincode e k) c = .ok (e₀, k.toNat) := by
  have hload : (savedOnce crc bincode e k).bind (Snapshot.loadLatest crc bincode) =
      some (Snapshot.capture crc bincode e k) :=
    Snapshot.loadLatest_save_fresh hbin (Snapshot.length_capture_orders crc bincode h hc k)
      (Snapshot.verifyChecksum_capture crc bincode e k)
  obtain ⟨e₀, hrestore, -⟩ := Snapshot.restore_capture crc bincode h hc k
  exact ⟨hload, e₀, startingPoint_restored hload hrestore⟩

theorem recover_savedOnce (crc : List UInt8 → UInt32) (hbin : bincode.RoundTrip) (h : e.book.WF)
    (hc : e.book.toBook.capacity = c.toNat) (k : UInt64) (file : Option (List UInt8))
    (size : Option Nat) {cmds : List EngineCommand} (hcmds : ∀ cmd ∈ cmds, cmd.Tradable)
    (hfile : file.getD [] = logBytes crc (cmds.map Wal.recordOf))
    (hlimit : max (file.getD []).length (walSize size) < 2 ^ 63) :
    (∃ dir' e' w, recoverWithWalSize crc bincode .ok ⟨file, savedOnce crc bincode e k⟩ c size =
        (dir', some (.ok (e', w)))) ∧
      (Covers crc bincode ⟨file, savedOnce crc bincode e k⟩ c size ↔
        c = 0 ∨ k.toNat ≤ cmds.length) := by
  obtain ⟨hload, e₀, hstart⟩ := startingPoint_savedOnce crc hbin h hc k
  rw [hfile] at hlimit
  obtain ⟨w, hopen, hw, hparse, -⟩ := Wal.openWithSize_recordOf crc cmds hlimit
  rw [← hfile] at hopen hparse
  refine ⟨?_, ?_⟩
  · exact ⟨_, _, w, recover_recordOf ⟨file, savedOnce crc bincode e k⟩ hstart hcmds hw hopen⟩
  · unfold Covers
    rw [Wal.scanRecords_eq hparse, List.length_map, hload]
    simp [Snapshot.capture]

/-- The engine with one resting order that the examples below save. -/
theorem one_order : ((MatchingEngine.withCapacity 4).addOrder ⟨1, 10, .ask, 100, 5, 7⟩).1.book.WF ∧
    ((MatchingEngine.withCapacity 4).addOrder
      ⟨1, 10, .ask, 100, 5, 7⟩).1.book.toBook.capacity = (4 : UInt32).toNat := by
  obtain ⟨hwf, hbook⟩ := MatchingEngine.withCapacity_sim 4
  obtain ⟨hwf', hbook', -⟩ := MatchingEngine.addOrder_sim hwf ⟨1, 10, .ask, 100, 5, 7⟩
  refine ⟨hwf', ?_⟩
  rw [hbook', Book.capacity_add, hbook]
  rfl

/-- A snapshot as of one record, and the log it was taken from. -/
theorem losesNothing_iff_covers_logged : ∃ dir' e w,
    recoverWithWalSize crc32 .fixint .ok
        ⟨some (logBytes crc32 [Wal.recordOf (.newOrder ⟨1, 10, .ask, 100, 5, 7⟩)]),
          savedOnce crc32 .fixint
            ((MatchingEngine.withCapacity 4).addOrder ⟨1, 10, .ask, 100, 5, 7⟩).1 1⟩ 4 none =
        (dir', some (.ok (e, w))) ∧
      LosesNothing crc32 .fixint dir' 4 e w := by
  obtain ⟨hwf, hcap⟩ := one_order
  have hcmds : ∀ cmd ∈ [EngineCommand.newOrder ⟨1, 10, .ask, 100, 5, 7⟩], cmd.Tradable := by
    simp [EngineCommand.Tradable]
  have hlimit : max (logBytes crc32 [Wal.recordOf (.newOrder ⟨1, 10, .ask, 100, 5, 7⟩)]).length
      (walSize none) < 2 ^ 63 := by decide +kernel
  obtain ⟨⟨dir', e, w, hrec⟩, hcov⟩ := recover_savedOnce crc32 Bincode.roundTrip_fixint hwf hcap 1
    (some (logBytes crc32 [Wal.recordOf (.newOrder ⟨1, 10, .ask, 100, 5, 7⟩)])) none hcmds rfl hlimit
  exact ⟨dir', e, w, hrec, (losesNothing_iff_covers hrec).1 (hcov.2 (Or.inr (by decide)))⟩

/-- **The log is gone, the snapshot is not.** What is logged next is skipped by the next recovery. -/
theorem not_losesNothing_removed_log : ∃ dir' e w,
    recover crc32 .fixint .ok ⟨none, savedOnce crc32 .fixint
        ((MatchingEngine.withCapacity 4).addOrder ⟨1, 10, .ask, 100, 5, 7⟩).1 1⟩ 4 =
      (dir', some (.ok (e, w))) ∧ ¬ LosesNothing crc32 .fixint dir' 4 e w := by
  obtain ⟨hwf, hcap⟩ := one_order
  have hcmds : ∀ cmd ∈ ([] : List EngineCommand), cmd.Tradable := nofun
  obtain ⟨⟨dir', e, w, hrec⟩, hcov⟩ := recover_savedOnce crc32 Bincode.roundTrip_fixint hwf hcap 1
    none none hcmds rfl (by decide +kernel)
  refine ⟨dir', e, w, hrec, ?_⟩
  intro hno
  obtain ⟨rfl, e₀, n, rs, hsucc⟩ := succeeded hrec
  have hpos : w.writePos ≤ 64 * 1024 * 1024 := hsucc.writePos_le
  have := hcov.1 (covers_of_losesNothing hsucc (by omega) hno)
  revert this
  decide

end Recovery

end Ferrox
