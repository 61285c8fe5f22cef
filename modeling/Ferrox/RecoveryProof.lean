import Ferrox.Recovery
import Ferrox.WalRun
import Ferrox.SnapshotProof

/-!
# What recovery rebuilds

Recovery replays the log behind a starting point, an engine with a record number. `Leads` says that
a starting point leads to a book: replaying the records behind its number gives that book, timestamps
aside. A starting point that leads to a book keeps leading to the current one while commands are
logged and applied (`Leads.append`), and a captured book is a starting point that leads to itself
(`leads_capture`). What `recover` returns is read off the starting point its snapshot files give
(`recover_of_leads`).
-/

namespace Ferrox

open Bytes Framing

/-! ## Commands on the price-time book -/

theorem EngineCommand.untimed_idem (cmd : EngineCommand) : cmd.untimed.untimed = cmd.untimed := by
  cases cmd <;> rfl

namespace Book

def apply (B : Book) : EngineCommand → Book
  | .newOrder order => (B.add order).1
  | .cancelOrder orderId => (B.cancel orderId).1

def applyAll (B : Book) (cmds : List EngineCommand) : Book := cmds.foldl apply B

theorem capacity_apply (B : Book) (cmd : EngineCommand) : (B.apply cmd).capacity = B.capacity := by
  cases cmd with
  | newOrder o => exact capacity_add B o
  | cancelOrder id => exact capacity_cancel B id

theorem apply_untimed (B : Book) (cmd : EngineCommand) :
    B.untimed.apply cmd.untimed = (B.apply cmd).untimed := by
  cases cmd with
  | newOrder o => exact congrArg Prod.fst (add_untimed B o)
  | cancelOrder id => exact congrArg Prod.fst (cancel_untimed B id)

theorem apply_congr {B B' : Book} (h : B.untimed = B'.untimed) {cmd cmd' : EngineCommand}
    (hcmd : cmd.untimed = cmd'.untimed) : (B.apply cmd).untimed = (B'.apply cmd').untimed := by
  rw [← apply_untimed, ← apply_untimed, h, hcmd]

theorem applyAll_append (B : Book) (cmds cmds' : List EngineCommand) :
    B.applyAll (cmds ++ cmds') = (B.applyAll cmds).applyAll cmds' := List.foldl_append

theorem applyAll_map_untimed (B : Book) (cmds : List EngineCommand) :
    (B.applyAll (cmds.map EngineCommand.untimed)).untimed = (B.applyAll cmds).untimed := by
  induction cmds using List.reverseRecOn with
  | nil => rfl
  | append_singleton cmds cmd ih =>
    rw [List.map_append, applyAll_append, applyAll_append]
    exact apply_congr ih (EngineCommand.untimed_idem cmd)

theorem capacity_applyAll (B : Book) (cmds : List EngineCommand) :
    (B.applyAll cmds).capacity = B.capacity := by
  induction cmds generalizing B with
  | nil => rfl
  | cons cmd cmds ih => exact (ih (B.apply cmd)).trans (capacity_apply B cmd)

/-! ### Books without orders -/

theorem eq_empty {B : Book} (h : B.orders = []) : B = empty B.capacity := by
  obtain ⟨c, side⟩ := B
  have hside : ∀ s, side s = [] := by
    intro s
    obtain ⟨hask, hbid⟩ := List.append_eq_nil_iff.1 h
    cases s with
    | ask => exact hask
    | bid => exact hbid
  show Book.mk c side = Book.mk c fun _ => []
  rw [funext hside]

theorem WF.eq_empty {B : Book} (h : B.WF) (hc : B.capacity = 0) : B = empty 0 := by
  have hroom := h.room
  rw [hc] at hroom
  have := Book.eq_empty (List.length_eq_zero_iff.1 (Nat.le_zero.1 hroom))
  rwa [hc] at this

end Book

namespace MatchingEngine

theorem applyCommand_sim {e : MatchingEngine} (h : e.book.WF) (cmd : EngineCommand) :
    (e.applyCommand cmd).book.WF ∧ (e.applyCommand cmd).book.toBook = e.book.toBook.apply cmd := by
  cases cmd with
  | newOrder o =>
    obtain ⟨hwf, hbook, -⟩ := addOrder_sim h o
    exact ⟨hwf, hbook⟩
  | cancelOrder id =>
    obtain ⟨hwf, hbook, -⟩ := cancelOrder_sim h id
    exact ⟨hwf, hbook⟩

theorem applyAll_sim {e : MatchingEngine} (h : e.book.WF) (cmds : List EngineCommand) :
    (e.applyAll cmds).book.WF ∧ (e.applyAll cmds).book.toBook = e.book.toBook.applyAll cmds := by
  induction cmds generalizing e with
  | nil => exact ⟨h, rfl⟩
  | cons cmd cmds ih =>
    obtain ⟨hwf, hbook⟩ := applyCommand_sim h cmd
    have := ih hwf
    rw [hbook] at this
    exact this

/-- **The same book**, timestamps aside: the resting orders in canonical order, the best prices and
the number of orders. -/
structure SameBook (e e' : MatchingEngine) : Prop where
  orders : e.book.allRestingOrders.map Order.untimed = e'.book.allRestingOrders.map Order.untimed
  bestBid : e.book.bestBid = e'.book.bestBid
  bestAsk : e.book.bestAsk = e'.book.bestAsk
  orderCount : e.book.orderCount = e'.book.orderCount

theorem best_untimed (B : Book) (s : Side) : B.untimed.best s = B.best s := by
  unfold Book.best
  show ((B.side s).map Order.untimed).head?.map _ = _
  cases B.side s <;> rfl

theorem sameBook_of_untimed_side {e e' : MatchingEngine} (h : e.book.WF) (h' : e'.book.WF)
    (heq : e.book.toBook.untimed.side = e'.book.toBook.untimed.side) : SameBook e e' := by
  have horders : e.book.allRestingOrders.map Order.untimed =
      e'.book.allRestingOrders.map Order.untimed := by
    have : e.book.toBook.untimed.orders = e'.book.toBook.untimed.orders := by
      rw [Book.orders, Book.orders, heq]
    rwa [Book.orders_untimed, Book.orders_untimed] at this
  have hbest : ∀ s, e.book.bestPrice s = e'.book.bestPrice s := by
    intro s
    rw [OrderBook.bestPrice_sim h, OrderBook.bestPrice_sim h', ← best_untimed, Book.best, heq,
      ← Book.best, best_untimed]
  refine ⟨horders, hbest .bid, hbest .ask, ?_⟩
  obtain ⟨free, queue, hrep⟩ := h
  obtain ⟨free', queue', hrep'⟩ := h'
  rw [← OrderBook.length_allRestingOrders hrep, ← OrderBook.length_allRestingOrders hrep']
  simpa using congrArg List.length horders

theorem sameBook_of_untimed {e e' : MatchingEngine} (h : e.book.WF) (h' : e'.book.WF)
    (heq : e.book.toBook.untimed = e'.book.toBook.untimed) : SameBook e e' :=
  sameBook_of_untimed_side h h' (congrArg Book.side heq)

end MatchingEngine

/-! ## The replay loop -/

/-- The commands of a sequence of records. -/
def decodeRecords : List Record → Except ProtocolError (List EngineCommand)
  | [] => .ok []
  | r :: rs =>
      match Protocol.decodeMessage r.payload with
      | .error e => .error e
      | .ok cmd =>
          match decodeRecords rs with
          | .error e => .error e
          | .ok cmds => .ok (cmd :: cmds)

theorem decodeRecords_append {rs rs' : List Record} {cmds cmds' : List EngineCommand}
    (h : decodeRecords rs = .ok cmds) (h' : decodeRecords rs' = .ok cmds') :
    decodeRecords (rs ++ rs') = .ok (cmds ++ cmds') := by
  induction rs generalizing cmds with
  | nil =>
    obtain rfl := Except.ok.inj h
    exact h'
  | cons r rs ih =>
    rw [List.cons_append]
    unfold decodeRecords at h ⊢
    cases hr : Protocol.decodeMessage r.payload with
    | error e =>
      rw [hr] at h
      cases h
    | ok cmd =>
      cases hrs : decodeRecords rs with
      | error e =>
        rw [hr, hrs] at h
        cases h
      | ok tail =>
        rw [hr, hrs] at h
        obtain rfl := Except.ok.inj h
        rw [ih hrs]
        rfl

/-- What was logged is read back, without timestamps. -/
theorem decodeRecords_recordOf {cmds : List EngineCommand} (h : ∀ cmd ∈ cmds, cmd.Tradable) :
    decodeRecords (cmds.map Wal.recordOf) = .ok (cmds.map EngineCommand.untimed) := by
  induction cmds with
  | nil => rfl
  | cons cmd cmds ih =>
    have hpayload : (Wal.recordOf cmd).payload = Protocol.payload cmd := rfl
    rw [List.map_cons, decodeRecords, hpayload,
      Protocol.decodeMessage_payload (h cmd List.mem_cons_self),
      ih fun c hc => h c (List.mem_cons_of_mem _ hc)]
    rfl

namespace Recovery

variable {crc : List UInt8 → UInt32} {bincode : Bincode}

/-! ### The starting point -/

theorem startingPoint_none {snapshots : Option SnapshotDir} (c : UInt32)
    (hload : snapshots.bind (Snapshot.loadLatest crc bincode) = none) :
    startingPoint crc bincode snapshots c = .ok (.withCapacity c, 0) := by
  simp only [startingPoint, hload]

theorem startingPoint_some {snapshots : Option SnapshotDir} {snap : Snapshot} (c : UInt32)
    (hload : snapshots.bind (Snapshot.loadLatest crc bincode) = some snap) :
    startingPoint crc bincode snapshots c =
      match snap.restore c with
      | .error e => .error (.snapshot e)
      | .ok engine => .ok (engine, snap.walRecordCount.toNat) := by
  cases hrestore : snap.restore c with
  | error e => simp only [startingPoint, hload, hrestore]
  | ok engine => simp only [startingPoint, hload, hrestore]

theorem startingPoint_restored {snapshots : Option SnapshotDir} {snap : Snapshot} {c : UInt32}
    {e : MatchingEngine} (hload : snapshots.bind (Snapshot.loadLatest crc bincode) = some snap)
    (hrestore : snap.restore c = .ok e) :
    startingPoint crc bincode snapshots c = .ok (e, snap.walRecordCount.toNat) := by
  rw [startingPoint_some c hload, hrestore]

/-! ### The replay -/

/-- What the loop returns when it meets the records `rs`: no record makes it truncate the log. -/
def replayed (wal : Wal) (engine : MatchingEngine) (rs : List Record) :
    Except RecoveryError (MatchingEngine × Wal) :=
  match decodeRecords rs with
  | .ok cmds => .ok (engine.applyAll cmds, wal)
  | .error e => .error (.wal (.protocol e))

theorem replayed_cons (wal : Wal) (engine : MatchingEngine) (r : Record) (rs : List Record) :
    replayed wal engine (r :: rs) =
      match Protocol.decodeMessage r.payload with
      | .ok cmd => replayed wal (engine.applyCommand cmd) rs
      | .error e => .error (.wal (.protocol e)) := by
  unfold replayed
  rw [decodeRecords]
  cases Protocol.decodeMessage r.payload with
  | error e => rfl
  | ok cmd =>
    cases decodeRecords rs with
    | error e => rfl
    | ok cmds => rfl

/-- **The replay loop** applies the records it is given in order. -/
theorem replayLoop_eq (wal : Wal) {it : WalIterator} {i : Nat} {rs : List Record}
    (h : WalIterator.Yields crc it (items i rs)) {fuel : Nat} (hf : rs.length < fuel)
    (engine : MatchingEngine) (n : Nat) :
    replayLoop crc wal fuel engine it n = some (replayed wal engine rs) := by
  induction rs generalizing it i fuel engine n with
  | nil =>
    obtain ⟨m, rfl⟩ : ∃ m, fuel = m + 1 := ⟨fuel - 1, by omega⟩
    obtain ⟨hnext⟩ := h
    rw [replayLoop, hnext]
    rfl
  | cons r rs ih =>
    rw [List.length_cons] at hf
    obtain ⟨m, rfl⟩ : ∃ m, fuel = m + 1 := ⟨fuel - 1, by omega⟩
    rw [items] at h
    obtain _ | ⟨hnext, htail⟩ := h
    rw [replayLoop, hnext, replayed_cons, Record.item]
    cases Protocol.decodeMessage r.payload with
    | error e => rfl
    | ok cmd => exact ih htail (by omega) _ _

theorem replayLoop_iterFrom {w : Wal} {rs : List Record} (hw : w.Holds crc rs) (e : MatchingEngine)
    (n : Nat) : replayLoop crc w (w.writePos + 1) e (w.iterFrom n) n =
      some (replayed w e (rs.drop n)) := by
  have h₁ := length_le_logBytes crc hw.valid
  have h₂ := hw.writePos
  refine replayLoop_eq w (hw.yields n) ?_ e n
  rw [List.length_drop]
  omega

/-! ## What `recover` returns -/

section Recover

variable {dir : DataDir} {c : UInt32} {size : Option Nat} {io : RecoverIo}

/-- The log is opened with this size if it is shorter. -/
def walSize (size : Option Nat) : Nat := size.getD defaultInitialSize

theorem recoverWithWalSize_eq (dir : DataDir) (hdir : io.createDirFails = false)
    (hread : io.readDirFails = false) {e₀ : MatchingEngine} {n : Nat}
    (hstart : startingPoint crc bincode dir.snapshots c = .ok (e₀, n)) {w : Wal} {rs : List Record}
    (hopen : Wal.openWithSize crc io.wal (dir.wal.getD []) (walSize size) = (w.file, .ok w))
    (hw : w.Holds crc rs) :
    recoverWithWalSize crc bincode io dir c size =
      ({ dir with wal := some w.file }, some (replayed w e₀ (rs.drop n))) := by
  have hloop := replayLoop_iterFrom hw e₀ n
  rw [walSize] at hopen
  unfold recoverWithWalSize
  simp only [hdir, hread, hstart, hopen, hloop, Bool.false_eq_true, if_false]
  unfold replayed
  cases decodeRecords (rs.drop n) with
  | error e => rfl
  | ok cmds => rfl

/-- **Recovering a log of commands** applies those behind the starting point. -/
theorem recover_recordOf (dir : DataDir) {e₀ : MatchingEngine} {n : Nat}
    (hstart : startingPoint crc bincode dir.snapshots c = .ok (e₀, n)) {cmds : List EngineCommand}
    (hcmds : ∀ cmd ∈ cmds, cmd.Tradable) {w : Wal} (hw : w.Holds crc (cmds.map Wal.recordOf))
    (hopen : Wal.openWithSize crc none (dir.wal.getD []) (walSize size) = (w.file, .ok w)) :
    recoverWithWalSize crc bincode .ok dir c size = ({ dir with wal := some w.file },
      some (.ok (e₀.applyAll ((cmds.drop n).map EngineCommand.untimed), w))) := by
  have hdir : RecoverIo.ok.createDirFails = false := rfl
  have hrec := recoverWithWalSize_eq dir hdir rfl hstart hopen hw
  have hdecode := decodeRecords_recordOf fun cmd hcmd =>
    hcmds cmd (List.mem_of_mem_drop (i := n) hcmd)
  rw [List.map_drop] at hdecode
  rw [hrec, replayed, hdecode]

/-- **What `recover` returns**, whatever the directory holds and whichever call fails. -/
inductive Returns (crc : List UInt8 → UInt32) (bincode : Bincode) (io : RecoverIo) (dir : DataDir)
    (c : UInt32) (size : Option Nat) :
    DataDir × Option (Except RecoveryError (MatchingEngine × Wal)) → Prop
  | io {dir' : DataDir} {e : RecoveryError} (h : e = .wal .io ∨ e = .snapshot .io) :
      Returns crc bincode io dir c size (dir', some (.error e))
  | refused {snap : Snapshot} {e : SnapshotError}
      (hload : dir.snapshots.bind (Snapshot.loadLatest crc bincode) = some snap)
      (h : snap.restore c = .error e) :
      Returns crc bincode io dir c size (dir, some (.error (.snapshot e)))
  | replayed {e₀ : MatchingEngine} {n : Nat} {w : Wal} {rs : List Record}
      (hstart : startingPoint crc bincode dir.snapshots c = .ok (e₀, n))
      (hopen : Wal.openWithSize crc none (dir.wal.getD []) (walSize size) = (w.file, .ok w))
      (hw : w.Holds crc rs)
      (hparse : Parses (Record.bytes crc) Record.Valid
        (Wal.extend (dir.wal.getD []) (walSize size)) rs) :
      Returns crc bincode io dir c size
        ({ dir with wal := some w.file }, some (replayed w e₀ (rs.drop n)))

theorem returns (crc : List UInt8 → UInt32) (bincode : Bincode) (io : RecoverIo) (dir : DataDir)
    (c : UInt32) (size : Option Nat) :
    Returns crc bincode io dir c size (recoverWithWalSize crc bincode io dir c size) := by
  cases hdir : io.createDirFails with
  | true =>
    unfold recoverWithWalSize
    rw [if_pos hdir]
    exact .io (Or.inl rfl)
  | false =>
    cases hread : io.readDirFails with
    | true =>
      unfold recoverWithWalSize
      rw [if_neg (by simp [hdir]), if_pos hread]
      exact .io (Or.inr rfl)
    | false =>
      cases hstart : startingPoint crc bincode dir.snapshots c with
      | error e =>
        unfold recoverWithWalSize
        simp only [hdir, hread, hstart, Bool.false_eq_true, if_false]
        cases hload : dir.snapshots.bind (Snapshot.loadLatest crc bincode) with
        | none =>
          rw [startingPoint_none c hload] at hstart
          cases hstart
        | some snap =>
          rw [startingPoint_some c hload] at hstart
          cases hrestore : snap.restore c with
          | ok e₀ => simp only [hrestore, reduceCtorEq] at hstart
          | error e' =>
            simp only [hrestore, Except.error.injEq] at hstart
            rw [← hstart]
            exact .refused hload hrestore
      | ok start =>
        obtain ⟨file', hopen⟩ | ⟨w, rs, hopen, hw, hparse, -⟩ := Wal.openWithSize_cases crc io.wal
          (dir.wal.getD []) (walSize size)
        · rw [walSize] at hopen
          unfold recoverWithWalSize
          simp only [hdir, hread, hstart, hopen, Bool.false_eq_true, if_false]
          exact .io (Or.inl rfl)
        · rw [recoverWithWalSize_eq dir hdir hread hstart hopen hw]
          exact .replayed hstart (Wal.openWithSize_io hopen) hw hparse

end Recover

/-! ## Starting points -/

/-- **A starting point leads to a book**: the engine `e₀` and the records behind number `n` give the
book `B`, timestamps aside. The log reaches up to that number; only in a book that never holds an
order does this not matter. -/
structure Leads (rs : List Record) (e₀ : MatchingEngine) (n : Nat) (B : Book) : Prop where
  wf : e₀.book.WF
  le : n ≤ rs.length ∨ B.capacity = 0
  replay : ∃ cmds, decodeRecords (rs.drop n) = .ok cmds ∧
    (e₀.book.toBook.applyAll cmds).untimed = B.untimed

theorem Leads.refl {e : MatchingEngine} (h : e.book.WF) (rs : List Record) :
    Leads rs e rs.length e.book.toBook :=
  ⟨h, Or.inl (le_refl _), [], by rw [List.drop_length]; rfl, rfl⟩

/-- **Logging a command and applying it** keeps every starting point good. -/
theorem Leads.append {rs : List Record} {e₀ : MatchingEngine} {n : Nat} {B : Book}
    (h : Leads rs e₀ n B) {cmd : EngineCommand} (hcmd : cmd.Tradable) :
    Leads (rs ++ [Wal.recordOf cmd]) e₀ n (B.apply cmd) := by
  obtain ⟨cmds, hdecode, hbook⟩ := h.replay
  have hone : ∀ x ∈ [cmd], x.Tradable := by simpa using hcmd
  have hlast : decodeRecords [Wal.recordOf cmd] = .ok [cmd.untimed] := decodeRecords_recordOf hone
  have hlen : (rs ++ [Wal.recordOf cmd]).length = rs.length + 1 := List.length_append
  by_cases hle : n ≤ rs.length
  · refine ⟨h.wf, Or.inl (by omega), cmds ++ [cmd.untimed], ?_, ?_⟩
    · rw [List.drop_append_of_le_length hle]
      exact decodeRecords_append hdecode hlast
    · rw [Book.applyAll, List.foldl_append]
      exact Book.apply_congr hbook (EngineCommand.untimed_idem cmd)
  · -- the record is skipped, and the command has no effect
    have hcap := h.le.resolve_left hle
    refine ⟨h.wf, Or.inr ((Book.capacity_apply B cmd).trans hcap), [], ?_, ?_⟩
    · rw [List.drop_eq_nil_of_le (by omega)]
      rfl
    · rw [List.drop_eq_nil_of_le (Nat.le_of_not_le hle)] at hdecode
      obtain rfl := Except.ok.inj hdecode
      have hcap₀ : e₀.book.toBook.capacity = 0 := (congrArg Book.capacity hbook).trans hcap
      obtain ⟨hwf, hsim⟩ := MatchingEngine.applyCommand_sim h.wf cmd
      have hsame : e₀.book.toBook.apply cmd = e₀.book.toBook := by
        have hcap₁ : (e₀.book.toBook.apply cmd).capacity = 0 := by
          rw [Book.capacity_apply, hcap₀]
        rw [← hsim] at hcap₁ ⊢
        rw [hwf.wf_toBook.eq_empty hcap₁, h.wf.wf_toBook.eq_empty hcap₀]
      rw [← Book.apply_congr hbook rfl, Book.applyAll, List.foldl_nil, hsame]

theorem Leads.appendAll {rs : List Record} {e₀ : MatchingEngine} {n : Nat} {B : Book}
    (h : Leads rs e₀ n B) {cmds : List EngineCommand} (hcmds : ∀ cmd ∈ cmds, cmd.Tradable) :
    Leads (rs ++ cmds.map Wal.recordOf) e₀ n (B.applyAll cmds) := by
  induction cmds generalizing rs B with
  | nil =>
    rw [List.map_nil, List.append_nil]
    exact h
  | cons cmd cmds ih =>
    have := ih (h.append (hcmds cmd List.mem_cons_self))
      fun c hc => hcmds c (List.mem_cons_of_mem _ hc)
    rwa [List.append_assoc] at this

/-- **A captured book is a starting point** that leads to itself. -/
theorem leads_capture (crc : List UInt8 → UInt32) (bincode : Bincode) {e : MatchingEngine}
    (h : e.book.WF) {c : UInt32} (hc : e.book.toBook.capacity = c.toNat) {rs : List Record}
    (hlen : rs.length < 2 ^ 64) :
    ∃ e₀, (Snapshot.capture crc bincode e (UInt64.ofNat rs.length)).restore c = .ok e₀ ∧
      Leads rs e₀ (Snapshot.capture crc bincode e
        (UInt64.ofNat rs.length)).walRecordCount.toNat e.book.toBook := by
  obtain ⟨e₀, hrestore, hwf, hbook⟩ :=
    Snapshot.restore_capture crc bincode h hc (UInt64.ofNat rs.length)
  have hcount : (Snapshot.capture crc bincode e
      (UInt64.ofNat rs.length)).walRecordCount.toNat = rs.length :=
    UInt64.toNat_ofNat_of_lt' hlen
  rw [hcount]
  exact ⟨e₀, hrestore, hbook ▸ Leads.refl hwf rs⟩

/-- **Recovering from a starting point** that leads to a book gives that book. -/
theorem recover_of_leads (dir : DataDir) {c : UInt32} {size : Option Nat} {rs : List Record}
    {B : Book} {e₀ : MatchingEngine} {n : Nat}
    (hstart : startingPoint crc bincode dir.snapshots c = .ok (e₀, n)) (h : Leads rs e₀ n B)
    {w : Wal} (hw : w.Holds crc rs)
    (hopen : Wal.openWithSize crc none (dir.wal.getD []) (walSize size) = (w.file, .ok w)) :
    ∃ e, recoverWithWalSize crc bincode .ok dir c size =
        ({ dir with wal := some w.file }, some (.ok (e, w))) ∧
      e.book.WF ∧ e.book.toBook.untimed = B.untimed := by
  obtain ⟨cmds, hdecode, hbook⟩ := h.replay
  obtain ⟨hwf, hsim⟩ := MatchingEngine.applyAll_sim h.wf cmds
  have hdir : RecoverIo.ok.createDirFails = false := rfl
  have hrec := recoverWithWalSize_eq dir hdir rfl hstart hopen hw
  rw [replayed, hdecode] at hrec
  exact ⟨_, hrec, hwf, by rw [hsim, hbook]⟩

end Recovery

end Ferrox
