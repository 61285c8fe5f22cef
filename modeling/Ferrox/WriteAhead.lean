import Ferrox.GatewayProof

/-!
# Write-ahead

Between any two commands of a run, the live book is the one that recovery finds in the data
directory, as long as the gateway recovered at start-up from a log that covers its snapshot, and
every append of the run succeeds (`writeAhead_of_appendsOk`). Both conditions matter: a command
whose append fails is applied all the same, and after a failed recovery the gateway runs without a
log (`not_writeAhead`).
-/

namespace Ferrox

open Bytes Framing Recovery

/-! ## Commands that reach the thread -/

/-- Some message makes `handle_client` push this command. -/
def Delivered (cmd : EngineCommand) : Prop := ∃ msg now, handleMessage msg now = .ok cmd

theorem Delivered.tradable {cmd : EngineCommand} (h : Delivered cmd) : cmd.Tradable := by
  obtain ⟨msg, now, h⟩ := h
  unfold handleMessage at h
  cases hdecode : Protocol.decodeMessage msg with
  | error e =>
    rw [hdecode] at h
    cases h
  | ok cmd' =>
    have htradable := Protocol.tradable_of_decodeMessage hdecode
    rw [hdecode] at h
    cases cmd' with
    | newOrder order =>
      obtain rfl := Except.ok.inj h
      exact htradable
    | cancelOrder orderId =>
      obtain rfl := Except.ok.inj h
      trivial

/-- Every command that trades something is in some message. -/
theorem delivered_of_tradable {cmd : EngineCommand} (h : cmd.Tradable) : Delivered cmd := by
  have hdecode := Protocol.decodeMessage_payload h
  cases cmd with
  | newOrder order =>
    refine ⟨Protocol.payload (.newOrder order), order.timestamp, ?_⟩
    unfold handleMessage
    rw [hdecode]
    rfl
  | cancelOrder orderId =>
    refine ⟨Protocol.payload (.cancelOrder orderId), 0, ?_⟩
    unfold handleMessage
    rw [hdecode]
    rfl

namespace MatchingLoop

variable {crc : List UInt8 → UInt32} {bincode : Bincode} {c : UInt32} {rs : List Record}

/-! ## The property and its condition -/

/-- **Write-ahead**: recovering from the data directory as it is gives the live book. -/
def WriteAhead (crc : List UInt8 → UInt32) (bincode : Bincode) (c : UInt32) (m : MatchingLoop) :
    Prop :=
  ∃ dir e w, recover crc bincode .ok m.dir c = (dir, some (.ok (e, w))) ∧ e.SameBook m.engine

/-- The append of the round succeeds, if there is one. -/
def AppendOk (crc : List UInt8 → UInt32) (m : MatchingLoop) : Event → Prop
  | .command cmd grow _ => ∀ w, m.wal = some w → ∃ w' n, w.append crc grow cmd = some (w', .ok n)
  | .empty _ => True

/-- Every append of the run succeeds. -/
def AppendsOk (crc : List UInt8 → UInt32) (bincode : Bincode) :
    Phase × MatchingLoop → List Event → Prop
  | _, [] => True
  | s, event :: events =>
      AppendOk crc s.2 event ∧
        ∀ s', step crc bincode s event = some s' → AppendsOk crc bincode s' events

/-! ## Runs of one command, from a directory without snapshots -/

theorem recover_noSnapshots (bincode : Bincode) (c : UInt32) {file : List UInt8} {w : Wal}
    (hopen : Wal.openWithSize crc none file (walSize none) = (w.file, .ok w))
    (hw : w.Holds crc rs) :
    recover crc bincode .ok ⟨some file, none⟩ c =
      (⟨some w.file, none⟩, some (replayed w (MatchingEngine.withCapacity c) rs)) := by
  have hdir : RecoverIo.ok.createDirFails = false := rfl
  exact recoverWithWalSize_eq ⟨some file, none⟩ hdir rfl rfl hopen hw

theorem run_first (bincode : Bincode) {e : MatchingEngine} {wal : Option Wal} {snapshotDir : Bool}
    {dir : DataDir} {interval : UInt64} {m₁ : MatchingLoop} {cmd : EngineCommand} {grow : GrowIo}
    (hlog : log crc grow (enter e wal snapshotDir dir interval).2 cmd = some m₁)
    (hinterval : ¬ 1 ≥ interval) (save : Snapshot.SaveIo) :
    ∃ s, run crc bincode (enter e wal snapshotDir dir interval) [.command cmd grow save] = some s ∧
      s.2.engine = e.applyCommand cmd ∧ s.2.dir = m₁.dir := by
  obtain ⟨m', hm'⟩ : ∃ m', processCommand crc grow (enter e wal snapshotDir dir interval).2 cmd =
      some m' := by
    unfold processCommand
    rw [hlog]
    cases cmd with
    | newOrder order =>
      simp only
      cases m₁.engine.addOrder order with
      | mk e result =>
        cases result with
        | ok r => exact ⟨_, rfl⟩
        | error err => exact ⟨_, rfl⟩
    | cancelOrder orderId => exact ⟨_, rfl⟩
  have hstep : run crc bincode (enter e wal snapshotDir dir interval) [.command cmd grow save] =
      some (.running, countCommand crc bincode save m') := by
    show run crc bincode (.running, (enter e wal snapshotDir dir interval).2) _ = _
    simp only [run, step, hm', Option.map_some]
  obtain ⟨m₂, buf, hlog₂, -, rfl⟩ := processCommand_spec List.length_replicate hm'
  rw [hlog] at hlog₂
  cases hlog₂
  have hcount : m₁.cmdsSinceSnapshot = 0 ∧ m₁.snapshotInterval = interval := by
    rcases log_cases hlog with ⟨-, rfl⟩ | ⟨w, w', result, -, -, rfl⟩
    · exact ⟨rfl, rfl⟩
    · exact ⟨rfl, rfl⟩
  refine ⟨_, hstep, ?_⟩
  unfold countCommand
  cases hw : m₁.wal with
  | none => exact ⟨rfl, rfl⟩
  | some w =>
    cases hdir : m₁.snapshotDir with
    | false => exact ⟨rfl, rfl⟩
    | true =>
      simp only
      rw [hcount.1, hcount.2, UInt64.zero_add, if_neg hinterval]
      exact ⟨rfl, rfl⟩

/-! ## What a run preserves -/

/-- **The invariant**: the log holds `rs`, and from where a recovery would start, it leads to the
live book. -/
structure Logged (crc : List UInt8 → UInt32) (bincode : Bincode) (c : UInt32) (rs : List Record)
    (m : MatchingLoop) : Prop where
  sound : Sound c m
  wal : ∃ w, m.wal = some w ∧ m.dir.wal = some w.file ∧ w.Holds crc rs
  start : ∃ e₀ n, startingPoint crc bincode m.dir.snapshots c = .ok (e₀, n) ∧
    Leads rs e₀ n m.engine.book.toBook

theorem Logged.processCommand {m m' : MatchingLoop} {cmd : EngineCommand} {grow : GrowIo}
    {save : Snapshot.SaveIo} (h : Logged crc bincode c rs m) (hcmd : cmd.Tradable)
    (happ : AppendOk crc m (.command cmd grow save))
    (hm : processCommand crc grow m cmd = some m') :
    Logged crc bincode c (rs ++ [Wal.recordOf cmd]) m' := by
  have hsound := h.sound.processCommand hm
  obtain ⟨m₁, buf, hlog, -, rfl⟩ := processCommand_spec h.sound.reportBuf hm
  obtain ⟨w, hwal, hfile, hw⟩ := h.wal
  obtain ⟨w', n, hok⟩ := happ w hwal
  obtain ⟨w₁, ⟨happ₁, -⟩ | ⟨happ₁, hw₁⟩⟩ := Wal.append_spec hw grow cmd
  · rw [hok] at happ₁
    cases happ₁
  rw [hok] at happ₁
  cases happ₁
  rcases log_cases hlog with ⟨hnone, -⟩ | ⟨w₂, w₂', result, hwal₂, happ₂, rfl⟩
  · rw [hwal] at hnone
    cases hnone
  rw [hwal] at hwal₂
  cases hwal₂
  rw [hok] at happ₂
  cases happ₂
  refine ⟨hsound, ⟨w', rfl, rfl, hw₁⟩, ?_⟩
  obtain ⟨e₀, k, hstart, hleads⟩ := h.start
  refine ⟨e₀, k, hstart, ?_⟩
  obtain ⟨-, hbook⟩ := MatchingEngine.applyCommand_sim h.sound.wf cmd
  show Leads _ e₀ k (m.engine.applyCommand cmd).book.toBook
  rw [hbook]
  exact hleads.append hcmd

theorem Logged.countCommand (hbin : bincode.RoundTrip) {m : MatchingLoop}
    (h : Logged crc bincode c rs m) (save : Snapshot.SaveIo) :
    Logged crc bincode c rs (countCommand crc bincode save m) := by
  have hsound := h.sound.countCommand crc bincode save
  obtain ⟨w, hwal, hfile, hw⟩ := h.wal
  rcases countCommand_cases crc bincode save m with ⟨k, heq⟩ | ⟨w', hwal', heq⟩
  · rw [heq] at hsound ⊢
    exact ⟨hsound, ⟨w, hwal, hfile, hw⟩, h.start⟩
  · rw [heq] at hsound ⊢
    rw [hwal] at hwal'
    cases hwal'
    refine ⟨hsound, ⟨w, hwal, hfile, hw⟩, ?_⟩
    have hlen := Snapshot.length_capture_orders crc bincode h.sound.wf h.sound.capacity
      (UInt64.ofNat w.recordCount)
    have hver := Snapshot.verifyChecksum_capture crc bincode m.engine (UInt64.ofNat w.recordCount)
    unfold startingPoint
    rcases Snapshot.loadLatest_save hbin hlen hver save m.dir.snapshots with hload | hload
    · obtain ⟨e₀, hrestore, hleads⟩ := leads_capture crc bincode h.sound.wf h.sound.capacity
        hw.length_lt
      rw [← hw.recordCount] at hrestore hleads
      simp only [hload, hrestore]
      exact ⟨e₀, _, rfl, hleads⟩
    · simp only [hload]
      exact h.start

theorem Logged.run (hbin : bincode.RoundTrip) {s s' : Phase × MatchingLoop} {events : List Event}
    (h : Logged crc bincode c rs s.2)
    (hdel : ∀ cmd ∈ events.filterMap Event.command?, Delivered cmd)
    (happ : AppendsOk crc bincode s events) (hrun : run crc bincode s events = some s') :
    Logged crc bincode c (rs ++ (events.filterMap Event.command?).map Wal.recordOf) s'.2 := by
  induction events generalizing s rs with
  | nil =>
    obtain rfl := Option.some.inj hrun
    rw [List.filterMap_nil, List.map_nil, List.append_nil]
    exact h
  | cons event events ih =>
    obtain ⟨s₁, hs, hrun₁⟩ := run_cons hrun
    obtain ⟨happ₀, happ₁⟩ := happ
    rcases step_cases hs with ⟨shutdown, rfl, heq⟩ | ⟨cmd, grow, save, m, rfl, hm, heq⟩
    · rw [List.filterMap_cons_none rfl] at hdel ⊢
      exact ih (heq ▸ h) hdel (happ₁ s₁ hs) hrun₁
    · have hcmds : (Event.command cmd grow save :: events).filterMap Event.command? =
          cmd :: events.filterMap Event.command? := rfl
      rw [hcmds] at hdel ⊢
      have hcmd := (hdel cmd List.mem_cons_self).tradable
      have hlogged := h.processCommand hcmd happ₀ hm
      have hlogged₁ : Logged crc bincode c (rs ++ [Wal.recordOf cmd]) s₁.2 := by
        rcases heq with heq | heq
        · rw [heq]
          exact hlogged
        · rw [heq]
          exact hlogged.countCommand hbin save
      have := ih hlogged₁ (fun x hx => hdel x (List.mem_cons_of_mem _ hx)) (happ₁ s₁ hs) hrun₁
      rwa [List.append_assoc] at this

theorem Logged.writeAhead {m : MatchingLoop} (h : Logged crc bincode c rs m) :
    WriteAhead crc bincode c m := by
  obtain ⟨w, -, hfile, hw⟩ := h.wal
  obtain ⟨e₀, n, hstart, hleads⟩ := h.start
  obtain ⟨w', hopen, hw'⟩ := Wal.holds_reopen hw (show walSize none < 2 ^ 63 by decide)
  have hopen' : Wal.openWithSize crc none (m.dir.wal.getD []) (walSize none) =
      (w'.file, .ok w') := by
    rw [hfile]
    exact hopen
  obtain ⟨e, hrec, hwf, hbook⟩ := recover_of_leads m.dir hstart hleads hw' hopen'
  exact ⟨_, e, w', hrec, MatchingEngine.sameBook_of_untimed hwf h.sound.wf hbook⟩

theorem logged_start {io : RecoverIo} {dir dir' : DataDir} {e : MatchingEngine} {w : Wal}
    (hrec : recover crc bincode io dir c = (dir', some (.ok (e, w))))
    (hcov : Covers crc bincode dir c none) (interval : UInt64) :
    start crc bincode io (some dir) c interval = some (enter e (some w) true dir' interval) ∧
      ∃ rs, rs.length = w.recordCount ∧
        Logged crc bincode c rs (enter e (some w) true dir' interval).2 := by
  have hstart : start crc bincode io (some dir) c interval =
      some (enter e (some w) true dir' interval) := by
    unfold start
    simp only [hrec]
  obtain ⟨rfl, e₀, n, rs, hsucc⟩ := succeeded hrec
  refine ⟨hstart, rs, hsucc.holds.recordCount.symm, (sound_start hstart).1, ?_, ?_⟩
  · exact ⟨w, rfl, rfl, hsucc.holds⟩
  · exact ⟨e₀, n, hsucc.start, hsucc.leads hcov⟩

/-- **Write-ahead.** When the gateway recovers from a log that covers its snapshot, and the appends
of the run succeed, then in every state reached, recovering from the directory as it is gives the
live book, and the log has the record of every command processed. Snapshots may be saved or fail at
any time. -/
theorem writeAhead_of_appendsOk (hbin : bincode.RoundTrip) {io : RecoverIo} {dir dir' : DataDir}
    {e : MatchingEngine} {w : Wal} (hrec : recover crc bincode io dir c = (dir', some (.ok (e, w))))
    (hcov : Covers crc bincode dir c none) {interval : UInt64} {s₀ s : Phase × MatchingLoop}
    (hstart : start crc bincode io (some dir) c interval = some s₀) {events : List Event}
    (hdel : ∀ cmd ∈ events.filterMap Event.command?, Delivered cmd)
    (happ : AppendsOk crc bincode s₀ events) (hrun : run crc bincode s₀ events = some s) :
    WriteAhead crc bincode c s.2 ∧
      ∃ w', s.2.wal = some w' ∧ s.2.dir.wal = some w'.file ∧
        WalIterator.Yields crc (w'.iterFrom w.recordCount)
          (Wal.commandItems w.recordCount (events.filterMap Event.command?)) := by
  obtain ⟨hstart', rs, hlen, hlogged⟩ := logged_start hrec hcov interval
  rw [hstart] at hstart'
  cases hstart'
  have h := hlogged.run hbin hdel happ hrun
  refine ⟨h.writeAhead, ?_⟩
  obtain ⟨w', hwal, hfile, hw⟩ := h.wal
  refine ⟨w', hwal, hfile, ?_⟩
  have hitems := hw.yields w.recordCount
  rwa [← hlen, List.drop_left,
    Wal.items_recordOf fun cmd hcmd => (hdel cmd hcmd).tradable, hlen] at hitems

/-- The first order after a start from nothing. -/
theorem writeAhead_of_appendsOk_first : ∃ s₀ s,
    start crc32 .fixint .ok (some ⟨some [], none⟩) 4 10000 = some s₀ ∧
      run crc32 .fixint s₀ [.command (.newOrder ⟨1, 10, .ask, 100, 5, 7⟩) .ok .ok] = some s ∧
      WriteAhead crc32 .fixint 4 s.2 ∧
      ∃ w', s.2.wal = some w' ∧ s.2.dir.wal = some w'.file ∧
        WalIterator.Yields crc32 (w'.iterFrom 0)
          [.ok (1, .newOrder ⟨1, 10, .ask, 100, 5, 0⟩)] := by
  obtain ⟨w, hopen, hw, -, -⟩ := Wal.openWithSize_recordOf crc32 []
    (show max _ (walSize none) < 2 ^ 63 by decide)
  have hrec := recover_noSnapshots .fixint 4 hopen hw
  have hcov : Covers crc32 .fixint ⟨some [], none⟩ 4 none := Or.inr fun snap hsnap => nomatch hsnap
  obtain ⟨hstart, -⟩ := logged_start hrec hcov 10000
  have hcmd : (EngineCommand.newOrder ⟨1, 10, .ask, 100, 5, 7⟩).Tradable := by decide
  -- the log starts at the front of the file, far from any limit
  have hpos : w.writePos = 0 := hw.writePos
  obtain ⟨w', ⟨-, -, hbig⟩ | ⟨happ, -⟩⟩ := Wal.append_spec hw .ok (.newOrder ⟨1, 10, .ask, 100, 5, 7⟩)
  · have := hbig rfl
    omega
  have hlog := log_enter happ (MatchingEngine.withCapacity 4) ⟨some w.file, none⟩ 10000
  obtain ⟨s, hrun, -, -⟩ := run_first .fixint hlog (by decide) .ok
  have happs : AppendsOk crc32 .fixint
      (enter (MatchingEngine.withCapacity 4) (some w) true ⟨some w.file, none⟩ 10000)
      [.command (.newOrder ⟨1, 10, .ask, 100, 5, 7⟩) .ok .ok] := by
    refine ⟨?_, fun _ _ => trivial⟩
    intro w₂ hw₂
    obtain rfl := Option.some.inj hw₂
    exact ⟨w', _, happ⟩
  have hdel : ∀ cmd ∈ [Event.command (.newOrder ⟨1, 10, .ask, 100, 5, 7⟩) .ok .ok].filterMap
      Event.command?, Delivered cmd := by
    intro cmd hmem
    rw [List.mem_singleton.1 hmem]
    exact delivered_of_tradable hcmd
  have h := writeAhead_of_appendsOk Bincode.roundTrip_fixint hrec hcov hstart hdel happs hrun
  rw [hw.recordCount] at h
  exact ⟨_, s, hstart, hrun, h⟩

/-! ## Runs that are not write-ahead -/

theorem applyAll_cancel_empty (c n : Nat) (id : UInt64) :
    (Book.empty c).applyAll (List.replicate n (.cancelOrder id)) = Book.empty c := by
  induction n with
  | zero => rfl
  | succ n ih =>
    rw [List.replicate_succ, Book.applyAll, List.foldl_cons]
    exact ih

theorem replayed_cancels (w : Wal) (c : UInt32) (n : Nat) (id : UInt64) :
    ∃ e, replayed w (MatchingEngine.withCapacity c)
        ((List.replicate n (EngineCommand.cancelOrder id)).map Wal.recordOf) = .ok (e, w) ∧
      e.book.WF ∧ e.book.toBook = Book.empty c.toNat := by
  have hcmds : ∀ cmd ∈ List.replicate n (EngineCommand.cancelOrder id), cmd.Tradable := by
    intro cmd hcmd
    rw [List.eq_of_mem_replicate hcmd]
    trivial
  refine ⟨_, by rw [replayed, decodeRecords_recordOf hcmds], ?_⟩
  have huntimed : (List.replicate n (EngineCommand.cancelOrder id)).map EngineCommand.untimed =
      List.replicate n (.cancelOrder id) := List.map_replicate
  obtain ⟨hwf, hbook⟩ := MatchingEngine.withCapacity_sim c
  obtain ⟨hwf', hbook'⟩ := MatchingEngine.applyAll_sim hwf
    ((List.replicate n (EngineCommand.cancelOrder id)).map EngineCommand.untimed)
  exact ⟨hwf', by rw [hbook', huntimed, hbook, applyAll_cancel_empty]⟩

/-- The order of the runs below, and what it does to an empty book. -/
theorem length_apply_order {e : MatchingEngine} (hwf : e.book.WF)
    (hbook : e.book.toBook = Book.empty 4) :
    (e.applyCommand (.newOrder ⟨1, 10, .ask, 100, 5, 7⟩)).book.allRestingOrders.length = 1 := by
  obtain ⟨-, hbook'⟩ := MatchingEngine.applyCommand_sim hwf (.newOrder ⟨1, 10, .ask, 100, 5, 7⟩)
  rw [← OrderBook.orders_toBook, hbook', hbook]
  exact Book.length_add_empty (by decide) _ (by decide)

/-- **A failed append.** A log of cancellations leaves no room for an order, and the file cannot
grow. The order is applied all the same. -/
theorem not_writeAhead_full {n : Nat} (hn : 24 * n ≤ walSize none)
    (hfull : walSize none < 24 * n + 48) :
    ∃ s₀ s, start crc32 .fixint .ok (some ⟨some (logBytes crc32
        ((List.replicate n (.cancelOrder 0)).map Wal.recordOf)), none⟩) 4 10000 = some s₀ ∧
      run crc32 .fixint s₀ [.command (.newOrder ⟨1, 10, .ask, 100, 5, 7⟩) .setLenFails .ok] =
        some s ∧ ¬ WriteAhead crc32 .fixint 4 s.2 := by
  have hsize : walSize none = 64 * 1024 * 1024 := rfl
  have hlog : (logBytes crc32 ((List.replicate n (.cancelOrder 0)).map Wal.recordOf)).length =
      n * 24 := by
    rw [List.map_replicate, length_logBytes_replicate,
      Record.length_bytes crc32 (Wal.valid_recordOf _)]
    rfl
  obtain ⟨w, hopen, hw, -, hmapped⟩ := Wal.openWithSize_recordOf crc32
    (List.replicate n (.cancelOrder 0)) (Nat.max_lt.2 ⟨by omega, show walSize none < 2 ^ 63 by omega⟩)
  obtain ⟨e, hreplayed, hwf, hbook⟩ := replayed_cancels w 4 n 0
  have hrec := recover_noSnapshots .fixint 4 hopen hw
  rw [hreplayed] at hrec
  have hstart : start crc32 .fixint .ok (some ⟨some (logBytes crc32
      ((List.replicate n (.cancelOrder 0)).map Wal.recordOf)), none⟩) 4 10000 =
      some (enter e (some w) true ⟨some w.file, none⟩ 10000) := by
    unfold start
    simp only [hrec]
  -- the append fails, and the log stays as it is
  have hpos := hw.writePos
  have hfits : w.mappedSize < w.writePos + alignUp (headerSize +
      (Protocol.payload (.newOrder ⟨1, 10, .ask, 100, 5, 7⟩)).length) := by
    show w.mappedSize < w.writePos + 48
    omega
  obtain ⟨w', happ, hw'⟩ := Wal.append_setLenFails hw hfits
  have hlogged := log_enter happ e ⟨some w.file, none⟩ 10000
  obtain ⟨s, hrun, hengine, hdir⟩ := run_first .fixint hlogged (by decide) .ok
  refine ⟨_, s, hstart, hrun, ?_⟩
  rintro ⟨dir, e₂, w₂, hrec₂, hsame⟩
  obtain ⟨w₃, hopen₃, hw₃⟩ := Wal.holds_reopen hw' (show walSize none < 2 ^ 63 by omega)
  obtain ⟨e₃, hreplayed₃, -, hbook₃⟩ := replayed_cancels w₃ 4 n 0
  rw [hdir, recover_noSnapshots .fixint 4 hopen₃ hw₃, hreplayed₃] at hrec₂
  cases hrec₂
  have hcount := congrArg List.length hsame.orders
  rw [List.length_map, List.length_map, hengine, length_apply_order hwf hbook,
    ← OrderBook.orders_toBook, hbook₃] at hcount
  cases hcount

/-- **A failed recovery.** The log begins with a record that does not decode; the gateway starts
without a log, and nothing it does is recovered. -/
theorem not_writeAhead_undecodable {r : Record} (hr : r.Valid) {err : ProtocolError}
    (herr : Protocol.decodeMessage r.payload = .error err) :
    ∃ s₀ s, start crc32 .fixint .ok (some ⟨some (logBytes crc32 [r]), none⟩) 4 10000 = some s₀ ∧
      run crc32 .fixint s₀ [.command (.newOrder ⟨1, 10, .ask, 100, 5, 7⟩) .ok .ok] =
        some s ∧ ¬ WriteAhead crc32 .fixint 4 s.2 := by
  have hsize : walSize none < 2 ^ 63 := by decide
  have hlen : (logBytes crc32 [r]).length < 2 ^ 63 := by
    have := hr.lt
    rw [logBytes_singleton, Record.length_bytes crc32 hr, alignUp, alignment, headerSize]
    omega
  obtain ⟨w, rs, hopen, hw, hparse, -⟩ := Wal.openWithSize_ok crc32 (Nat.max_lt.2 ⟨hlen, hsize⟩)
  have hparse' : Parses (Record.bytes crc32) Record.Valid
      (Wal.extend (logBytes crc32 [r]) (walSize none)) [r] :=
    .append (by simpa using hr) (Record.stops_zeros _)
  obtain rfl := hparse'.unique Record.selfDelimiting hparse
  have hreplayed : ∀ w, replayed w (MatchingEngine.withCapacity 4) [r] =
      .error (.wal (.protocol err)) := by
    intro w
    rw [replayed_cons, herr]
  have hrec := recover_noSnapshots .fixint 4 hopen hw
  rw [hreplayed] at hrec
  have hstart : start crc32 .fixint .ok (some ⟨some (logBytes crc32 [r]), none⟩) 4 10000 =
      some (enter (MatchingEngine.withCapacity 4) none false ⟨some w.file, none⟩ 10000) := by
    unfold start
    simp only [hrec]
  have hlogged : log crc32 .ok
      (enter (MatchingEngine.withCapacity 4) none false ⟨some w.file, none⟩ 10000).2
      (.newOrder ⟨1, 10, .ask, 100, 5, 7⟩) =
        some (enter (MatchingEngine.withCapacity 4) none false ⟨some w.file, none⟩ 10000).2 := rfl
  obtain ⟨s, hrun, -, hdir⟩ := run_first .fixint hlogged (by decide) .ok
  refine ⟨_, s, hstart, hrun, ?_⟩
  rintro ⟨dir, e₂, w₂, hrec₂, -⟩
  obtain ⟨w₃, hopen₃, hw₃⟩ := Wal.holds_reopen hw hsize
  have hdir' : s.2.dir = ⟨some w.file, none⟩ := hdir
  rw [hdir', recover_noSnapshots .fixint 4 hopen₃ hw₃, hreplayed] at hrec₂
  cases hrec₂

/-- **Two runs that are not write-ahead**: one with a failed append and one with a failed
recovery. -/
theorem not_writeAhead :
    (∃ s₀ s, start crc32 .fixint .ok (some ⟨some (logBytes crc32
        ((List.replicate 2796202 (.cancelOrder 0)).map Wal.recordOf)), none⟩) 4 10000 = some s₀ ∧
      run crc32 .fixint s₀ [.command (.newOrder ⟨1, 10, .ask, 100, 5, 7⟩) .setLenFails .ok] =
        some s ∧ ¬ WriteAhead crc32 .fixint 4 s.2) ∧
    ∃ s₀ s, start crc32 .fixint .ok (some ⟨some (logBytes crc32
        [⟨[0xFF], List.replicate 7 0⟩]), none⟩) 4 10000 = some s₀ ∧
      run crc32 .fixint s₀ [.command (.newOrder ⟨1, 10, .ask, 100, 5, 7⟩) .ok .ok] =
        some s ∧ ¬ WriteAhead crc32 .fixint 4 s.2 :=
  ⟨not_writeAhead_full (by decide) (by decide),
    not_writeAhead_undecodable ⟨nofun, by decide, by decide⟩ rfl⟩

end MatchingLoop

end Ferrox
