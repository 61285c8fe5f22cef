import Ferrox.CrashRecovery

/-!
# What a data directory holds

A file of the log keeps records when it parses to them, whichever size it is opened with (`Keeps`).
Zeros behind them, a torn append and an opening that fails half-way change nothing about that. A
directory holds commands when its log keeps their records, and every snapshot that would be accepted
leads to the book they make (`DataDir.Holds`). This is what recovering needs, and what recovering,
logging a command, saving a snapshot and losing one preserve.
-/

namespace Ferrox

open Bytes Framing Recovery

/-! ## Files that hold a log -/

/-- **The records of a file**, whichever size it is opened with. -/
structure Keeps (crc : List UInt8 → UInt32) (file : List UInt8) (rs : List Record) : Prop where
  limit : file.length < 2 ^ 63
  parses : ∀ n, Parses (Record.bytes crc) Record.Valid (file ++ List.replicate n 0) rs

section Keeps

variable {crc : List UInt8 → UInt32} {file : List UInt8} {rs : List Record} {w : Wal}

theorem keeps_nil (crc : List UInt8 → UInt32) : Keeps crc [] [] :=
  ⟨by decide, fun n => .nil (Record.stops_zeros n)⟩

theorem Keeps.zeros (h : Keeps crc file rs) {n : Nat} (hn : file.length + n < 2 ^ 63) :
    Keeps crc (file ++ List.replicate n 0) rs := by
  refine ⟨by rwa [List.length_append, List.length_replicate], ?_⟩
  intro m
  rw [List.append_assoc, List.replicate_append_replicate]
  exact h.parses (n + m)

theorem keeps_logBytes (hv : ∀ r ∈ rs, r.Valid) (hlen : (logBytes crc rs).length < 2 ^ 63) :
    Keeps crc (logBytes crc rs) rs :=
  ⟨hlen, fun n => .append hv (Record.stops_zeros n)⟩

theorem Wal.Holds.keeps (h : w.Holds crc rs) : Keeps crc w.file rs := by
  obtain ⟨n, hfile⟩ := h.file
  have hlimit := h.limit
  rw [hfile, List.length_append, List.length_replicate] at hlimit
  rw [hfile]
  exact (keeps_logBytes h.valid (by omega)).zeros hlimit

/-- What a stop inside an append leaves. -/
theorem LeftIn.keeps (h : w.Holds crc rs) (hleft : LeftIn crc w file) : Keeps crc file rs := by
  rcases hleft with rfl | ⟨hlen, hstart, hscan⟩
  · exact h.keeps
  · refine ⟨hlen, ?_⟩
    intro n
    obtain ⟨rs', hparse⟩ := exists_parses (Record.bytes crc) Record.Valid
      (fun r hr => Record.bytes_ne_nil crc hr) (file ++ List.replicate n 0)
    obtain ⟨m, hfile⟩ := h.file
    rw [hfile, h.writePos, List.take_left] at hstart
    have hle : rs <+: rs' := hparse.longest Record.selfDelimiting h.valid
      (hstart.trans (List.prefix_append _ _))
    have hcount : rs'.length = rs.length := by
      have := Wal.scanRecords_eq hparse
      rw [hscan, h.recordCount] at this
      exact (congrArg Scan.count this).symm
    rwa [hle.eq_of_length hcount.symm]

theorem Keeps.opens (h : Keeps crc file rs) {size : Nat} (hsize : size < 2 ^ 63) :
    ∃ w, Wal.openWithSize crc none file size = (w.file, .ok w) ∧ w.Holds crc rs := by
  obtain ⟨w, rs', hopen, hw, hparse, -⟩ := Wal.openWithSize_ok crc (Nat.max_lt.2 ⟨h.limit, hsize⟩)
  obtain rfl := (h.parses _).unique Record.selfDelimiting hparse
  exact ⟨w, hopen, hw⟩

/-- **A failed opening** leaves a file with the same records, whichever call it was that failed. -/
theorem Keeps.openFails (h : Keeps crc file rs) {io : OpenIo} {size : Nat} (hsize : size < 2 ^ 63)
    {file' : List UInt8} {e : WalError}
    (hopen : Wal.openWithSize crc io file size = (file', .error e)) : Keeps crc file' rs := by
  have hlimit := h.limit
  obtain ⟨hv, rest, hsplit, -⟩ := h.parses (size - file.length)
  have hlen : (logBytes crc rs).length ≤ max file.length size := by
    rw [← Wal.length_extend, Wal.extend, hsplit, List.length_append]
    exact Nat.le_add_right _ _
  have hextend : Keeps crc (Wal.extend file size) rs := h.zeros (by omega)
  have hlog : Keeps crc (logBytes crc rs) rs := keeps_logBytes hv (by omega)
  have hscan : Wal.scanRecords crc (Wal.extend file size) = ⟨(logBytes crc rs).length, rs.length⟩ :=
    Wal.scanRecords_eq (h.parses _)
  have hmapped : (if file.length < size then size else file.length) = max file.length size := by
    split_ifs <;> omega
  have hgrow : (if file.length < size then setLen file size else some file) =
      some (Wal.extend file size) := by
    by_cases hlt : file.length < size
    · rw [if_pos hlt, Wal.setLen_of_le (by omega) hsize]
    · rw [if_neg hlt, Wal.extend, Nat.sub_eq_zero_of_le (by omega), List.replicate_zero,
        List.append_nil]
  have hcut : setLen (Wal.extend file size) (logBytes crc rs).length = some (logBytes crc rs) := by
    rw [Wal.setLen_of_ge (by rw [Wal.length_extend]; exact hlen) (by omega), Wal.extend, hsplit]
    exact congrArg some List.take_left
  have hregrow : setLen (logBytes crc rs) (max file.length size) =
      some (Wal.extend (logBytes crc rs) (max file.length size)) :=
    Wal.setLen_of_le hlen (by omega)
  have hre : Keeps crc (Wal.extend (logBytes crc rs) (max file.length size)) rs :=
    hlog.zeros (by omega)
  unfold Wal.openWithSize at hopen
  cases io with
  | none => simp [hgrow, hmapped, hscan, hcut, hregrow] at hopen
  | some call =>
    cases call with
    | openFile =>
      obtain ⟨rfl, -⟩ := Prod.mk.inj hopen
      exact h
    | extend =>
      by_cases hlt : file.length < size
      · simp only [hlt, reduceCtorEq, Option.some.injEq, if_true, if_false] at hopen
        obtain ⟨rfl, -⟩ := Prod.mk.inj hopen
        exact h
      · rw [if_neg hlt] at hgrow hmapped
        rw [← Option.some.inj hgrow] at hscan hcut
        rw [← hmapped] at hregrow
        simp [hlt, hscan, hcut, hregrow] at hopen
    | map =>
      simp only [hgrow, reduceCtorEq, Option.some.injEq, if_true, if_false] at hopen
      obtain ⟨rfl, -⟩ := Prod.mk.inj hopen
      exact hextend
    | truncate =>
      simp only [hgrow, reduceCtorEq, Option.some.injEq, if_true, if_false] at hopen
      obtain ⟨rfl, -⟩ := Prod.mk.inj hopen
      exact hextend
    | reextend =>
      simp only [hgrow, hscan, hcut, reduceCtorEq, Option.some.injEq, if_true, if_false] at hopen
      obtain ⟨rfl, -⟩ := Prod.mk.inj hopen
      exact hlog
    | remap =>
      simp only [hgrow, hmapped, hscan, hcut, hregrow, reduceCtorEq, Option.some.injEq, if_true,
        if_false] at hopen
      obtain ⟨rfl, -⟩ := Prod.mk.inj hopen
      exact hre

/-- **Recovering** loses no record of a file that keeps them, and adds none, whichever calls fail. If
there is an engine, it has replayed the records, and the open log holds them. -/
theorem Keeps.recover {dir : DataDir} (h : Keeps crc (dir.wal.getD []) rs) (bincode : Bincode)
    (io : RecoverIo) (c : UInt32) {size : Option Nat} (hsize : walSize size < 2 ^ 63) :
    ∃ dir' result, recoverWithWalSize crc bincode io dir c size = (dir', some result) ∧
      dir'.snapshots = dir.snapshots ∧ Keeps crc (dir'.wal.getD []) rs ∧
      ∀ e w, result = .ok (e, w) → dir'.wal = some w.file ∧ w.Holds crc rs ∧ ∃ e₀ n cmds,
        startingPoint crc bincode dir.snapshots c = .ok (e₀, n) ∧
        decodeRecords (rs.drop n) = .ok cmds ∧ e = e₀.applyAll cmds := by
  by_cases hdir : io.createDirFails = true
  · refine ⟨dir, .error (.wal .io), ?_, rfl, h, nofun⟩
    rw [recoverWithWalSize, if_pos hdir]
  by_cases hread : io.readDirFails = true
  · refine ⟨dir, .error (.snapshot .io), ?_, rfl, h, nofun⟩
    rw [recoverWithWalSize, if_neg hdir, if_pos hread]
  cases hstart : startingPoint crc bincode dir.snapshots c with
  | error err =>
    refine ⟨dir, .error err, ?_, rfl, h, nofun⟩
    rw [recoverWithWalSize, if_neg hdir, if_neg hread, hstart]
  | ok start =>
    obtain ⟨e₀, n⟩ := start
    cases hopen : Wal.openWithSize crc io.wal (dir.wal.getD []) (walSize size) with
    | mk file result =>
      cases result with
      | error err =>
        have hfile : Keeps crc file rs := h.openFails hsize hopen
        refine ⟨{ dir with wal := if io.wal = some .openFile then dir.wal else some file },
          .error (.wal err), ?_, rfl, ?_, nofun⟩
        · rw [walSize] at hopen
          rw [recoverWithWalSize, if_neg hdir, if_neg hread]
          simp only [hstart, hopen]
        · show Keeps crc (Option.getD (if io.wal = some .openFile then dir.wal else some file) []) _
          split_ifs
          · exact h
          · exact hfile
      | ok w =>
        obtain ⟨w', hopen', hw⟩ := h.opens hsize
        rw [Wal.openWithSize_io hopen] at hopen'
        obtain ⟨rfl, hww'⟩ := Prod.mk.inj hopen'
        obtain rfl := Except.ok.inj hww'
        refine ⟨_, _, recoverWithWalSize_eq dir (Bool.not_eq_true _ ▸ hdir)
          (Bool.not_eq_true _ ▸ hread) hstart hopen hw, rfl, hw.keeps, ?_⟩
        intro e w' hresult
        unfold replayed at hresult
        cases hdecode : decodeRecords (rs.drop n) with
        | error p =>
          rw [hdecode] at hresult
          cases hresult
        | ok cmds =>
          rw [hdecode] at hresult
          obtain ⟨rfl, rfl⟩ := Prod.mk.inj (Except.ok.inj hresult)
          exact ⟨rfl, hw, e₀, n, cmds, rfl, hdecode, rfl⟩

end Keeps

/-! ## Directories -/

theorem Book.capacity_congr {B B' : Book} (h : B.untimed = B'.untimed) :
    B.capacity = B'.capacity := by
  have : B.untimed.capacity = B'.untimed.capacity := congrArg Book.capacity h
  exact this

theorem Recovery.Leads.congr {rs : List Record} {e₀ : MatchingEngine} {n : Nat} {B B' : Book}
    (h : Leads rs e₀ n B) (hB : B.untimed = B'.untimed) : Leads rs e₀ n B' := by
  obtain ⟨cmds, hdecode, hbook⟩ := h.replay
  exact ⟨h.wf, Book.capacity_congr hB ▸ h.le, cmds, hdecode, hbook.trans hB⟩

/-- **The directory holds the commands**: they are what its log parses to, and every snapshot that
would be accepted leads to the book they make. -/
structure DataDir.Holds (crc : List UInt8 → UInt32) (bincode : Bincode) (c : UInt32)
    (cmds : List EngineCommand) (dir : DataDir) : Prop where
  log : Keeps crc (dir.wal.getD []) (cmds.map Wal.recordOf)
  snapshots : ∀ f ∈ Snapshot.filesOf dir.snapshots, isSnapshotFileName f.1 →
    ∀ snap, Snapshot.accepted crc bincode f.2 = some snap →
      LeadsFrom c (cmds.map Wal.recordOf) ((Book.empty c.toNat).applyAll cmds) snap

namespace DataDir

variable {crc : List UInt8 → UInt32} {bincode : Bincode} {c : UInt32} {cmds : List EngineCommand}
  {dir : DataDir}

theorem holds_empty : Holds crc bincode c [] ⟨none, none⟩ := ⟨keeps_nil crc, nofun⟩

/-- Whichever snapshot a recovery starts from, it leads to the book of the commands. -/
theorem Holds.startingPoint (h : Holds crc bincode c cmds dir)
    (hcmds : ∀ cmd ∈ cmds, cmd.Tradable) :
    ∃ e₀ n, startingPoint crc bincode dir.snapshots c = .ok (e₀, n) ∧
      Leads (cmds.map Wal.recordOf) e₀ n ((Book.empty c.toNat).applyAll cmds) := by
  cases hload : dir.snapshots.bind (Snapshot.loadLatest crc bincode) with
  | none =>
    obtain ⟨hwf, hbook⟩ := MatchingEngine.withCapacity_sim c
    refine ⟨_, 0, startingPoint_none c hload, ?_⟩
    have := (Leads.refl hwf []).appendAll hcmds
    rwa [hbook] at this
  | some snap =>
    obtain ⟨d, hd, hload'⟩ := Option.bind_eq_some_iff.1 hload
    rcases Snapshot.loadLatest_cases crc bincode d with ⟨hnone, -⟩ | ⟨f, s, hsome, hnew⟩
    · rw [hnone] at hload'
      cases hload'
    rw [hsome] at hload'
    obtain rfl := Option.some.inj hload'
    have hmem : f ∈ Snapshot.filesOf dir.snapshots := by
      rw [hd]
      exact hnew.mem
    obtain ⟨e₀, hrestore, hleads⟩ := h.snapshots f hmem hnew.name s hnew.accepted
    exact ⟨e₀, _, startingPoint_restored hload hrestore, hleads⟩

/-- **Recovering from a directory**, whichever calls fail: the directory goes on to hold the
commands, and if there is an engine, it has their book, and there is an open log. -/
theorem Holds.recover (h : Holds crc bincode c cmds dir) (hcmds : ∀ cmd ∈ cmds, cmd.Tradable)
    (io : RecoverIo) {size : Option Nat} (hsize : walSize size < 2 ^ 63) :
    ∃ dir' result, recoverWithWalSize crc bincode io dir c size = (dir', some result) ∧
      Holds crc bincode c cmds dir' ∧
      ∀ e w, result = .ok (e, w) → dir'.wal = some w.file ∧ w.Holds crc (cmds.map Wal.recordOf) ∧
        e.book.WF ∧ e.book.toBook.untimed = ((Book.empty c.toNat).applyAll cmds).untimed := by
  obtain ⟨e₀, n, hstart, hleads⟩ := h.startingPoint hcmds
  obtain ⟨dir', result, hrec, hsnapshots, hlog, hok⟩ := h.log.recover bincode io c hsize
  refine ⟨dir', result, hrec, ⟨hlog, hsnapshots ▸ h.snapshots⟩, ?_⟩
  intro e w hresult
  obtain ⟨hwal, hw, e₁, n₁, replay, hstart₁, hdecode, rfl⟩ := hok e w hresult
  obtain ⟨rfl, rfl⟩ := Prod.mk.inj (Except.ok.inj (hstart₁.symm.trans hstart))
  obtain ⟨replay', hdecode', hbook⟩ := hleads.replay
  obtain rfl := Except.ok.inj (hdecode'.symm.trans hdecode)
  obtain ⟨hwf, hsim⟩ := MatchingEngine.applyAll_sim hleads.wf replay'
  exact ⟨hwal, hw, hwf, by rw [hsim, hbook]⟩

theorem Holds.append (h : Holds crc bincode c cmds dir) {cmd : EngineCommand} (hcmd : cmd.Tradable)
    {w : Wal} (hw : w.Holds crc (cmds.map Wal.recordOf ++ [Wal.recordOf cmd])) :
    Holds crc bincode c (cmds ++ [cmd]) { dir with wal := some w.file } := by
  have hmap : (cmds ++ [cmd]).map Wal.recordOf = cmds.map Wal.recordOf ++ [Wal.recordOf cmd] :=
    List.map_append
  refine ⟨hmap ▸ hw.keeps, ?_⟩
  intro f hf hname snap hacc
  obtain ⟨e₀, hrestore, hleads⟩ := h.snapshots f hf hname snap hacc
  rw [hmap, Book.applyAll_append]
  exact ⟨e₀, hrestore, hleads.append hcmd⟩

theorem Holds.save (hbin : bincode.RoundTrip) (h : Holds crc bincode c cmds dir) {w : Wal}
    (hw : w.Holds crc (cmds.map Wal.recordOf)) {e : MatchingEngine} (hwf : e.book.WF)
    (hbook : e.book.toBook.untimed = ((Book.empty c.toNat).applyAll cmds).untimed)
    (io : Snapshot.SaveIo) :
    Holds crc bincode c cmds { dir with snapshots := ((Snapshot.capture crc bincode e
      (UInt64.ofNat w.recordCount)).save bincode io dir.snapshots).1 } := by
  refine ⟨h.log, ?_⟩
  have hcap : e.book.toBook.capacity = c.toNat := by
    rw [Book.capacity_congr hbook, Book.capacity_applyAll]
    rfl
  intro f hf hname snap hacc
  rcases Snapshot.mem_save hf with hf | hf | hf
  · exact h.snapshots f hf hname snap hacc
  · rw [hf] at hname
    cases hname
  · rw [hf, Snapshot.accepted_serialize hbin
      (Snapshot.length_capture_orders crc bincode hwf hcap _)
      (Snapshot.verifyChecksum_capture crc bincode e _)] at hacc
    obtain rfl := Option.some.inj hacc
    rw [hw.recordCount]
    obtain ⟨e₀, hrestore, hleads⟩ := leads_capture crc bincode hwf hcap hw.length_lt
    exact ⟨e₀, hrestore, hleads.congr hbook⟩

theorem Holds.survived (h : Holds crc bincode c cmds dir) {left : Option SnapshotDir}
    (hleft : Survived crc bincode dir.snapshots left) :
    Holds crc bincode c cmds { dir with snapshots := left } := by
  refine ⟨h.log, ?_⟩
  intro f hf hname snap hacc
  rcases hleft f hf with hf | hf | hf
  · exact h.snapshots f hf hname snap hacc
  · rw [hf] at hname
    cases hname
  · rw [hf] at hacc
    cases hacc

end DataDir

end Ferrox
