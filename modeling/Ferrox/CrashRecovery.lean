import Ferrox.RecoveryProof
import Ferrox.Bincode

/-!
# Recovery after a crash

A process logs commands, applies them and saves snapshots now and then. It stops at any point, some
of its snapshot files get lost or damaged, and recovery is run on what is left. The result is the
book that all logged commands give (`recover_eq_replay`), whichever snapshot it started from.

The invariant of a run is that each saved snapshot leads to the book of all the commands logged so
far (`Run.sound`).
-/

namespace Ferrox

open Bytes Framing

/-! ## The process and what it leaves behind -/

/-- A process between two of its steps. The pending command is logged and not applied yet. -/
structure Process where
  engine : MatchingEngine
  wal : Wal
  pending : Option EngineCommand
  snapshots : Option SnapshotDir

/-- **The runs of a process** with an engine of capacity `c` and a fresh log: the process, after the
commands `cmds` were logged. A save may fail or be cut off anywhere. -/
inductive Run (crc : List UInt8 → UInt32) (bincode : Bincode) (c : UInt32) (size : Nat) :
    List EngineCommand → Process → Prop
  | start {file : List UInt8} {w : Wal}
      (hopen : Wal.openWithSize crc none [] size = (file, .ok w)) :
      Run crc bincode c size [] ⟨MatchingEngine.withCapacity c, w, none, none⟩
  | append {cmds : List EngineCommand} {p : Process} {io : GrowIo} {w : Wal}
      {cmd : EngineCommand} {n : Nat} (h : Run crc bincode c size cmds p)
      (hidle : p.pending = none) (hcmd : cmd.Tradable)
      (happ : Wal.append crc io p.wal cmd = some (w, .ok n)) :
      Run crc bincode c size (cmds ++ [cmd]) { p with wal := w, pending := some cmd }
  | apply {cmds : List EngineCommand} {p : Process} {cmd : EngineCommand}
      (h : Run crc bincode c size cmds p) (hpending : p.pending = some cmd) :
      Run crc bincode c size cmds
        { p with engine := p.engine.applyCommand cmd, pending := none }
  | save {cmds : List EngineCommand} {p : Process} (h : Run crc bincode c size cmds p)
      (hidle : p.pending = none) (io : Snapshot.SaveIo) :
      Run crc bincode c size cmds { p with
        snapshots := (Snapshot.save bincode io
          (Snapshot.capture crc bincode p.engine (UInt64.ofNat p.wal.recordCount))
          p.snapshots).1 }

/-- What a stopped process leaves in the log file: its log, or, when it was stopped inside an append,
its log and then bytes that are not a record. -/
def LeftIn (crc : List UInt8 → UInt32) (w : Wal) (file : List UInt8) : Prop :=
  file = w.file ∨ file.length < 2 ^ 63 ∧ w.file.take w.writePos <+: file ∧
    ∀ n, Wal.scanRecords crc (file ++ List.replicate n 0) = ⟨w.writePos, w.recordCount⟩

/-- Every file left is one that was saved, or one that `load_latest` rejects. -/
def Survived (crc : List UInt8 → UInt32) (bincode : Bincode) (saved left : Option SnapshotDir) :
    Prop :=
  ∀ f ∈ Snapshot.filesOf left, f ∈ Snapshot.filesOf saved ∨
    isSnapshotFileName f.1 = false ∨ Snapshot.accepted crc bincode f.2 = none

/-! ## What a run preserves -/

variable {crc : List UInt8 → UInt32} {bincode : Bincode} {c : UInt32} {size : Nat}
  {cmds : List EngineCommand} {p : Process}

theorem MatchingEngine.fresh_applyAll (c : UInt32) (cmds : List EngineCommand) :
    ((withCapacity c).applyAll cmds).book.WF ∧
      ((withCapacity c).applyAll cmds).book.toBook = (Book.empty c.toNat).applyAll cmds := by
  obtain ⟨hwf, hbook⟩ := withCapacity_sim c
  have := applyAll_sim hwf cmds
  rwa [hbook] at this

/-- The snapshot can be restored, and the records behind its number give the book `B`. -/
def LeadsFrom (c : UInt32) (rs : List Record) (B : Book) (snap : Snapshot) : Prop :=
  ∃ e₀, snap.restore c = .ok e₀ ∧ Recovery.Leads rs e₀ snap.walRecordCount.toNat B

/-- **The invariant of a run.** -/
structure Run.Sound (crc : List UInt8 → UInt32) (bincode : Bincode) (c : UInt32)
    (cmds : List EngineCommand) (p : Process) : Prop where
  tradable : ∀ cmd ∈ cmds, cmd.Tradable
  wal : p.wal.Holds crc (cmds.map Wal.recordOf)
  engine : ∃ applied, cmds = applied ++ p.pending.toList ∧
    p.engine = (MatchingEngine.withCapacity c).applyAll applied
  snapshots : ∀ f ∈ Snapshot.filesOf p.snapshots, isSnapshotFileName f.1 →
    ∃ snap, bincode.deserialize f.2 = some snap ∧
      LeadsFrom c (cmds.map Wal.recordOf) ((Book.empty c.toNat).applyAll cmds) snap

theorem Run.sound (hbin : bincode.RoundTrip) (h : Run crc bincode c size cmds p) :
    Run.Sound crc bincode c cmds p := by
  induction h with
  | start hopen => exact ⟨nofun, Wal.holds_fresh hopen, ⟨[], rfl, rfl⟩, nofun⟩
  | @append cmds p io w cmd n h hidle hcmd happ ih =>
    obtain ⟨w', ⟨happ', -⟩ | ⟨happ', hholds⟩⟩ := Wal.append_spec ih.wal io cmd
    · rw [happ'] at happ
      cases happ
    rw [happ'] at happ
    cases happ
    have hmap : (cmds ++ [cmd]).map Wal.recordOf = cmds.map Wal.recordOf ++ [Wal.recordOf cmd] :=
      List.map_append
    refine ⟨?_, hmap ▸ hholds, ?_, ?_⟩
    · intro x hx
      rcases List.mem_append.1 hx with hx | hx
      · exact ih.tradable x hx
      · rw [List.mem_singleton.1 hx]
        exact hcmd
    · obtain ⟨applied, happlied, hengine⟩ := ih.engine
      rw [hidle, Option.toList_none, List.append_nil] at happlied
      exact ⟨applied, by rw [happlied]; rfl, hengine⟩
    · intro f hf hname
      obtain ⟨snap, hsnap, e₀, hrestore, hleads⟩ := ih.snapshots f hf hname
      rw [hmap, Book.applyAll, List.foldl_append]
      exact ⟨snap, hsnap, e₀, hrestore, hleads.append hcmd⟩
  | @apply cmds p cmd h hpending ih =>
    obtain ⟨applied, happlied, hengine⟩ := ih.engine
    refine ⟨ih.tradable, ih.wal, ⟨cmds, (List.append_nil cmds).symm, ?_⟩, ih.snapshots⟩
    show p.engine.applyCommand cmd = _
    rw [happlied, hpending, hengine, MatchingEngine.applyAll, MatchingEngine.applyAll,
      List.foldl_append]
    rfl
  | @save cmds p h hidle io ih =>
    refine ⟨ih.tradable, ih.wal, ih.engine, ?_⟩
    obtain ⟨applied, happlied, hengine⟩ := ih.engine
    rw [hidle, Option.toList_none, List.append_nil] at happlied
    subst happlied
    obtain ⟨hwf, hbook⟩ := MatchingEngine.fresh_applyAll c cmds
    rw [← hengine] at hwf hbook
    have hcap : p.engine.book.toBook.capacity = c.toNat := by
      rw [hbook]
      exact Book.capacity_applyAll _ _
    intro f hf hname
    rcases Snapshot.mem_save hf with hf | hf | hf
    · exact ih.snapshots f hf hname
    · rw [hf] at hname
      cases hname
    · rw [hf, hbin _ (Snapshot.length_capture_orders crc bincode hwf hcap _),
        ih.wal.recordCount, ← hbook]
      exact ⟨_, rfl, Recovery.leads_capture crc bincode hwf hcap ih.wal.length_lt⟩

/-! ## Recovering -/

theorem LeftIn.holds {w : Wal} {rs : List Record} (h : w.Holds crc rs) {file : List UInt8}
    (hleft : LeftIn crc w file) {n : Nat} (hn : n < 2 ^ 63) :
    ∃ w', Wal.openWithSize crc none file n = (w'.file, .ok w') ∧ w'.Holds crc rs := by
  rcases hleft with rfl | ⟨hlen, hstart, hscan⟩
  · exact Wal.holds_reopen h hn
  · obtain ⟨w', rs', hopen, hholds, hparse, -⟩ :=
      Wal.openWithSize_ok crc (Nat.max_lt.2 ⟨hlen, hn⟩)
    refine ⟨w', hopen, ?_⟩
    obtain ⟨m, hfile⟩ := h.file
    rw [hfile, h.writePos, List.take_left] at hstart
    -- the log is a sequence of valid records, and the scanner finds no more than it
    have hle : rs <+: rs' := hparse.longest Record.selfDelimiting h.valid
      (hstart.trans (List.prefix_append _ _))
    have hcount : rs'.length = rs.length := by
      have := Wal.scanRecords_eq hparse
      rw [Wal.extend, hscan, h.recordCount] at this
      exact (congrArg Scan.count this).symm
    rw [hle.eq_of_length hcount.symm]
    exact hholds

/-- What is loaded from the files that are left was saved. -/
theorem Survived.loaded {saved left : Option SnapshotDir} (h : Survived crc bincode saved left)
    {snap : Snapshot} (hload : left.bind (Snapshot.loadLatest crc bincode) = some snap) :
    ∃ f ∈ Snapshot.filesOf saved, isSnapshotFileName f.1 ∧
      bincode.deserialize f.2 = some snap := by
  obtain ⟨d, rfl, hd⟩ := Option.bind_eq_some_iff.1 hload
  rcases Snapshot.loadLatest_cases crc bincode d with ⟨hnone, -⟩ | ⟨f, s, hsome, hnew⟩
  · rw [hnone] at hd
    cases hd
  rw [hsome] at hd
  obtain rfl := Option.some.inj hd
  have hacc := hnew.accepted
  rcases h f hnew.mem with hf | hf | hf
  · exact ⟨f, hf, hnew.name, (Option.filter_eq_some_iff.1 hacc).1⟩
  · have hname := hnew.name
    rw [hf] at hname
    cases hname
  · rw [hf] at hacc
    cases hacc

theorem Run.Sound.startingPoint (h : Run.Sound crc bincode c cmds p) {left : Option SnapshotDir}
    (hleft : Survived crc bincode p.snapshots left) :
    ∃ e₀ n, Recovery.startingPoint crc bincode left c = .ok (e₀, n) ∧
      Recovery.Leads (cmds.map Wal.recordOf) e₀ n ((Book.empty c.toNat).applyAll cmds) := by
  unfold Recovery.startingPoint
  cases hload : left.bind (Snapshot.loadLatest crc bincode) with
  | none =>
    obtain ⟨hwf, hbook⟩ := MatchingEngine.withCapacity_sim c
    refine ⟨_, 0, rfl, ?_⟩
    have := (Recovery.Leads.refl hwf []).appendAll h.tradable
    rwa [hbook] at this
  | some snap =>
    obtain ⟨f, hf, hname, hsnap⟩ := hleft.loaded hload
    obtain ⟨snap', hsnap', e₀, hrestore, hleads⟩ := h.snapshots f hf hname
    rw [hsnap] at hsnap'
    obtain rfl := Option.some.inj hsnap'
    simp only [hrestore]
    exact ⟨e₀, _, rfl, hleads⟩

/-- **Recovery equals full replay.** Wherever a run stops, and whichever of its snapshots survive,
`recover` succeeds, its log has all logged commands, and its book is that of a fresh engine that
applied them all. -/
theorem recover_eq_replay (hbin : bincode.RoundTrip) (h : Run crc bincode c size cmds p)
    {file : List UInt8} (hfile : LeftIn crc p.wal file) {left : Option SnapshotDir}
    (hleft : Survived crc bincode p.snapshots left) {size' : Option Nat}
    (hsize' : Recovery.walSize size' < 2 ^ 63) :
    ∃ dir e w, Recovery.recoverWithWalSize crc bincode .ok ⟨some file, left⟩ c size' =
        (dir, some (.ok (e, w))) ∧
      w.recordCount = cmds.length ∧
      e.SameBook ((MatchingEngine.withCapacity c).applyAll cmds) := by
  have hsound := h.sound hbin
  obtain ⟨w, hopen, hw⟩ := hfile.holds hsound.wal hsize'
  obtain ⟨e₀, n, hstart, hleads⟩ := hsound.startingPoint hleft
  obtain ⟨e, hrec, hwf, hbook⟩ := Recovery.recover_of_leads ⟨some file, left⟩ hstart hleads hw hopen
  obtain ⟨hwf', hbook'⟩ := MatchingEngine.fresh_applyAll c cmds
  refine ⟨_, e, w, hrec, ?_, ?_⟩
  · rw [hw.recordCount, List.length_map]
  · exact MatchingEngine.sameBook_of_untimed hwf hwf' (hbook.trans (congrArg _ hbook'.symm))

/-- A snapshot after the first command, and a stop between logging the second and applying it. -/
theorem recover_eq_replay_pending :
    ∃ p : Process, Run crc32 .fixint 4 64
        [.newOrder ⟨1, 10, .ask, 100, 5, 7⟩, .newOrder ⟨2, 11, .bid, 100, 2, 8⟩] p ∧
      p.engine.book.allRestingOrders = [⟨1, 10, .ask, 100, 5, 7⟩] ∧
      (Snapshot.filesOf p.snapshots).map Prod.fst = ["snapshot_0000000001.bin".toList] ∧
      ∃ dir e w, Recovery.recoverWithWalSize crc32 .fixint .ok ⟨some p.wal.file, p.snapshots⟩ 4
          (some 64) = (dir, some (.ok (e, w))) ∧
        w.recordCount = 2 ∧
        e.SameBook ((MatchingEngine.withCapacity 4).applyAll
          [.newOrder ⟨1, 10, .ask, 100, 5, 7⟩, .newOrder ⟨2, 11, .bid, 100, 2, 8⟩]) := by
  let cmd₁ : EngineCommand := .newOrder ⟨1, 10, .ask, 100, 5, 7⟩
  let cmd₂ : EngineCommand := .newOrder ⟨2, 11, .bid, 100, 2, 8⟩
  let w₀ : Wal := ⟨List.replicate 64 0, 64, 0, 64, List.replicate 40 0, 0⟩
  let w₁ : Wal := ⟨(Wal.recordOf cmd₁).bytes crc32 ++ List.replicate 16 0, 64, 48, 64,
    Protocol.payload cmd₁, 1⟩
  let w₂ : Wal := ⟨(Wal.recordOf cmd₁).bytes crc32 ++ (Wal.recordOf cmd₂).bytes crc32 ++
    List.replicate 32 0, 128, 96, 128, Protocol.payload cmd₂, 2⟩
  have hopen : Wal.openWithSize crc32 none [] 64 = (w₀.file, .ok w₀) := by
    decide +kernel
  have happ₁ : Wal.append crc32 .ok w₀ cmd₁ = some (w₁, .ok 1) := by decide +kernel
  have happ₂ : Wal.append crc32 .ok w₁ cmd₂ = some (w₂, .ok 2) := by decide +kernel
  have hcmd₁ : cmd₁.Tradable := by decide
  have hcmd₂ : cmd₂.Tradable := by decide
  have hrun := ((((Run.start hopen : Run crc32 .fixint 4 64 [] _).append rfl hcmd₁ happ₁).apply
    rfl).save rfl .ok).append rfl hcmd₂ happ₂
  refine ⟨_, hrun, by decide +kernel, by decide +kernel, ?_⟩
  exact recover_eq_replay Bincode.roundTrip_fixint hrun (Or.inl rfl) (fun f hf => Or.inl hf)
    (by decide)

end Ferrox
