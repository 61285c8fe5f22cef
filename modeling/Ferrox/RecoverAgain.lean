import Ferrox.DataDirectory
import Ferrox.RecoverTwice

/-!
# Recovering is repeatable

A directory may hold anything: a log of any bytes, snapshot files of any content. A recovery of it
settles what it holds. It zeroes what is behind the records it found, so that they are the ones that
are found from then on, whichever size the log is opened with. An attempt that is broken off by a
failing call changes nothing about that.

So all recoveries agree with the first one (`recover_again`): with its engine and its log, or with
its error. This is what the fuzz target `wal_recover` checks for two recoveries in a row and no
snapshots.
-/

namespace Ferrox

open Bytes Framing

namespace Recovery

variable {crc : List UInt8 → UInt32} {bincode : Bincode} {c : UInt32} {dir dir' : DataDir}
  {rs : List Record} {size : Option Nat}

/-! ## What recoveries agree on -/

/-- **Two results agree**: they are the same error, or the same engine with the same log. What the
logs may differ in is how far they are mapped. -/
inductive Agree (crc : List UInt8 → UInt32) :
    Except RecoveryError (MatchingEngine × Wal) → Except RecoveryError (MatchingEngine × Wal) → Prop
  | error (e : RecoveryError) : Agree crc (.error e) (.error e)
  | ok (e : MatchingEngine) {w w' : Wal} (hcount : w'.recordCount = w.recordCount)
      (hpos : w'.writePos = w.writePos) (hlog : w'.file.take w'.writePos = w.file.take w.writePos)
      (hiter : ∀ n, ∃ items, WalIterator.Yields crc (w.iterFrom n) items ∧
        WalIterator.Yields crc (w'.iterFrom n) items) : Agree crc (.ok (e, w)) (.ok (e, w'))

theorem agree_replayed {w w' : Wal} (hw : w.Holds crc rs) (hw' : w'.Holds crc rs)
    (e : MatchingEngine) (n : Nat) :
    Agree crc (replayed w e (rs.drop n)) (replayed w' e (rs.drop n)) := by
  unfold replayed
  cases decodeRecords (rs.drop n) with
  | error err => exact .error _
  | ok cmds =>
    obtain ⟨m, hfile⟩ := hw.file
    obtain ⟨m', hfile'⟩ := hw'.file
    refine .ok _ ?_ ?_ ?_ (fun n => ⟨_, hw.yields n, hw'.yields n⟩)
    · rw [hw.recordCount, hw'.recordCount]
    · rw [hw.writePos, hw'.writePos]
    · rw [hfile, hfile', hw.writePos, hw'.writePos, List.take_left, List.take_left]

/-! ## Attempts -/

/-- A recovery with some capacity and size was tried, whichever of its calls failed. -/
def Attempt (crc : List UInt8 → UInt32) (bincode : Bincode) (dir dir' : DataDir) : Prop :=
  ∃ io c size, walSize size < 2 ^ 63 ∧ (recoverWithWalSize crc bincode io dir c size).1 = dir'

theorem Attempt.snapshots (h : Attempt crc bincode dir dir') : dir'.snapshots = dir.snapshots := by
  obtain ⟨io, c, size, -, rfl⟩ := h
  unfold recoverWithWalSize
  split
  · rfl
  · split
    · rfl
    · split
      · rfl
      · split
        · rfl
        · dsimp only
          split
          · rfl
          · rfl

theorem Attempt.keeps (h : Attempt crc bincode dir dir') (hkeeps : Keeps crc (dir.wal.getD []) rs) :
    Keeps crc (dir'.wal.getD []) rs := by
  obtain ⟨io, c, size, hsize, rfl⟩ := h
  obtain ⟨dir', result, hrec, -, hkeeps', -⟩ := hkeeps.recover bincode io c hsize
  rw [hrec]
  exact hkeeps'

theorem snapshots_of_attempts (h : Relation.ReflTransGen (Attempt crc bincode) dir dir') :
    dir'.snapshots = dir.snapshots := by
  induction h with
  | refl => rfl
  | tail _ hstep ih => exact hstep.snapshots.trans ih

theorem keeps_of_attempts (h : Relation.ReflTransGen (Attempt crc bincode) dir dir')
    (hkeeps : Keeps crc (dir.wal.getD []) rs) : Keeps crc (dir'.wal.getD []) rs := by
  induction h with
  | refl => exact hkeeps
  | tail _ hstep ih => exact hstep.keeps ih

/-! ## The result -/

theorem recover_of_startingPoint_error {e : RecoveryError}
    (hstart : startingPoint crc bincode dir.snapshots c = .error e) (size : Option Nat) :
    recoverWithWalSize crc bincode .ok dir c size = (dir, some (.error e)) := by
  rw [recoverWithWalSize, if_neg (by decide), if_neg (by decide), hstart]

/-- **Recovering is repeatable.** Take any directory, with any bytes as its log and any snapshot
files, and recover it. Whatever attempts follow, with whichever sizes and failing calls: a recovery
that no call fails in agrees with the first one. It succeeds with the same engine and the same log,
or refuses to start for the same reason, which is a snapshot that cannot be restored or a record
that is no message. -/
theorem recover_again (hlimit : max (dir.wal.getD []).length (walSize size) < 2 ^ 63)
    (h : Relation.ReflTransGen (Attempt crc bincode)
      (recoverWithWalSize crc bincode .ok dir c size).1 dir') {size' : Option Nat}
    (hsize' : walSize size' < 2 ^ 63) :
    ∃ r r', (recoverWithWalSize crc bincode .ok dir c size).2 = some r ∧
      (recoverWithWalSize crc bincode .ok dir' c size').2 = some r' ∧ Agree crc r r' ∧
      ∀ e, r = .error e → startingPoint crc bincode dir.snapshots c = .error e ∨
        ∃ p, e = .wal (.protocol p) := by
  cases hstart : startingPoint crc bincode dir.snapshots c with
  | error e =>
    rw [recover_of_startingPoint_error hstart] at h ⊢
    have hsnapshots := snapshots_of_attempts h
    rw [← hsnapshots] at hstart
    rw [recover_of_startingPoint_error hstart]
    refine ⟨_, _, rfl, rfl, .error e, ?_⟩
    intro e' he'
    exact Or.inl (congrArg _ (Except.error.inj he'))
  | ok start =>
    obtain ⟨e₀, n⟩ := start
    obtain ⟨w, rs, hopen, hw, -, -⟩ := Wal.openWithSize_ok crc hlimit
    have hdir : RecoverIo.ok.createDirFails = false := rfl
    have hrec := recoverWithWalSize_eq dir hdir rfl hstart hopen hw
    rw [hrec] at h ⊢
    obtain ⟨w', hopen', hw'⟩ := (keeps_of_attempts h hw.keeps).opens hsize'
    have hstart' : startingPoint crc bincode dir'.snapshots c = .ok (e₀, n) := by
      rw [snapshots_of_attempts h]
      exact hstart
    rw [recoverWithWalSize_eq dir' hdir rfl hstart' hopen' hw']
    refine ⟨_, _, rfl, rfl, agree_replayed hw hw' e₀ n, ?_⟩
    intro e he
    unfold replayed at he
    cases hdecode : decodeRecords (rs.drop n) with
    | ok cmds =>
      rw [hdecode] at he
      cases he
    | error p =>
      rw [hdecode] at he
      exact Or.inr ⟨p, (Except.error.inj he).symm⟩

/-- A log of two orders and a snapshot of the first one are recovered, tried again with a call that
fails when the log has been cut, and recovered with another size. -/
theorem recover_again_cut : ∃ dir dir' e w e' w',
    dir = ⟨some (logBytes crc32 ([.newOrder ⟨1, 10, .ask, 100, 5, 7⟩,
      .newOrder ⟨2, 11, .ask, 101, 4, 8⟩].map Wal.recordOf)), savedOnce crc32 .fixint
        ((MatchingEngine.withCapacity 4).addOrder ⟨1, 10, .ask, 100, 5, 7⟩).1 1⟩ ∧
    Relation.ReflTransGen (Attempt crc32 .fixint)
      (recoverWithWalSize crc32 .fixint .ok dir 4 (some 256)).1 dir' ∧
    (recoverWithWalSize crc32 .fixint .ok dir 4 (some 256)).2 = some (.ok (e, w)) ∧
    (recoverWithWalSize crc32 .fixint .ok dir' 4 (some 512)).2 = some (.ok (e', w')) ∧
    w.recordCount = 2 ∧ Agree crc32 (.ok (e, w)) (.ok (e', w')) := by
  obtain ⟨hwf, hcap⟩ := one_order
  obtain ⟨-, e₀, hstart⟩ := startingPoint_savedOnce crc32 Bincode.roundTrip_fixint hwf hcap 1
  obtain ⟨cmds, hcmds⟩ : ∃ cmds : List EngineCommand, cmds =
    [.newOrder ⟨1, 10, .ask, 100, 5, 7⟩, .newOrder ⟨2, 11, .ask, 101, 4, 8⟩] := ⟨_, rfl⟩
  obtain ⟨dir, hdir⟩ : ∃ dir : DataDir, dir = ⟨some (logBytes crc32 (cmds.map Wal.recordOf)),
    savedOnce crc32 .fixint
      ((MatchingEngine.withCapacity 4).addOrder ⟨1, 10, .ask, 100, 5, 7⟩).1 1⟩ := ⟨_, rfl⟩
  have hlimit : max (logBytes crc32 (cmds.map Wal.recordOf)).length (walSize (some 256)) <
      2 ^ 63 := by
    rw [hcmds]
    decide +kernel
  have htradable : ∀ cmd ∈ cmds, cmd.Tradable := by
    rw [hcmds]
    simp [EngineCommand.Tradable]
  obtain ⟨w, hopen, hw, -, -⟩ := Wal.openWithSize_recordOf crc32 cmds hlimit
  have hlog : logBytes crc32 (cmds.map Wal.recordOf) = dir.wal.getD [] := by rw [hdir]; rfl
  have hstart' : startingPoint crc32 .fixint dir.snapshots 4 = .ok (e₀, (1 : UInt64).toNat) := by
    rw [hdir]
    exact hstart
  rw [hlog] at hopen hlimit
  have hrec := congrArg Prod.snd (recover_recordOf dir hstart' htradable hw hopen)
  obtain ⟨dir', hdir'⟩ : ∃ dir', (recoverWithWalSize crc32 .fixint ⟨false, false, some .reextend⟩
      (recoverWithWalSize crc32 .fixint .ok dir 4 (some 256)).1 4 (some 256)).1 = dir' := ⟨_, rfl⟩
  have hsize : walSize (some 256) < 2 ^ 63 := by decide
  have hattempt : Attempt crc32 .fixint
      (recoverWithWalSize crc32 .fixint .ok dir 4 (some 256)).1 dir' :=
    ⟨⟨false, false, some .reextend⟩, 4, some 256, hsize, hdir'⟩
  obtain ⟨r, r', hr, hr', hagree, -⟩ := recover_again hlimit (.single hattempt)
    (show walSize (some 512) < 2 ^ 63 by decide)
  rw [hrec] at hr
  obtain rfl := Option.some.inj hr
  cases hagree with
  | ok _ hcount hpos hlog hiter =>
    refine ⟨dir, dir', _, w, _, _, hcmds ▸ hdir, .single hattempt, hrec, hr', ?_,
      .ok _ hcount hpos hlog hiter⟩
    rw [hw.recordCount, hcmds]
    rfl

end Recovery

end Ferrox
