import Ferrox.CrashRecovery
import Ferrox.Feed
import Ferrox.WriteAhead
import Mathlib.Data.List.Chain

/-!
# The feed across restarts

A gateway runs on a data directory, stops at any point, and is started again on what it left. The
sequence number is a variable of the matching loop: neither the log nor the snapshots have it, and
every run counts from zero again. So the reports of a whole history are consecutive just in case the
commands of every run bring no reports on the book that it recovered, or a multiple of `2 ^ 32` of
them, or those of the later runs bring none (`consecutive_iff`).
-/

namespace Ferrox

open Bytes

/-! ## Reports -/

namespace Book

/-- The fills that are reported for a command. -/
def fillsOf (B : Book) : EngineCommand → List Fill
  | .newOrder o => B.reported o
  | .cancelOrder _ => []

/-- The number of fills that are reported for commands, one after the other. -/
def trades (B : Book) : List EngineCommand → Nat
  | [] => 0
  | cmd :: cmds => (B.fillsOf cmd).length + (B.apply cmd).trades cmds

end Book

namespace MatchingLoop

/-! ## Histories -/

/-- A run of a gateway: the engine it starts with, the commands it processes, the command it is
reporting when it stops, if any, with the number of the reports it got to, and the thread as it
stops. -/
structure Session where
  engine : MatchingEngine
  cmds : List EngineCommand
  cut : Option (EngineCommand × Nat)
  thread : MatchingLoop

/-- **The reports of a run**, seen from the book it starts with. -/
def Session.trades (x : Session) : Nat :=
  x.engine.book.toBook.trades x.cmds +
    match x.cut with
    | none => 0
    | some (cmd, k) => min k ((x.engine.book.toBook.applyAll x.cmds).fillsOf cmd).length

section History

variable (crc : List UInt8 → UInt32) (bincode : Bincode)

/-- **The matching thread at the point where it stops**, entered with `s₀`: between two rounds, which
is also how it ends after a shutdown, or inside the append of a round, which may leave any bytes in
the log file, or inside its reports. A stop inside a save is one after it, with a save that was cut
off. -/
inductive Stopped (s₀ : Phase × MatchingLoop) : Session → Prop
  | between {events : List Event} {s : Phase × MatchingLoop}
      (hrun : run crc bincode s₀ events = some s) :
      Stopped s₀ ⟨s₀.2.engine, events.filterMap Event.command?, none, s.2⟩
  | logging {events : List Event} {s : Phase × MatchingLoop}
      (hrun : run crc bincode s₀ events = some s) (hphase : s.1 ≠ .stopped)
      (hw : s.2.wal.isSome = true) (file : List UInt8) :
      Stopped s₀ ⟨s₀.2.engine, events.filterMap Event.command?, none,
        { s.2 with dir := { s.2.dir with wal := some file } }⟩
  | reporting {events : List Event} {s : Phase × MatchingLoop}
      (hrun : run crc bincode s₀ events = some s) (hphase : s.1 ≠ .stopped)
      {cmd : EngineCommand} {grow : GrowIo} {m : MatchingLoop}
      (hlog : log crc grow s.2 cmd = some m) (k : Nat) :
      Stopped s₀ ⟨s₀.2.engine, events.filterMap Event.command?, some (cmd, k),
        report (timestampOf cmd) ((fillsOf m.engine cmd).take k)
          { m with engine := m.engine.applyCommand cmd }⟩

/-- **The histories of a data directory**: the runs of its gateways, each up to the point where it
stopped. The next gateway recovers from what it left. -/
inductive History : DataDir → List Session → Prop
  | nil (dir : DataDir) : History dir []
  | cons {dir : DataDir} {io : RecoverIo} {c : UInt32} {interval : UInt64}
      {s₀ : Phase × MatchingLoop} {x : Session} {xs : List Session}
      (hstart : start crc bincode io (some dir) c interval = some s₀)
      (hstop : Stopped crc bincode s₀ x) (h : History x.thread.dir xs) : History dir (x :: xs)

end History

/-- The two datagrams are reports with consecutive numbers, modulo `2 ^ 32`. -/
def Follows (datagram next : List UInt8) : Prop :=
  ∃ r r', Protocol.decodeExecutionReport datagram = .ok r ∧
    Protocol.decodeExecutionReport next = .ok r' ∧ r'.seqNum = r.seqNum + 1

/-- **A subscriber that receives every datagram in order sees no gap.** -/
def Consecutive (sent : List (List UInt8)) : Prop := sent.IsChain Follows

/-! ## One run -/

variable {crc : List UInt8 → UInt32} {bincode : Bincode} {c : UInt32}

theorem fillsOf_toBook {e : MatchingEngine} (h : e.book.WF) (cmd : EngineCommand) :
    fillsOf e cmd = e.book.toBook.fillsOf cmd := by
  cases cmd with
  | newOrder o => exact fillsOf_newOrder h o
  | cancelOrder id => rfl

theorem length_sent_of_run {s s' : Phase × MatchingLoop} {events : List Event} (h : Sound c s.2)
    (hrun : run crc bincode s events = some s') :
    s'.2.engine.book.toBook =
        s.2.engine.book.toBook.applyAll (events.filterMap Event.command?) ∧
      s'.2.sent.length = s.2.sent.length +
        s.2.engine.book.toBook.trades (events.filterMap Event.command?) := by
  induction events generalizing s with
  | nil =>
    obtain rfl := Option.some.inj hrun
    exact ⟨rfl, rfl⟩
  | cons event events ih =>
    obtain ⟨s₁, hs, hrun₁⟩ := run_cons hrun
    cases event with
    | empty shutdown =>
      obtain ⟨-, -, heq⟩ | ⟨_, _, _, _, hevent, _⟩ := step_cases hs
      · rw [List.filterMap_cons_none rfl, ← heq]
        exact ih (heq ▸ h) hrun₁
      · cases hevent
    | command cmd grow save =>
      obtain ⟨hsound, hengine, hsent, -⟩ := step_command h hs
      obtain ⟨hbook, hlen⟩ := ih hsound hrun₁
      obtain ⟨-, hcmd⟩ := MatchingEngine.applyCommand_sim h.wf cmd
      have hcmds : (Event.command cmd grow save :: events).filterMap Event.command? =
          cmd :: events.filterMap Event.command? := List.filterMap_cons_some rfl
      rw [hengine, hcmd] at hbook hlen
      rw [hcmds]
      refine ⟨hbook, ?_⟩
      rw [hlen, hsent, List.length_append, length_datagrams, fillsOf_toBook h.wf, Book.trades,
        Nat.add_assoc]

/-- Wherever a thread stops, its reports are numbered from one, and there is one for each of its
trades. -/
theorem Stopped.feed {s₀ : Phase × MatchingLoop} {x : Session} (h : Feed c s₀.2)
    (hsent : s₀.2.sent = []) (hstop : Stopped crc bincode s₀ x) :
    Numbered x.thread.sent ∧ x.thread.sent.length = x.trades := by
  cases hstop with
  | between hrun =>
    obtain ⟨hfeed, -⟩ := h.run hrun
    obtain ⟨-, hlen⟩ := length_sent_of_run h.sound hrun
    rw [hsent, List.length_nil, Nat.zero_add] at hlen
    exact ⟨hfeed.numbered, hlen⟩
  | logging hrun hphase hw file =>
    obtain ⟨hfeed, -⟩ := h.run hrun
    obtain ⟨-, hlen⟩ := length_sent_of_run h.sound hrun
    rw [hsent, List.length_nil, Nat.zero_add] at hlen
    exact ⟨hfeed.numbered, hlen⟩
  | @reporting events s hrun hphase cmd grow m₁ hlog k =>
    obtain ⟨hfeed, -⟩ := h.run hrun
    obtain ⟨hbook, hlen⟩ := length_sent_of_run h.sound hrun
    rw [hsent, List.length_nil, Nat.zero_add] at hlen
    have hm₁ : m₁ = { s.2 with wal := m₁.wal, dir := m₁.dir } := by
      rcases log_cases hlog with ⟨-, rfl⟩ | ⟨w, w', result, -, -, rfl⟩
      · rfl
      · rfl
    rw [hm₁]
    obtain ⟨buf, hbuf, heq⟩ := @report_eq (timestampOf cmd) ((fillsOf s.2.engine cmd).take k)
      { s.2 with wal := m₁.wal, dir := m₁.dir, engine := s.2.engine.applyCommand cmd }
      hfeed.sound.reportBuf
    rw [heq]
    constructor
    · show Numbered (s.2.sent ++ datagrams _ s.2.seqNum _)
      rw [hfeed.seqNum]
      exact hfeed.numbered.append _ _
    · show (s.2.sent ++ datagrams _ s.2.seqNum _).length = _
      rw [List.length_append, length_datagrams, List.length_take, hlen,
        fillsOf_toBook hfeed.sound.wf, hbook]
      rfl

theorem History.feed {dir : DataDir} {xs : List Session} (h : History crc bincode dir xs) :
    ∀ x ∈ xs, Numbered x.thread.sent ∧ x.thread.sent.length = x.trades := by
  induction h with
  | nil =>
    intro x hx
    cases hx
  | cons hstart hstop h ih =>
    intro x hx
    rcases List.mem_cons.1 hx with rfl | hx
    · obtain ⟨-, hsent, -⟩ := sound_start hstart
      exact hstop.feed (feed_start hstart) hsent
    · exact ih x hx

theorem Numbered.consecutive {sent : List (List UInt8)} (h : Numbered sent) : Consecutive sent := by
  unfold Consecutive
  rw [List.isChain_iff_getElem]
  intro i hi
  obtain ⟨r, hr, hseq⟩ := h i (Nat.lt_of_succ_lt hi)
  obtain ⟨r', hr', hseq'⟩ := h (i + 1) hi
  refine ⟨r, r', hr, hr', UInt32.toNat_inj.1 ?_⟩
  rw [UInt32.toNat_add, hseq, hseq', UInt32.toNat_one]
  omega

/-! ## A whole history -/

/-- The first report of a run follows the last one of another just in case the counter was at zero
in between. -/
theorem Numbered.follows_iff {sent next : List (List UInt8)} (h : Numbered sent)
    (h' : Numbered next) {x y : List UInt8} (hx : x ∈ sent.getLast?) (hy : y ∈ next.head?) :
    Follows x y ↔ 2 ^ 32 ∣ sent.length := by
  obtain ⟨front, rfl⟩ := List.getLast?_eq_some_iff.1 hx
  obtain ⟨back, rfl⟩ := List.head?_eq_some_iff.1 hy
  obtain ⟨r, hr, hlast⟩ := h front.length (by simp)
  obtain ⟨r', hr', hfirst⟩ := h' 0 (by simp)
  rw [List.getElem_concat_length rfl] at hr
  rw [List.getElem_cons_zero] at hr'
  have hr'1 : r'.seqNum = 1 := UInt32.toNat_inj.1 hfirst
  have hzero : 2 ^ 32 ∣ (front ++ [x]).length ↔ r.seqNum = 0 := by
    rw [Nat.dvd_iff_mod_eq_zero, List.length_append, List.length_singleton, ← hlast,
      ← UInt32.toNat_zero, UInt32.toNat_inj]
  rw [hzero]
  constructor
  · intro hfollows
    obtain ⟨a, b, ha, hb, hab⟩ := hfollows
    rw [hr] at ha
    rw [hr'] at hb
    obtain rfl := Except.ok.inj ha
    obtain rfl := Except.ok.inj hb
    rw [hr'1] at hab
    grind
  · intro hzero
    exact ⟨r, r', hr, hr', by rw [hr'1, hzero]; rfl⟩

theorem mem_of_head_flatMap {xs : List Session} {y : List UInt8}
    (h : y ∈ (xs.flatMap (·.thread.sent)).head?) : ∃ x ∈ xs, y ∈ x.thread.sent.head? := by
  rw [List.head?_flatMap] at h
  obtain ⟨x, hx, hy⟩ := List.exists_of_findSome?_eq_some h
  exact ⟨x, hx, hy⟩

theorem follows_flatMap_iff {x : Session} {xs : List Session}
    (h : Numbered x.thread.sent ∧ x.thread.sent.length = x.trades)
    (hxs : ∀ x ∈ xs, Numbered x.thread.sent ∧ x.thread.sent.length = x.trades) :
    (∀ a ∈ x.thread.sent.getLast?, ∀ b ∈ (xs.flatMap (·.thread.sent)).head?, Follows a b) ↔
      ∀ x' ∈ xs, 0 < x'.trades → 2 ^ 32 ∣ x.trades := by
  obtain ⟨hnumbered, htrades⟩ := h
  constructor
  · intro hfollows x' hx' hpos
    cases hlast : x.thread.sent.getLast? with
    | none =>
      rw [← htrades, List.getLast?_eq_none_iff.1 hlast]
      exact Nat.dvd_zero _
    | some a =>
      -- the next report is not that of `x'` if a run between them sends one
      have hflat : xs.flatMap (·.thread.sent) ≠ [] := by
        intro hnil
        rw [← (hxs x' hx').2, List.flatMap_eq_nil_iff.1 hnil x' hx'] at hpos
        exact Nat.lt_irrefl _ hpos
      have hb := List.head?_eq_some_head hflat
      obtain ⟨x'', hx'', hhead⟩ := mem_of_head_flatMap hb
      rw [← htrades, ← hnumbered.follows_iff (hxs x'' hx'').1 hlast hhead]
      exact hfollows a hlast _ hb
  · intro hdvd a ha b hb
    obtain ⟨x', hx', hhead⟩ := mem_of_head_flatMap hb
    rw [hnumbered.follows_iff (hxs x' hx').1 ha hhead, htrades]
    refine hdvd x' hx' ?_
    rw [← (hxs x' hx').2]
    exact List.length_pos_of_mem (List.mem_of_mem_head? hhead)

theorem consecutive_flatMap_iff {xs : List Session}
    (h : ∀ x ∈ xs, Numbered x.thread.sent ∧ x.thread.sent.length = x.trades) :
    Consecutive (xs.flatMap (·.thread.sent)) ↔
      xs.Pairwise fun x x' => 0 < x'.trades → 2 ^ 32 ∣ x.trades := by
  induction xs with
  | nil => simp [Consecutive]
  | cons x xs ih =>
    have hx := h x List.mem_cons_self
    have hxs := fun x' hx' => h x' (List.mem_cons_of_mem _ hx')
    have ih := ih hxs
    have hchain : x.thread.sent.IsChain Follows := hx.1.consecutive
    unfold Consecutive at ih ⊢
    rw [List.flatMap_cons, List.isChain_append, List.pairwise_cons, follows_flatMap_iff hx hxs, ih]
    tauto

/-- **The reports of a history are consecutive** just in case no run before one that has reports had
any, except for a multiple of `2 ^ 32` of them. -/
theorem consecutive_iff {dir : DataDir} {xs : List Session} (h : History crc bincode dir xs) :
    Consecutive (xs.flatMap (·.thread.sent)) ↔
      xs.Pairwise fun x x' => 0 < x'.trades → 2 ^ 32 ∣ x.trades :=
  consecutive_flatMap_iff h.feed

/-! ## Histories of one command a run -/

/-- The directory has a log of the commands, and no snapshot. -/
def Logs (cmds : List EngineCommand) (dir : DataDir) : Prop :=
  ∃ file w, dir = ⟨some file, none⟩ ∧
    Wal.openWithSize crc32 none file (Recovery.walSize none) = (w.file, .ok w) ∧
    w.Holds crc32 (cmds.map Wal.recordOf)

theorem logs_nil : Logs [] ⟨some [], none⟩ := by
  obtain ⟨w, hopen, hw, -, -⟩ := Wal.openWithSize_recordOf crc32 []
    (show max _ (Recovery.walSize none) < 2 ^ 63 by decide)
  exact ⟨[], w, rfl, hopen, hw⟩

theorem Logs.session {cmds : List EngineCommand} {dir : DataDir} (h : Logs cmds dir)
    (hcmds : ∀ cmd ∈ cmds, cmd.Tradable)
    (hroom : 2 * ((logBytes crc32 (cmds.map Wal.recordOf)).length + 48) < 2 ^ 63)
    (cmd : EngineCommand) :
    ∃ s₀ x, start crc32 .fixint .ok (some dir) 4 10000 = some s₀ ∧ Stopped crc32 .fixint s₀ x ∧
      Logs (cmds ++ [cmd]) x.thread.dir ∧ x.trades = (fillsOf
        ((MatchingEngine.withCapacity 4).applyAll (cmds.map EngineCommand.untimed)) cmd).length := by
  obtain ⟨file, w, rfl, hopen, hw⟩ := h
  have hrec := recover_noSnapshots .fixint 4 hopen hw
  rw [Recovery.replayed, decodeRecords_recordOf hcmds] at hrec
  generalize hengine : (MatchingEngine.withCapacity 4).applyAll (cmds.map EngineCommand.untimed) = e
    at hrec
  have hstart : start crc32 .fixint .ok (some ⟨some file, none⟩) 4 10000 =
      some (enter e (some w) true ⟨some w.file, none⟩ 10000) := by
    unfold start
    simp only [hrec, hengine]
  obtain ⟨w', ⟨-, -, hbig⟩ | ⟨happ, hw'⟩⟩ := Wal.append_spec hw .ok cmd
  · have := hbig rfl
    rw [hw.writePos] at this
    omega
  have hlog := log_enter happ e ⟨some w.file, none⟩ 10000
  obtain ⟨s, hrun, -, hdir⟩ := run_first .fixint hlog (by decide) .ok
  obtain ⟨s₁, hstep, hrun₁⟩ := run_cons hrun
  obtain rfl := Option.some.inj hrun₁
  obtain ⟨-, -, hsent, -⟩ := step_command (sound_start hstart).1 hstep
  obtain ⟨w₂, hopen₂, hw₂⟩ := Wal.holds_reopen hw' (show Recovery.walSize none < 2 ^ 63 by decide)
  have hstop := Stopped.between hrun
  refine ⟨_, _, hstart, hstop, ⟨w'.file, w₂, hdir, hopen₂, ?_⟩, ?_⟩
  · rw [List.map_append]
    exact hw₂
  · rw [← (hstop.feed (feed_start hstart) rfl).2]
    show s₁.2.sent.length = _
    rw [hsent]
    exact length_datagrams _ _ _

/-- A run without a report, and one with a report. -/
theorem consecutive_iff_quiet : ∃ xs, History crc32 .fixint ⟨some [], none⟩ xs ∧
    xs.map Session.trades = [0, 1] ∧ Consecutive (xs.flatMap (·.thread.sent)) := by
  obtain ⟨s₁, x₁, hstart₁, hstop₁, hlogs₁, hlen₁⟩ := logs_nil.session nofun (by decide +kernel)
    (.newOrder ⟨1, 10, .ask, 100, 5, 7⟩)
  obtain ⟨s₂, x₂, hstart₂, hstop₂, hlogs₂, hlen₂⟩ := hlogs₁.session
    (by simp [EngineCommand.Tradable]) (by decide +kernel) (.newOrder ⟨2, 11, .bid, 100, 2, 8⟩)
  have hhistory : History crc32 .fixint ⟨some [], none⟩ [x₁, x₂] :=
    .cons hstart₁ hstop₁ (.cons hstart₂ hstop₂ (.nil _))
  have htrades₁ : x₁.trades = 0 := hlen₁.trans (by decide +kernel)
  have htrades₂ : x₂.trades = 1 := hlen₂.trans (by decide +kernel)
  refine ⟨_, hhistory, by simp [htrades₁, htrades₂], (consecutive_iff hhistory).2 ?_⟩
  simp [htrades₁]

/-- **Two reports with the same number.** The second gateway recovers the book of the first one, and
numbers its reports from one again. -/
theorem not_consecutive : ∃ xs, History crc32 .fixint ⟨some [], none⟩ xs ∧
    xs.map (·.thread.sent.length) = [0, 1, 1] ∧
    (∀ d ∈ xs.flatMap (·.thread.sent),
      ∃ r, Protocol.decodeExecutionReport d = .ok r ∧ r.seqNum = 1) ∧
    ¬ Consecutive (xs.flatMap (·.thread.sent)) := by
  obtain ⟨s₁, x₁, hstart₁, hstop₁, hlogs₁, hlen₁⟩ := logs_nil.session nofun (by decide +kernel)
    (.newOrder ⟨1, 10, .ask, 100, 5, 7⟩)
  obtain ⟨s₂, x₂, hstart₂, hstop₂, hlogs₂, hlen₂⟩ := hlogs₁.session
    (by simp [EngineCommand.Tradable]) (by decide +kernel) (.newOrder ⟨2, 11, .bid, 100, 2, 8⟩)
  obtain ⟨s₃, x₃, hstart₃, hstop₃, -, hlen₃⟩ := hlogs₂.session
    (by simp [EngineCommand.Tradable]) (by decide +kernel) (.newOrder ⟨3, 12, .bid, 100, 1, 9⟩)
  have hhistory : History crc32 .fixint ⟨some [], none⟩ [x₁, x₂, x₃] :=
    .cons hstart₁ hstop₁ (.cons hstart₂ hstop₂ (.cons hstart₃ hstop₃ (.nil _)))
  have hfeed := hhistory.feed
  have htrades₁ : x₁.trades = 0 := hlen₁.trans (by decide +kernel)
  have htrades₂ : x₂.trades = 1 := hlen₂.trans (by decide +kernel)
  have htrades₃ : x₃.trades = 1 := hlen₃.trans (by decide +kernel)
  have hlen : ∀ x ∈ [x₁, x₂, x₃], x.thread.sent.length ≤ 1 := by
    intro x hx
    rw [(hfeed x hx).2]
    simp only [List.mem_cons, List.not_mem_nil, or_false] at hx
    obtain rfl | rfl | rfl := hx <;> omega
  refine ⟨_, hhistory, ?_, ?_, ?_⟩
  · simp [(hfeed x₁ (by simp)).2, (hfeed x₂ (by simp)).2, (hfeed x₃ (by simp)).2, htrades₁,
      htrades₂, htrades₃]
  · intro d hd
    obtain ⟨x, hx, hd⟩ := List.mem_flatMap.1 hd
    obtain ⟨i, hi, rfl⟩ := List.getElem_of_mem hd
    obtain ⟨r, hr, hseq⟩ := (hfeed x hx).1 i hi
    have hle := hlen x hx
    obtain rfl : i = 0 := by omega
    exact ⟨r, hr, UInt32.toNat_inj.1 hseq⟩
  · rw [consecutive_flatMap_iff hfeed]
    intro hpairwise
    have hdvd : 2 ^ 32 ∣ x₂.trades :=
      (List.pairwise_cons.1 (List.pairwise_cons.1 hpairwise).2).1 x₃ List.mem_cons_self
        (by omega)
    rw [htrades₂] at hdvd
    omega

end MatchingLoop

end Ferrox
