import Ferrox.Durable
import Ferrox.HandleClient
import Ferrox.Progress

/-!
# From the bytes of a client to the reports on the feed

The gateway as a whole: a client sends bytes and then closes the connection, the client thread cuts
them into commands and pushes them through the ring, and the matching thread processes them. The two
threads take turns in any order, with any of the loads that the memory model allows.

The outcome does not depend on any of this. At every moment the commands that were processed are the
first ones of the longest sequence of valid frames that the bytes start with, and no more than the
ring's capacity and two are under way; the book and the feed are those of the processed commands. When
the loop has ended, they are those of the whole sequence (`processed_of_reachable`). And it can always
come to that: no interleaving leads to a state from which the end cannot be reached
(`canEnd_of_reachable`).
-/

namespace Ferrox

open Bytes Protocol Connection

/-! ## The model -/

/-- A gateway and the connection it reads from: the bytes that are still to be read, and how they
end. -/
structure Pipeline where
  stream : List UInt8
  ending : ReadError
  gateway : Gateway

/-- A step of one of the threads. The client thread reads the next message at a time `now`. -/
inductive PipelineEvent where
  | read (now : UInt64)
  | gateway (event : GatewayEvent)

namespace Pipeline

variable (crc : List UInt8 → UInt32) (bincode : Bincode) (noCursorCache : Bool)

/-- The gateway when a client has connected that sends `bytes`. -/
def accept (bytes : List UInt8) (ending : ReadError) (ring : Ring EngineCommand)
    (loop : Phase × MatchingLoop) : Pipeline := ⟨bytes, ending, Gateway.start ring loop⟩

/-- A read that finds too few bytes. -/
def readFailed (p : Pipeline) : Option Pipeline :=
  match p.ending with
  | .unexpectedEof | .connectionReset => p.gateway.closed.map fun gateway => { p with gateway }
  | .other => p.gateway.failed.map fun gateway => { p with gateway }

/-- `handle_client` reads the type of a message, and then the rest of it. -/
def read (p : Pipeline) (now : UInt64) : Option Pipeline :=
  match p.stream with
  | [] => p.readFailed
  | msgType :: rest =>
      match messageSize msgType with
      | .error _ =>
          (p.gateway.receive [msgType] now).map fun gateway => { p with stream := rest, gateway }
      | .ok size =>
          if size ≤ p.stream.length then
            (p.gateway.receive (p.stream.take size) now).map fun gateway =>
              { p with stream := p.stream.drop size, gateway }
          else { p with stream := [] }.readFailed

def step (p : Pipeline) : PipelineEvent → Option Pipeline
  | .read now => p.read now
  | .gateway event =>
      if event.internal then
        (p.gateway.step crc bincode noCursorCache event).map fun gateway => { p with gateway }
      else none

/-- An interleaving of the two threads. -/
def run (p : Pipeline) : List PipelineEvent → Option Pipeline
  | [] => some p
  | event :: events =>
      match p.step crc bincode noCursorCache event with
      | none => none
      | some p => run p events

/-- The states that some interleaving leads to, when the client sends `bytes`. -/
def Reachable (c : UInt64) (bytes : List UInt8) (ending : ReadError) (loop₀ : Phase × MatchingLoop)
    (p : Pipeline) : Prop :=
  ∃ ring events, ringBuffer EngineCommand c = some ring ∧
    (accept bytes ending ring loop₀).run crc bincode noCursorCache events = some p

end Pipeline

/-! ## Reading -/

theorem stops_of_cases {rest : List UInt8}
    (h : (rest = [] ∨ Unfinished rest) ∨ ∃ e, Invalid rest e) :
    Framing.Stops id ValidFrame rest := by
  intro frame hframe hprefix
  obtain ⟨t, ht, hsize, cmd, hcmd⟩ := hframe
  obtain ⟨tail, rfl⟩ := hprefix
  have hhead : (id frame ++ tail).head? = some t := by
    rw [List.head?_append, id, ht]
    rfl
  have htype : ∀ {t'}, (id frame ++ tail).head? = some t' → t' = t := fun h' =>
    Option.some.inj (h'.symm.trans hhead)
  rcases h with (hnil | ⟨t', n, ht', hsize', hlt⟩) | ⟨e, t', ht', hsize' | ⟨n, hsize', -, hdecode⟩⟩
  · rw [hnil] at hhead
    cases hhead
  · rw [htype ht', hsize] at hsize'
    cases hsize'
    rw [List.length_append] at hlt
    exact absurd hlt (Nat.not_lt.2 (Nat.le_add_right _ _))
  · rw [htype ht', hsize] at hsize'
    cases hsize'
  · rw [htype ht', hsize] at hsize'
    cases hsize'
    rw [id, List.take_left, hcmd] at hdecode
    cases hdecode

namespace Pipeline

variable {crc : List UInt8 → UInt32} {bincode : Bincode} {noCursorCache : Bool} {c : UInt64}
  {k : UInt32} {bytes : List UInt8} {ending : ReadError} {loop₀ : Phase × MatchingLoop}
  {p p' : Pipeline}

theorem readFailed_eq (hclient : p.gateway.client = .reading) :
    ∃ client, (client = .closing ∨ client = .returned) ∧
      p.readFailed = some { p with gateway := { p.gateway with client } } := by
  unfold readFailed
  cases p.ending with
  | unexpectedEof => exact ⟨_, Or.inl rfl, by simp only [Gateway.closed, hclient, Option.map_some]⟩
  | connectionReset => exact ⟨_, Or.inl rfl, by simp only [Gateway.closed, hclient, Option.map_some]⟩
  | other => exact ⟨_, Or.inr rfl, by simp only [Gateway.failed, hclient, Option.map_some]⟩

/-- **A read** takes the next valid frame and its command, or ends `handle_client`'s loop where no
valid frame starts. -/
theorem read_spec (hclient : p.gateway.client = .reading) (now : UInt64) :
    (∃ frame rest cmd cmd', p.stream = frame ++ rest ∧ ValidFrame frame ∧
      decodeMessage frame = .ok cmd ∧ cmd'.untimed = cmd.untimed ∧
      p.read now = some { p with
        stream := rest
        gateway := { p.gateway with
          client := .retrying cmd'
          received := p.gateway.received ++ [cmd'] } }) ∨
    (Framing.Stops id ValidFrame p.stream ∧ ∃ stream client,
      (client = .closing ∨ client = .returned) ∧
      p.read now = some { p with stream, gateway := { p.gateway with client } }) := by
  unfold read
  cases hstream : p.stream with
  | nil =>
    obtain ⟨client, hend, hfailed⟩ := readFailed_eq hclient
    refine Or.inr ⟨stops_of_cases (Or.inl (Or.inl rfl)), [], client, hend, ?_⟩
    simp only [hfailed, hstream]
  | cons t tail =>
    cases hsize : messageSize t with
    | error e =>
      refine Or.inr ⟨stops_of_cases (Or.inr ⟨e, t, rfl, Or.inl hsize⟩), tail, .returned,
        Or.inr rfl, ?_⟩
      simp only [hsize, Gateway.receive, hclient, Option.map_some]
    | ok size =>
      have hpos := one_lt_messageSize hsize
      by_cases hle : size ≤ (t :: tail).length
      · have hlen : ((t :: tail).take size).length = size := List.length_take_of_le hle
        obtain ⟨tail', htake⟩ : ∃ tail', (t :: tail).take size = t :: tail' := by
          obtain ⟨n, rfl⟩ : ∃ n, size = n + 1 := ⟨size - 1, by omega⟩
          exact ⟨tail.take n, rfl⟩
        have hlen' : (t :: tail').length = size := by rw [← htake, hlen]
        have hvalid : ∀ {cmd}, decodeMessage (t :: tail') = .ok cmd → ValidFrame (t :: tail') :=
          fun hdecode => ⟨t, rfl, by rw [hlen']; exact hsize, _, hdecode⟩
        simp only [hsize, if_pos hle, htake, Gateway.receive, hclient, if_pos hlen']
        cases hdecode : decodeMessage (t :: tail') with
        | error e =>
          have hmessage : handleMessage (t :: tail') now = .error e := by
            rw [handleMessage, hdecode]
          refine Or.inr ⟨stops_of_cases (Or.inr ⟨e, t, rfl, Or.inr ⟨size, hsize, hle, ?_⟩⟩),
            (t :: tail).drop size, .returned, Or.inr rfl, ?_⟩
          · rw [htake, hdecode]
          · simp only [hmessage, Option.map_some]
        | ok cmd =>
          obtain ⟨cmd', hmessage, huntimed⟩ := handleMessage_ok hdecode now
          refine Or.inl ⟨t :: tail', (t :: tail).drop size, cmd, cmd', ?_, hvalid hdecode, hdecode,
            huntimed, ?_⟩
          · rw [← htake, List.take_append_drop]
          · simp only [hmessage, Option.map_some]
      · obtain ⟨client, hend, hfailed⟩ :=
          readFailed_eq (p := { p with stream := [] }) hclient
        refine Or.inr ⟨stops_of_cases (Or.inl (Or.inr ⟨t, size, rfl, hsize, not_le.1 hle⟩)), [],
          client, hend, ?_⟩
        simp only [hsize, if_neg hle, hfailed]

theorem reading_of_readFailed (hs : p.readFailed = some p') : p.gateway.client = .reading := by
  unfold readFailed at hs
  cases hending : p.ending with
  | unexpectedEof =>
    rw [hending] at hs
    obtain ⟨gateway, hclosed, -⟩ := Option.map_eq_some_iff.1 hs
    exact (Gateway.closed_cases hclosed).1
  | connectionReset =>
    rw [hending] at hs
    obtain ⟨gateway, hclosed, -⟩ := Option.map_eq_some_iff.1 hs
    exact (Gateway.closed_cases hclosed).1
  | other =>
    rw [hending] at hs
    obtain ⟨gateway, hfailed, -⟩ := Option.map_eq_some_iff.1 hs
    exact (Gateway.failed_cases hfailed).1

theorem reading_of_read {now : UInt64} (hs : p.read now = some p') :
    p.gateway.client = .reading := by
  unfold read at hs
  split at hs
  · exact reading_of_readFailed hs
  · split at hs
    · obtain ⟨gateway, hreceive, -⟩ := Option.map_eq_some_iff.1 hs
      exact (Gateway.receive_cases hreceive).1
    · split at hs
      · obtain ⟨gateway, hreceive, -⟩ := Option.map_eq_some_iff.1 hs
        exact (Gateway.receive_cases hreceive).1
      · have hreading := reading_of_readFailed hs
        exact hreading

end Pipeline

/-! ## What the interleavings preserve -/

/-- The client thread is in the loop of `handle_client`. -/
def ClientPhase.reads : ClientPhase → Bool
  | .reading | .retrying _ | .pushing _ => true
  | .closing | .returned | .joining => false

theorem Gateway.received_of_internal {crc : List UInt8 → UInt32} {bincode : Bincode}
    {noCursorCache : Bool} {s s' : Gateway} {event : GatewayEvent} (hevent : event.internal)
    (hs : s.step crc bincode noCursorCache event = some s') :
    s'.received = s.received ∧ s'.client.reads = s.client.reads := by
  cases event with
  | receive msg now => cases hevent
  | closed => cases hevent
  | failed => cases hevent
  | push =>
    obtain ⟨cmd, ring, hclient, -, rfl⟩ := Gateway.push_cases hs
    exact ⟨rfl, by rw [hclient]; rfl⟩
  | pushReturns =>
    obtain ⟨cmd, client, hclient, rfl | ⟨cmd', rfl⟩, rfl⟩ := Gateway.pushReturns_cases hs
    · exact ⟨rfl, by rw [hclient]; rfl⟩
    · exact ⟨rfl, by rw [hclient]; rfl⟩
  | storeShutdown =>
    obtain ⟨client, ⟨hclient, rfl⟩ | ⟨hclient, rfl⟩, rfl⟩ := Gateway.storeShutdown_cases hs
    · exact ⟨rfl, by rw [hclient]; rfl⟩
    · exact ⟨rfl, by rw [hclient]; rfl⟩
  | pop =>
    obtain ⟨-, -, ring, -, rfl⟩ := Gateway.pop_cases hs
    exact ⟨rfl, rfl⟩
  | popReturns grow save =>
    obtain ⟨loop, round, events, rfl⟩ := Gateway.popReturns_cases hs
    exact ⟨rfl, rfl⟩
  | loadShutdown i =>
    obtain ⟨loop, events, headFloor, -, rfl⟩ := Gateway.loadShutdown_cases hs
    exact ⟨rfl, rfl⟩
  | ring event =>
    obtain ⟨-, -, -, ring, -, rfl⟩ := Gateway.ringStep_cases hs
    exact ⟨rfl, rfl⟩

namespace Pipeline

variable {crc : List UInt8 → UInt32} {bincode : Bincode} {noCursorCache : Bool} {c : UInt64}
  {k : UInt32} {bytes : List UInt8} {ending : ReadError} {loop₀ : Phase × MatchingLoop}
  {p p' : Pipeline}

theorem gateway_of_read (crc : List UInt8 → UInt32) (bincode : Bincode) (noCursorCache : Bool)
    {now : UInt64} (hs : p.read now = some p') :
    ∃ event, p.gateway.step crc bincode noCursorCache event = some p'.gateway := by
  have hfailed : ∀ {q q' : Pipeline}, q.readFailed = some q' →
      ∃ event, q.gateway.step crc bincode noCursorCache event = some q'.gateway := by
    intro q q' hq
    unfold readFailed at hq
    split at hq
    · obtain ⟨gateway, hstep, rfl⟩ := Option.map_eq_some_iff.1 hq
      exact ⟨.closed, hstep⟩
    · obtain ⟨gateway, hstep, rfl⟩ := Option.map_eq_some_iff.1 hq
      exact ⟨.closed, hstep⟩
    · obtain ⟨gateway, hstep, rfl⟩ := Option.map_eq_some_iff.1 hq
      exact ⟨.failed, hstep⟩
  unfold read at hs
  split at hs
  · exact hfailed hs
  · split at hs
    · obtain ⟨gateway, hstep, rfl⟩ := Option.map_eq_some_iff.1 hs
      exact ⟨.receive _ now, hstep⟩
    · split at hs
      · obtain ⟨gateway, hstep, rfl⟩ := Option.map_eq_some_iff.1 hs
        exact ⟨.receive _ now, hstep⟩
      · exact hfailed (q := { p with stream := [] }) hs

/-- **What was read**: valid frames off the front of the bytes, and their commands were received. The
client thread goes on behind them, or has found that no valid frame follows. -/
structure Reads (bytes : List UInt8) (frames : List (List UInt8)) (rest : List UInt8)
    (cmds : List EngineCommand) (p : Pipeline) : Prop where
  split : bytes = frames.flatten ++ rest
  valid : ∀ f ∈ frames, ValidFrame f
  carries : Carries frames cmds
  received : p.gateway.received.map EngineCommand.untimed = cmds.map EngineCommand.untimed
  reads : p.gateway.client.reads → rest = p.stream
  ended : p.gateway.client.reads = false → Framing.Stops id ValidFrame rest

theorem Reads.step {frames : List (List UInt8)} {rest : List UInt8} {cmds : List EngineCommand}
    (h : Reads bytes frames rest cmds p) {event : PipelineEvent}
    (hs : p.step crc bincode noCursorCache event = some p') :
    ∃ frames' rest' cmds', Reads bytes frames' rest' cmds' p' := by
  cases event with
  | gateway event =>
    simp only [Pipeline.step] at hs
    split at hs
    · next hinternal =>
      obtain ⟨gateway, hstep, rfl⟩ := Option.map_eq_some_iff.1 hs
      obtain ⟨hreceived, hreads⟩ := Gateway.received_of_internal hinternal hstep
      refine ⟨frames, rest, cmds, h.split, h.valid, h.carries, ?_, ?_, ?_⟩
      · show gateway.received.map _ = _
        rw [hreceived, h.received]
      · intro hreading
        exact h.reads (hreads ▸ hreading)
      · intro hended
        exact h.ended (hreads ▸ hended)
    · cases hs
  | read now =>
    have hclient := reading_of_read hs
    obtain rfl : rest = p.stream := h.reads (by rw [hclient]; rfl)
    obtain ⟨frame, rest', cmd, cmd', hsplit, hvalid, hcmd, huntimed, hread⟩ |
      ⟨hstops, stream, client, hend, hread⟩ := read_spec hclient now
    · obtain rfl := Option.some.inj (hread.symm.trans hs)
      refine ⟨frames ++ [frame], rest', cmds ++ [cmd], ?_, ?_, ?_, ?_, fun _ => rfl, nofun⟩
      · rw [List.flatten_append, List.flatten_singleton, List.append_assoc, ← hsplit, ← h.split]
      · intro f hf
        rcases List.mem_append.1 hf with hf | hf
        · exact h.valid f hf
        · rw [List.mem_singleton.1 hf]
          exact hvalid
      · exact List.rel_append h.carries (.cons hcmd .nil)
      · show (p.gateway.received ++ [cmd']).map _ = _
        rw [List.map_append, List.map_append, h.received, List.map_singleton, List.map_singleton,
          huntimed]
    · obtain rfl := Option.some.inj (hread.symm.trans hs)
      refine ⟨frames, p.stream, cmds, h.split, h.valid, h.carries, h.received, ?_, fun _ => hstops⟩
      intro hreads
      obtain rfl | rfl := hend
      · cases hreads
      · cases hreads

theorem run_cons {event : PipelineEvent} {events : List PipelineEvent}
    (hrun : p.run crc bincode noCursorCache (event :: events) = some p') :
    ∃ p₁, p.step crc bincode noCursorCache event = some p₁ ∧
      p₁.run crc bincode noCursorCache events = some p' := by
  rw [run] at hrun
  split at hrun
  · cases hrun
  · next p₁ hs => exact ⟨p₁, hs, hrun⟩

/-- **The invariant of an interleaving**: the threads can go on, and the commands come from the
bytes. -/
structure Inv (crc : List UInt8 → UInt32) (bincode : Bincode) (c : UInt64) (k : UInt32)
    (bytes : List UInt8) (loop₀ : Phase × MatchingLoop) (p : Pipeline) : Prop where
  alive : p.gateway.Alive crc bincode c k loop₀
  reads : ∃ frames rest cmds, Reads bytes frames rest cmds p

theorem Inv.step (h : Inv crc bincode c k bytes loop₀ p)
    (hsteady : MatchingLoop.Steady crc k loop₀.2) {event : PipelineEvent}
    (hs : p.step crc bincode noCursorCache event = some p') :
    Inv crc bincode c k bytes loop₀ p' := by
  obtain ⟨frames, rest, cmds, hreads⟩ := h.reads
  refine ⟨?_, hreads.step hs⟩
  cases event with
  | read now =>
    obtain ⟨event, hstep⟩ := gateway_of_read crc bincode noCursorCache hs
    exact h.alive.step hsteady hstep
  | gateway event =>
    simp only [Pipeline.step] at hs
    split at hs
    · obtain ⟨gateway, hstep, rfl⟩ := Option.map_eq_some_iff.1 hs
      exact h.alive.step hsteady hstep
    · cases hs

theorem Inv.run (h : Inv crc bincode c k bytes loop₀ p)
    (hsteady : MatchingLoop.Steady crc k loop₀.2) {events : List PipelineEvent}
    (hrun : p.run crc bincode noCursorCache events = some p') :
    Inv crc bincode c k bytes loop₀ p' := by
  induction events generalizing p with
  | nil =>
    obtain rfl := Option.some.inj hrun
    exact h
  | cons event events ih =>
    obtain ⟨p₁, hs, hrun⟩ := run_cons hrun
    exact ih (h.step hsteady hs) hrun

theorem Reachable.inv (h : Reachable crc bincode noCursorCache c bytes ending loop₀ p)
    (hphase : loop₀.1 = .running) (hsteady : MatchingLoop.Steady crc k loop₀.2) :
    Inv crc bincode c k bytes loop₀ p := by
  obtain ⟨ring, events, hmade, hrun⟩ := h
  have hinv : Inv crc bincode c k bytes loop₀ (accept bytes ending ring loop₀) := by
    refine ⟨Gateway.alive_start hmade hphase hsteady, [], bytes, [], rfl, ?_, .nil, rfl,
      fun _ => rfl, nofun⟩
    intro f hf
    cases hf
  exact hinv.run hsteady hrun

end Pipeline

/-! ## The outcome -/

namespace Book

theorem applyAll_congr (B : Book) {cmds cmds' : List EngineCommand}
    (hcmds : cmds.map EngineCommand.untimed = cmds'.map EngineCommand.untimed) :
    (B.applyAll cmds).untimed = (B.applyAll cmds').untimed := by
  rw [← applyAll_map_untimed B cmds, hcmds, applyAll_map_untimed]

theorem executions_congr {B B' : Book} (h : B.untimed = B'.untimed)
    {cmds cmds' : List EngineCommand}
    (hcmds : cmds.map EngineCommand.untimed = cmds'.map EngineCommand.untimed) :
    B.executions cmds = B'.executions cmds' := by
  induction cmds generalizing B B' cmds' with
  | nil =>
    obtain rfl := List.map_eq_nil_iff.1 hcmds.symm
    rfl
  | cons cmd cmds ih =>
    cases cmds' with
    | nil => cases hcmds
    | cons cmd' cmds' =>
      obtain ⟨hcmd, hcmds⟩ := List.cons.inj hcmds
      rw [executions, executions, fillsOf_congr h hcmd, ih (apply_congr h hcmd) hcmds]

end Book

namespace MatchingLoop

variable {crc : List UInt8 → UInt32} {bincode : Bincode} {c : UInt32}

/-- **The book and the feed are those of commands** that an engine was given. -/
structure Outcome (e : MatchingEngine) (cmds : List EngineCommand) (m : MatchingLoop) : Prop where
  book : m.engine.SameBook (e.applyAll cmds)
  feed : m.sent.map reportedFill = (executed e cmds).map (some ∘ Fill.onWire)
  numbered : Numbered m.sent

theorem sent_of_run {s s' : Phase × MatchingLoop} {events : List Event} (h : Sound c s.2)
    (hrun : run crc bincode s events = some s') :
    s'.2.engine = s.2.engine.applyAll (events.filterMap Event.command?) ∧
      s'.2.sent.map reportedFill = s.2.sent.map reportedFill ++
        (executed s.2.engine (events.filterMap Event.command?)).map (some ∘ Fill.onWire) := by
  induction events generalizing s with
  | nil =>
    obtain rfl := Option.some.inj hrun
    exact ⟨rfl, (List.append_nil _).symm⟩
  | cons event events ih =>
    obtain ⟨s₁, hs, hrun₁⟩ := run_cons hrun
    cases event with
    | empty shutdown =>
      obtain ⟨-, -, heq⟩ | ⟨_, _, _, _, hevent, _⟩ := step_cases hs
      · rw [List.filterMap_cons_none rfl, ← heq]
        exact ih (heq ▸ h) hrun₁
      · cases hevent
    | command cmd grow save =>
      obtain ⟨hsound, hengine, hsent, -⟩ := step_command h hs
      obtain ⟨hengine', hsent'⟩ := ih hsound hrun₁
      have hcmds : (Event.command cmd grow save :: events).filterMap Event.command? =
          cmd :: events.filterMap Event.command? := List.filterMap_cons_some rfl
      rw [hcmds]
      refine ⟨by rw [hengine', hengine]; rfl, ?_⟩
      rw [hsent', hsent, hengine, List.map_append, map_reportedFill_datagrams, executed,
        List.map_append, List.append_assoc]

/-- **A run from a start-up**, up to the time of its commands. -/
theorem outcome_of_run {io : RecoverIo} {dataDir : Option DataDir} {interval : UInt64}
    {s₀ s : Phase × MatchingLoop} {events : List Event} {cmds : List EngineCommand}
    (hstart : start crc bincode io dataDir c interval = some s₀)
    (hrun : run crc bincode s₀ events = some s)
    (hcmds : (events.filterMap Event.command?).map EngineCommand.untimed =
      cmds.map EngineCommand.untimed) : Outcome s₀.2.engine cmds s.2 := by
  obtain ⟨hsound, hnone, -⟩ := sound_start hstart
  obtain ⟨hfeed, -, -⟩ := (feed_start hstart).run hrun
  obtain ⟨hengine, hsent⟩ := sent_of_run hsound hrun
  obtain ⟨hwf, hbook⟩ := MatchingEngine.applyAll_sim hsound.wf (events.filterMap Event.command?)
  obtain ⟨hwf', hbook'⟩ := MatchingEngine.applyAll_sim hsound.wf cmds
  refine ⟨?_, ?_, hfeed.numbered⟩
  · rw [hengine]
    refine MatchingEngine.sameBook_of_untimed hwf hwf' ?_
    rw [hbook, hbook']
    exact Book.applyAll_congr _ hcmds
  · rw [hsent, hnone, executed_eq hsound.wf, executed_eq hsound.wf, List.map_nil, List.nil_append,
      Book.executions_congr rfl hcmds]

end MatchingLoop

/-- **What was processed** is what was received, except for the commands under way. -/
theorem Gateway.Inv.processed_prefix {crc : List UInt8 → UInt32} {bincode : Bincode} {c : UInt64}
    {loop₀ : Phase × MatchingLoop} {s : Gateway} (h : s.Inv crc bincode c loop₀) :
    s.processed <+: s.received ∧ s.received.length ≤ s.processed.length + c.toNat + 2 ∧
      (s.loop.1 = .stopped → s.processed = s.received ∧ s.client.reads = false) := by
  have hfifo : s.ring.popped.map (·.2) <+: s.ring.pushed.map (·.2) := h.ring.fifo.map _
  have hbound := h.ring.outstanding_le
  have hpushed : s.ring.pushed.map (·.2) <+: s.received ∧
      s.received.length ≤ s.ring.pushed.length + 1 := by
    have hat := h.client
    generalize s.client = client at hat
    cases hat with
    | idle _ _ heq => simp [heq]
    | retrying _ heq => simp [heq]
    | pushing _ heq => simp [heq]
    | full _ _ heq => simp [heq]
    | pushed _ _ heq => simp [heq]
  have hpopped : s.processed <+: s.ring.popped.map (·.2) ∧
      s.ring.popped.length ≤ s.processed.length + 1 := by
    have hlen : (s.ring.popped.map (·.2)).length = s.ring.popped.length := List.length_map _
    rw [← hlen]
    have hat := h.round
    generalize s.round = round at hat
    cases hat with
    | idle _ _ heq => simp [heq]
    | popping _ _ heq => simp [heq]
    | popped _ _ heq => simp [heq]
    | empty _ _ heq => simp [heq]
  refine ⟨(hpopped.1.trans hfifo).trans hpushed.1, by omega, ?_⟩
  intro hstopped
  have hall : s.ring.popped = s.ring.pushed :=
    h.ring.fifo.eq_of_length (h.exhausted (Or.inl hstopped))
  obtain ⟨-, hprocessed⟩ := h.round.of_ne_popping (by simp [h.stopped hstopped])
  obtain ⟨hset, -⟩ := h.draining (by simp [hstopped])
  obtain ⟨heads, hheads⟩ := List.exists_mem_of_ne_nil _ hset
  obtain ⟨-, hclient⟩ := h.shutdown heads hheads
  have hidle : ∀ cmd, s.client ≠ .retrying cmd ∧ s.client ≠ .pushing cmd := by
    obtain hclient | hclient := hclient
    · simp [hclient]
    · simp [hclient]
  obtain ⟨-, hreceived⟩ := h.client.of_idle hidle
  refine ⟨by rw [← hprocessed, hall, hreceived], ?_⟩
  obtain hclient | hclient := hclient
  · rw [hclient]
    rfl
  · rw [hclient]
    rfl

namespace Pipeline

variable {crc : List UInt8 → UInt32} {bincode : Bincode} {noCursorCache : Bool} {c : UInt64}
  {k : UInt32} {bytes : List UInt8} {ending : ReadError} {loop₀ : Phase × MatchingLoop}
  {p p' : Pipeline}

/-- The frames that were read come first among those of the stream, and are all of them when the
client thread has left its loop. -/
theorem Reads.cut {frames : List (List UInt8)} {rest : List UInt8} {cmds : List EngineCommand}
    (h : Reads bytes frames rest cmds p) :
    ∃ frames' rest' cmds', Cut bytes frames' rest' ∧ Carries frames' cmds' ∧ cmds <+: cmds' ∧
      (p.gateway.client.reads = false → cmds' = cmds) := by
  obtain ⟨more, rest', hmore, hstops⟩ := exists_cut rest
  obtain ⟨cmds', hcmds'⟩ := exists_carries hmore.valid
  have hvalid : ∀ f ∈ frames ++ more, ValidFrame f := by
    intro f hf
    rcases List.mem_append.1 hf with hf | hf
    · exact h.valid f hf
    · exact hmore.valid f hf
  have hsplit : bytes = (frames ++ more).flatten ++ rest' := by
    rw [List.flatten_append, List.append_assoc, ← hmore.split, ← h.split]
  have hparses : Framing.Parses id ValidFrame bytes (frames ++ more) :=
    ⟨hvalid, rest', by rwa [List.flatMap_id], hstops⟩
  refine ⟨frames ++ more, rest', cmds ++ cmds', ⟨hsplit, hvalid, ?_⟩,
    List.rel_append h.carries hcmds', List.prefix_append _ _, ?_⟩
  · intro frames' hvalid' hprefix
    exact hparses.longest selfDelimiting_validFrame hvalid' (by rwa [List.flatMap_id])
  · intro hended
    cases hcmds' with
    | nil => exact List.append_nil _
    | @cons frame cmd more cmds' _ _ =>
      refine absurd ?_ (h.ended hended frame (hmore.valid frame List.mem_cons_self))
      rw [hmore.split, List.flatten_cons, List.append_assoc]
      exact List.prefix_append _ _

/-- **From bytes to reports.** Whatever a client sends, however the connection ends, whatever the
gateway started from and however its threads take turns: the commands that were processed are, up to
their times of arrival, the first ones of the longest sequence of valid frames that the bytes start
with; those under way are no more than the ring's capacity and two; and the book and the feed are
those of the processed commands. When the loop has ended, they are those of the whole sequence. -/
theorem processed_of_reachable {io : RecoverIo} {dataDir : Option DataDir} {interval : UInt64}
    (hstart : MatchingLoop.start crc bincode io dataDir k interval = some loop₀)
    (h : Reachable crc bincode noCursorCache c bytes ending loop₀ p) :
    ∃ frames rest cmds done, Cut bytes frames rest ∧ Carries frames cmds ∧ done <+: cmds ∧
      p.gateway.processed.map EngineCommand.untimed = done.map EngineCommand.untimed ∧
      p.gateway.received.length ≤ done.length + c.toNat + 2 ∧
      MatchingLoop.Outcome loop₀.2.engine done p.gateway.loop.2 ∧
      (p.gateway.loop.1 = .stopped → done = cmds) := by
  obtain ⟨s, hs, hphase, hsteady⟩ :=
    MatchingLoop.steady_start crc bincode io dataDir k interval
  obtain rfl := Option.some.inj (hs.symm.trans hstart)
  obtain ⟨halive, frames₀, rest₀, cmds₀, hreads⟩ := h.inv hphase hsteady
  obtain ⟨frames, rest, cmds, hcut, hcarries, hprefix, hall⟩ := hreads.cut
  obtain ⟨hprocessed, hlen, hstopped⟩ := halive.inv.processed_prefix
  have hdone : p.gateway.processed.map EngineCommand.untimed =
      (cmds.take p.gateway.processed.length).map EngineCommand.untimed := by
    have hle : p.gateway.processed.map EngineCommand.untimed <+: cmds.map EngineCommand.untimed :=
      (hprocessed.map _).trans (hreads.received ▸ hprefix.map _)
    rw [List.prefix_iff_eq_take, List.length_map, ← List.map_take] at hle
    exact hle
  have hcount : (cmds.take p.gateway.processed.length).length = p.gateway.processed.length := by
    have := congrArg List.length hdone
    rwa [List.length_map, List.length_map, eq_comm] at this
  refine ⟨frames, rest, cmds, cmds.take p.gateway.processed.length, hcut, hcarries,
    List.take_prefix _ _, hdone, by omega,
    MatchingLoop.outcome_of_run hstart halive.inv.rounds hdone, ?_⟩
  intro hend
  obtain ⟨heq, hended⟩ := hstopped hend
  have hlength : p.gateway.processed.length = cmds.length := by
    have := congrArg List.length hreads.received
    rw [List.length_map, List.length_map] at this
    rw [heq, this, hall hended]
  rw [hlength, List.take_length]

/-- The threads take turns on a cancellation, and then the client sends a message of an unknown
type. -/
def turns : List PipelineEvent :=
  [.read 5, .gateway .pop, .gateway (.ring (.loadHead 0)), .gateway .push,
    .gateway (.ring .writeSlot), .gateway (.popReturns .ok .ok), .gateway (.ring .storeHead),
    .gateway .pushReturns, .read 6, .gateway .storeShutdown, .gateway (.loadShutdown 1),
    .gateway .pop, .gateway (.ring (.loadHead 1)), .gateway (.ring .readSlot),
    .gateway (.ring .storeTail), .gateway (.popReturns .ok .ok), .gateway .pop,
    .gateway (.ring (.loadHead 1)), .gateway (.popReturns .ok .ok)]

theorem processed_of_reachable_turns : ∃ loop₀ p,
    MatchingLoop.start crc32 .fixint .ok none 4 10 = some loop₀ ∧
    Reachable crc32 .fixint false 1 [2, 0, 0, 0, 0, 0, 0, 0, 9, 0, 0, 0, 0, 0, 0, 0, 7]
      .unexpectedEof loop₀ p ∧ p.gateway.loop.1 = .stopped ∧
    p.gateway.processed = [.cancelOrder 9] ∧ ∃ frames rest cmds,
      Cut [2, 0, 0, 0, 0, 0, 0, 0, 9, 0, 0, 0, 0, 0, 0, 0, 7] frames rest ∧
      Carries frames cmds ∧ MatchingLoop.Outcome loop₀.2.engine cmds p.gateway.loop.2 := by
  have hstart : MatchingLoop.start crc32 .fixint .ok none 4 10 =
      some (MatchingLoop.enter (MatchingEngine.withCapacity 4) none false ⟨none, none⟩ 10) := rfl
  have hend : ((ringBuffer EngineCommand 1).bind fun ring =>
      (accept [2, 0, 0, 0, 0, 0, 0, 0, 9, 0, 0, 0, 0, 0, 0, 0, 7] .unexpectedEof ring
        (MatchingLoop.enter (MatchingEngine.withCapacity 4) none false ⟨none, none⟩ 10)).run
        crc32 .fixint false turns).map (fun p => (p.gateway.loop.1, p.gateway.processed)) =
      some (.stopped, [.cancelOrder 9]) := by decide +kernel
  obtain ⟨p, hp, hend⟩ := Option.map_eq_some_iff.1 hend
  obtain ⟨ring, hmade, hrun⟩ := Option.bind_eq_some_iff.1 hp
  obtain ⟨hstopped, hprocessed⟩ := Prod.mk.inj hend
  have h : Reachable crc32 .fixint false 1 [2, 0, 0, 0, 0, 0, 0, 0, 9, 0, 0, 0, 0, 0, 0, 0, 7]
      .unexpectedEof _ p := ⟨ring, turns, hmade, hrun⟩
  obtain ⟨frames, rest, cmds, done, hcut, hcarries, -, -, -, houtcome, hall⟩ :=
    processed_of_reachable hstart h
  obtain rfl := hall hstopped
  exact ⟨_, p, hstart, h, hstopped, hprocessed, frames, rest, done, hcut, hcarries, houtcome⟩

/-! ## The end can be reached -/

/-- Some interleaving leads from one state to the other. -/
def Leads (crc : List UInt8 → UInt32) (bincode : Bincode) (noCursorCache : Bool)
    (p p' : Pipeline) : Prop := ∃ events, p.run crc bincode noCursorCache events = some p'

theorem Leads.trans {p₁ : Pipeline} (h : Leads crc bincode noCursorCache p p₁)
    (h' : Leads crc bincode noCursorCache p₁ p') : Leads crc bincode noCursorCache p p' := by
  obtain ⟨events, hrun⟩ := h
  obtain ⟨events', hrun'⟩ := h'
  refine ⟨events ++ events', ?_⟩
  induction events generalizing p with
  | nil =>
    obtain rfl := Option.some.inj hrun
    exact hrun'
  | cons event events ih =>
    obtain ⟨p₂, hs, hrun⟩ := run_cons hrun
    rw [List.cons_append, run, hs]
    exact ih hrun

theorem Leads.single (event : PipelineEvent)
    (hs : p.step crc bincode noCursorCache event = some p') :
    Leads crc bincode noCursorCache p p' := by
  refine ⟨[event], ?_⟩
  rw [run, hs]
  rfl

theorem Leads.of_gets {s : Gateway} (hgets : p.gateway.Gets crc bincode noCursorCache s) :
    Leads crc bincode noCursorCache p { p with gateway := s } := by
  induction hgets with
  | refl => exact ⟨[], rfl⟩
  | tail _ hs ih =>
    obtain ⟨event, hinternal, hs⟩ := hs
    refine ih.trans (.single (.gateway event) ?_)
    simp only [step, if_pos hinternal, hs, Option.map_some]

theorem Inv.leads (h : Inv crc bincode c k bytes loop₀ p)
    (hsteady : MatchingLoop.Steady crc k loop₀.2) (hleads : Leads crc bincode noCursorCache p p') :
    Inv crc bincode c k bytes loop₀ p' := by
  obtain ⟨events, hrun⟩ := hleads
  exact h.run hsteady hrun

/-- The gateway has come to its end. -/
def Ended (p : Pipeline) : Prop := p.gateway.client = .joining ∧ p.gateway.loop.1 = .stopped

/-- A client thread that has left its loop lets the matching thread end. -/
theorem Inv.canEnd (h : Inv crc bincode c k bytes loop₀ p)
    (hsteady : MatchingLoop.Steady crc k loop₀.2) (hclient : p.gateway.client.reads = false) :
    ∃ p', Leads crc bincode noCursorCache p p' ∧ p'.Ended := by
  obtain ⟨s₁, hgets₁, hjoining⟩ : ∃ s₁, p.gateway.Gets crc bincode noCursorCache s₁ ∧
      s₁.client = .joining := by
    cases hcase : p.gateway.client with
    | closing =>
      obtain ⟨s₁, hgets, hjoining, -⟩ := Gateway.joined (Or.inl hcase)
      exact ⟨s₁, hgets, hjoining⟩
    | returned =>
      obtain ⟨s₁, hgets, hjoining, -⟩ := Gateway.joined (Or.inr hcase)
      exact ⟨s₁, hgets, hjoining⟩
    | joining => exact ⟨p.gateway, Relation.ReflTransGen.refl, hcase⟩
    | _ =>
      rw [hcase] at hclient
      cases hclient
  have halive := h.alive.gets hsteady hgets₁
  obtain ⟨s₂, hgets₂, hsame, hstopped⟩ : ∃ s₂, s₁.Gets crc bincode noCursorCache s₂ ∧
      Gateway.SameClient s₁ s₂ ∧ s₂.loop.1 = .stopped :=
    halive.ended hsteady (halive.joining hjoining)
  exact ⟨_, .of_gets (hgets₁.trans hgets₂), hsame.client.trans hjoining, hstopped⟩

/-- **A client thread that reads** comes to the end of its loop. The induction is on the bytes that
are still to be read: a valid frame is handed over, and the loop goes on behind it. -/
theorem Inv.canEnd_reading (h : Inv crc bincode c k bytes loop₀ p)
    (hsteady : MatchingLoop.Steady crc k loop₀.2) (hclient : p.gateway.client = .reading) :
    ∃ p', Leads crc bincode noCursorCache p p' ∧ p'.Ended := by
  induction hn : p.stream.length using Nat.strong_induction_on generalizing p with
  | h n ih =>
    obtain ⟨frame, rest, cmd, cmd', hsplit, hvalid, -, -, hread⟩ |
      ⟨-, stream, client, hend, hread⟩ := read_spec hclient 0
    · have hread : Leads crc bincode noCursorCache p _ := .single (.read 0) hread
      obtain ⟨s, hgets, hreading, -⟩ := (h.leads hsteady hread).alive.handedOver hsteady (Or.inl rfl)
      have hleads := hread.trans (.of_gets hgets)
      have hlt : rest.length < n := by
        have hpos := List.length_pos_iff.2 hvalid.ne_nil
        rw [← hn, hsplit, List.length_append]
        omega
      obtain ⟨p', hleads', hended⟩ := ih rest.length hlt (h.leads hsteady hleads) hreading rfl
      exact ⟨p', hleads.trans hleads', hended⟩
    · have hread : Leads crc bincode noCursorCache p _ := .single (.read 0) hread
      have hreads : client.reads = false := by
        obtain rfl | rfl := hend
        · rfl
        · rfl
      obtain ⟨p', hleads, hended⟩ := (h.leads hsteady hread).canEnd hsteady hreads
      exact ⟨p', hread.trans hleads, hended⟩

/-- **The end can be reached from everywhere.** There is no deadlock, and no state that the threads
cannot get out of: whatever the client sends and however the threads have taken turns, they can go on
to where the client thread waits for the matching thread and that one has ended. -/
theorem canEnd_of_reachable {io : RecoverIo} {dataDir : Option DataDir} {interval : UInt64}
    (hstart : MatchingLoop.start crc bincode io dataDir k interval = some loop₀)
    (h : Reachable crc bincode noCursorCache c bytes ending loop₀ p) :
    ∃ events p', p.run crc bincode noCursorCache events = some p' ∧ p'.Ended := by
  obtain ⟨s, hs, hphase, hsteady⟩ :=
    MatchingLoop.steady_start crc bincode io dataDir k interval
  obtain rfl := Option.some.inj (hs.symm.trans hstart)
  have hinv := h.inv hphase hsteady
  obtain ⟨p', ⟨events, hrun⟩, hended⟩ : ∃ p', Leads crc bincode noCursorCache p p' ∧ p'.Ended := by
    cases hreads : p.gateway.client.reads with
    | false => exact hinv.canEnd hsteady hreads
    | true =>
      by_cases hclient : p.gateway.client = .reading
      · exact hinv.canEnd_reading hsteady hclient
      · obtain ⟨cmd, hcmd⟩ : ∃ cmd, p.gateway.client = .retrying cmd ∨
            p.gateway.client = .pushing cmd := by
          cases hcase : p.gateway.client with
          | reading => exact absurd hcase hclient
          | retrying cmd => exact ⟨cmd, Or.inl rfl⟩
          | pushing cmd => exact ⟨cmd, Or.inr rfl⟩
          | _ =>
            rw [hcase] at hreads
            cases hreads
        obtain ⟨s, hgets, hreading, -⟩ := hinv.alive.handedOver hsteady hcmd
        have hleads : Leads crc bincode noCursorCache p { p with gateway := s } := .of_gets hgets
        obtain ⟨p', hleads', hended⟩ := (hinv.leads hsteady hleads).canEnd_reading hsteady hreading
        exact ⟨p', hleads.trans hleads', hended⟩
  exact ⟨events, p', hrun, hended⟩

/-- The ring is full, and the client thread has been handed its command back. -/
theorem canEnd_of_reachable_full : ∃ loop₀ p,
    MatchingLoop.start crc32 .fixint .ok none 4 10 = some loop₀ ∧
    Reachable crc32 .fixint false 1 [2, 0, 0, 0, 0, 0, 0, 0, 9, 0, 0, 0, 0, 0, 0, 0,
      2, 0, 0, 0, 0, 0, 0, 0, 8, 0, 0, 0, 0, 0, 0, 0] .connectionReset loop₀ p ∧
    p.gateway.client = .retrying (.cancelOrder 8) ∧
    ∃ events p', p.run crc32 .fixint false events = some p' ∧ p'.Ended := by
  have hstart : MatchingLoop.start crc32 .fixint .ok none 4 10 =
      some (MatchingLoop.enter (MatchingEngine.withCapacity 4) none false ⟨none, none⟩ 10) := rfl
  have hend : ((ringBuffer EngineCommand 1).bind fun ring =>
      (accept [2, 0, 0, 0, 0, 0, 0, 0, 9, 0, 0, 0, 0, 0, 0, 0,
          2, 0, 0, 0, 0, 0, 0, 0, 8, 0, 0, 0, 0, 0, 0, 0] .connectionReset ring
        (MatchingLoop.enter (MatchingEngine.withCapacity 4) none false ⟨none, none⟩ 10)).run
        crc32 .fixint false [.read 5, .gateway .push, .gateway (.ring .writeSlot),
          .gateway (.ring .storeHead), .gateway .pushReturns, .read 6, .gateway .push,
          .gateway (.ring (.loadTail 0)), .gateway .pushReturns]).map (fun p => p.gateway.client) =
      some (.retrying (.cancelOrder 8)) := by decide +kernel
  obtain ⟨p, hp, hclient⟩ := Option.map_eq_some_iff.1 hend
  obtain ⟨ring, hmade, hrun⟩ := Option.bind_eq_some_iff.1 hp
  have h : Reachable crc32 .fixint false 1 _ .connectionReset _ p := ⟨ring, _, hmade, hrun⟩
  exact ⟨_, p, hstart, h, hclient, canEnd_of_reachable hstart h⟩

end Pipeline

end Ferrox
