import Ferrox.RingProgress

/-!
# The gateway goes on to its end

Could a gateway get into a state in which it cannot go on? A round of the matching thread can always
be made, whatever the data directory held and whichever calls fail (`Steady.step`): the log that a
thread has is one that recovery opened, and appends keep it within its mapping. `Ferrox.IndexedProof`
adds that no other index is out of bounds in a round. And from every state that the two threads can
get to, the client thread can hand over the command it has in hand (`Alive.handedOver`), and once it
has set the flag, the loop can drain the ring and end (`Alive.ended`).
-/

namespace Ferrox

open Bytes Recovery

/-! ## Rounds can be made -/

namespace MatchingLoop

variable {crc : List UInt8 → UInt32} {bincode : Bincode} {c : UInt32}

/-- **What a round needs**: a sound engine, and a log that appends keep within its mapping. -/
structure Steady (crc : List UInt8 → UInt32) (c : UInt32) (m : MatchingLoop) : Prop where
  sound : Sound c m
  wal : ∀ w, m.wal = some w → ∃ rs, w.Holds crc rs

/-- An append does not panic, and leaves a log that the next one can go on with. -/
theorem Steady.log {m : MatchingLoop} (h : Steady crc c m) (grow : GrowIo) (cmd : EngineCommand) :
    ∃ m', MatchingLoop.log crc grow m cmd = some m' ∧
      ∀ w, m'.wal = some w → ∃ rs, w.Holds crc rs := by
  unfold MatchingLoop.log
  cases hw : m.wal with
  | none => exact ⟨m, rfl, h.wal⟩
  | some w =>
    obtain ⟨rs, hholds⟩ := h.wal w hw
    obtain ⟨w', ⟨happ, hholds', -⟩ | ⟨happ, hholds'⟩⟩ := Wal.append_spec hholds grow cmd
    · simp only [happ]
      refine ⟨_, rfl, ?_⟩
      intro w₂ hw₂
      obtain rfl := Option.some.inj hw₂
      exact ⟨rs, hholds'⟩
    · simp only [happ]
      refine ⟨_, rfl, ?_⟩
      intro w₂ hw₂
      obtain rfl := Option.some.inj hw₂
      exact ⟨_, hholds'⟩

theorem Steady.processCommand {m : MatchingLoop} (h : Steady crc c m) (grow : GrowIo)
    (cmd : EngineCommand) :
    ∃ m', MatchingLoop.processCommand crc grow m cmd = some m' ∧ Steady crc c m' := by
  obtain ⟨m₁, hlog, hwal⟩ := h.log grow cmd
  obtain ⟨m', hm'⟩ : ∃ m', MatchingLoop.processCommand crc grow m cmd = some m' := by
    unfold MatchingLoop.processCommand
    rw [hlog]
    cases cmd with
    | cancelOrder id => exact ⟨_, rfl⟩
    | newOrder order =>
      simp only
      cases m₁.engine.addOrder order with
      | mk e result =>
        cases result with
        | ok r => exact ⟨_, rfl⟩
        | error err => exact ⟨_, rfl⟩
  have hsound := h.sound.processCommand hm'
  obtain ⟨m₂, buf, hlog₂, -, rfl⟩ := processCommand_spec h.sound.reportBuf hm'
  rw [hlog] at hlog₂
  cases hlog₂
  exact ⟨_, hm', hsound, hwal⟩

theorem Steady.countCommand {m : MatchingLoop} (h : Steady crc c m) (save : Snapshot.SaveIo) :
    Steady crc c (countCommand crc bincode save m) := by
  have hsound := h.sound.countCommand crc bincode save
  rcases countCommand_cases crc bincode save m with ⟨k, heq⟩ | ⟨w, -, heq⟩
  · rw [heq] at hsound ⊢
    exact ⟨hsound, h.wal⟩
  · rw [heq] at hsound ⊢
    exact ⟨hsound, h.wal⟩

/-- **A round can be made** unless the loop has ended. -/
theorem Steady.step (bincode : Bincode) {s : Phase × MatchingLoop} (h : Steady crc c s.2)
    (hphase : s.1 ≠ .stopped) (event : Event) :
    ∃ s', step crc bincode s event = some s' ∧ Steady crc c s'.2 := by
  obtain ⟨phase, m⟩ := s
  cases event with
  | empty shutdown =>
    cases phase with
    | running => exact ⟨_, rfl, h⟩
    | draining => exact ⟨_, rfl, h⟩
    | stopped => exact absurd rfl hphase
  | command cmd grow save =>
    obtain ⟨m', hm', hsteady⟩ := h.processCommand grow cmd
    cases phase with
    | running =>
      simp only [MatchingLoop.step, hm', Option.map_some]
      exact ⟨_, rfl, hsteady.countCommand save⟩
    | draining =>
      simp only [MatchingLoop.step, hm', Option.map_some]
      exact ⟨_, rfl, hsteady⟩
    | stopped => exact absurd rfl hphase

theorem Steady.run {s s' : Phase × MatchingLoop} (h : Steady crc c s.2) {events : List Event}
    (hrun : run crc bincode s events = some s') : Steady crc c s'.2 := by
  induction events generalizing s with
  | nil =>
    obtain rfl := Option.some.inj hrun
    exact h
  | cons event events ih =>
    obtain ⟨s₁, hs, hrun⟩ := run_cons hrun
    have hphase : s.1 ≠ .stopped := by
      intro hstopped
      obtain ⟨phase, m⟩ := s
      obtain rfl : phase = .stopped := hstopped
      cases event with
      | empty shutdown => cases hs
      | command cmd grow save => cases hs
    obtain ⟨s₂, hs₂, hsteady⟩ := h.step bincode hphase event
    rw [hs] at hs₂
    obtain rfl := Option.some.inj hs₂
    exact ih hsteady hrun

/-- **A gateway can start**, whatever it finds in its directory. -/
theorem steady_start (crc : List UInt8 → UInt32) (bincode : Bincode) (io : RecoverIo)
    (dataDir : Option DataDir) (c : UInt32) (interval : UInt64) :
    ∃ s, start crc bincode io dataDir c interval = some s ∧ s.1 = .running ∧ Steady crc c s.2 := by
  obtain ⟨s, hs, hwal⟩ : ∃ s, start crc bincode io dataDir c interval = some s ∧
      ∀ w, s.2.wal = some w → ∃ rs, w.Holds crc rs := by
    unfold start
    cases dataDir with
    | none => exact ⟨_, rfl, nofun⟩
    | some dir =>
      have hret := returns crc bincode io dir c none
      cases hrec : recover crc bincode io dir c with
      | mk dir' result =>
        cases result with
        | none =>
          rw [recover] at hrec
          rw [hrec] at hret
          cases hret
        | some result =>
          cases result with
          | error e =>
            simp only [hrec]
            exact ⟨_, rfl, nofun⟩
          | ok r =>
            obtain ⟨e, w⟩ := r
            simp only [hrec]
            refine ⟨_, rfl, ?_⟩
            intro w' hw'
            obtain rfl := Option.some.inj hw'
            obtain ⟨-, e₀, n, rs, hsucc⟩ := succeeded hrec
            exact ⟨rs, hsucc.holds⟩
  exact ⟨s, hs, phase_of_start hs, (sound_start hs).1, hwal⟩

end MatchingLoop

/-! ## The two threads -/

/-- A step that reads nothing from the connection. -/
def GatewayEvent.internal : GatewayEvent → Bool
  | .receive _ _ | .closed | .failed => false
  | _ => true

namespace Gateway

variable {crc : List UInt8 → UInt32} {bincode : Bincode} {noCursorCache : Bool} {c : UInt64}
  {k : UInt32} {loop₀ : Phase × MatchingLoop} {s s' : Gateway}

/-- **What the threads need to go on.** -/
structure Alive (crc : List UInt8 → UInt32) (bincode : Bincode) (c : UInt64) (k : UInt32)
    (loop₀ : Phase × MatchingLoop) (s : Gateway) : Prop where
  inv : Inv crc bincode c loop₀ s
  pow : isPowerOfTwo c
  steady : MatchingLoop.Steady crc k s.loop.2
  -- the head that the matching thread must see has been stored
  floor : s.headFloor ≤ s.ring.pushed.length
  joining : s.client = .joining → s.shutdown ≠ []

theorem endRound_cases {event : Event} (hs : s.endRound crc bincode event = some s') :
    ∃ loop, MatchingLoop.step crc bincode s.loop event = some loop ∧
      s' = { s with loop, round := .calling, events := s.events ++ [event] } := by
  obtain ⟨loop, hloop, rfl⟩ := Option.map_eq_some_iff.1 hs
  exact ⟨loop, hloop, rfl⟩

theorem pushed_le_of_step {ring ring' : Ring EngineCommand} {event : RingEvent EngineCommand}
    (hs : ring.step noCursorCache event = some ring') :
    ring.pushed.length ≤ ring'.pushed.length := by
  by_cases hevent : event.byProducer
  · cases event with
    | push value =>
      obtain ⟨-, phase, -, rfl⟩ := Ring.push_cases hs
      exact Nat.le_refl _
    | loadTail i =>
      obtain ⟨value, tail, -, -, -, ⟨-, rfl⟩ | ⟨-, rfl⟩⟩ := Ring.loadTail_cases hs
      · exact Nat.le_refl _
      · exact Nat.le_refl _
    | writeSlot =>
      obtain ⟨value, -, rfl⟩ := Ring.writeSlot_cases hs
      exact Nat.le_refl _
    | storeHead =>
      obtain ⟨value, -, rfl⟩ := Ring.storeHead_cases hs
      simp
    | _ => cases hevent
  · rw [Ring.pushed_eq_of_step hevent hs]

/-! What the steps of the two threads can come to, outside the calls of the ring. -/

theorem receive_cases {msg : List UInt8} {now : UInt64} (hs : s.receive msg now = some s') :
    s.client = .reading ∧
      ∃ client received, client ≠ .joining ∧ s' = { s with client, received } := by
  unfold Gateway.receive at hs
  split at hs
  · next hreading =>
    refine ⟨hreading, ?_⟩
    split at hs
    · obtain rfl := Option.some.inj hs
      exact ⟨.returned, s.received, nofun, rfl⟩
    · split at hs
      · split at hs
        · obtain rfl := Option.some.inj hs
          exact ⟨.returned, s.received, nofun, rfl⟩
        · next cmd _ =>
          obtain rfl := Option.some.inj hs
          exact ⟨.retrying cmd, s.received ++ [cmd], nofun, rfl⟩
      · cases hs
  · cases hs

theorem closed_cases (hs : s.closed = some s') :
    s.client = .reading ∧ s' = { s with client := .closing } := by
  unfold Gateway.closed at hs
  split at hs
  · next hreading => exact ⟨hreading, (Option.some.inj hs).symm⟩
  · cases hs

theorem failed_cases (hs : s.failed = some s') :
    s.client = .reading ∧ s' = { s with client := .returned } := by
  unfold Gateway.failed at hs
  split at hs
  · next hreading => exact ⟨hreading, (Option.some.inj hs).symm⟩
  · cases hs

theorem push_cases (hs : s.push noCursorCache = some s') :
    ∃ cmd ring, s.client = .retrying cmd ∧ s.ring.step noCursorCache (.push cmd) = some ring ∧
      s' = { s with ring, client := .pushing cmd } := by
  unfold Gateway.push at hs
  split at hs
  · next cmd hretrying =>
    obtain ⟨ring, hpush, rfl⟩ := Option.map_eq_some_iff.1 hs
    exact ⟨cmd, ring, hretrying, hpush, rfl⟩
  · cases hs

theorem pushReturns_cases (hs : s.pushReturns = some s') :
    ∃ cmd client, s.client = .pushing cmd ∧ (client = .reading ∨ ∃ cmd', client = .retrying cmd') ∧
      s' = { s with client } := by
  unfold Gateway.pushReturns at hs
  split at hs
  · next cmd hpushing _ _ =>
    exact ⟨cmd, _, hpushing, Or.inl rfl, (Option.some.inj hs).symm⟩
  · next cmd full hpushing _ _ =>
    exact ⟨cmd, _, hpushing, Or.inr ⟨_, rfl⟩, (Option.some.inj hs).symm⟩
  · cases hs

theorem storeShutdown_cases (hs : s.storeShutdown = some s') :
    ∃ client, (s.client = .closing ∧ client = .returned ∨
        s.client = .returned ∧ client = .joining) ∧
      s' = { s with shutdown := s.shutdown ++ [s.ring.pushed.length], client } := by
  unfold Gateway.storeShutdown at hs
  simp only at hs
  split at hs
  · next hclosing => exact ⟨_, Or.inl ⟨hclosing, rfl⟩, (Option.some.inj hs).symm⟩
  · next hreturned => exact ⟨_, Or.inr ⟨hreturned, rfl⟩, (Option.some.inj hs).symm⟩
  · cases hs

theorem popReturns_cases {grow : GrowIo} {save : Snapshot.SaveIo}
    (hs : s.popReturns crc bincode grow save = some s') :
    ∃ loop round events, s' = { s with loop, round, events } := by
  unfold Gateway.popReturns at hs
  split at hs
  · obtain ⟨loop, -, rfl⟩ := endRound_cases hs
    exact ⟨_, _, _, rfl⟩
  · split at hs
    · obtain rfl := Option.some.inj hs
      exact ⟨_, _, _, rfl⟩
    · obtain ⟨loop, -, rfl⟩ := endRound_cases hs
      exact ⟨_, _, _, rfl⟩
    · cases hs
  · cases hs

/-- A flag that is seen makes its head one that must be seen. -/
theorem loadShutdown_cases {i : Nat} (hs : s.loadShutdown crc bincode i = some s') :
    ∃ loop events headFloor,
      (headFloor = s.headFloor ∨ ∃ heads ∈ s.shutdown, headFloor = max s.headFloor heads) ∧
      s' = { s with loop, round := .calling, events, headFloor } := by
  unfold Gateway.loadShutdown at hs
  split at hs
  · obtain ⟨loop, -, rfl⟩ := endRound_cases hs
    exact ⟨_, _, _, Or.inl rfl, rfl⟩
  · split at hs
    · cases hs
    · next heads hheads =>
      obtain ⟨loop, -, rfl⟩ := endRound_cases hs
      exact ⟨_, _, _, Or.inr ⟨heads, List.mem_of_getElem? hheads, rfl⟩, rfl⟩
  · cases hs

theorem Alive.flag_step (h : Alive crc bincode c k loop₀ s) {event : GatewayEvent}
    (hs : s.step crc bincode noCursorCache event = some s') :
    s'.headFloor ≤ s'.ring.pushed.length ∧ (s'.client = .joining → s'.shutdown ≠ []) := by
  have hfloor := h.floor
  have hjoining := h.joining
  cases event with
  | receive msg now =>
    obtain ⟨-, client, received, hne, rfl⟩ := receive_cases hs
    exact ⟨hfloor, fun hclient => absurd hclient hne⟩
  | closed =>
    obtain ⟨-, rfl⟩ := closed_cases hs
    exact ⟨hfloor, nofun⟩
  | failed =>
    obtain ⟨-, rfl⟩ := failed_cases hs
    exact ⟨hfloor, nofun⟩
  | push =>
    obtain ⟨cmd, ring, -, hstep, rfl⟩ := push_cases hs
    exact ⟨hfloor.trans (pushed_le_of_step hstep), nofun⟩
  | pushReturns =>
    obtain ⟨cmd, client, -, rfl | ⟨cmd', rfl⟩, rfl⟩ := pushReturns_cases hs
    · exact ⟨hfloor, nofun⟩
    · exact ⟨hfloor, nofun⟩
  | storeShutdown =>
    obtain ⟨client, -, rfl⟩ := storeShutdown_cases hs
    exact ⟨hfloor, fun _ => by simp⟩
  | pop =>
    obtain ⟨-, -, ring, hpop, rfl⟩ := pop_cases hs
    have hstep : s.ring.step noCursorCache .pop = some ring := hpop
    exact ⟨hfloor.trans (pushed_le_of_step hstep), hjoining⟩
  | popReturns grow save =>
    obtain ⟨loop, round, events, rfl⟩ := popReturns_cases hs
    exact ⟨hfloor, hjoining⟩
  | loadShutdown i =>
    obtain ⟨loop, events, _, rfl | ⟨heads, hheads, rfl⟩, rfl⟩ := loadShutdown_cases hs
    · exact ⟨hfloor, hjoining⟩
    · obtain ⟨rfl, -⟩ := h.inv.shutdown heads hheads
      exact ⟨max_le hfloor (Nat.le_refl _), hjoining⟩
  | ring event =>
    obtain ⟨-, -, -, ring, hstep, rfl⟩ := ringStep_cases hs
    exact ⟨hfloor.trans (pushed_le_of_step hstep), hjoining⟩

/-- **Every step keeps the threads able to go on.** -/
theorem Alive.step (h : Alive crc bincode c k loop₀ s)
    (hsteady : MatchingLoop.Steady crc k loop₀.2) {event : GatewayEvent}
    (hs : s.step crc bincode noCursorCache event = some s') :
    Alive crc bincode c k loop₀ s' := by
  have hinv := h.inv.step h.pow hs
  obtain ⟨hfloor, hjoining⟩ := h.flag_step hs
  exact ⟨hinv, h.pow, hsteady.run hinv.rounds, hfloor, hjoining⟩

/-! ## Getting from one state to another -/

/-- Some interleaving leads from one state to the other, without anything read from the
connection. -/
def Gets (crc : List UInt8 → UInt32) (bincode : Bincode) (noCursorCache : Bool) :
    Gateway → Gateway → Prop :=
  Relation.ReflTransGen fun s s' =>
    ∃ event : GatewayEvent, event.internal ∧ s.step crc bincode noCursorCache event = some s'

theorem Gets.single {event : GatewayEvent} (hevent : event.internal)
    (hs : s.step crc bincode noCursorCache event = some s') :
    Gets crc bincode noCursorCache s s' := Relation.ReflTransGen.single ⟨event, hevent, hs⟩

theorem Alive.gets (h : Alive crc bincode c k loop₀ s)
    (hsteady : MatchingLoop.Steady crc k loop₀.2) (hgets : Gets crc bincode noCursorCache s s') :
    Alive crc bincode c k loop₀ s' := by
  induction hgets with
  | refl => exact h
  | tail _ hs ih =>
    obtain ⟨event, -, hs⟩ := hs
    exact ih.step hsteady hs

/-- The steps inside a call of the ring are steps of the gateway. -/
theorem gets_ring {events : List (RingEvent EngineCommand)} {n : Nat}
    (hinside : ∀ event ∈ events, event.Inside n) (hfloor : s.headFloor ≤ n)
    {ring : Ring EngineCommand} (hrun : s.ring.run noCursorCache events = some ring) :
    Gets crc bincode noCursorCache s { s with ring } := by
  induction events generalizing s with
  | nil =>
    obtain rfl := Option.some.inj hrun
    exact Relation.ReflTransGen.refl
  | cons event events ih =>
    obtain ⟨ring₁, hs, hrun⟩ := Ring.run_cons hrun
    have hstep : s.step crc bincode noCursorCache (.ring event) =
        some { s with ring := ring₁ } := by
      have hin := hinside event List.mem_cons_self
      cases event with
      | push value => cases hin
      | pop => cases hin
      | loadHead i =>
        obtain rfl : i = n := hin
        have hload : s.ring.loadHead i = some ring₁ := hs
        simp only [step, ringStep, if_pos hfloor, hload, Option.map_some]
      | _ => simp only [step, ringStep, hs, Option.map_some]
    exact (Gets.single rfl hstep).trans
      (ih (s := { s with ring := ring₁ }) (fun e he => hinside e (List.mem_cons_of_mem _ he))
        hfloor hrun)

/-- The matching thread has gone on, and the client thread has not. -/
structure SameClient (s s' : Gateway) : Prop where
  client : s'.client = s.client
  received : s'.received = s.received
  shutdown : s'.shutdown = s.shutdown
  producer : s'.ring.producer = s.ring.producer
  pushed : s'.ring.pushed = s.ring.pushed

theorem SameClient.refl (s : Gateway) : SameClient s s := ⟨rfl, rfl, rfl, rfl, rfl⟩

theorem SameClient.trans {s'' : Gateway} (h : SameClient s s') (h' : SameClient s' s'') :
    SameClient s s'' :=
  ⟨h'.client.trans h.client, h'.received.trans h.received, h'.shutdown.trans h.shutdown,
    h'.producer.trans h.producer, h'.pushed.trans h.pushed⟩

/-! ## The matching thread -/

theorem Alive.endRound (h : Alive crc bincode c k loop₀ s) (hphase : s.loop.1 ≠ .stopped)
    (event : Event) (floor : Nat) : ∃ loop, MatchingLoop.step crc bincode s.loop event = some loop ∧
      { s with headFloor := floor }.endRound crc bincode event = some { s with
        headFloor := floor
        loop := loop
        round := .calling
        events := s.events ++ [event] } := by
  obtain ⟨loop, hloop, -⟩ := h.steady.step bincode hphase event
  refine ⟨loop, hloop, ?_⟩
  unfold Gateway.endRound
  simp only [hloop, Option.map_some]

theorem Alive.popReturns_ok (h : Alive crc bincode c k loop₀ s) (hround : s.round = .popping)
    (hidle : s.ring.consumer.phase = .idle) {cmd : EngineCommand}
    (hresult : s.ring.consumer.result = some (.ok cmd)) :
    ∃ s', s.step crc bincode noCursorCache (.popReturns .ok .ok) = some s' ∧ SameClient s s' ∧
      s'.ring = s.ring ∧ s'.round = .calling ∧ s'.loop.1 = s.loop.1 := by
  have hphase : s.loop.1 ≠ .stopped := by
    intro hstopped
    have := h.inv.stopped hstopped
    rw [hround] at this
    cases this
  obtain ⟨loop, hloop, hend⟩ := h.endRound hphase (.command cmd .ok .ok) s.headFloor
  have hstep : s.step crc bincode noCursorCache (.popReturns .ok .ok) =
      s.endRound crc bincode (.command cmd .ok .ok) := by
    simp only [Gateway.step, Gateway.popReturns, hround, hidle, hresult]
  refine ⟨_, hstep.trans hend, ⟨rfl, rfl, rfl, rfl, rfl⟩, rfl, rfl, ?_⟩
  obtain ⟨_, -, -, hsame⟩ | ⟨_, hevent, -⟩ := MatchingLoop.phase_of_step hloop
  · exact hsame
  · cases hevent

theorem popReturns_running (hround : s.round = .popping) (hidle : s.ring.consumer.phase = .idle)
    (hresult : s.ring.consumer.result = some (.error .empty)) (hphase : s.loop.1 = .running) :
    s.step crc bincode noCursorCache (.popReturns .ok .ok) =
      some { s with round := .checking } := by
  simp only [Gateway.step, Gateway.popReturns, hround, hidle, hresult, hphase]

theorem Alive.popReturns_draining (h : Alive crc bincode c k loop₀ s) (hround : s.round = .popping)
    (hidle : s.ring.consumer.phase = .idle)
    (hresult : s.ring.consumer.result = some (.error .empty)) (hphase : s.loop.1 = .draining) :
    ∃ s', s.step crc bincode noCursorCache (.popReturns .ok .ok) = some s' ∧ SameClient s s' ∧
      s'.round = .calling ∧ s'.loop.1 = .stopped := by
  obtain ⟨loop, hloop, hend⟩ := h.endRound (by simp [hphase]) (.empty true) s.headFloor
  have hstep : s.step crc bincode noCursorCache (.popReturns .ok .ok) =
      s.endRound crc bincode (.empty true) := by
    simp only [Gateway.step, Gateway.popReturns, hround, hidle, hresult, hphase]
  refine ⟨_, hstep.trans hend, ⟨rfl, rfl, rfl, rfl, rfl⟩, rfl, ?_⟩
  obtain ⟨_, hevent, -⟩ | ⟨_, -, ⟨hrunning, -⟩ | ⟨-, hstopped⟩⟩ :=
    MatchingLoop.phase_of_step hloop
  · cases hevent
  · rw [hphase] at hrunning
    cases hrunning
  · exact hstopped

theorem Alive.checked (h : Alive crc bincode c k loop₀ s) (hround : s.round = .checking)
    (shutdown : Bool) (floor : Nat) : ∃ s',
      { s with headFloor := floor }.endRound crc bincode (.empty shutdown) = some s' ∧
      SameClient s s' ∧ s'.ring = s.ring ∧ s'.round = .calling ∧
      s'.loop.1 = if shutdown then .draining else .running := by
  have hphase := h.inv.checking hround
  obtain ⟨loop, hloop, hend⟩ := h.endRound (by simp [hphase]) (.empty shutdown) floor
  refine ⟨_, hend, ⟨rfl, rfl, rfl, rfl, rfl⟩, rfl, rfl, ?_⟩
  obtain ⟨_, hevent, -⟩ | ⟨_, hevent, ⟨-, heq⟩ | ⟨hdraining, -⟩⟩ :=
    MatchingLoop.phase_of_step hloop
  · cases hevent
  · cases hevent
    exact heq
  · rw [hphase] at hdraining
    cases hdraining

theorem loadShutdown_zero (hround : s.round = .checking) :
    s.step crc bincode noCursorCache (.loadShutdown 0) = s.endRound crc bincode (.empty false) := by
  simp only [Gateway.step, Gateway.loadShutdown, hround]

theorem loadShutdown_one (hround : s.round = .checking) {heads : Nat} {rest : List Nat}
    (hheads : s.shutdown = heads :: rest) :
    s.step crc bincode noCursorCache (.loadShutdown 1) =
      { s with headFloor := max s.headFloor heads }.endRound crc bincode (.empty true) := by
  simp only [Gateway.step, Gateway.loadShutdown, hround, hheads, List.getElem?_cons_zero]

/-- **A round that sees the latest head** takes a command, or nothing is left. -/
theorem Alive.popped (noCursorCache : Bool) (h : Alive crc bincode c k loop₀ s)
    (hround : s.round = .calling) (hphase : s.loop.1 ≠ .stopped) :
    ∃ s', Gets crc bincode noCursorCache s s' ∧ SameClient s s' ∧ s'.round = .popping ∧
      s'.loop = s.loop ∧ s'.ring.consumer.phase = .idle ∧
      ((s.ring.popped.length < s.ring.pushed.length ∧
          s'.ring.popped.length = s.ring.popped.length + 1 ∧
          ∃ cmd, s'.ring.consumer.result = some (.ok cmd)) ∨
        (s.ring.popped.length = s.ring.pushed.length ∧ s'.ring.popped = s.ring.popped ∧
          s'.ring.consumer.result = some (.error .empty))) := by
  obtain ⟨hidle, -⟩ := h.inv.round.of_ne_popping (by simp [hround])
  obtain ⟨ring₁, hpop⟩ : ∃ ring₁, s.ring.pop noCursorCache = some ring₁ := by
    simp only [Ring.pop, hidle]
    split_ifs
    · exact ⟨_, rfl⟩
    · exact ⟨_, rfl⟩
  have hstep : s.step crc bincode noCursorCache .pop =
      some { s with ring := ring₁, round := .popping } := by
    simp only [Gateway.step, Gateway.pop, hround]
    cases hcase : s.loop.1 with
    | running => simp only [hpop, Option.map_some]
    | draining => simp only [hpop, Option.map_some]
    | stopped => exact absurd hcase hphase
  have hinv₁ := h.inv.ring.pop hpop
  obtain ⟨-, phase, hcase, heq⟩ := Ring.pop_cases hpop
  have hne : ring₁.consumer.phase ≠ .idle := by
    rw [heq]
    obtain rfl | ⟨rfl, -⟩ := hcase
    · nofun
    · nofun
  obtain ⟨events, ring₂, hends, hpopped⟩ := hinv₁.finish_pop noCursorCache h.pow hne
  have hsame : ring₁.producer = s.ring.producer ∧ ring₁.pushed = s.ring.pushed ∧
      ring₁.popped = s.ring.popped := by
    rw [heq]
    exact ⟨rfl, rfl, rfl⟩
  obtain ⟨hproducer, hpushed, hpopped₁⟩ := hsame
  rw [hpushed, hpopped₁] at hpopped
  have hgets : Gets crc bincode noCursorCache { s with ring := ring₁, round := .popping }
      { s with ring := ring₂, round := .popping } :=
    gets_ring hends.inside (hpushed ▸ h.floor) hends.run
  exact ⟨_, (Gets.single rfl hstep).trans hgets, ⟨rfl, rfl, rfl, hends.producer.trans hproducer,
    hends.pushed.trans hpushed⟩, rfl, rfl, hends.idle, hpopped⟩

theorem Alive.finish_checking (h : Alive crc bincode c k loop₀ s) (hround : s.round = .checking) :
    ∃ s', Gets crc bincode noCursorCache s s' ∧ SameClient s s' ∧ s'.round = .calling ∧
      s'.loop.1 = .running := by
  obtain ⟨s', hend, hsame, -, hcalling, hphase⟩ := h.checked hround false s.headFloor
  exact ⟨s', Gets.single rfl ((loadShutdown_zero hround).trans hend), hsame, hcalling, hphase⟩

theorem Alive.finish_popping (h : Alive crc bincode c k loop₀ s)
    (hsteady : MatchingLoop.Steady crc k loop₀.2) (hround : s.round = .popping)
    (hidle : s.ring.consumer.phase = .idle) :
    ∃ s', Gets crc bincode noCursorCache s s' ∧ SameClient s s' ∧ s'.round = .calling ∧
      (s.loop.1 = .running → s'.loop.1 = .running) := by
  have hat := h.inv.round
  rw [hround] at hat
  cases hat with
  | idle hne _ _ => exact absurd rfl hne
  | popping hphase _ _ => exact absurd hidle hphase
  | popped _ hresult _ =>
    obtain ⟨s', hs, hsame, -, hcalling, hphase⟩ := h.popReturns_ok hround hidle hresult
    exact ⟨s', Gets.single rfl hs, hsame, hcalling, fun hrunning => hphase.trans hrunning⟩
  | empty _ hresult _ =>
    cases hcase : s.loop.1 with
    | running =>
      have hs : s.step crc bincode noCursorCache (.popReturns .ok .ok) = _ :=
        popReturns_running hround hidle hresult hcase
      obtain ⟨s', hgets, hsame, hcalling, hphase⟩ := (h.step hsteady hs).finish_checking rfl
      have hsame₀ : SameClient s { s with round := .checking } := ⟨rfl, rfl, rfl, rfl, rfl⟩
      exact ⟨s', (Gets.single rfl hs).trans hgets, hsame₀.trans hsame, hcalling, fun _ => hphase⟩
    | draining =>
      obtain ⟨s', hs, hsame, hcalling, -⟩ := h.popReturns_draining hround hidle hresult hcase
      exact ⟨s', Gets.single rfl hs, hsame, hcalling, nofun⟩
    | stopped =>
      have := h.inv.stopped hcase
      rw [hround] at this
      cases this

/-- **The matching thread ends its round.** -/
theorem Alive.calling (h : Alive crc bincode c k loop₀ s)
    (hsteady : MatchingLoop.Steady crc k loop₀.2) :
    ∃ s', Gets crc bincode noCursorCache s s' ∧ SameClient s s' ∧ s'.round = .calling ∧
      (s.loop.1 = .running → s'.loop.1 = .running) := by
  cases hround : s.round with
  | calling => exact ⟨s, Relation.ReflTransGen.refl, .refl s, hround, id⟩
  | checking =>
    obtain ⟨s', hgets, hsame, hcalling, hphase⟩ := h.finish_checking hround
    exact ⟨s', hgets, hsame, hcalling, fun _ => hphase⟩
  | popping =>
    by_cases hidle : s.ring.consumer.phase = .idle
    · exact h.finish_popping hsteady hround hidle
    · obtain ⟨events, ring, hends, -⟩ := h.inv.ring.finish_pop noCursorCache h.pow hidle
      have hgets : Gets crc bincode noCursorCache s { s with ring } :=
        gets_ring hends.inside h.floor hends.run
      obtain ⟨s', hgets', hsame, hcalling, hphase⟩ :=
        (h.gets hsteady hgets).finish_popping hsteady hround hends.idle
      have hsame₀ : SameClient s { s with ring } := ⟨rfl, rfl, rfl, hends.producer, hends.pushed⟩
      exact ⟨s', hgets.trans hgets', hsame₀.trans hsame, hcalling, hphase⟩

/-- **The matching thread empties the ring.** -/
theorem Alive.drained (h : Alive crc bincode c k loop₀ s)
    (hsteady : MatchingLoop.Steady crc k loop₀.2) (hround : s.round = .calling)
    (hphase : s.loop.1 ≠ .stopped) :
    ∃ s', Gets crc bincode noCursorCache s s' ∧ SameClient s s' ∧ s'.round = .calling ∧
      s'.loop.1 = s.loop.1 ∧ s'.ring.popped.length = s'.ring.pushed.length := by
  induction hn : s.ring.pushed.length - s.ring.popped.length generalizing s with
  | zero =>
    have hle := h.inv.ring.fifo.length_le
    exact ⟨s, Relation.ReflTransGen.refl, .refl s, hround, rfl, by omega⟩
  | succ n ih =>
    obtain ⟨s₁, hgets₁, hsame₁, hround₁, hloop₁, hidle₁,
      ⟨hlt, hpopped₁, cmd, hresult₁⟩ | ⟨heq, -⟩⟩ := h.popped noCursorCache hround hphase
    · obtain ⟨s₂, hs₂, hsame₂, hring₂, hround₂, hphase₂⟩ :=
        (h.gets hsteady hgets₁).popReturns_ok hround₁ hidle₁ hresult₁
      have hgets₂ := hgets₁.trans (Gets.single rfl hs₂)
      rw [hloop₁] at hphase₂
      have hleft : s₂.ring.pushed.length - s₂.ring.popped.length = n := by
        rw [hring₂, hpopped₁, hsame₁.pushed]
        omega
      obtain ⟨s₃, hgets₃, hsame₃, hround₃, hphase₃, hdone⟩ :=
        ih (h.gets hsteady hgets₂) hround₂ (hphase₂ ▸ hphase) hleft
      exact ⟨s₃, hgets₂.trans hgets₃, (hsame₁.trans hsame₂).trans hsame₃, hround₃,
        hphase₃.trans hphase₂, hdone⟩
    · omega

/-! ## The client thread -/

theorem Alive.pushed (h : Alive crc bincode c k loop₀ s)
    {cmd : EngineCommand} (hclient : s.client = .pushing cmd)
    (hphase : s.ring.producer.phase ≠ .idle)
    (hempty : s.ring.popped.length = s.ring.pushed.length) :
    ∃ s', Gets crc bincode noCursorCache s s' ∧ s'.client = .reading ∧
      s'.received = s.received := by
  have hroom : s.ring.pushed.length < s.ring.popped.length + c.toNat := by
    obtain ⟨j, -, hj⟩ := h.pow
    have := Nat.two_pow_pos j
    omega
  obtain ⟨events, ring, hends, hresult⟩ := h.inv.ring.finish_push noCursorCache h.pow hphase hroom
  have hgets : Gets crc bincode noCursorCache s { s with ring } :=
    gets_ring (fun e he => (hends.inside e he).1) h.floor hends.run
  have hs : { s with ring }.step crc bincode noCursorCache .pushReturns =
      some { s with ring, client := .reading } := by
    simp only [Gateway.step, Gateway.pushReturns, hclient, hends.idle, hresult]
  exact ⟨_, hgets.trans (Gets.single rfl hs), rfl, rfl⟩

theorem Alive.retried (h : Alive crc bincode c k loop₀ s)
    (hsteady : MatchingLoop.Steady crc k loop₀.2) {cmd : EngineCommand}
    (hclient : s.client = .retrying cmd)
    (hempty : s.ring.popped.length = s.ring.pushed.length) :
    ∃ s', Gets crc bincode noCursorCache s s' ∧ s'.client = .reading ∧
      s'.received = s.received := by
  have hidle : s.ring.producer.phase = .idle := by
    have hat := h.inv.client
    rw [hclient] at hat
    cases hat with
    | idle hne _ _ => exact absurd rfl (hne cmd).1
    | retrying hphase _ => exact hphase
  obtain ⟨ring, hpush⟩ : ∃ ring, s.ring.push noCursorCache cmd = some ring := by
    simp only [Ring.push, hidle]
    split_ifs
    · exact ⟨_, rfl⟩
    · exact ⟨_, rfl⟩
  have hs : s.step crc bincode noCursorCache .push =
      some { s with ring, client := .pushing cmd } := by
    simp only [Gateway.step, Gateway.push, hclient, hpush, Option.map_some]
  have halive := h.step hsteady hs
  obtain ⟨-, phase, hphase, heq⟩ := Ring.push_cases hpush
  have hne : ring.producer.phase ≠ .idle := by
    rw [heq]
    obtain rfl | ⟨rfl, -⟩ := hphase
    · nofun
    · nofun
  have hempty' : ring.popped.length = ring.pushed.length := by
    rw [heq]
    exact hempty
  obtain ⟨s', hgets, hreading, hreceived⟩ := halive.pushed rfl hne hempty'
  exact ⟨s', (Gets.single rfl hs).trans hgets, hreading, hreceived⟩

/-- **The client thread hands over the command it has in hand**, once the matching thread has made
room. -/
theorem Alive.handedOver (h : Alive crc bincode c k loop₀ s)
    (hsteady : MatchingLoop.Steady crc k loop₀.2) {cmd : EngineCommand}
    (hclient : s.client = .retrying cmd ∨ s.client = .pushing cmd) :
    ∃ s', Gets crc bincode noCursorCache s s' ∧ s'.client = .reading ∧
      s'.received = s.received := by
  have hrunning : s.loop.1 = .running := by
    refine h.inv.running_of_shutdown (h.inv.shutdown_eq_nil ?_ ?_)
    · obtain hclient | hclient := hclient <;> simp [hclient]
    · obtain hclient | hclient := hclient <;> simp [hclient]
  obtain ⟨s₁, hgets₁, hsame₁, hround₁, hphase₁⟩ := h.calling hsteady
  obtain ⟨s₂, hgets₂, hsame₂, -, -, hempty⟩ := (h.gets hsteady hgets₁).drained hsteady hround₁
    (by simp [hphase₁ hrunning])
  have hgets : Gets crc bincode noCursorCache s s₂ := hgets₁.trans hgets₂
  have halive := h.gets hsteady hgets
  have hsame := hsame₁.trans hsame₂
  rw [← hsame.client] at hclient
  suffices hsuff : ∃ s', Gets crc bincode noCursorCache s₂ s' ∧ s'.client = .reading ∧
      s'.received = s₂.received by
    obtain ⟨s', hgets', hreading, hreceived⟩ := hsuff
    exact ⟨s', hgets.trans hgets', hreading, hreceived.trans hsame.received⟩
  obtain hclient | hclient := hclient
  · exact halive.retried hsteady hclient hempty
  · have hat := halive.inv.client
    rw [hclient] at hat
    cases hat with
    | idle hne _ _ => exact absurd rfl (hne cmd).2
    | pushing hphase _ =>
      refine halive.pushed hclient ?_ hempty
      intro hidle
      simp [hidle] at hphase
    | full hidle hresult _ =>
      have hs : s₂.step crc bincode noCursorCache .pushReturns =
          some { s₂ with client := .retrying cmd } := by
        simp only [Gateway.step, Gateway.pushReturns, hclient, hidle, hresult]
      obtain ⟨s', hgets', hreading, hreceived⟩ :=
        (halive.step hsteady hs).retried hsteady rfl hempty
      exact ⟨s', (Gets.single rfl hs).trans hgets', hreading, hreceived⟩
    | pushed hidle hresult _ =>
      have hs : s₂.step crc bincode noCursorCache .pushReturns =
          some { s₂ with client := .reading } := by
        simp only [Gateway.step, Gateway.pushReturns, hclient, hidle, hresult]
      exact ⟨_, Gets.single rfl hs, rfl, rfl⟩

theorem joined (hclient : s.client = .closing ∨ s.client = .returned) :
    ∃ s', Gets crc bincode noCursorCache s s' ∧ s'.client = .joining ∧
      s'.received = s.received := by
  have hreturned : ∀ {s : Gateway}, s.client = .returned →
      s.step crc bincode noCursorCache .storeShutdown = some { s with
        shutdown := s.shutdown ++ [s.ring.pushed.length]
        client := .joining } := by
    intro s hclient
    simp only [Gateway.step, storeShutdown, hclient]
  obtain hclient | hclient := hclient
  · have hs : s.step crc bincode noCursorCache .storeShutdown = some { s with
        shutdown := s.shutdown ++ [s.ring.pushed.length]
        client := .returned } := by
      simp only [Gateway.step, storeShutdown, hclient]
    exact ⟨_, (Gets.single rfl hs).trans (Gets.single rfl (hreturned rfl)), rfl, rfl⟩
  · exact ⟨_, Gets.single rfl (hreturned hclient), rfl, rfl⟩

/-! ## The end -/

theorem Alive.ended_draining (h : Alive crc bincode c k loop₀ s)
    (hsteady : MatchingLoop.Steady crc k loop₀.2) (hround : s.round = .calling)
    (hphase : s.loop.1 = .draining) :
    ∃ s', Gets crc bincode noCursorCache s s' ∧ SameClient s s' ∧ s'.loop.1 = .stopped := by
  obtain ⟨s₁, hgets₁, hsame₁, hround₁, hphase₁, hempty⟩ :=
    h.drained hsteady hround (by simp [hphase])
  rw [hphase] at hphase₁
  have h₁ := h.gets hsteady hgets₁
  obtain ⟨s₂, hgets₂, hsame₂, hround₂, hloop₂, hidle₂, ⟨hlt, -⟩ | ⟨-, -, hresult₂⟩⟩ :=
    h₁.popped noCursorCache hround₁ (by simp [hphase₁])
  · omega
  · obtain ⟨s₃, hs₃, hsame₃, -, hstopped⟩ := (h₁.gets hsteady hgets₂).popReturns_draining hround₂
      hidle₂ hresult₂ (by rw [hloop₂, hphase₁])
    exact ⟨s₃, (hgets₁.trans hgets₂).trans (Gets.single rfl hs₃),
      (hsame₁.trans hsame₂).trans hsame₃, hstopped⟩

/-- **The loop ends**, once the flag is set. -/
theorem Alive.ended (h : Alive crc bincode c k loop₀ s)
    (hsteady : MatchingLoop.Steady crc k loop₀.2) (hset : s.shutdown ≠ []) :
    ∃ s', Gets crc bincode noCursorCache s s' ∧ SameClient s s' ∧ s'.loop.1 = .stopped := by
  obtain ⟨s₁, hgets₁, hsame₁, hround₁, -⟩ := h.calling hsteady
  have h₁ := h.gets hsteady hgets₁
  suffices hsuff : ∃ s', Gets crc bincode noCursorCache s₁ s' ∧ SameClient s₁ s' ∧
      s'.loop.1 = .stopped by
    obtain ⟨s', hgets', hsame', hstopped⟩ := hsuff
    exact ⟨s', hgets₁.trans hgets', hsame₁.trans hsame', hstopped⟩
  cases hphase : s₁.loop.1 with
  | stopped => exact ⟨s₁, Relation.ReflTransGen.refl, .refl s₁, hphase⟩
  | draining => exact h₁.ended_draining hsteady hround₁ hphase
  | running =>
    -- the loop finds the ring empty, sees the flag and goes on to its inner loop
    obtain ⟨s₂, hgets₂, hsame₂, hround₂, hphase₂, hempty⟩ :=
      h₁.drained hsteady hround₁ (by simp [hphase])
    rw [hphase] at hphase₂
    have h₂ := h₁.gets hsteady hgets₂
    obtain ⟨s₃, hgets₃, hsame₃, hround₃, hloop₃, hidle₃, ⟨hlt, -⟩ | ⟨-, -, hresult₃⟩⟩ :=
      h₂.popped noCursorCache hround₂ (by simp [hphase₂])
    · omega
    have hphase₃ : s₃.loop.1 = .running := by rw [hloop₃, hphase₂]
    have h₃ := h₂.gets hsteady hgets₃
    have hs₄ : s₃.step crc bincode noCursorCache (.popReturns .ok .ok) = _ :=
      popReturns_running hround₃ hidle₃ hresult₃ hphase₃
    have hsame₄ : SameClient s₃ { s₃ with round := .checking } := ⟨rfl, rfl, rfl, rfl, rfl⟩
    have h₄ := h₃.step hsteady hs₄
    have hsame := ((hsame₁.trans hsame₂).trans hsame₃).trans hsame₄
    rw [← hsame.shutdown] at hset
    obtain ⟨heads, rest, hheads⟩ := List.exists_cons_of_ne_nil hset
    obtain ⟨s₅, hend, hsame₅, -, hround₅, hphase₅⟩ := h₄.checked rfl true _
    have hs₅ : { s₃ with round := .checking }.step crc bincode noCursorCache (.loadShutdown 1) =
        some s₅ := (loadShutdown_one rfl hheads).trans hend
    obtain ⟨s', hgets', hsame', hstopped⟩ :=
      (h₄.step hsteady hs₅).ended_draining hsteady hround₅ hphase₅
    have hgets : Gets crc bincode noCursorCache s₁ s₅ :=
      ((hgets₂.trans hgets₃).trans (Gets.single rfl hs₄)).trans (Gets.single rfl hs₅)
    exact ⟨s', hgets.trans hgets',
      (((hsame₂.trans hsame₃).trans hsame₄).trans hsame₅).trans hsame', hstopped⟩

theorem alive_start {ring : Ring EngineCommand} (hmade : ringBuffer EngineCommand c = some ring)
    (hphase : loop₀.1 = .running) (hsteady : MatchingLoop.Steady crc k loop₀.2) :
    Alive crc bincode c k loop₀ (start ring loop₀) :=
  ⟨.start hmade hphase, (Ring.inv_ringBuffer hmade).1, hsteady, Nat.zero_le _, nofun⟩

end Gateway

end Ferrox
