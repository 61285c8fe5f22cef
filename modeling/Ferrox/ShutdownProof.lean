import Ferrox.GatewayProof
import Ferrox.RingFifo
import Ferrox.Shutdown

/-!
# No command is lost at shutdown

The matching thread looks at the flag only after it found the ring empty, and a load of the head may
be old: the ring may have been filled since. What counts is the second time it finds the ring empty,
in the inner loop. By then it has read `true`, no push follows a store of `true`, and the head it
loads is the last one. So when the loop ends, the commands it processed are the ones that were
pushed, and these are all the commands that were received (`drained_of_reachable`).
-/

namespace Ferrox

open Bytes Circular

/-! ## The ring, seen from one end -/

namespace Ring

variable {T : Type} {noCursorCache : Bool} {c : UInt64} {s s' : Ring T} {event : RingEvent T}

theorem ringBuffer_idle (h : ringBuffer T c = some s) : s.producer.phase = .idle ∧
    s.consumer.phase = .idle ∧ s.pushed = [] ∧ s.popped = [] := by
  unfold ringBuffer at h
  split at h
  · split at h
    · obtain rfl := Option.some.inj h
      exact ⟨rfl, rfl, rfl, rfl⟩
    · cases h
  · cases h

theorem consumer_eq_of_step (hevent : event.byProducer)
    (hs : s.step noCursorCache event = some s') :
    s'.consumer = s.consumer ∧ s'.popped = s.popped := by
  cases event with
  | push value =>
    obtain ⟨-, phase, -, rfl⟩ := push_cases hs
    exact ⟨rfl, rfl⟩
  | loadTail i =>
    obtain ⟨value, tail, -, -, -, ⟨-, rfl⟩ | ⟨-, rfl⟩⟩ := loadTail_cases hs
    · exact ⟨rfl, rfl⟩
    · exact ⟨rfl, rfl⟩
  | writeSlot =>
    obtain ⟨value, -, rfl⟩ := writeSlot_cases hs
    exact ⟨rfl, rfl⟩
  | storeHead =>
    obtain ⟨value, -, rfl⟩ := storeHead_cases hs
    exact ⟨rfl, rfl⟩
  | _ => cases hevent

theorem pushed_eq_of_step (hevent : ¬ event.byProducer)
    (hs : s.step noCursorCache event = some s') : s'.pushed = s.pushed := by
  cases event with
  | pop =>
    obtain ⟨-, phase, -, rfl⟩ := pop_cases hs
    rfl
  | loadHead i =>
    obtain ⟨head, -, -, -, ⟨-, rfl⟩ | ⟨-, rfl⟩⟩ := loadHead_cases hs
    · rfl
    · rfl
  | readSlot =>
    obtain ⟨slot, value, slot', -, -, -, rfl⟩ := readSlot_cases hs
    rfl
  | storeTail =>
    obtain ⟨value, -, rfl⟩ := storeTail_cases hs
    rfl
  | _ => exact absurd trivial hevent

/-- **An empty ring, seen with the last head**, is one from which everything was popped. -/
theorem Inv.length_popped_of_empty (h : Inv c s) {i : Nat} (hs : s.loadHead i = some s')
    (hlast : s.pushed.length ≤ i) (hempty : s'.consumer.result = some (.error .empty))
    (hresult : s.consumer.result ≠ some (.error .empty)) :
    s'.popped.length = s'.pushed.length := by
  obtain ⟨head, -, -, hload, ⟨heq, rfl⟩ | ⟨-, rfl⟩⟩ := loadHead_cases hs
  · rw [AtomicUsize.load, h.head] at hload
    obtain ⟨hi, rfl⟩ := getElem?_cursors hload
    obtain rfl : i = s.pushed.length := by omega
    have hle := h.fifo.length_le
    have hbound := h.outstanding_le
    rw [h.consumerTail, ofNat_eq_iff hle (Inv.lt_word (c := c) (by omega))] at heq
    exact heq
  · exact absurd hempty hresult

end Ring

/-! ## The rounds of the loop -/

namespace MatchingLoop

variable {crc : List UInt8 → UInt32} {bincode : Bincode}

theorem phase_of_step {s s' : Phase × MatchingLoop} {event : Event}
    (h : step crc bincode s event = some s') :
    (∃ cmd, event.command? = some cmd ∧ s.1 ≠ .stopped ∧ s'.1 = s.1) ∨
      ∃ shutdown, event = .empty shutdown ∧
        (s.1 = .running ∧ s'.1 = (if shutdown then .draining else .running) ∨
          s.1 = .draining ∧ s'.1 = .stopped) := by
  obtain ⟨phase, m⟩ := s
  cases event with
  | empty shutdown =>
    right
    refine ⟨shutdown, rfl, ?_⟩
    cases phase with
    | running =>
      obtain rfl := Option.some.inj h
      exact Or.inl ⟨rfl, rfl⟩
    | draining =>
      obtain rfl := Option.some.inj h
      exact Or.inr ⟨rfl, rfl⟩
    | stopped => cases h
  | command cmd grow save =>
    left
    refine ⟨cmd, rfl, ?_⟩
    cases phase with
    | running =>
      obtain ⟨m', -, rfl⟩ := Option.map_eq_some_iff.1 h
      exact ⟨nofun, rfl⟩
    | draining =>
      obtain ⟨m', -, rfl⟩ := Option.map_eq_some_iff.1 h
      exact ⟨nofun, rfl⟩
    | stopped => cases h

theorem phase_of_start {io : RecoverIo} {dataDir : Option DataDir} {arenaCapacity : UInt32}
    {snapshotInterval : UInt64} {s : Phase × MatchingLoop}
    (h : start crc bincode io dataDir arenaCapacity snapshotInterval = some s) :
    s.1 = .running := by
  unfold start at h
  split at h
  · obtain rfl := Option.some.inj h
    rfl
  · split at h
    · cases h
    · obtain rfl := Option.some.inj h
      rfl
    · obtain rfl := Option.some.inj h
      rfl

theorem run_snoc {s s' s'' : Phase × MatchingLoop} {events : List Event} {event : Event}
    (hrun : run crc bincode s events = some s') (hs : step crc bincode s' event = some s'') :
    run crc bincode s (events ++ [event]) = some s'' := by
  induction events generalizing s with
  | nil =>
    obtain rfl := Option.some.inj hrun
    rw [List.nil_append, run, hs]
    rfl
  | cons event' events ih =>
    obtain ⟨s₁, hs₁, hrun⟩ := run_cons hrun
    rw [List.cons_append, run, hs₁]
    exact ih hrun

end MatchingLoop

namespace Gateway

variable {crc : List UInt8 → UInt32} {bincode : Bincode} {noCursorCache : Bool} {c : UInt64}
  {loop₀ : Phase × MatchingLoop} {s s' : Gateway}

/-! ## The threads at each of their points -/

/-- **The client thread**: what it received is what it pushed, except for the command it has in
hand. -/
inductive ClientAt (producer : Producer EngineCommand) (pushed received : List EngineCommand) :
    ClientPhase → Prop
  | idle {client : ClientPhase} (hclient : ∀ cmd, client ≠ .retrying cmd ∧ client ≠ .pushing cmd)
      (hphase : producer.phase = .idle) (h : received = pushed) :
      ClientAt producer pushed received client
  | retrying {cmd : EngineCommand} (hphase : producer.phase = .idle)
      (h : received = pushed ++ [cmd]) : ClientAt producer pushed received (.retrying cmd)
  | pushing {cmd : EngineCommand} (hphase : producer.phase = .loadTail cmd ∨
      producer.phase = .writeSlot cmd ∨ producer.phase = .storeHead cmd)
      (h : received = pushed ++ [cmd]) : ClientAt producer pushed received (.pushing cmd)
  | full {cmd : EngineCommand} (hphase : producer.phase = .idle)
      (hresult : producer.result = some (.error ⟨cmd⟩)) (h : received = pushed ++ [cmd]) :
      ClientAt producer pushed received (.pushing cmd)
  | pushed {cmd : EngineCommand} (hphase : producer.phase = .idle)
      (hresult : producer.result = some (.ok ())) (h : received = pushed) :
      ClientAt producer pushed received (.pushing cmd)

/-- **The matching thread**: what it popped is what it processed, except for the command it has in
hand. -/
inductive RoundAt (consumer : Consumer EngineCommand) (popped processed : List EngineCommand) :
    RoundPhase → Prop
  | idle {round : RoundPhase} (hround : round ≠ .popping) (hphase : consumer.phase = .idle)
      (h : popped = processed) : RoundAt consumer popped processed round
  | popping (hphase : consumer.phase ≠ .idle) (hresult : consumer.result = none)
      (h : popped = processed) : RoundAt consumer popped processed .popping
  | popped {cmd : EngineCommand} (hphase : consumer.phase = .idle)
      (hresult : consumer.result = some (.ok cmd)) (h : popped = processed ++ [cmd]) :
      RoundAt consumer popped processed .popping
  | empty (hphase : consumer.phase = .idle) (hresult : consumer.result = some (.error .empty))
      (h : popped = processed) : RoundAt consumer popped processed .popping

theorem ClientAt.of_not_idle {producer : Producer EngineCommand}
    {pushed received : List EngineCommand} {client : ClientPhase}
    (h : ClientAt producer pushed received client) (hphase : producer.phase ≠ .idle) :
    ∃ cmd, client = .pushing cmd ∧ (producer.phase = .loadTail cmd ∨
      producer.phase = .writeSlot cmd ∨ producer.phase = .storeHead cmd) ∧
      received = pushed ++ [cmd] := by
  cases h with
  | pushing hphase h => exact ⟨_, rfl, hphase, h⟩
  | idle _ hidle _ => exact absurd hidle hphase
  | retrying hidle _ => exact absurd hidle hphase
  | full hidle _ _ => exact absurd hidle hphase
  | pushed hidle _ _ => exact absurd hidle hphase

theorem RoundAt.of_not_idle {consumer : Consumer EngineCommand}
    {popped processed : List EngineCommand} {round : RoundPhase}
    (h : RoundAt consumer popped processed round) (hphase : consumer.phase ≠ .idle) :
    round = .popping ∧ consumer.result = none ∧ popped = processed := by
  cases h with
  | popping _ hresult h => exact ⟨rfl, hresult, h⟩
  | idle _ hidle _ => exact absurd hidle hphase
  | popped hidle _ _ => exact absurd hidle hphase
  | empty hidle _ _ => exact absurd hidle hphase

theorem ClientAt.of_idle {producer : Producer EngineCommand}
    {pushed received : List EngineCommand} {client : ClientPhase}
    (h : ClientAt producer pushed received client)
    (hclient : ∀ cmd, client ≠ .retrying cmd ∧ client ≠ .pushing cmd) :
    producer.phase = .idle ∧ received = pushed := by
  cases h with
  | idle _ hphase h => exact ⟨hphase, h⟩
  | retrying _ _ => exact absurd rfl (hclient _).1
  | pushing _ _ => exact absurd rfl (hclient _).2
  | full _ _ _ => exact absurd rfl (hclient _).2
  | pushed _ _ _ => exact absurd rfl (hclient _).2

theorem ClientAt.step {ring ring' : Ring EngineCommand} {received : List EngineCommand}
    {client : ClientPhase}
    (h : ClientAt ring.producer (ring.pushed.map (·.2)) received client)
    {event : RingEvent EngineCommand} (hevent : event.byProducer)
    (hpush : ∀ value, event ≠ .push value) (hs : ring.step noCursorCache event = some ring') :
    (∃ cmd, client = .pushing cmd) ∧
      ClientAt ring'.producer (ring'.pushed.map (·.2)) received client := by
  cases event with
  | push value => exact absurd rfl (hpush value)
  | loadTail i =>
    obtain ⟨value, tail, hphase, -, -, hcases⟩ := Ring.loadTail_cases hs
    obtain ⟨cmd, rfl, hcmd, hreceived⟩ := h.of_not_idle (by rw [hphase]; nofun)
    obtain rfl : value = cmd := by simpa [hphase] using hcmd
    refine ⟨⟨_, rfl⟩, ?_⟩
    obtain ⟨-, rfl⟩ | ⟨-, rfl⟩ := hcases
    · exact .full rfl rfl hreceived
    · exact .pushing (Or.inr (Or.inl rfl)) hreceived
  | writeSlot =>
    obtain ⟨value, hphase, rfl⟩ := Ring.writeSlot_cases hs
    obtain ⟨cmd, rfl, hcmd, hreceived⟩ := h.of_not_idle (by rw [hphase]; nofun)
    obtain rfl : value = cmd := by simpa [hphase] using hcmd
    exact ⟨⟨_, rfl⟩, .pushing (Or.inr (Or.inr rfl)) hreceived⟩
  | storeHead =>
    obtain ⟨value, hphase, rfl⟩ := Ring.storeHead_cases hs
    obtain ⟨cmd, rfl, hcmd, hreceived⟩ := h.of_not_idle (by rw [hphase]; nofun)
    obtain rfl : value = cmd := by simpa [hphase] using hcmd
    refine ⟨⟨_, rfl⟩, .pushed rfl rfl ?_⟩
    rw [hreceived, List.map_append]
    rfl
  | _ => cases hevent

theorem RoundAt.of_ne_popping {consumer : Consumer EngineCommand}
    {popped processed : List EngineCommand} {round : RoundPhase}
    (h : RoundAt consumer popped processed round) (hround : round ≠ .popping) :
    consumer.phase = .idle ∧ popped = processed := by
  cases h with
  | idle _ hphase h => exact ⟨hphase, h⟩
  | popping _ _ _ => exact absurd rfl hround
  | popped _ _ _ => exact absurd rfl hround
  | empty _ _ _ => exact absurd rfl hround

theorem RoundAt.step {ring ring' : Ring EngineCommand} {processed : List EngineCommand}
    {round : RoundPhase}
    (h : RoundAt ring.consumer (ring.popped.map (·.2)) processed round)
    {event : RingEvent EngineCommand} (hevent : ¬ event.byProducer) (hpop : event ≠ .pop)
    (hs : ring.step noCursorCache event = some ring') :
    round = .popping ∧ ring.consumer.result = none ∧
      RoundAt ring'.consumer (ring'.popped.map (·.2)) processed round := by
  cases event with
  | pop => exact absurd rfl hpop
  | loadHead i =>
    obtain ⟨head, hphase, -, -, hcases⟩ := Ring.loadHead_cases hs
    obtain ⟨rfl, hresult, hpopped⟩ := h.of_not_idle (by rw [hphase]; nofun)
    refine ⟨rfl, hresult, ?_⟩
    obtain ⟨-, rfl⟩ | ⟨-, rfl⟩ := hcases
    · exact .empty rfl rfl hpopped
    · exact .popping nofun hresult hpopped
  | readSlot =>
    obtain ⟨slot, value, slot', hphase, -, -, rfl⟩ := Ring.readSlot_cases hs
    obtain ⟨rfl, hresult, hpopped⟩ := h.of_not_idle (by rw [hphase]; nofun)
    exact ⟨rfl, hresult, .popping nofun hresult hpopped⟩
  | storeTail =>
    obtain ⟨value, hphase, rfl⟩ := Ring.storeTail_cases hs
    obtain ⟨rfl, hresult, hpopped⟩ := h.of_not_idle (by rw [hphase]; nofun)
    refine ⟨rfl, hresult, .popped rfl rfl ?_⟩
    rw [List.map_append, hpopped]
    rfl
  | _ => exact absurd trivial hevent

/-! ## The invariant -/

/-- The commands the loop processed. -/
def processed (s : Gateway) : List EngineCommand := s.events.filterMap Event.command?

/-- The inner loop found the ring empty. -/
def Exhausted (s : Gateway) : Prop :=
  s.loop.1 = .stopped ∨ s.loop.1 = .draining ∧ s.round = .popping ∧
    s.ring.consumer.result = some (.error .empty)

/-- **The invariant** of the two threads. -/
structure Inv (crc : List UInt8 → UInt32) (bincode : Bincode) (c : UInt64)
    (loop₀ : Phase × MatchingLoop) (s : Gateway) : Prop where
  ring : Ring.Inv c s.ring
  client : ClientAt s.ring.producer (s.ring.pushed.map (·.2)) s.received s.client
  round : RoundAt s.ring.consumer (s.ring.popped.map (·.2)) s.processed s.round
  rounds : MatchingLoop.run crc bincode loop₀ s.events = some s.loop
  -- nothing is pushed after a store of the flag
  shutdown : ∀ heads ∈ s.shutdown, heads = s.ring.pushed.length ∧
    (s.client = .returned ∨ s.client = .joining)
  -- the inner loop sees the last head
  draining : s.loop.1 ≠ .running → s.shutdown ≠ [] ∧ s.ring.pushed.length ≤ s.headFloor
  -- where a round is in which loop
  checking : s.round = .checking → s.loop.1 = .running
  stopped : s.loop.1 = .stopped → s.round = .calling
  exhausted : s.Exhausted → s.ring.popped.length = s.ring.pushed.length

theorem pop_cases (hs : s.pop noCursorCache = some s') : s.round = .calling ∧
    s.loop.1 ≠ .stopped ∧ ∃ ring, s.ring.pop noCursorCache = some ring ∧
      s' = { s with ring, round := .popping } := by
  unfold Gateway.pop at hs
  split at hs
  · next hcalling hrunning =>
    obtain ⟨ring, hpop, rfl⟩ := Option.map_eq_some_iff.1 hs
    exact ⟨hcalling, by simp [hrunning], ring, hpop, rfl⟩
  · next hcalling hdraining =>
    obtain ⟨ring, hpop, rfl⟩ := Option.map_eq_some_iff.1 hs
    exact ⟨hcalling, by simp [hdraining], ring, hpop, rfl⟩
  · cases hs

theorem ringStep_cases {event : RingEvent EngineCommand}
    (hs : s.ringStep noCursorCache event = some s') :
    (∀ value, event ≠ .push value) ∧ event ≠ .pop ∧
      (∀ i, event = .loadHead i → s.headFloor ≤ i) ∧
      ∃ ring, s.ring.step noCursorCache event = some ring ∧ s' = { s with ring } := by
  cases event with
  | push value => cases hs
  | pop => cases hs
  | loadHead i =>
    simp only [Gateway.ringStep] at hs
    split at hs
    · next hfloor =>
      obtain ⟨ring, hstep, rfl⟩ := Option.map_eq_some_iff.1 hs
      refine ⟨nofun, nofun, ?_, ring, hstep, rfl⟩
      intro j hj
      cases hj
      exact hfloor
    · cases hs
  | _ =>
    obtain ⟨ring, hstep, rfl⟩ := Option.map_eq_some_iff.1 hs
    exact ⟨nofun, nofun, nofun, ring, hstep, rfl⟩

theorem run_cons {event : GatewayEvent} {events : List GatewayEvent}
    (h : s.run crc bincode noCursorCache (event :: events) = some s') :
    ∃ s₁, s.step crc bincode noCursorCache event = some s₁ ∧
      s₁.run crc bincode noCursorCache events = some s' := by
  rw [run] at h
  cases hs : s.step crc bincode noCursorCache event with
  | none => simp [hs] at h
  | some s₁ =>
    simp only [hs] at h
    exact ⟨s₁, rfl, h⟩

namespace Inv

variable {ring : Ring EngineCommand}

theorem start (hmade : ringBuffer EngineCommand c = some ring) (hphase : loop₀.1 = .running) :
    Inv crc bincode c loop₀ (start ring loop₀) where
  ring := (Ring.inv_ringBuffer hmade).2
  client := by
    obtain ⟨hproducer, -, hpushed, -⟩ := Ring.ringBuffer_idle hmade
    refine .idle (by simp [Gateway.start]) hproducer ?_
    simp [Gateway.start, hpushed]
  round := by
    obtain ⟨-, hconsumer, -, hpopped⟩ := Ring.ringBuffer_idle hmade
    refine .idle nofun hconsumer ?_
    simp [Gateway.start, processed, hpopped]
  rounds := rfl
  shutdown := nofun
  draining := fun hne => absurd hphase hne
  checking := nofun
  stopped := fun _ => rfl
  exhausted := by
    obtain ⟨-, -, hpushed, hpopped⟩ := Ring.ringBuffer_idle hmade
    intro _
    simp [Gateway.start, hpushed, hpopped]

/-! ## Steps of the client thread -/

/-- As long as `handle_client` runs, the flag is not set. -/
theorem shutdown_eq_nil (h : Inv crc bincode c loop₀ s) (hreturned : s.client ≠ .returned)
    (hjoining : s.client ≠ .joining) : s.shutdown = [] := by
  refine List.eq_nil_iff_forall_not_mem.2 fun heads hheads => ?_
  obtain ⟨-, hclient | hclient⟩ := h.shutdown heads hheads
  · exact hreturned hclient
  · exact hjoining hclient

theorem running_of_shutdown (h : Inv crc bincode c loop₀ s) (hnil : s.shutdown = []) :
    s.loop.1 = .running := by
  by_contra hne
  exact (h.draining hne).1 hnil

theorem setClient (h : Inv crc bincode c loop₀ s) (hnil : s.shutdown = [])
    (hring : Ring.Inv c ring)
    (hframe : ring.consumer = s.ring.consumer ∧ ring.popped = s.ring.popped)
    {client : ClientPhase} {received : List EngineCommand}
    (hclient : ClientAt ring.producer (ring.pushed.map (·.2)) received client) :
    Inv crc bincode c loop₀ { s with ring, client, received } where
  ring := hring
  client := hclient
  round := by
    rw [hframe.1, hframe.2]
    exact h.round
  rounds := h.rounds
  shutdown := by
    rw [hnil]
    nofun
  draining := fun hne => absurd (h.running_of_shutdown hnil) hne
  checking := h.checking
  stopped := h.stopped
  exhausted := by
    intro hexhausted
    have hrunning : s.loop.1 = .running := h.running_of_shutdown hnil
    obtain hstopped | ⟨hdraining, -⟩ := hexhausted
    · exact nomatch hrunning.symm.trans hstopped
    · exact nomatch hrunning.symm.trans hdraining

theorem setIdle (h : Inv crc bincode c loop₀ s) (hreading : s.client = .reading)
    {client : ClientPhase} (hidle : ∀ cmd, client ≠ .retrying cmd ∧ client ≠ .pushing cmd) :
    Inv crc bincode c loop₀ { s with client } := by
  have hnil : s.shutdown = [] := h.shutdown_eq_nil (by simp [hreading]) (by simp [hreading])
  obtain ⟨hphase, hreceived⟩ := h.client.of_idle (by simp [hreading])
  exact h.setClient hnil h.ring ⟨rfl, rfl⟩ (.idle hidle hphase hreceived)

theorem receive (h : Inv crc bincode c loop₀ s) {msg : List UInt8} {now : UInt64}
    (hs : s.receive msg now = some s') : Inv crc bincode c loop₀ s' := by
  unfold Gateway.receive at hs
  split at hs
  · next msgType rest hreading =>
    split at hs
    · obtain rfl := Option.some.inj hs
      exact h.setIdle hreading (by simp)
    · split at hs
      · split at hs
        · obtain rfl := Option.some.inj hs
          exact h.setIdle hreading (by simp)
        · next cmd _ =>
          obtain rfl := Option.some.inj hs
          have hnil : s.shutdown = [] :=
            h.shutdown_eq_nil (by simp [hreading]) (by simp [hreading])
          obtain ⟨hphase, hreceived⟩ := h.client.of_idle (by simp [hreading])
          refine h.setClient hnil h.ring ⟨rfl, rfl⟩ (.retrying hphase ?_)
          rw [hreceived]
      · cases hs
  · cases hs

theorem closed (h : Inv crc bincode c loop₀ s) (hs : s.closed = some s') :
    Inv crc bincode c loop₀ s' := by
  unfold Gateway.closed at hs
  split at hs
  · next hreading =>
    obtain rfl := Option.some.inj hs
    exact h.setIdle hreading (by simp)
  · cases hs

theorem failed (h : Inv crc bincode c loop₀ s) (hs : s.failed = some s') :
    Inv crc bincode c loop₀ s' := by
  unfold Gateway.failed at hs
  split at hs
  · next hreading =>
    obtain rfl := Option.some.inj hs
    exact h.setIdle hreading (by simp)
  · cases hs

theorem push (h : Inv crc bincode c loop₀ s) (hs : s.push noCursorCache = some s') :
    Inv crc bincode c loop₀ s' := by
  unfold Gateway.push at hs
  split at hs
  · next cmd hretrying =>
    obtain ⟨ring, hpush, rfl⟩ := Option.map_eq_some_iff.1 hs
    have hnil : s.shutdown = [] :=
      h.shutdown_eq_nil (by simp [hretrying]) (by simp [hretrying])
    have hclient := h.client
    rw [hretrying] at hclient
    have hreceived : s.received = s.ring.pushed.map (·.2) ++ [cmd] := by
      cases hclient with
      | retrying _ hreceived => exact hreceived
      | idle hidle _ _ => exact absurd rfl (hidle cmd).1
    have hstep : s.ring.step noCursorCache (.push cmd) = some ring := hpush
    refine h.setClient hnil (h.ring.push hpush) (Ring.consumer_eq_of_step (by trivial) hstep) ?_
    obtain ⟨-, phase, hphase, rfl⟩ := Ring.push_cases hpush
    refine .pushing ?_ hreceived
    obtain rfl | ⟨rfl, -⟩ := hphase
    · exact Or.inl rfl
    · exact Or.inr (Or.inl rfl)
  · cases hs

theorem pushReturns (h : Inv crc bincode c loop₀ s) (hs : s.pushReturns = some s') :
    Inv crc bincode c loop₀ s' := by
  unfold Gateway.pushReturns at hs
  split at hs
  · next cmd hpushing hidle hok =>
    obtain rfl := Option.some.inj hs
    have hnil : s.shutdown = [] :=
      h.shutdown_eq_nil (by simp [hpushing]) (by simp [hpushing])
    have hclient := h.client
    rw [hpushing] at hclient
    refine h.setClient hnil h.ring ⟨rfl, rfl⟩ (.idle (by simp) hidle ?_)
    cases hclient with
    | pushed _ _ hreceived => exact hreceived
    | idle hidle _ _ => exact absurd rfl (hidle cmd).2
    | pushing hphase _ => simp [hidle] at hphase
    | full _ hresult _ => simp [hok] at hresult
  · next cmd full hpushing hidle herror =>
    obtain rfl := Option.some.inj hs
    have hnil : s.shutdown = [] :=
      h.shutdown_eq_nil (by simp [hpushing]) (by simp [hpushing])
    have hclient := h.client
    rw [hpushing] at hclient
    refine h.setClient hnil h.ring ⟨rfl, rfl⟩ (.retrying hidle ?_)
    cases hclient with
    | full _ hresult hreceived =>
      obtain rfl : full = ⟨cmd⟩ := by simpa [herror] using hresult
      exact hreceived
    | idle hidle _ _ => exact absurd rfl (hidle cmd).2
    | pushing hphase _ => simp [hidle] at hphase
    | pushed _ hresult _ => simp [herror] at hresult
  · cases hs

theorem setShutdown (h : Inv crc bincode c loop₀ s)
    (hidle : ∀ cmd, s.client ≠ .retrying cmd ∧ s.client ≠ .pushing cmd) {client : ClientPhase}
    (hclient : client = .returned ∨ client = .joining) :
    Inv crc bincode c loop₀ { s with
      shutdown := s.shutdown ++ [s.ring.pushed.length], client } where
  ring := h.ring
  client := by
    obtain ⟨hphase, hreceived⟩ := h.client.of_idle hidle
    refine .idle (fun cmd => ?_) hphase hreceived
    obtain rfl | rfl := hclient
    · exact ⟨nofun, nofun⟩
    · exact ⟨nofun, nofun⟩
  round := h.round
  rounds := h.rounds
  shutdown := by
    intro heads hheads
    refine ⟨?_, hclient⟩
    obtain hold | hnew := List.mem_append.1 hheads
    · exact (h.shutdown heads hold).1
    · exact List.mem_singleton.1 hnew
  draining := fun hne => ⟨by simp, (h.draining hne).2⟩
  checking := h.checking
  stopped := h.stopped
  exhausted := h.exhausted

theorem storeShutdown (h : Inv crc bincode c loop₀ s) (hs : s.storeShutdown = some s') :
    Inv crc bincode c loop₀ s' := by
  unfold Gateway.storeShutdown at hs
  split at hs
  · next hclosing =>
    obtain rfl := Option.some.inj hs
    exact h.setShutdown (by simp [hclosing]) (Or.inl rfl)
  · next hreturned =>
    obtain rfl := Option.some.inj hs
    exact h.setShutdown (by simp [hreturned]) (Or.inr rfl)
  · cases hs

/-! ## Steps of the matching thread -/

theorem setRound (h : Inv crc bincode c loop₀ s) (hring : Ring.Inv c ring)
    (hframe : ring.producer = s.ring.producer ∧ ring.pushed = s.ring.pushed)
    {round : RoundPhase}
    (hround : RoundAt ring.consumer (ring.popped.map (·.2)) s.processed round)
    (hstopped : s.loop.1 ≠ .stopped) (hchecking : round = .checking → s.loop.1 = .running)
    (hexhausted : s.loop.1 = .draining → round = .popping →
      ring.consumer.result = some (.error .empty) → ring.popped.length = ring.pushed.length) :
    Inv crc bincode c loop₀ { s with ring, round } where
  ring := hring
  client := by
    rw [hframe.1, hframe.2]
    exact h.client
  round := hround
  rounds := h.rounds
  shutdown := by
    rw [hframe.2]
    exact h.shutdown
  draining := by
    rw [hframe.2]
    exact h.draining
  checking := hchecking
  stopped := fun heq => absurd heq hstopped
  exhausted := by
    intro hs
    obtain heq | ⟨hdraining, hpopping, hempty⟩ := hs
    · exact absurd heq hstopped
    · exact hexhausted hdraining hpopping hempty

theorem pop (h : Inv crc bincode c loop₀ s) (hs : s.pop noCursorCache = some s') :
    Inv crc bincode c loop₀ s' := by
  obtain ⟨hcalling, hstopped, ring, hpop, rfl⟩ := pop_cases hs
  have hstep : s.ring.step noCursorCache .pop = some ring := hpop
  have hround := h.round
  rw [hcalling] at hround
  refine h.setRound (h.ring.pop hpop) ⟨Ring.producer_eq_of_step (by exact id) hstep,
    Ring.pushed_eq_of_step (by exact id) hstep⟩ ?_ hstopped nofun ?_
  all_goals obtain ⟨-, phase, hphase, rfl⟩ := Ring.pop_cases hpop
  · cases hround with
    | idle _ _ hpopped =>
      refine .popping ?_ rfl hpopped
      obtain rfl | ⟨rfl, -⟩ := hphase
      · nofun
      · nofun
  · exact fun _ _ hempty => nomatch hempty

/-- The end of a round. Only an empty queue makes the loop go on to its inner loop, and only there
an empty queue ends it. -/
theorem setLoop (h : Inv crc bincode c loop₀ s) {event : Event} {loop : Phase × MatchingLoop}
    (hstep : MatchingLoop.step crc bincode s.loop event = some loop)
    (hphase : s.ring.consumer.phase = .idle)
    (hpopped : s.ring.popped.map (·.2) = s.processed ++ event.command?.toList)
    {floor : Nat} (hfloor : s.headFloor ≤ floor)
    (htrue : event = .empty true → s.loop.1 = .running →
      s.shutdown ≠ [] ∧ s.ring.pushed.length ≤ floor)
    (hempty : event.command? = none → s.loop.1 = .draining →
      s.ring.popped.length = s.ring.pushed.length) :
    Inv crc bincode c loop₀ { s with
      headFloor := floor, loop, round := .calling, events := s.events ++ [event] } := by
  have hdraining : s.loop.1 ≠ .running → s.shutdown ≠ [] ∧
      s.ring.pushed.length ≤ floor := fun hne =>
    ⟨(h.draining hne).1, (h.draining hne).2.trans hfloor⟩
  refine ⟨h.ring, h.client, .idle nofun hphase ?_, MatchingLoop.run_snoc h.rounds hstep, h.shutdown,
    ?_, nofun, fun _ => rfl, ?_⟩
  · rw [hpopped]
    cases hcommand : event.command? with
    | none => simp [processed, hcommand]
    | some cmd => simp [processed, hcommand]
  · intro hne
    obtain ⟨cmd, -, -, heq⟩ | ⟨shutdown, rfl, ⟨hrunning, heq⟩ | ⟨hdrain, -⟩⟩ :=
      MatchingLoop.phase_of_step hstep
    · exact hdraining (heq ▸ hne)
    · cases shutdown with
      | false => exact absurd heq hne
      | true => exact htrue rfl hrunning
    · exact hdraining (by simp [hdrain])
  · intro hexhausted
    have hstopped : loop.1 = .stopped := by
      obtain hstopped | ⟨-, hpopping, -⟩ := hexhausted
      · exact hstopped
      · cases hpopping
    obtain ⟨cmd, -, hne, heq⟩ | ⟨shutdown, rfl, ⟨-, heq⟩ | ⟨hdrain, -⟩⟩ :=
      MatchingLoop.phase_of_step hstep
    · exact absurd (heq.symm.trans hstopped) hne
    · cases shutdown with
      | false => exact nomatch heq.symm.trans hstopped
      | true => exact nomatch heq.symm.trans hstopped
    · exact hempty rfl hdrain

theorem popReturns (h : Inv crc bincode c loop₀ s) {grow : GrowIo} {save : Snapshot.SaveIo}
    (hs : s.popReturns crc bincode grow save = some s') : Inv crc bincode c loop₀ s' := by
  unfold Gateway.popReturns at hs
  split at hs
  · next cmd hpopping hidle hok =>
    have hround := h.round
    rw [hpopping] at hround
    have hpopped : s.ring.popped.map (·.2) = s.processed ++ [cmd] := by
      cases hround with
      | popped _ hresult hpopped =>
        obtain rfl : cmd = _ := by simpa [hok] using hresult
        exact hpopped
      | idle hne _ _ => exact absurd rfl hne
      | popping hphase _ _ => exact absurd hidle hphase
      | empty _ hresult _ => simp [hok] at hresult
    obtain ⟨loop, hstep, rfl⟩ := Option.map_eq_some_iff.1 hs
    exact h.setLoop hstep hidle hpopped (Nat.le_refl _) nofun nofun
  · next hpopping hidle hempty =>
    have hround := h.round
    rw [hpopping] at hround
    have hpopped : s.ring.popped.map (·.2) = s.processed := by
      cases hround with
      | popped _ hresult _ => simp [hempty] at hresult
      | idle hne _ _ => exact absurd rfl hne
      | popping hphase _ _ => exact absurd hidle hphase
      | empty _ _ hpopped => exact hpopped
    split at hs
    · next hrunning =>
      obtain rfl := Option.some.inj hs
      exact h.setRound h.ring ⟨rfl, rfl⟩ (.idle nofun hidle hpopped) (by simp [hrunning])
        (fun _ => hrunning) (fun hdraining => nomatch hrunning.symm.trans hdraining)
    · next hdraining =>
      obtain ⟨loop, hstep, rfl⟩ := Option.map_eq_some_iff.1 hs
      refine h.setLoop hstep hidle (by simpa [Event.command?] using hpopped) (Nat.le_refl _) ?_ ?_
      · exact fun _ hrunning => nomatch hrunning.symm.trans hdraining
      · exact fun _ _ => h.exhausted (Or.inr ⟨hdraining, hpopping, hempty⟩)
    · cases hs
  · cases hs

/-- A load that reads `true` comes after a store of it, and so after every push. -/
theorem loadShutdown (h : Inv crc bincode c loop₀ s) {i : Nat}
    (hs : s.loadShutdown crc bincode i = some s') : Inv crc bincode c loop₀ s' := by
  unfold Gateway.loadShutdown at hs
  split at hs
  · next hchecking =>
    have hrunning : s.loop.1 = .running := h.checking hchecking
    obtain ⟨hidle, hpopped⟩ := h.round.of_ne_popping (by simp [hchecking])
    obtain ⟨loop, hstep, rfl⟩ := Option.map_eq_some_iff.1 hs
    refine h.setLoop hstep hidle (by simpa [Event.command?] using hpopped) (Nat.le_refl _) nofun ?_
    exact fun _ hdraining => nomatch hrunning.symm.trans hdraining
  · next i hchecking =>
    have hrunning : s.loop.1 = .running := h.checking hchecking
    obtain ⟨hidle, hpopped⟩ := h.round.of_ne_popping (by simp [hchecking])
    split at hs
    · cases hs
    · next heads hheads =>
      obtain ⟨loop, hstep, rfl⟩ := Option.map_eq_some_iff.1 hs
      have hmem : heads ∈ s.shutdown := List.mem_of_getElem? hheads
      obtain ⟨rfl, -⟩ := h.shutdown heads hmem
      refine h.setLoop hstep hidle (by simpa [Event.command?] using hpopped) (le_max_left _ _) ?_ ?_
      · exact fun _ _ => ⟨List.ne_nil_of_mem hmem, le_max_right _ _⟩
      · exact fun _ hdraining => nomatch hrunning.symm.trans hdraining
  · cases hs

/-! ## Every step keeps it -/

theorem ringStep (h : Inv crc bincode c loop₀ s) (hpow : isPowerOfTwo c)
    {event : RingEvent EngineCommand} (hs : s.ringStep noCursorCache event = some s') :
    Inv crc bincode c loop₀ s' := by
  obtain ⟨hpush, hpop, hfloor, ring, hstep, rfl⟩ := ringStep_cases hs
  have hring : Ring.Inv c ring := h.ring.step hpow hstep
  by_cases hevent : event.byProducer
  · obtain ⟨⟨cmd, hpushing⟩, hclient⟩ := h.client.step hevent hpush hstep
    have hnil : s.shutdown = [] :=
      h.shutdown_eq_nil (by simp [hpushing]) (by simp [hpushing])
    exact h.setClient hnil hring (Ring.consumer_eq_of_step hevent hstep) hclient
  · obtain ⟨hpopping, hresult, hround⟩ := h.round.step hevent hpop hstep
    have hpushed : ring.pushed = s.ring.pushed := Ring.pushed_eq_of_step hevent hstep
    have hstopped : s.loop.1 ≠ .stopped := fun hstopped =>
      nomatch hpopping.symm.trans (h.stopped hstopped)
    refine h.setRound hring ⟨Ring.producer_eq_of_step hevent hstep, hpushed⟩ hround hstopped
      h.checking ?_
    intro hdraining _ hempty
    -- in the inner loop the head that is loaded is the last one
    have hlast : s.ring.pushed.length ≤ s.headFloor := (h.draining (by simp [hdraining])).2
    cases event with
    | loadHead i =>
      have hle : s.ring.pushed.length ≤ i := hlast.trans (hfloor i rfl)
      exact h.ring.length_popped_of_empty hstep hle hempty (by simp [hresult])
    | readSlot =>
      obtain ⟨slot, value, slot', -, -, -, rfl⟩ := Ring.readSlot_cases hstep
      simp [hresult] at hempty
    | storeTail =>
      obtain ⟨value, -, rfl⟩ := Ring.storeTail_cases hstep
      cases hempty
    | pop => exact absurd rfl hpop
    | _ => exact absurd trivial hevent

/-- **Every step of either thread keeps the invariant.** -/
theorem step (h : Inv crc bincode c loop₀ s) (hpow : isPowerOfTwo c) {event : GatewayEvent}
    (hs : s.step crc bincode noCursorCache event = some s') : Inv crc bincode c loop₀ s' := by
  cases event with
  | receive msg now => exact h.receive hs
  | closed => exact h.closed hs
  | failed => exact h.failed hs
  | push => exact h.push hs
  | pushReturns => exact h.pushReturns hs
  | storeShutdown => exact h.storeShutdown hs
  | pop => exact h.pop hs
  | popReturns grow save => exact h.popReturns hs
  | loadShutdown i => exact h.loadShutdown hs
  | ring event => exact h.ringStep hpow hs

end Inv

theorem Inv.run (h : Inv crc bincode c loop₀ s) (hpow : isPowerOfTwo c)
    {events : List GatewayEvent} (hrun : s.run crc bincode noCursorCache events = some s') :
    Inv crc bincode c loop₀ s' := by
  induction events generalizing s with
  | nil =>
    obtain rfl := Option.some.inj hrun
    exact h
  | cons event events ih =>
    obtain ⟨s₁, hs, hrun⟩ := run_cons hrun
    exact ih (h.step hpow hs) hrun

/-- The states that some interleaving of the two threads leads to. -/
def Reachable (crc : List UInt8 → UInt32) (bincode : Bincode) (noCursorCache : Bool) (c : UInt64)
    (loop₀ : Phase × MatchingLoop) (s : Gateway) : Prop :=
  ∃ ring events, ringBuffer EngineCommand c = some ring ∧
    (Gateway.start ring loop₀).run crc bincode noCursorCache events = some s

theorem Reachable.inv (h : Reachable crc bincode noCursorCache c loop₀ s)
    (hphase : loop₀.1 = .running) : Inv crc bincode c loop₀ s := by
  obtain ⟨ring, events, hmade, hrun⟩ := h
  exact (Inv.start hmade hphase).run (Ring.inv_ringBuffer hmade).1 hrun

/-- **No command is lost at shutdown.** When the loop has ended, whatever the interleaving was, the
rounds it made processed exactly the commands that were pushed, each once and in the order of the
pushes. These are all the commands that `handle_client` decoded, also if it returned an error. -/
theorem drained_of_reachable {io : RecoverIo} {dataDir : Option DataDir} {arenaCapacity : UInt32}
    {snapshotInterval : UInt64}
    (hstart : MatchingLoop.start crc bincode io dataDir arenaCapacity snapshotInterval = some loop₀)
    (h : Reachable crc bincode noCursorCache c loop₀ s) (hstopped : s.loop.1 = .stopped) :
    MatchingLoop.run crc bincode loop₀ s.events = some s.loop ∧
      s.events.filterMap Event.command? = s.ring.pushed.map (·.2) ∧
      s.received = s.ring.pushed.map (·.2) := by
  have hinv : Inv crc bincode c loop₀ s := h.inv (MatchingLoop.phase_of_start hstart)
  refine ⟨hinv.rounds, ?_, ?_⟩
  · have hpopped : s.ring.popped = s.ring.pushed :=
      hinv.ring.fifo.eq_of_length (hinv.exhausted (Or.inl hstopped))
    obtain ⟨-, hprocessed⟩ := hinv.round.of_ne_popping (by simp [hinv.stopped hstopped])
    rw [← hpopped, hprocessed, processed]
  · obtain ⟨hset, -⟩ := hinv.draining (by simp [hstopped])
    obtain ⟨heads, hheads⟩ := List.exists_mem_of_ne_nil _ hset
    have hidle : ∀ cmd, s.client ≠ .retrying cmd ∧ s.client ≠ .pushing cmd := by
      obtain ⟨-, hclient | hclient⟩ := hinv.shutdown heads hheads
      · simp [hclient]
      · simp [hclient]
    exact (hinv.client.of_idle hidle).2

/-- The race that counts: the loop finds the ring empty, then the last command is pushed, the client
sends a message of an unknown type, and `run` sets the flag before the loop looks at it. -/
def race : List GatewayEvent :=
  [.receive [2, 0, 0, 0, 0, 0, 0, 0, 9, 0, 0, 0, 0, 0, 0, 0] 5, .pop, .ring (.loadHead 0),
    .push, .ring .writeSlot, .popReturns .ok .ok, .ring .storeHead, .pushReturns,
    .receive [7] 6, .storeShutdown, .loadShutdown 1, .pop, .ring (.loadHead 1),
    .ring .readSlot, .ring .storeTail, .popReturns .ok .ok, .pop, .ring (.loadHead 1),
    .popReturns .ok .ok]

theorem drained_of_reachable_race : ∃ ring loop₀ s, ringBuffer EngineCommand 1 = some ring ∧
    MatchingLoop.start crc32 .fixint .ok none 4 10 = some loop₀ ∧
    (Gateway.start ring loop₀).run crc32 .fixint false race = some s ∧ s.loop.1 = .stopped ∧
    s.events.filterMap Event.command? = [.cancelOrder 9] ∧ s.received = [.cancelOrder 9] := by
  have hstart : MatchingLoop.start crc32 .fixint .ok none 4 10 =
      some (MatchingLoop.enter (MatchingEngine.withCapacity 4) none false ⟨none, none⟩ 10) := rfl
  have hend : ((ringBuffer EngineCommand 1).bind fun ring => (Gateway.start ring
      (MatchingLoop.enter (MatchingEngine.withCapacity 4) none false ⟨none, none⟩ 10)).run
        crc32 .fixint false race).map (fun s => (s.loop.1, s.ring.pushed.map (·.2))) =
      some (.stopped, [.cancelOrder 9]) := by decide +kernel
  obtain ⟨s, hs, hend⟩ := Option.map_eq_some_iff.1 hend
  obtain ⟨ring, hmade, hrun⟩ := Option.bind_eq_some_iff.1 hs
  obtain ⟨hstopped, hpushed⟩ := Prod.mk.inj hend
  obtain ⟨-, hprocessed, hreceived⟩ :=
    drained_of_reachable hstart ⟨ring, race, hmade, hrun⟩ hstopped
  exact ⟨ring, _, s, hmade, hstart, hrun, hstopped, hprocessed.trans hpushed,
    hreceived.trans hpushed⟩

end Gateway

end Ferrox
