import Ferrox.Gateway
import Ferrox.Ring

/-!
# The two threads of the gateway

`run` of `src/gateway.rs` with both of its threads, from the accepted connection to the end: the
client thread, which is `handle_client` and what `run` does after it, and the matching thread, which
is `matching_loop`. They share the ring and the flag `shutdown`, and take turns in any order. The
steps of `push` and `pop` are those of `Ferrox.Ring`, the rounds of the loop are those of
`Ferrox.Gateway`.

The flag is stored with `Release` and loaded with `Acquire`. So a load that reads `true` from a store
comes after everything the client thread did before that store, and from then on the matching thread
loads no head that is older. A load that reads `false` says nothing, however late it comes.
-/

namespace Ferrox

/-- Where the client thread is. -/
inductive ClientPhase where
  /-- at the top of the loop of `handle_client` -/
  | reading
  /-- before a call of `push` -/
  | retrying (cmd : EngineCommand)
  /-- in the call -/
  | pushing (cmd : EngineCommand)
  /-- behind the loop -/
  | closing
  /-- `handle_client` returned to `run` -/
  | returned
  /-- waiting for the matching thread -/
  | joining
  deriving DecidableEq

/-- Where the matching thread is in its round. -/
inductive RoundPhase where
  /-- before the call of `pop` -/
  | calling
  /-- in the call -/
  | popping
  /-- before the load of `shutdown` -/
  | checking
  deriving DecidableEq

/-- The gateway with its two threads. `shutdown` has an entry for each store of `true`, the number of
heads that were stored before it. The head that is loaded next is not older than `headFloor`.
`received` are the commands that `handle_client` decoded, and `events` the rounds of the loop. -/
structure Gateway where
  ring : Ring EngineCommand
  shutdown : List Nat
  headFloor : Nat
  client : ClientPhase
  received : List EngineCommand
  round : RoundPhase
  loop : Phase × MatchingLoop
  events : List Event

/-- A step of one of the threads. -/
inductive GatewayEvent where
  /-- the client sent a message -/
  | receive (msg : List UInt8) (now : UInt64)
  /-- the client closed the connection, or reset it, before a message or in it -/
  | closed
  /-- reading from the connection failed otherwise -/
  | failed
  | push
  | pushReturns
  | storeShutdown
  | pop
  | popReturns (grow : GrowIo) (save : Snapshot.SaveIo)
  | loadShutdown (i : Nat)
  /-- a step of `push` or of `pop` -/
  | ring (event : RingEvent EngineCommand)

namespace Gateway

variable (crc : List UInt8 → UInt32) (bincode : Bincode) (noCursorCache : Bool)

/-- The threads as they start. -/
def start (ring : Ring EngineCommand) (loop : Phase × MatchingLoop) : Gateway where
  ring := ring
  shutdown := []
  headFloor := 0
  client := .reading
  received := []
  round := .calling
  loop := loop
  events := []

/-! ## The client thread -/

/-- `handle_client` reads a message: its type, and then as many bytes as that type has. -/
def receive (s : Gateway) (msg : List UInt8) (now : UInt64) : Option Gateway :=
  match s.client, msg with
  | .reading, msgType :: _ =>
      match Protocol.messageSize msgType with
      | .error _ => some { s with client := .returned }
      | .ok size =>
          if msg.length = size then
            match handleMessage msg now with
            | .error _ => some { s with client := .returned }
            | .ok cmd => some { s with client := .retrying cmd, received := s.received ++ [cmd] }
          else none
  | _, _ => none

/-- The end of the connection ends the loop, ... -/
def closed (s : Gateway) : Option Gateway :=
  match s.client with
  | .reading => some { s with client := .closing }
  | _ => none

/-- ... and any other error ends `handle_client`. -/
def failed (s : Gateway) : Option Gateway :=
  match s.client with
  | .reading => some { s with client := .returned }
  | _ => none

def push (s : Gateway) : Option Gateway :=
  match s.client with
  | .retrying cmd =>
      (s.ring.push noCursorCache cmd).map fun ring => { s with ring, client := .pushing cmd }
  | _ => none

/-- `push` returns. A full ring hands the command back, and it is pushed again. -/
def pushReturns (s : Gateway) : Option Gateway :=
  match s.client, s.ring.producer.phase, s.ring.producer.result with
  | .pushing _, .idle, some (.ok ()) => some { s with client := .reading }
  | .pushing _, .idle, some (.error full) => some { s with client := .retrying full.value }
  | _, _, _ => none

/-- `shutdown` is stored by `handle_client` when its loop ended, and by `run` in any case. -/
def storeShutdown (s : Gateway) : Option Gateway :=
  let shutdown := s.shutdown ++ [s.ring.pushed.length]
  match s.client with
  | .closing => some { s with shutdown, client := .returned }
  | .returned => some { s with shutdown, client := .joining }
  | _ => none

/-! ## The matching thread -/

/-- A round of the loop ends. -/
def endRound (s : Gateway) (event : Event) : Option Gateway :=
  (MatchingLoop.step crc bincode s.loop event).map fun loop =>
    { s with loop, round := .calling, events := s.events ++ [event] }

def pop (s : Gateway) : Option Gateway :=
  match s.round, s.loop.1 with
  | .calling, .running | .calling, .draining =>
      (s.ring.pop noCursorCache).map fun ring => { s with ring, round := .popping }
  | _, _ => none

/-- `pop` returns. An empty ring makes the loop look at `shutdown`, or leave the inner loop. -/
def popReturns (s : Gateway) (grow : GrowIo) (save : Snapshot.SaveIo) : Option Gateway :=
  match s.round, s.ring.consumer.phase, s.ring.consumer.result with
  | .popping, .idle, some (.ok cmd) => s.endRound crc bincode (.command cmd grow save)
  | .popping, .idle, some (.error .empty) =>
      match s.loop.1 with
      | .running => some { s with round := .checking }
      | .draining => s.endRound crc bincode (.empty true)
      | .stopped => none
  | _, _, _ => none

/-- A load of `shutdown` that sees store number `i`, or the initial value. -/
def loadShutdown (s : Gateway) (i : Nat) : Option Gateway :=
  match s.round, i with
  | .checking, 0 => s.endRound crc bincode (.empty false)
  | .checking, i + 1 =>
      match s.shutdown[i]? with
      | none => none
      | some heads =>
          { s with headFloor := max s.headFloor heads }.endRound crc bincode (.empty true)
  | _, _ => none

/-! ## Both threads -/

/-- A step inside a call of `push` or `pop`. -/
def ringStep (s : Gateway) : RingEvent EngineCommand → Option Gateway
  | .push _ | .pop => none
  | .loadHead i =>
      if s.headFloor ≤ i then (s.ring.loadHead i).map fun ring => { s with ring } else none
  | event => (s.ring.step noCursorCache event).map fun ring => { s with ring }

def step (s : Gateway) : GatewayEvent → Option Gateway
  | .receive msg now => s.receive msg now
  | .closed => s.closed
  | .failed => s.failed
  | .push => s.push noCursorCache
  | .pushReturns => s.pushReturns
  | .storeShutdown => s.storeShutdown
  | .pop => s.pop noCursorCache
  | .popReturns grow save => s.popReturns crc bincode grow save
  | .loadShutdown i => s.loadShutdown crc bincode i
  | .ring event => s.ringStep noCursorCache event

/-- An interleaving of the two threads. -/
def run (s : Gateway) : List GatewayEvent → Option Gateway
  | [] => some s
  | event :: events =>
      match s.step crc bincode noCursorCache event with
      | none => none
      | some s => run s events

end Gateway

end Ferrox
