import Ferrox.Codec
import Ferrox.Gateway
import Ferrox.Lib.Framing
import Ferrox.Ring

/-!
# Reading commands off a connection

`handle_client` of `src/gateway.rs` against the byte stream of a connection. The stream is what the
client sends, and how its end is reported to a read that wants more. The ring is what it has
accepted: a call of `push` that finds it full hands the command back, and is made again. Which of the
calls find it full is up to the other thread, so it is a parameter (`full`), as is the time.

Both loops take the number of rounds they may make. A ring that is never again found with room keeps
the inner loop going forever, so a result may be missing; `stream_framing` says when there is one.

`message_size` cuts the stream into frames and `decode_message` reads them. They agree on the type
byte, so that a frame has the length its decoder wants. `ValidFrame` is a self-delimiting format, and
what `handle_client` pushes are the commands of the longest sequence of frames at the front of the
stream.
-/

namespace Ferrox

open Protocol

/-- How a read fails that finds too few bytes. -/
inductive ReadError where
  | unexpectedEof
  | connectionReset
  | other
  deriving DecidableEq, Repr

inductive GatewayError where
  | io
  | protocol (e : ProtocolError)
  deriving DecidableEq, Repr

/-- A connection and what `handle_client` made of it: the bytes that are still to be read, how they
end, the commands that the ring accepted and the number of calls that took, and the flag. -/
structure Connection where
  stream : List UInt8
  ending : ReadError
  pushed : List EngineCommand
  calls : Nat
  shutdown : Bool

namespace Connection

variable (full : Nat → Bool) (now : Nat → UInt64)

/-- A connection on which a client sends `bytes`. -/
def accept (bytes : List UInt8) (ending : ReadError) : Connection := ⟨bytes, ending, [], 0, false⟩

def readExact (s : Connection) (n : Nat) : Connection × Except ReadError (List UInt8) :=
  if n ≤ s.stream.length then
    ({ s with stream := s.stream.drop n }, .ok (s.stream.take n))
  else ({ s with stream := [] }, .error s.ending)

/-- `producer.push(cmd)` -/
def push (s : Connection) (cmd : EngineCommand) :
    Connection × Except (Full EngineCommand) Unit :=
  if full s.calls then ({ s with calls := s.calls + 1 }, .error ⟨cmd⟩)
  else ({ s with calls := s.calls + 1, pushed := s.pushed ++ [cmd] }, .ok ())

/-- The inner loop, and whether it ended. -/
def pushLoop : Nat → Connection → EngineCommand → Connection × Bool
  | 0, s, _ => (s, false)
  | fuel + 1, s, cmd =>
      match s.push full cmd with
      | (s, .ok ()) => (s, true)
      | (s, .error returned) => pushLoop fuel s returned.value

/-- A read that failed: the end of the connection ends the loop, any other error `handle_client`. -/
def readFailed (s : Connection) : ReadError → Connection × Option (Except GatewayError Unit)
  | .unexpectedEof => ({ s with shutdown := true }, some (.ok ()))
  | .connectionReset => ({ s with shutdown := true }, some (.ok ()))
  | .other => (s, some (.error .io))

def handleClient : Nat → Connection → Connection × Option (Except GatewayError Unit)
  | 0, s => (s, none)
  | fuel + 1, s =>
      match s.readExact 1 with
      | (s, .error e) => s.readFailed e
      | (s, .ok typeBuf) =>
          let msgType := typeBuf.headD 0
          match messageSize msgType with
          | .error e => (s, some (.error (.protocol e)))
          | .ok size =>
              match if size > 1 then s.readExact (size - 1) else (s, .ok []) with
              | (s, .error e) => s.readFailed e
              | (s, .ok rest) =>
                  match handleMessage (msgType :: rest) (now s.calls) with
                  | .error e => (s, some (.error (.protocol e)))
                  | .ok cmd =>
                      match pushLoop full fuel s cmd with
                      | (s, false) => (s, none)
                      | (s, true) => handleClient fuel s

end Connection

/-! ## Frames -/

/-- A message of a known type, of the size of its type, that can be decoded. -/
def ValidFrame (frame : List UInt8) : Prop :=
  ∃ msgType, frame.head? = some msgType ∧ messageSize msgType = .ok frame.length ∧
    ∃ cmd, decodeMessage frame = .ok cmd

theorem one_lt_messageSize {t : UInt8} {n : Nat} (h : messageSize t = .ok n) : 1 < n := by
  unfold messageSize at h
  split_ifs at h
  · cases h
    decide
  · cases h
    decide

theorem ValidFrame.ne_nil {frame : List UInt8} (h : ValidFrame frame) : frame ≠ [] := by
  rintro rfl
  obtain ⟨t, ht, -⟩ := h
  cases ht

/-- **Frames are self-delimiting**: the type byte says how long a frame is. -/
theorem selfDelimiting_validFrame : Framing.SelfDelimiting id ValidFrame := by
  intro f f' d hf hf' hp hp'
  obtain ⟨t, ht, hsize, -⟩ := hf
  obtain ⟨t', ht', hsize', -⟩ := hf'
  have hhead : ∀ {l : List UInt8} {a : UInt8}, l.head? = some a → l <+: d → d.head? = some a := by
    rintro l a hl ⟨rest, rfl⟩
    rw [List.head?_append, hl]
    rfl
  have htype : t' = t := Option.some.inj ((hhead ht' hp').symm.trans (hhead ht hp))
  rw [htype, hsize] at hsize'
  have hlen : f.length = f'.length := Except.ok.inj hsize'
  exact (List.prefix_of_prefix_length_le hp hp' hlen.le).eq_of_length hlen

/-- The stream ends inside a frame of a known type. -/
def Unfinished (rest : List UInt8) : Prop :=
  ∃ t n, rest.head? = some t ∧ messageSize t = .ok n ∧ rest.length < n

/-- The stream goes on with a frame of unknown type, or with one that cannot be decoded. -/
def Invalid (rest : List UInt8) (e : ProtocolError) : Prop :=
  ∃ t, rest.head? = some t ∧ (messageSize t = .error e ∨
    ∃ n, messageSize t = .ok n ∧ n ≤ rest.length ∧ decodeMessage (rest.take n) = .error e)

/-- Behind the valid frames the stream is at its end, or in a frame that is unfinished or invalid. -/
theorem cases_of_stops {rest : List UInt8} (h : Framing.Stops id ValidFrame rest) :
    (rest = [] ∨ Unfinished rest) ∨ ∃ e, Invalid rest e := by
  cases rest with
  | nil => exact Or.inl (Or.inl rfl)
  | cons t tail =>
    cases hsize : messageSize t with
    | error e => exact Or.inr ⟨e, t, rfl, Or.inl hsize⟩
    | ok n =>
      by_cases hlt : (t :: tail).length < n
      · exact Or.inl (Or.inr ⟨t, n, rfl, hsize, hlt⟩)
      · have hle := not_lt.1 hlt
        cases hdecode : decodeMessage ((t :: tail).take n) with
        | error e => exact Or.inr ⟨e, t, rfl, Or.inr ⟨n, hsize, hle, hdecode⟩⟩
        | ok cmd =>
          have hpos := one_lt_messageSize hsize
          have hhead : ((t :: tail).take n).head? = some t := by
            rw [List.head?_take, if_neg (by omega)]
            rfl
          have hlen : ((t :: tail).take n).length = n := List.length_take_of_le hle
          exact absurd (List.take_prefix _ _)
            (h _ ⟨t, hhead, by rw [hlen]; exact hsize, cmd, hdecode⟩)

/-- A message of the size of its type is never too short for its decoder. -/
theorem decodeMessage_ne_bufferTooShort {frame : List UInt8} {t : UInt8}
    (ht : frame.head? = some t) (hsize : messageSize t = .ok frame.length) :
    decodeMessage frame ≠ .error .bufferTooShort := by
  intro herr
  have htype : frame[0]? = some t := by rw [← List.head?_eq_getElem?, ht]
  rw [decodeMessage, readU8_eq htype] at herr
  unfold messageSize at hsize
  simp only [bind, Except.bind] at herr
  split_ifs at hsize herr with hnew hcancel
  · have hlen : 40 = frame.length := Except.ok.inj hsize
    have hb : frame[1]? = some frame[1] := List.getElem?_eq_getElem _
    rw [decodeNewOrder_eq hlen.le hb] at herr
    simp only [bind, Except.bind, decodeSide] at herr
    split_ifs at herr
    all_goals cases herr
  · have hlen : 16 = frame.length := Except.ok.inj hsize
    rw [decodeCancelOrder, if_neg (by rw [← hlen]; decide), readU64_eq (by omega)] at herr
    cases herr

theorem Invalid.ne_bufferTooShort {rest : List UInt8} {e : ProtocolError} (h : Invalid rest e) :
    e ≠ .bufferTooShort := by
  obtain ⟨t, ht, hsize | ⟨n, hsize, hle, hdecode⟩⟩ := h
  · unfold messageSize at hsize
    split_ifs at hsize
    cases hsize
    simp
  · rintro rfl
    have hpos := one_lt_messageSize hsize
    have hlen : (rest.take n).length = n := List.length_take_of_le hle
    have hhead : (rest.take n).head? = some t := by
      rw [List.head?_take, if_neg (by omega)]
      exact ht
    exact decodeMessage_ne_bufferTooShort hhead (by rw [hlen]; exact hsize) hdecode

/-- **How `handle_client` ends**, by what is left of the stream behind the valid frames. -/
structure EndsAs (rest : List UInt8) (r : Except GatewayError Unit) : Prop where
  ok : r = .ok () ↔ rest = [] ∨ Unfinished rest
  error : ∀ e, r = .error e ↔ ∃ p, e = .protocol p ∧ Invalid rest p

theorem not_invalid_of_end {rest : List UInt8} {e : ProtocolError}
    (h : rest = [] ∨ Unfinished rest) : ¬ Invalid rest e := by
  rintro ⟨t, ht, hinvalid⟩
  rcases h with rfl | ⟨t', n, ht', hsize', hlt⟩
  · cases ht
  · obtain rfl := Option.some.inj (ht.symm.trans ht')
    rcases hinvalid with hsize | ⟨n', hsize, hle, -⟩
    · rw [hsize] at hsize'
      cases hsize'
    · rw [hsize] at hsize'
      cases hsize'
      omega

theorem Invalid.unique {rest : List UInt8} {e e' : ProtocolError} (h : Invalid rest e)
    (h' : Invalid rest e') : e' = e := by
  obtain ⟨t, ht, h⟩ := h
  obtain ⟨t', ht', h'⟩ := h'
  obtain rfl := Option.some.inj (ht.symm.trans ht')
  rcases h with h | ⟨n, hn, -, h⟩
  · rcases h' with h' | ⟨n', hn', -, -⟩
    · exact Except.error.inj (h'.symm.trans h)
    · rw [h] at hn'
      cases hn'
  · rcases h' with h' | ⟨n', hn', -, h'⟩
    · rw [hn] at h'
      cases h'
    · obtain rfl := Except.ok.inj (hn.symm.trans hn')
      exact Except.error.inj (h'.symm.trans h)

theorem EndsAs.of_end {rest : List UInt8} (h : rest = [] ∨ Unfinished rest) :
    EndsAs rest (.ok ()) := by
  refine ⟨⟨fun _ => h, fun _ => rfl⟩, fun e => ?_⟩
  constructor
  · intro he
    cases he
  · rintro ⟨p, -, hinvalid⟩
    exact absurd hinvalid (not_invalid_of_end h)

theorem EndsAs.of_invalid {rest : List UInt8} {p : ProtocolError} (h : Invalid rest p) :
    EndsAs rest (.error (.protocol p)) := by
  refine ⟨⟨?_, fun hend => absurd h (not_invalid_of_end hend)⟩, fun e => ⟨?_, ?_⟩⟩
  · intro he
    cases he
  · intro he
    exact ⟨p, (Except.error.inj he).symm, h⟩
  · rintro ⟨p', rfl, hinvalid⟩
    rw [h.unique hinvalid]

namespace Connection

variable (full : Nat → Bool) (now : Nat → UInt64) (fuel : Nat) {s : Connection}

/-! ## A round of the loop -/

theorem handleClient_cons {t : UInt8} {tail : List UInt8} (hs : s.stream = t :: tail) :
    handleClient full now (fuel + 1) s =
      match messageSize t with
      | .error e => ({ s with stream := tail }, some (.error (.protocol e)))
      | .ok size =>
          if size ≤ s.stream.length then
            match handleMessage (s.stream.take size) (now s.calls) with
            | .error e => ({ s with stream := s.stream.drop size }, some (.error (.protocol e)))
            | .ok cmd =>
                match pushLoop full fuel { s with stream := s.stream.drop size } cmd with
                | (s, false) => (s, none)
                | (s, true) => handleClient full now fuel s
          else ({ s with stream := [] } : Connection).readFailed s.ending := by
  have hread : s.readExact 1 = ({ s with stream := tail }, .ok [t]) := by
    rw [readExact, if_pos (by rw [hs]; simp), hs]
    rfl
  rw [handleClient, hread]
  simp only [List.headD_cons]
  cases hsize : messageSize t with
  | error e => rfl
  | ok size =>
    have hlt := one_lt_messageSize hsize
    obtain ⟨n, rfl⟩ : ∃ n, size = n + 1 := ⟨size - 1, by omega⟩
    simp only [if_pos hlt, Nat.add_sub_cancel]
    by_cases hle : n + 1 ≤ s.stream.length
    · have hle' : n ≤ tail.length := by
        rw [hs, List.length_cons] at hle
        omega
      rw [if_pos hle, readExact, if_pos hle', hs]
      rfl
    · have hle' : ¬ n ≤ tail.length := by
        rw [hs, List.length_cons] at hle
        omega
      rw [if_neg hle, readExact, if_neg hle']

/-- **The end of the loop**, behind the valid frames. -/
theorem handleClient_rest (hend : s.ending ≠ .other)
    (hstop : Framing.Stops id ValidFrame s.stream) :
    (handleClient full now (fuel + 1) s).1.pushed = s.pushed ∧
      ∃ r, (handleClient full now (fuel + 1) s).2 = some r ∧ EndsAs s.stream r := by
  have hfailed : ∀ s : Connection, s.ending ≠ .other →
      (s.readFailed s.ending).1.pushed = s.pushed ∧ (s.readFailed s.ending).2 = some (.ok ()) := by
    intro s hs
    unfold readFailed
    cases he : s.ending with
    | unexpectedEof => exact ⟨rfl, rfl⟩
    | connectionReset => exact ⟨rfl, rfl⟩
    | other => exact absurd he hs
  rcases cases_of_stops hstop with hnil | ⟨e, hinvalid⟩
  · have hends := EndsAs.of_end hnil
    rcases hnil with hnil | ⟨t, n, ht, hsize, hlt⟩
    · have hread : s.readExact 1 = ({ s with stream := [] }, .error s.ending) := by
        rw [readExact, if_neg (by rw [hnil]; decide)]
      obtain ⟨hpushed, hok⟩ := hfailed { s with stream := [] } hend
      rw [handleClient, hread]
      exact ⟨hpushed, _, hok, hends⟩
    · obtain ⟨tail, hs⟩ := List.head?_eq_some_iff.1 ht
      obtain ⟨hpushed, hok⟩ := hfailed { s with stream := [] } hend
      rw [handleClient_cons full now fuel hs, hsize]
      simp only [if_neg (not_le.2 hlt)]
      exact ⟨hpushed, _, hok, hends⟩
  · have hends := EndsAs.of_invalid hinvalid
    obtain ⟨t, ht, hsize | ⟨n, hsize, hle, hdecode⟩⟩ := hinvalid
    · obtain ⟨tail, hs⟩ := List.head?_eq_some_iff.1 ht
      rw [handleClient_cons full now fuel hs, hsize]
      exact ⟨rfl, _, rfl, hends⟩
    · obtain ⟨tail, hs⟩ := List.head?_eq_some_iff.1 ht
      have hmessage : handleMessage (s.stream.take n) (now s.calls) = .error e := by
        rw [handleMessage, hdecode]
      rw [handleClient_cons full now fuel hs, hsize]
      simp only [if_pos hle, hmessage]
      exact ⟨trivial, _, rfl, hends⟩

theorem handleMessage_ok {msg : List UInt8} {cmd : EngineCommand} (h : decodeMessage msg = .ok cmd)
    (time : UInt64) : ∃ cmd', handleMessage msg time = .ok cmd' ∧ cmd'.untimed = cmd.untimed := by
  rw [handleMessage, h]
  cases cmd with
  | newOrder o => exact ⟨_, rfl, rfl⟩
  | cancelOrder id => exact ⟨_, rfl, rfl⟩

/-- The inner loop reads nothing, and pushes the command once, when it ends. -/
theorem pushLoop_eq (s : Connection) (cmd : EngineCommand) :
    (pushLoop full fuel s cmd).1.stream = s.stream ∧
      (pushLoop full fuel s cmd).1.ending = s.ending ∧
      (pushLoop full fuel s cmd).1.pushed =
        s.pushed ++ if (pushLoop full fuel s cmd).2 then [cmd] else [] := by
  induction fuel generalizing s with
  | zero => simp [pushLoop]
  | succ fuel ih =>
    by_cases hfull : full s.calls
    · simpa [pushLoop, push, hfull] using ih { s with calls := s.calls + 1 }
    · simp [pushLoop, push, hfull]

theorem pushLoop_of_room {j n : Nat} (hj : full j = false) (hn : s.calls + n = j)
    (cmd : EngineCommand) : ∃ s', ∀ fuel, n < fuel → pushLoop full fuel s cmd = (s', true) := by
  induction n generalizing s with
  | zero =>
    have hroom : full s.calls = false := by rwa [show s.calls = j from hn]
    refine ⟨(s.push full cmd).1, ?_⟩
    intro fuel hfuel
    obtain ⟨fuel, rfl⟩ : ∃ k, fuel = k + 1 := ⟨fuel - 1, by omega⟩
    simp [pushLoop, push, hroom]
  | succ n ih =>
    by_cases hfull : full s.calls
    · have hn' : s.calls + 1 + n = j := by omega
      obtain ⟨s', hs'⟩ := ih (s := { s with calls := s.calls + 1 }) hn'
      refine ⟨s', ?_⟩
      intro fuel hfuel
      obtain ⟨fuel, rfl⟩ : ∃ k, fuel = k + 1 := ⟨fuel - 1, by omega⟩
      simpa [pushLoop, push, hfull] using hs' fuel (by omega)
    · refine ⟨(s.push full cmd).1, ?_⟩
      intro fuel hfuel
      obtain ⟨fuel, rfl⟩ : ∃ k, fuel = k + 1 := ⟨fuel - 1, by omega⟩
      simp [pushLoop, push, hfull]

theorem handleClient_frame {frame rest : List UInt8} {cmd : EngineCommand}
    (hframe : ValidFrame frame) (hcmd : decodeMessage frame = .ok cmd)
    (hs : s.stream = frame ++ rest) : ∃ cmd', cmd'.untimed = cmd.untimed ∧ ∀ fuel,
      handleClient full now (fuel + 1) s =
        match pushLoop full fuel { s with stream := rest } cmd' with
        | (s, false) => (s, none)
        | (s, true) => handleClient full now fuel s := by
  obtain ⟨t, ht, hsize, -⟩ := hframe
  obtain ⟨tail, rfl⟩ := List.head?_eq_some_iff.1 ht
  obtain ⟨cmd', hmessage, huntimed⟩ := handleMessage_ok hcmd (now s.calls)
  refine ⟨cmd', huntimed, fun fuel => ?_⟩
  have htake : s.stream.take (t :: tail).length = t :: tail := by rw [hs, List.take_left]
  have hdrop : s.stream.drop (t :: tail).length = rest := by rw [hs, List.drop_left]
  have hle : (t :: tail).length ≤ s.stream.length := by
    rw [hs, List.length_append]
    omega
  rw [handleClient_cons full now fuel (t := t) (by rw [hs]; rfl), hsize]
  simp only [if_pos hle, htake, hmessage, hdrop]

/-! ## Whole streams -/

/-- The commands of frames, one by one. -/
def Carries (frames : List (List UInt8)) (cmds : List EngineCommand) : Prop :=
  List.Forall₂ (fun frame cmd => decodeMessage frame = .ok cmd) frames cmds

section Run

variable {frames : List (List UInt8)} {cmds : List EngineCommand} {rest : List UInt8}

/-- **What is pushed on the way**: the commands of the first frames, and all of them when
`handle_client` returns. -/
theorem handleClient_frames (hcmds : Carries frames cmds) (hvalid : ∀ f ∈ frames, ValidFrame f)
    (hstop : Framing.Stops id ValidFrame rest) (hs : s.stream = frames.flatten ++ rest)
    (hend : s.ending ≠ .other) :
    (handleClient full now fuel s).1.pushed.map EngineCommand.untimed <+:
        s.pushed.map EngineCommand.untimed ++ cmds.map EngineCommand.untimed ∧
      ∀ r, (handleClient full now fuel s).2 = some r →
        (handleClient full now fuel s).1.pushed.map EngineCommand.untimed =
          s.pushed.map EngineCommand.untimed ++ cmds.map EngineCommand.untimed ∧
        EndsAs rest r := by
  induction hcmds generalizing s fuel with
  | nil =>
    cases fuel with
    | zero =>
      refine ⟨by simp [handleClient], ?_⟩
      intro r hr
      cases hr
    | succ fuel =>
      rw [List.flatten_nil, List.nil_append] at hs
      obtain ⟨hpushed, r, hr, hends⟩ := handleClient_rest full now fuel hend (hs ▸ hstop)
      rw [hpushed]
      refine ⟨by simp, ?_⟩
      intro r' hr'
      rw [hr] at hr'
      cases hr'
      exact ⟨by simp, hs ▸ hends⟩
  | @cons frame cmd frames cmds hcmd hcmds ih =>
    cases fuel with
    | zero =>
      refine ⟨by simp [handleClient], ?_⟩
      intro r hr
      cases hr
    | succ fuel =>
      rw [List.flatten_cons, List.append_assoc] at hs
      obtain ⟨cmd', huntimed, hround⟩ := handleClient_frame full now
        (hvalid frame List.mem_cons_self) hcmd hs
      obtain ⟨hstream, hending, hpushed⟩ :=
        pushLoop_eq full fuel { s with stream := frames.flatten ++ rest } cmd'
      rw [hround fuel]
      generalize pushLoop full fuel { s with stream := frames.flatten ++ rest } cmd' = out at *
      obtain ⟨s', ended⟩ := out
      cases ended with
      | false =>
        have hpushed : s'.pushed = s.pushed := by simpa using hpushed
        refine ⟨by simp [hpushed], ?_⟩
        intro r hr
        cases hr
      | true =>
        have hpushed : s'.pushed.map EngineCommand.untimed =
            s.pushed.map EngineCommand.untimed ++ [cmd.untimed] := by
          rw [show s'.pushed = s.pushed ++ [cmd'] from hpushed, List.map_append, List.map_singleton,
            huntimed]
        have hrest := ih fuel (fun f hf => hvalid f (List.mem_cons_of_mem _ hf)) hstream
          (hending ▸ hend)
        rw [hpushed] at hrest
        simpa using hrest

/-- **A ring that has room again and again** lets `handle_client` return. -/
theorem handleClient_returns (hroom : ∀ k, ∃ j, k ≤ j ∧ full j = false)
    (hcmds : Carries frames cmds) (hvalid : ∀ f ∈ frames, ValidFrame f)
    (hstop : Framing.Stops id ValidFrame rest) (hs : s.stream = frames.flatten ++ rest)
    (hend : s.ending ≠ .other) :
    ∃ n, ∀ fuel, n ≤ fuel → ∃ r, (handleClient full now fuel s).2 = some r := by
  induction hcmds generalizing s with
  | nil =>
    rw [List.flatten_nil, List.nil_append] at hs
    refine ⟨1, ?_⟩
    intro fuel hfuel
    obtain ⟨fuel, rfl⟩ : ∃ k, fuel = k + 1 := ⟨fuel - 1, by omega⟩
    obtain ⟨-, r, hr, -⟩ := handleClient_rest full now fuel hend (hs ▸ hstop)
    exact ⟨r, hr⟩
  | @cons frame cmd frames cmds hcmd hcmds ih =>
    rw [List.flatten_cons, List.append_assoc] at hs
    obtain ⟨cmd', -, hround⟩ := handleClient_frame full now (hvalid frame List.mem_cons_self) hcmd hs
    obtain ⟨j, hj, hfree⟩ := hroom s.calls
    obtain ⟨m, rfl⟩ := Nat.exists_eq_add_of_le hj
    obtain ⟨s', hpush⟩ : ∃ s', ∀ fuel, m < fuel →
        pushLoop full fuel { s with stream := frames.flatten ++ rest } cmd' = (s', true) :=
      pushLoop_of_room (s := { s with stream := frames.flatten ++ rest }) full hfree rfl cmd'
    obtain ⟨hstream, hending, -⟩ := pushLoop_eq full (m + 1)
      { s with stream := frames.flatten ++ rest } cmd'
    rw [hpush _ (Nat.lt_succ_self _)] at hstream hending
    obtain ⟨n, hn⟩ := ih (fun f hf => hvalid f (List.mem_cons_of_mem _ hf)) hstream
      (hending ▸ hend)
    refine ⟨max n (m + 1) + 1, ?_⟩
    intro fuel hfuel
    obtain ⟨fuel, rfl⟩ : ∃ k, fuel = k + 1 := ⟨fuel - 1, by omega⟩
    rw [hround fuel, hpush fuel (by omega)]
    exact hn fuel (by omega)

end Run

/-- A stream, cut into the longest sequence of valid frames at its front and the rest. -/
structure Cut (bytes : List UInt8) (frames : List (List UInt8)) (rest : List UInt8) : Prop where
  split : bytes = frames.flatten ++ rest
  valid : ∀ f ∈ frames, ValidFrame f
  longest : ∀ frames', (∀ f ∈ frames', ValidFrame f) → frames'.flatten <+: bytes →
    frames' <+: frames

theorem exists_cut (bytes : List UInt8) : ∃ frames rest, Cut bytes frames rest ∧
    Framing.Stops id ValidFrame rest := by
  obtain ⟨frames, hparses⟩ :=
    Framing.exists_parses id ValidFrame (fun f hf => hf.ne_nil) bytes
  obtain ⟨rest, hsplit, hstop⟩ := hparses.split
  refine ⟨frames, rest, ⟨by rwa [List.flatMap_id] at hsplit, hparses.mem, ?_⟩, hstop⟩
  intro frames' hvalid hprefix
  exact hparses.longest selfDelimiting_validFrame hvalid (by rwa [List.flatMap_id])

theorem exists_carries {frames : List (List UInt8)} (h : ∀ f ∈ frames, ValidFrame f) :
    ∃ cmds, Carries frames cmds := by
  induction frames with
  | nil => exact ⟨[], .nil⟩
  | cons f frames ih =>
    obtain ⟨cmds, hcmds⟩ := ih fun f hf => h f (List.mem_cons_of_mem _ hf)
    obtain ⟨t, ht, hsize, cmd, hcmd⟩ := h f List.mem_cons_self
    exact ⟨cmd :: cmds, .cons hcmd hcmds⟩

/-- The message that encoding a command writes to some buffer. -/
def Encodes (msg : List UInt8) (cmd : EngineCommand) : Prop :=
  ∃ buf out n, Wal.encode buf cmd = .ok (out, n) ∧ msg = out.take n

theorem Encodes.eq_payload {msg : List UInt8} {cmd : EngineCommand} (h : Encodes msg cmd) :
    msg = payload cmd := by
  obtain ⟨buf, out, n, henc, rfl⟩ := h
  have hle : (payload cmd).length ≤ buf.length := by
    by_contra hlt
    have hlt := not_le.1 hlt
    cases cmd with
    | newOrder o =>
      rw [payload, length_newOrderBytes] at hlt
      rw [Wal.encode, encodeNewOrder, if_pos hlt] at henc
      cases henc
    | cancelOrder id =>
      rw [payload, length_cancelOrderBytes] at hlt
      rw [Wal.encode, encodeCancelOrder, if_pos hlt] at henc
      cases henc
  rw [encode_payload cmd hle] at henc
  cases henc
  exact List.take_left

theorem validFrame_payload {cmd : EngineCommand} (h : cmd.Tradable) : ValidFrame (payload cmd) := by
  refine ⟨msgType cmd, ?_, messageSize_msgType cmd, cmd.untimed, decodeMessage_payload h⟩
  cases cmd with
  | newOrder o => rfl
  | cancelOrder id => rfl

/-- **Messages that were encoded** are received as the commands they were encoded from. -/
theorem handleClient_encoded {msgs : List (List UInt8)} {cmds : List EngineCommand}
    (henc : List.Forall₂ Encodes msgs cmds) (hcmds : ∀ cmd ∈ cmds, cmd.Tradable)
    (hs : s.stream = msgs.flatten) (hend : s.ending ≠ .other) {r : Except GatewayError Unit}
    (hr : (handleClient full now fuel s).2 = some r) :
    (handleClient full now fuel s).1.pushed.map EngineCommand.untimed =
        s.pushed.map EngineCommand.untimed ++ cmds.map EngineCommand.untimed ∧
      r = .ok () := by
  have hmsgs : Carries msgs (cmds.map EngineCommand.untimed) ∧ ∀ f ∈ msgs, ValidFrame f := by
    clear hs
    induction henc with
    | nil => exact ⟨.nil, by simp⟩
    | @cons msg cmd msgs cmds hmsg hmsgs ih =>
      obtain ⟨hcarries, hvalid⟩ := ih fun c hc => hcmds c (List.mem_cons_of_mem _ hc)
      have hcmd := hcmds cmd List.mem_cons_self
      rw [hmsg.eq_payload]
      refine ⟨.cons (decodeMessage_payload hcmd) hcarries, ?_⟩
      intro f hf
      rcases List.mem_cons.1 hf with rfl | hf
      · exact validFrame_payload hcmd
      · exact hvalid f hf
  have hstop : Framing.Stops id ValidFrame ([] : List UInt8) := by
    intro f hf hprefix
    exact hf.ne_nil (List.prefix_nil.1 hprefix)
  obtain ⟨-, hreturned⟩ := handleClient_frames full now fuel hmsgs.1 hmsgs.2 hstop
    (hs.trans (List.append_nil _).symm) hend
  obtain ⟨hpushed, hends⟩ := hreturned r hr
  refine ⟨?_, hends.ok.2 (Or.inl rfl)⟩
  rw [hpushed, List.map_map]
  congr 2
  funext cmd
  cases cmd <;> rfl

/-- **What `handle_client` makes of `bytes`**, when `cmds` are the commands of the frames in front and
`rest` is what is behind them. -/
structure Receives (bytes : List UInt8) (ending : ReadError) (cmds : List EngineCommand)
    (rest : List UInt8) : Prop where
  /-- Commands are pushed once, in order, at any time. -/
  pushed : ∀ fuel, (handleClient full now fuel (accept bytes ending)).1.pushed.map
    EngineCommand.untimed <+: cmds.map EngineCommand.untimed
  /-- All are pushed when it returns, and what it returns depends on the rest. -/
  returned : ∀ fuel r, (handleClient full now fuel (accept bytes ending)).2 = some r →
    (handleClient full now fuel (accept bytes ending)).1.pushed.map EngineCommand.untimed =
        cmds.map EngineCommand.untimed ∧ EndsAs rest r
  /-- No message is too short for its decoder. -/
  notShort : ∀ fuel, (handleClient full now fuel (accept bytes ending)).2 ≠
    some (.error (.protocol .bufferTooShort))
  /-- It does return when the ring has room again and again. -/
  returns : (∀ k, ∃ j, k ≤ j ∧ full j = false) → ∃ n, ∀ fuel, n ≤ fuel →
    ∃ r, (handleClient full now fuel (accept bytes ending)).2 = some r

/-- **Stream framing.** Whatever a client sends before it closes the connection, and whichever calls
of `push` find the ring full: `handle_client` pushes the commands of the longest sequence of valid
frames at the front of the stream, and ends as the rest of the stream says. What was encoded is
received as it was sent. -/
theorem stream_framing (bytes : List UInt8) {ending : ReadError} (hend : ending ≠ .other) :
    (∃ frames rest cmds, Cut bytes frames rest ∧ Carries frames cmds ∧
      Receives full now bytes ending cmds rest) ∧
    ∀ msgs cmds, List.Forall₂ Encodes msgs cmds → (∀ cmd ∈ cmds, cmd.Tradable) →
      bytes = msgs.flatten → ∀ fuel r,
        (handleClient full now fuel (accept bytes ending)).2 = some r →
        (handleClient full now fuel (accept bytes ending)).1.pushed.map EngineCommand.untimed =
            cmds.map EngineCommand.untimed ∧ r = .ok () := by
  constructor
  · obtain ⟨frames, rest, hcut, hstop⟩ := exists_cut bytes
    obtain ⟨cmds, hcmds⟩ := exists_carries hcut.valid
    have hrun := fun fuel => handleClient_frames full now fuel (s := accept bytes ending) hcmds
      hcut.valid hstop hcut.split hend
    refine ⟨frames, rest, cmds, hcut, hcmds, fun fuel => (hrun fuel).1,
      fun fuel => (hrun fuel).2, ?_, fun hroom =>
      handleClient_returns full now hroom hcmds hcut.valid hstop hcut.split hend⟩
    intro fuel hshort
    obtain ⟨-, hends⟩ := (hrun fuel).2 _ hshort
    obtain ⟨p, hp, hinvalid⟩ := (hends.error _).1 rfl
    exact hinvalid.ne_bufferTooShort (GatewayError.protocol.inj hp).symm
  · intro msgs cmds henc hcmds hbytes fuel r hr
    exact handleClient_encoded full now fuel henc hcmds hbytes hend hr

/-- A cancellation that finds the ring full once, and the first byte of another message. -/
theorem stream_framing_unfinished :
    (handleClient (fun k => k = 0) (fun _ => 9) 5
        (accept [2, 0, 0, 0, 0, 0, 0, 0, 5, 0, 0, 0, 0, 0, 0, 0, 1] .unexpectedEof)).1.pushed =
      [.cancelOrder 5] ∧
    (handleClient (fun k => k = 0) (fun _ => 9) 5
        (accept [2, 0, 0, 0, 0, 0, 0, 0, 5, 0, 0, 0, 0, 0, 0, 0, 1] .unexpectedEof)).2 =
      some (.ok ()) ∧
    ∃ frames rest cmds,
      Cut [2, 0, 0, 0, 0, 0, 0, 0, 5, 0, 0, 0, 0, 0, 0, 0, 1] frames rest ∧ Carries frames cmds ∧
      Receives (fun k => k = 0) (fun _ => 9)
        [2, 0, 0, 0, 0, 0, 0, 0, 5, 0, 0, 0, 0, 0, 0, 0, 1] .unexpectedEof cmds rest :=
  ⟨by decide +kernel, by decide +kernel,
    (stream_framing (fun k => k = 0) (fun _ => 9) _ (by decide)).1⟩

end Connection

end Ferrox
