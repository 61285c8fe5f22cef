import Ferrox.RingFifo

/-!
# The ring as a bounded queue

Calls of `push` and `pop` one after the other, with nobody in between. A call is the steps of
`Ferrox.Ring` from its start to its return; a thread that is alone with the ring loads what was
stored last. Then the ring is a queue of bounded length (`ring_eq_queue`), whether it looks at the
other side's cursor in every call or only when its own copy says so: the copy can only be behind, so
that it never hides a full or an empty ring, and when it claims one the cursor itself is loaded.
Positions grow without bound, so that no call is special where the 64-bit cursors wrap.
-/

namespace Ferrox

universe u

open Circular

variable {T : Type u}

/-! ## The bounded queue -/

inductive Call (T : Type u) where
  | push (value : T)
  | pop
deriving DecidableEq

/-- What a call returns. -/
inductive Returned (T : Type u) where
  | push (result : Except (Full T) Unit)
  | pop (result : Except Empty T)
deriving DecidableEq

namespace Queue

/-- A call on a queue that holds at most `c` values. -/
def call (c : Nat) (q : List T) : Call T → List T × Returned T
  | .push value =>
      if q.length = c then (q, .push (.error ⟨value⟩)) else (q ++ [value], .push (.ok ()))
  | .pop =>
      match q with
      | [] => ([], .pop (.error .empty))
      | value :: q => (q, .pop (.ok value))

/-- What calls return, one after the other. -/
def calls (c : Nat) : List T → List (Call T) → List (Returned T)
  | _, [] => []
  | q, op :: ops => (call c q op).2 :: calls c (call c q op).1 ops

end Queue

/-! ## Calls without interference -/

namespace Ring

variable (noCursorCache : Bool) {c : UInt64} {s : Ring T} {q : List T} {value : T}

/-- The producer goes on with its call, alone. -/
def producerStep (s : Ring T) : Option (Ring T) :=
  match s.producer.phase with
  | .idle => some s
  | .loadTail _ => s.loadTail (s.inner.tail.stores.length - 1)
  | .writeSlot _ => s.writeSlot
  | .storeHead _ => s.storeHead

/-- The consumer goes on with its call, alone. -/
def consumerStep (s : Ring T) : Option (Ring T) :=
  match s.consumer.phase with
  | .idle => some s
  | .loadHead => s.loadHead (s.inner.head.stores.length - 1)
  | .readSlot => s.readSlot
  | .storeTail _ => s.storeTail

/-- A call from its start to its return: three steps at most after the first one. -/
def call (s : Ring T) : Call T → Option (Ring T × Returned T)
  | .push value => do
      let s ← s.push noCursorCache value
      let s ← s.producerStep
      let s ← s.producerStep
      let s ← s.producerStep
      s.producer.result.map fun result => (s, .push result)
  | .pop => do
      let s ← s.pop noCursorCache
      let s ← s.consumerStep
      let s ← s.consumerStep
      let s ← s.consumerStep
      s.consumer.result.map fun result => (s, .pop result)

/-- What calls return, one after the other. -/
def calls (s : Ring T) : List (Call T) → Option (List (Returned T))
  | [] => some []
  | op :: ops =>
      match s.call noCursorCache op with
      | none => none
      | some (s, returned) => (calls s ops).map (returned :: ·)

/-! ## The simulation -/

/-- **Between two calls the ring holds the queue `q`.** -/
structure Holds (c : UInt64) (s : Ring T) (q : List T) : Prop where
  inv : Inv c s
  producer : s.producer.phase = .idle
  consumer : s.consumer.phase = .idle
  values : s.pushed.map (·.2) = s.popped.map (·.2) ++ q

theorem Holds.length (h : Holds c s q) : s.pushed.length = s.popped.length + q.length := by
  simpa using congrArg List.length h.values

theorem load_last {a : AtomicUsize} {n : Nat} (h : a.stores = cursors (n + 1)) :
    a.stores.length - 1 = n ∧ a.load (a.stores.length - 1) = some (UInt64.ofNat n) := by
  have hlen : a.stores.length - 1 = n := by
    rw [h, cursors, List.length_map, List.length_range, Nat.add_sub_cancel]
  refine ⟨hlen, ?_⟩
  rw [hlen, AtomicUsize.load, h, cursors, List.getElem?_map, List.getElem?_range (by omega)]
  rfl

theorem write_and_store (h : Inv c s) (hpow : isPowerOfTwo c)
    (hphase : s.producer.phase = .writeSlot value) : ∃ s₁ s₂, s.producerStep = some s₁ ∧
      s₁.producerStep = some s₂ ∧ Inv c s₂ ∧ s₂.producer.phase = .idle ∧
      s₂.producer.result = some (.ok ()) ∧ s₂.consumer = s.consumer ∧
      s₂.pushed = s.pushed ++ [(s.producer.cachedHead, value)] ∧ s₂.popped = s.popped := by
  obtain ⟨slot, hslot, -⟩ := h.getElem?_writeSlot hpow hphase
  have hindex := (List.getElem?_eq_some_iff.1 hslot).1
  have hwrite : s.writeSlot = some { s with
      inner := { s.inner with
        buffer := s.inner.buffer.set (s.inner.slotIndex s.producer.cachedHead) (.live value) }
      producer := { s.producer with phase := .storeHead value } } := by
    simp only [Ring.writeSlot, hphase, if_pos hindex]
  have hstep : s.producerStep = s.writeSlot := by rw [producerStep, hphase]
  exact ⟨_, _, hstep.trans hwrite, rfl, (h.writeSlot hpow hwrite).storeHead rfl, rfl, rfl, rfl, rfl,
    rfl⟩

theorem read_and_store (h : Inv c s) (hpow : isPowerOfTwo c)
    (hphase : s.consumer.phase = .readSlot) : ∃ s₁ s₂ value unread,
      s.written = s.popped ++ (s.consumer.cachedTail, value) :: unread ∧
      s.consumerStep = some s₁ ∧ s₁.consumerStep = some s₂ ∧ Inv c s₂ ∧
      s₂.consumer.phase = .idle ∧ s₂.consumer.result = some (.ok value) ∧
      s₂.producer = s.producer ∧ s₂.pushed = s.pushed ∧
      s₂.popped = s.popped ++ [(s.consumer.cachedTail, value)] := by
  obtain ⟨value, unread, hunread, hwindow⟩ := h.exists_unread hphase
  have hslot := h.getElem?_readSlot hpow hwindow
  have hread : s.readSlot = some { s with
      inner := { s.inner with
        buffer := s.inner.buffer.set (s.inner.slotIndex s.consumer.cachedTail) (.taken value) }
      consumer := { s.consumer with phase := .storeTail value } } := by
    simp only [Ring.readSlot, hphase, hslot, Option.bind_some, Slot.read]
  have hstep : s.consumerStep = s.readSlot := by rw [consumerStep, hphase]
  exact ⟨_, _, value, unread, hunread, hstep.trans hread, rfl,
    (h.readSlot hpow hread).storeTail rfl, rfl, rfl, rfl, rfl, rfl⟩

theorem producerStep_idle (h : s.producer.phase = .idle) : s.producerStep = some s := by
  rw [producerStep, h]

theorem consumerStep_idle (h : s.consumer.phase = .idle) : s.consumerStep = some s := by
  rw [consumerStep, h]

/-- The distance to the tail itself says whether the queue is full, ... -/
theorem Holds.full_iff (h : Holds c s q) :
    s.producer.cachedHead - UInt64.ofNat s.popped.length = s.inner.capacity ↔
      q.length = c.toNat := by
  have hlen := h.length
  have hle := h.inv.outstanding_le
  rw [h.inv.producerHead, h.inv.capacity,
    sub_eq_iff (by omega) (Inv.lt_word (c := c) (by omega)), hlen, Nat.add_sub_cancel_left]

/-- ... and the producer's copy of it never hides a full one. -/
theorem Holds.not_full (h : Holds c s q)
    (hcopy : s.producer.cachedHead - s.producer.cachedTail ≠ s.inner.capacity) :
    q.length ≠ c.toNat := by
  have hlen := h.length
  have hseen := h.inv.tailSeen_le
  have hpushed := h.inv.pushed_le
  rw [h.inv.producerHead, h.inv.producerTail, h.inv.capacity, Ne,
    sub_eq_iff (by omega) (Inv.lt_word (c := c) (by omega))] at hcopy
  omega

theorem Holds.accepted (h : Holds c s q) (hpow : isPowerOfTwo c) {s₁ : Ring T} (hinv : Inv c s₁)
    (hphase : s₁.producer.phase = .writeSlot value) (hconsumer : s₁.consumer = s.consumer)
    (hpushed : s₁.pushed = s.pushed) (hpopped : s₁.popped = s.popped) :
    ∃ s₂ s₃, s₁.producerStep = some s₂ ∧ s₂.producerStep = some s₃ ∧
      s₃.producer.result = some (.ok ()) ∧ Holds c s₃ (q ++ [value]) := by
  obtain ⟨s₂, s₃, h₂, h₃, hinv₃, hidle, hresult, hconsumer₃, hpushed₃, hpopped₃⟩ :=
    write_and_store hinv hpow hphase
  refine ⟨s₂, s₃, h₂, h₃, hresult, hinv₃, hidle, ?_, ?_⟩
  · rw [hconsumer₃, hconsumer, h.consumer]
  · rw [hpushed₃, hpushed, hpopped₃, hpopped, List.map_append, h.values, List.append_assoc]
    rfl

theorem Holds.producerStep_loadTail (h : Holds c s q) (value : T) :
    producerStep { s with
        producer := { s.producer with phase := .loadTail value, result := none } } =
      some { s with
        producer := { s.producer with
          cachedTail := UInt64.ofNat s.popped.length
          phase := if q.length = c.toNat then .idle else .writeSlot value
          result := if q.length = c.toNat then some (.error ⟨value⟩) else none }
        tailSeen := s.inner.tail.stores.length - 1 } := by
  obtain ⟨hlast, hload⟩ := load_last h.inv.tail
  have hseen := h.inv.tailSeen_le
  rw [← hlast] at hseen
  by_cases hfull : q.length = c.toNat
  · simp only [producerStep, Ring.loadTail, if_pos hseen, hload, if_pos (h.full_iff.2 hfull),
      if_pos hfull]
  · simp only [producerStep, Ring.loadTail, if_pos hseen, hload,
      if_neg (fun heq => hfull (h.full_iff.1 heq)), if_neg hfull]

/-- **A call of `push`** does and returns what the queue's does. -/
theorem Holds.push (h : Holds c s q) (hpow : isPowerOfTwo c) (value : T) :
    ∃ s', s.call noCursorCache (.push value) =
        some (s', (Queue.call c.toNat q (.push value)).2) ∧
      Holds c s' (Queue.call c.toNat q (.push value)).1 := by
  by_cases hcopy : noCursorCache ∨
      s.producer.cachedHead - s.producer.cachedTail = s.inner.capacity
  · -- the tail is loaded
    have hpush : s.push noCursorCache value = some { s with
        producer := { s.producer with phase := .loadTail value, result := none } } := by
      simp only [Ring.push, h.producer, if_pos hcopy]
    have hstep := h.producerStep_loadTail value
    by_cases hfull : q.length = c.toNat
    · simp only [if_pos hfull] at hstep
      rw [Queue.call, if_pos hfull]
      refine ⟨_, ?_, (h.inv.push hpush).loadTail hstep, rfl, h.consumer, h.values⟩
      simp only [call, hpush, hstep, producerStep_idle, Option.bind_eq_bind, Option.bind_some,
        Option.map_some]
    · simp only [if_neg hfull] at hstep
      obtain ⟨s₂, s₃, h₂, h₃, hresult, hholds⟩ :=
        h.accepted hpow ((h.inv.push hpush).loadTail hstep) rfl rfl rfl rfl
      refine ⟨s₃, ?_, by rwa [Queue.call, if_neg hfull]⟩
      simp only [call, hpush, hstep, h₂, h₃, hresult, Queue.call, if_neg hfull,
        Option.bind_eq_bind, Option.bind_some, Option.map_some]
  · -- the copy of the tail shows that there is room
    have hpush : s.push noCursorCache value = some { s with
        producer := { s.producer with phase := .writeSlot value, result := none } } := by
      simp only [Ring.push, h.producer, if_neg hcopy]
    have hroom := h.not_full (not_or.1 hcopy).2
    obtain ⟨s₂, s₃, h₂, h₃, hresult, hholds⟩ := h.accepted hpow (h.inv.push hpush) rfl rfl rfl rfl
    refine ⟨s₃, ?_, by rwa [Queue.call, if_neg hroom]⟩
    simp only [call, hpush, h₂, h₃, producerStep_idle hholds.producer, hresult, Queue.call,
      if_neg hroom, Option.bind_eq_bind, Option.bind_some, Option.map_some]

/-- The head itself says whether the queue is empty. -/
theorem Holds.empty_iff (h : Holds c s q) :
    s.consumer.cachedTail = UInt64.ofNat s.pushed.length ↔ q = [] := by
  have hlen := h.length
  have hle := h.inv.outstanding_le
  rw [h.inv.consumerTail, ofNat_eq_iff (by omega) (Inv.lt_word (c := c) (by omega)), hlen,
    ← List.length_eq_zero_iff]
  omega

theorem Holds.taken (h : Holds c s q) (hpow : isPowerOfTwo c) {s₁ : Ring T} (hinv : Inv c s₁)
    (hphase : s₁.consumer.phase = .readSlot) (hproducer : s₁.producer = s.producer)
    (hpushed : s₁.pushed = s.pushed) (hpopped : s₁.popped = s.popped) :
    ∃ value q' s₂ s₃, q = value :: q' ∧ s₁.consumerStep = some s₂ ∧ s₂.consumerStep = some s₃ ∧
      s₃.consumer.result = some (.ok value) ∧ Holds c s₃ q' := by
  obtain ⟨s₂, s₃, value, unread, hunread, h₂, h₃, hinv₃, hidle, hresult, hproducer₃, hpushed₃,
    hpopped₃⟩ := read_and_store hinv hpow hphase
  rw [written_eq_pushed (by simp [hproducer, h.producer]), hpushed, hpopped] at hunread
  have hq : q = value :: unread.map (·.2) := by
    have hvalues := h.values
    rw [hunread, List.map_append, List.append_cancel_left_eq] at hvalues
    exact hvalues.symm
  refine ⟨value, unread.map (·.2), s₂, s₃, hq, h₂, h₃, hresult, hinv₃, ?_, hidle, ?_⟩
  · rw [hproducer₃, hproducer, h.producer]
  · rw [hpushed₃, hpushed, hpopped₃, hpopped, List.map_append, h.values, hq, List.append_assoc]
    rfl

theorem Holds.consumerStep_loadHead (h : Holds c s q) :
    consumerStep { s with consumer := { s.consumer with phase := .loadHead, result := none } } =
      some { s with
        consumer := { s.consumer with
          cachedHead := UInt64.ofNat s.pushed.length
          phase := if q = [] then .idle else .readSlot
          result := if q = [] then some (.error .empty) else none }
        headSeen := s.inner.head.stores.length - 1 } := by
  obtain ⟨hlast, hload⟩ := load_last h.inv.head
  have hseen := h.inv.headSeen_le
  rw [← hlast] at hseen
  by_cases hempty : q = []
  · simp only [consumerStep, Ring.loadHead, if_pos hseen, hload, if_pos (h.empty_iff.2 hempty),
      if_pos hempty]
  · simp only [consumerStep, Ring.loadHead, if_pos hseen, hload,
      if_neg (fun heq => hempty (h.empty_iff.1 heq)), if_neg hempty]

/-- **A call of `pop`** does and returns what the queue's does. -/
theorem Holds.pop (h : Holds c s q) (hpow : isPowerOfTwo c) :
    ∃ s', s.call noCursorCache .pop = some (s', (Queue.call c.toNat q .pop).2) ∧
      Holds c s' (Queue.call c.toNat q .pop).1 := by
  by_cases hcopy : noCursorCache ∨ s.consumer.cachedTail = s.consumer.cachedHead
  · -- the head is loaded
    have hpop : s.pop noCursorCache = some { s with
        consumer := { s.consumer with phase := .loadHead, result := none } } := by
      simp only [Ring.pop, h.consumer, if_pos hcopy]
    have hstep := h.consumerStep_loadHead
    by_cases hempty : q = []
    · simp only [if_pos hempty] at hstep
      subst hempty
      refine ⟨_, ?_, (h.inv.pop hpop).loadHead hstep, h.producer, rfl, h.values⟩
      simp only [call, hpop, hstep, consumerStep_idle, Queue.call, Option.bind_eq_bind,
        Option.bind_some, Option.map_some]
    · simp only [if_neg hempty] at hstep
      obtain ⟨value, q', s₂, s₃, rfl, h₂, h₃, hresult, hholds⟩ :=
        h.taken hpow ((h.inv.pop hpop).loadHead hstep) rfl rfl rfl rfl
      refine ⟨s₃, ?_, hholds⟩
      simp only [call, hpop, hstep, h₂, h₃, hresult, Queue.call, Option.bind_eq_bind,
        Option.bind_some, Option.map_some]
  · -- the copy of the head shows that there is something
    have hpop : s.pop noCursorCache = some { s with
        consumer := { s.consumer with phase := .readSlot, result := none } } := by
      simp only [Ring.pop, h.consumer, if_neg hcopy]
    obtain ⟨value, q', s₂, s₃, rfl, h₂, h₃, hresult, hholds⟩ :=
      h.taken hpow (h.inv.pop hpop) rfl rfl rfl rfl
    refine ⟨s₃, ?_, hholds⟩
    simp only [call, hpop, h₂, h₃, consumerStep_idle hholds.consumer, hresult, Queue.call,
      Option.bind_eq_bind, Option.bind_some, Option.map_some]

theorem Holds.calls (h : Holds c s q) (hpow : isPowerOfTwo c) (ops : List (Call T)) :
    s.calls noCursorCache ops = some (Queue.calls c.toNat q ops) := by
  induction ops generalizing s q with
  | nil => rfl
  | cons op ops ih =>
    obtain ⟨s', hcall, hholds⟩ : ∃ s', s.call noCursorCache op =
        some (s', (Queue.call c.toNat q op).2) ∧ Holds c s' (Queue.call c.toNat q op).1 := by
      cases op with
      | push value => exact h.push noCursorCache hpow value
      | pop => exact h.pop noCursorCache hpow
    rw [Ring.calls, hcall]
    simp only [ih hholds, Option.map_some, Queue.calls]

/-- **The ring is a bounded queue**, with and without cached cursors: from a new ring, calls return
what the queue of its capacity returns. -/
theorem ring_eq_queue (hpow : isPowerOfTwo c) : ∃ s, ringBuffer T c = some s ∧
    ∀ ops, s.calls noCursorCache ops = some (Queue.calls c.toNat [] ops) := by
  have hpos : c > 0 := by
    obtain ⟨k, -, hk⟩ := hpow
    exact UInt64.lt_iff_toNat_lt.2 (hk ▸ Nat.two_pow_pos k)
  obtain ⟨s, hs⟩ : ∃ s, ringBuffer T c = some s := by
    rw [ringBuffer, if_pos hpos, if_pos hpow]
    exact ⟨_, rfl⟩
  refine ⟨s, hs, fun ops => ?_⟩
  have hinv := (inv_ringBuffer hs).2
  rw [ringBuffer, if_pos hpos, if_pos hpow] at hs
  obtain rfl := Option.some.inj hs
  exact Holds.calls noCursorCache ⟨hinv, rfl, rfl, rfl⟩ hpow ops

/-- A ring of one slot without cached cursors: a push that is refused, and two pops. -/
theorem ring_eq_queue_one : ∃ s, ringBuffer Nat 1 = some s ∧
    s.calls true [.push 5, .push 6, .pop, .pop] =
      some [.push (.ok ()), .push (.error ⟨6⟩), .pop (.ok 5), .pop (.error .empty)] := by
  obtain ⟨s, hs, hcalls⟩ := ring_eq_queue (T := Nat) true (c := 1) (by decide)
  exact ⟨s, hs, hcalls [.push 5, .push 6, .pop, .pop]⟩

end Ring

end Ferrox
