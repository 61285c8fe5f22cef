import Ferrox.ShutdownProof

/-!
# Calls of the ring return

A call of `push` or `pop` has a fixed number of steps ahead of it, and only its own thread makes
them. Each one can be made when its turn comes: a load finds a store to see, the slot that is
written is one of the buffer, and the slot that is read has been written. So a call returns after at
most three more steps of its thread, whatever the other thread does or leaves undone in between
(`waitFree_of_reachable`). A call whose loads see the latest stores returns what the ring has: `pop`
fails only if nothing is left (`Inv.finish_pop`), and `push` only if there is no room
(`Inv.finish_push`).
-/

namespace Ferrox

open Circular

variable {T : Type}

instance (event : RingEvent T) : Decidable event.byProducer :=
  match event with
  | .push _ | .loadTail _ | .writeSlot | .storeHead => isTrue trivial
  | .pop | .loadHead _ | .readSlot | .storeTail => isFalse id

/-! ## What a call has ahead of it -/

namespace PushPhase

/-- The steps that a call of `push` still makes, at most. -/
def left : PushPhase T → Nat
  | .idle => 0
  | .loadTail _ => 3
  | .writeSlot _ => 2
  | .storeHead _ => 1

/-- The next one, with a load that sees store number `i`. -/
def next (i : Nat) : PushPhase T → Option (RingEvent T)
  | .idle => none
  | .loadTail _ => some (.loadTail i)
  | .writeSlot _ => some .writeSlot
  | .storeHead _ => some .storeHead

end PushPhase

namespace PopPhase

/-- The steps that a call of `pop` still makes, at most. -/
def left : PopPhase T → Nat
  | .idle => 0
  | .loadHead => 3
  | .readSlot => 2
  | .storeTail _ => 1

/-- The next one, with a load that sees store number `i`. -/
def next (i : Nat) : PopPhase T → Option (RingEvent T)
  | .idle => none
  | .loadHead => some (.loadHead i)
  | .readSlot => some .readSlot
  | .storeTail _ => some .storeTail

end PopPhase

namespace Ring

variable {noCursorCache : Bool} {c : UInt64} {s s' : Ring T} {event : RingEvent T}

/-! ## The next step can be made -/

theorem load_of_le {a : AtomicUsize} {n i : Nat} (h : a.stores = cursors (n + 1)) (hi : i ≤ n) :
    a.load i = some (UInt64.ofNat i) := by
  rw [AtomicUsize.load, h, cursors, List.getElem?_map, List.getElem?_range (by omega)]
  rfl

/-- **The producer is never stuck**, whichever store its load sees. -/
theorem Inv.producer_next (h : Inv c s) (hpow : isPowerOfTwo c) {i : Nat} (hseen : s.tailSeen ≤ i)
    (hi : i ≤ s.popped.length) (hevent : event ∈ s.producer.phase.next i) :
    ∃ s', s.step noCursorCache event = some s' := by
  cases hphase : s.producer.phase with
  | idle =>
    rw [hphase] at hevent
    cases hevent
  | loadTail value =>
    rw [hphase] at hevent
    cases hevent
    show ∃ s', s.loadTail i = some s'
    simp only [Ring.loadTail, hphase, if_pos hseen, load_of_le h.tail hi]
    split_ifs
    · exact ⟨_, rfl⟩
    · exact ⟨_, rfl⟩
  | writeSlot value =>
    rw [hphase] at hevent
    cases hevent
    obtain ⟨slot, hslot, -⟩ := h.getElem?_writeSlot hpow hphase
    have hindex := (List.getElem?_eq_some_iff.1 hslot).1
    show ∃ s', s.writeSlot = some s'
    simp only [Ring.writeSlot, hphase, if_pos hindex]
    exact ⟨_, rfl⟩
  | storeHead value =>
    rw [hphase] at hevent
    cases hevent
    show ∃ s', s.storeHead = some s'
    simp only [Ring.storeHead, hphase]
    exact ⟨_, rfl⟩

/-- **The consumer is never stuck**, and never reads a slot that was not written. -/
theorem Inv.consumer_next (h : Inv c s) (hpow : isPowerOfTwo c) {i : Nat} (hseen : s.headSeen ≤ i)
    (hi : i ≤ s.pushed.length) (hevent : event ∈ s.consumer.phase.next i) :
    ∃ s', s.step noCursorCache event = some s' := by
  cases hphase : s.consumer.phase with
  | idle =>
    rw [hphase] at hevent
    cases hevent
  | loadHead =>
    rw [hphase] at hevent
    cases hevent
    show ∃ s', s.loadHead i = some s'
    simp only [Ring.loadHead, hphase, if_pos hseen, load_of_le h.head hi]
    split_ifs
    · exact ⟨_, rfl⟩
    · exact ⟨_, rfl⟩
  | readSlot =>
    rw [hphase] at hevent
    cases hevent
    obtain ⟨value, unread, -, hwindow⟩ := h.exists_unread hphase
    show ∃ s', s.readSlot = some s'
    simp only [Ring.readSlot, hphase, h.getElem?_readSlot hpow hwindow, Option.bind_some, Slot.read]
    exact ⟨_, rfl⟩
  | storeTail value =>
    rw [hphase] at hevent
    cases hevent
    show ∃ s', s.storeTail = some s'
    simp only [Ring.storeTail, hphase]
    exact ⟨_, rfl⟩

/-! ## Each step brings the call closer to its end -/

theorem left_producer_step (hevent : event.byProducer) (hcall : ∀ value, event ≠ .push value)
    (hs : s.step noCursorCache event = some s') :
    s'.producer.phase.left < s.producer.phase.left ∧
      (s'.producer.phase = .idle → s'.producer.result ≠ none) := by
  cases event with
  | push value => exact absurd rfl (hcall value)
  | loadTail i =>
    obtain ⟨value, tail, hphase, -, -, ⟨-, rfl⟩ | ⟨-, rfl⟩⟩ := loadTail_cases hs
    · simp [hphase, PushPhase.left]
    · simp [hphase, PushPhase.left]
  | writeSlot =>
    obtain ⟨value, hphase, rfl⟩ := writeSlot_cases hs
    simp [hphase, PushPhase.left]
  | storeHead =>
    obtain ⟨value, hphase, rfl⟩ := storeHead_cases hs
    simp [hphase, PushPhase.left]
  | _ => cases hevent

theorem left_consumer_step (hevent : ¬ event.byProducer) (hcall : event ≠ .pop)
    (hs : s.step noCursorCache event = some s') :
    s'.consumer.phase.left < s.consumer.phase.left ∧
      (s'.consumer.phase = .idle → s'.consumer.result ≠ none) := by
  cases event with
  | pop => exact absurd rfl hcall
  | loadHead i =>
    obtain ⟨head, hphase, -, -, ⟨-, rfl⟩ | ⟨-, rfl⟩⟩ := loadHead_cases hs
    · simp [hphase, PopPhase.left]
    · simp [hphase, PopPhase.left]
  | readSlot =>
    obtain ⟨slot, value, slot', hphase, -, -, rfl⟩ := readSlot_cases hs
    simp [hphase, PopPhase.left]
  | storeTail =>
    obtain ⟨value, hphase, rfl⟩ := storeTail_cases hs
    simp [hphase, PopPhase.left]
  | _ => exact absurd trivial hevent

/-! ## Calls and the steps they take -/

/-- **Steps of a call of `push` in a run**: as many as it comes closer to its end. -/
theorem left_producer_run {events : List (RingEvent T)} (hcall : ∀ value, .push value ∉ events)
    (hreturned : s.producer.phase = .idle → s.producer.result ≠ none)
    (hrun : s.run noCursorCache events = some s') :
    events.countP (·.byProducer) + s'.producer.phase.left ≤ s.producer.phase.left ∧
      (s'.producer.phase = .idle → s'.producer.result ≠ none) := by
  induction events generalizing s with
  | nil =>
    obtain rfl := Option.some.inj hrun
    exact ⟨by simp, hreturned⟩
  | cons event events ih =>
    obtain ⟨s₁, hs, hrun⟩ := run_cons hrun
    have hevents : ∀ value, .push value ∉ events := fun value hmem =>
      hcall value (List.mem_cons_of_mem _ hmem)
    by_cases hevent : event.byProducer
    · have hne : ∀ value, event ≠ .push value := by
        intro value heq
        exact hcall value (heq ▸ List.mem_cons_self)
      obtain ⟨hlt, hreturned₁⟩ := left_producer_step hevent hne hs
      obtain ⟨hle, hreturned'⟩ := ih hevents hreturned₁ hrun
      rw [List.countP_cons_of_pos (by simpa using hevent)]
      exact ⟨by omega, hreturned'⟩
    · have hproducer := producer_eq_of_step hevent hs
      rw [← hproducer] at hreturned ⊢
      rw [List.countP_cons_of_neg (by simpa using hevent)]
      exact ih hevents hreturned hrun

theorem left_consumer_run {events : List (RingEvent T)} (hcall : .pop ∉ events)
    (hreturned : s.consumer.phase = .idle → s.consumer.result ≠ none)
    (hrun : s.run noCursorCache events = some s') :
    events.countP (¬ ·.byProducer) + s'.consumer.phase.left ≤ s.consumer.phase.left ∧
      (s'.consumer.phase = .idle → s'.consumer.result ≠ none) := by
  induction events generalizing s with
  | nil =>
    obtain rfl := Option.some.inj hrun
    exact ⟨by simp, hreturned⟩
  | cons event events ih =>
    obtain ⟨s₁, hs, hrun⟩ := run_cons hrun
    have hevents : .pop ∉ events := fun hmem => hcall (List.mem_cons_of_mem _ hmem)
    by_cases hevent : event.byProducer
    · have hconsumer := (consumer_eq_of_step hevent hs).1
      rw [← hconsumer] at hreturned ⊢
      rw [List.countP_cons_of_neg (by simpa using hevent)]
      exact ih hevents hreturned hrun
    · have hne : event ≠ .pop := by
        intro heq
        exact hcall (heq ▸ List.mem_cons_self)
      obtain ⟨hlt, hreturned₁⟩ := left_consumer_step hevent hne hs
      obtain ⟨hle, hreturned'⟩ := ih hevents hreturned₁ hrun
      rw [List.countP_cons_of_pos (by simpa using hevent)]
      exact ⟨by omega, hreturned'⟩

/-- **A call of `push` is wait-free** where the run has got to `s'` since it was made: it has made
at most three steps less those it has left, it has returned if it has none left, and it can make the
next one, whichever store a load sees. There is always a store that it may see. -/
structure PushWaitFree (noCursorCache : Bool) (events : List (RingEvent T)) (s' : Ring T) :
    Prop where
  steps : events.countP (·.byProducer) + s'.producer.phase.left ≤ 3
  returned : s'.producer.phase = .idle → s'.producer.result ≠ none
  visible : s'.tailSeen ≤ s'.popped.length
  next : ∀ i, s'.tailSeen ≤ i → i ≤ s'.popped.length →
    ∀ event ∈ s'.producer.phase.next i, ∃ s'', s'.step noCursorCache event = some s''

/-- The same for a call of `pop`. -/
structure PopWaitFree (noCursorCache : Bool) (events : List (RingEvent T)) (s' : Ring T) :
    Prop where
  steps : events.countP (¬ ·.byProducer) + s'.consumer.phase.left ≤ 3
  returned : s'.consumer.phase = .idle → s'.consumer.result ≠ none
  visible : s'.headSeen ≤ s'.pushed.length
  next : ∀ i, s'.headSeen ≤ i → i ≤ s'.pushed.length →
    ∀ event ∈ s'.consumer.phase.next i, ∃ s'', s'.step noCursorCache event = some s''

/-- **The ring is wait-free.** In every interleaving, a call of either end returns after at most
three more steps of its thread, however many steps the other thread makes meanwhile, and until then
its next step can be made. -/
theorem waitFree_of_reachable (h : Reachable noCursorCache c s) {s₁ : Ring T}
    {events : List (RingEvent T)} (hrun : s₁.run noCursorCache events = some s') :
    (∀ value, s.push noCursorCache value = some s₁ → (∀ v, .push v ∉ events) →
      PushWaitFree noCursorCache events s') ∧
    (s.pop noCursorCache = some s₁ → .pop ∉ events → PopWaitFree noCursorCache events s') := by
  obtain ⟨hpow, hinv⟩ := h.inv
  constructor
  · intro value hpush hcall
    have hinv' : Inv c s' := (hinv.push hpush).run hpow hrun
    obtain ⟨-, phase, hphase, rfl⟩ := push_cases hpush
    have hleft : phase.left ≤ 3 ∧ phase ≠ .idle := by
      obtain rfl | ⟨rfl, -⟩ := hphase
      · simp [PushPhase.left]
      · simp [PushPhase.left]
    obtain ⟨hsteps, hreturned⟩ := left_producer_run hcall (fun hidle => absurd hidle hleft.2) hrun
    exact ⟨hsteps.trans hleft.1, hreturned, hinv'.tailSeen_le, fun i hseen hi event hevent =>
      hinv'.producer_next hpow hseen hi hevent⟩
  · intro hpop hcall
    have hinv' : Inv c s' := (hinv.pop hpop).run hpow hrun
    obtain ⟨-, phase, hphase, rfl⟩ := pop_cases hpop
    have hleft : phase.left ≤ 3 ∧ phase ≠ .idle := by
      obtain rfl | ⟨rfl, -⟩ := hphase
      · simp [PopPhase.left]
      · simp [PopPhase.left]
    obtain ⟨hsteps, hreturned⟩ := left_consumer_run hcall (fun hidle => absurd hidle hleft.2) hrun
    exact ⟨hsteps.trans hleft.1, hreturned, hinv'.headSeen_le, fun i hseen hi event hevent =>
      hinv'.consumer_next hpow hseen hi hevent⟩

/-- A push that is overtaken by a whole pop. -/
theorem waitFree_of_reachable_overtaken : ∃ s s₁ s' : Ring Nat,
    Reachable true 2 s ∧ s.push true 8 = some s₁ ∧
    s₁.run true [.pop, .loadHead 1, .readSlot, .loadTail 0, .storeTail, .writeSlot] = some s' ∧
    PushWaitFree true [.pop, .loadHead 1, .readSlot, .loadTail 0, .storeTail, .writeSlot] s' := by
  obtain ⟨s₀, hmade⟩ : ∃ s₀, ringBuffer Nat 2 = some s₀ := ⟨_, rfl⟩
  have hend : ((ringBuffer Nat 2).bind fun s₀ => s₀.run true
      [.push 7, .loadTail 0, .writeSlot, .storeHead]).bind (fun s => (s.push true 8).bind fun s₁ =>
        s₁.run true [.pop, .loadHead 1, .readSlot, .loadTail 0, .storeTail, .writeSlot]) ≠
          none := by decide +kernel
  obtain ⟨s', hs'⟩ := Option.ne_none_iff_exists'.1 hend
  obtain ⟨s, hs, hrun⟩ := Option.bind_eq_some_iff.1 hs'
  obtain ⟨s₁, hpush, hrun⟩ := Option.bind_eq_some_iff.1 hrun
  rw [hmade] at hs
  have hreach : Reachable true 2 s := ⟨s₀, _, hmade, hs⟩
  exact ⟨s, s₁, s', hreach, hpush, hrun,
    (waitFree_of_reachable hreach hrun).1 8 hpush (by simp)⟩

end Ring

/-! ## Calls that see the latest stores -/

/-- A step inside a call; a load of the head sees store number `heads`. -/
def RingEvent.Inside (heads : Nat) : RingEvent T → Prop
  | .push _ | .pop => False
  | .loadHead i => i = heads
  | _ => True

namespace Ring

variable {noCursorCache : Bool} {c : UInt64} {s s' : Ring T}

/-- **A call of `pop` goes on to its end.** -/
structure PopEnds (noCursorCache : Bool) (s : Ring T) (events : List (RingEvent T)) (s' : Ring T) :
    Prop where
  run : s.run noCursorCache events = some s'
  inside : ∀ event ∈ events, event.Inside s.pushed.length
  idle : s'.consumer.phase = .idle
  producer : s'.producer = s.producer
  pushed : s'.pushed = s.pushed

theorem PopEnds.nil (hidle : s.consumer.phase = .idle) : PopEnds noCursorCache s [] s :=
  ⟨rfl, nofun, hidle, rfl, rfl⟩

theorem PopEnds.cons {event : RingEvent T} {s₁ : Ring T} {events : List (RingEvent T)}
    (hs : s.step noCursorCache event = some s₁) (hevent : event.Inside s.pushed.length)
    (hproducer : s₁.producer = s.producer) (hpushed : s₁.pushed = s.pushed)
    (h : PopEnds noCursorCache s₁ events s') : PopEnds noCursorCache s (event :: events) s' := by
  refine ⟨?_, ?_, h.idle, h.producer.trans hproducer, h.pushed.trans hpushed⟩
  · rw [Ring.run, hs]
    exact h.run
  · intro e he
    rcases List.mem_cons.1 he with rfl | he
    · exact hevent
    · exact hpushed ▸ h.inside e he

theorem finish_storeTail {value : T} (hphase : s.consumer.phase = .storeTail value) :
    ∃ events s', PopEnds noCursorCache s events s' ∧ s'.consumer.result = some (.ok value) ∧
      s'.popped.length = s.popped.length + 1 := by
  obtain ⟨s', hs⟩ : ∃ s', s.storeTail = some s' := by
    simp only [Ring.storeTail, hphase]
    exact ⟨_, rfl⟩
  obtain ⟨value', hphase', rfl⟩ := storeTail_cases hs
  obtain rfl : value' = value := by simpa [hphase] using hphase'.symm
  exact ⟨[.storeTail], _, .cons hs trivial rfl rfl (.nil rfl), rfl, by simp⟩

theorem Inv.finish_reading (h : Inv c s) (hpow : isPowerOfTwo c) (hreading : s.Reading) :
    ∃ events s' value, PopEnds noCursorCache s events s' ∧
      s'.consumer.result = some (.ok value) ∧ s'.popped.length = s.popped.length + 1 := by
  obtain hphase | ⟨value, hphase⟩ := hreading
  · have hnext : RingEvent.readSlot ∈ s.consumer.phase.next s.pushed.length := by
      rw [hphase]
      rfl
    obtain ⟨s₁, hs⟩ := h.consumer_next hpow h.headSeen_le (Nat.le_refl _) hnext
    obtain ⟨slot, value, slot', -, -, -, heq⟩ := readSlot_cases hs
    have hphase₁ : s₁.consumer.phase = .storeTail value := by rw [heq]
    obtain ⟨events, s', hends, hresult, hpopped⟩ := finish_storeTail hphase₁
    subst heq
    exact ⟨_, s', value, .cons hs trivial rfl rfl hends, hresult, hpopped⟩
  · obtain ⟨events, s', hends⟩ := finish_storeTail hphase
    exact ⟨events, s', value, hends⟩

/-- **A call of `pop` that sees the latest head** takes a value, or nothing is left. -/
theorem Inv.finish_pop (noCursorCache : Bool) (h : Inv c s) (hpow : isPowerOfTwo c)
    (hphase : s.consumer.phase ≠ .idle) :
    ∃ events s', PopEnds noCursorCache s events s' ∧
      ((s.popped.length < s.pushed.length ∧ s'.popped.length = s.popped.length + 1 ∧
          ∃ value, s'.consumer.result = some (.ok value)) ∨
        (s.popped.length = s.pushed.length ∧ s'.popped = s.popped ∧
          s'.consumer.result = some (.error .empty))) := by
  have hseen := h.headSeen_le
  have hle := h.popped_le
  by_cases hreading : s.Reading
  · obtain ⟨events, s', value, hends, hresult, hpopped⟩ := h.finish_reading hpow hreading
    have hlt := h.item hreading
    exact ⟨events, s', hends, Or.inl ⟨by omega, hpopped, value, hresult⟩⟩
  · have hload : s.consumer.phase = .loadHead := by
      cases hcase : s.consumer.phase with
      | idle => exact absurd hcase hphase
      | loadHead => rfl
      | readSlot => exact absurd (Or.inl hcase) hreading
      | storeTail value => exact absurd (Or.inr ⟨value, hcase⟩) hreading
    have hnext : RingEvent.loadHead s.pushed.length ∈ s.consumer.phase.next s.pushed.length := by
      rw [hload]
      rfl
    obtain ⟨s₁, hs⟩ := h.consumer_next hpow h.headSeen_le (Nat.le_refl _) hnext
    have hinv₁ : Inv c s₁ := h.step hpow hs
    have hbound := h.outstanding_le
    obtain ⟨head, -, -, hhead, ⟨heq, rfl⟩ | ⟨hne, rfl⟩⟩ := loadHead_cases hs
    · rw [load_of_le h.head (Nat.le_refl _)] at hhead
      obtain rfl := Option.some.inj hhead
      rw [h.consumerTail, ofNat_eq_iff (by omega) (Inv.lt_word (c := c) (by omega))] at heq
      exact ⟨_, _, .cons hs rfl rfl rfl (.nil rfl), Or.inr ⟨heq, rfl, rfl⟩⟩
    · rw [load_of_le h.head (Nat.le_refl _)] at hhead
      obtain rfl := Option.some.inj hhead
      rw [Ne, h.consumerTail, ofNat_eq_iff (by omega) (Inv.lt_word (c := c) (by omega))] at hne
      obtain ⟨events, s', value, hends, hresult, hpopped⟩ := hinv₁.finish_reading hpow (Or.inl rfl)
      exact ⟨_, s', .cons hs rfl rfl rfl hends, Or.inl ⟨by omega, hpopped, value, hresult⟩⟩

/-- **A call of `push` goes on to its end.** -/
structure PushEnds (noCursorCache : Bool) (s : Ring T) (events : List (RingEvent T)) (s' : Ring T) :
    Prop where
  run : s.run noCursorCache events = some s'
  inside : ∀ event ∈ events, event.Inside s.pushed.length ∧ event.byProducer
  idle : s'.producer.phase = .idle
  consumer : s'.consumer = s.consumer
  popped : s'.popped = s.popped

theorem PushEnds.nil (hidle : s.producer.phase = .idle) : PushEnds noCursorCache s [] s :=
  ⟨rfl, nofun, hidle, rfl, rfl⟩

theorem PushEnds.cons {event : RingEvent T} {s₁ : Ring T} {events : List (RingEvent T)}
    (hs : s.step noCursorCache event = some s₁)
    (hevent : event.byProducer ∧ ∀ value, event ≠ .push value)
    (h : PushEnds noCursorCache s₁ events s') : PushEnds noCursorCache s (event :: events) s' := by
  obtain ⟨hconsumer, hpopped⟩ := consumer_eq_of_step hevent.1 hs
  refine ⟨?_, ?_, h.idle, h.consumer.trans hconsumer, h.popped.trans hpopped⟩
  · rw [Ring.run, hs]
    exact h.run
  · have hinside : ∀ (e : RingEvent T) n n', e.byProducer → e.Inside n → e.Inside n' := by
      intro e n n' hby hin
      cases e with
      | loadHead i => cases hby
      | _ => exact hin
    intro e he
    rcases List.mem_cons.1 he with rfl | he
    · refine ⟨?_, hevent.1⟩
      cases e with
      | push value => exact absurd rfl (hevent.2 value)
      | pop => cases hevent.1
      | loadHead i => cases hevent.1
      | _ => trivial
    · obtain ⟨hin, hby⟩ := h.inside e he
      exact ⟨hinside e _ _ hby hin, hby⟩

theorem finish_storeHead {value : T} (hphase : s.producer.phase = .storeHead value) :
    ∃ events s', PushEnds noCursorCache s events s' ∧ s'.producer.result = some (.ok ()) := by
  obtain ⟨s', hs⟩ : ∃ s', s.storeHead = some s' := by
    simp only [Ring.storeHead, hphase]
    exact ⟨_, rfl⟩
  obtain ⟨value', -, rfl⟩ := storeHead_cases hs
  exact ⟨[.storeHead], _, .cons hs ⟨trivial, nofun⟩ (.nil rfl), rfl⟩

theorem Inv.finish_writing (h : Inv c s) (hpow : isPowerOfTwo c) (hwriting : s.Writing) :
    ∃ events s', PushEnds noCursorCache s events s' ∧ s'.producer.result = some (.ok ()) := by
  obtain ⟨value, hphase | hphase⟩ := hwriting
  · have hnext : RingEvent.writeSlot ∈ s.producer.phase.next s.popped.length := by
      rw [hphase]
      rfl
    obtain ⟨s₁, hs⟩ := h.producer_next hpow h.tailSeen_le (Nat.le_refl _) hnext
    obtain ⟨value, -, heq⟩ := writeSlot_cases hs
    have hphase₁ : s₁.producer.phase = .storeHead value := by rw [heq]
    obtain ⟨events, s', hends, hresult⟩ := finish_storeHead hphase₁
    exact ⟨_, s', .cons hs ⟨trivial, nofun⟩ hends, hresult⟩
  · exact finish_storeHead hphase

/-- **A call of `push` that sees the latest tail** hands over its value, when there is room. -/
theorem Inv.finish_push (noCursorCache : Bool) (h : Inv c s) (hpow : isPowerOfTwo c)
    (hphase : s.producer.phase ≠ .idle) (hroom : s.pushed.length < s.popped.length + c.toNat) :
    ∃ events s', PushEnds noCursorCache s events s' ∧ s'.producer.result = some (.ok ()) := by
  by_cases hwriting : s.Writing
  · exact h.finish_writing hpow hwriting
  · obtain ⟨value, hload⟩ : ∃ value, s.producer.phase = .loadTail value := by
      cases hcase : s.producer.phase with
      | idle => exact absurd hcase hphase
      | loadTail value => exact ⟨value, rfl⟩
      | writeSlot value => exact absurd ⟨value, Or.inl hcase⟩ hwriting
      | storeHead value => exact absurd ⟨value, Or.inr hcase⟩ hwriting
    have hnext : RingEvent.loadTail s.popped.length ∈ s.producer.phase.next s.popped.length := by
      rw [hload]
      rfl
    obtain ⟨s₁, hs⟩ := h.producer_next hpow h.tailSeen_le (Nat.le_refl _) hnext
    have hinv₁ : Inv c s₁ := h.step hpow hs
    have hle := h.fifo.length_le
    obtain ⟨value, tail, -, -, htail, ⟨heq, rfl⟩ | ⟨-, rfl⟩⟩ := loadTail_cases hs
    · rw [load_of_le h.tail (Nat.le_refl _)] at htail
      obtain rfl := Option.some.inj htail
      rw [h.producerHead, h.capacity,
        sub_eq_iff hle (Inv.lt_word (c := c) (by omega))] at heq
      omega
    · obtain ⟨events, s', hends, hresult⟩ := hinv₁.finish_writing hpow ⟨value, Or.inl rfl⟩
      exact ⟨_, s', .cons hs ⟨trivial, nofun⟩ hends, hresult⟩

end Ring

end Ferrox
