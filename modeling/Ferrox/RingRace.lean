import Ferrox.Lib.HappensBefore
import Ferrox.RingProof

/-!
# What the cursors' orderings are for

The slots of the ring are plain memory. What keeps the threads from racing for them are the
orderings of the cursor accesses: `STORE_ORDER` and `LOAD_ORDER`, which two build options change.
Here a run of the two threads leaves its trace, and the trace is checked for data races.

There is none in any run if the stores release and the loads acquire, by default and with
`ring_seqcst`. With `ring_relaxed_ordering` a run of one push and one pop has one, at any capacity:
the build is unsound, as its compile error says (`raceFree_iff`).

The proof counts. The producer makes its writes known by storing the head, the consumer its reads by
storing the tail, one at a time (`Handover`). A thread that acquires a cursor knows that many
accesses of the other one, and by the invariant of the ring these are all it has to know.
-/

namespace Ferrox

open Circular
open HappensBefore (RaceFree Handover Acquired)

universe u

/-! ## Traces -/

/-- The two ends of a ring. -/
inductive RingEnd where
  | producer
  | consumer
deriving DecidableEq

/-- The atomic locations of a ring. -/
inductive Cursor where
  | head
  | tail
deriving DecidableEq

/-- `STORE_ORDER`, in a build with these options. -/
def storeOrder (relaxedOrdering seqCst : Bool) : HappensBefore.Ordering :=
  if relaxedOrdering then .relaxed else if seqCst then .seqCst else .release

/-- `LOAD_ORDER`, in a build with these options. -/
def loadOrder (relaxedOrdering seqCst : Bool) : HappensBefore.Ordering :=
  if relaxedOrdering then .relaxed else if seqCst then .seqCst else .acquire

/-- A step of one end; the plain cells are the slots, by index. -/
abbrev Access := HappensBefore.Step RingEnd Cursor Nat

namespace Ring

variable {T : Type u} (noCursorCache relaxedOrdering seqCst : Bool)

/-- What a step does to memory. -/
def access (s : Ring T) : RingEvent T → Access
  | .push _ => ⟨.producer, .none⟩
  | .loadTail i => ⟨.producer, .load .tail i (loadOrder relaxedOrdering seqCst)⟩
  | .writeSlot => ⟨.producer, .write (s.inner.slotIndex s.producer.cachedHead)⟩
  | .storeHead => ⟨.producer, .store .head (storeOrder relaxedOrdering seqCst)⟩
  | .pop => ⟨.consumer, .none⟩
  | .loadHead i => ⟨.consumer, .load .head i (loadOrder relaxedOrdering seqCst)⟩
  | .readSlot => ⟨.consumer, .read (s.inner.slotIndex s.consumer.cachedTail)⟩
  | .storeTail => ⟨.consumer, .store .tail (storeOrder relaxedOrdering seqCst)⟩

/-- The trace of an interleaving. -/
def trace (s : Ring T) : List (RingEvent T) → List Access
  | [] => []
  | event :: events =>
      s.access relaxedOrdering seqCst event ::
        match s.step noCursorCache event with
        | none => []
        | some s => trace s events

variable {noCursorCache relaxedOrdering seqCst} {c : UInt64} {s s' : Ring T} {tr : List Access}

/-! ## The invariant of a trace -/

/-- **The invariant of a trace** that led to `s`: no race; the writes and the reads are numbered
round the buffer and told by head and tail; and each end knows what the cursor it saw last told. -/
structure Traced (c : UInt64) (tr : List Access) (s : Ring T) : Prop where
  raceFree : RaceFree tr
  writes : Handover .producer HappensBefore.Step.isWrite .head (· % c.toNat) tr
    s.written.length s.pushed.length
  reads : Handover .consumer HappensBefore.Step.isRead .tail (· % c.toNat) tr
    s.taken.length s.popped.length
  consumerKnows : Acquired tr .consumer HappensBefore.Step.isWrite s.headSeen
  producerKnows : Acquired tr .producer HappensBefore.Step.isRead s.tailSeen

theorem releases_storeOrder (seqCst : Bool) : (storeOrder false seqCst).releases := by
  cases seqCst <;> rfl

theorem acquires_loadOrder (seqCst : Bool) : (loadOrder false seqCst).acquires := by
  cases seqCst <;> rfl

theorem length_pushed_le (s : Ring T) : s.pushed.length ≤ s.written.length := by
  unfold written
  split
  · rw [List.length_append]
    exact Nat.le_add_right _ _
  · exact Nat.le_refl _

theorem length_popped_le (s : Ring T) : s.popped.length ≤ s.taken.length := by
  unfold taken
  split
  · rw [List.length_append]
    exact Nat.le_add_right _ _
  · exact Nat.le_refl _

/-- What is written is never more than a full turn ahead of what was popped. -/
theorem Inv.length_written_le (h : Inv c s) : s.written.length ≤ s.popped.length + c.toNat := by
  have hseen := h.tailSeen_le
  have hpushed := h.pushed_le
  unfold written
  split
  · next value hphase =>
    have hroom := h.room ⟨value, Or.inr hphase⟩
    rw [List.length_append, List.length_singleton]
    omega
  · omega

theorem ringBuffer_cases (h : ringBuffer T c = some s) : (0 : UInt64) ≠ c ∧ 0 < c.toNat ∧
    s = {
      inner := {
        buffer := List.replicate c.toNat .uninit, capacity := c, mask := c - 1
        head := .new 0, tail := .new 0 }
      producer := { cachedHead := 0, cachedTail := 0, phase := .idle, result := none }
      consumer := { cachedTail := 0, cachedHead := 0, phase := .idle, result := none }
      tailSeen := 0, headSeen := 0, pushed := [], popped := [] } := by
  unfold ringBuffer at h
  split at h
  · next hpos =>
    split at h
    · have hlen : 0 < c.toNat := UInt64.lt_iff_toNat_lt.1 hpos
      refine ⟨?_, hlen, (Option.some.inj h).symm⟩
      intro heq
      rw [← heq] at hlen
      exact absurd hlen (by decide)
    · cases h
  · cases h

theorem traced_ringBuffer (h : ringBuffer T c = some s) : Traced c [] s := by
  obtain ⟨-, -, rfl⟩ := ringBuffer_cases h
  refine ⟨HappensBefore.raceFree_nil, .nil, .nil, ?_, ?_⟩ <;> intro n e he <;> simp at he

namespace Traced

theorem other (h : Traced c tr s) {e : Access} (hcell : e.cell? = none)
    (hstore : ∀ a, e.storesTo a = false) (hwritten : s'.written.length = s.written.length)
    (htaken : s'.taken.length = s.taken.length) (hpushed : s'.pushed = s.pushed)
    (hpopped : s'.popped = s.popped)
    (hconsumer : Acquired (tr ++ [e]) .consumer HappensBefore.Step.isWrite s'.headSeen)
    (hproducer : Acquired (tr ++ [e]) .producer HappensBefore.Step.isRead s'.tailSeen) :
    Traced c (tr ++ [e]) s' := by
  obtain ⟨hwrite, hread⟩ := HappensBefore.Step.not_access hcell
  refine ⟨h.raceFree.concat_of_cell? hcell, ?_, ?_, hconsumer, hproducer⟩
  · rw [hwritten, hpushed]
    exact h.writes.other hwrite (hstore _)
  · rw [htaken, hpopped]
    exact h.reads.other hread (hstore _)

theorem consumerKnows_concat (h : Traced c tr s) (hinv : Inv c s) (e : Access) :
    Acquired (tr ++ [e]) .consumer HappensBefore.Step.isWrite s.headSeen := by
  refine h.consumerKnows.concat ?_
  rw [h.writes.count]
  exact Nat.le_trans hinv.headSeen_le s.length_pushed_le

theorem producerKnows_concat (h : Traced c tr s) (hinv : Inv c s) (e : Access) :
    Acquired (tr ++ [e]) .producer HappensBefore.Step.isRead s.tailSeen := by
  refine h.producerKnows.concat ?_
  rw [h.reads.count]
  exact Nat.le_trans hinv.tailSeen_le s.length_popped_le

theorem push (h : Traced c tr s) (hinv : Inv c s) {value : T}
    (hs : s.push noCursorCache value = some s') :
    Traced c (tr ++ [s.access false seqCst (.push value)]) s' := by
  obtain ⟨hidle, phase, hphase, rfl⟩ := push_cases hs
  refine h.other rfl (fun _ => rfl) ?_ rfl rfl rfl (h.consumerKnows_concat hinv _)
    (h.producerKnows_concat hinv _)
  have hphase' : ∀ v, phase ≠ .storeHead v := by
    intro v
    rcases hphase with rfl | ⟨rfl, -⟩ <;> simp
  rw [written_eq_pushed hphase', written_eq_pushed (by simp [hidle])]

theorem loadTail (h : Traced c tr s) (hinv : Inv c s) {i : Nat} (hs : s.loadTail i = some s') :
    Traced c (tr ++ [s.access false seqCst (.loadTail i)]) s' := by
  obtain ⟨value, tail, hphase, -, hload, hcases⟩ := loadTail_cases hs
  rw [AtomicUsize.load, hinv.tail] at hload
  obtain ⟨hi, -⟩ := getElem?_cursors hload
  have hwritten : s.written = s.pushed := written_eq_pushed (by simp [hphase])
  have hknows := h.reads.acquire (u := .producer) (Nat.le_of_lt_succ hi)
    (acquires_loadOrder seqCst) rfl
  rcases hcases with ⟨-, rfl⟩ | ⟨-, rfl⟩
  · refine h.other rfl (fun _ => rfl) ?_ rfl rfl rfl (h.consumerKnows_concat hinv _) hknows
    rw [hwritten, written_eq_pushed (by simp)]
  · refine h.other rfl (fun _ => rfl) ?_ rfl rfl rfl (h.consumerKnows_concat hinv _) hknows
    rw [hwritten, written_eq_pushed (by simp)]

theorem pop (h : Traced c tr s) (hinv : Inv c s) (hs : s.pop noCursorCache = some s') :
    Traced c (tr ++ [s.access false seqCst .pop]) s' := by
  obtain ⟨hidle, phase, hphase, rfl⟩ := pop_cases hs
  refine h.other rfl (fun _ => rfl) rfl ?_ rfl rfl (h.consumerKnows_concat hinv _)
    (h.producerKnows_concat hinv _)
  have hphase' : ∀ v, phase ≠ .storeTail v := by
    intro v
    rcases hphase with rfl | ⟨rfl, -⟩ <;> simp
  rw [taken_eq_popped hphase', taken_eq_popped (by simp [hidle])]

theorem loadHead (h : Traced c tr s) (hinv : Inv c s) {i : Nat} (hs : s.loadHead i = some s') :
    Traced c (tr ++ [s.access false seqCst (.loadHead i)]) s' := by
  obtain ⟨head, hphase, -, hload, hcases⟩ := loadHead_cases hs
  rw [AtomicUsize.load, hinv.head] at hload
  obtain ⟨hi, -⟩ := getElem?_cursors hload
  have htaken : s.taken = s.popped := taken_eq_popped (by simp [hphase])
  have hknows := h.writes.acquire (u := .consumer) (Nat.le_of_lt_succ hi)
    (acquires_loadOrder seqCst) rfl
  rcases hcases with ⟨-, rfl⟩ | ⟨-, rfl⟩
  · refine h.other rfl (fun _ => rfl) rfl ?_ rfl rfl hknows (h.producerKnows_concat hinv _)
    rw [htaken, taken_eq_popped (by simp)]
  · refine h.other rfl (fun _ => rfl) rfl ?_ rfl rfl hknows (h.producerKnows_concat hinv _)
    rw [htaken, taken_eq_popped (by simp)]

/-- The producer knows every read of the slot it is about to write. -/
theorem writeSlot (h : Traced c tr s) (hinv : Inv c s) (hpow : isPowerOfTwo c)
    (hs : s.writeSlot = some s') : Traced c (tr ++ [s.access false seqCst .writeSlot]) s' := by
  have hconsumer := h.consumerKnows_concat hinv (s.access false seqCst .writeSlot)
  have hproducer := h.producerKnows_concat hinv (s.access false seqCst .writeSlot)
  obtain ⟨value, hphase, rfl⟩ := writeSlot_cases hs
  have hwritten : s.written = s.pushed := written_eq_pushed (by simp [hphase])
  have hindex : s.inner.slotIndex s.producer.cachedHead = s.pushed.length % c.toNat := by
    rw [hinv.producerHead, hinv.slotIndex_eq hpow, hinv.length]
  have hwrites := h.writes
  rw [hwritten] at hwrites
  refine ⟨h.raceFree.concat_of_acquired h.producerKnows ?_, ?_, h.reads.other rfl rfl, hconsumer,
    hproducer⟩
  · intro n e x he hthread hx hslot
    obtain rfl : s.pushed.length % c.toNat = x := by
      rw [← hindex]
      exact Option.some.inj hslot
    have hread : e.isRead := by
      rcases HappensBefore.Step.access_of_cell? hx with hwrite | hread
      · exact absurd (h.writes.own n e he hwrite).1 hthread
      · exact hread
    refine ⟨hread, ?_⟩
    -- read number `q` was of this slot, and a full turn ago
    have hcell := (h.reads.own n e he hread).2
    rw [hx] at hcell
    have hcell := Option.some.inj hcell
    have hlt := HappensBefore.numberOf_lt he hread
    rw [h.reads.count] at hlt
    obtain ⟨unread, hunread, -⟩ := hinv.content
    obtain ⟨hlen, -⟩ := hinv.unread_lt hphase hunread
    have hroom := hinv.room ⟨value, Or.inl hphase⟩
    by_contra hge
    exact mod_ne (by omega) (by omega) hcell.symm
  · show Handover _ _ _ _ _ (s.pushed ++ [_]).length s.pushed.length
    rw [List.length_append, List.length_singleton]
    refine hwrites.access rfl rfl ?_ rfl
    rw [← hindex]
    rfl

/-- The consumer knows every write of the slot it is about to read. -/
theorem readSlot (h : Traced c tr s) (hinv : Inv c s) (hpow : isPowerOfTwo c)
    (hs : s.readSlot = some s') : Traced c (tr ++ [s.access false seqCst .readSlot]) s' := by
  have hconsumer := h.consumerKnows_concat hinv (s.access false seqCst .readSlot)
  have hproducer := h.producerKnows_concat hinv (s.access false seqCst .readSlot)
  obtain ⟨slot, value, slot', hphase, -, -, rfl⟩ := readSlot_cases hs
  have htaken : s.taken = s.popped := taken_eq_popped (by simp [hphase])
  have hindex : s.inner.slotIndex s.consumer.cachedTail = s.popped.length % c.toNat := by
    rw [hinv.consumerTail, hinv.slotIndex_eq hpow, hinv.length]
  have hreads := h.reads
  rw [htaken] at hreads
  refine ⟨h.raceFree.concat_of_acquired h.consumerKnows ?_, h.writes.other rfl rfl, ?_, hconsumer,
    hproducer⟩
  · intro n e x he hthread hx hslot
    obtain rfl : s.popped.length % c.toNat = x := by
      rw [← hindex]
      exact Option.some.inj hslot
    have hwrite : e.isWrite := by
      rcases HappensBefore.Step.access_of_cell? hx with hwrite | hread
      · exact hwrite
      · exact absurd (h.reads.own n e he hread).1 hthread
    refine ⟨hwrite, ?_⟩
    -- write number `p` was of this slot, and none is a full turn ahead
    have hcell := (h.writes.own n e he hwrite).2
    rw [hx] at hcell
    have hcell := Option.some.inj hcell
    have hlt := HappensBefore.numberOf_lt he hwrite
    rw [h.writes.count] at hlt
    have hahead := hinv.length_written_le
    have hitem := hinv.item (Or.inl hphase)
    by_contra hge
    exact mod_ne (by omega) (by omega) hcell
  · show Handover _ _ _ _ _ (s.popped ++ [_]).length s.popped.length
    rw [List.length_append, List.length_singleton]
    refine hreads.access rfl rfl ?_ rfl
    rw [← hindex]
    rfl

theorem storeHead (h : Traced c tr s) (hinv : Inv c s) (hs : s.storeHead = some s') :
    Traced c (tr ++ [s.access false seqCst .storeHead]) s' := by
  have hconsumer := h.consumerKnows_concat hinv (s.access false seqCst .storeHead)
  have hproducer := h.producerKnows_concat hinv (s.access false seqCst .storeHead)
  obtain ⟨value, hphase, rfl⟩ := storeHead_cases hs
  have hwritten : s.written = s.pushed ++ [(s.producer.cachedHead, value)] := by
    simp [written, hphase]
  have hwrites := h.writes
  rw [hwritten, List.length_append, List.length_singleton] at hwrites
  refine ⟨h.raceFree.concat_of_cell? rfl, ?_, h.reads.other rfl rfl, hconsumer, hproducer⟩
  show Handover _ _ _ _ _ (s.pushed ++ [_]).length (s.pushed ++ [_]).length
  rw [List.length_append, List.length_singleton]
  exact hwrites.store (releases_storeOrder seqCst) rfl

theorem storeTail (h : Traced c tr s) (hinv : Inv c s) (hs : s.storeTail = some s') :
    Traced c (tr ++ [s.access false seqCst .storeTail]) s' := by
  have hconsumer := h.consumerKnows_concat hinv (s.access false seqCst .storeTail)
  have hproducer := h.producerKnows_concat hinv (s.access false seqCst .storeTail)
  obtain ⟨value, hphase, rfl⟩ := storeTail_cases hs
  have htaken : s.taken = s.popped ++ [(s.consumer.cachedTail, value)] := by
    simp [taken, hphase]
  have hreads := h.reads
  rw [htaken, List.length_append, List.length_singleton] at hreads
  refine ⟨h.raceFree.concat_of_cell? rfl, h.writes.other rfl rfl, ?_, hconsumer, hproducer⟩
  show Handover _ _ _ _ _ (s.popped ++ [_]).length (s.popped ++ [_]).length
  rw [List.length_append, List.length_singleton]
  exact hreads.store (releases_storeOrder seqCst) rfl

/-- **Every step of either end keeps the invariant of the trace.** -/
theorem step (h : Traced c tr s) (hinv : Inv c s) (hpow : isPowerOfTwo c) {event : RingEvent T}
    (hs : s.step noCursorCache event = some s') :
    Traced c (tr ++ [s.access false seqCst event]) s' := by
  cases event with
  | push value => exact h.push hinv hs
  | loadTail i => exact h.loadTail hinv hs
  | writeSlot => exact h.writeSlot hinv hpow hs
  | storeHead => exact h.storeHead hinv hs
  | pop => exact h.pop hinv hs
  | loadHead i => exact h.loadHead hinv hs
  | readSlot => exact h.readSlot hinv hpow hs
  | storeTail => exact h.storeTail hinv hs

theorem run (h : Traced c tr s) (hinv : Inv c s) (hpow : isPowerOfTwo c)
    {events : List (RingEvent T)} (hrun : s.run noCursorCache events = some s') :
    Traced c (tr ++ s.trace noCursorCache false seqCst events) s' := by
  induction events generalizing s tr with
  | nil =>
    obtain rfl := Option.some.inj hrun
    rw [trace, List.append_nil]
    exact h
  | cons event events ih =>
    obtain ⟨s₁, hs, hrun⟩ := run_cons hrun
    rw [trace, hs, List.append_cons]
    exact ih (h.step hinv hpow hs) (hinv.step hpow hs) hrun

end Traced

/-! ## Relaxed cursors -/

/-- One push and one pop, after which the consumer has read what the producer has written. The push
loads the tail if nothing is cached. -/
def onePushOnePop (noCursorCache : Bool) (value : T) : List (RingEvent T) :=
  if noCursorCache then
    [.push value, .loadTail 0, .writeSlot, .storeHead, .pop, .loadHead 1, .readSlot]
  else [.push value, .writeSlot, .storeHead, .pop, .loadHead 1, .readSlot]

theorem not_synchronizes_of_relaxed (events : List (RingEvent T)) (n m : Nat) :
    ¬ HappensBefore.Synchronizes (s.trace noCursorCache true seqCst events) n m := by
  intro h
  obtain ⟨t, u, a, order, order', hstore, hrel, -⟩ := h
  have hmem := List.mem_of_getElem? hstore
  clear hstore
  induction events generalizing s with
  | nil => simp [trace] at hmem
  | cons event events ih =>
    rw [trace, List.mem_cons] at hmem
    rcases hmem with heq | hmem
    · cases event <;> simp [access, storeOrder] at heq
      · rw [heq.2.2] at hrel
        cases hrel
      · rw [heq.2.2] at hrel
        cases hrel
    · cases hs : s.step noCursorCache event with
      | none => simp [hs] at hmem
      | some s₁ =>
        simp only [hs] at hmem
        exact ih hmem

theorem run_onePushOnePop (h : ringBuffer T c = some s) (noCursorCache : Bool) (value : T) :
    ∃ s', s.run noCursorCache (onePushOnePop noCursorCache value) = some s' := by
  obtain ⟨hc, hlen, rfl⟩ := ringBuffer_cases h
  apply Option.isSome_iff_exists.1
  cases noCursorCache with
  | false =>
    simp [onePushOnePop, run, step, push, writeSlot, storeHead, pop, loadHead, readSlot, hc, hlen,
      RingBufferInner.slotIndex, AtomicUsize.load, AtomicUsize.store, AtomicUsize.new, Slot.read]
  | true =>
    simp [onePushOnePop, run, step, push, loadTail, writeSlot, storeHead, pop, loadHead, readSlot,
      hc, hlen, RingBufferInner.slotIndex, AtomicUsize.load, AtomicUsize.store, AtomicUsize.new,
      Slot.read]

theorem trace_onePushOnePop (h : ringBuffer T c = some s)
    (noCursorCache relaxedOrdering seqCst : Bool) (value : T) :
    ∃ before, s.trace noCursorCache relaxedOrdering seqCst (onePushOnePop noCursorCache value) =
      before ++ [⟨.producer, .write 0⟩,
        ⟨.producer, .store .head (storeOrder relaxedOrdering seqCst)⟩,
        ⟨.consumer, .none⟩,
        ⟨.consumer, .load .head 1 (loadOrder relaxedOrdering seqCst)⟩,
        ⟨.consumer, .read 0⟩] := by
  obtain ⟨hc, hlen, rfl⟩ := ringBuffer_cases h
  cases noCursorCache with
  | false =>
    refine ⟨[⟨.producer, .none⟩], ?_⟩
    simp [onePushOnePop, trace, access, step, push, writeSlot, storeHead, pop, loadHead, readSlot,
      hc, hlen, RingBufferInner.slotIndex, AtomicUsize.load, AtomicUsize.store, AtomicUsize.new,
      Slot.read]
  | true =>
    refine ⟨[⟨.producer, .none⟩,
      ⟨.producer, .load .tail 0 (loadOrder relaxedOrdering seqCst)⟩], ?_⟩
    simp [onePushOnePop, trace, access, step, push, loadTail, writeSlot, storeHead, pop, loadHead,
      readSlot, hc, hlen, RingBufferInner.slotIndex, AtomicUsize.load, AtomicUsize.store,
      AtomicUsize.new, Slot.read]

/-- **The ring is free of data races if and only if it is not built with relaxed cursors.** At every
capacity, with the cursor cache or without, and with acquire and release or `SeqCst`, the threads
do not race for a slot in any interleaving of pushes and pops, whatever stores the loads see. -/
theorem raceFree_iff (h : ringBuffer T c = some s) (value : T)
    (noCursorCache relaxedOrdering seqCst : Bool) :
    (∀ events s', s.run noCursorCache events = some s' →
      RaceFree (s.trace noCursorCache relaxedOrdering seqCst events)) ↔
      relaxedOrdering = false := by
  constructor
  · intro hfree
    by_contra hrelaxed
    obtain rfl := Bool.eq_true_of_not_eq_false hrelaxed
    obtain ⟨s', hrun⟩ := run_onePushOnePop h noCursorCache value
    obtain ⟨before, htrace⟩ := trace_onePushOnePop h noCursorCache true seqCst value
    have hconflict : HappensBefore.Conflict
        (s.trace noCursorCache true seqCst (onePushOnePop noCursorCache value)) before.length
        (before.length + 4) := by
      rw [htrace]
      refine ⟨⟨.producer, .write 0⟩, ⟨.consumer, .read 0⟩, 0, ?_, ?_, by decide, rfl, rfl,
        Or.inl rfl⟩
      · rw [List.getElem?_append_right (Nat.le_refl _), Nat.sub_self]
        rfl
      · rw [List.getElem?_append_right (Nat.le_add_right _ _), Nat.add_sub_cancel_left]
        rfl
    exact hconflict.not_raceFree (not_synchronizes_of_relaxed _) (hfree _ s' hrun)
  · intro hrelaxed events s' hrun
    subst hrelaxed
    obtain ⟨hpow, hinv⟩ := inv_ringBuffer h
    exact ((traced_ringBuffer h).run hinv hpow hrun).raceFree

/-- Two pushes and two pops, through one slot. -/
def twiceRound : List (RingEvent Nat) :=
  [.push 7, .writeSlot, .storeHead, .pop, .loadHead 1, .readSlot, .storeTail, .push 8, .loadTail 1,
    .writeSlot, .storeHead, .pop, .loadHead 2, .readSlot, .storeTail]

/-- A ring of capacity one goes round twice without a race, and with relaxed cursors not all of its
runs are free of races. -/
theorem raceFree_iff_one : ∃ s : Ring Nat, ringBuffer Nat 1 = some s ∧
    RaceFree (s.trace false false false twiceRound) ∧
    ¬ ∀ events s', s.run false events = some s' →
      RaceFree (s.trace false true false events) := by
  refine ⟨_, rfl, ?_, ?_⟩
  · exact (raceFree_iff (c := 1) rfl 0 false false false).2 rfl _ _
      (Option.eq_some_of_isSome (by decide +kernel))
  · intro h
    cases (raceFree_iff (c := 1) rfl 0 false true false).1 h

end Ring

end Ferrox
