import Ferrox.RingProof

/-!
# First in, first out

What the invariant of the ring says to its users: the values that pops return are the first ones
that were pushed, at most `capacity` are outstanding, and a push that finds the ring full leaves
the shared memory alone (`fifo_of_reachable`). And what it says to the `unsafe` blocks: no access to
a slot meets one of the other thread, and no value is lost or dropped twice
(`slots_of_reachable`).
-/

namespace Ferrox

universe u

open Circular

variable {T : Type u} {noCursorCache : Bool} {c : UInt64} {s s' : Ring T}

namespace Ring

/-! ## Order and bound -/

theorem Inv.fifo (h : Inv c s) : s.popped <+: s.pushed := by
  obtain ⟨unread, hunread, -⟩ := h.content
  have hpopped : s.popped <+: s.taken := by
    unfold taken
    split
    · exact List.prefix_append _ _
    · exact List.prefix_refl _
  have hpushed : s.pushed <+: s.written := by
    unfold written
    split
    · exact List.prefix_append _ _
    · exact List.prefix_refl _
  have hwritten : s.popped <+: s.written := by
    rw [hunread]
    exact hpopped.trans (List.prefix_append _ _)
  exact List.prefix_of_prefix_length_le hwritten hpushed
    (Nat.le_trans h.popped_le h.headSeen_le)

theorem Inv.outstanding_le (h : Inv c s) : s.pushed.length ≤ s.popped.length + c.toNat :=
  Nat.le_trans h.pushed_le (Nat.add_le_add_right h.tailSeen_le _)

/-! ## A push that fails -/

end Ring

/-- The step is one of the producer's. -/
def RingEvent.byProducer : RingEvent T → Prop
  | .push _ | .loadTail _ | .writeSlot | .storeHead => True
  | .pop | .loadHead _ | .readSlot | .storeTail => False

namespace Ring

/-- The push of `value` has not got past its checks, or it returned `Full`. -/
def Refused (value : T) (s : Ring T) : Prop :=
  (s.producer.phase = .loadTail value ∧ s.producer.result = none) ∨
    (s.producer.phase = .idle ∧ s.producer.result = some (.error ⟨value⟩))

/-- The push got past its checks, or it returned `Ok`. -/
def Accepted (s : Ring T) : Prop :=
  (s.Writing ∧ s.producer.result = none) ∨
    (s.producer.phase = .idle ∧ s.producer.result = some (.ok ()))

theorem producer_eq_of_step {event : RingEvent T} (hevent : ¬ event.byProducer)
    (hs : s.step noCursorCache event = some s') : s'.producer = s.producer := by
  cases event with
  | pop =>
    obtain ⟨-, phase, -, rfl⟩ := pop_cases hs
    rfl
  | loadHead i =>
    obtain ⟨head, -, -, -, ⟨-, rfl⟩ | ⟨-, rfl⟩⟩ := loadHead_cases hs
    · rfl
    · rfl
  | readSlot =>
    obtain ⟨slot, value, slot', -, -, -, rfl⟩ := readSlot_cases hs
    rfl
  | storeTail =>
    obtain ⟨value, -, rfl⟩ := storeTail_cases hs
    rfl
  | _ => exact absurd trivial hevent

theorem Accepted.step {event : RingEvent T} (h : s.Accepted) (hevent : ∀ v, event ≠ .push v)
    (hs : s.step noCursorCache event = some s') : s'.Accepted := by
  by_cases hproducer : event.byProducer
  · cases event with
    | push v => exact absurd rfl (hevent v)
    | loadTail i =>
      obtain ⟨value, tail, hphase, -⟩ := loadTail_cases hs
      obtain ⟨⟨_, hwrite | hstore⟩, -⟩ | ⟨hidle, -⟩ := h
      · rw [hphase] at hwrite
        cases hwrite
      · rw [hphase] at hstore
        cases hstore
      · rw [hphase] at hidle
        cases hidle
    | writeSlot =>
      obtain ⟨value, hphase, rfl⟩ := writeSlot_cases hs
      obtain ⟨-, hresult⟩ | ⟨hidle, -⟩ := h
      · exact Or.inl ⟨⟨value, Or.inr rfl⟩, hresult⟩
      · rw [hphase] at hidle
        cases hidle
    | storeHead =>
      obtain ⟨value, -, rfl⟩ := storeHead_cases hs
      exact Or.inr ⟨rfl, rfl⟩
    | _ => cases hproducer
  · rw [Accepted, Writing, producer_eq_of_step hproducer hs]
    exact h

theorem Refused.step {value : T} {event : RingEvent T} (h : s.Refused value)
    (hevent : ∀ v, event ≠ .push v) (hs : s.step noCursorCache event = some s') :
    s'.Refused value ∧ (event.byProducer → s'.inner = s.inner) ∨ s'.Accepted := by
  by_cases hproducer : event.byProducer
  · cases event with
    | push v => exact absurd rfl (hevent v)
    | loadTail i =>
      obtain ⟨value', tail, hphase, -, -, hcases⟩ := loadTail_cases hs
      obtain ⟨hload, hresult⟩ | ⟨hidle, -⟩ := h
      · rw [hphase] at hload
        cases hload
        obtain ⟨-, rfl⟩ | ⟨-, rfl⟩ := hcases
        · exact Or.inl ⟨Or.inr ⟨rfl, rfl⟩, fun _ => rfl⟩
        · exact Or.inr (Or.inl ⟨⟨value, Or.inl rfl⟩, hresult⟩)
      · rw [hphase] at hidle
        cases hidle
    | writeSlot =>
      obtain ⟨value', hphase, -⟩ := writeSlot_cases hs
      obtain ⟨hload, -⟩ | ⟨hidle, -⟩ := h
      · rw [hphase] at hload
        cases hload
      · rw [hphase] at hidle
        cases hidle
    | storeHead =>
      obtain ⟨value', hphase, -⟩ := storeHead_cases hs
      obtain ⟨hload, -⟩ | ⟨hidle, -⟩ := h
      · rw [hphase] at hload
        cases hload
      · rw [hphase] at hidle
        cases hidle
    | _ => cases hproducer
  · refine Or.inl ⟨?_, fun habs => absurd habs hproducer⟩
    rw [Refused, producer_eq_of_step hproducer hs]
    exact h

theorem Accepted.run {events : List (RingEvent T)} (h : s.Accepted)
    (hevents : ∀ v, RingEvent.push v ∉ events) (hrun : s.run noCursorCache events = some s') :
    s'.Accepted := by
  induction events generalizing s with
  | nil =>
    obtain rfl := Option.some.inj hrun
    exact h
  | cons event events ih =>
    obtain ⟨s₁, hs, hrun⟩ := run_cons hrun
    refine ih (h.step ?_ hs) (fun v hv => hevents v (List.mem_cons_of_mem _ hv)) hrun
    intro v hv
    exact hevents v (hv ▸ List.mem_cons_self)

theorem Accepted.not_full (h : s.Accepted) (full : Full T) :
    s.producer.result ≠ some (.error full) := by
  obtain ⟨-, hresult⟩ | ⟨-, hresult⟩ := h
  · rw [hresult]
    nofun
  · rw [hresult]
    nofun

/-- **A push that returns `Full`** returns its own value, and every step it took left the shared
memory as it was. -/
theorem Refused.run {value : T} {events : List (RingEvent T)} {full : Full T}
    (h : s.Refused value) (hevents : ∀ v, RingEvent.push v ∉ events)
    (hrun : s.run noCursorCache events = some s')
    (hfull : s'.producer.result = some (.error full)) :
    full.value = value ∧ ∀ before event after s₁ s₂, events = before ++ event :: after →
      s.run noCursorCache before = some s₁ → s₁.step noCursorCache event = some s₂ →
      event.byProducer → s₂.inner = s₁.inner := by
  induction events generalizing s with
  | nil =>
    obtain rfl := Option.some.inj hrun
    refine ⟨?_, ?_⟩
    · obtain ⟨-, hresult⟩ | ⟨-, hresult⟩ := h
      · rw [hresult] at hfull
        cases hfull
      · rw [hresult] at hfull
        cases hfull
        rfl
    · intro before event after s₁ s₂ hsplit
      cases before <;> cases hsplit
  | cons event events ih =>
    obtain ⟨s₁, hs, hrun⟩ := run_cons hrun
    have hevents' : ∀ v, RingEvent.push v ∉ events := fun v hv =>
      hevents v (List.mem_cons_of_mem _ hv)
    have hstep := h.step (fun v hv => hevents v (hv ▸ List.mem_cons_self)) hs
    obtain ⟨hrefused, hinner⟩ | haccepted := hstep
    · obtain ⟨hvalue, hrest⟩ := ih hrefused hevents' hrun
      refine ⟨hvalue, ?_⟩
      intro before event' after s₂ s₃ hsplit hbefore hs' hproducer
      cases before with
      | nil =>
        cases hsplit
        obtain rfl := Option.some.inj hbefore
        rw [hs] at hs'
        obtain rfl := Option.some.inj hs'
        exact hinner hproducer
      | cons event'' before =>
        cases hsplit
        obtain ⟨s₄, hs₄, hbefore⟩ := run_cons hbefore
        rw [hs] at hs₄
        obtain rfl := Option.some.inj hs₄
        exact hrest before event' after s₂ s₃ rfl hbefore hs' hproducer
    · exact absurd hfull ((haccepted.run hevents' hrun).not_full full)

/-- **First in, first out.** In every state of every interleaving, whatever store a load sees and
however often the cursors wrapped, the values popped are a prefix of the values pushed, and at most
`capacity` of them are outstanding. A push that returns `Full`, with the steps of the consumer
anywhere in between, hands back its own value, and none of its steps writes a slot or a cursor. -/
theorem fifo_of_reachable (h : Reachable noCursorCache c s) :
    s.popped.map (·.2) <+: s.pushed.map (·.2) ∧
      s.pushed.length ≤ s.popped.length + c.toNat ∧
      ∀ value events s' full, (∀ v, RingEvent.push v ∉ events) →
        s.run noCursorCache (.push value :: events) = some s' →
        s'.producer.result = some (.error full) →
        full.value = value ∧
          ∀ before event after s₁ s₂, .push value :: events = before ++ event :: after →
            s.run noCursorCache before = some s₁ → s₁.step noCursorCache event = some s₂ →
            event.byProducer → s₂.inner = s₁.inner := by
  obtain ⟨-, hinv⟩ := h.inv
  refine ⟨hinv.fifo.map _, hinv.outstanding_le, ?_⟩
  intro value events s' full hevents hrun hfull
  obtain ⟨s₀, hs₀, hrun⟩ := run_cons hrun
  obtain ⟨-, phase, hphase, rfl⟩ := push_cases hs₀
  rcases hphase with rfl | ⟨rfl, -⟩
  · obtain ⟨hvalue, hrest⟩ := Refused.run (Or.inl ⟨rfl, rfl⟩) hevents hrun hfull
    refine ⟨hvalue, ?_⟩
    intro before event after s₁ s₂ hsplit hbefore hs hproducer
    cases before with
    | nil =>
      cases hsplit
      obtain rfl := Option.some.inj hbefore
      obtain ⟨-, phase, -, rfl⟩ := push_cases hs
      rfl
    | cons event' before =>
      cases hsplit
      obtain ⟨s₃, hs₃, hbefore⟩ := run_cons hbefore
      rw [hs₀] at hs₃
      obtain rfl := Option.some.inj hs₃
      exact hrest before event after s₁ s₂ rfl hbefore hs hproducer
  · have haccepted := Accepted.run (Or.inl ⟨⟨value, Or.inl rfl⟩, rfl⟩) hevents hrun
    exact absurd hfull (haccepted.not_full full)

/-- A ring of one slot: the second push is refused, also while the first value is being read. -/
theorem fifo_of_reachable_full : ∃ s s' : Ring Nat,
    (ringBuffer Nat 1).bind
        (run false · [.push 5, .writeSlot, .storeHead, .pop, .loadHead 1]) = some s ∧
      s.run false [.push 6, .readSlot, .loadTail 0] = some s' ∧
      s'.producer.result = some (.error ⟨6⟩) ∧
      s.popped.map (·.2) <+: s.pushed.map (·.2) ∧ s.pushed.length ≤ s.popped.length + 1 ∧
      ∀ s₁ s₂, s.run false [.push 6, .readSlot] = some s₁ → s₁.step false (.loadTail 0) = some s₂ →
        s₂.inner = s₁.inner := by
  obtain ⟨s, hs⟩ : ∃ s, (ringBuffer Nat 1).bind
      (run false · [.push 5, .writeSlot, .storeHead, .pop, .loadHead 1]) = some s :=
    Option.isSome_iff_exists.1 (by decide +kernel)
  have hresult : (((ringBuffer Nat 1).bind
      (run false · [.push 5, .writeSlot, .storeHead, .pop, .loadHead 1])).bind
      (run false · [.push 6, .readSlot, .loadTail 0])).map (·.producer.result) =
        some (some (.error ⟨6⟩)) := by decide +kernel
  rw [hs, Option.bind_some] at hresult
  obtain ⟨s', hs', hfull⟩ := Option.map_eq_some_iff.1 hresult
  obtain ⟨s₀, hmade, hrun⟩ := Option.bind_eq_some_iff.1 hs
  obtain ⟨hfifo, hle, hrefused⟩ := fifo_of_reachable ⟨s₀, _, hmade, hrun⟩
  refine ⟨s, s', hs, hs', hfull, hfifo, hle, fun s₁ s₂ h₁ h₂ => ?_⟩
  exact (hrefused 6 [.readSlot, .loadTail 0] s' ⟨6⟩ (by simp) hs' hfull).2 [.push 6, .readSlot]
    (.loadTail 0) [] s₁ s₂ rfl h₁ h₂ trivial

/-! ## The slots -/

/-- What the producer is about to overwrite is not in the ring's care. -/
theorem Inv.getElem?_writeSlot (h : Inv c s) (hpow : isPowerOfTwo c) {value : T}
    (hphase : s.producer.phase = .writeSlot value) :
    ∃ slot, s.inner.buffer[s.inner.slotIndex s.producer.cachedHead]? = some slot ∧
      slot.unread? = none := by
  obtain ⟨unread, hunread, hwindow⟩ := h.content
  obtain ⟨hlen, hlt⟩ := h.unread_lt hphase hunread
  have hnext := hwindow.next (by rwa [List.length_map, List.length_map])
  rw [List.length_map, List.length_map, ← hlen, ← h.slotIndex_eq hpow, ← h.producerHead,
    List.getElem?_map] at hnext
  exact Option.map_eq_some_iff.1 hnext

/-- The two threads are never at the same slot. -/
theorem Inv.slotIndex_ne (h : Inv c s) (hpow : isPowerOfTwo c) (hwriting : s.Writing)
    (hreading : s.Reading) :
    s.inner.slotIndex s.producer.cachedHead ≠ s.inner.slotIndex s.consumer.cachedTail := by
  rw [h.producerHead, h.consumerTail, h.slotIndex_eq hpow, h.slotIndex_eq hpow, h.length]
  have hroom := h.room hwriting
  have hitem := h.item hreading
  have htail := h.tailSeen_le
  have hhead := h.headSeen_le
  exact (mod_ne (by omega) (by omega)).symm

theorem Inv.pushed_readSlot (h : Inv c s) (hpow : isPowerOfTwo c)
    (hphase : s.consumer.phase = .readSlot) :
    ∃ value, s.pushed[s.popped.length]? = some (s.consumer.cachedTail, value) ∧
      s.inner.buffer[s.inner.slotIndex s.consumer.cachedTail]? = some (.live value) := by
  obtain ⟨value, unread, hunread, hwindow⟩ := h.exists_unread hphase
  refine ⟨value, ?_, h.getElem?_readSlot hpow hwindow⟩
  have hitem := h.item (Or.inl hphase)
  have hhead := h.headSeen_le
  have hwritten : s.written[s.popped.length]? = some (s.consumer.cachedTail, value) := by
    rw [hunread, List.getElem?_append_right (Nat.le_refl _), Nat.sub_self]
    rfl
  have hlt : s.popped.length < s.pushed.length := by omega
  unfold written at hwritten
  split at hwritten
  · rwa [List.getElem?_append_left hlt] at hwritten
  · exact hwritten

end Ring

/-! ## `Drop` -/

namespace RingBufferInner

/-- **The loop drops the window**, and leaves nothing behind. -/
theorem dropLoop_eq (hpow : isPowerOfTwo c) {buffer : List (Slot T)} {lo : Nat} {vs : List T}
    (hlen : buffer.length = c.toNat) (hwindow : Window (buffer.map Slot.unread?) lo vs) :
    ∃ buffer', dropLoop (c - 1) (UInt64.ofNat (lo + vs.length)) buffer (UInt64.ofNat lo) =
        some (buffer', entries c.toNat lo vs) ∧
      Window (buffer'.map Slot.unread?) (lo + vs.length) [] := by
  induction vs generalizing buffer lo with
  | nil =>
    refine ⟨buffer, ?_, hwindow⟩
    rw [dropLoop, List.length_nil, Nat.add_zero, dif_pos rfl]
    rfl
  | cons value vs ih =>
    have hfits := hwindow.fits
    rw [List.length_cons, List.length_map, hlen] at hfits
    have hlt := c.toNat_lt
    obtain ⟨k, -, hk⟩ := id hpow
    have hne : UInt64.ofNat lo ≠ UInt64.ofNat (lo + (value :: vs).length) := by
      rw [Ne, ofNat_eq_iff (Nat.le_add_right _ _) (by rw [List.length_cons]; omega),
        List.length_cons]
      omega
    -- the loop is at the front of the window
    have hslot : buffer[lo % c.toNat]? = some (.live value) := by
      have hfront := hwindow.front
      rw [List.length_map, List.getElem?_map, hlen] at hfront
      obtain ⟨slot, hslot, hlive⟩ := Option.map_eq_some_iff.1 hfront
      rw [hslot]
      cases slot with
      | live value' => rw [Option.some.inj hlive]
      | _ => cases hlive
    have hpop : Window ((buffer.set (lo % c.toNat) (.taken value)).map Slot.unread?) (lo + 1) vs := by
      have hpop := hwindow.pop
      rw [List.length_map, hlen] at hpop
      rwa [List.map_set]
    obtain ⟨buffer', heq, hwindow'⟩ := ih (by rw [List.length_set, hlen]) hpop
    rw [show lo + 1 + vs.length = lo + (value :: vs).length by rw [List.length_cons]; omega]
      at heq hwindow'
    refine ⟨buffer', ?_, hwindow'⟩
    rw [dropLoop, dif_neg hne]
    simp only [toNat_and_mask hk, hslot, Option.bind_some, Slot.dropInPlace, ofNat_succ, heq,
      Option.map_some, entries_cons]

end RingBufferInner

namespace Ring

theorem latest_eq {a : AtomicUsize} {n : Nat} (h : a.stores = cursors (n + 1)) :
    a.latest = UInt64.ofNat n := by
  rw [cursors_succ] at h
  simp only [AtomicUsize.latest, h, List.getLast_append_singleton]

/-- When both ends are dropped, everything pushed has been popped or is dropped now. -/
theorem Inv.drop (h : Inv c s) (hpow : isPowerOfTwo c) (hproducer : s.producer.phase = .idle)
    (hconsumer : s.consumer.phase = .idle) :
    ∃ buffer visited, s.inner.drop = some (buffer, visited) ∧ (visited.map (·.1)).Nodup ∧
      (∀ i value, (i, value) ∈ visited ↔ s.inner.buffer[i]? = some (.live value)) ∧
      (∀ slot ∈ buffer, slot.unread? = none) ∧
      s.pushed.map (·.2) = s.popped.map (·.2) ++ visited.map (·.2) := by
  obtain ⟨unread, hunread, hwindow⟩ := h.content
  rw [written_eq_pushed (by simp [hproducer]), taken_eq_popped (by simp [hconsumer])] at hunread
  rw [taken_eq_popped (by simp [hconsumer])] at hwindow
  have hlen : s.pushed.length = s.popped.length + (unread.map (·.2)).length := by
    rw [hunread, List.length_append, List.length_map]
  obtain ⟨buffer, hdrop, hempty⟩ := RingBufferInner.dropLoop_eq hpow h.length hwindow
  have hlive : ∀ (buffer : List (Slot T)) (i : Nat) (value : T),
      (buffer.map Slot.unread?)[i]? = some (some value) ↔ buffer[i]? = some (.live value) := by
    intro buffer i value
    rw [List.getElem?_map, Option.map_eq_some_iff]
    constructor
    · rintro ⟨slot, hslot, hvalue⟩
      cases slot with
      | live value' => rw [hslot, Option.some.inj hvalue]
      | _ => cases hvalue
    · intro hslot
      exact ⟨_, hslot, rfl⟩
  refine ⟨buffer, entries c.toNat s.popped.length (unread.map (·.2)), ?_, ?_, ?_, ?_, ?_⟩
  · rw [RingBufferInner.drop, h.mask, latest_eq h.head, latest_eq h.tail, hlen]
    exact hdrop
  · have hfits := hwindow.fits
    rw [List.length_map, List.length_map, h.length] at hfits
    exact nodup_entries (by rwa [List.length_map])
  · intro i value
    have hmem := hwindow.mem_entries_iff i value
    rwa [List.length_map, h.length, hlive] at hmem
  · intro slot hslot
    obtain ⟨i, hi⟩ := List.mem_iff_getElem?.1 hslot
    cases slot with
    | live value => cases (hempty.mem_entries_iff i value).2 ((hlive buffer i value).2 hi)
    | _ => rfl
  · rw [map_snd_entries, hunread, List.map_append]

/-- **The slots.** In every state of every interleaving: the slot that the producer is about to
write holds nothing unread, and is not the one the consumer is at; the slot that the consumer is
about to read holds the value of the push with the same cursor; and if both ends are dropped now,
the loop of `drop` ends, having visited each slot that holds an unread value once, so that what was
pushed is what was popped followed by what is dropped. -/
theorem slots_of_reachable (h : Reachable noCursorCache c s) :
    (∀ value, s.producer.phase = .writeSlot value →
      (∃ slot, s.inner.buffer[s.inner.slotIndex s.producer.cachedHead]? = some slot ∧
        slot.unread? = none) ∧
      (s.Reading →
        s.inner.slotIndex s.producer.cachedHead ≠ s.inner.slotIndex s.consumer.cachedTail)) ∧
    (s.consumer.phase = .readSlot →
      ∃ value, s.pushed[s.popped.length]? = some (s.consumer.cachedTail, value) ∧
        s.inner.buffer[s.inner.slotIndex s.consumer.cachedTail]? = some (.live value)) ∧
    (s.producer.phase = .idle → s.consumer.phase = .idle →
      ∃ buffer visited, s.inner.drop = some (buffer, visited) ∧ (visited.map (·.1)).Nodup ∧
        (∀ i value, (i, value) ∈ visited ↔ s.inner.buffer[i]? = some (.live value)) ∧
        (∀ slot ∈ buffer, slot.unread? = none) ∧
        s.pushed.map (·.2) = s.popped.map (·.2) ++ visited.map (·.2)) := by
  obtain ⟨hpow, hinv⟩ := h.inv
  refine ⟨?_, hinv.pushed_readSlot hpow, hinv.drop hpow⟩
  intro value hphase
  exact ⟨hinv.getElem?_writeSlot hpow hphase, hinv.slotIndex_ne hpow ⟨value, Or.inl hphase⟩⟩

/-- Two of three values are left in a ring of two slots, the last one in the first slot. -/
theorem slots_of_reachable_dropped : ∃ s : Ring Nat,
    (ringBuffer Nat 2).bind (run false · [.push 5, .writeSlot, .storeHead, .push 6, .writeSlot,
      .storeHead, .pop, .loadHead 1, .readSlot, .storeTail, .push 7, .loadTail 1, .writeSlot,
      .storeHead]) = some s ∧
      ∃ buffer visited, s.inner.drop = some (buffer, visited) ∧ (0, 7) ∈ visited ∧
        visited.map (·.2) = [6, 7] := by
  obtain ⟨s, hs⟩ : ∃ s, (ringBuffer Nat 2).bind (run false · [.push 5, .writeSlot, .storeHead,
      .push 6, .writeSlot, .storeHead, .pop, .loadHead 1, .readSlot, .storeTail, .push 7,
      .loadTail 1, .writeSlot, .storeHead]) = some s :=
    Option.isSome_iff_exists.1 (by decide +kernel)
  have hstate : ((ringBuffer Nat 2).bind (run false · [.push 5, .writeSlot, .storeHead, .push 6,
      .writeSlot, .storeHead, .pop, .loadHead 1, .readSlot, .storeTail, .push 7, .loadTail 1,
      .writeSlot, .storeHead])).map (fun s => (s.producer.phase, s.consumer.phase,
        s.inner.buffer[0]?, s.pushed.map (·.2), s.popped.map (·.2))) =
      some (.idle, .idle, some (.live 7), [5, 6, 7], [5]) := by decide +kernel
  rw [hs, Option.map_some, Option.some.injEq, Prod.mk.injEq, Prod.mk.injEq, Prod.mk.injEq,
    Prod.mk.injEq] at hstate
  obtain ⟨hproducer, hconsumer, hslot, hpushed, hpopped⟩ := hstate
  obtain ⟨s₀, hmade, hrun⟩ := Option.bind_eq_some_iff.1 hs
  obtain ⟨-, -, hdrop⟩ := slots_of_reachable ⟨s₀, _, hmade, hrun⟩
  obtain ⟨buffer, visited, heq, -, hvisited, -, hvalues⟩ := hdrop hproducer hconsumer
  rw [hpushed, hpopped] at hvalues
  exact ⟨s, hs, buffer, visited, heq, (hvisited 0 7).2 hslot, (List.cons.inj hvalues).2.symm⟩

end Ring

end Ferrox
