import Ferrox.Ring

/-!
# The ring under every interleaving

The invariant `Inv` orders the four copies of the two cursors,

    tailSeen ≤ popped ≤ headSeen ≤ pushed ≤ tailSeen + capacity

as positions, and says that the buffer is a window on what is written and not yet taken. Every step
keeps it, whatever store a load sees (`Inv.step`).
-/

namespace Ferrox

universe u

open Circular

namespace Ring

variable {T : Type u} {noCursorCache : Bool} {c : UInt64} {s s' : Ring T}

/-! ## What a step can do -/

theorem push_cases {value : T} (h : s.push noCursorCache value = some s') :
    s.producer.phase = .idle ∧ ∃ phase,
      (phase = .loadTail value ∨ phase = .writeSlot value ∧
        s.producer.cachedHead - s.producer.cachedTail ≠ s.inner.capacity) ∧
      s' = { s with producer := { s.producer with phase, result := none } } := by
  unfold push at h
  cases hphase : s.producer.phase with
  | idle =>
    simp only [hphase] at h
    split at h
    · exact ⟨rfl, _, Or.inl rfl, (Option.some.inj h).symm⟩
    · next hne => exact ⟨rfl, _, Or.inr ⟨rfl, (not_or.1 hne).2⟩, (Option.some.inj h).symm⟩
  | _ => simp [hphase] at h

theorem loadTail_cases {i : Nat} (h : s.loadTail i = some s') : ∃ value tail,
    s.producer.phase = .loadTail value ∧ s.tailSeen ≤ i ∧ s.inner.tail.load i = some tail ∧
      (s.producer.cachedHead - tail = s.inner.capacity ∧
        s' = { s with
          producer := { s.producer with
            cachedTail := tail, phase := .idle, result := some (.error ⟨value⟩) }
          tailSeen := i } ∨
      s.producer.cachedHead - tail ≠ s.inner.capacity ∧
        s' = { s with
          producer := { s.producer with cachedTail := tail, phase := .writeSlot value }
          tailSeen := i }) := by
  unfold loadTail at h
  cases hphase : s.producer.phase with
  | loadTail value =>
    simp only [hphase] at h
    split at h
    · next hseen =>
      cases hload : s.inner.tail.load i with
      | none => simp [hload] at h
      | some tail =>
        simp only [hload] at h
        split at h
        · next heq =>
          exact ⟨value, tail, rfl, hseen, rfl, Or.inl ⟨heq, (Option.some.inj h).symm⟩⟩
        · next hne =>
          exact ⟨value, tail, rfl, hseen, rfl, Or.inr ⟨hne, (Option.some.inj h).symm⟩⟩
    · cases h
  | _ => simp [hphase] at h

theorem writeSlot_cases (h : s.writeSlot = some s') : ∃ value,
    s.producer.phase = .writeSlot value ∧
      s' = { s with
        inner := { s.inner with
          buffer := s.inner.buffer.set (s.inner.slotIndex s.producer.cachedHead) (.live value) }
        producer := { s.producer with phase := .storeHead value } } := by
  unfold writeSlot at h
  cases hphase : s.producer.phase with
  | writeSlot value =>
    simp only [hphase] at h
    split at h
    · exact ⟨value, rfl, (Option.some.inj h).symm⟩
    · cases h
  | _ => simp [hphase] at h

theorem storeHead_cases (h : s.storeHead = some s') : ∃ value,
    s.producer.phase = .storeHead value ∧
      s' = { s with
        inner := { s.inner with head := s.inner.head.store (s.producer.cachedHead + 1) }
        producer := { s.producer with
          cachedHead := s.producer.cachedHead + 1, phase := .idle, result := some (.ok ()) }
        pushed := s.pushed ++ [(s.producer.cachedHead, value)] } := by
  unfold storeHead at h
  cases hphase : s.producer.phase with
  | storeHead value =>
    simp only [hphase] at h
    exact ⟨value, rfl, (Option.some.inj h).symm⟩
  | _ => simp [hphase] at h

theorem pop_cases (h : s.pop noCursorCache = some s') :
    s.consumer.phase = .idle ∧ ∃ phase,
      (phase = .loadHead ∨ phase = .readSlot ∧ s.consumer.cachedTail ≠ s.consumer.cachedHead) ∧
      s' = { s with consumer := { s.consumer with phase, result := none } } := by
  unfold pop at h
  cases hphase : s.consumer.phase with
  | idle =>
    simp only [hphase] at h
    split at h
    · exact ⟨rfl, _, Or.inl rfl, (Option.some.inj h).symm⟩
    · next hne => exact ⟨rfl, _, Or.inr ⟨rfl, (not_or.1 hne).2⟩, (Option.some.inj h).symm⟩
  | _ => simp [hphase] at h

theorem loadHead_cases {i : Nat} (h : s.loadHead i = some s') : ∃ head,
    s.consumer.phase = .loadHead ∧ s.headSeen ≤ i ∧ s.inner.head.load i = some head ∧
      (s.consumer.cachedTail = head ∧
        s' = { s with
          consumer := { s.consumer with
            cachedHead := head, phase := .idle, result := some (.error .empty) }
          headSeen := i } ∨
      s.consumer.cachedTail ≠ head ∧
        s' = { s with
          consumer := { s.consumer with cachedHead := head, phase := .readSlot }
          headSeen := i }) := by
  unfold loadHead at h
  cases hphase : s.consumer.phase with
  | loadHead =>
    simp only [hphase] at h
    split at h
    · next hseen =>
      cases hload : s.inner.head.load i with
      | none => simp [hload] at h
      | some head =>
        simp only [hload] at h
        split at h
        · next heq => exact ⟨head, rfl, hseen, rfl, Or.inl ⟨heq, (Option.some.inj h).symm⟩⟩
        · next hne => exact ⟨head, rfl, hseen, rfl, Or.inr ⟨hne, (Option.some.inj h).symm⟩⟩
    · cases h
  | _ => simp [hphase] at h

theorem readSlot_cases (h : s.readSlot = some s') : ∃ slot value slot',
    s.consumer.phase = .readSlot ∧
      s.inner.buffer[s.inner.slotIndex s.consumer.cachedTail]? = some slot ∧
      slot.read = some (value, slot') ∧
      s' = { s with
        inner := { s.inner with
          buffer := s.inner.buffer.set (s.inner.slotIndex s.consumer.cachedTail) slot' }
        consumer := { s.consumer with phase := .storeTail value } } := by
  unfold readSlot at h
  cases hphase : s.consumer.phase with
  | readSlot =>
    simp only [hphase] at h
    split at h
    · cases h
    · next value slot' hread =>
      obtain ⟨slot, hslot, hread⟩ := Option.bind_eq_some_iff.1 hread
      exact ⟨slot, value, slot', rfl, hslot, hread, (Option.some.inj h).symm⟩
  | _ => simp [hphase] at h

theorem storeTail_cases (h : s.storeTail = some s') : ∃ value,
    s.consumer.phase = .storeTail value ∧
      s' = { s with
        inner := { s.inner with tail := s.inner.tail.store (s.consumer.cachedTail + 1) }
        consumer := { s.consumer with
          cachedTail := s.consumer.cachedTail + 1, phase := .idle, result := some (.ok value) }
        popped := s.popped ++ [(s.consumer.cachedTail, value)] } := by
  unfold storeTail at h
  cases hphase : s.consumer.phase with
  | storeTail value =>
    simp only [hphase] at h
    exact ⟨value, rfl, (Option.some.inj h).symm⟩
  | _ => simp [hphase] at h

/-! ## The invariant -/

/-- The cursors of the first `n` positions. -/
def cursors (n : Nat) : List UInt64 := (List.range n).map UInt64.ofNat

theorem cursors_succ (n : Nat) : cursors (n + 1) = cursors n ++ [UInt64.ofNat n] := by
  rw [cursors, List.range_succ, List.map_append]
  rfl

theorem getElem?_cursors {n i : Nat} {cursor : UInt64} (h : (cursors n)[i]? = some cursor) :
    i < n ∧ cursor = UInt64.ofNat i := by
  have hi : i < n := by
    have hlt := (List.getElem?_eq_some_iff.1 h).1
    rwa [cursors, List.length_map, List.length_range] at hlt
  rw [cursors, List.getElem?_map, List.getElem?_range hi] at h
  exact ⟨hi, (Option.some.inj h).symm⟩

/-- The producer is past its checks, and has not stored the head. -/
def Writing (s : Ring T) : Prop :=
  ∃ value, s.producer.phase = .writeSlot value ∨ s.producer.phase = .storeHead value

/-- The consumer is past its checks, and has not stored the tail. -/
def Reading (s : Ring T) : Prop :=
  s.consumer.phase = .readSlot ∨ ∃ value, s.consumer.phase = .storeTail value

/-- What has been written: the pushes that returned, and the one that has yet to store the head. -/
def written (s : Ring T) : List (UInt64 × T) :=
  match s.producer.phase with
  | .storeHead value => s.pushed ++ [(s.producer.cachedHead, value)]
  | _ => s.pushed

/-- What has been read: the pops that returned, and the one that has yet to store the tail. -/
def taken (s : Ring T) : List (UInt64 × T) :=
  match s.consumer.phase with
  | .storeTail value => s.popped ++ [(s.consumer.cachedTail, value)]
  | _ => s.popped

/-- **The invariant** of a ring of capacity `c`. -/
structure Inv (c : UInt64) (s : Ring T) : Prop where
  capacity : s.inner.capacity = c
  mask : s.inner.mask = c - 1
  length : s.inner.buffer.length = c.toNat
  head : s.inner.head.stores = cursors (s.pushed.length + 1)
  tail : s.inner.tail.stores = cursors (s.popped.length + 1)
  -- the producer's copies, and what it may write
  producerHead : s.producer.cachedHead = UInt64.ofNat s.pushed.length
  producerTail : s.producer.cachedTail = UInt64.ofNat s.tailSeen
  tailSeen_le : s.tailSeen ≤ s.popped.length
  pushed_le : s.pushed.length ≤ s.tailSeen + c.toNat
  room : s.Writing → s.pushed.length < s.tailSeen + c.toNat
  -- the consumer's copies, and what it may read
  consumerTail : s.consumer.cachedTail = UInt64.ofNat s.popped.length
  consumerHead : s.consumer.cachedHead = UInt64.ofNat s.headSeen
  headSeen_le : s.headSeen ≤ s.pushed.length
  popped_le : s.popped.length ≤ s.headSeen
  item : s.Reading → s.popped.length < s.headSeen
  -- the buffer
  numbered : s.written.map (·.1) = cursors s.written.length
  content : ∃ unread, s.written = s.taken ++ unread ∧
    Window (s.inner.buffer.map Slot.unread?) s.taken.length (unread.map (·.2))

theorem written_eq_pushed (h : ∀ value, s.producer.phase ≠ .storeHead value) :
    s.written = s.pushed := by
  unfold written
  split
  · next value hphase => exact absurd hphase (h value)
  · rfl

theorem taken_eq_popped (h : ∀ value, s.consumer.phase ≠ .storeTail value) :
    s.taken = s.popped := by
  unfold taken
  split
  · next value hphase => exact absurd hphase (h value)
  · rfl

theorem inv_ringBuffer (h : ringBuffer T c = some s) : isPowerOfTwo c ∧ Inv c s := by
  unfold ringBuffer at h
  split at h
  · split at h
    · next hpow =>
      obtain rfl := Option.some.inj h
      refine ⟨hpow, ⟨rfl, rfl, List.length_replicate, rfl, rfl, rfl, rfl, Nat.le_refl _,
        Nat.zero_le _, ?_, rfl, rfl, Nat.le_refl _, Nat.le_refl _, ?_, rfl, [], rfl, ?_⟩⟩
      · intro hwriting
        obtain ⟨value, hphase | hphase⟩ := hwriting
        · cases hphase
        · cases hphase
      · intro hreading
        obtain hphase | ⟨value, hphase⟩ := hreading
        · cases hphase
        · cases hphase
      · rw [List.map_replicate]
        exact Window.nil _ _
    · cases h
  · cases h

/-! ## Every step keeps it -/

namespace Inv

theorem setProducer (h : Inv c s) (hphase : ∀ value, s.producer.phase ≠ .storeHead value)
    {i : Nat} (hi : s.tailSeen ≤ i) (hpopped : i ≤ s.popped.length) {tail : UInt64}
    (htail : tail = UInt64.ofNat i) {phase : PushPhase T}
    (hne : ∀ value, phase ≠ .storeHead value)
    (hroom : (∃ value, phase = .writeSlot value) → s.pushed.length < i + c.toNat)
    (result : Option (Except (Full T) Unit)) :
    Inv c { s with
      producer := { s.producer with cachedTail := tail, phase, result }
      tailSeen := i } := by
  have hwritten := written_eq_pushed hphase
  have hpushed := h.pushed_le
  have hnumbered := h.numbered
  have hcontent := h.content
  rw [hwritten] at hnumbered hcontent
  refine { h with
    producerTail := htail
    tailSeen_le := hpopped
    pushed_le := Nat.le_trans hpushed (Nat.add_le_add_right hi _)
    room := ?_
    numbered := ?_
    content := ?_ }
  · intro hwriting
    obtain ⟨value, hwrite | hstore⟩ := hwriting
    · exact hroom ⟨value, hwrite⟩
    · exact absurd hstore (hne value)
  · rw [written_eq_pushed hne]
    exact hnumbered
  · rw [written_eq_pushed hne]
    exact hcontent

theorem setConsumer (h : Inv c s) (hphase : ∀ value, s.consumer.phase ≠ .storeTail value)
    {i : Nat} (hi : s.headSeen ≤ i) (hpushed : i ≤ s.pushed.length) {head : UInt64}
    (hhead : head = UInt64.ofNat i) {phase : PopPhase T}
    (hne : ∀ value, phase ≠ .storeTail value)
    (hitem : phase = .readSlot → s.popped.length < i) (result : Option (Except Empty T)) :
    Inv c { s with
      consumer := { s.consumer with cachedHead := head, phase, result }
      headSeen := i } := by
  have hcontent := h.content
  rw [taken_eq_popped hphase] at hcontent
  refine { h with
    consumerHead := hhead
    headSeen_le := hpushed
    popped_le := Nat.le_trans h.popped_le hi
    item := ?_
    content := ?_ }
  · intro hreading
    obtain hread | ⟨value, hstore⟩ := hreading
    · exact hitem hread
    · exact absurd hstore (hne value)
  · rw [taken_eq_popped hne]
    exact hcontent

theorem lt_word {n : Nat} (h : n ≤ c.toNat) : n < 2 ^ 64 :=
  Nat.lt_of_le_of_lt h c.toNat_lt

theorem push (h : Inv c s) {value : T} (hs : s.push noCursorCache value = some s') : Inv c s' := by
  obtain ⟨hidle, phase, hphase, rfl⟩ := push_cases hs
  refine h.setProducer (by simp [hidle]) (Nat.le_refl _) h.tailSeen_le h.producerTail ?_ ?_ none
  · rcases hphase with rfl | ⟨rfl, -⟩ <;> simp
  · intro hwrite
    rcases hphase with rfl | ⟨rfl, hne⟩
    · simp at hwrite
    · have hle := h.tailSeen_le
      have hpopped := h.popped_le
      have hhead := h.headSeen_le
      have hpushed := h.pushed_le
      rw [h.producerHead, h.producerTail, h.capacity, Ne,
        sub_eq_iff (by omega) (lt_word (c := c) (by omega))] at hne
      omega

theorem loadTail (h : Inv c s) {i : Nat} (hs : s.loadTail i = some s') : Inv c s' := by
  obtain ⟨value, tail, hphase, hseen, hload, hcases⟩ := loadTail_cases hs
  rw [AtomicUsize.load, h.tail] at hload
  obtain ⟨hi, htail⟩ := getElem?_cursors hload
  have hphase' : ∀ value, s.producer.phase ≠ .storeHead value := by simp [hphase]
  rcases hcases with ⟨-, rfl⟩ | ⟨hne, rfl⟩
  · exact h.setProducer hphase' hseen (by omega) htail (by simp) (by simp) _
  · refine h.setProducer hphase' hseen (by omega) htail (by simp) ?_ _
    intro _
    have hpopped := h.popped_le
    have hhead := h.headSeen_le
    have hpushed := h.pushed_le
    rw [h.producerHead, htail, h.capacity, Ne,
      sub_eq_iff (by omega) (lt_word (c := c) (by omega))] at hne
    omega

theorem pop (h : Inv c s) (hs : s.pop noCursorCache = some s') : Inv c s' := by
  obtain ⟨hidle, phase, hphase, rfl⟩ := pop_cases hs
  refine h.setConsumer (by simp [hidle]) (Nat.le_refl _) h.headSeen_le h.consumerHead ?_ ?_ none
  · rcases hphase with rfl | ⟨rfl, -⟩ <;> simp
  · intro hread
    rcases hphase with rfl | ⟨rfl, hne⟩
    · cases hread
    · have hle := h.popped_le
      rw [h.consumerTail, h.consumerHead] at hne
      exact Nat.lt_of_le_of_ne hle fun heq => hne (by rw [heq])

theorem loadHead (h : Inv c s) {i : Nat} (hs : s.loadHead i = some s') : Inv c s' := by
  obtain ⟨head, hphase, hseen, hload, hcases⟩ := loadHead_cases hs
  rw [AtomicUsize.load, h.head] at hload
  obtain ⟨hi, hhead⟩ := getElem?_cursors hload
  have hphase' : ∀ value, s.consumer.phase ≠ .storeTail value := by simp [hphase]
  rcases hcases with ⟨-, rfl⟩ | ⟨hne, rfl⟩
  · exact h.setConsumer hphase' hseen (by omega) hhead (by simp) (by simp) _
  · refine h.setConsumer hphase' hseen (by omega) hhead (by simp) ?_ _
    intro _
    have hpopped := h.popped_le
    rw [h.consumerTail, hhead] at hne
    exact Nat.lt_of_le_of_ne (by omega) fun heq => hne (by rw [heq])

theorem slotIndex_eq (h : Inv c s) (hpow : isPowerOfTwo c) (n : Nat) :
    s.inner.slotIndex (UInt64.ofNat n) = n % s.inner.buffer.length := by
  obtain ⟨k, -, hk⟩ := hpow
  rw [RingBufferInner.slotIndex, h.mask, toNat_and_mask hk, h.length]

/-- What the producer is about to overwrite is the free position behind the window. -/
theorem unread_lt (h : Inv c s) {value : T} (hphase : s.producer.phase = .writeSlot value)
    {unread : List (UInt64 × T)} (hunread : s.written = s.taken ++ unread) :
    s.pushed.length = s.taken.length + unread.length ∧
      unread.length < s.inner.buffer.length := by
  have hwritten : s.written = s.pushed := written_eq_pushed (by simp [hphase])
  have hlen : s.pushed.length = s.taken.length + unread.length := by
    rw [← hwritten, hunread, List.length_append]
  have hroom := h.room ⟨value, Or.inl hphase⟩
  have hseen := h.tailSeen_le
  have htaken : s.popped.length ≤ s.taken.length := by
    unfold taken
    split
    · rw [List.length_append]
      exact Nat.le_add_right _ _
    · exact Nat.le_refl _
  rw [h.length]
  omega

theorem writeSlot (h : Inv c s) (hpow : isPowerOfTwo c) (hs : s.writeSlot = some s') :
    Inv c s' := by
  obtain ⟨value, hphase, rfl⟩ := writeSlot_cases hs
  have hwritten : s.written = s.pushed := written_eq_pushed (by simp [hphase])
  obtain ⟨unread, hunread, hwindow⟩ := h.content
  obtain ⟨hlen, hlt⟩ := h.unread_lt hphase hunread
  have hindex := h.slotIndex_eq hpow s.pushed.length
  rw [← h.producerHead] at hindex
  have hnumbered := h.numbered
  rw [hwritten] at hnumbered hunread
  refine { h with
    length := ?_
    room := fun _ => h.room ⟨value, Or.inl hphase⟩
    numbered := ?_
    content := ⟨unread ++ [(s.producer.cachedHead, value)], ?_, ?_⟩ }
  · rw [List.length_set]
    exact h.length
  · show (s.pushed ++ [(s.producer.cachedHead, value)]).map (·.1) = cursors (s.pushed ++ [_]).length
    rw [List.map_append, hnumbered, List.length_append, List.length_singleton, cursors_succ,
      h.producerHead]
    rfl
  · show s.pushed ++ [_] = s.taken ++ _
    rw [hunread, List.append_assoc]
  · show Window ((s.inner.buffer.set _ _).map Slot.unread?) s.taken.length _
    have hpush := hwindow.push (by rwa [List.length_map, List.length_map]) value
    rw [List.length_map, List.length_map, ← hlen, ← hindex] at hpush
    rw [List.map_set, List.map_append]
    exact hpush

theorem storeHead (h : Inv c s) (hs : s.storeHead = some s') : Inv c s' := by
  obtain ⟨value, hphase, rfl⟩ := storeHead_cases hs
  have hwritten : s.written = s.pushed ++ [(s.producer.cachedHead, value)] := by
    simp [written, hphase]
  have hroom := h.room ⟨value, Or.inr hphase⟩
  have hnumbered := h.numbered
  have hcontent := h.content
  rw [hwritten] at hnumbered hcontent
  have hlen : (s.pushed ++ [(s.producer.cachedHead, value)]).length = s.pushed.length + 1 := by
    rw [List.length_append, List.length_singleton]
  refine { h with
    head := ?_
    producerHead := ?_
    pushed_le := ?_
    room := ?_
    headSeen_le := ?_
    numbered := hnumbered
    content := hcontent }
  · show s.inner.head.stores ++ [s.producer.cachedHead + 1] = _
    rw [h.head, hlen, cursors_succ (s.pushed.length + 1), h.producerHead, ofNat_succ]
  · show s.producer.cachedHead + 1 = _
    rw [hlen, h.producerHead, ofNat_succ]
  · rw [hlen]
    exact hroom
  · intro hwriting
    obtain ⟨_, hidle | hidle⟩ := hwriting
    · cases hidle
    · cases hidle
  · rw [hlen]
    exact Nat.le_succ_of_le h.headSeen_le

/-- What the consumer is about to read is the front of the window. -/
theorem exists_unread (h : Inv c s) (hphase : s.consumer.phase = .readSlot) :
    ∃ value unread, s.written = s.popped ++ (s.consumer.cachedTail, value) :: unread ∧
      Window (s.inner.buffer.map Slot.unread?) s.popped.length
        (value :: unread.map (·.2)) := by
  obtain ⟨unread, hunread, hwindow⟩ := h.content
  have hnumbered := h.numbered
  rw [taken_eq_popped (by simp [hphase])] at hunread hwindow
  have hitem := h.item (Or.inl hphase)
  have hseen := h.headSeen_le
  have hpushed : s.pushed.length ≤ s.written.length := by
    unfold written
    split
    · rw [List.length_append]
      exact Nat.le_add_right _ _
    · exact Nat.le_refl _
  cases unread with
  | nil =>
    rw [hunread, List.append_nil] at hpushed
    omega
  | cons front unread =>
    obtain ⟨cursor, value⟩ := front
    -- the entry at this position has the cursor of this position
    have hcursor : cursor = UInt64.ofNat s.popped.length := by
      have hget : (s.written.map (·.1))[s.popped.length]? = some cursor := by
        rw [hunread, List.getElem?_map, List.getElem?_append_right (Nat.le_refl _), Nat.sub_self]
        rfl
      rw [hnumbered] at hget
      exact (getElem?_cursors hget).2
    rw [← h.consumerTail] at hcursor
    subst hcursor
    exact ⟨value, unread, hunread, hwindow⟩

theorem getElem?_readSlot (h : Inv c s) (hpow : isPowerOfTwo c) {value : T} {vs : List T}
    (hwindow : Window (s.inner.buffer.map Slot.unread?) s.popped.length (value :: vs)) :
    s.inner.buffer[s.inner.slotIndex s.consumer.cachedTail]? = some (.live value) := by
  have hfront := hwindow.front
  rw [List.length_map, ← h.slotIndex_eq hpow, ← h.consumerTail, List.getElem?_map] at hfront
  obtain ⟨slot, hslot, hlive⟩ := Option.map_eq_some_iff.1 hfront
  rw [hslot]
  cases slot with
  | live value' => rw [Option.some.inj hlive]
  | _ => cases hlive

theorem readSlot (h : Inv c s) (hpow : isPowerOfTwo c) (hs : s.readSlot = some s') :
    Inv c s' := by
  obtain ⟨slot, value, slot', hphase, hslot, hread, rfl⟩ := readSlot_cases hs
  obtain ⟨front, unread, hunread, hwindow⟩ := h.exists_unread hphase
  rw [h.getElem?_readSlot hpow hwindow] at hslot
  obtain rfl := Option.some.inj hslot
  cases hread
  have hindex := h.slotIndex_eq hpow s.popped.length
  rw [← h.consumerTail] at hindex
  refine { h with
    length := ?_
    item := fun _ => h.item (Or.inl hphase)
    content := ⟨unread, ?_, ?_⟩ }
  · rw [List.length_set]
    exact h.length
  · show s.written = (s.popped ++ [(s.consumer.cachedTail, value)]) ++ unread
    rw [hunread, List.append_assoc]
    rfl
  · show Window ((s.inner.buffer.set _ _).map Slot.unread?)
      (s.popped ++ [(s.consumer.cachedTail, value)]).length _
    have hpop := hwindow.pop
    rw [List.length_map, ← hindex] at hpop
    rw [List.map_set, List.length_append]
    exact hpop

theorem storeTail (h : Inv c s) (hs : s.storeTail = some s') : Inv c s' := by
  obtain ⟨value, hphase, rfl⟩ := storeTail_cases hs
  have htaken : s.taken = s.popped ++ [(s.consumer.cachedTail, value)] := by
    simp [taken, hphase]
  have hitem := h.item (Or.inr ⟨value, hphase⟩)
  have hcontent := h.content
  rw [htaken] at hcontent
  have hlen : (s.popped ++ [(s.consumer.cachedTail, value)]).length = s.popped.length + 1 := by
    rw [List.length_append, List.length_singleton]
  refine { h with
    tail := ?_
    tailSeen_le := ?_
    consumerTail := ?_
    popped_le := ?_
    item := ?_
    content := hcontent }
  · show s.inner.tail.stores ++ [s.consumer.cachedTail + 1] = _
    rw [h.tail, hlen, cursors_succ (s.popped.length + 1), h.consumerTail, ofNat_succ]
  · rw [hlen]
    exact Nat.le_succ_of_le h.tailSeen_le
  · show s.consumer.cachedTail + 1 = _
    rw [hlen, h.consumerTail, ofNat_succ]
  · rw [hlen]
    exact hitem
  · intro hreading
    obtain hidle | ⟨_, hidle⟩ := hreading
    · cases hidle
    · cases hidle

/-- **Every step of either thread keeps the invariant.** -/
theorem step (h : Inv c s) (hpow : isPowerOfTwo c) {event : RingEvent T}
    (hs : s.step noCursorCache event = some s') : Inv c s' := by
  cases event with
  | push value => exact h.push hs
  | loadTail i => exact h.loadTail hs
  | writeSlot => exact h.writeSlot hpow hs
  | storeHead => exact h.storeHead hs
  | pop => exact h.pop hs
  | loadHead i => exact h.loadHead hs
  | readSlot => exact h.readSlot hpow hs
  | storeTail => exact h.storeTail hs

end Inv

theorem run_cons {event : RingEvent T} {events : List (RingEvent T)}
    (h : s.run noCursorCache (event :: events) = some s') :
    ∃ s₁, s.step noCursorCache event = some s₁ ∧ s₁.run noCursorCache events = some s' := by
  rw [run] at h
  cases hs : s.step noCursorCache event with
  | none => simp [hs] at h
  | some s₁ =>
    simp only [hs] at h
    exact ⟨s₁, rfl, h⟩

theorem Inv.run (h : Inv c s) (hpow : isPowerOfTwo c) {events : List (RingEvent T)}
    (hrun : s.run noCursorCache events = some s') : Inv c s' := by
  induction events generalizing s with
  | nil =>
    obtain rfl := Option.some.inj hrun
    exact h
  | cons event events ih =>
    obtain ⟨s₁, hs, hrun⟩ := run_cons hrun
    exact ih (h.step hpow hs) hrun

/-- The states that some interleaving leads to. -/
def Reachable (noCursorCache : Bool) (c : UInt64) (s : Ring T) : Prop :=
  ∃ s₀ events, ringBuffer T c = some s₀ ∧ s₀.run noCursorCache events = some s

theorem Reachable.inv (h : Reachable noCursorCache c s) : isPowerOfTwo c ∧ Inv c s := by
  obtain ⟨s₀, events, hmade, hrun⟩ := h
  obtain ⟨hpow, hinv⟩ := inv_ringBuffer hmade
  exact ⟨hpow, hinv.run hpow hrun⟩

end Ring

end Ferrox
