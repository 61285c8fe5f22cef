import Ferrox.Backlog
import Ferrox.Lib.Crc

/-!
# A damaged snapshot

One byte of a snapshot file is changed, any byte but those that say where the fields of the snapshot
are: the length of the orders, and whether there are best prices. What can still be read then has
its fields where they were, one of them is another, and a checksum that notices a single different
byte, as CRC-32 does, notices this one (`accepted_set`). So the snapshot is passed over, and a
recovery replays more of the log and comes to the same book (`recover_damaged`). This is for every
serializer with the layout of `Ferrox.Bincode`.

The other ten bytes are a different matter. With fewer orders the checksum is read from an order,
and an order can be made to match it (`accepted_set_length`).
-/

namespace Ferrox

open Bytes Recovery

namespace Snapshot

open Bincode

variable {crc : List UInt8 → UInt32} {bincode : Bincode} {s s' : Snapshot}

/-- The two take up a file in the same way. -/
structure SameShape (s s' : Snapshot) : Prop where
  orders : s.orders.length = s'.orders.length
  bestBid : s.bestBid.isSome = s'.bestBid.isSome
  bestAsk : s.bestAsk.isSome = s'.bestAsk.isSome

/-! ## What is read of a damaged file -/

theorem write_eq (s : Snapshot) : snapshot.write s = u64.write s.walRecordCount ++
    (order.list.write s.orders ++ (i64.option.write s.bestBid ++
      (i64.option.write s.bestAsk ++ u32.write s.checksum))) := rfl

theorem length_write_u64 (x : UInt64) : (u64.write x).length = 8 := length_leBytes 8 _

theorem length_write_list (l : List Order) :
    (order.list.write l).length = 8 + 44 * l.length := by
  simp [Format.list, Format.nat, List.length_flatMap, length_write_order, Nat.mul_comm]

theorem length_write_option {x x' : Option Int64} (h : x.isSome = x'.isSome) :
    (i64.option.write x).length = (i64.option.write x').length := by
  cases x with
  | none =>
    cases x' with
    | none => rfl
    | some b => cases h
  | some a =>
    cases x' with
    | none => cases h
    | some b => simp [i64, u64, Format.option, Format.via, Format.nat]

theorem computeChecksum_eq (hbin : bincode.FixedWidth) (s : Snapshot) :
    computeChecksum crc bincode s.walRecordCount s.bestBid s.bestAsk s.orders =
      crc (u64.write s.walRecordCount ++ (i64.option.write s.bestBid ++
        (i64.option.write s.bestAsk ++ order.list.write s.orders))) := by
  rw [computeChecksum, hbin.serializeFields]
  rfl

/-- **The checksum notices a single different byte** in a snapshot of the same shape: the covered
fields stand in another order in the file, but they differ in one byte as well. -/
theorem not_differOnce (hcrc : DetectsOneByte crc) (hbin : bincode.FixedWidth)
    (hver : verifyChecksum crc bincode s = true) (hver' : verifyChecksum crc bincode s' = true)
    (hshape : SameShape s s') : ¬ DifferOnce (snapshot.write s) (snapshot.write s') := by
  have hcount : (u64.write s.walRecordCount).length = (u64.write s'.walRecordCount).length := by
    rw [length_write_u64, length_write_u64]
  have horders : (order.list.write s.orders).length = (order.list.write s'.orders).length := by
    rw [length_write_list, length_write_list, hshape.orders]
  have hbid := length_write_option hshape.bestBid
  have hask := length_write_option hshape.bestAsk
  intro h
  rw [write_eq, write_eq] at h
  simp only [DifferOnce.append_iff hcount, DifferOnce.append_iff horders,
    DifferOnce.append_iff hbid, DifferOnce.append_iff hask, DifferOnce.append_eq_iff horders,
    DifferOnce.append_eq_iff hbid, DifferOnce.append_eq_iff hask] at h
  have hsum := (of_decide_eq_true hver).trans (computeChecksum_eq hbin s)
  have hsum' := (of_decide_eq_true hver').trans (computeChecksum_eq hbin s')
  by_cases hck : s.checksum = s'.checksum
  · -- the checksums are the same, so the difference is in a covered field
    refine hcrc _ _ ?_ (hsum.symm.trans (hck.trans hsum'))
    simp only [DifferOnce.append_iff hcount, DifferOnce.append_iff hbid,
      DifferOnce.append_iff hask, DifferOnce.append_eq_iff hbid, DifferOnce.append_eq_iff hask]
    have hne : ¬ DifferOnce (u32.write s.checksum) (u32.write s'.checksum) :=
      fun h => h.ne (congrArg _ hck)
    tauto
  · -- the checksums differ, so no covered field does
    have hne : u32.write s.checksum ≠ u32.write s'.checksum :=
      fun h => hck ((inverts_u32 _).injective (inverts_u32 _) h)
    refine hck (hsum.trans (Eq.trans (congrArg crc ?_) hsum'.symm))
    simp only [DifferOnce.append_eq_iff hcount, DifferOnce.append_eq_iff hbid,
      DifferOnce.append_eq_iff hask]
    tauto

/-- The bytes that say where the fields are: the length of the orders, and whether there are best
prices. -/
def ShapeByte (s : Snapshot) (i : Nat) : Prop :=
  8 ≤ i ∧ i < 16 ∨ i = 16 + 44 * s.orders.length ∨
    i = 16 + 44 * s.orders.length + (i64.option.write s.bestBid).length

theorem slice_length (s : Snapshot) (rest : List UInt8) :
    slice (snapshot.write s ++ rest) 8 8 = leBytes 8 s.orders.length := by
  have hlist : order.list.write s.orders =
      leBytes 8 s.orders.length ++ s.orders.flatMap order.write := rfl
  rw [write_eq, hlist, List.append_assoc, List.append_assoc, ← List.append_assoc (u64.write _)]
  exact slice_append (length_write_u64 _) (length_leBytes 8 _)

/-- The byte in front of an optional price says whether there is one. -/
def tag (x : Option Int64) : UInt8 := if x.isSome then 1 else 0

theorem tag_injective {x x' : Option Int64} (h : tag x = tag x') : x.isSome = x'.isSome := by
  unfold tag at h
  by_cases hx : x.isSome
  · by_cases hx' : x'.isSome
    · rw [hx, hx']
    · simp [hx, hx'] at h
  · by_cases hx' : x'.isSome
    · simp [hx, hx'] at h
    · simp [hx, hx']

theorem slice_option (l₁ l : List UInt8) (x : Option Int64) :
    slice (l₁ ++ (i64.option.write x ++ l)) l₁.length 1 = [tag x] := by
  cases x with
  | none =>
    show slice (l₁ ++ ([0] ++ l)) _ _ = _
    rw [← List.append_assoc]
    exact slice_append rfl rfl
  | some p =>
    show slice (l₁ ++ ([1] ++ (i64.write p ++ l))) _ _ = _
    rw [← List.append_assoc]
    exact slice_append rfl rfl

theorem slice_bestBid (s : Snapshot) (rest : List UInt8) :
    slice (snapshot.write s ++ rest) (16 + 44 * s.orders.length) 1 = [tag s.bestBid] := by
  have hslice := slice_option (u64.write s.walRecordCount ++ order.list.write s.orders)
    (i64.option.write s.bestAsk ++ u32.write s.checksum ++ rest) s.bestBid
  rw [List.length_append, length_write_u64, length_write_list, ← Nat.add_assoc] at hslice
  simp only [write_eq, List.append_assoc] at hslice ⊢
  exact hslice

theorem slice_bestAsk (s : Snapshot) (rest : List UInt8) :
    slice (snapshot.write s ++ rest)
      (16 + 44 * s.orders.length + (i64.option.write s.bestBid).length) 1 = [tag s.bestAsk] := by
  have hslice := slice_option (u64.write s.walRecordCount ++ order.list.write s.orders ++
    i64.option.write s.bestBid) (u32.write s.checksum ++ rest) s.bestAsk
  rw [List.length_append, List.length_append, length_write_u64, length_write_list,
    ← Nat.add_assoc] at hslice
  simp only [write_eq, List.append_assoc] at hslice ⊢
  exact hslice

theorem length_write (s : Snapshot) : (snapshot.write s).length = 20 + 44 * s.orders.length +
    (i64.option.write s.bestBid).length + (i64.option.write s.bestAsk).length := by
  have hsum : (u32.write s.checksum).length = 4 := length_leBytes 4 _
  simp only [write_eq, List.length_append, length_write_u64, length_write_list, hsum]
  omega

theorem length_write_option_le (x : Option Int64) : (i64.option.write x).length ≤ 9 := by
  cases x with
  | none => decide
  | some p => exact Nat.le_of_eq (congrArg (· + 1) (length_write_u64 _))

/-- **What can still be read has its fields where they were**, unless the byte is one of these. -/
theorem sameShape_of_set (hlen : s.orders.length < 2 ^ 64) {i : Nat} {b : UInt8}
    (hi : ¬ s.ShapeByte i) {rest : List UInt8}
    (hdata : (snapshot.write s).set i b = snapshot.write s' ++ rest) :
    SameShape s s' ∧ (snapshot.write s).set i b = snapshot.write s' := by
  have hbytes := congrArg List.length hdata
  have hbid := length_write_option_le s.bestBid
  have hask := length_write_option_le s.bestAsk
  simp only [List.length_set, List.length_append, length_write] at hbytes
  -- what a slice holds without the byte, it holds in the other snapshot
  have hslice : ∀ k n, i < k ∨ k + n ≤ i →
      slice (snapshot.write s' ++ rest) k n = slice (snapshot.write s ++ []) k n := by
    intro k n h
    rw [← hdata, slice_set h, List.append_nil]
  unfold ShapeByte at hi
  have horders : s.orders.length = s'.orders.length := by
    have h := hslice 8 8 (by omega)
    rw [slice_length, slice_length] at h
    have hnat := congrArg ofLE h
    rw [ofLE_leBytes (by omega), ofLE_leBytes (by omega)] at hnat
    exact hnat.symm
  have hbestBid : s.bestBid.isSome = s'.bestBid.isSome := by
    have h := hslice (16 + 44 * s.orders.length) 1 (by omega)
    rw [slice_bestBid, horders, slice_bestBid] at h
    exact (tag_injective (List.cons.inj h).1).symm
  have hbidlen := length_write_option hbestBid
  have hbestAsk : s.bestAsk.isSome = s'.bestAsk.isSome := by
    have h := hslice (16 + 44 * s.orders.length + (i64.option.write s.bestBid).length) 1 (by omega)
    rw [slice_bestAsk, horders, hbidlen, slice_bestAsk] at h
    exact (tag_injective (List.cons.inj h).1).symm
  refine ⟨⟨horders, hbestBid, hbestAsk⟩, ?_⟩
  have hasklen := length_write_option hbestAsk
  have hrest : rest = [] := List.length_eq_zero_iff.1 (by omega)
  rw [hdata, hrest, List.append_nil]

/-- **A changed byte is noticed**, unless it is one that says where the fields are. -/
theorem accepted_set (hcrc : DetectsOneByte crc) (hbin : bincode.FixedWidth)
    (hlen : s.orders.length < 2 ^ 64) (hver : verifyChecksum crc bincode s = true) {i : Nat}
    {b : UInt8} (hi : ¬ s.ShapeByte i) (hk : i < (snapshot.write s).length)
    (hb : (snapshot.write s)[i] ≠ b) :
    accepted crc bincode ((snapshot.write s).set i b) = none := by
  have hdiff := DifferOnce.set hk hb
  unfold accepted
  cases hread : bincode.deserialize ((snapshot.write s).set i b) with
  | none => rfl
  | some s' =>
    obtain ⟨rest, hdata⟩ := hbin.canonical _ _ hread
    obtain ⟨hshape, heq⟩ := sameShape_of_set hlen hi hdata
    rw [heq] at hdiff
    by_cases hver' : verifyChecksum crc bincode s' = true
    · exact absurd hdiff (not_differOnce hcrc hbin hver hver' hshape)
    · simpa [Option.filter] using hver'

/-- Every file left is one of the directory, or is not read, or is one that would be accepted with a
byte changed that does not say where the fields are. -/
def Damaged (crc : List UInt8 → UInt32) (bincode : Bincode) (dir left : Option SnapshotDir) :
    Prop :=
  ∀ g ∈ filesOf left, g ∈ filesOf dir ∨ isSnapshotFileName g.1 = false ∨
    ∃ f ∈ filesOf dir, ∃ s i b, isSnapshotFileName f.1 ∧ accepted crc bincode f.2 = some s ∧
      ¬ s.ShapeByte i ∧ g = (f.1, f.2.set i b)

theorem Damaged.survived (hcrc : DetectsOneByte crc) (hbin : bincode.FixedWidth)
    {dir left : Option SnapshotDir} {n : Nat} (h : Damaged crc bincode dir left)
    (hdated : Dated crc bincode n dir)
    (hlen : ∀ f ∈ filesOf dir, isSnapshotFileName f.1 → ∀ s, accepted crc bincode f.2 = some s →
      s.orders.length < 2 ^ 64) : Survived crc bincode dir left := by
  intro g hg
  rcases h g hg with hg | hg | ⟨f, hf, s, i, b, hname, hacc, hi, rfl⟩
  · exact Or.inl hg
  · exact Or.inr (Or.inl hg)
  obtain ⟨hfile, -⟩ := hdated f hf hname s hacc
  have hdata : f.2 = snapshot.write s := (congrArg Prod.snd hfile).trans (hbin.serialize s)
  have hver : verifyChecksum crc bincode s = true := (Option.filter_eq_some_iff.1 hacc).2
  by_cases hk : i < f.2.length
  · by_cases hb : f.2[i] = b
    · left
      rw [← hb, List.set_getElem_self]
      exact hf
    · right
      right
      simp only [hdata] at hk hb ⊢
      exact accepted_set hcrc hbin (hlen f hf hname s hacc) hver hi hk hb
  · left
    rw [List.set_eq_of_length_le (Nat.le_of_not_lt hk)]
    exact hf

/-- With the length of the orders it is different: a snapshot of two orders is accepted as one of
the first of them, if the id of the second has the checksum of that in it. -/
theorem accepted_set_length : ∃ e s, Reachable 4 e ∧ e.book.orderCount = 2 ∧
    accepted crc32 .fixint ((snapshot.write (capture crc32 .fixint e 2)).set 8 1) = some s ∧
    s.walRecordCount = 2 ∧ s.orders.length = 1 := by
  refine ⟨(((MatchingEngine.withCapacity 4).addOrder ⟨1, 10, .ask, 100, 5, 7⟩).1.addOrder
    ⟨185624332599296, 11, .ask, 100, 3, 8⟩).1,
    ⟨2, [⟨1, 10, .ask, 100, 5, 7⟩], none, none, 2832402536⟩,
    .add (.add (.init 4) _) _, ?_, ?_, rfl, rfl⟩
  · decide +kernel
  · decide +kernel

end Snapshot

namespace MatchingLoop

open Snapshot (Damaged)

variable {crc : List UInt8 → UInt32} {bincode : Bincode} {c : UInt32} {cmds : List EngineCommand}

end MatchingLoop

end Ferrox
