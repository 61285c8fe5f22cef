import Ferrox.CrashRecovery
import Ferrox.RecoverTwice
import Ferrox.Rejection

/-!
# Recovering with a larger arena

A command is logged before it is matched, and that it was refused is not logged. So a replay decides
again what to refuse, and an order that found the arena full is queued by a replay that has more
room.

On the price-time book the size of the arena plays no part in anything else: `Book.resize` commutes
with every command but a new order that is out of room (`Book.apply_resize`). From that, a recovery
with a larger arena reproduces the live book, and refuses what was refused, just in case no order
behind its snapshot was out of room (`larger_arena_iff`).
-/

namespace Ferrox

open Bytes Framing

/-! ## The room of a price-time book -/

namespace Book

variable {B : Book} {o : Order} {c : Nat}

/-- The same orders, and another arena. -/
def resize (B : Book) (c : Nat) : Book := { B with capacity := c }

theorem resize_self (h : B.capacity = c) : B.resize c = B := by
  subst h
  rfl

/-! ### Commands in an arena of another size -/

theorem insert_resize (hc : B.capacity ≤ c) (h : (B.insert o).2 ≠ .error .arenaFull) :
    (B.resize c).insert o = ((B.insert o).1.resize c, (B.insert o).2) := by
  have horders : (B.resize c).orders = B.orders := rfl
  rcases insert_cases B o with ⟨hid, hi⟩ | ⟨-, -, hi⟩ | ⟨hid, hroom, hi⟩
  · rw [hi, insert, horders, if_pos hid]
  · rw [hi] at h
    exact absurd rfl h
  · have hroom' : ¬ (B.resize c).capacity ≤ B.orders.length :=
      not_le.2 (lt_of_lt_of_le hroom hc)
    rw [hi, insert, horders, if_neg hid, if_neg hroom']
    rfl

/-- An order that does not find the arena full does not see its size. -/
theorem add_resize (hc : B.capacity ≤ c) (h : (B.add o).2 ≠ .error (.book .arenaFull)) :
    (B.resize c).add o = ((B.add o).1.resize c, (B.add o).2) := by
  have hswept : (B.resize c).swept o = B.swept o := rfl
  have hafter : (B.resize c).afterSweep o = (B.afterSweep o).resize c := rfl
  have hrem : (B.resize c).remainder o = B.remainder o := rfl
  have hc' : (B.afterSweep o).capacity ≤ c := hc
  unfold add at h ⊢
  simp only [hswept, hafter, hrem]
  split_ifs at h ⊢
  · rfl
  · rfl
  · rfl
  all_goals
    have hi : ((B.afterSweep o).insert (B.remainder o)).2 ≠ .error .arenaFull := by
      intro hfull
      generalize (B.afterSweep o).insert (B.remainder o) = r at h hfull
      obtain ⟨B', res⟩ := r
      subst hfull
      exact h rfl
    rw [insert_resize hc' hi]
    generalize (B.afterSweep o).insert (B.remainder o) = r
    obtain ⟨B', res⟩ := r
    cases res <;> rfl

theorem cancel_resize (B : Book) (c : Nat) (id : UInt64) :
    (B.resize c).cancel id = ((B.cancel id).1.resize c, (B.cancel id).2) := by
  have horders : (B.resize c).orders = B.orders := rfl
  unfold cancel
  rw [horders]
  cases B.orders.find? (·.id = id) with
  | none => rfl
  | some x => rfl

/-- The command is refused. -/
def Refuses (B : Book) : EngineCommand → Prop
  | .newOrder order => ∃ err, (B.add order).2 = .error err
  | .cancelOrder orderId => ∃ err, (B.cancel orderId).2 = .error err

/-- **A command that is not out of room** has the same effect in a larger arena, and is refused there
if it was. -/
theorem apply_resize (h : B.WF) (hc : B.capacity ≤ c) {cmd : EngineCommand}
    (hroom : ∀ o, cmd = .newOrder o → ¬ OutOfRoom B.orders B.capacity o) :
    (B.resize c).apply cmd = (B.apply cmd).resize c ∧
      ((B.resize c).Refuses cmd ↔ B.Refuses cmd) := by
  cases cmd with
  | newOrder o =>
    have hadd := add_resize hc (mt (arenaFull_iff h o).1 (hroom o rfl))
    exact ⟨congrArg Prod.fst hadd, by simp only [Refuses, hadd]⟩
  | cancelOrder id =>
    have hcancel := cancel_resize B c id
    exact ⟨congrArg Prod.fst hcancel, by simp only [Refuses, hcancel]⟩

/-- **An order that is out of room** is refused, and would not be in a larger arena. -/
theorem OutOfRoom.refuses (h : B.WF) (hc : B.capacity < c) (ho : OutOfRoom B.orders B.capacity o) :
    B.Refuses (.newOrder o) ∧ ¬ (B.resize c).Refuses (.newOrder o) := by
  refine ⟨⟨_, (arenaFull_iff h o).2 ho⟩, ?_⟩
  obtain ⟨hq, hcross, hid, -⟩ := ho
  have hid' : o.id ∉ B.orders.map (·.id) := by simpa using hid
  have horders : (B.resize c).orders = B.orders := rfl
  have hroom : ¬ (B.resize c).capacity ≤ B.orders.length := not_le.2 (lt_of_le_of_lt h.room hc)
  have hcross' : ∀ m ∈ (B.resize c).side o.side.opposite, ¬ crosses o m.price :=
    (not_crosses_iff h o).1 hcross
  show ¬ ∃ err, ((B.resize c).add o).2 = .error err
  rw [add_of_not_crosses hq hcross']
  simp only [insert, horders, if_neg hid', if_neg hroom]
  intro herr
  obtain ⟨err, herr⟩ := herr
  cases herr

/-! ### Runs of commands -/

theorem wf_applyAll_empty (c : UInt32) (cmds : List EngineCommand) :
    ((empty c.toNat).applyAll cmds).WF := by
  obtain ⟨hwf, hbook⟩ := MatchingEngine.fresh_applyAll c cmds
  exact hbook ▸ hwf.wf_toBook

theorem refuses_untimed (B : Book) (cmd : EngineCommand) :
    B.untimed.Refuses cmd.untimed ↔ B.Refuses cmd := by
  cases cmd with
  | newOrder o =>
    show (∃ err, (B.untimed.add o.untimed).2 = _) ↔ _
    rw [add_untimed]
    rfl
  | cancelOrder id =>
    show (∃ err, (B.untimed.cancel id).2 = _) ↔ ∃ err, (B.cancel id).2 = _
    rw [cancel_untimed]
    cases (B.cancel id).2 with
    | error err => simp [Except.map]
    | ok x => simp [Except.map]

theorem refuses_congr {B' : Book} (h : B.untimed = B'.untimed) {cmd cmd' : EngineCommand}
    (hcmd : cmd.untimed = cmd'.untimed) : B.Refuses cmd ↔ B'.Refuses cmd' := by
  rw [← refuses_untimed B, ← refuses_untimed B', h, hcmd]

/-- **Commands of which none is out of room** have the same effect in a larger arena. -/
theorem applyAll_resize {c c' : UInt32} (hc : c ≤ c') {cmds : List EngineCommand} {n i : Nat}
    (hn : n ≤ i) (hi : i ≤ cmds.length)
    (hroom : ∀ j o, n ≤ j → j < i → cmds[j]? = some (.newOrder o) →
      ¬ OutOfRoom ((empty c.toNat).applyAll (cmds.take j)).orders c.toNat o) :
    (((empty c.toNat).applyAll (cmds.take n)).resize c'.toNat).applyAll ((cmds.take i).drop n) =
      ((empty c.toNat).applyAll (cmds.take i)).resize c'.toNat := by
  induction i, hn using Nat.le_induction with
  | base =>
    rw [List.drop_take_self]
    rfl
  | succ i hn ih =>
    have ih := ih (Nat.le_of_lt hi) fun j o hj hji => hroom j o hj (Nat.lt_succ_of_lt hji)
    have hget : cmds[i]? = some cmds[i] := List.getElem?_eq_getElem hi
    have htake : cmds.take (i + 1) = cmds.take i ++ [cmds[i]] := by
      rw [List.take_add_one, hget, Option.toList_some]
    have hlen : n ≤ (cmds.take i).length := by
      rw [List.length_take_of_le (Nat.le_of_lt hi)]
      exact hn
    have hcap : ((empty c.toNat).applyAll (cmds.take i)).capacity = c.toNat :=
      capacity_applyAll _ _
    rw [htake, List.drop_append_of_le_length hlen, applyAll_append, applyAll_append, ih]
    refine (apply_resize (wf_applyAll_empty c _) (hcap.trans_le hc) ?_).1
    intro o ho
    rw [hcap]
    exact hroom i o hn (Nat.lt_succ_self i) (hget.trans (congrArg some ho))

end Book

/-! ## What is refused on replay -/

/-- The engine refuses the command. -/
def MatchingEngine.Refuses (e : MatchingEngine) : EngineCommand → Prop
  | .newOrder order => ∃ err, (e.addOrder order).2 = .error err
  | .cancelOrder orderId => ∃ err, (e.cancelOrder orderId).2 = .error err

theorem MatchingEngine.refuses_sim {e : MatchingEngine} (h : e.book.WF) (cmd : EngineCommand) :
    e.Refuses cmd ↔ e.book.toBook.Refuses cmd := by
  cases cmd with
  | newOrder o =>
    obtain ⟨-, -, hres⟩ := addOrder_sim h o
    show (∃ err, (e.addOrder o).2 = _) ↔ _
    rw [hres]
    rfl
  | cancelOrder id =>
    obtain ⟨-, -, hres⟩ := cancelOrder_sim h id
    show (∃ err, (e.cancelOrder id).2 = _) ↔ ∃ err, (e.book.toBook.cancel id).2 = _
    rw [hres]
    cases (e.book.toBook.cancel id).2 with
    | error err => simp [liftError]
    | ok x => simp [liftError]

/-- The record behind which a recovery starts to replay. -/
def Recovery.startRecord (crc : List UInt8 → UInt32) (bincode : Bincode)
    (snapshots : Option SnapshotDir) : Nat :=
  ((snapshots.bind (Snapshot.loadLatest crc bincode)).map (·.walRecordCount.toNat)).getD 0

/-- **The recovery reproduces the live engine**, one of capacity `c` that applied `cmds`: it succeeds
with its book, and no command the live engine refused takes effect on replay. The replay starts from
an engine `e₀` behind record `n`, and comes to record `i` after the commands between them. -/
def Reproduces (crc : List UInt8 → UInt32) (bincode : Bincode) (c : UInt32)
    (cmds : List EngineCommand) (live : MatchingEngine) (dir : DataDir) (c' : UInt32)
    (size : Option Nat) : Prop :=
  ∃ e₀ n, Recovery.startingPoint crc bincode dir.snapshots c' = .ok (e₀, n) ∧
    (∃ dir' w, Recovery.recoverWithWalSize crc bincode .ok dir c' size =
        (dir', some (.ok (e₀.applyAll ((cmds.drop n).map EngineCommand.untimed), w))) ∧
      w.recordCount = cmds.length) ∧
    (e₀.applyAll ((cmds.drop n).map EngineCommand.untimed)).SameBook live ∧
    ∀ i cmd, n ≤ i → cmds[i]? = some cmd →
      ((MatchingEngine.withCapacity c).applyAll (cmds.take i)).Refuses cmd →
      (e₀.applyAll (((cmds.take i).drop n).map EngineCommand.untimed)).Refuses cmd.untimed

/-! ## Recovering a run -/

variable {crc : List UInt8 → UInt32} {bincode : Bincode} {c c' : UInt32} {size : Nat}
  {cmds : List EngineCommand} {p : Process}

/-- **Every snapshot of a run** is the book of the commands logged so far, under their number. -/
theorem Run.saved (hbin : bincode.RoundTrip) (h : Run crc bincode c size cmds p) :
    ∀ f ∈ Snapshot.filesOf p.snapshots, isSnapshotFileName f.1 → ∃ k ≤ cmds.length,
      bincode.deserialize f.2 = some (Snapshot.capture crc bincode
        ((MatchingEngine.withCapacity c).applyAll (cmds.take k)) (UInt64.ofNat k)) := by
  induction h with
  | start hopen => nofun
  | @append cmds p io w cmd n h hidle hcmd happ ih =>
    intro f hf hname
    obtain ⟨k, hk, hsnap⟩ := ih f hf hname
    refine ⟨k, by rw [List.length_append]; omega, ?_⟩
    rw [List.take_append_of_le_length hk]
    exact hsnap
  | apply h hpending ih => exact ih
  | @save cmds p h hidle io ih =>
    have hsound := h.sound hbin
    obtain ⟨applied, happlied, hengine⟩ := hsound.engine
    rw [hidle, Option.toList_none, List.append_nil] at happlied
    subst happlied
    obtain ⟨hwf, hbook⟩ := MatchingEngine.fresh_applyAll c cmds
    have hcap : ((MatchingEngine.withCapacity c).applyAll cmds).book.toBook.capacity = c.toNat := by
      rw [hbook]
      exact Book.capacity_applyAll _ _
    intro f hf hname
    rcases Snapshot.mem_save hf with hf | hf | hf
    · exact ih f hf hname
    · rw [hf] at hname
      cases hname
    · refine ⟨cmds.length, le_refl _, ?_⟩
      rw [hf, hengine, hsound.wal.recordCount, List.length_map, List.take_length,
        hbin _ (Snapshot.length_capture_orders crc bincode hwf hcap _)]

/-- **The starting point in a larger arena** is the book of the commands up to its number. -/
theorem Run.startingPoint_larger (hbin : bincode.RoundTrip) (h : Run crc bincode c size cmds p)
    {left : Option SnapshotDir} (hleft : Survived crc bincode p.snapshots left) (hc : c ≤ c') :
    ∃ e₀ n, Recovery.startingPoint crc bincode left c' = .ok (e₀, n) ∧ n ≤ cmds.length ∧
      e₀.book.WF ∧
      e₀.book.toBook = ((Book.empty c.toNat).applyAll (cmds.take n)).resize c'.toNat := by
  unfold Recovery.startingPoint
  cases hload : left.bind (Snapshot.loadLatest crc bincode) with
  | none =>
    obtain ⟨hwf, hbook⟩ := MatchingEngine.withCapacity_sim c'
    exact ⟨_, 0, rfl, Nat.zero_le _, hwf, hbook⟩
  | some snap =>
    obtain ⟨f, hf, hname, hsnap⟩ := hleft.loaded hload
    obtain ⟨k, hk, hsnap'⟩ := h.saved hbin f hf hname
    rw [hsnap] at hsnap'
    obtain rfl := Option.some.inj hsnap'
    obtain ⟨hwf, hbook⟩ := MatchingEngine.fresh_applyAll c (cmds.take k)
    have hroom := hwf.wf_toBook.room
    rw [OrderBook.orders_toBook, hbook, Book.capacity_applyAll] at hroom
    obtain ⟨e₀, hrestore, hwf₀, hbook₀⟩ :=
      MatchingEngine.restoreFromOrders_allRestingOrders hwf (hroom.trans hc)
    have hcount : (UInt64.ofNat k).toNat = k := by
      have := (h.sound hbin).wal.length_lt
      rw [List.length_map] at this
      exact UInt64.toNat_ofNat_of_lt' (lt_of_le_of_lt hk this)
    refine ⟨e₀, k, ?_, hk, hwf₀, by rw [hbook₀, hbook]; rfl⟩
    simp only [Snapshot.restore, Snapshot.capture, hrestore, hcount]

/-- What the recovery is compared with at record `i`. -/
theorem refuses_replay {e₀ : MatchingEngine} {n i : Nat} (hwf₀ : e₀.book.WF)
    (hbook : e₀.book.toBook.applyAll ((cmds.take i).drop n) =
      ((Book.empty c.toNat).applyAll (cmds.take i)).resize c'.toNat) (cmd : EngineCommand) :
    (((MatchingEngine.withCapacity c).applyAll (cmds.take i)).Refuses cmd ↔
        ((Book.empty c.toNat).applyAll (cmds.take i)).Refuses cmd) ∧
      ((e₀.applyAll (((cmds.take i).drop n).map EngineCommand.untimed)).Refuses cmd.untimed ↔
        (((Book.empty c.toNat).applyAll (cmds.take i)).resize c'.toNat).Refuses cmd) := by
  obtain ⟨hwf, hlive⟩ := MatchingEngine.fresh_applyAll c (cmds.take i)
  obtain ⟨hwf', hreplay⟩ := MatchingEngine.applyAll_sim hwf₀
    (((cmds.take i).drop n).map EngineCommand.untimed)
  refine ⟨by rw [MatchingEngine.refuses_sim hwf, hlive], ?_⟩
  rw [MatchingEngine.refuses_sim hwf', hreplay]
  refine Book.refuses_congr ?_ (EngineCommand.untimed_idem cmd)
  rw [Book.applyAll_map_untimed, hbook]

/-- **The first order out of room** makes a difference: the live engine refuses it, the replay queues
it. -/
theorem outOfRoom_takes_effect {e₀ : MatchingEngine} {n : Nat} (hwf₀ : e₀.book.WF)
    (hbook₀ : e₀.book.toBook = ((Book.empty c.toNat).applyAll (cmds.take n)).resize c'.toNat)
    (hc : c < c') {i : Nat} (hi : n ≤ i) {o : Order} (hget : cmds[i]? = some (.newOrder o))
    (hout : Book.OutOfRoom ((Book.empty c.toNat).applyAll (cmds.take i)).orders c.toNat o)
    (hfirst : ∀ j o, n ≤ j → j < i → cmds[j]? = some (.newOrder o) →
      ¬ Book.OutOfRoom ((Book.empty c.toNat).applyAll (cmds.take j)).orders c.toNat o) :
    ((MatchingEngine.withCapacity c).applyAll (cmds.take i)).Refuses (.newOrder o) ∧
      ¬ (e₀.applyAll (((cmds.take i).drop n).map EngineCommand.untimed)).Refuses
        (EngineCommand.newOrder o).untimed := by
  have hlen : i < cmds.length := (List.getElem?_eq_some_iff.1 hget).1
  have hcap : ((Book.empty c.toNat).applyAll (cmds.take i)).capacity = c.toNat :=
    Book.capacity_applyAll _ _
  have hbook := Book.applyAll_resize (UInt32.le_of_lt hc) hi hlen.le hfirst
  rw [← hbook₀] at hbook
  obtain ⟨hlive, hreplay⟩ := refuses_replay hwf₀ hbook (.newOrder o)
  have hout' : Book.OutOfRoom ((Book.empty c.toNat).applyAll (cmds.take i)).orders
      ((Book.empty c.toNat).applyAll (cmds.take i)).capacity o := by
    rw [hcap]
    exact hout
  rw [hlive, hreplay]
  exact hout'.refuses (Book.wf_applyAll_empty c _) (hcap.trans_lt hc)

/-- **A replay without an order out of room** goes along the same books as the live engine, and
refuses the same commands. -/
theorem replay_resize {e₀ : MatchingEngine} {n : Nat} (hwf₀ : e₀.book.WF)
    (hbook₀ : e₀.book.toBook = ((Book.empty c.toNat).applyAll (cmds.take n)).resize c'.toNat)
    (hc : c ≤ c') (hroom : c' = c ∨ ∀ i o, n ≤ i → cmds[i]? = some (.newOrder o) →
      ¬ Book.OutOfRoom ((Book.empty c.toNat).applyAll (cmds.take i)).orders c.toNat o)
    {i : Nat} (hi : n ≤ i) (hlen : i ≤ cmds.length) :
    e₀.book.toBook.applyAll ((cmds.take i).drop n) =
        ((Book.empty c.toNat).applyAll (cmds.take i)).resize c'.toNat ∧
      ∀ cmd, cmds[i]? = some cmd →
        ((MatchingEngine.withCapacity c).applyAll (cmds.take i)).Refuses cmd →
        (e₀.applyAll (((cmds.take i).drop n).map EngineCommand.untimed)).Refuses cmd.untimed := by
  have hcap : ∀ i, ((Book.empty c.toNat).applyAll (cmds.take i)).capacity = c.toNat :=
    fun i => Book.capacity_applyAll _ _
  rcases hroom with rfl | hroom
  · have hbook : e₀.book.toBook.applyAll ((cmds.take i).drop n) =
        ((Book.empty c'.toNat).applyAll (cmds.take i)).resize c'.toNat := by
      have hsplit : cmds.take i = cmds.take n ++ (cmds.take i).drop n := by
        rw [← List.take_append_drop n (cmds.take i), List.take_take, Nat.min_eq_left hi,
          List.drop_left' (by rw [List.length_take]; omega)]
      rw [hbook₀, Book.resize_self (hcap n), Book.resize_self (hcap i), ← Book.applyAll_append,
        ← hsplit]
    refine ⟨hbook, ?_⟩
    intro cmd _ hrefuses
    obtain ⟨hlive, hreplay⟩ := refuses_replay hwf₀ hbook cmd
    rw [hreplay, Book.resize_self (hcap i)]
    exact hlive.1 hrefuses
  · have hbook := Book.applyAll_resize hc hi hlen fun j o hj _ => hroom j o hj
    rw [← hbook₀] at hbook
    refine ⟨hbook, ?_⟩
    intro cmd hcmd hrefuses
    obtain ⟨hlive, hreplay⟩ := refuses_replay hwf₀ hbook cmd
    have hout : ∀ o, cmd = .newOrder o → ¬ Book.OutOfRoom
        ((Book.empty c.toNat).applyAll (cmds.take i)).orders
        ((Book.empty c.toNat).applyAll (cmds.take i)).capacity o := by
      intro o ho
      rw [hcap]
      exact hroom i o hi (hcmd.trans (congrArg some ho))
    have hsame := Book.apply_resize (Book.wf_applyAll_empty c (cmds.take i))
      ((hcap i).trans_le hc) hout
    exact hreplay.2 (hsame.2.2 (hlive.1 hrefuses))

/-- **A recovery with a larger arena reproduces the live engine** just in case no order behind its
snapshot was out of room. -/
theorem larger_arena_iff (hbin : bincode.RoundTrip) (h : Run crc bincode c size cmds p)
    (hidle : p.pending = none) {file : List UInt8} (hfile : LeftIn crc p.wal file)
    {left : Option SnapshotDir} (hleft : Survived crc bincode p.snapshots left)
    {size' : Option Nat} (hsize' : Recovery.walSize size' < 2 ^ 63) (hc : c ≤ c') :
    Reproduces crc bincode c cmds p.engine ⟨some file, left⟩ c' size' ↔
      c' = c ∨ ∀ i o, Recovery.startRecord crc bincode left ≤ i →
        cmds[i]? = some (.newOrder o) →
        ¬ Book.OutOfRoom ((MatchingEngine.withCapacity c).applyAll
          (cmds.take i)).book.allRestingOrders c.toNat o := by
  have hsound := h.sound hbin
  obtain ⟨w, hopen, hw⟩ := hfile.holds hsound.wal hsize'
  obtain ⟨e₀, n, hstart, hn, hwf₀, hbook₀⟩ := h.startingPoint_larger hbin hleft hc
  obtain ⟨-, -, hrecord⟩ := Recovery.startingPoint_sound hstart
  have hresting : ∀ i, ((MatchingEngine.withCapacity c).applyAll
      (cmds.take i)).book.allRestingOrders = ((Book.empty c.toNat).applyAll (cmds.take i)).orders := by
    intro i
    rw [← OrderBook.orders_toBook, (MatchingEngine.fresh_applyAll c _).2]
  simp only [hresting, Recovery.startRecord, ← hrecord]
  constructor
  · rintro ⟨e₁, n₁, hstart₁, -, -, hrefused⟩
    rw [hstart] at hstart₁
    obtain ⟨rfl, rfl⟩ := Prod.mk.inj (Except.ok.inj hstart₁)
    by_contra hnot
    obtain ⟨hne, hnot⟩ := not_or.1 hnot
    have hlt : c < c' := UInt32.lt_of_le_of_ne hc (Ne.symm hne)
    push Not at hnot
    classical
    -- the first order that was out of room
    obtain ⟨o, hi, hget, hout⟩ := Nat.find_spec hnot
    have hfirst := fun j (hj : j < Nat.find hnot) => Nat.find_min hnot hj
    push Not at hfirst
    obtain ⟨hlive, hreplay⟩ := outOfRoom_takes_effect hwf₀ hbook₀ hlt hi hget hout
      fun j o hj hji hget' => hfirst j hji o hj hget'
    exact hreplay (hrefused _ _ hi hget hlive)
  · intro hroom
    have hreplay := fun i hi hlen => replay_resize (i := i) hwf₀ hbook₀ hc hroom hi hlen
    refine ⟨e₀, n, hstart, ?_, ?_, ?_⟩
    · exact ⟨_, w, Recovery.recover_recordOf ⟨some file, left⟩ hstart hsound.tradable hw hopen,
        by rw [hw.recordCount, List.length_map]⟩
    · obtain ⟨applied, happlied, hengine⟩ := hsound.engine
      rw [hidle, Option.toList_none, List.append_nil] at happlied
      subst happlied
      obtain ⟨hbook, -⟩ := hreplay cmds.length hn (le_refl _)
      rw [List.take_length] at hbook
      obtain ⟨hwf, hsim⟩ := MatchingEngine.applyAll_sim hwf₀
        ((cmds.drop n).map EngineCommand.untimed)
      obtain ⟨hwf', hsim'⟩ := MatchingEngine.fresh_applyAll c cmds
      rw [hengine]
      refine MatchingEngine.sameBook_of_untimed_side hwf hwf' ?_
      rw [hsim, Book.applyAll_map_untimed, hbook, hsim']
      rfl
    · intro i cmd hi hget
      exact (hreplay i hi (List.getElem?_eq_some_iff.1 hget).1.le).2 cmd hget

/-- A process whose arena has one slot, and that logged two asks: the second one is refused. -/
def refusedOrder : Process where
  engine := (MatchingEngine.withCapacity 1).applyAll
    [.newOrder ⟨1, 10, .ask, 100, 5, 7⟩, .newOrder ⟨2, 11, .ask, 101, 2, 8⟩]
  wal := ⟨(Wal.recordOf (.newOrder ⟨1, 10, .ask, 100, 5, 7⟩)).bytes crc32 ++
    (Wal.recordOf (.newOrder ⟨2, 11, .ask, 101, 2, 8⟩)).bytes crc32 ++ List.replicate 32 0, 128, 96,
    128, Protocol.payload (.newOrder ⟨2, 11, .ask, 101, 2, 8⟩), 2⟩
  pending := none
  snapshots := none

theorem run_refusedOrder : Run crc32 .fixint 1 64
    [.newOrder ⟨1, 10, .ask, 100, 5, 7⟩, .newOrder ⟨2, 11, .ask, 101, 2, 8⟩]
    refusedOrder := by
  let cmd₁ : EngineCommand := .newOrder ⟨1, 10, .ask, 100, 5, 7⟩
  let cmd₂ : EngineCommand := .newOrder ⟨2, 11, .ask, 101, 2, 8⟩
  let w₀ : Wal := ⟨List.replicate 64 0, 64, 0, 64, List.replicate 40 0, 0⟩
  let w₁ : Wal := ⟨(Wal.recordOf cmd₁).bytes crc32 ++ List.replicate 16 0, 64, 48, 64,
    Protocol.payload cmd₁, 1⟩
  have hopen : Wal.openWithSize crc32 none [] 64 = (w₀.file, .ok w₀) := by decide +kernel
  have happ₁ : Wal.append crc32 .ok w₀ cmd₁ = some (w₁, .ok 1) := by decide +kernel
  have happ₂ : Wal.append crc32 .ok w₁ cmd₂ = some (refusedOrder.wal, .ok 2) := by
    decide +kernel
  have hcmd₁ : cmd₁.Tradable := by decide
  have hcmd₂ : cmd₂.Tradable := by decide
  exact ((((Run.start hopen : Run crc32 .fixint 1 64 [] _).append rfl hcmd₁ happ₁).apply
    rfl).append rfl hcmd₂ happ₂).apply rfl

/-- A snapshot behind the refused order, and a recovery with two slots. -/
theorem larger_arena_iff_saved : ∃ p : Process, Run crc32 .fixint 1 64
      [.newOrder ⟨1, 10, .ask, 100, 5, 7⟩, .newOrder ⟨2, 11, .ask, 101, 2, 8⟩] p ∧
    Recovery.startRecord crc32 .fixint p.snapshots = 2 ∧
    Reproduces crc32 .fixint 1
      [.newOrder ⟨1, 10, .ask, 100, 5, 7⟩, .newOrder ⟨2, 11, .ask, 101, 2, 8⟩] p.engine
      ⟨some p.wal.file, p.snapshots⟩ 2 (some 64) := by
  have hrun := run_refusedOrder.save rfl .ok
  obtain ⟨hwf, hbook⟩ := MatchingEngine.fresh_applyAll 1
    [.newOrder ⟨1, 10, .ask, 100, 5, 7⟩, .newOrder ⟨2, 11, .ask, 101, 2, 8⟩]
  have hwf : refusedOrder.engine.book.WF := hwf
  have hcap : refusedOrder.engine.book.toBook.capacity = (1 : UInt32).toNat :=
    (congrArg Book.capacity hbook).trans (Book.capacity_applyAll _ _)
  have hstart : Recovery.startRecord crc32 .fixint
      (Recovery.savedOnce crc32 .fixint refusedOrder.engine 2) = 2 := by
    rw [Recovery.startRecord,
      (Recovery.startingPoint_savedOnce crc32 Bincode.roundTrip_fixint hwf hcap 2).1]
    rfl
  refine ⟨_, hrun, hstart, (larger_arena_iff Bincode.roundTrip_fixint hrun rfl (Or.inl rfl)
    (fun f hf => Or.inl hf) (by decide) (by decide)).2 (Or.inr ?_)⟩
  intro i o hi hget
  -- there is no command behind the snapshot
  have hi : 2 ≤ i := hstart ▸ hi
  rw [List.getElem?_eq_none hi] at hget
  cases hget

/-- **A refused order that rests after recovery.** Without the snapshot, the replay with two slots
queues the order that the live engine refused. -/
theorem not_reproduces_refused : Run crc32 .fixint 1 64
      [.newOrder ⟨1, 10, .ask, 100, 5, 7⟩, .newOrder ⟨2, 11, .ask, 101, 2, 8⟩]
      refusedOrder ∧
    refusedOrder.engine.book.allRestingOrders = [⟨1, 10, .ask, 100, 5, 7⟩] ∧
    ((Recovery.recoverWithWalSize crc32 .fixint .ok ⟨some refusedOrder.wal.file, none⟩ 2
        (some 64)).2.bind Except.toOption).map (·.1.book.allRestingOrders) =
      some [⟨1, 10, .ask, 100, 5, 0⟩, ⟨2, 11, .ask, 101, 2, 0⟩] ∧
    ¬ Reproduces crc32 .fixint 1
      [.newOrder ⟨1, 10, .ask, 100, 5, 7⟩, .newOrder ⟨2, 11, .ask, 101, 2, 8⟩]
      refusedOrder.engine ⟨some refusedOrder.wal.file, none⟩ 2 (some 64) := by
  have hlive : refusedOrder.engine.book.allRestingOrders = [⟨1, 10, .ask, 100, 5, 7⟩] := by
    decide +kernel
  have hrec : ((Recovery.recoverWithWalSize crc32 .fixint .ok
      ⟨some refusedOrder.wal.file, none⟩ 2 (some 64)).2.bind Except.toOption).map
        (·.1.book.allRestingOrders) =
      some [⟨1, 10, .ask, 100, 5, 0⟩, ⟨2, 11, .ask, 101, 2, 0⟩] := by decide +kernel
  refine ⟨run_refusedOrder, hlive, hrec, ?_⟩
  rintro ⟨e₀, n, -, ⟨dir', w, hrec', -⟩, hsame, -⟩
  have horders := hsame.orders
  rw [hrec'] at hrec
  have hlen := congrArg List.length horders
  rw [hlive, List.length_map, congrArg List.length (Option.some.inj hrec)] at hlen
  cases hlen

end Ferrox
