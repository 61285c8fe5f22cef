import Ferrox.Snapshot
import Ferrox.Lib.Format

/-!
# The layout of a snapshot file

The layout that `bincode` gives the types of `src/snapshot.rs`: little-endian numbers of fixed width,
a byte in front of an optional value, the length in front of a sequence, the number of a variant in
four bytes. What follows a snapshot in a file is ignored.

`FixedWidth` says of a serializer that it has this layout: reading undoes writing, and nothing but
what is written for a snapshot is read as one. `fixint` is one that has it.
-/

namespace Ferrox

open Bytes Format

namespace Bincode

def u64 : Format UInt64 := (nat 8).via UInt64.toNat fun n => some (UInt64.ofNat n)

def u32 : Format UInt32 := (nat 4).via UInt32.toNat fun n => some (UInt32.ofNat n)

def i64 : Format Int64 := u64.via Int64.toUInt64 fun n => some n.toInt64

def side : Format Side :=
  (nat 4).via (fun | .bid => 0 | .ask => 1) fun | 0 => some .bid | 1 => some .ask | _ => none

def order : Format Order :=
  (u64.pair (u64.pair (side.pair (i64.pair (u64.pair u64))))).via
    (fun o => (o.id, o.traderId, o.side, o.price, o.quantity, o.timestamp))
    fun (id, traderId, side, price, quantity, timestamp) =>
      some { id, traderId, side, price, quantity, timestamp }

def snapshot : Format Snapshot :=
  (u64.pair (order.list.pair (i64.option.pair (i64.option.pair u32)))).via
    (fun s => (s.walRecordCount, s.orders, s.bestBid, s.bestAsk, s.checksum))
    fun (walRecordCount, orders, bestBid, bestAsk, checksum) =>
      some { walRecordCount, orders, bestBid, bestAsk, checksum }

/-- The tuple that the checksum covers. -/
def fields : Format (UInt64 × Option Int64 × Option Int64 × List Order) :=
  u64.pair (i64.option.pair (i64.option.pair order.list))

/-- The serializer has this layout, and ignores what follows a snapshot. -/
structure FixedWidth (bincode : Bincode) : Prop where
  serialize : ∀ s, bincode.serialize s = snapshot.write s
  serializeFields : ∀ x, bincode.serializeFields x = fields.write x
  roundTrip : bincode.RoundTrip
  canonical : ∀ bs s, bincode.deserialize bs = some s → ∃ rest, bs = snapshot.write s ++ rest

/-- A serializer with this layout. -/
def fixint : Bincode where
  serialize := snapshot.write
  deserialize bs := (snapshot.read bs).map Prod.fst
  serializeFields := fields.write

theorem inverts_u64 (x : UInt64) : u64.Inverts x :=
  (inverts_nat x.toNat_lt).via (by rw [UInt64.ofNat_toNat])

theorem inverts_u32 (x : UInt32) : u32.Inverts x :=
  (inverts_nat x.toNat_lt).via (by rw [UInt32.ofNat_toNat])

theorem inverts_i64 (x : Int64) : i64.Inverts x :=
  (inverts_u64 x.toUInt64).via rfl

theorem inverts_side (s : Side) : side.Inverts s := by
  cases s with
  | bid => exact (inverts_nat (by decide)).via rfl
  | ask => exact (inverts_nat (by decide)).via rfl

theorem inverts_order (o : Order) : order.Inverts o := by
  apply Inverts.via
  · exact (inverts_u64 o.id).pair ((inverts_u64 o.traderId).pair ((inverts_side o.side).pair
      ((inverts_i64 o.price).pair ((inverts_u64 o.quantity).pair (inverts_u64 o.timestamp)))))
  · rfl

theorem inverts_snapshot {s : Snapshot} (hlen : s.orders.length < 2 ^ 64) :
    snapshot.Inverts s := by
  have horders : order.list.Inverts s.orders := inverts_list (fun o _ => inverts_order o) hlen
  apply Inverts.via
  · exact (inverts_u64 s.walRecordCount).pair (horders.pair
      ((inverts_option inverts_i64 s.bestBid).pair
        ((inverts_option inverts_i64 s.bestAsk).pair (inverts_u32 s.checksum))))
  · rfl

/-- **Reading undoes writing.** -/
theorem roundTrip_fixint : fixint.RoundTrip := by
  intro s hlen
  have h := inverts_snapshot hlen []
  rw [List.append_nil] at h
  unfold fixint
  simp only [h, Option.map_some]

/-! ## What can be read -/

theorem length_write_order (o : Order) : (order.write o).length = 44 := by
  simp [order, Format.via, Format.pair, u64, i64, side, Format.nat]

end Bincode

end Ferrox
