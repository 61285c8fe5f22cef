import Mathlib.Algebra.Ring.Nat
import Mathlib.Tactic.Common

/-!
# Bytes in place

Little-endian numbers, CRC-32, and reading and overwriting a stretch of a byte string at an offset. A
buffer is a list; `slice` reads, `overwrite` writes and keeps the length. The lemmas say where a
write can be seen, in terms of how the list splits.
-/

namespace Bytes

/-- The low `n` bytes of a number, least significant first. -/
def leBytes : Nat → Nat → List UInt8
  | 0, _ => []
  | n + 1, x => UInt8.ofNat x :: leBytes n (x / 256)

/-- The number that bytes spell, least significant first. -/
def ofLE : List UInt8 → Nat
  | [] => 0
  | b :: bs => b.toNat + 256 * ofLE bs

@[simp] theorem length_leBytes (n x : Nat) : (leBytes n x).length = n := by
  induction n generalizing x with
  | zero => rfl
  | succ n ih => simp [leBytes, ih]

theorem ofLE_leBytes {n x : Nat} (h : x < 256 ^ n) : ofLE (leBytes n x) = x := by
  induction n generalizing x with
  | zero =>
    rw [Nat.pow_zero] at h
    rw [leBytes, ofLE]
    omega
  | succ n ih =>
    rw [Nat.pow_succ] at h
    have hb : (UInt8.ofNat x).toNat = x % 256 := UInt8.toNat_ofNat'
    rw [leBytes, ofLE, ih (by omega), hb]
    omega

theorem leBytes_ofLE (bs : List UInt8) : leBytes bs.length (ofLE bs) = bs := by
  induction bs with
  | nil => rfl
  | cons b bs ih =>
    have hlt := b.toNat_lt
    have hdiv : (b.toNat + 256 * ofLE bs) / 256 = ofLE bs := by omega
    have hmod : UInt8.ofNat (b.toNat + 256 * ofLE bs) = b := by
      apply UInt8.toNat_inj.1
      rw [UInt8.toNat_ofNat']
      omega
    rw [List.length_cons, ofLE, leBytes, hdiv, hmod, ih]

theorem ofLE_lt (bs : List UInt8) : ofLE bs < 256 ^ bs.length := by
  induction bs with
  | nil => simp [ofLE]
  | cons b bs ih =>
    have hlt := b.toNat_lt
    rw [ofLE, List.length_cons, Nat.pow_succ]
    omega

theorem ofLE_replicate_zero (n : Nat) : ofLE (List.replicate n 0) = 0 := by
  induction n with
  | zero => rfl
  | succ n ih =>
    rw [List.replicate_succ, ofLE, ih]
    rfl

/-! ## Slices -/

variable {l l₁ l₂ bs : List UInt8} {i n : Nat}

/-- `l[i..i + n]`. -/
def slice (l : List UInt8) (i n : Nat) : List UInt8 := (l.drop i).take n

/-- `l[i..i + bs.len()].copy_from_slice(bs)`. -/
def overwrite (l : List UInt8) (i : Nat) (bs : List UInt8) : List UInt8 :=
  l.take i ++ bs ++ l.drop (i + bs.length)

theorem length_slice (h : i + n ≤ l.length) : (slice l i n).length = n := by
  rw [slice, List.length_take, List.length_drop]
  omega

theorem ofLE_slice_lt (h : i + n ≤ l.length) : ofLE (slice l i n) < 256 ^ n := by
  have hlt := ofLE_lt (slice l i n)
  rwa [length_slice h] at hlt

theorem leBytes_ofLE_slice (h : i + n ≤ l.length) :
    leBytes n (ofLE (slice l i n)) = slice l i n := by
  have hbytes := leBytes_ofLE (slice l i n)
  rwa [length_slice h] at hbytes

theorem slice_append (hi : l₁.length = i) (hn : l₂.length = n) :
    slice (l₁ ++ l₂ ++ l) i n = l₂ := by
  subst hi hn
  simp [slice]

theorem slice_set {k : Nat} {b : UInt8} (h : k < i ∨ i + n ≤ k) :
    slice (l.set k b) i n = slice l i n := by
  unfold slice
  rcases h with h | h
  · rw [List.drop_set_of_lt h]
  · rw [List.take_drop, List.take_drop, List.take_set_of_le h]

theorem overwrite_append {old : List UInt8} (hi : l₁.length = i) (hn : old.length = bs.length) :
    overwrite (l₁ ++ old ++ l₂) i bs = l₁ ++ bs ++ l₂ := by
  subst hi
  simp [overwrite, ← hn]

/-! ## CRC-32 -/

/-- One bit of the reflected CRC-32 with polynomial `0xEDB88320`. -/
def crcBit (c : UInt32) : UInt32 :=
  if c &&& 1 = 1 then (c >>> 1) ^^^ 0xEDB88320 else c >>> 1

/-- One byte. -/
def crcByte (c : UInt32) (b : UInt8) : UInt32 := Nat.repeat crcBit 8 (c ^^^ b.toUInt32)

/-- The CRC-32 of a byte string, as in zlib. -/
def crc32 (bs : List UInt8) : UInt32 := bs.foldl crcByte 0xFFFFFFFF ^^^ 0xFFFFFFFF

/-- The check value of the standard: the CRC-32 of `"123456789"`. -/
example : crc32 [0x31, 0x32, 0x33, 0x34, 0x35, 0x36, 0x37, 0x38, 0x39] = 0xCBF43926 := by
  decide +kernel

end Bytes
