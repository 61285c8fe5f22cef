import Ferrox.Lib.Bytes
import Mathlib.Logic.Function.Iterate
import Mathlib.Data.Nat.Bitwise

/-!
# What CRC-32 detects

The step of the CRC can be undone: the polynomial has the highest bit, and a shift to the right
clears it, so the highest bit of the outcome tells which bit was shifted out. Hence two strings of
one length that differ in a single byte have different CRCs (`crc32_ne`), wherever the byte is, so
also if the stretches of the strings change places. Nothing of the kind holds for strings of
different lengths.
-/

namespace Bytes

theorem toNat_shiftRight_one (c : UInt32) : (c >>> 1).toNat = c.toNat / 2 := by
  rw [UInt32.toNat_shiftRight]
  rfl

/-- The lowest bit, which decides what the step does. -/
theorem and_one_eq_one_iff (c : UInt32) : c &&& 1 = 1 ↔ c.toNat % 2 = 1 := by
  rw [← UInt32.toNat_inj, UInt32.toNat_and, UInt32.toNat_one, Nat.and_one_is_mod]

/-- What is shifted cannot make up the highest bit of the polynomial. -/
theorem shiftRight_xor_ne (c c' : UInt32) : (c >>> 1) ^^^ (0xEDB88320 : UInt32) ≠ c' >>> 1 := by
  intro h
  have hxor : (c >>> 1) ^^^ (c' >>> 1) = 0xEDB88320 := by
    rw [← h, ← UInt32.xor_assoc, UInt32.xor_self, UInt32.zero_xor]
  have hlt : ((c >>> 1) ^^^ (c' >>> 1)).toNat < 2 ^ 31 := by
    rw [UInt32.toNat_xor, toNat_shiftRight_one, toNat_shiftRight_one]
    have := c.toNat_lt
    have := c'.toNat_lt
    exact Nat.xor_lt_two_pow (by omega) (by omega)
  rw [hxor] at hlt
  revert hlt
  decide

theorem eq_of_shiftRight_eq {c c' : UInt32} (h : c >>> 1 = c' >>> 1)
    (hlow : c &&& 1 = 1 ↔ c' &&& 1 = 1) : c = c' := by
  have hhigh := congrArg UInt32.toNat h
  rw [toNat_shiftRight_one, toNat_shiftRight_one] at hhigh
  rw [and_one_eq_one_iff, and_one_eq_one_iff] at hlow
  apply UInt32.toNat_inj.1
  omega

theorem crcBit_injective : Function.Injective crcBit := by
  intro c c' h
  unfold crcBit at h
  split_ifs at h with hc hc' hc'
  · exact eq_of_shiftRight_eq (UInt32.xor_left_inj _ |>.1 h) (iff_of_true hc hc')
  · exact absurd h (shiftRight_xor_ne c c')
  · exact absurd h.symm (shiftRight_xor_ne c' c)
  · exact eq_of_shiftRight_eq h (iff_of_false hc hc')

theorem repeat_injective {α : Type*} {f : α → α} (h : Function.Injective f) (n : Nat) :
    Function.Injective (Nat.repeat f n) := by
  induction n with
  | zero => exact Function.injective_id
  | succ n ih => exact h.comp ih

/-- **The step is injective**, in the state and in the byte. -/
theorem crcByte_injective (b : UInt8) : Function.Injective (crcByte · b) := by
  intro c c' h
  exact UInt32.xor_left_inj _ |>.1 (repeat_injective crcBit_injective 8 h)

theorem crcByte_right_injective (c : UInt32) : Function.Injective (crcByte c) := by
  intro b b' h
  have hb := UInt32.xor_right_inj _ |>.1 (repeat_injective crcBit_injective 8 h)
  exact UInt8.toUInt32_inj.1 hb

theorem foldl_crcByte_injective (bs : List UInt8) :
    Function.Injective fun c => bs.foldl crcByte c := by
  induction bs with
  | nil => exact Function.injective_id
  | cons b bs ih => exact ih.comp (crcByte_injective b)

/-- **A single changed byte changes the CRC.** -/
theorem crc32_ne (l l' : List UInt8) {b b' : UInt8} (h : b ≠ b') :
    crc32 (l ++ b :: l') ≠ crc32 (l ++ b' :: l') := by
  intro heq
  unfold crc32 at heq
  rw [List.foldl_append, List.foldl_append, List.foldl_cons, List.foldl_cons] at heq
  have hstate := foldl_crcByte_injective l' (UInt32.xor_left_inj _ |>.1 heq)
  exact h (crcByte_right_injective _ hstate)

/-! ## Strings that differ in one byte -/

inductive DifferOnce : List UInt8 → List UInt8 → Prop
  | here {b b' : UInt8} (h : b ≠ b') (l : List UInt8) : DifferOnce (b :: l) (b' :: l)
  | there (b : UInt8) {l l' : List UInt8} (h : DifferOnce l l') : DifferOnce (b :: l) (b :: l')

namespace DifferOnce

variable {b b' : UInt8} {l l' m m' : List UInt8}

theorem cons_iff : DifferOnce (b :: l) (b' :: l') ↔
    b ≠ b' ∧ l = l' ∨ b = b' ∧ DifferOnce l l' := by
  constructor
  · intro h
    cases h with
    | here h => exact Or.inl ⟨h, rfl⟩
    | there _ h => exact Or.inr ⟨rfl, h⟩
  · rintro (⟨h, rfl⟩ | ⟨rfl, h⟩)
    · exact .here h l
    · exact .there b h

theorem set {k : Nat} (hk : k < l.length) (hb : l[k] ≠ b) : DifferOnce l (l.set k b) := by
  induction l generalizing k with
  | nil => cases hk
  | cons a l ih =>
    cases k with
    | zero => exact .here hb l
    | succ k => exact .there a (ih (Nat.lt_of_succ_lt_succ hk) hb)

theorem ne (h : DifferOnce l l') : l ≠ l' := by
  induction h with
  | here h => exact fun heq => h (List.cons.inj heq).1
  | there _ _ ih => exact fun heq => ih (List.cons.inj heq).2

theorem append_eq_iff (hlen : l.length = l'.length) :
    l ++ m = l' ++ m' ↔ l = l' ∧ m = m' := by
  constructor
  · exact fun h => List.append_inj h hlen
  · rintro ⟨rfl, rfl⟩
    rfl

/-- **The difference is in the one stretch or in the other.** -/
theorem append_iff (hlen : l.length = l'.length) : DifferOnce (l ++ m) (l' ++ m') ↔
    DifferOnce l l' ∧ m = m' ∨ l = l' ∧ DifferOnce m m' := by
  induction l generalizing l' with
  | nil =>
    obtain rfl := List.length_eq_zero_iff.1 hlen.symm
    have hnil : ¬ DifferOnce [] [] := nofun
    simp [hnil]
  | cons b l ih =>
    cases l' with
    | nil => cases hlen
    | cons b' l' =>
      have hlen := Nat.succ.inj hlen
      simp only [List.cons_append, cons_iff, ih hlen, append_eq_iff hlen, List.cons.injEq]
      tauto

theorem split (h : DifferOnce l l') :
    ∃ k b b' k', b ≠ b' ∧ l = k ++ b :: k' ∧ l' = k ++ b' :: k' := by
  induction h with
  | @here b b' h l => exact ⟨[], b, b', l, h, rfl, rfl⟩
  | there b _ ih =>
    obtain ⟨k, a, a', k', hne, rfl, rfl⟩ := ih
    exact ⟨b :: k, a, a', k', hne, rfl, rfl⟩

theorem crc32_ne (h : DifferOnce l l') : crc32 l ≠ crc32 l' := by
  obtain ⟨k, b, b', k', hne, rfl, rfl⟩ := h.split
  exact Bytes.crc32_ne k k' hne

end DifferOnce

/-- A checksum that notices a single different byte. -/
def DetectsOneByte (crc : List UInt8 → UInt32) : Prop :=
  ∀ l l', DifferOnce l l' → crc l ≠ crc l'

end Bytes
