import Mathlib.Data.Char
import Mathlib.Data.List.Lex
import Mathlib.Data.Nat.Digits.Defs
import Mathlib.Tactic.Common

/-!
# Decimal strings and their order

Numbers are written in decimal with a minimum width, and compared as strings, character by
character. Strings of the same width compare as their numbers do (`fixed_lt_iff`). A longer string is
compared by its leading digits: `fixed_add` cuts it after those.
-/

namespace Decimal

/-- The last `w` decimal digits of a number. -/
def fixed : Nat → Nat → List Char
  | 0, _ => []
  | w + 1, n => fixed w (n / 10) ++ [Nat.digitChar (n % 10)]

/-- The width that a number takes when it is padded with zeros to `k` digits. -/
def width (k n : Nat) : Nat := max k (Nat.toDigits 10 n).length

@[simp] theorem length_fixed (w n : Nat) : (fixed w n).length = w := by
  induction w generalizing n with
  | zero => rfl
  | succ w ih => simp [fixed, ih]

theorem fixed_add (w j n : Nat) : fixed (w + j) n = fixed w (n / 10 ^ j) ++ fixed j n := by
  induction j generalizing n with
  | zero => simp [fixed]
  | succ j ih =>
    rw [← Nat.add_assoc, fixed, ih, fixed, Nat.div_div_eq_div_mul, List.append_assoc, Nat.pow_succ,
      Nat.mul_comm]

theorem fixed_zero (w : Nat) : fixed w 0 = List.replicate w '0' := by
  induction w with
  | zero => rfl
  | succ w ih =>
    rw [fixed, Nat.zero_div, ih, List.replicate_succ']
    rfl

theorem lt_pow_width (k n : Nat) : n < 10 ^ width k n := by
  have hlen : n < 10 ^ (Nat.toDigits 10 n).length :=
    (Nat.length_toDigits_le_iff (by decide) Nat.length_toDigits_pos).1 (Nat.le_refl _)
  exact Nat.lt_of_lt_of_le hlen (Nat.pow_le_pow_right (by decide) (Nat.le_max_right _ _))

theorem width_mono {k a b : Nat} (h : a ≤ b) : width k a ≤ width k b := by
  have hlen : (Nat.toDigits 10 a).length ≤ (Nat.toDigits 10 b).length :=
    (Nat.length_toDigits_le_iff (by decide) Nat.length_toDigits_pos).2
      (Nat.lt_of_le_of_lt h
        ((Nat.length_toDigits_le_iff (by decide) Nat.length_toDigits_pos).1 (Nat.le_refl _)))
  exact max_le_max (Nat.le_refl _) hlen

theorem toDigits_eq_fixed (n : Nat) : Nat.toDigits 10 n = fixed (Nat.toDigits 10 n).length n := by
  induction n using Nat.strong_induction_on with
  | h n ih =>
    by_cases hn : n < 10
    · rw [Nat.toDigits_of_lt_base hn]
      simp [fixed, Nat.mod_eq_of_lt hn]
    · have hdiv : n / 10 < n := Nat.div_lt_self (by omega) (by decide)
      rw [Nat.toDigits_of_base_le (by decide) (not_lt.1 hn), List.length_append, List.length_singleton,
        fixed, ← ih (n / 10) hdiv]

theorem padded_eq_fixed (k n : Nat) :
    List.replicate (k - (Nat.toDigits 10 n).length) '0' ++ Nat.toDigits 10 n =
      fixed (width k n) n := by
  have hlt : n < 10 ^ (Nat.toDigits 10 n).length :=
    (Nat.length_toDigits_le_iff (by decide) Nat.length_toDigits_pos).1 (Nat.le_refl _)
  have hwidth : width k n = (k - (Nat.toDigits 10 n).length) + (Nat.toDigits 10 n).length := by
    unfold width
    omega
  rw [hwidth, fixed_add, Nat.div_eq_of_lt hlt, fixed_zero, ← toDigits_eq_fixed]

/-! ## The order -/

theorem append_lt_append_iff {x y : List Char} (h : x.length = y.length) (u v : List Char) :
    x ++ u < y ++ v ↔ x < y ∨ x = y ∧ u < v := by
  induction x generalizing y with
  | nil =>
    cases y with
    | nil => simp
    | cons b y => cases h
  | cons a x ih =>
    cases y with
    | nil => cases h
    | cons b y =>
      rw [List.cons_append, List.cons_append, List.cons_lt_cons_iff, List.cons_lt_cons_iff,
        ih (Nat.succ.inj h), List.cons.injEq]
      tauto

theorem digitChar_lt_iff {d e : Nat} (hd : d < 10) (he : e < 10) :
    Nat.digitChar d < Nat.digitChar e ↔ d < e := by
  have hall : ∀ d < 10, ∀ e < 10, Nat.digitChar d < Nat.digitChar e ↔ d < e := by decide
  exact hall d hd e he

theorem fixed_injective {w a b : Nat} (ha : a < 10 ^ w) (hb : b < 10 ^ w)
    (h : fixed w a = fixed w b) : a = b := by
  induction w generalizing a b with
  | zero => omega
  | succ w ih =>
    rw [fixed, fixed] at h
    obtain ⟨hinit, hlast⟩ := List.append_inj h (by simp)
    have hdiv : a / 10 = b / 10 := ih (by omega) (by omega) hinit
    have hd : a % 10 < 10 := Nat.mod_lt _ (by decide)
    have he : b % 10 < 10 := Nat.mod_lt _ (by decide)
    have hlt := digitChar_lt_iff hd he
    have hgt := digitChar_lt_iff he hd
    rw [List.singleton_inj.1 hlast] at hlt hgt
    simp only [lt_irrefl, false_iff, not_lt] at hlt hgt
    omega

/-- **Strings of the same width compare as their numbers do.** -/
theorem fixed_lt_iff {w a b : Nat} (ha : a < 10 ^ w) (hb : b < 10 ^ w) :
    fixed w a < fixed w b ↔ a < b := by
  induction w generalizing a b with
  | zero =>
    simp only [Nat.pow_zero, Nat.lt_one_iff] at ha hb
    simp [ha, hb]
  | succ w ih =>
    have hda : a / 10 < 10 ^ w := by omega
    have hdb : b / 10 < 10 ^ w := by omega
    have heq : fixed w (a / 10) = fixed w (b / 10) ↔ a / 10 = b / 10 :=
      ⟨fixed_injective hda hdb, fun h => by rw [h]⟩
    rw [fixed, fixed, append_lt_append_iff (by simp), ih hda hdb, heq, List.cons_lt_cons_iff,
      digitChar_lt_iff (Nat.mod_lt _ (by decide)) (Nat.mod_lt _ (by decide))]
    simp only [List.not_lt_nil, and_false, or_false]
    omega

/-- A digit comes after every character that is below `'0'`. -/
theorem not_fixed_succ_append_lt {c : Char} (hc : c < '0') (w n : Nat) (u v : List Char) :
    ¬ fixed (w + 1) n ++ u < c :: v := by
  have hdigit : ∀ d < 10, '0' ≤ Nat.digitChar d := by decide
  have hlt : c < Nat.digitChar (n / 10 ^ w % 10) :=
    lt_of_lt_of_le hc (hdigit _ (Nat.mod_lt _ (by decide)))
  rw [Nat.add_comm w 1, fixed_add, fixed, fixed, List.nil_append, List.append_assoc,
    List.singleton_append, List.cons_lt_cons_iff]
  intro h
  rcases h with h | ⟨h, -⟩
  · exact lt_asymm h hlt
  · exact hlt.ne h.symm

end Decimal
