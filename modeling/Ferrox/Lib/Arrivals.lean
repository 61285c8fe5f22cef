import Mathlib.Data.List.Induction
import Mathlib.Order.Lattice

/-!
# Numbers that arrive in any order

A sender numbers what it sends from one on; what arrives is any list of these numbers. A number is
*overtaken* when a higher one arrives before it does: at that point it looks lost, whether or not it
arrives later. A receiver that reads the numbers in order can count them as it goes: a new highest
number overtakes those between it and the highest number before (`overtaken_concat`).
-/

namespace Arrivals

/-- The highest number that arrived, or zero. -/
def highest (l : List Nat) : Nat := l.foldl max 0

/-- The number `k` had not arrived before a higher one did. -/
def Overtaken (k : Nat) : List Nat → Prop
  | [] => False
  | x :: l => k < x ∨ x ≠ k ∧ Overtaken k l

instance decidableOvertaken (k : Nat) : (l : List Nat) → Decidable (Overtaken k l)
  | [] => inferInstanceAs (Decidable False)
  | x :: l =>
      have := decidableOvertaken k l
      inferInstanceAs (Decidable (k < x ∨ x ≠ k ∧ Overtaken k l))

/-- How many of the numbers below the highest one were overtaken. -/
def overtaken (l : List Nat) : Nat := (List.range (highest l)).countP fun k => 0 < k ∧ Overtaken k l

variable {k x : Nat} {l l' : List Nat}

@[simp] theorem highest_concat (l : List Nat) (x : Nat) :
    highest (l ++ [x]) = max (highest l) x := by
  simp [highest]

theorem le_highest (h : x ∈ l) : x ≤ highest l := by
  induction l using List.reverseRecOn with
  | nil => cases h
  | append_singleton l y ih =>
    rw [highest_concat]
    rcases List.mem_append.1 h with h | h
    · exact (ih h).trans (le_max_left _ _)
    · rw [List.mem_singleton.1 h]
      exact le_max_right _ _

theorem highest_mem (h : highest l ≠ 0) : highest l ∈ l := by
  induction l using List.reverseRecOn with
  | nil => exact absurd rfl h
  | append_singleton l y ih =>
    rw [highest_concat] at h ⊢
    rcases le_total (highest l) y with hle | hle
    · rw [max_eq_right hle]
      exact List.mem_append_right _ List.mem_cons_self
    · rw [max_eq_left hle] at h ⊢
      exact List.mem_append_left _ (ih h)

/-- Once a number as high has arrived, nothing changes any more. -/
theorem overtaken_append_of_le (hx : x ∈ l) (hk : k ≤ x) :
    Overtaken k (l ++ l') ↔ Overtaken k l := by
  induction l with
  | nil => cases hx
  | cons y l ih =>
    rw [List.cons_append, Overtaken, Overtaken]
    rcases List.mem_cons.1 hx with rfl | hx
    · rcases hk.lt_or_eq with hlt | rfl
      · simp [hlt]
      · simp
    · rw [ih hx]

/-- Until then lower numbers make no difference. -/
theorem overtaken_append_of_lt (h : ∀ y ∈ l, y < k) :
    Overtaken k (l ++ l') ↔ Overtaken k l' := by
  induction l with
  | nil => rfl
  | cons y l ih =>
    have hy := h y List.mem_cons_self
    rw [List.cons_append, Overtaken, ih fun z hz => h z (List.mem_cons_of_mem _ hz)]
    simp [hy.ne, hy.not_gt]

theorem not_overtaken_highest (l : List Nat) : ¬ Overtaken (highest l) l := by
  have hle : ∀ y ∈ l, y ≤ highest l := fun y hy => le_highest hy
  generalize highest l = h at hle
  induction l with
  | nil => exact id
  | cons y l ih =>
    have hy := hle y List.mem_cons_self
    have hl := ih fun z hz => hle z (List.mem_cons_of_mem _ hz)
    rw [Overtaken]
    simp [hl, hy.not_gt]

/-- **A new highest number** overtakes all numbers between it and the one before. -/
theorem overtaken_concat (h : highest l < x) :
    overtaken (l ++ [x]) = overtaken l + (x - (highest l + 1)) := by
  have hrange : List.range x =
      List.range (highest l) ++ highest l :: List.range' (highest l + 1) (x - (highest l + 1)) := by
    obtain ⟨n, rfl⟩ := Nat.exists_eq_add_of_lt h
    have hsplit := List.range'_append_1 (s := 0) (m := highest l) (n := n + 1)
    rw [List.range_eq_range', List.range_eq_range', Nat.add_assoc, ← hsplit, Nat.zero_add,
      List.range'_succ]
    congr 3
    omega
  have hbelow : (List.range (highest l)).countP (fun k => 0 < k ∧ Overtaken k (l ++ [x])) =
      overtaken l := by
    apply List.countP_congr
    intro k hk
    have hk := List.mem_range.1 hk
    simp [overtaken_append_of_le (highest_mem (Nat.ne_of_gt (Nat.zero_lt_of_lt hk))) hk.le]
  have hat : ¬ (0 < highest l ∧ Overtaken (highest l) (l ++ [x])) := by
    intro hover
    rw [overtaken_append_of_le (highest_mem hover.1.ne') le_rfl] at hover
    exact not_overtaken_highest l hover.2
  have habove : (List.range' (highest l + 1) (x - (highest l + 1))).countP
      (fun k => 0 < k ∧ Overtaken k (l ++ [x])) = x - (highest l + 1) := by
    rw [List.countP_eq_length.2, List.length_range']
    intro k hk
    obtain ⟨hlo, hhi⟩ := List.mem_range'_1.1 hk
    have hlt : ∀ y ∈ l, y < k := fun y hy => lt_of_le_of_lt (le_highest hy) hlo
    have hx : k < x := by omega
    simp [overtaken_append_of_lt hlt, Overtaken, hx, Nat.zero_lt_of_lt hlo]
  rw [overtaken, highest_concat, max_eq_right h.le, hrange, List.countP_append,
    List.countP_cons_of_neg (by simpa using hat), hbelow, habove]

end Arrivals
