import Mathlib.Data.List.Infix
import Mathlib.Tactic.Common

/-!
# Self-delimiting records

A record format is an encoding of records as strings together with a notion of validity. It is
*self-delimiting* when no string starts with two different valid records. Then reading records off
the front of a string until none fits has one outcome (`Parses`), and that outcome is the longest
sequence of valid records the string starts with (`Parses.longest`). Nothing is assumed about what
follows: it need not be records, and may even contain some.
-/

namespace Framing

variable {α ρ : Type*} (enc : ρ → List α) (valid : ρ → Prop)

/-- No string starts with two different valid records. -/
def SelfDelimiting : Prop :=
  ∀ ⦃r r' : ρ⦄ ⦃d : List α⦄, valid r → valid r' → enc r <+: d → enc r' <+: d → r = r'

/-- No valid record starts here. -/
def Stops (d : List α) : Prop := ∀ r, valid r → ¬ enc r <+: d

/-- Reading records off the front of `d` until none fits gives `rs`. -/
structure Parses (d : List α) (rs : List ρ) : Prop where
  mem : ∀ r ∈ rs, valid r
  split : ∃ rest, d = rs.flatMap enc ++ rest ∧ Stops enc valid rest

namespace Parses

variable {enc valid} {d : List α} {r : ρ} {rs rs' : List ρ}

theorem nil (h : Stops enc valid d) : Parses enc valid d [] := ⟨by simp, d, rfl, h⟩

theorem cons (hr : valid r) (h : Parses enc valid d rs) :
    Parses enc valid (enc r ++ d) (r :: rs) := by
  obtain ⟨hv, rest, rfl, hstop⟩ := h
  refine ⟨?_, rest, by simp, hstop⟩
  intro x hx
  rcases List.mem_cons.1 hx with rfl | hx
  · exact hr
  · exact hv x hx

theorem append (hv : ∀ r ∈ rs, valid r) {rest : List α} (h : Stops enc valid rest) :
    Parses enc valid (rs.flatMap enc ++ rest) rs := ⟨hv, rest, rfl, h⟩

/-- **The longest sequence**: any valid records that `d` starts with come first in `rs`. -/
theorem longest (hc : SelfDelimiting enc valid) (h : Parses enc valid d rs)
    (hv : ∀ r ∈ rs', valid r) (hp : rs'.flatMap enc <+: d) : rs' <+: rs := by
  obtain ⟨hrs, rest, rfl, hstop⟩ := h
  induction rs' generalizing rs with
  | nil => exact List.nil_prefix
  | cons r' rs' ih =>
    have hr' : valid r' := hv r' List.mem_cons_self
    rw [List.flatMap_cons] at hp
    have hfirst : enc r' <+: rs.flatMap enc ++ rest := (List.prefix_append _ _).trans hp
    cases rs with
    | nil => exact absurd hfirst (hstop r' hr')
    | cons r rs =>
      rw [List.flatMap_cons, List.append_assoc] at hfirst hp
      obtain rfl := hc hr' (hrs r List.mem_cons_self) hfirst (List.prefix_append _ _)
      rw [List.prefix_append_right_inj] at hp
      rw [List.cons_prefix_cons]
      exact ⟨rfl, ih (fun x hx => hv x (List.mem_cons_of_mem _ hx))
        (fun x hx => hrs x (List.mem_cons_of_mem _ hx)) hp⟩

theorem unique (hc : SelfDelimiting enc valid) (h : Parses enc valid d rs)
    (h' : Parses enc valid d rs') : rs' = rs := by
  have hle : ∀ {rs rs'}, Parses enc valid d rs → Parses enc valid d rs' → rs' <+: rs := by
    intro rs rs' h h'
    obtain ⟨rest, hd, -⟩ := h'.split
    exact h.longest hc h'.mem ⟨rest, hd.symm⟩
  exact (hle h h').eq_of_length_le (hle h' h).length_le

/-- **A string with padding behind it.** Where no record starts in the padding, the records lie in the
string, or the last one breaks off at its end and goes on into the padding. -/
theorem of_padded {pad : List α} (h : Parses enc valid (d ++ pad) rs)
    (hpad : ∀ t, t <:+ pad → Stops enc valid t) :
    rs.flatMap enc <+: d ∨ ∃ init r t u, rs = init ++ [r] ∧ d = init.flatMap enc ++ t ∧ t ≠ [] ∧
      u ≠ [] ∧ enc r = t ++ u ∧ u <+: pad := by
  obtain ⟨hrs, rest, hd, -⟩ := h
  induction rs generalizing d with
  | nil => exact Or.inl List.nil_prefix
  | cons r rs ih =>
    have hr : valid r := hrs r List.mem_cons_self
    rw [List.flatMap_cons, List.append_assoc] at hd
    rcases List.append_eq_append_iff.1 hd with ⟨u, henc, hrest⟩ | ⟨d', rfl, hrest⟩
    · -- the string ends within the record or with it, so nothing follows in the padding
      have hnone : rs = [] := by
        cases rs with
        | nil => rfl
        | cons r' rs =>
          rw [List.flatMap_cons, List.append_assoc] at hrest
          exact absurd (List.prefix_append _ _) (hpad _ ⟨u, hrest.symm⟩ r' (hrs r' (by simp)))
      subst hnone
      by_cases hu : u = []
      · left
        rw [hu, List.append_nil] at henc
        rw [List.flatMap_cons, List.flatMap_nil, List.append_nil, henc]
      · right
        refine ⟨[], r, d, u, rfl, rfl, ?_, hu, henc, ⟨_, hrest.symm⟩⟩
        intro hnil
        rw [hnil, List.nil_append] at henc
        exact hpad pad List.suffix_rfl r hr ⟨_, henc ▸ hrest.symm⟩
    · have hrs' : ∀ x ∈ rs, valid x := fun x hx => hrs x (List.mem_cons_of_mem _ hx)
      rcases ih hrs' hrest.symm with hpre | ⟨init, x, t, u, rfl, rfl, htu⟩
      · left
        rw [List.flatMap_cons, List.prefix_append_right_inj]
        exact hpre
      · exact Or.inr ⟨r :: init, x, t, u, rfl, by simp, htu⟩

end Parses

/-- Every string can be read, when no valid record is empty. -/
theorem exists_parses (hne : ∀ r, valid r → enc r ≠ []) (d : List α) :
    ∃ rs, Parses enc valid d rs := by
  induction hn : d.length using Nat.strong_induction_on generalizing d with
  | h n ih =>
    by_cases hstop : Stops enc valid d
    · exact ⟨[], .nil hstop⟩
    · simp only [Stops, not_forall, not_not] at hstop
      obtain ⟨r, hr, rest, rfl⟩ := hstop
      have hpos : 0 < (enc r).length := List.length_pos_iff.2 (hne r hr)
      rw [List.length_append] at hn
      obtain ⟨rs, hrs⟩ := ih rest.length (by omega) rest rfl
      exact ⟨r :: rs, hrs.cons hr⟩

end Framing
