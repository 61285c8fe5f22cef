import Mathlib.Data.Finset.Sort
import Mathlib.Data.Fintype.EquivFin
import Mathlib.Data.List.Forall2
import Ferrox.Lib.Ranked

/-!
# Lists over two alphabets

A program that only tests whether values are equal, or which of two is smaller, cannot tell what
the values are. Two values that stand for each other are related: one to one (`Relator.BiUnique`)
where the program tests equality, in the same order (`SameOrder`) where it compares. Lists that are
related place by place then stay so under searching and queueing.

What is written in one alphabet can be written in any other that has as many letters
(`exists_biUnique`, `exists_sameOrder`).
-/

namespace Alphabet

open Relator

variable {α β : Type*}

/-- Related values come in the same order. -/
def SameOrder [LT α] [LT β] (R : α → β → Prop) : Prop :=
  ∀ ⦃a b⦄, R a b → ∀ ⦃a' b'⦄, R a' b' → (a < a' ↔ b < b')

/-- Related values that are told apart together are related one to one. -/
theorem biUnique_of_eq_iff {R : α → β → Prop}
    (h : ∀ ⦃a b⦄, R a b → ∀ ⦃a' b'⦄, R a' b' → (a = a' ↔ b = b')) : BiUnique R :=
  ⟨fun _ _ _ ha hb => (h ha hb).2 rfl, fun _ _ _ hb hc => (h hb hc).1 rfl⟩

/-! ## Lists -/

section

variable {R : α → β → Prop} {l : List α} {l' : List β}

theorem rel_find? {p : α → Bool} {q : β → Bool} (hpq : ∀ ⦃a b⦄, R a b → p a = q b)
    (h : List.Forall₂ R l l') : Option.Rel R (l.find? p) (l'.find? q) := by
  induction h with
  | nil => exact .none
  | @cons a b l l' hab _ ih =>
    cases hp : p a with
    | true =>
      rw [List.find?_cons_of_pos hp, List.find?_cons_of_pos ((hpq hab).symm.trans hp)]
      exact .some hab
    | false =>
      have hq : q b = false := (hpq hab).symm.trans hp
      rw [List.find?_cons_of_neg (by simp [hp]), List.find?_cons_of_neg (by simp [hq])]
      exact ih

theorem rel_head? (h : List.Forall₂ R l l') : Option.Rel R l.head? l'.head? := by
  cases h with
  | nil => exact .none
  | cons hab _ => exact .some hab

theorem rel_enqueue {κ κ' : Type*} [LinearOrder κ] [LinearOrder κ'] {rank : α → κ}
    {rank' : β → κ'} (hR : ∀ ⦃a b⦄, R a b → ∀ ⦃a' b'⦄, R a' b' →
      (rank a < rank a' ↔ rank' b < rank' b'))
    {a : α} {b : β} (hab : R a b) (h : List.Forall₂ R l l') :
    List.Forall₂ R (Ranked.enqueue rank a l) (Ranked.enqueue rank' b l') := by
  unfold Ranked.enqueue
  induction h with
  | nil => exact .cons hab .nil
  | cons hcd hrest ih =>
    rw [List.orderedInsert_cons, List.orderedInsert_cons]
    simp only [hR hab hcd]
    split_ifs with hlt
    · exact .cons hab (.cons hcd hrest)
    · exact .cons hcd ih

theorem exists_forall₂ (h : ∀ a ∈ l, ∃ b, R a b) : ∃ l', List.Forall₂ R l l' := by
  induction l with
  | nil => exact ⟨[], .nil⟩
  | cons a l ih =>
    obtain ⟨b, hab⟩ := h a List.mem_cons_self
    obtain ⟨l', hl'⟩ := ih fun c hc => h c (List.mem_cons_of_mem a hc)
    exact ⟨b :: l', .cons hab hl'⟩

end

/-! ## Other alphabets -/

variable {A : Finset α} {B : Finset β}

theorem exists_biUnique (h : A.card ≤ B.card) : ∃ R : α → β → Prop,
    BiUnique R ∧ (∀ a ∈ A, ∃ b, R a b) ∧ ∀ ⦃a b⦄, R a b → b ∈ B := by
  have hcard : Fintype.card A ≤ Fintype.card B := by
    rwa [Fintype.card_coe, Fintype.card_coe]
  obtain ⟨f⟩ := Function.Embedding.nonempty_of_card_le hcard
  refine ⟨fun a b => ∃ ha : a ∈ A, f ⟨a, ha⟩ = b, ⟨?_, ?_⟩, ?_, ?_⟩
  · rintro a a' b ⟨ha, rfl⟩ ⟨ha', heq⟩
    exact (congrArg Subtype.val (f.injective (Subtype.ext heq))).symm
  · rintro a b b' ⟨ha, rfl⟩ ⟨_, rfl⟩
    rfl
  · exact fun a ha => ⟨_, ha, rfl⟩
  · rintro a b ⟨ha, rfl⟩
    exact (f ⟨a, ha⟩).2

/-- Letters that are compared: the `i`-th smallest for the `i`-th smallest. -/
theorem exists_sameOrder [LinearOrder α] [LinearOrder β] (h : A.card ≤ B.card) :
    ∃ R : α → β → Prop,
      SameOrder R ∧ (∀ a ∈ A, ∃ b, R a b) ∧ ∀ ⦃a b⦄, R a b → b ∈ B := by
  let f : A ↪o β := ((A.orderIsoOfFin rfl).symm.toOrderEmbedding.trans
    (Fin.castLEOrderEmb h)).trans (B.orderEmbOfFin rfl)
  refine ⟨fun a b => ∃ ha : a ∈ A, f ⟨a, ha⟩ = b, ?_, ?_, ?_⟩
  · rintro a b ⟨ha, rfl⟩ a' b' ⟨ha', rfl⟩
    show (⟨a, ha⟩ : A) < ⟨a', ha'⟩ ↔ _
    exact f.lt_iff_lt.symm
  · exact fun a ha => ⟨_, ha, rfl⟩
  · rintro a b ⟨ha, rfl⟩
    exact B.orderEmbOfFin_mem rfl _

end Alphabet
