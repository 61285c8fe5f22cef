import Mathlib.Data.List.Sort
import Mathlib.Order.MinMax
import Mathlib.Tactic.Common

/-!
# Ordered finite maps

An ordered map is an association list whose keys strictly increase. The order is part of the
type, so every map that can be built iterates its keys in increasing order, holds each key once,
and is determined by its lookups' domain and values.

Looking a key up after an update is `get?_insert` and `get?_erase`; the two ends of the key
order are `minKey?` and `maxKey?`.
-/

/-- A finite map, kept as an association list with strictly increasing keys. -/
structure OrdMap (K V : Type*) [LinearOrder K] where
  /-- The entries, in increasing key order. -/
  entries : List (K × V)
  sorted : entries.Pairwise fun a b => a.1 < b.1

namespace OrdMap

variable {K V : Type*} [LinearOrder K]

/-- The map with no entry. -/
def empty : OrdMap K V := ⟨[], List.Pairwise.nil⟩

/-- The keys, in increasing order. -/
def keys (m : OrdMap K V) : List K := m.entries.map (·.1)

/-- The values, in increasing key order. -/
def values (m : OrdMap K V) : List V := m.entries.map (·.2)

/-- The value of the first entry with the given key. -/
def lookupEntries (k : K) : List (K × V) → Option V
  | [] => none
  | e :: es => if k = e.1 then some e.2 else lookupEntries k es

/-- The value at a key. -/
def get? (m : OrdMap K V) (k : K) : Option V := lookupEntries k m.entries

/-- The least key. -/
def minKey? (m : OrdMap K V) : Option K := m.keys.head?

/-- The greatest key. -/
def maxKey? (m : OrdMap K V) : Option K := m.keys.getLast?

/-- Put an entry at its place in the order, replacing one with the same key. -/
def insertEntries (k : K) (v : V) : List (K × V) → List (K × V)
  | [] => [(k, v)]
  | e :: es =>
      if k < e.1 then (k, v) :: e :: es
      else if k = e.1 then (k, v) :: es
      else e :: insertEntries k v es

theorem mem_insertEntries {k : K} {v : V} {a : K × V} {es : List (K × V)}
    (h : a ∈ insertEntries k v es) : a = (k, v) ∨ a ∈ es := by
  induction es with
  | nil => simpa [insertEntries] using h
  | cons e es ih =>
    unfold insertEntries at h
    split_ifs at h with h₁ h₂
    · simpa using h
    · rcases List.mem_cons.1 h with h | h
      · exact Or.inl h
      · exact Or.inr (List.mem_cons_of_mem _ h)
    · rcases List.mem_cons.1 h with h | h
      · exact Or.inr (h ▸ List.mem_cons_self)
      · exact (ih h).imp_right (List.mem_cons_of_mem _)

theorem sorted_insertEntries (k : K) (v : V) {es : List (K × V)}
    (h : es.Pairwise fun a b => a.1 < b.1) :
    (insertEntries k v es).Pairwise fun a b => a.1 < b.1 := by
  induction es with
  | nil => simp [insertEntries]
  | cons e es ih =>
    obtain ⟨he, hes⟩ := List.pairwise_cons.1 h
    unfold insertEntries
    split_ifs with h₁ h₂
    · refine List.pairwise_cons.2 ⟨fun a ha => ?_, h⟩
      rcases List.mem_cons.1 ha with rfl | ha
      · exact h₁
      · exact h₁.trans (he a ha)
    · exact List.pairwise_cons.2 ⟨fun a ha => h₂ ▸ he a ha, hes⟩
    · refine List.pairwise_cons.2 ⟨fun a ha => ?_, ih hes⟩
      rcases mem_insertEntries ha with rfl | ha
      · exact lt_of_le_of_ne (not_lt.1 h₁) (Ne.symm h₂)
      · exact he a ha

/-- Set the value at a key. -/
def insert (m : OrdMap K V) (k : K) (v : V) : OrdMap K V :=
  ⟨insertEntries k v m.entries, sorted_insertEntries k v m.sorted⟩

/-- Remove a key. -/
def erase (m : OrdMap K V) (k : K) : OrdMap K V :=
  ⟨m.entries.filter (·.1 ≠ k), m.sorted.sublist List.filter_sublist⟩

/-! ## Lookups -/

@[simp] theorem get?_empty (k : K) : (empty : OrdMap K V).get? k = none := rfl

theorem lookup_insertEntries (k k' : K) (v : V) (es : List (K × V)) :
    lookupEntries k' (insertEntries k v es) = if k' = k then some v else lookupEntries k' es := by
  induction es with
  | nil => rfl
  | cons e es ih =>
    unfold insertEntries
    split_ifs with h₁ h₂ h₃ h₄
    · simp [lookupEntries, h₂]
    · simp [lookupEntries, h₂]
    · simp [lookupEntries, h₄]
    · simp [lookupEntries, h₃, show ¬ k' = e.1 from fun h => h₄ (h.trans h₃.symm)]
    · rename_i hk
      rw [lookupEntries, ih, if_neg (fun h => h₃ (hk ▸ h)), if_pos hk]
    · rename_i hk
      rw [lookupEntries, lookupEntries, ih, if_neg hk]

theorem get?_insert (m : OrdMap K V) (k k' : K) (v : V) :
    (m.insert k v).get? k' = if k' = k then some v else m.get? k' :=
  lookup_insertEntries k k' v m.entries

theorem lookup_filter_ne (k k' : K) (es : List (K × V)) :
    lookupEntries k' (es.filter (·.1 ≠ k)) = if k' = k then none else lookupEntries k' es := by
  induction es with
  | nil => simp [lookupEntries]
  | cons e es ih =>
    by_cases he : e.1 = k
    · rw [List.filter_cons_of_neg (by simpa using he), ih]
      split_ifs with hk
      · rfl
      · rw [lookupEntries, if_neg (fun h => hk (h.trans he))]
    · rw [List.filter_cons_of_pos (by simpa using he), lookupEntries, ih]
      split_ifs with h₁ h₂
      · exact absurd (h₁.symm.trans h₂) he
      · rw [lookupEntries, if_pos h₁]
      · rfl
      · rw [lookupEntries, if_neg h₁]

theorem get?_erase (m : OrdMap K V) (k k' : K) :
    (m.erase k).get? k' = if k' = k then none else m.get? k' :=
  lookup_filter_ne k k' m.entries

theorem get?_eq_some_iff (m : OrdMap K V) {k : K} {v : V} :
    m.get? k = some v ↔ (k, v) ∈ m.entries := by
  obtain ⟨es, hs⟩ := m
  simp only [get?]
  induction es with
  | nil => simp [lookupEntries]
  | cons e es ih =>
    obtain ⟨he, hes⟩ := List.pairwise_cons.1 hs
    rw [lookupEntries, List.mem_cons]
    by_cases hk : k = e.1
    · have hne : (k, v) ∉ es := fun hm => hk.not_gt (he _ hm)
      simp [hk ▸ hne, hk, Prod.ext_iff, eq_comm]
    · have hne : ¬ (k, v) = e := fun h => hk (by rw [← h])
      simp [hk, hne, ih hes]

theorem mem_keys_iff (m : OrdMap K V) {k : K} : k ∈ m.keys ↔ ∃ v, m.get? k = some v := by
  simp only [keys, List.mem_map, get?_eq_some_iff]
  constructor
  · rintro ⟨e, he, rfl⟩
    exact ⟨e.2, he⟩
  · rintro ⟨v, hv⟩
    exact ⟨_, hv, rfl⟩

theorem get?_eq_none_iff (m : OrdMap K V) {k : K} : m.get? k = none ↔ k ∉ m.keys := by
  rw [mem_keys_iff]
  cases m.get? k <;> simp

theorem insertEntries_insertEntries (k : K) (v v' : V) (es : List (K × V)) :
    insertEntries k v' (insertEntries k v es) = insertEntries k v' es := by
  induction es with
  | nil => simp [insertEntries]
  | cons e es ih =>
    rw [insertEntries]
    split_ifs with h₁ h₂
    · rw [insertEntries, if_neg (lt_irrefl k), if_pos rfl, insertEntries, if_pos h₁]
    · rw [insertEntries, if_neg (lt_irrefl k), if_pos rfl, insertEntries, if_neg h₁, if_pos h₂]
    · rw [insertEntries, if_neg h₁, if_neg h₂, ih, insertEntries, if_neg h₁, if_neg h₂]

theorem insert_insert (m : OrdMap K V) (k : K) (v v' : V) :
    (m.insert k v).insert k v' = m.insert k v' := by
  simp [insert, insertEntries_insertEntries]

/-! ## The key order -/

theorem keys_sorted (m : OrdMap K V) : m.keys.Pairwise (· < ·) :=
  List.pairwise_map.2 m.sorted

theorem mem_keys_insert (m : OrdMap K V) {k k' : K} {v : V} :
    k' ∈ (m.insert k v).keys ↔ k' = k ∨ k' ∈ m.keys := by
  simp only [mem_keys_iff, get?_insert]
  by_cases h : k' = k <;> simp [h]

theorem keys_insert_of_mem (m : OrdMap K V) {k : K} (v : V) (h : k ∈ m.keys) :
    (m.insert k v).keys = m.keys := by
  refine List.Pairwise.eq_of_mem_iff (m.insert k v).keys_sorted m.keys_sorted fun k' => ?_
  rw [mem_keys_insert]
  exact ⟨fun h' => h'.elim (fun e => e ▸ h) id, Or.inr⟩

/-- Iterating the values is iterating the keys and looking each one up. -/
theorem values_eq (m : OrdMap K V) : m.values = m.keys.filterMap m.get? := by
  have h : ∀ es : List (K × V), (∀ e ∈ es, m.get? e.1 = some e.2) →
      es.map (·.2) = (es.map (·.1)).filterMap m.get? := by
    intro es hes
    induction es with
    | nil => rfl
    | cons e es ih =>
      rw [List.map_cons, List.map_cons, List.filterMap_cons, hes e List.mem_cons_self]
      simp [ih fun e' he' => hes e' (List.mem_cons_of_mem _ he')]
  exact h m.entries fun e he => m.get?_eq_some_iff.2 he

theorem minKey?_eq_some_iff (m : OrdMap K V) {k : K} :
    m.minKey? = some k ↔ k ∈ m.keys ∧ ∀ k' ∈ m.keys, k ≤ k' := by
  have hs := m.keys_sorted
  unfold minKey?
  generalize m.keys = ks at hs ⊢
  cases ks with
  | nil => simp
  | cons a ks =>
    obtain ⟨ha, -⟩ := List.pairwise_cons.1 hs
    simp only [List.head?_cons, Option.some.injEq]
    constructor
    · rintro rfl
      exact ⟨List.mem_cons_self, by simpa using fun b hb => (ha b hb).le⟩
    · rintro ⟨hk, hle⟩
      rcases List.mem_cons.1 hk with rfl | hk
      · rfl
      · exact absurd (ha k hk) (hle a List.mem_cons_self).not_gt

theorem maxKey?_eq_some_iff (m : OrdMap K V) {k : K} :
    m.maxKey? = some k ↔ k ∈ m.keys ∧ ∀ k' ∈ m.keys, k' ≤ k := by
  have hs := m.keys_sorted
  unfold maxKey?
  generalize m.keys = ks at hs ⊢
  rcases List.eq_nil_or_concat ks with rfl | ⟨ks, a, rfl⟩
  · simp
  · rw [List.concat_eq_append, List.pairwise_append] at hs
    have ha : ∀ b ∈ ks, b < a := fun b hb => hs.2.2 b hb a (by simp)
    simp only [List.concat_eq_append, List.getLast?_append, List.getLast?_singleton,
      Option.some_or, Option.some.injEq]
    constructor
    · rintro rfl
      refine ⟨by simp, fun b hb => ?_⟩
      rcases List.mem_append.1 hb with hb | hb
      · exact (ha b hb).le
      · exact (List.mem_singleton.1 hb).le
    · rintro ⟨hk, hle⟩
      rcases List.mem_append.1 hk with hk | hk
      · exact absurd (ha k hk) (hle a (by simp)).not_gt
      · exact (List.mem_singleton.1 hk).symm

theorem minKey?_insert (m : OrdMap K V) (k : K) (v : V) :
    (m.insert k v).minKey? = some (m.minKey?.elim k fun b => min b k) := by
  rw [minKey?_eq_some_iff]
  simp only [mem_keys_insert]
  cases h : m.minKey? with
  | none =>
    have hnil : m.keys = [] := by simpa [minKey?] using h
    simp [hnil]
  | some b =>
    obtain ⟨hb, hle⟩ := m.minKey?_eq_some_iff.1 h
    refine ⟨?_, ?_⟩
    · rcases min_choice b k with e | e
      · exact Or.inr (by simpa [e] using hb)
      · exact Or.inl (by simpa using e)
    · rintro k' (rfl | hk')
      · exact min_le_right _ _
      · exact (min_le_left _ _).trans (hle k' hk')

theorem maxKey?_insert (m : OrdMap K V) (k : K) (v : V) :
    (m.insert k v).maxKey? = some (m.maxKey?.elim k fun b => max b k) := by
  rw [maxKey?_eq_some_iff]
  simp only [mem_keys_insert]
  cases h : m.maxKey? with
  | none =>
    have hnil : m.keys = [] := by simpa [maxKey?] using h
    simp [hnil]
  | some b =>
    obtain ⟨hb, hle⟩ := m.maxKey?_eq_some_iff.1 h
    refine ⟨?_, ?_⟩
    · rcases max_choice b k with e | e
      · exact Or.inr (by simpa [e] using hb)
      · exact Or.inl (by simpa using e)
    · rintro k' (rfl | hk')
      · exact le_max_right _ _
      · exact (hle k' hk').trans (le_max_left _ _)

theorem minKey?_eq_none_iff (m : OrdMap K V) : m.minKey? = none ↔ m.keys = [] := by
  simp [minKey?]

theorem maxKey?_eq_none_iff (m : OrdMap K V) : m.maxKey? = none ↔ m.keys = [] := by
  simp [maxKey?]

end OrdMap
