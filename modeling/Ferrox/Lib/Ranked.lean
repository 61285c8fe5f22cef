import Mathlib.Data.List.Induction
import Mathlib.Data.List.Sort
import Mathlib.Tactic.Common

/-!
# Queues ordered by rank

A *ranked queue* is a list whose members' ranks never decrease: best rank first, and within one
rank in order of arrival. `enqueue` puts a newcomer behind everybody of its own rank or better.

A ranked queue is determined by what it holds at each rank (`eq_of_filter_eq`). So two ways of
building a queue agree as soon as they agree rank by rank, and that is how every operation is
compared with its specification: `filter_enqueue` and `filter_flatMap` say what an operation
does to each rank.
-/

namespace Ranked

variable {α β κ : Type*} [LinearOrder κ] (rank : α → κ)

/-- The ranks never decrease along the list. -/
def Sorted (l : List α) : Prop := l.Pairwise fun a b => rank a ≤ rank b

/-- The members of a given rank, in order. -/
def atRank (k : κ) (l : List α) : List α := l.filter fun a => rank a = k

/-- Put `a` behind every member of its own rank or better. -/
def enqueue (a : α) (l : List α) : List α := l.orderedInsert (fun x y => rank x < rank y) a

variable {rank} {l l' : List α} {a : α}

@[simp] theorem enqueue_nil : enqueue rank a [] = [a] := rfl

@[simp] theorem mem_enqueue {b : α} : b ∈ enqueue rank a l ↔ b = a ∨ b ∈ l :=
  List.mem_orderedInsert _

theorem enqueue_perm (a : α) (l : List α) : (enqueue rank a l).Perm (a :: l) :=
  List.perm_orderedInsert _ a l

theorem map_enqueue {rank' : β → κ} (f : α → β)
    (hf : ∀ x y, rank' (f x) < rank' (f y) ↔ rank x < rank y) :
    (enqueue rank a l).map f = enqueue rank' (f a) (l.map f) :=
  List.map_orderedInsert _ _ f l a (fun b _ => by simp [hf]) (fun b _ => by simp [hf])

theorem sorted_enqueue (h : Sorted rank l) : Sorted rank (enqueue rank a l) := by
  induction l with
  | nil => simp [Sorted]
  | cons b l ih =>
    obtain ⟨hb, hl⟩ := List.pairwise_cons.1 h
    unfold enqueue
    rw [List.orderedInsert_cons]
    split_ifs with hab
    · refine List.pairwise_cons.2 ⟨fun c hc => ?_, h⟩
      rcases List.mem_cons.1 hc with rfl | hc
      · exact hab.le
      · exact hab.le.trans (hb c hc)
    · refine List.pairwise_cons.2 ⟨fun c hc => ?_, ih hl⟩
      rcases mem_enqueue.1 hc with rfl | hc
      · exact not_lt.1 hab
      · exact hb c hc

theorem enqueue_eq_append (h : ∀ b ∈ l, rank b ≤ rank a) : enqueue rank a l = l ++ [a] := by
  induction l with
  | nil => rfl
  | cons b l ih =>
    have hb : ¬ rank a < rank b := not_lt.2 (h b List.mem_cons_self)
    have hl := ih fun c hc => h c (List.mem_cons_of_mem b hc)
    unfold enqueue at hl ⊢
    rw [List.orderedInsert_cons, if_neg hb, hl, List.cons_append]

/-- **A newcomer cuts the queue in two**: in front of it stand those of its own rank or better, and
behind it the others. -/
theorem enqueue_eq_split (h : Sorted rank l) : ∃ l₁ l₂, l = l₁ ++ l₂ ∧
    enqueue rank a l = l₁ ++ a :: l₂ ∧ (∀ b ∈ l₁, rank b ≤ rank a) ∧
    ∀ b ∈ l₂, rank a < rank b := by
  induction l with
  | nil => exact ⟨[], [], rfl, rfl, by simp, by simp⟩
  | cons b l ih =>
    obtain ⟨hb, hl⟩ := List.pairwise_cons.1 h
    unfold enqueue
    rw [List.orderedInsert_cons]
    split_ifs with hab
    · refine ⟨[], b :: l, rfl, rfl, by simp, ?_⟩
      intro c hc
      rcases List.mem_cons.1 hc with rfl | hc
      · exact hab
      · exact hab.trans_le (hb c hc)
    · obtain ⟨l₁, l₂, rfl, hsplit, h₁, h₂⟩ := ih hl
      refine ⟨b :: l₁, l₂, rfl, congrArg (b :: ·) hsplit, ?_, h₂⟩
      intro c hc
      rcases List.mem_cons.1 hc with rfl | hc
      · exact not_lt.1 hab
      · exact h₁ c hc

/-- A queue that is cut so shows where the newcomer goes. -/
theorem enqueue_append {l₁ l₂ : List α} (h₁ : ∀ b ∈ l₁, rank b ≤ rank a)
    (h₂ : ∀ b ∈ l₂, rank a < rank b) : enqueue rank a (l₁ ++ l₂) = l₁ ++ a :: l₂ := by
  unfold enqueue
  induction l₁ with
  | nil =>
    cases l₂ with
    | nil => rfl
    | cons b l₂ => exact List.orderedInsert_cons_of_le _ l₂ (h₂ b List.mem_cons_self)
  | cons b l₁ ih =>
    have hb : ¬ rank a < rank b := not_lt.2 (h₁ b List.mem_cons_self)
    rw [List.cons_append, List.orderedInsert_cons, if_neg hb,
      ih fun c hc => h₁ c (List.mem_cons_of_mem b hc), List.cons_append]

/-- **A newcomer goes where it would go without some of the others.** -/
theorem enqueue_filter (h : Sorted rank l) {p : α → Bool} (ha : p a) :
    (enqueue rank a l).filter p = enqueue rank a (l.filter p) := by
  obtain ⟨l₁, l₂, rfl, hsplit, h₁, h₂⟩ := enqueue_eq_split (a := a) h
  rw [hsplit, List.filter_append, List.filter_append, List.filter_cons_of_pos ha]
  refine (enqueue_append ?_ ?_).symm
  · exact fun b hb => h₁ b (List.mem_of_mem_filter hb)
  · exact fun b hb => h₂ b (List.mem_of_mem_filter hb)

/-- Queueing the members of a ranked queue in their order rebuilds it. -/
theorem foldl_enqueue (h : Sorted rank l) :
    l.foldl (fun q a => enqueue rank a q) [] = l := by
  induction l using List.reverseRecOn with
  | nil => rfl
  | append_singleton l a ih =>
    obtain ⟨hl, -, ha⟩ := List.pairwise_append.1 h
    rw [List.foldl_append, ih hl]
    exact enqueue_eq_append fun b hb => ha b hb a List.mem_cons_self

/-- **A newcomer joins the back of its own rank** and no other rank notices. -/
theorem filter_enqueue (h : Sorted rank l) (k : κ) :
    atRank rank k (enqueue rank a l) =
      if rank a = k then atRank rank k l ++ [a] else atRank rank k l := by
  induction l with
  | nil =>
    by_cases hk : rank a = k <;> simp [atRank, hk]
  | cons b l ih =>
    obtain ⟨hb, hl⟩ := List.pairwise_cons.1 h
    unfold enqueue
    rw [List.orderedInsert_cons]
    split_ifs with hab hk hk
    · -- everything from `b` on ranks strictly behind `a`, so none of it has rank `k`
      have hnone : atRank rank k (b :: l) = [] := by
        refine List.filter_eq_nil_iff.2 fun c hc => ?_
        have hac : rank a < rank c := by
          rcases List.mem_cons.1 hc with rfl | hc
          · exact hab
          · exact hab.trans_le (hb c hc)
        simpa using (hk ▸ hac).ne'
      rw [hnone]
      simpa [atRank, hk] using hnone
    · simp [atRank, List.filter_cons_of_neg, hk]
    · have := ih hl
      rw [if_pos hk] at this
      by_cases hbk : rank b = k <;> simp_all [atRank, enqueue]
    · have := ih hl
      rw [if_neg hk] at this
      by_cases hbk : rank b = k <;> simp_all [atRank, enqueue]

/-- **Ranked queues agree when they agree rank by rank.** -/
theorem eq_of_filter_eq (h : Sorted rank l) (h' : Sorted rank l')
    (he : ∀ k, atRank rank k l = atRank rank k l') : l = l' := by
  induction l generalizing l' with
  | nil =>
    cases l' with
    | nil => rfl
    | cons b l' => simpa [atRank] using he (rank b)
  | cons a l ih =>
    cases l' with
    | nil => simpa [atRank] using he (rank a)
    | cons b l' =>
      obtain ⟨ha, hl⟩ := List.pairwise_cons.1 h
      obtain ⟨hb, hl'⟩ := List.pairwise_cons.1 h'
      have mem_iff : ∀ c, c ∈ a :: l ↔ c ∈ b :: l' := fun c => by
        have := congrArg (c ∈ ·) (he (rank c))
        simpa [atRank] using this
      have hba : rank b ≤ rank a := by
        rcases List.mem_cons.1 ((mem_iff a).1 List.mem_cons_self) with h | h
        · exact h ▸ le_rfl
        · exact hb a h
      have hab : rank a ≤ rank b := by
        rcases List.mem_cons.1 ((mem_iff b).2 List.mem_cons_self) with h | h
        · exact h ▸ le_rfl
        · exact ha b h
      have hrank : rank b = rank a := le_antisymm hba hab
      have hhead : a = b := by
        have := he (rank a)
        simp only [atRank, List.filter_cons, hrank, decide_true, if_true] at this
        exact (List.cons.inj this).1
      subst hhead
      refine congrArg (a :: ·) (ih hl hl' fun k => ?_)
      have := he k
      by_cases hk : rank a = k <;> simpa [atRank, hk] using this

/-! ## Queues built rank by rank -/

variable {ι : Type*} {ks : List ι} {f : ι → κ} {q : ι → List α}

theorem sorted_flatMap (hks : ks.Pairwise fun i j => f i < f j)
    (hq : ∀ i ∈ ks, ∀ a ∈ q i, rank a = f i) : Sorted rank (ks.flatMap q) := by
  induction ks with
  | nil => simp [Sorted]
  | cons i ks ih =>
    obtain ⟨hi, hks⟩ := List.pairwise_cons.1 hks
    rw [List.flatMap_cons]
    refine List.pairwise_append.2 ⟨?_, ?_, ?_⟩
    · refine List.pairwise_of_forall_mem_list fun a ha b hb => ?_
      rw [hq i List.mem_cons_self a ha, hq i List.mem_cons_self b hb]
    · exact ih hks fun j hj => hq j (List.mem_cons_of_mem _ hj)
    · intro a ha b hb
      obtain ⟨j, hj, hb⟩ := List.mem_flatMap.1 hb
      rw [hq i List.mem_cons_self a ha, hq j (List.mem_cons_of_mem _ hj) b hb]
      exact (hi j hj).le

theorem filter_flatMap (hks : ks.Pairwise fun i j => f i < f j)
    (hq : ∀ i ∈ ks, ∀ a ∈ q i, rank a = f i) {i : ι} (hi : i ∈ ks) :
    atRank rank (f i) (ks.flatMap q) = q i := by
  induction ks with
  | nil => simp at hi
  | cons j ks ih =>
    obtain ⟨hj, hks⟩ := List.pairwise_cons.1 hks
    have hrest : ∀ i ∈ ks, ∀ a ∈ q i, rank a = f i := fun i hi => hq i (List.mem_cons_of_mem _ hi)
    rw [List.flatMap_cons, atRank, List.filter_append]
    rcases List.mem_cons.1 hi with rfl | hi
    · have h₁ : (q i).filter (fun a => rank a = f i) = q i :=
        List.filter_eq_self.2 fun a ha => by simpa using hq i List.mem_cons_self a ha
      have h₂ : (ks.flatMap q).filter (fun a => rank a = f i) = [] := by
        refine List.filter_eq_nil_iff.2 fun a ha => ?_
        obtain ⟨k, hk, ha⟩ := List.mem_flatMap.1 ha
        simpa [hrest k hk a ha] using (hj k hk).ne'
      rw [h₁, h₂, List.append_nil]
    · have h₁ : (q j).filter (fun a => rank a = f i) = [] := by
        refine List.filter_eq_nil_iff.2 fun a ha => ?_
        simpa [hq j List.mem_cons_self a ha] using (hj i hi).ne
      rw [h₁, List.nil_append]
      exact ih hks hrest hi

theorem filter_flatMap_of_notMem (hq : ∀ i ∈ ks, ∀ a ∈ q i, rank a = f i) {k : κ}
    (hk : ∀ i ∈ ks, f i ≠ k) : atRank rank k (ks.flatMap q) = [] := by
  refine List.filter_eq_nil_iff.2 fun a ha => ?_
  obtain ⟨i, hi, ha⟩ := List.mem_flatMap.1 ha
  simpa [hq i hi a ha] using hk i hi

/-! ## Arranging arrivals

A flat list in order of arrival stands for a ranked queue: sort it by rank and keep the order of
arrival within a rank. `Arranges` says so without naming a sorting algorithm. -/

variable (rank) in
/-- The queue `q` holds the arrivals `l`: by rank, and within a rank in order of arrival. -/
structure Arranges (q l : List α) : Prop where
  sorted : Sorted rank q
  atRank : ∀ k, atRank rank k q = atRank rank k l

namespace Arranges

variable {q q' l₁ l₂ : List α} {m m' : α}

theorem nil : Arranges rank ([] : List α) [] := ⟨List.Pairwise.nil, fun _ => rfl⟩

theorem mem_iff (h : Arranges rank q l) {x : α} : x ∈ q ↔ x ∈ l := by
  have := congrArg (x ∈ ·) (h.atRank (rank x))
  simpa [Ranked.atRank] using this

theorem perm (h : Arranges rank q l) : q.Perm l := by
  classical
  rw [List.perm_iff_count]
  intro x
  have hcount : ∀ l : List α, (Ranked.atRank rank (rank x) l).count x = l.count x := by
    intro l
    rw [Ranked.atRank, List.count_filter (by simp)]
  rw [← hcount q, ← hcount l, h.atRank]

theorem eq (h : Arranges rank q l) (h' : Arranges rank q' l) : q = q' :=
  eq_of_filter_eq h.sorted h'.sorted fun k => (h.atRank k).trans (h'.atRank k).symm

/-- An arrival goes to the end of the list and behind its rank in the queue. -/
theorem append (h : Arranges rank q l) (a : α) : Arranges rank (enqueue rank a q) (l ++ [a]) := by
  refine ⟨sorted_enqueue h.sorted, fun k => ?_⟩
  rw [filter_enqueue h.sorted, h.atRank]
  by_cases hk : rank a = k <;> simp [Ranked.atRank, hk]

theorem filter (h : Arranges rank q l) (p : α → Bool) :
    Arranges rank (q.filter p) (l.filter p) := by
  refine ⟨h.sorted.sublist List.filter_sublist, fun k => ?_⟩
  have := congrArg (List.filter p) (h.atRank k)
  simpa only [Ranked.atRank, List.filter_comm p] using this

/-- **The front of the queue** is the earliest arrival of the best rank; without it the rest of the
queue holds the rest of the arrivals. -/
theorem front (h : Arranges rank q (l₁ ++ m :: l₂)) (h₁ : ∀ x ∈ l₁, rank m < rank x)
    (h₂ : ∀ x ∈ l₂, rank m ≤ rank x) : ∃ q', q = m :: q' ∧ Arranges rank q' (l₁ ++ l₂) := by
  have hm : m ∈ q := h.mem_iff.2 (by simp)
  cases q with
  | nil => simp at hm
  | cons a q =>
    obtain ⟨ha, hq⟩ := List.pairwise_cons.1 h.sorted
    have ham : rank a ≤ rank m := by
      rcases List.mem_cons.1 hm with rfl | hm
      · exact le_rfl
      · exact ha m hm
    have hma : rank m ≤ rank a := by
      have hmem := h.mem_iff.1 (List.mem_cons_self (a := a) (l := q))
      rcases List.mem_append.1 hmem with hx | hx
      · exact (h₁ a hx).le
      · rcases List.mem_cons.1 hx with rfl | hx
        · exact le_rfl
        · exact h₂ a hx
    have heq : rank a = rank m := le_antisymm ham hma
    have hnone : Ranked.atRank rank (rank m) l₁ = [] :=
      List.filter_eq_nil_iff.2 fun x hx => by simpa using (h₁ x hx).ne'
    -- at the best rank the queue reads `a`, then the rest; the arrivals read `m`, then the rest
    have hbest : a = m ∧ Ranked.atRank rank (rank m) q = Ranked.atRank rank (rank m) l₂ := by
      have := h.atRank (rank m)
      simp only [Ranked.atRank, List.filter_append, List.filter_cons, heq, decide_true,
        if_true] at this hnone ⊢
      rw [hnone, List.nil_append] at this
      exact List.cons.inj this
    obtain ⟨rfl, htail⟩ := hbest
    refine ⟨q, rfl, hq, fun k => ?_⟩
    by_cases hk : rank a = k
    · subst hk
      rw [htail, Ranked.atRank, Ranked.atRank, List.filter_append]
      exact (congrArg (· ++ _) hnone).symm
    · have := h.atRank k
      simpa [Ranked.atRank, hk] using this

theorem replace_front (h : Arranges rank (m :: q) (l₁ ++ m :: l₂))
    (h₁ : ∀ x ∈ l₁, rank m < rank x) (hr : rank m' = rank m) :
    Arranges rank (m' :: q) (l₁ ++ m' :: l₂) := by
  obtain ⟨hm, hq⟩ := List.pairwise_cons.1 h.sorted
  refine ⟨List.pairwise_cons.2 ⟨fun x hx => hr ▸ hm x hx, hq⟩, fun k => ?_⟩
  have := h.atRank k
  by_cases hk : rank m = k
  · have hnone : Ranked.atRank rank k l₁ = [] :=
      List.filter_eq_nil_iff.2 fun x hx => by simpa [hk] using (hk ▸ h₁ x hx).ne'
    simp only [Ranked.atRank, List.filter_append, List.filter_cons, hk, hr, decide_true,
      if_true] at this hnone ⊢
    rw [hnone, List.nil_append] at this ⊢
    rw [(List.cons.inj this).2]
  · simpa [Ranked.atRank, hk, hr] using this

end Arranges

end Ranked
