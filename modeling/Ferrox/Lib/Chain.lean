import Mathlib.Data.List.Basic
import Mathlib.Data.List.Nodup
import Mathlib.Logic.Function.Basic

/-!
# Null-terminated chains through a link function

A linked structure stored in a flat pool is a *link function* `next : ι → ι` together with a
distinguished index `null`. `Chain next null h l` says that following `next` from `h` visits
exactly the indices of `l`, in order, and then reaches `null`.

Two facts carry everything that is done with such structures:

* `Chain.congr`: a chain only depends on the links of its own members, so writing any other
  link leaves it alone (the frame rule);
* `Chain.splice`: cutting a chain and continuing it elsewhere means rewriting one link, that of
  the last member kept.

`DList` is a doubly linked list: the same sequence read forwards through `next` and backwards
through `prev`. Appending and unlinking are each two splices, one per direction.
-/

namespace Linked

variable {ι : Type*}

/-- Following `next` from `h` visits exactly the members of `l`, then reaches `null`. -/
def Chain (next : ι → ι) (null : ι) : ι → List ι → Prop
  | h, [] => h = null
  | h, i :: l => h = i ∧ i ≠ null ∧ Chain next null (next i) l

namespace Chain

variable {next next' : ι → ι} {null h h' : ι} {l l' l₁ l₂ : List ι}

theorem head_eq (hc : Chain next null h l) : h = l.head?.getD null := by
  cases l with
  | nil => exact hc
  | cons i l => exact hc.1

theorem null_notMem (hc : Chain next null h l) : null ∉ l := by
  induction l generalizing h with
  | nil => simp
  | cons i l ih =>
    obtain ⟨-, hi, hc⟩ := hc
    simp only [List.mem_cons, not_or]
    exact ⟨fun e => hi e.symm, ih hc⟩

theorem eq_nil_iff (hc : Chain next null h l) : l = [] ↔ h = null := by
  cases l with
  | nil => exact iff_of_true rfl hc
  | cons i l =>
    obtain ⟨rfl, hi, -⟩ := hc
    simp [hi]

theorem head_mem (hc : Chain next null h l) (hh : h ≠ null) : h ∈ l := by
  cases l with
  | nil => exact absurd hc hh
  | cons i l => exact hc.1 ▸ List.mem_cons_self

/-- **The frame rule.** A chain reads the links of its own members only. -/
theorem congr (hc : Chain next null h l) (hn : ∀ i ∈ l, next' i = next i) :
    Chain next' null h l := by
  induction l generalizing h with
  | nil => exact hc
  | cons i l ih =>
    obtain ⟨hh, hi, hc⟩ := hc
    refine ⟨hh, hi, ?_⟩
    rw [hn i List.mem_cons_self]
    exact ih hc fun j hj => hn j (List.mem_cons_of_mem _ hj)

theorem unique (hc : Chain next null h l) (hc' : Chain next null h l') : l = l' := by
  induction l generalizing h l' with
  | nil => exact ((hc'.eq_nil_iff).2 hc).symm
  | cons i l ih =>
    obtain ⟨rfl, hi, hc⟩ := hc
    cases l' with
    | nil => exact absurd hc' hi
    | cons j l' =>
      obtain ⟨rfl, -, hc'⟩ := hc'
      rw [ih hc hc']

theorem of_append_cons {i : ι} (hc : Chain next null h (l₁ ++ i :: l₂)) :
    Chain next null (next i) l₂ := by
  induction l₁ generalizing h with
  | nil => exact hc.2.2
  | cons j l₁ ih => exact ih hc.2.2

theorem next_eq {i : ι} (hc : Chain next null h (l₁ ++ i :: l₂)) :
    next i = l₂.head?.getD null :=
  hc.of_append_cons.head_eq

/-- **Chains are acyclic.** A repeated member would be followed by two lists of different
lengths. -/
theorem nodup (hc : Chain next null h l) : l.Nodup := by
  induction l generalizing h with
  | nil => simp
  | cons i l ih =>
    refine List.nodup_cons.2 ⟨fun hi => ?_, ih hc.2.2⟩
    obtain ⟨l₁, l₂, rfl⟩ := List.append_of_mem hi
    have h₁ : Chain next null (next i) (l₁ ++ i :: l₂) := hc.2.2
    have hlen := congrArg List.length (h₁.unique h₁.of_append_cons)
    simp only [List.length_append, List.length_cons] at hlen
    omega

/-- **Cut and continue.** Keep the members `l₁`, redirect the last of them to `h'`, and continue
with the chain `l₂` found there. -/
theorem splice {l₃ : List ι} (hc : Chain next null h (l₁ ++ l₃)) (hc' : Chain next' null h' l₂)
    (hsame : ∀ j ∈ l₁.dropLast, next' j = next j) (hlast : ∀ j ∈ l₁.getLast?, next' j = h') :
    Chain next' null (if l₁ = [] then h' else h) (l₁ ++ l₂) := by
  induction l₁ generalizing h with
  | nil => simpa using hc'
  | cons j l₁ ih =>
    obtain ⟨hh, hj, hc⟩ := hc
    refine ⟨by simpa using hh, hj, ?_⟩
    cases l₁ with
    | nil =>
      rw [hlast j (by simp)]
      exact hc'
    | cons k l₁ =>
      have hjk : next' j = next j := hsame j (by simp)
      have := ih hc (fun i hi => hsame i (by simp [hi])) (fun i hi => hlast i (by simpa using hi))
      rw [hjk]
      simpa using this

end Chain

/-! ## Doubly linked lists -/

/-- The sequence `l`, linked forwards from `head` and backwards from `tail`. -/
structure DList (next prev : ι → ι) (null head tail : ι) (l : List ι) : Prop where
  fwd : Chain next null head l
  bwd : Chain prev null tail l.reverse

namespace DList

variable {next next' prev prev' : ι → ι} {null head tail i : ι} {l l₁ l₂ : List ι}

theorem nil : DList next prev null null null [] := ⟨rfl, rfl⟩

theorem head_eq (hd : DList next prev null head tail l) : head = l.head?.getD null :=
  hd.fwd.head_eq

theorem tail_eq (hd : DList next prev null head tail l) : tail = l.getLast?.getD null := by
  rw [hd.bwd.head_eq, List.head?_reverse]

theorem nodup (hd : DList next prev null head tail l) : l.Nodup := hd.fwd.nodup

theorem null_notMem (hd : DList next prev null head tail l) : null ∉ l := hd.fwd.null_notMem

theorem next_eq (hd : DList next prev null head tail (l₁ ++ i :: l₂)) :
    next i = l₂.head?.getD null :=
  hd.fwd.next_eq

theorem prev_eq (hd : DList next prev null head tail (l₁ ++ i :: l₂)) :
    prev i = l₁.getLast?.getD null := by
  have hb : Chain prev null tail (l₂.reverse ++ i :: l₁.reverse) := by
    simpa using hd.bwd
  rw [hb.next_eq, List.head?_reverse]

theorem congr (hd : DList next prev null head tail l) (hn : ∀ j ∈ l, next' j = next j)
    (hp : ∀ j ∈ l, prev' j = prev j) : DList next' prev' null head tail l :=
  ⟨hd.fwd.congr hn, hd.bwd.congr fun j hj => hp j (List.mem_reverse.1 hj)⟩

section Update

variable [DecidableEq ι]

/-- The link of the last kept member, if there is one, is redirected to `v`. -/
def relink (link : ι → ι) (null last v : ι) : ι → ι :=
  if last ≠ null then Function.update link last v else link

theorem relink_of_ne {link : ι → ι} {last v j : ι} (h : j ≠ last) :
    relink link null last v j = link j := by
  unfold relink
  split
  · rw [Function.update_of_ne h]
  · rfl

theorem relink_last {link : ι → ι} {last v : ι} (h : last ≠ null) :
    relink link null last v last = v := by
  simp [relink, h]

/-- A splice whose redirected link is written by `relink`. -/
theorem chain_relink {link : ι → ι} {h v : ι} {l₃ : List ι}
    (hc : Chain link null h (l₁ ++ l₃)) (hnd : (l₁ ++ l₂).Nodup)
    (hc' : Chain link null v l₂) :
    Chain (relink link null (l₁.getLast?.getD null) v) null
      (if l₁ = [] then v else h) (l₁ ++ l₂) := by
  have hnull : null ∉ l₁ := fun hm => hc.null_notMem (List.mem_append_left _ hm)
  rcases List.eq_nil_or_concat l₁ with rfl | ⟨l₀, t, rfl⟩
  · simpa [relink] using hc'
  · have ht : t ≠ null := fun e => hnull (by simp [e])
    have hlast : (l₀.concat t).getLast?.getD null = t := by simp
    rw [hlast]
    simp only [List.concat_eq_append] at hc hnd ⊢
    refine hc.splice (hc'.congr fun j hj => relink_of_ne ?_) ?_ ?_
    · rintro rfl
      exact (List.nodup_append.1 hnd).2.2 j (by simp) j hj rfl
    · intro j hj
      refine relink_of_ne ?_
      rintro rfl
      have hnd' := (List.nodup_append.1 hnd).1
      rw [List.dropLast_concat] at hj
      exact (List.nodup_append.1 hnd').2.2 j hj j (by simp) rfl
    · intro j hj
      obtain rfl : t = j := by simpa using hj
      exact relink_last ht

/-- **Appending.** The new last member points nowhere, back to the old tail, and is pointed to
by it. -/
theorem push_back (hd : DList next prev null head tail l) (hi : i ≠ null) (hil : i ∉ l) :
    DList (Function.update (relink next null tail i) i null) (Function.update prev i tail) null
      (if tail ≠ null then head else i) i (l ++ [i]) := by
  have hnd : (l ++ [i]).Nodup := by
    rw [List.nodup_append]
    refine ⟨hd.nodup, by simp, fun a ha b hb => ?_⟩
    obtain rfl : b = i := by simpa using hb
    rintro rfl
    exact hil ha
  have htail : tail ≠ null ↔ l ≠ [] := by
    have h₁ := hd.bwd.eq_nil_iff
    rw [List.reverse_eq_nil_iff] at h₁
    exact not_congr h₁.symm
  constructor
  · have hone : Chain (Function.update next i null) null i [i] := ⟨rfl, hi, by simp [Chain]⟩
    have hold : Chain (Function.update next i null) null head (l ++ []) := by
      simp only [List.append_nil]
      exact hd.fwd.congr fun j hj => Function.update_of_ne (ne_of_mem_of_not_mem hj hil) _ _
    have hnew := chain_relink hold hnd hone
    rw [← hd.tail_eq] at hnew
    have hhead : (if tail ≠ null then head else i) = if l = [] then i else head := by
      by_cases hl : l = []
      · simp [hl, show ¬ (tail ≠ null) from fun h => htail.1 h hl]
      · simp [hl, htail.2 hl]
    rw [hhead]
    refine hnew.congr fun j hj => ?_
    by_cases hji : j = i
    · subst hji
      have hjt : j ≠ tail := by
        rintro rfl
        exact hil (List.mem_reverse.1 (hd.bwd.head_mem hi))
      rw [Function.update_self, relink_of_ne hjt, Function.update_self]
    · rw [Function.update_of_ne hji]
      unfold relink
      split
      · by_cases hjt : j = tail
        · subst hjt; simp
        · rw [Function.update_of_ne hjt, Function.update_of_ne hjt, Function.update_of_ne hji]
      · rw [Function.update_of_ne hji]
  · rw [List.reverse_append]
    refine ⟨rfl, hi, ?_⟩
    rw [Function.update_self]
    exact hd.bwd.congr fun j hj =>
      Function.update_of_ne (ne_of_mem_of_not_mem (List.mem_reverse.1 hj) hil) _ _

/-- **Unlinking.** The neighbours of a removed member are joined to each other; a missing
neighbour is replaced by the head, respectively the tail, of the list. -/
theorem remove (hd : DList next prev null head tail (l₁ ++ i :: l₂)) :
    DList (relink next null (prev i) (next i)) (relink prev null (next i) (prev i)) null
      (if prev i ≠ null then head else next i) (if next i ≠ null then tail else prev i)
      (l₁ ++ l₂) := by
  have hnd : (l₁ ++ l₂).Nodup :=
    hd.nodup.sublist (List.Sublist.append_left (List.sublist_cons_self i l₂) l₁)
  have hnull : null ∉ l₁ ++ l₂ := fun hm => hd.null_notMem (by
    simp only [List.mem_append, List.mem_cons] at hm ⊢
    tauto)
  have hbwd : Chain prev null tail (l₂.reverse ++ i :: l₁.reverse) := by simpa using hd.bwd
  have hp := hd.prev_eq
  have hn := hd.next_eq
  constructor
  · have hc := chain_relink hd.fwd hnd hd.fwd.of_append_cons
    rw [← hp] at hc
    have hhead : (if prev i ≠ null then head else next i) =
        if l₁ = [] then next i else head := by
      rcases List.eq_nil_or_concat l₁ with rfl | ⟨l₀, t, rfl⟩
      · simp [hp]
      · have ht : t ≠ null := fun e => hnull (by simp [e])
        simp [hp, ht]
    rw [hhead]
    exact hc
  · rw [List.reverse_append]
    have hnd' : (l₂.reverse ++ l₁.reverse).Nodup := by
      rw [← List.reverse_append]
      exact List.nodup_reverse.2 hnd
    have hc := chain_relink hbwd hnd' hbwd.of_append_cons
    have hlast : l₂.reverse.getLast?.getD null = next i := by
      rw [List.getLast?_reverse, hn]
    rw [hlast] at hc
    have htail : (if next i ≠ null then tail else prev i) =
        if l₂.reverse = [] then prev i else tail := by
      cases l₂ with
      | nil => simp [hn]
      | cons k l₂ =>
        have hk : k ≠ null := fun e => hnull (by simp [e])
        simp [hn, hk]
    rw [htail]
    exact hc

end Update

end DList

end Linked
