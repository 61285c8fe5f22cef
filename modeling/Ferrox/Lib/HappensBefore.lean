import Mathlib.Data.List.Basic
import Mathlib.Logic.Relation
import Mathlib.Tactic.Common

/-!
# Happens-before and data races

A run of several threads leaves a trace: which thread did what to memory, step by step. Atomic
locations are loaded and stored, and a load tells which store it sees; plain cells are read and
written. A step *happens before* another one if a chain leads from it to the other, of steps of one
thread and of release stores that an acquire load sees. Two accesses to a cell by different threads,
one of them a write, are a *race* unless one happens before the other.

`Known tr t n` says that step `n` happens before whatever thread `t` does next. It grows when `t`
makes a step, and when it acquires what another thread has released. The common way to hand cells
over is counting: a thread numbers its accesses, and tells by a store how many there are. That is
`Handover`; whoever acquires store `i` of it knows the first `i` accesses (`Handover.acquire`).
-/

namespace HappensBefore

/-- The ordering of an atomic access. -/
inductive Ordering where
  | relaxed
  | acquire
  | release
  | seqCst
deriving DecidableEq

namespace Ordering

/-- A load with this ordering acquires what the store it sees has released. -/
def acquires : Ordering → Bool
  | .acquire | .seqCst => true
  | .relaxed | .release => false

/-- A store with this ordering releases what its thread knows. -/
def releases : Ordering → Bool
  | .release | .seqCst => true
  | .relaxed | .acquire => false

end Ordering

/-- What a step does to memory. The store number `0` of a location is its initial value. -/
inductive Action (α β : Type*) where
  | none
  | load (a : α) (i : Nat) (order : Ordering)
  | store (a : α) (order : Ordering)
  | read (x : β)
  | write (x : β)
deriving DecidableEq

/-- A step of a thread. -/
structure Step (θ α β : Type*) where
  thread : θ
  action : Action α β
deriving DecidableEq

namespace Step

variable {θ α β : Type*}

def isRead (e : Step θ α β) : Bool :=
  match e.action with
  | .read _ => true
  | _ => false

def isWrite (e : Step θ α β) : Bool :=
  match e.action with
  | .write _ => true
  | _ => false

/-- The cell that is read or written. -/
def cell? (e : Step θ α β) : Option β :=
  match e.action with
  | .read x => some x
  | .write x => some x
  | _ => none

theorem not_access {e : Step θ α β} (h : e.cell? = none) :
    e.isWrite = false ∧ e.isRead = false := by
  unfold cell? at h
  unfold isWrite isRead
  split at h <;> simp_all

theorem access_of_cell? {e : Step θ α β} {x : β} (h : e.cell? = some x) :
    e.isWrite ∨ e.isRead := by
  unfold cell? at h
  unfold isWrite isRead
  split at h <;> simp_all

def storesTo [DecidableEq α] (a : α) (e : Step θ α β) : Bool :=
  match e.action with
  | .store b _ => decide (b = a)
  | _ => false

end Step

theorem lt_length {γ : Type*} {tr : List γ} {n : Nat} {e : γ} (h : tr[n]? = some e) :
    n < tr.length :=
  (List.getElem?_eq_some_iff.1 h).1

theorem getElem?_append {γ : Type*} {tr l : List γ} {n : Nat} {e : γ} (h : tr[n]? = some e) :
    (tr ++ l)[n]? = some e := by
  rw [List.getElem?_append_left (lt_length h), h]

theorem getElem?_concat_cases {γ : Type*} {tr : List γ} {n : Nat} {e e' : γ}
    (h : (tr ++ [e])[n]? = some e') : tr[n]? = some e' ∨ n = tr.length ∧ e = e' := by
  by_cases hn : n < tr.length
  · rw [List.getElem?_append_left hn] at h
    exact Or.inl h
  · have := lt_length h
    rw [List.length_append, List.length_singleton] at this
    obtain rfl : n = tr.length := by omega
    rw [List.getElem?_concat_length] at h
    exact Or.inr ⟨rfl, Option.some.inj h⟩

theorem take_append {γ : Type*} {tr l : List γ} {n : Nat} {e : γ} (h : tr[n]? = some e) :
    (tr ++ l).take n = tr.take n :=
  List.take_append_of_le_length (Nat.le_of_lt (lt_length h))

variable {θ α β : Type*}

/-- Accesses to one cell by different threads, at least one of them a write. -/
def Conflict (tr : List (Step θ α β)) (n m : Nat) : Prop :=
  ∃ e e' x, tr[n]? = some e ∧ tr[m]? = some e' ∧ e.thread ≠ e'.thread ∧
    e.cell? = some x ∧ e'.cell? = some x ∧ (e.isWrite ∨ e'.isWrite)

theorem Conflict.symm {tr : List (Step θ α β)} {n m : Nat} (h : Conflict tr n m) :
    Conflict tr m n := by
  obtain ⟨e, e', x, he, he', hthread, hx, hx', hw⟩ := h
  exact ⟨e', e, x, he', he, hthread.symm, hx', hx, hw.symm⟩

variable [DecidableEq α]

/-- How often a location was stored to. -/
def stores (a : α) (tr : List (Step θ α β)) : Nat := tr.countP (Step.storesTo a)

/-- Step `m` is an acquire load that sees the release store that is step `n`. -/
def Synchronizes (tr : List (Step θ α β)) (n m : Nat) : Prop :=
  ∃ t u a order order', tr[n]? = some ⟨t, .store a order⟩ ∧ order.releases ∧
    tr[m]? = some ⟨u, .load a (stores a (tr.take n) + 1) order'⟩ ∧ order'.acquires

/-- Both are steps of one thread. -/
def SameThread (tr : List (Step θ α β)) (n m : Nat) : Prop :=
  ∃ e e', tr[n]? = some e ∧ tr[m]? = some e' ∧ e.thread = e'.thread

/-- Step `n` comes right before step `m`, as far as anybody can tell. -/
def Direct (tr : List (Step θ α β)) (n m : Nat) : Prop :=
  n < m ∧ (SameThread tr n m ∨ Synchronizes tr n m)

/-- **Step `n` happens before step `m`.** -/
def Before (tr : List (Step θ α β)) : Nat → Nat → Prop := Relation.TransGen (Direct tr)

/-- **No data race**: of two conflicting accesses, one happens before the other. -/
def RaceFree (tr : List (Step θ α β)) : Prop :=
  ∀ n m, Conflict tr n m → Before tr n m ∨ Before tr m n

/-- Step `n` happens before the next step of thread `t`. -/
def Known (tr : List (Step θ α β)) (t : θ) (n : Nat) : Prop :=
  ∃ m e, tr[m]? = some e ∧ e.thread = t ∧ (n = m ∨ Before tr n m)

variable {tr l : List (Step θ α β)} {t u : θ} {a : α} {n m i k : Nat} {e e' : Step θ α β}

/-! ## Traces that grow -/

omit [DecidableEq α] in
theorem SameThread.append (h : SameThread tr n m) : SameThread (tr ++ l) n m := by
  obtain ⟨e, e', he, he', hthread⟩ := h
  exact ⟨e, e', getElem?_append he, getElem?_append he', hthread⟩

theorem Synchronizes.append (h : Synchronizes tr n m) : Synchronizes (tr ++ l) n m := by
  obtain ⟨t, u, a, order, order', hstore, hrel, hload, hacq⟩ := h
  refine ⟨t, u, a, order, order', getElem?_append hstore, hrel, ?_, hacq⟩
  rw [take_append hstore]
  exact getElem?_append hload

theorem Direct.append (h : Direct tr n m) : Direct (tr ++ l) n m :=
  ⟨h.1, h.2.imp SameThread.append Synchronizes.append⟩

theorem Before.append (h : Before tr n m) : Before (tr ++ l) n m :=
  Relation.TransGen.mono (fun _ _ h => Direct.append h) _ _ h

theorem Known.append (h : Known tr t n) : Known (tr ++ l) t n := by
  obtain ⟨m, e, he, hthread, hn⟩ := h
  exact ⟨m, e, getElem?_append he, hthread, hn.imp_right Before.append⟩

theorem Known.before (h : Known tr t n) {action : Action α β} :
    Before (tr ++ [⟨t, action⟩]) n tr.length := by
  obtain ⟨m, e, he, hthread, hn⟩ := h
  have hlast : Direct (tr ++ [⟨t, action⟩]) m tr.length :=
    ⟨lt_length he,
      Or.inl ⟨e, ⟨t, action⟩, getElem?_append he, List.getElem?_concat_length, hthread⟩⟩
  rcases hn with rfl | hn
  · exact Relation.TransGen.single hlast
  · exact Relation.TransGen.tail hn.append hlast

/-- An acquire load gets to know what the store it sees has released. -/
theorem Known.acquire {order order' : Ordering} (hstore : tr[m]? = some ⟨u, .store a order⟩)
    (hrel : order.releases) (hacq : order'.acquires) (hn : n = m ∨ Before tr n m) :
    Known (tr ++ [⟨t, .load a (stores a (tr.take m) + 1) order'⟩]) t n := by
  refine ⟨tr.length, _, List.getElem?_concat_length, rfl, Or.inr ?_⟩
  have hsync : Direct (tr ++ [⟨t, .load a (stores a (tr.take m) + 1) order'⟩]) m tr.length := by
    refine ⟨lt_length hstore,
      Or.inr ⟨u, t, a, order, order', getElem?_append hstore, hrel, ?_, hacq⟩⟩
    rw [take_append hstore]
    exact List.getElem?_concat_length
  rcases hn with rfl | hn
  · exact Relation.TransGen.single hsync
  · exact Relation.TransGen.tail hn.append hsync

/-! ## Races -/

theorem raceFree_nil : RaceFree ([] : List (Step θ α β)) := by
  intro n m h
  obtain ⟨e, -, -, he, -⟩ := h
  simp at he

/-- A step adds no race if what it conflicts with happens before it. -/
theorem RaceFree.concat (h : RaceFree tr)
    (hlast : ∀ n, Conflict (tr ++ [e]) n tr.length → Before (tr ++ [e]) n tr.length) :
    RaceFree (tr ++ [e]) := by
  intro n m hc
  obtain ⟨e₁, e₂, x, he₁, he₂, hrest⟩ := id hc
  rcases getElem?_concat_cases he₂ with hm | ⟨rfl, -⟩
  · rcases getElem?_concat_cases he₁ with hn | ⟨rfl, -⟩
    · exact (h n m ⟨e₁, e₂, x, hn, hm, hrest⟩).imp Before.append Before.append
    · exact Or.inr (hlast m hc.symm)
  · exact Or.inl (hlast n hc)

theorem RaceFree.concat_of_cell? (h : RaceFree tr) (he : e.cell? = none) :
    RaceFree (tr ++ [e]) := by
  refine h.concat fun n hc => ?_
  obtain ⟨-, e', x, -, he', -, -, hx, -⟩ := hc
  rw [List.getElem?_concat_length] at he'
  obtain rfl := Option.some.inj he'
  rw [he] at hx
  cases hx

/-- Where nothing synchronizes, a thread's steps happen before its own steps only. -/
theorem Before.sameThread (h : Before tr n m) (hsync : ∀ n m, ¬ Synchronizes tr n m) :
    SameThread tr n m := by
  induction h with
  | single h => exact h.2.resolve_right (hsync _ _)
  | tail _ h ih =>
    obtain ⟨e₁, e₂, he₁, he₂, h₁₂⟩ := ih
    obtain ⟨e₂', e₃, he₂', he₃, h₂₃⟩ := h.2.resolve_right (hsync _ _)
    rw [he₂] at he₂'
    obtain rfl := Option.some.inj he₂'
    exact ⟨e₁, e₃, he₁, he₃, h₁₂.trans h₂₃⟩

/-- Where nothing synchronizes, every conflict is a race. -/
theorem Conflict.not_raceFree (h : Conflict tr n m) (hsync : ∀ n m, ¬ Synchronizes tr n m) :
    ¬ RaceFree tr := by
  intro hfree
  obtain ⟨e, e', x, he, he', hthread, -⟩ := id h
  rcases hfree n m h with hbefore | hbefore
  · obtain ⟨e₁, e₂, he₁, he₂, hsame⟩ := hbefore.sameThread hsync
    rw [he] at he₁
    rw [he'] at he₂
    rw [Option.some.inj he₁, Option.some.inj he₂] at hthread
    exact hthread hsame
  · obtain ⟨e₁, e₂, he₁, he₂, hsame⟩ := hbefore.sameThread hsync
    rw [he'] at he₁
    rw [he] at he₂
    rw [Option.some.inj he₁, Option.some.inj he₂] at hthread
    exact hthread hsame.symm

/-! ## Handing cells over by counting -/

/-- Which of the accesses `P` step `n` is, if it is one: how many there were before it. -/
def numberOf (P : Step θ α β → Bool) (tr : List (Step θ α β)) (n : Nat) : Nat :=
  (tr.take n).countP P

omit [DecidableEq α] in
theorem numberOf_append (P : Step θ α β → Bool) (h : tr[n]? = some e) :
    numberOf P (tr ++ l) n = numberOf P tr n := by
  rw [numberOf, take_append h, numberOf]

omit [DecidableEq α] in
theorem numberOf_length (P : Step θ α β → Bool) :
    numberOf P (tr ++ [e]) tr.length = tr.countP P := by
  rw [numberOf, List.take_left]

omit [DecidableEq α] in
theorem numberOf_mono (P : Step θ α β → Bool) (tr : List (Step θ α β)) (h : n ≤ m) :
    numberOf P tr n ≤ numberOf P tr m :=
  (List.take_prefix_take_left h).sublist.countP_le

omit [DecidableEq α] in
theorem numberOf_lt {P : Step θ α β → Bool} (h : tr[n]? = some e) (hP : P e) :
    numberOf P tr n < tr.countP P := by
  have hsplit : tr.take (n + 1) = tr.take n ++ [e] := by
    rw [List.take_add_one, h]
    rfl
  have hle := (List.take_sublist (n + 1) tr).countP_le (p := P)
  rw [hsplit, List.countP_append, List.countP_singleton, if_pos hP] at hle
  exact hle

theorem exists_of_lt_countP {γ : Type*} {p : γ → Bool} {l : List γ} {j : Nat}
    (h : j < l.countP p) : ∃ n e, l[n]? = some e ∧ p e ∧ (l.take n).countP p = j := by
  induction l generalizing j with
  | nil => simp at h
  | cons x l ih =>
    by_cases hx : p x
    · cases j with
      | zero => exact ⟨0, x, rfl, hx, rfl⟩
      | succ j =>
        rw [List.countP_cons_of_pos hx] at h
        obtain ⟨n, e, he, hp, hn⟩ := ih (Nat.lt_of_succ_lt_succ h)
        refine ⟨n + 1, e, he, hp, ?_⟩
        rw [List.take_succ_cons, List.countP_cons_of_pos hx, hn]
    · rw [List.countP_cons_of_neg hx] at h
      obtain ⟨n, e, he, hp, hn⟩ := ih h
      refine ⟨n + 1, e, he, hp, ?_⟩
      rw [List.take_succ_cons, List.countP_cons_of_neg hx, hn]

/-- **A thread tells others how far it is.** Only thread `t` makes the accesses `P`; there are `k`
so far, and number `j` is to the cell `cell j`. Each of the `i` stores to `a` is a release, and
store number `j` comes after `j` accesses. -/
structure Handover (t : θ) (P : Step θ α β → Bool) (a : α) (cell : Nat → β)
    (tr : List (Step θ α β)) (k i : Nat) : Prop where
  count : tr.countP P = k
  stored : stores a tr = i
  own : ∀ n e, tr[n]? = some e → P e →
    e.thread = t ∧ e.cell? = some (cell (numberOf P tr n))
  announced : ∀ n e, tr[n]? = some e → e.storesTo a → ∃ order : Ordering,
    e = ⟨t, .store a order⟩ ∧ order.releases ∧ numberOf P tr n = stores a (tr.take n) + 1

/-- Thread `t` knows the first `i` of the accesses `P`. -/
def Acquired (tr : List (Step θ α β)) (t : θ) (P : Step θ α β → Bool) (i : Nat) : Prop :=
  ∀ n e, tr[n]? = some e → P e → numberOf P tr n < i → Known tr t n

section Handover

variable {P : Step θ α β → Bool} {cell : Nat → β} {j : Nat}

theorem Handover.nil : Handover t P a cell ([] : List (Step θ α β)) 0 0 := by
  refine ⟨rfl, rfl, ?_, ?_⟩ <;> intro n e he <;> simp at he

theorem Handover.concat (h : Handover t P a cell tr k i)
    (hP : P e → e.thread = t ∧ e.cell? = some (cell k))
    (ha : e.storesTo a → ∃ order : Ordering,
      e = ⟨t, .store a order⟩ ∧ order.releases ∧ k = i + 1) :
    Handover t P a cell (tr ++ [e]) (k + [e].countP P) (i + [e].countP (Step.storesTo a)) := by
  refine ⟨?_, ?_, ?_, ?_⟩
  · rw [List.countP_append, h.count]
  · rw [stores, List.countP_append, ← h.stored, stores]
  · intro n e' he' hPe'
    rcases getElem?_concat_cases he' with hold | ⟨rfl, rfl⟩
    · rw [numberOf_append P hold]
      exact h.own n e' hold hPe'
    · rw [numberOf_length, h.count]
      exact hP hPe'
  · intro n e' he' hae'
    rcases getElem?_concat_cases he' with hold | ⟨rfl, rfl⟩
    · rw [numberOf_append P hold, take_append hold]
      exact h.announced n e' hold hae'
    · rw [numberOf_length, h.count, List.take_left, h.stored]
      exact ha hae'

theorem Handover.other (h : Handover t P a cell tr k i) (hP : P e = false)
    (ha : e.storesTo a = false) : Handover t P a cell (tr ++ [e]) k i := by
  have := h.concat (e := e) (by simp [hP]) (by simp [ha])
  simpa [hP, ha] using this

theorem Handover.access (h : Handover t P a cell tr k i) (hP : P e) (hthread : e.thread = t)
    (hcell : e.cell? = some (cell k)) (ha : e.storesTo a = false) :
    Handover t P a cell (tr ++ [e]) (k + 1) i := by
  have := h.concat (e := e) (fun _ => ⟨hthread, hcell⟩) (by simp [ha])
  simpa [hP, ha] using this

theorem Handover.store (h : Handover t P a cell tr (i + 1) i) {order : Ordering}
    (hrel : order.releases) (hP : P ⟨t, .store a order⟩ = false) :
    Handover t P a cell (tr ++ [⟨t, .store a order⟩]) (i + 1) (i + 1) := by
  have := h.concat (e := ⟨t, .store a order⟩) (by simp [hP])
    (fun _ => ⟨order, rfl, hrel, rfl⟩)
  simpa [hP, Step.storesTo] using this

/-- **Acquiring store number `j`** is to know the first `j` accesses. -/
theorem Handover.acquire (h : Handover t P a cell tr k i) (hj : j ≤ i) {order : Ordering}
    (hacq : order.acquires) (hP : P ⟨u, .load a j order⟩ = false) :
    Acquired (tr ++ [⟨u, .load a j order⟩]) u P j := by
  intro n e he hPe hlt
  have hn : tr[n]? = some e := by
    rcases getElem?_concat_cases he with hn | ⟨-, rfl⟩
    · exact hn
    · rw [hP] at hPe
      cases hPe
  rw [numberOf_append P hn] at hlt
  -- the store that was seen
  obtain ⟨j, rfl⟩ : ∃ j', j = j' + 1 := ⟨j - 1, by omega⟩
  have hlt' : j < tr.countP (Step.storesTo a) := by
    have := h.stored
    rw [stores] at this
    omega
  obtain ⟨m, e', hm, hstore, hnumber⟩ := exists_of_lt_countP hlt'
  obtain ⟨order', rfl, hrel, hcount⟩ := h.announced m e' hm hstore
  have hstores : stores a (tr.take m) = j := hnumber
  rw [← hstores]
  refine Known.acquire hm hrel hacq (Or.inr (Relation.TransGen.single ⟨?_, Or.inl ?_⟩))
  · -- it comes after the access, since it comes after more of them
    by_contra hle
    have hmono := numberOf_mono P tr (Nat.le_of_not_lt hle)
    omega
  · exact ⟨e, _, hn, hm, (h.own n e hn hPe).1⟩

theorem Acquired.concat (h : Acquired tr t P i) (hi : i ≤ tr.countP P) :
    Acquired (tr ++ [e]) t P i := by
  intro n e' he' hPe' hlt
  rcases getElem?_concat_cases he' with hn | ⟨rfl, rfl⟩
  · rw [numberOf_append P hn] at hlt
    exact (h n e' hn hPe' hlt).append
  · rw [numberOf_length] at hlt
    omega

/-- **An access adds no race** if its thread knows all accesses to its cell by other threads. -/
theorem RaceFree.concat_of_acquired (h : RaceFree tr) {action : Action α β}
    (hacq : Acquired tr t P i)
    (hothers : ∀ n e x, tr[n]? = some e → e.thread ≠ t → e.cell? = some x →
      Step.cell? ⟨t, action⟩ = some x → P e ∧ numberOf P tr n < i) :
    RaceFree (tr ++ [⟨t, action⟩]) := by
  refine h.concat fun n hc => ?_
  obtain ⟨e, e', x, he, he', hthread, hx, hx', -⟩ := hc
  rw [List.getElem?_concat_length] at he'
  obtain rfl := Option.some.inj he'
  rcases getElem?_concat_cases he with hn | ⟨rfl, rfl⟩
  · obtain ⟨hP, hlt⟩ := hothers n e x hn hthread hx hx'
    exact (hacq n e hn hP hlt).before
  · exact absurd rfl hthread

end Handover

end HappensBefore
