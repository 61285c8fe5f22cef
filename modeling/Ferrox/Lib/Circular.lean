import Mathlib.Data.List.Basic
import Mathlib.Data.List.Nodup
import Mathlib.Data.Nat.ModEq

/-!
# Circular buffers

A position counts the elements that ever went through the buffer, so it grows without bound. It
appears in two reduced forms: as a *cursor*, the word it wraps to, and as an *index*, its remainder
modulo the length of the buffer.

`Window buf lo vs` says that the positions from `lo` on hold the elements of `vs`, and that nothing
else in `buf` is occupied. It does not depend on how the ends are represented; `push` and `pop` move
them.
-/

namespace Circular

/-! ## Cursors -/

theorem ofNat_succ (n : Nat) : UInt64.ofNat n + 1 = UInt64.ofNat (n + 1) :=
  (UInt64.ofNat_add n 1).symm

theorem toNat_sub_ofNat {a b : Nat} (h : b ≤ a) (hlt : a - b < 2 ^ 64) :
    (UInt64.ofNat a - UInt64.ofNat b).toNat = a - b := by
  rw [UInt64.toNat_sub, UInt64.toNat_ofNat', UInt64.toNat_ofNat']
  omega

theorem sub_eq_iff {a b : Nat} (h : b ≤ a) (hlt : a - b < 2 ^ 64) (c : UInt64) :
    UInt64.ofNat a - UInt64.ofNat b = c ↔ a - b = c.toNat := by
  rw [← UInt64.toNat_inj, toNat_sub_ofNat h hlt]

theorem ofNat_eq_iff {a b : Nat} (h : b ≤ a) (hlt : a - b < 2 ^ 64) :
    UInt64.ofNat b = UInt64.ofNat a ↔ b = a := by
  rw [← UInt64.toNat_inj, UInt64.toNat_ofNat', UInt64.toNat_ofNat']
  omega

/-- Masking a cursor gives the index of its position, on both sides of a wrap. -/
theorem toNat_and_mask {c : UInt64} {k : Nat} (hc : c.toNat = 2 ^ k) (n : Nat) :
    (UInt64.ofNat n &&& (c - 1)).toNat = n % c.toNat := by
  have hpos := Nat.two_pow_pos k
  have hmask : (c - 1).toNat = 2 ^ k - 1 := by
    have hlt := c.toNat_lt
    have hone : (1 : UInt64).toNat = 1 := rfl
    rw [UInt64.toNat_sub, hone]
    omega
  have hk : k ≤ 64 := by
    have hlt := c.toNat_lt
    rw [hc] at hlt
    exact Nat.le_of_lt ((Nat.pow_lt_pow_iff_right (by decide)).1 hlt)
  rw [UInt64.toNat_and, hmask, Nat.and_two_pow_sub_one_eq_mod, UInt64.toNat_ofNat', hc]
  exact Nat.mod_mod_of_dvd n (Nat.pow_dvd_pow 2 hk)

theorem toNat_sub_succ_lt {i stop : UInt64} (h : i ≠ stop) :
    (stop - (i + 1)).toNat < (stop - i).toNat := by
  have hne : i.toNat ≠ stop.toNat := fun heq => h (UInt64.toNat_inj.1 heq)
  have hone : (1 : UInt64).toNat = 1 := rfl
  have hi := i.toNat_lt
  have hstop := stop.toNat_lt
  rw [UInt64.toNat_sub, UInt64.toNat_sub, UInt64.toNat_add, hone]
  omega

/-! ## Indices -/

/-- **Positions less than a turn apart have different indices.** -/
theorem mod_ne {n a b : Nat} (h : a < b) (hlt : b < a + n) : a % n ≠ b % n := by
  intro heq
  have hmod : a ≡ b [MOD n] := heq
  have hle := Nat.le_of_dvd (by omega) ((Nat.modEq_iff_dvd' (Nat.le_of_lt h)).1 hmod)
  omega

theorem exists_mod_eq (lo : Nat) {n i : Nat} (h : i < n) : ∃ j < n, (lo + j) % n = i := by
  have hlo := Nat.mod_lt lo (show 0 < n by omega)
  rcases Nat.lt_or_ge i (lo % n) with hi | hi
  · refine ⟨i + n - lo % n, by omega, ?_⟩
    rw [Nat.add_mod, Nat.mod_eq_of_lt (show i + n - lo % n < n by omega),
      show lo % n + (i + n - lo % n) = i + n by omega, Nat.add_mod_right, Nat.mod_eq_of_lt h]
  · refine ⟨i - lo % n, by omega, ?_⟩
    rw [Nat.add_mod, Nat.mod_eq_of_lt (show i - lo % n < n by omega),
      show lo % n + (i - lo % n) = i by omega, Nat.mod_eq_of_lt h]

/-! ## Windows -/

variable {α : Type*}

/-- The positions from `lo` on hold `vs`, and the rest of the buffer is free. -/
structure Window (buf : List (Option α)) (lo : Nat) (vs : List α) : Prop where
  fits : vs.length ≤ buf.length
  occupied : ∀ i v, vs[i]? = some v → buf[(lo + i) % buf.length]? = some (some v)
  free : ∀ i, vs.length ≤ i → i < buf.length → buf[(lo + i) % buf.length]? = some none

namespace Window

variable {buf : List (Option α)} {lo : Nat} {v : α} {vs : List α}

theorem nil (n lo : Nat) : Window (List.replicate n (none : Option α)) lo [] := by
  refine ⟨Nat.zero_le _, fun i v h => ?_, fun i _ h => ?_⟩
  · rw [List.getElem?_nil] at h
    cases h
  · rw [List.length_replicate] at h ⊢
    exact List.getElem?_replicate_of_lt (Nat.mod_lt _ (by omega))

/-- The first position after the window is free, if the window does not fill the buffer. -/
theorem next (h : Window buf lo vs) (hlt : vs.length < buf.length) :
    buf[(lo + vs.length) % buf.length]? = some none :=
  h.free _ (Nat.le_refl _) hlt

theorem front (h : Window buf lo (v :: vs)) : buf[lo % buf.length]? = some (some v) :=
  h.occupied 0 v rfl

theorem push (h : Window buf lo vs) (hlt : vs.length < buf.length) (v : α) :
    Window (buf.set ((lo + vs.length) % buf.length) (some v)) lo (vs ++ [v]) := by
  have hidx := Nat.mod_lt (lo + vs.length) (show 0 < buf.length by omega)
  refine ⟨?_, fun i u hu => ?_, fun i hle hi => ?_⟩
  · rw [List.length_append, List.length_set]
    exact hlt
  · rw [List.length_set]
    rcases Nat.lt_trichotomy i vs.length with hi | rfl | hi
    · rw [List.getElem?_set_ne (mod_ne (by omega) (by omega)).symm]
      rw [List.getElem?_append_left hi] at hu
      exact h.occupied i u hu
    · rw [List.getElem?_concat_length] at hu
      obtain rfl := Option.some.inj hu
      exact List.getElem?_set_self hidx
    · rw [List.getElem?_eq_none (by rw [List.length_append]; exact hi)] at hu
      cases hu
  · rw [List.length_append, List.length_singleton] at hle
    rw [List.length_set] at hi ⊢
    rw [List.getElem?_set_ne (mod_ne (by omega) (by omega))]
    exact h.free i (by omega) hi

theorem pop (h : Window buf lo (v :: vs)) :
    Window (buf.set (lo % buf.length) none) (lo + 1) vs := by
  have hfits := h.fits
  rw [List.length_cons] at hfits
  have hidx := Nat.mod_lt lo (show 0 < buf.length by omega)
  refine ⟨?_, fun i u hu => ?_, fun i hle hi => ?_⟩
  · rw [List.length_set]
    omega
  · have hi : i < vs.length := (List.getElem?_eq_some_iff.1 hu).1
    rw [List.length_set, show lo + 1 + i = lo + (i + 1) by omega,
      List.getElem?_set_ne (mod_ne (by omega) (by omega))]
    exact h.occupied (i + 1) u hu
  · rw [List.length_set] at hi ⊢
    rcases Nat.lt_or_ge (i + 1) buf.length with hlt | hge
    · rw [show lo + 1 + i = lo + (i + 1) by omega,
        List.getElem?_set_ne (mod_ne (by omega) (by omega))]
      exact h.free (i + 1) (by rw [List.length_cons]; omega) hlt
    · -- the position that was just given up, a whole turn later
      rw [show lo + 1 + i = lo + buf.length by omega, Nat.add_mod_right]
      exact List.getElem?_set_self hidx

end Window

/-! ## Entries -/

/-- The elements of `vs`, each with the index of its position. -/
def entries (n lo : Nat) (vs : List α) : List (Nat × α) :=
  (vs.zipIdx lo).map fun p => (p.2 % n, p.1)

theorem entries_cons (n lo : Nat) (v : α) (vs : List α) :
    entries n lo (v :: vs) = (lo % n, v) :: entries n (lo + 1) vs := by
  rw [entries, List.zipIdx_cons, List.map_cons, entries]

theorem map_snd_entries (n lo : Nat) (vs : List α) : (entries n lo vs).map (·.2) = vs := by
  induction vs generalizing lo with
  | nil => rfl
  | cons v vs ih => rw [entries_cons, List.map_cons, ih]

theorem map_fst_entries (n lo : Nat) (vs : List α) :
    (entries n lo vs).map (·.1) = (List.range' lo vs.length).map (· % n) := by
  induction vs generalizing lo with
  | nil => rfl
  | cons v vs ih =>
    rw [entries_cons, List.map_cons, ih, List.length_cons, List.range'_succ, List.map_cons]

theorem nodup_entries {n lo : Nat} {vs : List α} (h : vs.length ≤ n) :
    ((entries n lo vs).map (·.1)).Nodup := by
  rw [map_fst_entries]
  refine List.Nodup.map_on (fun a ha b hb heq => ?_) (List.nodup_range' (h := Nat.one_pos))
  rw [List.mem_range'_1] at ha hb
  rcases Nat.lt_trichotomy a b with hlt | hab | hlt
  · exact absurd heq (mod_ne hlt (by omega))
  · exact hab
  · exact absurd heq.symm (mod_ne hlt (by omega))

theorem mem_entries {n lo i : Nat} {v : α} {vs : List α} :
    (i, v) ∈ entries n lo vs ↔ ∃ j, vs[j]? = some v ∧ (lo + j) % n = i := by
  induction vs generalizing lo with
  | nil => simp [entries]
  | cons u vs ih =>
    rw [entries_cons, List.mem_cons, ih, Prod.mk.injEq]
    constructor
    · rintro (⟨rfl, rfl⟩ | ⟨j, hj, rfl⟩)
      · exact ⟨0, rfl, rfl⟩
      · exact ⟨j + 1, hj, by rw [show lo + (j + 1) = lo + 1 + j by omega]⟩
    · rintro ⟨j, hj, rfl⟩
      cases j with
      | zero => exact Or.inl ⟨rfl, (Option.some.inj hj).symm⟩
      | succ j => exact Or.inr ⟨j, hj, by rw [show lo + (j + 1) = lo + 1 + j by omega]⟩

/-- **The entries of a window are what the buffer holds.** -/
theorem Window.mem_entries_iff {buf : List (Option α)} {lo : Nat} {vs : List α}
    (h : Window buf lo vs) (i : Nat) (v : α) :
    (i, v) ∈ entries buf.length lo vs ↔ buf[i]? = some (some v) := by
  rw [mem_entries]
  constructor
  · rintro ⟨j, hj, rfl⟩
    exact h.occupied j v hj
  · intro hv
    obtain ⟨j, hj, rfl⟩ := exists_mod_eq lo (List.getElem?_eq_some_iff.1 hv).1
    rcases Nat.lt_or_ge j vs.length with hlt | hge
    · have hocc := h.occupied j _ (List.getElem?_eq_getElem hlt)
      rw [hv] at hocc
      refine ⟨j, ?_, rfl⟩
      rw [List.getElem?_eq_getElem hlt, Option.some.inj (Option.some.inj hocc)]
    · rw [h.free j hge hj] at hv
      cases hv

end Circular
