import Ferrox.Lib.Bytes

/-!
# Binary formats

A format writes values as bytes and reads them back from the front of a byte string. `Inverts a`
says that this works for the value `a`, whatever bytes follow. Formats are put together from numbers
by pairing, optional values, sequences and changes of representation, and `Inverts` follows the same
steps. So does `Canonical`: no other bytes are read as a value than those that are written for it.
-/

namespace Bytes

structure Format (α : Type) where
  write : α → List UInt8
  read : List UInt8 → Option (α × List UInt8)

namespace Format

variable {α β : Type}

/-- Reading gives back what was written, and the bytes after it. -/
def Inverts (F : Format α) (a : α) : Prop :=
  ∀ rest, F.read (F.write a ++ rest) = some (a, rest)

/-- A number, in `n` little-endian bytes. -/
def nat (n : Nat) : Format Nat where
  write x := leBytes n x
  read bs := if bs.length < n then none else some (ofLE (bs.take n), bs.drop n)

theorem inverts_nat {n x : Nat} (h : x < 256 ^ n) : (nat n).Inverts x := by
  intro rest
  have hlen := length_leBytes n x
  have htake : (leBytes n x ++ rest).take n = leBytes n x := List.take_left' hlen
  have hdrop : (leBytes n x ++ rest).drop n = rest := List.drop_left' hlen
  show (if (leBytes n x ++ rest).length < n then none else
    some (ofLE ((leBytes n x ++ rest).take n), (leBytes n x ++ rest).drop n)) = _
  rw [if_neg (by rw [List.length_append, hlen]; omega), htake, hdrop, ofLE_leBytes h]

/-- Values that are written as values of another type. Reading may refuse some of those. -/
def via (F : Format α) (f : β → α) (g : α → Option β) : Format β where
  write b := F.write (f b)
  read bs :=
    match F.read bs with
    | none => none
    | some (a, rest) => (g a).map fun b => (b, rest)

theorem Inverts.via {F : Format α} {f : β → α} {g : α → Option β} {b : β} (h : F.Inverts (f b))
    (hg : g (f b) = some b) : (F.via f g).Inverts b := by
  intro rest
  simp only [Format.via, h rest, hg, Option.map_some]

/-- One value after another. -/
def pair (F : Format α) (G : Format β) : Format (α × β) where
  write x := F.write x.1 ++ G.write x.2
  read bs :=
    match F.read bs with
    | none => none
    | some (a, rest) =>
        match G.read rest with
        | none => none
        | some (b, rest) => some ((a, b), rest)

theorem Inverts.pair {F : Format α} {G : Format β} {a : α} {b : β} (h : F.Inverts a)
    (h' : G.Inverts b) : (F.pair G).Inverts (a, b) := by
  intro rest
  simp only [Format.pair, List.append_assoc]
  rw [h]
  simp only [h' rest]

/-- A byte that says whether there is a value, and the value. -/
def option (F : Format α) : Format (Option α) where
  write
    | none => [0]
    | some a => 1 :: F.write a
  read
    | 0 :: bs => some (none, bs)
    | 1 :: bs => (F.read bs).map fun x => (some x.1, x.2)
    | _ => none

theorem inverts_none (F : Format α) : F.option.Inverts none := fun _ => rfl

theorem Inverts.some {F : Format α} {a : α} (h : F.Inverts a) : F.option.Inverts (some a) := by
  intro rest
  show (F.read (F.write a ++ rest)).map _ = _
  rw [h rest]
  rfl

theorem inverts_option {F : Format α} (h : ∀ a, F.Inverts a) (x : Option α) :
    F.option.Inverts x := by
  cases x with
  | none => exact inverts_none F
  | some a => exact (h a).some

/-- `n` values. -/
def readMany (F : Format α) : Nat → List UInt8 → Option (List α × List UInt8)
  | 0, bs => some ([], bs)
  | n + 1, bs =>
      match F.read bs with
      | none => none
      | some (a, rest) => (readMany F n rest).map fun x => (a :: x.1, x.2)

theorem readMany_flatMap {F : Format α} {l : List α} (h : ∀ a ∈ l, F.Inverts a)
    (rest : List UInt8) : F.readMany l.length (l.flatMap F.write ++ rest) = some (l, rest) := by
  induction l with
  | nil => rfl
  | cons a l ih =>
    rw [List.flatMap_cons, List.append_assoc, List.length_cons, readMany,
      h a List.mem_cons_self]
    simp only [ih fun x hx => h x (List.mem_cons_of_mem _ hx), Option.map_some]

/-- A length, in eight bytes, and as many values. -/
def list (F : Format α) : Format (List α) where
  write l := (nat 8).write l.length ++ l.flatMap F.write
  read bs :=
    match (nat 8).read bs with
    | none => none
    | some (n, rest) => F.readMany n rest

theorem inverts_list {F : Format α} {l : List α} (h : ∀ a ∈ l, F.Inverts a)
    (hlen : l.length < 2 ^ 64) : F.list.Inverts l := by
  intro rest
  have hnat : (nat 8).Inverts l.length := inverts_nat (Nat.lt_of_lt_of_le hlen (by decide))
  simp only [Format.list, List.append_assoc]
  rw [hnat]
  exact readMany_flatMap h rest

theorem Inverts.injective {F : Format α} {a b : α} (h : F.Inverts a) (h' : F.Inverts b)
    (heq : F.write a = F.write b) : a = b := by
  have hread := h []
  rw [heq, h' []] at hread
  exact (Prod.mk.inj (Option.some.inj hread)).1.symm

/-! ## Canonical formats -/

/-- What is read as a value is what is written for it. -/
def Canonical (F : Format α) : Prop :=
  ∀ bs a rest, F.read bs = some (a, rest) → bs = F.write a ++ rest

theorem canonical_nat (n : Nat) : (nat n).Canonical := by
  intro bs x rest h
  unfold nat at h ⊢
  simp only at h ⊢
  split at h
  · cases h
  · next hlen =>
    obtain ⟨rfl, rfl⟩ := Prod.mk.inj (Option.some.inj h)
    have htake : (bs.take n).length = n := List.length_take_of_le (Nat.le_of_not_lt hlen)
    have hbytes := leBytes_ofLE (bs.take n)
    rw [htake] at hbytes
    rw [hbytes, List.take_append_drop]

theorem Canonical.via {F : Format α} (hF : F.Canonical) {f : β → α} {g : α → Option β}
    (hg : ∀ bs a rest b, F.read bs = some (a, rest) → g a = some b → f b = a) :
    (F.via f g).Canonical := by
  intro bs b rest h
  unfold Format.via at h ⊢
  simp only at h ⊢
  split at h
  · cases h
  · next a rest' hread =>
    obtain ⟨b', hb, heq⟩ := Option.map_eq_some_iff.1 h
    obtain ⟨rfl, rfl⟩ := Prod.mk.inj heq
    rw [hg _ _ _ _ hread hb]
    exact hF _ _ _ hread

theorem Canonical.pair {F : Format α} {G : Format β} (hF : F.Canonical) (hG : G.Canonical) :
    (F.pair G).Canonical := by
  intro bs x rest h
  unfold Format.pair at h ⊢
  simp only at h ⊢
  split at h
  · cases h
  · next a rest' hread =>
    split at h
    · cases h
    · next b rest'' hread' =>
      obtain ⟨rfl, rfl⟩ := Prod.mk.inj (Option.some.inj h)
      rw [hF _ _ _ hread, hG _ _ _ hread', List.append_assoc]

theorem Canonical.option {F : Format α} (hF : F.Canonical) : F.option.Canonical := by
  intro bs x rest h
  unfold Format.option at h ⊢
  simp only at h ⊢
  split at h
  · obtain ⟨rfl, rfl⟩ := Prod.mk.inj (Option.some.inj h)
    rfl
  · obtain ⟨⟨a, rest'⟩, hread, heq⟩ := Option.map_eq_some_iff.1 h
    obtain ⟨rfl, rfl⟩ := Prod.mk.inj heq
    rw [hF _ _ _ hread]
    rfl
  · cases h

theorem Canonical.readMany {F : Format α} (hF : F.Canonical) {n : Nat} {bs : List UInt8}
    {l : List α} {rest : List UInt8} (h : F.readMany n bs = some (l, rest)) :
    l.length = n ∧ bs = l.flatMap F.write ++ rest := by
  induction n generalizing bs l with
  | zero =>
    obtain ⟨rfl, rfl⟩ := Prod.mk.inj (Option.some.inj h)
    exact ⟨rfl, rfl⟩
  | succ n ih =>
    rw [Format.readMany] at h
    split at h
    · cases h
    · next a rest' hread =>
      obtain ⟨⟨l', rest''⟩, hmany, heq⟩ := Option.map_eq_some_iff.1 h
      obtain ⟨rfl, rfl⟩ := Prod.mk.inj heq
      obtain ⟨hlen, hrest⟩ := ih hmany
      rw [hF _ _ _ hread, hrest]
      exact ⟨congrArg (· + 1) hlen, by rw [List.flatMap_cons, List.append_assoc]⟩

theorem Canonical.list {F : Format α} (hF : F.Canonical) : F.list.Canonical := by
  intro bs l rest h
  unfold Format.list at h ⊢
  simp only at h ⊢
  split at h
  · cases h
  · next n rest' hread =>
    obtain ⟨rfl, hrest⟩ := hF.readMany h
    rw [canonical_nat 8 _ _ _ hread, hrest, List.append_assoc]

end Format

end Bytes
