import Mathlib.Tactic

/-!
# Memory

The memory of a machine with addresses of `w` bits: what is at an address, or that nothing is.  There is nothing at
address 0, which is the null pointer, and nothing at the last address, so that the address behind an object is an
address.  A load of an address where nothing is, and a store to it, do not come back.

A block is the `n` entries from an address on.  One that is mapped does not reach around the end of the address space
(`Mapped.lt`), and so its entries have different addresses.
-/

structure Memory (w : ℕ) (α : Type) where
  cells : BitVec w → Option α
  null : cells 0 = none
  top : cells (BitVec.allOnes w) = none

namespace Memory

variable {w n i j : ℕ} {α : Type} {m m' : Memory w α} {a b x : BitVec w} {v : α}

theorem ext {m m' : Memory w α} (h : m.cells = m'.cells) : m = m' := by
  cases m
  cases m'
  cases h
  rfl

/-- A store. -/
def store (m : Memory w α) (a : BitVec w) (v : α) : Option (Memory w α) :=
  if h : (m.cells a).isSome then
    some {
      cells := Function.update m.cells a (some v)
      null := by
        rw [Function.update_of_ne, m.null]
        intro heq
        rw [← heq, m.null] at h
        exact Bool.false_ne_true h
      top := by
        rw [Function.update_of_ne, m.top]
        intro heq
        rw [← heq, m.top] at h
        exact Bool.false_ne_true h }
  else none

/-- The entry `i` of the block at an address. -/
def entry (m : Memory w α) (a : BitVec w) (i : ℕ) : Option α := m.cells (a + BitVec.ofNat w i)

/-- The `n` entries of a block. -/
def block (m : Memory w α) : BitVec w → (n : ℕ) → Option (List.Vector α n)
  | _, 0 => some .nil
  | a, n + 1 => do return .cons (← m.cells a) (← m.block (a + 1) n)

/-- There is something at each of the `n` addresses. -/
def Mapped (m : Memory w α) (a : BitVec w) (n : ℕ) : Prop := ∀ i < n, (m.entry a i).isSome = true

/-- A block is left alone. -/
def Outside (x a : BitVec w) (n : ℕ) : Prop := ∀ i < n, x ≠ a + BitVec.ofNat w i

/-! ## Addresses -/

theorem ofNat_toNat (a : BitVec w) : BitVec.ofNat w a.toNat = a := by rw [BitVec.ofNat_toNat, BitVec.setWidth_eq]

theorem toNat_offset (h : a.toNat + i < 2 ^ w) : (a + BitVec.ofNat w i).toNat = a.toNat + i := by
  rw [BitVec.toNat_add, BitVec.toNat_ofNat, Nat.add_mod_mod, Nat.mod_eq_of_lt h]

@[simp] theorem offset_zero (a : BitVec w) : a + BitVec.ofNat w 0 = a := by simp

theorem offset_offset (a : BitVec w) (i j : ℕ) :
    a + BitVec.ofNat w i + BitVec.ofNat w j = a + BitVec.ofNat w (i + j) := by
  rw [BitVec.ofNat_add, BitVec.add_assoc]

theorem offset_one (a : BitVec w) (i : ℕ) : a + 1 + BitVec.ofNat w i = a + BitVec.ofNat w (i + 1) := by
  rw [show (1 : BitVec w) = BitVec.ofNat w 1 from rfl, offset_offset, Nat.add_comm]

theorem offset_succ_sub_one (a : BitVec w) (i : ℕ) : a + BitVec.ofNat w (i + 1) - 1 = a + BitVec.ofNat w i := by
  rw [← offset_one, BitVec.add_assoc, BitVec.add_comm 1, ← BitVec.add_assoc, BitVec.add_sub_cancel]

theorem entry_zero (m : Memory w α) (a : BitVec w) : m.entry a 0 = m.cells a := by rw [entry, offset_zero]

theorem entry_succ (m : Memory w α) (a : BitVec w) (i : ℕ) : m.entry (a + 1) i = m.entry a (i + 1) := by
  rw [entry, entry, offset_one]

theorem entry_offset (m : Memory w α) (a : BitVec w) (i j : ℕ) :
    m.entry (a + BitVec.ofNat w i) j = m.entry a (i + j) := by
  rw [entry, entry, offset_offset]

/-! ## Mapped blocks -/

theorem ne_zero_of_isSome (h : (m.cells a).isSome = true) : a ≠ 0 := by
  intro heq
  rw [heq, m.null] at h
  exact Bool.false_ne_true h

theorem mapped_zero (m : Memory w α) (a : BitVec w) : m.Mapped a 0 := fun i hi => absurd hi (Nat.not_lt_zero i)

theorem mapped_succ : m.Mapped a (n + 1) ↔ (m.cells a).isSome = true ∧ m.Mapped (a + 1) n := by
  constructor
  · intro h
    constructor
    · have hzero := h 0 (Nat.succ_pos n)
      rwa [entry_zero] at hzero
    · intro i hi
      rw [entry_succ]
      exact h (i + 1) (Nat.succ_lt_succ hi)
  · intro h i hi
    cases i with
    | zero => rw [entry_zero]; exact h.1
    | succ i =>
      rw [← entry_succ]
      exact h.2 i (Nat.lt_of_succ_lt_succ hi)

theorem mapped_last : m.Mapped a (n + 1) ↔ (m.entry a n).isSome = true ∧ m.Mapped a n := by
  constructor
  · intro h
    exact ⟨h n (Nat.lt_succ_self n), fun i hi => h i (Nat.lt_succ_of_lt hi)⟩
  · intro h i hi
    rcases Nat.lt_succ_iff_lt_or_eq.mp hi with hlt | rfl
    · exact h.2 i hlt
    · exact h.1

/-- A part of a mapped block. -/
theorem Mapped.part (h : m.Mapped a n) (hij : i + j ≤ n) : m.Mapped (a + BitVec.ofNat w i) j := by
  intro k hk
  rw [entry_offset]
  exact h (i + k) (by omega)

/-- A mapped block ends in front of the last address. -/
theorem Mapped.lt (h : m.Mapped a n) : a.toNat + n < 2 ^ w := by
  by_contra hge
  have ha : a.toNat < 2 ^ w := a.isLt
  -- the last address would be one of the block
  have hsum : a.toNat + (2 ^ w - 1 - a.toNat) = 2 ^ w - 1 := by omega
  have hlast : a + BitVec.ofNat w (2 ^ w - 1 - a.toNat) = BitVec.allOnes w := by
    apply BitVec.eq_of_toNat_eq
    rw [toNat_offset (by omega), BitVec.toNat_allOnes, hsum]
  have hsome := h (2 ^ w - 1 - a.toNat) (by omega)
  rw [entry, hlast, m.top] at hsome
  exact Bool.false_ne_true hsome

theorem Mapped.ne_zero (h : m.Mapped a n) (hn : 0 < n) : a ≠ 0 := by
  have hhead := h 0 hn
  rw [entry_zero] at hhead
  exact ne_zero_of_isSome hhead

theorem Mapped.toNat_offset (h : m.Mapped a n) (hi : i < n) : (a + BitVec.ofNat w i).toNat = a.toNat + i := by
  have hlt := h.lt
  exact Memory.toNat_offset (by omega)

/-- An address outside of a block, by its place. -/
theorem Mapped.outside (h : m.Mapped a n) (hx : x.toNat < a.toNat ∨ a.toNat + n ≤ x.toNat) : Outside x a n := by
  intro i hi heq
  have hplace := h.toNat_offset hi
  rw [← heq] at hplace
  omega

/-! ## Stores -/

theorem store_eq (h : m.store a v = some m') :
    (m.cells a).isSome = true ∧ m'.cells = Function.update m.cells a (some v) := by
  unfold store at h
  split at h
  · case isTrue hsome =>
    cases h
    exact ⟨hsome, rfl⟩
  · cases h

theorem store_of_isSome (v : α) (h : (m.cells a).isSome = true) : ∃ m', m.store a v = some m' := by
  rw [store, dif_pos h]
  exact ⟨_, rfl⟩

theorem cells_store_self (h : m.store a v = some m') : m'.cells a = some v := by
  rw [(store_eq h).2, Function.update_self]

theorem cells_store_ne (h : m.store a v = some m') (hx : x ≠ a) : m'.cells x = m.cells x := by
  rw [(store_eq h).2, Function.update_of_ne hx]

/-- A store maps nothing and unmaps nothing. -/
theorem isSome_store (h : m.store a v = some m') (x : BitVec w) : (m'.cells x).isSome = (m.cells x).isSome := by
  by_cases hx : x = a
  · rw [hx, cells_store_self h, (store_eq h).1]
    rfl
  · rw [cells_store_ne h hx]

theorem mapped_store (h : m.store a v = some m') : m'.Mapped b n ↔ m.Mapped b n := by
  apply forall₂_congr
  intro i hi
  rw [entry, entry, isSome_store h]

/-! ## The entries of a block -/

theorem block_isSome : (m.block a n).isSome = true ↔ m.Mapped a n := by
  induction n generalizing a with
  | zero => exact ⟨fun _ => mapped_zero m a, fun _ => rfl⟩
  | succ n ih =>
    rw [mapped_succ, ← ih, block]
    cases m.cells a with
    | none => exact ⟨fun h => absurd h Bool.false_ne_true, fun h => absurd h.1 Bool.false_ne_true⟩
    | some v =>
      cases m.block (a + 1) n with
      | none => exact ⟨fun h => absurd h Bool.false_ne_true, fun h => absurd h.2 Bool.false_ne_true⟩
      | some vs => exact ⟨fun _ => ⟨rfl, rfl⟩, fun _ => rfl⟩

/-- Two blocks with the same entries. -/
theorem block_congr (h : ∀ i < n, m'.entry b i = m.entry a i) : m'.block b n = m.block a n := by
  induction n generalizing a b with
  | zero => rfl
  | succ n ih =>
    have hhead := h 0 (Nat.succ_pos n)
    have htail : ∀ i < n, m'.entry (b + 1) i = m.entry (a + 1) i := by
      intro i hi
      rw [entry_succ, entry_succ]
      exact h (i + 1) (Nat.succ_lt_succ hi)
    rw [entry_zero, entry_zero] at hhead
    rw [block, block, hhead, ih htail]

end Memory
