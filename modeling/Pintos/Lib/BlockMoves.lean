import Pintos.Library.Memory

/-!
# Copying blocks

`memcpy` and `memmove` of `project5/src/lib/string.c`, byte by byte and with the pointers that the loops move.  A run
ends at an assertion that fails and at the first byte that is not mapped.

The copy of `memmove` is right whatever way the two blocks overlap (`memmove_moved`), for its direction follows the
order of the pointers.  What it returns is the pointer that the loop has moved: the destination after the loop that
goes down, and the end of the destination after the loop that goes up.
-/

namespace Pintos.Lib.BlockMoves

abbrev Word := BitVec 32

abbrev Bytes := Memory 32 UInt8

/-! ## The code -/

/-- `while (size-- > 0) *dst++ = *src++;` -/
def copyUp : ℕ → Bytes → Word → Word → Option (Bytes × Word × Word)
  | 0, m, dst, src => some (m, dst, src)
  | size + 1, m, dst, src => do
    let m ← m.store dst (← m.cells src)
    copyUp size m (dst + 1) (src + 1)

/-- `while (size-- > 0) *--dst = *--src;` -/
def copyDown : ℕ → Bytes → Word → Word → Option (Bytes × Word × Word)
  | 0, m, dst, src => some (m, dst, src)
  | size + 1, m, dst, src => do
    let m ← m.store (dst - 1) (← m.cells (src - 1))
    copyDown size m (dst - 1) (src - 1)

/-- `memcpy (dst_, src_, size)` -/
def memcpy (m : Bytes) (dst_ src_ size : Word) : Option (Bytes × Word) := do
  guard (dst_ ≠ 0 ∨ size = 0)
  guard (src_ ≠ 0 ∨ size = 0)
  let (m, _) ← copyUp size.toNat m dst_ src_
  return (m, dst_)

/-- `memmove (dst_, src_, size)` -/
def memmove (m : Bytes) (dst_ src_ size : Word) : Option (Bytes × Word) := do
  guard (dst_ ≠ 0 ∨ size = 0)
  guard (src_ ≠ 0 ∨ size = 0)
  if dst_ < src_ then
    let (m, dst, _) ← copyUp size.toNat m dst_ src_
    return (m, dst)
  else
    let (m, dst, _) ← copyDown size.toNat m (dst_ + size) (src_ + size)
    return (m, dst)

/-! ## What a copy does -/

/-- The block at `dst` is what the block at `src` was, and nothing else has changed. -/
structure Moved (m m' : Bytes) (dst src : Word) (n : ℕ) : Prop where
  contents : ∀ i < n, m'.entry dst i = m.entry src i
  frame : ∀ x, Memory.Outside x dst n → m'.cells x = m.cells x

variable {m m' m₁ : Bytes} {dst src size : Word} {n : ℕ} {v : UInt8}

theorem moved_zero (m : Bytes) (dst src : Word) : Moved m m dst src 0 where
  contents i hi := absurd hi (Nat.not_lt_zero i)
  frame _ _ := rfl

/-- The first byte is copied before the others: none of these has been written. -/
theorem Moved.cons (hv : m.cells src = some v) (hstore : m.store dst v = some m₁)
    (h : Moved m₁ m' (dst + 1) (src + 1) n) (hdst : Memory.Outside dst (dst + 1) n)
    (hsrc : Memory.Outside dst (src + 1) n) : Moved m m' dst src (n + 1) where
  contents i hi := by
    cases i with
    | zero => rw [Memory.entry_zero, Memory.entry_zero, h.frame dst hdst, Memory.cells_store_self hstore, hv]
    | succ i =>
      have hlt : i < n := Nat.lt_of_succ_lt_succ hi
      rw [← Memory.entry_succ, h.contents i hlt, ← Memory.entry_succ]
      exact Memory.cells_store_ne hstore (hsrc i hlt).symm
  frame x hx := by
    have hne : x ≠ dst := by
      have hhead := hx 0 (Nat.succ_pos n)
      rwa [Memory.offset_zero] at hhead
    have htail : Memory.Outside x (dst + 1) n := by
      intro i hi
      rw [Memory.offset_one]
      exact hx (i + 1) (Nat.succ_lt_succ hi)
    rw [h.frame x htail, Memory.cells_store_ne hstore hne]

/-- The last byte is copied before the others: none of these has been written. -/
theorem Moved.snoc (hv : m.entry src n = some v) (hstore : m.store (dst + BitVec.ofNat 32 n) v = some m₁)
    (h : Moved m₁ m' dst src n) (hdst : Memory.Outside (dst + BitVec.ofNat 32 n) dst n)
    (hsrc : Memory.Outside (dst + BitVec.ofNat 32 n) src n) : Moved m m' dst src (n + 1) where
  contents i hi := by
    rcases Nat.lt_succ_iff_lt_or_eq.mp hi with hlt | rfl
    · rw [h.contents i hlt]
      exact Memory.cells_store_ne hstore (hsrc i hlt).symm
    · rw [hv]
      exact (h.frame _ hdst).trans (Memory.cells_store_self hstore)
  frame x hx := by
    have hinit : Memory.Outside x dst n := fun i hi => hx i (Nat.lt_succ_of_lt hi)
    rw [h.frame x hinit, Memory.cells_store_ne hstore (hx n (Nat.lt_succ_self n))]

/-! ## The loops -/

/-- The loop that goes up, where it does not run into the bytes that it still has to read. -/
theorem copyUp_moved (hdst : m.Mapped dst n) (hsrc : m.Mapped src n)
    (hunread : dst.toNat ≤ src.toNat ∨ src.toNat + n ≤ dst.toNat) :
    ∃ m', copyUp n m dst src = some (m', dst + BitVec.ofNat 32 n, src + BitVec.ofNat 32 n) ∧
      Moved m m' dst src n := by
  induction n generalizing m dst src with
  | zero => exact ⟨m, by rw [copyUp, Memory.offset_zero, Memory.offset_zero], moved_zero m dst src⟩
  | succ n ih =>
    have hdlt := hdst.lt
    have hslt := hsrc.lt
    obtain ⟨hd, hdst'⟩ := Memory.mapped_succ.mp hdst
    obtain ⟨hs, hsrc'⟩ := Memory.mapped_succ.mp hsrc
    obtain ⟨v, hv⟩ := Option.isSome_iff_exists.mp hs
    obtain ⟨m₁, hstore⟩ := Memory.store_of_isSome v hd
    have hdst1 : (dst + 1).toNat = dst.toNat + 1 := Memory.toNat_offset (i := 1) (by omega)
    have hsrc1 : (src + 1).toNat = src.toNat + 1 := Memory.toNat_offset (i := 1) (by omega)
    obtain ⟨m', hcopy, hmoved⟩ :=
      ih ((Memory.mapped_store hstore).mpr hdst') ((Memory.mapped_store hstore).mpr hsrc') (by omega)
    refine ⟨m', ?_, hmoved.cons hv hstore ?_ ?_⟩
    · rw [copyUp, hv, Option.bind_eq_bind, Option.bind_some, hstore, Option.bind_eq_bind, Option.bind_some, hcopy,
        Memory.offset_one, Memory.offset_one]
    · exact hdst'.outside (by omega)
    · exact hsrc'.outside (by omega)

/-- The loop that goes down from the ends of the blocks. -/
theorem copyDown_moved (hdst : m.Mapped dst n) (hsrc : m.Mapped src n) (hle : src.toNat ≤ dst.toNat) :
    ∃ m', copyDown n m (dst + BitVec.ofNat 32 n) (src + BitVec.ofNat 32 n) = some (m', dst, src) ∧
      Moved m m' dst src n := by
  induction n generalizing m with
  | zero => exact ⟨m, by rw [copyDown, Memory.offset_zero, Memory.offset_zero], moved_zero m dst src⟩
  | succ n ih =>
    obtain ⟨hd, hdst'⟩ := Memory.mapped_last.mp hdst
    obtain ⟨hs, hsrc'⟩ := Memory.mapped_last.mp hsrc
    obtain ⟨v, hv⟩ := Option.isSome_iff_exists.mp hs
    obtain ⟨m₁, hstore⟩ := Memory.store_of_isSome v hd
    have hlast : (dst + BitVec.ofNat 32 n).toNat = dst.toNat + n := hdst.toNat_offset (Nat.lt_succ_self n)
    obtain ⟨m', hcopy, hmoved⟩ :=
      ih ((Memory.mapped_store hstore).mpr hdst') ((Memory.mapped_store hstore).mpr hsrc')
    refine ⟨m', ?_, hmoved.snoc hv hstore ?_ ?_⟩
    · rw [copyDown, Memory.offset_succ_sub_one, Memory.offset_succ_sub_one, ← Memory.entry, hv, Option.bind_eq_bind,
        Option.bind_some, hstore, Option.bind_eq_bind, Option.bind_some, hcopy]
    · exact hdst'.outside (by omega)
    · exact hsrc'.outside (by omega)

/-- A loop that comes back has found its blocks mapped. -/
theorem mapped_of_copyUp {r : Bytes × Word × Word} (h : copyUp n m dst src = some r) :
    m.Mapped dst n ∧ m.Mapped src n := by
  induction n generalizing m dst src with
  | zero => exact ⟨Memory.mapped_zero m dst, Memory.mapped_zero m src⟩
  | succ n ih =>
    unfold copyUp at h
    obtain ⟨v, hv, h⟩ := Option.bind_eq_some_iff.mp h
    obtain ⟨m₁, hstore, h⟩ := Option.bind_eq_some_iff.mp h
    obtain ⟨hdst, hsrc⟩ := ih h
    rw [Memory.mapped_store hstore] at hdst hsrc
    exact ⟨Memory.mapped_succ.mpr ⟨(Memory.store_eq hstore).1, hdst⟩,
      Memory.mapped_succ.mpr ⟨Option.isSome_of_eq_some hv, hsrc⟩⟩

theorem mapped_of_copyDown {r : Bytes × Word × Word}
    (h : copyDown n m (dst + BitVec.ofNat 32 n) (src + BitVec.ofNat 32 n) = some r) :
    m.Mapped dst n ∧ m.Mapped src n := by
  induction n generalizing m with
  | zero => exact ⟨Memory.mapped_zero m dst, Memory.mapped_zero m src⟩
  | succ n ih =>
    rw [copyDown, Memory.offset_succ_sub_one, Memory.offset_succ_sub_one] at h
    obtain ⟨v, hv, h⟩ := Option.bind_eq_some_iff.mp h
    obtain ⟨m₁, hstore, h⟩ := Option.bind_eq_some_iff.mp h
    obtain ⟨hdst, hsrc⟩ := ih h
    rw [Memory.mapped_store hstore] at hdst hsrc
    exact ⟨Memory.mapped_last.mpr ⟨(Memory.store_eq hstore).1, hdst⟩,
      Memory.mapped_last.mpr ⟨Option.isSome_of_eq_some hv, hsrc⟩⟩

/-! ## The functions -/

theorem guard_bind {α : Type} {p : Prop} [Decidable p] (h : p) (f : Unit → Option α) : (guard p >>= f) = f () := by
  rw [guard, if_pos h]
  rfl

/-- The assertions hold of blocks that are mapped. -/
theorem nonnull_of_mapped (h : m.Mapped dst size.toNat) : dst ≠ 0 ∨ size = 0 := by
  by_cases hsize : size = 0
  · exact Or.inr hsize
  · exact Or.inl (h.ne_zero (Nat.pos_of_ne_zero fun hzero => hsize (BitVec.eq_of_toNat_eq hzero)))

/-- `memcpy` between blocks that do not overlap, and the destination that it was given. -/
theorem memcpy_moved (hdst : m.Mapped dst size.toNat) (hsrc : m.Mapped src size.toNat)
    (happart : dst.toNat + size.toNat ≤ src.toNat ∨ src.toNat + size.toNat ≤ dst.toNat) :
    ∃ m', memcpy m dst src size = some (m', dst) ∧ Moved m m' dst src size.toNat := by
  obtain ⟨m', hcopy, hmoved⟩ := copyUp_moved hdst hsrc (by omega)
  refine ⟨m', ?_, hmoved⟩
  rw [memcpy, guard_bind (nonnull_of_mapped hdst), guard_bind (nonnull_of_mapped hsrc), hcopy]
  rfl

/-- `memmove` between blocks that overlap or not, and the pointer that it has moved. -/
theorem memmove_moved (hdst : m.Mapped dst size.toNat) (hsrc : m.Mapped src size.toNat) :
    ∃ m', memmove m dst src size = some (m', if dst < src then dst + size else dst) ∧
      Moved m m' dst src size.toNat := by
  have hsize : BitVec.ofNat 32 size.toNat = size := Memory.ofNat_toNat size
  by_cases hlt : dst < src
  · obtain ⟨m', hcopy, hmoved⟩ := copyUp_moved hdst hsrc (Or.inl (BitVec.lt_def.mp hlt).le)
    refine ⟨m', ?_, hmoved⟩
    rw [memmove, guard_bind (nonnull_of_mapped hdst), guard_bind (nonnull_of_mapped hsrc), if_pos hlt, if_pos hlt,
      hcopy, hsize]
    rfl
  · have hle : src.toNat ≤ dst.toNat := Nat.not_lt.mp fun h => hlt (BitVec.lt_def.mpr h)
    obtain ⟨m', hcopy, hmoved⟩ := copyDown_moved hdst hsrc hle
    rw [hsize] at hcopy
    refine ⟨m', ?_, hmoved⟩
    rw [memmove, guard_bind (nonnull_of_mapped hdst), guard_bind (nonnull_of_mapped hsrc), if_neg hlt, if_neg hlt,
      hcopy]
    rfl

/-- `memmove` comes back from blocks that are mapped, and from no others. -/
theorem memmove_isSome :
    (memmove m dst src size).isSome = true ↔ m.Mapped dst size.toNat ∧ m.Mapped src size.toNat := by
  constructor
  · intro h
    obtain ⟨r, hr⟩ := Option.isSome_iff_exists.mp h
    unfold memmove at hr
    obtain ⟨_, _, hr⟩ := Option.bind_eq_some_iff.mp hr
    obtain ⟨_, _, hr⟩ := Option.bind_eq_some_iff.mp hr
    split at hr
    · obtain ⟨r', hcopy, _⟩ := Option.bind_eq_some_iff.mp hr
      exact mapped_of_copyUp hcopy
    · obtain ⟨r', hcopy, _⟩ := Option.bind_eq_some_iff.mp hr
      have hsize : BitVec.ofNat 32 size.toNat = size := Memory.ofNat_toNat size
      rw [← hsize, BitVec.toNat_ofNat, Nat.mod_eq_of_lt size.isLt] at hcopy
      exact mapped_of_copyDown hcopy
  · rintro ⟨hdst, hsrc⟩
    obtain ⟨m', hmove, _⟩ := memmove_moved hdst hsrc
    rw [hmove]
    rfl

/-- The copy is always right, and what is returned is the destination where the loop goes down or nothing is
copied. -/
theorem memmove_returns_destination_iff (m : Bytes) (dst src size : Word) :
    ((memmove m dst src size).isSome = true ↔ m.Mapped dst size.toNat ∧ m.Mapped src size.toNat) ∧
      ((∀ r, memmove m dst src size = some r → Moved m r.1 dst src size.toNat ∧ r.2 = dst) ↔
        size = 0 ∨ src ≤ dst ∨ ¬(m.Mapped dst size.toNat ∧ m.Mapped src size.toNat)) := by
  refine ⟨memmove_isSome, ?_⟩
  by_cases hmapped : m.Mapped dst size.toNat ∧ m.Mapped src size.toNat
  · obtain ⟨m', hmove, hmoved⟩ := memmove_moved hmapped.1 hmapped.2
    constructor
    · intro h
      have hret : (if dst < src then dst + size else dst) = dst := (h _ hmove).2
      split at hret
      · left
        bv_omega
      · case isFalse hlt => exact Or.inr (Or.inl (BitVec.not_lt.mp hlt))
    · intro h r hr
      rw [hmove] at hr
      cases hr
      refine ⟨hmoved, ?_⟩
      split
      · case isTrue hlt =>
        rcases h with rfl | hle | hnot
        · exact BitVec.add_zero dst
        · exact absurd hlt (BitVec.not_lt.mpr hle)
        · exact absurd hmapped hnot
      · rfl
  · constructor
    · intro _
      exact Or.inr (Or.inr hmapped)
    · intro _ r hr
      exact absurd (memmove_isSome.mp (Option.isSome_of_eq_some hr)) hmapped

/-- Two bytes. -/
def letters : Bytes where
  cells a := if a = 0x10 then some 104 else if a = 0x11 then some 105 else none
  null := by decide
  top := by decide

/-- A byte that is moved down by one place: what comes back is the place behind it. -/
theorem memmove_not_destination :
    ¬∀ r, memmove letters 0x10 0x11 1 = some r → Moved letters r.1 0x10 0x11 1 ∧ r.2 = 0x10 := by
  intro h
  have hmapped : letters.Mapped 0x10 1 ∧ letters.Mapped 0x11 1 := by
    constructor <;> exact Memory.mapped_succ.mpr ⟨rfl, Memory.mapped_zero letters _⟩
  obtain ⟨m', hmove, _⟩ : ∃ m', memmove letters 0x10 0x11 1 = some (m', 0x11) ∧ Moved letters m' 0x10 0x11 1 :=
    memmove_moved hmapped.1 hmapped.2
  have hret : (0x11 : Word) = 0x10 := (h _ hmove).2
  exact absurd hret (by decide)

end Pintos.Lib.BlockMoves
