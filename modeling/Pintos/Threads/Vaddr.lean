import Mathlib.Tactic

/-!
# Virtual addresses

`threads/vaddr.h` and `lib/round.h`.  An address is a 32-bit word; every operation on addresses is the
one of the source, and the lemmas say what it does to the number the word stands for.
-/

namespace Pintos.Threads

/-- A virtual address, or any other `uint32_t`. -/
abbrev Word := BitVec 32

-- Stated once, so that a definition that looks for a word in a list has no proof of its own in it.
instance lawfulBEqWord : LawfulBEq Word := inferInstance

/-- `PGSIZE` -/
def pgSize : Word := 4096#32

/-- `PGMASK` -/
def pgMask : Word := 0xfff#32

/-- `PHYS_BASE` -/
def physBase : Word := 0xc0000000#32

/-- `pg_ofs` -/
def pgOfs (va : Word) : Word := va &&& pgMask

/-- `pg_round_down` -/
def pgRoundDown (va : Word) : Word := va &&& ~~~pgMask

/-- `is_user_vaddr` -/
def isUserVaddr (va : Word) : Bool := decide (va < physBase)

/-- `ROUND_UP` -/
def roundUp (x step : Word) : Word := (x + step - 1) / step * step

@[simp] theorem toNat_pgSize : pgSize.toNat = 4096 := rfl

@[simp] theorem toNat_physBase : physBase.toNat = 0xc0000000 := rfl

theorem toNat_pgOfs (va : Word) : (pgOfs va).toNat = va.toNat % 4096 := by
  rw [pgOfs, BitVec.toNat_and, show pgMask.toNat = 2 ^ 12 - 1 from rfl, Nat.and_two_pow_sub_one_eq_mod]

/-- An address is the start of its page and its offset in the page. -/
theorem toNat_pgRoundDown_add_pgOfs (va : Word) :
    (pgRoundDown va).toNat + (pgOfs va).toNat = va.toNat := by
  have hdisj : pgRoundDown va &&& pgOfs va = 0#32 := by
    unfold pgRoundDown pgOfs
    ext i hi
    simp only [BitVec.getElem_and, BitVec.getElem_not, BitVec.getElem_zero]
    cases va[i] <;> cases pgMask[i] <;> rfl
  have hsum : pgRoundDown va + pgOfs va = va := by
    rw [BitVec.add_eq_or_of_and_eq_zero _ _ hdisj]
    unfold pgRoundDown pgOfs
    ext i hi
    simp only [BitVec.getElem_or, BitVec.getElem_and, BitVec.getElem_not]
    cases va[i] <;> cases pgMask[i] <;> rfl
  rw [← BitVec.toNat_add_of_and_eq_zero hdisj, hsum]

theorem toNat_pgRoundDown (va : Word) : (pgRoundDown va).toNat = va.toNat - va.toNat % 4096 := by
  have := toNat_pgRoundDown_add_pgOfs va
  rw [toNat_pgOfs] at this
  omega

theorem isUserVaddr_iff {va : Word} : isUserVaddr va = true ↔ va.toNat < 0xc0000000 := by
  rw [isUserVaddr, decide_eq_true_iff, BitVec.lt_def, toNat_physBase]

theorem toNat_roundUp {x : Word} (h : x.toNat + 4095 < 2 ^ 32) :
    (roundUp x pgSize).toNat = (x.toNat + 4095) / 4096 * 4096 := by
  have hsum : (x + pgSize - 1).toNat = x.toNat + 4095 := by
    rw [show x + pgSize - 1 = x + 4095#32 by unfold pgSize; bv_omega]
    rw [BitVec.toNat_add_of_lt (by simpa using h)]
    rfl
  have hle := Nat.div_mul_le_self (x.toNat + 4095) 4096
  rw [roundUp, BitVec.toNat_mul, BitVec.toNat_udiv, hsum, toNat_pgSize, Nat.mod_eq_of_lt (by omega)]

end Pintos.Threads
