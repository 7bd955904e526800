import Mathlib.Data.BitVec
import Mathlib.Tactic
import Pintos.Library.Quotient

/-!
# 64-bit division

`project5/src/lib/arithmetic.c`, the routines that stand in for those of the compiler.  The processor divides 64 bits
by 32 and traps where the quotient does not fit in 32; a divisor that fits takes two such steps, as on paper, and a
longer one an estimate that is put right (`Quotient.estimate_bounds`).

The quotients are right.  The remainders go through a result type of 32 bits, so that they are right where the
remainder fits in it.
-/

namespace Pintos.Lib.Arithmetic

/-! ## The code -/

/-- `divl (n, d)`; `none` is the trap of the instruction. -/
def divl (n : BitVec 64) (d : BitVec 32) : Option (BitVec 32) :=
  if d = 0 ∨ 2 ^ 32 ≤ n.toNat / d.toNat then none else some (BitVec.ofNat 32 (n.toNat / d.toNat))

/-- A step of `nlz`: `if (x <= bound) n += k, x <<= k;`. -/
def nlzStep (bound : BitVec 32) (k : ℕ) (p : ℕ × BitVec 32) : ℕ × BitVec 32 :=
  if p.2 ≤ bound then (p.1 + k, p.2 <<< k) else p

/-- `nlz (x)` -/
def nlz (x : BitVec 32) : ℕ :=
  let p := nlzStep 0x0000FFFF 16 (0, x)
  let p := nlzStep 0x00FFFFFF 8 p
  let p := nlzStep 0x0FFFFFFF 4 p
  let p := nlzStep 0x3FFFFFFF 2 p
  if p.2 ≤ 0x7FFFFFFF then p.1 + 1 else p.1

/-- `udiv64 (n, d)` -/
def udiv64 (n d : BitVec 64) : Option (BitVec 64) :=
  if d >>> 32 = 0 then do
    let b : BitVec 64 := 1 <<< 32
    let n1 : BitVec 32 := (n >>> 32).setWidth 32
    let n0 : BitVec 32 := n.setWidth 32
    let d0 : BitVec 32 := d.setWidth 32
    let q ← divl (b * (n1 % d0).setWidth 64 + n0.setWidth 64) d0
    return q.setWidth 64 + b * (n1 / d0).setWidth 64
  else if n < d then return 0
  else do
    let d1 : BitVec 32 := (d >>> 32).setWidth 32
    let s := nlz d1
    let q ← divl (n >>> 1) (((d <<< s) >>> 32).setWidth 32)
    let q : BitVec 64 := (q >>> (31 - s)).setWidth 64
    return if n - (q - 1) * d < d then q - 1 else q

/-- `umod64 (n, d)`, which returns a `uint32_t`. -/
def umod64 (n d : BitVec 64) : Option (BitVec 32) := do
  let q ← udiv64 n d
  return (n - d * q).setWidth 32

/-- The absolute value, as an `uint64_t`. -/
def abs64 (n : BitVec 64) : BitVec 64 := if 0 ≤ n.toInt then n else -n

/-- `sdiv64 (n, d)` -/
def sdiv64 (n d : BitVec 64) : Option (BitVec 64) := do
  let q ← udiv64 (abs64 n) (abs64 d)
  return if decide (n.toInt < 0) = decide (d.toInt < 0) then q else -q

/-- `smod64 (n, d)`, which returns an `int32_t`. -/
def smod64 (n d : BitVec 64) : Option (BitVec 32) := do
  let q ← sdiv64 n d
  return (n - d * q).setWidth 32

/-- `__divdi3 (n, d)` -/
def divdi3 (n d : BitVec 64) : Option (BitVec 64) := sdiv64 n d

/-- `__moddi3 (n, d)` -/
def moddi3 (n d : BitVec 64) : Option (BitVec 64) := (smod64 n d).map fun r => r.signExtend 64

/-- `__udivdi3 (n, d)` -/
def udivdi3 (n d : BitVec 64) : Option (BitVec 64) := udiv64 n d

/-- `__umoddi3 (n, d)` -/
def umoddi3 (n d : BitVec 64) : Option (BitVec 64) := (umod64 n d).map fun r => r.setWidth 64

/-! ## Leading zeros -/

/-- The steps of `nlz` on `x₀` have come to `p`, and the highest bit that is set is not below bit `k`. -/
structure Normalised (x₀ : BitVec 32) (k : ℕ) (p : ℕ × BitVec 32) : Prop where
  value : p.2.toNat = x₀.toNat * 2 ^ p.1
  high : 2 ^ k ≤ p.2.toNat

variable {x₀ : BitVec 32} {p : ℕ × BitVec 32} {k : ℕ}

theorem Normalised.step (h : Normalised x₀ (32 - 2 * k) p) (hk : 2 * k ≤ 32) (bound : BitVec 32)
    (hbound : bound.toNat + 1 = 2 ^ (32 - k)) : Normalised x₀ (32 - k) (nlzStep bound k p) := by
  unfold nlzStep
  split
  · case isTrue hle =>
    have hlt : p.2.toNat < 2 ^ (32 - k) := by
      have hle' : p.2.toNat ≤ bound.toNat := hle
      omega
    have hshift : (p.2 <<< k).toNat = p.2.toNat * 2 ^ k := by
      rw [BitVec.toNat_shiftLeft, Nat.shiftLeft_eq, Nat.mod_eq_of_lt]
      calc p.2.toNat * 2 ^ k < 2 ^ (32 - k) * 2 ^ k := Nat.mul_lt_mul_of_pos_right hlt (Nat.two_pow_pos k)
        _ = 2 ^ 32 := by rw [← pow_add, Nat.sub_add_cancel (by omega)]
    constructor
    · dsimp only
      rw [hshift, h.value, pow_add, Nat.mul_assoc]
    · dsimp only
      rw [hshift, show 32 - k = 32 - 2 * k + k by omega, pow_add]
      exact Nat.mul_le_mul_right _ h.high
  · case isFalse hle =>
    refine ⟨h.value, ?_⟩
    have hlt : bound.toNat < p.2.toNat := Nat.lt_of_not_le hle
    omega

/-- `nlz` is the shift that brings the highest bit that is set to the top. -/
theorem nlz_spec (hx : x₀ ≠ 0) : nlz x₀ ≤ 31 ∧ 2 ^ 31 ≤ x₀.toNat * 2 ^ nlz x₀ ∧ x₀.toNat * 2 ^ nlz x₀ < 2 ^ 32 := by
  have hpos : 0 < x₀.toNat := Nat.pos_of_ne_zero fun h => hx (BitVec.eq_of_toNat_eq h)
  have h₀ : Normalised x₀ (32 - 2 * 16) (0, x₀) := ⟨(Nat.mul_one _).symm, hpos⟩
  have h₁ : Normalised x₀ (32 - 2 * 8) _ := h₀.step (by decide) 0x0000FFFF rfl
  have h₂ : Normalised x₀ (32 - 2 * 4) _ := h₁.step (by decide) 0x00FFFFFF rfl
  have h₃ : Normalised x₀ (32 - 2 * 2) _ := h₂.step (by decide) 0x0FFFFFFF rfl
  have h₄ : Normalised x₀ (32 - 2 * 1) _ := h₃.step (by decide) 0x3FFFFFFF rfl
  have h₅ : Normalised x₀ 31 _ := h₄.step (by decide) 0x7FFFFFFF rfl
  have hlast : ∀ p : ℕ × BitVec 32, (if p.2 ≤ 0x7FFFFFFF then p.1 + 1 else p.1) = (nlzStep 0x7FFFFFFF 1 p).1 := by
    intro p
    unfold nlzStep
    split <;> rfl
  have hn : nlz x₀ = _ := hlast _
  have hvalue := h₅.value
  have hhigh := h₅.high
  rw [← hn] at hvalue
  rw [hvalue] at hhigh
  have hlt : x₀.toNat * 2 ^ nlz x₀ < 2 ^ 32 := hvalue ▸ BitVec.isLt _
  refine ⟨?_, hhigh, hlt⟩
  have hpow : 2 ^ nlz x₀ < 2 ^ 32 := (Nat.le_mul_of_pos_left _ hpos).trans_lt hlt
  exact Nat.lt_succ_iff.mp ((Nat.pow_lt_pow_iff_right (by decide)).mp hpow)

/-! ## Quotients -/

variable {n d : BitVec 64}

theorem divl_eq {d : BitVec 32} {q : ℕ} (hd : d ≠ 0) (hq : n.toNat / d.toNat = q) (hlt : q < 2 ^ 32) :
    divl n d = some (BitVec.ofNat 32 q) := by
  rw [divl, hq, if_neg]
  rintro (h | h)
  · exact hd h
  · omega

/-- **`udiv64`** divides, and no `divl` traps. -/
theorem udiv64_eq (hd : d ≠ 0) : udiv64 n d = some (BitVec.ofNat 64 (n.toNat / d.toNat)) := by
  have hn := n.isLt
  have hdlt := d.isLt
  have hpos : 0 < d.toNat := Nat.pos_of_ne_zero fun h => hd (BitVec.eq_of_toNat_eq h)
  unfold udiv64
  split
  · case isTrue hhigh =>
    have hd32 : d.toNat < 2 ^ 32 := by
      have h := congrArg BitVec.toNat hhigh
      rw [BitVec.toNat_ushiftRight, Nat.shiftRight_eq_div_pow] at h
      exact (Nat.div_eq_zero_iff_lt (Nat.two_pow_pos 32)).mp h
    have hd0 : (d.setWidth 32).toNat = d.toNat := by rw [BitVec.toNat_setWidth, Nat.mod_eq_of_lt hd32]
    have hn1 : ((n >>> 32).setWidth 32).toNat = n.toNat / 2 ^ 32 := by
      rw [BitVec.toNat_setWidth, BitVec.toNat_ushiftRight, Nat.shiftRight_eq_div_pow, Nat.mod_eq_of_lt]
      omega
    have hn0 : (n.setWidth 32).toNat = n.toNat % 2 ^ 32 := BitVec.toNat_setWidth 32 n
    have hne : d.setWidth 32 ≠ 0 := by
      intro h
      rw [h] at hd0
      exact hpos.ne hd0
    have hmod : n.toNat / 2 ^ 32 % d.toNat < d.toNat := Nat.mod_lt _ hpos
    -- what is left of the first digit, and the second one
    have hrest : (1 <<< 32 * (((n >>> 32).setWidth 32 : BitVec 32) % d.setWidth 32).setWidth 64 +
        (n.setWidth 32 : BitVec 32).setWidth 64 : BitVec 64).toNat
        = 2 ^ 32 * (n.toNat / 2 ^ 32 % d.toNat) + n.toNat % 2 ^ 32 := by
      have hb : (1 <<< 32 : BitVec 64).toNat = 2 ^ 32 := rfl
      rw [BitVec.toNat_add, BitVec.toNat_mul, hb, BitVec.toNat_setWidth, BitVec.toNat_setWidth, BitVec.toNat_umod, hn1,
        hd0, hn0]
      omega
    have hquot : (2 ^ 32 * (n.toNat / 2 ^ 32 % d.toNat) + n.toNat % 2 ^ 32) / d.toNat < 2 ^ 32 := by
      apply (Nat.div_lt_iff_lt_mul hpos).mpr
      have hle : 2 ^ 32 * (n.toNat / 2 ^ 32 % d.toNat + 1) ≤ 2 ^ 32 * d.toNat := Nat.mul_le_mul_left _ hmod
      omega
    dsimp only
    rw [divl_eq hne (by rw [hrest, hd0]) hquot]
    apply congrArg some
    apply BitVec.eq_of_toNat_eq
    have hsum := Quotient.two_digits (b := 2 ^ 32) hpos (n.toNat / 2 ^ 32) (n.toNat % 2 ^ 32)
    rw [Nat.div_add_mod] at hsum
    have hb : (1 <<< 32 : BitVec 64).toNat = 2 ^ 32 := rfl
    have hquotient : n.toNat / d.toNat < 2 ^ 64 := (Nat.div_le_self _ _).trans_lt hn
    rw [BitVec.toNat_add, BitVec.toNat_mul, hb, BitVec.toNat_setWidth, BitVec.toNat_setWidth, BitVec.toNat_udiv, hn1,
      hd0, BitVec.toNat_ofNat, BitVec.toNat_ofNat]
    generalize (2 ^ 32 * (n.toNat / 2 ^ 32 % d.toNat) + n.toNat % 2 ^ 32) / d.toNat = low at hsum hquot ⊢
    generalize n.toNat / 2 ^ 32 / d.toNat = high at hsum ⊢
    omega
  · case isFalse hhigh =>
    have hd1 : ((d >>> 32).setWidth 32).toNat = d.toNat / 2 ^ 32 := by
      rw [BitVec.toNat_setWidth, BitVec.toNat_ushiftRight, Nat.shiftRight_eq_div_pow, Nat.mod_eq_of_lt]
      omega
    have hd32 : 2 ^ 32 ≤ d.toNat := by
      by_contra hlt
      apply hhigh
      apply BitVec.eq_of_toNat_eq
      rw [BitVec.toNat_ushiftRight, Nat.shiftRight_eq_div_pow]
      exact Nat.div_eq_of_lt (Nat.lt_of_not_le hlt)
    split
    · case isTrue hlt =>
      rw [Nat.div_eq_of_lt hlt]
      rfl
    · case isFalse hle =>
      have hle : d.toNat ≤ n.toNat := Nat.le_of_not_lt hle
      have hd1pos : (d >>> 32).setWidth 32 ≠ 0 := by
        intro h
        rw [h] at hd1
        have hpos1 : 0 < d.toNat / 2 ^ 32 := Nat.div_pos hd32 (Nat.two_pow_pos 32)
        exact hpos1.ne hd1
      obtain ⟨hs, hlo, hhi⟩ := nlz_spec hd1pos
      dsimp only
      generalize nlz ((d >>> 32).setWidth 32) = s at hs hlo hhi ⊢
      rw [hd1] at hlo hhi
      have hshift : d.toNat * 2 ^ s < 2 ^ 64 := Quotient.shifted_lt (by omega) hhi
      have hhigh : 2 ^ 63 ≤ d.toNat * 2 ^ s := Quotient.le_shifted hlo
      obtain ⟨hlower, hupper⟩ := Quotient.estimate_bounds hn hs hhigh
      have hv : (((d <<< s) >>> 32).setWidth 32).toNat = d.toNat * 2 ^ s / 2 ^ 32 := by
        rw [BitVec.toNat_setWidth, BitVec.toNat_ushiftRight, Nat.shiftRight_eq_div_pow, BitVec.toNat_shiftLeft,
          Nat.shiftLeft_eq, Nat.mod_eq_of_lt hshift, Nat.mod_eq_of_lt]
        omega
      have hvlo : 2 ^ 31 ≤ d.toNat * 2 ^ s / 2 ^ 32 := (Nat.le_div_iff_mul_le (Nat.two_pow_pos 32)).mpr hhigh
      have hne : ((d <<< s) >>> 32).setWidth 32 ≠ (0 : BitVec 32) := by
        intro h
        rw [h] at hv
        exact absurd (hv ▸ hvlo) (by decide)
      have hhalf : (n >>> 1).toNat = n.toNat / 2 := by
        rw [BitVec.toNat_ushiftRight, Nat.shiftRight_eq_div_pow, pow_one]
      have hquot : n.toNat / 2 / (d.toNat * 2 ^ s / 2 ^ 32) < 2 ^ 32 := by
        apply (Nat.div_lt_iff_lt_mul (lt_of_lt_of_le (by decide) hvlo)).mpr
        have hle := Nat.mul_le_mul_left (2 ^ 32) hvlo
        omega
      rw [divl_eq hne (by rw [hhalf, hv]) hquot]
      -- the estimate
      have hq : ((BitVec.ofNat 32 (n.toNat / 2 / (d.toNat * 2 ^ s / 2 ^ 32)) >>> (31 - s)).setWidth 64 : BitVec 64) =
          BitVec.ofNat 64 (n.toNat / Quotient.cut d.toNat s) := by
        apply BitVec.eq_of_toNat_eq
        rw [BitVec.toNat_setWidth, BitVec.toNat_ushiftRight, Nat.shiftRight_eq_div_pow, BitVec.toNat_ofNat,
          Nat.mod_eq_of_lt hquot, BitVec.toNat_ofNat, ← Quotient.div_cut hs]
      show some (if _ then _ else _) = _
      rw [hq]
      have hquotient : n.toNat / Quotient.cut d.toNat s < 2 ^ 64 := (Nat.div_le_self _ _).trans_lt hn
      have hone : 1 ≤ n.toNat / Quotient.cut d.toNat s := le_trans (Nat.div_pos hle hpos) hlower
      obtain ⟨hprod, hcorrect⟩ := Quotient.correct_estimate hpos hone hlower hupper
      generalize n.toNat / Quotient.cut d.toNat s = q at hquotient hone hprod hcorrect ⊢
      have hless : BitVec.ofNat 64 q - 1 = BitVec.ofNat 64 (q - 1) := BitVec.ofNat_sub_ofNat_of_le q 1 (by decide) hone
      have hrest : (n - (BitVec.ofNat 64 q - 1) * d).toNat = n.toNat - (q - 1) * d.toNat := by
        have hmul : (BitVec.ofNat 64 (q - 1) * d).toNat = (q - 1) * d.toNat := by
          rw [BitVec.toNat_mul, BitVec.toNat_ofNat, Nat.mod_eq_of_lt (a := q - 1) (by omega), Nat.mod_eq_of_lt]
          omega
        rw [hless, BitVec.toNat_sub_of_le, hmul]
        rw [BitVec.le_def, hmul]
        exact hprod
      have htest : n - (BitVec.ofNat 64 q - 1) * d < d ↔ n.toNat - (q - 1) * d.toNat < d.toNat := by
        rw [BitVec.lt_def, hrest]
      rw [← hcorrect]
      by_cases hlt : n.toNat - (q - 1) * d.toNat < d.toNat
      · rw [if_pos hlt, if_pos (htest.mpr hlt), hless]
      · rw [if_neg hlt, if_neg (mt htest.mp hlt)]

theorem abs64_eq (n : BitVec 64) : abs64 n = if n.msb then -n else n := by
  rw [abs64, BitVec.msb_eq_toInt]
  by_cases h : n.toInt < 0
  · rw [if_neg (by omega), if_pos (by simpa using h)]
  · rw [if_pos (by omega), if_neg (by simpa using h)]

/-- The quotient of the absolute values, with its sign. -/
theorem sdiv64_eq (hd : d ≠ 0) : sdiv64 n d = some (n.sdiv d) := by
  have habs : abs64 d ≠ 0 := by
    rw [abs64]
    split
    · exact hd
    · exact fun h => hd (BitVec.neg_eq_zero_iff.mp h)
  have hudiv : ∀ a b : BitVec 64, BitVec.ofNat 64 (a.toNat / b.toNat) = a.udiv b := by
    intro a b
    apply BitVec.eq_of_toNat_eq
    rw [BitVec.toNat_ofNat, Nat.mod_eq_of_lt ((Nat.div_le_self _ _).trans_lt a.isLt)]
    exact (BitVec.toNat_udiv).symm
  rw [sdiv64, udiv64_eq habs, hudiv, abs64_eq, abs64_eq, BitVec.sdiv_eq, ← BitVec.msb_eq_toInt, ← BitVec.msb_eq_toInt]
  cases n.msb <;> cases d.msb <;> rfl

/-- **64-bit division** is exact, signed and unsigned; every `divl` on the way has a quotient that fits. -/
theorem division_exact (hd : d ≠ 0) :
    (∃ q, udivdi3 n d = some q ∧ q.toNat = n.toNat / d.toNat) ∧
      ∃ q, divdi3 n d = some q ∧ q.toInt = (n.toInt.tdiv d.toInt).bmod (2 ^ 64) := by
  constructor
  · refine ⟨_, udiv64_eq hd, ?_⟩
    rw [BitVec.toNat_ofNat, Nat.mod_eq_of_lt ((Nat.div_le_self _ _).trans_lt n.isLt)]
  · exact ⟨_, sdiv64_eq hd, BitVec.toInt_sdiv n d⟩

/-- -2^63 by -1. -/
theorem division_exact_min : (∃ q, udivdi3 (BitVec.intMin 64) (-1) = some q ∧
      q.toNat = (BitVec.intMin 64).toNat / (-1 : BitVec 64).toNat) ∧
    ∃ q, divdi3 (BitVec.intMin 64) (-1) = some q ∧
      q.toInt = ((BitVec.intMin 64).toInt.tdiv (-1 : BitVec 64).toInt).bmod (2 ^ 64) :=
  division_exact (by decide)

/-! ## Remainders -/

/-- The unsigned quotient and remainder belong together. -/
def UnsignedAgree (n d : BitVec 64) : Prop :=
  ∃ q r, udivdi3 n d = some q ∧ umoddi3 n d = some r ∧
    n.toNat = d.toNat * q.toNat + r.toNat ∧ r.toNat < d.toNat

/-- The signed quotient and remainder belong together. -/
def SignedAgree (n d : BitVec 64) : Prop :=
  ∃ q r, divdi3 n d = some q ∧ moddi3 n d = some r ∧
    n.toInt = d.toInt * q.toInt + r.toInt ∧ |r.toInt| < |d.toInt| ∧ (r.toInt = 0 ∨ r.toInt.sign = n.toInt.sign)

/-- The unsigned remainder, cut to 32 bits. -/
theorem umoddi3_eq (hd : d ≠ 0) : ∃ r, umoddi3 n d = some r ∧ r.toNat = n.toNat % d.toNat % 2 ^ 32 := by
  have hquotient : n.toNat / d.toNat < 2 ^ 64 := (Nat.div_le_self _ _).trans_lt n.isLt
  have hprod : (d * BitVec.ofNat 64 (n.toNat / d.toNat)).toNat = d.toNat * (n.toNat / d.toNat) := by
    rw [BitVec.toNat_mul, BitVec.toNat_ofNat, Nat.mod_eq_of_lt hquotient, Nat.mod_eq_of_lt]
    exact (Nat.mul_div_le _ _).trans_lt n.isLt
  have hrest : (n - d * BitVec.ofNat 64 (n.toNat / d.toNat)).toNat = n.toNat % d.toNat := by
    rw [BitVec.toNat_sub_of_le (by rw [BitVec.le_def, hprod]; exact Nat.mul_div_le _ _), hprod, Nat.mod_eq_sub]
  refine ⟨_, by rw [umoddi3, umod64, udiv64_eq hd]; rfl, ?_⟩
  rw [BitVec.toNat_setWidth, BitVec.toNat_setWidth, hrest]
  omega

theorem sub_mul_sdiv (n d : BitVec 64) : n - d * n.sdiv d = n.srem d := by
  apply BitVec.eq_of_toInt_eq
  rw [BitVec.toInt_srem, BitVec.toInt_sub, BitVec.toInt_mul, BitVec.toInt_sdiv]
  have hbmod : (n.toInt - (d.toInt * (n.toInt.tdiv d.toInt).bmod (2 ^ 64)).bmod (2 ^ 64)).bmod (2 ^ 64) =
      (n.toInt.tmod d.toInt).bmod (2 ^ 64) := by
    rw [Int.tmod_def]
    simp
  rw [hbmod, ← BitVec.toInt_srem]
  exact BitVec.toInt_bmod_cancel _

/-- The signed remainder, cut to 32 bits and extended again. -/
theorem moddi3_eq (hd : d ≠ 0) : ∃ r, moddi3 n d = some r ∧ r.toInt = (n.toInt.tmod d.toInt).bmod (2 ^ 32) := by
  refine ⟨_, by rw [moddi3, smod64, sdiv64_eq hd]; rfl, ?_⟩
  rw [sub_mul_sdiv, BitVec.toInt_signExtend_of_le (by decide), BitVec.toInt_setWidth, ← BitVec.toInt_srem,
    BitVec.toInt_eq_toNat_bmod (n.srem d), Int.bmod_bmod_of_dvd ⟨2 ^ 32, by decide⟩]

theorem unsignedAgree_iff (hd : d ≠ 0) : UnsignedAgree n d ↔ n.toNat % d.toNat < 2 ^ 32 := by
  have hpos : 0 < d.toNat := Nat.pos_of_ne_zero fun h => hd (BitVec.eq_of_toNat_eq h)
  have hquotient : (BitVec.ofNat 64 (n.toNat / d.toNat)).toNat = n.toNat / d.toNat := by
    rw [BitVec.toNat_ofNat, Nat.mod_eq_of_lt ((Nat.div_le_self _ _).trans_lt n.isLt)]
  obtain ⟨r, hr, hrem⟩ := umoddi3_eq (n := n) hd
  have hdivmod := Nat.div_add_mod n.toNat d.toNat
  constructor
  · rintro ⟨q, r', hq, hr', hsum, -⟩
    rw [udivdi3, udiv64_eq hd] at hq
    cases hq
    rw [hr] at hr'
    cases hr'
    rw [hquotient, hrem] at hsum
    omega
  · intro hlt
    rw [Nat.mod_eq_of_lt hlt] at hrem
    refine ⟨_, r, udiv64_eq hd, hr, ?_, ?_⟩
    · rw [hquotient, hrem, hdivmod]
    · rw [hrem]
      exact Nat.mod_lt _ hpos

theorem signedAgree_iff (hd : d ≠ 0) (hmin : ¬(n.toInt = -2 ^ 63 ∧ d.toInt = -1)) :
    SignedAgree n d ↔ -2 ^ 31 ≤ n.toInt.tmod d.toInt ∧ n.toInt.tmod d.toInt < 2 ^ 31 := by
  have hne : d.toInt ≠ 0 := fun h => hd (BitVec.eq_of_toInt_eq h)
  have hquotient : (n.sdiv d).toInt = n.toInt.tdiv d.toInt := by
    apply BitVec.toInt_sdiv_of_ne_or_ne
    by_contra h
    obtain ⟨rfl, rfl⟩ : n = BitVec.intMin 64 ∧ d = -1#64 := by
      rw [not_or, not_not, not_not] at h
      exact h
    exact hmin ⟨by decide, by decide⟩
  obtain ⟨r, hr, hrem⟩ := moddi3_eq (n := n) hd
  have hdivmod := Int.tmod_def n.toInt d.toInt
  have hrange : (n.toInt.tmod d.toInt).bmod (2 ^ 32) = n.toInt.tmod d.toInt ↔
      -2 ^ 31 ≤ n.toInt.tmod d.toInt ∧ n.toInt.tmod d.toInt < 2 ^ 31 := by
    constructor
    · intro h
      rw [← h]
      exact ⟨Int.le_bmod (by decide), Int.bmod_lt (by decide)⟩
    · intro h
      exact Int.bmod_eq_of_le h.1 h.2
  rw [← hrange]
  constructor
  · rintro ⟨q, r', hq, hr', hsum, -⟩
    rw [divdi3, sdiv64_eq hd] at hq
    cases hq
    rw [hr] at hr'
    cases hr'
    rw [hquotient, hrem] at hsum
    omega
  · intro heq
    rw [heq] at hrem
    refine ⟨_, r, sdiv64_eq hd, hr, ?_, ?_, ?_⟩
    · rw [hquotient, hrem, hdivmod]
      omega
    · rw [hrem, Int.abs_eq_natAbs, Int.abs_eq_natAbs, Int.natAbs_tmod]
      exact Int.ofNat_lt.mpr (Nat.mod_lt _ (Int.natAbs_pos.mpr hne))
    · rw [hrem, Int.sign_tmod]
      split
      · case isTrue hdvd => exact Or.inl (Int.tmod_eq_zero_of_dvd hdvd)
      · exact Or.inr rfl

/-- **The remainders agree with the quotients** if and only if they fit in 32 bits. -/
theorem remainder_agrees_iff (hd : d ≠ 0) : (UnsignedAgree n d ↔ n.toNat % d.toNat < 2 ^ 32) ∧
    (¬(n.toInt = -2 ^ 63 ∧ d.toInt = -1) →
      (SignedAgree n d ↔ -2 ^ 31 ≤ n.toInt.tmod d.toInt ∧ n.toInt.tmod d.toInt < 2 ^ 31)) :=
  ⟨unsignedAgree_iff hd, signedAgree_iff hd⟩

/-- 7 by 2. -/
theorem remainder_agrees_seven : UnsignedAgree 7 2 ∧ SignedAgree 7 2 := by
  have hagree := remainder_agrees_iff (n := 7) (d := 2) (by decide)
  exact ⟨hagree.1.mpr (by decide), (hagree.2 (by decide)).mpr (by decide)⟩

/-- 2^32 by 2^33, and 2^31 by 2^32. -/
theorem remainder_cut : ¬UnsignedAgree (2 ^ 32) (2 ^ 33) ∧ ¬SignedAgree (2 ^ 31) (2 ^ 32) := by
  constructor
  · rw [unsignedAgree_iff (by decide)]
    decide
  · rw [signedAgree_iff (by decide) (by decide)]
    decide

end Pintos.Lib.Arithmetic
