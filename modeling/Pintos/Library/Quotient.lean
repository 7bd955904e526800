import Mathlib.Tactic

/-!
# Quotients by an estimate

A divisor of two words is cut to its first word, `v` after a shift that sets the highest bit; the quotient by what is
left of the divisor is the true quotient or one more (`estimate_bounds`), and a look at the remainder decides which
(`correct_estimate`).
-/

namespace Quotient

variable {n d q s : ℕ}

/-- The divisor that is left of `d` when all below the first word of `d * 2 ^ s` is dropped. -/
def cut (d s : ℕ) : ℕ := d * 2 ^ s / 2 ^ 32 * 2 ^ (32 - s)

/-- Division of a number of two digits by one of one digit, as on paper. -/
theorem two_digits {b : ℕ} (hd : 0 < d) (n₁ n₀ : ℕ) :
    (b * (n₁ % d) + n₀) / d + b * (n₁ / d) = (b * n₁ + n₀) / d := by
  have hsplit : b * n₁ + n₀ = b * (n₁ % d) + n₀ + d * (b * (n₁ / d)) := by
    calc b * n₁ + n₀ = b * (n₁ % d + d * (n₁ / d)) + n₀ := by rw [Nat.mod_add_div]
      _ = b * (n₁ % d) + n₀ + d * (b * (n₁ / d)) := by ring
  rw [hsplit, Nat.add_mul_div_left _ _ hd]

theorem two_pow_mul (hs : s ≤ 32) : 2 ^ s * 2 ^ (32 - s) = 2 ^ 32 := by
  rw [← pow_add, Nat.add_sub_cancel' hs]

theorem cut_le (hs : s ≤ 32) : cut d s ≤ d := by
  have hmul := two_pow_mul hs
  have hpos : 0 < 2 ^ s := Nat.two_pow_pos s
  refine Nat.le_of_mul_le_mul_left ?_ hpos
  calc 2 ^ s * cut d s = d * 2 ^ s / 2 ^ 32 * (2 ^ s * 2 ^ (32 - s)) := by rw [cut]; ring
    _ = d * 2 ^ s / 2 ^ 32 * 2 ^ 32 := by rw [hmul]
    _ ≤ d * 2 ^ s := Nat.div_mul_le_self _ _
    _ = 2 ^ s * d := Nat.mul_comm _ _

theorem lt_cut_add (hs : s ≤ 32) : d < cut d s + 2 ^ (32 - s) := by
  have hmul := two_pow_mul hs
  have hpos : 0 < 2 ^ s := Nat.two_pow_pos s
  apply Nat.lt_of_mul_lt_mul_left (a := 2 ^ s)
  calc 2 ^ s * d = d * 2 ^ s := Nat.mul_comm _ _
    _ < 2 ^ 32 * (d * 2 ^ s / 2 ^ 32 + 1) := Nat.lt_mul_div_succ _ (Nat.two_pow_pos 32)
    _ = 2 ^ s * (cut d s + 2 ^ (32 - s)) := by rw [cut, ← hmul]; ring

theorem le_cut (hlo : 2 ^ 63 ≤ d * 2 ^ s) : 2 ^ 31 * 2 ^ (32 - s) ≤ cut d s := by
  apply Nat.mul_le_mul_right
  apply (Nat.le_div_iff_mul_le (Nat.two_pow_pos 32)).mpr
  exact hlo

/-- The shift is that of the first word of the divisor. -/
theorem shifted_lt (hs : s ≤ 32) (hhi : d / 2 ^ 32 * 2 ^ s < 2 ^ 32) : d * 2 ^ s < 2 ^ 64 := by
  have hpos : 0 < 2 ^ s := Nat.two_pow_pos s
  have hmul := two_pow_mul hs
  have hlt : d / 2 ^ 32 < 2 ^ (32 - s) := by
    apply Nat.lt_of_mul_lt_mul_left (a := 2 ^ s)
    rw [hmul, Nat.mul_comm]
    exact hhi
  calc d * 2 ^ s < 2 ^ 32 * (d / 2 ^ 32 + 1) * 2 ^ s :=
        Nat.mul_lt_mul_of_pos_right (Nat.lt_mul_div_succ d (Nat.two_pow_pos 32)) hpos
    _ ≤ 2 ^ 32 * 2 ^ (32 - s) * 2 ^ s := Nat.mul_le_mul_right _ (Nat.mul_le_mul_left _ hlt)
    _ = 2 ^ 32 * (2 ^ s * 2 ^ (32 - s)) := by ring
    _ = 2 ^ 64 := by rw [hmul]; rfl

theorem le_shifted (hlo : 2 ^ 31 ≤ d / 2 ^ 32 * 2 ^ s) : 2 ^ 63 ≤ d * 2 ^ s := by
  calc 2 ^ 63 = 2 ^ 31 * 2 ^ 32 := rfl
    _ ≤ d / 2 ^ 32 * 2 ^ s * 2 ^ 32 := Nat.mul_le_mul_right _ hlo
    _ = d / 2 ^ 32 * 2 ^ 32 * 2 ^ s := by ring
    _ ≤ d * 2 ^ s := Nat.mul_le_mul_right _ (Nat.div_mul_le_self d _)

/-- Half the dividend by the first word, and what of it lies above the shift. -/
theorem div_cut (hs : s ≤ 31) : n / 2 / (d * 2 ^ s / 2 ^ 32) / 2 ^ (31 - s) = n / cut d s := by
  rw [Nat.div_div_eq_div_mul, Nat.div_div_eq_div_mul, cut, show 32 - s = 31 - s + 1 by omega, pow_succ]
  congr 1
  ring

/-- The quotient of a dividend of 64 bits by the cut divisor. -/
theorem estimate_bounds (hn : n < 2 ^ 64) (hs : s ≤ 31) (hlo : 2 ^ 63 ≤ d * 2 ^ s) :
    n / d ≤ n / cut d s ∧ n / cut d s ≤ n / d + 1 := by
  have hcut := le_cut hlo
  have hmul := two_pow_mul (s := s) (by omega)
  have hless := lt_cut_add (d := d) (s := s) (by omega)
  have hr : 0 < 2 ^ (32 - s) := Nat.two_pow_pos _
  have hpos : 0 < cut d s := lt_of_lt_of_le (Nat.mul_pos (by decide) hr) hcut
  have hd : 0 < d := lt_of_lt_of_le hpos (cut_le (by omega))
  constructor
  · exact Nat.div_le_div_left (cut_le (by omega)) hpos
  · -- what is cut off counts at most `2 ^ (s + 1)` times
    have hquot : n / d < 2 ^ (s + 1) := by
      apply (Nat.div_lt_iff_lt_mul hd).mpr
      calc n < 2 ^ 64 := hn
        _ = 2 * 2 ^ 63 := by decide
        _ ≤ 2 * (d * 2 ^ s) := Nat.mul_le_mul_left 2 hlo
        _ = 2 ^ (s + 1) * d := by rw [pow_succ]; ring
    have hoff : (2 ^ (32 - s) - 1) * (n / d + 1) ≤ cut d s := by
      calc (2 ^ (32 - s) - 1) * (n / d + 1) ≤ (2 ^ (32 - s) - 1) * 2 ^ (s + 1) := Nat.mul_le_mul_left _ hquot
        _ = 2 ^ 33 - 2 ^ (s + 1) := by
          rw [Nat.sub_mul, Nat.one_mul, pow_succ, ← Nat.mul_assoc, Nat.mul_comm (2 ^ (32 - s)), hmul]
          rfl
        _ ≤ 2 ^ 31 * 2 ^ (32 - s) := by
          rcases Nat.eq_or_lt_of_le hs with rfl | hlt
          · decide
          · have hfour : 2 ^ 2 ≤ 2 ^ (32 - s) := Nat.pow_le_pow_right (by decide) (by omega)
            calc 2 ^ 33 - 2 ^ (s + 1) ≤ 2 ^ 31 * 2 ^ 2 := Nat.sub_le _ _
              _ ≤ 2 ^ 31 * 2 ^ (32 - s) := Nat.mul_le_mul_left _ hfour
        _ ≤ cut d s := hcut
    apply Nat.lt_succ_iff.mp
    apply (Nat.div_lt_iff_lt_mul hpos).mpr
    calc n < d * (n / d + 1) := Nat.lt_mul_div_succ n hd
      _ ≤ (cut d s + (2 ^ (32 - s) - 1)) * (n / d + 1) := Nat.mul_le_mul_right _ (by omega)
      _ = cut d s * (n / d + 1) + (2 ^ (32 - s) - 1) * (n / d + 1) := Nat.add_mul _ _ _
      _ ≤ cut d s * (n / d + 1) + cut d s := Nat.add_le_add_left hoff _
      _ = (n / d + 1 + 1) * cut d s := by ring

/-- One less than the estimate leaves a remainder below the divisor just where the estimate is one too large. -/
theorem correct_estimate (hd : 0 < d) (hq : 0 < q) (hlo : n / d ≤ q) (hhi : q ≤ n / d + 1) :
    (q - 1) * d ≤ n ∧ (if n - (q - 1) * d < d then q - 1 else q) = n / d := by
  have hdiv : d * (n / d) ≤ n := Nat.mul_div_le n d
  have hlt : n < d * (n / d + 1) := Nat.lt_mul_div_succ n hd
  rcases Nat.eq_or_lt_of_le hhi with rfl | hle
  · rw [Nat.add_sub_cancel, Nat.mul_comm]
    refine ⟨hdiv, if_pos ?_⟩
    rw [Nat.mul_add, Nat.mul_one] at hlt
    omega
  · obtain rfl : q = n / d := by omega
    obtain ⟨k, hk⟩ := Nat.exists_eq_succ_of_ne_zero hq.ne'
    rw [hk, Nat.mul_succ] at hdiv
    rw [hk, Nat.succ_sub_one, Nat.mul_comm]
    refine ⟨by omega, if_neg ?_⟩
    omega

end Quotient
