import Mathlib.Data.Nat.Bitwise

/-!
# Bit fields of a number

`bits w o n` are the `n` bits of `w` from bit `o` on.  The lemmas tell which of them come from which part of a number that
has been put together with shifts, masks and `|||`.
-/

namespace BitFields

/-- The `n` bits of `w` from bit `o` on. -/
def bits (w o n : ℕ) : ℕ := (w >>> o) % 2 ^ n

variable {w o n k m i : ℕ}

theorem testBit_bits : (bits w o n).testBit i = (decide (i < n) && w.testBit (o + i)) := by
  rw [bits, Nat.testBit_mod_two_pow, Nat.testBit_shiftRight]

theorem bits_lt : bits w o n < 2 ^ n := Nat.mod_lt _ (Nat.two_pow_pos n)

@[simp] theorem bits_zero : bits 0 o n = 0 := by simp [bits]

theorem bits_or (v : ℕ) : bits (w ||| v) o n = bits w o n ||| bits v o n := by
  apply Nat.eq_of_testBit_eq
  intro i
  simp only [testBit_bits, Nat.testBit_or]
  cases decide (i < n) <;> rfl

/-- Of a shifted number, above the shift. -/
theorem bits_shiftLeft (h : k ≤ o) : bits (w <<< k) o n = bits w (o - k) n := by
  apply Nat.eq_of_testBit_eq
  intro i
  have hge : k ≤ o + i := Nat.le_add_right_of_le h
  have hsub : o + i - k = o - k + i := by omega
  simp [testBit_bits, Nat.testBit_shiftLeft, hge, hsub]

/-- Below the shift there is nothing. -/
theorem bits_shiftLeft_below (h : o + n ≤ k) : bits (w <<< k) o n = 0 := by
  apply Nat.eq_of_testBit_eq
  intro i
  by_cases hi : i < n
  · have hlt : ¬k ≤ o + i := by omega
    simp [testBit_bits, Nat.testBit_shiftLeft, hlt]
  · simp [testBit_bits, hi]

theorem bits_shiftRight : bits (w >>> k) o n = bits w (k + o) n := by
  rw [bits, bits, Nat.shiftRight_add]

theorem bits_of_lt (h : w < 2 ^ o) : bits w o n = 0 := by
  rw [bits, Nat.shiftRight_eq_div_pow, Nat.div_eq_of_lt h, Nat.zero_mod]

theorem bits_above (h : w < 2 ^ k) (hk : k ≤ o) : bits w o n = 0 :=
  bits_of_lt (h.trans_le (Nat.pow_le_pow_right Nat.two_pos hk))

theorem bits_self (h : w < 2 ^ n) : bits w 0 n = w := Nat.mod_eq_of_lt h

/-- A mask of `m` bits from bit `k` on. -/
theorem testBit_mask : ((2 ^ m - 1) <<< k).testBit i = (decide (k ≤ i) && decide (i < k + m)) := by
  rw [Nat.testBit_shiftLeft, Nat.testBit_two_pow_sub_one]
  by_cases h : k ≤ i
  · have hiff : i - k < m ↔ i < k + m := by omega
    simp [h, hiff]
  · simp [h]

theorem bits_and_mask (hk : k ≤ o) (hn : o + n ≤ k + m) : bits (w &&& (2 ^ m - 1) <<< k) o n = bits w o n := by
  apply Nat.eq_of_testBit_eq
  intro i
  rw [testBit_bits, testBit_bits, Nat.testBit_and, testBit_mask]
  by_cases hi : i < n
  · have hlow : k ≤ o + i := Nat.le_add_right_of_le hk
    have hhigh : o + i < k + m := by omega
    simp [hi, hlow, hhigh]
  · simp [hi]

theorem bits_and_mask_outside (h : o + n ≤ k ∨ k + m ≤ o) : bits (w &&& (2 ^ m - 1) <<< k) o n = 0 := by
  apply Nat.eq_of_testBit_eq
  intro i
  rw [testBit_bits, Nat.testBit_and, testBit_mask, Nat.zero_testBit]
  by_cases hi : i < n
  · have hout : ¬(k ≤ o + i ∧ o + i < k + m) := by omega
    rw [← Bool.decide_and, decide_eq_false hout, Bool.and_false, Bool.and_false]
  · simp [hi]

/-- Two fields side by side. -/
theorem bits_append : bits w o n ||| (bits w (o + n) k) <<< n = bits w o (n + k) := by
  apply Nat.eq_of_testBit_eq
  intro i
  rw [Nat.testBit_or, Nat.testBit_shiftLeft, testBit_bits, testBit_bits, testBit_bits]
  by_cases hi : i < n
  · have hge : ¬n ≤ i := by omega
    have hlt : i < n + k := by omega
    simp [hi, hge, hlt]
  · have hge : n ≤ i := by omega
    have hiff : i - n < k ↔ i < n + k := by omega
    have hadd : o + n + (i - n) = o + i := by omega
    simp [hi, hge, hiff, hadd]

end BitFields
