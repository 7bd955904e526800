import Mathlib.Data.Nat.Digits.Lemmas
import Mathlib.Tactic

/-!
# Octal text

Numbers as octal digits in ASCII, padded with zeros to a width, and the value that a reader of such digits accumulates.
-/

namespace Octal

/-- The ASCII character of an octal digit. -/
def char (d : ℕ) : UInt8 := UInt8.ofNat (48 + d)

/-- The digits of `n`, the most significant one first, and at least `width` of them. -/
def digits (width n : ℕ) : List ℕ := (Nat.digits 8 n).reverse.leftpad width 0

/-- `"%0<width>o"` -/
def print (width n : ℕ) : List UInt8 := (digits width n).map char

/-- The number that digits read from left to right make of `v`. -/
def value (v : ℕ) (ds : List ℕ) : ℕ := ds.foldl (fun v d => v * 8 + d) v

theorem le_value (v : ℕ) (ds : List ℕ) : v ≤ value v ds := by
  induction ds generalizing v with
  | nil => exact le_rfl
  | cons d ds ih =>
    have h := ih (v * 8 + d)
    show v ≤ value (v * 8 + d) ds
    omega

theorem value_replicate (k : ℕ) (ds : List ℕ) : value 0 (List.replicate k 0 ++ ds) = value 0 ds := by
  induction k with
  | zero => rfl
  | succ k ih =>
    rw [List.replicate_succ, List.cons_append]
    exact ih

/-- **The digits of a number have its value.** -/
theorem value_digits (width n : ℕ) : value 0 (digits width n) = n := by
  unfold digits List.leftpad
  rw [value_replicate]
  have h := Nat.ofDigits_digits 8 n
  rw [Nat.ofDigits_eq_foldr] at h
  rw [value, List.foldl_reverse]
  have hstep : (fun (d v : ℕ) => v * 8 + d) = fun d v => ((d : ℕ) : ℕ) + 8 * v := by
    funext d v
    omega
  rw [hstep]
  exact h

theorem lt_of_mem_digits {width n d : ℕ} (h : d ∈ digits width n) : d < 8 := by
  unfold digits List.leftpad at h
  rw [List.mem_append, List.mem_reverse] at h
  rcases h with h | h
  · rw [List.eq_of_mem_replicate h]
    omega
  · exact Nat.digits_lt_base (by omega) h

theorem length_digits {width n : ℕ} (h : n < 8 ^ width) : (digits width n).length = width := by
  have hlen : (Nat.digits 8 n).length ≤ width := (Nat.digits_length_le_iff (by omega) n).mpr h
  unfold digits
  rw [List.length_leftpad, List.length_reverse]
  exact max_eq_left hlen

theorem length_print {width n : ℕ} (h : n < 8 ^ width) : (print width n).length = width := by
  rw [print, List.length_map, length_digits h]

end Octal
