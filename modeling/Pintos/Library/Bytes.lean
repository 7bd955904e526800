import Mathlib.Tactic

/-!
# Bytes, little-endian words and fixed-size blocks

Memory is read as a function from offsets to bytes.  `le32` reads a little-endian 32-bit word,
`splice` overwrites a range, `slice` cuts a range out as a list, and `Block n` is a buffer of exactly
`n` bytes with word access.
-/

namespace Bytes

/-- The little-endian 32-bit word at an offset. -/
def le32 (b : ℕ → UInt8) (ofs : ℕ) : ℕ :=
  (b ofs).toNat + 256 * (b (ofs + 1)).toNat + 65536 * (b (ofs + 2)).toNat +
    16777216 * (b (ofs + 3)).toNat

/-- Byte `i` of the little-endian form of `v`. -/
def leByte (v i : ℕ) : UInt8 := UInt8.ofNat (v / 256 ^ i)

/-- `b` with the `len` bytes from `ofs` on replaced by those of `src`. -/
def splice (b : ℕ → UInt8) (ofs len : ℕ) (src : ℕ → UInt8) : ℕ → UInt8 :=
  fun i => if ofs ≤ i ∧ i < ofs + len then src (i - ofs) else b i

/-- The `n` bytes from `ofs` on. -/
def slice (b : ℕ → UInt8) (ofs n : ℕ) : List UInt8 :=
  (List.range n).map fun i => b (ofs + i)

theorem le32_lt (b : ℕ → UInt8) (ofs : ℕ) : le32 b ofs < 2 ^ 32 := by
  have h0 := (b ofs).toNat_lt
  have h1 := (b (ofs + 1)).toNat_lt
  have h2 := (b (ofs + 2)).toNat_lt
  have h3 := (b (ofs + 3)).toNat_lt
  unfold le32
  omega

theorem le32_congr {b b' : ℕ → UInt8} {ofs ofs' : ℕ} (h : ∀ i, i < 4 → b (ofs + i) = b' (ofs' + i)) :
    le32 b ofs = le32 b' ofs' := by
  have h0 := h 0 (by omega)
  have h1 := h 1 (by omega)
  have h2 := h 2 (by omega)
  have h3 := h 3 (by omega)
  simp only [Nat.add_zero] at h0
  simp only [le32, h0, h1, h2, h3]

/-- Writing a word and reading it back. -/
theorem le32_leByte {b : ℕ → UInt8} {ofs v : ℕ} (hv : v < 2 ^ 32)
    (h : ∀ i, i < 4 → b (ofs + i) = leByte v i) : le32 b ofs = v := by
  have h0 := h 0 (by omega)
  have h1 := h 1 (by omega)
  have h2 := h 2 (by omega)
  have h3 := h 3 (by omega)
  simp only [Nat.add_zero] at h0
  simp only [le32, h0, h1, h2, h3, leByte, UInt8.toNat_ofNat', pow_zero, Nat.div_one]
  omega

@[simp] theorem splice_inside {b : ℕ → UInt8} {ofs len i : ℕ} {src : ℕ → UInt8} (h : ofs ≤ i)
    (h' : i < ofs + len) : splice b ofs len src i = src (i - ofs) := if_pos ⟨h, h'⟩

theorem splice_outside {b : ℕ → UInt8} {ofs len i : ℕ} {src : ℕ → UInt8}
    (h : i < ofs ∨ ofs + len ≤ i) : splice b ofs len src i = b i := if_neg (by omega)

@[simp] theorem slice_length (b : ℕ → UInt8) (ofs n : ℕ) : (slice b ofs n).length = n := by
  simp [slice]

@[simp] theorem slice_zero (b : ℕ → UInt8) (ofs : ℕ) : slice b ofs 0 = [] := rfl

theorem slice_get {b : ℕ → UInt8} {ofs n i : ℕ} (h : i < n) :
    (slice b ofs n)[i]? = some (b (ofs + i)) := by
  simp [slice, h]

/-- Two adjacent ranges. -/
theorem slice_add (b : ℕ → UInt8) (ofs m n : ℕ) :
    slice b ofs (m + n) = slice b ofs m ++ slice b (ofs + m) n := by
  simp [slice, List.range_add, Function.comp_def, Nat.add_assoc]

theorem slice_congr {b b' : ℕ → UInt8} {ofs ofs' n : ℕ}
    (h : ∀ i, i < n → b (ofs + i) = b' (ofs' + i)) : slice b ofs n = slice b' ofs' n := by
  unfold slice
  refine List.map_congr_left fun i hi => h i ?_
  simpa using hi

/-- `f` with its first bytes replaced by those of a list, as a read into a buffer leaves it. -/
def overlay (l : List UInt8) (f : ℕ → UInt8) : ℕ → UInt8 :=
  fun i => (l[i]?).getD (f i)

theorem overlay_slice {b f : ℕ → UInt8} {ofs n i : ℕ} (h : i < n) :
    overlay (slice b ofs n) f i = b (ofs + i) := by
  simp [overlay, slice_get h]

end Bytes

/-- A buffer of `n` bytes. -/
def Block (n : ℕ) : Type := Fin n → UInt8

namespace Block

open Bytes

variable {n : ℕ}

/-- The byte at an offset; there is none at or past `n`. -/
def get (b : Block n) (i : ℕ) : UInt8 := if h : i < n then b ⟨i, h⟩ else 0

/-- The block with given bytes. -/
def mk (f : ℕ → UInt8) : Block n := fun i => f i.val

def zero : Block n := mk fun _ => 0

@[simp] theorem get_mk {f : ℕ → UInt8} {i : ℕ} (h : i < n) : (mk f : Block n).get i = f i := by
  simp [get, mk, h]

theorem get_of_ge {b : Block n} {i : ℕ} (h : n ≤ i) : b.get i = 0 := by
  simp [get, Nat.not_lt.mpr h]

@[simp] theorem get_zero (i : ℕ) : (zero : Block n).get i = 0 := by
  by_cases h : i < n
  · simp [zero, h]
  · exact get_of_ge (by omega)

@[ext] theorem ext {a b : Block n} (h : ∀ i, i < n → a.get i = b.get i) : a = b := by
  funext i
  have := h i.val i.isLt
  simpa [get] using this

@[simp] theorem mk_get (b : Block n) : mk b.get = b := Block.ext fun _ hi => get_mk hi

/-- The block with a range of bytes replaced. -/
def splice (b : Block n) (ofs len : ℕ) (src : ℕ → UInt8) : Block n :=
  mk (Bytes.splice b.get ofs len src)

@[simp] theorem get_splice {b : Block n} {ofs len i : ℕ} {src : ℕ → UInt8} (h : i < n) :
    (b.splice ofs len src).get i = Bytes.splice b.get ofs len src i := get_mk h

/-- Word `k` of a block, as in an array of 32-bit words. -/
def word (b : Block n) (k : ℕ) : ℕ := le32 b.get (4 * k)

def setWord (b : Block n) (k v : ℕ) : Block n := b.splice (4 * k) 4 (leByte v)

theorem word_lt (b : Block n) (k : ℕ) : b.word k < 2 ^ 32 := le32_lt _ _

theorem word_setWord_same {b : Block n} {k v : ℕ} (hk : 4 * k + 4 ≤ n) (hv : v < 2 ^ 32) :
    (b.setWord k v).word k = v := by
  refine le32_leByte hv fun i hi => ?_
  rw [setWord, get_splice (by omega), splice_inside (by omega) (by omega)]
  congr 1
  omega

theorem get_setWord_ne {b : Block n} {k v i : ℕ} (h : i < 4 * k ∨ 4 * k + 4 ≤ i) :
    (b.setWord k v).get i = b.get i := by
  by_cases hi : i < n
  · rw [setWord, get_splice hi, splice_outside h]
  · rw [get_of_ge (by omega), get_of_ge (by omega)]

theorem word_setWord_ne {b : Block n} {k j v : ℕ} (h : j ≠ k) :
    (b.setWord k v).word j = b.word j :=
  le32_congr fun i hi => get_setWord_ne (by omega)

theorem word_setWord {b : Block n} {k j v : ℕ} (hk : 4 * k + 4 ≤ n) (hv : v < 2 ^ 32) :
    (b.setWord k v).word j = if j = k then v else b.word j := by
  split
  · next h => rw [h, word_setWord_same hk hv]
  · next h => exact word_setWord_ne h

@[simp] theorem word_zero (k : ℕ) : (zero : Block n).word k = 0 := by
  simp [word, le32]

/-- Writing back the word that is there changes nothing. -/
theorem setWord_word (b : Block n) (k : ℕ) : b.setWord k (b.word k) = b := by
  refine Block.ext fun i hi => ?_
  by_cases h : 4 * k ≤ i ∧ i < 4 * k + 4
  · obtain ⟨j, rfl⟩ : ∃ j, i = 4 * k + j := ⟨i - 4 * k, by omega⟩
    rw [setWord, get_splice hi, splice_inside h.1 h.2, Nat.add_sub_cancel_left, leByte, word, le32]
    have h0 := (b.get (4 * k)).toNat_lt
    have h1 := (b.get (4 * k + 1)).toNat_lt
    have h2 := (b.get (4 * k + 2)).toNat_lt
    have h3 := (b.get (4 * k + 3)).toNat_lt
    have hj : j = 0 ∨ j = 1 ∨ j = 2 ∨ j = 3 := by omega
    rw [← UInt8.toNat_inj, UInt8.toNat_ofNat']
    rcases hj with rfl | rfl | rfl | rfl <;> norm_num <;> omega
  · exact get_setWord_ne (by omega)

/-- The bytes of equal words are equal. -/
theorem get_eq_of_word {a b : Block n} {k i : ℕ} (h : a.word k = b.word k) (hi : 4 * k ≤ i) (hi' : i < 4 * k + 4)
    (hn : i < n) : a.get i = b.get i := by
  rw [← setWord_word a k, ← setWord_word b k, setWord, setWord, get_splice hn, get_splice hn, splice_inside hi hi',
    splice_inside hi hi', h]

end Block

/-! ### Signed 32-bit integers -/

/-- The value of a 32-bit word read as a signed integer. -/
def toInt32 (v : ℕ) : ℤ := if v < 2 ^ 31 then v else v - 2 ^ 32

/-- The 32-bit word that holds a signed integer. -/
def ofInt32 (z : ℤ) : ℕ := (z % 2 ^ 32).toNat

/-- The result of a signed 32-bit operation: reduction into `[-2^31, 2^31)`. -/
def wrap32 (z : ℤ) : ℤ := toInt32 (ofInt32 z)

theorem ofInt32_lt (z : ℤ) : ofInt32 z < 2 ^ 32 := by
  unfold ofInt32
  omega

theorem toInt32_ofInt32 {z : ℤ} (h : -2 ^ 31 ≤ z) (h' : z < 2 ^ 31) : toInt32 (ofInt32 z) = z := by
  unfold toInt32 ofInt32
  split <;> omega

theorem wrap32_of_mem {z : ℤ} (h : -2 ^ 31 ≤ z) (h' : z < 2 ^ 31) : wrap32 z = z :=
  toInt32_ofInt32 h h'

/-- The reduction brings no number farther from 0. -/
theorem abs_wrap32_le (z : ℤ) : |wrap32 z| ≤ |z| := by
  have hpos := le_abs_self z
  have hneg := neg_le_abs z
  apply abs_le.mpr
  unfold wrap32 toInt32 ofInt32
  split <;> omega

theorem toInt32_bounds {v : ℕ} (h : v < 2 ^ 32) : -2 ^ 31 ≤ toInt32 v ∧ toInt32 v < 2 ^ 31 := by
  unfold toInt32
  split <;> omega
