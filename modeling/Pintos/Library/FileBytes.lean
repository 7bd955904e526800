import Pintos.Library.Bytes

/-!
# Growable byte strings

What the callers of a byte-addressed file see of it: a string that is read from an offset on, and that
a write past its end extends, filling the gap with zeros.
-/

namespace FileBytes

/-- At most `size` bytes from `offset` on. -/
def read (l : List UInt8) (offset size : ℕ) : List UInt8 := (l.drop offset).take size

/-- The bytes `b` are stored at `offset`; a gap behind the old end reads as zeros. -/
def write (l : List UInt8) (offset : ℕ) (b : List UInt8) : List UInt8 :=
  let l := l ++ List.replicate (offset - l.length) 0
  l.take offset ++ b ++ l.drop (offset + b.length)

@[simp] theorem length_read (l : List UInt8) (offset size : ℕ) :
    (read l offset size).length = min size (l.length - offset) := by
  simp [read]

theorem getElem?_read {l : List UInt8} {offset size i : ℕ} (h : i < size) :
    (read l offset size)[i]? = l[offset + i]? := by
  rw [read, List.getElem?_take_of_lt h, List.getElem?_drop]

theorem length_write (l : List UInt8) (offset : ℕ) (b : List UInt8) :
    (write l offset b).length = max l.length (offset + b.length) := by
  simp only [write, List.length_append, List.length_take, List.length_drop, List.length_replicate]
  omega

/-- What a write leaves at a position of the new string. -/
theorem getElem?_write {l b : List UInt8} {offset i : ℕ} (h : i < max l.length (offset + b.length)) :
    (write l offset b)[i]? =
      some (if offset ≤ i ∧ i < offset + b.length then (b[i - offset]?).getD 0 else (l[i]?).getD 0) := by
  set l' := l ++ List.replicate (offset - l.length) (0 : UInt8) with hl'
  have hlen : l'.length = max l.length offset := by
    rw [hl', List.length_append, List.length_replicate]
    omega
  have hget : ∀ j, j < l'.length → l'[j]? = some ((l[j]?).getD 0) := by
    intro j hj
    rw [hl']
    by_cases hjl : j < l.length
    · rw [List.getElem?_append_left hjl, List.getElem?_eq_getElem hjl]
      rfl
    · rw [List.getElem?_append_right (by omega), List.getElem?_replicate, if_pos (by omega),
        List.getElem?_eq_none (by omega)]
      rfl
  show (l'.take offset ++ b ++ l'.drop (offset + b.length))[i]? = _
  have htake : (l'.take offset).length = offset := by
    rw [List.length_take]
    omega
  by_cases hlo : i < offset
  · rw [List.append_assoc, List.getElem?_append_left (by omega), List.getElem?_take_of_lt hlo,
      hget i (by omega), if_neg (by omega)]
  · by_cases hhi : i < offset + b.length
    · rw [List.append_assoc, List.getElem?_append_right (by omega), htake,
        List.getElem?_append_left (by omega), if_pos ⟨by omega, hhi⟩,
        List.getElem?_eq_getElem (by omega)]
      rfl
    · rw [List.getElem?_append_right (by rw [List.length_append]; omega), List.length_append, htake,
        List.getElem?_drop, if_neg (by omega)]
      rw [show offset + b.length + (i - (offset + b.length)) = i by omega, hget i (by omega)]

theorem slice_read (f : ℕ → UInt8) (len offset size : ℕ) :
    Bytes.slice f offset (min size (len - offset)) = read (Bytes.slice f 0 len) offset size := by
  unfold Bytes.slice read
  refine List.ext_getElem ?_ fun i h₁ h₂ => ?_
  · simp
  · simp

/-- A write into the bytes of a file is a write of the string they form. -/
theorem slice_write {f g : ℕ → UInt8} {len offset size : ℕ} (hz : ∀ pos, len ≤ pos → f pos = 0) :
    Bytes.slice (Bytes.splice f offset size g) 0 (max len (offset + size)) =
      write (Bytes.slice f 0 len) offset (Bytes.slice g 0 size) := by
  refine List.ext_getElem? fun i => ?_
  by_cases hi : i < max len (offset + size)
  · rw [Bytes.slice_get hi, getElem?_write (by simpa using hi), Bytes.slice_length, Nat.zero_add,
      Bytes.splice]
    by_cases hin : offset ≤ i ∧ i < offset + size
    · rw [if_pos hin, if_pos hin, Bytes.slice_get (by omega), Nat.zero_add]
      rfl
    · rw [if_neg hin, if_neg hin]
      by_cases hlen : i < len
      · rw [Bytes.slice_get hlen, Nat.zero_add]
        rfl
      · rw [hz i (by omega), List.getElem?_eq_none (by rw [Bytes.slice_length]; omega)]
        rfl
  · rw [List.getElem?_eq_none (by rw [Bytes.slice_length]; omega),
      List.getElem?_eq_none (by rw [length_write, Bytes.slice_length, Bytes.slice_length]; omega)]

end FileBytes
