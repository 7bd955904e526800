import Mathlib.Tactic

/-!
# Circular buffers

A buffer of `n` cells, written at `head` and read at `tail`, that is empty when the two are equal and full when `head`
is one behind.  So it has room for `n - 1` elements, and its `contents` are a first-in first-out queue of them.
-/

/-- The cells and the two positions. -/
structure Circular (α : Type) where
  buf : ℕ → α
  head : ℕ
  tail : ℕ

namespace Circular

/-- The position after `pos`. -/
def next (n pos : ℕ) : ℕ := (pos + 1) % n

variable {α : Type} {n : ℕ} {r : Circular α}

def push (n : ℕ) (r : Circular α) (x : α) : Circular α :=
  { r with buf := Function.update r.buf r.head x, head := next n r.head }

def pop (n : ℕ) (r : Circular α) : Circular α := { r with tail := next n r.tail }

/-- The positions are in the buffer. -/
structure Bounded (n : ℕ) (r : Circular α) : Prop where
  head : r.head < n
  tail : r.tail < n

/-- How many elements there are. -/
def length (n : ℕ) (r : Circular α) : ℕ := (r.head + n - r.tail) % n

/-- The elements, the oldest first. -/
def contents (n : ℕ) (r : Circular α) : List α := (List.range (length n r)).map fun i => r.buf ((r.tail + i) % n)

theorem next_lt (h : 0 < n) (pos : ℕ) : next n pos < n := Nat.mod_lt _ h

theorem next_eq {pos : ℕ} (h : pos < n) : next n pos = if pos + 1 < n then pos + 1 else 0 := by
  unfold next
  split
  · next hlt => exact Nat.mod_eq_of_lt hlt
  · next hge =>
    have heq : pos + 1 = n := by omega
    rw [heq, Nat.mod_self]

theorem add_mod_eq {a i : ℕ} (ha : a < n) (hi : i < n) : (a + i) % n = if a + i < n then a + i else a + i - n := by
  split
  · next hlt => exact Nat.mod_eq_of_lt hlt
  · next hge =>
    rw [Nat.mod_eq_sub_mod (by omega)]
    exact Nat.mod_eq_of_lt (by omega)

theorem Bounded.length_eq (h : Bounded n r) :
    r.length n = if r.tail ≤ r.head then r.head - r.tail else r.head + n - r.tail := by
  have hhead := h.head
  have htail := h.tail
  unfold length
  split
  · next hle =>
    have hsplit : r.head + n - r.tail = r.head - r.tail + n := by omega
    rw [hsplit, Nat.add_mod_right]
    exact Nat.mod_eq_of_lt (by omega)
  · exact Nat.mod_eq_of_lt (by omega)

theorem Bounded.push (h : Bounded n r) (x : α) : Bounded n (r.push n x) := ⟨next_lt (by have := h.head; omega) _, h.tail⟩

theorem Bounded.pop (h : Bounded n r) : Bounded n (r.pop n) := ⟨h.head, next_lt (by have := h.head; omega) _⟩

@[simp] theorem length_contents (n : ℕ) (r : Circular α) : (r.contents n).length = r.length n := by
  rw [contents, List.length_map, List.length_range]

/-- One cell is always left over. -/
theorem Bounded.length_contents_lt (h : Bounded n r) : (r.contents n).length < n := by
  have hhead := h.head
  rw [length_contents]
  exact Nat.mod_lt _ (by omega)

/-- `head == tail` -/
theorem Bounded.empty_iff (h : Bounded n r) : r.head = r.tail ↔ r.contents n = [] := by
  have hhead := h.head
  have htail := h.tail
  have hlen := h.length_eq
  rw [← List.length_eq_zero_iff, length_contents]
  split at hlen <;> omega

/-- `next (head) == tail` -/
theorem Bounded.full_iff (h : Bounded n r) : next n r.head = r.tail ↔ (r.contents n).length + 1 = n := by
  have hhead := h.head
  have htail := h.tail
  have hlen := h.length_eq
  rw [length_contents, next_eq hhead]
  split at hlen <;> split <;> omega

/-- **A new element comes behind the others.** -/
theorem Bounded.contents_push (h : Bounded n r) (hfull : next n r.head ≠ r.tail) (x : α) :
    (r.push n x).contents n = r.contents n ++ [x] := by
  have hhead := h.head
  have htail := h.tail
  have hlen := h.length_eq
  have hlen' : (r.push n x).length n = r.length n + 1 := by
    have hpush := (h.push x).length_eq
    have hnext : (r.push n x).head = next n r.head := rfl
    have hsame : (r.push n x).tail = r.tail := rfl
    have hpos := next_eq hhead
    rw [hnext, hsame] at hpush
    split at hlen <;> split at hpos <;> split at hpush <;> omega
  have hlast : (r.tail + r.length n) % n = r.head := by
    rw [add_mod_eq htail (by split at hlen <;> omega)]
    split at hlen <;> split <;> omega
  unfold contents
  rw [hlen', List.range_succ, List.map_append, List.map_singleton]
  congr 1
  · apply List.map_congr_left
    intro i hi
    rw [List.mem_range] at hi
    have hne : (r.tail + i) % n ≠ r.head := by
      rw [add_mod_eq htail (by split at hlen <;> omega)]
      split at hlen <;> split <;> omega
    exact Function.update_of_ne hne x r.buf
  · show [Function.update r.buf r.head x ((r.tail + r.length n) % n)] = [x]
    rw [hlast, Function.update_self]

/-- **The oldest element is the first that is read.** -/
theorem Bounded.contents_pop (h : Bounded n r) (hempty : r.head ≠ r.tail) :
    r.contents n = r.buf r.tail :: (r.pop n).contents n := by
  have hhead := h.head
  have htail := h.tail
  have hlen := h.length_eq
  have hnext := next_eq htail
  have hlen' : r.length n = (r.pop n).length n + 1 := by
    have hpop := h.pop.length_eq
    have hsame : (r.pop n).head = r.head := rfl
    have htail' : (r.pop n).tail = next n r.tail := rfl
    rw [hsame, htail', hnext] at hpop
    split at hlen <;> split at hpop <;> split at hpop <;> omega
  unfold contents
  rw [hlen', List.range_succ_eq_map, List.map_cons, List.map_map, Nat.add_zero, Nat.mod_eq_of_lt htail]
  congr 1
  apply List.map_congr_left
  intro i hi
  rw [List.mem_range] at hi
  have hpos : (r.tail + (i + 1)) % n = (next n r.tail + i) % n := by
    rw [next, Nat.mod_add_mod]
    congr 1
    omega
  exact congrArg r.buf hpos

end Circular
