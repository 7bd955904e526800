import Pintos.Library.Bytes

/-!
# Packed structures

Members of a structure without gaps, as ranges of the block that holds it.  `store` puts bytes at the start of a member,
`strlcpy` a string that is cut to what fits with its terminator.  A store changes no member that is apart from its own.
-/

/-- A member of a packed structure: its offset and its size. -/
structure Member where
  ofs : ℕ
  size : ℕ
  deriving DecidableEq

/-- The two have no byte in common. -/
def Member.Apart (m m' : Member) : Prop := m.ofs + m.size ≤ m'.ofs ∨ m'.ofs + m'.size ≤ m.ofs

instance (m m' : Member) : Decidable (m.Apart m') := inferInstanceAs (Decidable (_ ∨ _))

/-- The string at the start of an array of characters. -/
def cString (l : List UInt8) : List UInt8 := l.takeWhile fun c => c != 0

theorem cString_append {s l : List UInt8} (h : 0 ∉ s) : cString (s ++ 0 :: l) = s := by
  induction s with
  | nil => rfl
  | cons c s ih =>
    have hc : c ≠ 0 := fun hc => h (hc ▸ List.mem_cons_self)
    have hs := ih fun hs => h (List.mem_cons_of_mem c hs)
    rw [List.cons_append, cString, List.takeWhile_cons_of_pos (by simpa using hc)]
    exact congrArg (c :: ·) hs

namespace Block

variable {n : ℕ} {b : Block n} {m m' : Member} {s : List UInt8}

/-- The bytes of a member. -/
def field (b : Block n) (m : Member) : List UInt8 := Bytes.slice b.get m.ofs m.size

/-- The bytes `s` at the start of a member. -/
def store (b : Block n) (m : Member) (s : List UInt8) : Block n := b.splice m.ofs s.length fun i => s.getD i 0

/-- `strlcpy (b->m, s, sizeof b->m)` -/
def strlcpy (b : Block n) (m : Member) (s : List UInt8) : Block n := b.store m (s.take (m.size - 1) ++ [0])

@[simp] theorem length_field (b : Block n) (m : Member) : (b.field m).length = m.size := Bytes.slice_length _ _ _

theorem getElem?_field {i : ℕ} (h : i < m.size) : (b.field m)[i]? = some (b.get (m.ofs + i)) := Bytes.slice_get h

theorem get_store_outside {i : ℕ} (h : i < m.ofs ∨ m.ofs + s.length ≤ i) : (b.store m s).get i = b.get i := by
  by_cases hi : i < n
  · rw [store, get_splice hi, Bytes.splice_outside h]
  · rw [get_of_ge (by omega), get_of_ge (by omega)]

/-- A store leaves the other members alone. -/
theorem field_store_ne (hs : s.length ≤ m.size) (h : m.Apart m') : (b.store m s).field m' = b.field m' := by
  apply Bytes.slice_congr
  intro i hi
  apply get_store_outside
  unfold Member.Apart at h
  omega

theorem field_store_singleton_ne {c : UInt8} (hm : 0 < m.size) (h : m.Apart m') :
    (b.store m [c]).field m' = b.field m' := field_store_ne hm h

/-- A store replaces the start of its member. -/
theorem field_store (hs : s.length ≤ m.size) (hm : m.ofs + m.size ≤ n) :
    (b.store m s).field m = s ++ (b.field m).drop s.length := by
  apply List.ext_getElem?
  intro i
  by_cases hi : i < m.size
  · rw [getElem?_field hi]
    by_cases hin : i < s.length
    · rw [List.getElem?_append_left hin, store, get_splice (by omega),
        Bytes.splice_inside (by omega) (by omega), Nat.add_sub_cancel_left, List.getElem?_eq_getElem hin]
      simp [hin]
    · rw [List.getElem?_append_right (by omega), List.getElem?_drop, Nat.add_sub_cancel' (by omega),
        getElem?_field hi, get_store_outside (by omega)]
  · rw [List.getElem?_eq_none (by simpa using hi), List.getElem?_eq_none]
    rw [List.length_append, List.length_drop, length_field]
    omega

theorem field_store_all (hs : s.length = m.size) (hm : m.ofs + m.size ≤ n) : (b.store m s).field m = s := by
  have hdrop : (b.field m).drop s.length = [] := List.drop_eq_nil_of_le (by rw [length_field, hs])
  rw [field_store (le_of_eq hs) hm, hdrop, List.append_nil]

theorem length_strlcpy (hm : 0 < m.size) : (s.take (m.size - 1) ++ [0]).length ≤ m.size := by
  rw [List.length_append, List.length_take, List.length_singleton]
  omega

theorem field_strlcpy_ne (hm : 0 < m.size) (h : m.Apart m') : (b.strlcpy m s).field m' = b.field m' :=
  field_store_ne (length_strlcpy hm) h

/-- A string that fits, copied into a member of zeros. -/
theorem field_strlcpy (hs : s.length < m.size) (hm : m.ofs + m.size ≤ n) (hz : b.field m = List.replicate m.size 0) :
    (b.strlcpy m s).field m = s ++ List.replicate (m.size - s.length) 0 := by
  have htake : s.take (m.size - 1) = s := List.take_of_length_le (by omega)
  have hlen : (s ++ [(0 : UInt8)]).length ≤ m.size := by
    rw [List.length_append, List.length_singleton]
    omega
  rw [strlcpy, htake, field_store hlen hm, hz, List.drop_replicate, List.length_append, List.length_singleton]
  have hrep : m.size - s.length = m.size - (s.length + 1) + 1 := by omega
  rw [hrep, List.replicate_succ, List.append_assoc, List.singleton_append]

theorem field_zero (m : Member) : (zero : Block n).field m = List.replicate m.size 0 := by
  apply List.ext_getElem?
  intro i
  by_cases hi : i < m.size
  · rw [getElem?_field hi, get_zero, List.getElem?_replicate, if_pos hi]
  · rw [List.getElem?_eq_none (by simpa using hi), List.getElem?_eq_none (by simpa using hi)]

end Block
