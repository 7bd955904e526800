import Mathlib.Tactic

/-!
# Arrays in memory

A `Region` is the memory from the address of an array on: the `size` entries of the array, and behind them
what happens to lie there.  A read sees all of it; a store has to hit the array.

A run of stores is an equation between lists: what it stores stands between the entries in front of it and
those behind it (`behind_puts`).
-/

structure Region (α : Type) (base size : ℕ) where
  cells : List α
  room : size ≤ cells.length

namespace Region

variable {α : Type} {base size : ℕ} {r r' : Region α base size} {a a' : ℕ} {v : α} {vs : List α}

/-- An array that starts with the entries of a list and goes on with one value. -/
def starting (l : List α) (v : α) : Region α base size where
  cells := l ++ List.replicate (size - l.length) v
  room := by rw [List.length_append, List.length_replicate]; omega

/-- What is in memory from an address on. -/
def behind (r : Region α base size) (a : ℕ) : List α := r.cells.drop (a - base)

/-- The entry at an address; there is none behind the end of the memory. -/
def get (r : Region α base size) (a : ℕ) : Option α := if base ≤ a then r.cells[a - base]? else none

/-- A store. -/
def put (r : Region α base size) (a : ℕ) (v : α) : Option (Region α base size) :=
  if base ≤ a ∧ a < base + size then some ⟨r.cells.set (a - base) v, by simpa using r.room⟩ else none

/-- Stores at addresses that follow one another. -/
def puts (r : Region α base size) (a : ℕ) : List α → Option (Region α base size)
  | [] => some r
  | v :: vs => (r.put a v).bind fun r => r.puts (a + 1) vs

theorem ext {r r' : Region α base size} (h : r.cells = r'.cells) : r = r' := by
  cases r
  cases r'
  cases h
  rfl

@[simp] theorem behind_base (r : Region α base size) : r.behind base = r.cells := by simp [behind]

theorem get_of_behind {l : List α} (ha : base ≤ a) (h : r.behind a = v :: l) : r.get a = some v := by
  have hget : (r.behind a)[0]? = some v := by rw [h]; rfl
  rw [behind, List.getElem?_drop, Nat.add_zero] at hget
  rw [get, if_pos ha, hget]

theorem behind_eq_cons (h : r.get a = some v) : r.behind a = v :: r.behind (a + 1) := by
  unfold get at h
  split at h
  · case isTrue ha =>
    obtain ⟨hlt, hv⟩ := List.getElem?_eq_some_iff.mp h
    rw [behind, List.drop_eq_getElem_cons hlt, hv, behind]
    congr 2
    omega
  · cases h

theorem get_add (ha : base ≤ a) (i : ℕ) : r.get (a + i) = (r.behind a)[i]? := by
  rw [get, if_pos (by omega), behind, List.getElem?_drop]
  congr 1
  omega

theorem behind_add (ha : base ≤ a) (n : ℕ) : r.behind (a + n) = (r.behind a).drop n := by
  rw [behind, behind, List.drop_drop]
  congr 1
  omega

/-- Entries read one by one. -/
theorem behind_of_get (h : ∀ i < vs.length, r.get (a + i) = vs[i]?) :
    r.behind a = vs ++ r.behind (a + vs.length) := by
  induction vs generalizing a with
  | nil => rfl
  | cons v vs ih =>
    have hhead : r.get a = some v := h 0 (Nat.succ_pos _)
    have htail : ∀ i < vs.length, r.get (a + 1 + i) = vs[i]? := by
      intro i hi
      rw [Nat.add_assoc, Nat.add_comm 1 i, h (i + 1) (Nat.succ_lt_succ hi), List.getElem?_cons_succ]
    rw [behind_eq_cons hhead, ih htail, List.length_cons, List.cons_append, Nat.add_assoc, Nat.add_comm 1]

/-! ## One store -/

theorem put_isSome : (r.put a v).isSome = true ↔ base ≤ a ∧ a < base + size := by
  unfold put
  split
  · case isTrue h => exact ⟨fun _ => h, fun _ => rfl⟩
  · case isFalse h => exact ⟨fun hsome => absurd hsome Bool.false_ne_true, fun h' => absurd h' h⟩

theorem put_eq_none : r.put a v = none ↔ ¬(base ≤ a ∧ a < base + size) := by
  rw [← put_isSome (r := r) (v := v), Option.not_isSome_iff_eq_none]

theorem put_of_mem (r : Region α base size) (v : α) (h : base ≤ a) (h' : a < base + size) : ∃ r', r.put a v = some r' :=
  Option.isSome_iff_exists.mp (put_isSome.mpr ⟨h, h'⟩)

/-- A store goes to the array, and it changes one entry. -/
theorem put_eq (h : r.put a v = some r') :
    base ≤ a ∧ a < base + size ∧ r'.cells = r.cells.set (a - base) v := by
  obtain ⟨hlo, hhi⟩ := put_isSome.mp (Option.isSome_of_eq_some h)
  rw [put, if_pos ⟨hlo, hhi⟩] at h
  cases h
  exact ⟨hlo, hhi, rfl⟩

@[simp] theorem length_put (h : r.put a v = some r') : r'.cells.length = r.cells.length := by
  rw [(put_eq h).2.2, List.length_set]

theorem get_put_self (h : r.put a v = some r') : r'.get a = some v := by
  obtain ⟨hlo, hhi, hcells⟩ := put_eq h
  have hroom := r.room
  rw [get, if_pos hlo, hcells, List.getElem?_set_self (by omega)]

theorem get_put_ne (h : r.put a v = some r') (hne : a' ≠ a) : r'.get a' = r.get a' := by
  obtain ⟨hlo, hhi, hcells⟩ := put_eq h
  unfold get
  split
  · rw [hcells, List.getElem?_set_ne (by omega)]
  · rfl

/-- A store changes nothing of what lies behind it. -/
theorem behind_put (h : r.put a v = some r') (hlt : a < a') : r'.behind a' = r.behind a' := by
  obtain ⟨hlo, hhi, hcells⟩ := put_eq h
  rw [behind, hcells, List.drop_set_of_lt (by omega), behind]

/-- What a store leaves from its own address on. -/
theorem behind_put_self (h : r.put a v = some r') : r'.behind a = v :: r.behind (a + 1) := by
  rw [behind_eq_cons (get_put_self h), behind_put h (Nat.lt_succ_self a)]

/-! ## Stores that follow one another -/

theorem puts_singleton (r : Region α base size) (a : ℕ) (v : α) : r.puts a [v] = r.put a v := by
  cases hput : r.put a v with
  | none => rw [puts, hput]; rfl
  | some r' => rw [puts, hput]; rfl

theorem puts_append (vs ws : List α) :
    r.puts a (vs ++ ws) = (r.puts a vs).bind fun r => r.puts (a + vs.length) ws := by
  induction vs generalizing r a with
  | nil => rfl
  | cons v vs ih =>
    rw [List.cons_append, puts, puts, Option.bind_assoc]
    congr 1
    funext r
    rw [ih, List.length_cons, show a + 1 + vs.length = a + (vs.length + 1) by omega]

theorem puts_isSome :
    (r.puts a vs).isSome = true ↔ vs = [] ∨ (base ≤ a ∧ a + vs.length ≤ base + size) := by
  induction vs generalizing r a with
  | nil => exact ⟨fun _ => Or.inl rfl, fun _ => rfl⟩
  | cons v vs ih =>
    rw [puts, List.length_cons]
    by_cases hmem : base ≤ a ∧ a < base + size
    · obtain ⟨r', hput⟩ := put_of_mem r v hmem.1 hmem.2
      rw [hput, Option.bind_some, ih]
      constructor
      · rintro (rfl | ⟨_, hhi⟩)
        · exact Or.inr ⟨hmem.1, by simp only [List.length_nil]; omega⟩
        · exact Or.inr ⟨hmem.1, by omega⟩
      · rintro (hnil | ⟨_, hhi⟩)
        · exact absurd hnil (List.cons_ne_nil v vs)
        · exact Or.inr ⟨by omega, by omega⟩
    · rw [put_eq_none.mpr hmem]
      constructor
      · intro h
        exact absurd h Bool.false_ne_true
      · rintro (hnil | ⟨hlo, hhi⟩)
        · exact absurd hnil (List.cons_ne_nil v vs)
        · exact absurd ⟨hlo, by omega⟩ hmem

theorem puts_of_le (r : Region α base size) (vs : List α) (hlo : base ≤ a) (hhi : a + vs.length ≤ base + size) :
    ∃ r', r.puts a vs = some r' :=
  Option.isSome_iff_exists.mp (puts_isSome.mpr (Or.inr ⟨hlo, hhi⟩))

theorem length_puts (h : r.puts a vs = some r') : r'.cells.length = r.cells.length := by
  induction vs generalizing r a with
  | nil => cases h; rfl
  | cons v vs ih =>
    obtain ⟨r₁, hput, hputs⟩ := Option.bind_eq_some_iff.mp h
    rw [ih hputs, length_put hput]

/-- Stores change nothing in front of them. -/
theorem get_puts_lt (h : r.puts a vs = some r') (hlt : a' < a) : r'.get a' = r.get a' := by
  induction vs generalizing r a with
  | nil => cases h; rfl
  | cons v vs ih =>
    obtain ⟨r₁, hput, hputs⟩ := Option.bind_eq_some_iff.mp h
    rw [ih hputs (by omega), get_put_ne hput (by omega)]

/-- What stores leave from their own address on. -/
theorem behind_puts (h : r.puts a vs = some r') (ha : base ≤ a) :
    r'.behind a = vs ++ r.behind (a + vs.length) := by
  induction vs generalizing r a with
  | nil => cases h; rfl
  | cons v vs ih =>
    obtain ⟨r₁, hput, hputs⟩ := Option.bind_eq_some_iff.mp h
    have hhead : r'.get a = some v := by rw [get_puts_lt hputs (by omega), get_put_self hput]
    rw [behind_eq_cons hhead, ih hputs (by omega), behind_put hput (by omega), List.length_cons,
      List.cons_append, show a + 1 + vs.length = a + (vs.length + 1) by omega]

end Region
