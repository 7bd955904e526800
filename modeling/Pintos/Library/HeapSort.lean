import Mathlib.Tactic

/-!
# Heap sort

The order of a comparison function (`Comparison`), the heaps that it makes of the places `1 … cnt` of an array, and what
the steps of heap sort do to them.  The places `2 * k` and `2 * k + 1` are below `k`.

* A heap with one place out of order (`Sifting`) is put right by exchanging this place with the greater one of those
  below it, again and again (`Sifting.exchange`, `Sifting.heapFrom`).
* Sorting takes the root off the heap and puts it in front of what is sorted (`Sorting.step`).

All that happens to the array is that places are exchanged (`Rearranged`).
-/

/-- A comparison function that returns a number below, equal to or above zero. -/
structure Comparison (α : Type) where
  compare : α → α → ℤ
  sign : ∀ a b, compare a b < 0 ↔ 0 < compare b a
  trans : ∀ a b c, compare a b ≤ 0 → compare b c ≤ 0 → compare a c ≤ 0

namespace Comparison

variable {α : Type} (c : Comparison α) {x y z : α}

/-- `x` comes before `y` or is equal to it. -/
def AtMost (x y : α) : Prop := c.compare x y ≤ 0

instance decidableAtMost (x y : α) : Decidable (c.AtMost x y) := inferInstanceAs (Decidable (c.compare x y ≤ 0))

theorem not_atMost : ¬c.AtMost x y ↔ 0 < c.compare x y := Int.not_le

theorem atMost_of_pos (h : 0 < c.compare x y) : c.AtMost y x := ((c.sign y x).mpr h).le

theorem atMost_refl (x : α) : c.AtMost x x := by
  by_contra h
  exact h (c.atMost_of_pos (c.not_atMost.mp h))

theorem AtMost.trans {c : Comparison α} (h : c.AtMost x y) (h' : c.AtMost y z) : c.AtMost x z := c.trans x y z h h'

theorem atMost_of_nonneg (h : 0 ≤ c.compare x y) : c.AtMost y x := by
  by_contra hnot
  have hneg := (c.sign x y).mpr (c.not_atMost.mp hnot)
  omega

/-- What comes before a greater key comes before it. -/
theorem compare_pos_of_atMost (h : 0 < c.compare x y) (h' : c.AtMost z y) : 0 < c.compare x z := by
  by_contra hle
  have hxy : c.AtMost x y := AtMost.trans (Int.not_lt.mp hle) h'
  exact absurd h (Int.not_lt.mpr hxy)

/-- What comes behind a smaller key comes behind it. -/
theorem compare_neg_of_atMost (h : c.compare x y < 0) (h' : c.AtMost y z) : c.compare x z < 0 := by
  by_contra hge
  have hzx : c.AtMost z x := c.atMost_of_nonneg (Int.not_lt.mp hge)
  have hyx : c.AtMost y x := h'.trans hzx
  have hpos := (c.sign x y).mp h
  exact absurd hpos (Int.not_lt.mpr hyx)

end Comparison

namespace HeapSort

variable {α : Type} {c : Comparison α} {A B C : ℕ → α} {cnt n lo i j k : ℕ}

/-! ## Exchanges -/

/-- The places `1 … cnt` in another order. -/
def Rearranged (cnt : ℕ) (A B : ℕ → α) : Prop :=
  ∃ e : Equiv.Perm ℕ, (∀ k, k = 0 ∨ cnt < k → e k = k) ∧ B = A ∘ e

theorem Rearranged.refl (cnt : ℕ) (A : ℕ → α) : Rearranged cnt A A := ⟨Equiv.refl ℕ, fun _ _ => rfl, rfl⟩

theorem Rearranged.trans (h : Rearranged cnt A B) (h' : Rearranged cnt B C) : Rearranged cnt A C := by
  obtain ⟨e, hfix, rfl⟩ := h
  obtain ⟨e', hfix', rfl⟩ := h'
  refine ⟨e'.trans e, fun k hk => ?_, rfl⟩
  rw [Equiv.trans_apply, hfix' k hk, hfix k hk]

theorem Rearranged.mono (h : Rearranged n A B) (hle : n ≤ cnt) : Rearranged cnt A B := by
  obtain ⟨e, hfix, hB⟩ := h
  exact ⟨e, fun k hk => hfix k (by omega), hB⟩

theorem rearranged_swap (A : ℕ → α) (hi : 0 < i) (hi' : i ≤ cnt) (hj : 0 < j) (hj' : j ≤ cnt) :
    Rearranged cnt A (A ∘ Equiv.swap i j) :=
  ⟨Equiv.swap i j, fun _ _ => Equiv.swap_apply_of_ne_of_ne (by omega) (by omega), rfl⟩

theorem Rearranged.outside (h : Rearranged cnt A B) (hk : k = 0 ∨ cnt < k) : B k = A k := by
  obtain ⟨e, hfix, rfl⟩ := h
  rw [Function.comp_apply, hfix k hk]

/-- What stands at a place has come from a place. -/
theorem Rearranged.source (h : Rearranged cnt A B) (hk : 0 < k) (hk' : k ≤ cnt) :
    ∃ j, 0 < j ∧ j ≤ cnt ∧ B k = A j := by
  obtain ⟨e, hfix, rfl⟩ := h
  have hin : ¬(e k = 0 ∨ cnt < e k) := by
    intro hout
    have heq := e.injective (hfix (e k) hout)
    omega
  exact ⟨e k, by omega, by omega, rfl⟩

/-- The places `1 … cnt` as a list. -/
def toList (cnt : ℕ) (A : ℕ → α) : List α := (List.range' 1 cnt).map A

theorem mem_places : k ∈ List.range' 1 cnt ↔ 0 < k ∧ k ≤ cnt := by
  rw [List.mem_range'_1]
  omega

theorem getElem?_toList {x : α} : (toList cnt A)[i]? = some x ↔ i + 1 ≤ cnt ∧ A (i + 1) = x := by
  rw [toList, List.getElem?_map, Option.map_eq_some_iff]
  constructor
  · rintro ⟨k, hk, rfl⟩
    obtain ⟨hi, heq⟩ := List.getElem?_eq_some_iff.mp hk
    rw [List.getElem_range', Nat.one_mul, Nat.add_comm] at heq
    rw [List.length_range'] at hi
    exact ⟨hi, by rw [heq]⟩
  · rintro ⟨hi, rfl⟩
    refine ⟨i + 1, ?_, rfl⟩
    rw [List.getElem?_range' hi, Nat.one_mul, Nat.add_comm]

theorem pairwise_toList {r : α → α → Prop} :
    (toList cnt A).Pairwise r ↔ ∀ i j, 0 < i → i < j → j ≤ cnt → r (A i) (A j) := by
  rw [toList, List.pairwise_map]
  constructor
  · intro h i j hi hij hj
    have hget := List.pairwise_iff_getElem.mp h (i - 1) (j - 1) (by rw [List.length_range']; omega)
      (by rw [List.length_range']; omega) (by omega)
    rw [List.getElem_range', List.getElem_range'] at hget
    rwa [show 1 + 1 * (i - 1) = i by omega, show 1 + 1 * (j - 1) = j by omega] at hget
  · intro h
    apply (List.pairwise_lt_range' (s := 1) (n := cnt)).imp_of_mem
    intro i j hi hj hij
    exact h i j (mem_places.mp hi).1 hij (mem_places.mp hj).2

theorem Rearranged.perm (h : Rearranged cnt A B) : (toList cnt B).Perm (toList cnt A) := by
  obtain ⟨e, hfix, rfl⟩ := h
  -- the places are only numbered in another way
  have hnodup : (List.range' 1 cnt).Nodup := List.nodup_range'
  have hplaces : ((List.range' 1 cnt).map e).Perm (List.range' 1 cnt) := by
    apply (List.perm_ext_iff_of_nodup (hnodup.map e.injective) hnodup).mpr
    intro k
    rw [List.mem_map]
    constructor
    · rintro ⟨j, hj, rfl⟩
      rw [mem_places] at hj ⊢
      by_contra hout
      have heq := e.injective (hfix (e j) (by omega))
      rw [heq] at hout
      exact hout hj
    · intro hk
      refine ⟨e.symm k, ?_, e.apply_symm_apply k⟩
      rw [mem_places] at hk ⊢
      by_contra hout
      have heq := hfix (e.symm k) (by omega)
      rw [e.apply_symm_apply] at heq
      rw [← heq] at hout
      exact hout hk
  rw [toList, ← List.map_map]
  exact hplaces.map A

/-! ## Heaps -/

/-- The places from `lo` on are not smaller than those below them. -/
def HeapFrom (c : Comparison α) (A : ℕ → α) (lo cnt : ℕ) : Prop :=
  ∀ k ≤ cnt, lo ≤ k / 2 → c.AtMost (A k) (A (k / 2))

/-- The same but for the place `i`. -/
structure Sifting (c : Comparison α) (A : ℕ → α) (lo cnt i : ℕ) : Prop where
  others : ∀ k ≤ cnt, lo ≤ k / 2 → k / 2 ≠ i → c.AtMost (A k) (A (k / 2))
  across : ∀ k ≤ cnt, k / 2 = i → lo ≤ i / 2 → c.AtMost (A k) (A (i / 2))

theorem heapFrom_half (A : ℕ → α) (cnt : ℕ) : HeapFrom c A (cnt / 2 + 1) cnt := by
  intro k hk hlo
  have hle : k / 2 ≤ cnt / 2 := Nat.div_le_div_right hk
  omega

/-- One place more. -/
theorem HeapFrom.sifting (h : HeapFrom c A (i + 1) cnt) (hi : 0 < i) : Sifting c A i cnt i where
  others k hk hlo hne := h k hk (by omega)
  across k _ _ hlo := by omega

/-- The place is exchanged with a place below it that is as great as the others there, and greater than it. -/
theorem Sifting.exchange (h : Sifting c A lo cnt i) (hlo : 0 < lo) (hi : lo ≤ i) (hj : j ≤ cnt) (hji : j / 2 = i)
    (hmax : ∀ k ≤ cnt, k / 2 = i → c.AtMost (A k) (A j)) (hle : c.AtMost (A i) (A j)) :
    Sifting c (A ∘ Equiv.swap i j) lo cnt j where
  others k hk hlok hne := by
    simp only [Function.comp_apply]
    by_cases hki : k / 2 = i
    · rw [hki, Equiv.swap_apply_left]
      by_cases hkj : k = j
      · rw [hkj, Equiv.swap_apply_right]
        exact hle
      · rw [Equiv.swap_apply_of_ne_of_ne (by omega) hkj]
        exact hmax k hk hki
    · rw [Equiv.swap_apply_of_ne_of_ne hki hne]
      by_cases hkeq : k = i
      · subst hkeq
        rw [Equiv.swap_apply_left]
        exact h.across j hj hji hlok
      · rw [Equiv.swap_apply_of_ne_of_ne hkeq (by rintro rfl; exact hki hji)]
        exact h.others k hk hlok hki
  across k hk hkj hloj := by
    have hkj' : k ≠ j := by omega
    have hki' : k ≠ i := by omega
    simp only [Function.comp_apply]
    rw [hji, Equiv.swap_apply_left, Equiv.swap_apply_of_ne_of_ne hki' hkj']
    have hother := h.others k hk (by omega) (by omega)
    rwa [hkj] at hother

/-- The place is as great as those below it. -/
theorem Sifting.heapFrom (h : Sifting c A lo cnt i) (hmax : ∀ k ≤ cnt, k / 2 = i → c.AtMost (A k) (A i)) :
    HeapFrom c A lo cnt := by
  intro k hk hlo
  by_cases hki : k / 2 = i
  · rw [hki]
    exact hmax k hk hki
  · exact h.others k hk hlo hki

/-- The root is as great as any. -/
theorem HeapFrom.root (h : HeapFrom c A 1 cnt) (hk : 0 < k) (hk' : k ≤ cnt) : c.AtMost (A k) (A 1) := by
  induction k using Nat.strongRecOn with
  | ind k ih =>
    by_cases hone : k = 1
    · rw [hone]
      exact c.atMost_refl (A 1)
    · have hup := ih (k / 2) (by omega) (by omega) (by omega)
      exact (h k hk' (by omega)).trans hup

/-- The greater one of two places, if the first is one of the heap. -/
def larger (c : Comparison α) (A : ℕ → α) (cnt k j : ℕ) : ℕ :=
  if k ≤ cnt ∧ 0 < c.compare (A k) (A j) then k else j

theorem larger_eq_or (c : Comparison α) (A : ℕ → α) (cnt k j : ℕ) :
    k ≤ cnt ∧ larger c A cnt k j = k ∨ larger c A cnt k j = j := by
  unfold larger
  split
  · case isTrue h => exact Or.inl ⟨h.1, rfl⟩
  · exact Or.inr rfl

theorem atMost_larger_right (k j : ℕ) : c.AtMost (A j) (A (larger c A cnt k j)) := by
  unfold larger
  split
  · case isTrue h => exact c.atMost_of_pos h.2
  · exact c.atMost_refl (A j)

theorem atMost_larger_left (hk : k ≤ cnt) (j : ℕ) : c.AtMost (A k) (A (larger c A cnt k j)) := by
  unfold larger
  split
  · exact c.atMost_refl (A k)
  · case isFalse h => exact not_not.mp fun hnot => h ⟨hk, c.not_atMost.mp hnot⟩

/-- The greatest one of a place and the two below it. -/
def greatest (c : Comparison α) (A : ℕ → α) (cnt i : ℕ) : ℕ :=
  larger c A cnt (2 * i + 1) (larger c A cnt (2 * i) i)

theorem greatest_eq_or (c : Comparison α) (A : ℕ → α) (cnt i : ℕ) :
    greatest c A cnt i = i ∨ greatest c A cnt i ≤ cnt ∧ greatest c A cnt i / 2 = i := by
  unfold greatest
  rcases larger_eq_or c A cnt (2 * i + 1) (larger c A cnt (2 * i) i) with ⟨hle, heq⟩ | heq
  · rw [heq]
    exact Or.inr ⟨hle, by omega⟩
  · rw [heq]
    rcases larger_eq_or c A cnt (2 * i) i with ⟨hle, heq'⟩ | heq'
    · rw [heq']
      exact Or.inr ⟨hle, by omega⟩
    · exact Or.inl heq'

theorem atMost_greatest (i : ℕ) : c.AtMost (A i) (A (greatest c A cnt i)) :=
  (atMost_larger_right (2 * i) i).trans (atMost_larger_right (2 * i + 1) _)

theorem atMost_greatest_below (hk : k ≤ cnt) (hki : k / 2 = i) : c.AtMost (A k) (A (greatest c A cnt i)) := by
  rcases Nat.mod_two_eq_zero_or_one k with hmod | hmod
  · obtain rfl : k = 2 * i := by omega
    exact (atMost_larger_left hk i).trans (atMost_larger_right (2 * i + 1) _)
  · obtain rfl : k = 2 * i + 1 := by omega
    exact atMost_larger_left hk _

/-! ## Sorting -/

/-- A heap, and behind it what is sorted and as great as the heap. -/
structure Sorting (c : Comparison α) (A : ℕ → α) (n cnt : ℕ) : Prop where
  heap : HeapFrom c A 1 n
  above : ∀ i j, 0 < i → i ≤ n → n < j → j ≤ cnt → c.AtMost (A i) (A j)
  sorted : ∀ i j, n < i → i ≤ j → j ≤ cnt → c.AtMost (A i) (A j)

theorem HeapFrom.sorting (h : HeapFrom c A 1 cnt) : Sorting c A cnt cnt where
  heap := h
  above i j _ _ hj hj' := by omega
  sorted i j hi hij hj := by omega

/-- The root goes to the end of the heap. -/
theorem HeapFrom.sifting_root (h : HeapFrom c A 1 n) (hn : 1 < n) :
    Sifting c (A ∘ Equiv.swap 1 n) 1 (n - 1) 1 where
  others k hk hlo hne := by
    simp only [Function.comp_apply]
    rw [Equiv.swap_apply_of_ne_of_ne (by omega) (by omega), Equiv.swap_apply_of_ne_of_ne hne (by omega)]
    exact h k (by omega) hlo
  across k _ _ hlo := by omega

/-- The root has gone to the end of the heap, and the others are a heap again. -/
theorem Sorting.step (h : Sorting c A n cnt) (hn : 1 < n)
    (hB : Rearranged (n - 1) (A ∘ Equiv.swap 1 n) B) (hheap : HeapFrom c B 1 (n - 1)) : Sorting c B (n - 1) cnt := by
  have hlast : B n = A 1 := by
    rw [hB.outside (Or.inr (by omega)), Function.comp_apply, Equiv.swap_apply_right]
  have hbehind : ∀ j, n < j → B j = A j := by
    intro j hj
    rw [hB.outside (Or.inr (by omega)), Function.comp_apply, Equiv.swap_apply_of_ne_of_ne (by omega) (by omega)]
  have hfront : ∀ i, 0 < i → i ≤ n - 1 → ∃ k, 0 < k ∧ k ≤ n ∧ B i = A k := by
    intro i hi hi'
    obtain ⟨k, hk, hk', heq⟩ := hB.source hi hi'
    obtain ⟨k', hpos, hle', heq'⟩ :=
      (rearranged_swap A Nat.one_pos hn.le (Nat.lt_trans Nat.one_pos hn) le_rfl).source hk (show k ≤ n by omega)
    exact ⟨k', hpos, hle', heq.trans heq'⟩
  constructor
  · exact hheap
  · intro i j hi hi' hj hj'
    obtain ⟨k, hk, hk', heq⟩ := hfront i hi hi'
    rw [heq]
    by_cases hjn : j = n
    · rw [hjn, hlast]
      exact h.heap.root hk hk'
    · rw [hbehind j (by omega)]
      exact h.above k j hk hk' (by omega) hj'
  · intro i j hi hij hj
    by_cases hin : i = n
    · rw [hin, hlast]
      by_cases hjn : j = n
      · rw [hjn, hlast]
        exact c.atMost_refl (A 1)
      · rw [hbehind j (by omega)]
        exact h.above 1 j Nat.one_pos hn.le (by omega) hj
    · rw [hbehind i (by omega), hbehind j (by omega)]
      exact h.sorted i j (by omega) hij hj

/-- With one place left in the heap, everything is sorted. -/
theorem Sorting.pairwise (h : Sorting c A n cnt) (hn : n ≤ 1) : (toList cnt A).Pairwise c.AtMost := by
  rw [pairwise_toList]
  intro i j hi hij hj
  by_cases hin : i ≤ n
  · exact h.above i j hi hin (by omega) hj
  · exact h.sorted i j (by omega) hij.le hj

end HeapSort
