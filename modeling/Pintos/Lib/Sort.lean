import Pintos.Lib.BlockMoves
import Pintos.Library.HeapSort

/-!
# Heap sort and binary search

`sort` and `binary_search` of `project5/src/lib/stdlib.c` on the bytes of an array in memory, with the pointer and index
arithmetic of 32 bits.  The comparison function is given the two elements that its pointers lead to.  A run ends at an
assertion that fails and at an access to memory that is not mapped; `fuel` bounds the rounds of the loops that have no
counter.
-/

namespace Pintos.Lib.Sort

open BlockMoves

/-! ## The code -/

/-- An element of `size` bytes. -/
abbrev Elem (size : Word) := List.Vector UInt8 size.toNat

/-- `array + (idx - 1) * size` -/
def element (array idx size : Word) : Word := array + (idx - 1) * size

/-- A round of the loop of `do_swap`. -/
def swapByte (a b : Word) (m : Bytes) (i : ℕ) : Option Bytes := do
  let t ← m.entry a i
  let m ← m.store (a + BitVec.ofNat 32 i) (← m.entry b i)
  m.store (b + BitVec.ofNat 32 i) t

/-- `do_swap (array, a_idx, b_idx, size)` -/
def doSwap (m : Bytes) (array aIdx bIdx size : Word) : Option Bytes :=
  (List.range size.toNat).foldlM (swapByte (element array aIdx size) (element array bIdx size)) m

section Compare

variable {size : Word} (compare : Elem size → Elem size → ℤ)

/-- `compare (a, b, aux)` -/
def comparePtrs (m : Bytes) (a b : Word) : Option ℤ := do
  return compare (← m.block a size.toNat) (← m.block b size.toNat)

/-- `do_compare (array, a_idx, b_idx, size, compare, aux)` -/
def doCompare (m : Bytes) (array aIdx bIdx : Word) : Option ℤ :=
  comparePtrs compare m (element array aIdx size) (element array bIdx size)

/-- `if (idx <= cnt && do_compare (array, idx, max, size, compare, aux) > 0) max = idx;` -/
def largerIdx (m : Bytes) (array cnt idx max : Word) : Option Word :=
  if idx ≤ cnt then do return if 0 < (← doCompare compare m array idx max) then idx else max
  else some max

/-- `heapify (array, i, cnt, size, compare, aux)` -/
def heapify (array cnt : Word) : ℕ → Bytes → Word → Option Bytes
  | 0, _, _ => none
  | fuel + 1, m, i => do
    let left := 2 * i
    let right := 2 * i + 1
    let max ← largerIdx compare m array cnt left i
    let max ← largerIdx compare m array cnt right max
    if max = i then return m
    let m ← doSwap m array i max size
    heapify array cnt fuel m max

/-- `for (i = cnt / 2; i > 0; i--)` -/
def buildHeap (fuel : ℕ) (array cnt : Word) : ℕ → Bytes → Option Bytes
  | 0, m => some m
  | i + 1, m => do
    let m ← heapify compare array cnt fuel m (BitVec.ofNat 32 (i + 1))
    buildHeap fuel array cnt i m

/-- `for (i = cnt; i > 1; i--)` -/
def sortHeap (fuel : ℕ) (array : Word) : ℕ → Bytes → Option Bytes
  | 0, m => some m
  | 1, m => some m
  | i + 2, m => do
    let m ← doSwap m array 1 (BitVec.ofNat 32 (i + 2)) size
    let m ← heapify compare array (BitVec.ofNat 32 (i + 2) - 1) fuel m 1
    sortHeap fuel array (i + 1) m

/-- `sort (array, cnt, size, compare, aux)` -/
def sort (fuel : ℕ) (m : Bytes) (array cnt : Word) : Option Bytes := do
  guard (array ≠ 0 ∨ cnt = 0)
  guard (0 < size)
  let m ← buildHeap compare fuel array cnt (cnt / 2).toNat m
  sortHeap compare fuel array cnt.toNat m

/-- The loop of `binary_search`. -/
def searchLoop (m : Bytes) (key : Word) : ℕ → Word → Word → Option Word
  | 0, _, _ => none
  | fuel + 1, first, last =>
    if first < last then do
      let range := (last - first) / size
      let middle := first + range / 2 * size
      let cmp ← comparePtrs compare m key middle
      if cmp < 0 then searchLoop m key fuel first middle
      else if 0 < cmp then searchLoop m key fuel (middle + size) last
      else return middle
    else some 0

/-- `binary_search (key, array, cnt, size, compare, aux)` -/
def binarySearch (fuel : ℕ) (m : Bytes) (key array cnt : Word) : Option Word :=
  searchLoop compare m key fuel array (array + size * cnt)

end Compare

/-! ## Exchanging two blocks -/

variable {m m' m₁ : Bytes} {a b array x : Word} {n i j k : ℕ}

/-- The first `n` bytes of two blocks have been exchanged. -/
structure Swapped (m m' : Bytes) (a b : Word) (n : ℕ) : Prop where
  left : ∀ i < n, m'.entry a i = m.entry b i
  right : ∀ i < n, m'.entry b i = m.entry a i
  frame : ∀ x, Memory.Outside x a n → Memory.Outside x b n → m'.cells x = m.cells x

/-- The bytes of two blocks are apart. -/
def Apart (a b : Word) (n : ℕ) : Prop := ∀ i < n, ∀ j < n, a + BitVec.ofNat 32 i ≠ b + BitVec.ofNat 32 j

theorem Apart.left (h : Apart a b n) (hi : i < n) : Memory.Outside (a + BitVec.ofNat 32 i) b n :=
  fun j hj => h i hi j hj

theorem Apart.right (h : Apart a b n) (hj : j < n) : Memory.Outside (b + BitVec.ofNat 32 j) a n :=
  fun i hi => (h i hi j hj).symm

/-- The bytes behind them are exchanged as well. -/
theorem Swapped.snoc {m₂ : Bytes} {t v : UInt8} (h : Swapped m m₁ a b n) (ht : m.entry a n = some t)
    (hv : m.entry b n = some v) (hstore : m₁.store (a + BitVec.ofNat 32 n) v = some m₂)
    (hstore' : m₂.store (b + BitVec.ofNat 32 n) t = some m') (ha : Memory.Outside (a + BitVec.ofNat 32 n) a n)
    (hb : Memory.Outside (b + BitVec.ofNat 32 n) b n) (hab : Apart a b (n + 1)) : Swapped m m' a b (n + 1) where
  left i hi := by
    rw [Memory.entry, Memory.cells_store_ne hstore' (hab i hi n (Nat.lt_succ_self n))]
    rcases Nat.lt_succ_iff_lt_or_eq.mp hi with hlt | rfl
    · rw [Memory.cells_store_ne hstore (ha i hlt).symm]
      exact h.left i hlt
    · rw [Memory.cells_store_self hstore, hv]
  right i hi := by
    rcases Nat.lt_succ_iff_lt_or_eq.mp hi with hlt | rfl
    · rw [Memory.entry, Memory.cells_store_ne hstore' (hb i hlt).symm,
        Memory.cells_store_ne hstore (hab.right hi n (Nat.lt_succ_self n))]
      exact h.right i hlt
    · rw [Memory.entry, Memory.cells_store_self hstore', ht]
  frame x hx hx' := by
    rw [Memory.cells_store_ne hstore' (hx' n (Nat.lt_succ_self n)),
      Memory.cells_store_ne hstore (hx n (Nat.lt_succ_self n))]
    exact h.frame x (fun i hi => hx i (Nat.lt_succ_of_lt hi)) fun i hi => hx' i (Nat.lt_succ_of_lt hi)

theorem swapBytes_swapped (ha : m.Mapped a n) (hb : m.Mapped b n) (hab : Apart a b n) :
    ∃ m', (List.range n).foldlM (swapByte a b) m = some m' ∧ Swapped m m' a b n := by
  induction n with
  | zero =>
    refine ⟨m, rfl, ?_, ?_, fun _ _ _ => rfl⟩
    · exact fun i hi => absurd hi (Nat.not_lt_zero i)
    · exact fun i hi => absurd hi (Nat.not_lt_zero i)
  | succ n ih =>
    obtain ⟨hlastA, ha'⟩ := Memory.mapped_last.mp ha
    obtain ⟨hlastB, hb'⟩ := Memory.mapped_last.mp hb
    have hab' : Apart a b n := fun i hi j hj => hab i (Nat.lt_succ_of_lt hi) j (Nat.lt_succ_of_lt hj)
    obtain ⟨m₁, hfold, hsw⟩ := ih ha' hb' hab'
    obtain ⟨t, ht⟩ := Option.isSome_iff_exists.mp hlastA
    obtain ⟨v, hv⟩ := Option.isSome_iff_exists.mp hlastB
    have houtA : Memory.Outside (a + BitVec.ofNat 32 n) a n :=
      ha'.outside (Or.inr (ha.toNat_offset (Nat.lt_succ_self n)).ge)
    have houtB : Memory.Outside (b + BitVec.ofNat 32 n) b n :=
      hb'.outside (Or.inr (hb.toNat_offset (Nat.lt_succ_self n)).ge)
    -- the bytes at `n` are still what they were
    have htA : m₁.entry a n = some t := by
      rw [Memory.entry, hsw.frame _ houtA fun j hj => hab n (Nat.lt_succ_self n) j (Nat.lt_succ_of_lt hj)]
      exact ht
    have hvB : m₁.entry b n = some v := by
      rw [Memory.entry, hsw.frame _ (fun i hi => (hab i (Nat.lt_succ_of_lt hi) n (Nat.lt_succ_self n)).symm) houtB]
      exact hv
    obtain ⟨m₂, hstore⟩ := Memory.store_of_isSome v (Option.isSome_of_eq_some htA)
    have hmapped : (m₂.cells (b + BitVec.ofNat 32 n)).isSome = true := by
      rw [Memory.isSome_store hstore]
      exact Option.isSome_of_eq_some hvB
    obtain ⟨m', hstore'⟩ := Memory.store_of_isSome t hmapped
    refine ⟨m', ?_, hsw.snoc ht hv hstore hstore' houtA houtB hab⟩
    rw [List.range_succ, List.foldlM_append, hfold, Option.bind_eq_bind, Option.bind_some, List.foldlM_cons]
    simp only [swapByte, htA, hvB, hstore, hstore', Option.bind_eq_bind, Option.bind_some, List.foldlM_nil]
    rfl

/-! ## The elements of an array -/

/-- Where the element `k` begins. -/
def place (array : Word) (size k : ℕ) : Word := array + BitVec.ofNat 32 ((k - 1) * size)

theorem element_eq {idx size : Word} (hidx : idx.toNat = k) (hk : 0 < k) :
    element array idx size = place array size.toNat k := by
  have hone : (1 : Word) ≤ idx := by
    rw [BitVec.le_def, hidx]
    exact hk
  have hpred : (idx - 1).toNat = k - 1 := by
    rw [BitVec.toNat_sub_of_le hone, hidx]
    rfl
  rw [element, place]
  congr 1
  apply BitVec.eq_of_toNat_eq
  rw [BitVec.toNat_mul, BitVec.toNat_ofNat, hpred]

theorem place_offset (array : Word) (size k i : ℕ) :
    place array size k + BitVec.ofNat 32 i = array + BitVec.ofNat 32 ((k - 1) * size + i) :=
  Memory.offset_offset array _ i

theorem place_lt {cnt size : ℕ} (hk : 0 < k) (hk' : k ≤ cnt) (hi : i < size) : (k - 1) * size + i < cnt * size := by
  calc (k - 1) * size + i < (k - 1) * size + size := Nat.add_lt_add_left hi _
    _ = (k - 1 + 1) * size := (Nat.succ_mul (k - 1) size).symm
    _ ≤ cnt * size := Nat.mul_le_mul_right size (by omega)

theorem place_inj {size p q : ℕ} (hp : p < size) (hq : q < size) (h : j * size + p = k * size + q) : j = k := by
  have hdiv : ∀ i r : ℕ, r < size → (i * size + r) / size = i := by
    intro i r hr
    rw [Nat.add_comm, Nat.add_mul_div_right _ _ (Nat.zero_lt_of_lt hr), Nat.div_eq_of_lt hr, Nat.zero_add]
  rw [← hdiv j p hp, h, hdiv k q hq]

variable {size : Word} {A B : ℕ → Elem size} {cnt : ℕ}

/-- The elements of an array. -/
structure Contents (m : Bytes) (array : Word) (cnt : ℕ) (A : ℕ → Elem size) : Prop where
  block : ∀ k, 0 < k → k ≤ cnt → m.block (place array size.toNat k) size.toNat = some (A k)
  sizePos : 0 < size.toNat

/-- Nothing but the array has changed. -/
def OnlyArray (m m' : Bytes) (array : Word) (n : ℕ) : Prop := ∀ x, Memory.Outside x array n → m'.cells x = m.cells x

theorem OnlyArray.trans (h : OnlyArray m m₁ array n) (h' : OnlyArray m₁ m' array n) : OnlyArray m m' array n :=
  fun x hx => (h' x hx).trans (h x hx)

theorem Contents.mappedPlace (h : Contents m array cnt A) (hk : 0 < k) (hk' : k ≤ cnt) :
    m.Mapped (place array size.toNat k) size.toNat :=
  Memory.block_isSome.mp (Option.isSome_of_eq_some (h.block k hk hk'))

theorem Contents.mapped (h : Contents m array cnt A) : m.Mapped array (cnt * size.toNat) := by
  intro p hp
  have hk : p / size.toNat + 1 ≤ cnt := Nat.div_lt_of_lt_mul (by rwa [Nat.mul_comm])
  have hentry := h.mappedPlace (Nat.zero_lt_succ _) hk (p % size.toNat) (Nat.mod_lt p h.sizePos)
  rwa [Memory.entry, place_offset, Nat.succ_sub_one, Nat.div_add_mod'] at hentry

/-- The bytes of two elements are apart. -/
theorem Contents.apart (h : Contents m array cnt A) (hj : 0 < j) (hj' : j ≤ cnt) (hk : 0 < k) (hk' : k ≤ cnt)
    (hne : j ≠ k) : Apart (place array size.toNat j) (place array size.toNat k) size.toNat := by
  intro p hp q hq heq
  rw [place_offset, place_offset] at heq
  have hplace := congrArg BitVec.toNat heq
  rw [h.mapped.toNat_offset (place_lt hj hj' hp), h.mapped.toNat_offset (place_lt hk hk' hq)] at hplace
  have hsame : j - 1 = k - 1 := place_inj hp hq (Nat.add_left_cancel hplace)
  omega

theorem Contents.outside (hk : 0 < k) (hk' : k ≤ cnt) (hx : Memory.Outside x array (cnt * size.toNat)) :
    Memory.Outside x (place array size.toNat k) size.toNat := by
  intro i hi
  rw [place_offset]
  exact hx _ (place_lt hk hk' hi)

/-- `do_swap` exchanges two elements. -/
theorem doSwap_contents {aIdx bIdx : Word} {i j : ℕ} (h : Contents m array cnt A) (ha : aIdx.toNat = i)
    (hb : bIdx.toNat = j) (hi : 0 < i) (hi' : i ≤ cnt) (hj : 0 < j) (hj' : j ≤ cnt) (hne : i ≠ j) :
    ∃ m', doSwap m array aIdx bIdx size = some m' ∧ Contents m' array cnt (A ∘ Equiv.swap i j) ∧
      OnlyArray m m' array (cnt * size.toNat) := by
  obtain ⟨m', hfold, hsw⟩ :=
    swapBytes_swapped (h.mappedPlace hi hi') (h.mappedPlace hj hj') (h.apart hi hi' hj hj' hne)
  refine ⟨m', ?_, ⟨fun k hk hk' => ?_, h.sizePos⟩, fun x hx => ?_⟩
  · rw [doSwap, element_eq ha hi, element_eq hb hj, hfold]
  · rw [Function.comp_apply]
    by_cases hki : k = i
    · rw [hki, Equiv.swap_apply_left, Memory.block_congr hsw.left]
      exact h.block j hj hj'
    · by_cases hkj : k = j
      · rw [hkj, Equiv.swap_apply_right, Memory.block_congr hsw.right]
        exact h.block i hi hi'
      · rw [Equiv.swap_apply_of_ne_of_ne hki hkj, ← h.block k hk hk']
        apply Memory.block_congr
        intro p hp
        exact hsw.frame _ ((h.apart hk hk' hi hi' hki).left hp) ((h.apart hk hk' hj hj' hkj).left hp)
  · exact hsw.frame x (Contents.outside hi hi' hx) (Contents.outside hj hj' hx)

/-! ## Sifting -/

variable {c : Comparison (Elem size)}

open HeapSort

theorem comparePtrs_eq (compare : Elem size → Elem size → ℤ) {x y : Elem size} (hx : m.block a size.toNat = some x)
    (hy : m.block b size.toNat = some y) : comparePtrs compare m a b = some (compare x y) := by
  rw [comparePtrs, hx, hy]
  rfl

/-- The index that is kept is that of the greater element. -/
theorem largerIdx_eq {idx max last : Word} (h : Contents m array cnt A) (hlast : last.toNat ≤ cnt)
    (hidx : idx.toNat = k) (hk : 0 < k) (hmax : max.toNat = j) (hj : 0 < j) (hj' : j ≤ cnt) :
    ∃ w, largerIdx c.compare m array last idx max = some w ∧ w.toNat = larger c A last.toNat k j := by
  unfold largerIdx larger
  by_cases hle : k ≤ last.toNat
  · have hle' : idx ≤ last := by rwa [BitVec.le_def, hidx]
    have hcompare : doCompare c.compare m array idx max = some (c.compare (A k) (A j)) := by
      rw [doCompare, element_eq hidx hk, element_eq hmax hj]
      exact comparePtrs_eq c.compare (h.block k hk (by omega)) (h.block j hj hj')
    rw [if_pos hle', hcompare]
    by_cases hpos : 0 < c.compare (A k) (A j)
    · exact ⟨idx, by simp only [Option.bind_eq_bind, Option.bind_some, if_pos hpos, Option.pure_def],
        by rw [if_pos ⟨hle, hpos⟩, hidx]⟩
    · exact ⟨max, by simp only [Option.bind_eq_bind, Option.bind_some, if_neg hpos, Option.pure_def],
        by rw [if_neg fun hboth => hpos hboth.2, hmax]⟩
  · have hle' : ¬idx ≤ last := by rwa [BitVec.le_def, hidx]
    exact ⟨max, by rw [if_neg hle'], by rw [if_neg fun hboth => hle hboth.1, hmax]⟩

/-- `heapify` puts a place right: what it works on is a heap again, made of the same elements. -/
theorem heapify_heapFrom {fuel lo : ℕ} {last i : Word} (h : Contents m array cnt A) (hlast : last.toNat ≤ cnt)
    (hbound : last.toNat < 2 ^ 31) (hi : i.toNat = k) (hlo : 0 < lo) (hk : lo ≤ k) (hk' : k ≤ last.toNat)
    (hfuel : last.toNat < fuel + k) (hsift : Sifting c A lo last.toNat k) :
    ∃ m' B, heapify c.compare array last fuel m i = some m' ∧ Contents m' array cnt B ∧
      HeapFrom c B lo last.toNat ∧ Rearranged last.toNat A B ∧ OnlyArray m m' array (cnt * size.toNat) := by
  induction fuel generalizing m A i k with
  | zero => omega
  | succ fuel ih =>
    have hleft : (2 * i).toNat = 2 * k := by
      rw [BitVec.toNat_mul, hi]
      show 2 * k % 2 ^ 32 = 2 * k
      exact Nat.mod_eq_of_lt (by omega)
    have hright : (2 * i + 1).toNat = 2 * k + 1 := by
      rw [BitVec.toNat_add, hleft]
      show (2 * k + 1) % 2 ^ 32 = 2 * k + 1
      exact Nat.mod_eq_of_lt (by omega)
    obtain ⟨max₁, hmax₁, hval₁⟩ :=
      largerIdx_eq (c := c) h hlast hleft (by omega) hi (by omega) (by omega)
    have hpos₁ : 0 < larger c A last.toNat (2 * k) k ∧ larger c A last.toNat (2 * k) k ≤ cnt := by
      rcases larger_eq_or c A last.toNat (2 * k) k with ⟨hle, heq⟩ | heq <;> omega
    obtain ⟨max₂, hmax₂, hval₂⟩ :=
      largerIdx_eq (c := c) h hlast hright (by omega) hval₁ hpos₁.1 hpos₁.2
    have hgreatest : max₂.toNat = greatest c A last.toNat k := hval₂
    have hbody : heapify c.compare array last (fuel + 1) m i =
        if max₂ = i then some m
        else (doSwap m array i max₂ size).bind fun m => heapify c.compare array last fuel m max₂ := by
      rw [heapify]
      simp only [hmax₁, hmax₂, Option.bind_eq_bind, Option.bind_some, Option.pure_def]
    rw [hbody]
    by_cases hdone : max₂ = i
    · refine ⟨m, A, if_pos hdone, h, ?_, Rearranged.refl _ A, fun _ _ => rfl⟩
      have hself : greatest c A last.toNat k = k := by rw [← hgreatest, hdone, hi]
      apply hsift.heapFrom
      intro k' hle hbelow
      have hmost := atMost_greatest_below (c := c) (A := A) hle hbelow
      rwa [hself] at hmost
    · rcases greatest_eq_or c A last.toNat k with hself | ⟨hle, hbelow⟩
      · exact absurd (BitVec.eq_of_toNat_eq (by rw [hgreatest, hself, hi])) hdone
      · have hne : k ≠ greatest c A last.toNat k := by omega
        obtain ⟨m₁, hswap, hcontents, honly⟩ :=
          doSwap_contents h hi hgreatest (by omega) (by omega) (by omega) (by omega) hne
        have hnext := hsift.exchange hlo hk hle hbelow (fun k' hk' => atMost_greatest_below hk')
          (atMost_greatest k)
        obtain ⟨m', B, hrest, hB, hheap, hre, honly'⟩ :=
          ih hcontents hgreatest (by omega) hle (by omega) hnext
        refine ⟨m', B, ?_, hB, hheap, ?_, honly.trans honly'⟩
        · rw [if_neg hdone, hswap, Option.bind_some, hrest]
        · exact (rearranged_swap A (by omega) hk' (by omega) hle).trans hre

/-! ## Sorting -/

/-- The first loop of `sort` makes a heap of the array. -/
theorem buildHeap_heapFrom {fuel : ℕ} {last : Word} (h : Contents m array cnt A) (hlast : last.toNat = cnt)
    (hbound : cnt < 2 ^ 31) (hfuel : cnt ≤ fuel) (hi : i ≤ cnt) (hheap : HeapFrom c A (i + 1) cnt) :
    ∃ m' B, buildHeap c.compare fuel array last i m = some m' ∧ Contents m' array cnt B ∧ HeapFrom c B 1 cnt ∧
      Rearranged cnt A B ∧ OnlyArray m m' array (cnt * size.toNat) := by
  induction i generalizing m A with
  | zero => exact ⟨m, A, rfl, h, hheap, Rearranged.refl cnt A, fun _ _ => rfl⟩
  | succ i ih =>
    have hidx : (BitVec.ofNat 32 (i + 1)).toNat = i + 1 := by
      rw [BitVec.toNat_ofNat]
      exact Nat.mod_eq_of_lt (by omega)
    have hsift : Sifting c A (i + 1) last.toNat (i + 1) := by
      rw [hlast]
      exact hheap.sifting (Nat.succ_pos i)
    have hrounds : last.toNat < fuel + (i + 1) := by omega
    obtain ⟨m₁, B, hheapify, hB, hheapB, hre, honly⟩ :=
      heapify_heapFrom h hlast.le (by omega) hidx (Nat.succ_pos i) le_rfl (by omega) hrounds hsift
    rw [hlast] at hheapB hre
    obtain ⟨m', C, hbuild, hC, hheapC, hre', honly'⟩ := ih hB (by omega) hheapB
    refine ⟨m', C, ?_, hC, hheapC, hre.trans hre', honly.trans honly'⟩
    rw [buildHeap, hheapify, Option.bind_eq_bind, Option.bind_some, hbuild]

/-- The second loop of `sort` takes the heap apart. -/
theorem sortHeap_pairwise {fuel : ℕ} (h : Contents m array cnt A) (hbound : cnt < 2 ^ 31) (hfuel : cnt ≤ fuel)
    (hn : n ≤ cnt) (hsort : Sorting c A n cnt) :
    ∃ m' B, sortHeap c.compare fuel array n m = some m' ∧ Contents m' array cnt B ∧
      (toList cnt B).Pairwise c.AtMost ∧ Rearranged cnt A B ∧ OnlyArray m m' array (cnt * size.toNat) := by
  induction n generalizing m A with
  | zero => exact ⟨m, A, rfl, h, hsort.pairwise (Nat.zero_le 1), Rearranged.refl cnt A, fun _ _ => rfl⟩
  | succ n ih =>
    cases n with
    | zero => exact ⟨m, A, rfl, h, hsort.pairwise le_rfl, Rearranged.refl cnt A, fun _ _ => rfl⟩
    | succ n =>
      have hidx : (BitVec.ofNat 32 (n + 2)).toNat = n + 2 := by
        rw [BitVec.toNat_ofNat]
        exact Nat.mod_eq_of_lt (by omega)
      have hpred : (BitVec.ofNat 32 (n + 2) - 1).toNat = n + 1 := by
        have hone : (1 : Word) ≤ BitVec.ofNat 32 (n + 2) := by
          rw [BitVec.le_def, hidx]
          exact Nat.succ_pos (n + 1)
        rw [BitVec.toNat_sub_of_le hone, hidx]
        rfl
      have hfirst : (1 : Word).toNat = 1 := rfl
      have hrounds : (BitVec.ofNat 32 (n + 2) - 1).toNat < fuel + 1 := by omega
      obtain ⟨m₁, hswap, h₁, honly₁⟩ :=
        doSwap_contents h hfirst hidx Nat.one_pos (by omega) (by omega) hn (by omega)
      have hsift : Sifting c (A ∘ Equiv.swap 1 (n + 2)) 1 (BitVec.ofNat 32 (n + 2) - 1).toNat 1 := by
        rw [hpred]
        exact hsort.heap.sifting_root (by omega)
      obtain ⟨m₂, B, hheapify, h₂, hheap, hre, honly₂⟩ :=
        heapify_heapFrom h₁ (by omega) (by omega) hfirst Nat.one_pos le_rfl (by omega) hrounds hsift
      rw [hpred] at hheap hre
      have hsort₂ : Sorting c B (n + 1) cnt := hsort.step (by omega) hre hheap
      obtain ⟨m', C, hrest, h', hpair, hre', honly'⟩ := ih h₂ (by omega) hsort₂
      refine ⟨m', C, ?_, h', hpair, ?_, (honly₁.trans honly₂).trans honly'⟩
      · rw [sortHeap, hswap, Option.bind_eq_bind, Option.bind_some, hheapify, Option.bind_some, hrest]
      · have hswapped : Rearranged cnt A (A ∘ Equiv.swap 1 (n + 2)) :=
          rearranged_swap A Nat.one_pos (by omega) (by omega) hn
        exact (hswapped.trans (hre.mono (by omega))).trans hre'

theorem sort_pairwise {fuel : ℕ} {last : Word} (h : Contents m array cnt A) (hlast : last.toNat = cnt)
    (hbound : cnt < 2 ^ 31) (hfuel : cnt ≤ fuel) :
    ∃ m' B, sort c.compare fuel m array last = some m' ∧ Contents m' array cnt B ∧
      (toList cnt B).Pairwise c.AtMost ∧ (toList cnt B).Perm (toList cnt A) ∧
      OnlyArray m m' array (cnt * size.toNat) := by
  have hhalf : (last / 2).toNat = cnt / 2 := by
    rw [BitVec.toNat_udiv, hlast]
    rfl
  obtain ⟨m₁, B, hbuild, h₁, hheap, hre, honly⟩ :=
    buildHeap_heapFrom (c := c) h hlast hbound hfuel (Nat.div_le_self cnt 2) (heapFrom_half A cnt)
  obtain ⟨m', C, hsort, h', hpair, hre', honly'⟩ := sortHeap_pairwise h₁ hbound hfuel le_rfl hheap.sorting
  refine ⟨m', C, ?_, h', hpair, (hre.trans hre').perm, honly.trans honly'⟩
  have hnonnull : array ≠ 0 ∨ last = 0 := by
    by_cases hzero : cnt = 0
    · exact Or.inr (BitVec.eq_of_toNat_eq (hlast.trans hzero))
    · exact Or.inl (h.mapped.ne_zero (Nat.mul_pos (Nat.pos_of_ne_zero hzero) h.sizePos))
  have hsize : 0 < size := by
    rw [BitVec.lt_def]
    exact h.sizePos
  rw [sort, guard_bind hnonnull, guard_bind hsize, hhalf, hbuild, hlast, Option.bind_eq_bind,
    Option.bind_some, hsort]

/-! ## Searching -/

/-- A pointer to an element, or behind the last one. -/
theorem Contents.toNat_place (h : Contents m array cnt A) (hk : k ≤ cnt) :
    (place array size.toNat (k + 1)).toNat = array.toNat + k * size.toNat := by
  have hlt := h.mapped.lt
  have hle : k * size.toNat ≤ cnt * size.toNat := Nat.mul_le_mul_right size.toNat hk
  rw [place, Nat.add_sub_cancel, Memory.toNat_offset (by omega)]

theorem place_add (array size : Word) (i j : ℕ) :
    place array size.toNat (i + 1) + BitVec.ofNat 32 j * size = place array size.toNat (i + j + 1) := by
  rw [place, place, Nat.add_sub_cancel, Nat.add_sub_cancel, Nat.add_mul, BitVec.ofNat_add, BitVec.add_assoc]
  congr 2
  apply BitVec.eq_of_toNat_eq
  rw [BitVec.toNat_mul, BitVec.toNat_ofNat, BitVec.toNat_ofNat, Nat.mod_mul_mod]

/-- What a search for `x` comes back with. -/
def Found (c : Comparison (Elem size)) (A : ℕ → Elem size) (cnt : ℕ) (array : Word) (x : Elem size) (p : Word) : Prop :=
  (p = 0 ∧ ∀ k, 0 < k → k ≤ cnt → c.compare x (A k) ≠ 0) ∨
    ∃ k, 0 < k ∧ k ≤ cnt ∧ p = place array size.toNat k ∧ c.compare x (A k) = 0

/-- The pointers of a round of the search. -/
theorem middle_eq {lo hi : ℕ} (h : Contents m array cnt A) (hlo : lo ≤ hi) (hhi : hi ≤ cnt) :
    place array size.toNat (lo + 1) +
        (place array size.toNat (hi + 1) - place array size.toNat (lo + 1)) / size / 2 * size =
      place array size.toNat (lo + (hi - lo) / 2 + 1) := by
  have hfirst := h.toNat_place (hlo.trans hhi)
  have hlast := h.toNat_place hhi
  have hmul : lo * size.toNat ≤ hi * size.toNat := Nat.mul_le_mul_right size.toNat hlo
  have hle : place array size.toNat (lo + 1) ≤ place array size.toNat (hi + 1) := by
    rw [BitVec.le_def, hfirst, hlast]
    omega
  have hdist : (place array size.toNat (hi + 1) - place array size.toNat (lo + 1)).toNat = (hi - lo) * size.toNat := by
    rw [BitVec.toNat_sub_of_le hle, hfirst, hlast, Nat.sub_mul]
    omega
  have hhalf : (place array size.toNat (hi + 1) - place array size.toNat (lo + 1)) / size / 2 =
      BitVec.ofNat 32 ((hi - lo) / 2) := by
    rw [← Memory.ofNat_toNat ((_ : Word) / 2), BitVec.toNat_udiv, BitVec.toNat_udiv, hdist,
      Nat.mul_div_cancel _ h.sizePos]
    rfl
  rw [hhalf, place_add]

/-- The key is greater than what lies in front of the range, and smaller than what lies behind it. -/
theorem searchLoop_found {fuel lo hi : ℕ} {key : Word} {x : Elem size} (h : Contents m array cnt A)
    (hkey : m.block key size.toNat = some x) (hsorted : (toList cnt A).Pairwise c.AtMost) (hlo : lo ≤ hi)
    (hhi : hi ≤ cnt) (hfuel : hi - lo < fuel) (hfront : ∀ k, 0 < k → k ≤ lo → 0 < c.compare x (A k))
    (hbehind : ∀ k, hi < k → k ≤ cnt → c.compare x (A k) < 0) :
    ∃ p, searchLoop c.compare m key fuel (place array size.toNat (lo + 1)) (place array size.toNat (hi + 1)) = some p ∧
      Found c A cnt array x p := by
  induction fuel generalizing lo hi with
  | zero => omega
  | succ fuel ih =>
    have hfirst := h.toNat_place (hlo.trans hhi)
    have hlast := h.toNat_place hhi
    have hrange : place array size.toNat (lo + 1) < place array size.toNat (hi + 1) ↔ lo < hi := by
      rw [BitVec.lt_def, hfirst, hlast, Nat.add_lt_add_iff_left, Nat.mul_lt_mul_right h.sizePos]
    by_cases hlt : lo < hi
    · have hmid : m.block (place array size.toNat (lo + (hi - lo) / 2 + 1)) size.toNat =
          some (A (lo + (hi - lo) / 2 + 1)) := h.block _ (Nat.succ_pos _) (by omega)
      have hnext : place array size.toNat (lo + (hi - lo) / 2 + 1) + size =
          place array size.toNat (lo + (hi - lo) / 2 + 1 + 1) := by
        have hadd := place_add array size (lo + (hi - lo) / 2) 1
        rwa [show BitVec.ofNat 32 1 * size = size from BitVec.one_mul size] at hadd
      have hround : searchLoop c.compare m key (fuel + 1) (place array size.toNat (lo + 1))
            (place array size.toNat (hi + 1)) =
          if c.compare x (A (lo + (hi - lo) / 2 + 1)) < 0 then
            searchLoop c.compare m key fuel (place array size.toNat (lo + 1))
              (place array size.toNat (lo + (hi - lo) / 2 + 1))
          else if 0 < c.compare x (A (lo + (hi - lo) / 2 + 1)) then
            searchLoop c.compare m key fuel (place array size.toNat (lo + (hi - lo) / 2 + 1 + 1))
              (place array size.toNat (hi + 1))
          else some (place array size.toNat (lo + (hi - lo) / 2 + 1)) := by
        rw [searchLoop, if_pos (hrange.mpr hlt)]
        simp only [middle_eq h hlo hhi, comparePtrs_eq c.compare hkey hmid, hnext, Option.bind_eq_bind,
          Option.bind_some, Option.pure_def]
      rw [hround]
      split
      · case isTrue hneg =>
        apply ih (by omega) (by omega) (by omega) hfront
        intro k hk hk'
        by_cases heq : k = lo + (hi - lo) / 2 + 1
        · rw [heq]
          exact hneg
        · exact c.compare_neg_of_atMost hneg (pairwise_toList.mp hsorted _ k (Nat.succ_pos _) (by omega) hk')
      · case isFalse hneg =>
        split
        · case isTrue hpos =>
          apply ih (by omega) hhi (by omega) ?_ hbehind
          intro k hk hk'
          by_cases heq : k = lo + (hi - lo) / 2 + 1
          · rw [heq]
            exact hpos
          · exact c.compare_pos_of_atMost hpos (pairwise_toList.mp hsorted k _ hk (by omega) (by omega))
        · case isFalse hpos =>
          have hzero : c.compare x (A (lo + (hi - lo) / 2 + 1)) = 0 := by omega
          exact ⟨_, rfl, Or.inr ⟨_, Nat.succ_pos _, by omega, rfl, hzero⟩⟩
    · refine ⟨0, ?_, Or.inl ⟨rfl, fun k hk hk' => ?_⟩⟩
      · rw [searchLoop, if_neg fun hless => hlt (hrange.mp hless)]
      · by_cases hkl : k ≤ lo
        · have hpos := hfront k hk hkl
          omega
        · have hneg := hbehind k (by omega) hk'
          omega

/-- `binary_search` in a sorted array. -/
theorem binarySearch_found {fuel : ℕ} {key last : Word} {x : Elem size} (h : Contents m array cnt A)
    (hlast : last.toNat = cnt) (hkey : m.block key size.toNat = some x)
    (hsorted : (toList cnt A).Pairwise c.AtMost) (hfuel : cnt < fuel) :
    ∃ p, binarySearch c.compare fuel m key array last = some p ∧ Found c A cnt array x p := by
  have hfirst : array = place array size.toNat (0 + 1) := by
    rw [place, Nat.zero_add, Nat.sub_self, Nat.zero_mul, Memory.offset_zero]
  have hend : array + size * last = place array size.toNat (cnt + 1) := by
    have hadd := place_add array size 0 cnt
    rw [← hfirst, Nat.zero_add, ← hlast, Memory.ofNat_toNat, BitVec.mul_comm, hlast] at hadd
    exact hadd
  rw [binarySearch, hend]
  nth_rewrite 1 [hfirst]
  apply searchLoop_found h hkey hsorted (Nat.zero_le cnt) le_rfl hfuel
  · intro k hk hk'
    omega
  · intro k hk hk'
    omega

/-! ## Arrays as lists -/

/-- The array holds the elements of a list. -/
def ArrayAt (m : Bytes) (array : Word) (xs : List (Elem size)) : Prop :=
  ∀ i x, xs[i]? = some x → m.block (array + BitVec.ofNat 32 (i * size.toNat)) size.toNat = some x

theorem contents_of_arrayAt {xs : List (Elem size)} (hsize : 0 < size.toNat) (h : ArrayAt m array xs) :
    ∃ A, Contents m array xs.length A ∧ toList xs.length A = xs := by
  refine ⟨fun k => (xs[k - 1]?).getD (List.Vector.replicate size.toNat 0), ⟨fun k hk hk' => ?_, hsize⟩, ?_⟩
  · have hlt : k - 1 < xs.length := by omega
    rw [List.getElem?_eq_getElem hlt, Option.getD_some]
    exact h (k - 1) _ (List.getElem?_eq_getElem hlt)
  · apply List.ext_getElem?
    intro i
    ext x
    rw [getElem?_toList]
    constructor
    · rintro ⟨hi, rfl⟩
      rw [Nat.add_sub_cancel, List.getElem?_eq_getElem hi, Option.getD_some]
    · intro hx
      obtain ⟨hi, _⟩ := List.getElem?_eq_some_iff.mp hx
      exact ⟨hi, by rw [Nat.add_sub_cancel, hx, Option.getD_some]⟩

theorem Contents.arrayAt (h : Contents m array cnt A) : ArrayAt m array (toList cnt A) := by
  intro i x hx
  obtain ⟨hi, hval⟩ := getElem?_toList.mp hx
  have hblock := h.block (i + 1) (Nat.succ_pos i) hi
  rwa [place, Nat.add_sub_cancel, hval] at hblock

/-- What a search comes back with, in terms of the list. -/
theorem Found.list {x : Elem size} {p : Word} (h : Contents m array cnt A) (hfound : Found c A cnt array x p) :
    (p ≠ 0 ↔ ∃ y ∈ toList cnt A, c.compare x y = 0) ∧
      (p ≠ 0 → ∃ i y, (toList cnt A)[i]? = some y ∧ p = array + BitVec.ofNat 32 (i * size.toNat) ∧
        c.compare x y = 0) := by
  rcases hfound with ⟨rfl, hnone⟩ | ⟨k, hk, hk', rfl, hzero⟩
  · refine ⟨⟨fun h0 => absurd rfl h0, ?_⟩, fun h0 => absurd rfl h0⟩
    rintro ⟨y, hy, hzero⟩
    obtain ⟨k, hmem, rfl⟩ := List.mem_map.mp hy
    obtain ⟨hk, hk'⟩ := mem_places.mp hmem
    exact absurd hzero (hnone k hk hk')
  · have hne : place array size.toNat k ≠ 0 := (h.mappedPlace hk hk').ne_zero h.sizePos
    refine ⟨⟨fun _ => ⟨A k, List.mem_map.mpr ⟨k, mem_places.mpr ⟨hk, hk'⟩, rfl⟩, hzero⟩, fun _ => hne⟩, fun _ => ?_⟩
    refine ⟨k - 1, A k, getElem?_toList.mpr ⟨by omega, ?_⟩, rfl, hzero⟩
    rw [Nat.sub_add_cancel hk]

/-- **Sorting and searching agree.**  An array of fewer than `2 ^ 31` elements is sorted: the same elements in
non-decreasing order, and nothing else has changed.  A search in it then finds an element that compares equal to the key
if there is one, and comes back with a null pointer if there is none. -/
theorem sort_binarySearch {size : Word} (c : Comparison (Elem size)) (hsize : 0 < size) {m : Bytes} {array cnt : Word}
    {xs : List (Elem size)} (hxs : ArrayAt m array xs) (hcnt : cnt.toNat = xs.length) (hbound : xs.length < 2 ^ 31)
    {fuel : ℕ} (hfuel : xs.length < fuel) :
    ∃ m' ys, sort c.compare fuel m array cnt = some m' ∧ ArrayAt m' array ys ∧ ys.Perm xs ∧ ys.Pairwise c.AtMost ∧
      OnlyArray m m' array (xs.length * size.toNat) ∧
      ∀ key x, m'.block key size.toNat = some x → ∃ p, binarySearch c.compare fuel m' key array cnt = some p ∧
        (p ≠ 0 ↔ ∃ y ∈ ys, c.compare x y = 0) ∧
        (p ≠ 0 → ∃ i y, ys[i]? = some y ∧ p = array + BitVec.ofNat 32 (i * size.toNat) ∧ c.compare x y = 0) := by
  obtain ⟨A, hA, hlist⟩ := contents_of_arrayAt (BitVec.lt_def.mp hsize) hxs
  obtain ⟨m', B, hsort, hB, hpair, hperm, honly⟩ := sort_pairwise hA hcnt hbound hfuel.le
  refine ⟨m', toList xs.length B, hsort, hB.arrayAt, ?_, hpair, honly, fun key x hkey => ?_⟩
  · rwa [hlist] at hperm
  · obtain ⟨p, hsearch, hfound⟩ := binarySearch_found hB hcnt hkey hpair hfuel
    exact ⟨p, hsearch, hfound.list hB⟩

/-- Elements of one byte, by their values. -/
def byteOrder : Comparison (Elem 1) where
  compare x y := ((x.toList.headD 0).toNat : ℤ) - (y.toList.headD 0).toNat
  sign a b := by omega
  trans a b c h h' := by omega

/-- Three bytes. -/
def threeBytes : Bytes where
  cells a := if a = 0x10 then some 3 else if a = 0x11 then some 1 else if a = 0x12 then some 2 else none
  null := by decide
  top := by decide

def threeElems : List (Elem 1) := [⟨[3], rfl⟩, ⟨[1], rfl⟩, ⟨[2], rfl⟩]

theorem sort_binarySearch_threeBytes :
    ∃ m' ys, sort byteOrder.compare 4 threeBytes 0x10 3 = some m' ∧ ArrayAt m' 0x10 ys ∧ ys.Perm threeElems ∧
      ys.Pairwise byteOrder.AtMost := by
  have hxs : ArrayAt threeBytes 0x10 threeElems := by
    intro i x hx
    match i with
    | 0 => cases hx; rfl
    | 1 => cases hx; rfl
    | 2 => cases hx; rfl
    | i + 3 => cases hx
  have hcnt : (3 : Word).toNat = threeElems.length := rfl
  have hfuel : threeElems.length < 4 := by decide
  obtain ⟨m', ys, hsort, hys, hperm, hpair, _⟩ :=
    sort_binarySearch byteOrder (by decide) hxs hcnt (by decide) hfuel
  exact ⟨m', ys, hsort, hys, hperm, hpair⟩

/-- The bytes from `0x40000000` up to `0xbfffffff`, all zero but the last one. -/
def halfMemory : Bytes where
  cells a := if 0x40000000 ≤ a ∧ a ≤ 0xbfffffff then some (if a = 0xbfffffff then 1 else 0) else none
  null := by decide
  top := by decide

theorem halfMemory_mapped : halfMemory.Mapped 0x40000000 (2 ^ 31) := by
  intro i hi
  have hplace : ((0x40000000 : Word) + BitVec.ofNat 32 i).toNat = 0x40000000 + i := by
    rw [Memory.toNat_offset]
    · rfl
    · show 0x40000000 + i < 2 ^ 32
      omega
  have hin : (0x40000000 : Word) ≤ 0x40000000 + BitVec.ofNat 32 i ∧
      (0x40000000 : Word) + BitVec.ofNat 32 i ≤ 0xbfffffff := by
    rw [BitVec.le_def, BitVec.le_def, hplace]
    show 0x40000000 ≤ 0x40000000 + i ∧ 0x40000000 + i ≤ 0xbfffffff
    omega
  show (if _ then _ else _ : Option UInt8).isSome = true
  rw [if_pos hin]
  rfl

/-- The index of what is below `2 ^ 31` wraps around to 0, the element in front of the array. -/
theorem heapify_halfMemory (fuel : ℕ) :
    heapify byteOrder.compare 0x40000000 0x80000000 fuel halfMemory 0x40000000 = none := by
  cases fuel with
  | zero => rfl
  | succ fuel =>
    have hleft : largerIdx byteOrder.compare halfMemory 0x40000000 0x80000000 (2 * 0x40000000) 0x40000000 =
        some 0x80000000 := by decide +kernel
    have hright : largerIdx byteOrder.compare halfMemory 0x40000000 0x80000000 (2 * 0x40000000 + 1) 0x80000000 =
        some 0x80000000 := by decide +kernel
    obtain ⟨m, hswap, hfront⟩ : ∃ m, doSwap halfMemory 0x40000000 0x40000000 0x80000000 1 = some m ∧
        m.cells 0x3fffffff = none := by
      have ha : halfMemory.Mapped 0x7fffffff 1 := Memory.mapped_succ.mpr ⟨by decide, Memory.mapped_zero _ _⟩
      have hb : halfMemory.Mapped 0xbfffffff 1 := Memory.mapped_succ.mpr ⟨by decide, Memory.mapped_zero _ _⟩
      have hab : Apart 0x7fffffff 0xbfffffff 1 := by
        intro i hi j hj
        obtain rfl : i = 0 := by omega
        obtain rfl : j = 0 := by omega
        decide
      obtain ⟨m, hfold, hsw⟩ := swapBytes_swapped ha hb hab
      refine ⟨m, hfold, ?_⟩
      rw [hsw.frame 0x3fffffff]
      · decide
      · intro i hi
        obtain rfl : i = 0 := by omega
        decide
      · intro i hi
        obtain rfl : i = 0 := by omega
        decide
    have hnext : heapify byteOrder.compare 0x40000000 0x80000000 fuel m 0x80000000 = none := by
      cases fuel with
      | zero => rfl
      | succ fuel =>
        have hblock : m.block 0x3fffffff 1 = none := by
          rw [Memory.block, hfront]
          rfl
        have hwrap : largerIdx byteOrder.compare m 0x40000000 0x80000000 (2 * 0x80000000) 0x80000000 = none := by
          show (comparePtrs byteOrder.compare m 0x3fffffff _).bind _ = none
          rw [comparePtrs]
          show ((m.block 0x3fffffff 1).bind _).bind _ = none
          rw [hblock]
          rfl
        rw [heapify]
        show (largerIdx byteOrder.compare m 0x40000000 0x80000000 (2 * 0x80000000) 0x80000000).bind _ = none
        rw [hwrap]
        rfl
    have hne : ¬(0x80000000 : Word) = 0x40000000 := by decide
    rw [heapify]
    simp only [hleft, hright, Option.bind_eq_bind, Option.bind_some, if_neg hne]
    rw [hswap, Option.bind_some, hnext]

/-- With `2 ^ 31` elements, an element can sift down to the index `2 ^ 31`. -/
theorem sort_leaves_array : halfMemory.Mapped 0x40000000 (2 ^ 31) ∧
    ∀ fuel, sort byteOrder.compare fuel halfMemory 0x40000000 0x80000000 = none := by
  refine ⟨halfMemory_mapped, fun fuel => ?_⟩
  have hhalf : ((0x80000000 : Word) / 2).toNat = 0x3fffffff + 1 := by decide
  rw [sort, guard_bind (by decide), guard_bind (by decide), hhalf, buildHeap]
  show ((heapify byteOrder.compare 0x40000000 0x80000000 fuel halfMemory 0x40000000).bind _).bind _ = none
  rw [heapify_halfMemory]
  rfl

end Pintos.Lib.Sort
