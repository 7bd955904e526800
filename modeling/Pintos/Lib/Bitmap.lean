import Mathlib.Order.Bounds.Basic
import Mathlib.Tactic

/-!
# Bitmaps

`lib/kernel/bitmap.c`: the bits are packed into elements of 32, and the operations on several bits go bit by bit.

* `Bitmap.bit` are the bits, those of the last element that are not used among them; `bitmapSet_eq` and
  `bitmapTest_eq` say what the masks do to them.
* `bitmapScan_isLeast`: the scan finds the first run that fits.
* `scan_and_flip_first_fit`: the flip inverts it and nothing else.

An assertion that fails, and an access outside the elements, is `none`.
-/

namespace Pintos.Lib

/-! ## The code -/

/-- `elem_idx` -/
def elemIdx (bitIdx : BitVec 32) : BitVec 32 := bitIdx / 32

/-- `bit_mask` -/
def bitMask (bitIdx : BitVec 32) : BitVec 32 := (1 : BitVec 32) <<< (bitIdx % 32)

/-- `elem_cnt`; `DIV_ROUND_UP` adds before it divides. -/
def elemCnt (bitCnt : BitVec 32) : BitVec 32 := (bitCnt + 32 - 1) / 32

/-- `BITMAP_ERROR` -/
def bitmapError : BitVec 32 := -1

/-- `struct bitmap` with the elements that it points to. -/
structure Bitmap where
  bitCnt : BitVec 32
  bits : List (BitVec 32)
  size : bits.length = (elemCnt bitCnt).toNat
  covers : bitCnt.toNat ≤ 32 * bits.length

namespace Bitmap

/-- A store to an element. -/
def setElem (b : Bitmap) (idx : ℕ) (e : BitVec 32) : Bitmap where
  bitCnt := b.bitCnt
  bits := b.bits.set idx e
  size := by rw [List.length_set, b.size]
  covers := by rw [List.length_set]; exact b.covers

/-- `bitmap_mark` -/
def bitmapMark (b : Bitmap) (bitIdx : BitVec 32) : Option Bitmap :=
  let idx := (elemIdx bitIdx).toNat
  b.bits[idx]?.map fun e => b.setElem idx (e ||| bitMask bitIdx)

/-- `bitmap_reset` -/
def bitmapReset (b : Bitmap) (bitIdx : BitVec 32) : Option Bitmap :=
  let idx := (elemIdx bitIdx).toNat
  b.bits[idx]?.map fun e => b.setElem idx (e &&& ~~~bitMask bitIdx)

/-- `bitmap_set` -/
def bitmapSet (b : Bitmap) (idx : BitVec 32) (value : Bool) : Option Bitmap :=
  if idx < b.bitCnt then
    if value then b.bitmapMark idx else b.bitmapReset idx
  else none

/-- `bitmap_test` -/
def bitmapTest (b : Bitmap) (idx : BitVec 32) : Option Bool :=
  if idx < b.bitCnt then b.bits[(elemIdx idx).toNat]?.map fun e => e &&& bitMask idx != 0 else none

/-- The assertions of the operations on several bits. -/
def inBounds (b : Bitmap) (start cnt : BitVec 32) : Bool := decide (start ≤ b.bitCnt) && decide (start + cnt ≤ b.bitCnt)

/-- `for (i = 0; i < cnt; i++) bitmap_set (b, start + i, value)`, with the number of passes that are left. -/
def setLoop (start : BitVec 32) (value : Bool) : ℕ → BitVec 32 → Bitmap → Option Bitmap
  | 0, _, b => some b
  | left + 1, i, b => (b.bitmapSet (start + i) value).bind (setLoop start value left (i + 1))

/-- `bitmap_set_multiple` -/
def bitmapSetMultiple (b : Bitmap) (start cnt : BitVec 32) (value : Bool) : Option Bitmap :=
  if b.inBounds start cnt then setLoop start value cnt.toNat 0 b else none

/-- The loop of `bitmap_contains`. -/
def containsLoop (b : Bitmap) (start : BitVec 32) (value : Bool) : ℕ → BitVec 32 → Option Bool
  | 0, _ => some false
  | left + 1, i => (b.bitmapTest (start + i)).bind fun x =>
    if x == value then some true else containsLoop b start value left (i + 1)

/-- `bitmap_contains` -/
def bitmapContains (b : Bitmap) (start cnt : BitVec 32) (value : Bool) : Option Bool :=
  if b.inBounds start cnt then b.containsLoop start value cnt.toNat 0 else none

/-- `for (i = start; i <= last; i++)` -/
def scanLoop (b : Bitmap) (cnt : BitVec 32) (value : Bool) (last : BitVec 32) : ℕ → BitVec 32 → Option (BitVec 32)
  | 0, _ => none
  | fuel + 1, i =>
    if i ≤ last then
      (b.bitmapContains i cnt (!value)).bind fun found =>
        if !found then some i else scanLoop b cnt value last fuel (i + 1)
    else some bitmapError

/-- `bitmap_scan`; the loop makes a pass for an index at most. -/
def bitmapScan (b : Bitmap) (start cnt : BitVec 32) (value : Bool) : Option (BitVec 32) :=
  if start ≤ b.bitCnt then
    if cnt ≤ b.bitCnt then b.scanLoop cnt value (b.bitCnt - cnt) (b.bitCnt.toNat + 2) start else some bitmapError
  else none

/-- `bitmap_scan_and_flip` -/
def bitmapScanAndFlip (b : Bitmap) (start cnt : BitVec 32) (value : Bool) : Option (BitVec 32 × Bitmap) :=
  (b.bitmapScan start cnt value).bind fun idx =>
    if idx ≠ bitmapError then (b.bitmapSetMultiple idx cnt (!value)).map (idx, ·) else some (idx, b)

/-- `bitmap_set_all` -/
def bitmapSetAll (b : Bitmap) (value : Bool) : Option Bitmap := b.bitmapSetMultiple 0 b.bitCnt value

/-- `bitmap_all` -/
def bitmapAll (b : Bitmap) (start cnt : BitVec 32) : Option Bool := (b.bitmapContains start cnt false).map (!·)

/-- `bitmap_buf_size` -/
def bitmapBufSize (bitCnt : BitVec 32) : BitVec 32 := 8 + 4 * elemCnt bitCnt

/-- `bitmap_create_in_buf`; the memory of the elements may hold anything. -/
def bitmapCreateInBuf (bitCnt blockSize : BitVec 32) (memory : ℕ → BitVec 32) : Option Bitmap :=
  if bitmapBufSize bitCnt ≤ blockSize then
    if h : bitCnt.toNat ≤ 32 * (elemCnt bitCnt).toNat then
      bitmapSetAll {
        bitCnt := bitCnt
        bits := (List.range (elemCnt bitCnt).toNat).map memory
        size := by rw [List.length_map, List.length_range]
        covers := by rw [List.length_map, List.length_range]; exact h } false
    else none
  else none

/-! ## The bits -/

variable {b b' : Bitmap} {start cnt idx i : BitVec 32} {value : Bool}

/-- A bit of the elements. -/
def bit (b : Bitmap) (i : ℕ) : Bool := (b.bits.getD (i / 32) 0).getLsbD (i % 32)

theorem elemIdx_toNat (idx : BitVec 32) : (elemIdx idx).toNat = idx.toNat / 32 := BitVec.toNat_udiv ..

theorem bitMask_eq (idx : BitVec 32) : bitMask idx = BitVec.twoPow 32 (idx.toNat % 32) := by
  rw [bitMask, BitVec.shiftLeft_eq', BitVec.toNat_umod]
  rfl

theorem getLsbD_bitMask (idx : BitVec 32) (k : ℕ) : (bitMask idx).getLsbD k = decide (idx.toNat % 32 = k) := by
  have hmod : idx.toNat % 32 < 32 := Nat.mod_lt _ (by decide)
  rw [bitMask_eq, BitVec.getLsbD_twoPow, decide_eq_true hmod, Bool.true_and]

/-- The number of bits is not near the top of the numbers: the elements for so many bits would not be counted. -/
theorem bitCnt_le (b : Bitmap) : b.bitCnt.toNat ≤ 2 ^ 32 - 32 := by
  have hsize := b.size
  have hcovers := b.covers
  have hlt := b.bitCnt.isLt
  have hcnt : (elemCnt b.bitCnt).toNat = (b.bitCnt.toNat + 31) % 2 ^ 32 / 32 := by
    have hsum : (b.bitCnt + 32 - 1).toNat = (b.bitCnt.toNat + 31) % 2 ^ 32 := by bv_omega
    rw [elemCnt, BitVec.toNat_udiv, hsum]
    rfl
  omega

theorem ne_bitmapError (h : i.toNat ≤ b.bitCnt.toNat) : i ≠ bitmapError := by
  intro heq
  have hle := b.bitCnt_le
  rw [heq] at h
  have hval : bitmapError.toNat = 2 ^ 32 - 1 := rfl
  omega

/-- The element of a bit that is in the bitmap. -/
theorem getElem?_elemIdx (h : idx < b.bitCnt) :
    b.bits[(elemIdx idx).toNat]? = some (b.bits.getD (idx.toNat / 32) 0) := by
  have hlt : idx.toNat < b.bitCnt.toNat := h
  have hcovers := b.covers
  have hin : idx.toNat / 32 < b.bits.length := by omega
  rw [elemIdx_toNat, List.getD_eq_getElem?_getD, List.getElem?_eq_getElem hin]
  rfl

/-- **`bitmap_test`** -/
theorem bitmapTest_eq (h : idx < b.bitCnt) : b.bitmapTest idx = some (b.bit idx.toNat) := by
  rw [bitmapTest, if_pos h, getElem?_elemIdx h, Option.map_some, bit, bitMask_eq, BitVec.and_twoPow]
  split
  · case isTrue hbit =>
    have hmod : idx.toNat % 32 < 32 := Nat.mod_lt _ (by decide)
    have hne : BitVec.twoPow 32 (idx.toNat % 32) ≠ 0 := by
      intro heq
      have hval := congrArg (BitVec.getLsbD · (idx.toNat % 32)) heq
      simp [hmod] at hval
    rw [hbit, bne_iff_ne.mpr hne]
  · case isFalse hbit =>
    rw [Bool.not_eq_true] at hbit
    rw [hbit]
    rfl

/-- A store to the element of a bit. -/
theorem bit_setElem (e : BitVec 32) (h : idx < b.bitCnt) (he : ∀ k < 32, e.getLsbD k =
    if k = idx.toNat % 32 then value else (b.bits.getD (idx.toNat / 32) 0).getLsbD k) (j : ℕ) :
    (b.setElem (elemIdx idx).toNat e).bit j = if j = idx.toNat then value else b.bit j := by
  have hlt : idx.toNat < b.bitCnt.toNat := h
  have hcovers := b.covers
  have hin : idx.toNat / 32 < b.bits.length := by omega
  show ((b.bits.set (elemIdx idx).toNat e).getD (j / 32) 0).getLsbD (j % 32) = _
  rw [elemIdx_toNat, List.getD_eq_getElem?_getD]
  by_cases hj : idx.toNat / 32 = j / 32
  · rw [← hj, List.getElem?_set_self hin, Option.getD_some, he _ (Nat.mod_lt _ (by decide)), hj]
    by_cases hmod : j % 32 = idx.toNat % 32
    · rw [if_pos hmod, if_pos (by omega)]
    · rw [if_neg hmod, if_neg (by omega)]
      rfl
  · rw [List.getElem?_set_ne hj, if_neg (by omega), bit, List.getD_eq_getElem?_getD]

/-- **`bitmap_set`** -/
theorem bitmapSet_eq (h : idx < b.bitCnt) (value : Bool) :
    ∃ b', b.bitmapSet idx value = some b' ∧ b'.bitCnt = b.bitCnt ∧
      ∀ j, b'.bit j = if j = idx.toNat then value else b.bit j := by
  unfold bitmapSet
  rw [if_pos h]
  cases value with
  | true =>
    refine ⟨b.setElem _ _, by rw [if_pos rfl, bitmapMark, getElem?_elemIdx h]; rfl, rfl, bit_setElem _ h ?_⟩
    intro k hk
    rw [BitVec.getLsbD_or, getLsbD_bitMask]
    by_cases heq : k = idx.toNat % 32
    · rw [if_pos heq, decide_eq_true heq.symm, Bool.or_true]
    · rw [if_neg heq, decide_eq_false (Ne.symm heq), Bool.or_false]
  | false =>
    refine ⟨b.setElem _ _, by rw [if_neg Bool.false_ne_true, bitmapReset, getElem?_elemIdx h]; rfl, rfl,
      bit_setElem _ h ?_⟩
    intro k hk
    rw [BitVec.getLsbD_and, BitVec.getLsbD_not, getLsbD_bitMask, decide_eq_true hk, Bool.true_and]
    by_cases heq : k = idx.toNat % 32
    · rw [if_pos heq, decide_eq_true heq.symm, Bool.not_true, Bool.and_false]
    · rw [if_neg heq, decide_eq_false (Ne.symm heq), Bool.not_false, Bool.and_true]

/-! ## Several bits -/

theorem inBounds_iff (h : start.toNat + cnt.toNat < 2 ^ 32) :
    b.inBounds start cnt = true ↔ start.toNat + cnt.toNat ≤ b.bitCnt.toNat := by
  rw [inBounds, Bool.and_eq_true, decide_eq_true_iff, decide_eq_true_iff, BitVec.le_def, BitVec.le_def,
    BitVec.toNat_add_of_lt h]
  omega

/-- The loop of `bitmap_set_multiple` from a number of passes on. -/
theorem setLoop_eq {left : ℕ} (value : Bool) (h : start.toNat + i.toNat + left ≤ b.bitCnt.toNat) :
    ∃ b', setLoop start value left i b = some b' ∧ b'.bitCnt = b.bitCnt ∧
      ∀ j, b'.bit j =
        if start.toNat + i.toNat ≤ j ∧ j < start.toNat + i.toNat + left then value else b.bit j := by
  induction left generalizing i b with
  | zero =>
    refine ⟨b, rfl, rfl, ?_⟩
    intro j
    rw [if_neg (by omega)]
  | succ left ih =>
    have hle := b.bitCnt_le
    have hadd : (start + i).toNat = start.toNat + i.toNat := BitVec.toNat_add_of_lt (by omega)
    have hone : (i + 1).toNat = i.toNat + 1 := BitVec.toNat_add_of_lt (by
      show i.toNat + 1 < 2 ^ 32
      omega)
    have hlt : start + i < b.bitCnt := by
      rw [BitVec.lt_def, hadd]
      omega
    obtain ⟨b₁, hset, hcnt₁, hbit₁⟩ := bitmapSet_eq hlt value
    have hroom : start.toNat + (i + 1).toNat + left ≤ b₁.bitCnt.toNat := by
      rw [hone, hcnt₁]
      omega
    obtain ⟨b', hloop, hcnt, hbit⟩ := ih hroom
    refine ⟨b', ?_, hcnt.trans hcnt₁, ?_⟩
    · unfold setLoop
      rw [hset]
      exact hloop
    · intro j
      rw [hbit, hone, hbit₁, hadd]
      split_ifs <;> first | rfl | omega

/-- **`bitmap_set_multiple`** -/
theorem bitmapSetMultiple_eq (value : Bool) (h : start.toNat + cnt.toNat ≤ b.bitCnt.toNat) :
    ∃ b', b.bitmapSetMultiple start cnt value = some b' ∧ b'.bitCnt = b.bitCnt ∧
      ∀ j, b'.bit j = if start.toNat ≤ j ∧ j < start.toNat + cnt.toNat then value else b.bit j := by
  have hle := b.bitCnt_le
  have hzero : start.toNat + (0 : BitVec 32).toNat + cnt.toNat ≤ b.bitCnt.toNat := h
  obtain ⟨b', hloop, hcnt, hbit⟩ := setLoop_eq value hzero
  refine ⟨b', ?_, hcnt, hbit⟩
  rw [bitmapSetMultiple, if_pos ((inBounds_iff (by omega)).mpr h)]
  exact hloop

/-- The loop of `bitmap_contains` from a number of passes on. -/
theorem containsLoop_eq {left : ℕ} (value : Bool) (h : start.toNat + i.toNat + left ≤ b.bitCnt.toNat) :
    b.containsLoop start value left i =
      some (decide (∃ j < left, b.bit (start.toNat + i.toNat + j) = value)) := by
  induction left generalizing i with
  | zero =>
    have hnone : ¬∃ j < 0, b.bit (start.toNat + i.toNat + j) = value := by simp
    rw [decide_eq_false hnone]
    rfl
  | succ left ih =>
    have hle := b.bitCnt_le
    have hadd : (start + i).toNat = start.toNat + i.toNat := BitVec.toNat_add_of_lt (by omega)
    have hone : (i + 1).toNat = i.toNat + 1 := BitVec.toNat_add_of_lt (by
      show i.toNat + 1 < 2 ^ 32
      omega)
    have hlt : start + i < b.bitCnt := by
      rw [BitVec.lt_def, hadd]
      omega
    unfold containsLoop
    rw [bitmapTest_eq hlt, Option.bind_some, hadd]
    by_cases hbit : b.bit (start.toNat + i.toNat) = value
    · rw [if_pos (by simpa using hbit), decide_eq_true]
      exact ⟨0, Nat.succ_pos _, hbit⟩
    · rw [if_neg (by simpa using hbit), ih (by omega), hone, Option.some.injEq, decide_eq_decide]
      constructor
      · intro hmore
        obtain ⟨j, hj, hval⟩ := hmore
        refine ⟨j + 1, by omega, ?_⟩
        rw [← hval]
        congr 1
        omega
      · intro hmore
        obtain ⟨j, hj, hval⟩ := hmore
        cases j with
        | zero => exact absurd hval hbit
        | succ j =>
          refine ⟨j, by omega, ?_⟩
          rw [← hval]
          congr 1
          omega

/-- **`bitmap_contains`** -/
theorem bitmapContains_eq (value : Bool) (h : start.toNat + cnt.toNat ≤ b.bitCnt.toNat) :
    b.bitmapContains start cnt value = some (decide (∃ j < cnt.toNat, b.bit (start.toNat + j) = value)) := by
  have hle := b.bitCnt_le
  have hzero : start.toNat + (0 : BitVec 32).toNat + cnt.toNat ≤ b.bitCnt.toNat := h
  rw [bitmapContains, if_pos ((inBounds_iff (by omega)).mpr h)]
  exact containsLoop_eq value hzero

/-- **`bitmap_all`** -/
theorem bitmapAll_eq (h : start.toNat + cnt.toNat ≤ b.bitCnt.toNat) (hall : ∀ j < cnt.toNat, b.bit (start.toNat + j)) :
    b.bitmapAll start cnt = some true := by
  have hnone : ¬∃ j < cnt.toNat, b.bit (start.toNat + j) = false := by
    intro hsome
    obtain ⟨j, hj, hbit⟩ := hsome
    rw [hall j hj] at hbit
    cases hbit
  rw [bitmapAll, bitmapContains_eq false h, decide_eq_false hnone]
  rfl

/-- **`bitmap_set_all`** -/
theorem bitmapSetAll_eq (b : Bitmap) (value : Bool) :
    ∃ b', b.bitmapSetAll value = some b' ∧ b'.bitCnt = b.bitCnt ∧
      ∀ j, b'.bit j = if j < b.bitCnt.toNat then value else b.bit j := by
  have hall : (0 : BitVec 32).toNat + b.bitCnt.toNat ≤ b.bitCnt.toNat := (Nat.zero_add _).le
  obtain ⟨b', hset, hcnt, hbit⟩ := bitmapSetMultiple_eq value hall
  refine ⟨b', hset, hcnt, fun j => ?_⟩
  rw [hbit]
  have hzero : (0 : BitVec 32).toNat = 0 := rfl
  rw [hzero, Nat.zero_add]
  exact if_congr (and_iff_right (Nat.zero_le j)) rfl rfl

theorem elemCnt_toNat {bitCnt : BitVec 32} (h : bitCnt.toNat ≤ 2 ^ 32 - 32) :
    (elemCnt bitCnt).toNat = (bitCnt.toNat + 31) / 32 := by
  have hsum : (bitCnt + 32 - 1).toNat = bitCnt.toNat + 31 := by bv_omega
  rw [elemCnt, BitVec.toNat_udiv, hsum]
  rfl

/-- A bitmap in a buffer: all its bits are unset. -/
theorem bitmapCreateInBuf_eq {bitCnt blockSize : BitVec 32} {memory : ℕ → BitVec 32}
    (h : bitmapCreateInBuf bitCnt blockSize memory = some b) :
    bitmapBufSize bitCnt ≤ blockSize ∧ b.bitCnt = bitCnt ∧ ∀ j < bitCnt.toNat, b.bit j = false := by
  unfold bitmapCreateInBuf at h
  split at h
  · case isTrue hsize =>
    split at h
    · obtain ⟨b', hset, hcnt, hbit⟩ := bitmapSetAll_eq _ false
      cases hset.symm.trans h
      refine ⟨hsize, hcnt, fun j hj => ?_⟩
      rw [hbit]
      exact if_pos hj
    · cases h
  · cases h

theorem bitmapBufSize_toNat {bitCnt : BitVec 32} (h : bitCnt.toNat < 2 ^ 20) :
    (bitmapBufSize bitCnt).toNat = 8 + 4 * ((bitCnt.toNat + 31) / 32) := by
  have hcnt : (elemCnt bitCnt).toNat = (bitCnt.toNat + 31) / 32 := elemCnt_toNat (by omega)
  have hsum : (8 + 4 * elemCnt bitCnt).toNat = 8 + 4 * (elemCnt bitCnt).toNat := by bv_omega
  rw [bitmapBufSize, hsum, hcnt]

/-- No assertion fails where the buffer is large enough. -/
theorem bitmapCreateInBuf_isSome {bitCnt blockSize : BitVec 32} {memory : ℕ → BitVec 32}
    (hsize : bitmapBufSize bitCnt ≤ blockSize) (hcnt : bitCnt.toNat < 2 ^ 20) :
    (bitmapCreateInBuf bitCnt blockSize memory).isSome := by
  have hcovers : bitCnt.toNat ≤ 32 * (elemCnt bitCnt).toNat := by
    rw [elemCnt_toNat (by omega)]
    omega
  rw [bitmapCreateInBuf, if_pos hsize, dif_pos hcovers]
  obtain ⟨b', hset, -⟩ := bitmapSetAll_eq _ false
  exact Option.isSome_iff_exists.mpr ⟨b', hset⟩

/-! ## The scan -/

/-- A run of `cnt` bits that are `value`, from index `i` on. -/
def Run (b : Bitmap) (cnt : ℕ) (value : Bool) (i : ℕ) : Prop :=
  i + cnt ≤ b.bitCnt.toNat ∧ ∀ j < cnt, b.bit (i + j) = value

theorem bitmapContains_not (value : Bool) (h : i.toNat + cnt.toNat ≤ b.bitCnt.toNat) :
    ∃ found, b.bitmapContains i cnt (!value) = some found ∧ (found = false ↔ b.Run cnt.toNat value i.toNat) := by
  refine ⟨_, bitmapContains_eq (!value) h, ?_⟩
  rw [decide_eq_false_iff_not]
  constructor
  · intro hnone
    refine ⟨h, fun j hj => ?_⟩
    by_contra hne
    exact hnone ⟨j, hj, Bool.eq_not.mpr hne⟩
  · intro hrun hsome
    obtain ⟨j, hj, hval⟩ := hsome
    rw [hrun.2 j hj] at hval
    cases value <;> cases hval

/-- What the scan returns: the first run at or behind `start`, or the error if there is none. -/
structure FirstFit (b : Bitmap) (start cnt : BitVec 32) (value : Bool) (idx : BitVec 32) : Prop where
  error : idx = bitmapError ↔ ∀ i, start.toNat ≤ i → ¬b.Run cnt.toNat value i
  least : idx ≠ bitmapError → IsLeast {i | start.toNat ≤ i ∧ b.Run cnt.toNat value i} idx.toNat

/-- The loop of `bitmap_scan` where there is no run before the index. -/
theorem scanLoop_firstFit {fuel : ℕ} (hcnt : cnt.toNat ≤ b.bitCnt.toNat) (hstart : start ≤ i)
    (hi : i.toNat ≤ b.bitCnt.toNat + 1)
    (hfuel : b.bitCnt.toNat + 1 - i.toNat < fuel)
    (hbefore : ∀ k, start.toNat ≤ k → k < i.toNat → ¬b.Run cnt.toNat value k) :
    ∃ idx, b.scanLoop cnt value (b.bitCnt - cnt) fuel i = some idx ∧ b.FirstFit start cnt value idx := by
  induction fuel generalizing i with
  | zero => exact absurd hfuel (Nat.not_lt_zero _)
  | succ fuel ih =>
    have hle := b.bitCnt_le
    have hlast : (b.bitCnt - cnt).toNat = b.bitCnt.toNat - cnt.toNat := BitVec.toNat_sub_of_le hcnt
    unfold scanLoop
    by_cases hmore : i ≤ b.bitCnt - cnt
    · have hmore' : i.toNat ≤ b.bitCnt.toNat - cnt.toNat := by
        rw [← hlast]
        exact hmore
      have hroom : i.toNat + cnt.toNat ≤ b.bitCnt.toNat := by omega
      obtain ⟨found, hcontains, hfound⟩ := bitmapContains_not value hroom
      rw [if_pos hmore, hcontains, Option.bind_some]
      cases found with
      | false =>
        have hrun := hfound.mp rfl
        have hne : i ≠ bitmapError := ne_bitmapError (b := b) (by omega)
        refine ⟨i, rfl, ⟨fun heq => absurd heq hne, fun hnone => absurd hrun (hnone _ hstart)⟩, ?_⟩
        intro _
        refine ⟨⟨hstart, hrun⟩, fun k hk => ?_⟩
        by_contra hlt
        exact hbefore k hk.1 (Nat.lt_of_not_le hlt) hk.2
      | true =>
        have hrun : ¬b.Run cnt.toNat value i.toNat := fun hrun => absurd (hfound.mpr hrun) (by decide)
        have hone : (i + 1).toNat = i.toNat + 1 := BitVec.toNat_add_of_lt (by
          show i.toNat + 1 < 2 ^ 32
          omega)
        apply ih
        · rw [BitVec.le_def] at hstart ⊢
          omega
        · omega
        · omega
        · intro k hk hlt
          by_cases heq : k = i.toNat
          · rw [heq]
            exact hrun
          · exact hbefore k hk (by omega)
    · rw [if_neg hmore]
      have hpast : b.bitCnt.toNat - cnt.toNat < i.toNat := by
        rw [← hlast]
        exact Nat.lt_of_not_le hmore
      refine ⟨bitmapError, rfl, ⟨fun _ k hk hrun => ?_, fun _ => rfl⟩, fun hne => absurd rfl hne⟩
      exact hbefore k hk (by have hfit := hrun.1; omega) hrun

/-- **`bitmap_scan`** finds the first run. -/
theorem bitmapScan_firstFit (hstart : start ≤ b.bitCnt) (cnt : BitVec 32) (value : Bool) :
    ∃ idx, b.bitmapScan start cnt value = some idx ∧ b.FirstFit start cnt value idx := by
  unfold bitmapScan
  rw [if_pos hstart]
  by_cases hcnt : cnt ≤ b.bitCnt
  · rw [if_pos hcnt]
    have hle : start.toNat ≤ b.bitCnt.toNat := hstart
    exact scanLoop_firstFit hcnt (BitVec.le_refl start) (by omega) (by omega) fun k hk hlt => absurd hlt (by omega)
  · rw [if_neg hcnt]
    have hlt : b.bitCnt.toNat < cnt.toNat := Nat.lt_of_not_le hcnt
    refine ⟨bitmapError, rfl, ⟨fun _ k _ hrun => ?_, fun _ => rfl⟩, fun hne => absurd rfl hne⟩
    have hfit := hrun.1
    omega

/-- `bitmap_scan_and_flip` sets the run that the scan finds. -/
theorem bitmapScanAndFlip_eq (hstart : start ≤ b.bitCnt) (cnt : BitVec 32) (value : Bool) :
    ∃ idx b', b.bitmapScan start cnt value = some idx ∧ b.FirstFit start cnt value idx ∧
      b.bitmapScanAndFlip start cnt value = some (idx, b') ∧ b'.bitCnt = b.bitCnt ∧
      ∀ j, b'.bit j =
        if idx ≠ bitmapError ∧ idx.toNat ≤ j ∧ j < idx.toNat + cnt.toNat then !value else b.bit j := by
  obtain ⟨idx, hscan, hfit⟩ := bitmapScan_firstFit hstart cnt value
  unfold bitmapScanAndFlip
  rw [hscan, Option.bind_some]
  by_cases herror : idx = bitmapError
  · refine ⟨idx, b, rfl, hfit, if_neg (not_not_intro herror), rfl, fun j => ?_⟩
    rw [if_neg fun h => h.1 herror]
  · obtain ⟨-, hroom, -⟩ := (hfit.least herror).1
    obtain ⟨b', hset, hcnt, hbit⟩ := bitmapSetMultiple_eq (!value) hroom
    refine ⟨idx, b', rfl, hfit, ?_, hcnt, fun j => ?_⟩
    · rw [if_pos herror, hset]
      rfl
    · rw [hbit]
      exact if_congr (and_iff_right herror).symm rfl rfl

/-- **`bitmap_scan_and_flip`** returns the index that the scan finds, inverts the run there, and leaves every other bit
of the elements alone. -/
theorem scan_and_flip_first_fit (b : Bitmap) (start cnt : BitVec 32) (value : Bool) (hstart : start ≤ b.bitCnt) :
    ∃ idx b', b.bitmapScan start cnt value = some idx ∧ b.FirstFit start cnt value idx ∧
      b.bitmapScanAndFlip start cnt value = some (idx, b') ∧ b'.bitCnt = b.bitCnt ∧
      ∀ j, b'.bit j =
        if idx ≠ bitmapError ∧ idx.toNat ≤ j ∧ j < idx.toNat + cnt.toNat then !b.bit j else b.bit j := by
  obtain ⟨idx, b', hscan, hfit, hflip, hcnt, hbit⟩ := bitmapScanAndFlip_eq hstart cnt value
  refine ⟨idx, b', hscan, hfit, hflip, hcnt, fun j => ?_⟩
  rw [hbit]
  by_cases hj : idx ≠ bitmapError ∧ idx.toNat ≤ j ∧ j < idx.toNat + cnt.toNat
  · -- the bits of the run were `value`
    have hold := (hfit.least hj.1).1.2.2 (j - idx.toNat) (by omega)
    rw [Nat.add_sub_cancel' hj.2.1] at hold
    rw [if_pos hj, if_pos hj, hold]
  · rw [if_neg hj, if_neg hj]

/-- Forty bits, of which 30 to 35 are not set: a run of five across the elements. -/
theorem scan_and_flip_across : ∃ b b' : Bitmap, b.bits = [0x3fffffff, 0xf0] ∧ b.bitCnt = 40 ∧
    b.bitmapScanAndFlip 0 5 false = some (30, b') ∧
    ∀ j, b'.bit j = if 30 ≤ j ∧ j < 35 then !b.bit j else b.bit j := by
  have hscan : (Bitmap.mk 40 [0x3fffffff, 0xf0] rfl (by decide)).bitmapScan 0 5 false = some 30 := by decide +kernel
  obtain ⟨idx, b', hscan', -, hflip, -, hbit⟩ :=
    scan_and_flip_first_fit ⟨40, [0x3fffffff, 0xf0], rfl, by decide⟩ 0 5 false (by decide)
  obtain rfl : 30 = idx := Option.some.inj (hscan.symm.trans hscan')
  refine ⟨_, b', rfl, rfl, hflip, fun j => (hbit j).trans ?_⟩
  have hne : (30 : BitVec 32) ≠ bitmapError := by decide
  simp only [hne, ne_eq, not_false_eq_true, true_and]
  rfl

end Bitmap

end Pintos.Lib
