import Pintos.Lib.Bitmap
import Pintos.Filesys.FreeMap

/-!
# The free map as a packed bitmap

`free_map` is a `struct bitmap`, whose bits are packed into elements; the file system's model of it is the number of
bits and their values.  The scans of the two agree, and so do the bitmaps that they leave.
-/

namespace Pintos.Filesys

namespace Bitmap

variable {b : Bitmap} {start cnt i : ℕ} {value : Bool}

/-- A run of `cnt` bits that are `value`. -/
def Run (b : Bitmap) (cnt : ℕ) (value : Bool) (i : ℕ) : Prop := i + cnt ≤ b.bitCnt ∧ ∀ j < cnt, b.bits (i + j) = value

theorem contains_not : (!b.contains i cnt (!value)) = true ↔ ∀ j < cnt, b.bits (i + j) = value := by
  unfold contains
  simp only [Bool.not_eq_true', List.any_eq_false, List.mem_range, beq_iff_eq]
  apply forall₂_congr
  intro j _
  rw [Bool.eq_not, not_not]

theorem scan_eq_some (h : b.scan start cnt value = some i) :
    IsLeast {i | start ≤ i ∧ b.Run cnt value i} i := by
  unfold scan at h
  split at h
  · obtain ⟨hrun, hmem, hleast⟩ := List.find?_range'_eq_some.mp h
    obtain ⟨hlo, hhi⟩ := List.mem_range'_1.mp hmem
    refine ⟨⟨hlo, by omega, contains_not.mp hrun⟩, fun k hk => ?_⟩
    by_contra hlt
    have hnot := hleast k hk.1 (Nat.lt_of_not_le hlt)
    rw [contains_not.mpr hk.2.2] at hnot
    cases hnot
  · cases h

theorem scan_eq_none (h : b.scan start cnt value = none) (hi : start ≤ i) : ¬b.Run cnt value i := by
  intro hrun
  have hfit := hrun.1
  unfold scan at h
  rw [if_pos (by omega)] at h
  have hnot := List.find?_eq_none.mp h i (List.mem_range'_1.mpr ⟨hi, by omega⟩)
  exact hnot (contains_not.mpr hrun.2)

end Bitmap

/-- The bits of a packed bitmap. -/
def unpacked (b : Lib.Bitmap) : Bitmap := ⟨b.bitCnt.toNat, b.bit⟩

/-- What `bitmap_scan` returns for an index. -/
def scanResult : Option ℕ → BitVec 32
  | some i => BitVec.ofNat 32 i
  | none => Lib.bitmapError

variable {b : Lib.Bitmap} {start cnt : BitVec 32} {value : Bool}

/-- The two scans find the same run. -/
theorem firstFit_scan {idx : BitVec 32} (h : b.FirstFit start cnt value idx) :
    idx = scanResult ((unpacked b).scan start.toNat cnt.toNat value) := by
  cases hscan : (unpacked b).scan start.toNat cnt.toNat value with
  | none =>
    apply h.error.mpr
    intro i hi
    exact Bitmap.scan_eq_none hscan hi
  | some i =>
    have hleast := Bitmap.scan_eq_some hscan
    have hne : idx ≠ Lib.bitmapError := fun herror => h.error.mp herror i hleast.1.1 hleast.1.2
    have heq : idx.toNat = i := (h.least hne).unique hleast
    rw [← heq]
    show idx = BitVec.ofNat 32 idx.toNat
    rw [BitVec.ofNat_toNat, BitVec.setWidth_eq]

/-- **The free map refines the packed bitmap**: `bitmap_scan_and_flip` returns the index of the abstract scan and leaves
the abstract bitmap that it leaves. -/
theorem scan_and_flip_refines (b : Lib.Bitmap) (start cnt : BitVec 32) (value : Bool) (hstart : start ≤ b.bitCnt) :
    ∃ b', b.bitmapScanAndFlip start cnt value =
        some (scanResult ((unpacked b).scanAndFlip start.toNat cnt.toNat value).1, b') ∧
      unpacked b' = ((unpacked b).scanAndFlip start.toNat cnt.toNat value).2 := by
  obtain ⟨idx, b', -, hfit, hflip, hcnt, hbit⟩ := Lib.Bitmap.bitmapScanAndFlip_eq hstart cnt value
  have hidx := firstFit_scan hfit
  unfold Bitmap.scanAndFlip
  cases hscan : (unpacked b).scan start.toNat cnt.toNat value with
  | none =>
    rw [hscan] at hidx
    refine ⟨b', hidx ▸ hflip, ?_⟩
    have hbits : b'.bit = b.bit := by
      funext j
      rw [hbit, if_neg fun h => h.1 hidx]
    rw [unpacked, hcnt, hbits]
    rfl
  | some i =>
    rw [hscan] at hidx
    have hrun := (Bitmap.scan_eq_some hscan).1.2
    have hle := b.bitCnt_le
    have hfit' : i + cnt.toNat ≤ b.bitCnt.toNat := hrun.1
    have hval : idx.toNat = i := by
      rw [hidx]
      exact (BitVec.toNat_ofNat i 32).trans (Nat.mod_eq_of_lt (by omega))
    have hne : idx ≠ Lib.bitmapError := Lib.Bitmap.ne_bitmapError (b := b) (by omega)
    refine ⟨b', hidx ▸ hflip, ?_⟩
    have hbits : b'.bit = fun j => if i ≤ j ∧ j < i + cnt.toNat then !value else b.bit j := by
      funext j
      rw [hbit, hval]
      exact if_congr (and_iff_right hne) rfl rfl
    rw [unpacked, hcnt, hbits]
    rfl

end Pintos.Filesys
