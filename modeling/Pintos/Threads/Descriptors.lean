import Pintos.Library.BitFields

/-!
# Descriptors

The 64-bit words that tell the processor of gates and segments: `make_gate` of `threads/interrupt.c`, `make_seg_desc` of
`userprog/gdt.c`, and the operands of `lidt` and `lgdt`.  A decoder reads them as the processor does.
-/

namespace Pintos.Threads.Descriptors

open BitFields

/-! ## Gates -/

/-- `SEL_KCSEG` -/
def selKcseg : ℕ := 0x08

/-- `make_gate`, where its assertions hold -/
def makeGate (function dpl type : ℕ) : ℕ :=
  let e0 := (function &&& 0xffff) ||| (selKcseg <<< 16)
  let e1 := (function &&& 0xffff0000) ||| (1 <<< 15) ||| (dpl <<< 13) ||| (0 <<< 12) ||| (type <<< 8)
  e0 ||| (e1 <<< 32)

/-- What the processor reads in a gate. -/
structure Gate where
  offset : ℕ
  selector : ℕ
  type : ℕ
  system : ℕ
  dpl : ℕ
  present : ℕ
  deriving DecidableEq

/-- The processor reads a gate. -/
def decodeGate (w : ℕ) : Gate where
  offset := bits w 0 16 ||| (bits w 48 16) <<< 16
  selector := bits w 16 16
  type := bits w 40 4
  system := bits w 44 1
  dpl := bits w 45 2
  present := bits w 47 1

variable {function dpl type : ℕ}

theorem low_half {e0 e1 o n : ℕ} (h : o + n ≤ 32) : bits (e0 ||| (e1 <<< 32)) o n = bits e0 o n := by
  rw [bits_or, bits_shiftLeft_below h, Nat.or_zero]

theorem high_half {e0 e1 o n : ℕ} (h0 : e0 < 2 ^ 32) (h : 32 ≤ o) :
    bits (e0 ||| (e1 <<< 32)) o n = bits e1 (o - 32) n := by
  rw [bits_or, bits_shiftLeft h, bits_of_lt (h0.trans_le (Nat.pow_le_pow_right (by decide) h)), Nat.zero_or]

theorem and_low (x : ℕ) : x &&& 0xffff = x % 2 ^ 16 := Nat.and_two_pow_sub_one_eq_mod x 16

theorem gate_e0_lt : (function &&& 0xffff) ||| (selKcseg <<< 16) < 2 ^ 32 := by
  refine Nat.or_lt_two_pow ?_ (by decide)
  rw [and_low]
  omega

theorem bits_gateLow {o n : ℕ} (h : o + n ≤ 32) :
    bits (makeGate function dpl type) o n = bits (function &&& (2 ^ 16 - 1) <<< 0) o n ||| bits (selKcseg <<< 16) o n := by
  rw [makeGate, low_half h, bits_or]
  rfl

theorem bits_gateHigh {o n : ℕ} (h : 32 ≤ o) :
    bits (makeGate function dpl type) o n =
      bits (function &&& (2 ^ 16 - 1) <<< 16) (o - 32) n ||| bits (1 <<< 15) (o - 32) n ||| bits (dpl <<< 13) (o - 32) n |||
        bits (type <<< 8) (o - 32) n := by
  rw [makeGate, high_half gate_e0_lt h, bits_or, bits_or, bits_or, bits_or, Nat.zero_shiftLeft, bits_zero, Nat.or_zero]
  rfl

/-- The processor finds the function, the level and the type that the kernel has put into a gate. -/
theorem decodeGate_makeGate (hf : function < 2 ^ 32) (hd : dpl < 4) (ht : type < 16) :
    decodeGate (makeGate function dpl type) = ⟨function, selKcseg, type, 0, dpl, 1⟩ := by
  have hf' : bits function 0 16 ||| (bits function 16 16) <<< 16 = function := by
    rw [show (16 : ℕ) = 0 + 16 from rfl, bits_append]
    exact bits_self hf
  have hdpl : ∀ o n, 2 ≤ o → bits dpl o n = 0 := fun o n => bits_above hd
  have htype : ∀ o n, 4 ≤ o → bits type o n = 0 := fun o n => bits_above ht
  have hoffset : decodeGate (makeGate function dpl type) = ⟨_, _, _, _, _, _⟩ := rfl
  rw [hoffset, bits_gateLow (o := 0) (by decide), bits_gateLow (o := 16) (by decide), bits_gateHigh (o := 48) (by decide),
    bits_gateHigh (o := 40) (by decide), bits_gateHigh (o := 44) (by decide), bits_gateHigh (o := 45) (by decide),
    bits_gateHigh (o := 47) (by decide)]
  simp (disch := omega) only [bits_and_mask, bits_and_mask_outside, bits_shiftLeft, bits_shiftLeft_below, hdpl, htype,
    Nat.or_zero, Nat.zero_or]
  have hpresent : bits 1 (48 - 32 - 15) 16 = 0 ∧ bits 1 (47 - 32 - 15) 1 = 1 := by decide
  have hdpl' : bits dpl (45 - 32 - 13) 2 = dpl := bits_self hd
  have htype' : bits type (40 - 32 - 8) 4 = type := bits_self ht
  have hselector : bits selKcseg (16 - 16) 16 = selKcseg := by decide
  rw [hpresent.1, hpresent.2, hdpl', htype', hselector, Nat.or_zero]
  exact congrArg (fun x => (⟨x, selKcseg, type, 0, dpl, 1⟩ : Gate)) hf'

/-! ## Segments -/

/-- `make_seg_desc`, where its assertions hold -/
def makeSegDesc (base limit cls type dpl granularity : ℕ) : ℕ :=
  let e0 := (limit &&& 0xffff) ||| (base <<< 16) % 2 ^ 32
  let e1 := ((base >>> 16) &&& 0xff) ||| (type <<< 8) ||| (cls <<< 12) ||| (dpl <<< 13) ||| (1 <<< 15) |||
    (limit &&& 0xf0000) ||| (1 <<< 22) ||| (granularity <<< 23) ||| (base &&& 0xff000000)
  e0 ||| (e1 <<< 32)

/-- What the processor reads in a segment descriptor. -/
structure Segment where
  base : ℕ
  limit : ℕ
  cls : ℕ
  type : ℕ
  dpl : ℕ
  present : ℕ
  longMode : ℕ
  wide : ℕ
  granularity : ℕ
  deriving DecidableEq

/-- The processor reads a segment descriptor. -/
def decodeSegment (w : ℕ) : Segment where
  base := bits w 16 16 ||| (bits w 32 8) <<< 16 ||| (bits w 56 8) <<< 24
  limit := bits w 0 16 ||| (bits w 48 4) <<< 16
  cls := bits w 44 1
  type := bits w 40 4
  dpl := bits w 45 2
  present := bits w 47 1
  longMode := bits w 53 1
  wide := bits w 54 1
  granularity := bits w 55 1

variable {base limit cls granularity : ℕ}

theorem bits_mod {w o n k : ℕ} (h : o + n ≤ k) : bits (w % 2 ^ k) o n = bits w o n := by
  rw [← Nat.and_two_pow_sub_one_eq_mod]
  exact bits_and_mask (w := w) (k := 0) (Nat.zero_le o) (by omega)

theorem segment_e0_lt : (limit &&& 0xffff) ||| (base <<< 16) % 2 ^ 32 < 2 ^ 32 := by
  refine Nat.or_lt_two_pow ?_ (Nat.mod_lt _ (Nat.two_pow_pos 32))
  rw [and_low]
  omega

theorem bits_segmentLow {o n : ℕ} (h : o + n ≤ 32) :
    bits (makeSegDesc base limit cls type dpl granularity) o n =
      bits (limit &&& (2 ^ 16 - 1) <<< 0) o n ||| bits (base <<< 16) o n := by
  rw [makeSegDesc, low_half h, bits_or, bits_mod h]
  rfl

theorem bits_segmentHigh {o n : ℕ} (h : 32 ≤ o) :
    bits (makeSegDesc base limit cls type dpl granularity) o n =
      bits ((base >>> 16) &&& (2 ^ 8 - 1) <<< 0) (o - 32) n ||| bits (type <<< 8) (o - 32) n |||
        bits (cls <<< 12) (o - 32) n ||| bits (dpl <<< 13) (o - 32) n ||| bits (1 <<< 15) (o - 32) n |||
        bits (limit &&& (2 ^ 4 - 1) <<< 16) (o - 32) n ||| bits (1 <<< 22) (o - 32) n |||
        bits (granularity <<< 23) (o - 32) n ||| bits (base &&& (2 ^ 8 - 1) <<< 24) (o - 32) n := by
  rw [makeSegDesc, high_half segment_e0_lt h]
  simp only [bits_or]
  rfl

/-- The processor finds the segment that the kernel means. -/
theorem decodeSegment_makeSegDesc (hbase : base < 2 ^ 32) (hlimit : limit < 2 ^ 20) (hcls : cls < 2) (ht : type < 16)
    (hd : dpl < 4) (hg : granularity < 2) :
    decodeSegment (makeSegDesc base limit cls type dpl granularity) = ⟨base, limit, cls, type, dpl, 1, 0, 1, granularity⟩ := by
  have hbase' : bits base 0 16 ||| (bits base 16 8) <<< 16 ||| (bits base 24 8) <<< 24 = base := by
    have h16 : bits base 0 16 ||| (bits base 16 8) <<< 16 = bits base 0 24 := bits_append
    have h24 : bits base 0 24 ||| (bits base 24 8) <<< 24 = bits base 0 32 := bits_append
    rw [h16, h24]
    exact bits_self hbase
  have hlimit' : bits limit 0 16 ||| (bits limit 16 4) <<< 16 = limit := by
    have h16 : bits limit 0 16 ||| (bits limit 16 4) <<< 16 = bits limit 0 20 := bits_append
    rw [h16]
    exact bits_self hlimit
  have hcls' : ∀ o n, 1 ≤ o → bits cls o n = 0 := fun o n => bits_above hcls
  have hdpl : ∀ o n, 2 ≤ o → bits dpl o n = 0 := fun o n => bits_above hd
  have htype : ∀ o n, 4 ≤ o → bits type o n = 0 := fun o n => bits_above ht
  have hgran : ∀ o n, 1 ≤ o → bits granularity o n = 0 := fun o n => bits_above hg
  have hone : ∀ o n, 1 ≤ o → bits 1 o n = 0 := fun o n => bits_above (by decide)
  have hdecode : decodeSegment (makeSegDesc base limit cls type dpl granularity) = ⟨_, _, _, _, _, _, _, _, _⟩ := rfl
  rw [hdecode, bits_segmentLow (o := 16) (by decide), bits_segmentLow (o := 0) (by decide),
    bits_segmentHigh (o := 32) (by decide), bits_segmentHigh (o := 56) (by decide), bits_segmentHigh (o := 48) (by decide),
    bits_segmentHigh (o := 44) (by decide), bits_segmentHigh (o := 40) (by decide), bits_segmentHigh (o := 45) (by decide),
    bits_segmentHigh (o := 47) (by decide), bits_segmentHigh (o := 53) (by decide), bits_segmentHigh (o := 54) (by decide),
    bits_segmentHigh (o := 55) (by decide)]
  simp (disch := omega) only [bits_and_mask, bits_and_mask_outside, bits_shiftLeft, bits_shiftLeft_below, bits_shiftRight,
    hcls', hdpl, htype, hgran, hone, Nat.or_zero, Nat.zero_or]
  have hself : bits cls 0 1 = cls ∧ bits type 0 4 = type ∧ bits dpl 0 2 = dpl ∧ bits granularity 0 1 = granularity :=
    ⟨bits_self hcls, bits_self ht, bits_self hd, bits_self hg⟩
  obtain ⟨hc, hty, hdp, hgr⟩ := hself
  show (⟨bits base 0 16 ||| bits base 16 8 <<< 16 ||| bits base 24 8 <<< 24, bits limit 0 16 ||| bits limit 16 4 <<< 16,
    bits cls 0 1, bits type 0 4, bits dpl 0 2, bits 1 0 1, 0, bits 1 0 1, bits granularity 0 1⟩ : Segment) = _
  rw [hbase', hlimit', hc, hty, hdp, hgr]
  rfl

/-! ## The segments of the kernel -/

/-- `make_code_desc` -/
def makeCodeDesc (dpl : ℕ) : ℕ := makeSegDesc 0 0xfffff 1 10 dpl 1

/-- `make_data_desc` -/
def makeDataDesc (dpl : ℕ) : ℕ := makeSegDesc 0 0xfffff 1 2 dpl 1

/-- `make_tss_desc` -/
def makeTssDesc (laddr : ℕ) : ℕ := makeSegDesc laddr 0x67 0 9 0 0

/-- `gdt_init`; entry `i` has the selectors from `8 * i` on. -/
def gdtInit (tss : ℕ) : List ℕ :=
  [0, makeCodeDesc 0, makeDataDesc 0, makeCodeDesc 3, makeDataDesc 3, makeTssDesc tss]

/-- The processor, at level `cpl`, may load a data segment register with the selector: its entry is in this table, and is a
present code or data segment that both levels may use. -/
def Loadable (gdt : List ℕ) (cpl sel : ℕ) : Prop :=
  sel / 4 % 2 = 0 ∧ ∃ w, gdt[sel / 8]? = some w ∧ (decodeSegment w).present = 1 ∧ (decodeSegment w).cls = 1 ∧
    max cpl (sel % 4) ≤ (decodeSegment w).dpl

/-- **User mode has the user segments, and no others.**  Whatever selector a user program loads, the processor takes it just
if it is one of theirs; each reaches the whole address space.  The task register reaches the TSS. -/
theorem user_segments {tss : ℕ} (htss : tss < 2 ^ 32) :
    (∀ sel, Loadable (gdtInit tss) 3 sel ↔ sel / 4 % 2 = 0 ∧ (sel / 8 = 3 ∨ sel / 8 = 4)) ∧
      (∀ sel w, Loadable (gdtInit tss) 3 sel → (gdtInit tss)[sel / 8]? = some w →
        (decodeSegment w).base = 0 ∧ (decodeSegment w).limit = 0xfffff ∧ (decodeSegment w).granularity = 1) ∧
      ∃ w, (gdtInit tss)[0x28 / 8]? = some w ∧ decodeSegment w = ⟨tss, 0x67, 0, 9, 0, 1, 0, 1, 0⟩ := by
  have hcode : ∀ dpl, dpl < 4 → decodeSegment (makeCodeDesc dpl) = ⟨0, 0xfffff, 1, 10, dpl, 1, 0, 1, 1⟩ := fun dpl hd =>
    decodeSegment_makeSegDesc (by decide) (by decide) (by decide) (by decide) hd (by decide)
  have hdata : ∀ dpl, dpl < 4 → decodeSegment (makeDataDesc dpl) = ⟨0, 0xfffff, 1, 2, dpl, 1, 0, 1, 1⟩ := fun dpl hd =>
    decodeSegment_makeSegDesc (by decide) (by decide) (by decide) (by decide) hd (by decide)
  have htask : decodeSegment (makeTssDesc tss) = ⟨tss, 0x67, 0, 9, 0, 1, 0, 1, 0⟩ :=
    decodeSegment_makeSegDesc htss (by decide) (by decide) (by decide) (by decide) (by decide)
  have hnull : decodeSegment 0 = ⟨0, 0, 0, 0, 0, 0, 0, 0, 0⟩ := by decide
  have hload : ∀ sel, Loadable (gdtInit tss) 3 sel ↔ sel / 4 % 2 = 0 ∧ (sel / 8 = 3 ∨ sel / 8 = 4) := by
    intro sel
    unfold Loadable
    refine and_congr_right fun _ => ?_
    have hrpl : max 3 (sel % 4) = 3 := by omega
    rw [hrpl]
    generalize sel / 8 = i
    rcases i with _ | _ | _ | _ | _ | _ | i
    · simp [gdtInit, hnull]
    · simp [gdtInit, hcode]
    · simp [gdtInit, hdata]
    · simp [gdtInit, hcode]
    · simp [gdtInit, hdata]
    · simp [gdtInit, htask]
    · simp [gdtInit]
  refine ⟨hload, fun sel w hsel hw => ?_, _, rfl, htask⟩
  rcases ((hload sel).mp hsel).2 with heq | heq
  · rw [heq] at hw
    cases hw
    simp [hcode]
  · rw [heq] at hw
    cases hw
    simp [hdata]

theorem user_segments_tss : ∃ w, (gdtInit 0xc0107000)[0x28 / 8]? = some w ∧
    decodeSegment w = ⟨0xc0107000, 0x67, 0, 9, 0, 1, 0, 1, 0⟩ := (user_segments (by decide)).2.2

end Pintos.Threads.Descriptors
