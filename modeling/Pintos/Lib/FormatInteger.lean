import Mathlib.Data.Nat.Digits.Lemmas
import Pintos.Library.Region

/-!
# Printing integers

`format_integer` of `lib/stdio.c`: the digits of the value come into a buffer of 64 characters from the last one on,
with commas between groups of them and zeros behind them, and the buffer is printed backwards with a sign, a prefix
and padding around it.

* `Accumulated`: what has come into the buffer.  `accumulate_eq` says what it is in the end, and that no character came
  to lie outside.
* `Formats` is what the conversion is to do.  It does so but for three things (`formatInteger_formats_iff`): the
  commas count as digits when the zeros for the precision are added, the padding comes twice when both flags for it are
  set, and the width wraps around when it is near the least `int`.
-/

namespace Pintos.Lib

/-! ## The code -/

/-- `struct integer_base`; `x` is 0 where there is no prefix. -/
structure IntegerBase where
  base : ℕ
  digits : List Char
  x : Option Char
  group : ℕ
  deriving DecidableEq

/-- `base_d` -/
def baseD : IntegerBase := ⟨10, "0123456789".toList, none, 3⟩

/-- `base_o` -/
def baseO : IntegerBase := ⟨8, "01234567".toList, none, 3⟩

/-- `base_x` -/
def baseLowerX : IntegerBase := ⟨16, "0123456789abcdef".toList, some 'x', 4⟩

/-- `base_X` -/
def baseUpperX : IntegerBase := ⟨16, "0123456789ABCDEF".toList, some 'X', 4⟩

def integerBases : List IntegerBase := [baseD, baseO, baseLowerX, baseUpperX]

/-- The flags, the width and the precision of `struct printf_conversion`. -/
structure PrintfConversion where
  minus : Bool
  plus : Bool
  space : Bool
  pound : Bool
  zero : Bool
  group : Bool
  width : BitVec 32
  precision : BitVec 32

/-- `buf` and `cp - buf`. -/
abbrev Digits := Region Char 0 64 × ℕ

namespace FormatInteger

/-- `*cp++ = ch` -/
def push (ch : Char) (p : Digits) : Option Digits := (p.1.put p.2 ch).map fun buf => (buf, p.2 + 1)

/-- The comma in front of a digit. -/
def comma (b : IntegerBase) (group : Bool) (digitCnt : ℕ) (p : Digits) : Option Digits :=
  if group && decide (digitCnt > 0) && decide (digitCnt % b.group = 0) then push ',' p else some p

/-- `while (value > 0)`; 64 passes are enough. -/
def digitLoop (b : IntegerBase) (group : Bool) : ℕ → ℕ → ℕ → Digits → Option Digits
  | 0, _, _, _ => none
  | fuel + 1, value, digitCnt, p =>
    if value > 0 then do
      let p ← comma b group digitCnt p
      let digit ← b.digits[value % b.base]?
      let p ← push digit p
      digitLoop b group fuel (value / b.base) (digitCnt + 1) p
    else some p

/-- `while (cp - buf < precision && cp < buf + sizeof buf - 1)` -/
def zeroLoop (precision : ℤ) : ℕ → Digits → Option Digits
  | 0, _ => none
  | fuel + 1, p =>
    if (p.2 : ℤ) < precision ∧ p.2 < 64 - 1 then (push '0' p).bind (zeroLoop precision fuel) else some p

/-- The precision that is rendered. -/
def rendered (precision : BitVec 32) : ℤ := if precision.toInt < 0 then 1 else precision.toInt

/-- The zero in front of an octal number. -/
def poundZero (b : IntegerBase) (c : PrintfConversion) (p : Digits) : Option Digits :=
  if c.pound ∧ b.base = 8 ∧ (p.2 = 0 ∨ p.1.get (p.2 - 1) ≠ some '0') then push '0' p else some p

/-- The first part of `format_integer`: the characters in the buffer. -/
def accumulate (b : IntegerBase) (value : BitVec 64) (c : PrintfConversion) (buf : Region Char 0 64) :
    Option Digits := do
  let p ← digitLoop b c.group 64 value.toNat 0 (buf, 0)
  let p ← zeroLoop (rendered c.precision) 65 p
  poundZero b c p

/-- `while (cp > buf) output (*--cp, aux)` -/
def outputLoop (buf : Region Char 0 64) : ℕ → Option (List Char)
  | 0 => some []
  | cp + 1 => (buf.get cp).bind fun ch => (outputLoop buf cp).map (ch :: ·)

/-- The sign character, if there is one. -/
def signOf (isSigned negative : Bool) (c : PrintfConversion) : Option Char :=
  if isSigned then
    if c.plus then some (if negative then '-' else '+')
    else if c.space then some (if negative then '-' else ' ')
    else if negative then some '-'
    else none
  else none

/-- The character of the prefix, if there is one. -/
def prefixChar (b : IntegerBase) (value : BitVec 64) (c : PrintfConversion) : Option Char :=
  if c.pound ∧ value ≠ 0 then b.x else none

/-- `pad_cnt`, as an `int`, where `cnt` characters are in the buffer. -/
def padCnt (width : BitVec 32) (cnt : ℕ) (x sign : Option Char) : ℕ :=
  let padCnt := width - BitVec.ofNat 32 cnt - (if x.isSome then 2 else 0) - (if sign.isSome then 1 else 0)
  if padCnt.toInt < 0 then 0 else padCnt.toNat

/-- `output_dup` -/
def outputDup (ch : Char) (cnt : ℕ) : List Char := List.replicate cnt ch

end FormatInteger

open FormatInteger in
/-- `format_integer`: the characters that it hands to `output`; `buf` is the memory of its buffer before. -/
def formatInteger (value : BitVec 64) (isSigned negative : Bool) (b : IntegerBase) (c : PrintfConversion)
    (buf : Region Char 0 64) : Option (List Char) := do
  let sign := signOf isSigned negative c
  let x := prefixChar b value c
  let (buf, cnt) ← accumulate b value c buf
  let padCnt := padCnt c.width cnt x sign
  let digits ← outputLoop buf cnt
  return (if !c.minus && !c.zero then outputDup ' ' padCnt else []) ++ sign.toList ++
    (match x with | some x => ['0', x] | none => []) ++ (if c.zero then outputDup '0' padCnt else []) ++ digits ++
    (if c.minus then outputDup ' ' padCnt else [])

/-! ## What the conversion is to do -/

namespace FormatInteger

variable {b : IntegerBase} {value : BitVec 64} {isSigned negative : Bool} {c : PrintfConversion}
  {buf : Region Char 0 64} {p p' : Digits} {l digits out : List Char}

/-- A signed conversion has a sign if the value is negative or a flag requests one, and no other conversion has one. -/
def requiredSign (isSigned negative : Bool) (c : PrintfConversion) : List Char :=
  if !isSigned then [] else if negative then ['-'] else if c.plus then ['+'] else if c.space then [' '] else []

/-- A hexadecimal conversion of a value that is not zero has a prefix if the flag requests it. -/
def requiredPrefix (b : IntegerBase) (value : BitVec 64) (c : PrintfConversion) : List Char :=
  if c.pound ∧ value ≠ 0 ∧ b.base = 16 then ['0', if 'a' ∈ b.digits then 'x' else 'X'] else []

/-- The digits of a digit string. -/
def withoutCommas (digits : List Char) : List Char := digits.filter (· ≠ ',')

/-- **What `format_integer` is to print**, with the digit string `digits`. -/
structure Formats (value : BitVec 64) (isSigned negative : Bool) (b : IntegerBase) (c : PrintfConversion)
    (digits out : List Char) : Prop where
  digit : ∀ ch ∈ withoutCommas digits, ch ∈ b.digits
  denotes : Nat.ofDigits b.base ((withoutCommas digits).reverse.map b.digits.idxOf) = value.toNat
  precision : rendered c.precision ≤ 63 → rendered c.precision ≤ (withoutCommas digits).length
  output : ∃ left zeros right, out = List.replicate left ' ' ++ requiredSign isSigned negative c ++
    requiredPrefix b value c ++ List.replicate zeros '0' ++ digits ++ List.replicate right ' '
  length : (out.length : ℤ) = max c.width.toInt
    ((requiredSign isSigned negative c).length + (requiredPrefix b value c).length + digits.length : ℕ)

/-- The number of digits of the value, and the number of commas between them. -/
def digitCnt (b : IntegerBase) (value : BitVec 64) : ℕ := (Nat.digits b.base value.toNat).length

def commaCnt (b : IntegerBase) (value : BitVec 64) (c : PrintfConversion) : ℕ :=
  if c.group then (digitCnt b value - 1) / b.group else 0

/-- The length of the digit string. -/
def bodyLength (b : IntegerBase) (value : BitVec 64) (c : PrintfConversion) : ℕ :=
  max (digitCnt b value + commaCnt b value c) (min (rendered c.precision) 63).toNat +
    if c.pound ∧ b.base = 8 ∧ rendered c.precision ≤ digitCnt b value + commaCnt b value c then 1 else 0

def unpaddedLength (b : IntegerBase) (value : BitVec 64) (isSigned negative : Bool) (c : PrintfConversion) : ℕ :=
  (requiredSign isSigned negative c).length + (requiredPrefix b value c).length + bodyLength b value c

/-- The conversions that are right: the precision is no more than the digits or there is no comma; only one kind of
padding is asked for, or none is needed; the width is not near the least `int`. -/
structure Plain (b : IntegerBase) (value : BitVec 64) (isSigned negative : Bool) (c : PrintfConversion) : Prop where
  precision : rendered c.precision ≤ 63 → commaCnt b value c = 0 ∨ rendered c.precision ≤ digitCnt b value ∨
    (c.pound ∧ b.base = 8 ∧ rendered c.precision = digitCnt b value + 1)
  padding : ¬(c.minus ∧ c.zero) ∨ c.width.toInt ≤ unpaddedLength b value isSigned negative c
  width : (unpaddedLength b value isSigned negative c : ℤ) ≤ c.width.toInt + 2 ^ 31

/-! ## The four bases -/

structure Base (b : IntegerBase) : Prop where
  base_ge : 8 ≤ b.base
  group_ge : 3 ≤ b.group
  length : b.digits.length = b.base
  nodup : b.digits.Nodup
  comma : ',' ∉ b.digits
  zero : b.digits[0]? = some '0'
  x : b.x.toList = if b.base = 16 then [if 'a' ∈ b.digits then 'x' else 'X'] else []

theorem base_of_mem (hb : b ∈ integerBases) : Base b := by
  have hall : ∀ b ∈ integerBases, 8 ≤ b.base ∧ 3 ≤ b.group ∧ b.digits.length = b.base ∧ b.digits.Nodup ∧
      ',' ∉ b.digits ∧ b.digits[0]? = some '0' ∧
      b.x.toList = if b.base = 16 then [if 'a' ∈ b.digits then 'x' else 'X'] else [] := by
    decide
  obtain ⟨h₁, h₂, h₃, h₄, h₅, h₆, h₇⟩ := hall b hb
  exact ⟨h₁, h₂, h₃, h₄, h₅, h₆, h₇⟩

/-! ## The buffer -/

/-- The characters that have come into the buffer. -/
structure Accumulated (p : Digits) (l : List Char) : Prop where
  cnt : p.2 = l.length
  cells : ∃ rest, p.1.cells = l ++ rest

theorem accumulated_nil (buf : Region Char 0 64) : Accumulated (buf, 0) [] := ⟨rfl, buf.cells, rfl⟩

theorem Accumulated.push (h : Accumulated p l) (ch : Char) (hl : l.length < 64) :
    ∃ p', push ch p = some p' ∧ Accumulated p' (l ++ [ch]) := by
  obtain ⟨rest, hrest⟩ := h.cells
  have hcnt := h.cnt
  obtain ⟨buf, hput⟩ := p.1.put_of_mem ch (Nat.zero_le p.2) (by omega)
  obtain ⟨-, -, hcells⟩ := Region.put_eq hput
  have hroom := p.1.room
  rw [hrest, List.length_append] at hroom
  refine ⟨(buf, p.2 + 1), ?_, ?_, ?_⟩
  · unfold FormatInteger.push
    rw [hput]
    rfl
  · rw [List.length_append, hcnt]
    rfl
  · cases rest with
    | nil =>
      rw [List.length_nil] at hroom
      omega
    | cons y rest =>
      refine ⟨rest, ?_⟩
      rw [hcells, hrest, Nat.sub_zero, hcnt, List.set_append_right l.length ch le_rfl, Nat.sub_self, List.set_cons_zero,
        List.append_assoc]
      rfl

theorem Accumulated.get (h : Accumulated p l) {i : ℕ} (hi : i < l.length) : p.1.get i = l[i]? := by
  obtain ⟨rest, hrest⟩ := h.cells
  rw [Region.get, if_pos (Nat.zero_le i), hrest, Nat.sub_zero, List.getElem?_append_left hi]

/-- The buffer is printed backwards. -/
theorem Accumulated.outputLoop (h : Accumulated p l) : ∀ n ≤ l.length, outputLoop p.1 n = some (l.take n).reverse := by
  intro n
  induction n with
  | zero => exact fun _ => rfl
  | succ n ih =>
    intro hn
    have hget : p.1.get n = some l[n] := by rw [h.get hn, List.getElem?_eq_getElem hn]
    unfold FormatInteger.outputLoop
    rw [hget, Option.bind_some, ih (by omega), Option.map_some, List.take_succ_eq_append_getElem hn, List.reverse_append]
    rfl

/-! ## The digits -/

/-- The comma in front of a digit, when `cnt` digits stand in front of it. -/
def commaChars (b : IntegerBase) (group : Bool) (cnt : ℕ) : List Char :=
  if group && decide (cnt > 0) && decide (cnt % b.group = 0) then [','] else []

/-- The characters for digits from the last one on. -/
def groupedChars (b : IntegerBase) (group : Bool) : ℕ → List ℕ → List Char
  | _, [] => []
  | cnt, v :: vs => commaChars b group cnt ++ b.digits.getD v '0' :: groupedChars b group (cnt + 1) vs

theorem Accumulated.comma (h : Accumulated p l) (group : Bool) (cnt : ℕ)
    (hl : l.length + (commaChars b group cnt).length ≤ 64) :
    ∃ p', comma b group cnt p = some p' ∧ Accumulated p' (l ++ commaChars b group cnt) := by
  unfold FormatInteger.comma
  unfold commaChars at hl ⊢
  split
  · case isTrue hif =>
    rw [if_pos hif] at hl
    exact h.push ',' hl
  · refine ⟨p, rfl, ?_⟩
    rw [List.append_nil]
    exact h

theorem digitLoop_spec (fuel : ℕ) (hb : Base b) (group : Bool) {value cnt : ℕ} (h : Accumulated p l)
    (hroom : l.length + (groupedChars b group cnt (Nat.digits b.base value)).length ≤ 64)
    (hfuel : (Nat.digits b.base value).length < fuel) :
    ∃ p', digitLoop b group fuel value cnt p = some p' ∧
      Accumulated p' (l ++ groupedChars b group cnt (Nat.digits b.base value)) := by
  induction fuel generalizing p l value cnt with
  | zero => exact absurd hfuel (Nat.not_lt_zero _)
  | succ fuel ih =>
    have hbase := hb.base_ge
    by_cases hpos : value > 0
    · have hdigits := Nat.digits_def' (by omega : 1 < b.base) hpos
      rw [hdigits, List.length_cons] at hfuel
      rw [hdigits, groupedChars, List.length_append, List.length_cons] at hroom
      have hlt : value % b.base < b.digits.length := by
        rw [hb.length]
        exact Nat.mod_lt _ (by omega)
      have hdigit : b.digits[value % b.base]? = some (b.digits.getD (value % b.base) '0') := by
        rw [List.getD_eq_getElem?_getD, List.getElem?_eq_getElem hlt]
        rfl
      obtain ⟨p₁, hcomma, h₁⟩ := h.comma (b := b) group cnt (by omega)
      obtain ⟨p₂, hpush, h₂⟩ := h₁.push (b.digits.getD (value % b.base) '0') (by
        rw [List.length_append]
        omega)
      have hroom₂ : (l ++ commaChars b group cnt ++ [b.digits.getD (value % b.base) '0']).length +
          (groupedChars b group (cnt + 1) (Nat.digits b.base (value / b.base))).length ≤ 64 := by
        rw [List.length_append, List.length_append, List.length_singleton]
        omega
      obtain ⟨p', hrest, h'⟩ := ih h₂ hroom₂ (Nat.lt_of_succ_lt_succ hfuel)
      refine ⟨p', ?_, ?_⟩
      · unfold digitLoop
        rw [if_pos hpos]
        simp only [hcomma, hdigit, hpush, Option.bind_eq_bind, Option.bind_some]
        exact hrest
      · rw [hdigits, groupedChars]
        simpa only [List.append_assoc, List.singleton_append] using h'
    · obtain rfl : value = 0 := by omega
      refine ⟨p, if_neg hpos, ?_⟩
      rw [Nat.digits_zero, groupedChars, List.append_nil]
      exact h

theorem commaChars_length (b : IntegerBase) (cnt : ℕ) :
    (commaChars b true (cnt + 1)).length + cnt / b.group = (cnt + 1) / b.group := by
  rw [Nat.succ_div, commaChars]
  by_cases hdvd : b.group ∣ cnt + 1
  · rw [if_pos hdvd, if_pos (by simp [Nat.mod_eq_zero_of_dvd hdvd]), List.length_singleton, Nat.add_comm]
  · have hmod : (cnt + 1) % b.group ≠ 0 := fun h => hdvd (Nat.dvd_of_mod_eq_zero h)
    rw [if_neg hdvd, if_neg (by simp [hmod]), List.length_nil, Nat.zero_add, Nat.add_zero]

/-- Behind the first digit. -/
theorem groupedChars_length_succ (b : IntegerBase) (vs : List ℕ) (cnt : ℕ) :
    (groupedChars b true (cnt + 1) vs).length + cnt / b.group = vs.length + (cnt + vs.length) / b.group := by
  induction vs generalizing cnt with
  | nil =>
    simp [groupedChars]
  | cons v vs ih =>
    have hcomma := commaChars_length b cnt
    have hrest := ih (cnt + 1)
    rw [groupedChars, List.length_append, List.length_cons, List.length_cons,
      show cnt + (vs.length + 1) = cnt + 1 + vs.length by omega]
    omega

/-- The number of characters for digits. -/
theorem groupedChars_length (b : IntegerBase) (group : Bool) (vs : List ℕ) :
    (groupedChars b group 0 vs).length = vs.length + if group then (vs.length - 1) / b.group else 0 := by
  cases group with
  | false =>
    have hnone : ∀ cnt, (groupedChars b false cnt vs).length = vs.length := by
      induction vs with
      | nil => exact fun _ => rfl
      | cons v vs ih =>
        intro cnt
        rw [groupedChars, List.length_append, List.length_cons, ih (cnt + 1)]
        simp [commaChars]
    exact hnone 0
  | true =>
    cases vs with
    | nil =>
      simp [groupedChars]
    | cons v vs =>
      have hrest := groupedChars_length_succ b vs 0
      rw [Nat.zero_div, Nat.add_zero, Nat.zero_add] at hrest
      rw [groupedChars, List.length_append, List.length_cons, List.length_cons, hrest]
      simp [commaChars]
      omega

/-- Without the commas there are the digits. -/
theorem withoutCommas_groupedChars (hb : Base b) (group : Bool) {vs : List ℕ} (hvs : ∀ v ∈ vs, v < b.base)
    (cnt : ℕ) :
    withoutCommas (groupedChars b group cnt vs) = vs.map fun v => b.digits.getD v '0' := by
  induction vs generalizing cnt with
  | nil => rfl
  | cons v vs ih =>
    have hcomma : withoutCommas (commaChars b group cnt) = [] := by
      unfold commaChars
      split
      · rfl
      · rfl
    have hv : b.digits.getD v '0' ≠ ',' := by
      have hlt : v < b.digits.length := hb.length ▸ hvs v List.mem_cons_self
      intro heq
      apply hb.comma
      rw [← heq, List.getD_eq_getElem?_getD, List.getElem?_eq_getElem hlt]
      exact List.getElem_mem hlt
    rw [groupedChars, withoutCommas, List.filter_append, List.filter_cons_of_pos (by simpa using hv), List.map_cons]
    change withoutCommas _ ++ _ :: withoutCommas _ = _
    rw [hcomma, ih (fun v hv => hvs v (List.mem_cons_of_mem _ hv)) (cnt + 1)]
    rfl

/-- The last character is that of the first digit. -/
theorem groupedChars_getLast? (group : Bool) (vs : List ℕ) (cnt : ℕ) :
    (groupedChars b group cnt vs).getLast? = vs.getLast?.map fun v => b.digits.getD v '0' := by
  induction vs generalizing cnt with
  | nil => rfl
  | cons v vs ih =>
    rw [groupedChars, List.getLast?_append, List.getLast?_cons, ih (cnt + 1)]
    cases hlast : vs.getLast? with
    | none =>
      rw [List.getLast?_eq_none_iff.mp hlast]
      rfl
    | some w =>
      rw [List.getLast?_cons, hlast]
      rfl

/-! ## The zeros -/

theorem zeroLoop_spec (fuel : ℕ) (precision : ℤ) (h : Accumulated p l) (hl : l.length ≤ 63)
    (hfuel : 63 - l.length < fuel) :
    ∃ p', zeroLoop precision fuel p = some p' ∧
      Accumulated p' (l ++ List.replicate ((min precision 63).toNat - l.length) '0') := by
  induction fuel generalizing p l with
  | zero => exact absurd hfuel (Nat.not_lt_zero _)
  | succ fuel ih =>
    have hcnt := h.cnt
    unfold zeroLoop
    by_cases hmore : (p.2 : ℤ) < precision ∧ p.2 < 64 - 1
    · obtain ⟨p₁, hpush, h₁⟩ := h.push '0' (by omega)
      have hlen : (l ++ ['0']).length = l.length + 1 := List.length_append
      obtain ⟨p', hrest, h'⟩ := ih h₁ (by omega) (by omega)
      have hzeros : (min precision 63).toNat - l.length = (min precision 63).toNat - (l ++ ['0']).length + 1 := by omega
      refine ⟨p', ?_, ?_⟩
      · rw [if_pos hmore, hpush]
        exact hrest
      · rw [hzeros, List.replicate_succ]
        simpa only [List.append_assoc, List.singleton_append] using h'
    · have hzeros : (min precision 63).toNat - l.length = 0 := by omega
      rw [if_neg hmore, hzeros, List.replicate_zero, List.append_nil]
      exact ⟨p, rfl, h⟩

/-- The zero that the flag requests. -/
def poundChars (b : IntegerBase) (c : PrintfConversion) (l : List Char) : List Char :=
  if c.pound ∧ b.base = 8 ∧ l.getLast? ≠ some '0' then ['0'] else []

theorem poundZero_spec (b : IntegerBase) (c : PrintfConversion) (h : Accumulated p l) (hl : l.length ≤ 63) :
    ∃ p', poundZero b c p = some p' ∧ Accumulated p' (l ++ poundChars b c l) := by
  have hcnt := h.cnt
  have hlast : (p.2 = 0 ∨ p.1.get (p.2 - 1) ≠ some '0') ↔ l.getLast? ≠ some '0' := by
    cases l with
    | nil => exact iff_of_true (.inl hcnt) (by simp)
    | cons ch l =>
      rw [List.length_cons] at hcnt
      have hget : p.1.get (p.2 - 1) = (ch :: l).getLast? := by
        rw [h.get (by rw [List.length_cons]; omega), List.getLast?_eq_getElem?, hcnt, List.length_cons]
      rw [hget]
      exact or_iff_right (by omega)
  unfold poundZero poundChars
  simp only [hlast]
  split
  · exact h.push '0' (by omega)
  · refine ⟨p, rfl, ?_⟩
    rw [List.append_nil]
    exact h

/-! ## The first part as a whole -/

variable (b value c) in
/-- The characters for digits, from the last one on. -/
def valueChars : List Char := groupedChars b c.group 0 (Nat.digits b.base value.toNat)

variable (b value c) in
/-- What comes into the buffer. -/
def bufferChars : List Char :=
  valueChars b value c ++
    List.replicate ((min (rendered c.precision) 63).toNat - (valueChars b value c).length) '0' ++
    poundChars b c (valueChars b value c ++
      List.replicate ((min (rendered c.precision) 63).toNat - (valueChars b value c).length) '0')

theorem valueChars_length (b : IntegerBase) (value : BitVec 64) (c : PrintfConversion) :
    (valueChars b value c).length = digitCnt b value + commaCnt b value c := by
  rw [valueChars, groupedChars_length]
  rfl

/-- A value has at most 22 digits. -/
theorem digitCnt_le (hb : Base b) (value : BitVec 64) : digitCnt b value ≤ 22 := by
  have hbase := hb.base_ge
  apply (Nat.digits_length_le_iff (by omega) _).mpr
  calc value.toNat < 2 ^ 64 := value.isLt
    _ ≤ 8 ^ 22 := by norm_num
    _ ≤ b.base ^ 22 := Nat.pow_le_pow_left hbase 22

theorem valueChars_le (hb : Base b) (value : BitVec 64) (c : PrintfConversion) : (valueChars b value c).length ≤ 29 := by
  have hdigits := digitCnt_le hb value
  have hgroup := hb.group_ge
  have hcommas : commaCnt b value c ≤ 7 := by
    unfold commaCnt
    split
    · calc (digitCnt b value - 1) / b.group ≤ 21 / 3 := Nat.div_le_div (by omega) hgroup (by decide)
        _ = 7 := rfl
    · exact Nat.zero_le _
  rw [valueChars_length]
  omega

/-- **The first part of `format_integer`** stays inside the buffer. -/
theorem accumulate_eq (hb : Base b) (value : BitVec 64) (c : PrintfConversion) (buf : Region Char 0 64) :
    ∃ p, accumulate b value c buf = some p ∧ Accumulated p (bufferChars b value c) := by
  have hvalue := valueChars_le hb value c
  have hdigits := digitCnt_le hb value
  obtain ⟨p₁, hloop, h₁⟩ := digitLoop_spec 64 hb c.group (accumulated_nil buf)
    (by rw [List.length_nil]; exact (Nat.zero_add _).trans_le (hvalue.trans (by decide)))
    (hdigits.trans_lt (by decide))
  rw [List.nil_append] at h₁
  change Accumulated p₁ (valueChars b value c) at h₁
  obtain ⟨p₂, hzeros, h₂⟩ := zeroLoop_spec 65 (rendered c.precision) h₁ (by omega) (by omega)
  obtain ⟨p₃, hpound, h₃⟩ := poundZero_spec b c h₂ (by
    rw [List.length_append, List.length_replicate]
    omega)
  refine ⟨p₃, ?_, h₃⟩
  unfold accumulate
  simp only [hloop, hzeros, Option.bind_eq_bind, Option.bind_some]
  exact hpound

/-! ## The digit string -/

variable (b value c) in
/-- The digit string: the buffer, backwards. -/
def digitString : List Char := (bufferChars b value c).reverse

theorem digits_lt (hb : Base b) : ∀ v ∈ Nat.digits b.base value.toNat, v < b.base := by
  have hbase := hb.base_ge
  intro v hv
  exact Nat.digits_lt_base (by omega) hv

theorem idxOf_digit (hb : Base b) {v : ℕ} (hv : v < b.base) :
    b.digits.getD v '0' ∈ b.digits ∧ b.digits.idxOf (b.digits.getD v '0') = v := by
  have hlt : v < b.digits.length := by
    rw [hb.length]
    exact hv
  rw [List.getD_eq_getElem?_getD, List.getElem?_eq_getElem hlt]
  exact ⟨List.getElem_mem hlt, hb.nodup.idxOf_getElem v hlt⟩

theorem withoutCommas_zeros (n : ℕ) : withoutCommas (List.replicate n '0') = List.replicate n '0' := by
  simp [withoutCommas]

/-- The zeros in the buffer behind the digits. -/
def zeroCnt (b : IntegerBase) (value : BitVec 64) (c : PrintfConversion) : ℕ :=
  (min (rendered c.precision) 63).toNat - (digitCnt b value + commaCnt b value c) +
    if c.pound ∧ b.base = 8 ∧ rendered c.precision ≤ digitCnt b value + commaCnt b value c then 1 else 0

/-- The first digit of a value is not zero. -/
theorem valueChars_getLast? (hb : Base b) (value : BitVec 64) (c : PrintfConversion) :
    (valueChars b value c).getLast? ≠ some '0' := by
  have hbase := hb.base_ge
  rw [valueChars, groupedChars_getLast?]
  cases hlast : (Nat.digits b.base value.toNat).getLast? with
  | none => exact (Option.some_ne_none _).symm
  | some v =>
    intro heq
    have hchar : b.digits.getD v '0' = '0' := Option.some.inj heq
    have hmem := List.mem_of_getLast? hlast
    have hzero : b.digits.getD 0 '0' = '0' := by rw [List.getD_eq_getElem?_getD, hb.zero]; rfl
    have hv : v = 0 := by
      rw [← (idxOf_digit hb (digits_lt hb v hmem)).2, hchar, ← hzero, (idxOf_digit hb (by omega)).2]
    have hvalue : value.toNat ≠ 0 := by
      intro h0
      rw [h0, Nat.digits_zero] at hmem
      cases hmem
    apply Nat.getLast_digit_ne_zero b.base hvalue
    rw [List.getLast?_eq_some_getLast] at hlast
    exact (Option.some.inj hlast).trans hv

/-- The zero for the flag comes behind the digits when no other zeros do: the first digit of a value is not zero. -/
theorem poundChars_eq (hb : Base b) (value : BitVec 64) (c : PrintfConversion) :
    poundChars b c (valueChars b value c ++
      List.replicate ((min (rendered c.precision) 63).toNat - (valueChars b value c).length) '0') =
    List.replicate (if c.pound ∧ b.base = 8 ∧ rendered c.precision ≤ digitCnt b value + commaCnt b value c then 1
      else 0) '0' := by
  have hle := valueChars_le hb value c
  have hlen := valueChars_length b value c
  have hlast : (valueChars b value c ++ List.replicate ((min (rendered c.precision) 63).toNat -
      (valueChars b value c).length) '0').getLast? ≠ some '0' ↔
        rendered c.precision ≤ digitCnt b value + commaCnt b value c := by
    rw [List.getLast?_append, List.getLast?_replicate]
    by_cases hmore : rendered c.precision ≤ digitCnt b value + commaCnt b value c
    · rw [if_pos (by omega), Option.none_or]
      exact iff_of_true (valueChars_getLast? hb value c) hmore
    · rw [if_neg (by omega), Option.some_or]
      exact iff_of_false (fun h => h rfl) hmore
  unfold poundChars
  simp only [hlast]
  split
  · rfl
  · rfl

theorem bufferChars_eq (hb : Base b) (value : BitVec 64) (c : PrintfConversion) :
    bufferChars b value c = valueChars b value c ++ List.replicate (zeroCnt b value c) '0' := by
  rw [bufferChars, poundChars_eq hb, List.append_assoc, List.replicate_append_replicate, valueChars_length, zeroCnt]

theorem digitString_length (hb : Base b) (value : BitVec 64) (c : PrintfConversion) :
    (digitString b value c).length = bodyLength b value c := by
  rw [digitString, List.length_reverse, bufferChars_eq hb, List.length_append, List.length_replicate, valueChars_length,
    zeroCnt, bodyLength]
  omega

/-- The digits of the digit string, from the last one on. -/
theorem withoutCommas_digitString (hb : Base b) (value : BitVec 64) (c : PrintfConversion) :
    (withoutCommas (digitString b value c)).reverse =
      (Nat.digits b.base value.toNat ++ List.replicate (zeroCnt b value c) 0).map fun v => b.digits.getD v '0' := by
  have hzero : b.digits.getD 0 '0' = '0' := by rw [List.getD_eq_getElem?_getD, hb.zero]; rfl
  rw [withoutCommas, digitString, List.filter_reverse, List.reverse_reverse, bufferChars_eq hb, List.filter_append]
  change withoutCommas _ ++ withoutCommas _ = _
  rw [withoutCommas_zeros, valueChars, withoutCommas_groupedChars hb c.group (digits_lt hb) 0, List.map_append,
    List.map_replicate, hzero]

/-- **The digit string denotes the value.** -/
theorem digitString_denotes (hb : Base b) (value : BitVec 64) (c : PrintfConversion) :
    (∀ ch ∈ withoutCommas (digitString b value c), ch ∈ b.digits) ∧
    Nat.ofDigits b.base ((withoutCommas (digitString b value c)).reverse.map b.digits.idxOf) = value.toNat := by
  have hbase := hb.base_ge
  have hlt : ∀ v ∈ Nat.digits b.base value.toNat ++ List.replicate (zeroCnt b value c) 0, v < b.base := by
    intro v hv
    rcases List.mem_append.mp hv with hv | hv
    · exact digits_lt hb v hv
    · rw [List.eq_of_mem_replicate hv]
      omega
  constructor
  · intro ch hch
    rw [← List.mem_reverse, withoutCommas_digitString hb] at hch
    obtain ⟨v, hv, rfl⟩ := List.mem_map.mp hch
    exact (idxOf_digit hb (hlt v hv)).1
  · have hidx : ∀ v ∈ Nat.digits b.base value.toNat ++ List.replicate (zeroCnt b value c) 0,
        (b.digits.idxOf ∘ fun v => b.digits.getD v '0') v = id v := fun v hv => (idxOf_digit hb (hlt v hv)).2
    rw [withoutCommas_digitString hb, List.map_map, List.map_congr_left hidx, List.map_id,
      Nat.ofDigits_append_replicate_zero, Nat.ofDigits_digits]

theorem withoutCommas_length (hb : Base b) (value : BitVec 64) (c : PrintfConversion) :
    (withoutCommas (digitString b value c)).length = digitCnt b value + zeroCnt b value c := by
  rw [← List.length_reverse, withoutCommas_digitString hb, List.length_map, List.length_append, List.length_replicate,
    digitCnt]

/-! ## The result -/

/-- The sign character is the one that is required. -/
theorem signOf_toList (isSigned negative : Bool) (c : PrintfConversion) :
    (signOf isSigned negative c).toList = requiredSign isSigned negative c := by
  unfold signOf requiredSign
  cases isSigned <;> cases negative <;> cases c.plus <;> cases c.space <;> rfl

theorem prefix_eq (hb : Base b) (value : BitVec 64) (c : PrintfConversion) :
    (match prefixChar b value c with | some x => ['0', x] | none => []) = requiredPrefix b value c := by
  have hx := hb.x
  unfold prefixChar requiredPrefix
  by_cases hflag : c.pound ∧ value ≠ 0
  · rw [if_pos hflag]
    by_cases hbase : b.base = 16
    · rw [if_pos hbase, Option.toList_eq_singleton_iff] at hx
      rw [hx, if_pos (show c.pound = true ∧ value ≠ 0 ∧ b.base = 16 from ⟨hflag.1, hflag.2, hbase⟩)]
    · rw [if_neg hbase, Option.toList_eq_nil_iff] at hx
      rw [hx, if_neg fun h => hbase h.2.2]
  · rw [if_neg hflag, if_neg fun h => hflag ⟨h.1, h.2.1⟩]

theorem prefixChar_isSome (hb : Base b) (value : BitVec 64) (c : PrintfConversion) :
    (if (prefixChar b value c).isSome then 2 else 0) = (requiredPrefix b value c).length := by
  rw [← prefix_eq hb]
  cases prefixChar b value c <;> rfl

theorem signOf_isSome (isSigned negative : Bool) (c : PrintfConversion) :
    (if (signOf isSigned negative c).isSome then 1 else 0) = (requiredSign isSigned negative c).length := by
  rw [← signOf_toList]
  cases signOf isSigned negative c <;> rfl

theorem unpaddedLength_le (hb : Base b) (value : BitVec 64) (isSigned negative : Bool) (c : PrintfConversion) :
    unpaddedLength b value isSigned negative c ≤ 67 := by
  have hbody : bodyLength b value c ≤ 64 := by
    have hle := valueChars_le hb value c
    rw [valueChars_length] at hle
    unfold bodyLength
    split <;> omega
  have hsign : (requiredSign isSigned negative c).length ≤ 1 := by
    rw [← signOf_isSome]
    split <;> omega
  have hfront : (requiredPrefix b value c).length ≤ 2 := by
    rw [← prefixChar_isSome hb]
    split <;> omega
  unfold unpaddedLength
  omega

/-- A small number is subtracted from the width. -/
theorem padding_eq (w : BitVec 32) {n : ℕ} (hn : n ≤ 67) :
    (if (w - BitVec.ofNat 32 n).toInt < 0 then 0 else (w - BitVec.ofNat 32 n).toNat : ℤ) =
      if (n : ℤ) ≤ w.toInt + 2 ^ 31 then max (w.toInt - n) 0 else w.toInt - n + 2 ^ 32 := by
  have hlt := w.isLt
  rw [BitVec.toInt_eq_toNat_cond, BitVec.toInt_eq_toNat_cond, BitVec.toNat_sub, BitVec.toNat_ofNat,
    Nat.mod_eq_of_lt (by omega : n < 2 ^ 32)]
  omega

/-- The number of padding characters; the subtraction wraps around when the width is near the least `int`. -/
theorem padCnt_eq (hb : Base b) (value : BitVec 64) (isSigned negative : Bool) (c : PrintfConversion) :
    (padCnt c.width (digitString b value c).length (prefixChar b value c) (signOf isSigned negative c) : ℤ) =
      if unpaddedLength b value isSigned negative c ≤ c.width.toInt + 2 ^ 31 then
        max (c.width.toInt - unpaddedLength b value isSigned negative c) 0
      else c.width.toInt - unpaddedLength b value isSigned negative c + 2 ^ 32 := by
  have hsub : c.width - BitVec.ofNat 32 (digitString b value c).length -
      (if (prefixChar b value c).isSome then 2 else 0) - (if (signOf isSigned negative c).isSome then 1 else 0) =
      c.width - BitVec.ofNat 32 (unpaddedLength b value isSigned negative c) := by
    have hfront := prefixChar_isSome hb value c
    have hsign := signOf_isSome isSigned negative c
    rw [unpaddedLength, ← hfront, ← hsign, digitString_length hb]
    cases (prefixChar b value c).isSome <;> cases (signOf isSigned negative c).isSome <;>
      simp only [Bool.false_eq_true, if_true, if_false] <;> bv_omega
  rw [← padding_eq c.width (unpaddedLength_le hb value isSigned negative c), ← hsub]
  exact apply_ite Nat.cast _ _ _

/-- What is printed. -/
def printed (value : BitVec 64) (isSigned negative : Bool) (b : IntegerBase) (c : PrintfConversion) : List Char :=
  let padCnt := padCnt c.width (digitString b value c).length (prefixChar b value c) (signOf isSigned negative c)
  List.replicate (if !c.minus && !c.zero then padCnt else 0) ' ' ++ requiredSign isSigned negative c ++
    requiredPrefix b value c ++ List.replicate (if c.zero then padCnt else 0) '0' ++ digitString b value c ++
    List.replicate (if c.minus then padCnt else 0) ' '

theorem outputDup_if (q : Bool) (ch : Char) (n : ℕ) :
    (if q then outputDup ch n else []) = List.replicate (if q then n else 0) ch := by
  cases q <;> rfl

/-- **`format_integer`** stays inside its buffer and prints the sign, the prefix and the digit string, with padding. -/
theorem formatInteger_eq (hb : Base b) (value : BitVec 64) (isSigned negative : Bool) (c : PrintfConversion)
    (buf : Region Char 0 64) :
    ∃ p, accumulate b value c buf = some p ∧ outputLoop p.1 p.2 = some (digitString b value c) ∧
      formatInteger value isSigned negative b c buf = some (printed value isSigned negative b c) := by
  obtain ⟨p, hrun, hp⟩ := accumulate_eq hb value c buf
  have hcnt : p.2 = (digitString b value c).length := hp.cnt.trans (List.length_reverse ..).symm
  have hdigits : outputLoop p.1 p.2 = some (digitString b value c) := by
    have hloop := hp.outputLoop _ le_rfl
    rw [← hp.cnt, hp.cnt, List.take_length] at hloop
    rw [hp.cnt]
    exact hloop
  refine ⟨p, hrun, hdigits, ?_⟩
  unfold formatInteger
  simp only [hrun, hdigits, Option.bind_eq_bind, Option.bind_some]
  rw [hcnt, outputDup_if, outputDup_if, outputDup_if, signOf_toList, prefix_eq hb]
  rfl

variable (value isSigned negative b c buf) in
/-- `format_integer` stays inside its buffer, and what it prints is what it is to print. -/
def FormatsRight : Prop :=
  ∃ p digits out, accumulate b value c buf = some p ∧ outputLoop p.1 p.2 = some digits ∧
    formatInteger value isSigned negative b c buf = some out ∧ Formats value isSigned negative b c digits out

theorem formatsRight_iff (hb : Base b) : FormatsRight b value isSigned negative c buf ↔
    Formats value isSigned negative b c (digitString b value c) (printed value isSigned negative b c) := by
  obtain ⟨p, hrun, hdigits, hout⟩ := formatInteger_eq hb value isSigned negative c buf
  constructor
  · intro h
    obtain ⟨p', digits, out, hrun', hdigits', hout', hformats⟩ := h
    rw [← Option.some.inj (hrun.symm.trans hrun')] at hdigits'
    rw [Option.some.inj (hdigits.symm.trans hdigits'), Option.some.inj (hout.symm.trans hout')]
    exact hformats
  · intro h
    exact ⟨p, _, _, hrun, hdigits, hout, h⟩

/-- The commas count as digits when the zeros for the precision are added. -/
theorem precision_iff (hb : Base b) : (rendered c.precision ≤ 63 →
    rendered c.precision ≤ (withoutCommas (digitString b value c)).length) ↔
      (rendered c.precision ≤ 63 → commaCnt b value c = 0 ∨ rendered c.precision ≤ digitCnt b value ∨
        (c.pound ∧ b.base = 8 ∧ rendered c.precision = digitCnt b value + 1)) := by
  have hle := valueChars_le hb value c
  rw [valueChars_length] at hle
  rw [withoutCommas_length hb, zeroCnt]
  by_cases hflag : c.pound = true ∧ b.base = 8
  · simp only [hflag, true_and]
    split <;> omega
  · have hnot : ∀ q : Prop, ¬(c.pound = true ∧ b.base = 8 ∧ q) := fun q h => hflag ⟨h.1, h.2.1⟩
    simp only [hnot, if_false, or_false]
    omega

theorem length_iff (hb : Base b) : ((printed value isSigned negative b c).length : ℤ) = max c.width.toInt
    ((requiredSign isSigned negative c).length + (requiredPrefix b value c).length +
      (digitString b value c).length : ℕ) ↔
      (¬(c.minus ∧ c.zero) ∨ c.width.toInt ≤ unpaddedLength b value isSigned negative c) ∧
        (unpaddedLength b value isSigned negative c : ℤ) ≤ c.width.toInt + 2 ^ 31 := by
  have hle := unpaddedLength_le hb value isSigned negative c
  have hpad := padCnt_eq hb value isSigned negative c
  have hlo := BitVec.le_toInt c.width
  have hlen : (requiredSign isSigned negative c).length + (requiredPrefix b value c).length +
      (digitString b value c).length = unpaddedLength b value isSigned negative c := by
    rw [digitString_length hb, unpaddedLength]
  rw [hlen]
  unfold printed
  simp only [List.length_append, List.length_replicate]
  generalize padCnt c.width (digitString b value c).length (prefixChar b value c) (signOf isSigned negative c) = pad
    at hpad ⊢
  generalize c.width.toInt = w at *
  cases c.minus <;> cases c.zero <;> simp <;> split at hpad <;> omega

/-- **`format_integer` is right** except where the commas count as digits for the precision, where both kinds of padding
are asked for and needed, and where the width is near the least `int`. -/
theorem formatInteger_formats_iff (hb : b ∈ integerBases) (value : BitVec 64) (isSigned negative : Bool)
    (c : PrintfConversion) (buf : Region Char 0 64) :
    FormatsRight b value isSigned negative c buf ↔ Plain b value isSigned negative c := by
  have hbase := base_of_mem hb
  obtain ⟨hdigit, hdenotes⟩ := digitString_denotes hbase value c
  rw [formatsRight_iff hbase]
  constructor
  · intro h
    obtain ⟨hpadding, hwidth⟩ := (length_iff hbase).mp h.length
    exact ⟨(precision_iff hbase).mp h.precision, hpadding, hwidth⟩
  · intro h
    exact ⟨hdigit, hdenotes, (precision_iff hbase).mpr h.precision, ⟨_, _, _, rfl⟩,
      (length_iff hbase).mpr ⟨h.padding, h.width⟩⟩

/-- `%#8x` of 255. -/
theorem formatInteger_formats_hex : FormatsRight baseLowerX 255 false false
    ⟨false, false, false, true, false, false, 8, -1⟩ (.starting [] ' ') := by
  apply (formatInteger_formats_iff (by decide) _ _ _ _ _).mpr
  have hle := unpaddedLength_le (base_of_mem (b := baseLowerX) (by decide)) 255 false false
    ⟨false, false, false, true, false, false, 8, -1⟩
  refine ⟨fun _ => .inl rfl, .inl (by decide), ?_⟩
  have hwidth : ((8 : BitVec 32).toInt : ℤ) = 8 := rfl
  rw [hwidth]
  omega

/-- `%'.5d` of 1000 has four digits, and `%0*d` of 42 with the width -5 prints eight characters. -/
theorem formatInteger_cut : ¬FormatsRight baseD 1000 true false
      ⟨false, false, false, false, false, true, 0, 5⟩ (.starting [] ' ') ∧
    ¬FormatsRight baseD 42 true false ⟨true, false, false, false, true, false, 5, -1⟩ (.starting [] ' ') := by
  constructor
  · intro h
    obtain ⟨p, digits, out, hrun, hdigits, -, hformats⟩ := h
    have hstring : (accumulate baseD 1000 ⟨false, false, false, false, false, true, 0, 5⟩ (.starting [] ' ')).bind
        (fun p => outputLoop p.1 p.2) = some ['1', ',', '0', '0', '0'] := by decide +kernel
    rw [hrun, Option.bind_some, hdigits] at hstring
    have hprecision := hformats.precision
    rw [Option.some.inj hstring] at hprecision
    exact absurd (hprecision (by decide)) (by decide)
  · intro h
    obtain ⟨p, digits, out, hrun, hdigits, hout, hformats⟩ := h
    have hstring : (accumulate baseD 42 ⟨true, false, false, false, true, false, 5, -1⟩ (.starting [] ' ')).bind
        (fun p => outputLoop p.1 p.2) = some ['4', '2'] := by decide +kernel
    have hprinted : formatInteger 42 true false baseD ⟨true, false, false, false, true, false, 5, -1⟩
        (.starting [] ' ') = some ['0', '0', '0', '4', '2', ' ', ' ', ' '] := by decide +kernel
    rw [hrun, Option.bind_some, hdigits] at hstring
    rw [hprinted] at hout
    have hlength := hformats.length
    rw [Option.some.inj hstring, ← Option.some.inj hout] at hlength
    exact absurd hlength (by decide)

end FormatInteger

end Pintos.Lib
