import Pintos.Library.Octal
import Pintos.Library.Packed

/-!
# Archive headers

`lib/ustar.c`: `ustar_make_header` and `ustar_parse_header` with what they call.  A file name is the list of its
characters, none of them the null byte.

* `ustarParseHeader_make`: parsing a header that was made gives back the stripped name, the type and the size.
* `ustar_round_trip`: the same for every header that was made, and no header with one byte changed is parsed.

`printf` of `lib/stdio.c` is `Octal.print` for the two conversions that are used.
-/

namespace Pintos.Lib

open Block

/-! ## Names -/

/-- `*file_name == '/' || !memcmp (file_name, "./", 2) || !memcmp (file_name, "../", 3)` -/
def antisocial (fileName : List UInt8) : Bool :=
  [47].isPrefixOf fileName || [46, 47].isPrefixOf fileName || [46, 46, 47].isPrefixOf fileName

/-- `strchr (file_name, '/') + 1`, for a name with a slash. -/
def afterSlash (fileName : List UInt8) : List UInt8 := (fileName.dropWhile fun c => c != 47).tail

/-- The loop of `strip_antisocial_prefixes`. -/
def dropPrefixes : ℕ → List UInt8 → List UInt8
  | 0, fileName => fileName
  | fuel + 1, fileName => if antisocial fileName then dropPrefixes fuel (afterSlash fileName) else fileName

/-- `strip_antisocial_prefixes`.  Each turn of the loop drops a character at least, so there are not more than that. -/
def stripAntisocialPrefixes (fileName : List UInt8) : List UInt8 :=
  let fileName := dropPrefixes fileName.length fileName
  if fileName = [] ∨ fileName = [46, 46] then [46] else fileName

/-! ## The header -/

/-- `struct ustar_header`, with the members that are filled or looked at. -/
abbrev UstarHeader := Block 512

namespace UstarHeader

def name : Member := ⟨0, 100⟩
def mode : Member := ⟨100, 8⟩
def uid : Member := ⟨108, 8⟩
def gid : Member := ⟨116, 8⟩
def size : Member := ⟨124, 12⟩
def mtime : Member := ⟨136, 12⟩
def chksum : Member := ⟨148, 8⟩
def typeflag : Member := ⟨156, 1⟩
def magic : Member := ⟨257, 6⟩
def version : Member := ⟨263, 2⟩
def uname : Member := ⟨265, 32⟩
def gname : Member := ⟨297, 32⟩
/-- `prefix` -/
def namePrefix : Member := ⟨345, 155⟩

end UstarHeader

open UstarHeader

/-- `enum ustar_type`, the types of an entry. -/
inductive UstarType
  | regular
  | directory
  deriving DecidableEq

/-- The byte in the header. -/
def UstarType.flag : UstarType → UInt8
  | regular => 48
  | directory => 53

/-- `in_chksum_field ? ' ' : header[i]` -/
def chksumByte (h : UstarHeader) (i : ℕ) : ℕ :=
  if chksum.ofs ≤ i ∧ i < chksum.ofs + chksum.size then 32 else (h.get i).toNat

/-- `calculate_chksum`.  The sum of 512 bytes does not overflow. -/
def calculateChksum (h : UstarHeader) : ℕ := ((List.range 512).map (chksumByte h)).sum

/-- "ustar" -/
def ustar : List UInt8 := [117, 115, 116, 97, 114]

/-- The header except for the final checksum. -/
def fillHeader (fileName : List UInt8) (type : UstarType) (fileSize : ℕ) : UstarHeader :=
  let h : UstarHeader := Block.zero
  let h := h.strlcpy name fileName
  let h := h.strlcpy mode (Octal.print 7 (if type = .regular then 0o644 else 0o755))
  let h := h.strlcpy uid (List.replicate 7 48)
  let h := h.strlcpy gid (List.replicate 7 48)
  let h := h.strlcpy size (Octal.print 11 fileSize)
  let h := h.strlcpy mtime (Octal.print 11 1136102400)
  let h := h.store typeflag [type.flag]
  let h := h.strlcpy magic ustar
  let h := h.store version [48, 48]
  let h := h.strlcpy gname [114, 111, 111, 116]
  h.strlcpy uname [114, 111, 111, 116]

/-- `ustar_make_header`; `none` is the failure. -/
def ustarMakeHeader (fileName : List UInt8) (type : UstarType) (fileSize : ℕ) : Option UstarHeader :=
  let fileName := stripAntisocialPrefixes fileName
  if 99 < fileName.length then none
  else
    let h := fillHeader fileName type fileSize
    some (h.strlcpy chksum (Octal.print 7 (calculateChksum h)))

/-- The loop of `parse_octal_field`, with `*value`, `ofs` and the rest of the field. -/
def parseOctalFrom : ℕ → ℕ → List UInt8 → Option ℕ
  | _, _, [] => none
  | value, ofs, c :: s =>
    if 48 ≤ c ∧ c ≤ 55 then
      -- ULONG_MAX / 8
      if (2 ^ 32 - 1) / 8 < value then none
      else parseOctalFrom (c.toNat - 48 + value * 8) (ofs + 1) s
    else if c = 32 ∨ c = 0 then
      if 0 < ofs then some value else none
    else none

/-- `parse_octal_field` -/
def parseOctalField (s : List UInt8) : Option ℕ := parseOctalFrom 0 0 s

/-- `is_all_zeros` for a header. -/
def isAllZeros (h : UstarHeader) : Bool := (List.range 512).all fun i => h.get i == 0

/-- The errors of `ustar_parse_header`. -/
inductive UstarError
  /-- `"not a ustar archive"` -/
  | notUstar
  /-- `"invalid ustar version"` -/
  | invalidVersion
  /-- `"corrupt chksum field"` -/
  | corruptChksum
  /-- `"checksum mismatch"` -/
  | checksumMismatch
  /-- `"file name too long"` -/
  | nameTooLong
  /-- `"unimplemented file type"` -/
  | unimplementedType
  /-- `"corrupt file size field"` -/
  | corruptSize
  /-- `"file too large"` -/
  | tooLarge
  deriving DecidableEq

/-- What a header says: the end of the archive, or an entry with its name, type and size. -/
inductive Parsed
  | eof
  | entry (fileName : List UInt8) (type : UstarType) (fileSize : ℕ)
  deriving DecidableEq

/-- The checks on the size of a regular file. -/
def parseSize (h : UstarHeader) : Except UstarError ℕ :=
  match parseOctalField (h.field size) with
  | none => .error .corruptSize
  -- INT_MAX
  | some n => if 2 ^ 31 - 1 < n then .error .tooLarge else .ok n

/-- `ustar_parse_header` after the checksum field is parsed. -/
def parseEntry (h : UstarHeader) (sum : ℕ) : Except UstarError Parsed :=
  let fileName := stripAntisocialPrefixes (cString (h.field name))
  if sum ≠ calculateChksum h then .error .checksumMismatch
  else if h.get (name.ofs + 99) ≠ 0 ∨ h.get namePrefix.ofs ≠ 0 then .error .nameTooLong
  else if h.get typeflag.ofs = UstarType.regular.flag then
    (parseSize h).map fun n => .entry fileName .regular n
  else if h.get typeflag.ofs = UstarType.directory.flag then .ok (.entry fileName .directory 0)
  else .error .unimplementedType

/-- `ustar_parse_header` -/
def ustarParseHeader (h : UstarHeader) : Except UstarError Parsed :=
  if isAllZeros h then .ok .eof
  else if h.field magic ≠ ustar ++ [0] then .error .notUstar
  else if h.get version.ofs ≠ 48 ∨ h.get (version.ofs + 1) ≠ 48 then .error .invalidVersion
  else
    match parseOctalField (h.field chksum) with
    | none => .error .corruptChksum
    | some sum => parseEntry h sum

/-! ## Stripped names -/

theorem length_afterSlash_lt {s : List UInt8} (h : antisocial s = true) : (afterSlash s).length < s.length := by
  have hne : 0 < s.length := by
    cases s with
    | nil => cases h
    | cons c s => exact Nat.succ_pos _
  have hdrop := (List.dropWhile_sublist (fun c => c != 47) (l := s)).length_le
  rw [afterSlash, List.length_tail]
  omega

/-- The loop ends at a name without a prefix to drop. -/
theorem antisocial_dropPrefixes {fuel : ℕ} {s : List UInt8} (h : s.length ≤ fuel) :
    antisocial (dropPrefixes fuel s) = false := by
  induction fuel generalizing s with
  | zero =>
    rw [List.length_eq_zero_iff.mp (Nat.le_zero.mp h)]
    rfl
  | succ fuel ih =>
    unfold dropPrefixes
    by_cases hs : antisocial s = true
    · have hlt := length_afterSlash_lt hs
      rw [if_pos hs]
      apply ih
      omega
    · rw [if_neg hs]
      simpa using hs

theorem dropPrefixes_of_not {s : List UInt8} (h : antisocial s = false) (fuel : ℕ) : dropPrefixes fuel s = s := by
  cases fuel with
  | zero => rfl
  | succ fuel => rw [dropPrefixes, h, if_neg Bool.false_ne_true]

theorem dropPrefixes_suffix (fuel : ℕ) (s : List UInt8) : dropPrefixes fuel s <:+ s := by
  induction fuel generalizing s with
  | zero => exact List.suffix_refl s
  | succ fuel ih =>
    unfold dropPrefixes
    split
    · apply (ih (afterSlash s)).trans
      exact (List.tail_suffix _).trans (List.dropWhile_suffix _)
    · exact List.suffix_refl s

/-- A stripped name is not stripped again. -/
theorem strip_strip (s : List UInt8) :
    stripAntisocialPrefixes (stripAntisocialPrefixes s) = stripAntisocialPrefixes s := by
  have hdrop := antisocial_dropPrefixes (s := s) le_rfl
  by_cases h : dropPrefixes s.length s = [] ∨ dropPrefixes s.length s = [46, 46]
  · have hs : stripAntisocialPrefixes s = [46] := if_pos h
    rw [hs]
    decide
  · have hs : stripAntisocialPrefixes s = dropPrefixes s.length s := if_neg h
    rw [hs]
    unfold stripAntisocialPrefixes
    rw [dropPrefixes_of_not hdrop]
    exact if_neg h

theorem zero_notMem_strip {s : List UInt8} (h : 0 ∉ s) : 0 ∉ stripAntisocialPrefixes s := by
  unfold stripAntisocialPrefixes
  dsimp only
  split
  · decide
  · exact fun hs => h ((dropPrefixes_suffix _ s).subset hs)

/-! ## Octal fields -/

theorem char_toNat {d : ℕ} (h : d < 8) : (Octal.char d).toNat = 48 + d := by
  rw [Octal.char, UInt8.toNat_ofNat']
  omega

/-- Digits with a null byte behind them are read to their value. -/
theorem parseOctalFrom_digits {ds : List ℕ} (v ofs : ℕ) (l : List UInt8) (hds : ∀ d ∈ ds, d < 8)
    (hofs : 0 < ofs + ds.length) (hv : Octal.value v ds < 2 ^ 32) :
    parseOctalFrom v ofs (ds.map Octal.char ++ 0 :: l) = some (Octal.value v ds) := by
  induction ds generalizing v ofs with
  | nil =>
    have hpos : 0 < ofs := hofs
    show parseOctalFrom v ofs (0 :: l) = some v
    unfold parseOctalFrom
    rw [if_neg (by decide), if_pos (Or.inr rfl), if_pos hpos]
  | cons d ds ih =>
    have hd : d < 8 := hds d List.mem_cons_self
    have hchar := char_toNat hd
    have hle : v * 8 + d ≤ Octal.value v (d :: ds) := Octal.le_value (v * 8 + d) ds
    have hrange : 48 ≤ Octal.char d ∧ Octal.char d ≤ 55 := by
      rw [UInt8.le_iff_toNat_le, UInt8.le_iff_toNat_le, hchar]
      exact ⟨Nat.le_add_right 48 d, by show 48 + d ≤ 55; omega⟩
    have hstep : (Octal.char d).toNat - 48 + v * 8 = v * 8 + d := by omega
    rw [List.map_cons, List.cons_append, parseOctalFrom, if_pos hrange, if_neg (by omega), hstep]
    exact ih _ _ (fun e he => hds e (List.mem_cons_of_mem d he)) (by omega) hv

/-- A printed number is parsed. -/
theorem parseOctalField_print {width n : ℕ} (hwidth : 0 < width) (hn : n < 8 ^ width) (hlong : n < 2 ^ 32)
    (l : List UInt8) : parseOctalField (Octal.print width n ++ 0 :: l) = some n := by
  have hvalue := Octal.value_digits width n
  have hlen := Octal.length_digits hn
  have hdigits : ∀ d ∈ Octal.digits width n, d < 8 := fun d hd => Octal.lt_of_mem_digits hd
  have hlt : Octal.value 0 (Octal.digits width n) < 2 ^ 32 := by
    rw [hvalue]
    exact hlong
  have h := parseOctalFrom_digits 0 0 l hdigits (by omega) hlt
  rw [hvalue] at h
  exact h

/-! ## The checksum -/

theorem calculateChksum_strlcpy (h : UstarHeader) (s : List UInt8) :
    calculateChksum (h.strlcpy chksum s) = calculateChksum h := by
  apply congrArg List.sum
  apply List.map_congr_left
  intro i _
  unfold chksumByte
  split
  · rfl
  · next hi =>
    have hlen := length_strlcpy (m := chksum) (s := s) (by decide)
    rw [strlcpy, get_store_outside (by omega)]

theorem calculateChksum_lt (h : UstarHeader) : calculateChksum h < 8 ^ 7 := by
  have hle : calculateChksum h ≤ ((List.range 512).map (chksumByte h)).length • 255 := by
    apply List.sum_le_card_nsmul
    intro c hc
    rw [List.mem_map] at hc
    obtain ⟨i, _, rfl⟩ := hc
    have hbyte := (h.get i).toNat_lt
    unfold chksumByte
    split <;> omega
  rw [List.length_map, List.length_range, smul_eq_mul] at hle
  omega

/-! ## The round trip -/

/-- The members that the parser looks at, in the header of an entry. -/
structure Describes (h : UstarHeader) (fileName : List UInt8) (type : UstarType) (fileSize : ℕ) : Prop where
  name : h.field name = fileName ++ List.replicate (100 - fileName.length) 0
  size : h.field size = Octal.print 11 fileSize ++ [0]
  chksum : h.field chksum = Octal.print 7 (calculateChksum h) ++ [0]
  typeflag : h.field typeflag = [type.flag]
  magic : h.field magic = ustar ++ [0]
  version : h.field version = [48, 48]
  namePrefix : h.field namePrefix = List.replicate 155 0

section Make

variable {fileName : List UInt8} {type : UstarType} {fileSize : ℕ}

theorem field_fillHeader_name (h : fileName.length < 100) :
    (fillHeader fileName type fileSize).field name = fileName ++ List.replicate (100 - fileName.length) 0 := by
  have hname := field_strlcpy (b := (zero : UstarHeader)) (m := name) h (by decide) (field_zero name)
  unfold fillHeader
  simp (disch := decide) only [field_strlcpy_ne, field_store_ne, field_store_singleton_ne]
  exact hname

/-- A number in a member that it fills with its terminator. -/
theorem field_strlcpy_print {h : UstarHeader} {m : Member} {width n : ℕ} (hm : m.size = width + 1)
    (hofs : m.ofs + m.size ≤ 512) (hn : n < 8 ^ width) :
    (h.strlcpy m (Octal.print width n)).field m = Octal.print width n ++ [0] := by
  have hlen := Octal.length_print hn
  have htake : (Octal.print width n).take (m.size - 1) = Octal.print width n := List.take_of_length_le (by omega)
  have hstore : (Octal.print width n ++ [0]).length = m.size := by
    rw [List.length_append, List.length_singleton, hlen, hm]
  rw [strlcpy, htake]
  exact field_store_all hstore hofs

theorem field_fillHeader_size (h : fileSize < 8 ^ 11) :
    (fillHeader fileName type fileSize).field size = Octal.print 11 fileSize ++ [0] := by
  unfold fillHeader
  simp (disch := decide) only [field_strlcpy_ne, field_store_ne, field_store_singleton_ne]
  exact field_strlcpy_print rfl (by decide) h

theorem field_fillHeader_typeflag : (fillHeader fileName type fileSize).field typeflag = [type.flag] := by
  unfold fillHeader
  simp (disch := decide) only [field_strlcpy_ne, field_store_ne]
  exact field_store_all rfl (by decide)

theorem field_fillHeader_magic : (fillHeader fileName type fileSize).field magic = ustar ++ [0] := by
  unfold fillHeader
  simp (disch := decide) only [field_strlcpy_ne, field_store_ne]
  exact field_store_all rfl (by decide)

theorem field_fillHeader_version : (fillHeader fileName type fileSize).field version = [48, 48] := by
  unfold fillHeader
  simp (disch := decide) only [field_strlcpy_ne]
  exact field_store_all rfl (by decide)

theorem field_fillHeader_prefix : (fillHeader fileName type fileSize).field namePrefix = List.replicate 155 0 := by
  unfold fillHeader
  simp (disch := decide) only [field_strlcpy_ne, field_store_ne, field_store_singleton_ne]
  exact field_zero namePrefix

/-- The header that is made. -/
theorem describes_strlcpy_fillHeader (type : UstarType) (hname : fileName.length < 100) (hsize : fileSize < 8 ^ 11) :
    Describes ((fillHeader fileName type fileSize).strlcpy chksum
      (Octal.print 7 (calculateChksum (fillHeader fileName type fileSize)))) fileName type fileSize where
  name := (field_strlcpy_ne (by decide) (by decide)).trans (field_fillHeader_name hname)
  size := (field_strlcpy_ne (by decide) (by decide)).trans (field_fillHeader_size hsize)
  chksum := by
    rw [calculateChksum_strlcpy]
    exact field_strlcpy_print rfl (by decide) (calculateChksum_lt _)
  typeflag := (field_strlcpy_ne (by decide) (by decide)).trans field_fillHeader_typeflag
  magic := (field_strlcpy_ne (by decide) (by decide)).trans field_fillHeader_magic
  version := (field_strlcpy_ne (by decide) (by decide)).trans field_fillHeader_version
  namePrefix := (field_strlcpy_ne (by decide) (by decide)).trans field_fillHeader_prefix

end Make

namespace Describes

variable {h : UstarHeader} {fileName : List UInt8} {type : UstarType} {fileSize : ℕ}

/-- A byte of a member whose bytes are known. -/
theorem get_of_field {m : Member} {l : List UInt8} {c : UInt8} {i : ℕ} (hl : h.field m = l) (hi : i < m.size)
    (hc : l[i]? = some c) : h.get (m.ofs + i) = c := by
  have hget := getElem?_field (b := h) hi
  rw [hl, hc] at hget
  exact (Option.some.inj hget).symm

theorem isAllZeros (hd : Describes h fileName type fileSize) : isAllZeros h = false := by
  have hbyte : h.get 257 = 117 := get_of_field (i := 0) hd.magic (by decide) rfl
  unfold Pintos.Lib.isAllZeros
  rw [List.all_eq_false]
  apply Exists.intro 257
  rw [hbyte]
  exact ⟨List.mem_range.mpr (by omega), by decide⟩

theorem cString_name (hd : Describes h fileName type fileSize) (hlen : fileName.length < 100) (hnul : 0 ∉ fileName) :
    cString (h.field Pintos.Lib.UstarHeader.name) = fileName := by
  have hrep : 100 - fileName.length = 100 - fileName.length - 1 + 1 := by omega
  rw [hd.name, hrep, List.replicate_succ]
  exact cString_append hnul

/-- The size of an entry, as the parser returns it. -/
def sizeOf (type : UstarType) (fileSize : ℕ) : ℕ := if type = .regular then fileSize else 0

theorem parseEntry (hd : Describes h fileName type fileSize) (hlen : fileName.length < 100) (hnul : 0 ∉ fileName)
    (hint : fileSize < 2 ^ 31) : parseEntry h (calculateChksum h) =
      .ok (.entry (stripAntisocialPrefixes fileName) type (sizeOf type fileSize)) := by
  have hlast : h.get 99 = 0 := by
    apply get_of_field (i := 99) hd.name (by decide)
    rw [List.getElem?_append_right (by omega), List.getElem?_replicate, if_pos (by omega)]
  have hprefix : h.get 345 = 0 := get_of_field (i := 0) hd.namePrefix (by decide) rfl
  have htype : h.get UstarHeader.typeflag.ofs = type.flag := get_of_field (i := 0) hd.typeflag (by decide) rfl
  have hgood : ¬(h.get (UstarHeader.name.ofs + 99) ≠ 0 ∨ h.get UstarHeader.namePrefix.ofs ≠ 0) :=
    not_or.mpr ⟨not_not_intro hlast, not_not_intro hprefix⟩
  unfold Pintos.Lib.parseEntry
  rw [if_neg (not_not_intro rfl), if_neg hgood, hd.cString_name hlen hnul]
  cases type with
  | regular =>
    have hsize : parseSize h = .ok fileSize := by
      unfold parseSize
      rw [hd.size, parseOctalField_print (by omega) (by omega) (by omega)]
      exact if_neg (by omega)
    rw [if_pos htype, hsize]
    rfl
  | directory =>
    have hflag : h.get UstarHeader.typeflag.ofs ≠ UstarType.regular.flag := by
      intro hflag
      have hboth := htype.symm.trans hflag
      revert hboth
      decide
    rw [if_neg hflag, if_pos htype]
    rfl

theorem ustarParseHeader (hd : Describes h fileName type fileSize) (hlen : fileName.length < 100) (hnul : 0 ∉ fileName)
    (hint : fileSize < 2 ^ 31) : ustarParseHeader h =
      .ok (.entry (stripAntisocialPrefixes fileName) type (sizeOf type fileSize)) := by
  have hzero : h.get 263 = 48 := get_of_field (i := 0) hd.version (by decide) rfl
  have hone : h.get 264 = 48 := get_of_field (i := 1) hd.version (by decide) rfl
  have hversion : ¬(h.get UstarHeader.version.ofs ≠ 48 ∨ h.get (UstarHeader.version.ofs + 1) ≠ 48) :=
    not_or.mpr ⟨not_not_intro hzero, not_not_intro hone⟩
  have hsum : parseOctalField (h.field UstarHeader.chksum) = some (calculateChksum h) := by
    have hlt := calculateChksum_lt h
    rw [hd.chksum]
    exact parseOctalField_print (by omega) hlt (by omega) []
  unfold Pintos.Lib.ustarParseHeader
  rw [hd.isAllZeros, if_neg Bool.false_ne_true, if_neg (not_not_intro hd.magic), if_neg hversion, hsum]
  exact hd.parseEntry hlen hnul hint

end Describes

/-- **A header that was made is parsed to the stripped name, the type and the size.** -/
theorem ustarParseHeader_make {fileName : List UInt8} {fileSize : ℕ} (type : UstarType) (hnul : 0 ∉ fileName)
    (hlen : (stripAntisocialPrefixes fileName).length ≤ 99) (hint : fileSize < 2 ^ 31) :
    ∃ h, ustarMakeHeader fileName type fileSize = some h ∧ ustarParseHeader h =
      .ok (.entry (stripAntisocialPrefixes fileName) type (if type = .regular then fileSize else 0)) := by
  have hsize : fileSize < 8 ^ 11 := by omega
  have hd := describes_strlcpy_fillHeader type (Nat.lt_succ_of_le hlen) hsize
  have hparse := hd.ustarParseHeader (by omega) (zero_notMem_strip hnul) hint
  rw [strip_strip] at hparse
  exact ⟨_, if_neg (by omega), hparse⟩

/-- A sector of zeros ends the archive. -/
theorem ustarParseHeader_zero : ustarParseHeader Block.zero = .ok .eof := by
  apply if_pos
  unfold isAllZeros
  rw [List.all_eq_true]
  intro i _
  rw [get_zero]
  rfl

/-! ## A header with one byte changed -/

section Changed

variable {h : UstarHeader} {fileName : List UInt8} {type : UstarType} {fileSize i : ℕ} {c : UInt8}

/-- The byte at an offset is part of the checksum. -/
def InChksum (i : ℕ) : Prop := chksum.ofs ≤ i ∧ i < chksum.ofs + chksum.size

/-- The header with another byte at an offset. -/
def changed (h : UstarHeader) (i : ℕ) (c : UInt8) : UstarHeader := h.store ⟨i, 1⟩ [c]

theorem get_changed_self (h : UstarHeader) (c : UInt8) (hi : i < 512) : (changed h i c).get i = c := by
  rw [changed, Block.store, get_splice hi, Bytes.splice_inside le_rfl (Nat.lt_succ_self i), Nat.sub_self]
  rfl

theorem get_changed_of_ne (h : UstarHeader) (c : UInt8) {j : ℕ} (hj : j ≠ i) : (changed h i c).get j = h.get j := by
  apply get_store_outside
  show j < i ∨ i + 1 ≤ j
  omega

/-- The checksum without one byte of the header. -/
theorem calculateChksum_erase (h : UstarHeader) (hi : i < 512) :
    chksumByte h i + ∑ j ∈ (Finset.range 512).erase i, chksumByte h j = calculateChksum h :=
  Finset.add_sum_erase (Finset.range 512) (chksumByte h) (Finset.mem_range.mpr hi)

/-- **The checksum notices a change of one byte** that it counts. -/
theorem calculateChksum_changed (hi : i < 512) (hout : ¬InChksum i) (hc : c ≠ h.get i) :
    calculateChksum (changed h i c) ≠ calculateChksum h := by
  have hrest : ∑ j ∈ (Finset.range 512).erase i, chksumByte (changed h i c) j =
      ∑ j ∈ (Finset.range 512).erase i, chksumByte h j := by
    apply Finset.sum_congr rfl
    intro j hj
    unfold chksumByte
    rw [get_changed_of_ne h c (Finset.ne_of_mem_erase hj)]
  have hold : chksumByte h i = (h.get i).toNat := if_neg hout
  have hnew : chksumByte (changed h i c) i = c.toNat := (if_neg hout).trans (by rw [get_changed_self h c hi])
  have hne : c.toNat ≠ (h.get i).toNat := fun heq => hc (UInt8.toNat_inj.mp heq)
  rw [← calculateChksum_erase (changed h i c) hi, ← calculateChksum_erase h hi, hrest, hold, hnew]
  omega

/-- The checksum field is as it was. -/
theorem field_chksum_changed (h : UstarHeader) (c : UInt8) (hout : ¬InChksum i) :
    (changed h i c).field chksum = h.field chksum := by
  apply Bytes.slice_congr
  intro j hj
  apply get_changed_of_ne
  unfold InChksum at hout
  omega

/-- A header of an entry has two bytes at least that are not zero. -/
theorem Describes.isAllZeros_changed (hd : Describes h fileName type fileSize) (i : ℕ) (c : UInt8) :
    Pintos.Lib.isAllZeros (changed h i c) = false := by
  have hu : h.get 257 = 117 := Describes.get_of_field (i := 0) hd.magic (by decide) rfl
  have hs : h.get 258 = 115 := Describes.get_of_field (i := 1) hd.magic (by decide) rfl
  unfold Pintos.Lib.isAllZeros
  rw [List.all_eq_false]
  by_cases hi : i = 257
  · refine ⟨258, List.mem_range.mpr (by omega), ?_⟩
    rw [get_changed_of_ne h c (by omega), hs]
    decide
  · refine ⟨257, List.mem_range.mpr (by omega), ?_⟩
    rw [get_changed_of_ne h c (Ne.symm hi), hu]
    decide

/-- **A header with one byte changed** outside its checksum is not parsed. -/
theorem Describes.ustarParseHeader_changed (hd : Describes h fileName type fileSize) (hi : i < 512) (hout : ¬InChksum i)
    (hc : c ≠ h.get i) : ∃ e, Pintos.Lib.ustarParseHeader (changed h i c) = .error e := by
  have hsum : parseOctalField ((changed h i c).field UstarHeader.chksum) = some (calculateChksum h) := by
    have hlt := calculateChksum_lt h
    rw [field_chksum_changed h c hout, hd.chksum]
    exact parseOctalField_print (by omega) hlt (by omega) []
  unfold Pintos.Lib.ustarParseHeader
  rw [hd.isAllZeros_changed, if_neg Bool.false_ne_true, hsum]
  split
  · exact ⟨_, rfl⟩
  · split
    · exact ⟨_, rfl⟩
    · have hne : calculateChksum h ≠ calculateChksum (changed h i c) := (calculateChksum_changed hi hout hc).symm
      apply Exists.intro UstarError.checksumMismatch
      show Pintos.Lib.parseEntry (changed h i c) (calculateChksum h) = _
      unfold Pintos.Lib.parseEntry
      exact if_pos hne

end Changed

/-- What stripping leaves. -/
structure Stripped (s : List UInt8) : Prop where
  nonempty : s ≠ []
  notParent : s ≠ [46, 46]
  notSlash : ¬[47] <+: s
  notDot : ¬[46, 47] <+: s
  notDotDot : ¬[46, 46, 47] <+: s

theorem stripped_of_not_antisocial {s : List UInt8} (hs : antisocial s = false) (hne : s ≠ [])
    (hparent : s ≠ [46, 46]) : Stripped s := by
  have hnone := Bool.or_eq_false_iff.mp hs
  have htwo := Bool.or_eq_false_iff.mp hnone.1
  refine ⟨hne, hparent, ?_, ?_, ?_⟩
  · rw [← List.isPrefixOf_iff_prefix, htwo.1]
    exact Bool.false_ne_true
  · rw [← List.isPrefixOf_iff_prefix, htwo.2]
    exact Bool.false_ne_true
  · rw [← List.isPrefixOf_iff_prefix, hnone.2]
    exact Bool.false_ne_true

theorem strip_stripped (s : List UInt8) : Stripped (stripAntisocialPrefixes s) := by
  have hdrop := antisocial_dropPrefixes (s := s) le_rfl
  by_cases h : dropPrefixes s.length s = [] ∨ dropPrefixes s.length s = [46, 46]
  · have hs : stripAntisocialPrefixes s = [46] := if_pos h
    rw [hs]
    exact stripped_of_not_antisocial (by decide) (by decide) (by decide)
  · have hs : stripAntisocialPrefixes s = dropPrefixes s.length s := if_neg h
    rw [hs]
    exact stripped_of_not_antisocial hdrop (fun hnil => h (.inl hnil)) fun hparent => h (.inr hparent)

/-- **The round trip of headers**: what is made is parsed to the same type and size and the stripped name; a stripped
name is not stripped again and leads to no other directory; and a header with any one byte changed outside its
checksum is an error. -/
theorem ustar_round_trip {fileName : List UInt8} {type : UstarType} {fileSize : ℕ} {h : UstarHeader}
    (hnul : 0 ∉ fileName) (hint : fileSize < 2 ^ 31) (hdir : type = .directory → fileSize = 0)
    (hmake : ustarMakeHeader fileName type fileSize = some h) :
    ustarParseHeader h = .ok (.entry (stripAntisocialPrefixes fileName) type fileSize) ∧
      (∀ s, stripAntisocialPrefixes (stripAntisocialPrefixes s) = stripAntisocialPrefixes s ∧
        Stripped (stripAntisocialPrefixes s)) ∧
      ∀ i c, i < 512 → ¬InChksum i → c ≠ h.get i → ∃ e, ustarParseHeader (changed h i c) = .error e := by
  have hlen : ¬99 < (stripAntisocialPrefixes fileName).length := by
    intro hlong
    rw [ustarMakeHeader, if_pos hlong] at hmake
    cases hmake
  have hd : Describes h (stripAntisocialPrefixes fileName) type fileSize := by
    rw [ustarMakeHeader, if_neg hlen] at hmake
    rw [← Option.some.inj hmake]
    exact describes_strlcpy_fillHeader type (by omega) (by omega)
  refine ⟨?_, fun s => ⟨strip_strip s, strip_stripped s⟩, fun i c hi hout hc => hd.ustarParseHeader_changed hi hout hc⟩
  have hparse := hd.ustarParseHeader (by omega) (zero_notMem_strip hnul) hint
  rw [strip_strip] at hparse
  rw [hparse, Describes.sizeOf]
  cases type with
  | regular => rfl
  | directory => rw [hdir rfl]; rfl

/-- The header of `../a`, of size 12. -/
theorem ustar_round_trip_parent : ∃ h, ustarMakeHeader [46, 46, 47, 97] .regular 12 = some h ∧
    ustarParseHeader h = .ok (.entry [97] .regular 12) ∧
    ∀ i c, i < 512 → ¬InChksum i → c ≠ h.get i → ∃ e, ustarParseHeader (changed h i c) = .error e := by
  obtain ⟨h, hmake, -⟩ := ustarParseHeader_make .regular (by decide : (0 : UInt8) ∉ [46, 46, 47, 97]) (by decide)
    (by decide : 12 < 2 ^ 31)
  have hboth := ustar_round_trip (by decide) (by decide) (fun htype => absurd htype (by decide)) hmake
  exact ⟨h, hmake, hboth.1, hboth.2.2⟩

end Pintos.Lib
