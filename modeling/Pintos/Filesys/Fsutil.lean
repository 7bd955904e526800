import Pintos.Devices.Partition
import Pintos.Lib.Ustar
import Pintos.Library.FileBytes

/-!
# Archives on the scratch device

`fsutil_append` and `fsutil_extract` of `filesys/fsutil.c`.  A result of `none` is a panic.  The buffers are there, and
the files can be opened, created, read and written.

* `Recorded` says what the first sectors of the device are; `fsutilAppend` adds a record behind those that are there and
  an end marker.
* `extract_append`: what is extracted after a sequence of appends are the files that were appended.  With no file at
  all the device is what it was before, so its first sector has to be zero.
-/

namespace Pintos.Filesys

open Pintos.Devices Pintos.Lib

/-- A file that `fsutil_append` opens by its name.  Its length is an `off_t`. -/
structure SourceFile where
  fileName : List UInt8
  content : List UInt8
  zero_notMem : 0 ∉ fileName
  length_lt : content.length < 2 ^ 31

/-- `block_read` -/
def blockRead (d : BlockDevice) (sector : ℕ) : Option Sector :=
  if d.blockSize ≤ sector then none else some (d.sector sector)

/-- `block_write` -/
def blockWrite (d : BlockDevice) (sector : ℕ) (buffer : Sector) : Option BlockDevice :=
  if d.blockSize ≤ sector then none else some { d with sector := Function.update d.sector sector buffer }

/-! ## Append -/

/-- `dst` and `sector` of `fsutil_append`.  A sector that was written is below `block_size`, so the number of the next
one does not overflow. -/
structure Archive where
  dst : BlockDevice
  sector : ℕ

/-- `block_write (dst, sector++, buffer)` -/
def Archive.write (a : Archive) (buffer : Sector) : Option Archive :=
  (blockWrite a.dst a.sector buffer).map fun dst => ⟨dst, a.sector + 1⟩

/-- The buffer with the bytes that were read and zeros behind them. -/
def padded (bytes : List UInt8) : Sector := Block.mk fun i => bytes.getD i 0

/-- `size > BLOCK_SECTOR_SIZE ? BLOCK_SECTOR_SIZE : size` -/
def chunkSize (size : ℕ) : ℕ := if 512 < size then 512 else size

/-- The copy loop of `fsutil_append` with the position of `src` and the bytes left. -/
def appendLoop (src : List UInt8) : ℕ → ℕ → ℕ → Archive → Option Archive
  | 0, _, _, _ => none
  | fuel + 1, pos, size, a =>
    if size = 0 then some a
    -- out of space on scratch device
    else if a.dst.blockSize ≤ a.sector then none
    else
      let bytes := FileBytes.read src pos (chunkSize size)
      -- read failed
      if bytes.length ≠ chunkSize size then none
      else
        (a.write (padded bytes)).bind fun a => appendLoop src fuel (pos + chunkSize size) (size - chunkSize size) a

/-- `fsutil_append` -/
def fsutilAppend (a : Archive) (src : SourceFile) : Option Archive := do
  let size := src.content.length
  let header ← ustarMakeHeader src.fileName .regular size
  let a ← a.write header
  let a ← appendLoop src.content (size + 1) 0 size a
  let dst ← blockWrite a.dst a.sector Block.zero
  let dst ← blockWrite dst (a.sector + 1) Block.zero
  some { a with dst := dst }

/-- The calls of `fsutil_append` for a list of files. -/
def fsutilAppends (a : Archive) : List SourceFile → Option Archive
  | [] => some a
  | f :: fs => (fsutilAppend a f).bind fun a => fsutilAppends a fs

/-! ## Extract -/

/-- The copy loop of `fsutil_extract`: the bytes that are written to `dst`, and `sector`. -/
def extractData (src : BlockDevice) : ℕ → ℕ → ℕ → Option (List UInt8 × ℕ)
  | 0, _, _ => none
  | fuel + 1, size, sector =>
    if size = 0 then some ([], sector)
    else
      (blockRead src sector).bind fun data =>
        (extractData src fuel (size - chunkSize size) (sector + 1)).map fun r =>
          (Bytes.slice data.get 0 (chunkSize size) ++ r.1, r.2)

/-- One turn of the loop of `fsutil_extract` after the header in `sector - 1` is parsed; `next` are the turns behind
it. -/
def extractEntry (src : BlockDevice) (next : ℕ → Option (List (List UInt8 × List UInt8) × ℕ)) (sector : ℕ) :
    Except UstarError Parsed → Option (List (List UInt8 × List UInt8) × ℕ)
  -- bad ustar header
  | .error _ => none
  | .ok .eof => some ([], sector)
  -- ignoring directory
  | .ok (.entry _ .directory _) => next sector
  | .ok (.entry fileName .regular size) =>
    (extractData src (size + 1) size sector).bind fun r =>
      (next r.2).map fun rs => ((fileName, r.1) :: rs.1, rs.2)

/-- The loop of `fsutil_extract`: the files that are put into the file system, and `sector`. -/
def extractLoop (src : BlockDevice) : ℕ → ℕ → Option (List (List UInt8 × List UInt8) × ℕ)
  | 0, _ => none
  | fuel + 1, sector =>
    (blockRead src sector).bind fun header =>
      extractEntry src (extractLoop src fuel) (sector + 1) (ustarParseHeader header)

/-- `fsutil_extract`: the files, the device with the archive erased, and `sector`.  A turn of the loop reads a sector
that no turn before it has read, so there are not more than `block_size`. -/
def fsutilExtract (src : BlockDevice) (sector : ℕ) : Option (List (List UInt8 × List UInt8) × BlockDevice × ℕ) := do
  let (files, sector) ← extractLoop src src.blockSize sector
  let src ← blockWrite src 0 Block.zero
  let src ← blockWrite src 1 Block.zero
  some (files, src, sector)

/-! ## What is on the device -/

/-- The first sectors of the device. -/
def Recorded (d : BlockDevice) (l : List Sector) : Prop := ∀ k b, l[k]? = some b → d.sector k = b

/-- The contents of a file in sectors, the last one padded. -/
def dataSectors (content : List UInt8) : List Sector :=
  if content = [] then [] else padded (content.take 512) :: dataSectors (content.drop 512)
termination_by content.length
decreasing_by
  next h =>
    have hpos := List.length_pos_iff.mpr h
    rw [List.length_drop]
    omega

/-- The sectors that hold a file in the archive. -/
def record (f : SourceFile) : List Sector :=
  (ustarMakeHeader f.fileName .regular f.content.length).getD Block.zero :: dataSectors f.content

/-- How many there are. -/
def recordSectors (f : SourceFile) : ℕ := 1 + (f.content.length + 511) / 512

/-- What is extracted of a file. -/
def extracted (f : SourceFile) : List UInt8 × List UInt8 := (stripAntisocialPrefixes f.fileName, f.content)

/-- The name fits into the header. -/
def SourceFile.NameFits (f : SourceFile) : Prop := (stripAntisocialPrefixes f.fileName).length ≤ 99

instance (f : SourceFile) : Decidable f.NameFits := inferInstanceAs (Decidable (_ ≤ 99))

section Sectors

variable {d : BlockDevice} {l m : List Sector}

theorem recorded_nil (d : BlockDevice) : Recorded d [] := by
  intro k b hk
  cases hk

theorem Recorded.left (h : Recorded d (l ++ m)) : Recorded d l := by
  intro k b hk
  apply h
  have hlt : k < l.length := (List.getElem?_eq_some_iff.mp hk).1
  rw [List.getElem?_append_left hlt, hk]

/-- The sector behind the first ones. -/
theorem Recorded.next {b : Sector} (h : Recorded d (l ++ b :: m)) : d.sector l.length = b :=
  h l.length b (by rw [List.getElem?_append_right le_rfl, Nat.sub_self, List.getElem?_cons_zero])

theorem Recorded.blockRead {b : Sector} (h : Recorded d (l ++ b :: m)) (hroom : l.length < d.blockSize) :
    blockRead d l.length = some b := by
  unfold Pintos.Filesys.blockRead
  rw [if_neg (by omega), h.next]

theorem blockWrite_blockSize {d' : BlockDevice} {sector : ℕ} {b : Sector} (h : blockWrite d sector b = some d') :
    d'.blockSize = d.blockSize := by
  unfold blockWrite at h
  split at h
  · cases h
  · cases h
    rfl

/-- A write behind the first sectors. -/
theorem Recorded.blockWrite (h : Recorded d l) (hroom : l.length < d.blockSize) (b : Sector) :
    ∃ d', blockWrite d l.length b = some d' ∧ Recorded d' (l ++ [b]) := by
  apply Exists.intro { d with sector := Function.update d.sector l.length b }
  apply And.intro (if_neg (by omega))
  intro k c hk
  show Function.update d.sector l.length b k = c
  by_cases hlt : k < l.length
  · rw [List.getElem?_append_left hlt] at hk
    rw [Function.update_of_ne (by omega)]
    exact h k c hk
  · rw [List.getElem?_append_right (by omega), List.getElem?_singleton] at hk
    split at hk
    · next hkl =>
      have hk' : k = l.length := by omega
      rw [hk', Function.update_self]
      exact Option.some.inj hk
    · cases hk

theorem dataSectors_nil : dataSectors [] = [] := by
  unfold dataSectors
  exact if_pos rfl

theorem dataSectors_of_ne_nil {content : List UInt8} (h : content ≠ []) :
    dataSectors content = padded (content.take 512) :: dataSectors (content.drop 512) := by
  rw [dataSectors, if_neg h]

theorem length_dataSectors (content : List UInt8) : (dataSectors content).length = (content.length + 511) / 512 := by
  induction content using dataSectors.induct with
  | case1 =>
    rw [dataSectors_nil]
    rfl
  | case2 content h ih =>
    have hpos := List.length_pos_iff.mpr h
    rw [dataSectors_of_ne_nil h, List.length_cons, ih, List.length_drop]
    omega

theorem length_record (f : SourceFile) : (record f).length = recordSectors f := by
  rw [record, List.length_cons, length_dataSectors, recordSectors, Nat.add_comm]

theorem length_records (fs : List SourceFile) : (fs.flatMap record).length = (fs.map recordSectors).sum := by
  rw [List.length_flatMap]
  exact congrArg List.sum (List.map_congr_left fun f _ => length_record f)

theorem chunkSize_le (size : ℕ) : chunkSize size ≤ size := by
  unfold chunkSize
  split <;> omega

theorem chunkSize_pos {size : ℕ} (h : 0 < size) : 0 < chunkSize size := by
  unfold chunkSize
  split <;> omega

/-- What is read of the contents in one turn is a sector of them. -/
theorem take_chunkSize (l : List UInt8) : l.take (chunkSize l.length) = l.take 512 := by
  unfold chunkSize
  split
  · rfl
  · rw [List.take_length, List.take_of_length_le (by omega)]

theorem drop_chunkSize (l : List UInt8) : l.drop (chunkSize l.length) = l.drop 512 := by
  unfold chunkSize
  split
  · rfl
  · rw [List.drop_length, List.drop_eq_nil_of_le (by omega)]

/-- The bytes at the start of a padded sector. -/
theorem slice_padded {l : List UInt8} (h : l.length ≤ 512) : Bytes.slice (padded l).get 0 l.length = l := by
  apply List.ext_getElem?
  intro i
  by_cases hi : i < l.length
  · rw [Bytes.slice_get hi, Nat.zero_add, padded, Block.get_mk (by omega), List.getElem?_eq_getElem hi]
    simp [hi]
  · rw [List.getElem?_eq_none (by rw [Bytes.slice_length]; omega), List.getElem?_eq_none (by omega)]

end Sectors

/-! ## What the appends write -/

/-- An archive whose next sector is the one behind `l`, on a device of `n` sectors. -/
structure Archived (n : ℕ) (l : List Sector) (a : Archive) : Prop where
  recorded : Recorded a.dst l
  sector : a.sector = l.length
  blockSize : a.dst.blockSize = n

section Append

variable {n : ℕ} {l : List Sector} {a : Archive}

theorem Archived.write (h : Archived n l a) (hroom : l.length < n) (b : Sector) :
    ∃ a', a.write b = some a' ∧ Archived n (l ++ [b]) a' := by
  have hsize := h.blockSize
  obtain ⟨dst, hdst, hrec⟩ := h.recorded.blockWrite (by omega) b
  have hwrite : a.write b = some ⟨dst, a.sector + 1⟩ := by
    rw [Archive.write, h.sector, hdst]
    rfl
  have hsector : a.sector + 1 = (l ++ [b]).length := by rw [List.length_append, List.length_singleton, h.sector]
  exact ⟨_, hwrite, hrec, hsector, (blockWrite_blockSize hdst).trans hsize⟩

/-- The copy loop writes the sectors of what is left of the file. -/
theorem Archived.appendLoop (src : List UInt8) {fuel pos size : ℕ} (h : Archived n l a)
    (hsize : (src.drop pos).length = size) (hfuel : size < fuel)
    (hroom : l.length + (dataSectors (src.drop pos)).length ≤ n) :
    ∃ a', appendLoop src fuel pos size a = some a' ∧ Archived n (l ++ dataSectors (src.drop pos)) a' := by
  induction fuel generalizing pos size l a with
  | zero => omega
  | succ fuel ih =>
    unfold Pintos.Filesys.appendLoop
    by_cases hzero : size = 0
    · have hnil : src.drop pos = [] := List.length_eq_zero_iff.mp (hsize.trans hzero)
      rw [if_pos hzero, hnil, dataSectors_nil, List.append_nil]
      exact ⟨a, rfl, h⟩
    · have hne : src.drop pos ≠ [] := fun hnil => hzero (by rw [← hsize, hnil, List.length_nil])
      have hsectors := dataSectors_of_ne_nil hne
      have hpos := chunkSize_pos (Nat.pos_of_ne_zero hzero)
      have hle := chunkSize_le size
      have hread : FileBytes.read src pos (chunkSize size) = (src.drop pos).take 512 := by
        rw [← hsize]
        exact take_chunkSize (src.drop pos)
      have hlen : (FileBytes.read src pos (chunkSize size)).length = chunkSize size := by
        rw [FileBytes.read, List.length_take, hsize]
        exact Nat.min_eq_left hle
      have hrest : src.drop (pos + chunkSize size) = (src.drop pos).drop 512 := by
        rw [← List.drop_drop, ← hsize]
        exact drop_chunkSize (src.drop pos)
      have hdst := h.blockSize
      have hsector := h.sector
      rw [hsectors, List.length_cons] at hroom
      obtain ⟨a', hwrite, hwritten⟩ := h.write (by omega) (padded (FileBytes.read src pos (chunkSize size)))
      have hleft : (src.drop (pos + chunkSize size)).length = size - chunkSize size := by
        rw [← List.drop_drop, List.length_drop, hsize]
      obtain ⟨a'', hloop, hdone⟩ := ih hwritten hleft (by omega) (by
        rw [hrest, List.length_append, List.length_singleton]
        omega)
      rw [if_neg hzero, if_neg (by omega)]
      dsimp only
      rw [if_neg (not_not_intro hlen), hwrite]
      rw [hread, hrest, List.append_assoc, List.singleton_append, ← hsectors] at hdone
      exact ⟨a'', hloop, hdone⟩

/-- **An append adds the record of its file and an end marker**, and leaves the sectors before them. -/
theorem Archived.fsutilAppend {f : SourceFile} (h : Archived n l a) (hname : f.NameFits)
    (hroom : l.length + recordSectors f + 2 ≤ n) :
    ∃ a', fsutilAppend a f = some a' ∧ Archived n (l ++ record f) a' ∧
      Recorded a'.dst (l ++ record f ++ [Block.zero]) := by
  obtain ⟨header, hmake, _⟩ := ustarParseHeader_make .regular f.zero_notMem hname f.length_lt
  have hrecord : record f = header :: dataSectors f.content := by rw [record, hmake, Option.getD_some]
  have hlen := length_record f
  rw [hrecord, List.length_cons] at hlen
  obtain ⟨a₁, hwrite, h₁⟩ := h.write (by omega) header
  obtain ⟨a₂, hloop, h₂⟩ := h₁.appendLoop f.content
    (show (f.content.drop 0).length = f.content.length from rfl) (Nat.lt_succ_self _) (by
    rw [List.length_append, List.length_singleton, List.drop_zero]
    omega)
  rw [List.drop_zero, List.append_assoc, List.singleton_append, ← hrecord] at h₂
  have hend : (l ++ record f).length = l.length + recordSectors f := by rw [List.length_append, length_record]
  have hsize₂ := h₂.blockSize
  obtain ⟨d₁, hzero₁, hrec₁⟩ := h₂.recorded.blockWrite (by omega) Block.zero
  have hsize₁ := blockWrite_blockSize hzero₁
  have hend₁ : (l ++ record f ++ [Block.zero]).length = (l ++ record f).length + 1 := List.length_append
  obtain ⟨d₂, hzero₂, hrec₂⟩ := hrec₁.blockWrite (by omega) Block.zero
  have hsector := h₂.sector
  have hdone : Pintos.Filesys.fsutilAppend a f = some { a₂ with dst := d₂ } := by
    unfold Pintos.Filesys.fsutilAppend
    simp only [hmake, hwrite, hloop, hsector, Option.bind_eq_bind, Option.bind_some, hzero₁, ← hend₁, hzero₂]
  have hsize := (blockWrite_blockSize hzero₂).trans (hsize₁.trans hsize₂)
  exact ⟨_, hdone, ⟨hrec₂.left.left, hsector, hsize⟩, hrec₂.left⟩

/-- The appends leave the records of the files and an end marker. -/
theorem Archived.fsutilAppends {fs : List SourceFile} (h : Archived n l a) (hname : ∀ f ∈ fs, f.NameFits)
    (hroom : l.length + (fs.map recordSectors).sum + 2 ≤ n)
    (hfirst : fs ≠ [] ∨ Recorded a.dst (l ++ [Block.zero])) :
    ∃ a', fsutilAppends a fs = some a' ∧ a'.dst.blockSize = n ∧
      Recorded a'.dst (l ++ fs.flatMap record ++ [Block.zero]) := by
  induction fs generalizing l a with
  | nil =>
    have hzero := hfirst.resolve_left (not_not_intro rfl)
    rw [List.flatMap_nil, List.append_nil]
    exact ⟨a, rfl, h.blockSize, hzero⟩
  | cons f fs ih =>
    rw [List.map_cons, List.sum_cons] at hroom
    obtain ⟨a₁, happend, h₁, hzero⟩ := h.fsutilAppend (hname f List.mem_cons_self) (by omega)
    obtain ⟨a₂, happends, h₂, hrec⟩ := ih h₁ (fun g hg => hname g (List.mem_cons_of_mem f hg))
      (by rw [List.length_append, length_record]; omega) (Or.inr hzero)
    rw [List.append_assoc l, ← List.flatMap_cons] at hrec
    have hcalls : Pintos.Filesys.fsutilAppends a (f :: fs) = some a₂ := by
      rw [Pintos.Filesys.fsutilAppends, happend, Option.bind_some, happends]
    exact ⟨a₂, hcalls, h₂, hrec⟩

end Append

/-! ## What is extracted -/

section Extract

variable {d : BlockDevice} {l m : List Sector}

/-- The sectors of a file are read back to its contents. -/
theorem Recorded.extractData {content : List UInt8} {fuel size : ℕ} (h : Recorded d (l ++ dataSectors content ++ m))
    (hsize : content.length = size) (hfuel : size < fuel) (hroom : (l ++ dataSectors content).length ≤ d.blockSize) :
    extractData d fuel size l.length = some (content, (l ++ dataSectors content).length) := by
  induction fuel generalizing content size l with
  | zero => omega
  | succ fuel ih =>
    unfold Pintos.Filesys.extractData
    by_cases hzero : size = 0
    · have hnil : content = [] := List.length_eq_zero_iff.mp (hsize.trans hzero)
      rw [if_pos hzero, hnil, dataSectors_nil, List.append_nil]
    · have hne : content ≠ [] := fun hnil => hzero (by rw [← hsize, hnil, List.length_nil])
      have hsectors := dataSectors_of_ne_nil hne
      have hpos := chunkSize_pos (Nat.pos_of_ne_zero hzero)
      have htake : (content.take 512).length = chunkSize size := by
        rw [← take_chunkSize, hsize, List.length_take, hsize]
        exact Nat.min_eq_left (chunkSize_le size)
      have hdrop : (content.drop 512).length = size - chunkSize size := by
        rw [← drop_chunkSize, hsize, List.length_drop, hsize]
      have hsplit : l ++ dataSectors content = l ++ [padded (content.take 512)] ++ dataSectors (content.drop 512) := by
        rw [hsectors, List.append_assoc, List.singleton_append]
      have hhead : l.length < (l ++ dataSectors content).length := by
        rw [hsectors, List.length_append, List.length_cons]
        omega
      have hread : Pintos.Filesys.blockRead d l.length = some (padded (content.take 512)) := by
        rw [hsectors, List.append_assoc, List.cons_append] at h
        exact h.blockRead (by omega)
      rw [hsplit] at h hroom ⊢
      have hrec := ih h hdrop (by omega) hroom
      rw [List.length_append, List.length_singleton] at hrec
      rw [if_neg hzero, hread, Option.bind_some, hrec, Option.map_some, ← htake,
        slice_padded (List.length_take_le _ _), List.take_append_drop]

theorem extractEntry_regular {next : ℕ → Option (List (List UInt8 × List UInt8) × ℕ)} {fileName data : List UInt8}
    {sector sector' size : ℕ} (h : Pintos.Filesys.extractData d (size + 1) size sector = some (data, sector')) :
    extractEntry d next sector (.ok (.entry fileName .regular size)) =
      (next sector').map fun rs => ((fileName, data) :: rs.1, rs.2) := by
  show (Pintos.Filesys.extractData d (size + 1) size sector).bind _ = _
  rw [h]
  rfl

/-- Records with an end marker behind them are read back to their files. -/
theorem Recorded.extractLoop {fs : List SourceFile} {fuel : ℕ}
    (h : Recorded d (l ++ fs.flatMap record ++ [Block.zero])) (hname : ∀ f ∈ fs, f.NameFits) (hfuel : fs.length < fuel)
    (hroom : (l ++ fs.flatMap record).length < d.blockSize) :
    extractLoop d fuel l.length = some (fs.map extracted, (l ++ fs.flatMap record).length + 1) := by
  induction fuel generalizing fs l with
  | zero => omega
  | succ fuel ih =>
    unfold Pintos.Filesys.extractLoop
    cases fs with
    | nil =>
      rw [List.flatMap_nil, List.append_nil] at h hroom ⊢
      rw [h.blockRead hroom, Option.bind_some, ustarParseHeader_zero]
      rfl
    | cons f fs =>
      obtain ⟨header, hmake, hparse⟩ :=
        ustarParseHeader_make .regular f.zero_notMem (hname f List.mem_cons_self) f.length_lt
      have hrecord : record f = header :: dataSectors f.content := by rw [record, hmake, Option.getD_some]
      have hsplit : l ++ (f :: fs).flatMap record =
          l ++ [header] ++ dataSectors f.content ++ fs.flatMap record := by
        rw [List.flatMap_cons, hrecord]
        simp only [List.append_assoc, List.cons_append, List.nil_append]
      have hread : Pintos.Filesys.blockRead d l.length = some header := by
        rw [hsplit, List.append_assoc, List.append_assoc, List.append_assoc, List.singleton_append] at h
        apply h.blockRead
        rw [List.length_append] at hroom
        omega
      rw [hsplit] at h hroom ⊢
      have hdata : Pintos.Filesys.extractData d (f.content.length + 1) f.content.length (l ++ [header]).length =
          some (f.content, (l ++ [header] ++ dataSectors f.content).length) := by
        rw [List.append_assoc _ (fs.flatMap record)] at h
        have hle := (List.sublist_append_left (l ++ [header] ++ dataSectors f.content) (fs.flatMap record)).length_le
        exact h.extractData rfl (Nat.lt_succ_self _) (by omega)
      have hrec := ih h (fun g hg => hname g (List.mem_cons_of_mem f hg)) (Nat.lt_of_succ_lt_succ hfuel) hroom
      rw [List.length_append, List.length_singleton] at hdata
      rw [hread, Option.bind_some, hparse, if_pos rfl, extractEntry_regular hdata, hrec]
      rfl

end Extract

/-! ## The round trip -/

/-- **What is extracted after the appends are the appended files**, under their stripped names, with their contents and
in their order, and the end marker behind them is the last sector that is read.  `files` is not empty, or the device
starts with a sector of zeros. -/
theorem extract_append (dst : BlockDevice) (files : List SourceFile) (hname : ∀ f ∈ files, f.NameFits)
    (hroom : (files.map recordSectors).sum + 2 ≤ dst.blockSize)
    (hfirst : files ≠ [] ∨ dst.sector 0 = Block.zero) :
    ∃ a src, fsutilAppends ⟨dst, 0⟩ files = some a ∧
      fsutilExtract a.dst 0 = some (files.map extracted, src, (files.map recordSectors).sum + 1) := by
  have hstart : Archived dst.blockSize [] ⟨dst, 0⟩ := ⟨recorded_nil dst, rfl, rfl⟩
  have hmarker : files ≠ [] ∨ Recorded dst [Block.zero] := by
    apply hfirst.imp_right
    intro hzero k b hk
    cases k with
    | zero => exact hzero.trans (Option.some.inj hk)
    | succ k => cases hk
  obtain ⟨a, happends, hsize, hrec⟩ := hstart.fsutilAppends hname (by rw [List.length_nil]; omega) hmarker
  have hlen := length_records files
  have hcount : files.length ≤ (files.map recordSectors).sum := by
    have h := List.card_nsmul_le_sum (files.map recordSectors) 1 (by
      intro k hk
      rw [List.mem_map] at hk
      obtain ⟨f, _, rfl⟩ := hk
      exact Nat.le_add_right 1 _)
    rwa [List.length_map, smul_eq_mul, Nat.mul_one] at h
  have hloop : extractLoop a.dst a.dst.blockSize 0 =
      some (files.map extracted, (files.map recordSectors).sum + 1) := by
    rw [← hlen, ← List.nil_append (files.flatMap record)]
    apply hrec.extractLoop hname (by omega)
    rw [List.nil_append, hlen]
    omega
  obtain ⟨d₁, hzero₁, hrec₁⟩ := (recorded_nil a.dst).blockWrite (show 0 < _ by omega) Block.zero
  have hsize₁ := blockWrite_blockSize hzero₁
  obtain ⟨d₂, hzero₂, _⟩ := hrec₁.blockWrite (show 1 < _ by omega) Block.zero
  have hextract : fsutilExtract a.dst 0 = some (files.map extracted, d₂, (files.map recordSectors).sum + 1) := by
    have hzero : blockWrite a.dst 0 Block.zero = some d₁ := hzero₁
    have hone : blockWrite d₁ 1 Block.zero = some d₂ := hzero₂
    unfold fsutilExtract
    simp only [hloop, hzero, hone, Option.bind_eq_bind, Option.bind_some]
  exact ⟨a, d₂, happends, hextract⟩

/-- A file of two bytes and an empty one on a device of five sectors. -/
theorem extract_append_two : ∃ a src,
    fsutilAppends ⟨⟨5, fun _ => Block.mk fun _ => 1⟩, 0⟩
      [⟨[47, 97], [7, 8], by decide, by decide⟩, ⟨[98], [], by decide, by decide⟩] = some a ∧
    fsutilExtract a.dst 0 = some ([([97], [7, 8]), ([98], [])], src, 4) :=
  extract_append _ _ (by decide) (by decide) (Or.inl (List.cons_ne_nil _ _))

/-- Without a file to append, the first sector is not an end marker if it was none before. -/
theorem extract_nothing : ¬∀ (dst : BlockDevice) (files : List SourceFile), (∀ f ∈ files, f.NameFits) →
    (files.map recordSectors).sum + 2 ≤ dst.blockSize → ∃ a src, fsutilAppends ⟨dst, 0⟩ files = some a ∧
      fsutilExtract a.dst 0 = some (files.map extracted, src, (files.map recordSectors).sum + 1) := by
  intro h
  obtain ⟨a, src, happends, hextract⟩ := h ⟨2, fun _ => Block.mk fun _ => 1⟩ [] (by decide) (by decide)
  cases happends
  have hpanic : fsutilExtract ⟨2, fun _ => Block.mk fun _ => 1⟩ 0 = none := by decide +kernel
  rw [hpanic] at hextract
  cases hextract

end Pintos.Filesys
