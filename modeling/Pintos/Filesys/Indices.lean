import Pintos.Filesys.Directory

/-!
# Indices and assertions

What the functions behind `read`, `write`, `create` and `seek` do with the numbers they are given, in any
state of memory and disk: they fail no assertion and index no array of block numbers outside its bounds,
as long as an offset is not negative and the last byte of a write is not behind -512 in 32-bit arithmetic.

`Quiet p Q` says this of a function `p`, with `Q` for its result.  It holds of a program when it holds of
its parts, so the lemmas follow the calls.
-/

namespace Pintos.Filesys

variable {α β : Type}

/-- The numbers of sectors are 32-bit ones. -/
structure Sized (m : Mem) : Prop where
  device : m.fsSize < 2 ^ 32
  freeMap : m.freeMap.bitCnt < 2 ^ 32

/-- The stops that are neither a failed assertion nor an access out of bounds. -/
def Harmless (e : Stop) : Prop := e ≠ .assertion ∧ e ≠ .outOfBounds

/-- In every state, `p` returns in `Q` or stops harmlessly. -/
def Quiet (p : Fs α) (Q : α → Prop) : Prop :=
  ∀ w : World, Sized w.mem → wp .any p (fun a w' => Q a ∧ Sized w'.mem) (fun e _ => Harmless e) w

namespace Quiet

variable {p : Fs α} {Q Q' : α → Prop}

theorem ret {a : α} (h : Q a) : Quiet (.ret a) Q := fun _ hw => (wp_ret a).mpr ⟨h, hw⟩

theorem stop {e : Stop} (h : Harmless e) : Quiet (.stop e : Fs α) Q := fun _ _ => (wp_stop e).mpr h

theorem bind {p : Fs β} {f : β → Fs α} {R : β → Prop} (hp : Quiet p R) (hf : ∀ b, R b → Quiet (f b) Q) :
    Quiet (p >>= f) Q := fun w hw =>
  wp_seq (hp w hw) fun b w' h => hf b h.1 w' h.2

theorem mono (h : Quiet p Q) (hQ : ∀ a, Q a → Q' a) : Quiet p Q' := fun w hw =>
  wp_mono_ret (h w hw) fun a _ h => ⟨hQ a h.1, h.2⟩

theorem getMem : Quiet getMem Sized := fun _ hw => wp_getMem.mpr ⟨hw, hw⟩

theorem setMem {m : Mem} (h : Sized m) : Quiet (setMem m) fun _ => True := fun _ _ =>
  wp_setMem.mpr ⟨trivial, h⟩

theorem malloc : Quiet malloc fun _ => True := fun _ hw => wp_malloc.mpr fun _ _ => ⟨trivial, hw⟩

theorem noSector : Quiet noSector fun _ => True := fun _ hw => wp_noSector.mpr fun _ => ⟨trivial, hw⟩

theorem panic : Quiet (.stop .panic : Fs α) Q := .stop ⟨nofun, nofun⟩

theorem bufferCacheRead (s : ℕ) : Quiet (bufferCacheRead s) fun _ => True := fun w hw => by
  rw [wp_bufferCacheRead]
  split
  · exact ⟨trivial, hw⟩
  · exact ⟨nofun, nofun⟩

theorem bufferCacheWrite (s : ℕ) (d : Sector) : Quiet (bufferCacheWrite s d) fun _ => True :=
  fun w hw => by
    rw [wp_bufferCacheWrite]
    split
    · exact ⟨trivial, hw⟩
    · exact ⟨nofun, nofun⟩

theorem deref (q : ℕ) : Quiet (deref q) fun _ => True := fun w hw => by
  rw [wp_deref]
  split
  · exact ⟨trivial, hw⟩
  · exact ⟨nofun, nofun⟩

theorem assign (q : ℕ) (i : Inode) : Quiet (assign q i) fun _ => True := fun w hw => by
  rw [wp_assign]
  split
  · exact ⟨trivial, ⟨hw.device, hw.freeMap⟩⟩
  · exact ⟨nofun, nofun⟩

theorem storeData (q : ℕ) (d : InodeDisk) : Quiet (storeData q d) fun _ => True :=
  .bind (.deref q) fun i _ => .assign q { i with data := d }

theorem forUpTo {γ : Type} {body : ℕ → β → Fs (β ⊕ γ)} {I : ℕ → β → Prop} (R : γ → Prop) {m : ℕ}
    (hbody : ∀ j b, j < m → I j b →
      Quiet (body j b) (Sum.elim (I (j + 1)) R)) (n i : ℕ) (b : β) (him : i + n = m) (hI : I i b) :
    Quiet (Prog.forUpTo body n i b) (Sum.elim (I m) R) := by
  induction n generalizing i b with
  | zero =>
    obtain rfl : i = m := him
    exact .ret hI
  | succ n ih =>
    refine .bind (hbody i b (by omega) hI) fun r hr => ?_
    cases r with
    | inl b' => exact ih (i + 1) b' (by omega) hr
    | inr c => exact .ret hr

end Quiet

/-! ## The free map and `inode_reserve` -/

section Reserve

variable {bitmapWrite : Fs Bool} (hb : Quiet bitmapWrite fun _ => True)

include hb

theorem Quiet.freeMapAllocateWith (cnt : ℕ) :
    Quiet (freeMapAllocateWith bitmapWrite cnt) fun _ => True := by
  refine .bind .getMem fun m hm => ?_
  have hset : ∀ (m : Mem), Sized m → ∀ start value,
      Sized { m with freeMap := m.freeMap.setMultiple start cnt value } :=
    fun m hm start value => ⟨hm.device, hm.freeMap⟩
  unfold Bitmap.scanAndFlip
  cases m.freeMap.scan 0 cnt false with
  | none => exact .bind .noSector fun _ _ => .ret trivial
  | some sector =>
    refine .bind (.setMem (hset m hm sector _)) fun _ _ => ?_
    split
    · refine .bind hb fun ok _ => ?_
      split
      · exact .ret trivial
      · refine .bind .getMem fun m hm => .bind (.setMem (hset m hm sector false)) fun _ _ => ?_
        exact .bind .noSector fun _ _ => .ret trivial
    · exact .ret trivial

omit hb in
/-- `reserve_indir` from the read of the index block on. -/
theorem Quiet.reserveIndex {level : ℕ} (page num chunk max : ℕ)
    (ih : ∀ page num, Quiet (reserveIndirWith bitmapWrite level page num) fun _ => True) :
    Quiet (do
      let indirBlock ← Filesys.bufferCacheRead page
      match ← Prog.forUpTo (fun i (b : Sector × ℕ) => do
          let nmax := min b.2 chunk
          let (ok, s) ← reserveIndirWith bitmapWrite level (b.1.word i) nmax
          if ok then return .inl (b.1.setWord i s, b.2 - nmax) else return .inr ()) max 0
          (indirBlock, num) with
      | .inr () => return (false, page)
      | .inl (indirBlock, num) =>
        if num ≠ 0 then
          .stop (.exit (-1))
        else
          Filesys.bufferCacheWrite page indirBlock
          return (true, page)) fun _ => True := by
  refine .bind (.bufferCacheRead page) fun indirBlock _ => ?_
  refine .bind (.forUpTo (I := fun _ _ => True) (fun _ => True) (m := max) (fun j b _ _ => ?_) max 0 _
    (Nat.zero_add max) trivial) fun r _ => ?_
  · refine .bind (ih _ _) fun r _ => ?_
    obtain ⟨ok, s⟩ := r
    cases ok with
    | false => exact .ret trivial
    | true => exact .ret trivial
  · cases r with
    | inr u => exact .ret trivial
    | inl b =>
      dsimp only
      split
      · exact .stop ⟨nofun, nofun⟩
      · exact .bind (.bufferCacheWrite _ _) fun _ _ => .ret trivial

theorem Quiet.reserveIndirWith (level : ℕ) : ∀ page num,
    Quiet (reserveIndirWith bitmapWrite level page num) fun _ => True := by
  induction level with
  | zero =>
    intro page num
    unfold Pintos.Filesys.reserveIndirWith
    split
    · refine .bind (.freeMapAllocateWith hb 1) fun r _ => ?_
      cases r with
      | none => exact .ret trivial
      | some page => exact .bind (.bufferCacheWrite _ _) fun _ _ => .ret trivial
    · exact .ret trivial
  | succ level ih =>
    intro page num
    unfold Pintos.Filesys.reserveIndirWith
    split
    · exact .stop ⟨nofun, nofun⟩
    dsimp only
    split
    · refine .bind (.freeMapAllocateWith hb 1) fun r _ => ?_
      exact .bind (.bufferCacheWrite _ _) fun _ _ =>
        .bind (R := fun _ => True) (.ret trivial) fun page _ => .reserveIndex page num _ _ ih
    · exact .bind (R := fun _ => True) (.ret trivial) fun page _ => .reserveIndex page num _ _ ih

theorem Quiet.inodeReserveWith {store : InodeDisk → Fs Unit}
    (hs : ∀ d, Quiet (store d) fun _ => True) (page : InodeDisk) (len : ℤ) :
    Quiet (inodeReserveWith bitmapWrite store page len) fun _ => True := by
  unfold Pintos.Filesys.inodeReserveWith
  split
  · exact .ret trivial
  dsimp only
  refine .bind (.forUpTo (I := fun _ _ => True) (fun _ => True) (m := (min (bytesToSectors len) 123).toNat)
    (fun j d _ _ => ?_) _ 0 _ (Nat.zero_add _) trivial) fun r _ => ?_
  · unfold reserveDirect
    split
    · refine .bind (.freeMapAllocateWith hb 1) fun r _ => ?_
      cases r with
      | none => exact .ret trivial
      | some s =>
        exact .bind (hs _) fun _ _ => .bind (.bufferCacheWrite _ _) fun _ _ => .ret trivial
    · exact .ret trivial
  cases r with
  | inr page => exact .ret trivial
  | inl page =>
    dsimp only
    split
    · exact .ret trivial
    refine .bind (.reserveIndirWith hb 1 _ _) fun r _ => .bind (hs _) fun _ _ => ?_
    split
    · exact .ret trivial
    split
    · exact .ret trivial
    refine .bind (.reserveIndirWith hb 2 _ _) fun r _ => .bind (hs _) fun _ _ => ?_
    split
    · exact .ret trivial
    split
    · exact .ret trivial
    · exact .stop ⟨nofun, nofun⟩

end Reserve

/-! ## Indices -/

/-- An access to an array of `n` block numbers that checks its index. -/
def blockAt (n : ℕ) (array : ℕ → ℕ) (index : ℤ) : Fs ℕ :=
  if 0 ≤ index ∧ index < n then return array index.toNat else .stop .outOfBounds

/-- `sector_number` with every index checked against the array that it is used on. -/
def sectorNumberChecked (d : InodeDisk) (index : ℤ) : Fs ℕ :=
  if index < 123 then blockAt 123 d.dirBlock index
  else if index < 251 then do
    if ← malloc then
      let b ← bufferCacheRead d.indirBlock
      blockAt 128 b.word (index - 123)
    else .stop .pageFault
  else if index < 16635 then do
    if ← malloc then
      let b ← bufferCacheRead d.dIndirBlock
      let s ← blockAt 128 b.word ((index - 251) / 128)
      let b ← bufferCacheRead s
      blockAt 128 b.word ((index - 251) % 128)
    else .stop .pageFault
  else return 0

theorem blockAt_of_lt {n k : ℕ} {index : ℤ} (array : ℕ → ℕ) (hk : k < n) (h : index = k) :
    blockAt n array index = .ret (array k) := by
  subst h
  unfold blockAt
  rw [if_pos ⟨by omega, by omega⟩]
  rfl

/-- **Only an index into `dir_blocks` can leave its array, and only at the front.** -/
theorem sectorNumber_eq_checked (d : InodeDisk) (index : ℤ) :
    sectorNumber d index = sectorNumberChecked d index := by
  unfold sectorNumber sectorNumberChecked
  split
  · by_cases h : index < 0
    · rw [if_pos h, blockAt, if_neg (by omega)]
    · rw [if_neg h, blockAt_of_lt _ (by omega) (show index = (index.toNat : ℤ) by omega)]
      rfl
  split
  · refine congrArg _ (funext fun allocated => ?_)
    split
    · refine congrArg (bufferCacheRead _ >>= ·) (funext fun b => ?_)
      exact (blockAt_of_lt b.word (by omega) (by omega)).symm
    · rfl
  split
  · refine congrArg _ (funext fun allocated => ?_)
    split
    · refine congrArg (bufferCacheRead _ >>= ·) (funext fun b => ?_)
      rw [blockAt_of_lt (k := (index.toNat - 251) / 128) b.word (by omega) (by omega), Prog.ret_bind]
      refine congrArg (bufferCacheRead _ >>= ·) (funext fun b => ?_)
      exact (blockAt_of_lt b.word (by omega) (by omega)).symm
    · rfl
  · rfl

section Index

variable {w : World} {p : ℕ}

/-- `sector_number` for an index that is not negative. -/
theorem wp_sectorNumber_index (d : InodeDisk) {index : ℤ} (h : 0 ≤ index) :
    wp .any (sectorNumber d index) (fun _ w' => w' = w) (fun e _ => Harmless e) w := by
  have hread : ∀ s k, wp .any (do
      let b ← bufferCacheRead s
      return b.word k) (fun _ w' => w' = w) (fun e _ => Harmless e) w := fun s k => by
    rw [wp_bind, wp_bufferCacheRead]
    split
    · exact (wp_pure _).mpr rfl
    · exact ⟨nofun, nofun⟩
  unfold sectorNumber
  split
  · rw [if_neg (by omega)]
    exact (wp_pure _).mpr rfl
  split
  · rw [wp_bind, wp_malloc]
    intro ok _
    split
    · exact hread _ _
    · exact (wp_stop _).mpr ⟨nofun, nofun⟩
  split
  · rw [wp_bind, wp_malloc]
    intro ok _
    split
    · rw [wp_bind, wp_bufferCacheRead]
      split
      · exact hread _ _
      · exact ⟨nofun, nofun⟩
    · exact (wp_stop _).mpr ⟨nofun, nofun⟩
  · exact (wp_pure _).mpr rfl

/-- The inode at an address is longer than `pos`. -/
def Reaches (w : World) (p : ℕ) (pos : ℤ) : Prop := ∃ i, w.mem.heap p = some i ∧ pos < i.data.length

/-- `byte_to_sector` from -511 on: the quotient by the size of a sector is towards zero. -/
theorem wp_byteToSector_index {pos : ℤ} (h : -512 < pos) :
    wp .any (byteToSector p pos) (fun s w' => w' = w ∧ (s = 2 ^ 32 - 1 ∨ Reaches w p pos))
      (fun e _ => Harmless e) w := by
  unfold byteToSector
  rw [wp_bind, wp_deref]
  cases hi : w.mem.heap p with
  | none => exact ⟨nofun, nofun⟩
  | some i =>
    dsimp only
    split
    · have hdiv : 0 ≤ pos.tdiv 512 := by
        rcases le_or_gt 0 pos with h0 | h0
        · exact Int.tdiv_nonneg h0 (by omega)
        · rw [show pos = -(-pos) by omega, Int.neg_tdiv, Int.tdiv_eq_zero_of_lt (by omega) (by omega)]
          exact le_rfl
      exact wp_mono_ret (wp_sectorNumber_index _ hdiv) fun s w' hw' => ⟨hw', .inr ⟨i, hi, by assumption⟩⟩
    · exact (wp_pure _).mpr ⟨rfl, .inl rfl⟩

theorem wp_inodeLength_index : wp .any (inodeLength p)
    (fun len w' => w' = w ∧ ∃ i, w.mem.heap p = some i ∧ len = i.data.length)
    (fun e _ => Harmless e) w := by
  unfold inodeLength
  rw [wp_bind, wp_deref]
  cases hi : w.mem.heap p with
  | none => exact ⟨nofun, nofun⟩
  | some i => exact (wp_pure _).mpr ⟨rfl, i, rfl, rfl⟩

theorem length_lt (d : InodeDisk) : d.length < 2 ^ 31 := (toInt32_bounds (d.word_lt 125)).2

/-- A piece that is copied from or to a sector of the device ends within the inode. -/
theorem chunk_end {size offset length c : ℤ} {s : ℕ} {i : Inode} (hw : Sized w.mem)
    (hi : w.mem.heap p = some i) (hlen : length = i.data.length) (h0 : 0 ≤ offset)
    (hsec : s = 2 ^ 32 - 1 ∨ Reaches w p offset) (hs : s < w.mem.fsSize)
    (hc : c = min size (min (wrap32 (length - offset)) (512 - offset.tmod 512))) :
    offset + c < 2 ^ 31 := by
  have hdev := hw.device
  rcases hsec with hsec | ⟨j, hj, hlt⟩
  · omega
  · obtain rfl : i = j := Option.some.inj (hi.symm.trans hj)
    have hlen2 := length_lt i.data
    rw [wrap32_of_mem (by omega) (by omega)] at hc
    omega

/-- `inode_read_at`'s loop from an offset that is not negative. -/
theorem wp_inodeReadLoop_index (fuel : ℕ) (hw : Sized w.mem) : ∀ {size offset : ℤ} {bounce : Bool},
    0 ≤ offset → offset < 2 ^ 31 →
    wp .any (inodeReadLoop p fuel size offset bounce)
      (fun l w' => w' = w ∧ offset + l.length < 2 ^ 31) (fun e _ => Harmless e) w := by
  induction fuel with
  | zero => exact fun h0 h => (wp_pure _).mpr ⟨rfl, by simpa using h⟩
  | succ fuel ih =>
    intro size offset bounce h0 h
    have hnil : wp .any (pure [] : Fs (List UInt8)) (fun l w' => w' = w ∧ offset + l.length < 2 ^ 31)
        (fun e _ => Harmless e) w := (wp_pure _).mpr ⟨rfl, by simpa using h⟩
    unfold inodeReadLoop
    split
    · exact hnil
    refine wp_seq (wp_byteToSector_index (by omega)) ?_
    rintro s w ⟨rfl, hsec⟩
    dsimp only
    refine wp_seq wp_inodeLength_index ?_
    rintro length w ⟨rfl, i, hi, hlen⟩
    split
    · exact hnil
    rename_i hpos
    generalize hc : min size (min (wrap32 (length - offset)) (512 - offset.tmod 512)) = c at hpos ⊢
    have hend := fun hs => chunk_end hw hi hlen h0 hsec hs hc.symm
    split
    · rename_i hfull
      rw [wp_bind, wp_bufferCacheRead]
      split
      · rename_i hs
        refine wp_seq (ih (by omega) (hend hs)) ?_
        rintro l _ ⟨rfl, hl⟩
        refine (wp_pure _).mpr ⟨rfl, ?_⟩
        rw [List.length_append, Bytes.slice_length]
        omega
      · exact ⟨nofun, nofun⟩
    · have hmod := Int.tmod_nonneg 512 h0
      have hpart : wp .any (do
          let b ← bufferCacheRead s
          if offset.tmod 512 < 0 then Prog.stop .outOfBounds
          else do
            let rest ← inodeReadLoop p fuel (size - c) (offset + c) true
            return Bytes.slice b.get (offset.tmod 512).toNat c.toNat ++ rest)
          (fun l w' => w' = w ∧ offset + l.length < 2 ^ 31) (fun e _ => Harmless e) w := by
        rw [wp_bind, wp_bufferCacheRead]
        split
        · rename_i hs
          rw [if_neg (by omega)]
          refine wp_seq (ih (by omega) (hend hs)) ?_
          rintro l _ ⟨rfl, hl⟩
          refine (wp_pure _).mpr ⟨rfl, ?_⟩
          rw [List.length_append, Bytes.slice_length]
          omega
        · exact ⟨nofun, nofun⟩
      cases bounce with
      | true => exact hpart
      | false =>
        rw [if_neg (by decide), wp_bind, wp_malloc]
        intro allocated _
        cases allocated with
        | false => exact hnil
        | true => exact hpart

/-- `inode_write_at`'s loop from an offset that is not negative. -/
theorem wp_inodeWriteLoop_index (fuel : ℕ) : ∀ {w : World} {buffer : ℕ → UInt8} {size offset : ℤ}
    {bounce : Bool}, Sized w.mem → 0 ≤ offset → offset < 2 ^ 31 →
    wp .any (inodeWriteLoop p fuel buffer size offset bounce)
      (fun n w' => (0 ≤ n ∧ offset + n < 2 ^ 31) ∧ Sized w'.mem) (fun e _ => Harmless e) w := by
  induction fuel with
  | zero => exact fun hw h0 h => (wp_pure _).mpr ⟨⟨le_rfl, by omega⟩, hw⟩
  | succ fuel ih =>
    intro w buffer size offset bounce hw h0 h
    have hnil : wp .any (pure 0 : Fs ℤ) (fun n w' => (0 ≤ n ∧ offset + n < 2 ^ 31) ∧ Sized w'.mem)
        (fun e _ => Harmless e) w := (wp_pure _).mpr ⟨⟨le_rfl, by omega⟩, hw⟩
    unfold inodeWriteLoop
    split
    · exact hnil
    refine wp_seq (wp_byteToSector_index (by omega)) ?_
    rintro s w ⟨rfl, hsec⟩
    dsimp only
    refine wp_seq wp_inodeLength_index ?_
    rintro length w ⟨rfl, i, hi, hlen⟩
    split
    · exact hnil
    rename_i hpos
    generalize hc : min size (min (wrap32 (length - offset)) (512 - offset.tmod 512)) = c at hpos ⊢
    have hend := fun hs => chunk_end hw hi hlen h0 hsec hs hc.symm
    -- a piece is stored, and the loop goes on behind it
    have hstore : ∀ (d : Sector) bounce, wp .any (do
        bufferCacheWrite s d
        let rest ← inodeWriteLoop p fuel (fun i => buffer (i + c.toNat)) (size - c) (offset + c) bounce
        return c + rest) (fun n w' => (0 ≤ n ∧ offset + n < 2 ^ 31) ∧ Sized w'.mem)
        (fun e _ => Harmless e) w := fun d bounce => by
      rw [wp_bind, wp_bufferCacheWrite]
      split
      · rename_i hs
        refine wp_seq (ih hw (by omega) (hend hs)) ?_
        rintro n w' ⟨⟨hn, hlt⟩, hw'⟩
        exact (wp_pure _).mpr ⟨⟨by omega, by omega⟩, hw'⟩
      · exact ⟨nofun, nofun⟩
    split
    · exact hstore _ _
    · have hmod := Int.tmod_nonneg 512 h0
      have hpart : ∀ b : Sector, wp .any (
          if offset.tmod 512 < 0 then Prog.stop .outOfBounds
          else do
            bufferCacheWrite s (b.splice (offset.tmod 512).toNat c.toNat buffer)
            let rest ← inodeWriteLoop p fuel (fun i => buffer (i + c.toNat)) (size - c) (offset + c) true
            return c + rest) (fun n w' => (0 ≤ n ∧ offset + n < 2 ^ 31) ∧ Sized w'.mem)
          (fun e _ => Harmless e) w := fun b => by
        rw [if_neg (by omega)]
        exact hstore _ _
      have hfill : wp .any (
          if offset.tmod 512 > 0 ∨ c < 512 - offset.tmod 512 then do
            let b ← bufferCacheRead s
            if offset.tmod 512 < 0 then Prog.stop .outOfBounds
            else do
              bufferCacheWrite s (b.splice (offset.tmod 512).toNat c.toNat buffer)
              let rest ← inodeWriteLoop p fuel (fun i => buffer (i + c.toNat)) (size - c) (offset + c) true
              return c + rest
          else do
            let b ← pure Block.zero
            if offset.tmod 512 < 0 then Prog.stop .outOfBounds
            else do
              bufferCacheWrite s (b.splice (offset.tmod 512).toNat c.toNat buffer)
              let rest ← inodeWriteLoop p fuel (fun i => buffer (i + c.toNat)) (size - c) (offset + c) true
              return c + rest) (fun n w' => (0 ≤ n ∧ offset + n < 2 ^ 31) ∧ Sized w'.mem)
          (fun e _ => Harmless e) w := by
        split
        · rw [wp_bind, wp_bufferCacheRead]
          split
          · exact hpart _
          · exact ⟨nofun, nofun⟩
        · exact hpart _
      cases bounce with
      | true => exact hfill
      | false =>
        rw [if_neg (by decide), wp_bind, wp_malloc]
        intro allocated _
        cases allocated with
        | false => exact hnil
        | true => exact hfill

theorem last_of_small {size : ℤ} (h0 : 0 ≤ size) (h : size < 2 ^ 30) :
    -512 < wrap32 (wrap32 (0 + size) - 1) := by
  have hsize : wrap32 size = size := wrap32_of_mem (by omega) (by omega)
  rw [zero_add, hsize, wrap32_of_mem (by omega) (by omega)]
  omega

/-- The bytes of the bitmap are few enough for their sum to stay below 2^31. -/
theorem Quiet.bitmapWriteWith {writeAt : ℕ → (ℕ → UInt8) → ℤ → ℤ → Fs ℤ}
    (h : ∀ p buffer size, 0 ≤ size → size < 2 ^ 30 → Quiet (writeAt p buffer size 0) fun _ => True) :
    Quiet (bitmapWriteWith writeAt) fun _ => True := by
  refine .bind .getMem fun m hm => ?_
  cases m.freeMapFile with
  | none => exact .stop ⟨nofun, nofun⟩
  | some f =>
    have hcnt : m.freeMap.byteCnt < 2 ^ 30 := by
      have := hm.freeMap
      unfold Bitmap.byteCnt
      omega
    exact .bind (h _ _ _ (by omega) (by exact_mod_cast hcnt)) fun n _ => .ret trivial

/-- **`inode_write_at` for any size**: what matters is the last byte in 32-bit arithmetic, and nothing
where writes are denied. -/
theorem wp_inodeWriteAtDepth_index (depth : ℕ) : ∀ {w : World} {p : ℕ} {buffer : ℕ → UInt8}
    {size offset : ℤ}, Sized w.mem → 0 ≤ offset → offset < 2 ^ 31 →
    (∀ i, w.mem.heap p = some i → i.denyWriteCnt = 0 → -512 < wrap32 (wrap32 (offset + size) - 1)) →
    wp .any (inodeWriteAtDepth depth p buffer size offset)
      (fun n w' => (0 ≤ n ∧ offset + n < 2 ^ 31) ∧ Sized w'.mem) (fun e _ => Harmless e) w := by
  induction depth with
  | zero => exact fun _ _ _ _ => (wp_stop _).mpr ⟨nofun, nofun⟩
  | succ depth ih =>
    intro w p buffer size offset hw h0 h hlast
    have hnil : ∀ w, Sized w.mem → wp .any (pure 0 : Fs ℤ)
        (fun n w' => (0 ≤ n ∧ offset + n < 2 ^ 31) ∧ Sized w'.mem) (fun e _ => Harmless e) w :=
      fun w hw => (wp_pure _).mpr ⟨⟨le_rfl, by omega⟩, hw⟩
    unfold inodeWriteAtDepth
    rw [wp_bind, wp_deref]
    cases hi : w.mem.heap p with
    | none => exact ⟨nofun, nofun⟩
    | some i =>
      dsimp only
      split
      · exact hnil w hw
      rename_i hdeny
      refine wp_seq (wp_byteToSector_index (hlast i hi (by simpa using hdeny))) ?_
      rintro s w ⟨rfl, _⟩
      split
      · have hbitmap : Quiet (bitmapWriteWith (inodeWriteAtDepth depth)) fun _ => True :=
          .bitmapWriteWith fun p buffer size h0 h w hw => wp_mono_ret
            (ih hw le_rfl (by omega) fun i _ _ => last_of_small h0 h) fun n w' hn => ⟨trivial, hn.2⟩
        refine (?_ : Quiet _ fun n => 0 ≤ n ∧ offset + n < 2 ^ 31) w hw
        refine .bind (.deref p) fun i _ =>
          .bind (.inodeReserveWith hbitmap (.storeData p) _ _) fun r _ => ?_
        obtain ⟨ok, d⟩ := r
        cases ok with
        | false => exact fun w hw => hnil w hw
        | true =>
          refine .bind (.deref p) fun i _ => .bind (.assign p _) fun _ _ => ?_
          refine .bind (.bufferCacheWrite _ _) fun _ _ w hw => ?_
          exact wp_inodeWriteLoop_index _ hw h0 h
      · exact wp_inodeWriteLoop_index _ hw h0 h

end Index

/-! ## The functions that get a number from a process -/

theorem wp_inodeReadAt_index {w : World} {p : ℕ} {size offset : ℤ} (hw : Sized w.mem) (h0 : 0 ≤ offset)
    (h : offset < 2 ^ 31) :
    wp .any (inodeReadAt p size offset) (fun l w' => w' = w ∧ offset + l.length < 2 ^ 31)
      (fun e _ => Harmless e) w := wp_inodeReadLoop_index _ hw h0 h

theorem Quiet.bitmapWrite : Quiet bitmapWrite fun _ => True :=
  .bitmapWriteWith fun p buffer size h0 h w hw => wp_mono_ret
    (wp_inodeWriteAtDepth_index callDepth hw le_rfl (by omega) fun i _ _ => last_of_small h0 h)
    fun n w' hn => ⟨trivial, hn.2⟩

/-- `inode_create` at a length that is not negative. -/
theorem Quiet.inodeCreate (sector : ℕ) {length : ℤ} (isDir : Bool) (h : 0 ≤ length) :
    Quiet (inodeCreate sector length isDir) fun _ => True := by
  unfold Pintos.Filesys.inodeCreate
  rw [if_neg (by omega)]
  refine .bind .malloc fun allocated _ => ?_
  cases allocated with
  | false => exact .ret trivial
  | true =>
    refine .bind (.inodeReserveWith .bitmapWrite (fun d => .ret trivial) _ _) fun r _ => ?_
    obtain ⟨ok, d⟩ := r
    cases ok with
    | false => exact .ret trivial
    | true => exact .bind (.bufferCacheWrite _ _) fun _ _ => .ret trivial

end Pintos.Filesys
