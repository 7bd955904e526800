import Pintos.Filesys.Filesys

/-!
# What the functions on data leave alone

Reading, writing, allocating and releasing sectors works on the data of inodes, on the free map and on the
disk.  It opens and closes no inode: the sector, the count of openers and the mark of removal of every inode
stay, and so do the list of open inodes and the open file of the free map.

`Steady m m'` says this of two memories, and `Still m p` of a program `p` from every memory that is steady
against `m`; so the memory `m` at the start of a call serves for all its parts.  `Still` also says that no
freed inode is touched.  The functions are gone through once, for any invariant of which the data of inodes and the
free map are no part (`Preserves`).
-/

namespace Pintos.Filesys

variable {α β : Type}

/-- The fields of an inode that say whose it is. -/
def Inode.head (i : Inode) : ℕ × ℤ × Bool := (i.sector, i.openCnt, i.removed)

/-- Two memories that differ in the free map and in the other fields of inodes. -/
structure Steady (m m' : Mem) : Prop where
  fsSize : m'.fsSize = m.fsSize
  heap : ∀ p, (m'.heap p).map Inode.head = (m.heap p).map Inode.head
  next : m'.next = m.next
  openInodes : m'.openInodes = m.openInodes
  freeMapFile : m'.freeMapFile = m.freeMapFile
  cwd : m'.cwd = m.cwd

/-- There is an inode at the address. -/
def Live (m : Mem) (p : ℕ) : Prop := ∃ i, m.heap p = some i

namespace Steady

variable {m m₁ m₂ : Mem}

theorem refl (m : Mem) : Steady m m := ⟨rfl, fun _ => rfl, rfl, rfl, rfl, rfl⟩

theorem trans (h : Steady m m₁) (h' : Steady m₁ m₂) : Steady m m₂ where
  fsSize := h'.fsSize.trans h.fsSize
  heap p := (h'.heap p).trans (h.heap p)
  next := h'.next.trans h.next
  openInodes := h'.openInodes.trans h.openInodes
  freeMapFile := h'.freeMapFile.trans h.freeMapFile
  cwd := h'.cwd.trans h.cwd

/-- An inode after steady changes, and what it was before. -/
theorem back (h : Steady m m₁) {p : ℕ} {i : Inode} (hi : m₁.heap p = some i) :
    ∃ j, m.heap p = some j ∧ i.head = j.head := by
  have hp := h.heap p
  rw [hi] at hp
  cases hj : m.heap p with
  | none =>
    rw [hj] at hp
    cases hp
  | some j =>
    rw [hj] at hp
    exact ⟨j, rfl, Option.some.inj hp⟩

theorem forth (h : Steady m m₁) {p : ℕ} {j : Inode} (hj : m.heap p = some j) :
    ∃ i, m₁.heap p = some i ∧ i.head = j.head := by
  have hp := h.heap p
  rw [hj] at hp
  cases hi : m₁.heap p with
  | none =>
    rw [hi] at hp
    cases hp
  | some i =>
    rw [hi] at hp
    exact ⟨i, rfl, Option.some.inj hp⟩

theorem none_iff (h : Steady m m₁) (p : ℕ) : m₁.heap p = none ↔ m.heap p = none := by
  rw [← Option.map_eq_none_iff (f := Inode.head), h.heap p, Option.map_eq_none_iff]

theorem live (h : Steady m m₁) {p : ℕ} (hp : Live m p) : Live m₁ p := by
  obtain ⟨j, hj⟩ := hp
  obtain ⟨i, hi, _⟩ := h.forth hj
  exact ⟨i, hi⟩

/-- Changing the other fields of an inode. -/
theorem setInode {p : ℕ} {i i' : Inode} (h : Steady m m₁) (hi : m₁.heap p = some i)
    (hhead : i'.head = i.head) :
    Steady m { m₁ with heap := Function.update m₁.heap p (some i') } := by
  refine h.trans ⟨rfl, fun q => ?_, rfl, rfl, rfl, rfl⟩
  dsimp only
  by_cases hq : q = p
  · subst hq
    rw [Function.update_self, hi]
    exact congrArg some hhead
  · rw [Function.update_of_ne hq]

theorem setFreeMap (h : Steady m m₁) (b : Bitmap) : Steady m { m₁ with freeMap := b } :=
  ⟨h.fsSize, h.heap, h.next, h.openInodes, h.freeMapFile, h.cwd⟩

end Steady

/-- From every memory of which `I` holds, the program keeps it so and touches no freed inode. -/
def Preserves (I : Mem → Prop) (p : Fs α) : Prop :=
  ∀ w : World, I w.mem → wp .any p (fun _ w' => I w'.mem) (fun e w' => e ≠ .useAfterFree ∧ I w'.mem) w

/-- An invariant on which the free map and the data of inodes have no influence. -/
class DataFree (I : Mem → Prop) : Prop where
  freeMap : ∀ {m : Mem} (b : Bitmap), I m → I { m with freeMap := b }
  data : ∀ {m : Mem} {p : ℕ} {i : Inode} (d : InodeDisk), m.heap p = some i → I m →
    I { m with heap := Function.update m.heap p (some { i with data := d }) }

/-- There is an inode at the address as long as `I` holds. -/
def LiveIn (I : Mem → Prop) (p : ℕ) : Prop := ∀ m, I m → Live m p

/-- So there is at that of the file of the free map. -/
def FreeMapLiveIn (I : Mem → Prop) : Prop := ∀ m f, I m → m.freeMapFile = some f → LiveIn I f.inode

namespace Preserves

variable {I : Mem → Prop}

theorem ret (a : α) : Preserves I (.ret a) := fun _ hw => (wp_ret a).mpr hw

theorem stop {e : Stop} (h : e ≠ .useAfterFree) : Preserves I (.stop e : Fs α) := fun _ hw =>
  (wp_stop e).mpr ⟨h, hw⟩

theorem bind {p : Fs β} {f : β → Fs α} (hp : Preserves I p) (hf : ∀ b, Preserves I (f b)) :
    Preserves I (p >>= f) := fun w hw =>
  wp_seq (hp w hw) fun b w' h => hf b w' h

theorem malloc : Preserves I malloc := fun _ hw => wp_malloc.mpr fun _ _ => hw

theorem junk : Preserves I junk := fun _ hw => wp_junk.mpr fun _ _ => hw

theorem noSector : Preserves I noSector := fun _ hw => wp_noSector.mpr fun _ => hw

theorem getMem {f : Mem → Fs α} (h : ∀ m, I m → Preserves I (f m)) : Preserves I (getMem >>= f) :=
  fun w hw => (wp_bind _ _).mpr (wp_getMem.mpr (h w.mem hw w hw))

theorem bufferCacheRead (s : ℕ) : Preserves I (bufferCacheRead s) := fun w hw => by
  rw [wp_bufferCacheRead]
  split
  · exact hw
  · exact ⟨nofun, hw⟩

theorem bufferCacheWrite (s : ℕ) (d : Sector) : Preserves I (bufferCacheWrite s d) := fun w hw => by
  rw [wp_bufferCacheWrite]
  split
  · exact hw
  · exact ⟨nofun, hw⟩

theorem deref {q : ℕ} (hq : LiveIn I q) : Preserves I (deref q) := fun w hw => by
  obtain ⟨i, hi⟩ := hq _ hw
  rw [wp_deref_some hi]
  exact hw

theorem forUpTo {γ : Type} {body : ℕ → β → Fs (β ⊕ γ)} (hbody : ∀ j b, Preserves I (body j b))
    (n i : ℕ) (b : β) : Preserves I (Prog.forUpTo body n i b) := by
  induction n generalizing i b with
  | zero => exact .ret _
  | succ n ih =>
    refine .bind (hbody i b) fun r => ?_
    cases r with
    | inl b' => exact ih (i + 1) b'
    | inr c => exact .ret _

variable [DataFree I]

/-- Changing the free map. -/
theorem getSetFreeMap {f : Mem → Bitmap} {k : Fs α} (h : Preserves I k) :
    Preserves I (do
      let m' ← Filesys.getMem
      setMem { m' with freeMap := f m' }
      k) := fun w hw => by
  rw [wp_bind, wp_getMem, wp_bind, wp_setMem]
  exact h _ (DataFree.freeMap _ hw)

/-- Changing the data of an inode. -/
theorem derefSetData {q : ℕ} (hq : LiveIn I q) {d : InodeDisk} {k : Inode → Fs α}
    (hk : ∀ i, Preserves I (k i)) : Preserves I (do
      let i ← Filesys.deref q
      assign q { i with data := d }
      k i) := fun w hw => by
  obtain ⟨i, hi⟩ := hq _ hw
  rw [wp_bind, wp_deref_some hi, wp_bind, wp_assign]
  simp only [hi]
  exact hk i _ (DataFree.data d hi hw)

theorem storeData {q : ℕ} (hq : LiveIn I q) (d : InodeDisk) : Preserves I (storeData q d) := fun w hw => by
  obtain ⟨i, hi⟩ := hq _ hw
  rw [Filesys.storeData, wp_bind, wp_deref_some hi, wp_assign]
  simp only [hi]
  exact DataFree.data d hi hw

end Preserves

/-! ## The free map and `inode_reserve` -/

section Reserve

variable {I : Mem → Prop} [DataFree I] {bitmapWrite : Fs Bool} (hb : Preserves I bitmapWrite)

include hb

theorem Preserves.freeMapAllocateWith (cnt : ℕ) : Preserves I (freeMapAllocateWith bitmapWrite cnt) := by
  refine .getMem fun m' hm' => ?_
  unfold Bitmap.scanAndFlip
  cases m'.freeMap.scan 0 cnt false with
  | none => exact .bind .noSector fun _ => .ret _
  | some sector =>
    have hset : Preserves I (setMem { m' with freeMap := m'.freeMap.setMultiple sector cnt (!false) }) :=
      fun _ _ => wp_setMem.mpr (DataFree.freeMap _ hm')
    refine .bind hset fun _ => ?_
    split
    · refine .bind hb fun ok => ?_
      split
      · exact .ret _
      · exact .getSetFreeMap (f := fun m' => m'.freeMap.setMultiple sector cnt false)
          (.bind .noSector fun _ => .ret _)
    · exact .ret _

theorem Preserves.freeMapReleaseWith (sector cnt : ℕ) :
    Preserves I (freeMapReleaseWith bitmapWrite sector cnt) := by
  refine .getMem fun m' hm' => ?_
  split
  · exact .stop nofun
  · have hset : Preserves I (setMem { m' with freeMap := m'.freeMap.setMultiple sector cnt false }) :=
      fun _ _ => wp_setMem.mpr (DataFree.freeMap _ hm')
    exact .bind hset fun _ => .bind hb fun _ => .ret _

omit [DataFree I] hb in
/-- `reserve_indir` from the read of the index block on. -/
theorem Preserves.reserveIndex {level : ℕ} (page num chunk max : ℕ)
    (ih : ∀ page num, Preserves I (reserveIndirWith bitmapWrite level page num)) :
    Preserves I (do
      let indirBlock ← Filesys.bufferCacheRead page
      match ← Prog.forUpTo (fun i (b : Sector × ℕ) => do
          let nmax := min b.2 chunk
          let (ok, s) ← reserveIndirWith bitmapWrite level (b.1.word i) nmax
          if ok then return .inl (b.1.setWord i s, b.2 - nmax) else return .inr ()) max 0
          (indirBlock, num) with
      | .inr () => return (false, page)
      | .inl (indirBlock, num) =>
        if num ≠ 0 then
          .stop (.exit (-1))
        else
          Filesys.bufferCacheWrite page indirBlock
          return (true, page)) := by
  refine .bind (.bufferCacheRead page) fun indirBlock => ?_
  refine .bind (.forUpTo (fun j b => ?_) max 0 _) fun r => ?_
  · refine .bind (ih _ _) fun r => ?_
    obtain ⟨ok, s⟩ := r
    cases ok with
    | false => exact .ret _
    | true => exact .ret _
  · cases r with
    | inr u => exact .ret _
    | inl b =>
      dsimp only
      split
      · exact .stop nofun
      · exact .bind (.bufferCacheWrite _ _) fun _ => .ret _

theorem Preserves.reserveIndirWith (level : ℕ) : ∀ page num,
    Preserves I (reserveIndirWith bitmapWrite level page num) := by
  induction level with
  | zero =>
    intro page num
    unfold Pintos.Filesys.reserveIndirWith
    split
    · refine .bind (.freeMapAllocateWith hb 1) fun r => ?_
      cases r with
      | none => exact .ret _
      | some page => exact .bind (.bufferCacheWrite _ _) fun _ => .ret _
    · exact .ret _
  | succ level ih =>
    intro page num
    unfold Pintos.Filesys.reserveIndirWith
    split
    · exact .stop nofun
    dsimp only
    split
    · refine .bind (.freeMapAllocateWith hb 1) fun r => ?_
      exact .bind (.bufferCacheWrite _ _) fun _ =>
        .bind (.ret _) fun page => .reserveIndex page num _ _ ih
    · exact .bind (.ret _) fun page => .reserveIndex page num _ _ ih

theorem Preserves.inodeReserveWith {store : InodeDisk → Fs Unit} (hs : ∀ d, Preserves I (store d))
    (page : InodeDisk) (len : ℤ) : Preserves I (inodeReserveWith bitmapWrite store page len) := by
  unfold Pintos.Filesys.inodeReserveWith
  split
  · exact .ret _
  dsimp only
  refine .bind (.forUpTo (fun j d => ?_) _ 0 _) fun r => ?_
  · unfold reserveDirect
    split
    · refine .bind (.freeMapAllocateWith hb 1) fun r => ?_
      cases r with
      | none => exact .ret _
      | some s => exact .bind (hs _) fun _ => .bind (.bufferCacheWrite _ _) fun _ => .ret _
    · exact .ret _
  cases r with
  | inr page => exact .ret _
  | inl page =>
    dsimp only
    split
    · exact .ret _
    refine .bind (.reserveIndirWith hb 1 _ _) fun r => .bind (hs _) fun _ => ?_
    split
    · exact .ret _
    split
    · exact .ret _
    refine .bind (.reserveIndirWith hb 2 _ _) fun r => .bind (hs _) fun _ => ?_
    split
    · exact .ret _
    split
    · exact .ret _
    · exact .stop nofun

end Reserve

/-! ## Reading and writing -/

section ReadWrite

variable {I : Mem → Prop}

theorem Preserves.sectorNumber (d : InodeDisk) (index : ℤ) : Preserves I (sectorNumber d index) := by
  have hread : ∀ s k, Preserves I (do
      let b ← Filesys.bufferCacheRead s
      return b.word k) := fun s k => .bind (.bufferCacheRead s) fun _ => .ret _
  unfold Pintos.Filesys.sectorNumber
  split
  · split
    · exact .stop nofun
    · exact .ret _
  split
  · refine .bind .malloc fun ok => ?_
    split
    · exact hread _ _
    · exact .stop nofun
  split
  · refine .bind .malloc fun ok => ?_
    split
    · exact .bind (.bufferCacheRead _) fun b => hread _ _
    · exact .stop nofun
  · exact .ret _

theorem Preserves.byteToSector {p : ℕ} (hp : LiveIn I p) (pos : ℤ) : Preserves I (byteToSector p pos) := by
  refine .bind (.deref hp) fun i => ?_
  split
  · exact .sectorNumber _ _
  · exact .ret _

theorem Preserves.inodeReadLoop {p : ℕ} (hp : LiveIn I p) (fuel : ℕ) : ∀ size offset bounce,
    Preserves I (inodeReadLoop p fuel size offset bounce) := by
  induction fuel with
  | zero => exact fun _ _ _ => .ret _
  | succ fuel ih =>
    intro size offset bounce
    unfold Pintos.Filesys.inodeReadLoop
    split
    · exact .ret _
    refine .bind (.byteToSector hp _) fun s => ?_
    dsimp only
    refine .bind (.bind (.deref hp) fun i => .ret _) fun len => ?_
    split
    · exact .ret _
    split
    · exact .bind (.bufferCacheRead _) fun b => .bind (ih _ _ _) fun rest => .ret _
    · have hpart : Preserves I (do
          let b ← Filesys.bufferCacheRead s
          if offset.tmod 512 < 0 then Prog.stop .outOfBounds
          else do
            let rest ← Filesys.inodeReadLoop p fuel
              (size - min size (min (wrap32 (len - offset)) (512 - offset.tmod 512)))
              (offset + min size (min (wrap32 (len - offset)) (512 - offset.tmod 512))) true
            return Bytes.slice b.get (offset.tmod 512).toNat
              (min size (min (wrap32 (len - offset)) (512 - offset.tmod 512))).toNat ++ rest) := by
        refine .bind (.bufferCacheRead _) fun b => ?_
        split
        · exact .stop nofun
        · exact .bind (ih _ _ _) fun rest => .ret _
      have hcheck : ∀ allocated : Bool, Preserves I (if (!allocated) = true then pure [] else _) :=
        fun allocated => by
          cases allocated with
          | false => exact .ret _
          | true => exact hpart
      cases bounce with
      | true => exact hpart
      | false => exact .bind .malloc hcheck

theorem Preserves.inodeReadAt {p : ℕ} (hp : LiveIn I p) (size offset : ℤ) :
    Preserves I (inodeReadAt p size offset) := .inodeReadLoop hp _ _ _ _

theorem Preserves.inodeWriteLoop {p : ℕ} (hp : LiveIn I p) (fuel : ℕ) : ∀ buffer size offset bounce,
    Preserves I (inodeWriteLoop p fuel buffer size offset bounce) := by
  induction fuel with
  | zero => exact fun _ _ _ _ => .ret _
  | succ fuel ih =>
    intro buffer size offset bounce
    unfold Pintos.Filesys.inodeWriteLoop
    split
    · exact .ret _
    refine .bind (.byteToSector hp _) fun s => ?_
    dsimp only
    refine .bind (.bind (.deref hp) fun i => .ret _) fun len => ?_
    generalize min size (min (wrap32 (len - offset)) (512 - offset.tmod 512)) = c
    split
    · exact .ret _
    -- a piece is stored, and the loop goes on behind it
    have hstore : ∀ (d : Sector) bounce, Preserves I (do
        Filesys.bufferCacheWrite s d
        let rest ← Filesys.inodeWriteLoop p fuel (fun i => buffer (i + c.toNat)) (size - c) (offset + c)
          bounce
        return c + rest) := fun d bounce =>
      .bind (.bufferCacheWrite _ _) fun _ => .bind (ih _ _ _ _) fun rest => .ret _
    split
    · exact hstore _ _
    · have hpart : ∀ b : Sector, Preserves I (
          if offset.tmod 512 < 0 then Prog.stop .outOfBounds
          else do
            Filesys.bufferCacheWrite s (b.splice (offset.tmod 512).toNat c.toNat buffer)
            let rest ← Filesys.inodeWriteLoop p fuel (fun i => buffer (i + c.toNat)) (size - c)
              (offset + c) true
            return c + rest) := fun b => by
        split
        · exact .stop nofun
        · exact hstore _ _
      have hfill : Preserves I (
          if offset.tmod 512 > 0 ∨ c < 512 - offset.tmod 512 then do
            let b ← Filesys.bufferCacheRead s
            if offset.tmod 512 < 0 then Prog.stop .outOfBounds
            else do
              Filesys.bufferCacheWrite s (b.splice (offset.tmod 512).toNat c.toNat buffer)
              let rest ← Filesys.inodeWriteLoop p fuel (fun i => buffer (i + c.toNat)) (size - c)
                (offset + c) true
              return c + rest
          else do
            let b ← pure Block.zero
            if offset.tmod 512 < 0 then Prog.stop .outOfBounds
            else do
              Filesys.bufferCacheWrite s (b.splice (offset.tmod 512).toNat c.toNat buffer)
              let rest ← Filesys.inodeWriteLoop p fuel (fun i => buffer (i + c.toNat)) (size - c)
                (offset + c) true
              return c + rest) := by
        split
        · exact .bind (.bufferCacheRead _) hpart
        · exact hpart _
      cases bounce with
      | true => exact hfill
      | false =>
        rw [if_neg (by decide)]
        refine .bind .malloc fun allocated => ?_
        cases allocated with
        | false => exact .ret _
        | true => exact hfill

variable [DataFree I]

omit [DataFree I] in
theorem Preserves.bitmapWriteWith (hf : FreeMapLiveIn I) {writeAt : ℕ → (ℕ → UInt8) → ℤ → ℤ → Fs ℤ}
    (h : ∀ p buffer size offset, LiveIn I p → Preserves I (writeAt p buffer size offset)) :
    Preserves I (bitmapWriteWith writeAt) := by
  refine .getMem fun m' hm' => ?_
  cases hfile : m'.freeMapFile with
  | none => exact .stop nofun
  | some f =>
    exact .bind (h _ _ _ _ (hf m' f hm' hfile)) fun n => .ret _

theorem Preserves.inodeWriteAtDepth (hf : FreeMapLiveIn I) (depth : ℕ) : ∀ p buffer size offset, LiveIn I p →
    Preserves I (inodeWriteAtDepth depth p buffer size offset) := by
  induction depth with
  | zero => exact fun _ _ _ _ _ => .stop nofun
  | succ depth ih =>
    intro p buffer size offset hp
    unfold Pintos.Filesys.inodeWriteAtDepth
    refine .bind (.deref hp) fun i => ?_
    split
    · exact .ret _
    refine .bind (.byteToSector hp _) fun s => ?_
    split
    · refine .bind (.deref hp) fun i => ?_
      refine .bind (.inodeReserveWith (.bitmapWriteWith hf ih) (.storeData hp) _ _) fun r => ?_
      obtain ⟨ok, d⟩ := r
      cases ok with
      | false => exact .ret _
      | true =>
        refine .derefSetData hp fun i => ?_
        exact .bind (.bufferCacheWrite _ _) fun _ => .inodeWriteLoop hp _ _ _ _ _
    · exact .inodeWriteLoop hp _ _ _ _ _

theorem Preserves.inodeWriteAt (hf : FreeMapLiveIn I) {p : ℕ} (hp : LiveIn I p) (buffer : ℕ → UInt8)
    (size offset : ℤ) : Preserves I (inodeWriteAt p buffer size offset) :=
  .inodeWriteAtDepth hf _ _ _ _ _ hp

theorem Preserves.bitmapWrite (hf : FreeMapLiveIn I) : Preserves I bitmapWrite :=
  .bitmapWriteWith hf (.inodeWriteAtDepth hf _)

theorem Preserves.freeMapAllocate (hf : FreeMapLiveIn I) (cnt : ℕ) : Preserves I (freeMapAllocate cnt) :=
  .freeMapAllocateWith (.bitmapWrite hf) cnt

theorem Preserves.freeMapRelease (hf : FreeMapLiveIn I) (sector cnt : ℕ) :
    Preserves I (freeMapRelease sector cnt) := .freeMapReleaseWith (.bitmapWrite hf) sector cnt

end ReadWrite

/-! ## Creating and deleting -/

section Delete

variable {I : Mem → Prop} [DataFree I] (hf : FreeMapLiveIn I)

include hf

theorem Preserves.deleteIndir (level : ℕ) : ∀ ent numSec, Preserves I (deleteIndir level ent numSec) := by
  induction level with
  | zero => exact fun ent numSec => .freeMapRelease hf ent 1
  | succ level ih =>
    intro ent numSec
    unfold Pintos.Filesys.deleteIndir
    split
    · exact .stop nofun
    dsimp only
    refine .bind (.bufferCacheRead _) fun b => ?_
    refine .bind (.forUpTo (fun j n => .bind (ih _ _) fun _ => .ret _) _ _ _) fun r => ?_
    cases r with
    | inr e => exact nomatch e
    | inl n =>
      dsimp only
      split
      · exact .stop nofun
      · exact .freeMapRelease hf ent 1

theorem Preserves.inodeDelete {p : ℕ} (hp : LiveIn I p) : Preserves I (inodeDelete p) := by
  refine .bind (.deref hp) fun i => ?_
  split
  · exact .ret _
  dsimp only
  refine .bind (.forUpTo (fun j _ => .bind (.freeMapRelease hf _ 1) fun _ => .ret _) _ _ _) fun r => ?_
  have hend : ∀ n : ℤ, Preserves I (if n ≠ 0 then Prog.stop (.exit (-1)) else pure true : Fs Bool) :=
    fun n => by
      split
      · exact .stop nofun
      · exact .ret _
  have hdouble : ∀ n : ℤ, Preserves I (
      if min n 16384 > 0 then do
        Filesys.deleteIndir 2 i.data.dIndirBlock (min n 16384).toNat
        let numSec ← pure (n - min n 16384)
        if numSec ≠ 0 then Prog.stop (.exit (-1)) else pure true
      else do
        let numSec ← pure n
        if numSec ≠ 0 then Prog.stop (.exit (-1)) else pure true : Fs Bool) := fun n => by
    split
    · exact .bind (.deleteIndir hf 2 _ _) fun _ => hend _
    · exact hend _
  cases r with
  | inr e => exact nomatch e
  | inl u =>
    dsimp only
    split
    · exact .bind (.deleteIndir hf 1 _ _) fun _ => hdouble _
    · exact hdouble _

theorem Preserves.inodeCreate (sector : ℕ) (length : ℤ) (isDir : Bool) :
    Preserves I (inodeCreate sector length isDir) := by
  unfold Pintos.Filesys.inodeCreate
  split
  · exact .stop nofun
  refine .bind .malloc fun allocated => ?_
  cases allocated with
  | false => exact .ret _
  | true =>
    refine .bind (.inodeReserveWith (.bitmapWrite hf) (fun d => .ret _) _ _) fun r => ?_
    obtain ⟨ok, d⟩ := r
    cases ok with
    | false => exact .ret _
    | true => exact .bind (.bufferCacheWrite _ _) fun _ => .ret _

end Delete

/-! ## Steady programs -/

/-- From every memory steady against `m`, the program keeps it so and touches no freed inode. -/
def Still (m : Mem) (p : Fs α) : Prop :=
  ∀ w : World, Steady m w.mem →
    wp .any p (fun _ w' => Steady m w'.mem) (fun e w' => e ≠ .useAfterFree ∧ Steady m w'.mem) w

/-- The open file of the free map has an inode. -/
def FreeMapLive (m : Mem) : Prop := ∀ f, m.freeMapFile = some f → Live m f.inode

instance (m : Mem) : DataFree (Steady m) := ⟨fun b h => h.setFreeMap b, fun _ hi h => h.setInode hi rfl⟩

theorem Live.steady {m : Mem} {p : ℕ} (hp : Live m p) : LiveIn (Steady m) p := fun _ h => h.live hp

theorem FreeMapLive.steady {m : Mem} (hf : FreeMapLive m) : FreeMapLiveIn (Steady m) := fun _ f hm hfile =>
  (hf f (hm.freeMapFile.symm.trans hfile)).steady

namespace Still

variable {m : Mem} {p : Fs α}

theorem ret (a : α) : Still m (.ret a) := Preserves.ret a

theorem stop {e : Stop} (h : e ≠ .useAfterFree) : Still m (.stop e : Fs α) := Preserves.stop h

theorem bind {p : Fs β} {f : β → Fs α} (hp : Still m p) (hf : ∀ b, Still m (f b)) : Still m (p >>= f) :=
  Preserves.bind hp hf

theorem malloc : Still m malloc := Preserves.malloc

theorem junk : Still m junk := Preserves.junk

theorem getMem {f : Mem → Fs α} (h : ∀ m', Steady m m' → Still m (f m')) : Still m (getMem >>= f) :=
  Preserves.getMem h

/-- Changing the free map. -/
theorem getSetFreeMap {f : Mem → Bitmap} {k : Fs α} (h : Still m k) :
    Still m (do
      let m' ← Filesys.getMem
      setMem { m' with freeMap := f m' }
      k) := Preserves.getSetFreeMap h

theorem bufferCacheRead (s : ℕ) : Still m (bufferCacheRead s) := Preserves.bufferCacheRead s

theorem bufferCacheWrite (s : ℕ) (d : Sector) : Still m (bufferCacheWrite s d) := Preserves.bufferCacheWrite s d

theorem deref {q : ℕ} (hq : Live m q) : Still m (deref q) := Preserves.deref hq.steady

/-- Changing fields of an inode that `Inode.head` leaves out. -/
theorem derefAssign {q : ℕ} (hq : Live m q) {f : Inode → Inode} (hf : ∀ i, (f i).head = i.head)
    {k : Inode → Fs α} (hk : ∀ i, Still m (k i)) : Still m (do
      let i ← Filesys.deref q
      assign q (f i)
      k i) := fun w hw => by
  obtain ⟨i, hi⟩ := hw.live hq
  rw [wp_bind, wp_deref_some hi, wp_bind, wp_assign]
  simp only [hi]
  exact hk i _ (hw.setInode hi (hf i))

theorem forUpTo {γ : Type} {body : ℕ → β → Fs (β ⊕ γ)} (hbody : ∀ j b, Still m (body j b))
    (n i : ℕ) (b : β) : Still m (Prog.forUpTo body n i b) := Preserves.forUpTo hbody n i b

theorem inodeReadAt {q : ℕ} (hq : Live m q) (size offset : ℤ) : Still m (inodeReadAt q size offset) :=
  Preserves.inodeReadAt hq.steady size offset

theorem inodeWriteAt (hf : FreeMapLive m) {q : ℕ} (hq : Live m q) (buffer : ℕ → UInt8) (size offset : ℤ) :
    Still m (inodeWriteAt q buffer size offset) := Preserves.inodeWriteAt hf.steady hq.steady buffer size offset

theorem bitmapWrite (hf : FreeMapLive m) : Still m bitmapWrite := Preserves.bitmapWrite hf.steady

theorem freeMapRelease (hf : FreeMapLive m) (sector cnt : ℕ) : Still m (freeMapRelease sector cnt) :=
  Preserves.freeMapRelease hf.steady sector cnt

theorem inodeDelete (hf : FreeMapLive m) {q : ℕ} (hq : Live m q) : Still m (inodeDelete q) :=
  Preserves.inodeDelete hf.steady hq.steady

theorem inodeCreate (hf : FreeMapLive m) (sector : ℕ) (length : ℤ) (isDir : Bool) :
    Still m (inodeCreate sector length isDir) := Preserves.inodeCreate hf.steady sector length isDir

end Still

/-! ## Denying writes -/

theorem Still.inodeDenyWrite {m : Mem} {p : ℕ} (hp : Live m p) : Still m (inodeDenyWrite p) := by
  refine .derefAssign hp (f := fun i => { i with denyWriteCnt := i.denyWriteCnt + 1 }) (fun _ => rfl)
    fun i => ?_
  split
  · exact .ret _
  · exact .stop nofun

theorem Still.inodeAllowWrite {m : Mem} {p : ℕ} (hp : Live m p) : Still m (inodeAllowWrite p) :=
  fun w hw => by
    obtain ⟨i, hi⟩ := hw.live hp
    rw [Filesys.inodeAllowWrite, wp_bind, wp_deref_some hi]
    split
    · rw [wp_assign]
      simp only [hi]
      exact hw.setInode hi rfl
    · exact (wp_stop _).mpr ⟨nofun, hw⟩

theorem Still.fileAllowWrite {m : Mem} {f : File} (hf : Live m f.inode) : Still m (fileAllowWrite f) := by
  unfold Pintos.Filesys.fileAllowWrite
  split
  · exact .bind (.inodeAllowWrite hf) fun _ => .ret _
  · exact .ret _

/-! ## Directory entries -/

section Entries

variable {m : Mem} {d : Dir}

theorem Still.readEntry (hd : Live m d.inode) (ofs : ℕ) : Still m (readEntry d ofs) :=
  .bind (.inodeReadAt hd _ _) fun _ => .ret _

theorem Still.scanEntries (hd : Live m d.inode) (test : DirEntry → Bool) (fuel : ℕ) : ∀ ofs,
    Still m (scanEntries d test fuel ofs) := by
  induction fuel with
  | zero => exact fun _ => .stop nofun
  | succ fuel ih =>
    intro ofs
    refine .bind (.readEntry hd ofs) fun e => ?_
    cases e with
    | none => exact .ret _
    | some e =>
      dsimp only
      split
      · exact .ret _
      · exact ih _

theorem Still.lookup (hd : Live m d.inode) (name : List UInt8) : Still m (lookup d name) :=
  .scanEntries hd _ _ _

theorem Still.findSlot (hd : Live m d.inode) (fuel : ℕ) : ∀ e ofs, Still m (findSlot d fuel e ofs) := by
  induction fuel with
  | zero => exact fun _ _ => .stop nofun
  | succ fuel ih =>
    intro e ofs
    refine .bind (.inodeReadAt hd _ _) fun l => ?_
    dsimp only
    split
    · split
      · exact ih _ _
      · exact .ret _
    · exact .ret _

theorem Still.writeSlot (hf : FreeMapLive m) (hd : Live m d.inode) (e : DirEntry) (name : List UInt8)
    (sector : ℕ) : Still m (writeSlot d e name sector) :=
  .bind (.findSlot hd _ _ _) fun _ => .bind (.inodeWriteAt hf hd _ _ _) fun _ => .ret _

end Entries

end Pintos.Filesys
