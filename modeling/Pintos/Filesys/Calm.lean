import Pintos.Filesys.Startup

/-!
# While nothing is written

Opening, reading and closing files writes nothing as long as no inode in memory is removed: `Calm D n w`
says that the disk is still `D`, that every inode in memory has the data of its sector, and that none is
removed or denies writes.  The functions that open, read and close keep this (`Calmly`).

A function that only reads keeps the whole world (`ReadOnly`).
-/

namespace Pintos.Filesys

variable {α β : Type}

/-! ## Functions that only read -/

/-- The world is as before, wherever the program ends. -/
def ReadOnly (p : Fs α) : Prop := ∀ w : World, wp .any p (fun _ w' => w' = w) (fun _ w' => w' = w) w

namespace ReadOnly

variable {p : Fs α}

theorem ret (a : α) : ReadOnly (.ret a : Fs α) := fun _ => (wp_ret a).mpr rfl

theorem stop (e : Stop) : ReadOnly (.stop e : Fs α) := fun _ => (wp_stop e).mpr rfl

theorem bind {p : Fs β} {f : β → Fs α} (hp : ReadOnly p) (hf : ∀ b, ReadOnly (f b)) :
    ReadOnly (p >>= f) := fun w =>
  wp_seq (hp w) fun b w' h => by
    subst h
    exact hf b w'

theorem malloc : ReadOnly malloc := fun _ => wp_malloc.mpr fun _ _ => rfl

theorem bufferCacheRead (s : ℕ) : ReadOnly (bufferCacheRead s) := fun w => by
  rw [wp_bufferCacheRead]
  split <;> rfl

theorem deref (q : ℕ) : ReadOnly (deref q) := fun w => by
  rw [wp_deref]
  split <;> rfl

theorem sectorNumber (d : InodeDisk) (index : ℤ) : ReadOnly (sectorNumber d index) := by
  have hread : ∀ s k, ReadOnly (do
      let b ← Filesys.bufferCacheRead s
      return b.word k) := fun s k => .bind (.bufferCacheRead s) fun _ => .ret _
  unfold Pintos.Filesys.sectorNumber
  split
  · split
    · exact .stop _
    · exact .ret _
  split
  · refine .bind .malloc fun ok => ?_
    split
    · exact hread _ _
    · exact .stop _
  split
  · refine .bind .malloc fun ok => ?_
    split
    · exact .bind (.bufferCacheRead _) fun b => hread _ _
    · exact .stop _
  · exact .ret _

theorem byteToSector (q : ℕ) (pos : ℤ) : ReadOnly (byteToSector q pos) := by
  refine .bind (.deref q) fun i => ?_
  split
  · exact .sectorNumber _ _
  · exact .ret _

theorem inodeReadLoop (q fuel : ℕ) : ∀ size offset bounce,
    ReadOnly (inodeReadLoop q fuel size offset bounce) := by
  induction fuel with
  | zero => exact fun _ _ _ => .ret _
  | succ fuel ih =>
    intro size offset bounce
    unfold Pintos.Filesys.inodeReadLoop
    split
    · exact .ret _
    refine .bind (.byteToSector q _) fun s => ?_
    dsimp only
    refine .bind (.bind (.deref q) fun i => .ret _) fun len => ?_
    generalize min size (min (wrap32 (len - offset)) (512 - offset.tmod 512)) = c
    split
    · exact .ret _
    split
    · exact .bind (.bufferCacheRead _) fun b => .bind (ih _ _ _) fun rest => .ret _
    · have hpart : ReadOnly (do
          let b ← Filesys.bufferCacheRead s
          if offset.tmod 512 < 0 then Prog.stop .outOfBounds
          else do
            let rest ← Filesys.inodeReadLoop q fuel (size - c) (offset + c) true
            return Bytes.slice b.get (offset.tmod 512).toNat c.toNat ++ rest) := by
        refine .bind (.bufferCacheRead _) fun b => ?_
        split
        · exact .stop _
        · exact .bind (ih _ _ _) fun rest => .ret _
      cases bounce with
      | true => exact hpart
      | false =>
        rw [if_neg (by decide)]
        refine .bind .malloc fun allocated => ?_
        cases allocated with
        | false => exact .ret _
        | true => exact hpart

theorem inodeReadAt (q : ℕ) (size offset : ℤ) : ReadOnly (inodeReadAt q size offset) :=
  .inodeReadLoop _ _ _ _ _

theorem scanEntries (d : Dir) (test : DirEntry → Bool) (fuel : ℕ) : ∀ ofs,
    ReadOnly (scanEntries d test fuel ofs) := by
  induction fuel with
  | zero => exact fun _ => .stop _
  | succ fuel ih =>
    intro ofs
    refine .bind (.bind (.inodeReadAt _ _ _) fun _ => .ret _) fun e => ?_
    cases e with
    | none => exact .ret _
    | some e =>
      dsimp only
      split
      · exact .ret _
      · exact ih _

theorem isInodeRm (q : ℕ) : ReadOnly (isInodeRm q) := .bind (.deref q) fun _ => .ret _

theorem fileRead (f : File) (size : ℤ) : ReadOnly (fileRead f size) :=
  .bind (.inodeReadAt _ _ _) fun _ => .ret _

theorem fileSeek (f : File) (pos : ℤ) : ReadOnly (fileSeek f pos) := by
  unfold Pintos.Filesys.fileSeek
  split
  · exact .ret _
  · exact .stop _

end ReadOnly

/-! ## Calm worlds -/

/-- The disk is `D` with `n` sectors, and the inodes in memory say what it says. -/
structure Calm (D : ℕ → Sector) (n : ℕ) (w : World) : Prop where
  disk : w.disk = D
  size : w.mem.fsSize = n
  data : ∀ p i, w.mem.heap p = some i → i.data = D i.sector ∧ i.sector < n
  kept : ∀ p i, w.mem.heap p = some i → i.removed = false ∧ i.denyWriteCnt = 0
  fresh : ∀ p, w.mem.next ≤ p → w.mem.heap p = none
  listed : ∀ p ∈ w.mem.openInodes, Live w.mem p
  nodup : w.mem.openInodes.Nodup

/-- The program keeps the world calm, and returns in `R`. -/
def Calmly (D : ℕ → Sector) (n : ℕ) (p : Fs α) (R : α → Prop) : Prop :=
  ∀ w : World, Calm D n w → wp .any p (fun a w' => R a ∧ Calm D n w') (fun _ w' => Calm D n w') w

namespace Calm

variable {D : ℕ → Sector} {n : ℕ} {w : World}

theorem setCwd (h : Calm D n w) (cwd : Option Dir) :
    Calm D n { w with mem := { w.mem with cwd := cwd } } :=
  ⟨h.disk, h.size, h.data, h.kept, h.fresh, h.listed, h.nodup⟩

/-- A change of the count of openers, and perhaps of the list. -/
theorem setInode (h : Calm D n w) {p : ℕ} {i v : Inode} {l : List ℕ} (hi : w.mem.heap p = some i)
    (hi' : v.data = i.data ∧ v.sector = i.sector ∧ v.removed = i.removed ∧
      v.denyWriteCnt = i.denyWriteCnt)
    (hl : ∀ q ∈ l, q ∈ w.mem.openInodes) (hn : l.Nodup) :
    Calm D n { w with mem := { w.mem with
      heap := Function.update w.mem.heap p (some v), openInodes := l } } := by
  obtain ⟨hdata, hsector, hrm, hdeny⟩ := hi'
  have hcases : ∀ q j, Function.update w.mem.heap p (some v) q = some j →
      j = v ∨ w.mem.heap q = some j := fun q j hj => by
    by_cases hq : q = p
    · subst hq
      rw [Function.update_self] at hj
      exact .inl (Option.some.inj hj).symm
    · rw [Function.update_of_ne hq] at hj
      exact .inr hj
  refine ⟨h.disk, h.size, fun q j hj => ?_, fun q j hj => ?_, fun q hq => ?_, fun q hq => ?_, hn⟩
  · rcases hcases q j hj with rfl | hj
    · rw [hdata, hsector]
      exact h.data p i hi
    · exact h.data q j hj
  · rcases hcases q j hj with rfl | hj
    · rw [hrm, hdeny]
      exact h.kept p i hi
    · exact h.kept q j hj
  · have hne : q ≠ p := fun hqp => by
      have hnone := h.fresh q hq
      rw [hqp, hi] at hnone
      cases hnone
    dsimp only
    rw [Function.update_of_ne hne]
    exact h.fresh q hq
  · by_cases hqp : q = p
    · exact ⟨v, by rw [hqp]; exact Function.update_self ..⟩
    · obtain ⟨j, hj⟩ := h.listed q (hl q hq)
      exact ⟨j, by rw [← hj]; exact Function.update_of_ne hqp ..⟩

/-- An inode that is not listed is freed. -/
theorem free (h : Calm D n w) {p : ℕ} (hp : p ∉ w.mem.openInodes) :
    Calm D n { w with mem := { w.mem with heap := Function.update w.mem.heap p none } } := by
  have hcases : ∀ q j, Function.update w.mem.heap p none q = some j → w.mem.heap q = some j :=
    fun q j hj => by
      by_cases hq : q = p
      · subst hq
        rw [Function.update_self] at hj
        cases hj
      · rwa [Function.update_of_ne hq] at hj
  refine ⟨h.disk, h.size, fun q j hj => h.data q j (hcases q j hj), fun q j hj => h.kept q j (hcases q j hj),
    fun q hq => ?_, fun q hq => ?_, h.nodup⟩
  · dsimp only
    by_cases hqp : q = p
    · rw [hqp, Function.update_self]
    · rw [Function.update_of_ne hqp]
      exact h.fresh q hq
  · have hne : q ≠ p := fun hqp => hp (hqp ▸ hq)
    obtain ⟨j, hj⟩ := h.listed q hq
    exact ⟨j, by rw [← hj]; exact Function.update_of_ne hne ..⟩

/-- An inode is read from the disk. -/
theorem alloc (h : Calm D n w) {sector : ℕ} (hs : sector < n) :
    Calm D n { w with mem := { w.mem with
      heap := Function.update w.mem.heap w.mem.next (some ⟨sector, 1, false, 0, w.disk sector⟩)
      next := w.mem.next + 1
      openInodes := w.mem.next :: w.mem.openInodes } } := by
  have hnone := h.fresh w.mem.next le_rfl
  have hcases : ∀ q j, Function.update w.mem.heap w.mem.next
      (some (⟨sector, 1, false, 0, w.disk sector⟩ : Inode)) q = some j →
      j = ⟨sector, 1, false, 0, w.disk sector⟩ ∨ w.mem.heap q = some j := fun q j hj => by
    by_cases hq : q = w.mem.next
    · subst hq
      rw [Function.update_self] at hj
      exact .inl (Option.some.inj hj).symm
    · rw [Function.update_of_ne hq] at hj
      exact .inr hj
  have hne : ∀ q, Live w.mem q → q ≠ w.mem.next := fun q ⟨j, hj⟩ hq => by
    rw [hq, hnone] at hj
    cases hj
  refine ⟨h.disk, h.size, fun q j hj => ?_, fun q j hj => ?_, fun q hq => ?_, fun q hq => ?_, ?_⟩
  · rcases hcases q j hj with rfl | hj
    · exact ⟨congrFun h.disk sector, hs⟩
    · exact h.data q j hj
  · rcases hcases q j hj with rfl | hj
    · exact ⟨rfl, rfl⟩
    · exact h.kept q j hj
  · dsimp only at hq ⊢
    rw [Function.update_of_ne (by omega)]
    exact h.fresh q (by omega)
  · rcases List.mem_cons.mp hq with rfl | hq
    · exact ⟨_, Function.update_self ..⟩
    · obtain ⟨j, hj⟩ := h.listed q hq
      exact ⟨j, by rw [← hj]; exact Function.update_of_ne (hne q ⟨j, hj⟩) ..⟩
  · exact List.nodup_cons.mpr ⟨fun hmem => hne _ (h.listed _ hmem) rfl, h.nodup⟩

end Calm

namespace Calmly

variable {D : ℕ → Sector} {n : ℕ} {p : Fs α} {R R' : α → Prop}

theorem ret {a : α} (h : R a) : Calmly D n (.ret a) R := fun _ hw => (wp_ret a).mpr ⟨h, hw⟩

theorem stop (e : Stop) : Calmly D n (.stop e : Fs α) R := fun _ hw => (wp_stop e).mpr hw

theorem bind {p : Fs β} {f : β → Fs α} {S : β → Prop} (hp : Calmly D n p S)
    (hf : ∀ b, S b → Calmly D n (f b) R) : Calmly D n (p >>= f) R := fun w hw =>
  wp_seq (hp w hw) fun b w' h => hf b h.1 w' h.2

theorem readOnly (h : ReadOnly p) : Calmly D n p fun _ => True := fun w hw =>
  wp_mono (h w) (fun _ _ h => ⟨trivial, h ▸ hw⟩) fun _ _ h => h ▸ hw

theorem malloc : Calmly D n malloc fun _ => True := .readOnly .malloc

theorem junk : Calmly D n junk fun _ => True := fun _ hw => wp_junk.mpr fun _ _ => ⟨trivial, hw⟩

theorem getMem : Calmly D n getMem fun _ => True := fun _ hw => wp_getMem.mpr ⟨trivial, hw⟩

theorem setCwd (cwd : Option Dir) : Calmly D n (do
    let m ← Filesys.getMem
    setMem { m with cwd := cwd }) fun _ => True := fun w hw => by
  rw [wp_bind, wp_getMem, wp_setMem]
  exact ⟨trivial, hw.setCwd cwd⟩

end Calmly

/-! ## Opening and closing -/

namespace Calmly

variable {D : ℕ → Sector} {n : ℕ}

theorem inodeReopen (r : Option ℕ) : Calmly D n (inodeReopen r) fun _ => True := by
  cases r with
  | none => exact .ret trivial
  | some p =>
    intro w hw
    rw [Filesys.inodeReopen, wp_bind, wp_deref]
    cases hi : w.mem.heap p with
    | none => exact hw
    | some i =>
      simp only [wp_bind, wp_assign, hi, wp_pure]
      exact ⟨trivial, hw.setInode hi ⟨rfl, rfl, rfl, rfl⟩ (fun _ hq => hq) hw.nodup⟩

theorem findOpen (sector : ℕ) : ∀ l, ReadOnly (findOpen sector l)
  | [] => .ret _
  | p :: ps => by
    refine .bind (.deref p) fun i => ?_
    split
    · exact .ret _
    · exact findOpen sector ps

theorem inodeOpen (sector : ℕ) : Calmly D n (inodeOpen sector) fun _ => True := by
  refine .bind .getMem fun m _ => .bind (.readOnly (findOpen sector _)) fun r _ => ?_
  cases r with
  | some p => exact inodeReopen (some p)
  | none =>
    refine .bind .malloc fun allocated _ => ?_
    cases allocated with
    | false => exact .ret trivial
    | true =>
      intro w hw
      rw [if_pos rfl, wp_bind, wp_bufferCacheRead]
      split
      · rename_i hs
        rw [wp_bind, wp_getMem, wp_bind, wp_setMem, wp_pure]
        exact ⟨trivial, hw.alloc (hw.size ▸ hs)⟩
      · exact hw

theorem inodeClose (r : Option ℕ) : Calmly D n (inodeClose r) fun _ => True := by
  cases r with
  | none => exact .ret trivial
  | some p =>
    intro w hw
    rw [Filesys.inodeClose, wp_bind, wp_deref]
    cases hi : w.mem.heap p with
    | none => exact hw
    | some i =>
      simp only [wp_bind, wp_assign, hi]
      split
      · have hrm : ¬i.removed = true := by
          rw [(hw.kept p i hi).1]
          decide
        rw [wp_bind, wp_getMem, wp_bind, wp_setMem, if_neg hrm, wp_bind, wp_getMem, wp_setMem]
        have h := hw.setInode (v := { i with openCnt := i.openCnt - 1 }) hi ⟨rfl, rfl, rfl, rfl⟩
          (fun q hq => List.mem_of_mem_erase hq) (hw.nodup.erase p)
        exact ⟨trivial, h.free hw.nodup.not_mem_erase⟩
      · exact (wp_pure _).mpr ⟨trivial, hw.setInode hi ⟨rfl, rfl, rfl, rfl⟩ (fun _ hq => hq) hw.nodup⟩

theorem dirOpen (r : Option ℕ) : Calmly D n (dirOpen r) fun _ => True := by
  refine .bind .malloc fun allocated _ => ?_
  have hclose : Calmly D n (do
      Filesys.inodeClose r
      return (none : Option Dir)) fun _ => True := .bind (inodeClose r) fun _ _ => .ret trivial
  cases r with
  | none => exact hclose
  | some p =>
    cases allocated with
    | false => exact hclose
    | true => exact .ret trivial

/-- A file is opened at its start. -/
theorem fileOpen (r : Option ℕ) : Calmly D n (fileOpen r) fun f => ∀ g, f = some g → g.pos = 0 := by
  refine .bind .malloc fun allocated _ => ?_
  have hclose : Calmly D n (do
      Filesys.inodeClose r
      return (none : Option File)) fun f => ∀ g, f = some g → g.pos = 0 :=
    .bind (inodeClose r) fun _ _ => .ret nofun
  cases r with
  | none => exact hclose
  | some p =>
    cases allocated with
    | false => exact hclose
    | true => exact .ret fun g hg => by rw [← Option.some.inj hg]

theorem dirClose (d : Option Dir) : Calmly D n (dirClose d) fun _ => True := by
  cases d with
  | none => exact .ret trivial
  | some d => exact inodeClose (some d.inode)

/-- No inode denies writes, so there is nothing to allow. -/
theorem fileClose (f : Option File) : Calmly D n (fileClose f) fun _ => True := by
  cases f with
  | none => exact .ret trivial
  | some f =>
    refine .bind (S := fun _ => True) ?_ fun g _ => inodeClose (some g.inode)
    unfold Filesys.fileAllowWrite
    split
    · intro w hw
      rw [wp_bind, Filesys.inodeAllowWrite, wp_bind, wp_deref]
      cases hi : w.mem.heap f.inode with
      | none => exact hw
      | some i =>
        dsimp only
        rw [(hw.kept _ i hi).2, if_neg (by omega)]
        exact (wp_stop _).mpr hw
    · exact .ret trivial

theorem dirOpenRoot : Calmly D n dirOpenRoot fun _ => True :=
  .bind (inodeOpen _) fun r _ => dirOpen r

theorem dirReopen (d : Dir) : Calmly D n (dirReopen d) fun _ => True :=
  .bind (inodeReopen _) fun r _ => dirOpen r

theorem dirLookup (d : Option Dir) (name : List UInt8) : Calmly D n (dirLookup d name) fun _ => True := by
  cases d with
  | none => exact .stop _
  | some d =>
    rw [Filesys.dirLookup]
    split
    · exact .bind .junk fun e _ => .bind (.readOnly (.inodeReadAt _ _ _)) fun l _ => inodeOpen _
    split
    · exact inodeReopen _
    · refine .bind (.readOnly (.scanEntries _ _ _ _)) fun r _ => ?_
      cases r with
      | none => exact .ret trivial
      | some e => exact inodeOpen _

theorem startDir (path : List UInt8) : Calmly D n (startDir path) fun _ => True := by
  refine .bind .getMem fun m _ => ?_
  split
  · exact dirReopen _
  · exact dirOpenRoot

theorem walkDirs (chunks : List (List UInt8)) : ∀ d, Calmly D n (walkDirs d chunks) fun _ => True := by
  induction chunks with
  | nil => exact fun d => .ret trivial
  | cons chunk chunks ih =>
    intro d
    have hclose : Calmly D n (do
        Filesys.dirClose d
        return (none : Option (Option Dir))) fun _ => True :=
      .bind (dirClose d) fun _ _ => .ret trivial
    refine .bind (dirLookup d chunk) fun r _ => ?_
    cases r with
    | none => exact hclose
    | some p =>
      refine .bind (dirOpen (some p)) fun dnext _ => ?_
      cases dnext with
      | none => exact hclose
      | some dnext => exact .bind (dirClose d) fun _ _ => ih (some dnext)

theorem makePath (path : List UInt8) : Calmly D n (makePath path) fun _ => True := by
  refine .bind (startDir path) fun d _ => .bind (walkDirs _ d) fun r _ => ?_
  cases r with
  | none => exact .ret trivial
  | some r =>
    cases r with
    | none => exact .stop _
    | some d =>
      refine .bind (.readOnly (.isInodeRm _)) fun removed _ => ?_
      split
      · exact .bind (dirClose (some d)) fun _ _ => .ret trivial
      · exact .ret trivial

theorem findInode (name : List UInt8) : Calmly D n (findInode name) fun _ => True := by
  have hlast : ∀ (d : Dir) (fToken : List UInt8), Calmly D n (
      if fToken ≠ [] then do
        let inode ← Filesys.dirLookup (some d) fToken
        Filesys.dirClose (some d)
        return inode
      else return some d.inode) fun _ => True := fun d fToken => by
    split
    · exact .bind (dirLookup _ _) fun r _ => .bind (dirClose _) fun _ _ => .ret trivial
    · exact .ret trivial
  unfold Filesys.findInode
  split
  · exact .ret trivial
  refine .bind .junk fun stale _ => .bind (makePath _) fun d _ => ?_
  cases d with
  | none => exact .ret trivial
  | some d => exact hlast d _

theorem filesysOpen (name : List UInt8) :
    Calmly D n (filesysOpen name) fun f => ∀ g, f = some g → g.pos = 0 := by
  rw [filesysOpen_eq]
  refine .bind (findInode name) fun r _ => ?_
  cases r with
  | none => exact .ret nofun
  | some p =>
    refine .bind (.readOnly (.isInodeRm p)) fun removed _ => ?_
    split
    · exact .ret nofun
    · exact fileOpen (some p)

end Calmly

/-! ## After the start -/

/-- Nothing is in memory. -/
theorem Counts.calm {n : ℕ} {file : Option File} {w : World} (h : Counts (atRest n file) 0 w.mem) :
    Calm w.disk n w := by
  have hnone : ∀ p, w.mem.heap p = none := fun p => by
    cases hi : w.mem.heap p with
    | none => rfl
    | some i => exact ((h.used p i hi).elim (Multiset.notMem_zero p) (Set.notMem_empty p)).elim
  exact ⟨rfl, h.fsSize, fun p i hi => by simp [hnone] at hi, fun p i hi => by simp [hnone] at hi,
    fun p _ => hnone p, fun p hp => (Multiset.notMem_zero p (h.listed p hp)).elim, h.nodup⟩

theorem Calmly.freeMapOpen {D : ℕ → Sector} {n : ℕ} : Calmly D n freeMapOpen fun _ => True := by
  refine .bind (.inodeOpen _) fun r _ => .bind (.fileOpen r) fun f _ => ?_
  cases f with
  | none => exact .stop _
  | some f =>
    intro w hw
    have hset : ∀ w : World, Calm D n w → ∀ b file,
        Calm D n { w with mem := { w.mem with freeMap := b, freeMapFile := file } } := fun w hw b file =>
      ⟨hw.disk, hw.size, hw.data, hw.kept, hw.fresh, hw.listed, hw.nodup⟩
    have hread : Calmly D n bitmapRead fun _ => True := by
      refine .bind .getMem fun m _ => ?_
      split
      · exact .stop _
      dsimp only
      split
      · exact .ret trivial
      refine .bind (.readOnly (.inodeReadAt _ _ _)) fun l _ w hw => ?_
      rw [wp_bind, wp_getMem, wp_bind, wp_setMem, wp_pure]
      exact ⟨trivial, hset w hw _ _⟩
    rw [wp_bind, wp_getMem, wp_bind, wp_setMem]
    refine wp_seq (hread _ (hset w hw _ _)) fun ok w' h => ?_
    split
    · exact (wp_pure _).mpr ⟨trivial, h.2⟩
    · exact (wp_stop _).mpr h.2

/-- **The world is calm when `filesys_init` is through.** -/
theorem wp_filesysInit_calm {w : World} (h : Blank w) (format : Bool) :
    wp .any (filesysInit format) (fun _ w' => ∃ D, Calm D w.mem.fsSize w') (fun _ _ => True) w := by
  have hopen : ∀ {file : Option File} {w' : World}, Counts (atRest w.mem.fsSize file) 0 w'.mem →
      wp .any freeMapOpen (fun _ w' => ∃ D, Calm D w.mem.fsSize w') (fun _ _ => True) w' := fun h' =>
    wp_mono (Calmly.freeMapOpen _ h'.calm) (fun _ _ h => ⟨_, h.2⟩) fun _ _ _ => trivial
  rw [filesysInit, wp_bind, wp_getMem, wp_bind, wp_setMem, wp_bind]
  refine wp_mono (Still.freeMapInit _ (.refl _)) (fun _ w₁ hs => ?_) fun _ _ _ => trivial
  have h₁ := h.counts.steady hs
  split
  · refine wp_seq (wp_doFormat_counts h₁) ?_
    rintro _ w₂ ⟨file, h₂⟩
    exact hopen h₂
  · exact hopen h₁

end Pintos.Filesys
