import Pintos.Filesys.Reserve
import Pintos.Library.Pool

/-!
# The sectors a reservation draws and writes

The free sectors are the pool that `reserve_indir` and `inode_reserve` draw from.  `missing` and `missingBlocks` list the
blocks that a tree and a page lack below a length, in the order in which they are allocated, and mark the index
blocks: the result of their allocation is not looked at, so the turn that finds the device full writes sector 0.

`draws_reserveIndirWith` and `draws_inodeReserveWith` say what is written and when the sectors suffice.
-/

namespace Pintos.Filesys

open PtrForest

variable {α β : Type}

/-- The rule that sectors are written in `S` only. -/
def WritesTo (S : ℕ → Prop) : Op → World → Prop
  | .cacheWrite s _, _ => S s
  | _, _ => True

/-- Every sector that a run of `p` from `w` writes through the cache is in `S`. -/
def WritesIn (S : ℕ → Prop) (p : Fs α) (w : World) : Prop := Prog.Always (effect .memory) (WritesTo S) p w

theorem effect_total : (effect .memory).Total := by
  intro o w
  cases o with
  | cacheRead s => exact ⟨_, w, rfl, rfl⟩
  | cacheWrite s d => exact ⟨(), _, rfl⟩
  | malloc => exact ⟨true, w, rfl, rfl⟩
  | junk => exact ⟨fun _ => 0, w, trivial, rfl⟩
  | noSector => exact ⟨(), w, trivial, rfl⟩
  | getMem => exact ⟨_, w, rfl, rfl⟩
  | setMem m => exact ⟨(), _, rfl⟩

section Rules

variable {S : ℕ → Prop} {w : World}

theorem prog_wp_iff {P : Policy} {p : Fs α} {Q : α → World → Prop} {E : Stop → World → Prop} :
    Prog.wp (effect P) p Q E w ↔ wp P p Q E w := Prog.wp_iff_ends.trans wp_iff_runs.symm

theorem WritesIn.pure (a : α) : WritesIn S (pure a) w := trivial

theorem WritesIn.stop (r : Stop) : WritesIn S (.stop r : Fs α) w := trivial

theorem WritesIn.seq {p : Fs β} {f : β → Fs α} {I : β → World → Prop} (hp : WritesIn S p w)
    (hI : wp .memory p I (fun _ _ => True) w) (hf : ∀ b w', I b w' → WritesIn S (f b) w') :
    WritesIn S (p >>= f) w := Prog.Always.seq hp (prog_wp_iff.mpr hI) hf

theorem WritesIn.then {p : Fs β} {f : β → Fs α} (hp : WritesIn S p w) (hf : ∀ b w', WritesIn S (f b) w') :
    WritesIn S (p >>= f) w := Prog.Always.then hp hf

theorem WritesIn.getMem : WritesIn S getMem w := (Prog.always_perform _ _).mpr trivial

theorem WritesIn.setMem (m : Mem) : WritesIn S (setMem m) w := (Prog.always_perform _ _).mpr trivial

theorem WritesIn.malloc : WritesIn S malloc w := (Prog.always_perform _ _).mpr trivial

theorem WritesIn.noSector : WritesIn S noSector w := (Prog.always_perform _ _).mpr trivial

theorem WritesIn.bufferCacheRead (s : ℕ) : WritesIn S (bufferCacheRead s) w := by
  apply WritesIn.getMem.then
  intro m w'
  split
  · exact (Prog.always_perform _ _).mpr trivial
  · trivial

theorem writesIn_bufferCacheWrite {s : ℕ} (d : Sector) (hs : s < w.mem.fsSize) :
    WritesIn S (bufferCacheWrite s d) w ↔ S s := by
  constructor
  · intro h
    have hnext : Prog.Always (effect .memory) (WritesTo S)
        (if s < w.mem.fsSize then Prog.perform (Op.cacheWrite s d) else .stop .panic : Fs Unit) w :=
      ((Prog.always_bind _ _ _).mp h).2 w.mem w ⟨rfl, rfl⟩
    rw [if_pos hs] at hnext
    exact (Prog.always_perform _ _).mp hnext
  · intro h
    apply WritesIn.getMem.then
    intro m w'
    split
    · exact (Prog.always_perform _ _).mpr h
    · trivial

theorem WritesIn.deref (p : ℕ) : WritesIn S (deref p) w := by
  apply WritesIn.getMem.then
  intro m w'
  split <;> trivial

theorem WritesIn.assign (p : ℕ) (i : Inode) : WritesIn S (assign p i) w := by
  apply WritesIn.getMem.then
  intro m w'
  split
  · exact .setMem _
  · trivial

theorem WritesIn.inodeLength (p : ℕ) : WritesIn S (inodeLength p) w := (WritesIn.deref p).then fun _ _ => trivial

theorem WritesIn.sectorNumber (d : InodeDisk) (index : ℤ) : WritesIn S (sectorNumber d index) w := by
  unfold Pintos.Filesys.sectorNumber
  split
  · split <;> trivial
  · split
    · apply WritesIn.malloc.then
      intro b w'
      split
      · exact (WritesIn.bufferCacheRead _).then fun _ _ => trivial
      · trivial
    · split
      · apply WritesIn.malloc.then
        intro b w'
        split
        · apply (WritesIn.bufferCacheRead _).then
          intro _ _
          exact (WritesIn.bufferCacheRead _).then fun _ _ => trivial
        · trivial
      · trivial

theorem WritesIn.byteToSector (p : ℕ) (pos : ℤ) : WritesIn S (byteToSector p pos) w := by
  apply (WritesIn.deref p).then
  intro i w'
  split
  · exact .sectorNumber _ _
  · trivial

/-! ### Writing data -/

/-- The loop of `inode_write_at` below the end of the file writes data sectors of the inode. -/
theorem writesIn_inodeWriteLoop {D A : ℕ → Prop} {p : ℕ} {i : Inode} {len : ℕ} (hlen : i.data.length = len)
    (hmax : len ≤ 8517120) :
    ∀ (fuel size ofs : ℕ) (buf : ℕ → UInt8) (bounce : Bool) (w : World),
      w.mem.heap p = some i → Mapped w.mem.fsSize w.disk i.data → Ok pageShape D A w.disk i.data.word →
      size ≤ fuel → ofs + size ≤ len → (∀ k, k < 16635 → dataSec w.disk i.data k ≠ 0 → S (dataSec w.disk i.data k)) →
      WritesIn S (inodeWriteLoop p fuel buf size ofs bounce) w := by
  intro fuel
  induction fuel with
  | zero =>
    intro size ofs buf bounce w _ _ _ _ _ _
    trivial
  | succ fuel ih =>
    intro size ofs buf bounce w hi hm ho hsize hend hS
    rw [inodeWriteLoop]
    by_cases hs0 : size = 0
    · rw [if_pos (by omega)]
      trivial
    rw [if_neg (by omega)]
    apply WritesIn.seq (I := fun s w' => s = dataSec w.disk i.data (ofs / 512) ∧ w = w') (.byteToSector _ _)
    · exact wp_byteToSector Policy.memory_noFail hi hm (fun _ => ⟨rfl, rfl⟩) fun hge => by omega
    rintro s w' ⟨rfl, rfl⟩
    apply WritesIn.seq (I := fun l w' => l = i.data.length ∧ w = w') (.inodeLength p)
    · simp only [inodeLength, wp_bind, wp_deref_some hi, wp_pure]
      exact ⟨trivial, trivial⟩
    rintro l w' ⟨rfl, rfl⟩
    dsimp only
    rw [chunk_eq hlen (by omega) (by omega) (by omega)]
    set c := min size (min (len - ofs) (512 - ofs % 512)) with hc
    have hpres := hm (ofs / 512) (by rw [hlen]; push_cast; omega)
    have hmod : (ofs : ℤ).tmod 512 = ((ofs % 512 : ℕ) : ℤ) := by
      rw [Int.tmod_eq_emod_of_nonneg (by omega)]
      rfl
    have hsub : (size : ℤ) - (c : ℤ) = ((size - c : ℕ) : ℤ) := by omega
    have hadd : (ofs : ℤ) + (c : ℤ) = ((ofs + c : ℕ) : ℤ) := by omega
    have hmine := hS _ hpres.lt hpres.ne_zero
    rw [if_neg (by omega), hmod, hsub, hadd]
    -- the block is written, and the rest of the loop finds the blocks where they were
    have hgo : ∀ (d : Sector) bounce', WritesIn S (do
        bufferCacheWrite (dataSec w.disk i.data (ofs / 512)) d
        let rest ← inodeWriteLoop p fuel (fun j => buf (j + (c : ℤ).toNat)) ((size - c : ℕ) : ℤ) ((ofs + c : ℕ) : ℤ)
          bounce'
        return (c : ℤ) + rest) w := by
      intro d bounce'
      have hother : ∀ s, (∀ k, k < 16635 → dataSec w.disk i.data k ≠ s) →
          Function.update w.disk (dataSec w.disk i.data (ofs / 512)) d s = w.disk s := fun s hs =>
        Function.update_of_ne (hs _ hpres.lt).symm _ _
      apply WritesIn.seq (I := fun _ w' =>
        { w with disk := Function.update w.disk (dataSec w.disk i.data (ofs / 512)) d } = w')
        ((writesIn_bufferCacheWrite d hpres.dataSec_lt).mpr hmine)
      · rw [wp_bufferCacheWrite, if_pos hpres.dataSec_lt]
      rintro _ _ rfl
      apply WritesIn.then
      · apply ih (size - c) (ofs + c) _ bounce'
          ⟨w.mem, Function.update w.disk (dataSec w.disk i.data (ofs / 512)) d⟩ hi (hm.of_data_change ho hother)
          (ok_of_data_change ho hother) (by omega) (by omega)
        intro k hk
        rw [dataSec_of_data_change ho hother hk]
        exact hS k hk
      · intro _ _
        trivial
    have hpart : WritesIn S (do
        let b ← if ((ofs % 512 : ℕ) : ℤ) > 0 ∨ (c : ℤ) < 512 - ((ofs % 512 : ℕ) : ℤ) then
            bufferCacheRead (dataSec w.disk i.data (ofs / 512))
          else pure Block.zero
        if ((ofs % 512 : ℕ) : ℤ) < 0 then
          .stop .outOfBounds
        else
          bufferCacheWrite (dataSec w.disk i.data (ofs / 512))
            (b.splice ((ofs % 512 : ℕ) : ℤ).toNat (c : ℤ).toNat buf)
          let rest ← inodeWriteLoop p fuel (fun j => buf (j + (c : ℤ).toNat)) ((size - c : ℕ) : ℤ)
            ((ofs + c : ℕ) : ℤ) true
          return (c : ℤ) + rest) w := by
      have hblock : ∀ b : Sector, WritesIn S (do
          if ((ofs % 512 : ℕ) : ℤ) < 0 then
            .stop .outOfBounds
          else
            bufferCacheWrite (dataSec w.disk i.data (ofs / 512))
              (b.splice ((ofs % 512 : ℕ) : ℤ).toNat (c : ℤ).toNat buf)
            let rest ← inodeWriteLoop p fuel (fun j => buf (j + (c : ℤ).toNat)) ((size - c : ℕ) : ℤ)
              ((ofs + c : ℕ) : ℤ) true
            return (c : ℤ) + rest) w := by
        intro b
        rw [if_neg (by omega)]
        exact hgo _ true
      dsimp only
      split
      · apply WritesIn.seq (I := fun _ w' => w = w') (.bufferCacheRead _)
        · rw [wp_bufferCacheRead, if_pos hpres.dataSec_lt]
        · rintro b _ rfl
          exact hblock b
      · exact hblock _
    by_cases hfull : ((ofs % 512 : ℕ) : ℤ) = 0 ∧ (c : ℤ) = 512
    · rw [if_pos hfull]
      exact hgo _ bounce
    · rw [if_neg hfull]
      split
      · exact hpart
      · apply WritesIn.seq (I := fun _ w' => w = w') .malloc
        · rw [wp_malloc]
          intro _ _
          rfl
        · rintro allocated _ rfl
          split
          · trivial
          · exact hpart

end Rules

/-- A program that writes data sectors of the free map file. -/
def MapWrites (S : ℕ → Prop) (bitmapWrite : Fs Bool) : Prop :=
  ∀ w, FmOk w → w.mem.freeMapFile.isSome = true → (∀ s, FmData w s → S s) → WritesIn S bitmapWrite w

theorem mapWrites_bitmapWriteWith (S : ℕ → Prop) (depth : ℕ) :
    MapWrites S (bitmapWriteWith (inodeWriteAtDepth (depth + 1))) := by
  intro w h hsome hS
  obtain ⟨f, hf⟩ := Option.isSome_iff_exists.mp hsome
  obtain ⟨i, hi⟩ := h.file f hf
  have hpos := h.size_pos
  have hmax := hi.max
  have hsize := hi.size
  obtain ⟨len, hlen⟩ : ∃ len : ℕ, i.data.length = len := ⟨i.data.length.toNat, by omega⟩
  have hdata : ∀ k, k < 16635 → dataSec w.disk i.data k ≠ 0 → S (dataSec w.disk i.data k) := fun k hk hne =>
    hS _ ⟨f, i, k, hf, hi.heap, hk, rfl, hne⟩
  apply WritesIn.seq (I := fun m w' => m = w.mem ∧ w = w') .getMem
  · rw [wp_getMem]
    exact ⟨rfl, rfl⟩
  rintro _ _ ⟨rfl, rfl⟩
  rw [hf]
  have hwrite : WritesIn S (inodeWriteAtDepth (depth + 1) f.inode w.mem.freeMap.byte w.mem.freeMap.byteCnt 0) w := by
    apply WritesIn.seq (I := fun j w' => j = i ∧ w = w') (.deref _)
    · rw [wp_deref_some hi.heap]
      exact ⟨rfl, rfl⟩
    rintro _ _ ⟨rfl, rfl⟩
    rw [if_neg (by simp [hi.allow])]
    have hlast : wrap32 (wrap32 (0 + (w.mem.freeMap.byteCnt : ℤ)) - 1) = ((w.mem.freeMap.byteCnt - 1 : ℕ) : ℤ) := by
      have h₁ : wrap32 (0 + (w.mem.freeMap.byteCnt : ℤ)) = w.mem.freeMap.byteCnt := by
        rw [wrap32_of_mem (by omega) (by omega)]
        omega
      rw [h₁, wrap32_of_mem (by omega) (by omega)]
      omega
    have hpres := hi.mapped ((w.mem.freeMap.byteCnt - 1) / 512) (by omega)
    apply WritesIn.seq (I := fun s w' => s ≠ 2 ^ 32 - 1 ∧ w = w') (.byteToSector _ _)
    · rw [hlast]
      refine wp_byteToSector Policy.memory_noFail hi.heap hi.mapped (fun _ => ⟨?_, rfl⟩) fun hge => by omega
      have := hpres.dataSec_lt
      have := h.fsSize
      omega
    rintro s _ ⟨hs, rfl⟩
    rw [if_neg hs]
    exact writesIn_inodeWriteLoop hlen (by omega) _ _ 0 _ false w hi.heap hi.mapped hi.forest (by simp) (by omega) hdata
  exact hwrite.then fun _ _ => trivial

theorem mapWrites_bitmapWrite (S : ℕ → Prop) : MapWrites S bitmapWrite := mapWrites_bitmapWriteWith S 2

/-! ### The free sectors -/

/-- How many sectors are free. -/
def freeCount (w : World) : ℕ := ((Finset.range w.mem.fsSize).filter fun s => w.mem.freeMap.bits s = false).card

theorem freeCount_eq_zero {w : World} : freeCount w = 0 ↔ Full w := by
  rw [freeCount, Finset.card_eq_zero, Finset.filter_eq_empty_iff]
  constructor
  · intro h s hs
    exact ⟨hs, by simpa using h (Finset.mem_range.mpr hs)⟩
  · intro h s hs
    rw [(h s (Finset.mem_range.mp hs)).2]
    decide

theorem freeCount_pos {w : World} {s : ℕ} (hs : s < w.mem.fsSize) (hfree : ¬Allocated w s) : 0 < freeCount w := by
  rw [Nat.pos_iff_ne_zero]
  intro h0
  exact hfree (freeCount_eq_zero.mp h0 s hs)

/-- An allocation takes one. -/
theorem freeCount_allocate {w w' : World} {s : ℕ} (hs : s < w.mem.fsSize) (hfree : ¬Allocated w s)
    (hsize : w'.mem.fsSize = w.mem.fsSize) (halloc : ∀ t, Allocated w' t ↔ Allocated w t ∨ t = s) :
    freeCount w' + 1 = freeCount w := by
  have hmem : s ∈ (Finset.range w.mem.fsSize).filter fun t => w.mem.freeMap.bits t = false := by
    rw [Finset.mem_filter, Finset.mem_range]
    exact ⟨hs, by simpa using fun hbit => hfree ⟨hs, hbit⟩⟩
  have heq : ((Finset.range w'.mem.fsSize).filter fun t => w'.mem.freeMap.bits t = false) =
      ((Finset.range w.mem.fsSize).filter fun t => w.mem.freeMap.bits t = false).erase s := by
    ext t
    rw [Finset.mem_erase, Finset.mem_filter, Finset.mem_filter, Finset.mem_range, Finset.mem_range, hsize]
    have ht := halloc t
    unfold Allocated at ht
    rw [hsize] at ht
    rw [← Bool.not_eq_true, ← Bool.not_eq_true]
    tauto
  rw [freeCount, heq, Finset.card_erase_of_mem hmem]
  exact Nat.sub_add_cancel (Finset.card_pos.mpr ⟨s, hmem⟩)

/-- The free sectors are those that are not allocated. -/
theorem freeCount_congr {w w' : World} (hsize : w'.mem.fsSize = w.mem.fsSize)
    (halloc : ∀ t, Allocated w' t ↔ Allocated w t) : freeCount w' = freeCount w := by
  unfold freeCount
  rw [hsize]
  congr 1
  apply Finset.filter_congr
  intro t ht
  have ht' := Finset.mem_range.mp ht
  have h := halloc t
  unfold Allocated at h
  rw [hsize] at h
  rw [← Bool.not_eq_true, ← Bool.not_eq_true]
  tauto

/-! ### Drawing sectors -/

/-- From `w`, `p` draws the sectors `m` from the free ones, and it writes in `S`. -/
abbrev Draws (S : ℕ → Prop) (p : Fs α) (w : World) (m : List Bool) (Q : α → World → Prop)
    (F : Bool → α → World → Prop) (E : Stop → World → Prop) : Prop :=
  Prog.Draws (effect .memory) (WritesTo S) freeCount p w m Q F E

/-- Sector 0 after a turn that has found no sector: it is filled with zeros if that was for an index block. -/
def Sector0 (w : World) (index : Bool) (w' : World) : Prop := w'.disk 0 = if index then Block.zero else w.disk 0

theorem Sector0.after {w w₁ w' : World} {x : Bool} (h : Sector0 w₁ x w') (heq : w₁.disk 0 = w.disk 0) :
    Sector0 w x w' := by
  unfold Sector0
  rw [← heq]
  exact h

theorem Sector0.zero {w w' : World} {x : Bool} (h : Sector0 w x w') (h0 : w.disk 0 = Block.zero) :
    w'.disk 0 = Block.zero := by
  unfold Sector0 at h
  rw [h, h0]
  split <;> rfl

/-- The sectors that a program may write in any case: those that are free, and the data of the free map file, but not
the sector of its inode. -/
structure Permits (S : ℕ → Prop) (w : World) : Prop where
  free : ∀ s, s < w.mem.fsSize → ¬Allocated w s → S s
  data : ∀ s, FmData w s → S s
  zero : ¬S 0

section Rules

variable {S : ℕ → Prop} {w w' : World} {bitmapWrite : Fs Bool}

theorem FmKeep.data (h : FmKeep w w') {s : ℕ} (hs : FmData w' s) : FmData w s := by
  obtain ⟨f, i, k, hf, hi, hk, heq, h0⟩ := hs
  rw [h.freeMapFile] at hf
  rw [h.file f hf] at hi
  exact ⟨f, i, k, hf, hi, hk, (h.sec f i _ _ hf hi (leaf_node hk).1).symm.trans heq, h0⟩

theorem Permits.keep (hS : Permits S w) (h : FmKeep w w') : Permits S w' where
  free s hs hfree := hS.free s (by rwa [h.fsSize] at hs) fun ha => hfree (h.mono s ha)
  data s hs := hS.data s (h.data hs)
  zero := hS.zero

/-- `s` has been allocated, and the free map is saved. -/
structure Taken (w : World) (s : ℕ) (w' : World) : Prop where
  lt : s < w.mem.fsSize
  free : ¬Allocated w s
  step : FmStep w w'
  bits : w'.mem.freeMap.bits = Function.update w.mem.freeMap.bits s true
  sync : Synced w'

theorem Taken.fresh (h : Taken w s w') (hw : FmOk w) :
    Fresh w s { w' with disk := Function.update w'.disk s Block.zero } :=
  h.step.fresh hw h.lt h.free h.bits h.sync

theorem Taken.freeCount (h : Taken w s w') (hw : FmOk w) : freeCount w' + 1 = freeCount w :=
  freeCount_allocate h.lt h.free h.step.fsSize (h.fresh hw).alloc

/-- `free_map_allocate` draws one sector; without one it fails and changes nothing. -/
theorem draws_freeMapAllocateWith (hbw : WritesMap .memory bitmapWrite) (hmw : MapWrites S bitmapWrite) (hw : FmOk w)
    (hS : Permits S w) :
    Draws S (freeMapAllocateWith bitmapWrite 1) w [false] (fun r w' => ∃ s, r = some s ∧ Taken w s w')
      (fun x r w' => x = false ∧ r = none ∧ w = w' ∧ Full w) fun _ _ => False := by
  apply Prog.Draws.one
  · apply WritesIn.seq (I := fun m w' => m = w.mem ∧ w = w') .getMem
    · rw [wp_getMem]
      exact ⟨rfl, rfl⟩
    rintro _ _ ⟨rfl, rfl⟩
    rw [Bitmap.scanAndFlip]
    cases hscan : w.mem.freeMap.scan 0 1 false with
    | none => exact WritesIn.noSector.then fun _ _ => trivial
    | some s =>
      obtain ⟨hlt, hbit⟩ := Bitmap.scan_some hscan
      rw [hw.bitCnt] at hlt
      have hok : FmOk (w.setBits (Function.update w.mem.freeMap.bits s true)) := by
        have hkeep : ∀ t, w.mem.freeMap.bits t = true → Function.update w.mem.freeMap.bits s true t = true := by
          intro t ht
          rw [Function.update_apply]
          split <;> trivial
        apply hw.setBits (hkeep 0 hw.zero.2)
        intro f i k π hf hi hn hne
        obtain ⟨j, hj⟩ := hw.file f hf
        obtain rfl : i = j := Option.some.inj (hi.symm.trans hj.heap)
        exact hkeep _ (hj.forest.alloc k π hn hne).1.2
      apply WritesIn.seq (I := fun _ w' => w.setBits (Function.update w.mem.freeMap.bits s true) = w') (.setMem _)
      · rw [wp_setMem, Bool.not_false, Bitmap.setMultiple_one]
        rfl
      rintro _ _ rfl
      split
      · next hfile =>
        apply (hmw _ hok hfile fun t ht => hS.data t ht).then
        intro b w'
        split
        · trivial
        · apply WritesIn.getMem.then
          intro _ _
          apply (WritesIn.setMem _).then
          intro _ _
          exact WritesIn.noSector.then fun _ _ => trivial
      · trivial
  · intro hpos
    rw [prog_wp_iff]
    apply wp_freeMapAllocateWith hbw hw
    · intro hfull _
      have := freeCount_eq_zero.mpr hfull
      omega
    · intro s w' hlt hfree hst hbits hsync
      have ht : Taken w s w' := ⟨hlt, hfree, hst, hbits, hsync⟩
      exact ⟨ht.freeCount hw, s, rfl, ht⟩
  · intro hzero
    rw [prog_wp_iff]
    apply wp_freeMapAllocateWith hbw hw
    · intro hfull _
      exact ⟨rfl, rfl, rfl, hfull⟩
    · intro s w' hlt hfree _ _ _
      have := freeCount_pos hlt hfree
      omega

end Rules

/-! ### The missing blocks of a tree -/

/-- The blocks that `reserve_indir` allocates for the first `num` leaves under a pointer, in this order; `true` is an index
block. -/
def missing (disk : ℕ → Sector) : ℕ → ℕ → ℕ → List Bool
  | 0, _, page => if page = 0 then [false] else []
  | level + 1, num, page =>
    (if page = 0 then [true] else []) ++ (List.range' 0 ((num + 128 ^ level - 1) / 128 ^ level)).flatMap fun i =>
      missing disk level (min (num - i * 128 ^ level) (128 ^ level)) (sec disk page [i])

/-- How many pointers of an index block lead to the first `num` leaves. -/
theorem pointers_le {level num : ℕ} (hnum : num ≤ 128 ^ (level + 1)) :
    (num + 128 ^ level - 1) / 128 ^ level ≤ 128 := by
  have hpos : 0 < 128 ^ level := by positivity
  rw [Nat.div_le_iff_le_mul_add_pred hpos, Nat.mul_comm, ← pow_succ']
  omega

/-- The missing blocks depend on the pointers of the tree only. -/
theorem missing_congr {disk disk' : ℕ → Sector} (level : ℕ) : ∀ {num page page' : ℕ}, num ≤ 128 ^ level →
    (∀ π, Node (.tree level 128) 0 π → sec disk' page' π = sec disk page π) →
    missing disk' level num page' = missing disk level num page := by
  induction level with
  | zero =>
    intro num page page' _ h
    have hroot : page' = page := h [] ⟨Nat.one_pos, Nat.le_refl _, by simp⟩
    rw [missing, missing, hroot]
  | succ level ih =>
    intro num page page' hnum h
    have hroot : page' = page := h [] ⟨Nat.one_pos, Nat.zero_le _, by simp⟩
    rw [missing, missing, ← hroot]
    congr 1
    apply List.flatMap_congr
    intro i hi
    have hi' := (List.mem_range'_1.mp hi).2
    have hmax := pointers_le hnum
    apply ih (Nat.min_le_right _ _)
    intro π hπ
    rw [← sec_append, ← sec_append]
    have hnode : Node (.tree (level + 1) 128) 0 (i :: π) := by
      refine ⟨Nat.one_pos, Nat.succ_le_succ hπ.length, ?_⟩
      intro j hj
      rcases List.mem_cons.mp hj with rfl | hj
      · show j < 128
        omega
      · exact hπ.fan j hj
    rw [hroot]
    exact hroot ▸ h (i :: π) hnode

/-! ### Drawing for a tree -/

section Tree

variable {S : ℕ → Prop} {w : World} {bitmapWrite : Fs Bool}

/-- The index blocks of a tree may be written. -/
def OwnIndex (S : ℕ → Prop) (level : ℕ) (disk : ℕ → Sector) (page : ℕ) : Prop :=
  ∀ π, Node (.tree level 128) 0 π → π.length < level → sec disk page π ≠ 0 → S (sec disk page π)

/-- What `reserve_indir` draws, at one level. -/
def DrawsTree (S : ℕ → Prop) (bitmapWrite : Fs Bool) (level : ℕ) : Prop :=
  ∀ (page num : ℕ) (w : World), FmOk w → Ok (.tree level 128) (FmNode w) (Allocated w) w.disk (fun _ => page) →
    0 < num → num ≤ 128 ^ level → Permits S w → OwnIndex S level w.disk page →
    Draws S (reserveIndirWith bitmapWrite level page num) w (missing w.disk level num page) (fun r _ => r.1 = true)
      (fun x r w' => r.1 = false ∧ Sector0 w x w') fun _ _ => False

/-- The pointers of the index block from `j` on lead where they did. -/
structure LoopDraws (level num : ℕ) (w₁ : World) (b₀ : Sector) (j : ℕ) (b : Sector × ℕ) (w : World) : Prop
    extends LoopInv level num w₁ b₀ j b w where
  rest_old : ∀ i π, j ≤ i → Node (.block level 128) i π → sec w.disk (b.1.word i) π = sec w₁.disk (b₀.word i) π

theorem LoopDraws.step {level num : ℕ} {w₁ w w' : World} {b₀ : Sector} {j s : ℕ} {b : Sector × ℕ} (hw₁ : FmOk w₁)
    (hok₁ : Ok (.block level 128) (FmNode w₁) (Allocated w₁) w₁.disk b₀.word)
    (h : LoopDraws level num w₁ b₀ j b w) (hj : j < 128)
    (hr : Reserved .memory level (min b.2 (128 ^ level)) w (b.1.word j) true w' s) :
    LoopDraws level num w₁ b₀ (j + 1) (b.1.setWord j s, b.2 - min b.2 (128 ^ level)) w' := by
  refine ⟨(h.toLoopInv.step hw₁ hok₁ hj hr).1 rfl, ?_⟩
  intro i π hi hn
  have hok := h.grow.ok hok₁ fun s => hw₁.node_allocated
  rw [← h.keep.node_eq] at hok
  have hlt : s < 2 ^ 32 := (hr.page_lt h.keep.ok (hok.root (by exact hj))).trans h.keep.ok.fsSize
  rw [← h.rest_old i π (by omega) hn, word_setWord_update hj hlt, Function.update_of_ne (by omega)]
  exact hok.sec_other (by exact hj) hr.grow hn (by omega)

/-- The loop over the pointers of an index block draws what their trees miss. -/
theorem draws_reserveLoop (hbw : WritesMap .memory bitmapWrite) {level num : ℕ} (hlevel : level ≤ 2)
    (ih : DrawsTree S bitmapWrite level) {b₀ : Sector} (hw : FmOk w)
    (hok : Ok (.block level 128) (FmNode w) (Allocated w) w.disk b₀.word) (hnum : num ≤ 128 ^ (level + 1))
    (hS : Permits S w) (hown : ∀ i, i < 128 → OwnIndex S level w.disk (b₀.word i)) :
    Draws S (Prog.forUpTo (fun i (b : Sector × ℕ) => do
        let nmax := min b.2 (128 ^ level)
        let (ok, s) ← reserveIndirWith bitmapWrite level (b.1.word i) nmax
        if ok then return .inl (b.1.setWord i s, b.2 - nmax) else return .inr ())
        ((num + 128 ^ level - 1) / 128 ^ level) 0 (b₀, num)) w
      ((List.range' 0 ((num + 128 ^ level - 1) / 128 ^ level)).flatMap fun i =>
        missing w.disk level (min (num - i * 128 ^ level) (128 ^ level)) (b₀.word i))
      (fun r w' => ∃ b, r = .inl b ∧ LoopDraws level num w b₀ ((num + 128 ^ level - 1) / 128 ^ level) b w')
      (fun x r w' => ∃ c, r = .inr c ∧ Sector0 w x w') fun _ _ => False := by
  have hpos : 0 < 128 ^ level := by positivity
  have hmax := pointers_le hnum
  apply Prog.Draws.forUpTo effect_total _ (LoopDraws level num w b₀) (fun x _ w' => Sector0 w x w') _ _ _ _ _
    (Nat.zero_add _)
  · refine ⟨⟨.refl hw, rfl, .same hok fun _ _ _ _ => rfl, by simp, by simp, fun _ _ _ hne => .inl hne, rfl, .refl⟩, ?_⟩
    intro _ _ _ _
    rfl
  intro j b t hj hI
  have hokt := hI.grow.ok hok fun s => hw.node_allocated
  rw [← hI.keep.node_eq] at hokt
  have hnode : ∀ {π}, Node (.tree level 128) 0 π → Node (.block level 128) j π := fun hπ =>
    ⟨by show j < 128; omega, hπ.length, hπ.fan⟩
  have hrest : 0 < b.2 := by
    have hlt := (Nat.lt_div_iff_mul_lt hpos).mp hj
    have := hI.rest
    omega
  -- the tree under this pointer is still the one at the start of the loop
  have hmissing : missing t.disk level (min b.2 (128 ^ level)) (b.1.word j) =
      missing w.disk level (min (num - j * 128 ^ level) (128 ^ level)) (b₀.word j) := by
    rw [← hI.rest]
    exact missing_congr level (Nat.min_le_right _ _) fun π hπ => hI.rest_old j π (Nat.le_refl _) (hnode hπ)
  have hownt : OwnIndex S level t.disk (b.1.word j) := by
    intro π hπ hlen hne
    have hsame := hI.rest_old j π (Nat.le_refl _) (hnode hπ)
    rw [hsame] at hne ⊢
    exact hown j (by omega) π hπ hlen hne
  have hroot : Ok (.tree level 128) (FmNode t) (Allocated t) t.disk fun _ => b.1.word j :=
    hokt.root (by show j < 128; omega)
  have hdraws := ih (b.1.word j) (min b.2 (128 ^ level)) t hI.keep.ok hroot (by omega) (Nat.min_le_right _ _)
    (hS.keep hI.keep) hownt
  rw [hmissing] at hdraws
  have hreserved : wp .memory (reserveIndirWith bitmapWrite level (b.1.word j) (min b.2 (128 ^ level)))
      (fun r t' => Reserved .memory level (min b.2 (128 ^ level)) t (b.1.word j) r.1 t' r.2) (fun _ _ => True) t := by
    apply wp_reserveIndirWith hbw level hlevel _ _ t _ hI.keep.ok hroot (by omega) (Nat.min_le_right _ _)
    intro ok page' t' hr
    exact hr
  apply (hdraws.and_wp (prog_wp_iff.mpr hreserved)).finish effect_total
  · rintro ⟨ok, s⟩ t' ⟨hok', hr⟩
    obtain rfl : ok = true := hok'
    exact ⟨trivial, rfl, _, rfl, hI.step hw hok (by omega) hr⟩
  · rintro x ⟨ok, s⟩ t' ⟨⟨hok', hzero⟩, _⟩
    obtain rfl : ok = false := hok'
    exact ⟨trivial, (), rfl, hzero.after hI.zero⟩

/-- `reserve_indir` on an index block that is there. -/
theorem draws_reserveIndex (hbw : WritesMap .memory bitmapWrite) {level num p : ℕ} (hlevel : level ≤ 2)
    (ih : DrawsTree S bitmapWrite level) (hw : FmOk w)
    (hok : Ok (.tree (level + 1) 128) (FmNode w) (Allocated w) w.disk fun _ => p) (hp : p ≠ 0)
    (hnum : num ≤ 128 ^ (level + 1)) (hS : Permits S w) (hown : OwnIndex S (level + 1) w.disk p) :
    Draws S (do
      let indirBlock ← bufferCacheRead p
      match ← Prog.forUpTo (fun i (b : Sector × ℕ) => do
          let nmax := min b.2 (128 ^ level)
          let (ok, s) ← reserveIndirWith bitmapWrite level (b.1.word i) nmax
          if ok then return .inl (b.1.setWord i s, b.2 - nmax) else return .inr ())
          ((num + 128 ^ level - 1) / 128 ^ level) 0 (indirBlock, num) with
      | .inr () => return (false, p)
      | .inl (indirBlock, num) =>
        if num ≠ 0 then
          .stop (.exit (-1))
        else
          bufferCacheWrite p indirBlock
          return (true, p)) w
      ((List.range' 0 ((num + 128 ^ level - 1) / 128 ^ level)).flatMap fun i =>
        missing w.disk level (min (num - i * 128 ^ level) (128 ^ level)) (sec w.disk p [i]))
      (fun r _ => r.1 = true) (fun x r w' => r.1 = false ∧ Sector0 w x w') fun _ _ => False := by
  have hroot : Node (.tree (level + 1) 128) 0 [] := ⟨Nat.one_pos, Nat.zero_le _, by simp⟩
  have hlt : p < w.mem.fsSize := (hok.alloc 0 [] hroot hp).1.1
  have hmine : S p := hown [] hroot (Nat.succ_pos _) hp
  have hmissing : (fun i => missing w.disk level (min (num - i * 128 ^ level) (128 ^ level)) (sec w.disk p [i])) =
      fun i => missing w.disk level (min (num - i * 128 ^ level) (128 ^ level)) ((w.disk p).word i) := by
    funext i
    rw [sec_cons hp]
    rfl
  have hownb : ∀ i, i < 128 → OwnIndex S level w.disk ((w.disk p).word i) := by
    intro i hi π hπ hlen hne
    rw [← sec_cons hp] at hne ⊢
    refine hown (i :: π) ⟨Nat.one_pos, Nat.succ_le_succ hπ.length, ?_⟩ (Nat.succ_lt_succ hlen) hne
    intro j hj
    rcases List.mem_cons.mp hj with rfl | hj
    · exact hi
    · exact hπ.fan j hj
  rw [hmissing]
  apply Prog.Draws.seq effect_total (I := fun b w' => b = w.disk p ∧ w = w') (WritesIn.bufferCacheRead p)
  · rw [prog_wp_iff, wp_bufferCacheRead, if_pos hlt]
    exact ⟨rfl, rfl, rfl⟩
  rintro b _ _ ⟨rfl, rfl⟩
  apply (draws_reserveLoop hbw hlevel ih hw (hok.block hp) hnum hS hownb).finish effect_total
  · rintro r w' ⟨⟨b, rem⟩, rfl, hI⟩
    have hpos : 0 < 128 ^ level := by positivity
    have hrem : rem = 0 := by
      have hcover : num ≤ (num + 128 ^ level - 1) / 128 ^ level * 128 ^ level := by
        have := Nat.lt_div_mul_add (a := num + 128 ^ level - 1) hpos
        omega
      have := hI.rest
      simp only at this
      omega
    have hlt' : p < w'.mem.fsSize := by rwa [hI.keep.fsSize]
    simp only [hrem, ne_eq, not_true_eq_false, if_false]
    refine ⟨((writesIn_bufferCacheWrite b hlt').mpr hmine).then fun _ _ => trivial, ?_⟩
    rw [prog_wp_iff]
    simp only [wp_bind, wp_bufferCacheWrite, if_pos hlt', wp_pure]
    exact ⟨rfl, trivial⟩
  · rintro x r w' ⟨c, rfl, hzero⟩
    exact ⟨trivial, rfl, hzero⟩

/-- A tree without its root misses a block. -/
theorem missing_zero_ne_nil (disk : ℕ → Sector) (level num : ℕ) : missing disk level num 0 ≠ [] := by
  cases level with
  | zero =>
    rw [missing, if_pos rfl]
    simp
  | succ level =>
    rw [missing, if_pos rfl]
    simp

/-- The index block of a missing root on a full device: sector 0 is taken for it. -/
theorem wp_reserveIndex_none (hbw : WritesMap .memory bitmapWrite) {level num : ℕ} (hlevel : level ≤ 2)
    (ih : DrawsTree S bitmapWrite level) (hw : FmOk w) (hfull : Full w) (hnum : num ≤ 128 ^ (level + 1))
    (hnum0 : 0 < num) (hS : Permits S w) :
    wp .memory (do
      bufferCacheWrite 0 Block.zero
      let indirBlock ← bufferCacheRead 0
      match ← Prog.forUpTo (fun i (b : Sector × ℕ) => do
          let nmax := min b.2 (128 ^ level)
          let (ok, s) ← reserveIndirWith bitmapWrite level (b.1.word i) nmax
          if ok then return .inl (b.1.setWord i s, b.2 - nmax) else return .inr ())
          ((num + 128 ^ level - 1) / 128 ^ level) 0 (indirBlock, num) with
      | .inr () => return (false, 0)
      | .inl (indirBlock, num) =>
        if num ≠ 0 then
          .stop (.exit (-1))
        else
          bufferCacheWrite 0 indirBlock
          return (true, 0)) (fun r w' => r.1 = false ∧ w'.disk 0 = Block.zero) (fun _ _ => False) w := by
  have h0 : 0 < w.mem.fsSize := hw.zero.1
  have hnode : ¬FmNode w 0 := by
    rintro ⟨_, _, _, _, _, _, _, _, hne⟩
    exact hne rfl
  have hkeep := hw.keep_write hnode Block.zero
  set w₁ : World := { w with disk := Function.update w.disk 0 Block.zero } with hw₁
  have hblock : w₁.disk 0 = Block.zero := by
    show Function.update w.disk 0 Block.zero 0 = Block.zero
    exact Function.update_self _ _ _
  have hempty : ∀ i, (w₁.disk 0).word i = 0 := by
    intro i
    rw [hblock]
    exact Block.word_zero i
  have hown : ∀ i, i < 128 → OwnIndex S level w₁.disk ((w₁.disk 0).word i) := by
    intro i _ π _ _ hne
    rw [hempty, sec_zero] at hne
    exact absurd rfl hne
  have hdraws := draws_reserveLoop hbw hlevel ih hkeep.ok (.empty fun k _ => hempty k) hnum (hS.keep hkeep) hown
  have hneed : freeCount w₁ < ((List.range' 0 ((num + 128 ^ level - 1) / 128 ^ level)).flatMap fun i =>
      missing w₁.disk level (min (num - i * 128 ^ level) (128 ^ level)) ((w₁.disk 0).word i)).length := by
    have hfree : freeCount w₁ = 0 := freeCount_eq_zero.mpr hfull
    have hmax : 0 < (num + 128 ^ level - 1) / 128 ^ level := by
      have hpos : 0 < 128 ^ level := by positivity
      exact Nat.div_pos (by omega) hpos
    rw [hfree, List.length_pos_iff_ne_nil]
    intro hnil
    have hfirst := List.flatMap_eq_nil_iff.mp hnil 0 (List.mem_range'_1.mpr ⟨Nat.le_refl _, by omega⟩)
    rw [hempty] at hfirst
    exact missing_zero_ne_nil _ _ _ hfirst
  have hloop := hdraws.short hneed
  rw [prog_wp_iff] at hloop
  rw [wp_bind, wp_bufferCacheWrite, if_pos h0, wp_bind, wp_bufferCacheRead, if_pos (show 0 < w₁.mem.fsSize from h0)]
  apply wp_seq hloop
  rintro r w' ⟨c, rfl, hzero⟩
  exact (wp_pure _).mpr ⟨rfl, hzero.zero hblock⟩

/-- `reserve_indir` at level 0. -/
theorem drawsTree_zero (hbw : WritesMap .memory bitmapWrite) (hmw : MapWrites S bitmapWrite) :
    DrawsTree S bitmapWrite 0 := by
  intro page num w hw _ _ _ hS _
  rw [reserveIndirWith, missing]
  by_cases hp : page = 0
  · rw [if_pos hp, if_pos hp]
    apply (draws_freeMapAllocateWith hbw hmw hw hS).finish effect_total
    · rintro r w' ⟨s, rfl, ht⟩
      have hlt : s < w'.mem.fsSize := by
        rw [ht.step.fsSize]
        exact ht.lt
      refine ⟨((writesIn_bufferCacheWrite _ hlt).mpr (hS.free s ht.lt ht.free)).then fun _ _ => trivial, ?_⟩
      rw [prog_wp_iff]
      simp only [wp_bind, wp_bufferCacheWrite, if_pos hlt, wp_pure]
      exact ⟨rfl, trivial⟩
    · rintro x r w' ⟨rfl, rfl, rfl, _⟩
      exact ⟨trivial, rfl, rfl⟩
  · rw [if_neg hp, if_neg hp]
    exact .ret rfl

/-- **What `reserve_indir` draws**: the missing blocks of the tree.  It writes elsewhere exactly if the sectors run out at
an index block. -/
theorem drawsTree_reserveIndirWith (hbw : WritesMap .memory bitmapWrite) (hmw : MapWrites S bitmapWrite) (level : ℕ)
    (hlevel : level ≤ 2) : DrawsTree S bitmapWrite level := by
  induction level with
  | zero => exact drawsTree_zero hbw hmw
  | succ level ih =>
    intro page num w hw hok hnum0 hnum hS hown
    have hih := ih (by omega)
    have hchunk : (if level + 1 > 1 then 128 else 1) = 128 ^ level := by
      obtain rfl | rfl : level = 0 ∨ level = 1 := by omega
      · rfl
      · rfl
    rw [reserveIndirWith, if_neg (by omega), hchunk]
    rw [missing]
    by_cases hp : page = 0
    · subst hp
      rw [if_pos rfl, if_pos rfl]
      by_cases hfree : freeCount w = 0
      · -- the index block is not there, and sector 0 is taken for it
        have hfull := freeCount_eq_zero.mp hfree
        refine ⟨?_, fun hle => ?_, fun _ => ?_⟩
        · rw [hfree]
          constructor
          · intro h
            exfalso
            obtain ⟨r, w', hrun, _, rfl, rfl, _⟩ := effect_total.exists_ret
              ((draws_freeMapAllocateWith hbw hmw hw hS).short (by simp [hfree]))
            have hnext := Prog.wp_iff_ends.mp ((Prog.always_bind _ _ _).mp h).2 _ _ hrun
            exact hS.zero ((writesIn_bufferCacheWrite _ hw.zero.1).mp ((Prog.always_bind _ _ _).mp hnext).1)
          · intro h
            exact absurd rfl h
        · rw [hfree] at hle
          simp at hle
        · have hmark : ∀ l : List Bool, ∀ h : freeCount w < ([true] ++ l).length, ([true] ++ l)[freeCount w] = true := by
            intro l h
            simp [hfree]
          have hnone := (draws_freeMapAllocateWith hbw hmw hw hS).short (by simp [hfree])
          rw [hmark, prog_wp_iff]
          apply wp_seq (prog_wp_iff.mp hnone)
          rintro r w' ⟨_, rfl, rfl, _⟩
          have h := wp_reserveIndex_none hbw (by omega) hih hw hfull hnum hnum0 hS
          simp only [Option.getD_none, wp_bind, wp_pure] at h ⊢
          exact h
      · have htake : Draws S (freeMapAllocateWith bitmapWrite 1) w [true] (fun r w' => ∃ s, r = some s ∧ Taken w s w')
            (fun _ _ _ => False) fun _ _ => False :=
          (draws_freeMapAllocateWith hbw hmw hw hS).relabel rfl (Nat.pos_of_ne_zero hfree)
        apply htake.bind effect_total
        · rintro r w' _ ⟨s, rfl, ht⟩
          have hf := ht.fresh hw
          have hlt : s < w'.mem.fsSize := by
            rw [ht.step.fsSize]
            exact ht.lt
          apply Prog.Draws.seq effect_total
            (I := fun _ w₁ => { w' with disk := Function.update w'.disk s Block.zero } = w₁)
            ((writesIn_bufferCacheWrite _ hlt).mpr (hS.free s ht.lt ht.free))
          · rw [prog_wp_iff, wp_bufferCacheWrite]
            simp only [if_pos hlt]
            exact ⟨rfl, trivial⟩
          rintro _ _ _ rfl
          have hmissing : ((List.range' 0 ((num + 128 ^ level - 1) / 128 ^ level)).flatMap fun i =>
                missing w.disk level (min (num - i * 128 ^ level) (128 ^ level)) (sec w.disk 0 [i])) =
              (List.range' 0 ((num + 128 ^ level - 1) / 128 ^ level)).flatMap fun i =>
                missing (Function.update w'.disk s Block.zero) level (min (num - i * 128 ^ level) (128 ^ level))
                  (sec (Function.update w'.disk s Block.zero) s [i]) := by
            apply List.flatMap_congr
            intro i _
            apply (missing_congr level (Nat.min_le_right _ _) fun π _ => ?_).symm
            have hzero : sec (Function.update w'.disk s Block.zero) s [i] = 0 := by
              rw [sec_cons hf.ne_zero, Function.update_self, Block.word_zero]
              rfl
            rw [hzero, sec_zero, sec_zero, sec_zero]
          rw [hmissing]
          have hown' : OwnIndex S (level + 1) (Function.update w'.disk s Block.zero) s := by
            intro π hπ _ hne
            cases π with
            | nil => exact hS.free s ht.lt ht.free
            | cons i π =>
              rw [sec_cons hf.ne_zero, Function.update_self, Block.word_zero, sec_zero] at hne
              exact absurd rfl hne
          apply (draws_reserveIndex hbw (by omega) hih hf.keep.ok (hf.tree_ok hw) hf.ne_zero hnum (hS.keep hf.keep)
            hown').mono fun _ _ => id
          intro x r w₁ h
          exact ⟨h.1, h.2.after hf.disk_zero⟩
        · intro x r w' h
          exact h.elim
    · rw [if_neg hp]
      rw [if_neg hp, List.nil_append]
      exact draws_reserveIndex hbw (by omega) hih hw hok hp hnum hS hown

end Tree

/-! ### Drawing for a page -/

/-- The blocks that `inode_reserve` allocates for a page to have its blocks below a length, in this order; `true` is an
index block. -/
def missingBlocks (disk : ℕ → Sector) (page : InodeDisk) (len : ℤ) : List Bool :=
  let numSec := (bytesToSectors len).toNat
  ((List.range' 0 (min numSec 123)).flatMap fun i => missing disk 0 1 (page.dirBlock i)) ++
    if numSec ≤ 123 then []
    else missing disk 1 (min (numSec - 123) 128) page.indirBlock ++
      if numSec ≤ 251 then [] else missing disk 2 (min (numSec - 251) 16384) page.dIndirBlock

/-- A node that is not needed for the blocks reserved so far is as before. -/
theorem PageReserved.untouched {P : Policy} {H : InodeDisk → ℕ → Option Inode} {num : ℕ} {w w' : World}
    {page page' : InodeDisk} (h : PageReserved P H num w page true w' page') {k : ℕ} {π : List ℕ}
    (hn : Node pageShape k π) (hnot : ¬NeededNode num k π) :
    sec w'.disk (page'.word k) π = sec w.disk (page.word k) π := by
  by_cases hold : sec w.disk (page.word k) π = 0
  · rw [hold]
    by_contra hne
    rcases h.needed rfl k π hn hne with h' | h'
    · exact h' hold
    · exact hnot h'
  · exact h.grow.old k π hn hold

section Page

variable {S : ℕ → Prop} {bitmapWrite : Fs Bool} {store : InodeDisk → Fs Unit} {H : InodeDisk → ℕ → Option Inode}
  {w w₁ : World} {page page₁ : InodeDisk}

/-- The tree under a word of the page that has not been touched. -/
theorem PageReserved.missing_eq {P : Policy} {num : ℕ} (h : PageReserved P H num w page true w₁ page₁) {k : ℕ}
    (hk : k < 125) (hnot : ∀ π, ¬NeededNode num k π) {level n : ℕ} (hlevel : pageShape.level k = level)
    (hn : n ≤ 128 ^ level) :
    missing w₁.disk level n (page₁.word k) = missing w.disk level n (page.word k) := by
  subst hlevel
  apply missing_congr _ hn
  intro π hπ
  exact h.untouched ⟨hk, hπ.length, hπ.fan⟩ (hnot π)

/-- Its index blocks may be written if those of the page may. -/
theorem PageReserved.own {P : Policy} {num : ℕ} (h : PageReserved P H num w page true w₁ page₁) {k : ℕ} (hk : k < 125)
    (hnot : ∀ π, ¬NeededNode num k π) {level : ℕ} (hlevel : pageShape.level k = level)
    (hown : OwnIndex S level w.disk (page.word k)) : OwnIndex S level w₁.disk (page₁.word k) := by
  subst hlevel
  intro π hπ hlen hne
  have hsame := h.untouched ⟨hk, hπ.length, hπ.fan⟩ (hnot π)
  rw [hsame] at hne ⊢
  exact hown π hπ hlen hne

theorem not_neededNode_direct {num k : ℕ} (hnum : num ≤ 123) (hk : k < 2 ∨ num + 2 ≤ k) (π : List ℕ) :
    ¬NeededNode num k π := by
  rintro ⟨i, hi, hroot, _⟩
  rcases leafRoot_cases i with ⟨_, hr, _⟩ | ⟨_, _, _, _⟩ | ⟨_, _, _⟩ <;> omega

theorem not_neededNode_indir {num : ℕ} (hnum : num ≤ 251) (π : List ℕ) : ¬NeededNode num 0 π := by
  rintro ⟨i, hi, hroot, _⟩
  rcases leafRoot_cases i with ⟨_, hr, _⟩ | ⟨_, _, hr, _⟩ | ⟨_, _, _⟩ <;> omega

/-- The assignments to the page change no sector. -/
theorem wp_store (hst : Stores .memory store H) {d : InodeDisk} (d' : InodeDisk) (hw : w.mem.heap = H d) :
    wp .memory (store d') (fun _ w' => ⟨{ w.mem with heap := H d' }, w.disk⟩ = w') (fun _ _ => False) w :=
  hst w d d' _ _ hw rfl

/-- A pass of the direct loop of `inode_reserve`. -/
theorem draws_reserveDirect (hbw : WritesMap .memory bitmapWrite) (hmw : MapWrites S bitmapWrite)
    (hst : Stores .memory store H) (hsilent : ∀ d w, WritesIn S (store d) w) (hw : FmOk w)
    (hok : Ok pageShape (FmNode w) (Allocated w) w.disk page.word)
    (hH : ∀ f d d', w.mem.freeMapFile = some f → H d f.inode = H d' f.inode) (hS : Permits S w) {j : ℕ} (hj : j < 123)
    (h : PageReserved .memory H j w page true w₁ page₁) :
    Draws S (reserveDirect bitmapWrite store j page₁) w₁ (missing w.disk 0 1 (page.dirBlock j))
      (fun r w₂ => ∃ page₂, r = .inl page₂ ∧ PageReserved .memory H (j + 1) w page true w₂ page₂)
      (fun x r w₂ => ∃ page₂, r = .inr page₂ ∧ Sector0 w x w₂) fun _ _ => False := by
  have hmissing : missing w.disk 0 1 (page.dirBlock j) = missing w₁.disk 0 1 (page₁.dirBlock j) :=
    (h.missing_eq (k := j + 2) (by omega) (not_neededNode_direct (by omega) (.inr (by omega)))
      (by show (if j + 2 = 0 then 2 else if j + 2 = 1 then 1 else 0) = 0; rw [if_neg (by omega), if_neg (by omega)])
      (by decide)).symm
  have hdraws : Draws S (reserveDirect bitmapWrite store j page₁) w₁ (missing w₁.disk 0 1 (page₁.dirBlock j))
      (fun r _ => ∃ page₂, r = .inl page₂) (fun x r w₂ => ∃ page₂, r = .inr page₂ ∧ Sector0 w x w₂)
      fun _ _ => False := by
    rw [reserveDirect, missing]
    by_cases hp : page₁.dirBlock j = 0
    · rw [if_pos hp, if_pos hp]
      apply (draws_freeMapAllocateWith hbw hmw h.keep.ok (hS.keep h.keep)).finish effect_total
      · rintro r w₂ ⟨s, rfl, ht⟩
        have hlt : s < w₂.mem.fsSize := by
          rw [ht.step.fsSize]
          exact ht.lt
        have hstored := wp_store hst (page₁.setDirBlock j s) (ht.step.heap.trans h.heap)
        refine ⟨(hsilent _ _).seq (wp_mono hstored (fun _ _ => id) fun _ _ _ => trivial) ?_, ?_⟩
        · rintro _ _ rfl
          apply WritesIn.then
          · have hfree := (hS.keep h.keep).free s ht.lt ht.free
            exact (writesIn_bufferCacheWrite (w := ⟨{ w₂.mem with heap := H (page₁.setDirBlock j s) }, w₂.disk⟩) _
              hlt).mpr hfree
          · intro _ _
            trivial
        · rw [prog_wp_iff]
          apply wp_seq hstored
          rintro _ _ rfl
          rw [wp_bind, wp_bufferCacheWrite]
          simp only [if_pos hlt, wp_pure]
          exact ⟨rfl, _, rfl⟩
      · rintro x r w₂ ⟨rfl, rfl, rfl, _⟩
        exact ⟨trivial, page₁, rfl, h.zero rfl⟩
    · rw [if_neg hp, if_neg hp]
      exact .ret ⟨page₁, rfl⟩
  have hreserved : wp .memory (reserveDirect bitmapWrite store j page₁)
      (fun r w₂ => ∀ page₂, r = .inl page₂ → PageReserved .memory H (j + 1) w page true w₂ page₂) (fun _ _ => True)
      w₁ := by
    apply wp_reserveDirect hbw hst hw hok hH hj h
    · rintro page₂ w₂ hr _ ⟨⟩
      exact hr
    · intro page₂ w₂ _ _ heq
      cases heq
  rw [hmissing]
  apply (hdraws.and_wp (prog_wp_iff.mpr hreserved)).mono
  · rintro r w₂ ⟨⟨page₂, hr⟩, hres⟩
    exact ⟨page₂, hr, hres page₂ hr⟩
  · rintro x r w₂ ⟨hr, _⟩
    exact hr

/-- Reserving under one of the two roots with index blocks. -/
theorem draws_root (hbw : WritesMap .memory bitmapWrite) (hmw : MapWrites S bitmapWrite) (hw : FmOk w)
    (hok : Ok pageShape (FmNode w) (Allocated w) w.disk page.word) (hS : Permits S w) {num k level n : ℕ}
    (hown : OwnIndex S level w.disk (page.word k)) (h : PageReserved .memory H num w page true w₁ page₁) (hk : k < 125)
    (hnot : ∀ π, ¬NeededNode num k π) (hlevel : pageShape.level k = level) (hle : level ≤ 2) (hn0 : 0 < n)
    (hn : n ≤ 128 ^ level) :
    Draws S (reserveIndirWith bitmapWrite level (page₁.word k) n) w₁ (missing w.disk level n (page.word k))
      (fun r w₂ => r.1 = true ∧ Reserved .memory level n w₁ (page₁.word k) r.1 w₂ r.2)
      (fun x r w₂ => r.1 = false ∧ Sector0 w x w₂ ∧ Reserved .memory level n w₁ (page₁.word k) r.1 w₂ r.2)
      fun _ _ => False := by
  have hroot : Ok (.tree level 128) (FmNode w₁) (Allocated w₁) w₁.disk fun _ => page₁.word k := by
    rw [← hlevel]
    exact (h.toPageGrown.forest hw hok).root hk
  have hdraws := drawsTree_reserveIndirWith hbw hmw level hle (page₁.word k) n w₁ h.keep.ok hroot hn0 hn
    (hS.keep h.keep) (h.own hk hnot hlevel hown)
  rw [h.missing_eq hk hnot hlevel hn] at hdraws
  have hreserved : wp .memory (reserveIndirWith bitmapWrite level (page₁.word k) n)
      (fun r w₂ => Reserved .memory level n w₁ (page₁.word k) r.1 w₂ r.2) (fun _ _ => True) w₁ :=
    wp_reserveIndirWith hbw level hle _ _ w₁ _ h.keep.ok hroot hn0 hn fun _ _ _ hr => hr
  apply (hdraws.and_wp (prog_wp_iff.mpr hreserved)).mono fun _ _ => id
  rintro x r w₂ ⟨⟨hr, hzero⟩, hres⟩
  exact ⟨hr, hzero.after (h.zero rfl), hres⟩

/-- **What `inode_reserve` draws**: the missing blocks of the page.  It writes elsewhere exactly if the sectors run out at
an index block. -/
theorem draws_inodeReserveWith (hbw : WritesMap .memory bitmapWrite) (hmw : MapWrites S bitmapWrite)
    (hst : Stores .memory store H) (hsilent : ∀ d w, WritesIn S (store d) w) (hw : FmOk w) (hheap : w.mem.heap = H page)
    (hok : Ok pageShape (FmNode w) (Allocated w) w.disk page.word)
    (hH : ∀ f d d', w.mem.freeMapFile = some f → H d f.inode = H d' f.inode) (hS : Permits S w)
    (hown : ∀ k, k < 2 → OwnIndex S (pageShape.level k) w.disk (page.word k)) {len : ℤ} (hlen : 0 ≤ len) :
    Draws S (inodeReserveWith bitmapWrite store page len) w (missingBlocks w.disk page len) (fun r _ => r.1 = true)
      (fun x r w' => r.1 = false ∧ Sector0 w x w') fun e _ => e = .exit (-1) ∧ 16635 < bytesToSectors len := by
  have hstart : PageReserved .memory H 0 w page true w page :=
    ⟨⟨.refl hw, hheap, .same hok fun _ _ _ _ => rfl, fun _ _ => rfl⟩, by simp, fun _ _ _ _ hne => .inl hne,
      fun _ => rfl, by simp, fun _ => .refl⟩
  -- what remains after a part of the page is full
  have hfail : ∀ {x w₁ page₁ page₂}, w₁.mem.heap = H page₁ → Sector0 w x w₁ →
      Prog.Always (effect .memory) (WritesTo S) (store page₂ >>= fun _ => (pure (false, page₂) : Fs (Bool × InodeDisk)))
        w₁ ∧
      Prog.wp (effect .memory) (store page₂ >>= fun _ => (pure (false, page₂) : Fs (Bool × InodeDisk)))
        (fun r w' => r.1 = false ∧ Sector0 w x w') (fun _ _ => False) w₁ := by
    intro x w₁ page₁ page₂ hheap₁ hzero
    refine ⟨(hsilent _ _).then fun _ _ => trivial, ?_⟩
    rw [prog_wp_iff]
    apply wp_seq (wp_store hst _ hheap₁)
    rintro _ _ rfl
    exact (wp_pure _).mpr ⟨rfl, hzero⟩
  rw [inodeReserveWith, if_neg (by omega), missingBlocks]
  generalize bytesToSectors len = n at *
  apply Prog.Draws.bind effect_total
  · have hnum : min n.toNat 123 = (min n 123).toNat := by omega
    rw [hnum]
    apply Prog.Draws.forUpTo effect_total _ (fun j page₁ w₁ => PageReserved .memory H j w page true w₁ page₁)
      (fun x _ w₁ => Sector0 w x w₁) _ _ _ _ _ (Nat.zero_add _) hstart
    intro j page₁ w₁ hj hI
    exact draws_reserveDirect hbw hmw hst hsilent hw hok hH hS (by omega) hI
  · rintro r w₁ _ ⟨page₁, rfl, hI⟩
    by_cases h1 : n - min n 123 = 0
    · simp only [if_pos h1, if_pos (show n.toNat ≤ 123 by omega)]
      exact .ret rfl
    have hN : (min n 123).toNat = 123 := by omega
    rw [hN] at hI
    have hnum₁ : (min (n - min n 123) 128).toNat = min (n.toNat - 123) 128 := by omega
    simp only [if_neg h1, if_neg (show ¬n.toNat ≤ 123 by omega), hnum₁]
    apply Prog.Draws.bind effect_total
    · have hown₁ : OwnIndex S 1 w.disk (page.word 1) := hown 1 (by omega)
      exact draws_root hbw hmw hw hok hS hown₁ hI (by omega)
        (not_neededNode_direct (Nat.le_refl _) (.inl (by omega))) rfl (by omega) (by omega) (by omega)
    · rintro ⟨ok, s⟩ w₂ _ ⟨rfl, hr⟩
      have hI₂ := hI.indir hw hok hH (by omega) hr
      apply Prog.Draws.seq effect_total (hsilent _ _)
        (prog_wp_iff.mpr (wp_mono_ret (wp_store hst _ (hr.heap.trans hI.heap)) fun _ w' hw' => ⟨?_, hw'⟩))
      · rintro _ _ _ rfl
        by_cases h2 : n - min n 123 - min (n - min n 123) 128 = 0
        · simp only [Bool.not_true, Bool.false_eq_true, if_false, if_pos h2, if_pos (show n.toNat ≤ 251 by omega)]
          exact .ret rfl
        have hN₂ : 123 + min (n.toNat - 123) 128 = 251 := by omega
        rw [hN₂] at hI₂
        have hnum₂ : (min (n - min n 123 - min (n - min n 123) 128) 16384).toNat = min (n.toNat - 251) 16384 := by
          omega
        simp only [Bool.not_true, Bool.false_eq_true, if_false, if_neg h2, if_neg (show ¬n.toNat ≤ 251 by omega), hnum₂]
        have hown₂ : OwnIndex S 2 w.disk (page.word 0) := hown 0 (by omega)
        apply (draws_root hbw hmw hw hok hS hown₂ hI₂ (by omega) (not_neededNode_indir (Nat.le_refl _)) rfl
          (Nat.le_refl _) (by omega) (by omega)).finish effect_total
        · rintro ⟨ok, t⟩ w₃ ⟨rfl, hr₂⟩
          have hstored := wp_store hst ((page₁.setWord 1 s).setWord 0 t) (hr₂.heap.trans hI₂.heap)
          by_cases h3 : n - min n 123 - min (n - min n 123) 128 -
              min (n - min n 123 - min (n - min n 123) 128) 16384 = 0
          · simp only [Bool.not_true, Bool.false_eq_true, if_false, if_pos h3]
            refine ⟨(hsilent _ _).then fun _ _ => trivial, ?_⟩
            rw [prog_wp_iff]
            apply wp_seq (wp_mono hstored (fun _ _ => id) fun _ _ => False.elim)
            rintro _ _ rfl
            exact (wp_pure _).mpr ⟨rfl, rfl⟩
          · simp only [Bool.not_true, Bool.false_eq_true, if_false, if_neg h3]
            refine ⟨(hsilent _ _).then fun _ _ => trivial, ?_⟩
            rw [prog_wp_iff]
            apply wp_seq (wp_mono hstored (fun _ _ => id) fun _ _ => False.elim)
            rintro _ _ rfl
            exact (wp_stop _).mpr ⟨rfl, by omega⟩
        · rintro x ⟨ok, t⟩ w₃ ⟨rfl, hzero, hr₂⟩
          exact hfail (hr₂.heap.trans hI₂.heap) hzero
      · rw [← hw']
        rfl
    · rintro x ⟨ok, s⟩ w₂ ⟨rfl, hzero, hr⟩
      exact hfail (hr.heap.trans hI.heap) hzero
  · rintro x r w₁ ⟨page₁, rfl, hzero⟩
    exact ⟨trivial, rfl, hzero⟩

end Page

end Pintos.Filesys
