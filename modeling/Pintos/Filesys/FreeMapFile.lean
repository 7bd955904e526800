import Pintos.Filesys.BlockMap

/-!
# Allocating and releasing sectors

With memory available, `free_map_allocate` hands out a free sector whenever there is one, and
`free_map_release` gives one back.  Both write the bitmap into the free map file, which changes the
data sectors of that file and nothing else: the file has its full length from the start, so the write
never allocates.

* `FmOk` is what the state must satisfy for this to work, `Synced` that the file holds the bitmap.
* `FmStep` is all that any number of allocations and releases changes.
-/

namespace Pintos.Filesys

open PtrForest

/-! ### The bitmap -/

namespace Bitmap

theorem setMultiple_one (b : Bitmap) (s : ℕ) (v : Bool) :
    b.setMultiple s 1 v = { b with bits := Function.update b.bits s v } := by
  unfold setMultiple
  congr 1
  funext i
  by_cases h : i = s
  · rw [h, Function.update_self, if_pos ⟨le_refl s, Nat.lt_succ_self s⟩]
  · rw [Function.update_of_ne h, if_neg (by omega)]

theorem contains_one (b : Bitmap) (s : ℕ) (v : Bool) : b.contains s 1 v = (b.bits s == v) := by
  simp [contains, List.range_succ]

theorem scan_some {b : Bitmap} {s : ℕ} (h : b.scan 0 1 false = some s) :
    s < b.bitCnt ∧ b.bits s = false := by
  unfold scan at h
  split at h
  · have hmem := List.mem_of_find?_eq_some h
    have htest := List.find?_some h
    rw [contains_one] at htest
    rw [List.mem_range'_1] at hmem
    exact ⟨by omega, by simpa using htest⟩
  · exact absurd h (by simp)

theorem scan_none {b : Bitmap} (h : b.scan 0 1 false = none) {s : ℕ} (hs : s < b.bitCnt) :
    b.bits s = true := by
  unfold scan at h
  rw [if_pos (by omega), List.find?_eq_none] at h
  have := h s (by rw [List.mem_range'_1]; omega)
  rw [contains_one] at this
  simpa using this

theorem byte_lt {b : Bitmap} {t : ℕ} (h : t < b.bitCnt) : t / 8 < b.byteCnt := by
  unfold byteCnt
  omega

theorem byte_testBit (b : Bitmap) (t : ℕ) : (b.byte (t / 8)).toNat.testBit (t % 8) = b.bits t := by
  have hlt : t % 8 < 8 := Nat.mod_lt t (by omega)
  have hbyte : (b.byte (t / 8)).toNat = Nat.ofBits fun k : Fin 8 => b.bits (8 * (t / 8) + k) := by
    rw [byte, UInt8.toNat_ofNat']
    exact Nat.mod_eq_of_lt (Nat.ofBits_lt_two_pow _)
  rw [hbyte, Nat.testBit_ofBits_lt _ _ hlt]
  exact congrArg b.bits (Nat.div_add_mod t 8)

end Bitmap

/-- The sector is marked as used in the free map. -/
def Allocated (w : World) (s : ℕ) : Prop := s < w.mem.fsSize ∧ w.mem.freeMap.bits s = true

/-- `i` is the open inode of the free map file, at address `p`; all its blocks are there. -/
structure FmFile (w : World) (p : ℕ) (i : Inode) : Prop where
  heap : w.mem.heap p = some i
  sector : i.sector = freeMapSector
  allow : i.denyWriteCnt = 0
  size : (w.mem.freeMap.byteCnt : ℤ) ≤ i.data.length
  max : i.data.length ≤ 8517120
  mapped : Mapped w.mem.fsSize w.disk i.data
  forest : Ok pageShape (fun _ => False) (Allocated w) w.disk i.data.word

/-- The free map covers the device, and its file, if it is open, is well formed. -/
structure FmOk (w : World) : Prop where
  bitCnt : w.mem.freeMap.bitCnt = w.mem.fsSize
  fsSize : w.mem.fsSize < 2 ^ 32
  zero : Allocated w 0
  file : ∀ f, w.mem.freeMapFile = some f → ∃ i, FmFile w f.inode i

/-- The sectors that hold the data of the free map file. -/
def FmData (w : World) (s : ℕ) : Prop :=
  ∃ f i k, w.mem.freeMapFile = some f ∧ w.mem.heap f.inode = some i ∧ k < 16635 ∧
    dataSec w.disk i.data k = s ∧ s ≠ 0

/-- The free map file holds the free map.  (The bits behind the last sector are not looked at.) -/
def Synced (w : World) : Prop :=
  ∀ f i, w.mem.freeMapFile = some f → w.mem.heap f.inode = some i →
    ∀ t, t < w.mem.freeMap.bitCnt →
      (byteAt w.disk i.data (t / 8)).toNat.testBit (t % 8) = w.mem.freeMap.bits t

theorem FmOk.size_pos {w : World} (h : FmOk w) : 0 < w.mem.freeMap.byteCnt := by
  have := h.zero.1
  have := h.bitCnt
  unfold Bitmap.byteCnt
  omega

theorem FmOk.data_allocated {w : World} (h : FmOk w) {s : ℕ} (hs : FmData w s) : Allocated w s := by
  obtain ⟨f, i, k, hf, hi, hk, rfl, h0⟩ := hs
  obtain ⟨i', hi'⟩ := h.file f hf
  obtain rfl : i = i' := Option.some.inj (hi.symm.trans hi'.heap)
  exact (hi'.forest.alloc _ _ (leaf_node hk).1 h0).1

/-- A change of the free map file's data. -/
theorem FmOk.of_data {w : World} (h : FmOk w) {disk' : ℕ → Sector}
    (hd : ∀ s, ¬FmData w s → disk' s = w.disk s) : FmOk { w with disk := disk' } where
  bitCnt := h.bitCnt
  fsSize := h.fsSize
  zero := h.zero
  file f hf := by
    obtain ⟨i, hi⟩ := h.file f hf
    have hd' : ∀ s, (∀ k, k < 16635 → dataSec w.disk i.data k ≠ s) → disk' s = w.disk s := by
      intro s hs
      refine hd s ?_
      rintro ⟨f', i', k, hf', hi', hk, heq, _⟩
      obtain rfl : f = f' := Option.some.inj (hf.symm.trans hf')
      obtain rfl : i = i' := Option.some.inj (hi.heap.symm.trans hi')
      exact hs k hk heq
    exact ⟨i, hi.heap, hi.sector, hi.allow, hi.size, hi.max, hi.mapped.of_data_change hi.forest hd',
      ok_of_data_change hi.forest hd'⟩

theorem FmOk.data_of_data {w : World} (h : FmOk w) {disk' : ℕ → Sector}
    (hd : ∀ s, ¬FmData w s → disk' s = w.disk s) (s : ℕ) :
    FmData { w with disk := disk' } s ↔ FmData w s := by
  have hsec : ∀ f i k, w.mem.freeMapFile = some f → w.mem.heap f.inode = some i → k < 16635 →
      dataSec disk' i.data k = dataSec w.disk i.data k := by
    intro f i k hf hi hk
    obtain ⟨i', hi'⟩ := h.file f hf
    obtain rfl : i = i' := Option.some.inj (hi.symm.trans hi'.heap)
    refine dataSec_of_data_change hi'.forest (fun s hs => hd s ?_) hk
    rintro ⟨f₂, i₂, k₂, hf₂, hi₂, hk₂, heq, _⟩
    obtain rfl : f = f₂ := Option.some.inj (hf.symm.trans hf₂)
    obtain rfl : i = i₂ := Option.some.inj (hi.symm.trans hi₂)
    exact hs k₂ hk₂ heq
  constructor
  · rintro ⟨f, i, k, hf, hi, hk, heq, h0⟩
    exact ⟨f, i, k, hf, hi, hk, (hsec f i k hf hi hk).symm.trans heq, h0⟩
  · rintro ⟨f, i, k, hf, hi, hk, heq, h0⟩
    exact ⟨f, i, k, hf, hi, hk, (hsec f i k hf hi hk).trans heq, h0⟩

/-- What allocating and releasing sectors changes: the bits of the free map and the data of its
file. -/
structure FmStep (w w' : World) : Prop where
  mem : w'.mem = { w.mem with freeMap := w'.mem.freeMap }
  bitCnt : w'.mem.freeMap.bitCnt = w.mem.freeMap.bitCnt
  disk : ∀ s, ¬FmData w s → w'.disk s = w.disk s
  data : ∀ s, FmData w' s ↔ FmData w s
  ok : FmOk w'

section

variable {w w' w'' : World}

theorem FmStep.refl (h : FmOk w) : FmStep w w := ⟨rfl, rfl, fun _ _ => rfl, fun _ => Iff.rfl, h⟩

theorem FmStep.trans (h₁ : FmStep w w') (h₂ : FmStep w' w'') : FmStep w w'' where
  mem := by
    rw [h₂.mem, h₁.mem]
  bitCnt := h₂.bitCnt.trans h₁.bitCnt
  disk s hs := by
    rw [h₂.disk s fun h => hs ((h₁.data s).mp h), h₁.disk s hs]
  data s := (h₂.data s).trans (h₁.data s)
  ok := h₂.ok

theorem FmStep.fsSize (h : FmStep w w') : w'.mem.fsSize = w.mem.fsSize := by rw [h.mem]

theorem FmStep.heap (h : FmStep w w') : w'.mem.heap = w.mem.heap := by rw [h.mem]

theorem FmStep.freeMapFile (h : FmStep w w') : w'.mem.freeMapFile = w.mem.freeMapFile := by
  rw [h.mem]

end

/-! ### Writing the bitmap -/

variable {P : Policy} {E : Stop → World → Prop} {w : World}

/-- A program that writes the free map into its file. -/
def WritesMap (P : Policy) (bitmapWrite : Fs Bool) : Prop :=
  ∀ (w : World) (Q : Bool → World → Prop) (E : Stop → World → Prop), FmOk w →
    w.mem.freeMapFile.isSome = true →
    (∀ disk', (∀ s, ¬FmData w s → disk' s = w.disk s) → Synced { w with disk := disk' } →
      Q true { w with disk := disk' }) →
    wp P bitmapWrite Q E w

/-- **Writing the free map changes the data of its file only**, and makes no further call of
`inode_write_at`. -/
theorem writesMap_bitmapWriteWith (hP : P.NoFail) (depth : ℕ) :
    WritesMap P (bitmapWriteWith (inodeWriteAtDepth (depth + 1))) := by
  intro w Q E h hsome hQ
  obtain ⟨f, hf⟩ := Option.isSome_iff_exists.mp hsome
  obtain ⟨i, hi⟩ := h.file f hf
  have hpos := h.size_pos
  have hmax := hi.max
  have hsize := hi.size
  obtain ⟨len, hlen⟩ : ∃ len : ℕ, i.data.length = len := ⟨i.data.length.toNat, by omega⟩
  simp only [bitmapWriteWith, inodeWriteAtDepth, wp_bind, wp_getMem, hf, wp_deref_some hi.heap]
  have hlast : wrap32 (wrap32 (0 + (w.mem.freeMap.byteCnt : ℤ)) - 1) =
      ((w.mem.freeMap.byteCnt - 1 : ℕ) : ℤ) := by
    have h₁ : wrap32 (0 + (w.mem.freeMap.byteCnt : ℤ)) = w.mem.freeMap.byteCnt := by
      rw [wrap32_of_mem (by omega) (by omega)]
      omega
    rw [h₁, wrap32_of_mem (by omega) (by omega)]
    omega
  rw [if_neg (by simp [hi.allow]), hlast, wp_bind]
  refine wp_byteToSector hP hi.heap hi.mapped (fun hlt => ?_) (fun hge => by omega)
  have hpres := hi.mapped ((w.mem.freeMap.byteCnt - 1) / 512) (by omega)
  have hne : dataSec w.disk i.data ((w.mem.freeMap.byteCnt - 1) / 512) ≠ 2 ^ 32 - 1 := by
    have := hpres.dataSec_lt
    have := h.fsSize
    omega
  rw [if_neg hne]
  refine wp_inodeWriteLoop hP hlen (by omega) _ _ 0 _ false w _ hi.heap hi.mapped hi.forest
    (by simp) (by omega) fun disk' hd => ?_
  rw [wp_pure, decide_eq_true rfl]
  refine hQ disk' (fun s hs => hd.frame s fun k hk _ heq => ?_) fun f' i' hf' hi' t ht => ?_
  · have hk' := hi.mapped k (by omega)
    exact hs ⟨f, i, k, hf, hi.heap, hk'.lt, heq, by rw [← heq]; exact hk'.ne_zero⟩
  · obtain rfl : f = f' := Option.some.inj (hf.symm.trans hf')
    obtain rfl : i = i' := Option.some.inj (hi.heap.symm.trans hi')
    have ht' : t / 8 < w.mem.freeMap.byteCnt := Bitmap.byte_lt ht
    rw [hd.byte (t / 8), Bytes.splice_inside (Nat.zero_le _) (by omega), Nat.sub_zero]
    exact Bitmap.byte_testBit _ t

/-! ### Allocation and release -/

theorem Bitmap.byteCnt_congr {b b' : Bitmap} (h : b.bitCnt = b'.bitCnt) : b.byteCnt = b'.byteCnt := by
  rw [Bitmap.byteCnt, h, Bitmap.byteCnt]

/-- The state with other bits in the free map. -/
def World.setBits (w : World) (bits : ℕ → Bool) : World :=
  { w with mem := { w.mem with freeMap := { w.mem.freeMap with bits := bits } } }

/-- The bits may change as long as the sectors of the free map file stay marked. -/
theorem FmOk.setBits (h : FmOk w) {bits : ℕ → Bool} (h0 : bits 0 = true)
    (hkeep : ∀ f i k π, w.mem.freeMapFile = some f → w.mem.heap f.inode = some i →
      Node pageShape k π → sec w.disk (i.data.word k) π ≠ 0 →
      bits (sec w.disk (i.data.word k) π) = true) : FmOk (w.setBits bits) where
  bitCnt := h.bitCnt
  fsSize := h.fsSize
  zero := ⟨h.zero.1, h0⟩
  file f hf := by
    obtain ⟨i, hi⟩ := h.file f hf
    refine ⟨i, hi.heap, hi.sector, hi.allow, hi.size, hi.max, hi.mapped, fun k π hn hne => ?_,
      hi.forest.inj⟩
    exact ⟨⟨(hi.forest.alloc k π hn hne).1.1, hkeep f i k π hf hi.heap hn hne⟩, fun h => h⟩

/-- Setting bits and writing the map to its file is a step. -/
theorem FmStep.of_setBits {bits : ℕ → Bool} (hok : FmOk (w.setBits bits)) {disk' : ℕ → Sector}
    (hd : ∀ s, ¬FmData w s → disk' s = w.disk s) :
    FmStep w { w.setBits bits with disk := disk' } where
  mem := rfl
  bitCnt := rfl
  disk := hd
  data := hok.data_of_data hd
  ok := hok.of_data hd

/-- **`free_map_allocate` for one sector** finds a free one, marks it and saves the map, and fails only
when the device is full. -/
theorem wp_freeMapAllocateWith {bitmapWrite : Fs Bool} (hbw : WritesMap P bitmapWrite) (h : FmOk w)
    {Q : Option ℕ → World → Prop}
    (hnone : (∀ s, s < w.mem.fsSize → Allocated w s) → P.noSector → Q none w)
    (hsome : ∀ s w', s < w.mem.fsSize → ¬Allocated w s → FmStep w w' →
      w'.mem.freeMap.bits = Function.update w.mem.freeMap.bits s true → Synced w' → Q (some s) w') :
    wp P (freeMapAllocateWith bitmapWrite 1) Q E w := by
  simp only [freeMapAllocateWith, wp_bind, wp_getMem, Bitmap.scanAndFlip]
  cases hscan : w.mem.freeMap.scan 0 1 false with
  | none =>
    simp only [wp_bind, wp_noSector, wp_pure]
    exact hnone fun s hs => ⟨hs, Bitmap.scan_none hscan (by rw [h.bitCnt]; exact hs)⟩
  | some s =>
    obtain ⟨hlt, hbit⟩ := Bitmap.scan_some hscan
    rw [h.bitCnt] at hlt
    have hna : ¬Allocated w s := fun ha => by simp [ha.2] at hbit
    have hkeep : ∀ t, w.mem.freeMap.bits t = true →
        Function.update w.mem.freeMap.bits s true t = true := by
      intro t ht
      by_cases hts : t = s
      · rw [hts, Function.update_self]
      · rw [Function.update_of_ne hts, ht]
    have hok : FmOk (w.setBits (Function.update w.mem.freeMap.bits s true)) := by
      refine h.setBits (hkeep 0 h.zero.2) fun f i k π hf hi hn hne => hkeep _ ?_
      obtain ⟨i', hi'⟩ := h.file f hf
      obtain rfl : i = i' := Option.some.inj (hi.symm.trans hi'.heap)
      exact (hi'.forest.alloc k π hn hne).1.2
    simp only [wp_bind, wp_setMem, Bool.not_false, Bitmap.setMultiple_one]
    by_cases hfile : w.mem.freeMapFile.isSome = true
    · rw [if_pos hfile, wp_bind]
      refine hbw (w.setBits (Function.update w.mem.freeMap.bits s true)) _ E hok hfile
        fun disk' hd hsync => ?_
      rw [if_pos rfl, wp_pure]
      exact hsome s _ hlt hna (.of_setBits hok hd) rfl hsync
    · rw [if_neg hfile, wp_pure]
      refine hsome s _ hlt hna (.of_setBits hok fun _ _ => rfl) rfl fun f i hf => ?_
      rw [Option.not_isSome_iff_eq_none.mp hfile] at hf
      exact absurd hf (by simp)

/-- **`free_map_release` of one sector** that belongs to nobody clears its bit and saves the map. -/
theorem wp_freeMapReleaseWith {bitmapWrite : Fs Bool} (hbw : WritesMap P bitmapWrite) (h : FmOk w)
    (hfile : w.mem.freeMapFile.isSome = true) {s : ℕ} (hs : Allocated w s) (h0 : s ≠ 0)
    (hfree : ∀ f i k π, w.mem.freeMapFile = some f → w.mem.heap f.inode = some i →
      Node pageShape k π → sec w.disk (i.data.word k) π ≠ s)
    {Q : Unit → World → Prop}
    (hQ : ∀ w', FmStep w w' → w'.mem.freeMap.bits = Function.update w.mem.freeMap.bits s false →
      Synced w' → Q () w') :
    wp P (freeMapReleaseWith bitmapWrite s 1) Q E w := by
  have hok : FmOk (w.setBits (Function.update w.mem.freeMap.bits s false)) := by
    refine h.setBits ?_ fun f i k π hf hi hn hne => ?_
    · rw [Function.update_of_ne h0.symm]
      exact h.zero.2
    · obtain ⟨i', hi'⟩ := h.file f hf
      obtain rfl : i = i' := Option.some.inj (hi.symm.trans hi'.heap)
      rw [Function.update_of_ne (hfree f i k π hf hi hn)]
      exact (hi'.forest.alloc k π hn hne).1.2
  simp only [freeMapReleaseWith, wp_bind, wp_getMem, Bitmap.contains_one, Bitmap.setMultiple_one]
  have hpass : ¬(w.mem.freeMap.bitCnt < s + 1 ∨ (w.mem.freeMap.bits s == false) = true) := by
    rw [h.bitCnt, hs.2]
    have := hs.1
    simp
    omega
  rw [if_neg hpass]
  simp only [wp_bind, wp_setMem, wp_pure]
  exact hbw (w.setBits (Function.update w.mem.freeMap.bits s false)) _ E hok hfile
    fun disk' hd hsync => hQ _ (.of_setBits hok hd) rfl hsync

end Pintos.Filesys
