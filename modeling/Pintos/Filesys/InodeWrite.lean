import Pintos.Filesys.InodeInv

/-!
# `inode_write_at`

A write to an inode that others may not deny either stores all bytes it is given, after the page has
grown where the write goes past the end (`Wrote`), or finds the device full and stores none
(`NotWrote`).  Either way the invariant holds again and the other inodes are as before (`Touched`).
-/

namespace Pintos.Filesys

open PtrForest

variable {w w₁ w₂ : World} {live : Set ℕ} {p : ℕ} {i : Inode} {d d₁ d₂ : InodeDisk}

/-- A step on the inode `i` at address `p`, which has the page `d` afterwards. -/
structure Touched (live : Set ℕ) (p : ℕ) (i : Inode) (w w' : World) (d : InodeDisk) : Prop where
  ok : InodeOk w' live
  heap : w'.mem.heap = setPage w.mem.heap p i d
  keep : FmKeep w w'
  others : Others live i.sector w w'
  isDir : d.isDir = i.data.isDir
  owned : ∀ t, Owned w' live t → Owned w live t ∨ ¬Allocated w t
  own : ∀ t, Owned w live t → Owned w' live t

theorem Others.trans {s₀ : ℕ} (h₁ : Others live s₀ w w₁) (h₂ : Others live s₀ w₁ w₂) :
    Others live s₀ w w₂ where
  page s hs hne := (h₂.page s hs hne).trans (h₁.page s hs hne)
  sec s hs hne k π hn := by
    have := h₂.sec s hs hne k π hn
    rw [h₁.page s hs hne] at this
    exact this.trans (h₁.sec s hs hne k π hn)
  byte s hs hz hne pos := by
    have := h₂.byte s hs hz hne pos
    rw [h₁.page s hs hne] at this
    exact this.trans (h₁.byte s hs hz hne pos)
  disk s hs hz hne := (h₂.disk s hs hz hne).trans (h₁.disk s hs hz hne)

theorem Touched.of_step (h : InodeOk w live) (hi : w.mem.heap p = some i) (h0 : i.sector ≠ 0)
    (heap : w₁.mem.heap = setPage w.mem.heap p i d) (hmem : MemOk w₁.mem) (keep : FmKeep w w₁)
    (ho : Others live i.sector w w₁) (ht : Itself i.sector w w₁) (isDir : d.isDir = i.data.isDir) :
    Touched live p i w w₁ d where
  ok := h.of_step (h.openLive p i hi) h0 hmem keep
    (fun q j hj => setPage_openLive h hi (by rw [← heap]; exact hj)) ho ht
  heap := heap
  keep := keep
  others := ho
  isDir := isDir
  owned t := by
    rintro (ht' | ⟨s, hs, k, π, hn, rfl, hne⟩)
    · exact .inl (.inl ht')
    · by_cases hss : s = i.sector
      · subst hss
        rcases ht.node k π hn hne with hsame | ⟨hfree, _⟩
        · rw [hsame] at hne ⊢
          exact .inl (.inr ⟨_, hs, k, π, hn, rfl, hne⟩)
        · exact .inr hfree
      · rw [ho.page s hs hss, ho.sec s hs hss k π hn] at hne ⊢
        exact .inl (.inr ⟨s, hs, k, π, hn, rfl, hne⟩)
  own t := by
    rintro (ht' | ⟨s, hs, k, π, hn, rfl, hne⟩)
    · exact .inl ht'
    · refine .inr ⟨s, hs, k, π, hn, ?_, hne⟩
      by_cases hss : s = i.sector
      · subst hss
        exact ht.old k π hn hne
      · rw [ho.page s hs hss, ho.sec s hs hss k π hn]

theorem Touched.open_self (h : Touched live p i w w₁ d) :
    w₁.mem.heap p = some { i with data := d } := by
  rw [h.heap]
  exact Function.update_self _ _ _

theorem Touched.trans (h₁ : Touched live p i w w₁ d₁)
    (h₂ : Touched live p { i with data := d₁ } w₁ w₂ d₂) : Touched live p i w w₂ d₂ where
  ok := h₂.ok
  heap := by
    rw [h₂.heap, h₁.heap]
    exact Function.update_idem _ _ _
  keep := h₁.keep.trans h₂.keep
  others := h₁.others.trans h₂.others
  isDir := h₂.isDir.trans h₁.isDir
  owned t ht := by
    rcases h₂.owned t ht with h | h
    · exact h₁.owned t h
    · exact .inr fun ha => h (h₁.keep.mono t ha)
  own t ht := h₂.own t (h₁.own t ht)

theorem Touched.refl (h : InodeOk w live) (hi : w.mem.heap p = some i) :
    Touched live p i w w i.data where
  ok := h
  heap := (setPage_same hi).symm
  keep := .refl h.fm
  others := ⟨fun _ _ _ => rfl, fun _ _ _ _ _ _ => rfl, fun _ _ _ _ _ => rfl, fun _ _ _ _ => rfl⟩
  isDir := rfl
  owned _ ht := .inl ht
  own _ ht := ht

/-! ### The three steps -/

theorem PageGrown.touched (g : PageGrown (setPage w.mem.heap p i) w i.data w₁ d) (h : InodeOk w live)
    (hi : w.mem.heap p = some i) (h0 : i.sector ≠ 0) (hl : i.data.length ≤ 8517120) :
    Touched live p i w w₁ d := by
  refine .of_step h hi h0 g.heap ?_ g.keep (g.others h hi) (g.itself h hi h0 hl)
    (InodeDisk.isDir_congr g.tail)
  rw [g.world]
  exact h.mem.setPage hi d _

theorem storeLength_touched (h : InodeOk w live) (hi : w.mem.heap p = some i) (h0 : i.sector ≠ 0)
    {len : ℕ} (hlen : i.data.length ≤ len) (hmax : len ≤ 8517120)
    (hblocks : ∀ j, 512 * j < len → dataSec w.disk i.data j ≠ 0) :
    Touched live p i w (storeLength w p i len) (i.data.setLength len) :=
  .of_step h hi h0 rfl (h.mem.setPage hi _ w.mem.freeMap) (storeLength_keep h hi h0 len)
    (storeLength_others h hi h0 len) (storeLength_itself h hi h0 hlen hmax hblocks)
    (InodeDisk.isDir_setLength _ _)

theorem Written.touched {disk' : ℕ → Sector} {ofs size : ℕ} {buf : ℕ → UInt8}
    (hw : Written w.disk i.data ofs size buf disk') (h : InodeOk w live)
    (hi : w.mem.heap p = some i) (h0 : i.sector ≠ 0) (hl : i.data.length ≤ 8517120)
    (hr : (ofs + size : ℕ) ≤ i.data.length) : Touched live p i w { w with disk := disk' } i.data :=
  .of_step h hi h0 (setPage_same hi).symm h.mem (hw.keep h hi h0 (by omega))
    (hw.others h hi h0 (by omega)) (hw.itself h hi h0 hl hr) rfl

/-- The write has stored all bytes. -/
structure Wrote (live : Set ℕ) (p : ℕ) (i : Inode) (ofs size : ℕ) (buf : ℕ → UInt8) (w w' : World)
    (d : InodeDisk) : Prop extends Touched live p i w w' d where
  length : d.length = max i.data.length (ofs + size : ℕ)
  byte : ∀ pos, byteAt w'.disk d pos = Bytes.splice (byteAt w.disk i.data) ofs size buf pos
  needed : ∀ k π, Node pageShape k π → sec w'.disk (d.word k) π ≠ 0 →
    sec w.disk (i.data.word k) π ≠ 0 ∨ NeededNode ((ofs + size + 511) / 512) k π
  zero : w'.disk 0 = w.disk 0
  clean : w.disk i.sector = i.data → w'.disk i.sector = d
  inPlace : (ofs + size : ℕ) ≤ i.data.length → w'.mem = w.mem

/-- The write has found the device full. -/
structure NotWrote (live : Set ℕ) (p : ℕ) (i : Inode) (ofs size : ℕ) (w w' : World)
    (d : InodeDisk) : Prop extends Touched live p i w w' d where
  length : d.length = i.data.length
  byte : ∀ pos, byteAt w'.disk d pos = byteAt w.disk i.data pos
  full : Full w'
  past : i.data.length < (ofs + size : ℕ)

variable {P : Policy} {E : Stop → World → Prop}

theorem stores_storeData {i : Inode} {heap : ℕ → Option Inode} :
    Stores P (storeData p) (setPage heap p i) := by
  intro w d d' Q E hw hQ
  have hp : w.mem.heap p = some { i with data := d } := by
    rw [hw]
    exact Function.update_self _ _ _
  simp only [storeData, wp_bind, wp_deref_some hp, wp_assign, hp]
  rw [hw]
  have hidem : Function.update (setPage heap p i d) p (some { i with data := d' }) =
      setPage heap p i d' := Function.update_idem _ _ _
  rw [hidem]
  exact hQ

/-- The write loop after the file has its final length. -/
theorem wp_inodeWriteLoop_ok (hP : P.NoFail) (h : InodeOk w live) (hi : w.mem.heap p = some i)
    (h0 : i.sector ≠ 0) (hl : i.data.length ≤ 8517120) {ofs size : ℕ} {buf : ℕ → UInt8}
    (hr : (ofs + size : ℕ) ≤ i.data.length) {Q : ℤ → World → Prop}
    (hQ : ∀ disk', Written w.disk i.data ofs size buf disk' →
      Touched live p i w { w with disk := disk' } i.data → Q size { w with disk := disk' }) :
    wp P (inodeWriteLoop p (size : ℤ).toNat buf size ofs false) Q E w := by
  obtain ⟨len, hlen⟩ := h.open_length hi
  exact wp_inodeWriteLoop hP hlen (by omega) _ size ofs buf false w Q hi (h.open_mapped hi hl)
    (h.open_forest hi h0) (by simp) (by omega) fun disk' hw => hQ disk' hw (hw.touched h hi h0 hl hr)

/-- A write inside the file does not touch the header of a file. -/
theorem Written.header (h : InodeOk w live) (hi : w.mem.heap p = some i)
    (hl : i.data.length ≤ 8517120) {disk' : ℕ → Sector} {ofs size : ℕ} {buf : ℕ → UInt8}
    (hw : Written w.disk i.data ofs size buf disk')
    (hr : (ofs + size : ℕ) ≤ i.data.length) {s : ℕ} (hs : s ∈ live) : disk' s = w.disk s := by
  have hpage := page_of_open h.mem hi
  refine hw.frame s fun k hk _ heq => ?_
  have hpres := h.open_mapped hi hl k (by omega)
  have hne := hpres.ne_zero
  rw [← hpage] at heq hne
  exact (h.node _ (h.openLive p i hi) _ _ (leaf_node hpres.lt).1 hne).2
    (by rw [dataSec] at heq; rwa [heq])

/-- The part of `inode_write_at` that makes the file longer. -/
theorem wp_extend (hP : P.NoFail) {bitmapWrite : Fs Bool} (hbw : WritesMap P bitmapWrite)
    (h : InodeOk w live) (hi : w.mem.heap p = some i) (h0 : i.sector ≠ 0)
    (hl : i.data.length ≤ 8517120) {ofs size : ℕ} {buf : ℕ → UInt8} (hmax : ofs + size ≤ 8517120)
    (hpast : i.data.length < (ofs + size : ℕ))
    {Q : ℤ → World → Prop}
    (hok : ∀ w' d, Wrote live p i ofs size buf w w' d → Q size w')
    (hno : P.noSector → ∀ w' d, NotWrote live p i ofs size w w' d → Q 0 w') :
    wp P (do
      let i ← deref p
      let (ok, d) ← inodeReserveWith bitmapWrite (storeData p) i.data ((ofs + size : ℕ) : ℤ)
      if !ok then
        return 0
      else
        let i ← deref p
        assign p { i with data := d.setLength ((ofs + size : ℕ) : ℤ) }
        bufferCacheWrite i.sector (d.setLength ((ofs + size : ℕ) : ℤ))
        inodeWriteLoop p (size : ℤ).toNat buf size ofs false) Q E w := by
  have hblocks : (bytesToSectors ((ofs + size : ℕ) : ℤ)).toNat = (ofs + size + 511) / 512 := by
    rw [bytesToSectors_of_le (by omega)]
    omega
  have hfile : ∀ f d d', w.mem.freeMapFile = some f →
      setPage w.mem.heap p i d f.inode = setPage w.mem.heap p i d' f.inode := fun f d d' hf => by
    unfold setPage
    rw [Function.update_of_ne (h.fm_addr_ne hi h0 hf), Function.update_of_ne (h.fm_addr_ne hi h0 hf)]
  simp only [wp_bind, wp_deref_some hi]
  refine wp_inodeReserveWith hbw stores_storeData h.fm (setPage_same hi).symm (h.open_forest hi h0)
    hfile (by omega) (fun hbig => ?_) fun ok d w₁ hr => ?_
  · rw [bytesToSectors_of_le (by omega)] at hbig
    omega
  have ht₁ := hr.touched h hi h0 hl
  have hlen₁ := InodeDisk.length_congr hr.tail
  have hbyte₁ := hr.toPageGrown.byteAt (h.open_forest hi h0)
  cases ok with
  | false =>
    obtain ⟨hfull, hfail⟩ := hr.full rfl
    exact (wp_pure _).mpr (hno hfail w₁ d ⟨ht₁, hlen₁, hbyte₁, hfull, hpast⟩)
  | true =>
    have hi₁ := ht₁.open_self
    have hs₁ : i.sector < w₁.mem.fsSize := (ht₁.ok.alloc _ (ht₁.ok.openLive p _ hi₁)).1
    simp only [Bool.not_true, Bool.false_eq_true, if_false, wp_bind, wp_deref_some hi₁, wp_assign, hi₁,
      wp_bufferCacheWrite, if_pos hs₁]
    have hb₁ : ∀ j, 512 * j < ofs + size → dataSec w₁.disk d j ≠ 0 := fun j hj => by
      refine hr.blocks rfl j ?_
      rw [hblocks]
      omega
    have ht₂ : Touched live p { i with data := d } w₁ (storeLength w₁ p { i with data := d } (ofs + size))
        (d.setLength (ofs + size : ℕ)) :=
      storeLength_touched ht₁.ok hi₁ h0 (by show d.length ≤ _; omega) hmax hb₁
    have hi₂ := ht₂.open_self
    have hlen₂ : (d.setLength (ofs + size : ℕ)).length = (ofs + size : ℕ) :=
      InodeDisk.length_setLength d (by omega)
    have hl₂ : (d.setLength (ofs + size : ℕ)).length ≤ 8517120 := by omega
    refine wp_inodeWriteLoop_ok hP ht₂.ok hi₂ h0 hl₂ (by show _ ≤ (d.setLength _).length; omega)
      fun disk' hw ht₃ => ?_
    refine hok _ _ ⟨(ht₁.trans ht₂).trans ht₃, ?_, fun pos => ?_, fun k π hn hne => ?_, ?_,
      fun _ => ?_, fun hle => by omega⟩
    · rw [hlen₂]
      omega
    · have hbyte₂ := storeLength_byteAt ht₁.ok hi₁ (ofs + size)
      show byteAt disk' _ pos = _
      rw [hw.byte pos]
      unfold Bytes.splice
      split
      · rfl
      · rw [hbyte₂ pos, hbyte₁ pos]
    · have h₃ := sec_of_data_change (ht₂.ok.open_forest hi₂ h0) (fun s => hw.other (by omega)) hn
      have hne' : sec disk' ((d.setLength (ofs + size : ℕ)).word k) π ≠ 0 := hne
      have h₂ : sec (storeLength w₁ p { i with data := d } (ofs + size)).disk
          ((d.setLength (ofs + size : ℕ)).word k) π = sec w₁.disk (d.word k) π :=
        storeLength_sec ht₁.ok hi₁ (ofs + size) hn
      rw [h₃, h₂] at hne'
      have := hr.needed rfl k π hn hne'
      rwa [hblocks] at this
    · have h₃ := hw.header ht₂.ok hi₂ hl₂ (by show _ ≤ (d.setLength _).length; omega) h.zero
      show disk' 0 = w.disk 0
      rw [h₃, ← hr.zero rfl]
      exact Function.update_of_ne (Ne.symm h0) _ _
    · have h₃ := hw.header ht₂.ok hi₂ hl₂ (by show _ ≤ (d.setLength _).length; omega)
        (h.openLive p i hi)
      show disk' i.sector = _
      rw [h₃]
      exact Function.update_self _ _ _

/-- **`inode_write_at`** with a free range of bytes, on an inode that is not the free map file. -/
theorem wp_inodeWriteAtDepth (hP : P.NoFail) (depth : ℕ) (h : InodeOk w live)
    (hi : w.mem.heap p = some i) (h0 : i.sector ≠ 0) (hl : i.data.length ≤ 8517120)
    (hallow : i.denyWriteCnt = 0) {ofs size : ℕ} {buf : ℕ → UInt8} (hsize : 0 < size)
    (hmax : ofs + size ≤ 8517120) {Q : ℤ → World → Prop}
    (hok : ∀ w' d, Wrote live p i ofs size buf w w' d → Q size w')
    (hno : P.noSector → ∀ w' d, NotWrote live p i ofs size w w' d → Q 0 w') :
    wp P (inodeWriteAtDepth (depth + 2) p buf size ofs) Q E w := by
  obtain ⟨len, hlen⟩ := h.open_length hi
  have hmapped := h.open_mapped hi hl
  have hsum : wrap32 ((ofs : ℤ) + (size : ℤ)) = ((ofs + size : ℕ) : ℤ) := by
    rw [wrap32_of_mem (by omega) (by omega)]
    omega
  have hlast : wrap32 (((ofs + size : ℕ) : ℤ) - 1) = ((ofs + size - 1 : ℕ) : ℤ) := by
    rw [wrap32_of_mem (by omega) (by omega)]
    omega
  rw [inodeWriteAtDepth]
  simp only [wp_bind, wp_deref_some hi]
  rw [if_neg (by simp [hallow]), hsum, hlast, wp_bind]
  refine wp_byteToSector hP hi hmapped (fun hlt => ?_) (fun hge => ?_)
  · have hpres := hmapped ((ofs + size - 1) / 512) (by omega)
    have hne : dataSec w.disk i.data ((ofs + size - 1) / 512) ≠ 2 ^ 32 - 1 := by
      have := hpres.dataSec_lt
      have := h.fm.fsSize
      omega
    rw [if_neg hne]
    have hr : (ofs + size : ℕ) ≤ i.data.length := by omega
    refine wp_inodeWriteLoop_ok hP h hi h0 hl hr fun disk' hw ht =>
      hok _ _ ⟨ht, ?_, hw.byte, fun k π hn hne => .inl ?_, ?_, ?_, ?_⟩
    · omega
    · have hsec := sec_of_data_change (h.open_forest hi h0) (fun s => hw.other (by omega)) hn
      have hne' : sec disk' (i.data.word k) π ≠ 0 := hne
      rwa [hsec] at hne'
    · exact hw.header h hi hl hr h.zero
    · intro hc
      exact (hw.header h hi hl hr (h.openLive p i hi)).trans hc
    · exact fun _ => rfl
  · rw [if_pos rfl]
    exact wp_extend hP (writesMap_bitmapWriteWith hP depth) h hi h0 hl hmax (by omega) hok hno

theorem wp_inodeWriteAt (hP : P.NoFail) (h : InodeOk w live) (hi : w.mem.heap p = some i)
    (h0 : i.sector ≠ 0) (hl : i.data.length ≤ 8517120) (hallow : i.denyWriteCnt = 0) {ofs size : ℕ}
    {buf : ℕ → UInt8} (hsize : 0 < size) (hmax : ofs + size ≤ 8517120) {Q : ℤ → World → Prop}
    (hok : ∀ w' d, Wrote live p i ofs size buf w w' d → Q size w')
    (hno : P.noSector → ∀ w' d, NotWrote live p i ofs size w w' d → Q 0 w') :
    wp P (inodeWriteAt p buf size ofs) Q E w :=
  wp_inodeWriteAtDepth hP 1 h hi h0 hl hallow hsize hmax hok hno

/-- Blocks may have been added, but the file is as it was. -/
structure Stretched (live : Set ℕ) (p : ℕ) (i : Inode) (w w' : World) (d : InodeDisk) : Prop
    extends Touched live p i w w' d where
  length : d.length = i.data.length
  byte : ∀ pos, byteAt w'.disk d pos = byteAt w.disk i.data pos

/-- **`inode_write_at`** of a range that ends behind the largest file: the process exits, unless the
device is full before that. -/
theorem wp_inodeWriteAt_past (hP : P.NoFail) (h : InodeOk w live) (hi : w.mem.heap p = some i)
    (h0 : i.sector ≠ 0) (hl : i.data.length ≤ 8517120) (hallow : i.denyWriteCnt = 0) {ofs size : ℕ}
    {buf : ℕ → UInt8} (hmin : 8517120 < ofs + size) (hmax : ofs + size ≤ 2147483136)
    {Q : ℤ → World → Prop} (hE : ∀ w' d, Stretched live p i w w' d → E (.exit (-1)) w')
    (hno : P.noSector → ∀ w' d, NotWrote live p i ofs size w w' d → Q 0 w') :
    wp P (inodeWriteAt p buf size ofs) Q E w := by
  have hmapped := h.open_mapped hi hl
  have hsum : wrap32 ((ofs : ℤ) + (size : ℤ)) = ((ofs + size : ℕ) : ℤ) := by
    rw [wrap32_of_mem (by omega) (by omega)]
    omega
  have hlast : wrap32 (((ofs + size : ℕ) : ℤ) - 1) = ((ofs + size - 1 : ℕ) : ℤ) := by
    rw [wrap32_of_mem (by omega) (by omega)]
    omega
  have hblocks : bytesToSectors ((ofs + size : ℕ) : ℤ) = ((ofs + size + 511) / 512 : ℕ) :=
    bytesToSectors_of_le hmax
  have hfile : ∀ f d d', w.mem.freeMapFile = some f →
      setPage w.mem.heap p i d f.inode = setPage w.mem.heap p i d' f.inode := fun f d d' hf => by
    unfold setPage
    rw [Function.update_of_ne (h.fm_addr_ne hi h0 hf), Function.update_of_ne (h.fm_addr_ne hi h0 hf)]
  rw [inodeWriteAt, callDepth, inodeWriteAtDepth]
  simp only [wp_bind, wp_deref_some hi]
  rw [if_neg (by simp [hallow]), hsum, hlast, wp_bind]
  refine wp_byteToSector hP hi hmapped (fun hlt => by omega) fun _ => ?_
  rw [if_pos rfl]
  simp only [wp_bind, wp_deref_some hi]
  refine wp_inodeReserveWith (writesMap_bitmapWriteWith hP 1) stores_storeData h.fm (setPage_same hi).symm
    (h.open_forest hi h0) hfile (by omega) (fun _ d w₁ hg => ?_) fun ok d w₁ hr => ?_
  · exact hE w₁ d ⟨hg.touched h hi h0 hl, InodeDisk.length_congr hg.tail, hg.byteAt (h.open_forest hi h0)⟩
  · cases ok with
    | false =>
      obtain ⟨hfull, hfail⟩ := hr.full rfl
      exact (wp_pure _).mpr (hno hfail w₁ d ⟨hr.touched h hi h0 hl, InodeDisk.length_congr hr.tail,
        hr.toPageGrown.byteAt (h.open_forest hi h0), hfull, by omega⟩)
    | true =>
      -- no page has a block with this number
      have hne := hr.blocks rfl 16635 (by rw [hblocks]; omega)
      exact absurd (dataSec_ge (le_refl _)) hne

/-- A write to an inode that is denied to writers stores nothing. -/
theorem wp_inodeWriteAt_denied (hi : w.mem.heap p = some i) (hdeny : i.denyWriteCnt ≠ 0) {ofs size : ℤ}
    {buf : ℕ → UInt8} {Q : ℤ → World → Prop} (hQ : Q 0 w) :
    wp P (inodeWriteAt p buf size ofs) Q E w := by
  rw [inodeWriteAt, callDepth, inodeWriteAtDepth]
  simp only [wp_bind, wp_deref_some hi]
  rw [if_pos hdeny, wp_pure]
  exact hQ

/-- The free map is written by `bitmap_write`. -/
theorem writesMap_bitmapWrite (hP : P.NoFail) : WritesMap P bitmapWrite :=
  writesMap_bitmapWriteWith hP 2

end Pintos.Filesys
