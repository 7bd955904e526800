import Pintos.Filesys.Drawing
import Pintos.Filesys.Reservation

/-!
# Writes that store nothing

`inode_write_at` returns 0 when the inode is denied to writers, for an empty range, and when the device has not the
sectors to reach the end of the range.  In the last case the growth has already happened as far as the sectors went, and
an empty range behind the end of the file makes the file longer all the same.

* `Unchanged` is what a write that stores nothing is expected to leave alone.
* `unchanged_of_full` says that this is so if there was no free sector to begin with.
* `empty_write_iff` is the exact condition.
-/

namespace Pintos.Filesys

open PtrForest

variable {w w₁ w' : World} {live : Set ℕ} {p : ℕ} {i : Inode} {d : InodeDisk} {ofs size : ℕ} {buf : ℕ → UInt8}

/-- The inode `i` at address `p` is as it was: its length and block pointers in memory, the index blocks under them, its
bytes and its header on the disk.  So is the free map: the sectors in use, the header of its file, and that the file
holds it. -/
structure Unchanged (w : World) (p : ℕ) (i : Inode) (w' : World) : Prop where
  inode : w'.mem.heap p = some i
  blocks : ∀ k π, Node pageShape k π → sec w'.disk (i.data.word k) π = sec w.disk (i.data.word k) π
  byte : ∀ pos, byteAt w'.disk i.data pos = byteAt w.disk i.data pos
  header : w'.disk i.sector = w.disk i.sector
  used : ∀ s, Allocated w' s ↔ Allocated w s
  mapHeader : w'.disk freeMapSector = w.disk freeMapSector
  mapSaved : Synced w → Synced w'

theorem Unchanged.refl (hi : w.mem.heap p = some i) : Unchanged w p i w :=
  ⟨hi, fun _ _ _ => rfl, fun _ => rfl, rfl, fun _ => Iff.rfl, rfl, id⟩

/-- A write that returns 0 has changed nothing, and one that ends behind the largest file returns 0. -/
def ChangesNothing (w : World) (p : ℕ) (i : Inode) (buf : ℕ → UInt8) (size ofs : ℕ) : Prop :=
  ∀ r w', Runs .memory (inodeWriteAt p buf size ofs) w r w' → r = .ok 0 ∨ 8517120 < ofs + size →
    r = .ok 0 ∧ Unchanged w p i w'

theorem ChangesNothing.of_wp (h : wp .memory (inodeWriteAt p buf size ofs) (fun r w' => r = 0 ∧ Unchanged w p i w')
    (fun _ _ => False) w) : ChangesNothing w p i buf size ofs := by
  intro r w' hrun _
  have hsat := wp_iff_runs.mp h r w' hrun
  cases r with
  | ok n => exact ⟨congrArg _ hsat.1, hsat.2⟩
  | error e => exact absurd hsat id

/-! ### Without free sectors -/

/-- A page that has grown on a full device is the page it was. -/
theorem PageGrown.same_page {H : InodeDisk → ℕ → Option Inode} {page page' : InodeDisk}
    (h : PageGrown H w page w' page') (hfull : Full w) :
    (∀ k π, Node pageShape k π → sec w'.disk (page'.word k) π = sec w.disk (page.word k) π) ∧ page' = page := by
  have hsec : ∀ k π, Node pageShape k π → sec w'.disk (page'.word k) π = sec w.disk (page.word k) π := by
    intro k π hn
    by_cases hold : sec w.disk (page.word k) π = 0
    · rw [hold]
      by_contra hne
      obtain ⟨hfree, halloc⟩ := h.grow.fresh k π hn hold hne
      have hlt := halloc.1
      rw [h.keep.fsSize] at hlt
      exact hfree (hfull _ hlt)
    · exact h.grow.old k π hn hold
  refine ⟨hsec, Block.ext ?_⟩
  intro j hj
  by_cases htail : 500 ≤ j
  · exact h.tail j htail
  · have hroot : Node pageShape (j / 4) [] := ⟨by show j / 4 < 125; omega, Nat.zero_le _, by simp⟩
    exact Block.get_eq_of_word (hsec _ _ hroot) (by omega) (by omega) hj

/-- A growth that has failed on a full device has changed nothing, if it has left sector 0 alone. -/
theorem unchanged_of_full (h : InodeOk w live) (hi : w.mem.heap p = some i) (h0 : i.sector ≠ 0) (hfull : Full w)
    (hg : PageGrown (setPage w.mem.heap p i) w i.data w' d) (hzero : w'.disk 0 = w.disk 0) : Unchanged w p i w' := by
  obtain ⟨hsec, rfl⟩ := hg.same_page hfull
  refine ⟨?_, hsec, hg.byteAt (h.open_forest hi h0), hg.disk_self h hi h0, fun s => ⟨?_, hg.keep.mono s⟩, hzero,
    hg.keep.sync⟩
  · rw [hg.heap]
    exact Function.update_self _ _ _
  · intro hs
    have hlt := hs.1
    rw [hg.keep.fsSize] at hlt
    exact hfull s hlt

/-! ### Writing without growth -/

/-- The blocks of any open inode are allocated, none twice. -/
theorem InodeOk.open_tree (h : InodeOk w live) (hi : w.mem.heap p = some i) :
    Ok pageShape (fun _ => False) (Allocated w) w.disk i.data.word := by
  have hlive := h.openLive p i hi
  rw [← page_of_open h.mem hi]
  refine ⟨fun k π hn hne => ⟨(h.node _ hlive k π hn hne).1, id⟩, fun k π k' π' hn hn' heq hne => ?_⟩
  exact (h.inj _ hlive _ hlive k π k' π' hn hn' heq hne).2

/-- A direct block is not the sector number -1. -/
theorem InodeOk.dirBlock_ne (h : InodeOk w live) (hi : w.mem.heap p = some i) : i.data.dirBlock 0 ≠ 2 ^ 32 - 1 := by
  intro heq
  have hroot : Node pageShape 2 [] := ⟨by decide, Nat.zero_le _, by simp⟩
  have hword : i.data.word 2 = 2 ^ 32 - 1 := heq
  have halloc := ((h.open_tree hi).alloc 2 [] hroot (by show i.data.word 2 ≠ 0; omega)).1.1
  have hlt : i.data.word 2 < w.mem.fsSize := halloc
  have := h.fm.fsSize
  omega

/-- Just before the start of a file `byte_to_sector` gives its first block. -/
theorem wp_byteToSector_before (h : InodeOk w live) (hi : w.mem.heap p = some i) {pos : ℤ} (hneg : pos < 0)
    (hpos : -512 < pos) :
    wp .memory (byteToSector p pos) (fun s w' => s ≠ 2 ^ 32 - 1 ∧ w = w') (fun _ _ => False) w := by
  obtain ⟨len, hlen⟩ := h.open_length hi
  have hdiv : pos.tdiv 512 = 0 := by
    rw [← Int.neg_inj, ← Int.neg_tdiv, Int.neg_zero]
    exact Int.tdiv_eq_zero_of_lt (by omega) (by omega)
  simp only [byteToSector, wp_bind, wp_deref_some hi]
  rw [if_pos (by omega), hdiv, sectorNumber, if_pos (by decide), if_neg (by decide), wp_pure]
  exact ⟨h.dirBlock_ne hi, rfl⟩

/-- Inside the file there is a block for the last byte of a range. -/
theorem wp_byteToSector_last (h : InodeOk w live) (hi : w.mem.heap p = some i) (hl : i.data.length ≤ 8517120)
    (hr : (ofs + size : ℕ) ≤ i.data.length) :
    wp .memory (byteToSector p (wrap32 (wrap32 ((ofs : ℤ) + (size : ℤ)) - 1))) (fun s w' => s ≠ 2 ^ 32 - 1 ∧ w = w')
      (fun _ _ => False) w := by
  have hsum : wrap32 (wrap32 ((ofs : ℤ) + (size : ℤ)) - 1) = (ofs + size : ℕ) - 1 := by
    have h₁ : wrap32 ((ofs : ℤ) + (size : ℤ)) = (ofs + size : ℕ) := by
      rw [wrap32_of_mem (by omega) (by omega)]
      omega
    rw [h₁, wrap32_of_mem (by omega) (by omega)]
  rw [hsum]
  by_cases hzero : ofs + size = 0
  · exact wp_byteToSector_before h hi (by omega) (by omega)
  · have hcast : ((ofs + size : ℕ) : ℤ) - 1 = ((ofs + size - 1 : ℕ) : ℤ) := by omega
    have hmapped := h.open_mapped hi hl
    rw [hcast]
    refine wp_byteToSector Policy.memory_noFail hi hmapped (fun _ => ⟨?_, rfl⟩) fun hge => by omega
    have hpres := hmapped ((ofs + size - 1) / 512) (by omega)
    have := hpres.dataSec_lt
    have := h.fm.fsSize
    omega

/-- Inside the file a write stores all its bytes, and changes nothing if there are none. -/
theorem wp_inodeWriteAt_within (h : InodeOk w live) (hi : w.mem.heap p = some i) (hl : i.data.length ≤ 8517120)
    (hallow : i.denyWriteCnt = 0) (hr : (ofs + size : ℕ) ≤ i.data.length) :
    wp .memory (inodeWriteAt p buf size ofs) (fun r w' => r = size ∧ (size = 0 → w = w')) (fun _ _ => False) w := by
  obtain ⟨len, hlen⟩ := h.open_length hi
  rw [inodeWriteAt, callDepth, inodeWriteAtDepth]
  simp only [wp_bind, wp_deref_some hi]
  rw [if_neg (by simp [hallow]), wp_bind]
  apply wp_mono_ret (wp_byteToSector_last h hi hl hr)
  rintro s _ ⟨hs, rfl⟩
  rw [if_neg hs]
  by_cases hsize : size = 0
  · subst hsize
    exact (wp_pure _).mpr ⟨rfl, fun _ => rfl⟩
  · refine wp_inodeWriteLoop Policy.memory_noFail hlen (by omega) _ size ofs buf false w _ hi (h.open_mapped hi hl)
      (h.open_tree hi) (by simp) (by omega) fun disk' _ => ⟨rfl, fun h0 => absurd h0 hsize⟩

/-! ### Programs that keep memory -/

/-- From memory `m`, the program returns with memory `m`. -/
def KeepsMem {α : Type} (m : Mem) (p : Fs α) : Prop :=
  ∀ w, w.mem = m → wp .memory p (fun _ w' => w'.mem = m) (fun _ _ => True) w

namespace KeepsMem

variable {α β : Type} {m : Mem}

theorem pure (a : α) : KeepsMem m (pure a) := by
  intro w hw
  exact (wp_pure a).mpr hw

theorem stop (r : Stop) : KeepsMem m (.stop r : Fs α) := by
  intro w _
  exact (wp_stop r).mpr trivial

theorem bind {p : Fs β} {f : β → Fs α} (hp : KeepsMem m p) (hf : ∀ b, KeepsMem m (f b)) : KeepsMem m (p >>= f) := by
  intro w hw
  exact wp_seq (hp w hw) fun b w' hw' => hf b w' hw'

theorem deref (p : ℕ) : KeepsMem m (deref p) := by
  intro w hw
  rw [wp_deref]
  split
  · exact hw
  · trivial

theorem malloc : KeepsMem m malloc := by
  intro w hw
  rw [wp_malloc]
  intro _ _
  exact hw

theorem bufferCacheRead (s : ℕ) : KeepsMem m (bufferCacheRead s) := by
  intro w hw
  rw [wp_bufferCacheRead]
  split
  · exact hw
  · trivial

theorem bufferCacheWrite (s : ℕ) (b : Sector) : KeepsMem m (bufferCacheWrite s b) := by
  intro w hw
  rw [wp_bufferCacheWrite]
  split
  · exact hw
  · trivial

theorem sectorNumber (d : InodeDisk) (index : ℤ) : KeepsMem m (sectorNumber d index) := by
  unfold Pintos.Filesys.sectorNumber
  split
  · split
    · exact .stop _
    · exact .pure _
  · split
    · apply KeepsMem.malloc.bind
      intro b
      split
      · exact (KeepsMem.bufferCacheRead _).bind fun _ => .pure _
      · exact .stop _
    · split
      · apply KeepsMem.malloc.bind
        intro b
        split
        · apply (KeepsMem.bufferCacheRead _).bind
          intro _
          exact (KeepsMem.bufferCacheRead _).bind fun _ => .pure _
        · exact .stop _
      · exact .pure _

theorem byteToSector (p : ℕ) (pos : ℤ) : KeepsMem m (byteToSector p pos) := by
  apply (KeepsMem.deref p).bind
  intro i
  split
  · exact .sectorNumber _ _
  · exact .pure _

theorem inodeWriteLoop (p : ℕ) (fuel : ℕ) : ∀ buf size ofs bounce,
    KeepsMem m (inodeWriteLoop p fuel buf size ofs bounce) := by
  induction fuel with
  | zero =>
    intro buf size ofs bounce
    exact .pure _
  | succ fuel ih =>
    intro buf size ofs bounce
    have hrest : ∀ (c : ℤ) buf size ofs bounce, KeepsMem m (do
        let rest ← Pintos.Filesys.inodeWriteLoop p fuel buf size ofs bounce
        return c + rest) := fun c buf size ofs bounce => (ih buf size ofs bounce).bind fun _ => .pure _
    unfold Pintos.Filesys.inodeWriteLoop
    split
    · exact .pure _
    apply (KeepsMem.byteToSector _ _).bind
    intro s
    apply ((KeepsMem.deref p).bind fun _ => .pure _).bind
    intro l
    dsimp only
    split
    · exact .pure _
    split
    · exact (KeepsMem.bufferCacheWrite _ _).bind fun _ => hrest _ _ _ _ _
    have hblock : ∀ allocated : Bool, KeepsMem m (if !allocated then (Pure.pure 0 : Fs ℤ) else do
        let b ← if ofs.tmod 512 > 0 ∨ min size (min (wrap32 (l - ofs)) (512 - ofs.tmod 512)) < 512 - ofs.tmod 512 then
            Pintos.Filesys.bufferCacheRead s
          else Pure.pure Block.zero
        if ofs.tmod 512 < 0 then
          .stop .outOfBounds
        else
          Pintos.Filesys.bufferCacheWrite s (b.splice (ofs.tmod 512).toNat
            (min size (min (wrap32 (l - ofs)) (512 - ofs.tmod 512))).toNat buf)
          let rest ← Pintos.Filesys.inodeWriteLoop p fuel
            (fun i => buf (i + (min size (min (wrap32 (l - ofs)) (512 - ofs.tmod 512))).toNat))
            (size - min size (min (wrap32 (l - ofs)) (512 - ofs.tmod 512)))
            (ofs + min size (min (wrap32 (l - ofs)) (512 - ofs.tmod 512))) true
          return min size (min (wrap32 (l - ofs)) (512 - ofs.tmod 512)) + rest) := by
      intro allocated
      split
      · exact .pure _
      · dsimp only
        split
        · apply (KeepsMem.bufferCacheRead _).bind
          intro b
          split
          · exact .stop _
          · exact (KeepsMem.bufferCacheWrite _ _).bind fun _ => hrest _ _ _ _ _
        · split
          · exact .stop _
          · exact (KeepsMem.bufferCacheWrite _ _).bind fun _ => hrest _ _ _ _ _
    split
    · exact hblock true
    · exact KeepsMem.malloc.bind hblock

end KeepsMem

/-! ### Writing with growth -/

/-- What `inode_write_at` does after a reservation that has given the page `d`. -/
def writeGrown (p : ℕ) (buf : ℕ → UInt8) (size ofs len : ℤ) (d : InodeDisk) : Fs ℤ := do
  let i ← deref p
  assign p { i with data := d.setLength len }
  bufferCacheWrite i.sector (d.setLength len)
  inodeWriteLoop p size.toNat buf size ofs false

/-- The file has its new length, whatever the loop stores. -/
theorem wp_writeGrown (hi : w.mem.heap p = some i) {len : ℕ} (hlen : len < 2 ^ 31) :
    wp .memory (writeGrown p buf size ofs len d) (fun _ w' => ∃ j, w'.mem.heap p = some j ∧ j.data.length = len)
      (fun _ _ => True) w := by
  have hnew : (d.setLength len).length = len := InodeDisk.length_setLength d hlen
  simp only [writeGrown, wp_bind, wp_deref_some hi, wp_assign, hi, wp_bufferCacheWrite]
  split
  · apply wp_mono_ret (KeepsMem.inodeWriteLoop p _ buf size ofs false _ rfl)
    intro _ w' hw'
    refine ⟨{ i with data := d.setLength len }, ?_, hnew⟩
    rw [hw']
    exact Function.update_self _ _ _
  · trivial

/-- An empty range stores nothing. -/
theorem wp_writeGrown_empty (hi : w.mem.heap p = some i) (hs : i.sector < w.mem.fsSize) {len : ℕ} (hlen : len < 2 ^ 31) :
    wp .memory (writeGrown p buf (0 : ℕ) ofs len d)
      (fun r w' => r = 0 ∧ ∃ j, w'.mem.heap p = some j ∧ j.data.length = len) (fun _ _ => False) w := by
  simp only [writeGrown, wp_bind, wp_deref_some hi, wp_assign, hi, wp_bufferCacheWrite]
  rw [if_pos (by exact hs)]
  exact (wp_pure _).mpr ⟨rfl, _, Function.update_self _ _ _, InodeDisk.length_setLength d hlen⟩

/-- Sector 0 is the only one that a growing file may not write. -/
theorem permits_ne_zero (hw : FmOk w) : Permits (fun s => s ≠ 0) w where
  free s _ hfree := by
    rintro rfl
    exact hfree hw.zero
  data s hs := by
    obtain ⟨_, _, _, _, _, _, _, h0⟩ := hs
    exact h0
  zero h := h rfl

theorem storeData_writes (S : ℕ → Prop) (d : InodeDisk) (w : World) : WritesIn S (storeData p d) w := by
  apply (WritesIn.deref p).then
  intro _ _
  exact .assign _ _

/-- A write that makes a file longer, one that is not the free map's: its range ends behind the file, at an offset of type
`int`. -/
structure Growing (w : World) (live : Set ℕ) (p : ℕ) (i : Inode) (size ofs : ℕ) : Prop where
  ok : InodeOk w live
  heap : w.mem.heap p = some i
  ne_zero : i.sector ≠ 0
  length : i.data.length ≤ 8517120
  allow : i.denyWriteCnt = 0
  past : i.data.length < (ofs + size : ℕ)
  max : ofs + size < 2 ^ 31

/-- The blocks it needs. -/
abbrev lacking (w : World) (i : Inode) (size ofs : ℕ) : List Bool := missingBlocks w.disk i.data (ofs + size : ℕ)

/-- A write behind the end of the file reserves blocks first.  If the free sectors suffice, it goes on; otherwise it
returns 0, and sector 0 may be gone. -/
theorem wp_inodeWriteAt_grow (hg : Growing w live p i size ofs) {Q : ℤ → World → Prop} {E : Stop → World → Prop}
    (hgrown : (lacking w i size ofs).length ≤ freeCount w → ∀ d w₁, PageGrown (setPage w.mem.heap p i) w i.data w₁ d →
      wp .memory (writeGrown p buf size ofs (ofs + size : ℕ) d) Q E w₁)
    (hexit : (lacking w i size ofs).length ≤ freeCount w → 16635 < bytesToSectors (ofs + size : ℕ) →
      ∀ w₁, E (.exit (-1)) w₁)
    (hshort : ∀ hm : freeCount w < (lacking w i size ofs).length, ∀ d w₁,
      PageGrown (setPage w.mem.heap p i) w i.data w₁ d → Full w₁ →
      Sector0 w (lacking w i size ofs)[freeCount w] w₁ → Q 0 w₁) :
    wp .memory (inodeWriteAt p buf size ofs) Q E w := by
  obtain ⟨h, hi, h0, hl, hallow, hpast, hmax⟩ := hg
  obtain ⟨len, hlen⟩ := h.open_length hi
  have hsum : wrap32 ((ofs : ℤ) + (size : ℤ)) = ((ofs + size : ℕ) : ℤ) := by
    rw [wrap32_of_mem (by omega) (by omega)]
    omega
  have hlast : wrap32 (((ofs + size : ℕ) : ℤ) - 1) = ((ofs + size - 1 : ℕ) : ℤ) := by
    rw [wrap32_of_mem (by omega) (by omega)]
    omega
  have hfile : ∀ f d d', w.mem.freeMapFile = some f →
      setPage w.mem.heap p i d f.inode = setPage w.mem.heap p i d' f.inode := by
    intro f d d' hf
    unfold setPage
    rw [Function.update_of_ne (h.fm_addr_ne hi h0 hf), Function.update_of_ne (h.fm_addr_ne hi h0 hf)]
  have hP := Policy.memory_noFail
  have hdraws : Draws (fun s => s ≠ 0)
      (inodeReserveWith (bitmapWriteWith (inodeWriteAtDepth 2)) (storeData p) i.data ((ofs + size : ℕ) : ℤ)) w
      (missingBlocks w.disk i.data (ofs + size : ℕ)) (fun r _ => r.1 = true)
      (fun x r w' => r.1 = false ∧ Sector0 w x w')
      fun e _ => e = .exit (-1) ∧ 16635 < bytesToSectors (ofs + size : ℕ) :=
    draws_inodeReserveWith (writesMap_bitmapWriteWith hP 1) (mapWrites_bitmapWriteWith _ 1) stores_storeData
      (storeData_writes _) h.fm (setPage_same hi).symm (h.open_forest hi h0) hfile (permits_ne_zero h.fm)
      (fun _ _ _ _ _ hne => hne) (by omega)
  have hreserved : wp .memory
      (inodeReserveWith (bitmapWriteWith (inodeWriteAtDepth 2)) (storeData p) i.data ((ofs + size : ℕ) : ℤ))
      (fun r w₁ => PageGrown (setPage w.mem.heap p i) w i.data w₁ r.2 ∧ (r.1 = false → Full w₁)) (fun _ _ => True) w := by
    refine wp_inodeReserveWith (writesMap_bitmapWriteWith hP 1) stores_storeData h.fm (setPage_same hi).symm
      (h.open_forest hi h0) hfile (by omega) (fun _ _ _ _ => trivial) fun ok d w₁ hr => ?_
    exact ⟨hr.toPageGrown, fun hno => (hr.full hno).1⟩
  rw [inodeWriteAt, callDepth, inodeWriteAtDepth]
  simp only [wp_bind, wp_deref_some hi]
  rw [if_neg (by simp [hallow]), hsum, hlast, wp_bind]
  refine wp_byteToSector hP hi (h.open_mapped hi hl) (fun hlt => by omega) fun _ => ?_
  rw [if_pos rfl, wp_bind, wp_deref_some hi, wp_bind]
  rw [← prog_wp_iff] at hreserved
  -- from here on only what has been said of the reservation counts
  generalize inodeReserveWith (bitmapWriteWith (inodeWriteAtDepth 2)) (storeData p) i.data ((ofs + size : ℕ) : ℤ) =
    reserve at hdraws hreserved ⊢
  have hboth := hdraws.and_wp hreserved
  by_cases hm : (lacking w i size ofs).length ≤ freeCount w
  · apply wp_mono (prog_wp_iff.mp (hboth.enough hm))
    · rintro ⟨ok, d⟩ w₁ ⟨_, hok, hg, _⟩
      obtain rfl : ok = true := hok
      exact hgrown hm d w₁ hg
    · rintro e w₁ ⟨rfl, hbig⟩
      exact hexit hm hbig w₁
  · have hm' : freeCount w < (lacking w i size ofs).length := by omega
    apply wp_mono (prog_wp_iff.mp (hboth.short hm'))
    · rintro ⟨ok, d⟩ w₁ ⟨⟨hok, hzero⟩, hg, hfull⟩
      obtain rfl : ok = false := hok
      exact (wp_pure _).mpr (hshort hm' d w₁ hg (hfull rfl) hzero)
    · intro e w₁ he
      exact he.elim

/-- The state after a growth: the inode has the grown page. -/
theorem PageGrown.open_page (hg : PageGrown (setPage w.mem.heap p i) w i.data w₁ d) :
    w₁.mem.heap p = some { i with data := d } := by
  rw [hg.heap]
  exact Function.update_self _ _ _

/-- No sectors are asked for near the largest `off_t`. -/
theorem missingBlocks_overflow (disk : ℕ → Sector) (page : InodeDisk) {len : ℤ} (h : 2147483136 < len)
    (h' : len < 2 ^ 31) : missingBlocks disk page len = [] := by
  have hnum : (bytesToSectors len).toNat = 0 := by
    have := bytesToSectors_overflow h h'
    omega
  rw [missingBlocks, hnum]
  rfl

/-! ### Sums that overflow -/

/-- A range whose end is 2^31: the sum is the smallest `int`, and the reservation refuses a negative length. -/
theorem wp_inodeWriteAt_min (hi : w.mem.heap p = some i) (hl : i.data.length ≤ 8517120) (hallow : i.denyWriteCnt = 0)
    (hsum : ofs + size = 2 ^ 31) :
    wp .memory (inodeWriteAt p buf size ofs) (fun r w' => r = 0 ∧ w = w') (fun _ _ => False) w := by
  have hlen : wrap32 ((ofs : ℤ) + (size : ℤ)) = -2 ^ 31 := by
    rw [show (ofs : ℤ) + (size : ℤ) = 2 ^ 31 by omega]
    decide
  have hlast : wrap32 (-2 ^ 31 - 1) = 2 ^ 31 - 1 := by decide
  rw [inodeWriteAt, callDepth, inodeWriteAtDepth]
  simp only [wp_bind, wp_deref_some hi]
  rw [if_neg (by simp [hallow]), hlen, hlast]
  simp only [byteToSector, wp_bind, wp_deref_some hi]
  rw [if_neg (by omega), wp_pure, if_pos rfl]
  simp only [wp_bind, wp_deref_some hi]
  rw [inodeReserveWith, if_pos (by decide), wp_pure]
  exact (wp_pure _).mpr ⟨rfl, rfl⟩

theorem wrap32_past {n : ℕ} (h : 2 ^ 31 ≤ n) (h' : n < 2 ^ 32) : wrap32 (n : ℤ) = (n : ℤ) - 2 ^ 32 := by
  unfold wrap32 toInt32 ofInt32
  split <;> omega

/-- A range that ends just below 2^32: the first block of the file stands for its last one, and the loop finds nothing
left of the file. -/
theorem wp_inodeWriteAt_wrapped (h : InodeOk w live) (hi : w.mem.heap p = some i) (hl : i.data.length ≤ 8517120)
    (hallow : i.denyWriteCnt = 0) (hofs : ofs < 2 ^ 31) (hsize : size < 2 ^ 31) (hsum : 2 ^ 32 - 511 < ofs + size) :
    wp .memory (inodeWriteAt p buf size ofs) (fun r w' => r = 0 ∧ w = w') (fun _ _ => False) w := by
  obtain ⟨len, hlen⟩ := h.open_length hi
  have hend : wrap32 ((ofs : ℤ) + (size : ℤ)) = ((ofs + size : ℕ) : ℤ) - 2 ^ 32 := by
    have := wrap32_past (n := ofs + size) (by omega) (by omega)
    rwa [Nat.cast_add] at this
  rw [inodeWriteAt, callDepth, inodeWriteAtDepth]
  simp only [wp_bind, wp_deref_some hi]
  rw [if_neg (by simp [hallow]), hend, wrap32_of_mem (by omega) (by omega), wp_bind]
  apply wp_mono_ret (wp_byteToSector_before h hi (by omega) (by omega))
  rintro s _ ⟨hs, rfl⟩
  rw [if_neg hs]
  obtain ⟨fuel, hfuel⟩ : ∃ fuel, (size : ℤ).toNat = fuel + 1 := ⟨size - 1, by omega⟩
  rw [hfuel, inodeWriteLoop, if_neg (by omega)]
  simp only [byteToSector, inodeLength, wp_bind, wp_deref_some hi]
  rw [if_neg (by omega), wp_pure, wp_deref_some hi, wp_pure]
  have hleft : wrap32 (i.data.length - (ofs : ℤ)) = i.data.length - ofs := by
    rw [wrap32_of_mem (by omega) (by omega)]
  rw [hleft, if_pos (by omega)]
  exact (wp_pure _).mpr ⟨rfl, rfl⟩

/-- A range that ends between these: the block before the first one is looked up. -/
theorem wp_inodeWriteAt_below (h : InodeOk w live) (hi : w.mem.heap p = some i) (hallow : i.denyWriteCnt = 0)
    (hsum : 2 ^ 31 < ofs + size) (hsum' : ofs + size ≤ 2 ^ 32 - 511) :
    wp .memory (inodeWriteAt p buf size ofs) (fun _ _ => False) (fun _ _ => True) w := by
  obtain ⟨len, hlen⟩ := h.open_length hi
  have hend : wrap32 ((ofs : ℤ) + (size : ℤ)) = ((ofs + size : ℕ) : ℤ) - 2 ^ 32 := by
    have := wrap32_past (n := ofs + size) (by omega) (by omega)
    rwa [Nat.cast_add] at this
  have hindex : (((ofs + size : ℕ) : ℤ) - 2 ^ 32 - 1).tdiv 512 < 0 := by
    rw [← Int.neg_pos, ← Int.neg_tdiv]
    have := Int.tdiv_eq_ediv_of_nonneg (a := -(((ofs + size : ℕ) : ℤ) - 2 ^ 32 - 1)) (b := 512) (by omega)
    omega
  rw [inodeWriteAt, callDepth, inodeWriteAtDepth]
  simp only [wp_bind, wp_deref_some hi]
  rw [if_neg (by simp [hallow]), hend, wrap32_of_mem (by omega) (by omega)]
  simp only [byteToSector, wp_bind, wp_deref_some hi]
  rw [if_pos (by omega), sectorNumber, if_pos (by omega), if_pos hindex]
  exact (wp_stop _).mpr trivial

/-! ### The condition -/

/-- When a write that stores nothing changes nothing: the inode is denied to writers; the range ends inside the file; the
file grows, no further than it may, by a range that is not empty, and the free sectors suffice; or there is none, and the
first block that is missing is not an index block (unless sector 0 is zero already).  The last two are sums that
overflow. -/
def EmptyWriteSafe (w : World) (i : Inode) (size ofs : ℕ) : Prop :=
  i.denyWriteCnt ≠ 0 ∨ (ofs + size : ℕ) ≤ i.data.length ∨
  (ofs + size ≤ 8517120 ∧ 0 < size ∧ (missingBlocks w.disk i.data (ofs + size : ℕ)).length ≤ freeCount w) ∨
  (ofs + size ≤ 2147483136 ∧ freeCount w = 0 ∧ missingBlocks w.disk i.data (ofs + size : ℕ) ≠ [] ∧
    ((missingBlocks w.disk i.data (ofs + size : ℕ))[0]? = some true → w.disk 0 = Block.zero)) ∨
  ofs + size = 2 ^ 31 ∨ 2 ^ 32 - 511 < ofs + size

namespace Growing

variable (hg : Growing w live p i size ofs)

include hg

/-- The inode as it was has not the new length. -/
theorem length_ne {j : Inode} (hj : some i = some j) : j.data.length ≠ (ofs + size : ℕ) := by
  obtain rfl : i = j := Option.some.inj hj
  have := hg.past
  omega

/-- With enough sectors the file gets its new length. -/
theorem wp_enough (hm : (lacking w i size ofs).length ≤ freeCount w) :
    wp .memory (inodeWriteAt p buf size ofs)
      (fun _ w' => ∃ j, w'.mem.heap p = some j ∧ j.data.length = (ofs + size : ℕ)) (fun _ _ => True) w := by
  apply wp_inodeWriteAt_grow hg
  · intro _ d w₁ hd
    exact wp_writeGrown hd.open_page hg.max
  · intro _ _ _
    trivial
  · intro hm' _ _ _ _ _
    omega

/-- Without, it returns 0 when no sector is left. -/
theorem wp_short (hm : freeCount w < (lacking w i size ofs).length) :
    wp .memory (inodeWriteAt p buf size ofs) (fun r w' => r = 0 ∧
      ∃ d, PageGrown (setPage w.mem.heap p i) w i.data w' d ∧ Full w' ∧ Sector0 w (lacking w i size ofs)[freeCount w] w')
      (fun _ _ => False) w := by
  apply wp_inodeWriteAt_grow hg
  · intro hm' _ _ _
    omega
  · intro hm' _ _
    omega
  · intro _ d w' hd hfull hzero
    exact ⟨rfl, d, hd, hfull, hzero⟩

/-- What is required of a growth for which the sectors suffice. -/
theorem enough_bounds (hm : (lacking w i size ofs).length ≤ freeCount w) (hkeeps : ChangesNothing w p i buf size ofs) :
    ofs + size ≤ 8517120 ∧ 0 < size := by
  have hle : ofs + size ≤ 8517120 := by
    by_contra hbig
    obtain ⟨r, w', hrun⟩ := runs_exists (inodeWriteAt p buf size ofs) w
    obtain ⟨rfl, hsame⟩ := hkeeps r w' hrun (.inr (by omega))
    obtain ⟨j, hj, hlen⟩ := wp_iff_runs.mp (hg.wp_enough hm) _ _ hrun
    exact hg.length_ne (hsame.inode.symm.trans hj) hlen
  refine ⟨hle, ?_⟩
  by_contra hsize
  obtain rfl : size = 0 := by omega
  have hempty : wp .memory (inodeWriteAt p buf (0 : ℕ) ofs)
      (fun r w' => r = 0 ∧ ∃ j, w'.mem.heap p = some j ∧ j.data.length = (ofs + 0 : ℕ)) (fun _ _ => False) w := by
    apply wp_inodeWriteAt_grow hg
    · intro _ d w₁ hd
      refine wp_writeGrown_empty hd.open_page ?_ hg.max
      have hs := (hg.ok.alloc _ (hg.ok.openLive p i hg.heap)).1
      rwa [← hd.keep.fsSize] at hs
    · intro _ hbig _
      rw [bytesToSectors_of_le (by omega)] at hbig
      omega
    · intro hm' _ _ _ _ _
      omega
  obtain ⟨r, w', hrun⟩ := runs_exists (inodeWriteAt p buf (0 : ℕ) ofs) w
  have hsat := wp_iff_runs.mp hempty r w' hrun
  cases r with
  | ok n =>
    obtain ⟨rfl, j, hj, hlen⟩ := hsat
    obtain ⟨_, hsame⟩ := hkeeps _ w' hrun (.inl rfl)
    exact hg.length_ne (hsame.inode.symm.trans hj) hlen
  | error e => exact absurd hsat id

/-- What is required of one that fails. -/
theorem short_bounds (hm : freeCount w < (lacking w i size ofs).length) (hkeeps : ChangesNothing w p i buf size ofs) :
    ofs + size ≤ 2147483136 ∧ freeCount w = 0 ∧ ((lacking w i size ofs)[0]? = some true → w.disk 0 = Block.zero) := by
  have hmax := hg.max
  obtain ⟨r, w', hrun⟩ := runs_exists (inodeWriteAt p buf size ofs) w
  have hsat := wp_iff_runs.mp (hg.wp_short hm) r w' hrun
  cases r with
  | error e => exact absurd hsat id
  | ok n =>
    obtain ⟨rfl, d, hd, hfull, hzero⟩ := hsat
    obtain ⟨_, hsame⟩ := hkeeps _ w' hrun (.inl rfl)
    have hfree : freeCount w = 0 := by
      rw [freeCount_eq_zero]
      intro s hs
      rw [← hd.keep.fsSize] at hs
      exact (hsame.used s).mp (hfull s hs)
    refine ⟨?_, hfree, fun hmark => ?_⟩
    · by_contra hbig
      rw [lacking, missingBlocks_overflow _ _ (by omega) (by omega)] at hm
      exact absurd hm (Nat.not_lt_zero _)
    · have hget := List.getElem?_eq_getElem hm
      simp only [hfree] at hget hzero
      rw [Option.some.inj (hget.symm.trans hmark)] at hzero
      exact hsame.mapHeader.symm.trans hzero

/-- Enough sectors, for a range that is not empty: it does not return 0. -/
theorem not_zero (hm : (lacking w i size ofs).length ≤ freeCount w) (hsize : 0 < size) (hle : ofs + size ≤ 8517120) :
    ¬Runs .memory (inodeWriteAt p buf size ofs) w (.ok 0) w' := by
  intro hrun
  obtain ⟨j, hj, hlen⟩ := wp_iff_runs.mp (hg.wp_enough hm) _ _ hrun
  have hwrite : wp .memory (inodeWriteAt p buf size ofs)
      (fun r w' => r = 0 → ∃ d : InodeDisk, w'.mem.heap p = some { i with data := d } ∧ d.length = i.data.length)
      (fun _ _ => True) w := by
    refine wp_inodeWriteAt Policy.memory_noFail hg.ok hg.heap hg.ne_zero hg.length hg.allow hsize hle
      (fun w' d _ hr => ?_) fun _ w' d hnot _ => ⟨d, hnot.open_self, hnot.length⟩
    omega
  obtain ⟨d, hd, hsame⟩ := wp_iff_runs.mp hwrite _ _ hrun rfl
  obtain rfl : j = { i with data := d } := Option.some.inj (hj.symm.trans hd)
  have hdl : d.length = (ofs + size : ℕ) := hlen
  have := hg.past
  omega

/-- No free sector to begin with: nothing changes, but for sector 0. -/
theorem changesNothing_full (hfree : freeCount w = 0) (hne : lacking w i size ofs ≠ [])
    (hmark : (lacking w i size ofs)[0]? = some true → w.disk 0 = Block.zero) : ChangesNothing w p i buf size ofs := by
  have hm : freeCount w < (lacking w i size ofs).length := by
    rw [hfree]
    exact List.length_pos_iff_ne_nil.mpr hne
  apply ChangesNothing.of_wp
  apply wp_mono_ret (hg.wp_short hm)
  rintro r w' ⟨rfl, d, hd, _, hzero⟩
  refine ⟨rfl, unchanged_of_full hg.ok hg.heap hg.ne_zero (freeCount_eq_zero.mp hfree) hd ?_⟩
  rw [hzero]
  split
  · next hindex =>
    refine (hmark ?_).symm
    have hget := List.getElem?_eq_getElem hm
    rw [hindex] at hget
    rwa [hfree] at hget
  · rfl

/-- A write behind the end of the file, below 2^31. -/
theorem changesNothing_iff :
    ChangesNothing w p i buf size ofs ↔
      (ofs + size ≤ 8517120 ∧ 0 < size ∧ (lacking w i size ofs).length ≤ freeCount w) ∨
      (ofs + size ≤ 2147483136 ∧ freeCount w = 0 ∧ lacking w i size ofs ≠ [] ∧
        ((lacking w i size ofs)[0]? = some true → w.disk 0 = Block.zero)) := by
  constructor
  · intro hkeeps
    by_cases hm : (lacking w i size ofs).length ≤ freeCount w
    · obtain ⟨hle, hsize⟩ := hg.enough_bounds hm hkeeps
      exact .inl ⟨hle, hsize, hm⟩
    · obtain ⟨hle, hfree, hmark⟩ := hg.short_bounds (by omega) hkeeps
      exact .inr ⟨hle, hfree, List.length_pos_iff_ne_nil.mp (by omega), hmark⟩
  · rintro (⟨hle, hsize, hm⟩ | ⟨_, hfree, hne, hmark⟩)
    · intro r w' hrun hor
      have hr : r = .ok 0 := hor.resolve_right (by omega)
      subst hr
      exact absurd hrun (hg.not_zero hm hsize hle)
    · exact hg.changesNothing_full hfree hne hmark

end Growing

/-- A formatted device of 16 sectors, on which a file of 600 bytes has been made and opened. -/
def Layer.opened16 : Layer :=
  ((started16.next .allocate (some 4)).next (.create 4 600 false) true).next (.open 4) (some 3)

theorem Layer.opened16_sound : opened16.Sound := started16_started.sound trace_opened

/-- The file is at address 3; 18 blocks are missing for a length of 10001, and 9 sectors are free. -/
theorem opened16_file : freeCount Layer.opened16.world = 9 ∧ ∃ i, Layer.opened16.world.mem.heap 3 = some i ∧
    i.sector = 4 ∧ i.denyWriteCnt = 0 ∧ i.data.length = 600 ∧
    (missingBlocks Layer.opened16.world.disk i.data (10001 : ℕ)).length = 18 := by
  have hfile : freeCount Layer.opened16.world = 9 ∧
      (Layer.opened16.world.mem.heap 3).any (fun i => decide (i.sector = 4 ∧ i.denyWriteCnt = 0 ∧
        i.data.length = 600 ∧ (missingBlocks Layer.opened16.world.disk i.data (10001 : ℕ)).length = 18)) = true := by
    decide +kernel
  obtain ⟨hfree, hfile⟩ := hfile
  cases hi : Layer.opened16.world.mem.heap 3 with
  | none =>
    rw [hi] at hfile
    cases hfile
  | some i =>
    rw [hi] at hfile
    exact ⟨hfree, i, rfl, of_decide_eq_true hfile⟩

end Pintos.Filesys
