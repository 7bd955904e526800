import Pintos.Library.Trace
import Pintos.Filesys.FreeMapFile

/-!
# The swap table

`vm/swap.c` and `page_destructor` of `vm/page.c`.  The bitmap `used_blocks` has one bit for each slot of eight sectors,
and `block_sector` of a page is the slot it has been written to.

`swap_get` clears the bit of the slot and leaves `block_sector` as it is.  When the page is destroyed later,
`page_destructor` finds a slot there and clears its bit once more, although the slot may be another page's by then.

* `Step` is a call of `swap_insert`, `swap_get` or `page_destructor`, or anything that other code does to frames and
  pages; `out` records what each swapped-out page held at its `swap_insert`.
* `Owned` is the invariant of the steps that meet `MeetsOwner`.
-/

namespace Pintos.Vm

open Filesys (Bitmap Sector)

/-! ## The code -/

/-- `struct frame_entry` -/
structure FrameEntry where
  kpage : ℕ
  pageOccupant : Option ℕ

/-- `struct page`, with the members that the swap table needs; `frame` is an address or the null pointer. -/
structure Page where
  frame : Option ℕ
  blockSector : ℤ

/-- `used_blocks`, the sectors of `swap_table` and its size, and the memory: pages and frames by their addresses, and
the 4096 bytes at each `kpage`. -/
structure Swap where
  usedBlocks : Bitmap
  swapTable : ℕ → Sector
  blockSize : UInt32
  page : ℕ → Option Page
  frame : ℕ → FrameEntry
  ram : ℕ → Block 4096

/-- `BITMAP_ERROR` -/
def bitmapError : ℕ := 2 ^ 32 - 1

/-- `slot * 8 + i` as a `block_sector_t`. -/
def slotSector (slot i : ℕ) : ℕ := (slot * 8 + i) % 2 ^ 32

/-- The bytes at `c`, `i` sectors into a page. -/
def sectorAt (b : Block 4096) (i : ℕ) : Sector := Block.mk fun j => b.get (512 * i + j)

namespace Swap

/-- `bitmap_reset` on `used_blocks`; it has no result for an index past the bitmap. -/
def bitmapReset (s : Swap) (bitIdx : ℕ) : Option Swap :=
  if bitIdx < s.usedBlocks.bitCnt then some { s with usedBlocks := s.usedBlocks.setMultiple bitIdx 1 false } else none

/-- `block_read`, which panics past the end of the device, to `i` sectors into a page of memory. -/
def blockRead (s : Swap) (sector kpage i : ℕ) : Option Swap :=
  if sector < s.blockSize.toNat then
    some { s with ram := Function.update s.ram kpage ((s.ram kpage).splice (512 * i) 512 (s.swapTable sector).get) }
  else none

/-- `block_write` -/
def blockWrite (s : Swap) (sector kpage i : ℕ) : Option Swap :=
  if sector < s.blockSize.toNat then
    some { s with swapTable := Function.update s.swapTable sector (sectorAt (s.ram kpage) i) }
  else none

/-- The first rounds of the loop of `swap_get`. -/
def readLoop (readSector kpage : ℕ) : ℕ → Swap → Option Swap
  | 0, s => some s
  | i + 1, s => do
    let s ← readLoop readSector kpage i s
    s.blockRead (slotSector readSector i) kpage i

/-- The first rounds of the loop of `swap_insert`. -/
def writeLoop (sectorNum kpage : ℕ) : ℕ → Swap → Option Swap
  | 0, s => some s
  | i + 1, s => do
    let s ← writeLoop sectorNum kpage i s
    s.blockWrite (slotSector sectorNum i) kpage i

def setPage (s : Swap) (p : ℕ) (pg : Option Page) : Swap := { s with page := Function.update s.page p pg }

/-- `swap_get` -/
def swapGet (s : Swap) (p : ℕ) : Option Swap := do
  let pg ← s.page p
  let f ← pg.frame
  let readSector := ofInt32 pg.blockSector
  let s ← readLoop readSector (s.frame f).kpage 8 s
  s.bitmapReset readSector

/-- `swap_insert` -/
def swapInsert (s : Swap) (p : ℕ) : Option Swap := do
  let pg ← s.page p
  let f ← pg.frame
  let (found, usedBlocks) := s.usedBlocks.scanAndFlip 0 1 false
  let sectorNum := found.getD bitmapError
  let s := { s with usedBlocks := usedBlocks }
  let s := s.setPage p (some { pg with blockSector := toInt32 sectorNum })
  writeLoop sectorNum (s.frame f).kpage 8 s

/-- `swap_free` -/
def swapFree (s : Swap) (p : ℕ) : Option Swap := do
  let pg ← s.page p
  s.bitmapReset (ofInt32 pg.blockSector)

/-- `free_frame`, with `palloc_free_page` clobbering the page. -/
def freeFrame (s : Swap) (f : ℕ) : Option Swap := do
  let occupant ← (s.frame f).pageOccupant
  let _ ← s.page occupant
  return { s with
    ram := Function.update s.ram (s.frame f).kpage (Block.mk fun _ => 0xcc)
    frame := Function.update s.frame f { s.frame f with pageOccupant := none } }

/-- The first condition of `page_destructor`. -/
def leaveFrame (s : Swap) (p : ℕ) (pg : Page) : Option Swap :=
  match pg.frame with
  | some f => (s.setPage p (some { pg with frame := none })).freeFrame f
  | none => some s

/-- The second condition of `page_destructor`. -/
def leaveSlot (s : Swap) (p : ℕ) (pg : Page) : Option Swap :=
  if pg.blockSector ≠ -1 then s.swapFree p else some s

/-- `page_destructor` -/
def pageDestructor (s : Swap) (p : ℕ) : Option Swap := do
  let pg ← s.page p
  let s ← s.leaveFrame p pg
  let s ← s.leaveSlot p pg
  return s.setPage p none

/-- The bytes in the frame of a page. -/
def bytesOf (s : Swap) (p : ℕ) : Option (Block 4096) := do
  let pg ← s.page p
  let f ← pg.frame
  return s.ram (s.frame f).kpage

end Swap

/-! ## The pages that are swapped out -/

/-- The swap table, with the bytes that each swapped-out page had at its `swap_insert`. -/
structure System where
  mem : Swap
  out : ℕ → Option (Block 4096)

/-- The slot a page has been written to last. -/
def Swap.slotOf (s : Swap) (p : ℕ) : Option ℤ := (s.page p).map Page.blockSector

/-- What other code does: it makes pages with `block_sector` -1, gives frames to pages and takes them away, and writes
to memory. -/
structure Swap.Elsewhere (s s' : Swap) : Prop where
  usedBlocks : s'.usedBlocks = s.usedBlocks
  swapTable : s'.swapTable = s.swapTable
  blockSize : s'.blockSize = s.blockSize
  slotOf : ∀ p, s'.slotOf p = s.slotOf p ∨ s.slotOf p = none ∧ s'.slotOf p = some (-1)

inductive Event
  | insert (p : ℕ)
  | get (p : ℕ)
  | destroy (p : ℕ)
  | elsewhere

/-- A call that returns, or a step of other code. -/
inductive Step : System → Event → System → Prop
  | insert {s : System} {p : ℕ} {m : Swap} (h : s.mem.swapInsert p = some m) :
      Step s (.insert p) ⟨m, Function.update s.out p (s.mem.bytesOf p)⟩
  | get {s : System} {p : ℕ} {m : Swap} (hout : s.out p ≠ none) (h : s.mem.swapGet p = some m) :
      Step s (.get p) ⟨m, Function.update s.out p none⟩
  | destroy {s : System} {p : ℕ} {m : Swap} (h : s.mem.pageDestructor p = some m) :
      Step s (.destroy p) ⟨m, Function.update s.out p none⟩
  | elsewhere {s : System} {m : Swap} (h : s.mem.Elsewhere m) : Step s .elsewhere ⟨m, s.out⟩

/-- After `swap_init`: no slot is used, and the pages there are have not been swapped out. -/
structure Start (s : System) : Prop where
  usedBlocks : ∃ garbage, s.mem.usedBlocks = Bitmap.create 1024 garbage
  pages : ∀ p z, s.mem.slotOf p = some z → z = -1
  out : ∀ p, s.out p = none

/-- A page is swapped out to a slot. -/
def InSlot (s : System) (p : ℕ) (z : ℤ) : Prop := s.out p ≠ none ∧ s.mem.slotOf p = some z

/-- **Every slot has one owner**, the bitmap marks the slots that have one, and a page gets back what it held. -/
structure OneOwner (s : System) : Prop where
  alone : ∀ p q z, InSlot s p z → InSlot s q z → p = q
  used : ∀ i, i < 1024 → (s.mem.usedBlocks.bits i = true ↔ ∃ p, InSlot s p i)
  gives : ∀ p c m, s.out p = some c → s.mem.swapGet p = some m → m.bytesOf p = some c

/-- Only a page that is not swapped out is written to a slot, and a page that is destroyed while it is not swapped out
has a `block_sector` to which no page is swapped out. -/
def MeetsOwner (s : System) : Event → Prop
  | .insert p => s.out p = none
  | .destroy p => s.out p = none → ∀ q z, s.mem.slotOf p = some z → ¬InSlot s q z
  | _ => True

/-! ## The operations -/

theorem slotSector_eq {slot i : ℕ} (hslot : slot < 1024) (hi : i < 8) : slotSector slot i = slot * 8 + i :=
  Nat.mod_eq_of_lt (by omega)

theorem get_sectorAt {b : Block 4096} {i j : ℕ} (hj : j < 512) : (sectorAt b i).get j = b.get (512 * i + j) :=
  Block.get_mk hj

/-- A page is its eight sectors. -/
theorem eq_of_sectorAt {a b : Block 4096} (h : ∀ i, i < 8 → sectorAt a i = sectorAt b i) : a = b := by
  apply Block.ext
  intro k hk
  have hsector : (sectorAt a (k / 512)).get (k % 512) = (sectorAt b (k / 512)).get (k % 512) := by
    rw [h (k / 512) (by omega)]
  rw [get_sectorAt (Nat.mod_lt k (by omega)), get_sectorAt (Nat.mod_lt k (by omega)), Nat.div_add_mod] at hsector
  exact hsector

/-- A sector is read into its place in the page. -/
theorem sectorAt_splice {b : Block 4096} {c : Sector} {i k : ℕ} (hk : k < 8) :
    sectorAt (b.splice (512 * i) 512 c.get) k = if k = i then c else sectorAt b k := by
  apply Block.ext
  intro j hj
  rw [get_sectorAt hj, Block.get_splice (by omega)]
  by_cases hki : k = i
  · rw [if_pos hki, Bytes.splice_inside (by omega) (by omega), hki, Nat.add_sub_cancel_left]
  · rw [if_neg hki, Bytes.splice_outside (by omega), get_sectorAt hj]

namespace Swap

variable {s s' : Swap} {p : ℕ}

theorem bitmapReset_spec {i : ℕ} (h : s.bitmapReset i = some s') : i < s.usedBlocks.bitCnt ∧
    s' = { s with usedBlocks := { s.usedBlocks with bits := Function.update s.usedBlocks.bits i false } } := by
  unfold bitmapReset at h
  split at h
  · rename_i hlt
    rw [Bitmap.setMultiple_one] at h
    exact ⟨hlt, (Option.some.inj h).symm⟩
  · cases h

/-- `swap_get` reads the sectors of the slot one after the other. -/
theorem readLoop_spec {readSector kpage n : ℕ} (hn : n ≤ 8) (h : readLoop readSector kpage n s = some s') :
    ∃ b, s' = { s with ram := Function.update s.ram kpage b } ∧
      ∀ i, i < n → sectorAt b i = s.swapTable (slotSector readSector i) := by
  induction n generalizing s' with
  | zero =>
    cases h
    exact ⟨s.ram kpage, by rw [Function.update_eq_self], by simp⟩
  | succ n ih =>
    obtain ⟨s₁, h₁, h⟩ := Option.bind_eq_some_iff.mp h
    obtain ⟨b, rfl, hb⟩ := ih (by omega) h₁
    unfold blockRead at h
    split at h
    · cases h
      refine ⟨b.splice (512 * n) 512 (s.swapTable (slotSector readSector n)).get, ?_, ?_⟩
      · dsimp only
        rw [Function.update_self, Function.update_idem]
      intro i hi
      rw [sectorAt_splice (by omega)]
      split
      · rename_i heq
        rw [heq]
      · exact hb i (by omega)
    · cases h

/-- `swap_insert` writes the sectors of the page one after the other, and no others. -/
theorem writeLoop_spec {sectorNum kpage n : ℕ} (hnum : sectorNum < 1024) (hn : n ≤ 8)
    (h : writeLoop sectorNum kpage n s = some s') :
    ∃ t, s' = { s with swapTable := t } ∧ (∀ i, i < n → t (slotSector sectorNum i) = sectorAt (s.ram kpage) i) ∧
      ∀ j, j < sectorNum * 8 ∨ sectorNum * 8 + 8 ≤ j → t j = s.swapTable j := by
  induction n generalizing s' with
  | zero =>
    cases h
    exact ⟨s.swapTable, rfl, by simp, fun _ _ => rfl⟩
  | succ n ih =>
    obtain ⟨s₁, h₁, h⟩ := Option.bind_eq_some_iff.mp h
    obtain ⟨t, rfl, ht, hframe⟩ := ih (by omega) h₁
    unfold blockWrite at h
    split at h
    · cases h
      refine ⟨Function.update t (slotSector sectorNum n) (sectorAt (s.ram kpage) n), rfl, ?_, ?_⟩
      · intro i hi
        by_cases hin : i = n
        · rw [hin, Function.update_self]
        · rw [Function.update_of_ne, ht i (by omega)]
          rw [slotSector_eq hnum (by omega), slotSector_eq hnum (by omega)]
          omega
      · intro j hj
        rw [slotSector_eq hnum (by omega), Function.update_of_ne (by omega), hframe j hj]
    · cases h

/-- With no slot left, `swap_insert` writes past the end of every device. -/
theorem writeLoop_full (kpage : ℕ) : writeLoop bitmapError kpage 8 s = none := by
  apply Option.eq_none_iff_forall_ne_some.mpr
  intro s' h
  obtain ⟨s₁, h₁, h⟩ := Option.bind_eq_some_iff.mp h
  have hlast : slotSector bitmapError 7 = 2 ^ 32 - 1 := by decide
  unfold blockWrite at h
  have hsize := s₁.blockSize.toNat_lt
  rw [hlast, if_neg (by omega)] at h
  cases h

theorem swapGet_spec (h : s.swapGet p = some s') : ∃ pg f b, s.page p = some pg ∧ pg.frame = some f ∧
    ofInt32 pg.blockSector < s.usedBlocks.bitCnt ∧
    (∀ i, i < 8 → sectorAt b i = s.swapTable (slotSector (ofInt32 pg.blockSector) i)) ∧
    s' = { s with
      usedBlocks := { s.usedBlocks with bits := Function.update s.usedBlocks.bits (ofInt32 pg.blockSector) false }
      ram := Function.update s.ram (s.frame f).kpage b } := by
  obtain ⟨pg, hpg, h⟩ := Option.bind_eq_some_iff.mp h
  obtain ⟨f, hf, h⟩ := Option.bind_eq_some_iff.mp h
  obtain ⟨s₁, h₁, h⟩ := Option.bind_eq_some_iff.mp h
  obtain ⟨b, rfl, hb⟩ := readLoop_spec (le_refl 8) h₁
  obtain ⟨hlt, rfl⟩ := bitmapReset_spec h
  exact ⟨pg, f, b, hpg, hf, hlt, hb, rfl⟩

/-- The swap table after a page has been written to a slot. -/
def inserted (s : Swap) (p : ℕ) (pg : Page) (slot : ℕ) (t : ℕ → Sector) : Swap :=
  { s with
    usedBlocks := { s.usedBlocks with bits := Function.update s.usedBlocks.bits slot true }
    swapTable := t
    page := Function.update s.page p (some { pg with blockSector := slot }) }

theorem slotOf_inserted {pg : Page} {slot : ℕ} {t : ℕ → Sector} (q : ℕ) :
    (s.inserted p pg slot t).slotOf q = if q = p then some (slot : ℤ) else s.slotOf q := by
  unfold slotOf inserted
  dsimp only
  by_cases hq : q = p
  · rw [if_pos hq, hq, Function.update_self, Option.map_some]
  · rw [if_neg hq, Function.update_of_ne hq]

theorem swapInsert_spec (hcnt : s.usedBlocks.bitCnt ≤ 1024) (h : s.swapInsert p = some s') :
    ∃ pg f slot t, s.page p = some pg ∧ pg.frame = some f ∧
    slot < s.usedBlocks.bitCnt ∧ s.usedBlocks.bits slot = false ∧
    (∀ i, i < 8 → t (slotSector slot i) = sectorAt (s.ram (s.frame f).kpage) i) ∧
    (∀ j, j < slot * 8 ∨ slot * 8 + 8 ≤ j → t j = s.swapTable j) ∧ s' = s.inserted p pg slot t := by
  obtain ⟨pg, hpg, h⟩ := Option.bind_eq_some_iff.mp h
  obtain ⟨f, hf, h⟩ := Option.bind_eq_some_iff.mp h
  unfold Bitmap.scanAndFlip at h
  cases hscan : s.usedBlocks.scan 0 1 false with
  | none =>
    rw [hscan] at h
    exact absurd ((writeLoop_full _).symm.trans h) (by simp)
  | some slot =>
    obtain ⟨hlt, hbit⟩ := Bitmap.scan_some hscan
    rw [hscan] at h
    dsimp only [Option.getD_some] at h
    obtain ⟨t, rfl, ht, hframe⟩ := writeLoop_spec (by omega) (le_refl 8) h
    refine ⟨pg, f, slot, t, hpg, hf, hlt, hbit, ht, hframe, ?_⟩
    have hslot : toInt32 slot = slot := if_pos (by omega)
    rw [Bitmap.setMultiple_one, hslot]
    rfl

theorem writeLoop_size {sectorNum kpage n : ℕ} (h : writeLoop sectorNum kpage n s = some s') :
    s'.blockSize = s.blockSize := by
  induction n generalizing s' with
  | zero =>
    cases h
    rfl
  | succ n ih =>
    obtain ⟨s₁, h₁, h⟩ := Option.bind_eq_some_iff.mp h
    unfold blockWrite at h
    split at h
    · cases h
      have hsize := ih h₁
      exact hsize
    · cases h

theorem writeLoop_isSome {sectorNum kpage n : ℕ} (h : ∀ i < n, slotSector sectorNum i < s.blockSize.toNat) :
    (writeLoop sectorNum kpage n s).isSome := by
  induction n with
  | zero => rfl
  | succ n ih =>
    obtain ⟨s₁, h₁⟩ := Option.isSome_iff_exists.mp (ih fun i hi => h i (by omega))
    have hlast := h n (by omega)
    rw [← writeLoop_size h₁] at hlast
    rw [writeLoop, h₁]
    exact Option.isSome_iff_exists.mpr ⟨_, if_pos hlast⟩

theorem writeLoop_room {sectorNum kpage n : ℕ} (h : writeLoop sectorNum kpage (n + 1) s = some s') :
    slotSector sectorNum n < s.blockSize.toNat := by
  obtain ⟨s₁, h₁, h⟩ := Option.bind_eq_some_iff.mp h
  unfold blockWrite at h
  split at h
  · rename_i hlt
    rwa [writeLoop_size h₁] at hlt
  · cases h

/-- There is a free slot, and the first one is on the device. -/
def Room (s : Swap) : Prop := ∃ slot, s.usedBlocks.scan 0 1 false = some slot ∧ slot * 8 + 8 ≤ s.blockSize.toNat

/-- `swap_insert` returns for a page in a frame exactly if there is room. -/
theorem swapInsert_isSome (hcnt : s.usedBlocks.bitCnt ≤ 1024) {pg : Page} {f : ℕ} (hpg : s.page p = some pg)
    (hf : pg.frame = some f) : (s.swapInsert p).isSome ↔ s.Room := by
  unfold swapInsert Bitmap.scanAndFlip Room
  rw [hpg]
  simp only [Option.bind_eq_bind, Option.bind_some, hf]
  cases hscan : s.usedBlocks.scan 0 1 false with
  | none =>
    simp only [Option.getD_none]
    constructor
    · intro h
      obtain ⟨s', hs'⟩ := Option.isSome_iff_exists.mp h
      exact absurd ((writeLoop_full _).symm.trans hs') nofun
    · rintro ⟨slot, h, -⟩
      cases h
  | some slot =>
    have hlt := (Bitmap.scan_some hscan).1
    simp only [Option.getD_some]
    constructor
    · intro h
      obtain ⟨s', hs'⟩ := Option.isSome_iff_exists.mp h
      have hroom := writeLoop_room hs'
      rw [slotSector_eq (by omega) (by omega)] at hroom
      exact ⟨slot, rfl, hroom⟩
    · rintro ⟨slot', h, hroom⟩
      cases h
      have hsectors : ∀ i < 8, slotSector slot i < s.blockSize.toNat := by
        intro i hi
        rw [slotSector_eq (by omega) hi]
        omega
      exact writeLoop_isSome hsectors

/-- `free_frame` leaves the pages and the swap table alone. -/
theorem freeFrame_spec {f : ℕ} (h : s.freeFrame f = some s') :
    s'.page = s.page ∧ s'.usedBlocks = s.usedBlocks ∧ s'.swapTable = s.swapTable := by
  obtain ⟨occupant, _, h⟩ := Option.bind_eq_some_iff.mp h
  obtain ⟨_, _, h⟩ := Option.bind_eq_some_iff.mp h
  cases h
  exact ⟨rfl, rfl, rfl⟩

theorem leaveFrame_spec {pg : Page} (hpg : s.page p = some pg) (h : s.leaveFrame p pg = some s') :
    (∃ f, s'.page = Function.update s.page p (some ⟨f, pg.blockSector⟩)) ∧
    s'.usedBlocks = s.usedBlocks ∧ s'.swapTable = s.swapTable := by
  unfold leaveFrame at h
  cases hf : pg.frame with
  | none =>
    rw [hf] at h
    cases h
    have hself : Function.update s.page p (some ⟨none, pg.blockSector⟩) = s.page := by
      rw [← hf, Function.update_eq_self_iff, hpg]
    exact ⟨⟨none, hself.symm⟩, rfl, rfl⟩
  | some f =>
    rw [hf] at h
    obtain ⟨hpage, hused, htable⟩ := freeFrame_spec h
    exact ⟨⟨none, hpage⟩, hused, htable⟩

theorem leaveSlot_spec {pg : Page} {f : Option ℕ} (hpg : s.page p = some ⟨f, pg.blockSector⟩)
    (h : s.leaveSlot p pg = some s') :
    s'.page = s.page ∧ s'.swapTable = s.swapTable ∧
    s'.usedBlocks = if pg.blockSector = -1 then s.usedBlocks else
      { s.usedBlocks with bits := Function.update s.usedBlocks.bits (ofInt32 pg.blockSector) false } := by
  unfold leaveSlot at h
  by_cases hz : pg.blockSector = -1
  · rw [if_neg (not_not.mpr hz)] at h
    cases h
    exact ⟨rfl, rfl, (if_pos hz).symm⟩
  · rw [if_pos hz] at h
    obtain ⟨pg', hpg', h⟩ := Option.bind_eq_some_iff.mp h
    rw [hpg] at hpg'
    cases hpg'
    obtain ⟨_, rfl⟩ := bitmapReset_spec h
    exact ⟨rfl, rfl, (if_neg hz).symm⟩

/-- `page_destructor` clears the bit of the slot that the page names, if it names one. -/
theorem pageDestructor_spec (h : s.pageDestructor p = some s') : ∃ pg, s.page p = some pg ∧
    (∀ q, s'.slotOf q = if q = p then none else s.slotOf q) ∧ s'.swapTable = s.swapTable ∧
    s'.usedBlocks = if pg.blockSector = -1 then s.usedBlocks else
      { s.usedBlocks with bits := Function.update s.usedBlocks.bits (ofInt32 pg.blockSector) false } := by
  obtain ⟨pg, hpg, h⟩ := Option.bind_eq_some_iff.mp h
  obtain ⟨s₁, h₁, h⟩ := Option.bind_eq_some_iff.mp h
  obtain ⟨s₂, h₂, h⟩ := Option.bind_eq_some_iff.mp h
  cases h
  obtain ⟨⟨f, hpage₁⟩, hused₁, htable₁⟩ := leaveFrame_spec hpg h₁
  obtain ⟨hpage₂, htable₂, hused₂⟩ := leaveSlot_spec (by rw [hpage₁, Function.update_self]) h₂
  refine ⟨pg, hpg, ?_, htable₂.trans htable₁, ?_⟩
  · intro q
    unfold slotOf setPage
    dsimp only
    by_cases hq : q = p
    · rw [if_pos hq, hq, Function.update_self, Option.map_none]
    · rw [if_neg hq, Function.update_of_ne hq, hpage₂, hpage₁, Function.update_of_ne hq]
  · rw [← hused₁]
    exact hused₂

end Swap

/-! ## The invariant -/

/-- The invariant of the swap table: a swapped-out page names its slot and no other swapped-out page does, and the
slot holds its bytes. -/
structure Owned (s : System) : Prop where
  bitCnt : s.mem.usedBlocks.bitCnt = 1024
  named : ∀ p z, s.mem.slotOf p = some z → z = -1 ∨ ∃ i : ℕ, i < 1024 ∧ z = i
  located : ∀ p, s.out p ≠ none → ∃ i : ℕ, i < 1024 ∧ InSlot s p i
  alone : ∀ p q z, InSlot s p z → InSlot s q z → p = q
  used : ∀ i : ℕ, i < 1024 → (s.mem.usedBlocks.bits i = true ↔ ∃ p, InSlot s p i)
  holds : ∀ p c (i : ℕ), s.out p = some c → InSlot s p i → i < 1024 →
    ∀ k, k < 8 → s.mem.swapTable (slotSector i k) = sectorAt c k

namespace Owned

variable {s : System} {p : ℕ} {m : Swap}

theorem start (h : Start s) : Owned s := by
  obtain ⟨garbage, hused⟩ := h.usedBlocks
  have hfree : ∀ q z, ¬InSlot s q z := fun q z hq => hq.1 (h.out q)
  refine ⟨?_, ?_, ?_, ?_, ?_, ?_⟩
  · rw [hused]
    rfl
  · intro q z hz
    exact .inl (h.pages q z hz)
  · intro q hq
    exact absurd (h.out q) hq
  · intro q r z hq _
    exact absurd hq (hfree q z)
  · intro i hi
    have hbit : s.mem.usedBlocks.bits i = false := by
      rw [hused]
      exact if_pos ⟨Nat.zero_le i, by omega⟩
    rw [hbit]
    constructor
    · intro hb
      cases hb
    · rintro ⟨q, hq⟩
      exact absurd hq (hfree q i)
  · intro q c i _ hq
    exact absurd hq (hfree q i)

/-- The slot of a swapped-out page is the one it names. -/
theorem slot_of_out (h : Owned s) (hp : s.out p ≠ none) {pg : Page} (hpg : s.mem.page p = some pg) :
    ∃ i : ℕ, i < 1024 ∧ pg.blockSector = i ∧ InSlot s p i := by
  obtain ⟨i, hi, hin⟩ := h.located p hp
  have hslot : s.mem.slotOf p = some pg.blockSector := by rw [Swap.slotOf, hpg, Option.map_some]
  exact ⟨i, hi, Option.some.inj (hslot.symm.trans hin.2), hin⟩

/-- **A page gets back the bytes that it had when it was swapped out.** -/
theorem gives (h : Owned s) {c : Block 4096} (hc : s.out p = some c) (hget : s.mem.swapGet p = some m) :
    m.bytesOf p = some c := by
  obtain ⟨pg, f, b, hpg, hf, _, hb, rfl⟩ := Swap.swapGet_spec hget
  obtain ⟨i, hi, hz, hin⟩ := h.slot_of_out (by rw [hc]; simp) hpg
  have hword : ofInt32 pg.blockSector = i := by
    rw [hz]
    unfold ofInt32
    omega
  have hbytes : b = c := by
    apply eq_of_sectorAt
    intro k hk
    rw [hb k hk, hword, h.holds p c i hc hin hi k hk]
  simp only [Swap.bytesOf, hpg, hf, bind, Option.bind_some, Function.update_self, hbytes, pure]

theorem oneOwner (h : Owned s) : OneOwner s :=
  ⟨h.alone, h.used, fun _ _ _ hc hget => h.gives hc hget⟩

/-- A page leaves its slot, if it has one, and the bit of the slot is cleared. -/
theorem leave (h : Owned s) (hcnt : m.usedBlocks.bitCnt = s.mem.usedBlocks.bitCnt)
    (hslot : ∀ q, m.slotOf q = s.mem.slotOf q ∨ q = p ∧ m.slotOf q = none)
    (htable : m.swapTable = s.mem.swapTable)
    (hbits : ∀ i : ℕ, i < 1024 → (m.usedBlocks.bits i = true ↔ s.mem.usedBlocks.bits i = true ∧ ¬InSlot s p i)) :
    Owned ⟨m, Function.update s.out p none⟩ := by
  have hin : ∀ q z, InSlot ⟨m, Function.update s.out p none⟩ q z ↔ q ≠ p ∧ InSlot s q z := by
    intro q z
    unfold InSlot
    by_cases hq : q = p
    · simp [hq]
    · have hsame : m.slotOf q = s.mem.slotOf q := (hslot q).resolve_right fun hno => hq hno.1
      simp only [Function.update_of_ne hq, hsame, ne_eq, hq, not_false_eq_true, true_and]
  refine ⟨hcnt.trans h.bitCnt, ?_, ?_, ?_, ?_, ?_⟩
  · intro q z hz
    rcases hslot q with hsame | ⟨_, hnone⟩
    · exact h.named q z (hsame.symm.trans hz)
    · rw [hnone] at hz
      cases hz
  · intro q hq
    by_cases hqp : q = p
    · rw [hqp] at hq
      exact absurd (Function.update_self ..) hq
    · dsimp only at hq
      rw [Function.update_of_ne hqp] at hq
      obtain ⟨i, hi, hqi⟩ := h.located q hq
      exact ⟨i, hi, (hin q i).mpr ⟨hqp, hqi⟩⟩
  · intro q r z hq hr
    exact h.alone q r z ((hin q z).mp hq).2 ((hin r z).mp hr).2
  · intro i hi
    rw [hbits i hi, h.used i hi]
    constructor
    · rintro ⟨⟨q, hq⟩, hp⟩
      refine ⟨q, (hin q i).mpr ⟨?_, hq⟩⟩
      rintro rfl
      exact hp hq
    · rintro ⟨q, hq⟩
      obtain ⟨hqp, hq⟩ := (hin q i).mp hq
      exact ⟨⟨q, hq⟩, fun hp => hqp (h.alone q p i hq hp)⟩
  · intro q c i hc hq hi k hk
    obtain ⟨hqp, hq⟩ := (hin q i).mp hq
    dsimp only at hc
    rw [Function.update_of_ne hqp] at hc
    dsimp only
    rw [htable]
    exact h.holds q c i hc hq hi k hk

theorem get (h : Owned s) (hout : s.out p ≠ none) (hget : s.mem.swapGet p = some m) :
    Owned ⟨m, Function.update s.out p none⟩ := by
  obtain ⟨pg, f, b, hpg, hf, _, hb, rfl⟩ := Swap.swapGet_spec hget
  obtain ⟨i, hi, hz, hin⟩ := h.slot_of_out hout hpg
  refine h.leave rfl (fun q => .inl rfl) rfl ?_
  intro j hj
  dsimp only
  rw [hz, show ofInt32 (i : ℤ) = i by unfold ofInt32; omega]
  by_cases hji : j = i
  · rw [hji, Function.update_self]
    simp [hin]
  · have hno : ¬InSlot s p j := fun hp => hji (by
      have := Option.some.inj (hp.2.symm.trans hin.2)
      omega)
    rw [Function.update_of_ne hji]
    simp [hno]

theorem destroy (h : Owned s) (hmeets : MeetsOwner s (.destroy p)) (hdestroy : s.mem.pageDestructor p = some m) :
    Owned ⟨m, Function.update s.out p none⟩ := by
  obtain ⟨pg, hpg, hslot, htable, hused⟩ := Swap.pageDestructor_spec hdestroy
  have hname : s.mem.slotOf p = some pg.blockSector := by rw [Swap.slotOf, hpg, Option.map_some]
  -- the bit of the slot that the page names belongs to the page or to nobody
  have howner : ∀ q, InSlot s q pg.blockSector → InSlot s p pg.blockSector := by
    intro q hq
    by_cases hp : s.out p = none
    · exact absurd hq (hmeets hp q _ hname)
    · exact ⟨hp, hname⟩
  refine h.leave ?_ ?_ htable ?_
  · rw [hused]
    split <;> rfl
  · intro q
    by_cases hq : q = p
    · exact .inr ⟨hq, by rw [hslot, if_pos hq]⟩
    · exact .inl (by rw [hslot, if_neg hq])
  · intro j hj
    have hother : (j : ℤ) ≠ pg.blockSector → ¬InSlot s p j := fun hne hp =>
      hne (Option.some.inj (hp.2.symm.trans hname))
    rcases h.named p _ hname with hz | ⟨i, hi, hz⟩
    · rw [hused, if_pos hz]
      have hno := hother (by omega)
      simp [hno]
    · rw [hused, if_neg (by omega), hz, show ofInt32 (i : ℤ) = i by unfold ofInt32; omega]
      dsimp only
      by_cases hji : j = i
      · rw [hji, Function.update_self, h.used i hi, ← hz]
        constructor
        · intro hb
          cases hb
        · rintro ⟨⟨q, hq⟩, hp⟩
          exact absurd (howner q hq) hp
      · have hno := hother (by omega)
        rw [Function.update_of_ne hji]
        simp [hno]

/-- A page that is not swapped out is written to a slot that no page has. -/
theorem enter (h : Owned s) {pg : Page} {slot : ℕ} {t : ℕ → Sector} {c : Block 4096} (hout : s.out p = none)
    (hlt : slot < 1024) (hbit : s.mem.usedBlocks.bits slot = false)
    (ht : ∀ i, i < 8 → t (slotSector slot i) = sectorAt c i)
    (hframe : ∀ j, j < slot * 8 ∨ slot * 8 + 8 ≤ j → t j = s.mem.swapTable j) :
    Owned ⟨s.mem.inserted p pg slot t, Function.update s.out p (some c)⟩ := by
  have hfree : ∀ q, ¬InSlot s q slot := fun q hq =>
    absurd ((h.used slot hlt).mpr ⟨q, hq⟩) (by rw [hbit]; simp)
  have hpout : ∀ z, ¬InSlot s p z := fun z hp => hp.1 hout
  have hin : ∀ q z, InSlot ⟨s.mem.inserted p pg slot t, Function.update s.out p (some c)⟩ q z ↔
      q = p ∧ z = slot ∨ InSlot s q z := by
    intro q z
    by_cases hq : q = p
    · rw [hq]
      constructor
      · intro hp
        have hz := hp.2
        rw [Swap.slotOf_inserted, if_pos rfl] at hz
        exact .inl ⟨rfl, (Option.some.inj hz).symm⟩
      · intro hz
        rcases hz with ⟨_, hz⟩ | hp
        · rw [hz]
          exact ⟨by simp, by rw [Swap.slotOf_inserted, if_pos rfl]⟩
        · exact absurd hp (hpout z)
    · simp [InSlot, hq, Swap.slotOf_inserted]
  refine ⟨h.bitCnt, ?_, ?_, ?_, ?_, ?_⟩
  · intro q z hz
    rw [Swap.slotOf_inserted] at hz
    split at hz
    · exact .inr ⟨slot, hlt, (Option.some.inj hz).symm⟩
    · exact h.named q z hz
  · intro q hq
    by_cases hqp : q = p
    · exact ⟨slot, hlt, (hin q slot).mpr (.inl ⟨hqp, rfl⟩)⟩
    · dsimp only at hq
      rw [Function.update_of_ne hqp] at hq
      obtain ⟨i, hi, hqi⟩ := h.located q hq
      exact ⟨i, hi, (hin q i).mpr (.inr hqi)⟩
  · intro q r z hq hr
    rcases (hin q z).mp hq with ⟨hqp, hz⟩ | hq
    · rcases (hin r z).mp hr with ⟨hrp, _⟩ | hr
      · rw [hqp, hrp]
      · exact absurd (hz ▸ hr) (hfree r)
    · rcases (hin r z).mp hr with ⟨_, hz⟩ | hr
      · exact absurd (hz ▸ hq) (hfree q)
      · exact h.alone q r z hq hr
  · intro i hi
    by_cases his : i = slot
    · have hbit' : (s.mem.inserted p pg slot t).usedBlocks.bits i = true := by
        rw [his]
        exact Function.update_self ..
      exact iff_of_true hbit' ⟨p, (hin p i).mpr (.inl ⟨rfl, by rw [his]⟩)⟩
    · have hbit' : (s.mem.inserted p pg slot t).usedBlocks.bits i = s.mem.usedBlocks.bits i :=
        Function.update_of_ne his ..
      dsimp only
      rw [hbit', h.used i hi]
      apply exists_congr
      intro q
      have hne : (i : ℤ) ≠ slot := by omega
      rw [hin]
      simp [hne]
  · intro q d i hd hq hi k hk
    rcases (hin q i).mp hq with ⟨hqp, hz⟩ | hq
    · dsimp only at hd
      rw [hqp, Function.update_self] at hd
      cases hd
      rw [show i = slot by omega]
      exact ht k hk
    · have hqp : q ≠ p := fun hqp => hpout i (hqp ▸ hq)
      have his : i ≠ slot := fun his => hfree q (his ▸ hq)
      dsimp only at hd
      rw [Function.update_of_ne hqp] at hd
      have hsector := h.holds q d i hd hq hi k hk
      rw [slotSector_eq hi hk] at hsector ⊢
      exact (hframe _ (by omega)).trans hsector

theorem insert (h : Owned s) (hmeets : MeetsOwner s (.insert p)) (hinsert : s.mem.swapInsert p = some m) :
    Owned ⟨m, Function.update s.out p (s.mem.bytesOf p)⟩ := by
  obtain ⟨pg, f, slot, t, hpg, hf, hlt, hbit, ht, hframe, rfl⟩ := Swap.swapInsert_spec (le_of_eq h.bitCnt) hinsert
  have hbytes : s.mem.bytesOf p = some (s.mem.ram (s.mem.frame f).kpage) := by
    simp only [Swap.bytesOf, hpg, hf, bind, Option.bind_some, pure]
  rw [hbytes]
  exact h.enter hmeets (by rw [← h.bitCnt]; exact hlt) hbit ht hframe

theorem elsewhere (h : Owned s) (hother : s.mem.Elsewhere m) : Owned ⟨m, s.out⟩ := by
  have hin : ∀ q z, InSlot ⟨m, s.out⟩ q z ↔ InSlot s q z := by
    intro q z
    unfold InSlot
    dsimp only
    rcases hother.slotOf q with hsame | ⟨hnone, _⟩
    · rw [hsame]
    · have hq : s.out q = none := by
        by_contra hq
        obtain ⟨i, _, hqi⟩ := h.located q hq
        have hname := hqi.2
        rw [hnone] at hname
        cases hname
      simp [hq]
  refine ⟨by rw [hother.usedBlocks, h.bitCnt], ?_, ?_, ?_, ?_, ?_⟩
  · intro q z hz
    rcases hother.slotOf q with hsame | ⟨_, hnew⟩
    · exact h.named q z (hsame.symm.trans hz)
    · exact .inl (Option.some.inj (hz.symm.trans hnew))
  · intro q hq
    obtain ⟨i, hi, hqi⟩ := h.located q hq
    exact ⟨i, hi, (hin q i).mpr hqi⟩
  · intro q r z hq hr
    exact h.alone q r z ((hin q z).mp hq) ((hin r z).mp hr)
  · intro i hi
    simp only [hother.usedBlocks, h.used i hi, hin]
  · intro q c i hc hq hi k hk
    simp only [hother.swapTable]
    exact h.holds q c i hc ((hin q i).mp hq) hi k hk

/-- **A step that meets the condition keeps the invariant.** -/
theorem step {s' : System} {e : Event} (h : Owned s) (hmeets : MeetsOwner s e) (hstep : Step s e s') : Owned s' := by
  cases hstep with
  | insert hinsert => exact h.insert hmeets hinsert
  | get hout hget => exact h.get hout hget
  | destroy hdestroy => exact h.destroy hmeets hdestroy
  | elsewhere hother => exact h.elsewhere hother

end Owned

/-! ## Runs -/

/-- A step that does not meet the condition leaves a used bit without a page, or a page without its bit. -/
theorem Owned.not_oneOwner {s s' : System} {e : Event} (h : Owned s) (hmeets : ¬MeetsOwner s e) (hstep : Step s e s') :
    ¬OneOwner s' := by
  intro howner
  cases hstep with
  | @insert p m hinsert =>
    obtain ⟨pg, f, slot, t, _, _, hlt, hbit, _, _, rfl⟩ := Swap.swapInsert_spec (le_of_eq h.bitCnt) hinsert
    obtain ⟨i, hi, hin⟩ := h.located p hmeets
    have hold : s.mem.usedBlocks.bits i = true := (h.used i hi).mpr ⟨p, hin⟩
    have hne : i ≠ slot := by
      rintro rfl
      rw [hbit] at hold
      cases hold
    have hkept : (s.mem.inserted p pg slot t).usedBlocks.bits i = true := by
      rw [← hold]
      exact Function.update_of_ne hne ..
    obtain ⟨q, hout, hq⟩ := (howner.used i hi).mp hkept
    dsimp only at hout hq
    rw [Swap.slotOf_inserted] at hq
    by_cases hqp : q = p
    · rw [if_pos hqp] at hq
      exact hne (by have := Option.some.inj hq; omega)
    · rw [if_neg hqp] at hq
      rw [Function.update_of_ne hqp] at hout
      exact hqp (h.alone q p i ⟨hout, hq⟩ hin)
  | @destroy p m hdestroy =>
    obtain ⟨pg, hpg, hslot, _, hused⟩ := Swap.pageDestructor_spec hdestroy
    simp only [MeetsOwner, not_forall, not_not] at hmeets
    obtain ⟨hout, q, z, hname, hq⟩ := hmeets
    have hqp : q ≠ p := by
      rintro rfl
      exact hq.1 hout
    obtain ⟨i, hi, hqi⟩ := h.located q hq.1
    have hz : z = i := Option.some.inj (hq.2.symm.trans hqi.2)
    have hpz : pg.blockSector = i := by
      rw [Swap.slotOf, hpg, Option.map_some] at hname
      exact (Option.some.inj hname).trans hz
    have hstill : InSlot ⟨m, Function.update s.out p none⟩ q i := by
      unfold InSlot
      dsimp only
      rw [Function.update_of_ne hqp, hslot, if_neg hqp]
      exact hqi
    have hbit := (howner.used i hi).mpr ⟨q, hstill⟩
    dsimp only at hbit
    rw [hused, if_neg (by omega), hpz, show ofInt32 (i : ℤ) = i by unfold ofInt32; omega] at hbit
    dsimp only at hbit
    rw [Function.update_self] at hbit
    cases hbit
  | get => exact hmeets trivial
  | elsewhere => exact hmeets trivial

/-- **Every slot has one owner in every state of every run whose steps meet the condition**, and the next step keeps it
so exactly if it meets the condition. -/
theorem slots_have_one_owner {s s' : System} {es : List Event} (hstart : Start s)
    (hrun : Trace (fun s e s' => MeetsOwner s e ∧ Step s e s') s es s') :
    OneOwner s' ∧ ∀ e t, Step s' e t → (OneOwner t ↔ MeetsOwner s' e) := by
  have howned : Owned s' :=
    hrun.invariant (fun s e s' h hstep => h.step hstep.1 hstep.2) (Owned.start hstart)
  refine ⟨howned.oneOwner, ?_⟩
  intro e t hstep
  constructor
  · intro howner
    by_contra hmeets
    exact howned.not_oneOwner hmeets hstep howner
  · intro hmeets
    exact (howned.step hmeets hstep).oneOwner

/-- The calls, as they compute. -/
def System.call (s : System) : Event → Option System
  | .insert p => (s.mem.swapInsert p).map fun m => ⟨m, Function.update s.out p (s.mem.bytesOf p)⟩
  | .get p => if (s.out p).isNone then none else (s.mem.swapGet p).map fun m => ⟨m, Function.update s.out p none⟩
  | .destroy p => (s.mem.pageDestructor p).map fun m => ⟨m, Function.update s.out p none⟩
  | .elsewhere => some s

theorem System.step_of_call {s s' : System} {e : Event} (h : s.call e = some s') : Step s e s' := by
  cases e with
  | insert p =>
    obtain ⟨m, hm, rfl⟩ := Option.map_eq_some_iff.mp h
    exact .insert hm
  | get p =>
    dsimp only [call] at h
    split at h
    · cases h
    · rename_i hout
      obtain ⟨m, hm, rfl⟩ := Option.map_eq_some_iff.mp h
      exact .get (by simpa using hout) hm
  | destroy p =>
    obtain ⟨m, hm, rfl⟩ := Option.map_eq_some_iff.mp h
    exact .destroy hm
  | elsewhere =>
    cases h
    exact .elsewhere ⟨rfl, rfl, rfl, fun _ => .inl rfl⟩

/-- A sequence of calls. -/
def System.calls : System → List Event → Option System
  | s, [] => some s
  | s, e :: es => do
    let s ← s.call e
    s.calls es

theorem System.calls_cons {s s' : System} {e : Event} {es : List Event} :
    s.calls (e :: es) = some s' ↔ ∃ s₁, s.call e = some s₁ ∧ s₁.calls es = some s' := Option.bind_eq_some_iff

theorem System.trace_of_calls {s s' : System} {es : List Event} (h : s.calls es = some s') : Trace Step s es s' := by
  induction es generalizing s with
  | nil =>
    cases h
    exact .nil s'
  | cons e es ih =>
    obtain ⟨s₁, h₁, h⟩ := calls_cons.mp h
    exact .cons (step_of_call h₁) (ih h)

/-- Pages 1, 2 and 3 in frames of their own, and a swap device with room for 1024 pages. -/
def threePages : System where
  mem := {
    usedBlocks := Bitmap.create 1024 fun _ => false
    swapTable := fun _ => Block.zero
    blockSize := 8192
    page := fun p => if p = 1 ∨ p = 2 ∨ p = 3 then some ⟨some p, -1⟩ else none
    frame := fun f => ⟨4096 * f, some f⟩
    ram := fun kpage => Block.mk fun _ => UInt8.ofNat (kpage / 4096) }
  out := fun _ => none

theorem start_threePages : Start threePages := by
  refine ⟨⟨_, rfl⟩, ?_, fun _ => rfl⟩
  intro p z hz
  unfold Swap.slotOf threePages at hz
  dsimp only at hz
  split at hz
  · exact (Option.some.inj hz).symm
  · cases hz

theorem slots_have_one_owner_threePages : ∃ s',
    Trace (fun s e s' => MeetsOwner s e ∧ Step s e s') threePages [.insert 1, .get 1] s' ∧
      OneOwner s' ∧ ∀ e t, Step s' e t → (OneOwner t ↔ MeetsOwner s' e) := by
  have hsome : (threePages.calls [.insert 1, .get 1]).isSome = true := by decide +kernel
  obtain ⟨s', hs'⟩ := Option.isSome_iff_exists.mp hsome
  obtain ⟨s₁, h₁, h⟩ := System.calls_cons.mp hs'
  obtain ⟨s₂, h₂, h⟩ := System.calls_cons.mp h
  cases h
  have hrun : Trace (fun s e s' => MeetsOwner s e ∧ Step s e s') threePages [.insert 1, .get 1] s' :=
    .cons ⟨rfl, System.step_of_call h₁⟩ (.single ⟨trivial, System.step_of_call h₂⟩)
  exact ⟨s', hrun, slots_have_one_owner start_threePages hrun⟩

/-- Page 1 comes back from slot 0 and is destroyed while page 2 is there; then page 3 is written to slot 0, too. -/
theorem two_pages_in_one_slot :
    ¬∀ s es s', Start s → Trace Step s es s' → OneOwner s' := by
  intro hall
  have hrun : (threePages.calls [.insert 1, .get 1, .insert 2, .destroy 1, .insert 3]).map
      (fun s => ((s.out 2).isSome, (s.out 3).isSome, s.mem.slotOf 2, s.mem.slotOf 3)) =
      some (true, true, some 0, some 0) := by decide +kernel
  obtain ⟨s, hs, hslots⟩ := Option.map_eq_some_iff.mp hrun
  simp only [Prod.mk.injEq] at hslots
  obtain ⟨hout₂, hout₃, hslot₂, hslot₃⟩ := hslots
  have howner := hall threePages _ s start_threePages (System.trace_of_calls hs)
  have heq := howner.alone 2 3 0 ⟨Option.isSome_iff_ne_none.mp hout₂, hslot₂⟩
    ⟨Option.isSome_iff_ne_none.mp hout₃, hslot₃⟩
  omega

end Pintos.Vm
