import Pintos.Library.Carving
import Pintos.Threads.Palloc

/-!
# The heap

`threads/malloc.c`: blocks of 16 to 1024 bytes are carved out of pages, an arena for each page, and the free ones are
in the list of their descriptor; a larger block has an arena of its own.

The headers of the arenas are apart from the other bytes, and so are the free lists, of which the links are written
into the blocks (`Heap.links`).  A store that runs past the block that it is meant for is `Stop.overrun`: nothing is said
of what happens then.  `Heap.own` keeps account of the pages that are obtained.

* `Chunk`: the pages of an arena, and the cells in them.
* `Heap.Inv`: the cells of an arena are free or live, each once, and the header agrees.
-/

namespace Pintos.Threads.Malloc

open Pintos.Threads.Palloc (Pools Grant PallocFlags)
open Carving (onPage Carved)

/-! ## The code -/

/-- `struct desc`, but for its free list. -/
structure Desc where
  blockSize : Word
  blocksPerArena : Word
  deriving DecidableEq

/-- `sizeof (struct arena)` -/
def arenaSize : Word := 12

/-- The loop of `malloc_init`, with the number of descriptors that are left. -/
def initLoop : ℕ → Word → Option (List Desc)
  | 0, blockSize => if blockSize < pgSize / 2 then none else some []
  | left + 1, blockSize =>
    if blockSize < pgSize / 2 then
      (initLoop left (blockSize * 2)).map (⟨blockSize, (pgSize - arenaSize) / blockSize⟩ :: ·)
    else some []

/-- `malloc_init` -/
def mallocInit : Option (List Desc) := initLoop 10 16

/-- `descs`, of which there are `desc_cnt`. -/
def descs : List Desc := [⟨16, 255⟩, ⟨32, 127⟩, ⟨64, 63⟩, ⟨128, 31⟩, ⟨256, 15⟩, ⟨512, 7⟩, ⟨1024, 3⟩]

theorem mallocInit_eq : mallocInit = some descs := by decide

/-- A pointer to a descriptor. -/
abbrev DescPtr := Fin descs.length

/-- `ARENA_MAGIC` -/
def arenaMagic : Word := 0x9a548eed

/-- `struct arena` -/
structure Arena where
  magic : Word
  desc : Option DescPtr
  freeCnt : Word

/-- The pages that are obtained for an arena, and what for. -/
structure Chunk where
  pages : Word
  cnt : Word
  desc : Option DescPtr
  deriving DecidableEq

/-- An assertion that fails, or a store past the end of a block. -/
inductive Stop where
  | panic
  | overrun

/-- The memory of the heap.  `links` are the bytes of the links of a free list. -/
structure Heap where
  freeList : DescPtr → List Word
  arenas : Word → Arena
  bytes : Word → BitVec 8
  links : DescPtr → List Word → Word → BitVec 8
  pools : Pools
  own : List Chunk

/-- The smallest descriptor for a request. -/
def findDesc (size : Word) : Option DescPtr :=
  (List.finRange descs.length).find? fun i => decide ((descs.get i).blockSize ≥ size)

/-- `DIV_ROUND_UP (size + sizeof *a, PGSIZE)` -/
def pageCnt (size : Word) : Word := (size + arenaSize + pgSize - 1) / pgSize

theorem ok_bind {α β : Type} (x : α) (f : α → Except Stop β) : (Except.ok x >>= f) = f x := rfl

namespace Heap

variable (H : Heap)

/-- A free list changes; the links are in the first bytes of its blocks. -/
def setFreeList (i : DescPtr) (l : List Word) : Heap :=
  { H with
    freeList := Function.update H.freeList i l
    bytes := fun x => if l.any fun b => x - b < 8 then H.links i l x else H.bytes x }

/-- Stores to the header of an arena. -/
def setArena (a : Word) (arena : Arena) : Heap := { H with arenas := Function.update H.arenas a arena }

/-- `palloc_get_multiple (0, cnt)`, for an arena of the descriptor or for a big block. -/
def getPages (cnt : Word) (desc : Option DescPtr) : Except Stop (Word × Heap) :=
  match H.pools.pallocGetMultiple ⟨false, false, false⟩ cnt with
  | none => .error .panic
  | some (a, pools) => .ok (a, { H with pools, own := if a = 0 then H.own else ⟨a, cnt, desc⟩ :: H.own })

/-- `palloc_free_multiple (a, cnt)`; the pages are filled, and the header is lost with them. -/
def freePages (a cnt : Word) : Except Stop Heap :=
  match H.pools.pallocFreeMultiple a cnt with
  | none => .error .panic
  | some pools => .ok { H with
      pools
      own := H.own.erase ⟨a, cnt, (H.arenas a).desc⟩
      bytes := fun x => if x - a < pgSize * cnt then 0xcc else H.bytes x
      arenas := fun x => if x - a < pgSize * cnt then ⟨0xcccccccc, none, 0xcccccccc⟩ else H.arenas x }

/-- `block_to_arena` -/
def blockToArena (b : Word) : Except Stop Word :=
  let a := pgRoundDown b
  if a ≠ 0 ∧ (H.arenas a).magic = arenaMagic then
    match (H.arenas a).desc with
    | some i => if (pgOfs b - arenaSize) % (descs.get i).blockSize = 0 then .ok a else .error .panic
    | none => if pgOfs b = arenaSize then .ok a else .error .panic
  else .error .panic

/-- `arena_to_block` -/
def arenaToBlock (a idx : Word) : Except Stop Word :=
  if a ≠ 0 ∧ (H.arenas a).magic = arenaMagic then
    match (H.arenas a).desc with
    | some i =>
      if idx < (descs.get i).blocksPerArena then .ok (a + arenaSize + idx * (descs.get i).blockSize) else .error .panic
    | none => .error .panic
  else .error .panic

/-- The loop of `malloc` that adds the blocks of an arena to the free list. -/
def addBlocks (a : Word) (i : DescPtr) : ℕ → Word → Heap → Except Stop Heap
  | 0, _, H => .ok H
  | left + 1, idx, H => do
    let b ← H.arenaToBlock a idx
    addBlocks a i left (idx + 1) (H.setFreeList i (H.freeList i ++ [b]))

/-- The loop of `free` that removes the blocks of an arena from the free list. -/
def removeBlocks (a : Word) (i : DescPtr) : ℕ → Word → Heap → Except Stop Heap
  | 0, _, H => .ok H
  | left + 1, idx, H => do
    let b ← H.arenaToBlock a idx
    if b ∈ H.freeList i then removeBlocks a i left (idx + 1) (H.setFreeList i ((H.freeList i).erase b))
    else .error .panic

/-- A page for an arena of the descriptor, unless there is none. -/
def newArena (i : DescPtr) : Except Stop (Bool × Heap) := do
  let (a, H) ← H.getPages 1 (some i)
  if a = 0 then return (false, H)
  else
    let H := H.setArena a ⟨arenaMagic, some i, (descs.get i).blocksPerArena⟩
    let H ← addBlocks a i (descs.get i).blocksPerArena.toNat 0 H
    return (true, H)

/-- The first block of the free list. -/
def takeBlock (i : DescPtr) : Except Stop (Word × Heap) :=
  match H.freeList i with
  | [] => .error .panic
  | b :: l => do
    let H := H.setFreeList i l
    let a ← H.blockToArena b
    return (b, H.setArena a { H.arenas a with freeCnt := (H.arenas a).freeCnt - 1 })

/-- `malloc` -/
def malloc (size : Word) : Except Stop (Word × Heap) :=
  if size = 0 then .ok (0, H)
  else
    match findDesc size with
    | none => do
      let (a, H) ← H.getPages (pageCnt size) none
      if a = 0 then return (0, H)
      else return (a + arenaSize, H.setArena a ⟨arenaMagic, none, pageCnt size⟩)
    | some i => do
      let (found, H) ← if H.freeList i = [] then H.newArena i else .ok (true, H)
      if found then H.takeBlock i else return (0, H)

/-- `free` -/
def free (p : Word) : Except Stop Heap :=
  if p = 0 then .ok H
  else do
    let a ← H.blockToArena p
    match (H.arenas a).desc with
    | some i =>
      let H := { H with bytes := fun x => if x - p < (descs.get i).blockSize then 0xcc else H.bytes x }
      let H := H.setFreeList i (p :: H.freeList i)
      let freeCnt := (H.arenas a).freeCnt + 1
      let H := H.setArena a { H.arenas a with freeCnt := freeCnt }
      if freeCnt ≥ (descs.get i).blocksPerArena then
        if freeCnt = (descs.get i).blocksPerArena then
          let H ← removeBlocks a i (descs.get i).blocksPerArena.toNat 0 H
          H.freePages a 1
        else .error .panic
      else return H
    | none => H.freePages a (H.arenas a).freeCnt

/-- `block_size` -/
def blockSize (block : Word) : Except Stop Word := do
  let a ← H.blockToArena block
  match (H.arenas a).desc with
  | some i => return (descs.get i).blockSize
  | none => return pgSize * (H.arenas a).freeCnt - pgOfs block

/-- `memset (p, 0, size)`, for a block. -/
def memsetBlock (p size : Word) : Except Stop Heap := do
  let room ← H.blockSize p
  if size ≤ room then return { H with bytes := fun x => if x - p < size then 0 else H.bytes x }
  else .error .overrun

/-- `memcpy (dst, src, size)`, where `dst` is a block. -/
def memcpyBlock (dst src size : Word) : Except Stop Heap := do
  let room ← H.blockSize dst
  if size ≤ room then return { H with bytes := fun x => if x - dst < size then H.bytes (src + (x - dst)) else H.bytes x }
  else .error .overrun

/-- `calloc` -/
def calloc (a b : Word) : Except Stop (Word × Heap) :=
  let size := a * b
  if size < a ∨ size < b then .ok (0, H)
  else do
    let (p, H) ← H.malloc size
    if p ≠ 0 then
      let H ← H.memsetBlock p size
      return (p, H)
    else return (p, H)

/-- `realloc` -/
def realloc (oldBlock newSize : Word) : Except Stop (Word × Heap) :=
  if newSize = 0 then do
    let H ← H.free oldBlock
    return (0, H)
  else do
    let (newBlock, H) ← H.malloc newSize
    if oldBlock ≠ 0 ∧ newBlock ≠ 0 then
      let oldSize ← H.blockSize oldBlock
      let minSize := if newSize < oldSize then newSize else oldSize
      let H ← H.memcpyBlock newBlock oldBlock minSize
      let H ← H.free oldBlock
      return (newBlock, H)
    else return (newBlock, H)

end Heap

/-! ## Cells -/

/-- The blocks of an arena fit behind its header. -/
theorem descs_fit : ∀ i : DescPtr, 16 ≤ (descs.get i).blockSize.toNat ∧ 0 < (descs.get i).blocksPerArena.toNat ∧
    12 + (descs.get i).blocksPerArena.toNat * (descs.get i).blockSize.toNat ≤ 4096 := by decide

namespace Chunk

variable {c : Chunk} {b b' : Word} {k : ℕ}

def grant (c : Chunk) : Grant := ⟨false, c.pages, c.cnt⟩

/-- The number of cells. -/
def blocks (c : Chunk) : ℕ :=
  match c.desc with
  | some i => (descs.get i).blocksPerArena.toNat
  | none => 1

/-- The bytes of a cell. -/
def room (c : Chunk) : ℕ :=
  match c.desc with
  | some i => (descs.get i).blockSize.toNat
  | none => 4096 * c.cnt.toNat - 12

def cell (c : Chunk) (k : ℕ) : Word := c.pages + arenaSize + BitVec.ofNat 32 (k * c.room)

def cells (c : Chunk) : List Word := (List.range c.blocks).map c.cell

/-- The bytes of a block. -/
def extent (c : Chunk) (b : Word) : Set ℕ := Set.Ico b.toNat (b.toNat + c.room)

/-- Pages below the top of the address space; the arena of a descriptor is one page. -/
structure Valid (c : Chunk) : Prop where
  aligned : c.pages.toNat % 4096 = 0
  low : 0 < c.pages.toNat
  pos : 0 < c.cnt.toNat
  high : c.pages.toNat + 4096 * c.cnt.toNat < 2 ^ 32
  single : ∀ i, c.desc = some i → c.cnt = 1

theorem Valid.fits (h : c.Valid) : 16 ≤ c.room ∧ 0 < c.blocks ∧ 12 + c.blocks * c.room ≤ 4096 * c.cnt.toNat := by
  unfold blocks room
  cases hdesc : c.desc with
  | some i =>
    obtain ⟨hroom, hblocks, hfit⟩ := descs_fit i
    rw [h.single i hdesc]
    exact ⟨hroom, hblocks, hfit⟩
  | none =>
    have hpos := h.pos
    dsimp only
    omega

theorem Valid.toNat_cell (h : c.Valid) (hk : k < c.blocks) :
    (c.cell k).toNat = c.pages.toNat + 12 + k * c.room ∧
      c.pages.toNat + 12 + k * c.room + c.room ≤ c.pages.toNat + 4096 * c.cnt.toNat := by
  obtain ⟨-, -, hfit⟩ := h.fits
  have hhigh := h.high
  have hle : k * c.room + c.room ≤ c.blocks * c.room := by
    rw [← Nat.succ_mul]
    exact Nat.mul_le_mul_right _ hk
  generalize hoff : k * c.room = off at hle
  have hofs : (BitVec.ofNat 32 off).toNat = off := by
    rw [BitVec.toNat_ofNat, Nat.mod_eq_of_lt (by omega)]
  have harena : (c.pages + arenaSize).toNat = c.pages.toNat + 12 := BitVec.toNat_add_of_lt (by
    show c.pages.toNat + 12 < 2 ^ 32
    omega)
  constructor
  · rw [cell, hoff, BitVec.toNat_add_of_lt] <;> rw [harena, hofs]
    omega
  · omega

theorem Valid.mem_cells (h : c.Valid) : b ∈ c.cells ↔ ∃ k < c.blocks, b.toNat = c.pages.toNat + 12 + k * c.room := by
  unfold cells
  rw [List.mem_map]
  constructor
  · intro hb
    obtain ⟨k, hk, rfl⟩ := hb
    exact ⟨k, List.mem_range.mp hk, (h.toNat_cell (List.mem_range.mp hk)).1⟩
  · intro hb
    obtain ⟨k, hk, heq⟩ := hb
    exact ⟨k, List.mem_range.mpr hk, BitVec.eq_of_toNat_eq ((h.toNat_cell hk).1.trans heq.symm)⟩

theorem Valid.nodup_cells (h : c.Valid) : c.cells.Nodup := by
  apply List.Nodup.map_on _ List.nodup_range
  intro k hk k' hk' heq
  have hroom := h.fits.1
  have hval := congrArg BitVec.toNat heq
  rw [(h.toNat_cell (List.mem_range.mp hk)).1, (h.toNat_cell (List.mem_range.mp hk')).1] at hval
  exact Nat.eq_of_mul_eq_mul_right (by omega) (Nat.add_left_cancel hval)

/-- A cell is behind the header, and in the pages. -/
theorem Valid.cell_within (h : c.Valid) (hb : b ∈ c.cells) :
    c.pages.toNat + 12 ≤ b.toNat ∧ b.toNat + c.room ≤ c.pages.toNat + 4096 * c.cnt.toNat := by
  obtain ⟨k, hk, heq⟩ := h.mem_cells.mp hb
  have hend := (h.toNat_cell hk).2
  generalize k * c.room = off at heq hend
  omega

theorem Valid.cell_ne_zero (h : c.Valid) (hb : b ∈ c.cells) : b ≠ 0 := by
  intro heq
  have hlow := (h.cell_within hb).1
  rw [heq] at hlow
  have hzero : (0 : Word).toNat = 0 := rfl
  omega

/-- Two cells of an arena share no byte. -/
theorem Valid.cells_apart (h : c.Valid) (hb : b ∈ c.cells) (hb' : b' ∈ c.cells) (hne : b ≠ b') :
    Disjoint (c.extent b) (c.extent b') := by
  obtain ⟨k, -, heq⟩ := h.mem_cells.mp hb
  obtain ⟨k', -, heq'⟩ := h.mem_cells.mp hb'
  have hstep : ∀ {k k' : ℕ}, k < k' → k * c.room + c.room ≤ k' * c.room := by
    intro k k' hlt
    rw [← Nat.succ_mul]
    exact Nat.mul_le_mul_right _ hlt
  apply Set.disjoint_left.mpr
  intro x hx hx'
  rw [extent, Set.mem_Ico] at hx hx'
  rcases Nat.lt_trichotomy k k' with hlt | rfl | hlt
  · have hle := hstep hlt
    omega
  · exact hne (BitVec.eq_of_toNat_eq (heq.trans heq'.symm))
  · have hle := hstep hlt
    omega

/-- A block is in the first page of its arena. -/
theorem Valid.pgRoundDown_cell (h : c.Valid) (hb : b ∈ c.cells) :
    pgRoundDown b = c.pages ∧ (pgOfs b).toNat = b.toNat - c.pages.toNat := by
  obtain ⟨k, hk, heq⟩ := h.mem_cells.mp hb
  have haligned := h.aligned
  have hfirst : 12 + k * c.room < 4096 := by
    have hend := (h.toNat_cell hk).2
    have hroom := h.fits.1
    unfold blocks at hk
    cases hdesc : c.desc with
    | some i =>
      have hone : c.cnt.toNat = 1 := congrArg BitVec.toNat (h.single i hdesc)
      omega
    | none =>
      rw [hdesc] at hk
      obtain rfl : k = 0 := Nat.lt_one_iff.mp hk
      omega
  generalize k * c.room = off at heq hfirst
  constructor
  · apply BitVec.eq_of_toNat_eq
    rw [toNat_pgRoundDown]
    omega
  · rw [toNat_pgOfs]
    omega

end Chunk

/-! ## The invariant -/

/-- A block that is handed out, and the number of bytes that were asked for. -/
structure LiveBlock where
  addr : Word
  size : ℕ
  deriving DecidableEq

namespace Heap

variable {H H' : Heap} {foreign : List Grant} {live : List LiveBlock} {c c' : Chunk} {b b' : Word} {i : DescPtr}

/-- The free list for the cells of an arena. -/
def freeOf (H : Heap) : Option DescPtr → List Word
  | some i => H.freeList i
  | none => []

/-- What `free_cnt` counts: free blocks, or the pages of a big block. -/
def freeBlocks (H : Heap) (c : Chunk) : ℕ :=
  match c.desc with
  | some i => (onPage pgRoundDown (H.freeOf (some i)) c.pages).length
  | none => c.cnt.toNat

/-- The header of an arena. -/
structure Header (H : Heap) (c : Chunk) : Prop where
  valid : c.Valid
  magic : (H.arenas c.pages).magic = arenaMagic
  desc : (H.arenas c.pages).desc = c.desc

/-- The cells of some arenas are free or live, each once, and the headers agree. -/
structure Cells (H : Heap) (own : List Chunk) (live : List LiveBlock) : Prop where
  header : ∀ c ∈ own, H.Header c
  apart : own.Pairwise fun c c' => Disjoint c.grant.pageSet c'.grant.pageSet
  freeCnt : ∀ c ∈ own, (H.arenas c.pages).freeCnt.toNat = H.freeBlocks c
  carved : ∀ c ∈ own, Carved pgRoundDown (H.freeOf c.desc) (live.map (·.addr)) c.pages c.cells
  free_of : ∀ i, ∀ b ∈ H.freeList i, ∃ c ∈ own, c.desc = some i ∧ pgRoundDown b = c.pages
  live_of : ∀ l ∈ live, ∃ c ∈ own, pgRoundDown l.addr = c.pages ∧ l.size ≤ c.room

/-- The invariant of the calls; `foreign` are the pages that others have obtained. -/
structure Inv (H : Heap) (foreign : List Grant) (live : List LiveBlock) : Prop where
  pools : H.pools.Inv (H.own.map Chunk.grant ++ foreign)
  cells : H.Cells H.own live

/-- Arenas that share no page are on different pages. -/
theorem pages_ne (hapart : Disjoint c.grant.pageSet c'.grant.pageSet) (hc : c.Valid) (hc' : c'.Valid) :
    c.pages ≠ c'.pages := by
  intro heq
  have hpos := hc.pos
  have hpos' := hc'.pos
  have hdisj := Set.disjoint_left.mp hapart
  apply @hdisj c.grant.first
  · exact Set.mem_Ico.mpr ⟨le_rfl, Nat.lt_add_of_pos_right hpos⟩
  · have hfirst : c'.grant.first = c.grant.first := congrArg (fun a => BitVec.toNat a / 4096) heq.symm
    exact Set.mem_Ico.mpr ⟨hfirst.le, by rw [hfirst]; exact Nat.lt_add_of_pos_right hpos'⟩

namespace Cells

variable {own : List Chunk}

/-- Different arenas share no page. -/
theorem apart_of_ne (h : H.Cells own live) (hc : c ∈ own) (hc' : c' ∈ own) (hne : c ≠ c') :
    Disjoint c.grant.pageSet c'.grant.pageSet := by
  have hsymm : Std.Symm fun c c' : Chunk => Disjoint c.grant.pageSet c'.grant.pageSet := ⟨fun _ _ hab => hab.symm⟩
  exact h.apart.forall hc hc' hne

theorem ne_of_ne (h : H.Cells own live) (hc : c ∈ own) (hc' : c' ∈ own) (hne : c ≠ c') : c.pages ≠ c'.pages :=
  pages_ne (h.apart_of_ne hc hc' hne) (h.header c hc).valid (h.header c' hc').valid

theorem eq_of_pages (h : H.Cells own live) (hc : c ∈ own) (hc' : c' ∈ own) (heq : c.pages = c'.pages) : c = c' := by
  by_contra hne
  exact h.ne_of_ne hc hc' hne heq

/-- The bytes of a block are in the pages of its arena. -/
theorem extent_within (h : H.Cells own live) (hc : c ∈ own) (hb : b ∈ c.cells) :
    ∀ x ∈ c.extent b, x / 4096 ∈ c.grant.pageSet := by
  intro x hx
  have hvalid := (h.header c hc).valid
  have haligned := hvalid.aligned
  obtain ⟨hlow, hhigh⟩ := hvalid.cell_within hb
  rw [Chunk.extent, Set.mem_Ico] at hx
  refine Set.mem_Ico.mpr ⟨?_, ?_⟩
  · show c.pages.toNat / 4096 ≤ x / 4096
    omega
  · show x / 4096 < c.pages.toNat / 4096 + c.cnt.toNat
    omega

/-- Two blocks share no byte. -/
theorem blocks_apart (h : H.Cells own live) (hc : c ∈ own) (hc' : c' ∈ own) (hb : b ∈ c.cells) (hb' : b' ∈ c'.cells)
    (hne : b ≠ b') : Disjoint (c.extent b) (c'.extent b') := by
  by_cases heq : c = c'
  · cases heq
    exact (h.header c hc).valid.cells_apart hb hb' hne
  · have hapart := h.apart_of_ne hc hc' heq
    apply Set.disjoint_left.mpr
    intro x hx hx'
    exact Set.disjoint_left.mp hapart (h.extent_within hc hb x hx) (h.extent_within hc' hb' x hx')

/-- The arena of a live block. -/
theorem live_cell (h : H.Cells own live) {l : LiveBlock} (hl : l ∈ live) :
    ∃ c ∈ own, l.addr ∈ c.cells ∧ l.size ≤ c.room := by
  obtain ⟨c, hc, hpage, hsize⟩ := h.live_of l hl
  exact ⟨c, hc, (h.carved c hc).mem_cells_of_live (List.mem_map_of_mem hl) hpage, hsize⟩

/-- The arena of a free block. -/
theorem free_cell (h : H.Cells own live) (hb : b ∈ H.freeList i) : ∃ c ∈ own, c.desc = some i ∧ b ∈ c.cells := by
  obtain ⟨c, hc, hdesc, hpage⟩ := h.free_of i b hb
  have hfree : b ∈ H.freeOf c.desc := by
    rw [hdesc]
    exact hb
  exact ⟨c, hc, hdesc, (h.carved c hc).mem_cells_of_free hfree hpage⟩

/-- A free block is not live. -/
theorem free_not_live (h : H.Cells own live) (hb : b ∈ H.freeList i) : b ∉ live.map (·.addr) := by
  obtain ⟨c, hc, hdesc, hpage⟩ := h.free_of i b hb
  have hfree : b ∈ H.freeOf c.desc := by
    rw [hdesc]
    exact hb
  exact (h.carved c hc).not_live (h.header c hc).valid.nodup_cells hpage hfree

/-- No two live blocks start at one address. -/
theorem nodup_live (h : H.Cells own live) : (live.map (·.addr)).Nodup := by
  rw [List.nodup_iff_count_le_one]
  intro b
  by_cases hb : b ∈ live.map (·.addr)
  · obtain ⟨l, hl, rfl⟩ := List.mem_map.mp hb
    obtain ⟨c, hc, hcell, -⟩ := h.live_cell hl
    have hvalid := (h.header c hc).valid
    have hcount := (h.carved c hc).count hvalid.nodup_cells hcell (hvalid.pgRoundDown_cell hcell).1
    omega
  · rw [List.count_eq_zero_of_not_mem hb]
    exact Nat.zero_le 1

/-- What the cells are about. -/
theorem congr (h : H.Cells own live) (hfree : H'.freeList = H.freeList)
    (harenas : ∀ c ∈ own, H'.arenas c.pages = H.arenas c.pages) : H'.Cells own live := by
  have hfreeOf : ∀ d, H'.freeOf d = H.freeOf d := by
    intro d
    cases d with
    | none => rfl
    | some i => exact congrFun hfree i
  constructor
  · intro c hc
    have hheader := h.header c hc
    constructor
    · exact hheader.valid
    · rw [harenas c hc]
      exact hheader.magic
    · rw [harenas c hc]
      exact hheader.desc
  · exact h.apart
  · intro c hc
    rw [harenas c hc, h.freeCnt c hc]
    unfold freeBlocks
    simp only [hfreeOf]
  · intro c hc
    rw [hfreeOf]
    exact h.carved c hc
  · intro i
    rw [hfree]
    exact h.free_of i
  · exact h.live_of

end Cells

/-! ## Headers -/

namespace Header

theorem pages_ne_zero (h : H.Header c) : c.pages ≠ 0 := by
  intro heq
  have hlow := h.valid.low
  rw [heq] at hlow
  exact absurd hlow (by decide)

/-- **`block_to_arena`** -/
theorem blockToArena_eq (h : H.Header c) (hb : b ∈ c.cells) : H.blockToArena b = .ok c.pages := by
  obtain ⟨hpage, hofs⟩ := h.valid.pgRoundDown_cell hb
  obtain ⟨k, hk, heq⟩ := h.valid.mem_cells.mp hb
  have hofs' : (pgOfs b).toNat = 12 + k * c.room := by omega
  unfold blockToArena
  dsimp only
  rw [hpage, if_pos ⟨h.pages_ne_zero, h.magic⟩, h.desc]
  unfold Chunk.blocks at hk
  unfold Chunk.room at hofs'
  cases hdesc : c.desc with
  | some i =>
    rw [hdesc] at hofs'
    dsimp only at hofs' ⊢
    have hsub : (pgOfs b - arenaSize).toNat = k * (descs.get i).blockSize.toNat := by
      rw [BitVec.toNat_sub_of_le]
      · exact (congrArg (· - 12) hofs').trans (Nat.add_sub_cancel_left 12 _)
      · rw [BitVec.le_def, hofs']
        exact Nat.le_add_right 12 _
    apply if_pos
    apply BitVec.eq_of_toNat_eq
    rw [BitVec.toNat_umod, hsub]
    exact Nat.mul_mod_left _ _
  | none =>
    rw [hdesc] at hofs' hk
    obtain rfl : k = 0 := Nat.lt_one_iff.mp hk
    apply if_pos
    apply BitVec.eq_of_toNat_eq
    rw [hofs', Nat.zero_mul]
    rfl

/-- **`arena_to_block`** -/
theorem arenaToBlock_eq (h : H.Header c) (hdesc : c.desc = some i) {idx : Word}
    (hidx : idx.toNat < (descs.get i).blocksPerArena.toNat) : H.arenaToBlock c.pages idx = .ok (c.cell idx.toNat) := by
  obtain ⟨-, -, hfit⟩ := descs_fit i
  unfold arenaToBlock
  rw [if_pos ⟨h.pages_ne_zero, h.magic⟩, h.desc, hdesc]
  dsimp only
  have hidx' : idx < (descs.get i).blocksPerArena := hidx
  rw [if_pos hidx', Chunk.cell, Chunk.room, hdesc]
  dsimp only
  have hmul : idx.toNat * (descs.get i).blockSize.toNat ≤
      (descs.get i).blocksPerArena.toNat * (descs.get i).blockSize.toNat := Nat.mul_le_mul_right _ hidx.le
  have hword : idx * (descs.get i).blockSize = BitVec.ofNat 32 (idx.toNat * (descs.get i).blockSize.toNat) := by
    apply BitVec.eq_of_toNat_eq
    rw [BitVec.toNat_mul, BitVec.toNat_ofNat]
  rw [hword]

/-- **`block_size`** -/
theorem blockSize_eq (h : H.Header c) (hb : b ∈ c.cells) (hcnt : c.desc = none → (H.arenas c.pages).freeCnt = c.cnt) :
    ∃ room : Word, H.blockSize b = .ok room ∧ room.toNat = c.room := by
  unfold blockSize
  rw [h.blockToArena_eq hb, ok_bind, h.desc]
  unfold Chunk.room
  cases hdesc : c.desc with
  | some i => exact ⟨_, rfl, rfl⟩
  | none =>
    refine ⟨_, rfl, ?_⟩
    obtain ⟨-, hofs⟩ := h.valid.pgRoundDown_cell hb
    obtain ⟨k, hk, heq⟩ := h.valid.mem_cells.mp hb
    unfold Chunk.blocks at hk
    rw [hdesc] at hk
    obtain rfl : k = 0 := Nat.lt_one_iff.mp hk
    have hhigh := h.valid.high
    have hpos := h.valid.pos
    rw [hcnt hdesc]
    have hmul : (pgSize * c.cnt).toNat = 4096 * c.cnt.toNat := by
      rw [BitVec.toNat_mul, toNat_pgSize, Nat.mod_eq_of_lt (by omega)]
    rw [BitVec.toNat_sub_of_le, hmul, hofs]
    · dsimp only
      omega
    · rw [BitVec.le_def, hmul, hofs]
      omega

end Header

end Heap

end Pintos.Threads.Malloc
