import Pintos.Lib.Bitmap
import Pintos.Library.Accounts
import Pintos.Library.Trace
import Pintos.Threads.Vaddr

/-!
# The page allocator

`threads/palloc.c`: the memory above 1 MB is divided into two pools, and a pool keeps the bitmap of its used pages in
its first pages.

* `Layout`: where the pools and their bitmaps are.  It depends on the sizes only, so that no call changes it.
* `Inv`: the bitmaps agree with the account of the ranges that are handed out.
* `palloc_ranges`: what holds after any calls that free what they were given.

What is in the pages is left out, and so are the locks.  A panic is `none`.
-/

namespace Pintos.Threads.Palloc

open Pintos.Lib (Bitmap bitmapError)
open Pintos.Lib.Bitmap (bitmapBufSize bitmapCreateInBuf)

/-! ## The code -/

/-- `init_ram_pages`, which `start` computes from what the BIOS returns: the kB of memory above 1 MB. -/
def initRamPages (ax : BitVec 16) : Word :=
  let eax := ax.zeroExtend 32 + 1024
  (if eax ≤ 0x10000 then eax else 0x10000) >>> 2

/-- `ptov` -/
def ptov (paddr : Word) : Option Word := if paddr < physBase then some (paddr + physBase) else none

/-- `pg_no` -/
def pgNo (va : Word) : Word := va >>> 12

/-- `struct pool`; `mapAddr` is where `used_map` points to. -/
structure Pool where
  usedMap : Bitmap
  mapAddr : Word
  base : Word

/-- `DIV_ROUND_UP (bitmap_buf_size (page_cnt), PGSIZE)` -/
def bmPages (pageCnt : Word) : Word := (bitmapBufSize pageCnt + pgSize - 1) / pgSize

/-- `init_pool`; `memory` is what the words of the memory hold before. -/
def initPool (base pageCnt : Word) (memory : Word → Word) : Option Pool :=
  if bmPages pageCnt > pageCnt then none
  else
    let elems (i : ℕ) := memory (base + 8 + 4 * BitVec.ofNat 32 i)
    (bitmapCreateInBuf (pageCnt - bmPages pageCnt) (bmPages pageCnt * pgSize) elems).map fun map =>
      { usedMap := map, mapAddr := base, base := base + bmPages pageCnt * pgSize }

/-- `kernel_pool` and `user_pool` -/
structure Pools where
  kernelPool : Pool
  userPool : Pool

/-- `palloc_init` -/
def pallocInit (initRamPages userPageLimit : Word) (memory : Word → Word) : Option Pools := do
  let freeStart ← ptov (1024 * 1024)
  let freeEnd ← ptov (initRamPages * pgSize)
  let freePages := (freeEnd - freeStart).sdiv pgSize
  let userPages := if freePages / 2 > userPageLimit then userPageLimit else freePages / 2
  let kernelPages := freePages - userPages
  let kernelPool ← initPool freeStart kernelPages memory
  let userPool ← initPool (freeStart + kernelPages * pgSize) userPages memory
  return { kernelPool, userPool }

/-- `enum palloc_flags` -/
structure PallocFlags where
  assert : Bool
  zero : Bool
  user : Bool

namespace Pools

/-- The pool that is meant by a flag. -/
def pool (s : Pools) (user : Bool) : Pool := if user then s.userPool else s.kernelPool

/-- A pool has another bitmap. -/
def setMap (s : Pools) (user : Bool) (map : Bitmap) : Pools :=
  if user then { s with userPool := { s.userPool with usedMap := map } }
  else { s with kernelPool := { s.kernelPool with usedMap := map } }

/-- `palloc_get_multiple` -/
def pallocGetMultiple (s : Pools) (flags : PallocFlags) (pageCnt : Word) : Option (Word × Pools) :=
  if pageCnt = 0 then some (0, s)
  else
    ((s.pool flags.user).usedMap.bitmapScanAndFlip 0 pageCnt false).bind fun found =>
      let pageIdx := found.1
      let pages := if pageIdx ≠ bitmapError then (s.pool flags.user).base + pgSize * pageIdx else 0
      if pages = 0 ∧ flags.assert then none else some (pages, s.setMap flags.user found.2)

end Pools

/-- `page_from_pool` -/
def pageFromPool (pool : Pool) (page : Word) : Bool :=
  let startPage := pgNo pool.base
  let endPage := startPage + pool.usedMap.bitCnt
  decide (pgNo page ≥ startPage) && decide (pgNo page < endPage)

namespace Pools

/-- The pool that `palloc_free_multiple` takes the pages for: whether it is the user pool. -/
def poolOf (s : Pools) (pages : Word) : Option Bool :=
  if pageFromPool s.kernelPool pages then some false
  else if pageFromPool s.userPool pages then some true
  else none

/-- `palloc_free_multiple` -/
def pallocFreeMultiple (s : Pools) (pages pageCnt : Word) : Option Pools :=
  if pgOfs pages ≠ 0 then none
  else if pages = 0 ∨ pageCnt = 0 then some s
  else
    (s.poolOf pages).bind fun user =>
      let map := (s.pool user).usedMap
      let pageIdx := pgNo pages - pgNo (s.pool user).base
      (map.bitmapAll pageIdx pageCnt).bind fun all =>
        if all then (map.bitmapSetMultiple pageIdx pageCnt false).map (s.setMap user) else none

end Pools

/-! ## Pages -/

namespace Pool

variable {p : Pool}

/-- The number of the first page. -/
def first (p : Pool) : ℕ := p.base.toNat / 4096

def pages (p : Pool) : Set ℕ := Set.Ico p.first (p.first + p.usedMap.bitCnt.toNat)

/-- The pages that the bitmap says are used. -/
def used (p : Pool) : Set ℕ := {q | q ∈ p.pages ∧ p.usedMap.bit (q - p.first) = true}

def bytes (p : Pool) : Set ℕ := Set.Ico p.base.toNat (p.base.toNat + 4096 * p.usedMap.bitCnt.toNat)

/-- The bytes of the bitmap. -/
def mapBytes (p : Pool) : Set ℕ :=
  Set.Ico p.mapAddr.toNat (p.mapAddr.toNat + (bitmapBufSize p.usedMap.bitCnt).toNat)

/-- A pool with its bitmap takes the pages from `lo` to `hi`. -/
structure At (p : Pool) (lo hi : ℕ) : Prop where
  map : p.mapAddr.toNat = 4096 * lo
  base : p.base.toNat = 4096 * p.first
  room : p.mapAddr.toNat + (bitmapBufSize p.usedMap.bitCnt).toNat ≤ p.base.toNat
  pages : p.first + p.usedMap.bitCnt.toNat = hi
  low : 0 < lo
  high : hi < 2 ^ 20

end Pool

/-- A range of pages that is handed out, and by which pool. -/
structure Grant where
  user : Bool
  pages : Word
  cnt : Word
  deriving DecidableEq

namespace Grant

def first (g : Grant) : ℕ := g.pages.toNat / 4096

def pageSet (g : Grant) : Set ℕ := Set.Ico g.first (g.first + g.cnt.toNat)

def bytes (g : Grant) : Set ℕ := Set.Ico g.pages.toNat (g.pages.toNat + 4096 * g.cnt.toNat)

end Grant

namespace Pools

variable {s s' s₀ : Pools} {user : Bool}

/-- The used pages of both pools. -/
def used (s : Pools) : Set ℕ := {q | ∃ user, q ∈ (s.pool user).used}

/-- The kernel pool is in front of the user pool. -/
def Layout (s : Pools) : Prop := ∃ lo mid hi, s.kernelPool.At lo mid ∧ s.userPool.At mid hi

/-- The invariant of the calls. -/
structure Inv (s : Pools) (live : List Grant) : Prop where
  layout : s.Layout
  accounts : Accounts Grant.pageSet s.used live
  aligned : ∀ g ∈ live, g.pages.toNat % 4096 = 0
  nonempty : ∀ g ∈ live, g.cnt ≠ 0
  within : ∀ g ∈ live, g.pageSet ⊆ (s.pool g.user).pages

end Pools

/-! ## The layout -/

theorem toNat_pgNo (va : Word) : (pgNo va).toNat = va.toNat / 4096 := by
  rw [pgNo, BitVec.toNat_ushiftRight, Nat.shiftRight_eq_div_pow]

theorem toNat_pgSize_mul {n : Word} (h : n.toNat < 2 ^ 20) : (pgSize * n).toNat = 4096 * n.toNat := by
  rw [BitVec.toNat_mul, toNat_pgSize, Nat.mod_eq_of_lt (by omega)]

/-- **`init_pool`** -/
theorem initPool_at {base pageCnt : Word} {memory : Word → Word} {lo : ℕ} {p : Pool}
    (h : initPool base pageCnt memory = some p) (hbase : base.toNat = 4096 * lo) (hlow : 0 < lo)
    (hhigh : lo + pageCnt.toNat < 2 ^ 20) : p.At lo (lo + pageCnt.toNat) ∧ p.used = ∅ := by
  unfold initPool at h
  split at h
  · cases h
  · case isFalse hfit =>
    obtain ⟨map, hmap, rfl⟩ := Option.map_eq_some_iff.mp h
    obtain ⟨hsize, hcnt, hbit⟩ := Bitmap.bitmapCreateInBuf_eq hmap
    have hfit' : (bmPages pageCnt).toNat ≤ pageCnt.toNat := Nat.le_of_not_lt hfit
    have hmul : (bmPages pageCnt * pgSize).toNat = 4096 * (bmPages pageCnt).toNat := by
      rw [BitVec.mul_comm, toNat_pgSize_mul (by omega)]
    have hsub : (pageCnt - bmPages pageCnt).toNat = pageCnt.toNat - (bmPages pageCnt).toNat :=
      BitVec.toNat_sub_of_le hfit'
    have hsum : (base + bmPages pageCnt * pgSize).toNat = 4096 * (lo + (bmPages pageCnt).toNat) := by
      rw [BitVec.toNat_add_of_lt (by omega)]
      omega
    have hsize' : (bitmapBufSize map.bitCnt).toNat ≤ 4096 * (bmPages pageCnt).toNat := by
      rw [hcnt, ← hmul]
      exact hsize
    have hfirst : (base + bmPages pageCnt * pgSize).toNat / 4096 = lo + (bmPages pageCnt).toNat := by omega
    constructor
    · constructor
      · exact hbase
      · show (base + bmPages pageCnt * pgSize).toNat = 4096 * ((base + bmPages pageCnt * pgSize).toNat / 4096)
        omega
      · show base.toNat + (bitmapBufSize map.bitCnt).toNat ≤ (base + bmPages pageCnt * pgSize).toNat
        omega
      · show (base + bmPages pageCnt * pgSize).toNat / 4096 + map.bitCnt.toNat = lo + pageCnt.toNat
        rw [hfirst, hcnt]
        omega
      · exact hlow
      · exact hhigh
    · apply Set.eq_empty_of_forall_notMem
      intro q hq
      obtain ⟨hq, hset⟩ := hq
      rw [Pool.pages, Set.mem_Ico] at hq
      have hunset := hbit (q - Pool.first ⟨map, base, base + bmPages pageCnt * pgSize⟩) (by
        rw [← hcnt]
        have hbelow := hq.2
        dsimp only at hbelow
        omega)
      cases hset.symm.trans hunset

/-- A pool cannot be set up if its bitmap alone needs more pages than there are; no assertion fails. -/
theorem initPool_eq_none_iff {base pageCnt : Word} {memory : Word → Word} (h : pageCnt.toNat < 2 ^ 20) :
    initPool base pageCnt memory = none ↔ pageCnt < bmPages pageCnt := by
  unfold initPool
  by_cases hfit : bmPages pageCnt > pageCnt
  · rw [if_pos hfit]
    exact iff_of_true rfl hfit
  · rw [if_neg hfit]
    apply iff_of_false _ hfit
    rw [Option.map_eq_none_iff]
    have hfit' : (bmPages pageCnt).toNat ≤ pageCnt.toNat := Nat.le_of_not_lt hfit
    have hsub : (pageCnt - bmPages pageCnt).toNat = pageCnt.toNat - (bmPages pageCnt).toNat :=
      BitVec.toNat_sub_of_le hfit'
    have hbuf : (bitmapBufSize pageCnt).toNat = 8 + 4 * ((pageCnt.toNat + 31) / 32) :=
      Bitmap.bitmapBufSize_toNat (by omega)
    have hsum : (bitmapBufSize pageCnt + pgSize - 1).toNat = (bitmapBufSize pageCnt).toNat + 4095 := by
      unfold pgSize
      bv_omega
    have hbm : (bmPages pageCnt).toNat = ((bitmapBufSize pageCnt).toNat + 4095) / 4096 := by
      rw [bmPages, BitVec.toNat_udiv, hsum, toNat_pgSize]
    have hmul : (bmPages pageCnt * pgSize).toNat = 4096 * (bmPages pageCnt).toNat := by
      rw [BitVec.mul_comm, toNat_pgSize_mul (by omega)]
    apply Option.isSome_iff_ne_none.mp
    apply Bitmap.bitmapCreateInBuf_isSome _ (by omega)
    rw [BitVec.le_def, hmul, Bitmap.bitmapBufSize_toNat (by omega), hsub]
    omega

namespace Pools

variable {s s' : Pools} {user user' : Bool} {map : Bitmap} {live : List Grant} {g : Grant}

theorem pool_setMap_self (s : Pools) (user : Bool) (map : Bitmap) :
    (s.setMap user map).pool user = { s.pool user with usedMap := map } := by cases user <;> rfl

theorem pool_setMap_of_ne (s : Pools) (map : Bitmap) (h : user' ≠ user) :
    (s.setMap user map).pool user' = s.pool user' := by
  cases user <;> cases user' <;> first | rfl | exact absurd rfl h

namespace Layout

theorem pool_at (h : s.Layout) (user : Bool) : ∃ lo hi, (s.pool user).At lo hi := by
  obtain ⟨lo, mid, hi, hkernel, huser⟩ := h
  cases user with
  | false => exact ⟨lo, mid, hkernel⟩
  | true => exact ⟨mid, hi, huser⟩

/-- Another bitmap of the same size. -/
theorem setMap (h : s.Layout) (hcnt : map.bitCnt = (s.pool user).usedMap.bitCnt) : (s.setMap user map).Layout := by
  have hat : ∀ {p : Pool} {lo hi : ℕ}, p.At lo hi → map.bitCnt = p.usedMap.bitCnt →
      ({ p with usedMap := map } : Pool).At lo hi := by
    intro p lo hi hp heq
    refine ⟨hp.map, hp.base, ?_, ?_, hp.low, hp.high⟩
    · show p.mapAddr.toNat + (bitmapBufSize map.bitCnt).toNat ≤ p.base.toNat
      rw [heq]
      exact hp.room
    · show p.first + map.bitCnt.toNat = hi
      rw [heq]
      exact hp.pages
  obtain ⟨lo, mid, hi, hkernel, huser⟩ := h
  cases user with
  | false => exact ⟨lo, mid, hi, hat hkernel hcnt, huser⟩
  | true => exact ⟨lo, mid, hi, hkernel, hat huser hcnt⟩

/-- A page is in one pool. -/
theorem pool_eq (h : s.Layout) {q : ℕ} (hq : q ∈ (s.pool user).pages) (hq' : q ∈ (s.pool user').pages) :
    user = user' := by
  obtain ⟨lo, mid, hi, hkernel, huser⟩ := h
  have hmap := huser.map
  have hbase := huser.base
  have hroom := huser.room
  have hmid := hkernel.pages
  have hne : ∀ q, q ∈ s.kernelPool.pages → q ∉ s.userPool.pages := by
    intro q hk hu
    have hbelow := (Set.mem_Ico.mp hk).2
    have habove := (Set.mem_Ico.mp hu).1
    omega
  cases user <;> cases user'
  · rfl
  · exact absurd hq' (hne q hq)
  · exact absurd hq (hne q hq')
  · rfl

end Layout

theorem pages_setMap (hcnt : map.bitCnt = (s.pool user).usedMap.bitCnt) (user' : Bool) :
    ((s.setMap user map).pool user').pages = (s.pool user').pages := by
  by_cases heq : user' = user
  · rw [heq, pool_setMap_self]
    show Set.Ico _ ((s.pool user).first + map.bitCnt.toNat) = _
    rw [hcnt]
    rfl
  · rw [pool_setMap_of_ne s map heq]

theorem within_setMap (hcnt : map.bitCnt = (s.pool user).usedMap.bitCnt)
    (h : ∀ g ∈ live, g.pageSet ⊆ (s.pool g.user).pages) :
    ∀ g ∈ live, g.pageSet ⊆ ((s.setMap user map).pool g.user).pages := by
  intro g hg
  rw [pages_setMap hcnt]
  exact h g hg

/-- A bitmap that differs from the old one in a run of bits: the pages of the run are the ones that may have changed. -/
theorem mem_used_setMap {i cnt : ℕ} {value : Bool} (h : s.Layout)
    (hcnt : map.bitCnt = (s.pool user).usedMap.bitCnt) (hin : i + cnt ≤ (s.pool user).usedMap.bitCnt.toNat)
    (hbit : ∀ j, map.bit j = if i ≤ j ∧ j < i + cnt then value else (s.pool user).usedMap.bit j) (q : ℕ) :
    q ∈ (s.setMap user map).used ↔
      if q ∈ Set.Ico ((s.pool user).first + i) ((s.pool user).first + i + cnt) then value = true else q ∈ s.used := by
  have hpages := pages_setMap hcnt
  have hrun : q ∈ (s.pool user).pages → (q ∈ Set.Ico ((s.pool user).first + i) ((s.pool user).first + i + cnt) ↔
      i ≤ q - (s.pool user).first ∧ q - (s.pool user).first < i + cnt) := by
    intro hq
    have hlow := (Set.mem_Ico.mp hq).1
    rw [Set.mem_Ico]
    omega
  have hself : q ∈ ((s.setMap user map).pool user).used ↔
      q ∈ (s.pool user).pages ∧ map.bit (q - (s.pool user).first) = true := by
    rw [← hpages user, pool_setMap_self]
    rfl
  by_cases hq : q ∈ (s.pool user).pages
  · -- no other pool has the page
    have hold : q ∈ s.used ↔ (s.pool user).usedMap.bit (q - (s.pool user).first) = true := by
      constructor
      · intro hused
        obtain ⟨user', hused⟩ := hused
        obtain rfl := h.pool_eq hq hused.1
        exact hused.2
      · intro hset
        exact ⟨user, hq, hset⟩
    have hnew : q ∈ (s.setMap user map).used ↔ map.bit (q - (s.pool user).first) = true := by
      constructor
      · intro hused
        obtain ⟨user', hused⟩ := hused
        have hin' := hused.1
        rw [hpages] at hin'
        obtain rfl := h.pool_eq hq hin'
        exact (hself.mp hused).2
      · intro hset
        exact ⟨user, hself.mpr ⟨hq, hset⟩⟩
    rw [hnew, hbit, hold, if_congr (hrun hq) rfl rfl]
    split
    · rfl
    · rfl
  · have hout : q ∉ Set.Ico ((s.pool user).first + i) ((s.pool user).first + i + cnt) := by
      intro hmem
      rw [Pool.pages, Set.mem_Ico] at hq
      rw [Set.mem_Ico] at hmem
      omega
    rw [if_neg hout]
    constructor
    · intro hused
      obtain ⟨user', hused⟩ := hused
      have hne : user' ≠ user := by
        intro heq
        exact hq (heq ▸ hpages user' ▸ hused.1)
      rw [pool_setMap_of_ne s map hne] at hused
      exact ⟨user', hused⟩
    · intro hused
      obtain ⟨user', hused⟩ := hused
      have hne : user' ≠ user := by
        intro heq
        exact hq (heq ▸ hused.1)
      rw [← pool_setMap_of_ne s map hne] at hused
      exact ⟨user', hused⟩

/-! ## The calls -/

/-- A call that gives out a range has found its pages unused, and sets them used. -/
structure Takes (s : Pools) (g : Grant) (s' : Pools) : Prop where
  aligned : g.pages.toNat % 4096 = 0
  nonempty : g.cnt ≠ 0
  within : g.pageSet ⊆ (s.pool g.user).pages
  free : Disjoint g.pageSet s.used
  used : ∀ q, q ∈ s'.used ↔ q ∈ g.pageSet ∨ q ∈ s.used

/-- The pages from `q` on are free pages of the pool. -/
def FreeFrom (s : Pools) (user : Bool) (cnt q : ℕ) : Prop :=
  Set.Ico q (q + cnt) ⊆ (s.pool user).pages ∧ Disjoint (Set.Ico q (q + cnt)) s.used

/-- A run of unused pages is a run of bits that are not set. -/
theorem run_iff_freeFrom (h : s.Layout) {cnt : ℕ} (hcnt : 0 < cnt) (i : ℕ) :
    (s.pool user).usedMap.Run cnt false i ↔ s.FreeFrom user cnt ((s.pool user).first + i) := by
  constructor
  · intro hrun
    obtain ⟨hin, hunset⟩ := hrun
    constructor
    · intro q hq
      rw [Set.mem_Ico] at hq
      rw [Pool.pages, Set.mem_Ico]
      omega
    · apply Set.disjoint_left.mpr
      intro q hq hused
      rw [Set.mem_Ico] at hq
      obtain ⟨user', hused⟩ := hused
      have hmem : q ∈ (s.pool user).pages := by
        rw [Pool.pages, Set.mem_Ico]
        omega
      obtain rfl := h.pool_eq hmem hused.1
      have hbit := hunset (q - ((s.pool user).first + i)) (by omega)
      rw [show i + (q - ((s.pool user).first + i)) = q - (s.pool user).first by omega, hused.2] at hbit
      cases hbit
  · intro hfree
    obtain ⟨hpages, hunused⟩ := hfree
    have hlast := hpages (Set.mem_Ico.mpr
      (⟨by omega, by omega⟩ : (s.pool user).first + i ≤ (s.pool user).first + i + (cnt - 1) ∧
        (s.pool user).first + i + (cnt - 1) < (s.pool user).first + i + cnt))
    rw [Pool.pages, Set.mem_Ico] at hlast
    refine ⟨by omega, fun j hj => ?_⟩
    by_contra hset
    rw [Bool.not_eq_false] at hset
    have hmem : (s.pool user).first + i + j ∈ Set.Ico ((s.pool user).first + i) ((s.pool user).first + i + cnt) :=
      Set.mem_Ico.mpr ⟨by omega, by omega⟩
    apply Set.disjoint_left.mp hunused hmem
    refine ⟨user, hpages hmem, ?_⟩
    rw [show (s.pool user).first + i + j - (s.pool user).first = i + j by omega]
    exact hset

/-- **`palloc_get_multiple`** gives out free pages, or there are not so many in a row. -/
theorem pallocGetMultiple_spec (h : s.Layout) (flags : PallocFlags) {cnt : Word} (hcnt : cnt ≠ 0) :
    ∃ map : Bitmap, map.bitCnt = (s.pool flags.user).usedMap.bitCnt ∧
      ((∃ pages, pages ≠ 0 ∧ s.pallocGetMultiple flags cnt = some (pages, s.setMap flags.user map) ∧
          s.Takes ⟨flags.user, pages, cnt⟩ (s.setMap flags.user map)) ∨
        s.pallocGetMultiple flags cnt = (if flags.assert then none else some (0, s.setMap flags.user map)) ∧
          (∀ q, q ∈ (s.setMap flags.user map).used ↔ q ∈ s.used) ∧ ∀ q, ¬s.FreeFrom flags.user cnt.toNat q) := by
  have hpos : 0 < cnt.toNat := Nat.pos_of_ne_zero fun hzero => hcnt (BitVec.eq_of_toNat_eq hzero)
  have hstart : (0 : Word) ≤ (s.pool flags.user).usedMap.bitCnt := Nat.zero_le _
  obtain ⟨idx, map, -, hfit, hflip, hsize, hbit⟩ :=
    (s.pool flags.user).usedMap.bitmapScanAndFlip_eq hstart cnt false
  refine ⟨map, hsize, ?_⟩
  have hget : s.pallocGetMultiple flags cnt =
      let pages := if idx ≠ bitmapError then (s.pool flags.user).base + pgSize * idx else 0
      if pages = 0 ∧ flags.assert then none else some (pages, s.setMap flags.user map) := by
    rw [pallocGetMultiple, if_neg hcnt, hflip]
    rfl
  obtain ⟨lo, hi, hat⟩ := h.pool_at flags.user
  have hbase := hat.base
  have hpages := hat.pages
  have hhigh := hat.high
  have hlow := hat.low
  have hmap := hat.map
  have hroom := hat.room
  by_cases herror : idx = bitmapError
  · right
    refine ⟨?_, ?_, ?_⟩
    · rw [hget, if_neg (not_not_intro herror)]
      cases flags.assert <;> rfl
    · intro q
      have hsame : ∀ j, map.bit j = if 0 ≤ j ∧ j < 0 + 0 then true else (s.pool flags.user).usedMap.bit j := by
        intro j
        rw [hbit, if_neg fun hj => hj.1 herror, if_neg (by omega)]
      rw [mem_used_setMap h hsize (Nat.zero_le _) hsame, if_neg (by simp)]
    · intro q hfree
      have hmem := Set.mem_Ico.mp (hfree.1 (Set.mem_Ico.mpr
        (⟨le_rfl, by omega⟩ : q ≤ q ∧ q < q + cnt.toNat)))
      apply hfit.error.mp herror (q - (s.pool flags.user).first) (Nat.zero_le _)
      rw [run_iff_freeFrom h hpos, Nat.add_sub_cancel' hmem.1]
      exact hfree
  · left
    obtain ⟨-, hrun⟩ := (hfit.least herror).1
    have hin := hrun.1
    have hmul : (pgSize * idx).toNat = 4096 * idx.toNat := toNat_pgSize_mul (by omega)
    have hsum : ((s.pool flags.user).base + pgSize * idx).toNat = 4096 * ((s.pool flags.user).first + idx.toNat) := by
      rw [BitVec.toNat_add_of_lt (by omega)]
      omega
    have hne : (s.pool flags.user).base + pgSize * idx ≠ 0 := by
      intro heq
      rw [heq] at hsum
      have hzero : (0 : Word).toNat = 0 := rfl
      omega
    have hset : Grant.pageSet ⟨flags.user, (s.pool flags.user).base + pgSize * idx, cnt⟩ =
        Set.Ico ((s.pool flags.user).first + idx.toNat) ((s.pool flags.user).first + idx.toNat + cnt.toNat) := by
      have hfirst : ((s.pool flags.user).base + pgSize * idx).toNat / 4096 = (s.pool flags.user).first + idx.toNat := by
        omega
      rw [Grant.pageSet, Grant.first, hfirst]
    obtain ⟨hwithin, hfree⟩ := (run_iff_freeFrom h hpos idx.toNat).mp hrun
    refine ⟨_, hne, ?_, ?_, hcnt, ?_, ?_, ?_⟩
    · rw [hget, if_pos herror]
      exact if_neg fun hzero => hne hzero.1
    · show ((s.pool flags.user).base + pgSize * idx).toNat % 4096 = 0
      omega
    · rw [hset]
      exact hwithin
    · rw [hset]
      exact hfree
    · intro q
      have hbit' : ∀ j, map.bit j = if idx.toNat ≤ j ∧ j < idx.toNat + cnt.toNat then true else
          (s.pool flags.user).usedMap.bit j := by
        intro j
        rw [hbit]
        exact if_congr (and_iff_right herror) rfl rfl
      rw [mem_used_setMap h hsize hin hbit', hset]
      split
      · case isTrue hmem => exact iff_of_true rfl (.inl hmem)
      · case isFalse hmem => exact (or_iff_right hmem).symm

/-- `page_from_pool` for the first page of a range. -/
theorem pageFromPool_iff (h : s.Layout) (user : Bool) (page : Word) :
    pageFromPool (s.pool user) page = true ↔ page.toNat / 4096 ∈ (s.pool user).pages := by
  obtain ⟨lo, hi, hat⟩ := h.pool_at user
  have hpages := hat.pages
  have hhigh := hat.high
  have hfirst : (pgNo (s.pool user).base).toNat = (s.pool user).first := toNat_pgNo _
  have hend : (pgNo (s.pool user).base + (s.pool user).usedMap.bitCnt).toNat = hi := by
    rw [BitVec.toNat_add_of_lt (by omega), hfirst, hpages]
  rw [pageFromPool, Bool.and_eq_true, decide_eq_true_iff, decide_eq_true_iff, ge_iff_le, BitVec.le_def, BitVec.lt_def,
    hend, hfirst, toNat_pgNo, Pool.pages, Set.mem_Ico, hpages]

/-- **`palloc_free_multiple`** takes a range back into the pool that it is of. -/
theorem pallocFreeMultiple_spec (h : s.Layout) (haligned : g.pages.toNat % 4096 = 0) (hcnt : g.cnt ≠ 0)
    (hwithin : g.pageSet ⊆ (s.pool g.user).pages) (hused : g.pageSet ⊆ s.used) :
    s.poolOf g.pages = some g.user ∧ ∃ map : Bitmap, map.bitCnt = (s.pool g.user).usedMap.bitCnt ∧
      s.pallocFreeMultiple g.pages g.cnt = some (s.setMap g.user map) ∧
      ∀ q, q ∈ (s.setMap g.user map).used ↔ q ∈ s.used ∧ q ∉ g.pageSet := by
  have hpos : 0 < g.cnt.toNat := Nat.pos_of_ne_zero fun hzero => hcnt (BitVec.eq_of_toNat_eq hzero)
  have hmem : ∀ j < g.cnt.toNat, g.first + j ∈ g.pageSet := by
    intro j hj
    exact Set.mem_Ico.mpr ⟨by omega, by omega⟩
  have hfirst : g.pages.toNat / 4096 ∈ (s.pool g.user).pages := hwithin (hmem 0 hpos)
  have hpool : s.poolOf g.pages = some g.user := by
    have hother : ∀ user, g.user ≠ user → pageFromPool (s.pool user) g.pages = false := by
      intro user hne
      rw [Bool.eq_false_iff]
      intro hfrom
      exact hne (h.pool_eq hfirst ((pageFromPool_iff h user g.pages).mp hfrom))
    have hself : pageFromPool (s.pool g.user) g.pages = true := (pageFromPool_iff h g.user g.pages).mpr hfirst
    unfold poolOf
    cases huser : g.user with
    | false =>
      rw [huser] at hself
      exact if_pos hself
    | true =>
      rw [huser] at hself hother
      have hkernel : pageFromPool s.kernelPool g.pages = false := hother false (by decide)
      rw [hkernel]
      exact if_pos hself
  refine ⟨hpool, ?_⟩
  obtain ⟨lo, hi, hat⟩ := h.pool_at g.user
  have hlow := hat.low
  have hmap := hat.map
  have hroom := hat.room
  have hbase := hat.base
  rw [Pool.pages, Set.mem_Ico] at hfirst
  have hofs : pgOfs g.pages = 0 := BitVec.eq_of_toNat_eq ((toNat_pgOfs g.pages).trans haligned)
  have hne : g.pages ≠ 0 := by
    intro heq
    rw [heq] at hfirst
    have hzero : (0 : Word).toNat = 0 := rfl
    omega
  have hlast := Set.mem_Ico.mp (hwithin (hmem (g.cnt.toNat - 1) (by omega)))
  have hidx : (pgNo g.pages - pgNo (s.pool g.user).base).toNat = g.first - (s.pool g.user).first := by
    rw [BitVec.toNat_sub_of_le, toNat_pgNo, toNat_pgNo]
    · rfl
    · rw [BitVec.le_def, toNat_pgNo, toNat_pgNo]
      exact hfirst.1
  have hback : (s.pool g.user).first + (g.first - (s.pool g.user).first) = g.first := Nat.add_sub_cancel' hfirst.1
  have hin : (pgNo g.pages - pgNo (s.pool g.user).base).toNat + g.cnt.toNat ≤ (s.pool g.user).usedMap.bitCnt.toNat := by
    rw [hidx]
    omega
  have hall : ∀ j < g.cnt.toNat,
      (s.pool g.user).usedMap.bit ((pgNo g.pages - pgNo (s.pool g.user).base).toNat + j) = true := by
    intro j hj
    obtain ⟨user, hset⟩ := hused (hmem j hj)
    obtain rfl := h.pool_eq hset.1 (hwithin (hmem j hj))
    rw [hidx, ← hset.2]
    congr 1
    omega
  obtain ⟨map, hset, hsize, hbit⟩ := Bitmap.bitmapSetMultiple_eq false hin
  refine ⟨map, hsize, ?_, ?_⟩
  · rw [pallocFreeMultiple, if_neg (not_not_intro hofs), if_neg (not_or.mpr ⟨hne, hcnt⟩), hpool, Option.bind_some]
    dsimp only
    rw [Bitmap.bitmapAll_eq hin hall, Option.bind_some, if_pos rfl, hset]
    rfl
  · intro q
    rw [mem_used_setMap h hsize hin hbit, hidx, hback]
    by_cases hq : q ∈ g.pageSet
    · have hq' : q ∈ Set.Ico g.first (g.first + g.cnt.toNat) := hq
      rw [if_pos hq']
      exact iff_of_false Bool.false_ne_true fun hout => hout.2 hq
    · have hq' : q ∉ Set.Ico g.first (g.first + g.cnt.toNat) := hq
      rw [if_neg hq']
      exact (and_iff_left hq).symm

end Pools

/-! ## The start -/

/-- There are from 1 MB to 64 MB. -/
theorem initRamPages_bounds (ax : BitVec 16) : 256 ≤ (initRamPages ax).toNat ∧ (initRamPages ax).toNat ≤ 16384 := by
  have hax := ax.isLt
  have hsum : (ax.zeroExtend 32 + 1024).toNat = ax.toNat + 1024 := by
    have hext : (ax.zeroExtend 32).toNat = ax.toNat := BitVec.toNat_setWidth_of_le (by decide)
    rw [BitVec.toNat_add, hext]
    exact Nat.mod_eq_of_lt (by
      show ax.toNat + 1024 < 2 ^ 32
      omega)
  rw [initRamPages, BitVec.toNat_ushiftRight, Nat.shiftRight_eq_div_pow]
  split
  · case isTrue hle =>
    have hle' : (ax.zeroExtend 32 + 1024).toNat ≤ 65536 := hle
    rw [hsum] at hle' ⊢
    omega
  · decide

/-- The pages between 1 MB and the end of the memory. -/
theorem toNat_freePages {ramPages : Word} (hlow : 256 ≤ ramPages.toNat) (hhigh : ramPages.toNat ≤ 16384) :
    ptov (ramPages * pgSize) = some (ramPages * pgSize + physBase) ∧
      ((ramPages * pgSize + physBase - (1024 * 1024 + physBase)).sdiv pgSize).toNat = ramPages.toNat - 256 := by
  have hmul : (ramPages * pgSize).toNat = 4096 * ramPages.toNat := by
    rw [BitVec.mul_comm, toNat_pgSize_mul (by omega)]
  have hdiff : (ramPages * pgSize + physBase - (1024 * 1024 + physBase)).toNat = 4096 * (ramPages.toNat - 256) := by
    have hstart : (1024 * 1024 + physBase : Word) = 0xc0100000#32 := rfl
    have hend : (ramPages * pgSize + physBase).toNat = 4096 * ramPages.toNat + 0xc0000000 := by
      rw [BitVec.toNat_add_of_lt] <;> rw [hmul, toNat_physBase]
      omega
    rw [hstart, BitVec.toNat_sub_of_le, hend]
    · show 4096 * ramPages.toNat + 0xc0000000 - 0xc0100000 = _
      omega
    · rw [BitVec.le_def, hend]
      show 0xc0100000 ≤ _
      omega
  constructor
  · apply if_pos
    rw [BitVec.lt_def, hmul, toNat_physBase]
    omega
  · have hmsb : (ramPages * pgSize + physBase - (1024 * 1024 + physBase)).msb = false := by
      rw [BitVec.msb_eq_false_iff_two_mul_lt, hdiff]
      omega
    have hsize : pgSize.msb = false := rfl
    have hdiv : (ramPages * pgSize + physBase - (1024 * 1024 + physBase)).sdiv pgSize =
        (ramPages * pgSize + physBase - (1024 * 1024 + physBase)) / pgSize := by
      rw [BitVec.sdiv_eq, hmsb, hsize]
      rfl
    rw [hdiv, BitVec.toNat_udiv, hdiff, toNat_pgSize, Nat.mul_div_cancel_left _ (by decide)]

namespace Pools

variable {s : Pools} {user : Bool} {map : Bitmap} {live : List Grant} {g : Grant}

/-- **`palloc_init`** -/
theorem pallocInit_inv {ax : BitVec 16} {userPageLimit : Word} {memory : Word → Word}
    (h : pallocInit (initRamPages ax) userPageLimit memory = some s) : s.Inv [] := by
  obtain ⟨hlow, hhigh⟩ := initRamPages_bounds ax
  obtain ⟨hend, hfree⟩ := toNat_freePages hlow hhigh
  have hstart : ptov (1024 * 1024) = some (1024 * 1024 + physBase) := rfl
  unfold pallocInit at h
  obtain ⟨freeStart, hfreeStart, h⟩ := Option.bind_eq_some_iff.mp h
  obtain ⟨freeEnd, hfreeEnd, h⟩ := Option.bind_eq_some_iff.mp h
  obtain ⟨kernelPool, hkernelPool, h⟩ := Option.bind_eq_some_iff.mp h
  obtain ⟨userPool, huserPool, h⟩ := Option.bind_eq_some_iff.mp h
  obtain rfl := Option.some.inj h
  obtain rfl := Option.some.inj (hstart.symm.trans hfreeStart)
  obtain rfl := Option.some.inj (hend.symm.trans hfreeEnd)
  generalize (initRamPages ax * pgSize + physBase - (1024 * 1024 + physBase)).sdiv pgSize = freePages
    at hkernelPool huserPool hfree
  generalize huser : (if freePages / 2 > userPageLimit then userPageLimit else freePages / 2) = userPages
    at hkernelPool huserPool
  have hhalf : (freePages / 2).toNat = freePages.toNat / 2 := BitVec.toNat_udiv ..
  have hle : userPages.toNat ≤ freePages.toNat := by
    rw [← huser]
    split
    · case isTrue hlimit =>
      have hlimit' : userPageLimit.toNat < (freePages / 2).toNat := hlimit
      omega
    · omega
  have hkernel : (freePages - userPages).toNat = freePages.toNat - userPages.toNat := BitVec.toNat_sub_of_le hle
  have hbase : (1024 * 1024 + physBase : Word).toNat = 4096 * 0xc0100 := by decide
  have hmul : ((freePages - userPages) * pgSize).toNat = 4096 * (freePages - userPages).toNat := by
    rw [BitVec.mul_comm, toNat_pgSize_mul (by omega)]
  have hmid : (1024 * 1024 + physBase + (freePages - userPages) * pgSize).toNat =
      4096 * (0xc0100 + (freePages - userPages).toNat) := by
    rw [BitVec.toNat_add_of_lt] <;> rw [hmul, hbase] <;> omega
  obtain ⟨hkernelAt, hkernelUsed⟩ := initPool_at hkernelPool hbase (by decide) (by omega)
  obtain ⟨huserAt, huserUsed⟩ := initPool_at huserPool hmid (by omega) (by omega)
  refine ⟨⟨_, _, _, hkernelAt, huserAt⟩, .nil fun q hq => ?_, ?_, ?_, ?_⟩
  · obtain ⟨user, hq⟩ := hq
    cases user with
    | false => exact (hkernelUsed ▸ hq : q ∈ (∅ : Set ℕ))
    | true => exact (huserUsed ▸ hq : q ∈ (∅ : Set ℕ))
  all_goals
    intro g hg
    cases hg

/-! ## Runs -/

/-- A call. -/
inductive Op where
  | get (flags : PallocFlags) (pageCnt : Word)
  | free (g : Grant)

/-- A call that does not panic, with the ranges that are handed out; a call may free what is one of them. -/
inductive Step : Pools × List Grant → Op → Pools × List Grant → Prop
  | get {s s' : Pools} {live : List Grant} {flags : PallocFlags} {pageCnt pages : Word}
      (h : s.pallocGetMultiple flags pageCnt = some (pages, s')) :
      Step (s, live) (.get flags pageCnt) (s', if pages = 0 then live else ⟨flags.user, pages, pageCnt⟩ :: live)
  | free {s s' : Pools} {live : List Grant} {g : Grant} (hg : g ∈ live)
      (h : s.pallocFreeMultiple g.pages g.cnt = some s') : Step (s, live) (.free g) (s', live.erase g)

theorem Inv.free_spec (h : s.Inv live) (hg : g ∈ live) :
    s.poolOf g.pages = some g.user ∧ ∃ map : Bitmap, map.bitCnt = (s.pool g.user).usedMap.bitCnt ∧
      s.pallocFreeMultiple g.pages g.cnt = some (s.setMap g.user map) ∧
      ∀ q, q ∈ (s.setMap g.user map).used ↔ q ∈ s.used ∧ q ∉ g.pageSet :=
  pallocFreeMultiple_spec h.layout (h.aligned g hg) (h.nonempty g hg) (h.within g hg) (h.accounts.subset hg)

/-- **The invariant is preserved by every call.** -/
theorem Inv.step {o : Op} {c c' : Pools × List Grant} (h : c.1.Inv c.2) (hstep : Step c o c') : c'.1.Inv c'.2 := by
  cases hstep with
  | @get s s' live flags pageCnt pages hget =>
    have h : s.Inv live := h
    by_cases hcnt : pageCnt = 0
    · rw [pallocGetMultiple, if_pos hcnt] at hget
      obtain ⟨rfl, rfl⟩ := Prod.mk.inj (Option.some.inj hget)
      exact h
    · obtain ⟨map, hsize, ⟨pages', hne, hget', htakes⟩ | ⟨hget', hused, -⟩⟩ :=
        pallocGetMultiple_spec h.layout flags hcnt
      · obtain ⟨rfl, rfl⟩ := Prod.mk.inj (Option.some.inj (hget.symm.trans hget'))
        rw [if_neg hne]
        show (s.setMap flags.user map).Inv (⟨flags.user, pages, pageCnt⟩ :: live)
        refine ⟨h.layout.setMap hsize, h.accounts.take htakes.free htakes.used, ?_, ?_, ?_⟩
        · exact List.forall_mem_cons.mpr ⟨htakes.aligned, h.aligned⟩
        · exact List.forall_mem_cons.mpr ⟨htakes.nonempty, h.nonempty⟩
        · exact within_setMap hsize (List.forall_mem_cons.mpr ⟨htakes.within, h.within⟩)
      · rw [hget'] at hget
        split at hget
        · cases hget
        · obtain ⟨rfl, rfl⟩ := Prod.mk.inj (Option.some.inj hget)
          rw [if_pos rfl]
          refine ⟨h.layout.setMap hsize, ⟨?_, h.accounts.apart⟩, h.aligned, h.nonempty, within_setMap hsize h.within⟩
          intro q
          rw [hused]
          exact h.accounts.covers q
  | @free s s' live g hg hfree =>
    have h : s.Inv live := h
    obtain ⟨-, map, hsize, hfree', hused⟩ := h.free_spec hg
    obtain rfl := Option.some.inj (hfree.symm.trans hfree')
    refine ⟨h.layout.setMap hsize, h.accounts.release hg hused, ?_, ?_, ?_⟩
    · exact fun g' hg' => h.aligned g' (List.mem_of_mem_erase hg')
    · exact fun g' hg' => h.nonempty g' (List.mem_of_mem_erase hg')
    · exact within_setMap hsize fun g' hg' => h.within g' (List.mem_of_mem_erase hg')

/-- The order of the ranges does not matter. -/
theorem Inv.perm {live' : List Grant} (h : s.Inv live) (hperm : live.Perm live') : s.Inv live' where
  layout := h.layout
  accounts := h.accounts.perm hperm
  aligned := fun g hg => h.aligned g (hperm.mem_iff.mpr hg)
  nonempty := fun g hg => h.nonempty g (hperm.mem_iff.mpr hg)
  within := fun g hg => h.within g (hperm.mem_iff.mpr hg)

/-- A range ends below the top of the address space. -/
theorem Inv.bounds (h : s.Inv live) (hg : g ∈ live) :
    0 < g.pages.toNat ∧ 0 < g.cnt.toNat ∧ g.pages.toNat + 4096 * g.cnt.toNat < 2 ^ 32 := by
  have hpos : 0 < g.cnt.toNat := Nat.pos_of_ne_zero fun hzero => h.nonempty g hg (BitVec.eq_of_toNat_eq hzero)
  have haligned := h.aligned g hg
  obtain ⟨lo, hi, hat⟩ := h.layout.pool_at g.user
  have hmap := hat.map
  have hbase := hat.base
  have hroom := hat.room
  have hpages := hat.pages
  have hlow := hat.low
  have hhigh := hat.high
  have hmem : ∀ q ∈ g.pageSet, (s.pool g.user).first ≤ q ∧
      q < (s.pool g.user).first + (s.pool g.user).usedMap.bitCnt.toNat :=
    fun q hq => Set.mem_Ico.mp (h.within g hg hq)
  have hfirst := hmem g.first (Set.mem_Ico.mpr ⟨le_rfl, by omega⟩)
  have hlast := hmem (g.first + (g.cnt.toNat - 1)) (Set.mem_Ico.mpr ⟨by omega, by omega⟩)
  rw [Grant.first] at hfirst hlast
  refine ⟨by omega, hpos, by omega⟩

/-- A state that calls lead to from the start, with the ranges that are handed out then. -/
def Reachable (ax : BitVec 16) (userPageLimit : Word) (memory : Word → Word) (s : Pools) (live : List Grant) : Prop :=
  ∃ s₀ ops, pallocInit (initRamPages ax) userPageLimit memory = some s₀ ∧ Trace Step (s₀, []) ops (s, live)

theorem Reachable.inv {ax : BitVec 16} {userPageLimit : Word} {memory : Word → Word}
    (h : Reachable ax userPageLimit memory s live) : s.Inv live := by
  obtain ⟨s₀, ops, hinit, hrun⟩ := h
  have hinv : s₀.Inv [] := pallocInit_inv hinit
  exact hrun.invariant (I := fun c => c.1.Inv c.2) (fun _ _ _ hc hstep => hc.step hstep) hinv

/-! ## Addresses -/

theorem disjoint_of_le {a b c d : ℕ} (h : b ≤ c) : Disjoint (Set.Ico a b) (Set.Ico c d) := by
  apply Set.disjoint_left.mpr
  intro x hx hx'
  rw [Set.mem_Ico] at hx hx'
  omega

/-- **The bitmaps and the pools are apart.** -/
theorem Layout.apart (h : s.Layout) :
    [s.kernelPool.mapBytes, s.kernelPool.bytes, s.userPool.mapBytes, s.userPool.bytes].Pairwise Disjoint := by
  obtain ⟨lo, mid, hi, hkernel, huser⟩ := h
  have hbase := hkernel.base
  have hroom := hkernel.room
  have hpages := hkernel.pages
  have hbase' := huser.base
  have hroom' := huser.room
  have hmap' := huser.map
  simp only [List.pairwise_cons, List.mem_cons, List.not_mem_nil, or_false, forall_eq_or_imp, forall_eq]
  refine ⟨⟨?_, ?_, ?_⟩, ⟨?_, ?_⟩, ?_, ?_⟩
  · exact disjoint_of_le (by omega)
  · exact disjoint_of_le (by omega)
  · exact disjoint_of_le (by omega)
  · exact disjoint_of_le (by omega)
  · exact disjoint_of_le (by omega)
  · exact disjoint_of_le (by omega)
  · exact ⟨fun _ hno => absurd hno id, .nil⟩

theorem Layout.mem_bytes (h : s.Layout) {a : ℕ} : a ∈ (s.pool user).bytes ↔ a / 4096 ∈ (s.pool user).pages := by
  obtain ⟨lo, hi, hat⟩ := h.pool_at user
  have hbase := hat.base
  rw [Pool.bytes, Pool.pages, Set.mem_Ico, Set.mem_Ico]
  omega

theorem Inv.mem_bytes (h : s.Inv live) (hg : g ∈ live) {a : ℕ} : a ∈ g.bytes ↔ a / 4096 ∈ g.pageSet := by
  have haligned := h.aligned g hg
  rw [Grant.bytes, Grant.pageSet, Grant.first, Set.mem_Ico, Set.mem_Ico]
  omega

/-- A range of pages of the pool no page of which is handed out. -/
def FreeRange (s : Pools) (live : List Grant) (user : Bool) (cnt : Word) (a : ℕ) : Prop :=
  a % 4096 = 0 ∧ Set.Ico a (a + 4096 * cnt.toNat) ⊆ (s.pool user).bytes ∧
    ∀ g ∈ live, Disjoint (Set.Ico a (a + 4096 * cnt.toNat)) g.bytes

/-- The call panics or returns a null pointer. -/
def GetFails (s : Pools) (flags : PallocFlags) (cnt : Word) : Prop :=
  s.pallocGetMultiple flags cnt = none ∨ ∃ s', s.pallocGetMultiple flags cnt = some (0, s')

theorem Inv.freeFrom {cnt : Word} {a : ℕ} (h : s.Inv live) (hfree : s.FreeRange live user cnt a) :
    s.FreeFrom user cnt.toNat (a / 4096) := by
  obtain ⟨haligned, hpool, hlive⟩ := hfree
  have hmem : ∀ q ∈ Set.Ico (a / 4096) (a / 4096 + cnt.toNat), 4096 * q ∈ Set.Ico a (a + 4096 * cnt.toNat) := by
    intro q hq
    rw [Set.mem_Ico] at hq ⊢
    omega
  have hpage : ∀ q, 4096 * q / 4096 = q := fun q => Nat.mul_div_cancel_left q (by decide)
  constructor
  · intro q hq
    have hin := h.layout.mem_bytes.mp (hpool (hmem q hq))
    rw [hpage] at hin
    exact hin
  · apply h.accounts.free_of_disjoint
    intro g hg
    apply Set.disjoint_left.mpr
    intro q hq hq'
    apply Set.disjoint_left.mp (hlive g hg) (hmem q hq)
    rw [h.mem_bytes hg, hpage]
    exact hq'

/-- **A request for pages fails only where there are not so many in a row.** -/
theorem Inv.of_getFails {flags : PallocFlags} {cnt : Word} (h : s.Inv live) (hcnt : cnt ≠ 0)
    (hfails : s.GetFails flags cnt) (a : ℕ) : ¬s.FreeRange live flags.user cnt a := by
  intro hfree
  obtain ⟨map, -, ⟨pages, hne, hget, -⟩ | ⟨-, -, hnone⟩⟩ := pallocGetMultiple_spec h.layout flags hcnt
  · rcases hfails with hpanic | ⟨s', hnull⟩
    · cases hpanic.symm.trans hget
    · exact hne (Prod.mk.inj (Option.some.inj (hget.symm.trans hnull))).1
  · exact hnone _ (h.freeFrom hfree)

/-- **A range that is given out** is in the pool that it is asked for, and apart from what is handed out. -/
theorem Inv.of_get {flags : PallocFlags} {cnt pages : Word} {s' : Pools} (h : s.Inv live)
    (hget : s.pallocGetMultiple flags cnt = some (pages, s')) (hne : pages ≠ 0) :
    Grant.bytes ⟨flags.user, pages, cnt⟩ ⊆ (s.pool flags.user).bytes ∧
      ∀ g ∈ live, Disjoint (Grant.bytes ⟨flags.user, pages, cnt⟩) g.bytes := by
  have hinv : s'.Inv (⟨flags.user, pages, cnt⟩ :: live) := by
    have hstep := h.step (c := (s, live)) (.get hget)
    rw [if_neg hne] at hstep
    exact hstep
  have hmem := fun a => hinv.mem_bytes (a := a) List.mem_cons_self
  have hcnt : cnt ≠ 0 := hinv.nonempty _ List.mem_cons_self
  have hapart := (List.pairwise_cons.mp hinv.accounts.apart).1
  constructor
  · obtain ⟨map, -, ⟨pages', -, hget', htakes⟩ | ⟨hget', -, -⟩⟩ := pallocGetMultiple_spec h.layout flags hcnt
    · obtain ⟨rfl, -⟩ := Prod.mk.inj (Option.some.inj (hget.symm.trans hget'))
      intro a ha
      rw [h.layout.mem_bytes]
      exact htakes.within ((hmem a).mp ha)
    · rw [hget'] at hget
      split at hget
      · cases hget
      · exact absurd (Prod.mk.inj (Option.some.inj hget)).1.symm hne
  · intro g hg
    apply Set.disjoint_left.mpr
    intro a ha ha'
    exact Set.disjoint_left.mp (hapart g hg) ((hmem a).mp ha) ((h.mem_bytes hg).mp ha')

/-- **The page allocator**, after any calls that free what they were given: the bitmaps and the pools are apart, what is
handed out is in its pool and apart, a request for pages fails only where there are not so many in a row, and a range
that is freed goes back into its pool. -/
theorem palloc_ranges {ax : BitVec 16} {userPageLimit : Word} {memory : Word → Word}
    (h : Reachable ax userPageLimit memory s live) :
    [s.kernelPool.mapBytes, s.kernelPool.bytes, s.userPool.mapBytes, s.userPool.bytes].Pairwise Disjoint ∧
      (∀ g ∈ live, g.bytes ⊆ (s.pool g.user).bytes) ∧
      live.Pairwise (fun g g' => Disjoint g.bytes g'.bytes) ∧
      (∀ flags cnt pages s', s.pallocGetMultiple flags cnt = some (pages, s') → pages ≠ 0 →
        Grant.bytes ⟨flags.user, pages, cnt⟩ ⊆ (s.pool flags.user).bytes ∧
          ∀ g ∈ live, Disjoint (Grant.bytes ⟨flags.user, pages, cnt⟩) g.bytes) ∧
      (∀ flags cnt, cnt ≠ 0 → s.GetFails flags cnt → ∀ a, ¬s.FreeRange live flags.user cnt a) ∧
      ∀ g ∈ live, s.poolOf g.pages = some g.user ∧ ∃ s', s.pallocFreeMultiple g.pages g.cnt = some s' ∧
        s'.pool (!g.user) = s.pool (!g.user) ∧ ∀ q, q ∈ s'.used ↔ q ∈ s.used ∧ q ∉ g.pageSet := by
  have hinv := h.inv
  refine ⟨hinv.layout.apart, ?_, ?_, ?_, ?_, ?_⟩
  · intro g hg a ha
    rw [hinv.layout.mem_bytes]
    exact hinv.within g hg ((hinv.mem_bytes hg).mp ha)
  · apply hinv.accounts.apart.imp_of_mem
    intro g g' hg hg' hapart
    apply Set.disjoint_left.mpr
    intro a ha ha'
    exact Set.disjoint_left.mp hapart ((hinv.mem_bytes hg).mp ha) ((hinv.mem_bytes hg').mp ha')
  · intro flags cnt pages s' hget hne
    exact hinv.of_get hget hne
  · intro flags cnt hcnt hfails
    exact hinv.of_getFails hcnt hfails
  · intro g hg
    obtain ⟨hpool, map, -, hfree, hused⟩ := hinv.free_spec hg
    have hother : (!g.user) ≠ g.user := by cases g.user <;> decide
    exact ⟨hpool, _, hfree, pool_setMap_of_ne s map hother, hused⟩

/-- 1040 kB: a page for each pool. -/
theorem pallocInit_small : ∃ s, pallocInit (initRamPages 16) 100 (fun _ => 0) = some s ∧
    ∃ s', s.pallocGetMultiple ⟨false, false, true⟩ 1 = some (0xc0103000, s') := by
  have hrun : ((pallocInit (initRamPages 16) 100 fun _ => 0).bind fun s =>
      (s.pallocGetMultiple ⟨false, false, true⟩ 1).map (·.1)) = some 0xc0103000 := by decide +kernel
  obtain ⟨s, hinit, hget⟩ := Option.bind_eq_some_iff.mp hrun
  obtain ⟨found, hfound, hpages⟩ := Option.map_eq_some_iff.mp hget
  exact ⟨s, hinit, found.2, hfound.trans (congrArg (fun pages => some (pages, found.2)) hpages)⟩

/-- The only page of the user pool is handed out, and taken back. -/
theorem palloc_ranges_small : ∃ s : Pools, Reachable 16 100 (fun _ => 0) s [⟨true, 0xc0103000, 1⟩] ∧
    (Grant.mk true 0xc0103000 1).bytes ⊆ s.userPool.bytes ∧ ∃ s', s.pallocFreeMultiple 0xc0103000 1 = some s' := by
  obtain ⟨s₀, hinit, s, hget⟩ := pallocInit_small
  have hreach : Reachable 16 100 (fun _ => 0) s [⟨true, 0xc0103000, 1⟩] :=
    ⟨s₀, [.get ⟨false, false, true⟩ 1], hinit, .single (.get hget)⟩
  obtain ⟨-, hwithin, -, -, -, hfree⟩ := palloc_ranges hreach
  obtain ⟨-, s', hfree', -⟩ := hfree _ (List.mem_singleton.mpr rfl)
  exact ⟨s, hreach, hwithin _ (List.mem_singleton.mpr rfl), s', hfree'⟩

/-- A request for no pages returns a null pointer, although no pages are free in a row anywhere. -/
theorem get_no_pages_fails : ¬∀ (ax : BitVec 16) (userPageLimit : Word) (memory : Word → Word) (s : Pools)
    (live : List Grant), Reachable ax userPageLimit memory s live →
      ∀ flags cnt, s.GetFails flags cnt → ∀ a, ¬s.FreeRange live flags.user cnt a := by
  intro hall
  obtain ⟨s, hinit, -⟩ := pallocInit_small
  have hreach : Reachable 16 100 (fun _ => 0) s [] := ⟨s, [], hinit, .nil _⟩
  apply hall 16 100 (fun _ => 0) s [] hreach ⟨false, false, false⟩ 0 (.inr ⟨s, if_pos rfl⟩) 0
  have hempty : Set.Ico 0 (0 + 4096 * (0 : Word).toNat) = ∅ := Set.Ico_self 0
  refine ⟨rfl, ?_, ?_⟩
  · rw [hempty]
    exact Set.empty_subset _
  · intro g hg
    cases hg

end Pools

end Pintos.Threads.Palloc
