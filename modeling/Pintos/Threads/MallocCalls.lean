import Pintos.Threads.MallocCells

/-!
# The calls of the heap

What `malloc` and `free` do in a state of the invariant: whether there is a block, how large it is, and that the bytes of
the blocks that stay live are left alone (`Heap.Keeps`).

The number of pages for a large block is computed in 32 bits: `pageCnt_covers` and `pageCnt_wraps`.
-/

namespace Pintos.Threads.Malloc

open Pintos.Threads.Palloc (Pools Grant PallocFlags)
open Carving

/-! ## Sizes -/

theorem findDesc_some {size : Word} {i : DescPtr} (h : findDesc size = some i) :
    size.toNat ≤ (descs.get i).blockSize.toNat := by
  have hle := List.find?_some h
  rw [decide_eq_true_iff] at hle
  exact hle

theorem findDesc_none {size : Word} (h : findDesc size = none) : 1024 < size.toNat := by
  have hall := List.find?_eq_none.mp h ⟨6, by decide⟩ (List.mem_finRange _)
  rw [decide_eq_true_iff] at hall
  exact Nat.lt_of_not_le hall

theorem toNat_pageCnt (size : Word) : (pageCnt size).toNat = (size.toNat + 4107) % 2 ^ 32 / 4096 := by
  have hsum : (size + arenaSize + pgSize - 1).toNat = (size.toNat + 4107) % 2 ^ 32 := by
    unfold arenaSize pgSize
    bv_omega
  rw [pageCnt, BitVec.toNat_udiv, hsum, toNat_pgSize]

/-- The pages cover the block and the header, if there are any. -/
theorem pageCnt_covers {size : Word} (h : size.toNat ≤ 2 ^ 32 - 12) (hne : pageCnt size ≠ 0) :
    size.toNat + 12 ≤ 4096 * (pageCnt size).toNat := by
  have hpos : 0 < (pageCnt size).toNat := Nat.pos_of_ne_zero fun hzero => hne (BitVec.eq_of_toNat_eq hzero)
  rw [toNat_pageCnt] at hpos ⊢
  omega

/-- The sum wraps around: one page for nearly 4 GB. -/
theorem pageCnt_wraps {size : Word} (h : 2 ^ 32 - 12 < size.toNat) : pageCnt size = 1 := by
  have hlt := size.isLt
  apply BitVec.eq_of_toNat_eq
  rw [toNat_pageCnt]
  show _ = 1
  omega

namespace Chunk

variable {c : Chunk} {b x : Word}

theorem Valid.mem_extent_iff (h : c.Valid) (hb : b ∈ c.cells) : x.toNat ∈ c.extent b ↔ (x - b).toNat < c.room := by
  have hend := (h.cell_within hb).2
  have hhigh := h.high
  have hx := x.isLt
  rw [extent, Set.mem_Ico, BitVec.toNat_sub]
  omega

theorem Valid.mem_pages_iff (h : c.Valid) : x.toNat / 4096 ∈ c.grant.pageSet ↔ x - c.pages < pgSize * c.cnt := by
  have haligned := h.aligned
  have hhigh := h.high
  have hx := x.isLt
  have hmul : (pgSize * c.cnt).toNat = 4096 * c.cnt.toNat := by
    rw [BitVec.toNat_mul, toNat_pgSize, Nat.mod_eq_of_lt (by omega)]
  rw [BitVec.lt_def, BitVec.toNat_sub, hmul]
  show x.toNat / 4096 ∈ Set.Ico (c.pages.toNat / 4096) (c.pages.toNat / 4096 + c.cnt.toNat) ↔ _
  rw [Set.mem_Ico]
  omega

end Chunk

namespace Heap

variable {H H' H'' : Heap} {foreign : List Grant} {live : List LiveBlock} {own : List Chunk} {c c' : Chunk}
  {b b' x : Word} {i : DescPtr} {l l' touched : List Word} {n : ℕ}

/-- The arenas and the bytes of the blocks stay as they are. -/
def Keeps (H H' : Heap) (live : List LiveBlock) : Prop :=
  ∀ lb ∈ live, ∀ c ∈ H.own, lb.addr ∈ c.cells →
    c ∈ H'.own ∧ ∀ x : Word, x.toNat ∈ c.extent lb.addr → H'.bytes x = H.bytes x

theorem Keeps.trans (h : H.Keeps H' live) (h' : H'.Keeps H'' live) : H.Keeps H'' live := by
  intro lb hlb c hc hcell
  obtain ⟨hc', hbytes⟩ := h lb hlb c hc hcell
  obtain ⟨hc'', hbytes'⟩ := h' lb hlb c hc' hcell
  exact ⟨hc'', fun x hx => (hbytes' x hx).trans (hbytes x hx)⟩

/-- No arena goes. -/
structure Extends (H H' : Heap) (live : List LiveBlock) : Prop where
  own : H.own ⊆ H'.own
  keeps : H.Keeps H' live

theorem Extends.trans (h : H.Extends H' live) (h' : H'.Extends H'' live) : H.Extends H'' live :=
  ⟨List.Subset.trans h.own h'.own, h.keeps.trans h'.keeps⟩

theorem Extends.of_bytes (hown : H.own ⊆ H'.own) (hbytes : H'.bytes = H.bytes) : H.Extends H' live :=
  ⟨hown, fun _ _ _ hc _ => ⟨hown hc, fun _ _ => congrFun hbytes _⟩⟩

namespace Cells

/-- A byte of a block is not at the start of another one. -/
theorem not_near (h : H.Cells own live) (hc : c ∈ own) (hb : b ∈ c.cells) (hc' : c' ∈ own) (hb' : b' ∈ c'.cells)
    (hne : b ≠ b') (hx : x.toNat ∈ c'.extent b') {k : Word} (hk : k.toNat ≤ c.room) : ¬x - b < k := by
  intro hlt
  have hlt' : (x - b).toNat < k.toNat := hlt
  have hmem := ((h.header c hc).valid.mem_extent_iff hb).mpr (hlt'.trans_le hk)
  exact Set.disjoint_left.mp (h.blocks_apart hc hc' hb hb' hne) hmem hx

/-- A byte of a live block is not a link of a free one. -/
theorem not_link (h : H.Cells own live) (hb : b ∈ H.freeList i) {lb : LiveBlock} (hlb : lb ∈ live) (hc : c ∈ own)
    (hcell : lb.addr ∈ c.cells) (hx : x.toNat ∈ c.extent lb.addr) : ¬x - b < 8 := by
  obtain ⟨c', hc', -, hb'⟩ := h.free_cell hb
  have hne : b ≠ lb.addr := by
    intro heq
    exact h.free_not_live hb (heq ▸ List.mem_map_of_mem hlb)
  have hroom := (h.header c' hc').valid.fits.1
  exact h.not_near hc' hb' hc hcell hne hx (by
    show 8 ≤ c'.room
    omega)

/-- **`block_size`** -/
theorem blockSize_eq (h : H.Cells own live) (hc : c ∈ own) (hb : b ∈ c.cells) :
    ∃ room : Word, H.blockSize b = .ok room ∧ room.toNat = c.room := by
  apply (h.header c hc).blockSize_eq hb
  intro hdesc
  have hcnt := h.freeCnt c hc
  unfold freeBlocks at hcnt
  rw [hdesc] at hcnt
  exact BitVec.eq_of_toNat_eq hcnt

end Cells

/-! ## The free lists -/

/-- A free list has changed, and some links of some blocks. -/
structure Relinked (H H' : Heap) (i : DescPtr) (l touched : List Word) : Prop where
  freeList : H'.freeList = Function.update H.freeList i l
  arenas : H'.arenas = H.arenas
  pools : H'.pools = H.pools
  own : H'.own = H.own
  bytes : ∀ x, (∀ b ∈ touched, ¬x - b < 8) → H'.bytes x = H.bytes x

theorem relinked_setFreeList (H : Heap) (i : DescPtr) (hl : l ⊆ touched) :
    H.Relinked (H.setFreeList i l) i l touched := by
  refine ⟨rfl, rfl, rfl, rfl, fun x hx => ?_⟩
  apply if_neg
  intro hany
  obtain ⟨b, hb, hnear⟩ := List.any_eq_true.mp hany
  exact hx b (hl hb) (of_decide_eq_true hnear)

theorem Relinked.refl (H : Heap) (i : DescPtr) (touched : List Word) : H.Relinked H i (H.freeList i) touched :=
  ⟨(Function.update_eq_self i H.freeList).symm, rfl, rfl, rfl, fun _ _ => rfl⟩

theorem Relinked.trans (h : H.Relinked H' i l touched) (h' : H'.Relinked H'' i l' touched) :
    H.Relinked H'' i l' touched where
  freeList := by rw [h'.freeList, h.freeList, Function.update_idem]
  arenas := h'.arenas.trans h.arenas
  pools := h'.pools.trans h.pools
  own := h'.own.trans h.own
  bytes := fun x hx => (h'.bytes x hx).trans (h.bytes x hx)

theorem Header.congr (h : H.Header c) (harenas : H'.arenas = H.arenas) : H'.Header c := by
  refine ⟨h.valid, ?_, ?_⟩
  · rw [harenas]
    exact h.magic
  · rw [harenas]
    exact h.desc

/-- The cells from an index on. -/
def cellsFrom (c : Chunk) (idx left : ℕ) : List Word := (List.range' idx left).map c.cell

theorem cellsFrom_succ (c : Chunk) (idx left : ℕ) :
    cellsFrom c idx (left + 1) = c.cell idx :: cellsFrom c (idx + 1) left := by
  unfold cellsFrom
  rw [List.range'_succ, List.map_cons]

theorem cellsFrom_zero (c : Chunk) : cellsFrom c 0 c.blocks = c.cells := by
  unfold cellsFrom Chunk.cells
  rw [List.range_eq_range']

/-- An index of the loops over the blocks of an arena. -/
theorem toNat_succ_idx {idx : Word} {left : ℕ} (hdesc : c.desc = some i) (hidx : idx.toNat + (left + 1) = c.blocks) :
    idx.toNat < (descs.get i).blocksPerArena.toNat ∧ (idx + 1).toNat = idx.toNat + 1 := by
  unfold Chunk.blocks at hidx
  rw [hdesc] at hidx
  dsimp only at hidx
  have hlt := (descs.get i).blocksPerArena.isLt
  refine ⟨by omega, BitVec.toNat_add_of_lt ?_⟩
  show idx.toNat + 1 < 2 ^ 32
  omega

/-- The loop of `malloc` from an index on. -/
theorem addBlocks_eq {left : ℕ} {idx : Word} (h : H.Header c) (hdesc : c.desc = some i)
    (hidx : idx.toNat + left = c.blocks) (hfree : H.freeList i ⊆ touched)
    (hcells : cellsFrom c idx.toNat left ⊆ touched) :
    ∃ H', addBlocks c.pages i left idx H = .ok H' ∧
      H.Relinked H' i (H.freeList i ++ cellsFrom c idx.toNat left) touched := by
  induction left generalizing H idx with
  | zero =>
    refine ⟨H, rfl, ?_⟩
    have hnil : cellsFrom c idx.toNat 0 = [] := rfl
    rw [hnil, List.append_nil]
    exact .refl H i touched
  | succ left ih =>
    obtain ⟨hlt, hone⟩ := toNat_succ_idx hdesc hidx
    rw [cellsFrom_succ] at hcells ⊢
    have hlist : H.freeList i ++ [c.cell idx.toNat] ⊆ touched := by
      apply List.append_subset.mpr
      refine ⟨hfree, ?_⟩
      intro b hb
      rw [List.mem_singleton.mp hb]
      exact hcells List.mem_cons_self
    have hset := relinked_setFreeList H i hlist
    have hnew : (H.setFreeList i (H.freeList i ++ [c.cell idx.toNat])).freeList i =
        H.freeList i ++ [c.cell idx.toNat] := Function.update_self ..
    rw [← hone] at hcells
    have hidx' : (idx + 1).toNat + left = c.blocks := by omega
    obtain ⟨H', hloop, hrel⟩ := ih (h.congr hset.arenas) hidx' (by rw [hnew]; exact hlist)
      (List.subset_of_cons_subset hcells)
    refine ⟨H', ?_, ?_⟩
    · unfold addBlocks
      rw [h.arenaToBlock_eq hdesc hlt, ok_bind]
      exact hloop
    · rw [hnew, hone, List.append_assoc, List.singleton_append] at hrel
      exact hset.trans hrel

/-- The loop of `free` from an index on. -/
theorem removeBlocks_eq {left : ℕ} {idx : Word} (h : H.Header c) (hdesc : c.desc = some i)
    (hidx : idx.toNat + left = c.blocks) (hfree : H.freeList i ⊆ touched)
    (hcells : (cellsFrom c idx.toNat left).Subperm (H.freeList i)) :
    ∃ H', removeBlocks c.pages i left idx H = .ok H' ∧
      H.Relinked H' i ((H.freeList i).diff (cellsFrom c idx.toNat left)) touched := by
  induction left generalizing H idx with
  | zero => exact ⟨H, rfl, .refl H i touched⟩
  | succ left ih =>
    obtain ⟨hlt, hone⟩ := toNat_succ_idx hdesc hidx
    rw [cellsFrom_succ] at hcells ⊢
    obtain ⟨hmem, hrest⟩ := mem_of_subperm hcells
    have hlist : (H.freeList i).erase (c.cell idx.toNat) ⊆ touched := List.Subset.trans List.erase_subset hfree
    have hset := relinked_setFreeList H i hlist
    have hnew : (H.setFreeList i ((H.freeList i).erase (c.cell idx.toNat))).freeList i =
        (H.freeList i).erase (c.cell idx.toNat) := Function.update_self ..
    rw [← hone] at hrest
    have hidx' : (idx + 1).toNat + left = c.blocks := by omega
    obtain ⟨H', hloop, hrel⟩ := ih (h.congr hset.arenas) hidx' (by rw [hnew]; exact hlist)
      (by rw [hnew]; exact hrest)
    refine ⟨H', ?_, ?_⟩
    · unfold removeBlocks
      rw [h.arenaToBlock_eq hdesc hlt, ok_bind, if_pos hmem]
      exact hloop
    · rw [hnew, hone] at hrel
      rw [List.diff_cons]
      exact hset.trans hrel

/-! ## `malloc` -/

/-- The first free block is handed out. -/
theorem takeBlock_spec (h : H.Inv foreign live) (hl : H.freeList i = b :: l) :
    ∃ H', H.takeBlock i = .ok (b, H') ∧ H.Extends H' live ∧ ∃ c ∈ H'.own, c.desc = some i ∧ b ∈ c.cells ∧
      ∀ n ≤ c.room, H'.Inv foreign (⟨b, n⟩ :: live) := by
  have hb : b ∈ H.freeList i := by
    rw [hl]
    exact List.mem_cons_self
  obtain ⟨c, hc, hdesc, hcell⟩ := h.cells.free_cell hb
  have hheader := h.cells.header c hc
  have hset := relinked_setFreeList H i (List.Subset.refl l)
  have harena := (hheader.congr hset.arenas).blockToArena_eq hcell
  have htake : H.takeBlock i = .ok (b, (H.setFreeList i l).setArena c.pages
      { H.arenas c.pages with freeCnt := (H.arenas c.pages).freeCnt - 1 }) := by
    unfold takeBlock
    rw [hl]
    dsimp only
    rw [harena]
    rfl
  refine ⟨_, htake, ⟨List.Subset.refl _, ?_⟩, c, hc, hdesc, hcell, fun n hn => ⟨h.pools, ?_⟩⟩
  · intro lb hlb c' hc' hcell'
    refine ⟨hc', fun x hx => hset.bytes x fun b' hb' => ?_⟩
    have hmem : b' ∈ H.freeList i := by
      rw [hl]
      exact List.mem_cons_of_mem b hb'
    exact h.cells.not_link hmem hlb hc' hcell' hx
  · exact h.cells.take hl hc hdesc (hheader.valid.pgRoundDown_cell hcell).1 hn rfl rfl

/-- There are not so many free pages in a row. -/
def NoPages (H : Heap) (cnt : Word) : Prop := cnt = 0 ∨ ∀ q, ¬H.pools.FreeFrom false cnt.toNat q

/-- Pages for an arena, or none. -/
theorem getPages_spec (h : H.Inv foreign live) (cnt : Word) (desc : Option DescPtr) :
    (H.NoPages cnt ∧ ∃ pools : Pools, H.getPages cnt desc = .ok (0, { H with pools }) ∧
      pools.Inv (H.own.map Chunk.grant ++ foreign)) ∨
    (¬H.NoPages cnt ∧ ∃ (a : Word) (pools : Pools), a ≠ 0 ∧
      H.getPages cnt desc = .ok (a, { H with pools, own := ⟨a, cnt, desc⟩ :: H.own }) ∧
      pools.Inv (Chunk.grant ⟨a, cnt, desc⟩ :: (H.own.map Chunk.grant ++ foreign))) := by
  have hstep : ∀ {a : Word} {pools : Pools}, H.pools.pallocGetMultiple ⟨false, false, false⟩ cnt = some (a, pools) →
      pools.Inv (if a = 0 then H.own.map Chunk.grant ++ foreign
        else ⟨false, a, cnt⟩ :: (H.own.map Chunk.grant ++ foreign)) := by
    intro a pools hget
    exact h.pools.step (c := (H.pools, H.own.map Chunk.grant ++ foreign)) (.get hget)
  by_cases hcnt : cnt = 0
  · have hget : H.pools.pallocGetMultiple ⟨false, false, false⟩ cnt = some (0, H.pools) := if_pos hcnt
    refine .inl ⟨.inl hcnt, H.pools, ?_, h.pools⟩
    unfold getPages
    rw [hget]
    rfl
  · obtain ⟨map, -, ⟨a, hne, hget, htakes⟩ | ⟨hget, -, hnone⟩⟩ :=
      Palloc.Pools.pallocGetMultiple_spec h.pools.layout ⟨false, false, false⟩ hcnt
    · right
      have hinv := hstep hget
      rw [if_neg hne] at hinv
      refine ⟨?_, a, _, hne, ?_, hinv⟩
      · intro hno
        rcases hno with hzero | hnone
        · exact hcnt hzero
        · exact hnone _ ⟨htakes.within, htakes.free⟩
      · unfold getPages
        rw [hget]
        dsimp only
        rw [if_neg hne]
    · have hget' : H.pools.pallocGetMultiple ⟨false, false, false⟩ cnt = some (0, H.pools.setMap false map) := hget
      refine .inl ⟨.inr hnone, _, ?_, hstep hget'⟩
      unfold getPages
      rw [hget']
      rfl

/-- Pages that have been obtained make an arena. -/
theorem valid_of_grant {pools : Pools}
    (hpools : pools.Inv (c.grant :: (H.own.map Chunk.grant ++ foreign))) (hsingle : ∀ i, c.desc = some i → c.cnt = 1) :
    c.Valid ∧ ∀ c' ∈ H.own, Disjoint c.grant.pageSet c'.grant.pageSet := by
  obtain ⟨hlow, hpos, hhigh⟩ := hpools.bounds List.mem_cons_self
  refine ⟨⟨hpools.aligned _ List.mem_cons_self, hlow, hpos, hhigh, hsingle⟩, fun c' hc' => ?_⟩
  apply (List.pairwise_cons.mp hpools.accounts.apart).1
  exact List.mem_append_left _ (List.mem_map_of_mem hc')

/-- A page is obtained and carved into blocks. -/
theorem newArena_spec (h : H.Inv foreign live) (i : DescPtr) :
    (H.NoPages 1 ∧ ∃ H', H.newArena i = .ok (false, H') ∧ H.Extends H' live ∧ H'.Inv foreign live) ∨
    (¬H.NoPages 1 ∧ ∃ H', H.newArena i = .ok (true, H') ∧ H.Extends H' live ∧ H'.Inv foreign live ∧ H'.freeList i ≠ []) := by
  obtain ⟨hno, pools, hget, hpools⟩ | ⟨hsome, a, pools, hne, hget, hpools⟩ := getPages_spec h 1 (some i)
  · left
    refine ⟨hno, { H with pools }, ?_, .of_bytes (List.Subset.refl _) rfl, hpools, h.cells.congr rfl fun _ _ => rfl⟩
    unfold newArena
    rw [hget, ok_bind]
    rfl
  · right
    obtain ⟨hvalid, hapart⟩ := valid_of_grant (c := ⟨a, 1, some i⟩) hpools fun _ _ => rfl
    -- the state in front of the loop
    obtain ⟨H₁, hH₁⟩ : ∃ H₁ : Heap, H₁ = setArena { H with pools, own := ⟨a, 1, some i⟩ :: H.own } a
      ⟨arenaMagic, some i, (descs.get i).blocksPerArena⟩ := ⟨_, rfl⟩
    have hself : H₁.arenas a = ⟨arenaMagic, some i, (descs.get i).blocksPerArena⟩ := by
      rw [hH₁]
      exact Function.update_self ..
    have hheader : H₁.Header ⟨a, 1, some i⟩ :=
      ⟨hvalid, congrArg Arena.magic hself, congrArg Arena.desc hself⟩
    have hfree : H₁.freeList = H.freeList := by rw [hH₁]; rfl
    have hblocks : (0 : Word).toNat + (descs.get i).blocksPerArena.toNat = Chunk.blocks ⟨a, 1, some i⟩ := Nat.zero_add _
    have hcells : cellsFrom ⟨a, 1, some i⟩ (0 : Word).toNat (descs.get i).blocksPerArena.toNat =
        Chunk.cells ⟨a, 1, some i⟩ := cellsFrom_zero _
    have hold : H₁.freeList i ⊆ H.freeList i ++ Chunk.cells ⟨a, 1, some i⟩ := by
      rw [hfree]
      exact List.subset_append_left _ _
    obtain ⟨H', hloop, hrel⟩ := addBlocks_eq hheader rfl hblocks hold (by rw [hcells]; exact List.subset_append_right _ _)
    rw [hcells, hfree] at hrel
    have hfree' := hrel.freeList
    rw [hfree] at hfree'
    have hcells' : H'.Cells (⟨a, 1, some i⟩ :: H.own) live := by
      apply h.cells.addArena hvalid rfl hapart hfree'
      rw [hrel.arenas, hH₁]
      rfl
    have hown : H'.own = ⟨a, 1, some i⟩ :: H.own := by rw [hrel.own, hH₁]; rfl
    have hpools' : H'.pools = pools := by rw [hrel.pools, hH₁]; rfl
    have hsub : H.own ⊆ H'.own := by
      rw [hown]
      exact List.subset_cons_self _ _
    refine ⟨hsome, H', ?_, ⟨hsub, ?_⟩, ⟨?_, ?_⟩, ?_⟩
    · unfold newArena
      rw [hget, ok_bind]
      dsimp only
      rw [if_neg hne, ← hH₁, hloop]
      rfl
    · intro lb hlb c' hc' hcell'
      refine ⟨hsub hc', fun x hx => ?_⟩
      have hbytes : H₁.bytes = H.bytes := by rw [hH₁]; rfl
      rw [hrel.bytes x, hbytes]
      intro b hb
      rcases List.mem_append.mp hb with hb | hb
      · exact h.cells.not_link hb hlb hc' hcell' hx
      · -- a block of the new arena
        have hne' : b ≠ lb.addr := by
          intro heq
          have hpage := (hvalid.pgRoundDown_cell hb).1
          rw [heq, ((h.cells.header c' hc').valid.pgRoundDown_cell hcell').1] at hpage
          exact pages_ne (hapart c' hc') hvalid (h.cells.header c' hc').valid hpage.symm
        have hroom := hvalid.fits.1
        exact hcells'.not_near List.mem_cons_self hb (List.mem_cons_of_mem _ hc') hcell' hne' hx (by
          show 8 ≤ _
          omega)
    · rw [hpools', hown]
      exact hpools
    · rw [hown]
      exact hcells'
    · rw [hfree', Function.update_self]
      intro hnil
      have hpos := hvalid.fits.2.1
      have hlength := congrArg List.length (List.append_eq_nil_iff.mp hnil).2
      rw [Chunk.cells, List.length_map, List.length_range, List.length_nil] at hlength
      omega

/-- There is no memory for a request: no free block and no page for an arena, or not so many pages in a row. -/
def NoRoom (H : Heap) (size : Word) : Prop :=
  match findDesc size with
  | some i => H.freeList i = [] ∧ H.NoPages 1
  | none => H.NoPages (pageCnt size)

/-- **`malloc`** returns a block unless there is no memory.  It is large enough for a size that is not near the top. -/
theorem malloc_spec {size : Word} (h : H.Inv foreign live) (hsize : size ≠ 0) :
    (H.NoRoom size ∧ ∃ H', H.malloc size = .ok (0, H') ∧ H.Extends H' live ∧ H'.Inv foreign live) ∨
    (¬H.NoRoom size ∧ ∃ p H', H.malloc size = .ok (p, H') ∧ p ≠ 0 ∧ H.Extends H' live ∧ ∃ c ∈ H'.own, p ∈ c.cells ∧
      (size.toNat ≤ 2 ^ 32 - 12 → size.toNat ≤ c.room) ∧ (2 ^ 32 - 12 < size.toNat → c.room = 4084) ∧
      ∀ n ≤ c.room, H'.Inv foreign (⟨p, n⟩ :: live)) := by
  unfold NoRoom malloc
  rw [if_neg hsize]
  cases hfind : findDesc size with
  | none =>
    dsimp only
    have hbig := findDesc_none hfind
    obtain ⟨hno, pools, hget, hpools⟩ | ⟨hsome, a, pools, hne, hget, hpools⟩ := getPages_spec h (pageCnt size) none
    · left
      refine ⟨hno, { H with pools }, ?_, .of_bytes (List.Subset.refl _) rfl, hpools, h.cells.congr rfl fun _ _ => rfl⟩
      rw [hget, ok_bind]
      rfl
    · right
      obtain ⟨hvalid, hapart⟩ := valid_of_grant (c := ⟨a, pageCnt size, none⟩) hpools fun i hi => by cases hi
      have hcell : a + arenaSize ∈ Chunk.cells ⟨a, pageCnt size, none⟩ := by
        apply hvalid.mem_cells.mpr
        have hhigh := hvalid.high
        have hpos := hvalid.pos
        refine ⟨0, Nat.one_pos, ?_⟩
        rw [Nat.zero_mul]
        apply BitVec.toNat_add_of_lt
        show a.toNat + 12 < 2 ^ 32
        dsimp only at hhigh hpos
        omega
      have hcnt : pageCnt size ≠ 0 := by
        intro hzero
        exact hsome (.inl hzero)
      refine ⟨hsome, a + arenaSize, setArena { H with pools, own := ⟨a, pageCnt size, none⟩ :: H.own } a
        ⟨arenaMagic, none, pageCnt size⟩, ?_, hvalid.cell_ne_zero hcell, .of_bytes (List.subset_cons_self _ _) rfl,
        ⟨a, pageCnt size, none⟩, List.mem_cons_self, hcell, ?_, ?_, fun n hn => ⟨hpools, ?_⟩⟩
      · rw [hget, ok_bind]
        dsimp only
        rw [if_neg hne]
        rfl
      · intro hle
        have hcovers := pageCnt_covers hle hcnt
        unfold Chunk.room
        dsimp only
        omega
      · intro hlt
        unfold Chunk.room
        dsimp only
        rw [pageCnt_wraps hlt]
        rfl
      · exact h.cells.addBig hvalid rfl hapart hcell hn rfl rfl
  | some i =>
    dsimp only
    have hfits := findDesc_some hfind
    have hlow := (descs_fit i).2.2
    have hblocks := (descs_fit i).2.1
    have hsmall : (descs.get i).blockSize.toNat ≤ 4084 := by
      have hmul : 1 * (descs.get i).blockSize.toNat ≤
          (descs.get i).blocksPerArena.toNat * (descs.get i).blockSize.toNat := Nat.mul_le_mul_right _ hblocks
      omega
    -- a block of the free list, in the state that has one
    have htake : ∀ {H₁ : Heap}, H₁.Inv foreign live → H₁.freeList i ≠ [] → H.Extends H₁ live →
        ∃ p H', H₁.takeBlock i = .ok (p, H') ∧ p ≠ 0 ∧ H.Extends H' live ∧ ∃ c ∈ H'.own, p ∈ c.cells ∧
          (size.toNat ≤ 2 ^ 32 - 12 → size.toNat ≤ c.room) ∧ (2 ^ 32 - 12 < size.toNat → c.room = 4084) ∧
          ∀ n ≤ c.room, H'.Inv foreign (⟨p, n⟩ :: live) := by
      intro H₁ h₁ hnonempty hext
      obtain ⟨b, l, hl⟩ := List.exists_cons_of_ne_nil hnonempty
      obtain ⟨H', htake, hext', c, hc, hdesc, hcell, hinv⟩ := takeBlock_spec h₁ hl
      have hvalid := ((hinv 0 (Nat.zero_le _)).cells.header c hc).valid
      have hroom : c.room = (descs.get i).blockSize.toNat := by rw [Chunk.room, hdesc]
      refine ⟨b, H', htake, hvalid.cell_ne_zero hcell, hext.trans hext', c, hc, hcell, ?_, ?_, hinv⟩
      · intro _
        rw [hroom]
        exact hfits
      · intro hlt
        omega
    by_cases hempty : H.freeList i = []
    · rw [if_pos hempty]
      obtain ⟨hno, H₁, hnew, hext, hinv⟩ | ⟨hsome, H₁, hnew, hext, hinv, hnonempty⟩ := newArena_spec h i
      · refine .inl ⟨⟨hempty, hno⟩, H₁, ?_, hext, hinv⟩
        rw [hnew, ok_bind]
        rfl
      · obtain ⟨p, H', htaken, hrest⟩ := htake hinv hnonempty hext
        refine .inr ⟨fun hno => hsome hno.2, p, H', ?_, hrest⟩
        rw [hnew, ok_bind]
        exact htaken
    · rw [if_neg hempty]
      obtain ⟨p, H', htaken, hrest⟩ := htake h hempty (.of_bytes (List.Subset.refl _) rfl)
      exact .inr ⟨fun hno => hempty hno.1, p, H', htaken, hrest⟩

/-! ## `free` -/

/-- The pages of an arena go back. -/
theorem freePages_spec (hpools : H.pools.Inv (H.own.map Chunk.grant ++ foreign)) (hc : c ∈ H.own) (hvalid : c.Valid)
    (hdesc : (H.arenas c.pages).desc = c.desc) (hcells : H.Cells (H.own.erase c) live) :
    ∃ H', H.freePages c.pages c.cnt = .ok H' ∧ H'.Inv foreign live ∧ H'.own = H.own.erase c ∧
      ∀ x : Word, x.toNat / 4096 ∉ c.grant.pageSet → H'.bytes x = H.bytes x := by
  have hperm : (H.own.map Chunk.grant ++ foreign).Perm (c.grant :: ((H.own.erase c).map Chunk.grant ++ foreign)) :=
    ((List.perm_cons_erase hc).map Chunk.grant).append_right foreign
  have hinv := hpools.perm hperm
  obtain ⟨-, map, -, hfree, -⟩ := hinv.free_spec List.mem_cons_self
  have hrest := hinv.step (c := (H.pools, c.grant :: ((H.own.erase c).map Chunk.grant ++ foreign)))
    (.free List.mem_cons_self hfree)
  rw [List.erase_cons_head] at hrest
  have hchunk : Chunk.mk c.pages c.cnt (H.arenas c.pages).desc = c := by rw [hdesc]
  have hfree' : H.pools.pallocFreeMultiple c.pages c.cnt = some (H.pools.setMap false map) := hfree
  unfold freePages
  rw [hfree', hchunk]
  refine ⟨_, rfl, ⟨hrest, ?_⟩, rfl, ?_⟩
  · refine hcells.congr rfl ?_
    intro c' hc'
    apply if_neg
    rw [← hvalid.mem_pages_iff]
    intro hmem
    -- the first page of another arena
    have hapart := (List.pairwise_cons.mp hinv.accounts.apart).1 c'.grant
      (List.mem_append_left _ (List.mem_map_of_mem hc'))
    have hpos := (hcells.header c' hc').valid.pos
    exact Set.disjoint_left.mp hapart hmem (Set.mem_Ico.mpr ⟨le_rfl, Nat.lt_add_of_pos_right hpos⟩)
  · intro x hx
    apply if_neg
    rw [← hvalid.mem_pages_iff]
    exact hx

/-- The blocks that stay live are not in the pages that go. -/
theorem Cells.not_in_pages (h : H.Cells own live) (hc : c ∈ own) {live' : List LiveBlock}
    (hrest : H'.Cells (own.erase c) live') {lb : LiveBlock} (hlb : lb ∈ live') (hc' : c' ∈ own) (hcell : lb.addr ∈ c'.cells) :
    c' ∈ own.erase c ∧ ∀ x : Word, x.toNat ∈ c'.extent lb.addr → x.toNat / 4096 ∉ c.grant.pageSet := by
  obtain ⟨c'', hc'', hcell'', -⟩ := hrest.live_cell hlb
  have hmem : c'' ∈ own := List.mem_of_mem_erase hc''
  have hpage := ((h.header c' hc').valid.pgRoundDown_cell hcell).1
  have hpage' := ((h.header c'' hmem).valid.pgRoundDown_cell hcell'').1
  obtain rfl := h.eq_of_pages hc' hmem (hpage.symm.trans hpage')
  refine ⟨hc'', fun x hx hin => ?_⟩
  have hne : c' ≠ c := by
    intro heq
    exact (h.erase_ne hc'').2 hc (congrArg Chunk.pages heq)
  exact Set.disjoint_left.mp (h.apart_of_ne hc' hc hne) (h.extent_within hc' hcell _ hx) hin

/-- A live block is not at the address of another one. -/
theorem Cells.addr_ne (h : H.Cells own live) {lb lb' : LiveBlock} (hlb : lb ∈ live) (hlb' : lb' ∈ live.erase lb) :
    lb.addr ≠ lb'.addr := by
  have hperm : (live.map (·.addr)).Perm (lb.addr :: (live.erase lb).map (·.addr)) :=
    (List.perm_cons_erase hlb).map (·.addr)
  have hnodup := hperm.nodup_iff.mp h.nodup_live
  intro heq
  exact (List.nodup_cons.mp hnodup).1 (heq ▸ List.mem_map_of_mem hlb')

/-- A big block is freed. -/
theorem free_big (h : H.Inv foreign live) {lb : LiveBlock} (hlb : lb ∈ live) (hc : c ∈ H.own) (hdesc : c.desc = none)
    (hcell : lb.addr ∈ c.cells) :
    ∃ H', H.freePages c.pages (H.arenas c.pages).freeCnt = .ok H' ∧ H'.Inv foreign (live.erase lb) ∧
      H.Keeps H' (live.erase lb) ∧ H'.own ⊆ H.own := by
  have hheader := h.cells.header c hc
  have hcnt : (H.arenas c.pages).freeCnt = c.cnt := by
    have hcount := h.cells.freeCnt c hc
    unfold freeBlocks at hcount
    rw [hdesc] at hcount
    exact BitVec.eq_of_toNat_eq hcount
  have hrest := h.cells.dropBig hc hdesc hlb hcell
  obtain ⟨H', hfree, hinv, hown, hbytes⟩ := freePages_spec h.pools hc hheader.valid hheader.desc hrest
  refine ⟨H', by rw [hcnt]; exact hfree, hinv, ?_, ?_⟩
  · intro lb' hlb' c' hc' hcell'
    obtain ⟨hstays, hout⟩ := h.cells.not_in_pages hc hrest hlb' hc' hcell'
    exact ⟨by rw [hown]; exact hstays, fun x hx => hbytes x (hout x hx)⟩
  · rw [hown]
    exact List.erase_subset

/-- A block of a descriptor when it is back in the free list: the contents are lost, and the arena counts it. -/
def putBlock (H : Heap) (p : Word) (i : DescPtr) (a : Word) : Heap :=
  let H := { H with bytes := fun x => if x - p < (descs.get i).blockSize then 0xcc else H.bytes x }
  let H := H.setFreeList i (p :: H.freeList i)
  H.setArena a { H.arenas a with freeCnt := (H.arenas a).freeCnt + 1 }

/-- What `putBlock` leaves alone. -/
theorem putBlock_bytes (h : H.Inv foreign live) {lb : LiveBlock} (hlb : lb ∈ live) (hc : c ∈ H.own)
    (hdesc : c.desc = some i) (hcell : lb.addr ∈ c.cells) {lb' : LiveBlock} (hlb' : lb' ∈ live.erase lb)
    (hc' : c' ∈ H.own) (hcell' : lb'.addr ∈ c'.cells) (hx : x.toNat ∈ c'.extent lb'.addr) :
    (∀ b ∈ lb.addr :: H.freeList i, ¬x - b < 8) ∧ (H.putBlock lb.addr i c.pages).bytes x = H.bytes x := by
  have hne := h.cells.addr_ne hlb hlb'
  have hroom : (descs.get i).blockSize.toNat = c.room := by rw [Chunk.room, hdesc]
  have hlow := (h.cells.header c hc).valid.fits.1
  have hlinks : ∀ b ∈ lb.addr :: H.freeList i, ¬x - b < 8 := by
    intro b hb
    rcases List.mem_cons.mp hb with rfl | hb
    · exact h.cells.not_near hc hcell hc' hcell' hne hx (by
        show 8 ≤ c.room
        omega)
    · exact h.cells.not_link hb (List.mem_of_mem_erase hlb') hc' hcell' hx
  refine ⟨hlinks, ?_⟩
  have hset := relinked_setFreeList
    { H with bytes := fun x => if x - lb.addr < (descs.get i).blockSize then 0xcc else H.bytes x } i
    (List.Subset.refl (lb.addr :: H.freeList i))
  apply (hset.bytes x hlinks).trans
  apply if_neg
  exact h.cells.not_near hc hcell hc' hcell' hne hx hroom.le

/-- A block of a descriptor is freed, and its arena too if it has no live block left. -/
theorem free_small (h : H.Inv foreign live) {lb : LiveBlock} (hlb : lb ∈ live) (hc : c ∈ H.own)
    (hdesc : c.desc = some i) (hcell : lb.addr ∈ c.cells) :
    ∃ H', H.free lb.addr = .ok H' ∧ H'.Inv foreign (live.erase lb) ∧ H.Keeps H' (live.erase lb) ∧ H'.own ⊆ H.own := by
  have hheader := h.cells.header c hc
  have hvalid := hheader.valid
  have hne : lb.addr ≠ 0 := hvalid.cell_ne_zero hcell
  have hput : (H.putBlock lb.addr i c.pages).Cells H.own (live.erase lb) :=
    h.cells.put hlb hc hdesc hcell rfl rfl
  have hkeeps : H.Keeps (H.putBlock lb.addr i c.pages) (live.erase lb) := fun lb' hlb' c' hc' hcell' =>
    ⟨hc', fun x hx => (putBlock_bytes h hlb hc hdesc hcell hlb' hc' hcell' hx).2⟩
  have hfree : H.free lb.addr =
      let H' := H.putBlock lb.addr i c.pages
      let freeCnt := (H.arenas c.pages).freeCnt + 1
      if freeCnt ≥ (descs.get i).blocksPerArena then
        if freeCnt = (descs.get i).blocksPerArena then
          (removeBlocks c.pages i (descs.get i).blocksPerArena.toNat 0 H').bind fun H' => H'.freePages c.pages 1
        else .error .panic
      else .ok H' := by
    unfold free
    rw [if_neg hne, hheader.blockToArena_eq hcell, ok_bind, hheader.desc, hdesc]
    rfl
  dsimp only at hfree
  -- the blocks that are counted
  have hcnt := hput.freeCnt c hc
  have hcarved := hput.carved c hc
  unfold freeBlocks at hcnt
  rw [hdesc] at hcnt hcarved
  dsimp only at hcnt
  have hself : (H.putBlock lb.addr i c.pages).arenas c.pages =
      { H.arenas c.pages with freeCnt := (H.arenas c.pages).freeCnt + 1 } := Function.update_self ..
  rw [hself] at hcnt
  dsimp only at hcnt
  have hblocks : c.blocks = (descs.get i).blocksPerArena.toNat := by rw [Chunk.blocks, hdesc]
  have hlength : c.cells.length = (descs.get i).blocksPerArena.toNat := by
    rw [Chunk.cells, List.length_map, List.length_range, hblocks]
  have hle := hcarved.length_eq
  rw [List.length_append, hlength] at hle
  by_cases hfull : (H.arenas c.pages).freeCnt + 1 ≥ (descs.get i).blocksPerArena
  · have hfull' : (descs.get i).blocksPerArena.toNat ≤ ((H.arenas c.pages).freeCnt + 1).toNat := hfull
    have hall : (H.arenas c.pages).freeCnt + 1 = (descs.get i).blocksPerArena := by
      apply BitVec.eq_of_toNat_eq
      omega
    rw [if_pos hfull, if_pos hall] at hfree
    have hnone : ∀ b ∈ (live.erase lb).map (·.addr), pgRoundDown b ≠ c.pages := fun b hb =>
      hcarved.not_live_of_full (by rw [hlength, ← hcnt]; exact hfull') hb
    have hheader' := hput.header c hc
    have hlist : (H.putBlock lb.addr i c.pages).freeList i = lb.addr :: H.freeList i := Function.update_self ..
    have hidx : (0 : Word).toNat + (descs.get i).blocksPerArena.toNat = c.blocks := by
      rw [hblocks]
      exact Nat.zero_add _
    have hcells : cellsFrom c (0 : Word).toNat (descs.get i).blocksPerArena.toNat = c.cells := by
      rw [← hblocks]
      exact cellsFrom_zero c
    obtain ⟨H₁, hloop, hrel⟩ := removeBlocks_eq hheader' hdesc hidx (List.Subset.refl _)
      (by rw [hcells]; exact hcarved.subperm hnone)
    rw [hcells] at hrel
    have hrest : H₁.Cells (H.own.erase c) (live.erase lb) := hput.dropArena hc hdesc hnone hrel.freeList hrel.arenas
    have hpools : H₁.pools.Inv (H₁.own.map Chunk.grant ++ foreign) := by
      rw [hrel.pools, hrel.own]
      exact h.pools
    have hown : H₁.own = H.own := hrel.own
    have hone : c.cnt = 1 := hvalid.single i hdesc
    have hmem : c ∈ H₁.own := by
      rw [hown]
      exact hc
    have hdesc' : (H₁.arenas c.pages).desc = c.desc := by
      rw [hrel.arenas]
      exact hheader'.desc
    rw [← hown] at hrest
    obtain ⟨H', hpages, hinv, hown', hbytes⟩ := freePages_spec hpools hmem hvalid hdesc' hrest
    rw [hown] at hrest hown'
    refine ⟨H', ?_, hinv, ?_, ?_⟩
    · rw [hfree, hloop, ← hone]
      exact hpages
    · intro lb' hlb' c' hc' hcell'
      obtain ⟨hstays, hout⟩ := h.cells.not_in_pages hc hrest hlb' hc' hcell'
      refine ⟨by rw [hown']; exact hstays, fun x hx => ?_⟩
      obtain ⟨hlinks, hbytes'⟩ := putBlock_bytes h hlb hc hdesc hcell hlb' hc' hcell' hx
      rw [hbytes x (hout x hx), hrel.bytes x (by rw [hlist]; exact hlinks), hbytes']
    · rw [hown']
      exact List.erase_subset
  · rw [if_neg hfull] at hfree
    exact ⟨_, hfree, ⟨h.pools, hput⟩, hkeeps, List.Subset.refl _⟩

/-- **`free`** of a live block succeeds, and leaves the other blocks alone. -/
theorem free_spec (h : H.Inv foreign live) {lb : LiveBlock} (hlb : lb ∈ live) :
    ∃ H', H.free lb.addr = .ok H' ∧ H'.Inv foreign (live.erase lb) ∧ H.Keeps H' (live.erase lb) ∧ H'.own ⊆ H.own := by
  obtain ⟨c, hc, hcell, -⟩ := h.cells.live_cell hlb
  cases hdesc : c.desc with
  | some i => exact free_small h hlb hc hdesc hcell
  | none =>
    obtain ⟨H', hfree, hrest⟩ := free_big h hlb hc hdesc hcell
    refine ⟨H', ?_, hrest⟩
    have hheader := h.cells.header c hc
    have hne : lb.addr ≠ 0 := hheader.valid.cell_ne_zero hcell
    unfold free
    rw [if_neg hne, hheader.blockToArena_eq hcell, ok_bind, hheader.desc, hdesc]
    exact hfree

end Heap

end Pintos.Threads.Malloc
