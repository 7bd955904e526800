import Pintos.Threads.Malloc

/-!
# The steps of the heap

What `malloc` and `free` do to the cells, step by step: a block is taken from a free list and put back, the cells of a
new arena come into the list and those of an arena with no live block leave it, and the pages of big blocks come and go.
-/

namespace Pintos.Threads.Malloc

open Pintos.Threads.Palloc (Pools Grant PallocFlags)
open Carving

namespace Heap

variable {H H' : Heap} {foreign : List Grant} {live live' : List LiveBlock} {own own' : List Chunk} {c c' : Chunk}
  {b b' : Word} {i : DescPtr} {l : List Word} {n : ℕ}

theorem freeOf_update (hfree : H'.freeList = Function.update H.freeList i l) (d : Option DescPtr) :
    H'.freeOf d = if d = some i then l else H.freeOf d := by
  cases d with
  | none => rfl
  | some j =>
    simp only [Option.some.injEq]
    show H'.freeList j = _
    rw [hfree, Function.update_apply]
    rfl

theorem freeBlocks_congr
    (h : onPage pgRoundDown (H'.freeOf c.desc) c.pages = onPage pgRoundDown (H.freeOf c.desc) c.pages) :
    H'.freeBlocks c = H.freeBlocks c := by
  unfold freeBlocks
  cases hdesc : c.desc with
  | none => rfl
  | some i =>
    rw [hdesc] at h
    exact congrArg List.length h

namespace Cells

/-- A step that concerns one arena, which may be a new one. -/
theorem update (h : H.Cells own live) (hapart : own'.Pairwise fun c c' => Disjoint c.grant.pageSet c'.grant.pageSet)
    (hown : ∀ c' ∈ own', c' = c ∨ c' ∈ own ∧ c'.pages ≠ c.pages) (hc : H'.Header c)
    (harenas : ∀ a, a ≠ c.pages → H'.arenas a = H.arenas a)
    (hcnt : (H'.arenas c.pages).freeCnt.toNat = H'.freeBlocks c)
    (hcarved : ∀ c' ∈ own', Carved pgRoundDown (H'.freeOf c'.desc) (live'.map (·.addr)) c'.pages c'.cells)
    (hsame : ∀ c' ∈ own', c'.pages ≠ c.pages →
      onPage pgRoundDown (H'.freeOf c'.desc) c'.pages = onPage pgRoundDown (H.freeOf c'.desc) c'.pages)
    (hfree : ∀ i, ∀ b ∈ H'.freeList i, ∃ c' ∈ own', c'.desc = some i ∧ pgRoundDown b = c'.pages)
    (hlive : ∀ l ∈ live', ∃ c' ∈ own', pgRoundDown l.addr = c'.pages ∧ l.size ≤ c'.room) : H'.Cells own' live' := by
  refine ⟨?_, hapart, ?_, hcarved, hfree, hlive⟩
  · intro c' hc'
    rcases hown c' hc' with rfl | ⟨hold, hne⟩
    · exact hc
    · have hheader := h.header c' hold
      refine ⟨hheader.valid, ?_, ?_⟩
      · rw [harenas _ hne]
        exact hheader.magic
      · rw [harenas _ hne]
        exact hheader.desc
  · intro c' hc'
    rcases hown c' hc' with rfl | ⟨hold, hne⟩
    · exact hcnt
    · rw [harenas _ hne, h.freeCnt c' hold, freeBlocks_congr (hsame c' hc' hne)]

theorem eq_or_ne (h : H.Cells own live) (hc : c ∈ own) : ∀ c' ∈ own, c' = c ∨ c' ∈ own ∧ c'.pages ≠ c.pages := by
  intro c' hc'
  by_cases heq : c' = c
  · exact .inl heq
  · exact .inr ⟨hc', h.ne_of_ne hc' hc heq⟩

/-- The first block of a free list is taken. -/
theorem take (h : H.Cells own live) (hl : H.freeList i = b :: l) (hmem : c ∈ own) (hdesc : c.desc = some i)
    (hpage : pgRoundDown b = c.pages) (hn : n ≤ c.room) (hfree : H'.freeList = Function.update H.freeList i l)
    (harenas : H'.arenas = Function.update H.arenas c.pages
      { H.arenas c.pages with freeCnt := (H.arenas c.pages).freeCnt - 1 }) : H'.Cells own (⟨b, n⟩ :: live) := by
  have hself : H'.arenas c.pages = { H.arenas c.pages with freeCnt := (H.arenas c.pages).freeCnt - 1 } := by
    rw [harenas, Function.update_self]
  have hold : H.freeOf (some i) = b :: l := hl
  have hnew : H'.freeOf (some i) = l := by rw [freeOf_update hfree, if_pos rfl]
  have hheader := h.header c hmem
  apply h.update h.apart (h.eq_or_ne hmem)
  · refine ⟨hheader.valid, ?_, ?_⟩
    · rw [hself]
      exact hheader.magic
    · rw [hself]
      exact hheader.desc
  · intro a hne
    rw [harenas, Function.update_of_ne hne]
  · have hcnt := h.freeCnt c hmem
    unfold freeBlocks at hcnt ⊢
    rw [hdesc] at hcnt ⊢
    dsimp only at hcnt ⊢
    rw [hold, onPage_cons_self l hpage, List.length_cons] at hcnt
    rw [hself, hnew, BitVec.toNat_sub_of_le]
    · exact congrArg (· - 1) hcnt
    · rw [BitVec.le_def, hcnt]
      exact Nat.succ_le_succ (Nat.zero_le _)
  · intro c' hc'
    have hcarved := h.carved c' hc'
    by_cases hdesc' : c'.desc = some i
    · rw [hdesc', hold] at hcarved
      rw [hdesc', hnew]
      exact hcarved.take
    · rw [freeOf_update hfree, if_neg hdesc']
      apply hcarved.cons_live
      intro heq
      have hcc := h.eq_of_pages hmem hc' (hpage.symm.trans heq)
      exact hdesc' (hcc ▸ hdesc)
  · intro c' hc' hne
    by_cases hdesc' : c'.desc = some i
    · rw [hdesc', hnew, hold, onPage_cons_of_ne]
      intro heq
      exact hne (heq.symm.trans hpage)
    · rw [freeOf_update hfree, if_neg hdesc']
  · intro j b' hb'
    apply h.free_of j b'
    rw [hfree, Function.update_apply] at hb'
    split at hb'
    · case isTrue heq =>
      rw [heq, hl]
      exact List.mem_cons_of_mem b hb'
    · exact hb'
  · intro lb hlb
    rcases List.mem_cons.mp hlb with rfl | hlb
    · exact ⟨c, hmem, hpage, hn⟩
    · exact h.live_of lb hlb

/-- A live block is put back. -/
theorem put (h : H.Cells own live) {lb : LiveBlock} (hlive : lb ∈ live) (hmem : c ∈ own) (hdesc : c.desc = some i)
    (hcell : lb.addr ∈ c.cells) (hfree : H'.freeList = Function.update H.freeList i (lb.addr :: H.freeList i))
    (harenas : H'.arenas = Function.update H.arenas c.pages
      { H.arenas c.pages with freeCnt := (H.arenas c.pages).freeCnt + 1 }) : H'.Cells own (live.erase lb) := by
  have hself : H'.arenas c.pages = { H.arenas c.pages with freeCnt := (H.arenas c.pages).freeCnt + 1 } := by
    rw [harenas, Function.update_self]
  have hnew : H'.freeOf (some i) = lb.addr :: H.freeOf (some i) := by rw [freeOf_update hfree, if_pos rfl]; rfl
  have hheader := h.header c hmem
  have hpage := (hheader.valid.pgRoundDown_cell hcell).1
  have hperm : (live.map (·.addr)).Perm (lb.addr :: (live.erase lb).map (·.addr)) :=
    (List.perm_cons_erase hlive).map (·.addr)
  have hcarved : ∀ c' ∈ own,
      Carved pgRoundDown (H'.freeOf c'.desc) ((live.erase lb).map (·.addr)) c'.pages c'.cells := by
    intro c' hc'
    have hcarved := h.carved c' hc'
    by_cases hdesc' : c'.desc = some i
    · rw [hdesc'] at hcarved
      rw [hdesc', hnew]
      exact hcarved.put hperm
    · rw [freeOf_update hfree, if_neg hdesc']
      apply hcarved.of_cons_live hperm
      intro heq
      have hcc := h.eq_of_pages hmem hc' (hpage.symm.trans heq)
      exact hdesc' (hcc ▸ hdesc)
  apply h.update h.apart (h.eq_or_ne hmem)
  · refine ⟨hheader.valid, ?_, ?_⟩
    · rw [hself]
      exact hheader.magic
    · rw [hself]
      exact hheader.desc
  · intro a hne
    rw [harenas, Function.update_of_ne hne]
  · have hcnt := h.freeCnt c hmem
    have hlength := (hcarved c hmem).length_eq
    obtain ⟨hroom, -, hfit⟩ := hheader.valid.fits
    have hhigh := hheader.valid.high
    have hblocks : c.cells.length = c.blocks := by rw [Chunk.cells, List.length_map, List.length_range]
    have hmul : c.blocks * 1 ≤ c.blocks * c.room := Nat.mul_le_mul_left _ (by omega)
    unfold freeBlocks at hcnt ⊢
    rw [hdesc] at hcnt hlength ⊢
    dsimp only at hcnt ⊢
    rw [hnew, onPage_cons_self _ hpage, List.length_append, List.length_cons, hblocks] at hlength
    rw [hself, hnew, onPage_cons_self _ hpage, List.length_cons, ← hcnt]
    apply BitVec.toNat_add_of_lt
    show (H.arenas c.pages).freeCnt.toNat + 1 < 2 ^ 32
    omega
  · exact hcarved
  · intro c' hc' hne
    by_cases hdesc' : c'.desc = some i
    · rw [hdesc', hnew, onPage_cons_of_ne]
      intro heq
      exact hne (heq.symm.trans hpage)
    · rw [freeOf_update hfree, if_neg hdesc']
  · intro j b' hb'
    rw [hfree, Function.update_apply] at hb'
    split at hb'
    · case isTrue heq =>
      rw [heq]
      rcases List.mem_cons.mp hb' with rfl | hb'
      · exact ⟨c, hmem, hdesc, hpage⟩
      · exact h.free_of i b' hb'
    · exact h.free_of j b' hb'
  · intro lb' hlb'
    exact h.live_of lb' (List.mem_of_mem_erase hlb')

theorem not_on_page (h : H.Cells own live) (hvalid : c.Valid)
    (hapart : ∀ c' ∈ own, Disjoint c.grant.pageSet c'.grant.pageSet) (p : Word)
    (hp : ∃ c' ∈ own, p = c'.pages) : p ≠ c.pages := by
  obtain ⟨c', hc', rfl⟩ := hp
  exact (pages_ne (hapart c' hc') hvalid (h.header c' hc').valid).symm

/-- The blocks of a new arena come into the free list. -/
theorem addArena (h : H.Cells own live) (hvalid : c.Valid) (hdesc : c.desc = some i)
    (hapart : ∀ c' ∈ own, Disjoint c.grant.pageSet c'.grant.pageSet)
    (hfree : H'.freeList = Function.update H.freeList i (H.freeList i ++ c.cells))
    (harenas : H'.arenas = Function.update H.arenas c.pages ⟨arenaMagic, some i, (descs.get i).blocksPerArena⟩) :
    H'.Cells (c :: own) live := by
  have hself : H'.arenas c.pages = ⟨arenaMagic, some i, (descs.get i).blocksPerArena⟩ := by
    rw [harenas, Function.update_self]
  have hnew : H'.freeOf (some i) = H.freeOf (some i) ++ c.cells := by rw [freeOf_update hfree, if_pos rfl]; rfl
  have hcells : ∀ b ∈ c.cells, pgRoundDown b = c.pages := fun b hb => (hvalid.pgRoundDown_cell hb).1
  have hpages := h.not_on_page hvalid hapart
  have hfreeNe : ∀ b ∈ H.freeOf (some i), pgRoundDown b ≠ c.pages := by
    intro b hb
    obtain ⟨c', hc', -, hpage⟩ := h.free_of i b hb
    exact hpages _ ⟨c', hc', hpage⟩
  have hliveNe : ∀ b ∈ live.map (·.addr), pgRoundDown b ≠ c.pages := by
    intro b hb
    obtain ⟨lb, hlb, rfl⟩ := List.mem_map.mp hb
    obtain ⟨c', hc', hpage, -⟩ := h.live_of lb hlb
    exact hpages _ ⟨c', hc', hpage⟩
  apply h.update (List.pairwise_cons.mpr ⟨hapart, h.apart⟩)
  · intro c' hc'
    rcases List.mem_cons.mp hc' with heq | hc'
    · exact .inl heq
    · exact .inr ⟨hc', hpages _ ⟨c', hc', rfl⟩⟩
  · refine ⟨hvalid, ?_, ?_⟩
    · rw [hself]
    · rw [hself, hdesc]
  · intro a hne
    rw [harenas, Function.update_of_ne hne]
  · unfold freeBlocks
    rw [hself, hdesc]
    dsimp only
    rw [hnew, onPage_append, onPage_eq_nil hfreeNe, onPage_eq_self hcells, List.nil_append, Chunk.cells,
      List.length_map, List.length_range, Chunk.blocks, hdesc]
  · intro c' hc'
    rcases List.mem_cons.mp hc' with rfl | hc'
    · rw [hdesc, hnew]
      exact .fresh hfreeNe hliveNe hcells
    · have hcarved := h.carved c' hc'
      by_cases hdesc' : c'.desc = some i
      · rw [hdesc'] at hcarved
        rw [hdesc', hnew]
        apply hcarved.append
        intro b hb heq
        exact hpages _ ⟨c', hc', rfl⟩ (heq.symm.trans (hcells b hb))
      · rw [freeOf_update hfree, if_neg hdesc']
        exact hcarved
  · intro c' hc' hne
    by_cases hdesc' : c'.desc = some i
    · have hno : ∀ b ∈ c.cells, pgRoundDown b ≠ c'.pages := by
        intro b hb heq
        exact hne (heq.symm.trans (hcells b hb))
      rw [hdesc', hnew, onPage_append, onPage_eq_nil hno, List.append_nil]
    · rw [freeOf_update hfree, if_neg hdesc']
  · intro j b hb
    rw [hfree, Function.update_apply] at hb
    split at hb
    · case isTrue heq =>
      rw [heq]
      rcases List.mem_append.mp hb with hb | hb
      · obtain ⟨c', hc', hfree'⟩ := h.free_of i b hb
        exact ⟨c', List.mem_cons_of_mem _ hc', hfree'⟩
      · exact ⟨c, List.mem_cons_self, hdesc, hcells b hb⟩
    · obtain ⟨c', hc', hfree'⟩ := h.free_of j b hb
      exact ⟨c', List.mem_cons_of_mem _ hc', hfree'⟩
  · intro lb hlb
    obtain ⟨c', hc', hlive⟩ := h.live_of lb hlb
    exact ⟨c', List.mem_cons_of_mem _ hc', hlive⟩

/-- A big block with its pages. -/
theorem addBig (h : H.Cells own live) (hvalid : c.Valid) (hdesc : c.desc = none)
    (hapart : ∀ c' ∈ own, Disjoint c.grant.pageSet c'.grant.pageSet) (hb : b ∈ c.cells) (hn : n ≤ c.room)
    (hfree : H'.freeList = H.freeList)
    (harenas : H'.arenas = Function.update H.arenas c.pages ⟨arenaMagic, none, c.cnt⟩) :
    H'.Cells (c :: own) (⟨b, n⟩ :: live) := by
  have hself : H'.arenas c.pages = ⟨arenaMagic, none, c.cnt⟩ := by rw [harenas, Function.update_self]
  have hfreeOf : ∀ d, H'.freeOf d = H.freeOf d := by
    intro d
    cases d with
    | none => rfl
    | some i => exact congrFun hfree i
  have hpages := h.not_on_page hvalid hapart
  have hpage := (hvalid.pgRoundDown_cell hb).1
  have hcells : c.cells = [b] := by
    have hone : c.cells = [c.cell 0] := by
      unfold Chunk.cells Chunk.blocks
      rw [hdesc]
      rfl
    rw [hone] at hb ⊢
    rw [List.mem_singleton.mp hb]
  have hliveNe : ∀ b ∈ live.map (·.addr), pgRoundDown b ≠ c.pages := by
    intro b hb
    obtain ⟨lb, hlb, rfl⟩ := List.mem_map.mp hb
    obtain ⟨c', hc', hpage, -⟩ := h.live_of lb hlb
    exact hpages _ ⟨c', hc', hpage⟩
  apply h.update (List.pairwise_cons.mpr ⟨hapart, h.apart⟩)
  · intro c' hc'
    rcases List.mem_cons.mp hc' with heq | hc'
    · exact .inl heq
    · exact .inr ⟨hc', hpages _ ⟨c', hc', rfl⟩⟩
  · refine ⟨hvalid, ?_, ?_⟩
    · rw [hself]
    · rw [hself, hdesc]
  · intro a hne
    rw [harenas, Function.update_of_ne hne]
  · unfold freeBlocks
    rw [hself, hdesc]
  · intro c' hc'
    rw [hfreeOf]
    rcases List.mem_cons.mp hc' with rfl | hc'
    · rw [hdesc, hcells]
      show (onPage pgRoundDown [] _ ++ onPage pgRoundDown (b :: live.map (·.addr)) _).Perm _
      rw [onPage_cons_self _ hpage, onPage_eq_nil hliveNe]
      exact List.Perm.refl _
    · apply (h.carved c' hc').cons_live
      intro heq
      exact hpages _ ⟨c', hc', rfl⟩ (heq.symm.trans hpage)
  · intro c' hc' hne
    rw [hfreeOf]
  · intro j b hb
    rw [hfree] at hb
    obtain ⟨c', hc', hfree'⟩ := h.free_of j b hb
    exact ⟨c', List.mem_cons_of_mem _ hc', hfree'⟩
  · intro lb hlb
    rcases List.mem_cons.mp hlb with rfl | hlb
    · exact ⟨c, List.mem_cons_self, hpage, hn⟩
    · obtain ⟨c', hc', hlive⟩ := h.live_of lb hlb
      exact ⟨c', List.mem_cons_of_mem _ hc', hlive⟩

theorem erase_ne (h : H.Cells own live) (hc' : c' ∈ own.erase c) : c' ∈ own ∧ (c ∈ own → c'.pages ≠ c.pages) := by
  refine ⟨List.mem_of_mem_erase hc', fun hc heq => ?_⟩
  obtain rfl := h.eq_of_pages (List.mem_of_mem_erase hc') hc heq
  have hperm := List.perm_cons_erase hc
  have hapart := (hperm.pairwise_iff fun hab => hab.symm).mp h.apart
  have hself := (List.pairwise_cons.mp hapart).1 c' hc'
  have hvalid := (h.header c' hc).valid
  exact pages_ne hself hvalid hvalid rfl

/-- An arena that has no live block goes, and its blocks leave the free list. -/
theorem dropArena (h : H.Cells own live) (hmem : c ∈ own) (hdesc : c.desc = some i)
    (hlive : ∀ b ∈ live.map (·.addr), pgRoundDown b ≠ c.pages)
    (hfree : H'.freeList = Function.update H.freeList i ((H.freeList i).diff c.cells))
    (harenas : H'.arenas = H.arenas) : H'.Cells (own.erase c) live := by
  have hvalid := (h.header c hmem).valid
  have hcells : ∀ b ∈ c.cells, pgRoundDown b = c.pages := fun b hb => (hvalid.pgRoundDown_cell hb).1
  have hnew : H'.freeOf (some i) = (H.freeOf (some i)).diff c.cells := by rw [freeOf_update hfree, if_pos rfl]; rfl
  have hgone : ∀ b ∈ (H.freeList i).diff c.cells, pgRoundDown b ≠ c.pages := by
    intro b hb
    have hcarved := h.carved c hmem
    rw [hdesc] at hcarved
    exact hcarved.not_mem_diff hlive hb
  have hother : ∀ c' ∈ own.erase c, ∀ b ∈ c.cells, pgRoundDown b ≠ c'.pages := by
    intro c' hc' b hb heq
    exact (h.erase_ne hc').2 hmem (heq.symm.trans (hcells b hb))
  have hback : ∀ {p : Word}, p ≠ c.pages → ∀ c' ∈ own, p = c'.pages → c' ∈ own.erase c := by
    intro p hp c' hc' heq
    apply (List.mem_erase_of_ne _).mpr hc'
    intro hcc
    exact hp (hcc ▸ heq)
  constructor
  · intro c' hc'
    have hheader := h.header c' (List.mem_of_mem_erase hc')
    refine ⟨hheader.valid, ?_, ?_⟩
    · rw [harenas]
      exact hheader.magic
    · rw [harenas]
      exact hheader.desc
  · exact h.apart.sublist List.erase_sublist
  · intro c' hc'
    rw [harenas, h.freeCnt c' (List.mem_of_mem_erase hc')]
    apply (freeBlocks_congr _).symm
    by_cases hdesc' : c'.desc = some i
    · rw [hdesc', hnew, onPage_diff, diff_eq_self]
      intro b hb hmem'
      exact hother c' hc' b hb (mem_onPage.mp hmem').2
    · rw [freeOf_update hfree, if_neg hdesc']
  · intro c' hc'
    have hcarved := h.carved c' (List.mem_of_mem_erase hc')
    by_cases hdesc' : c'.desc = some i
    · rw [hdesc'] at hcarved
      rw [hdesc', hnew]
      exact hcarved.diff (hother c' hc')
    · rw [freeOf_update hfree, if_neg hdesc']
      exact hcarved
  · intro j b hb
    rw [hfree, Function.update_apply] at hb
    split at hb
    · case isTrue heq =>
      rw [heq]
      obtain ⟨c', hc', hdesc', hpage⟩ := h.free_of i b ((List.diff_subset _ _) hb)
      exact ⟨c', hback (hgone b hb) c' hc' hpage, hdesc', hpage⟩
    · case isFalse hne =>
      obtain ⟨c', hc', hdesc', hpage⟩ := h.free_of j b hb
      refine ⟨c', (List.mem_erase_of_ne ?_).mpr hc', hdesc', hpage⟩
      intro hcc
      rw [hcc, hdesc] at hdesc'
      exact hne (Option.some.inj hdesc').symm
  · intro lb hlb
    obtain ⟨c', hc', hpage, hsize⟩ := h.live_of lb hlb
    exact ⟨c', hback (hlive _ (List.mem_map_of_mem hlb)) c' hc' hpage, hpage, hsize⟩

/-- A big block goes with its pages. -/
theorem dropBig (h : H.Cells own live) (hmem : c ∈ own) (hdesc : c.desc = none) {lb : LiveBlock} (hlb : lb ∈ live)
    (hcell : lb.addr ∈ c.cells) : H.Cells (own.erase c) (live.erase lb) := by
  have hpage := ((h.header c hmem).valid.pgRoundDown_cell hcell).1
  have hperm : (live.map (·.addr)).Perm (lb.addr :: (live.erase lb).map (·.addr)) :=
    (List.perm_cons_erase hlb).map (·.addr)
  have hnone : ∀ b ∈ (live.erase lb).map (·.addr), pgRoundDown b ≠ c.pages := by
    intro b hb heq
    -- the arena has one cell
    have hlength := (h.carved c hmem).length_eq
    have hpages : (onPage pgRoundDown (live.map (·.addr)) c.pages).length =
        (onPage pgRoundDown (lb.addr :: (live.erase lb).map (·.addr)) c.pages).length := (hperm.filter _).length_eq
    have hone : 0 < (onPage pgRoundDown ((live.erase lb).map (·.addr)) c.pages).length :=
      List.length_pos_of_mem (mem_onPage.mpr ⟨hb, heq⟩)
    have hblocks : c.cells.length = 1 := by
      rw [Chunk.cells, List.length_map, List.length_range, Chunk.blocks, hdesc]
    rw [onPage_cons_self _ hpage, List.length_cons] at hpages
    rw [List.length_append, hpages, hblocks] at hlength
    omega
  constructor
  · intro c' hc'
    exact h.header c' (List.mem_of_mem_erase hc')
  · exact h.apart.sublist List.erase_sublist
  · intro c' hc'
    exact h.freeCnt c' (List.mem_of_mem_erase hc')
  · intro c' hc'
    apply (h.carved c' (List.mem_of_mem_erase hc')).of_cons_live hperm
    intro heq
    exact (h.erase_ne hc').2 hmem (heq.symm.trans hpage)
  · intro i b hb
    obtain ⟨c', hc', hdesc', hpage'⟩ := h.free_of i b hb
    refine ⟨c', (List.mem_erase_of_ne ?_).mpr hc', hdesc', hpage'⟩
    intro hcc
    rw [hcc, hdesc] at hdesc'
    cases hdesc'
  · intro lb' hlb'
    obtain ⟨c', hc', hpage', hsize⟩ := h.live_of lb' (List.mem_of_mem_erase hlb')
    refine ⟨c', (List.mem_erase_of_ne ?_).mpr hc', hpage', hsize⟩
    intro hcc
    exact hnone _ (List.mem_map_of_mem hlb') (hcc ▸ hpage')

end Cells

end Heap

end Pintos.Threads.Malloc
