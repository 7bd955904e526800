import Pintos.Filesys.InodeDelete

/-!
# Creating, opening and closing inodes

Specifications of `inode_create`, `inode_open`, `inode_reopen`, `inode_remove` and `inode_close` over
the invariant `InodeOk`.  `Same` is what a step leaves of inodes it has nothing to do with.  Closing
the last handle of an inode that is not removed drops the in-memory page (`Shrink`); closing the last
handle of a removed one gives back its header and the sectors its blocks need.
-/

namespace Pintos.Filesys

open PtrForest

variable {P : Policy} {E : Stop → World → Prop} {w w' w'' : World} {live live' : Set ℕ} {p s : ℕ}
  {i : Inode}

/-! ### Steps that leave inodes alone -/

theorem page_of_mem_eq (hheap : w'.mem.heap = w.mem.heap)
    (hopen : w'.mem.openInodes = w.mem.openInodes) (hdisk : w'.disk s = w.disk s) :
    page w' s = page w s := by
  unfold page Mem.openInode
  rw [hheap, hopen, hdisk]

/-- A step that changes none of the inodes; the contents of the free map file may have changed. -/
structure Same (live : Set ℕ) (w w' : World) : Prop where
  page : ∀ s ∈ live, page w' s = page w s
  sec : ∀ s ∈ live, ∀ k π, Node pageShape k π →
    sec w'.disk ((Filesys.page w s).word k) π = sec w.disk ((Filesys.page w s).word k) π
  byte : ∀ s ∈ live, s ≠ 0 → ∀ pos,
    byteAt w'.disk (Filesys.page w s) pos = byteAt w.disk (Filesys.page w s) pos
  disk : ∀ s ∈ live, s ≠ 0 → w'.disk s = w.disk s

theorem Same.refl (live : Set ℕ) (w : World) : Same live w w :=
  ⟨fun _ _ => rfl, fun _ _ _ _ _ => rfl, fun _ _ _ _ => rfl, fun _ _ _ => rfl⟩

theorem Same.trans (h₁ : Same live w w') (h₂ : Same live w' w'') : Same live w w'' where
  page s hs := (h₂.page s hs).trans (h₁.page s hs)
  sec s hs k π hn := by
    have := h₂.sec s hs k π hn
    rw [h₁.page s hs] at this
    exact this.trans (h₁.sec s hs k π hn)
  byte s hs hz pos := by
    have := h₂.byte s hs hz pos
    rw [h₁.page s hs] at this
    exact this.trans (h₁.byte s hs hz pos)
  disk s hs hz := (h₂.disk s hs hz).trans (h₁.disk s hs hz)

theorem Same.subset (h : Same live w w') (hsub : live' ⊆ live) : Same live' w w' :=
  ⟨fun s hs => h.page s (hsub hs), fun s hs => h.sec s (hsub hs), fun s hs => h.byte s (hsub hs),
    fun s hs => h.disk s (hsub hs)⟩

theorem Same.owned (h : Same live w w') (t : ℕ) : Owned w' live t ↔ Owned w live t := by
  refine or_congr_right ⟨?_, ?_⟩
  · rintro ⟨s, hs, k, π, hn, heq, h0⟩
    rw [h.page s hs, h.sec s hs k π hn] at heq
    exact ⟨s, hs, k, π, hn, heq, h0⟩
  · rintro ⟨s, hs, k, π, hn, heq, h0⟩
    exact ⟨s, hs, k, π, hn, by rw [h.page s hs, h.sec s hs k π hn, heq], h0⟩

/-- A step that changes none of the inodes, but may drop pointers that were in memory only. -/
structure Shrink (live : Set ℕ) (w w' : World) : Prop where
  page : ∀ s ∈ live, PageLe (page w' s) (page w s)
  head : ∀ s ∈ live, header w' s = header w s
  le : ∀ s ∈ live, PageLe (header w' s) (Filesys.page w' s)
  sec : ∀ s ∈ live, ∀ k π, Node pageShape k π →
    sec w'.disk ((Filesys.page w s).word k) π = sec w.disk ((Filesys.page w s).word k) π
  byte : ∀ s ∈ live, s ≠ 0 → ∀ pos,
    byteAt w'.disk (Filesys.page w s) pos = byteAt w.disk (Filesys.page w s) pos

theorem Shrink.owned (h : Shrink live w w') {t : ℕ} (ht : Owned w' live t) : Owned w live t := by
  rcases ht with ht | ⟨s, hs, k, π, hn, rfl, h0⟩
  · exact .inl ht
  · have heq := (h.page s hs).sec_eq hn.root h0
    rw [h.sec s hs k π hn] at heq
    exact .inr ⟨s, hs, k, π, hn, heq, h0⟩

theorem Owned.mono {t : ℕ} (h : Owned w live' t) (hsub : live' ⊆ live) : Owned w live t := by
  rcases h with ht | ⟨s, hs, hrest⟩
  · exact .inl (hsub ht)
  · exact .inr ⟨s, hsub hs, hrest⟩

theorem Same.header (h : Same live w w') (hs : s ∈ live) : header w' s = header w s := by
  unfold Filesys.header
  split
  · next hz => exact h.page 0 (hz ▸ hs)
  · next hz => exact h.disk s hs hz

theorem Same.shrink (h : Same live w w') (hw : InodeOk w live) : Shrink live w w' := by
  refine ⟨fun s hs => ?_, fun s hs => h.header hs, fun s hs => ?_, h.sec, h.byte⟩
  · rw [h.page s hs]
    exact .refl _
  · rw [h.header hs, h.page s hs]
    exact hw.le s hs

/-- **The invariant survives a step that leaves the inodes alone.** -/
theorem InodeOk.of_shrink (h : InodeOk w live) (hsub : live' ⊆ live) (hzero : 0 ∈ live')
    (hmem : MemOk w'.mem) (hfm : FmOk w') (hopen : w'.mem.freeMapFile.isSome = true)
    (hlive : ∀ p i, w'.mem.heap p = some i → i.sector ∈ live')
    (hsize : w'.mem.fsSize = w.mem.fsSize) (hs : Shrink live' w w')
    (hA : ∀ t, Owned w live' t → Allocated w' t) : InodeOk w' live' := by
  -- a node of a page is one of the page before
  have hnode : ∀ s ∈ live', ∀ k π, Node pageShape k π → sec w'.disk ((page w' s).word k) π ≠ 0 →
      sec w'.disk ((page w' s).word k) π = sec w.disk ((page w s).word k) π := by
    intro s hs' k π hn hne
    rw [← (hs.page s hs').sec_eq hn.root hne]
    exact hs.sec s hs' k π hn
  refine ⟨hmem, hfm, hopen, hzero, hlive, fun s hs' => hA s (.inl hs'), fun s hs' k π hn hne => ?_,
    fun s hs₁ s' hs₂ k π k' π' hn hn' heq hne => ?_, hs.le, fun s hs' => ?_, fun s hs' hl => ?_,
    fun s hs' hl => ?_, fun s hs' hz pos hpos => ?_⟩
  · have heq := hnode s hs' k π hn hne
    rw [heq] at hne ⊢
    exact ⟨hA _ (.inr ⟨s, hs', k, π, hn, rfl, hne⟩),
      fun hl => (h.node s (hsub hs') k π hn hne).2 (hsub hl)⟩
  · have hne' : sec w'.disk ((page w' s').word k') π' ≠ 0 := by
      rw [← heq]
      exact hne
    rw [hnode s hs₁ k π hn hne, hnode s' hs₂ k' π' hn' hne'] at heq
    rw [hnode s hs₁ k π hn hne] at hne
    exact h.inj s (hsub hs₁) s' (hsub hs₂) k π k' π' hn hn' heq hne
  · rw [(hs.page s hs').length]
    exact h.length s (hsub hs')
  · rw [(hs.page s hs').length] at hl
    rw [hsize, hs.head s hs']
    exact (h.le s (hsub hs')).mapped_of_sec (hs.sec s hs') (h.mapped s (hsub hs') hl)
  · rw [(hs.page s hs').length] at hl ⊢
    obtain ⟨hbig, hwords⟩ := h.hollow s (hsub hs') hl
    refine ⟨hbig, fun k hk => ?_⟩
    rcases (hs.page s hs').word k hk with hw | hw
    · exact hw
    · rw [hw, hwords k hk]
  · rw [(hs.page s hs').length] at hpos
    have hold := h.tail s (hsub hs') hz pos hpos
    rw [← hs.byte s hs' hz pos] at hold
    unfold byteAt at hold ⊢
    by_cases hp : pos / 512 < 16635
    · split
      · rfl
      · next hne =>
        have hsec : dataSec w'.disk (page w s) (pos / 512) = dataSec w'.disk (page w' s) (pos / 512) :=
          (hs.page s hs').sec_eq (leaf_node hp).1.root hne
        rw [hsec, if_neg hne] at hold
        exact hold
    · rw [dataSec_ge (by omega), if_pos rfl]

/-- Allocating and releasing sectors leaves the inodes alone. -/
theorem FmStep.same (st : FmStep w w') (h : InodeOk w live) : Same live w w' := by
  have hdisk : ∀ s ∈ live, w'.disk s = w.disk s := fun s hs =>
    st.disk s fun hd => h.live_not_fmNode hs (FmNode.of_data hd)
  have hsec : ∀ s ∈ live, ∀ k π, Node pageShape k π →
      sec w'.disk ((Filesys.page w s).word k) π = sec w.disk ((Filesys.page w s).word k) π := by
    intro s hs k π hn
    by_cases hz : s = 0
    · subst hz
      obtain ⟨f, j, hf, hj⟩ := h.fmFile
      have hpage := page_of_open h.mem hj.heap
      rw [hj.sector] at hpage
      rw [hpage]
      exact st.sec_fm h.fm hf hj.heap hn
    · exact st.sec_eq (h.forest hs hz) hn
  refine ⟨fun s hs => ?_, hsec, fun s hs hz pos => ?_, fun s hs _ => hdisk s hs⟩
  · exact page_of_mem_eq st.heap (by rw [st.mem]) (hdisk s hs)
  · refine byteAt_congr (hsec s hs) (fun k hk hne => st.disk _ fun hd => ?_) pos
    exact ((h.forest hs hz).alloc _ _ (leaf_node hk).1 hne).2 (FmNode.of_data hd)

theorem InodeOk.subset (h : InodeOk w live) (hsub : live' ⊆ live) (hzero : 0 ∈ live')
    (hopen : ∀ p i, w.mem.heap p = some i → i.sector ∈ live') : InodeOk w live' :=
  h.of_shrink hsub hzero h.mem h.fm h.fmOpen hopen rfl
    ⟨fun _ _ => .refl _, fun _ _ => rfl, fun s hs => h.le s (hsub hs), fun _ _ _ _ _ => rfl,
      fun _ _ _ _ => rfl⟩ fun t ht => by
    rcases ht with ht | ⟨s, hs, k, π, hn, rfl, h0⟩
    · exact h.alloc t (hsub ht)
    · exact (h.node s (hsub hs) k π hn h0).1

theorem InodeOk.of_fmStep (h : InodeOk w live) (st : FmStep w w')
    (hA : ∀ t, Owned w live t → Allocated w' t) : InodeOk w' live := by
  refine h.of_shrink subset_rfl h.zero ?_ st.ok ?_ ?_ st.fsSize ((st.same h).shrink h) hA
  · rw [st.mem]
    exact ⟨h.mem.nodup, h.mem.listed, h.mem.inj, h.mem.fresh, h.mem.count⟩
  · rw [st.freeMapFile]
    exact h.fmOpen
  · rw [st.heap]
    exact h.openLive

theorem InodeOk.owned_allocated (h : InodeOk w live) {t : ℕ} (ht : Owned w live t) :
    Allocated w t := by
  rcases ht with ht | ⟨s, hs, k, π, hn, rfl, h0⟩
  · exact h.alloc t ht
  · exact (h.node s hs k π hn h0).1

/-! ### Allocating a sector -/

/-- A sector has been handed out; it belongs to no inode yet. -/
structure Handed (live : Set ℕ) (w : World) (s : ℕ) (w' : World) : Prop where
  ok : InodeOk w' live
  step : FmStep w w'
  free : ¬Allocated w s
  alloc : ∀ t, Allocated w' t ↔ Allocated w t ∨ t = s
  sync : Synced w'

theorem wp_freeMapAllocate (hP : P.NoFail) (h : InodeOk w live) {Q : Option ℕ → World → Prop}
    (hnone : Full w → P.noSector → Q none w)
    (hsome : ∀ s w', Handed live w s w' → Q (some s) w') : wp P (freeMapAllocate 1) Q E w := by
  refine wp_freeMapAllocateWith (writesMap_bitmapWrite hP) h.fm hnone
    fun s w' hlt hfree st hbits hsync => hsome s w' ?_
  have halloc : ∀ t, Allocated w' t ↔ Allocated w t ∨ t = s := by
    intro t
    unfold Allocated
    rw [st.fsSize, hbits]
    by_cases hts : t = s
    · rw [hts, Function.update_self]
      simpa using hlt
    · rw [Function.update_of_ne hts]
      simp [hts]
  exact ⟨h.of_fmStep st fun t ht => (halloc t).mpr (.inl (h.owned_allocated ht)), st, hfree, halloc,
    hsync⟩

/-- `free_map_release` of a sector that belongs to no inode. -/
theorem wp_freeMapRelease_unowned (hP : P.NoFail) (h : InodeOk w live) (hs : Allocated w s)
    (hno : ¬Owned w live s) {Q : Unit → World → Prop}
    (hQ : ∀ w', InodeOk w' live → Released (fun t => t = s) w w' → Same live w w' → Q () w') :
    wp P (freeMapRelease s 1) Q E w := by
  have h0 : s ≠ 0 := by
    rintro rfl
    exact hno (.inl h.zero)
  refine wp_freeMapRelease hP h.fm h.fmOpen hs h0 (fun hn => hno ?_) fun w' hr => hQ w' ?_ hr
    (hr.step.same h)
  · obtain ⟨k, π, hπ, heq, hne⟩ := (h.fmNode_iff s).mp hn
    exact .inr ⟨0, h.zero, k, π, hπ, heq, hne⟩
  · refine h.of_fmStep hr.step fun t ht => (hr.allocated t).mpr ⟨h.owned_allocated ht, ?_⟩
    rintro rfl
    exact hno ht

/-! ### `inode_create` -/

/-- One more inode, in a sector that belongs to nobody. -/
theorem InodeOk.add (h : InodeOk w live) (hs : Allocated w s) (hno : ¬Owned w live s)
    (hnode : ∀ k π, Node pageShape k π → sec w.disk ((w.disk s).word k) π ≠ 0 →
      Allocated w (sec w.disk ((w.disk s).word k) π) ∧ sec w.disk ((w.disk s).word k) π ≠ s ∧
        ¬Owned w live (sec w.disk ((w.disk s).word k) π))
    (hinj : ∀ k π k' π', Node pageShape k π → Node pageShape k' π' →
      sec w.disk ((w.disk s).word k) π = sec w.disk ((w.disk s).word k') π' →
      sec w.disk ((w.disk s).word k) π ≠ 0 → k = k' ∧ π = π')
    (hlen : 0 ≤ InodeDisk.length (w.disk s))
    (hmapped : InodeDisk.length (w.disk s) ≤ 8517120 → Mapped w.mem.fsSize w.disk (w.disk s))
    (hhollow : 8517120 < InodeDisk.length (w.disk s) →
      2147483136 < InodeDisk.length (w.disk s) ∧ ∀ k, k < 125 → (w.disk s).word k = 0)
    (htail : ∀ pos : ℕ, InodeDisk.length (w.disk s) ≤ pos → byteAt w.disk (w.disk s) pos = 0) :
    InodeOk w (insert s live) := by
  have hs0 : s ≠ 0 := by
    rintro rfl
    exact hno (.inl h.zero)
  have hne : ∀ t ∈ live, t ≠ s := by
    rintro t ht rfl
    exact hno (.inl ht)
  have hpage : page w s = w.disk s :=
    page_of_closed (h.mem.openInode_eq_none.mpr fun p i hi => hne _ (h.openLive p i hi))
  have hhead : header w s = w.disk s := if_neg hs0
  refine ⟨h.mem, h.fm, h.fmOpen, .inr h.zero, fun p i hi => .inr (h.openLive p i hi), ?_, ?_, ?_, ?_,
    ?_, ?_, ?_, ?_⟩
  · rintro t (rfl | ht)
    · exact hs
    · exact h.alloc t ht
  · rintro t (rfl | ht) k π hn h0
    · rw [hpage] at h0 ⊢
      obtain ⟨hA, hns, hno'⟩ := hnode k π hn h0
      refine ⟨hA, ?_⟩
      rintro (heq | hl)
      · exact hns heq
      · exact hno' (.inl hl)
    · obtain ⟨hA, hL⟩ := h.node t ht k π hn h0
      refine ⟨hA, ?_⟩
      rintro (heq | hl)
      · exact hno (.inr ⟨t, ht, k, π, hn, heq, hs0⟩)
      · exact hL hl
  · rintro t (rfl | ht) t' (rfl | ht') k π k' π' hn hn' heq h0
    · rw [hpage] at heq h0
      exact ⟨rfl, hinj k π k' π' hn hn' heq h0⟩
    · rw [hpage] at heq h0
      exact absurd (.inr ⟨t', ht', k', π', hn', heq.symm, h0⟩) (hnode k π hn h0).2.2
    · rw [hpage] at heq
      rw [heq] at h0
      exact absurd (.inr ⟨t, ht, k, π, hn, heq, h0⟩) (hnode k' π' hn' h0).2.2
    · exact h.inj t ht t' ht' k π k' π' hn hn' heq h0
  · rintro t (rfl | ht)
    · rw [hhead, hpage]
      exact .refl _
    · exact h.le t ht
  · rintro t (rfl | ht)
    · rw [hpage]
      exact hlen
    · exact h.length t ht
  · rintro t (rfl | ht)
    · rw [hhead, hpage]
      exact hmapped
    · exact h.mapped t ht
  · rintro t (rfl | ht)
    · rw [hpage]
      exact hhollow
    · exact h.hollow t ht
  · rintro t (rfl | ht)
    · rw [hpage]
      exact fun _ => htail
    · exact h.tail t ht

/-- The page of a new inode before any block has been reserved. -/
def newPage (len : ℤ) (isDir : Bool) : InodeDisk :=
  ((InodeDisk.setIsDir Block.zero isDir).setLength len).setMagic inodeMagic

theorem newPage_word (len : ℤ) (isDir : Bool) {k : ℕ} (hk : k < 125) : (newPage len isDir).word k = 0 := by
  unfold newPage InodeDisk.setMagic InodeDisk.setLength InodeDisk.setIsDir
  rw [Block.word_setWord_ne (by omega), Block.word_setWord_ne (by omega), ← Block.word_zero (n := 512) k]
  refine Bytes.le32_congr fun j hj => ?_
  rw [Block.get_splice (by omega), Bytes.splice_outside (by omega)]

theorem newPage_length {len : ℤ} (isDir : Bool) (h : 0 ≤ len) (h' : len < 2 ^ 31) :
    (newPage len isDir).length = len := by
  unfold newPage InodeDisk.length InodeDisk.setMagic InodeDisk.setLength
  rw [Block.word_setWord_ne (by omega), Block.word_setWord_same (by omega) (ofInt32_lt _),
    toInt32_ofInt32 (by omega) h']

theorem newPage_isDir (len : ℤ) (isDir : Bool) : (newPage len isDir).isDir = isDir := by
  unfold newPage InodeDisk.isDir InodeDisk.setMagic InodeDisk.setLength InodeDisk.setIsDir
  rw [Block.get_setWord_ne (by omega), Block.get_setWord_ne (by omega), Block.get_splice (by omega),
    Bytes.splice_inside (by omega) (by omega)]
  cases isDir <;> rfl

/-- A write to a sector that belongs to nobody. -/
theorem same_of_write (hno : ¬Owned w live s) (b : Sector) :
    Same live w { w with disk := Function.update w.disk s b } := by
  have hdisk : ∀ t ∈ live, Function.update w.disk s b t = w.disk t := by
    intro t ht
    refine Function.update_of_ne ?_ _ _
    rintro rfl
    exact hno (.inl ht)
  have hnode : ∀ t ∈ live, ∀ k π, Node pageShape k π → sec w.disk ((page w t).word k) π ≠ 0 →
      Function.update w.disk s b (sec w.disk ((page w t).word k) π) =
        w.disk (sec w.disk ((page w t).word k) π) := by
    intro t ht k π hn hne
    refine Function.update_of_ne ?_ _ _
    rintro heq
    exact hno (.inr ⟨t, ht, k, π, hn, heq, by rw [← heq]; exact hne⟩)
  have hsec : ∀ t ∈ live, ∀ k π, Node pageShape k π →
      sec (Function.update w.disk s b) ((page w t).word k) π = sec w.disk ((page w t).word k) π :=
    fun t ht k π hn => sec_congr fun m _ hne => hnode t ht k _ (hn.take m) hne
  refine ⟨fun t ht => ?_, hsec, fun t ht _ pos => ?_, fun t ht _ => hdisk t ht⟩
  · exact page_of_mem_eq rfl rfl (hdisk t ht)
  · exact byteAt_congr (hsec t ht) (fun k hk hne => hnode t ht _ _ (leaf_node hk).1 hne) pos

theorem InodeOk.write_unowned (h : InodeOk w live) (hno : ¬Owned w live s) (b : Sector) :
    InodeOk { w with disk := Function.update w.disk s b } live ∧
      FmKeep w { w with disk := Function.update w.disk s b } := by
  have hnode : ¬FmNode w s := by
    intro hn
    obtain ⟨k, π, hπ, heq, hne⟩ := (h.fmNode_iff s).mp hn
    exact hno (.inr ⟨0, h.zero, k, π, hπ, heq, hne⟩)
  have hkeep := h.fm.keep_write hnode b
  exact ⟨h.of_shrink subset_rfl h.zero h.mem hkeep.ok h.fmOpen h.openLive rfl
    ((same_of_write hno b).shrink h) fun t ht => h.owned_allocated ht, hkeep⟩

/-- A page without pointers has no bytes. -/
theorem byteAt_empty (disk : ℕ → Sector) {d : InodeDisk} (hd : ∀ k, k < 125 → d.word k = 0) (pos : ℕ) :
    byteAt disk d pos = 0 := by
  refine if_pos ?_
  by_cases hp : pos / 512 < 16635
  · rw [dataSec, hd _ (leaf_node hp).1.root, sec_zero]
  · exact dataSec_ge (by omega)

/-- A step that reserves sectors without giving them to an inode. -/
structure Reserving (live : Set ℕ) (w w' : World) : Prop where
  ok : InodeOk w' live
  same : Same live w w'
  keep : FmKeep w w'
  heap : w'.mem.heap = w.mem.heap

theorem PageGrown.same {heap : ℕ → Option Inode} {d d' : InodeDisk}
    (g : PageGrown (fun _ => heap) w d w' d') (h : InodeOk w live) (hheap : w.mem.heap = heap)
    (hd : ∀ k, k < 125 → d.word k = 0) : Same live w w' := by
  have hindex : ∀ t, t ≠ 0 → ¬Index pageShape w.disk d.word t := by
    rintro t ht ⟨k, π, hn, _, heq⟩
    rw [hd k hn.root, sec_zero] at heq
    exact ht heq.symm
  have hdisk : ∀ t, Allocated w t → ¬FmNode w t → t ≠ 0 → w'.disk t = w.disk t := fun t hA hD h0 =>
    g.grow.frame t hA hD h0 (hindex t h0)
  have hmem : w'.mem = { w.mem with freeMap := w'.mem.freeMap } := by
    have := g.keep.mem
    rw [g.heap, ← hheap] at this
    exact this
  have hsec : ∀ s ∈ live, ∀ k π, Node pageShape k π →
      sec w'.disk ((Filesys.page w s).word k) π = sec w.disk ((Filesys.page w s).word k) π := by
    intro s hs k π hn
    by_cases hz : s = 0
    · subst hz
      obtain ⟨f, j, hf, hj⟩ := h.fmFile
      have hpage := page_of_open h.mem hj.heap
      rw [hj.sector] at hpage
      rw [hpage]
      exact g.keep.sec f j k π hf hj.heap hn
    · exact (h.forest hs hz).sec_eq hdisk hn
  refine ⟨fun s hs => ?_, hsec, fun s hs hz pos => ?_, fun s hs hz =>
    hdisk s (h.alloc s hs) (h.live_not_fmNode hs) hz⟩
  · by_cases hz : s = 0
    · subst hz
      obtain ⟨q, j, hj, hj0⟩ := h.zero_open
      have h₁ := page_of_open h.mem hj
      have h₂ := page_of_open (w := w') (p := q) (i := j)
        (by rw [hmem]; exact ⟨h.mem.nodup, h.mem.listed, h.mem.inj, h.mem.fresh, h.mem.count⟩)
        (by rw [hmem]; exact hj)
      rw [hj0] at h₁ h₂
      rw [h₁, h₂]
    · exact page_of_mem_eq (by rw [hmem]) (by rw [hmem])
        (hdisk s (h.alloc s hs) (h.live_not_fmNode hs) hz)
  · refine byteAt_congr (hsec s hs) (fun k hk hne => ?_) pos
    obtain ⟨hA, hD⟩ := (h.forest hs hz).alloc _ _ (leaf_node hk).1 hne
    exact hdisk _ hA hD hne

theorem PageGrown.reserving {heap : ℕ → Option Inode} {d d' : InodeDisk}
    (g : PageGrown (fun _ => heap) w d w' d') (h : InodeOk w live) (hheap : w.mem.heap = heap)
    (hd : ∀ k, k < 125 → d.word k = 0) : Reserving live w w' := by
  have hsame := g.same h hheap hd
  refine ⟨?_, hsame, g.keep, g.heap.trans hheap.symm⟩
  refine h.of_shrink subset_rfl h.zero ?_ g.keep.ok ?_ ?_ g.keep.fsSize (hsame.shrink h)
    fun t ht => g.keep.mono t (h.owned_allocated ht)
  · have := g.keep.mem
    rw [g.heap, ← hheap] at this
    rw [this]
    exact ⟨h.mem.nodup, h.mem.listed, h.mem.inj, h.mem.fresh, h.mem.count⟩
  · rw [g.keep.freeMapFile]
    exact h.fmOpen
  · rw [g.heap, ← hheap]
    exact h.openLive

/-- `inode_create` reserves the blocks of a new page and writes the page. -/
theorem wp_inodeCreate_page (hP : P.NoFail) (h : FmOk w) (hs : s < w.mem.fsSize) {len : ℤ}
    {isDir : Bool} (hlen : 0 ≤ len) (hlen' : len < 2 ^ 31)
    (hE : 8517120 < len → ∀ d w₁, PageGrown (fun _ => w.mem.heap) w (newPage len isDir) w₁ d →
      E (.exit (-1)) w₁) {Q : Bool → World → Prop}
    (hok : ∀ d w₁, PageReserved P (fun _ => w.mem.heap) (bytesToSectors len).toNat w
      (newPage len isDir) true w₁ d → Q true { w₁ with disk := Function.update w₁.disk s d })
    (hfull : ∀ d w₁, PageReserved P (fun _ => w.mem.heap) (bytesToSectors len).toNat w
      (newPage len isDir) false w₁ d → Q false w₁) :
    wp P (inodeCreate s len isDir) Q E w := by
  rw [inodeCreate, if_neg (by omega)]
  simp only [wp_bind, wp_malloc]
  intro b hb
  rw [hP b hb, if_pos rfl]
  simp only [wp_bind]
  change wp P (inodeReserveWith bitmapWrite (fun _ => pure ()) (newPage len isDir)
    (newPage len isDir).length) _ _ _
  rw [newPage_length isDir hlen hlen']
  have hstore : Stores P (fun _ => pure ()) fun _ => w.mem.heap := by
    intro w' _ _ Q E hw hQ
    rw [wp_pure]
    rw [← hw] at hQ
    exact hQ
  refine wp_inodeReserveWith (writesMap_bitmapWrite hP) hstore h rfl
    (.empty fun k hk => newPage_word len isDir hk) (fun _ _ _ _ => rfl) hlen
    (fun hbig d w₁ hg => hE ?_ d w₁ hg) fun ok d w₁ hr => ?_
  · by_contra hle
    obtain ⟨n, rfl⟩ : ∃ n : ℕ, len = n := ⟨len.toNat, by omega⟩
    rw [bytesToSectors_of_le (by omega)] at hbig
    omega
  · cases ok with
    | false => exact (wp_pure _).mpr (hfull d w₁ hr)
    | true =>
      have hs₁ : s < w₁.mem.fsSize := by
        rw [hr.keep.fsSize]
        exact hs
      simp only [if_true, wp_bind, wp_bufferCacheWrite, if_pos hs₁, wp_pure]
      exact hok d w₁ hr

/-- A new page has been written to sector `s`: it has the given length, all bytes of the file are zero,
and its sectors are fresh ones, those that its blocks need. -/
structure PageCreated (w : World) (s : ℕ) (len : ℤ) (isDir : Bool) (w' : World) : Prop where
  length : InodeDisk.length (w'.disk s) = len
  isDir : InodeDisk.isDir (w'.disk s) = isDir
  byte : ∀ pos, byteAt w'.disk (w'.disk s) pos = 0
  blocks : ∀ j, j < (bytesToSectors len).toNat → dataSec w'.disk (w'.disk s) j ≠ 0
  fresh : ∀ k π, Node pageShape k π → sec w'.disk ((w'.disk s).word k) π ≠ 0 →
    ¬Allocated w (sec w'.disk ((w'.disk s).word k) π) ∧
      Allocated w' (sec w'.disk ((w'.disk s).word k) π)
  inj : ∀ k π k' π', Node pageShape k π → Node pageShape k' π' →
    sec w'.disk ((w'.disk s).word k) π = sec w'.disk ((w'.disk s).word k') π' →
    sec w'.disk ((w'.disk s).word k) π ≠ 0 → k = k' ∧ π = π'
  needed : ∀ k π, Node pageShape k π → sec w'.disk ((w'.disk s).word k) π ≠ 0 →
    NeededNode (bytesToSectors len).toNat k π

theorem PageReserved.created {heap : ℕ → Option Inode} {w₁ : World} {d : InodeDisk} {len : ℤ}
    {isDir : Bool}
    (hr : PageReserved P (fun _ => heap) (bytesToSectors len).toNat w (newPage len isDir) true w₁ d)
    (hs : Allocated w s) (hlen : 0 ≤ len) (hlen' : len < 2 ^ 31) :
    PageCreated w s len isDir { w₁ with disk := Function.update w₁.disk s d } := by
  have hd₀ : ∀ k, k < 125 → (newPage len isDir).word k = 0 := fun k hk => newPage_word len isDir hk
  set w₂ : World := { w₁ with disk := Function.update w₁.disk s d } with hw₂
  have hdisk : w₂.disk s = d := Function.update_self s d w₁.disk
  have hfresh : ∀ k π, Node pageShape k π → sec w₁.disk (d.word k) π ≠ 0 →
      ¬Allocated w (sec w₁.disk (d.word k) π) ∧ Allocated w₁ (sec w₁.disk (d.word k) π) :=
    fun k π hn hne => hr.grow.fresh k π hn (by rw [hd₀ k hn.root, sec_zero]) hne
  have hdata : ∀ k π, Node pageShape k π → sec w₁.disk (d.word k) π ≠ 0 →
      w₂.disk (sec w₁.disk (d.word k) π) = w₁.disk (sec w₁.disk (d.word k) π) := by
    intro k π hn hne
    refine Function.update_of_ne ?_ _ _
    rintro heq
    exact (hfresh k π hn hne).1 (by rw [heq]; exact hs)
  have hsec : ∀ k π, Node pageShape k π → sec w₂.disk (d.word k) π = sec w₁.disk (d.word k) π :=
    fun k π hn => sec_congr fun m _ hne => hdata k _ (hn.take m) hne
  refine ⟨?_, ?_, fun pos => ?_, fun j hj => ?_, fun k π hn hne => ?_, ?_, fun k π hn hne => ?_⟩
  · rw [hdisk, InodeDisk.length_congr hr.tail, newPage_length isDir hlen hlen']
  · rw [hdisk, InodeDisk.isDir_congr hr.tail, newPage_isDir]
  · rw [hdisk, byteAt_congr hsec (fun k hk hne => hdata _ _ (leaf_node hk).1 hne) pos,
      hr.toPageGrown.byteAt (.empty fun k hk => hd₀ k hk) pos, byteAt_empty _ hd₀]
  · have hne := hr.blocks rfl j hj
    have hj' : j < 16635 := by
      by_contra hge
      exact hne (dataSec_ge (by omega))
    rw [hdisk, dataSec, hsec _ _ (leaf_node hj').1]
    exact hne
  · rw [hdisk, hsec k π hn] at hne ⊢
    exact hfresh k π hn hne
  · rw [hdisk]
    intro k π k' π' hn hn' heq hne
    rw [hsec k π hn, hsec k' π' hn'] at heq
    rw [hsec k π hn] at hne
    exact hr.grow.inj k π k' π' hn hn' heq hne
  · rw [hdisk, hsec k π hn] at hne
    exact (hr.needed rfl k π hn hne).resolve_left fun h0 => h0 (by rw [hd₀ k hn.root, sec_zero])

theorem PageCreated.mapped {len : ℤ} {isDir : Bool} (h : PageCreated w s len isDir w')
    (hl : len ≤ 8517120) : Mapped w'.mem.fsSize w'.disk (w'.disk s) := by
  intro j hj
  rw [h.length] at hj
  have hj' : j < 16635 := by omega
  have hn := (leaf_node hj').1
  have hne : dataSec w'.disk (w'.disk s) j ≠ 0 := by
    refine h.blocks j ?_
    obtain ⟨n, rfl⟩ : ∃ n : ℕ, len = n := ⟨len.toNat, by omega⟩
    rw [bytesToSectors_of_le (by omega)]
    omega
  exact ⟨hj', hne, fun m => (h.fresh _ _ (hn.take m) (sec_take_ne_zero hne m)).2.1⟩

/-- A length between the maximum of a page and the overflow never ends in a success. -/
theorem PageCreated.hollow {len : ℤ} {isDir : Bool} (h : PageCreated w s len isDir w')
    (hl : 8517120 < len) (hlen' : len < 2 ^ 31) :
    2147483136 < len ∧ ∀ k, k < 125 → (w'.disk s).word k = 0 := by
  have hbig : 2147483136 < len := by
    by_contra hle
    obtain ⟨n, rfl⟩ : ∃ n : ℕ, len = n := ⟨len.toNat, by omega⟩
    refine h.blocks 16635 ?_ (dataSec_ge (le_refl _))
    rw [bytesToSectors_of_le (by omega)]
    omega
  refine ⟨hbig, fun k hk => ?_⟩
  by_contra hne
  have hnum := bytesToSectors_overflow hbig hlen'
  obtain ⟨j, hj, _⟩ := h.needed k [] ⟨hk, Nat.zero_le _, by simp⟩ hne
  omega

/-- The inode in sector `s` is new. -/
structure Created (live : Set ℕ) (w : World) (s : ℕ) (len : ℤ) (isDir : Bool) (w' : World) : Prop where
  ok : InodeOk w' (insert s live)
  same : Same live w w'
  keep : FmKeep w w'
  heap : w'.mem.heap = w.mem.heap
  page : PageCreated w s len isDir w'
  owned : ∀ t, Owned w' (insert s live) t → Owned w live t ∨ t = s ∨ ¬Allocated w t
  zero : w'.disk 0 = w.disk 0

/-- **`inode_create`** in a sector that belongs to nobody. -/
theorem wp_inodeCreate (hP : P.NoFail) (h : InodeOk w live) (hs : Allocated w s)
    (hno : ¬Owned w live s) {len : ℤ} {isDir : Bool} (hlen : 0 ≤ len) (hlen' : len < 2 ^ 31)
    (hE : 8517120 < len → ∀ w', Reserving live w w' → E (.exit (-1)) w') {Q : Bool → World → Prop}
    (hok : ∀ w', Created live w s len isDir w' → Q true w')
    (hfull : P.noSector → ∀ w', Reserving live w w' → Full w' → Q false w') :
    wp P (inodeCreate s len isDir) Q E w := by
  have hs0 : s ≠ 0 := by
    rintro rfl
    exact hno (.inl h.zero)
  have hd₀ : ∀ k, k < 125 → (newPage len isDir).word k = 0 := fun k hk => newPage_word len isDir hk
  refine wp_inodeCreate_page hP h.fm hs.1 hlen hlen'
    (fun hbig d w₁ hg => hE hbig w₁ (hg.reserving h rfl hd₀)) (fun d w₁ hr => ?_) fun d w₁ hr =>
    hfull (hr.full rfl).2 w₁ (hr.toPageGrown.reserving h rfl hd₀) (hr.full rfl).1
  have hres := hr.toPageGrown.reserving h rfl hd₀
  have hno₁ : ¬Owned w₁ live s := by rwa [hres.same.owned]
  obtain ⟨hok₂, hkeep₂⟩ := hres.ok.write_unowned hno₁ d
  have hsame₂ := same_of_write hno₁ d
  have hnew := hr.created hs hlen hlen'
  set w₂ : World := { w₁ with disk := Function.update w₁.disk s d } with hw₂
  have hunowned : ∀ t, Owned w₂ live t → Allocated w t := fun t hown => by
    rw [hsame₂.owned, hres.same.owned] at hown
    exact h.owned_allocated hown
  have hadd : InodeOk w₂ (insert s live) := by
    refine hok₂.add (hr.keep.mono s hs) (by rwa [hsame₂.owned]) (fun k π hn hne => ?_) hnew.inj ?_ ?_
      ?_ fun pos _ => hnew.byte pos
    · obtain ⟨hfree, hA⟩ := hnew.fresh k π hn hne
      exact ⟨hA, fun heq => hfree (by rwa [heq]), fun hown => hfree (hunowned _ hown)⟩
    · rw [hnew.length]
      exact hlen
    · rw [hnew.length]
      exact hnew.mapped
    · rw [hnew.length]
      exact fun hl => hnew.hollow hl hlen'
  have hpage : page w₂ s = w₂.disk s := by
    refine page_of_closed (hok₂.mem.openInode_eq_none.mpr ?_)
    rintro p i hi rfl
    exact hno (.inl (h.openLive p i (by rw [← hres.heap]; exact hi)))
  refine hok w₂ ⟨hadd, hres.same.trans hsame₂, hr.keep.trans hkeep₂, hres.heap, hnew, ?_, ?_⟩
  · rintro t ((rfl | ht) | ⟨s', rfl | hs', k, π, hn, heq, hne⟩)
    · exact .inr (.inl rfl)
    · exact .inl (.inl ht)
    · rw [hpage] at heq
      rw [← heq] at hne ⊢
      exact .inr (.inr (hnew.fresh k π hn hne).1)
    · refine .inl ?_
      rw [← hres.same.owned, ← hsame₂.owned]
      exact .inr ⟨s', hs', k, π, hn, heq, hne⟩
  · exact (Function.update_of_ne hs0.symm _ _).trans (hr.zero rfl)

end Pintos.Filesys
