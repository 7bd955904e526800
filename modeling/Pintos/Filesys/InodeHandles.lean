import Pintos.Filesys.InodeOps

/-!
# Handles on inodes

`inode_open` and `inode_reopen` take a handle on an inode, `inode_close` gives one back.  As long as
one is left, the in-memory inode stays; with the last one it goes (`dropInode`), and if the inode has
been removed, so do its sectors.
-/

namespace Pintos.Filesys

open PtrForest

variable {P : Policy} {E : Stop → World → Prop} {w w' : World} {live : Set ℕ} {p s : ℕ} {i i' : Inode}

/-! ### Memory -/

/-- The in-memory inode at `p` is replaced. -/
def setInode (w : World) (p : ℕ) (i : Inode) : World :=
  { w with mem := { w.mem with heap := Function.update w.mem.heap p (some i) } }

/-- The inode of sector `s` is read into memory. -/
def newInode (w : World) (s : ℕ) : World :=
  { w with mem := { w.mem with
    heap := Function.update w.mem.heap w.mem.next (some ⟨s, 1, false, 0, w.disk s⟩)
    next := w.mem.next + 1
    openInodes := w.mem.next :: w.mem.openInodes } }

/-- The in-memory inode at `p` is given up. -/
def dropInode (w : World) (p : ℕ) : World :=
  { w with mem := { w.mem with
    heap := Function.update w.mem.heap p none
    openInodes := w.mem.openInodes.erase p } }

theorem MemOk.update {m : Mem} (h : MemOk m) (hi : m.heap p = some i) (hs : i'.sector = i.sector)
    (hc : 0 < i'.openCnt) : MemOk { m with heap := Function.update m.heap p (some i') } := by
  have hback : ∀ q j, Function.update m.heap p (some i') q = some j →
      (∃ j', m.heap q = some j' ∧ j'.sector = j.sector) ∧ 0 < j.openCnt := by
    intro q j hj
    by_cases hq : q = p
    · subst hq
      rw [Function.update_self] at hj
      obtain rfl := Option.some.inj hj
      exact ⟨⟨i, hi, hs.symm⟩, hc⟩
    · rw [Function.update_of_ne hq] at hj
      exact ⟨⟨j, hj, rfl⟩, h.count q j hj⟩
  refine ⟨h.nodup, fun q => ?_, fun q r j j' hj hj' hsec => ?_, fun q hq => ?_, fun q j hj =>
    (hback q j hj).2⟩
  · rw [show q ∈ m.openInodes ↔ _ from h.listed q]
    show _ ↔ ∃ j, Function.update m.heap p (some i') q = some j
    by_cases hq : q = p
    · subst hq
      rw [Function.update_self]
      exact ⟨fun _ => ⟨_, rfl⟩, fun _ => ⟨i, hi⟩⟩
    · rw [Function.update_of_ne hq]
  · obtain ⟨⟨a, ha, hsa⟩, _⟩ := hback q j hj
    obtain ⟨⟨b, hb, hsb⟩, _⟩ := hback r j' hj'
    exact h.inj q r a b ha hb (by rw [hsa, hsb, hsec])
  · have hnone := h.fresh q hq
    show Function.update m.heap p (some i') q = none
    rw [Function.update_of_ne, hnone]
    rintro rfl
    rw [hi] at hnone
    exact absurd hnone (by simp)

theorem MemOk.new (h : MemOk w.mem) (hno : w.mem.openInode s = none) : MemOk (newInode w s).mem := by
  have hno' := h.openInode_eq_none.mp hno
  have hnext := h.fresh w.mem.next (le_refl _)
  have hnot : w.mem.next ∉ w.mem.openInodes := fun hm => by
    obtain ⟨j, hj⟩ := (h.listed _).mp hm
    rw [hnext] at hj
    exact absurd hj (by simp)
  have hback : ∀ q j, (newInode w s).mem.heap q = some j →
      (q = w.mem.next ∧ j = ⟨s, 1, false, 0, w.disk s⟩) ∨ (q ≠ w.mem.next ∧ w.mem.heap q = some j) := by
    intro q j hj
    have hj' : Function.update w.mem.heap w.mem.next (some ⟨s, 1, false, 0, w.disk s⟩) q = some j := hj
    by_cases hq : q = w.mem.next
    · subst hq
      rw [Function.update_self] at hj'
      exact .inl ⟨rfl, (Option.some.inj hj').symm⟩
    · rw [Function.update_of_ne hq] at hj'
      exact .inr ⟨hq, hj'⟩
  refine ⟨List.nodup_cons.mpr ⟨hnot, h.nodup⟩, fun q => ?_, fun q r j j' hj hj' hsec => ?_,
    fun q hq => ?_, fun q j hj => ?_⟩
  · show q ∈ w.mem.next :: w.mem.openInodes ↔ ∃ j, Function.update w.mem.heap w.mem.next _ q = some j
    rw [List.mem_cons]
    by_cases hq : q = w.mem.next
    · subst hq
      rw [Function.update_self]
      exact ⟨fun _ => ⟨_, rfl⟩, fun _ => .inl rfl⟩
    · rw [Function.update_of_ne hq, ← h.listed q]
      simp [hq]
  · rcases hback q j hj with ⟨rfl, rfl⟩ | ⟨_, hj₁⟩ <;> rcases hback r j' hj' with ⟨rfl, rfl⟩ | ⟨_, hj₂⟩
    · rfl
    · exact absurd hsec.symm (hno' r j' hj₂)
    · exact absurd hsec (hno' q j hj₁)
    · exact h.inj q r j j' hj₁ hj₂ hsec
  · have hq' : w.mem.next + 1 ≤ q := hq
    show Function.update w.mem.heap w.mem.next _ q = none
    rw [Function.update_of_ne (by omega), h.fresh q (by omega)]
  · rcases hback q j hj with ⟨_, rfl⟩ | ⟨_, hj₁⟩
    · show (0 : ℤ) < 1
      omega
    · exact h.count q j hj₁

theorem MemOk.drop (h : MemOk w.mem) : MemOk (dropInode w p).mem := by
  have hback : ∀ q j, (dropInode w p).mem.heap q = some j → q ≠ p ∧ w.mem.heap q = some j := by
    intro q j hj
    have hj' : Function.update w.mem.heap p none q = some j := hj
    by_cases hq : q = p
    · subst hq
      rw [Function.update_self] at hj'
      exact absurd hj' (by simp)
    · rw [Function.update_of_ne hq] at hj'
      exact ⟨hq, hj'⟩
  refine ⟨h.nodup.erase p, fun q => ?_, fun q r j j' hj hj' hsec =>
    h.inj q r j j' (hback q j hj).2 (hback r j' hj').2 hsec, fun q hq => ?_, fun q j hj =>
    h.count q j (hback q j hj).2⟩
  · show q ∈ w.mem.openInodes.erase p ↔ ∃ j, Function.update w.mem.heap p none q = some j
    rw [h.nodup.mem_erase_iff]
    by_cases hq : q = p
    · subst hq
      rw [Function.update_self]
      simp
    · rw [Function.update_of_ne hq, h.listed q]
      simp [hq]
  · have hq' : w.mem.next ≤ q := hq
    show Function.update w.mem.heap p none q = none
    by_cases hqp : q = p
    · rw [hqp, Function.update_self]
    · rw [Function.update_of_ne hqp, h.fresh q hq']

/-- The free map file does not see changes of memory that keep the map and the inode of the file. -/
theorem FmOk.of_mem {m : Mem} (h : FmOk w) (hsize : m.fsSize = w.mem.fsSize)
    (hcnt : m.freeMap.bitCnt = w.mem.freeMap.bitCnt)
    (hbits : ∀ t, t < w.mem.fsSize → m.freeMap.bits t = w.mem.freeMap.bits t)
    (hheap : ∀ f', m.freeMapFile = some f' → ∃ f i i', w.mem.freeMapFile = some f ∧
      w.mem.heap f.inode = some i ∧ m.heap f'.inode = some i' ∧ i'.sector = i.sector ∧
      i'.denyWriteCnt = i.denyWriteCnt ∧ i'.data = i.data) : FmOk ⟨m, w.disk⟩ := by
  have hA : ∀ t, Allocated ⟨m, w.disk⟩ t ↔ Allocated w t := fun t => by
    show t < m.fsSize ∧ m.freeMap.bits t = true ↔ _
    rw [hsize]
    exact and_congr_right fun ht => by rw [hbits t ht]
  refine ⟨?_, ?_, (hA 0).mpr h.zero, fun f' hf' => ?_⟩
  · show m.freeMap.bitCnt = m.fsSize
    rw [hcnt, hsize, h.bitCnt]
  · show m.fsSize < _
    rw [hsize]
    exact h.fsSize
  · obtain ⟨f, i₀, i', hf, hi₀, hi', hs, hd, hdata⟩ := hheap f' hf'
    obtain ⟨i, hi⟩ := h.file f hf
    obtain rfl : i₀ = i := Option.some.inj (hi₀.symm.trans hi.heap)
    refine ⟨i', hi', hs.trans hi.sector, hd.trans hi.allow, ?_, ?_, ?_, fun k π hn hne => ?_, ?_⟩
    · show (m.freeMap.byteCnt : ℤ) ≤ _
      rw [Bitmap.byteCnt_congr hcnt, hdata]
      exact hi.size
    · rw [hdata]
      exact hi.max
    · rw [hdata]
      show Mapped m.fsSize w.disk i₀.data
      rw [hsize]
      exact hi.mapped
    · rw [hdata] at hne ⊢
      obtain ⟨ha, hn'⟩ := hi.forest.alloc k π hn hne
      exact ⟨(hA _).mpr ha, hn'⟩
    · rw [hdata]
      exact hi.forest.inj

/-- The same, with the file at its address. -/
theorem FmOk.of_heap {m : Mem} (h : FmOk w) (hsize : m.fsSize = w.mem.fsSize)
    (hmap : m.freeMap = w.mem.freeMap) (hfile : m.freeMapFile = w.mem.freeMapFile)
    (hheap : ∀ f i, w.mem.freeMapFile = some f → w.mem.heap f.inode = some i →
      ∃ i', m.heap f.inode = some i' ∧ i'.sector = i.sector ∧ i'.denyWriteCnt = i.denyWriteCnt ∧
        i'.data = i.data) : FmOk ⟨m, w.disk⟩ := by
  refine h.of_mem hsize (by rw [hmap]) (fun _ _ => by rw [hmap]) fun f hf => ?_
  have hf' : w.mem.freeMapFile = some f := hfile ▸ hf
  obtain ⟨i, hi⟩ := h.file f hf'
  obtain ⟨i', hi', hrest⟩ := hheap f i hf' hi.heap
  exact ⟨f, i, i', hf', hi.heap, hi', hrest⟩

/-! ### The invariant -/

/-- A step in memory that keeps the sector, the page and the write permission of open inodes. -/
theorem InodeOk.setInode (h : InodeOk w live) (hi : w.mem.heap p = some i) (hs : i'.sector = i.sector)
    (hc : 0 < i'.openCnt) (hd : i'.denyWriteCnt = i.denyWriteCnt) (hdata : i'.data = i.data) :
    InodeOk (setInode w p i') live ∧ Same live w (Filesys.setInode w p i') := by
  have hmem : MemOk (Filesys.setInode w p i').mem := h.mem.update hi hs hc
  have hfwd : ∀ q j, w.mem.heap q = some j → ∃ j', (Filesys.setInode w p i').mem.heap q = some j' ∧
      j'.sector = j.sector ∧ j'.denyWriteCnt = j.denyWriteCnt ∧ j'.data = j.data := by
    intro q j hj
    show ∃ j', Function.update w.mem.heap p (some i') q = some j' ∧ _
    by_cases hq : q = p
    · subst hq
      rw [Function.update_self]
      obtain rfl : i = j := Option.some.inj (hi.symm.trans hj)
      exact ⟨i', rfl, hs, hd, hdata⟩
    · rw [Function.update_of_ne hq]
      exact ⟨j, hj, rfl, rfl, rfl⟩
  have hback : ∀ q j', (Filesys.setInode w p i').mem.heap q = some j' →
      ∃ j, w.mem.heap q = some j ∧ j.sector = j'.sector := by
    intro q j' hj'
    have hj : Function.update w.mem.heap p (some i') q = some j' := hj'
    by_cases hq : q = p
    · subst hq
      rw [Function.update_self] at hj
      obtain rfl := Option.some.inj hj
      exact ⟨i, hi, hs.symm⟩
    · rw [Function.update_of_ne hq] at hj
      exact ⟨j', hj, rfl⟩
  have hsame : Same live w (Filesys.setInode w p i') := by
    refine ⟨fun s _ => page_congr h.mem hmem (fun q j hj hjs => ?_) (fun q j' hj' hjs => ?_) rfl,
      fun _ _ _ _ _ => rfl, fun _ _ _ _ => rfl, fun _ _ _ => rfl⟩
    · obtain ⟨j', hj', hsec, _, hdat⟩ := hfwd q j hj
      exact ⟨j', hj', hsec.trans hjs, hdat⟩
    · obtain ⟨j, hj, hsec⟩ := hback q j' hj'
      exact ⟨j, hj, hsec.trans hjs⟩
  refine ⟨h.of_shrink subset_rfl h.zero hmem (h.fm.of_heap rfl rfl rfl fun f j _ hj => ?_) h.fmOpen
    (fun q j' hj' => ?_) rfl (hsame.shrink h) fun t ht => h.owned_allocated ht, hsame⟩
  · exact hfwd f.inode j hj
  · obtain ⟨j, hj, hsec⟩ := hback q j' hj'
    rw [← hsec]
    exact h.openLive q j hj

/-- One opener fewer, and not the last one. -/
theorem InodeOk.closeOne (h : InodeOk w live) (hi : w.mem.heap p = some i) (hmore : 1 < i.openCnt) :
    InodeOk (Filesys.setInode w p { i with openCnt := i.openCnt - 1 }) live ∧
      Same live w (Filesys.setInode w p { i with openCnt := i.openCnt - 1 }) :=
  h.setInode hi rfl (by show 0 < i.openCnt - 1; omega) rfl rfl

theorem InodeOk.newInode (h : InodeOk w live) (hs : s ∈ live) (hno : w.mem.openInode s = none) :
    InodeOk (newInode w s) live ∧ Same live w (Filesys.newInode w s) := by
  have hmem := h.mem.new hno
  have hnext := h.mem.fresh w.mem.next (le_refl _)
  have hfwd : ∀ q j, w.mem.heap q = some j → (Filesys.newInode w s).mem.heap q = some j := by
    intro q j hj
    show Function.update w.mem.heap w.mem.next _ q = some j
    rw [Function.update_of_ne, hj]
    rintro rfl
    rw [hnext] at hj
    exact absurd hj (by simp)
  have hback : ∀ q j, (Filesys.newInode w s).mem.heap q = some j → j.sector = s ∨ w.mem.heap q = some j := by
    intro q j hj
    have hj' : Function.update w.mem.heap w.mem.next (some ⟨s, 1, false, 0, w.disk s⟩) q = some j := hj
    by_cases hq : q = w.mem.next
    · subst hq
      rw [Function.update_self] at hj'
      rw [← Option.some.inj hj']
      exact .inl rfl
    · rw [Function.update_of_ne hq] at hj'
      exact .inr hj'
  have hsame : Same live w (Filesys.newInode w s) := by
    refine ⟨fun t _ => ?_, fun _ _ _ _ _ => rfl, fun _ _ _ _ => rfl, fun _ _ _ => rfl⟩
    by_cases hts : t = s
    · subst hts
      rw [page_of_closed hno]
      exact page_of_open (w := Filesys.newInode w t) (p := w.mem.next)
        (i := ⟨t, 1, false, 0, w.disk t⟩) hmem (Function.update_self _ _ _)
    · refine page_congr h.mem hmem (fun q j hj hjs => ⟨j, hfwd q j hj, hjs, rfl⟩)
        (fun q j hj hjs => ?_) rfl
      rcases hback q j hj with hjs' | hj'
      · exact absurd (hjs.symm.trans hjs') hts
      · exact ⟨j, hj', hjs⟩
  refine ⟨h.of_shrink subset_rfl h.zero hmem (h.fm.of_heap rfl rfl rfl fun f j _ hj =>
    ⟨j, hfwd _ j hj, rfl, rfl, rfl⟩) h.fmOpen (fun q j hj => ?_) rfl (hsame.shrink h)
    fun t ht => h.owned_allocated ht, hsame⟩
  rcases hback q j hj with hjs | hj'
  · rw [hjs]
    exact hs
  · exact h.openLive q j hj'

theorem dropInode_heap {q : ℕ} {j : Inode} :
    (dropInode w p).mem.heap q = some j ↔ q ≠ p ∧ w.mem.heap q = some j := by
  show Function.update w.mem.heap p none q = some j ↔ _
  by_cases hq : q = p
  · rw [hq, Function.update_self]
    simp
  · rw [Function.update_of_ne hq]
    simp [hq]

theorem page_dropInode_self (h : MemOk w.mem) (hi : w.mem.heap p = some i) :
    page (dropInode w p) i.sector = w.disk i.sector := by
  refine page_of_closed (w := dropInode w p) (h.drop.openInode_eq_none.mpr fun q j hj heq => ?_)
  obtain ⟨hne, hj'⟩ := dropInode_heap.mp hj
  exact hne (h.inj q p j i hj' hi heq)

theorem page_dropInode_other (h : MemOk w.mem) (hi : w.mem.heap p = some i) (hs : s ≠ i.sector) :
    page (dropInode w p) s = page w s := by
  refine page_congr h h.drop (fun q j hj hsec => ⟨j, dropInode_heap.mpr ⟨?_, hj⟩, hsec, rfl⟩)
    (fun q j hj hsec => ⟨j, (dropInode_heap.mp hj).2, hsec⟩) rfl
  rintro rfl
  obtain rfl : i = j := Option.some.inj (hi.symm.trans hj)
  exact hs hsec.symm

theorem InodeOk.dropInode (h : InodeOk w live) (hi : w.mem.heap p = some i) (h0 : i.sector ≠ 0) :
    InodeOk (dropInode w p) live ∧ Shrink live w (Filesys.dropInode w p) := by
  have hle : ∀ s ∈ live, PageLe (header w s) (page (Filesys.dropInode w p) s) ∧
      PageLe (page (Filesys.dropInode w p) s) (page w s) := by
    intro s hs
    by_cases hsi : s = i.sector
    · have hhead : header w s = w.disk s := if_neg (by rw [hsi]; exact h0)
      have hpage : page (Filesys.dropInode w p) s = w.disk s := by
        rw [hsi]
        exact page_dropInode_self h.mem hi
      rw [hpage, ← hhead]
      exact ⟨.refl _, h.le s hs⟩
    · rw [page_dropInode_other h.mem hi hsi]
      exact ⟨h.le s hs, .refl _⟩
  have hhead : ∀ s, header (Filesys.dropInode w p) s = header w s := by
    intro s
    unfold header
    split
    · exact page_dropInode_other h.mem hi h0.symm
    · rfl
  have hshrink : Shrink live w (Filesys.dropInode w p) :=
    ⟨fun s hs => (hle s hs).2, fun s _ => hhead s, fun s hs => by rw [hhead s]; exact (hle s hs).1,
      fun _ _ _ _ _ => rfl, fun _ _ _ _ => rfl⟩
  have hopen : ∀ q j, (Filesys.dropInode w p).mem.heap q = some j → j.sector ∈ live :=
    fun q j hj => h.openLive q j (dropInode_heap.mp hj).2
  refine ⟨h.of_shrink subset_rfl h.zero h.mem.drop (h.fm.of_heap rfl rfl rfl fun f j hf hj => ?_)
    h.fmOpen hopen rfl hshrink fun t ht => h.owned_allocated ht, hshrink⟩
  exact ⟨j, dropInode_heap.mpr ⟨h.fm_addr_ne hi h0 hf, hj⟩, rfl, rfl, rfl⟩

/-! ### The free map file in these steps -/

theorem Synced.of_heap {m : Mem} (hs : Synced w) (h : FmOk w) (hmap : m.freeMap = w.mem.freeMap)
    (hfile : m.freeMapFile = w.mem.freeMapFile)
    (hheap : ∀ f i, w.mem.freeMapFile = some f → w.mem.heap f.inode = some i →
      ∃ i', m.heap f.inode = some i' ∧ i'.data = i.data) : Synced ⟨m, w.disk⟩ := by
  intro f j hf hj
  have hf' : w.mem.freeMapFile = some f := hfile ▸ hf
  obtain ⟨i, hi⟩ := h.file f hf'
  obtain ⟨i', hi', hd⟩ := hheap f i hf' hi.heap
  obtain rfl : i' = j := Option.some.inj (hi'.symm.trans hj)
  show ∀ t, t < m.freeMap.bitCnt → _ = m.freeMap.bits t
  rw [hmap, hd]
  exact hs f i hf' hi.heap

theorem Synced.setInode (hs : Synced w) (h : FmOk w) (hi : w.mem.heap p = some i)
    (hdata : i'.data = i.data) : Synced (setInode w p i') := by
  refine hs.of_heap h rfl rfl fun f j _ hj => ?_
  show ∃ j', Function.update w.mem.heap p (some i') f.inode = some j' ∧ _
  by_cases hq : f.inode = p
  · rw [hq, hi] at hj
    rw [hq, Function.update_self, ← Option.some.inj hj]
    exact ⟨i', rfl, hdata⟩
  · rw [Function.update_of_ne hq]
    exact ⟨j, hj, rfl⟩

theorem Synced.newInode (hs : Synced w) (h : InodeOk w live) : Synced (newInode w s) := by
  refine hs.of_heap h.fm rfl rfl fun f j _ hj => ⟨j, ?_, rfl⟩
  refine (Function.update_of_ne ?_ _ _).trans hj
  intro heq
  rw [heq, h.mem.fresh _ (le_refl _)] at hj
  exact absurd hj (by simp)

theorem Synced.dropInode (hs : Synced w) (h : InodeOk w live) (hi : w.mem.heap p = some i)
    (h0 : i.sector ≠ 0) : Synced (dropInode w p) :=
  hs.of_heap h.fm rfl rfl fun _ j hf hj =>
    ⟨j, dropInode_heap.mpr ⟨h.fm_addr_ne hi h0 hf, hj⟩, rfl⟩

/-! ### Opening -/

theorem wp_findOpen (h : MemOk w.mem) {Q : Option ℕ → World → Prop}
    (hQ : Q (w.mem.openInode s) w) : wp P (findOpen s w.mem.openInodes) Q E w := by
  have hloop : ∀ l : List ℕ, (∀ p ∈ l, p ∈ w.mem.openInodes) →
      Q (l.find? fun p => decide ((w.mem.heap p).map Inode.sector = some s)) w →
      wp P (findOpen s l) Q E w := by
    intro l
    induction l with
    | nil =>
      intro _ hQ
      rw [findOpen, wp_pure]
      exact hQ
    | cons p l ih =>
      intro hl hQ
      obtain ⟨i, hi⟩ := (h.listed p).mp (hl p List.mem_cons_self)
      rw [findOpen, wp_bind, wp_deref_some hi]
      by_cases hs : i.sector = s
      · rw [if_pos hs, wp_pure]
        rwa [List.find?_cons_of_pos (by simp [hi, hs])] at hQ
      · rw [if_neg hs]
        rw [List.find?_cons_of_neg (by simp [hi, hs])] at hQ
        exact ih (fun q hq => hl q (List.mem_cons_of_mem p hq)) hQ
  exact hloop _ (fun _ hp => hp) hQ

/-- A handle on the inode of sector `s` has been taken; it is at address `p`. -/
structure Opened (live : Set ℕ) (w : World) (s p : ℕ) (w' : World) : Prop where
  ok : InodeOk w' live
  same : Same live w w'
  inode : (∃ i, w.mem.heap p = some i ∧ i.sector = s ∧
      w' = setInode w p { i with openCnt := i.openCnt + 1 }) ∨
    (w.mem.openInode s = none ∧ p = w.mem.next ∧ w' = newInode w s)

theorem wp_inodeReopen (h : InodeOk w live) (hi : w.mem.heap p = some i)
    {Q : Option ℕ → World → Prop} (hQ : ∀ w', Opened live w i.sector p w' → Q (some p) w') :
    wp P (inodeReopen (some p)) Q E w := by
  simp only [inodeReopen, wp_bind, wp_deref_some hi, wp_assign, hi, wp_pure]
  have hc := h.mem.count p i hi
  obtain ⟨hok, hsame⟩ : InodeOk (setInode w p { i with openCnt := i.openCnt + 1 }) live ∧ Same live w _ :=
    h.setInode hi rfl (by show 0 < i.openCnt + 1; omega) rfl rfl
  exact hQ _ ⟨hok, hsame, .inl ⟨i, hi, rfl, rfl⟩⟩

/-- **`inode_open`** finds the inode among the open ones, or reads it. -/
theorem wp_inodeOpen (hP : P.NoFail) (h : InodeOk w live) (hs : s ∈ live)
    {Q : Option ℕ → World → Prop} (hQ : ∀ p w', Opened live w s p w' → Q (some p) w') :
    wp P (inodeOpen s) Q E w := by
  simp only [inodeOpen, wp_bind, wp_getMem]
  refine wp_findOpen h.mem ?_
  cases hopen : w.mem.openInode s with
  | some p =>
    obtain ⟨i, hi, rfl⟩ := h.mem.heap_of_openInode hopen
    exact wp_inodeReopen h hi fun w' ho => hQ p w' ho
  | none =>
    simp only [wp_bind, wp_malloc]
    intro b hb
    rw [hP b hb, if_pos rfl]
    simp only [wp_bind, wp_bufferCacheRead, if_pos (h.alloc s hs).1, wp_getMem, wp_setMem, wp_pure]
    obtain ⟨hok, hsame⟩ := h.newInode hs hopen
    exact hQ _ _ ⟨hok, hsame, .inr ⟨hopen, rfl, rfl⟩⟩

/-! ### Removing and closing -/

theorem wp_inodeRemove (h : InodeOk w live) (hi : w.mem.heap p = some i) {Q : Unit → World → Prop}
    (hQ : InodeOk (setInode w p { i with removed := true }) live →
      Same live w (setInode w p { i with removed := true }) →
      Q () (setInode w p { i with removed := true })) : wp P (inodeRemove p) Q E w := by
  simp only [inodeRemove, wp_bind, wp_deref_some hi, wp_assign, hi]
  obtain ⟨hok, hsame⟩ : InodeOk (setInode w p { i with removed := true }) live ∧ Same live w _ :=
    h.setInode hi rfl (h.mem.count p i hi) rfl rfl
  exact hQ hok hsame

/-- The sectors of the inode `i`: its header, and those that its blocks need. -/
def Inode.Sectors (disk : ℕ → Sector) (i : Inode) (t : ℕ) : Prop :=
  t = i.sector ∨ PageNeeded (bytesToSectors i.data.length).toNat disk i.data t

/-- The removed inode `i` at address `p` is gone, and so are its sectors. -/
structure Deleted (live : Set ℕ) (p : ℕ) (i : Inode) (w w' : World) : Prop where
  ok : InodeOk w' (live \ {i.sector})
  same : Same (live \ {i.sector}) w w'
  step : FmStep (dropInode w p) w'
  allocated : ∀ t, Allocated w' t ↔ Allocated w t ∧ ¬i.Sectors w.disk t
  sync : Synced w → Synced w'

theorem pageNeeded_congr {num : ℕ} {disk disk' : ℕ → Sector} {d : InodeDisk} (hnum : num ≤ 16635)
    (hsec : ∀ k π, Node pageShape k π → sec disk' (d.word k) π = sec disk (d.word k) π) (t : ℕ) :
    PageNeeded num disk' d t ↔ PageNeeded num disk d t := by
  constructor
  · rintro ⟨k, π, ⟨j, hj, rfl, m, rfl⟩, rfl⟩
    exact ⟨_, _, ⟨j, hj, rfl, m, rfl⟩, (hsec _ _ ((leaf_node (by omega)).1.take m)).symm⟩
  · rintro ⟨k, π, ⟨j, hj, rfl, m, rfl⟩, rfl⟩
    exact ⟨_, _, ⟨j, hj, rfl, m, rfl⟩, hsec _ _ ((leaf_node (by omega)).1.take m)⟩

/-- The sectors that the blocks of an inode need are nodes of its page. -/
theorem InodeOk.needed_node (h : InodeOk w live) (hs : s ∈ live) {t : ℕ}
    (ht : PageNeeded (bytesToSectors (page w s).length).toNat w.disk (page w s) t) :
    ∃ k π, Node pageShape k π ∧ sec w.disk ((page w s).word k) π = t ∧ t ≠ 0 := by
  obtain ⟨k, π, ⟨j, hj, rfl, m, rfl⟩, rfl⟩ := ht
  have hlen := h.length s hs
  by_cases hbig : (page w s).length ≤ 8517120
  · obtain ⟨len, hl⟩ : ∃ len : ℕ, (page w s).length = len := ⟨_, (Int.toNat_of_nonneg hlen).symm⟩
    rw [hl, bytesToSectors_of_le (by omega)] at hj
    have hpres := h.page_mapped hs hbig j (by omega)
    have hn := (leaf_node hpres.lt).1
    exact ⟨_, _, hn.take m, rfl, sec_take_ne_zero hpres.ne_zero m⟩
  · have hnum := bytesToSectors_overflow (h.hollow s hs (by omega)).1
      (toInt32_bounds (Block.word_lt (page w s) 125)).2
    omega

/-- The sectors of an inode are its own. -/
theorem InodeOk.not_sectors (h : InodeOk w live) (hi : w.mem.heap p = some i) {t : ℕ}
    (ht : Owned w (live \ {i.sector}) t) : ¬i.Sectors w.disk t := by
  have hs := h.openLive p i hi
  have hpage := page_of_open h.mem hi
  rintro (rfl | hneed)
  · rcases ht with ht | ⟨s, hs', k, π, hn, heq, h0⟩
    · exact ht.2 rfl
    · rw [← heq] at h0
      exact (h.node s hs'.1 k π hn h0).2 (by rw [heq]; exact hs)
  · rw [← hpage] at hneed
    obtain ⟨k, π, hn, rfl, h0⟩ := h.needed_node hs hneed
    rcases ht with ht | ⟨s, hs', k', π', hn', heq, _⟩
    · exact (h.node _ hs k π hn h0).2 ht.1
    · exact hs'.2 (h.inj _ hs'.1 _ hs k' π' k π hn' hn heq (by rw [heq]; exact h0)).1

theorem InodeOk.sectors_owned (h : InodeOk w live) (hi : w.mem.heap p = some i) {t : ℕ}
    (ht : i.Sectors w.disk t) : Owned w live t := by
  have hs := h.openLive p i hi
  rcases ht with rfl | hneed
  · exact .inl hs
  · rw [← page_of_open h.mem hi] at hneed
    obtain ⟨k, π, hn, heq, h0⟩ := h.needed_node hs hneed
    exact .inr ⟨_, hs, k, π, hn, heq, h0⟩

/-- The memory without the in-memory inode at `p`. -/
def dropHeap (w : World) (p : ℕ) : World :=
  { w with mem := { w.mem with heap := Function.update w.mem.heap p none } }

/-- What happens to the free map does not depend on an inode that goes. -/
theorem FmStep.dropHeap (st : FmStep w w')
    (hp : ∀ f, w.mem.freeMapFile = some f → f.inode ≠ p) :
    FmStep (dropHeap w p) (Filesys.dropHeap w' p) := by
  have hdata : ∀ v : World, v.mem.freeMapFile = w.mem.freeMapFile → ∀ s,
      FmData (Filesys.dropHeap v p) s ↔ FmData v s := by
    intro v hv s
    have hupd : ∀ f, v.mem.freeMapFile = some f →
        Function.update v.mem.heap p none f.inode = v.mem.heap f.inode := fun f hf =>
      Function.update_of_ne (hp f (hv ▸ hf)) _ _
    constructor
    · rintro ⟨f, i, k, hf, hi, hk, heq, h0⟩
      exact ⟨f, i, k, hf, (hupd f hf).symm.trans hi, hk, heq, h0⟩
    · rintro ⟨f, i, k, hf, hi, hk, heq, h0⟩
      exact ⟨f, i, k, hf, (hupd f hf).trans hi, hk, heq, h0⟩
  refine ⟨?_, st.bitCnt, fun s hs => st.disk s fun hd => hs ((hdata w rfl s).mpr hd), fun s => ?_, ?_⟩
  · show { w'.mem with heap := Function.update w'.mem.heap p none } = _
    rw [st.mem]
    rfl
  · rw [hdata w rfl, hdata w' st.freeMapFile, st.data]
  · refine st.ok.of_heap rfl rfl rfl fun f j hf hj => ⟨j, ?_, rfl, rfl, rfl⟩
    exact (Function.update_of_ne (hp f (st.freeMapFile ▸ hf)) _ _).trans hj

theorem synced_dropHeap (hp : ∀ f, w.mem.freeMapFile = some f → f.inode ≠ p) :
    Synced (dropHeap w p) ↔ Synced w := by
  have hupd : ∀ f, w.mem.freeMapFile = some f →
      Function.update w.mem.heap p none f.inode = w.mem.heap f.inode := fun f hf =>
    Function.update_of_ne (hp f hf) _ _
  constructor
  · intro h f j hf hj
    exact h f j hf ((hupd f hf).trans hj)
  · intro h f j hf hj
    exact h f j hf ((hupd f hf).symm.trans hj)

theorem fmNode_congr {m : Mem} (hfile : m.freeMapFile = w.mem.freeMapFile)
    (hheap : ∀ f, w.mem.freeMapFile = some f → m.heap f.inode = w.mem.heap f.inode) :
    FmNode ⟨m, w.disk⟩ = FmNode w := by
  funext s
  refine propext ⟨?_, ?_⟩
  · rintro ⟨f, j, k, π, hf, hj, hn, heq, h0⟩
    have hf' : w.mem.freeMapFile = some f := hfile ▸ hf
    exact ⟨f, j, k, π, hf', (hheap f hf').symm.trans hj, hn, heq, h0⟩
  · rintro ⟨f, j, k, π, hf, hj, hn, heq, h0⟩
    exact ⟨f, j, k, π, hfile.trans hf, (hheap f hf).trans hj, hn, heq, h0⟩

/-- Giving back the sectors of an inode and dropping it from memory deletes it. -/
theorem InodeOk.deleted (h : InodeOk w live) (hi : w.mem.heap p = some i) (h0 : i.sector ≠ 0)
    {w₁ : World} (hw₁ : dropHeap w₁ p = Filesys.dropInode w p)
    (hrel : Released (i.Sectors w.disk) w₁ w') : Deleted live p i w (dropHeap w' p) := by
  have hA₁ : ∀ t, Allocated w₁ t ↔ Allocated w t := fun t => by
    show Allocated (dropHeap w₁ p) t ↔ _
    rw [hw₁]
    rfl
  have hfile : w₁.mem.freeMapFile = w.mem.freeMapFile := by
    show (dropHeap w₁ p).mem.freeMapFile = _
    rw [hw₁]
    rfl
  have hp : ∀ f, w.mem.freeMapFile = some f → f.inode ≠ p := fun f hf => h.fm_addr_ne hi h0 hf
  have hp₁ : ∀ f, w₁.mem.freeMapFile = some f → f.inode ≠ p := by rwa [hfile]
  have hA : ∀ t, Allocated (dropHeap w' p) t ↔ Allocated w t ∧ ¬i.Sectors w.disk t := fun t =>
    (hrel.allocated t).trans (and_congr_left' (hA₁ t))
  have hst := hrel.step.dropHeap hp₁
  rw [hw₁] at hst
  obtain ⟨hdrop, _⟩ := h.dropInode hi h0
  have hsub : InodeOk (Filesys.dropInode w p) (live \ {i.sector}) := by
    refine hdrop.subset Set.sdiff_subset ⟨h.zero, h0.symm⟩ fun q j hj => ⟨hdrop.openLive q j hj, ?_⟩
    obtain ⟨hne, hj'⟩ := dropInode_heap.mp hj
    exact fun heq => hne (h.mem.inj q p j i hj' hi heq)
  have hown : ∀ t, Owned (Filesys.dropInode w p) (live \ {i.sector}) t →
      Owned w (live \ {i.sector}) t := by
    rintro t (ht | ⟨s, hs, k, π, hn, heq, hne⟩)
    · exact .inl ht
    · rw [page_dropInode_other h.mem hi hs.2] at heq
      exact .inr ⟨s, hs, k, π, hn, heq, hne⟩
  refine ⟨hsub.of_fmStep hst fun t ht => (hA t).mpr ⟨hsub.owned_allocated ht,
    h.not_sectors hi (hown t ht)⟩, ?_, hst, hA, fun hs => ?_⟩
  · refine Same.trans ⟨fun s hs => page_dropInode_other h.mem hi hs.2, fun _ _ _ _ _ => rfl,
      fun _ _ _ _ => rfl, fun _ _ _ => rfl⟩ (hst.same hsub)
  · have hs₁ : Synced w₁ := by
      rw [← synced_dropHeap hp₁, hw₁]
      exact (synced_dropHeap hp).mpr hs
    rw [synced_dropHeap (by rwa [hrel.step.freeMapFile])]
    exact hrel.sync hs₁

/-- **`inode_close`** gives a handle back.  With the last one the in-memory inode goes; the sectors of
a removed inode go with it. -/
theorem wp_inodeClose (hP : P.NoFail) (h : InodeOk w live) (hi : w.mem.heap p = some i)
    (h0 : i.openCnt = 1 → i.sector ≠ 0) {Q : Unit → World → Prop}
    (hmore : 1 < i.openCnt → Q () (setInode w p { i with openCnt := i.openCnt - 1 }))
    (hlast : i.openCnt = 1 → i.removed = false → Q () (dropInode w p))
    (hdel : i.openCnt = 1 → i.removed = true → ∀ w', Deleted live p i w w' → Q () w') :
    wp P (inodeClose (some p)) Q E w := by
  have hc := h.mem.count p i hi
  simp only [inodeClose, wp_bind, wp_deref_some hi, wp_assign, hi]
  by_cases hone : i.openCnt = 1
  · have hz := h0 hone
    have hs := h.openLive p i hi
    simp only [hone, sub_self, if_true, wp_bind, wp_getMem, wp_setMem]
    cases hrem : i.removed with
    | false =>
      simp only [Bool.false_eq_true, if_false, wp_bind, wp_getMem, wp_setMem, Function.update_idem]
      exact hlast hone hrem
    | true =>
      simp only [if_true, wp_bind, wp_getMem, wp_setMem]
      -- the inode stays in memory until its sectors are given back
      set i₁ : Inode := ⟨i.sector, 0, true, i.denyWriteCnt, i.data⟩
      set w₁ : World := ⟨{ w.mem with
        heap := Function.update w.mem.heap p (some i₁)
        openInodes := w.mem.openInodes.erase p }, w.disk⟩ with hw₁
      change wp P (freeMapRelease i.sector 1) _ E w₁
      have hp : ∀ f, w.mem.freeMapFile = some f →
          Function.update w.mem.heap p (some i₁) f.inode = w.mem.heap f.inode := fun f hf =>
        Function.update_of_ne (h.fm_addr_ne hi hz hf) _ _
      have hfm₁ : FmOk w₁ := h.fm.of_heap rfl rfl rfl fun f j hf hj =>
        ⟨j, (hp f hf).trans hj, rfl, rfl, rfl⟩
      have hnode₁ : FmNode w₁ = FmNode w := fmNode_congr rfl hp
      have hforest : Ok pageShape (FmNode w₁) (Allocated w₁) w₁.disk i.data.word := by
        rw [hnode₁]
        exact h.open_forest hi hz
      have hdrop : dropHeap w₁ p = dropInode w p := by
        unfold dropHeap dropInode
        rw [hw₁, Function.update_idem]
      have hpage := page_of_open h.mem hi
      refine wp_freeMapRelease hP hfm₁ h.fmOpen (h.alloc _ hs) hz
        (by rw [hnode₁]; exact h.live_not_fmNode hs) fun w₂ hr => ?_
      have hi₂ : w₂.mem.heap p = some i₁ := by
        rw [hr.step.heap]
        exact Function.update_self _ _ _
      have hsec : ∀ k π, Node pageShape k π →
          sec w₂.disk (i.data.word k) π = sec w.disk (i.data.word k) π := fun k π hn =>
        hr.step.sec_eq hforest hn
      have hfinish : ∀ w₃, (bytesToSectors i.data.length).toNat ≤ 16635 →
          Released (PageNeeded (bytesToSectors i.data.length).toNat w₂.disk i.data) w₂ w₃ →
          Q () (dropHeap w₃ p) := fun w₃ hnum hr₃ =>
        hdel hone hrem _ (h.deleted hi hz hdrop ((hr.trans hr₃).congr fun t =>
          or_congr_right (pageNeeded_congr hnum hsec t)))
      by_cases hl : i.data.length ≤ 8517120
      · obtain ⟨len, hlen⟩ := h.open_length hi
        have hnum : bytesToSectors i.data.length = ((len + 511) / 512 : ℕ) := by
          rw [hlen, bytesToSectors_of_le (by omega)]
        have hmapped := h.open_mapped hi hl
        refine wp_inodeDelete hP (i := i₁) hr.step.ok ?_ hi₂ hlen (by omega)
          (hr.forest hfm₁ hforest fun k π hn hne heq => ?_) (fun j hj => ?_) fun w₃ hr₃ => ?_
        · rw [hr.step.freeMapFile]
          exact h.fmOpen
        · rw [← hpage] at hne heq
          exact (h.node _ hs k π hn hne).2 (by rw [show w.disk = w₁.disk from rfl, heq]; exact hs)
        · have hpres := hmapped j (by omega)
          rw [dataSec, hsec _ _ (leaf_node hpres.lt).1]
          exact hpres.ne_zero
        · refine hfinish w₃ (by omega) ?_
          rw [hnum]
          exact hr₃
      · have hhollow := h.hollow _ hs (by rw [hpage]; omega)
        rw [hpage] at hhollow
        have hnum := bytesToSectors_overflow hhollow.1 (toInt32_bounds (Block.word_lt i.data 125)).2
        refine wp_inodeDelete_hollow (i := i₁) hi₂ hhollow.1 ?_
        refine hfinish w₂ (by omega) (.refl hr.step.ok ?_)
        rintro t ⟨k, π, ⟨j, hj, _⟩, _⟩
        omega
  · rw [if_neg (by omega), wp_pure]
    exact hmore (by omega)

end Pintos.Filesys
