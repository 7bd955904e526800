import Pintos.Filesys.InodeHandles
import Pintos.Filesys.Filesys

/-!
# Start and shutdown

A file system is at rest (`AtRest`) when no inode but the free map file is open.  `free_map_open` with
an empty memory makes of the disk of such a state one at rest again, with the same inodes and the same
free map (`wp_freeMapOpen`).  Formatting is a special case: `do_format` makes a file system with two
inodes, the free map file and the root directory, closes it, and `free_map_open` opens it again.
-/

namespace Pintos.Filesys

open PtrForest

variable {P : Policy} {E : Stop → World → Prop} {w w' : World} {live : Set ℕ} {p s : ℕ}

/-- Only the free map file is open, once, and what is on the disk is what memory says. -/
structure AtRest (w : World) (live : Set ℕ) : Prop where
  ok : InodeOk w live
  sync : Synced w
  file : ∃ p, w.mem.freeMapFile = some ⟨p, 0, false⟩
  only : ∀ p i, w.mem.heap p = some i → i = ⟨0, 1, false, 0, w.disk 0⟩

theorem AtRest.page_eq (h : AtRest w live) (s : ℕ) : page w s = w.disk s := by
  by_cases hs : s = 0
  · subst hs
    obtain ⟨p, i, hi, h0⟩ := h.ok.zero_open
    have hpage := page_of_open h.ok.mem hi
    rw [h0] at hpage
    rw [hpage, h.only p i hi]
  · refine page_of_closed (h.ok.mem.openInode_eq_none.mpr fun p i hi => ?_)
    rw [h.only p i hi]
    exact fun heq => hs heq.symm

/-- The memory of a kernel that has opened no file. -/
structure NoFiles (m : Mem) : Prop where
  heap : ∀ p, m.heap p = none
  openInodes : m.openInodes = []

/-- The memory after the inode in sector `s` has been opened as the first one. -/
def firstInode (m : Mem) (s : ℕ) (d : InodeDisk) : Mem :=
  { m with
    heap := Function.update m.heap m.next (some ⟨s, 1, false, 0, d⟩)
    next := m.next + 1
    openInodes := [m.next] }

theorem NoFiles.firstInode_heap {m : Mem} (h : NoFiles m) {d : InodeDisk} {q : ℕ} {i : Inode} :
    (firstInode m s d).heap q = some i ↔ q = m.next ∧ i = ⟨s, 1, false, 0, d⟩ := by
  show Function.update m.heap m.next _ q = some i ↔ _
  by_cases hq : q = m.next
  · rw [hq, Function.update_self]
    simp [eq_comm]
  · rw [Function.update_of_ne hq, h.heap q]
    simp [hq]

theorem NoFiles.firstInode_ok {m : Mem} (h : NoFiles m) (d : InodeDisk) (map : Bitmap)
    (file : Option File) :
    MemOk { firstInode m s d with freeMap := map, freeMapFile := file } := by
  refine ⟨List.nodup_singleton _, fun q => ?_, fun q r i j hi hj _ => ?_, fun q hq => ?_,
    fun q i hi => ?_⟩
  · show q ∈ [m.next] ↔ ∃ i, (firstInode m s d).heap q = some i
    rw [List.mem_singleton]
    constructor
    · exact fun hq => ⟨_, h.firstInode_heap.mpr ⟨hq, rfl⟩⟩
    · rintro ⟨i, hi⟩
      exact (h.firstInode_heap.mp hi).1
  · rw [(h.firstInode_heap.mp hi).1, (h.firstInode_heap.mp hj).1]
  · have hq' : m.next + 1 ≤ q := hq
    show Function.update m.heap m.next _ q = none
    rw [Function.update_of_ne (by omega), h.heap q]
  · rw [(h.firstInode_heap.mp hi).2]
    exact Int.one_pos

/-- Opening the first inode as a file. -/
theorem wp_openFirst (hP : P.NoFail) {m : Mem} (h : NoFiles m) {disk : ℕ → Sector}
    (hs : s < m.fsSize) {Q : Option File → World → Prop}
    (hQ : Q (some ⟨m.next, 0, false⟩) ⟨firstInode m s (disk s), disk⟩) :
    wp P (inodeOpen s) (fun inode => wp P (fileOpen inode) Q E) E ⟨m, disk⟩ := by
  simp only [inodeOpen, fileOpen, wp_bind, wp_getMem, h.openInodes, findOpen, wp_pure, wp_malloc]
  intro b hb
  rw [hP b hb, if_pos rfl]
  simp only [wp_bind, wp_bufferCacheRead, if_pos hs, wp_getMem, wp_setMem, wp_pure]
  rw [wp_malloc]
  intro c hc
  rw [hP c hc]
  simp only [wp_pure, h.openInodes]
  exact hQ

/-- The file system that `free_map_open` makes of the disk of `w`. -/
structure Mounted (live : Set ℕ) (w : World) (m : Mem) (w' : World) : Prop where
  rest : AtRest w' live
  disk : w'.disk = w.disk
  allocated : ∀ t, Allocated w' t ↔ Allocated w t
  cwd : w'.mem.cwd = m.cwd

theorem AtRest.mounted (h : AtRest w live) {m : Mem} (hm : NoFiles m) (hsize : m.fsSize = w.mem.fsSize)
    {map : Bitmap} (hcnt : map.bitCnt = w.mem.freeMap.bitCnt)
    (hbits : ∀ t, t < w.mem.fsSize → map.bits t = w.mem.freeMap.bits t) :
    Mounted live w m ⟨{ firstInode m 0 (w.disk 0) with
      freeMap := map, freeMapFile := some ⟨m.next, 0, false⟩ }, w.disk⟩ := by
  obtain ⟨f, i, hf, hi⟩ := h.ok.fmFile
  obtain rfl := h.only f.inode i hi.heap
  set w' : World := ⟨{ firstInode m 0 (w.disk 0) with
    freeMap := map, freeMapFile := some ⟨m.next, 0, false⟩ }, w.disk⟩ with hw'
  have hmem : MemOk w'.mem := hm.firstInode_ok (w.disk 0) map _
  have hheap : ∀ q j, w'.mem.heap q = some j → q = m.next ∧ j = ⟨0, 1, false, 0, w.disk 0⟩ :=
    fun q j hj => hm.firstInode_heap.mp hj
  have hhead : w'.mem.heap m.next = some ⟨0, 1, false, 0, w.disk 0⟩ :=
    hm.firstInode_heap.mpr ⟨rfl, rfl⟩
  have hA : ∀ t, Allocated w' t ↔ Allocated w t := fun t => by
    show t < m.fsSize ∧ map.bits t = true ↔ _
    rw [hsize]
    exact and_congr_right fun ht => by rw [hbits t ht]
  have hfm : FmOk w' := by
    refine h.ok.fm.of_mem hsize hcnt hbits fun f' hf' => ?_
    obtain rfl : (⟨m.next, 0, false⟩ : File) = f' := Option.some.inj hf'
    exact ⟨f, _, _, hf, hi.heap, hhead, rfl, rfl, rfl⟩
  have hpage : ∀ s, page w' s = w.disk s := by
    intro s
    by_cases hs : s = 0
    · subst hs
      exact page_of_open hmem hhead
    · refine page_of_closed (hmem.openInode_eq_none.mpr fun q j hj => ?_)
      rw [(hheap q j hj).2]
      exact fun heq => hs heq.symm
  have hsame : Same live w w' := ⟨fun s _ => (hpage s).trans (h.page_eq s).symm,
    fun _ _ _ _ _ => rfl, fun _ _ _ _ => rfl, fun _ _ _ => rfl⟩
  refine ⟨⟨h.ok.of_shrink subset_rfl h.ok.zero hmem hfm rfl (fun q j hj => ?_) hsize
    (hsame.shrink h.ok) fun t ht => (hA t).mpr (h.ok.owned_allocated ht), ?_, ⟨_, rfl⟩,
    fun q j hj => (hheap q j hj).2⟩, rfl, hA, rfl⟩
  · rw [(hheap q j hj).2]
    exact h.ok.zero
  · rintro f' j hf' hj t ht
    have ht' : t < w.mem.freeMap.bitCnt := by rwa [← hcnt]
    obtain ⟨_, rfl⟩ := hheap _ _ hj
    rw [show w'.mem.freeMap.bits t = _ from hbits t (by rwa [← h.ok.fm.bitCnt])]
    exact h.sync f _ hf hi.heap t ht'

/-- `bitmap_read` takes the bits of the free map from the file. -/
theorem wp_bitmapRead (hP : P.NoFail) {f : File} {i : Inode} {len : ℕ}
    (hf : w.mem.freeMapFile = some f) (hi : w.mem.heap f.inode = some i)
    (hm : Mapped w.mem.fsSize w.disk i.data) (hlen : i.data.length = len)
    (hle : w.mem.freeMap.byteCnt ≤ len) (hpos : w.mem.freeMap.bitCnt ≠ 0) {Q : Bool → World → Prop}
    (hQ : ∀ map : Bitmap, map.bitCnt = w.mem.freeMap.bitCnt →
      (∀ t, t < map.bitCnt → map.bits t = (byteAt w.disk i.data (t / 8)).toNat.testBit (t % 8)) →
      Q true { w with mem := { w.mem with freeMap := map } }) : wp P bitmapRead Q E w := by
  have hlength : (Bytes.slice (byteAt w.disk i.data) 0 w.mem.freeMap.byteCnt).length =
      w.mem.freeMap.byteCnt := by simp [Bytes.slice]
  simp only [bitmapRead, wp_bind, wp_getMem, hf]
  rw [if_neg hpos, wp_bind, ← Int.natCast_zero]
  refine wp_inodeReadAt hP hi hm hlen (Nat.two_pow_pos 31) ?_
  rw [Nat.sub_zero, Nat.min_eq_left hle]
  simp only [wp_bind, wp_getMem, wp_setMem, wp_pure]
  rw [decide_eq_true hlength]
  refine hQ _ rfl fun t ht => ?_
  have ht' : t < w.mem.freeMap.bitCnt := ht
  show (decide (t < w.mem.freeMap.bitCnt) && _) = _
  rw [decide_eq_true ht', Bool.true_and, Bytes.overlay_slice (Bitmap.byte_lt ht'), Nat.zero_add]

/-- **Mounting.**  `free_map_open` with an empty memory finds on the disk what was there at rest. -/
theorem wp_freeMapOpen (hP : P.NoFail) (h : AtRest w live) {m : Mem} (hm : NoFiles m)
    (hsize : m.fsSize = w.mem.fsSize) (hcnt : m.freeMap.bitCnt = m.fsSize) {Q : Unit → World → Prop}
    (hQ : ∀ w', Mounted live w m w' → Q () w') : wp P freeMapOpen Q E ⟨m, w.disk⟩ := by
  obtain ⟨f, i, hf, hi⟩ := h.ok.fmFile
  obtain rfl := h.only f.inode i hi.heap
  have hcnt' : m.freeMap.bitCnt = w.mem.freeMap.bitCnt := by rw [hcnt, hsize, h.ok.fm.bitCnt]
  have hbyteCnt := Bitmap.byteCnt_congr hcnt'
  have hfull : (w.mem.freeMap.byteCnt : ℤ) ≤ InodeDisk.length (w.disk 0) := hi.size
  obtain ⟨len, hlen⟩ : ∃ len : ℕ, InodeDisk.length (w.disk 0) = len :=
    ⟨_, (Int.toNat_of_nonneg (by omega)).symm⟩
  have h0 : 0 < m.fsSize := by
    rw [hsize]
    exact h.ok.fm.zero.1
  rw [freeMapOpen]
  simp only [wp_bind]
  refine wp_openFirst hP hm h0 ?_
  simp only [wp_bind, wp_getMem, wp_setMem]
  obtain ⟨m₁, hm₁⟩ : ∃ m₁ : Mem, m₁ = { firstInode m 0 (w.disk 0) with
      freeMapFile := some ⟨m.next, 0, false⟩ } := ⟨_, rfl⟩
  rw [← hm₁]
  have hhead : m₁.heap m.next = some ⟨0, 1, false, 0, w.disk 0⟩ := by
    rw [hm₁]
    exact hm.firstInode_heap.mpr ⟨rfl, rfl⟩
  have hfile : m₁.freeMapFile = some ⟨m.next, 0, false⟩ := by rw [hm₁]
  have hmap : m₁.freeMap = m.freeMap := by
    rw [hm₁]
    rfl
  have hsize₁ : m₁.fsSize = w.mem.fsSize := by
    rw [hm₁]
    exact hsize
  refine wp_bitmapRead (w := ⟨m₁, w.disk⟩) hP hfile hhead ?_ hlen ?_ ?_ fun map hcnt₁ hbits => ?_
  · show Mapped m₁.fsSize w.disk (w.disk 0)
    rw [hsize₁]
    exact hi.mapped
  · show m₁.freeMap.byteCnt ≤ len
    rw [hmap]
    omega
  · show m₁.freeMap.bitCnt ≠ 0
    rw [hmap]
    omega
  · rw [if_pos rfl, wp_pure]
    have hcnt₂ : map.bitCnt = w.mem.freeMap.bitCnt := by
      rw [hcnt₁, ← hcnt']
      exact congrArg _ hmap
    have hbits₂ : ∀ t, t < w.mem.fsSize → map.bits t = w.mem.freeMap.bits t := fun t ht => by
      have ht' : t < w.mem.freeMap.bitCnt := by rwa [h.ok.fm.bitCnt]
      rw [hbits t (by rwa [hcnt₂])]
      exact h.sync f _ hf hi.heap t ht'
    rw [hm₁]
    exact hQ _ (h.mounted hm hsize hcnt₂ hbits₂)

/-! ### Formatting -/

theorem toInt32_of_lt {v : ℕ} (h : v < 2 ^ 31) : toInt32 v = v := if_pos h

theorem Bitmap.byteCnt_lt {b : Bitmap} (h : b.bitCnt < 2 ^ 32) : b.byteCnt < 2 ^ 30 := by
  unfold byteCnt
  omega

theorem FmStep.of_data (h : FmOk w) {disk' : ℕ → Sector} (hd : ∀ s, ¬FmData w s → disk' s = w.disk s) :
    FmStep w { w with disk := disk' } :=
  ⟨rfl, rfl, hd, h.data_of_data hd, h.of_data hd⟩

/-- The state of `free_map_create` after the free map file has been opened. -/
theorem PageCreated.freeMapFile {len : ℤ} (h : PageCreated w 0 len false w') (hw : FmOk w)
    (hlen : len = (w.mem.freeMap.byteCnt : ℕ)) (hkeep : FmKeep w w') (hm : NoFiles w'.mem) :
    InodeOk ⟨{ firstInode w'.mem 0 (w'.disk 0) with
      freeMapFile := some ⟨w'.mem.next, 0, false⟩ }, w'.disk⟩ {0} := by
  have hbyteCnt := Bitmap.byteCnt_congr hkeep.bitCnt
  have hlt := Bitmap.byteCnt_lt (b := w.mem.freeMap) (by rw [hw.bitCnt]; exact hw.fsSize)
  have hlength : InodeDisk.length (w'.disk 0) = (w'.mem.freeMap.byteCnt : ℕ) := by
    rw [h.length, hlen, hbyteCnt]
  have hmax : len ≤ 8517120 := by
    by_contra hbig
    have := (h.hollow (by omega) (by omega)).1
    omega
  set v : World := ⟨{ firstInode w'.mem 0 (w'.disk 0) with
    freeMapFile := some ⟨w'.mem.next, 0, false⟩ }, w'.disk⟩
  have hmem : MemOk v.mem := hm.firstInode_ok _ w'.mem.freeMap _
  have hheap : v.mem.heap w'.mem.next = some ⟨0, 1, false, 0, w'.disk 0⟩ :=
    hm.firstInode_heap.mpr ⟨rfl, rfl⟩
  have hpage : page v 0 = w'.disk 0 := page_of_open hmem hheap
  have hfree : ∀ k π, Node pageShape k π → sec w'.disk ((w'.disk 0).word k) π ≠ 0 →
      Allocated v (sec w'.disk ((w'.disk 0).word k) π) := fun k π hn hne => (h.fresh k π hn hne).2
  have hfm : FmOk v := by
    refine ⟨hkeep.ok.bitCnt, hkeep.ok.fsSize, hkeep.ok.zero, fun f hf => ?_⟩
    obtain rfl : (⟨w'.mem.next, 0, false⟩ : File) = f := Option.some.inj hf
    refine ⟨_, hheap, rfl, rfl, ?_, ?_, h.mapped hmax, fun k π hn hne => ⟨hfree k π hn hne, id⟩, h.inj⟩
    · exact hlength.ge
    · show InodeDisk.length (w'.disk 0) ≤ _
      rw [h.length]
      exact hmax
  refine ⟨hmem, hfm, rfl, rfl, fun q j hj => ?_, ?_, ?_, ?_, ?_, ?_, ?_, ?_, ?_⟩
  · rw [(hm.firstInode_heap.mp hj).2]
    rfl
  · rintro s rfl
    exact hkeep.ok.zero
  · rintro s rfl k π hn hne
    rw [hpage] at hne ⊢
    exact ⟨hfree k π hn hne, hne⟩
  · rintro s rfl s' rfl k π k' π' hn hn' heq hne
    rw [hpage] at heq hne
    exact ⟨rfl, h.inj k π k' π' hn hn' heq hne⟩
  · rintro s rfl
    exact .refl _
  · rintro s rfl
    rw [hpage, hlength]
    exact Int.natCast_nonneg _
  · rintro s rfl _
    show Mapped _ _ (page v 0)
    rw [hpage]
    exact h.mapped hmax
  · rintro s rfl hbig
    rw [hpage, h.length] at hbig
    omega
  · rintro s rfl hne
    exact absurd rfl hne

/-- **`free_map_create`** makes a file system with one inode. -/
theorem wp_freeMapCreate (hP : P.NoFail) (h : FmOk w) (hm : NoFiles w.mem) {Q : Unit → World → Prop}
    (hQ : ∀ w', AtRest w' {0} → (∀ t, Owned w' {0} t → t = 0 ∨ ¬Allocated w t) →
      (∀ t, Allocated w t → Allocated w' t) → w'.mem.cwd = w.mem.cwd → Q () w') :
    wp P freeMapCreate Q (fun _ _ => True) w := by
  have hlt := Bitmap.byteCnt_lt (b := w.mem.freeMap) (by rw [h.bitCnt]; exact h.fsSize)
  have hlen : toInt32 w.mem.freeMap.byteCnt = (w.mem.freeMap.byteCnt : ℕ) := toInt32_of_lt (by omega)
  rw [freeMapCreate]
  simp only [wp_bind, wp_getMem, hlen]
  refine wp_inodeCreate_page hP h h.zero.1 (by omega) (by omega) (fun _ _ _ _ => trivial)
    (fun d w₁ hr => ?_) fun d w₁ _ => by simp
  have hnew := hr.created h.zero (by omega) (by omega)
  have hkeep : FmKeep w { w₁ with disk := Function.update w₁.disk 0 d } := by
    refine hr.keep.trans (hr.keep.ok.keep_write ?_ d)
    rintro ⟨_, _, _, _, _, _, _, _, hne⟩
    exact hne rfl
  have hheap : ({ w₁ with disk := Function.update w₁.disk 0 d } : World).mem.heap = w.mem.heap := hr.heap
  generalize ({ w₁ with disk := Function.update w₁.disk 0 d } : World) = w₂ at hnew hkeep hheap
  have hfiles : NoFiles w₂.mem := by
    refine ⟨fun q => by rw [hheap, hm.heap q], ?_⟩
    rw [hkeep.mem]
    exact hm.openInodes
  have hok := hnew.freeMapFile h rfl hkeep hfiles
  rw [if_neg (by simp), wp_bind]
  simp only [wp_bind]
  refine wp_openFirst hP hfiles (by rw [hkeep.fsSize]; exact h.zero.1) ?_
  simp only [wp_bind, wp_getMem, wp_setMem]
  generalize hv : (⟨{ firstInode w₂.mem 0 (w₂.disk 0) with
    freeMapFile := some ⟨w₂.mem.next, 0, false⟩ }, w₂.disk⟩ : World) = v at hok
  refine writesMap_bitmapWrite hP v _ _ hok.fm hok.fmOpen fun disk' hd hsync => ?_
  rw [if_pos rfl, wp_pure]
  have hdisk₂ : v.disk = w₂.disk := by rw [← hv]
  have hpage : page v 0 = w₂.disk 0 := by
    have hhead : v.mem.heap w₂.mem.next = some ⟨0, 1, false, 0, w₂.disk 0⟩ := by
      rw [← hv]
      exact hfiles.firstInode_heap.mpr ⟨rfl, rfl⟩
    exact page_of_open hok.mem hhead
  have hst := FmStep.of_data hok.fm hd
  have hsame := hst.same hok
  have hdisk : disk' 0 = w₂.disk 0 := by
    rw [hd 0 (by rintro ⟨_, _, _, _, _, _, _, hne⟩; exact hne rfl), ← hv]
  refine hQ _ ⟨hok.of_fmStep hst fun t ht => hok.owned_allocated ht, hsync, ⟨w₂.mem.next, ?_⟩,
    fun q j hj => ?_⟩ (fun t ht => ?_) (fun t ht => ?_) ?_
  · rw [← hv]
  · rw [← hv] at hj
    rw [(hfiles.firstInode_heap.mp hj).2]
    show _ = (⟨0, 1, false, 0, disk' 0⟩ : Inode)
    rw [hdisk]
  · rw [hsame.owned] at ht
    rcases ht with ht | ⟨s, hs, k, π, hn, rfl, hne⟩
    · exact .inl ht
    · obtain rfl : s = 0 := hs
      rw [hpage, hdisk₂] at hne ⊢
      exact .inr (hnew.fresh k π hn hne).1
  · rw [← hv]
    exact hkeep.mono t ht
  · rw [← hv]
    show w₂.mem.cwd = _
    rw [hkeep.mem]

/-- The root directory that `dir_create` makes: 16 empty entries, the first of which holds the root's
own sector.  The rest of that entry is what an uninitialised object held. -/
structure RootDir (P : Policy) (w : World) : Prop where
  length : InodeDisk.length (w.disk rootDirSector) = 320
  isDir : InodeDisk.isDir (w.disk rootDirSector) = true
  byte : ∃ e : DirEntry, P.junk e ∧ ∀ pos, byteAt w.disk (w.disk rootDirSector) pos =
    Bytes.splice (fun _ => 0) 0 20 (e.setInodeSector rootDirSector) pos
  needed : ∀ k π, Node pageShape k π → sec w.disk ((w.disk rootDirSector).word k) π ≠ 0 →
    NeededNode 1 k π

/-- `dir_create` for the root directory. -/
theorem wp_dirCreate_root (hP : P.NoFail) (h : AtRest w {0}) (h1 : Allocated w 1)
    (hno : ¬Owned w {0} 1) {Q : Bool → World → Prop} (hfalse : ∀ w', Q false w')
    (hQ : ∀ w', AtRest w' {1, 0} → RootDir P w' → w'.mem.cwd = w.mem.cwd → Q true w') :
    wp P (dirCreate rootDirSector 16) Q (fun _ _ => True) w := by
  have hlen : toInt32 (16 * 20) = 320 := toInt32_of_lt (by omega)
  rw [dirCreate, hlen]
  simp only [wp_bind]
  refine wp_inodeCreate hP h.ok h1 hno (by omega) (by omega) (fun _ _ _ => trivial)
    (fun w₁ hc => ?_) fun _ w₁ _ _ => by simpa using hfalse w₁
  simp only [Bool.not_true, Bool.false_eq_true, if_false, wp_bind]
  have hclosed : w₁.mem.openInode 1 = none := by
    refine hc.ok.mem.openInode_eq_none.mpr fun q j hj => ?_
    rw [hc.heap] at hj
    rw [h.only q j hj]
    exact Nat.zero_ne_one
  refine wp_inodeOpen hP hc.ok (Set.mem_insert 1 {0}) fun p w₂ ho => ?_
  obtain ⟨i, hi, hs, _⟩ | ⟨_, rfl, rfl⟩ := ho.inode
  · rw [← hs, hc.ok.mem.openInode_of_heap hi] at hclosed
    exact absurd hclosed (by simp)
  set p := w₁.mem.next
  have hp : (newInode w₁ 1).mem.heap p = some ⟨1, 1, false, 0, w₁.disk 1⟩ := Function.update_self _ _ _
  have hlen₁ : InodeDisk.length (w₁.disk 1) = 320 := hc.page.length
  simp only [dirOpen, wp_bind, wp_malloc]
  intro b hb
  rw [hP b hb]
  simp only [wp_pure, wp_junk, wp_bind]
  intro e he
  change wp P (inodeWriteAt p _ ((20 : ℕ) : ℤ) ((0 : ℕ) : ℤ)) _ _ _
  refine wp_inodeWriteAt hP ho.ok hp Nat.one_ne_zero (by show InodeDisk.length (w₁.disk 1) ≤ _; omega)
    rfl (by omega) (by omega) (fun w₃ d hw => ?_) fun _ w₃ d hw => ?_
  · have hle : ((0 + 20 : ℕ) : ℤ) ≤ InodeDisk.length (w₁.disk 1) := by omega
    have hmem₃ := hw.inPlace hle
    have hp₃ := hw.open_self
    have hd : d = w₁.disk 1 := by
      rw [hmem₃, hp] at hp₃
      exact congrArg Inode.data (Option.some.inj hp₃).symm
    have hdisk₃ : w₃.disk 1 = w₁.disk 1 := (hw.clean rfl).trans hd
    have hzero₃ : w₃.disk 0 = w.disk 0 := hw.zero.trans hc.zero
    simp only [dirClose]
    refine wp_inodeClose hP hw.ok hp₃ (fun _ => Nat.one_ne_zero) (fun hcnt => ?_) (fun _ _ => ?_)
      fun _ hrem => absurd hrem (by simp)
    · exact absurd hcnt (by simp)
    · obtain ⟨hok, _⟩ := hw.ok.dropInode hp₃ Nat.one_ne_zero
      have hsync : Synced w₃ := hw.keep.sync ((hc.keep.sync h.sync).newInode hc.ok)
      have hkeep : w₁.mem.freeMapFile = w.mem.freeMapFile ∧ w₁.mem.cwd = w.mem.cwd := by
        rw [hc.keep.mem]
        exact ⟨rfl, rfl⟩
      have hlast : (dropInode w₃ p).mem.freeMapFile = w.mem.freeMapFile ∧
          (dropInode w₃ p).mem.cwd = w.mem.cwd := by
        show w₃.mem.freeMapFile = _ ∧ w₃.mem.cwd = _
        rw [hmem₃]
        exact hkeep
      have hdisk : (dropInode w₃ p).disk 1 = w₁.disk 1 := hdisk₃
      refine hQ _ ⟨hok, hsync.dropInode hw.ok hp₃ Nat.one_ne_zero, ?_, fun q j hj => ?_⟩
        ⟨?_, ?_, ⟨e, he, ?_⟩, fun k π hn hne => ?_⟩ hlast.2
      · rw [hlast.1]
        exact h.file
      · obtain ⟨hne, hj⟩ := dropInode_heap.mp hj
        rw [hmem₃] at hj
        have hj' : Function.update w₁.mem.heap p _ q = some j := hj
        rw [Function.update_of_ne hne, hc.heap] at hj'
        rw [h.only q j hj', ← hzero₃]
        rfl
      · rw [hdisk]
        exact hlen₁
      · rw [hdisk]
        exact hc.page.isDir
      · intro pos
        rw [hdisk]
        have hbyte := hw.byte pos
        rw [hd] at hbyte
        refine hbyte.trans ?_
        congr 1
        funext k
        exact hc.page.byte k
      · rw [hdisk, ← hd] at hne
        refine (hw.needed k π hn hne).elim (fun hold => ?_) id
        have hone : (bytesToSectors 320).toNat = 1 := by decide
        rw [← hone]
        exact hc.page.needed k π hn hold
  · have hpast : InodeDisk.length (w₁.disk 1) < ((0 + 20 : ℕ) : ℤ) := hw.past
    omega

/-! ### Shutdown and start -/

/-- **`free_map_close`** at rest closes the last file. -/
theorem wp_freeMapClose (h : AtRest w live) {Q : Unit → World → Prop}
    (hQ : ∀ m : Mem, NoFiles m → m.fsSize = w.mem.fsSize → m.freeMap = w.mem.freeMap →
      m.cwd = w.mem.cwd → Q () ⟨m, w.disk⟩) : wp P freeMapClose Q E w := by
  obtain ⟨p, hp⟩ := h.file
  obtain ⟨f, i, hf, hi⟩ := h.ok.fmFile
  obtain rfl : f = ⟨p, 0, false⟩ := Option.some.inj (hf.symm.trans hp)
  obtain rfl := h.only p i hi.heap
  have hheap : w.mem.heap p = some ⟨0, 1, false, 0, w.disk 0⟩ := hi.heap
  have honly : ∀ q j, w.mem.heap q = some j → q = p := fun q j hj =>
    h.ok.mem.inj q p j _ hj hheap (by rw [h.only q j hj])
  have hempty : NoFiles (dropInode w p).mem := by
    refine ⟨fun q => ?_, List.eq_nil_iff_forall_not_mem.mpr fun q hq => ?_⟩
    · cases hq : (dropInode w p).mem.heap q with
      | none => rfl
      | some j =>
        obtain ⟨hne, hj⟩ := dropInode_heap.mp hq
        exact absurd (honly q j hj) hne
    · obtain ⟨j, hj⟩ := (h.ok.mem.drop.listed q).mp hq
      obtain ⟨hne, hj⟩ := dropInode_heap.mp hj
      exact hne (honly q j hj)
  simp only [freeMapClose, wp_bind, wp_getMem, hp, fileClose, fileAllowWrite, Bool.false_eq_true,
    if_false, wp_pure, inodeClose, wp_deref_some hheap, wp_assign, hheap, sub_self, if_true, wp_setMem,
    Function.update_idem]
  exact hQ _ ⟨hempty.heap, hempty.openInodes⟩ rfl rfl rfl

theorem wp_freeMapInit (hP : P.NoFail) {Q : Unit → World → Prop}
    (hQ : ∀ map : Bitmap, map.bitCnt = w.mem.fsSize →
      (∀ t, t < w.mem.fsSize → map.bits t = decide (t ≤ 1)) →
      Q () { w with mem := { w.mem with freeMap := map } }) : wp P freeMapInit Q E w := by
  simp only [freeMapInit, wp_bind, wp_malloc]
  intro a ha
  rw [hP a ha]
  simp only [Bool.not_true, Bool.false_eq_true, if_false, wp_bind, wp_malloc]
  intro b hb
  rw [hP b hb]
  simp only [Bool.not_true, Bool.false_eq_true, if_false, wp_bind, wp_junk, wp_getMem, wp_setMem]
  intro g _
  refine hQ _ rfl fun t ht => ?_
  show Function.update (Function.update
    (Bitmap.create w.mem.fsSize fun i => (g (i / 8)).toNat.testBit (i % 8)).bits 0 true) 1 true t = _
  by_cases h1 : t = 1
  · simp [h1]
  · by_cases h0 : t = 0
    · simp [h0]
    · rw [Function.update_of_ne h1, Function.update_of_ne h0]
      have hlt : 0 ≤ t ∧ t < 0 + w.mem.fsSize := by omega
      have hgt : ¬t ≤ 1 := by omega
      simp [Bitmap.create, Bitmap.setMultiple, ht, hgt]

/-- The machine before the file system is started, with room on the device for the two sectors that
every file system has. -/
structure Blank (w : World) : Prop where
  heap : ∀ p, w.mem.heap p = none
  freeMapFile : w.mem.freeMapFile = none
  cwd : w.mem.cwd = none
  size : 2 ≤ w.mem.fsSize ∧ w.mem.fsSize < 2 ^ 32

/-- A freshly formatted file system. -/
structure Formatted (P : Policy) (w : World) : Prop where
  rest : AtRest w {1, 0}
  root : RootDir P w
  cwd : w.mem.cwd = none

theorem RootDir.of_disk (h : RootDir P w) (hd : w'.disk = w.disk) : RootDir P w' := by
  obtain ⟨hlen, hdir, hbyte, hneeded⟩ := h
  rw [← hd] at hlen hdir hbyte hneeded
  exact ⟨hlen, hdir, hbyte, hneeded⟩

/-- **`filesys_init (true)`** either stops or makes a freshly formatted file system. -/
theorem wp_filesysInit_format (hP : P.NoFail) (h : Blank w) :
    wp P (filesysInit true) (fun _ w' => Formatted P w') (fun _ _ => True) w := by
  obtain ⟨hsize, hsize'⟩ := h.size
  simp only [filesysInit, wp_bind, wp_getMem, wp_setMem]
  refine wp_freeMapInit hP fun map hcnt hbits => ?_
  obtain ⟨w₁, hw₁⟩ : ∃ w₁ : World, w₁ =
      ⟨{ w.mem with openInodes := [], freeMap := map }, w.disk⟩ := ⟨_, rfl⟩
  have hfiles : NoFiles w₁.mem := by
    rw [hw₁]
    exact ⟨h.heap, rfl⟩
  have hmap : w₁.mem.freeMap = map ∧ w₁.mem.fsSize = w.mem.fsSize ∧ w₁.mem.cwd = none := by
    rw [hw₁]
    exact ⟨rfl, rfl, h.cwd⟩
  have hA : ∀ t, Allocated w₁ t ↔ t ≤ 1 := by
    intro t
    unfold Allocated
    rw [hmap.1, hmap.2.1]
    constructor
    · rintro ⟨ht, hb⟩
      rw [hbits t ht] at hb
      exact of_decide_eq_true hb
    · intro ht
      have hlt : t < w.mem.fsSize := by omega
      exact ⟨hlt, by rw [hbits t hlt]; exact decide_eq_true ht⟩
  have hfm : FmOk w₁ := by
    refine ⟨?_, ?_, (hA 0).mpr (Nat.zero_le 1), fun f hf => ?_⟩
    · rw [hmap.1, hmap.2.1, hcnt]
    · rw [hmap.2.1]
      exact hsize'
    · rw [hw₁] at hf
      have hf' : w.mem.freeMapFile = some f := hf
      rw [h.freeMapFile] at hf'
      exact absurd hf' (by simp)
  rw [if_pos trivial]
  change wp P _ _ _ ⟨{ w.mem with openInodes := [], freeMap := map }, w.disk⟩
  rw [← hw₁]
  simp only [doFormat, wp_bind]
  refine wp_freeMapCreate hP hfm hfiles fun w₂ hrest hown hmono hcwd => ?_
  have hno : ¬Owned w₂ {0} 1 := fun ho => by
    rcases hown 1 ho with h1 | h1
    · exact Nat.one_ne_zero h1
    · exact h1 ((hA 1).mpr (le_refl 1))
  refine wp_dirCreate_root hP hrest (hmono 1 ((hA 1).mpr (le_refl 1))) hno (fun w₃ => by simp)
    fun w₃ hrest₃ hroot hcwd₃ => ?_
  simp only [Bool.not_true, Bool.false_eq_true, if_false]
  refine wp_freeMapClose hrest₃ fun m hm hsz hfree hc => ?_
  refine wp_freeMapOpen hP hrest₃ hm hsz (by rw [hfree, hsz, hrest₃.ok.fm.bitCnt]) fun w₄ hmt => ?_
  exact ⟨hmt.rest, hroot.of_disk hmt.disk, by rw [hmt.cwd, hc, hcwd₃, hcwd, hmap.2.2]⟩

/-- **`filesys_init (false)`** on the disk of a file system at rest. -/
theorem wp_filesysInit_mount (hP : P.NoFail) (h : AtRest w live) {m : Mem}
    (hheap : ∀ p, m.heap p = none) (hsize : m.fsSize = w.mem.fsSize) {Q : Unit → World → Prop}
    (hQ : ∀ w', Mounted live w m w' → Q () w') : wp P (filesysInit false) Q E ⟨m, w.disk⟩ := by
  simp only [filesysInit, wp_bind, wp_getMem, wp_setMem]
  refine wp_freeMapInit hP fun map hcnt _ => ?_
  simp only [Bool.false_eq_true, if_false]
  exact wp_freeMapOpen hP h (m := { m with openInodes := [], freeMap := map }) ⟨hheap, rfl⟩ hsize hcnt
    fun w' hm => hQ w' ⟨hm.rest, hm.disk, hm.allocated, hm.cwd⟩

/-- A new machine with an empty device of `n` sectors. -/
def newMachine (n : ℕ) : World :=
  ⟨⟨n, fun _ => none, 0, [], ⟨0, fun _ => false⟩, none, none⟩, fun _ => Block.zero⟩

theorem newMachine_blank {n : ℕ} (h : 2 ≤ n) (h' : n < 2 ^ 32) : Blank (newMachine n) :=
  ⟨fun _ => rfl, rfl, rfl, h, h'⟩

/-- Memory is always there, and uninitialised objects hold zeros. -/
def plainEnv : Env := ⟨fun _ => true, fun _ _ => 0, false⟩

theorem plainEnv_memory : Policy.memory.Admits plainEnv := ⟨fun _ => rfl, fun _ => trivial⟩

/-- One run with memory for every allocation. -/
theorem runs_plain {α : Type} (p : Fs α) (w : World) {r : Except Stop α}
    (h : (runArray p plainEnv w).1 = r) : Runs .memory p w r (runArray p plainEnv w).2.2 := by
  rw [← h]
  exact runs_runArray p plainEnv_memory fun _ => trivial

/-- A device of 16 sectors, formatted. -/
def formatted16 : World := (runArray (filesysInit true) plainEnv (newMachine 16)).2.2

theorem runs_formatted16 : Runs .memory (filesysInit true) (newMachine 16) (.ok ()) formatted16 :=
  runs_plain _ _ (by decide +kernel)

end Pintos.Filesys
