import Pintos.Filesys.Reserve

/-!
# The invariant of the inode layer

`InodeOk w live` says that the sectors in `live` are the headers of well formed inodes: every inode has
the blocks below its length, no sector belongs to two of them, and what lies behind the end of a file
reads as zeros.  (An inode longer than the 16635 blocks of a page has no blocks at all: it was created
with a length near the largest `off_t`, where the number of its sectors overflows.)  An inode that is open is
described by its in-memory copy (`page`), which may be ahead of its header on the disk: a write that fails
half-way leaves new pointers in memory only.

The steps are those of `inode_write_at`: the page grows (`InodeOk.of_grown`), the new length is stored
(`InodeOk.of_commit`), data blocks are written (`InodeOk.of_written`).  `Others` is what each leaves
of the other inodes.
-/

namespace Pintos.Filesys

open PtrForest

/-! ### Open inodes -/

/-- `open_inodes` lists the in-memory inodes, and no two of them have one sector. -/
structure MemOk (m : Mem) : Prop where
  nodup : m.openInodes.Nodup
  listed : ∀ p, p ∈ m.openInodes ↔ ∃ i, m.heap p = some i
  inj : ∀ p q i j, m.heap p = some i → m.heap q = some j → i.sector = j.sector → p = q
  fresh : ∀ p, m.next ≤ p → m.heap p = none
  count : ∀ p i, m.heap p = some i → 0 < i.openCnt

/-- The address of the open inode of a sector. -/
def Mem.openInode (m : Mem) (s : ℕ) : Option ℕ :=
  m.openInodes.find? fun p => decide ((m.heap p).map Inode.sector = some s)

/-- The header of an inode, as the code sees it: the in-memory copy if it is open. -/
def page (w : World) (s : ℕ) : InodeDisk :=
  match w.mem.openInode s with
  | some p => ((w.mem.heap p).map Inode.data).getD (w.disk s)
  | none => w.disk s

section

variable {m : Mem} {w w' : World} {p s : ℕ} {i : Inode}

theorem MemOk.openInode_of_heap (h : MemOk m) (hi : m.heap p = some i) :
    m.openInode i.sector = some p := by
  have hmem : p ∈ m.openInodes := (h.listed p).mpr ⟨i, hi⟩
  cases hfind : m.openInode i.sector with
  | none =>
    have := List.find?_eq_none.mp hfind p hmem
    simp [hi] at this
  | some q =>
    have hq := List.find?_some hfind
    obtain ⟨j, hj⟩ := (h.listed q).mp (List.mem_of_find?_eq_some hfind)
    rw [hj] at hq
    rw [h.inj p q i j hi hj (by simpa using Eq.symm (by simpa using hq))]

theorem MemOk.heap_of_openInode (h : MemOk m) (hp : m.openInode s = some p) :
    ∃ i, m.heap p = some i ∧ i.sector = s := by
  obtain ⟨i, hi⟩ := (h.listed p).mp (List.mem_of_find?_eq_some hp)
  have := List.find?_some hp
  rw [hi] at this
  exact ⟨i, hi, by simpa using this⟩

theorem MemOk.openInode_eq_none (h : MemOk m) :
    m.openInode s = none ↔ ∀ p i, m.heap p = some i → i.sector ≠ s := by
  constructor
  · intro hnone p i hi heq
    rw [← heq, h.openInode_of_heap hi] at hnone
    exact absurd hnone (by simp)
  · intro hno
    cases hp : m.openInode s with
    | none => rfl
    | some p =>
      obtain ⟨i, hi, heq⟩ := h.heap_of_openInode hp
      exact absurd heq (hno p i hi)

theorem page_of_open (h : MemOk w.mem) (hi : w.mem.heap p = some i) : page w i.sector = i.data := by
  rw [page, h.openInode_of_heap hi]
  simp [hi]

theorem page_of_closed (h : w.mem.openInode s = none) : page w s = w.disk s := by
  rw [page, h]

/-- The page of an inode depends on its in-memory copy, or on its sector. -/
theorem page_congr (h : MemOk w.mem) (h' : MemOk w'.mem)
    (hheap : ∀ p i, w.mem.heap p = some i → i.sector = s →
      ∃ i', w'.mem.heap p = some i' ∧ i'.sector = s ∧ i'.data = i.data)
    (hback : ∀ p i', w'.mem.heap p = some i' → i'.sector = s → ∃ i, w.mem.heap p = some i ∧ i.sector = s)
    (hdisk : w'.disk s = w.disk s) : page w' s = page w s := by
  cases hp : w.mem.openInode s with
  | some p =>
    obtain ⟨i, hi, rfl⟩ := h.heap_of_openInode hp
    obtain ⟨i', hi', hs, hd⟩ := hheap p i hi rfl
    rw [page_of_open h hi, ← hd, ← hs, page_of_open h' hi']
  | none =>
    have hnone : w'.mem.openInode s = none := by
      rw [h'.openInode_eq_none]
      intro p i' hi' hs
      obtain ⟨i, hi, hs'⟩ := hback p i' hi' hs
      exact (h.openInode_eq_none.mp hp) p i hi hs'
    rw [page_of_closed hp, page_of_closed hnone, hdisk]

end

/-! ### The invariant -/

/-- The header that a reader of the disk would find; the free map file is open all the time, and its
sector is not read. -/
def header (w : World) (s : ℕ) : InodeDisk := if s = 0 then page w 0 else w.disk s

/-- The sector belongs to one of the inodes. -/
def Owned (w : World) (live : Set ℕ) (t : ℕ) : Prop :=
  t ∈ live ∨ ∃ s ∈ live, ∃ k π, Node pageShape k π ∧ sec w.disk ((page w s).word k) π = t ∧ t ≠ 0

/-- The invariant of the inode layer. -/
structure InodeOk (w : World) (live : Set ℕ) : Prop where
  mem : MemOk w.mem
  fm : FmOk w
  fmOpen : w.mem.freeMapFile.isSome = true
  zero : 0 ∈ live
  openLive : ∀ p i, w.mem.heap p = some i → i.sector ∈ live
  alloc : ∀ s ∈ live, Allocated w s
  node : ∀ s ∈ live, ∀ k π, Node pageShape k π → sec w.disk ((page w s).word k) π ≠ 0 →
    Allocated w (sec w.disk ((page w s).word k) π) ∧ sec w.disk ((page w s).word k) π ∉ live
  inj : ∀ s ∈ live, ∀ s' ∈ live, ∀ k π k' π', Node pageShape k π → Node pageShape k' π' →
    sec w.disk ((page w s).word k) π = sec w.disk ((page w s').word k') π' →
    sec w.disk ((page w s).word k) π ≠ 0 → s = s' ∧ k = k' ∧ π = π'
  le : ∀ s ∈ live, PageLe (header w s) (page w s)
  length : ∀ s ∈ live, 0 ≤ (page w s).length
  mapped : ∀ s ∈ live, (page w s).length ≤ 8517120 → Mapped w.mem.fsSize w.disk (header w s)
  hollow : ∀ s ∈ live, 8517120 < (page w s).length →
    2147483136 < (page w s).length ∧ ∀ k, k < 125 → (page w s).word k = 0
  tail : ∀ s ∈ live, s ≠ 0 → ∀ pos : ℕ, (page w s).length ≤ pos →
    byteAt w.disk (page w s) pos = 0

theorem PageLe.sec_eq {disk : ℕ → Sector} {d d' : InodeDisk} (h : PageLe d d') {k : ℕ} {π : List ℕ}
    (hk : k < 125) (h0 : sec disk (d.word k) π ≠ 0) :
    sec disk (d'.word k) π = sec disk (d.word k) π := by
  rcases h.word k hk with hw | hw
  · rw [hw, sec_zero] at h0
    exact absurd rfl h0
  · rw [hw]

theorem PageLe.present {fsSize : ℕ} {disk : ℕ → Sector} {d d' : InodeDisk} (h : PageLe d d') {i : ℕ}
    (hp : Present fsSize disk d i) : Present fsSize disk d' i := by
  have hroot : leafRoot i < 125 := (leaf_node hp.lt).1.root
  have hsec : ∀ m, sec disk (d'.word (leafRoot i)) ((leafPath i).take m) =
      sec disk (d.word (leafRoot i)) ((leafPath i).take m) := fun m =>
    h.sec_eq hroot (sec_take_ne_zero hp.ne_zero m)
  refine ⟨hp.lt, ?_, fun m => ?_⟩
  · rw [dataSec, h.sec_eq hroot hp.ne_zero]
    exact hp.ne_zero
  · rw [hsec m]
    exact hp.range m

theorem PageLe.mapped {fsSize : ℕ} {disk : ℕ → Sector} {d d' : InodeDisk} (h : PageLe d d')
    (hm : Mapped fsSize disk d) : Mapped fsSize disk d' := fun i hi =>
  h.present (hm i (by rwa [h.length]))

section

variable {w : World} {live : Set ℕ} {p s : ℕ} {i : Inode}

theorem InodeOk.page_mapped (h : InodeOk w live) (hs : s ∈ live)
    (hl : (page w s).length ≤ 8517120) : Mapped w.mem.fsSize w.disk (page w s) :=
  (h.le s hs).mapped (h.mapped s hs hl)

theorem InodeOk.open_mapped (h : InodeOk w live) (hi : w.mem.heap p = some i)
    (hl : i.data.length ≤ 8517120) : Mapped w.mem.fsSize w.disk i.data := by
  have hpage := page_of_open h.mem hi
  rw [← hpage] at hl ⊢
  exact h.page_mapped (h.openLive p i hi) hl

theorem InodeOk.open_length (h : InodeOk w live) (hi : w.mem.heap p = some i) :
    ∃ len : ℕ, i.data.length = len := by
  have h0 := h.length _ (h.openLive p i hi)
  rw [page_of_open h.mem hi] at h0
  exact ⟨i.data.length.toNat, by omega⟩

/-- The open free map file. -/
theorem InodeOk.fmFile (h : InodeOk w live) : ∃ f i, w.mem.freeMapFile = some f ∧
    FmFile w f.inode i := by
  obtain ⟨f, hf⟩ := Option.isSome_iff_exists.mp h.fmOpen
  obtain ⟨i, hi⟩ := h.fm.file f hf
  exact ⟨f, i, hf, hi⟩

/-- The sectors of the free map file are those of the inode in sector 0. -/
theorem InodeOk.fmNode_iff (h : InodeOk w live) (t : ℕ) :
    FmNode w t ↔ ∃ k π, Node pageShape k π ∧ sec w.disk ((page w 0).word k) π = t ∧ t ≠ 0 := by
  obtain ⟨f, i, hf, hi⟩ := h.fmFile
  have hpage : page w 0 = i.data := by
    have := page_of_open h.mem hi.heap
    rwa [hi.sector] at this
  rw [hpage]
  constructor
  · rintro ⟨f', i', k, π, hf', hi', hn, heq, h0⟩
    obtain rfl : f = f' := Option.some.inj (hf.symm.trans hf')
    obtain rfl : i = i' := Option.some.inj (hi.heap.symm.trans hi')
    exact ⟨k, π, hn, heq, h0⟩
  · rintro ⟨k, π, hn, heq, h0⟩
    exact ⟨f, i, k, π, hf, hi.heap, hn, heq, h0⟩

/-- The forest of an inode other than the free map file. -/
theorem InodeOk.forest (h : InodeOk w live) (hs : s ∈ live) (h0 : s ≠ 0) :
    Ok pageShape (FmNode w) (Allocated w) w.disk (page w s).word where
  alloc k π hn hne := by
    refine ⟨(h.node s hs k π hn hne).1, fun hfm => h0 ?_⟩
    obtain ⟨k', π', hn', heq, _⟩ := (h.fmNode_iff _).mp hfm
    exact (h.inj s hs 0 h.zero k π k' π' hn hn' heq.symm hne).1
  inj k π k' π' hn hn' heq hne := (h.inj s hs s hs k π k' π' hn hn' heq hne).2

theorem InodeOk.open_forest (h : InodeOk w live) (hi : w.mem.heap p = some i) (h0 : i.sector ≠ 0) :
    Ok pageShape (FmNode w) (Allocated w) w.disk i.data.word := by
  rw [← page_of_open h.mem hi]
  exact h.forest (h.openLive p i hi) h0

theorem InodeOk.live_not_fmNode (h : InodeOk w live) (hs : s ∈ live) : ¬FmNode w s := by
  rw [h.fmNode_iff]
  rintro ⟨k, π, hn, rfl, h0⟩
  exact (h.node 0 h.zero k π hn h0).2 hs

theorem InodeOk.live_not_index (h : InodeOk w live) {t : ℕ} (ht : t ∈ live) (hs : s ∈ live)
    (ht0 : t ≠ 0) : ¬Index pageShape w.disk (page w s).word t := by
  rintro ⟨k, π, hn, _, rfl⟩
  exact (h.node s hs k π hn ht0).2 ht

theorem InodeOk.fm_addr_ne (h : InodeOk w live) (hi : w.mem.heap p = some i) (h0 : i.sector ≠ 0)
    {f : File} (hf : w.mem.freeMapFile = some f) : f.inode ≠ p := by
  rintro rfl
  obtain ⟨j, hj⟩ := h.fm.file f hf
  obtain rfl : i = j := Option.some.inj (hi.symm.trans hj.heap)
  exact h0 hj.sector

end

/-! ### Steps that concern one inode -/

/-- What a step on the inode in sector `s₀` leaves of the other inodes; the contents of the free map
file may have changed. -/
structure Others (live : Set ℕ) (s₀ : ℕ) (w w' : World) : Prop where
  page : ∀ s ∈ live, s ≠ s₀ → page w' s = page w s
  sec : ∀ s ∈ live, s ≠ s₀ → ∀ k π, Node pageShape k π →
    sec w'.disk ((Filesys.page w s).word k) π = sec w.disk ((Filesys.page w s).word k) π
  byte : ∀ s ∈ live, s ≠ 0 → s ≠ s₀ → ∀ pos,
    byteAt w'.disk (Filesys.page w s) pos = byteAt w.disk (Filesys.page w s) pos
  disk : ∀ s ∈ live, s ≠ 0 → s ≠ s₀ → w'.disk s = w.disk s

/-- The forest of the inode itself: its nodes are those it had, and fresh ones. -/
structure Itself (s₀ : ℕ) (w w' : World) : Prop where
  node : ∀ k π, Node pageShape k π → sec w'.disk ((page w' s₀).word k) π ≠ 0 →
    sec w'.disk ((page w' s₀).word k) π = sec w.disk ((page w s₀).word k) π ∨
    ¬Allocated w (sec w'.disk ((page w' s₀).word k) π) ∧
      Allocated w' (sec w'.disk ((page w' s₀).word k) π)
  old : ∀ k π, Node pageShape k π → sec w.disk ((page w s₀).word k) π ≠ 0 →
    sec w'.disk ((page w' s₀).word k) π = sec w.disk ((page w s₀).word k) π
  inj : ∀ k π k' π', Node pageShape k π → Node pageShape k' π' →
    sec w'.disk ((page w' s₀).word k) π = sec w'.disk ((page w' s₀).word k') π' →
    sec w'.disk ((page w' s₀).word k) π ≠ 0 → k = k' ∧ π = π'
  le : PageLe (w'.disk s₀) (page w' s₀)
  mapped : Mapped w'.mem.fsSize w'.disk (w'.disk s₀)
  length : 0 ≤ (page w' s₀).length ∧ (page w' s₀).length ≤ 8517120
  tail : ∀ pos : ℕ, (page w' s₀).length ≤ pos → byteAt w'.disk (page w' s₀) pos = 0

theorem PageLe.mapped_of_sec {fsSize : ℕ} {disk disk' : ℕ → Sector} {d d' : InodeDisk}
    (h : PageLe d d')
    (hsec : ∀ k π, Node pageShape k π → sec disk' (d'.word k) π = sec disk (d'.word k) π)
    (hm : Mapped fsSize disk d) : Mapped fsSize disk' d := by
  have hd : ∀ k π, Node pageShape k π → sec disk' (d.word k) π = sec disk (d.word k) π := by
    intro k π hn
    rcases h.word k hn.root with hw | hw
    · rw [hw, sec_zero, sec_zero]
    · rw [hw, hsec k π hn]
  intro i hi
  obtain ⟨hlt, hne, hr⟩ := hm i hi
  refine ⟨hlt, ?_, fun m => ?_⟩
  · rw [dataSec, hd _ _ (leaf_node hlt).1]
    exact hne
  · rw [hd _ _ ((leaf_node hlt).1.take m)]
    exact hr m

section

variable {w w' : World} {live : Set ℕ} {p s₀ : ℕ} {i : Inode}

/-- **The invariant survives a step on one inode.** -/
theorem InodeOk.of_step (h : InodeOk w live) (hs₀ : s₀ ∈ live) (h0 : s₀ ≠ 0) (hmem : MemOk w'.mem)
    (hkeep : FmKeep w w') (hopen : ∀ p i, w'.mem.heap p = some i → i.sector ∈ live)
    (ho : Others live s₀ w w') (hi : Itself s₀ w w') : InodeOk w' live := by
  have hold : ∀ s ∈ live, s ≠ s₀ → ∀ k π, Node pageShape k π →
      sec w'.disk ((page w' s).word k) π = sec w.disk ((page w s).word k) π := fun s hs hne k π hn => by
    rw [ho.page s hs hne, ho.sec s hs hne k π hn]
  have hheader : ∀ s ∈ live, s ≠ s₀ → header w' s = header w s := by
    intro s hs hne
    unfold header
    split
    · next hz =>
      subst hz
      exact ho.page 0 hs hne
    · next hz => exact ho.disk s hs hz hne
  have hhead₀ : header w' s₀ = w'.disk s₀ := if_neg h0
  -- a node of another inode is none of `s₀`
  have hcross : ∀ s ∈ live, s ≠ s₀ → ∀ k π k' π', Node pageShape k π → Node pageShape k' π' →
      sec w'.disk ((page w' s).word k) π = sec w'.disk ((page w' s₀).word k') π' →
      sec w'.disk ((page w' s).word k) π = 0 := by
    intro s hs hne k π k' π' hn hn' heq
    by_contra hz
    rcases hi.node k' π' hn' (by rw [← heq]; exact hz) with hsame | ⟨hfree, _⟩
    · rw [hsame, hold s hs hne k π hn] at heq
      rw [hold s hs hne k π hn] at hz
      exact hne (h.inj s hs s₀ hs₀ k π k' π' hn hn' heq hz).1
    · rw [← heq, hold s hs hne k π hn] at hfree
      rw [hold s hs hne k π hn] at hz
      exact hfree (h.node s hs k π hn hz).1
  refine ⟨hmem, hkeep.ok, by rw [hkeep.freeMapFile]; exact h.fmOpen, h.zero, hopen,
    fun s hs => hkeep.mono s (h.alloc s hs), fun s hs k π hn hne => ?_,
    fun s hs s' hs' k π k' π' hn hn' heq hne => ?_, fun s hs => ?_, fun s hs => ?_, fun s hs hl => ?_,
    fun s hs hl => ?_, fun s hs hz pos hpos => ?_⟩
  · by_cases hss : s = s₀
    · subst hss
      rcases hi.node k π hn hne with hsame | ⟨hfree, halloc⟩
      · rw [hsame] at hne ⊢
        obtain ⟨hA, hL⟩ := h.node s hs k π hn hne
        exact ⟨hkeep.mono _ hA, hL⟩
      · exact ⟨halloc, fun hl => hfree (h.alloc _ hl)⟩
    · rw [hold s hs hss k π hn] at hne ⊢
      obtain ⟨hA, hL⟩ := h.node s hs k π hn hne
      exact ⟨hkeep.mono _ hA, hL⟩
  · by_cases hss : s = s₀ <;> by_cases hss' : s' = s₀
    · subst hss hss'
      exact ⟨rfl, hi.inj k π k' π' hn hn' heq hne⟩
    · subst hss
      exact absurd (heq.trans (hcross s' hs' hss' k' π' k π hn' hn heq.symm)) hne
    · subst hss'
      exact absurd (hcross s hs hss k π k' π' hn hn' heq) hne
    · rw [hold s hs hss k π hn] at heq hne
      rw [hold s' hs' hss' k' π' hn'] at heq
      exact h.inj s hs s' hs' k π k' π' hn hn' heq hne
  · by_cases hss : s = s₀
    · subst hss
      rw [hhead₀]
      exact hi.le
    · rw [hheader s hs hss, ho.page s hs hss]
      exact h.le s hs
  · by_cases hss : s = s₀
    · subst hss
      exact hi.length.1
    · rw [ho.page s hs hss]
      exact h.length s hs
  · by_cases hss : s = s₀
    · subst hss
      rw [hhead₀]
      exact hi.mapped
    · rw [ho.page s hs hss] at hl
      rw [hheader s hs hss, hkeep.fsSize]
      exact (h.le s hs).mapped_of_sec (ho.sec s hs hss) (h.mapped s hs hl)
  · by_cases hss : s = s₀
    · subst hss
      exact absurd hi.length.2 (by omega)
    · rw [ho.page s hs hss] at hl ⊢
      exact h.hollow s hs hl
  · by_cases hss : s = s₀
    · subst hss
      exact hi.tail pos hpos
    · rw [ho.page s hs hss] at hpos ⊢
      rw [ho.byte s hs hz hss]
      exact h.tail s hs hz pos hpos

/-! ### Other bytes in one in-memory inode -/

/-- The memory with another page in the in-memory inode `i` at `p`. -/
abbrev setPage (heap : ℕ → Option Inode) (p : ℕ) (i : Inode) (d : InodeDisk) : ℕ → Option Inode :=
  Function.update heap p (some { i with data := d })

theorem MemOk.setPage {m : Mem} (h : MemOk m) (hi : m.heap p = some i) (d : InodeDisk)
    (freeMap : Bitmap) :
    MemOk { m with freeMap := freeMap, heap := Filesys.setPage m.heap p i d } := by
  have hback : ∀ q j, Filesys.setPage m.heap p i d q = some j →
      ∃ j', m.heap q = some j' ∧ j'.sector = j.sector ∧ j'.openCnt = j.openCnt := by
    intro q j hj
    unfold Filesys.setPage at hj
    by_cases hq : q = p
    · subst hq
      rw [Function.update_self] at hj
      obtain rfl := Option.some.inj hj
      exact ⟨i, hi, rfl, rfl⟩
    · rw [Function.update_of_ne hq] at hj
      exact ⟨j, hj, rfl, rfl⟩
  refine ⟨h.nodup, fun q => ?_, fun q r j j' hj hj' hsec => ?_, fun q hq => ?_, fun q j hj => ?_⟩
  · rw [show q ∈ m.openInodes ↔ _ from h.listed q]
    show _ ↔ ∃ j, Filesys.setPage m.heap p i d q = some j
    unfold Filesys.setPage
    by_cases hq : q = p
    · subst hq
      rw [Function.update_self]
      exact ⟨fun _ => ⟨_, rfl⟩, fun _ => ⟨i, hi⟩⟩
    · rw [Function.update_of_ne hq]
  · obtain ⟨a, ha, hs, _⟩ := hback q j hj
    obtain ⟨b, hb, hs', _⟩ := hback r j' hj'
    exact h.inj q r a b ha hb (by rw [hs, hs', hsec])
  · have hnone := h.fresh q hq
    show Filesys.setPage m.heap p i d q = none
    unfold Filesys.setPage
    rw [Function.update_of_ne, hnone]
    rintro rfl
    rw [hi] at hnone
    exact absurd hnone (by simp)
  · obtain ⟨a, ha, _, hc⟩ := hback q j hj
    rw [← hc]
    exact h.count q a ha

/-- The page of the inode itself, and of the others. -/
theorem page_setPage_self (h : MemOk w.mem) (hi : w.mem.heap p = some i) {d : InodeDisk}
    {freeMap : Bitmap} {disk : ℕ → Sector} :
    page ⟨{ w.mem with freeMap := freeMap, heap := setPage w.mem.heap p i d }, disk⟩ i.sector = d :=
  page_of_open (w := ⟨{ w.mem with freeMap := freeMap, heap := setPage w.mem.heap p i d }, disk⟩)
    (i := { i with data := d }) (h.setPage hi d freeMap) (Function.update_self _ _ _)

theorem page_setPage_other (h : MemOk w.mem) (hi : w.mem.heap p = some i) {d : InodeDisk}
    {freeMap : Bitmap} {disk : ℕ → Sector} {s : ℕ} (hs : s ≠ i.sector)
    (hd : disk s = w.disk s ∨ ∃ q j, w.mem.heap q = some j ∧ j.sector = s) :
    page ⟨{ w.mem with freeMap := freeMap, heap := setPage w.mem.heap p i d }, disk⟩ s = page w s := by
  have h' := h.setPage hi d freeMap
  have hne : ∀ q j, w.mem.heap q = some j → j.sector = s → q ≠ p := by
    rintro q j hj hsec rfl
    rw [hi] at hj
    exact hs (by rw [← hsec, Option.some.inj hj])
  have hfwd : ∀ q j, w.mem.heap q = some j → j.sector = s →
      setPage w.mem.heap p i d q = some j := fun q j hj hsec => by
    unfold setPage
    rw [Function.update_of_ne (hne q j hj hsec), hj]
  rcases hd with hd | ⟨q, j, hj, rfl⟩
  · refine page_congr h h' (fun q j hj hsec => ⟨j, hfwd q j hj hsec, hsec, rfl⟩)
      (fun q j hj hsec => ?_) hd
    by_cases hq : q = p
    · subst hq
      have hj' : setPage w.mem.heap q i d q = some j := hj
      unfold setPage at hj'
      rw [Function.update_self] at hj'
      rw [← Option.some.inj hj'] at hsec
      exact absurd hsec.symm hs
    · have hj' : setPage w.mem.heap p i d q = some j := hj
      unfold setPage at hj'
      rw [Function.update_of_ne hq] at hj'
      exact ⟨j, hj', hsec⟩
  · rw [page_of_open h hj]
    exact page_of_open (w := ⟨{ w.mem with freeMap := freeMap, heap := setPage w.mem.heap p i d }, disk⟩)
      h' (hfwd q j hj rfl)

/-- The free map file is open. -/
theorem InodeOk.zero_open (h : InodeOk w live) : ∃ q j, w.mem.heap q = some j ∧ j.sector = 0 := by
  obtain ⟨f, j, _, hj⟩ := h.fmFile
  exact ⟨f.inode, j, hj.heap, hj.sector⟩

/-- The contents of a file do not change when its page grows. -/
theorem PageGrown.byteAt {H : InodeDisk → ℕ → Option Inode} {d d' : InodeDisk}
    (g : PageGrown H w d w' d') (hok : Ok pageShape (FmNode w) (Allocated w) w.disk d.word) (pos : ℕ) :
    byteAt w'.disk d' pos = byteAt w.disk d pos := by
  unfold Filesys.byteAt
  by_cases hp : pos / 512 < 16635
  · obtain ⟨hn, hl⟩ := leaf_node hp
    by_cases h0 : dataSec w.disk d (pos / 512) = 0
    · rw [if_pos h0]
      by_cases h1 : dataSec w'.disk d' (pos / 512) = 0
      · rw [if_pos h1]
      · rw [if_neg h1, dataSec, g.grow.leaf _ _ hn hl h0 h1, Block.get_zero]
    · have hold : dataSec w'.disk d' (pos / 512) = dataSec w.disk d (pos / 512) :=
        g.grow.old _ _ hn h0
      obtain ⟨hA, hD⟩ := hok.alloc _ _ hn h0
      rw [hold, if_neg h0, if_neg h0]
      rw [show w'.disk (dataSec w.disk d (pos / 512)) = w.disk (dataSec w.disk d (pos / 512)) from
        g.grow.frame _ hA hD h0 (hok.leaf_not_index hn hl h0)]
  · rw [dataSec_ge (by omega), dataSec_ge (by omega), if_pos rfl, if_pos rfl]

/-- Contents depend on the forest and on the data blocks. -/
theorem byteAt_congr {disk disk' : ℕ → Sector} {d : InodeDisk}
    (hsec : ∀ k π, Node pageShape k π → sec disk' (d.word k) π = sec disk (d.word k) π)
    (hdata : ∀ k, k < 16635 → dataSec disk d k ≠ 0 → disk' (dataSec disk d k) = disk (dataSec disk d k))
    (pos : ℕ) : byteAt disk' d pos = byteAt disk d pos := by
  unfold byteAt
  by_cases hp : pos / 512 < 16635
  · rw [show dataSec disk' d (pos / 512) = dataSec disk d (pos / 512) from hsec _ _ (leaf_node hp).1]
    split
    · rfl
    · next h0 => rw [hdata _ hp h0]
  · rw [dataSec_ge (by omega), dataSec_ge (by omega), if_pos rfl, if_pos rfl]

/-- The step with the pages and the free map taken care of: it remains to say that no sector of another
inode has changed. -/
theorem InodeOk.others (h : InodeOk w live) (hi : w.mem.heap p = some i) {d : InodeDisk}
    {freeMap : Bitmap} {disk : ℕ → Sector}
    (hkeep : FmKeep w ⟨{ w.mem with freeMap := freeMap, heap := setPage w.mem.heap p i d }, disk⟩)
    (hlive : ∀ s ∈ live, s ≠ 0 → s ≠ i.sector → disk s = w.disk s)
    (hnode : ∀ s ∈ live, s ≠ 0 → s ≠ i.sector → ∀ k π, Node pageShape k π →
      sec w.disk ((page w s).word k) π ≠ 0 →
      disk (sec w.disk ((page w s).word k) π) = w.disk (sec w.disk ((page w s).word k) π)) :
    Others live i.sector w ⟨{ w.mem with freeMap := freeMap, heap := setPage w.mem.heap p i d }, disk⟩ := by
  have hsec : ∀ s ∈ live, s ≠ i.sector → ∀ k π, Node pageShape k π →
      sec disk ((page w s).word k) π = sec w.disk ((page w s).word k) π := by
    intro s hs hne k π hn
    by_cases hz : s = 0
    · subst hz
      obtain ⟨f, j, hf, hj⟩ := h.fmFile
      have hpage := page_of_open h.mem hj.heap
      rw [hj.sector] at hpage
      rw [hpage]
      exact hkeep.sec f j k π hf hj.heap hn
    · exact sec_congr fun m _ h0 => hnode s hs hz hne k _ (hn.take m) h0
  refine ⟨fun s hs hne => page_setPage_other h.mem hi hne ?_, hsec, fun s hs hz hne pos => ?_, hlive⟩
  · by_cases hz : s = 0
    · subst hz
      exact .inr h.zero_open
    · exact .inl (hlive s hs hz hne)
  · exact byteAt_congr (hsec s hs hne)
      (fun k hk h0 => hnode s hs hz hne _ _ (leaf_node hk).1 h0) pos

/-! ### The page grows -/

theorem InodeDisk.length_congr {d d' : InodeDisk} (h : ∀ i, 500 ≤ i → d'.get i = d.get i) :
    d'.length = d.length := by
  unfold InodeDisk.length
  congr 1
  exact Bytes.le32_congr fun i _ => h _ (by omega)

theorem InodeDisk.isDir_congr {d d' : InodeDisk} (h : ∀ i, 500 ≤ i → d'.get i = d.get i) :
    d'.isDir = d.isDir := by
  unfold InodeDisk.isDir
  rw [h 508 (by omega)]

variable {d : InodeDisk}

theorem PageGrown.world (g : PageGrown (setPage w.mem.heap p i) w i.data w' d) :
    w' = ⟨{ w.mem with freeMap := w'.mem.freeMap, heap := setPage w.mem.heap p i d }, w'.disk⟩ := by
  have hmem := g.keep.mem
  rw [g.heap] at hmem
  rw [← hmem]

theorem PageGrown.others (g : PageGrown (setPage w.mem.heap p i) w i.data w' d) (h : InodeOk w live)
    (hi : w.mem.heap p = some i) : Others live i.sector w w' := by
  have hs₀ := h.openLive p i hi
  have hpage := page_of_open h.mem hi
  have hkeep := g.keep
  rw [g.world] at hkeep ⊢
  refine h.others hi hkeep (fun s hs hz hne => ?_) fun s hs hz hne k π hn hnz => ?_
  · refine g.grow.frame s (h.alloc s hs) (h.live_not_fmNode hs) hz ?_
    rw [← hpage]
    exact h.live_not_index hs hs₀ hz
  · obtain ⟨hA, hD⟩ := (h.forest hs hz).alloc k π hn hnz
    refine g.grow.frame _ hA hD hnz ?_
    rintro ⟨k', π', hn', _, heq⟩
    rw [← hpage] at heq
    exact hne (h.inj s hs _ hs₀ k π k' π' hn hn' heq.symm hnz).1

theorem PageGrown.page_self (g : PageGrown (setPage w.mem.heap p i) w i.data w' d)
    (h : InodeOk w live) (hi : w.mem.heap p = some i) : page w' i.sector = d := by
  rw [g.world]
  exact page_setPage_self h.mem hi

theorem PageGrown.disk_self (g : PageGrown (setPage w.mem.heap p i) w i.data w' d)
    (h : InodeOk w live) (hi : w.mem.heap p = some i) (h0 : i.sector ≠ 0) :
    w'.disk i.sector = w.disk i.sector := by
  have hs₀ := h.openLive p i hi
  refine g.grow.frame _ (h.alloc _ hs₀) (h.live_not_fmNode hs₀) h0 ?_
  rw [← page_of_open h.mem hi]
  exact h.live_not_index hs₀ hs₀ h0

theorem PageGrown.itself (g : PageGrown (setPage w.mem.heap p i) w i.data w' d) (h : InodeOk w live)
    (hi : w.mem.heap p = some i) (h0 : i.sector ≠ 0) (hl : i.data.length ≤ 8517120) :
    Itself i.sector w w' := by
  have hs₀ := h.openLive p i hi
  have hpage := page_of_open h.mem hi
  have hself := g.page_self h hi
  have hdisk := g.disk_self h hi h0
  have hhead : header w i.sector = w.disk i.sector := if_neg h0
  have hle := h.le _ hs₀
  rw [hhead, hpage] at hle
  have hforest := h.open_forest hi h0
  -- a node of the header on the disk is one of the grown page
  have hnode : ∀ k π, Node pageShape k π → sec w.disk ((w.disk i.sector).word k) π ≠ 0 →
      sec w'.disk ((w.disk i.sector).word k) π = sec w.disk ((w.disk i.sector).word k) π := by
    intro k π hn hne
    have hpg := hle.sec_eq hn.root hne
    have hold := g.grow.old k π hn (by rw [hpg]; exact hne)
    have hroot : (w.disk i.sector).word k = d.word k := by
      rcases hle.word k hn.root with hw | hw
      · rw [hw, sec_zero] at hne
        exact absurd rfl hne
      · have hnz : i.data.word k ≠ 0 := by
          intro hz
          rw [hw, hz, sec_zero] at hne
          exact hne rfl
        rw [hw]
        exact (g.grow.old k [] (hn.take 0) hnz).symm
    rw [hroot, hold, hpg]
    rw [hroot]
  refine ⟨fun k π hn hne => ?_, fun k π hn hne => ?_, ?_, ?_, ?_, ?_, fun pos hpos => ?_⟩
  · rw [hself] at hne ⊢
    rw [hpage]
    by_cases hz : sec w.disk (i.data.word k) π = 0
    · exact .inr (g.grow.fresh k π hn hz hne)
    · exact .inl (g.grow.old k π hn hz)
  · rw [hpage] at hne ⊢
    rw [hself]
    exact g.grow.old k π hn hne
  · rw [hself]
    exact g.grow.inj
  · rw [hself, hdisk]
    refine ⟨fun k hk => ?_, fun j hj => (hle.tail j hj).trans (g.tail j hj).symm⟩
    rcases hle.word k hk with hw | hw
    · exact .inl hw
    · by_cases hz : i.data.word k = 0
      · exact .inl (hw.trans hz)
      · refine .inr (hw.trans (g.grow.old k [] ⟨hk, Nat.zero_le _, by simp⟩ hz).symm)
  · rw [hdisk, g.keep.fsSize]
    have hm := h.mapped _ hs₀ (by rw [hpage]; exact hl)
    rw [hhead] at hm
    intro j hj
    obtain ⟨hlt, hne, hr⟩ := hm j hj
    have hn := (leaf_node hlt).1
    refine ⟨hlt, ?_, fun m => ?_⟩
    · rw [dataSec, hnode _ _ hn hne]
      exact hne
    · rw [hnode _ _ (hn.take m) (sec_take_ne_zero hne m)]
      exact hr m
  · rw [hself, InodeDisk.length_congr g.tail]
    refine ⟨?_, hl⟩
    rw [← hpage]
    exact h.length _ hs₀
  · rw [hself] at hpos ⊢
    rw [InodeDisk.length_congr g.tail, ← hpage] at hpos
    rw [g.byteAt hforest, ← hpage]
    exact h.tail _ hs₀ h0 pos hpos

theorem setPage_openLive (h : InodeOk w live) (hi : w.mem.heap p = some i) {d : InodeDisk} {q : ℕ}
    {j : Inode} (hj : setPage w.mem.heap p i d q = some j) : j.sector ∈ live := by
  unfold setPage at hj
  by_cases hq : q = p
  · subst hq
    rw [Function.update_self] at hj
    rw [← Option.some.inj hj]
    exact h.openLive q i hi
  · rw [Function.update_of_ne hq] at hj
    exact h.openLive q j hj

/-- **The invariant survives the growth of a page**, complete or not. -/
theorem InodeOk.of_grown (h : InodeOk w live) (hi : w.mem.heap p = some i) (h0 : i.sector ≠ 0)
    (hl : i.data.length ≤ 8517120) (g : PageGrown (setPage w.mem.heap p i) w i.data w' d) : InodeOk w' live := by
  refine h.of_step (h.openLive p i hi) h0 ?_ g.keep (fun q j hj => ?_) (g.others h hi)
    (g.itself h hi h0 hl)
  · rw [g.world]
    exact h.mem.setPage hi d _
  · rw [g.heap] at hj
    exact setPage_openLive h hi hj

/-! ### The length is stored -/

theorem InodeDisk.word_setLength (d : InodeDisk) (len : ℤ) {k : ℕ} (hk : k < 125) :
    (d.setLength len).word k = d.word k := Block.word_setWord_ne (by omega)

theorem InodeDisk.length_setLength (d : InodeDisk) {len : ℕ} (h : len < 2 ^ 31) :
    (d.setLength len).length = len := by
  unfold InodeDisk.length InodeDisk.setLength
  rw [Block.word_setWord_same (by omega) (ofInt32_lt _), toInt32_ofInt32 (by omega) (by omega)]

theorem InodeDisk.isDir_setLength (d : InodeDisk) (len : ℤ) : (d.setLength len).isDir = d.isDir := by
  unfold InodeDisk.isDir InodeDisk.setLength
  rw [Block.get_setWord_ne (by omega)]

theorem dataSec_setLength (disk : ℕ → Sector) (d : InodeDisk) (len : ℤ) {j : ℕ} (hj : j < 16635) :
    dataSec disk (d.setLength len) j = dataSec disk d j := by
  rw [dataSec, InodeDisk.word_setLength _ _ (leaf_node hj).1.root, dataSec]

theorem byteAt_setLength (disk : ℕ → Sector) (d : InodeDisk) (len : ℤ) (pos : ℕ) :
    byteAt disk (d.setLength len) pos = byteAt disk d pos := by
  unfold byteAt
  by_cases hp : pos / 512 < 16635
  · rw [dataSec_setLength _ _ _ hp]
  · rw [dataSec_ge (by omega), dataSec_ge (by omega)]

theorem InodeOk.present (h : InodeOk w live) {s : ℕ} (hs : s ∈ live) {j : ℕ} (hj : j < 16635)
    (hne : dataSec w.disk (page w s) j ≠ 0) : Present w.mem.fsSize w.disk (page w s) j :=
  ⟨hj, hne, fun m => (h.node s hs _ _ ((leaf_node hj).1.take m) (sec_take_ne_zero hne m)).1.1⟩

/-- The state after a new length has been stored in memory and on the disk. -/
def storeLength (w : World) (p : ℕ) (i : Inode) (len : ℕ) : World :=
  ⟨{ w.mem with heap := setPage w.mem.heap p i (i.data.setLength len) },
    Function.update w.disk i.sector (i.data.setLength len)⟩

theorem storeLength_keep (h : InodeOk w live) (hi : w.mem.heap p = some i) (h0 : i.sector ≠ 0)
    (len : ℕ) : FmKeep w (storeLength w p i len) := by
  refine h.fm.keep_of_other (fun f hf => ?_) fun s hs => Function.update_of_ne ?_ _ _
  · unfold setPage
    exact Function.update_of_ne (h.fm_addr_ne hi h0 hf) _ _
  · rintro rfl
    exact h.live_not_fmNode (h.openLive p i hi) hs

theorem storeLength_others (h : InodeOk w live) (hi : w.mem.heap p = some i) (h0 : i.sector ≠ 0)
    (len : ℕ) : Others live i.sector w (storeLength w p i len) := by
  refine h.others hi (storeLength_keep h hi h0 len) (fun s _ _ hne => Function.update_of_ne hne _ _)
    fun s hs _ _ k π hn hnz => Function.update_of_ne ?_ _ _
  intro heq
  exact (h.node s hs k π hn hnz).2 (heq ▸ h.openLive p i hi)

theorem storeLength_sec (h : InodeOk w live) (hi : w.mem.heap p = some i) (len : ℕ) {k : ℕ}
    {π : List ℕ} (hn : Node pageShape k π) :
    sec (Function.update w.disk i.sector (i.data.setLength len)) ((i.data.setLength len).word k) π =
      sec w.disk (i.data.word k) π := by
  have hs₀ := h.openLive p i hi
  rw [InodeDisk.word_setLength _ _ hn.root]
  refine sec_congr fun m _ hne => Function.update_of_ne ?_ _ _
  rw [← page_of_open h.mem hi] at hne ⊢
  intro heq
  exact (h.node _ hs₀ k _ (hn.take m) hne).2 (by rw [heq]; exact hs₀)

theorem storeLength_byteAt (h : InodeOk w live) (hi : w.mem.heap p = some i) (len : ℕ) (pos : ℕ) :
    byteAt (storeLength w p i len).disk (i.data.setLength len) pos = byteAt w.disk i.data pos := by
  have hs₀ := h.openLive p i hi
  rw [← byteAt_setLength w.disk i.data len pos]
  refine byteAt_congr (fun k π hn => ?_) (fun k hk hne => ?_) pos
  · rw [InodeDisk.word_setLength _ _ hn.root]
    have := storeLength_sec h hi len hn
    rwa [InodeDisk.word_setLength _ _ hn.root] at this
  · rw [dataSec_setLength _ _ _ hk] at hne ⊢
    refine Function.update_of_ne ?_ _ _
    rw [← page_of_open h.mem hi] at hne ⊢
    intro heq
    exact (h.node _ hs₀ _ _ (leaf_node hk).1 hne).2 (by rw [dataSec] at heq; rw [heq]; exact hs₀)

theorem storeLength_page (h : InodeOk w live) (hi : w.mem.heap p = some i) (len : ℕ) :
    page (storeLength w p i len) i.sector = i.data.setLength len :=
  page_setPage_self h.mem hi

theorem storeLength_itself (h : InodeOk w live) (hi : w.mem.heap p = some i) (h0 : i.sector ≠ 0)
    {len : ℕ} (hlen : i.data.length ≤ len) (hmax : len ≤ 8517120)
    (hblocks : ∀ j, 512 * j < len → dataSec w.disk i.data j ≠ 0) :
    Itself i.sector w (storeLength w p i len) := by
  have hs₀ := h.openLive p i hi
  have hpage := page_of_open h.mem hi
  have hself := storeLength_page h hi len
  have hdisk : (storeLength w p i len).disk i.sector = i.data.setLength len :=
    Function.update_self _ _ _
  have hsec : ∀ k π, Node pageShape k π →
      sec (storeLength w p i len).disk ((i.data.setLength len).word k) π =
        sec w.disk (i.data.word k) π := fun k π hn => storeLength_sec h hi len hn
  have hsame : ∀ k π, Node pageShape k π →
      sec (storeLength w p i len).disk ((page (storeLength w p i len) i.sector).word k) π =
        sec w.disk ((page w i.sector).word k) π := fun k π hn => by rw [hself, hpage, hsec k π hn]
  refine ⟨fun k π hn _ => .inl (hsame k π hn), fun k π hn _ => hsame k π hn,
    fun k π k' π' hn hn' heq hne => ?_, ?_, fun j hj => ?_, ?_, fun pos hpos => ?_⟩
  · rw [hsame k π hn, hsame k' π' hn'] at heq
    rw [hsame k π hn] at hne
    exact (h.inj _ hs₀ _ hs₀ k π k' π' hn hn' heq hne).2
  · rw [hself, hdisk]
    exact .refl _
  · rw [hdisk, InodeDisk.length_setLength _ (by omega)] at hj
    have hj' : j < 16635 := by omega
    obtain ⟨_, hne, hr⟩ : Present w.mem.fsSize w.disk (page w i.sector) j :=
      h.present hs₀ hj' (by rw [hpage]; exact hblocks j (by omega))
    rw [hpage] at hne hr
    have hn := (leaf_node hj').1
    rw [hdisk]
    refine ⟨hj', ?_, fun m => ?_⟩
    · rw [dataSec, hsec _ _ hn]
      exact hne
    · rw [hsec _ _ (hn.take m)]
      exact hr m
  · rw [hself, InodeDisk.length_setLength _ (by omega)]
    omega
  · rw [hself, InodeDisk.length_setLength _ (by omega)] at hpos
    rw [hself, storeLength_byteAt h hi len pos, ← hpage]
    exact h.tail _ hs₀ h0 pos (by rw [hpage]; omega)

/-- **The invariant survives a new length** up to which all blocks are there. -/
theorem InodeOk.of_commit (h : InodeOk w live) (hi : w.mem.heap p = some i) (h0 : i.sector ≠ 0)
    {len : ℕ} (hlen : i.data.length ≤ len) (hmax : len ≤ 8517120)
    (hblocks : ∀ j, 512 * j < len → dataSec w.disk i.data j ≠ 0) :
    InodeOk (storeLength w p i len) live :=
  h.of_step (h.openLive p i hi) h0 (h.mem.setPage hi _ _) (storeLength_keep h hi h0 len)
    (fun _ _ hj => setPage_openLive h hi hj) (storeLength_others h hi h0 len)
    (storeLength_itself h hi h0 hlen hmax hblocks)

/-! ### Data is written -/

theorem setPage_same {heap : ℕ → Option Inode} (hi : heap p = some i) :
    setPage heap p i i.data = heap := by
  unfold setPage
  rw [show ({ i with data := i.data } : Inode) = i from rfl, ← hi, Function.update_eq_self]

section

variable {disk' : ℕ → Sector} {ofs size : ℕ} {buf : ℕ → UInt8}

theorem Written.keep (hw : Written w.disk i.data ofs size buf disk') (h : InodeOk w live)
    (hi : w.mem.heap p = some i) (h0 : i.sector ≠ 0) (hr : ofs + size ≤ 8517120) :
    FmKeep w { w with disk := disk' } := by
  refine h.fm.keep_of_other (fun _ _ => rfl) fun s hs => hw.other hr fun k hk heq => ?_
  have hne : dataSec w.disk i.data k ≠ 0 := by
    rw [heq]
    obtain ⟨_, _, _, _, _, _, _, _, hz⟩ := hs
    exact hz
  refine ((h.open_forest hi h0).alloc _ _ (leaf_node hk).1 hne).2 ?_
  rw [dataSec] at heq
  rwa [heq]

theorem Written.others (hw : Written w.disk i.data ofs size buf disk') (h : InodeOk w live)
    (hi : w.mem.heap p = some i) (h0 : i.sector ≠ 0) (hr : ofs + size ≤ 8517120) :
    Others live i.sector w { w with disk := disk' } := by
  have hs₀ := h.openLive p i hi
  have hpage := page_of_open h.mem hi
  have hkeep := hw.keep h hi h0 hr
  have hw' : ({ w with disk := disk' } : World) =
      ⟨{ w.mem with freeMap := w.mem.freeMap, heap := setPage w.mem.heap p i i.data }, disk'⟩ := by
    rw [setPage_same hi]
  rw [hw'] at hkeep ⊢
  refine h.others hi hkeep (fun s hs hz _ => ?_) fun s hs _ hne k π hn hnz => ?_
  · refine hw.other hr fun j hj heq => ?_
    have hnz : dataSec w.disk i.data j ≠ 0 := by
      rw [heq]
      exact hz
    rw [← hpage] at heq hnz
    exact (h.node _ hs₀ _ _ (leaf_node hj).1 hnz).2 (by rw [dataSec] at heq; rwa [heq])
  · refine hw.other hr fun j hj heq => ?_
    rw [← hpage, dataSec] at heq
    exact hne (h.inj _ hs₀ s hs _ _ k π (leaf_node hj).1 hn heq (by rw [heq]; exact hnz)).1.symm

theorem Written.itself (hw : Written w.disk i.data ofs size buf disk') (h : InodeOk w live)
    (hi : w.mem.heap p = some i) (h0 : i.sector ≠ 0) (hl : i.data.length ≤ 8517120)
    (hr : (ofs + size : ℕ) ≤ i.data.length) : Itself i.sector w { w with disk := disk' } := by
  have hs₀ := h.openLive p i hi
  have hpage := page_of_open h.mem hi
  have hpage' : page { w with disk := disk' } i.sector = i.data :=
    page_of_open (w := { w with disk := disk' }) h.mem hi
  have hforest := h.open_forest hi h0
  have hr' : ofs + size ≤ 8517120 := by omega
  have hsec : ∀ k π, Node pageShape k π → sec disk' (i.data.word k) π = sec w.disk (i.data.word k) π :=
    fun k π hn => sec_of_data_change hforest (fun s => hw.other hr') hn
  have hdisk : disk' i.sector = w.disk i.sector := by
    refine hw.other hr' fun j hj heq => ?_
    have hnz : dataSec w.disk i.data j ≠ 0 := by
      rw [heq]
      exact h0
    rw [← hpage] at heq hnz
    exact (h.node _ hs₀ _ _ (leaf_node hj).1 hnz).2 (by rw [dataSec] at heq; rwa [heq])
  have hhead : header w i.sector = w.disk i.sector := if_neg h0
  have hle := h.le _ hs₀
  rw [hhead, hpage] at hle
  have hsame : ∀ k π, Node pageShape k π →
      sec disk' ((page { w with disk := disk' } i.sector).word k) π =
        sec w.disk ((page w i.sector).word k) π := fun k π hn => by rw [hpage', hpage, hsec k π hn]
  refine ⟨fun k π hn _ => .inl (hsame k π hn), fun k π hn _ => hsame k π hn,
    fun k π k' π' hn hn' heq hne => ?_, ?_, ?_, ?_, fun pos hpos => ?_⟩
  · have heq' := (hsame k π hn).symm.trans (heq.trans (hsame k' π' hn'))
    have hne' : sec w.disk ((page w i.sector).word k) π ≠ 0 := by
      rw [← hsame k π hn]
      exact hne
    exact (h.inj _ hs₀ _ hs₀ k π k' π' hn hn' heq' hne').2
  · rw [hpage']
    show PageLe (disk' i.sector) i.data
    rw [hdisk]
    exact hle
  · show Mapped w.mem.fsSize disk' (disk' i.sector)
    rw [hdisk]
    have hm := h.mapped _ hs₀ (by rw [hpage]; exact hl)
    rw [hhead] at hm
    exact hle.mapped_of_sec hsec hm
  · rw [hpage']
    refine ⟨?_, hl⟩
    rw [← hpage]
    exact h.length _ hs₀
  · rw [hpage'] at hpos ⊢
    show byteAt disk' i.data pos = 0
    rw [hw.byte pos, Bytes.splice_outside (by omega), ← hpage]
    exact h.tail _ hs₀ h0 pos (by rw [hpage]; exact hpos)

/-- **The invariant survives a write inside the file.** -/
theorem InodeOk.of_written (h : InodeOk w live) (hi : w.mem.heap p = some i) (h0 : i.sector ≠ 0)
    (hl : i.data.length ≤ 8517120) (hw : Written w.disk i.data ofs size buf disk')
    (hr : (ofs + size : ℕ) ≤ i.data.length) : InodeOk { w with disk := disk' } live := by
  have hr' : ofs + size ≤ 8517120 := by omega
  exact h.of_step (h.openLive p i hi) h0 h.mem (hw.keep h hi h0 hr') h.openLive
    (hw.others h hi h0 hr') (hw.itself h hi h0 hl hr)

end

end

end Pintos.Filesys
