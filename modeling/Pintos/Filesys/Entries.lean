import Pintos.Filesys.Directory
import Pintos.Filesys.InodeHandles
import Pintos.Filesys.InodeWrite
import Pintos.Library.SlotTable

/-!
# The entries of a directory

A directory is a file, and its entries are the records of 20 bytes that fit into its length
(`entries`).  The calls of the inode layer are described by which files they leave alone (`Kept`); the
scans of `filesys/directory.c` are searches in the table of entries.
-/

namespace Pintos.Filesys

open PtrForest SlotTable

variable {w w' w'' : World} {live : Set ℕ} {p s : ℕ} {i : Inode} {d : InodeDisk}

/-! ### Files that stay as they are -/

/-- The file in sector `s` has the same length and the same bytes in the two states. -/
structure Kept (s : ℕ) (w w' : World) : Prop where
  length : (page w' s).length = (page w s).length
  isDir : (page w' s).isDir = (page w s).isDir
  byte : ∀ pos, byteAt w'.disk (page w' s) pos = byteAt w.disk (page w s) pos

theorem Kept.refl (s : ℕ) (w : World) : Kept s w w := ⟨rfl, rfl, fun _ => rfl⟩

theorem Kept.trans (h₁ : Kept s w w') (h₂ : Kept s w' w'') : Kept s w w'' where
  length := h₂.length.trans h₁.length
  isDir := h₂.isDir.trans h₁.isDir
  byte pos := (h₂.byte pos).trans (h₁.byte pos)

theorem Same.kept (h : Same live w w') (hs : s ∈ live) (h0 : s ≠ 0) : Kept s w w' where
  length := by rw [h.page s hs]
  isDir := by rw [h.page s hs]
  byte pos := by rw [h.page s hs, h.byte s hs h0]

theorem Others.kept {s₀ : ℕ} (h : Others live s₀ w w') (hs : s ∈ live) (h0 : s ≠ 0) (hne : s ≠ s₀) :
    Kept s w w' where
  length := by rw [h.page s hs hne]
  isDir := by rw [h.page s hs hne]
  byte pos := by rw [h.page s hs hne, h.byte s hs h0 hne]

/-- Dropping pointers that were in memory only takes no byte of the file away. -/
theorem InodeOk.kept_of_shrink (hw : InodeOk w live) (hw' : InodeOk w' live) (h : Shrink live w w') (hs : s ∈ live)
    (h0 : s ≠ 0) (hl : (page w s).length ≤ 8517120) : Kept s w w' := by
  have hlen : (page w' s).length = (page w s).length := (h.page s hs).length
  refine ⟨hlen, InodeDisk.isDir_congr fun i hi => (h.page s hs).tail i hi, fun pos => ?_⟩
  rcases lt_or_ge (pos : ℤ) (page w s).length with hlt | hge
  · have hpres := hw'.page_mapped hs (by omega) (pos / 512) (by omega)
    rw [← h.byte s hs h0 pos]
    unfold byteAt
    rw [show dataSec w'.disk (page w s) (pos / 512) = dataSec w'.disk (page w' s) (pos / 512) from
      (h.page s hs).sec_eq (leaf_node hpres.lt).1.root hpres.ne_zero]
  · rw [hw.tail s hs h0 pos hge, hw'.tail s hs h0 pos (by omega)]

/-- The open inode at `p` is that of sector `s`. -/
def Holds (w : World) (p s : ℕ) : Prop := ∃ i, w.mem.heap p = some i ∧ i.sector = s

theorem Touched.holds {q : ℕ} (h : Touched live p i w w' d) (hi : w.mem.heap p = some i)
    (hq : Holds w q s) : Holds w' q s := by
  obtain ⟨j, hj, rfl⟩ := hq
  by_cases hqp : q = p
  · subst hqp
    obtain rfl : i = j := Option.some.inj (hi.symm.trans hj)
    exact ⟨_, h.open_self, rfl⟩
  · refine ⟨j, ?_, rfl⟩
    rw [h.heap]
    exact (Function.update_of_ne hqp _ _).trans hj

theorem Holds.setInode {q : ℕ} {i' : Inode} (h : Holds w q s) (hi : w.mem.heap p = some i)
    (hs : i'.sector = i.sector) : Holds (setInode w p i') q s := by
  obtain ⟨j, hj, rfl⟩ := h
  by_cases hqp : q = p
  · subst hqp
    obtain rfl : i = j := Option.some.inj (hi.symm.trans hj)
    exact ⟨i', Function.update_self _ _ _, hs⟩
  · exact ⟨j, (Function.update_of_ne hqp _ _).trans hj, rfl⟩

theorem Opened.holds {q t : ℕ} (h : Opened live w t p w') (hw : InodeOk w live) (hq : Holds w q s) :
    Holds w' q s := by
  rcases h.inode with ⟨i, hi, _, rfl⟩ | ⟨_, rfl, rfl⟩
  · exact hq.setInode hi rfl
  · obtain ⟨j, hj, rfl⟩ := hq
    refine ⟨j, (Function.update_of_ne ?_ _ _).trans hj, rfl⟩
    rintro rfl
    rw [hw.mem.fresh _ (le_refl _)] at hj
    exact absurd hj (by simp)

theorem Opened.holds_self {t : ℕ} (h : Opened live w t p w') : Holds w' p t := by
  rcases h.inode with ⟨i, _, rfl, rfl⟩ | ⟨_, rfl, rfl⟩
  · exact ⟨_, Function.update_self _ _ _, rfl⟩
  · exact ⟨_, Function.update_self _ _ _, rfl⟩

/-! ### Entries -/

/-- The record of 20 bytes with index `k`. -/
def entryAt (b : ℕ → UInt8) (k : ℕ) : DirEntry := fun i => if i < 20 then b (20 * k + i) else 0

/-- The records of the file in sector `s`; bytes behind the last whole record belong to none. -/
def entries (w : World) (s : ℕ) : List DirEntry :=
  (List.range ((page w s).length.toNat / 20)).map (entryAt (byteAt w.disk (page w s)))

theorem length_entries (w : World) (s : ℕ) : (entries w s).length = (page w s).length.toNat / 20 := by
  rw [entries, List.length_map, List.length_range]

theorem entries_get {k : ℕ} (hk : 20 * k + 20 ≤ (page w s).length) :
    (entries w s)[k]? = some (entryAt (byteAt w.disk (page w s)) k) := by
  rw [entries, List.getElem?_map, List.getElem?_range (by omega)]
  rfl

theorem entries_none {k : ℕ} (hk : (page w s).length < 20 * k + 20) : (entries w s)[k]? = none := by
  apply List.getElem?_eq_none
  rw [length_entries]
  omega

theorem entryAt_congr {b b' : ℕ → UInt8} {k : ℕ} (h : ∀ i, i < 20 → b' (20 * k + i) = b (20 * k + i)) :
    entryAt b' k = entryAt b k := by
  funext i
  unfold entryAt
  split
  · next hi => exact h i hi
  · rfl

theorem Kept.entries (h : Kept s w w') : entries w' s = entries w s := by
  unfold Filesys.entries
  rw [h.length, funext h.byte]

theorem entryAt_splice_self {b : ℕ → UInt8} {k j : ℕ} {e : DirEntry} (hj : j < 20) :
    entryAt (Bytes.splice b (20 * k) 20 e) k j = e j := by
  unfold entryAt
  rw [if_pos hj, Bytes.splice_inside (Nat.le_add_right _ _) (by omega), Nat.add_sub_cancel_left]

theorem entryAt_splice_ne {b : ℕ → UInt8} {k j : ℕ} {e : DirEntry} (hne : j ≠ k) :
    entryAt (Bytes.splice b (20 * k) 20 e) j = entryAt b j :=
  entryAt_congr fun _ _ => Bytes.splice_outside (by omega)

/-- Writing a record puts it into the table. -/
theorem entries_put {k : ℕ} {e : DirEntry} (hk : k ≤ (entries w s).length)
    (hlen : (page w' s).length = max (page w s).length (20 * k + 20 : ℕ))
    (hbyte : ∀ pos, byteAt w'.disk (page w' s) pos =
      Bytes.splice (byteAt w.disk (page w s)) (20 * k) 20 e pos) :
    entries w' s = put (entries w s) k (entryAt e 0) := by
  have hb : byteAt w'.disk (page w' s) = Bytes.splice (byteAt w.disk (page w s)) (20 * k) 20 e :=
    funext hbyte
  rw [length_entries] at hk
  apply List.ext_getElem?
  intro j
  by_cases hj : j = k
  · subst hj
    rw [put_self (by rw [length_entries]; exact hk), entries_get (by omega), hb]
    congr 1
    funext i
    by_cases hi : i < 20
    · rw [entryAt_splice_self hi]
      unfold entryAt
      rw [if_pos hi, Nat.mul_zero, Nat.zero_add]
    · unfold entryAt
      rw [if_neg hi, if_neg hi]
  · rw [put_of_ne (by rw [length_entries]; exact hk) hj]
    rcases le_or_gt (20 * (j : ℤ) + 20) (page w s).length with hle | hgt
    · rw [entries_get hle, entries_get (by omega), hb, entryAt_splice_ne hj]
    · rw [entries_none hgt, entries_none (by omega)]

/-! ### Scans -/

variable {P : Policy} {E : Stop → World → Prop}

/-- There is a directory in sector `s`, and its blocks can be addressed. -/
structure DirOk (live : Set ℕ) (w : World) (s : ℕ) : Prop where
  ok : InodeOk w live
  mem : s ∈ live
  ne_zero : s ≠ 0
  length : (page w s).length ≤ 8517120

theorem DirOk.kept {live' : Set ℕ} (h : DirOk live w s) (hok : InodeOk w' live') (hs : s ∈ live')
    (hk : Kept s w w') : DirOk live' w' s :=
  ⟨hok, hs, h.ne_zero, by rw [hk.length]; exact h.length⟩

/-- The same with the directory open at `p`. -/
structure DirOpen (live : Set ℕ) (w : World) (p s : ℕ) : Prop where
  ok : InodeOk w live
  holds : Holds w p s
  ne_zero : s ≠ 0
  length : (page w s).length ≤ 8517120

theorem DirOpen.inode (h : DirOpen live w p s) : ∃ i, w.mem.heap p = some i ∧ i.sector = s ∧
    page w s = i.data ∧ s ∈ live := by
  obtain ⟨i, hi, rfl⟩ := h.holds
  exact ⟨i, hi, rfl, page_of_open h.ok.mem hi, h.ok.openLive p i hi⟩

theorem DirOpen.dirOk (h : DirOpen live w p s) : DirOk live w s := by
  obtain ⟨_, _, _, _, hs⟩ := h.inode
  exact ⟨h.ok, hs, h.ne_zero, h.length⟩

theorem DirOk.opened (h : DirOk live w s) (hp : Holds w p s) : DirOpen live w p s :=
  ⟨h.ok, hp, h.ne_zero, h.length⟩

theorem DirOpen.length_nonneg (h : DirOpen live w p s) : 0 ≤ (page w s).length := by
  obtain ⟨_, _, _, _, hs⟩ := h.inode
  exact h.ok.length s hs

theorem DirOpen.length_le (h : DirOpen live w p s) : 20 * (entries w s).length ≤ 8517120 := by
  have h0 := h.length_nonneg
  have hl := h.length
  rw [length_entries]
  omega

/-- Reading a record: the whole of it, or as many bytes as there are left. -/
theorem wp_readRecord (hP : P.NoFail) (h : DirOpen live w p s) {k : ℕ} (hk : 20 * k < 2 ^ 31)
    {Q : List UInt8 → World → Prop}
    (hsome : ∀ l : List UInt8, (entries w s)[k]? = some (Bytes.overlay l fun _ => 0) → l.length = 20 → Q l w)
    (hnone : ∀ l : List UInt8, (entries w s)[k]? = none → l.length ≠ 20 → Q l w) :
    wp P (inodeReadAt p 20 (20 * k : ℕ)) Q E w := by
  obtain ⟨i, hi, hs, hpage, _⟩ := h.inode
  have hl := h.length
  obtain ⟨len, hlen⟩ := h.ok.open_length hi
  have hlenp : (page w s).length = len := by rw [hpage, hlen]
  change wp P (inodeReadAt p ((20 : ℕ) : ℤ) _) _ _ _
  refine wp_inodeReadAt hP hi (h.ok.open_mapped hi (by omega)) hlen (by omega) ?_
  rw [← hpage]
  rcases le_or_gt (20 * k + 20) len with hle | hgt
  · rw [Nat.min_eq_left (by omega)]
    apply hsome _ _ (Bytes.slice_length _ _ _)
    rw [entries_get (by omega)]
    congr 1
    funext j
    unfold entryAt
    split
    · next hj => rw [Bytes.overlay_slice hj]
    · next hj =>
      unfold Bytes.overlay
      rw [List.getElem?_eq_none (by rw [Bytes.slice_length]; omega)]
      rfl
  · apply hnone _ (entries_none (by omega))
    rw [Bytes.slice_length]
    omega

theorem readEntry_eq (d : Dir) (k : ℕ) (hk : 20 * k < 2 ^ 31) :
    readEntry d (20 * k) = (do
      let l ← inodeReadAt d.inode 20 (20 * k : ℕ)
      return if l.length = 20 then some (Bytes.overlay l fun _ => 0) else none) := by
  rw [readEntry, show toInt32 (20 * k) = (20 * k : ℕ) from if_pos hk]

/-- **A scan is a search in the table.** -/
theorem wp_scanEntries (hP : P.NoFail) (h : DirOpen live w p s) {pos : ℤ} {test : DirEntry → Bool}
    {Q : Option (DirEntry × ℕ) → World → Prop} (fuel k : ℕ) (hk : k ≤ (entries w s).length + 1)
    (hfuel : (entries w s).length + 1 < k + fuel)
    (hfound : ∀ j e, search test (entries w s) k = some j → (entries w s)[j]? = some e →
      Q (some (e, 20 * j)) w)
    (hnone : search test (entries w s) k = none → Q none w) :
    wp P (scanEntries ⟨p, pos⟩ test fuel (20 * k)) Q E w := by
  have hle := h.length_le
  induction fuel generalizing k with
  | zero => omega
  | succ fuel ih =>
    simp only [scanEntries, readEntry_eq ⟨p, pos⟩ k (by omega), wp_bind, wp_pure]
    refine wp_readRecord hP h (by omega) (fun l hl h20 => ?_) fun l hl h20 => ?_
    · simp only [if_pos h20]
      rw [search_cons hl] at hfound hnone
      by_cases ht : test (Bytes.overlay l fun _ => 0) = true
      · rw [if_pos ht] at hfound ⊢
        exact (wp_pure _).mpr (hfound k _ rfl hl)
      · rw [if_neg ht] at hfound hnone ⊢
        obtain ⟨hklt, _⟩ := List.getElem?_eq_some_iff.mp hl
        exact ih (k + 1) (by omega) (by omega) hfound hnone
    · simp only [if_neg h20, wp_pure]
      apply hnone
      apply search_of_ge
      exact List.getElem?_eq_none_iff.mp hl

theorem maxEntries_eq : maxEntries = 107374183 := by decide

/-- The test of `lookup`. -/
def named (name : List UInt8) (e : DirEntry) : Bool := e.inUse && e.hasName name

/-- `lookup` searches the records behind the first. -/
theorem wp_lookup (hP : P.NoFail) (h : DirOpen live w p s) {pos : ℤ} {name : List UInt8}
    {Q : Option (DirEntry × ℕ) → World → Prop}
    (hfound : ∀ j e, search (named name) (entries w s) 1 = some j → (entries w s)[j]? = some e →
      Q (some (e, 20 * j)) w)
    (hnone : search (named name) (entries w s) 1 = none → Q none w) :
    wp P (lookup ⟨p, pos⟩ name) Q E w := by
  have hle := h.length_le
  have hmax := maxEntries_eq
  exact wp_scanEntries hP h maxEntries 1 (by omega) (by omega) hfound hnone

end Pintos.Filesys
