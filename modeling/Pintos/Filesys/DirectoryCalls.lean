import Pintos.Filesys.Entries
import Pintos.Filesys.Mount
import Pintos.Filesys.Readdir

/-!
# What `dir_add` and `dir_remove` do

Each of the two calls changes the table of entries of its directory in one slot, or not at all, and
leaves the other files alone.  `dir_add` of a directory writes record 0 of the new directory as well; of
that record it sets the sector number only.
-/

namespace Pintos.Filesys

open PtrForest SlotTable

variable {P : Policy} {E : Stop → World → Prop} {w w' w₀ w₁ w₂ : World} {live : Set ℕ} {p q s c : ℕ}
  {i : Inode} {d : InodeDisk} {pos : ℤ} {name : List UInt8}

/-! ### The record of a name -/

namespace DirEntry

/-- The record that `dir_add` writes, made in a buffer that held `e`. -/
def filled (e : DirEntry) (name : List UInt8) (c : ℕ) : DirEntry :=
  ((e.setInUse true).setName name).setInodeSector c

/-- A live record of `name` with the sector number `c`. -/
structure Records (e : DirEntry) (name : List UInt8) (c : ℕ) : Prop where
  inUse : e.inUse = true
  hasName : e.hasName name = true
  name : e.name = name
  sector : e.inodeSector = c

theorem hasName_iff {e : DirEntry} : e.hasName name = true ↔
    name.length ≤ 14 ∧ (∀ i, i < name.length → e (4 + i) = (name[i]?).getD 0) ∧ e (4 + name.length) = 0 := by
  simp [hasName, and_assoc]

/-- A string compares equal to the name that `dir_readdir` would return. -/
theorem name_of_hasName {e : DirEntry} (h : e.hasName name = true) (h0 : 0 ∉ name) : e.name = name := by
  obtain ⟨hlen, hbytes, hend⟩ := hasName_iff.mp h
  have hslice : Bytes.slice e 4 name.length = name := by
    apply List.ext_getElem
    · rw [Bytes.slice_length]
    intro j hj hj'
    have hget : (Bytes.slice e 4 name.length)[j]? = some (e (4 + j)) := Bytes.slice_get hj'
    rw [List.getElem?_eq_getElem hj] at hget
    rw [Option.some.inj hget, hbytes j hj', List.getElem?_eq_getElem hj']
    rfl
  have hsplit : Bytes.slice e 4 15 = name ++ 0 :: Bytes.slice e (4 + name.length + 1) (14 - name.length) := by
    have h15 : 15 = name.length + (1 + (14 - name.length)) := by omega
    rw [h15, Bytes.slice_add, hslice, Bytes.slice_add]
    congr 1
    show Bytes.slice e (4 + name.length) 1 ++ _ = _
    rw [show Bytes.slice e (4 + name.length) 1 = [e (4 + name.length)] from rfl, hend]
    rfl
  rw [DirEntry.name, hsplit, cString_append h0, List.take_of_length_le hlen]

theorem inodeSector_setInodeSector {e : DirEntry} (hc : c < 2 ^ 32) :
    (e.setInodeSector c).inodeSector = c :=
  Bytes.le32_leByte hc fun i hi => by
    rw [setInodeSector, Nat.zero_add, Bytes.splice_inside (Nat.zero_le _) (by omega), Nat.sub_zero]

theorem entryAt_zero {e : DirEntry} {j : ℕ} (hj : j < 20) : entryAt e 0 j = e j := by
  unfold entryAt
  rw [if_pos hj, Nat.mul_zero, Nat.zero_add]

theorem inodeSector_entryAt (e : DirEntry) : inodeSector (entryAt e 0) = e.inodeSector :=
  Bytes.le32_congr fun i hi => entryAt_zero (by omega)

theorem inUse_entryAt (e : DirEntry) : inUse (entryAt e 0) = e.inUse := by
  unfold inUse
  rw [entryAt_zero (by decide)]

theorem filled_records (e : DirEntry) (hlen : name.length ≤ 14) (h0 : 0 ∉ name) (hc : c < 2 ^ 32) :
    Records (entryAt (e.filled name c) 0) name c := by
  have hhas : hasName (entryAt (e.filled name c) 0) name = true := by
    apply hasName_iff.mpr
    have hbyte : ∀ j, j ≤ name.length → entryAt (e.filled name c) 0 (4 + j) =
        if j < name.length then (name[j]?).getD 0 else 0 := fun j hj => by
      rw [entryAt_zero (by omega), filled, setInodeSector, Bytes.splice_outside (by omega), setName,
        Nat.min_eq_left hlen, Bytes.splice_inside (by omega) (by omega), Nat.add_sub_cancel_left]
    refine ⟨hlen, fun j hj => ?_, ?_⟩
    · rw [hbyte j hj.le, if_pos hj]
    · rw [hbyte _ (le_refl _), if_neg (lt_irrefl _)]
  refine ⟨?_, hhas, name_of_hasName hhas h0, ?_⟩
  · rw [inUse_entryAt, filled, inUse, setInodeSector, Bytes.splice_outside (by omega), setName,
      Bytes.splice_outside (by omega), setInUse, Bytes.splice_inside (by omega) (by omega)]
    rfl
  · rw [inodeSector_entryAt, filled, inodeSector_setInodeSector hc]

end DirEntry

/-! ### Writers -/

/-- No open inode is denied to writers. -/
def Allows (w : World) : Prop := ∀ q i, w.mem.heap q = some i → i.denyWriteCnt = 0

theorem Allows.setInode {i' : Inode} (h : Allows w) (hi : w.mem.heap p = some i)
    (hd : i'.denyWriteCnt = i.denyWriteCnt) : Allows (setInode w p i') := by
  have hself : (Filesys.setInode w p i').mem.heap p = some i' := Function.update_self _ _ _
  intro q j hj
  by_cases hqp : q = p
  · rw [hqp, hself] at hj
    obtain rfl := Option.some.inj hj
    rw [hd]
    exact h p i hi
  · exact h q j ((Function.update_of_ne hqp _ _).symm.trans hj)

theorem Allows.dropInode (h : Allows w) : Allows (dropInode w p) := fun q j hj => h q j (dropInode_heap.mp hj).2

theorem Opened.allows (ho : Opened live w c q w') (h : Allows w) : Allows w' := by
  rcases ho.inode with ⟨i, hi, _, rfl⟩ | ⟨_, rfl, rfl⟩
  · exact h.setInode hi rfl
  · have hself : (newInode w c).mem.heap w.mem.next = some ⟨c, 1, false, 0, w.disk c⟩ := Function.update_self _ _ _
    intro r j hj
    by_cases hr : r = w.mem.next
    · rw [hr, hself] at hj
      obtain rfl := Option.some.inj hj
      rfl
    · exact h r j ((Function.update_of_ne hr _ _).symm.trans hj)

theorem Touched.allows (ht : Touched live p i w w' d) (hi : w.mem.heap p = some i) (h : Allows w) : Allows w' := by
  have hset : Allows (setInode w p { i with data := d }) := h.setInode hi rfl
  intro q j hj
  rw [ht.heap] at hj
  exact hset q j hj

/-! ### Handles taken for a moment -/

/-- A handle on the inode of sector `c`, at `q`, has been taken since `w₀`; the handles of `w₀` are
still there, and giving the new one back deletes no inode. -/
structure Lent (w₀ w : World) (q c : ℕ) : Prop where
  inode : ∃ i, w.mem.heap q = some i ∧ i.sector = c ∧
    (1 < i.openCnt ∨ i.openCnt = 1 ∧ i.removed = false ∧ w₀.mem.heap q = none)
  handles : ∀ p s, Holds w₀ p s → Holds w p s

theorem Opened.lent (h : Opened live w c q w') (hw : InodeOk w live) : Lent w w' q c := by
  refine ⟨?_, fun _ _ hp => h.holds hw hp⟩
  rcases h.inode with ⟨i, hi, rfl, rfl⟩ | ⟨_, rfl, rfl⟩
  · have hcnt := hw.mem.count q i hi
    exact ⟨_, Function.update_self _ _ _, rfl, .inl (by show 1 < i.openCnt + 1; omega)⟩
  · exact ⟨_, Function.update_self _ _ _, rfl, .inr ⟨rfl, rfl, hw.mem.fresh _ (le_refl _)⟩⟩

/-- The in-memory inodes of `w` are still there, up to their pages. -/
def SameHandles (w w' : World) : Prop := ∀ q i, w.mem.heap q = some i →
  ∃ i', w'.mem.heap q = some i' ∧ i'.sector = i.sector ∧ i'.openCnt = i.openCnt ∧ i'.removed = i.removed

theorem SameHandles.holds (h : SameHandles w w') (hq : Holds w q s) : Holds w' q s := by
  obtain ⟨i, hi, rfl⟩ := hq
  obtain ⟨i', hi', hs, _⟩ := h q i hi
  exact ⟨i', hi', hs⟩

theorem Lent.after (h : Lent w₀ w q c) (hs : SameHandles w w') : Lent w₀ w' q c := by
  obtain ⟨i, hi, hc, hcnt⟩ := h.inode
  obtain ⟨i', hi', hs', hcnt', hrem'⟩ := hs q i hi
  refine ⟨⟨i', hi', hs'.trans hc, ?_⟩, fun p s hp => hs.holds (h.handles p s hp)⟩
  rw [hcnt', hrem']
  exact hcnt

theorem Touched.sameHandles (h : Touched live p i w w' d) (hi : w.mem.heap p = some i) :
    SameHandles w w' := by
  intro q j hj
  by_cases hqp : q = p
  · subst hqp
    obtain rfl : i = j := Option.some.inj (hi.symm.trans hj)
    exact ⟨_, h.open_self, rfl, rfl, rfl⟩
  · refine ⟨j, ?_, rfl, rfl, rfl⟩
    rw [h.heap]
    exact (Function.update_of_ne hqp _ _).trans hj

/-- Giving the handle back. -/
theorem wp_giveBack (hP : P.NoFail) (h : InodeOk w live) (hl : Lent w₀ w q c) (hc : c ≠ 0)
    {Q : Unit → World → Prop}
    (hQ : ∀ w', InodeOk w' live → (Allows w → Allows w') →
      (∀ t ∈ live, t ≠ 0 → (page w t).length ≤ 8517120 → Kept t w w') →
      (∀ p s, Holds w₀ p s → Holds w' p s) → Q () w') :
    wp P (inodeClose (some q)) Q E w := by
  obtain ⟨i, hi, rfl, hcnt⟩ := hl.inode
  refine wp_inodeClose hP h hi (fun _ => hc) (fun hmore => ?_) (fun hone hrem => ?_) fun hone hrem => ?_
  · obtain ⟨hok, hsame⟩ := h.closeOne hi hmore
    exact hQ _ hok (fun ha => ha.setInode hi rfl) (fun t ht h0 _ => hsame.kept ht h0)
      fun p s hp => (hl.handles p s hp).setInode hi rfl
  · obtain ⟨hok, hshrink⟩ := h.dropInode hi hc
    refine hQ _ hok (fun ha => ha.dropInode) (fun t ht h0 hlen => h.kept_of_shrink hok hshrink ht h0 hlen)
      fun p s hp => ?_
    obtain ⟨j, hj, hjs⟩ := hl.handles p s hp
    refine ⟨j, dropInode_heap.mpr ⟨?_, hj⟩, hjs⟩
    rintro rfl
    rcases hcnt with hmore | ⟨_, _, hnone⟩
    · omega
    · obtain ⟨j', hj', _⟩ := hp
      rw [hnone] at hj'
      exact absurd hj' (by simp)
  · rcases hcnt with hmore | ⟨_, hno, _⟩
    · omega
    · rw [hno] at hrem
      exact absurd hrem (by simp)

/-! ### Writing a record -/

/-- A call on the directory in sector `s` has left the other files and all handles alone. -/
structure Beside (live : Set ℕ) (p s : ℕ) (w w' : World) : Prop where
  dir : DirOpen live w' p s
  others : ∀ t ∈ live, t ≠ 0 → t ≠ s → Kept t w w'
  handles : SameHandles w w'
  closed : ∀ q, w.mem.heap q = none → w'.mem.heap q = none

theorem SameHandles.refl (w : World) : SameHandles w w := fun _ i hi => ⟨i, hi, rfl, rfl, rfl⟩

theorem Touched.beside (h : Touched live p i w w' d) (hi : w.mem.heap p = some i) (hs : i.sector = s)
    (h0 : s ≠ 0) (hl : d.length ≤ 8517120) : Beside live p s w w' := by
  have hpage : page w' s = d := by
    rw [← hs]
    exact page_of_open h.ok.mem h.open_self
  refine ⟨⟨h.ok, ⟨_, h.open_self, hs⟩, h0, ?_⟩, fun t ht ht0 hne => ?_, h.sameHandles hi, fun q hq => ?_⟩
  · rw [hpage]
    exact hl
  · exact h.others.kept ht ht0 (by rwa [hs])
  · have hqp : q ≠ p := by
      intro heq
      rw [heq, hi] at hq
      exact absurd hq (by simp)
    rw [h.heap]
    exact (Function.update_of_ne hqp _ _).trans hq

theorem wp_writeRecord (hP : P.NoFail) (h : DirOpen live w p s) {k : ℕ} (hk : k ≤ (entries w s).length)
    (e : DirEntry) {Q : ℤ → World → Prop}
    (hok : ∀ w', Beside live p s w w' → (Allows w → Allows w') →
      entries w' s = put (entries w s) k (entryAt e 0) → Q 20 w')
    (hno : ∀ w', Beside live p s w w' → (Allows w → Allows w') → Kept s w w' → P.noSector ∨ ¬Allows w → Q 0 w')
    (hE : ∀ w', Beside live p s w w' → Kept s w w' → 8517120 < 20 * k + 20 → E (.exit (-1)) w') :
    wp P (inodeWriteAt p e 20 (20 * k : ℕ)) Q E w := by
  obtain ⟨i, hi, hs, hpage, hlive⟩ := h.inode
  have hle := h.length_le
  have h0 : i.sector ≠ 0 := by rw [hs]; exact h.ne_zero
  have hl : i.data.length ≤ 8517120 := by rw [← hpage]; exact h.length
  have hpage' : ∀ {w' d}, Touched live p i w w' d → page w' s = d := fun ht => by
    rw [← hs]
    exact page_of_open ht.ok.mem ht.open_self
  have hkept : ∀ {w' d}, Touched live p i w w' d → d.length = i.data.length →
      (∀ pos, byteAt w'.disk d pos = byteAt w.disk i.data pos) →
      Beside live p s w w' ∧ Kept s w w' := fun ht hlen hbyte =>
    ⟨ht.beside hi hs h.ne_zero (by omega), ⟨by rw [hpage' ht, hpage, hlen], by rw [hpage' ht, hpage, ht.isDir],
      fun pos => by rw [hpage' ht, hpage, hbyte]⟩⟩
  change wp P (inodeWriteAt p e ((20 : ℕ) : ℤ) _) _ _ _
  by_cases hdeny : i.denyWriteCnt = 0
  · rcases le_or_gt (20 * k + 20) 8517120 with hfit | hlong
    · refine wp_inodeWriteAt hP h.ok hi h0 hl hdeny (by omega) hfit (fun w' d hw => ?_) fun hfull w' d hw => ?_
      · have hlen := hw.length
        apply hok w' (hw.toTouched.beside hi hs h.ne_zero (by omega)) (hw.toTouched.allows hi)
        refine entries_put hk ?_ fun pos => ?_
        · rw [hpage' hw.toTouched, hpage, hlen]
        · rw [hpage' hw.toTouched, hpage, hw.byte]
      · obtain ⟨hb, hs'⟩ := hkept hw.toTouched hw.length hw.byte
        exact hno w' hb (hw.toTouched.allows hi) hs' (.inl hfull)
    · refine wp_inodeWriteAt_past hP h.ok hi h0 hl hdeny hlong (by omega) (fun w' d hw => ?_)
        fun hfull w' d hw => ?_
      · obtain ⟨hb, hs'⟩ := hkept hw.toTouched hw.length hw.byte
        exact hE w' hb hs' hlong
      · obtain ⟨hb, hs'⟩ := hkept hw.toTouched hw.length hw.byte
        exact hno w' hb (hw.toTouched.allows hi) hs' (.inl hfull)
  · exact wp_inodeWriteAt_denied hi hdeny
      (hno w ⟨h, fun t _ _ _ => .refl t w, .refl w, fun _ hq => hq⟩ (fun ha => ha) (.refl s w)
        (.inr fun ha => hdeny (ha p i hi)))

/-! ### The free slot -/

theorem wp_findSlot (hP : P.NoFail) (h : DirOpen live w p s) {Q : DirEntry × ℕ → World → Prop}
    (fuel k : ℕ) (e : DirEntry) (hk : k ≤ (entries w s).length) (hfuel : (entries w s).length < k + fuel)
    (hQ : ∀ e', Q (e', 20 * (search (fun e => !DirEntry.inUse e) (entries w s) k).getD
      (entries w s).length) w) : wp P (findSlot ⟨p, pos⟩ fuel e (20 * k)) Q E w := by
  have hle := h.length_le
  induction fuel generalizing k e with
  | zero => omega
  | succ fuel ih =>
    rw [findSlot, show toInt32 (20 * k) = (20 * k : ℕ) from if_pos (by omega), wp_bind]
    refine wp_readRecord hP h (by omega) (fun l hl h20 => ?_) fun l hl h20 => ?_
    · -- all of the record has been read, and `in_use` with it
      have huse : DirEntry.inUse (Bytes.overlay l e) = DirEntry.inUse (Bytes.overlay l fun _ => 0) := by
        unfold DirEntry.inUse Bytes.overlay
        rw [List.getElem?_eq_getElem (by omega)]
        rfl
      simp only [if_pos h20, huse]
      rw [search_cons hl] at hQ
      by_cases hu : DirEntry.inUse (Bytes.overlay l fun _ => 0) = true
      · rw [if_pos hu]
        rw [if_neg (by simp [hu])] at hQ
        obtain ⟨hklt, _⟩ := List.getElem?_eq_some_iff.mp hl
        exact ih (k + 1) _ hklt (by omega) hQ
      · rw [if_neg hu]
        rw [if_pos (by simpa using hu)] at hQ
        exact (wp_pure _).mpr (hQ _)
    · simp only [if_neg h20]
      have hend := List.getElem?_eq_none_iff.mp hl
      rw [search_of_ge hend] at hQ
      have heq : k = (entries w s).length := by omega
      rw [heq]
      exact (wp_pure _).mpr (hQ _)

/-- The slot part of `dir_add`. -/
theorem wp_writeSlot (hP : P.NoFail) (h : DirOpen live w p s) (e : DirEntry) {Q : Bool → World → Prop}
    (hok : ∀ w' e', Beside live p s w w' → (Allows w → Allows w') → entries w' s =
      put (entries w s) (firstFree DirEntry.inUse (entries w s)) (entryAt (DirEntry.filled e' name c) 0) →
      Q true w')
    (hno : ∀ w', Beside live p s w w' → (Allows w → Allows w') → Kept s w w' → P.noSector ∨ ¬Allows w → Q false w')
    (hE : ∀ w', Beside live p s w w' → Kept s w w' → 8517120 < 20 * firstFree DirEntry.inUse (entries w s) + 20 →
      E (.exit (-1)) w') :
    wp P (writeSlot ⟨p, pos⟩ e name c) Q E w := by
  have hle := h.length_le
  have hmax := maxEntries_eq
  have hfree : firstFree DirEntry.inUse (entries w s) ≤ (entries w s).length := firstFree_le
  rw [writeSlot, wp_bind]
  refine wp_findSlot hP h maxEntries 0 e (Nat.zero_le _) (by omega) fun e' => ?_
  change wp P (do
    let n ← inodeWriteAt p (DirEntry.filled e' name c) 20
      (toInt32 (20 * firstFree DirEntry.inUse (entries w s)))
    pure (decide (n = 20))) Q E w
  rw [show toInt32 (20 * firstFree DirEntry.inUse (entries w s)) =
    (20 * firstFree DirEntry.inUse (entries w s) : ℕ) from if_pos (by omega), wp_bind]
  exact wp_writeRecord hP h hfree _ (fun w' hb ha hput => (wp_pure _).mpr (hok w' e' hb ha hput))
    (fun w' hb ha hs hwhy => (wp_pure _).mpr (hno w' hb ha hs hwhy)) hE

/-! ### `dir_add` -/

/-- What the callers of `dir_add` see to: the inode of a new directory exists, is not the directory that
gets the entry, and is not longer than a file can be. -/
structure CanAdd (live : Set ℕ) (w : World) (s c : ℕ) : Prop where
  live : c ∈ live
  ne_zero : c ≠ 0
  ne : c ≠ s
  length : (page w c).length ≤ 8517120

/-- What a call on a directory leaves: the directory itself is still open, the files in `K` are as they
were, and no handle has been lost. -/
structure Around (live : Set ℕ) (p s : ℕ) (K : Set ℕ) (w w' : World) : Prop where
  dir : DirOpen live w' p s
  others : ∀ t ∈ K, Kept t w w'
  handles : ∀ q t, Holds w q t → Holds w' q t

/-- The files that `dir_add` in `s` has nothing to do with. -/
def apartFrom (live : Set ℕ) (w : World) (s c : ℕ) (isDir : Bool) : Set ℕ :=
  {t | t ∈ live ∧ t ≠ 0 ∧ t ≠ s ∧ (isDir = true → t ≠ c) ∧ (page w t).length ≤ 8517120}

/-- `dir_add` has put the name into the table. -/
structure AddedTo (P : Policy) (w : World) (s : ℕ) (name : List UInt8) (c : ℕ) (isDir : Bool) (w' : World) :
    Prop where
  name_ne : name ≠ []
  name_le : name.length ≤ 14
  fresh : search (named name) (entries w s) 1 = none
  table : ∃ e, entries w' s =
    put (entries w s) (firstFree DirEntry.inUse (entries w s)) (entryAt (DirEntry.filled e name c) 0)
  parent : isDir = true → ∃ g, P.junk g ∧
    entries w' c = put (entries w c) 0 (entryAt (DirEntry.setInodeSector g s) 0)
  child : isDir = true → (page w' c).length ≤ 8517120

/-- Why `dir_add` returns `false`: the name cannot be bound, or a record could not be written. -/
def Refused (P : Policy) (w : World) (s : ℕ) (name : List UInt8) : Prop :=
  name = [] ∨ 14 < name.length ∨ search (named name) (entries w s) 1 ≠ none ∨ P.noSector ∨ ¬Allows w

theorem wp_dirAdd (hP : P.NoFail) (h : DirOpen live w p s) {isDir : Bool}
    (hc : isDir = true → CanAdd live w s c) {Q : Bool → World → Prop}
    (hok : ∀ w', Around live p s (apartFrom live w s c isDir) w w' → (Allows w → Allows w') →
      AddedTo P w s name c isDir w' → Q true w')
    (hno : ∀ w', Around live p s (apartFrom live w s c isDir) w w' → (Allows w → Allows w') → Kept s w w' →
      Refused P w s name → Q false w')
    (hE : ∀ w', Around live p s (apartFrom live w s c isDir) w w' → Kept s w w' →
      8517120 < 20 * firstFree DirEntry.inUse (entries w s) + 20 → E (.exit (-1)) w') :
    wp P (dirAdd ⟨p, pos⟩ name c isDir) Q E w := by
  have hsame : Around live p s (apartFrom live w s c isDir) w w := ⟨h, fun t _ => .refl t w, fun _ _ h => h⟩
  rw [dirAdd, wp_bind, wp_junk]
  intro g hg
  by_cases hname : name = [] ∨ 14 < name.length
  · rw [if_pos hname]
    exact (wp_pure _).mpr (hno w hsame (fun ha => ha) (.refl s w) (hname.imp_right .inl))
  push Not at hname
  rw [if_neg (by push Not; exact hname), wp_bind]
  refine wp_lookup hP h (fun _ _ hfound _ => ?_) fun hfresh => ?_
  · have hbound : search (named name) (entries w s) 1 ≠ none := by
      rw [hfound]
      exact Option.some_ne_none _
    exact (wp_pure _).mpr (hno w hsame (fun ha => ha) (.refl s w) (.inr (.inr (.inl hbound))))
  rw [if_neg (by simp)]
  have hwhy : P.noSector ∨ ¬Allows w → Refused P w s name := fun h => .inr (.inr (.inr h))
  cases isDir with
  | false =>
    have haround : ∀ {w'}, Beside live p s w w' → Around live p s (apartFrom live w s c false) w w' :=
      fun hb => ⟨hb.dir, fun t ht => hb.others t ht.1 ht.2.1 ht.2.2.1, fun _ _ hq => hb.handles.holds hq⟩
    exact wp_writeSlot hP h g
      (fun w' e hb ha ht => hok w' (haround hb) ha ⟨hname.1, hname.2, hfresh, ⟨e, ht⟩, by simp, by simp⟩)
      (fun w' hb ha hs hfail => hno w' (haround hb) ha hs (hwhy hfail)) fun w' hb hs => hE w' (haround hb) hs
  | true =>
    obtain ⟨hlive, hc0, hcs, hlen⟩ := hc rfl
    obtain ⟨i, hi, hs, _, hslive⟩ := h.inode
    rw [if_pos rfl, wp_bind]
    refine wp_inodeOpen hP h.ok hlive fun q w₁ ho => ?_
    have hc₁ : Kept c w w₁ := ho.same.kept hlive hc0
    have hs₁ : Kept s w w₁ := ho.same.kept hslive h.ne_zero
    have hdir₁ : DirOpen live w₁ p s :=
      ⟨ho.ok, ho.holds h.ok h.holds, h.ne_zero, by rw [hs₁.length]; exact h.length⟩
    have hchild₁ : DirOpen live w₁ q c := ⟨ho.ok, ho.holds_self, hc0, by rw [hc₁.length]; exact hlen⟩
    have hlent₁ := ho.lent h.ok
    have hwhy₁ : P.noSector ∨ ¬Allows w₁ → Refused P w s name := fun h =>
      hwhy (h.imp_right fun hn ha => hn (ho.allows ha))
    simp only [dirOpen, wp_bind, wp_malloc]
    intro b hb
    rw [hP b hb]
    obtain ⟨i₁, hi₁, hsec₁, _⟩ := hdir₁.inode
    simp only [wp_pure, inodeGetInumber, wp_bind, wp_deref_some hi₁, hsec₁]
    -- the files that are neither the directory nor its new child, and the directory itself
    have hfar : ∀ {w₂ w₃}, Beside live q c w₁ w₂ →
        (∀ t ∈ live, t ≠ 0 → (page w₂ t).length ≤ 8517120 → Kept t w₂ w₃) →
        ∀ t ∈ live, t ≠ 0 → t ≠ c → (page w t).length ≤ 8517120 → Kept t w w₃ := by
      intro w₂ w₃ hb h₃ t ht ht0 htc htl
      have h₂ : Kept t w w₂ := (ho.same.kept ht ht0).trans (hb.others t ht ht0 htc)
      exact h₂.trans (h₃ t ht ht0 (by rw [h₂.length]; exact htl))
    have hback : ∀ {w₂ w₃}, Beside live q c w₁ w₂ → InodeOk w₃ live →
        (∀ t ∈ live, t ≠ 0 → (page w₂ t).length ≤ 8517120 → Kept t w₂ w₃) →
        (∀ p s, Holds w p s → Holds w₃ p s) →
        Around live p s (apartFrom live w s c true) w w₃ ∧ Kept s w w₃ := by
      intro w₂ w₃ hb h₃ hk₃ hh₃
      have hks := hfar hb hk₃ s hslive h.ne_zero hcs.symm h.length
      refine ⟨⟨⟨h₃, hh₃ p s h.holds, h.ne_zero, by rw [hks.length]; exact h.length⟩, fun t ht => ?_, hh₃⟩, hks⟩
      exact hfar hb hk₃ t ht.1 ht.2.1 (ht.2.2.2.1 rfl) ht.2.2.2.2
    change wp P (inodeWriteAt q (DirEntry.setInodeSector g s) 20 (20 * 0 : ℕ)) _ _ _
    refine wp_writeRecord hP hchild₁ (Nat.zero_le _) _ (fun w₂ hb ha₂ hput => ?_) (fun w₂ hb ha₂ hk hfail => ?_)
      fun w₂ hb hk hpast => by omega
    · simp only [ne_eq, not_true_eq_false, if_false, wp_bind, dirClose]
      refine wp_giveBack hP hb.dir.ok (hlent₁.after hb.handles) hc0 fun w₃ h₃ hallow₃ hk₃ hh₃ => ?_
      have hallows : Allows w → Allows w₃ := fun ha => hallow₃ (ha₂ (ho.allows ha))
      obtain ⟨ha₃, hks₃⟩ := hback hb h₃ hk₃ hh₃
      have hkc₃ : Kept c w₂ w₃ := hk₃ c hlive hc0 hb.dir.length
      have hthen : ∀ {w'}, Beside live p s w₃ w' → Around live p s (apartFrom live w s c true) w w' :=
        fun hb' => ⟨hb'.dir, fun t ht => (ha₃.others t ht).trans (hb'.others t ht.1 ht.2.1 ht.2.2.1),
          fun q t hq => hb'.handles.holds (hh₃ q t hq)⟩
      refine wp_writeSlot hP ha₃.dir _ (fun w' e hb' ha' ht => hok w' (hthen hb') (fun ha => ha' (hallows ha))
        ⟨hname.1, hname.2, hfresh, ⟨e, ?_⟩, fun _ => ⟨g, hg, ?_⟩, fun _ => ?_⟩)
        (fun w' hb' ha' hs' hfail => hno w' (hthen hb') (fun ha => ha' (hallows ha)) (hks₃.trans hs')
          (hwhy (hfail.imp_right fun hn ha => hn (hallows ha))))
        fun w' hb' hs' hpast => hE w' (hthen hb') (hks₃.trans hs') (by rw [← hks₃.entries]; exact hpast)
      · rw [ht, hks₃.entries]
      · rw [(hb'.others c hlive hc0 hcs).entries, hkc₃.entries, hput, hc₁.entries]
      · rw [(hb'.others c hlive hc0 hcs).length, hkc₃.length]
        exact hb.dir.length
    · simp only [ne_eq, (by decide : ¬(0 : ℤ) = 20), not_false_eq_true, if_true, wp_bind, dirClose]
      refine wp_giveBack hP hb.dir.ok (hlent₁.after hb.handles) hc0 fun w₃ h₃ hallow₃ hk₃ hh₃ => ?_
      obtain ⟨ha₃, hks₃⟩ := hback hb h₃ hk₃ hh₃
      exact (wp_pure _).mpr (hno w₃ ha₃ (fun ha => hallow₃ (ha₂ (ho.allows ha))) hks₃ (hwhy₁ hfail))

/-! ### `dir_remove` -/

/-- The inodes whose header sector is still in use. -/
def surviving (live : Set ℕ) (w : World) : Set ℕ := {t | t ∈ live ∧ Allocated w t}

theorem surviving_eq (h : InodeOk w live) : surviving live w = live :=
  Set.ext fun t => ⟨fun ht => ht.1, fun ht => ⟨ht, h.alloc t ht⟩⟩

theorem Deleted.surviving (h : Deleted live p i w w') : surviving live w' = live \ {i.sector} := by
  apply Set.ext
  intro t
  constructor
  · intro ht
    refine ⟨ht.1, fun heq => ?_⟩
    exact ((h.allocated t).mp ht.2).2 (.inl heq)
  · intro ht
    exact ⟨ht.1, h.ok.alloc t ht⟩

/-- The inode of an entry that is taken away exists, and is neither the free map file nor the directory
itself. -/
structure CanRemove (live : Set ℕ) (w : World) (s t : ℕ) : Prop where
  live : t ∈ live
  ne_zero : t ≠ 0
  ne : t ≠ s
  length : (page w t).isDir = true → (page w t).length ≤ 8517120

/-- What `dir_remove` leaves: the directory, and the handles on it. -/
structure StillThere (live : Set ℕ) (s : ℕ) (w w' : World) : Prop where
  dir : DirOk (surviving live w') w' s
  handles : ∀ q, Holds w q s → Holds w' q s

/-- Giving back a handle on another inode, whether this deletes it or not. -/
theorem wp_close_other (hP : P.NoFail) (h : DirOk live w s) (hi : w.mem.heap q = some i)
    (hne : i.sector ≠ s) (h0 : i.sector ≠ 0) {Q : Unit → World → Prop}
    (hQ : ∀ w', StillThere live s w w' → (Allows w → Allows w') → Kept s w w' → Q () w') :
    wp P (inodeClose (some q)) Q E w := by
  have hs := h.mem
  have hhold : ∀ {w'}, (∀ r j, r ≠ q → w.mem.heap r = some j → w'.mem.heap r = some j) →
      ∀ r, Holds w r s → Holds w' r s := by
    intro w' hheap r hr
    obtain ⟨j, hj, hjs⟩ := hr
    refine ⟨j, hheap r j ?_ hj, hjs⟩
    intro hrq
    rw [hrq, hi] at hj
    obtain rfl := Option.some.inj hj
    exact hne hjs
  have hdone : ∀ {w' live'}, surviving live w' = live' → InodeOk w' live' → s ∈ live' →
      (∀ r j, r ≠ q → w.mem.heap r = some j → w'.mem.heap r = some j) → (Allows w → Allows w') → Kept s w w' →
      Q () w' := by
    intro w' live' hsurv hok hmem hheap hallow hk
    subst hsurv
    exact hQ _ ⟨h.kept hok hmem hk, hhold hheap⟩ hallow hk
  refine wp_inodeClose hP h.ok hi (fun _ => h0) (fun hmore => ?_) (fun _ _ => ?_) fun _ _ w' hd => ?_
  · obtain ⟨hok, hsame⟩ := h.ok.closeOne hi hmore
    exact hdone (surviving_eq hok) hok hs (fun r j hr hj => (Function.update_of_ne hr _ _).trans hj)
      (fun ha => ha.setInode hi rfl) (hsame.kept hs h.ne_zero)
  · obtain ⟨hok, hshrink⟩ := h.ok.dropInode hi h0
    exact hdone (surviving_eq hok) hok hs (fun r j hr hj => dropInode_heap.mpr ⟨hr, hj⟩)
      (fun ha => ha.dropInode) (h.ok.kept_of_shrink hok hshrink hs h.ne_zero h.length)
  · refine hdone hd.surviving hd.ok ⟨hs, hne.symm⟩ (fun r j hr hj => ?_) (fun ha r j hj => ?_)
      (hd.same.kept ⟨hs, hne.symm⟩ h.ne_zero)
    · rw [hd.step.mem]
      exact dropInode_heap.mpr ⟨hr, hj⟩
    · rw [hd.step.mem] at hj
      exact ha.dropInode r j hj

/-- `dir_remove` has taken the name out of the table. -/
structure RemovedFrom (w : World) (s : ℕ) (name : List UInt8) (w' : World) : Prop where
  table : ∃ k e, search (named name) (entries w s) 1 = some k ∧ (entries w s)[k]? = some e ∧
    entries w' s = put (entries w s) k (entryAt (e.setInUse false) 0)

theorem StillThere.after (h : StillThere live s w₁ w') (hw : ∀ q, Holds w q s → Holds w₁ q s) :
    StillThere live s w w' :=
  ⟨h.dir, fun q hq => h.handles q (hw q hq)⟩

/-- The end of `dir_remove`, with the inode of the entry open. -/
theorem wp_eraseEntry (hP : P.NoFail) (h : DirOpen live w p s) (hi : w.mem.heap q = some i)
    (hne : i.sector ≠ s) (h0 : i.sector ≠ 0) {k : ℕ} (hk : k < (entries w s).length) (e : DirEntry)
    {Q : Bool → World → Prop}
    (hok : ∀ w', StillThere live s w w' → (Allows w → Allows w') →
      entries w' s = put (entries w s) k (entryAt (e.setInUse false) 0) → Q true w')
    (hno : ∀ w', StillThere live s w w' → (Allows w → Allows w') → Kept s w w' → P.noSector ∨ ¬Allows w →
      Q false w') :
    wp P (eraseEntry ⟨p, pos⟩ e (20 * k) q) Q E w := by
  have hle := h.length_le
  rw [eraseEntry, show toInt32 (20 * k) = (20 * k : ℕ) from if_pos (by omega), wp_bind]
  refine wp_writeRecord hP h hk.le _ (fun w₁ hb ha₁ hput => ?_) (fun w₁ hb ha₁ hs hfail => ?_)
    fun _ _ _ hpast => by omega
  · obtain ⟨i₁, hi₁, hsec₁, _⟩ := hb.handles q i hi
    rw [if_neg (by simp), wp_bind]
    refine wp_inodeRemove hb.dir.ok hi₁ fun hok₂ hsame₂ => ?_
    obtain ⟨_, _, _, _, hslive⟩ := h.inode
    have hks : Kept s w₁ (setInode w₁ q { i₁ with removed := true }) := hsame₂.kept hslive h.ne_zero
    have hdir₂ : DirOpen live (setInode w₁ q { i₁ with removed := true }) p s :=
      ⟨hok₂, hb.dir.holds.setInode hi₁ rfl, h.ne_zero, by rw [hks.length]; exact hb.dir.length⟩
    have hi₂ : (setInode w₁ q { i₁ with removed := true }).mem.heap q = some { i₁ with removed := true } :=
      Function.update_self _ _ _
    rw [wp_bind]
    refine wp_close_other hP hdir₂.dirOk hi₂ (by show i₁.sector ≠ s; rwa [hsec₁])
      (by show i₁.sector ≠ 0; rwa [hsec₁]) fun w' hst hallow hk' => ?_
    refine (wp_pure _).mpr (hok w' (hst.after fun r hr => ?_) (fun ha => hallow ((ha₁ ha).setInode hi₁ rfl)) ?_)
    · exact (hb.handles.holds hr).setInode hi₁ rfl
    · rw [hk'.entries, hks.entries, hput]
  · obtain ⟨i₁, hi₁, hsec₁, _⟩ := hb.handles q i hi
    rw [if_pos (by decide), wp_bind]
    exact wp_close_other hP hb.dir.dirOk hi₁ (by rwa [hsec₁]) (by rwa [hsec₁]) fun w' hst hallow hk' =>
      (wp_pure _).mpr (hno w' (hst.after fun _ hr => hb.handles.holds hr) (fun ha => hallow (ha₁ ha)) (hs.trans hk')
        hfail)

/-- The same when that inode has been freed: the call does not return. -/
theorem wp_eraseEntry_freed (hP : P.NoFail) (h : DirOpen live w p s) (hq : w.mem.heap q = none) {k : ℕ}
    (hk : k < (entries w s).length) (e : DirEntry) {Q : Bool → World → Prop} (hE : ∀ err w', E err w') :
    wp P (eraseEntry ⟨p, pos⟩ e (20 * k) q) Q E w := by
  have hle := h.length_le
  rw [eraseEntry, show toInt32 (20 * k) = (20 * k : ℕ) from if_pos (by omega), wp_bind]
  refine wp_writeRecord hP h hk.le _ (fun w₁ hb _ _ => ?_) (fun w₁ hb _ _ _ => ?_) fun _ _ _ _ => hE _ _
  · rw [if_neg (by simp), wp_bind, inodeRemove, wp_bind, wp_deref, hb.closed q hq]
    exact hE _ _
  · rw [if_pos (by decide), wp_bind, inodeClose, wp_bind, wp_deref, hb.closed q hq]
    exact hE _ _

/-- The name is bound to a directory. -/
def BoundToDir (w : World) (s : ℕ) (name : List UInt8) : Prop :=
  ∃ k e, search (named name) (entries w s) 1 = some k ∧ (entries w s)[k]? = some e ∧
    (page w e.inodeSector).isDir = true

/-- Why `dir_remove` returns `false`: the name is not bound, or the record could not be written, unless it is that of a
directory. -/
def Unremoved (P : Policy) (w : World) (s : ℕ) (name : List UInt8) : Prop :=
  search (named name) (entries w s) 1 = none ∨ P.noSector ∨ ¬Allows w ∨ BoundToDir w s name

theorem wp_dirRemove (hP : P.NoFail) (h : DirOpen live w p s)
    (hc : ∀ k e, search (named name) (entries w s) 1 = some k → (entries w s)[k]? = some e →
      CanRemove live w s e.inodeSector) {Q : Bool → World → Prop}
    (hok : ∀ w', StillThere live s w w' → (Allows w → Allows w') → RemovedFrom w s name w' → Q true w')
    (hno : ∀ w', StillThere live s w w' → (Allows w → Allows w') → Kept s w w' → Unremoved P w s name → Q false w')
    (hE : BoundToDir w s name → ∀ err w', E err w') : wp P (dirRemove ⟨p, pos⟩ name) Q E w := by
  have hself : StillThere live s w w := ⟨by rw [surviving_eq h.ok]; exact h.dirOk, fun _ hq => hq⟩
  obtain ⟨_, _, _, _, hslive⟩ := h.inode
  rw [dirRemove, wp_bind]
  refine wp_lookup hP h (fun k e hfound he => ?_) fun hnone =>
    (wp_pure _).mpr (hno w hself (fun ha => ha) (.refl s w) (.inl hnone))
  obtain ⟨hlive, ht0, hts, hlen⟩ := hc k e hfound he
  obtain ⟨hk, _⟩ := List.getElem?_eq_some_iff.mp he
  simp only [wp_bind]
  refine wp_inodeOpen hP h.ok hlive fun q w₁ ho => ?_
  have hs₁ : Kept s w w₁ := ho.same.kept hslive h.ne_zero
  have hdir₁ : DirOpen live w₁ p s :=
    ⟨ho.ok, ho.holds h.ok h.holds, h.ne_zero, by rw [hs₁.length]; exact h.length⟩
  obtain ⟨i, hi, hsec⟩ := ho.holds_self
  have hpage : page w₁ e.inodeSector = i.data := by
    rw [← hsec]
    exact page_of_open ho.ok.mem hi
  -- what follows the opening, and what follows from it
  have hok₁ : ∀ w', StillThere live s w₁ w' → (Allows w₁ → Allows w') →
      entries w' s = put (entries w₁ s) k (entryAt (e.setInUse false) 0) → Q true w' := by
    intro w' hst hallow hput
    refine hok w' (hst.after fun _ hr => ho.holds h.ok hr) (fun ha => hallow (ho.allows ha)) ⟨k, e, hfound, he, ?_⟩
    rw [hput, hs₁.entries]
  have hno₁ : ∀ w', StillThere live s w₁ w' → (Allows w₁ → Allows w') → Kept s w₁ w' → Unremoved P w s name →
      Q false w' := fun w' hst hallow hk' hwhy =>
    hno w' (hst.after fun _ hr => ho.holds h.ok hr) (fun ha => hallow (ho.allows ha)) (hs₁.trans hk') hwhy
  have hpage₀ : (page w e.inodeSector).isDir = i.data.isDir := by
    rw [← (ho.same.kept hlive ht0).isDir, hpage]
  simp only [isInodeDir, wp_bind, wp_deref_some hi, wp_pure]
  by_cases hdir : i.data.isDir = true
  · have hbound : BoundToDir w s name := ⟨k, e, hfound, he, hpage₀.trans hdir⟩
    have hwhy : Unremoved P w s name := .inr (.inr (.inr hbound))
    have hlen₁ : (page w₁ e.inodeSector).length ≤ 8517120 := by
      have hkt := ho.same.kept hlive ht0
      rw [hkt.length]
      apply hlen
      rw [← hkt.isDir, hpage]
      exact hdir
    have hchild : DirOpen live w₁ q e.inodeSector := ⟨ho.ok, ⟨i, hi, hsec⟩, ht0, hlen₁⟩
    have hle := hchild.length_le
    have hmax := maxEntries_eq
    rw [if_pos hdir]
    simp only [dirOpen, wp_bind, wp_malloc]
    intro b hb
    rw [hP b hb]
    simp only [wp_pure, dirEmpty, wp_bind]
    -- the inode after `dir_close`, which gives the handle back a first time
    have hclose : ∀ empty : Bool, wp P (do
        dirClose (some ⟨q, 20⟩)
        if (!empty) = true then do
          inodeClose (some q)
          pure false
        else eraseEntry ⟨p, pos⟩ e (20 * k) q) Q E w₁ := by
      intro empty
      rw [dirClose, wp_bind]
      refine wp_inodeClose hP ho.ok hi (fun _ => by rwa [hsec]) (fun hmore => ?_) (fun hone hrem => ?_)
        fun hone hrem => ?_
      · obtain ⟨hok₂, hsame₂⟩ := ho.ok.closeOne hi hmore
        have hs₂ := hsame₂.kept hslive h.ne_zero
        have hdir₂ : DirOpen live (setInode w₁ q { i with openCnt := i.openCnt - 1 }) p s :=
          ⟨hok₂, hdir₁.holds.setInode hi rfl, h.ne_zero, by rw [hs₂.length]; exact hdir₁.length⟩
        have hi₂ : (setInode w₁ q { i with openCnt := i.openCnt - 1 }).mem.heap q =
            some { i with openCnt := i.openCnt - 1 } := Function.update_self _ _ _
        have hst : ∀ w', StillThere live s (setInode w₁ q { i with openCnt := i.openCnt - 1 }) w' →
            StillThere live s w₁ w' := fun w' h' => h'.after fun _ hr => hr.setInode hi rfl
        cases empty with
        | false =>
          rw [if_pos (by decide), wp_bind]
          exact wp_close_other hP hdir₂.dirOk hi₂ (by show i.sector ≠ s; rwa [hsec])
            (by show i.sector ≠ 0; rwa [hsec]) fun w' h' hallow hk' =>
            (wp_pure _).mpr (hno₁ w' (hst w' h') (fun ha => hallow (ha.setInode hi rfl)) (hs₂.trans hk') hwhy)
        | true =>
          rw [if_neg (by simp)]
          refine wp_eraseEntry hP hdir₂ hi₂ (by show i.sector ≠ s; rwa [hsec])
            (by show i.sector ≠ 0; rwa [hsec]) (by rw [hs₂.entries, hs₁.entries]; exact hk) e
            (fun w' h' hallow hput => hok₁ w' (hst w' h') (fun ha => hallow (ha.setInode hi rfl)) ?_)
            fun w' h' hallow hk' _ =>
              hno₁ w' (hst w' h') (fun ha => hallow (ha.setInode hi rfl)) (hs₂.trans hk') hwhy
          rw [hput, hs₂.entries]
      · -- that was the only handle: the inode is used after it has been freed
        obtain ⟨hok₂, hshrink⟩ := ho.ok.dropInode hi (by rwa [hsec])
        have hs₂ := ho.ok.kept_of_shrink hok₂ hshrink hslive h.ne_zero hdir₁.length
        have hfreed : (dropInode w₁ q).mem.heap q = none := Function.update_self _ _ _
        have hpq : p ≠ q := by
          obtain ⟨j, hj, hjs⟩ := hdir₁.holds
          intro heq
          rw [heq, hi] at hj
          obtain rfl := Option.some.inj hj
          exact hts (hsec.symm.trans hjs)
        have hdir₂ : DirOpen live (dropInode w₁ q) p s := by
          obtain ⟨j, hj, hjs⟩ := hdir₁.holds
          exact ⟨hok₂, ⟨j, dropInode_heap.mpr ⟨hpq, hj⟩, hjs⟩, h.ne_zero, by rw [hs₂.length]; exact hdir₁.length⟩
        cases empty with
        | false =>
          rw [if_pos (by decide), wp_bind, inodeClose, wp_bind, wp_deref, hfreed]
          exact hE hbound _ _
        | true =>
          rw [if_neg (by simp)]
          exact wp_eraseEntry_freed hP hdir₂ hfreed (by rw [hs₂.entries, hs₁.entries]; exact hk) e (hE hbound)
      · obtain ⟨j, hj, _, hcnt⟩ := (ho.lent h.ok).inode
        rw [hi] at hj
        obtain rfl := Option.some.inj hj
        rcases hcnt with hmore | ⟨_, hno, _⟩
        · omega
        · rw [hno] at hrem
          exact absurd hrem (by simp)
    exact wp_scanEntries hP hchild maxEntries 1 (by omega) (by omega)
      (fun _ _ _ _ => (wp_bind _ _).mp (hclose false)) fun _ => (wp_bind _ _).mp (hclose true)
  · rw [if_neg hdir]
    refine wp_eraseEntry hP hdir₁ hi (by rwa [hsec]) (by rwa [hsec]) (by rw [hs₁.entries]; exact hk) e hok₁
      fun w' hst hallow hk' hfail => hno₁ w' hst hallow hk' ?_
    exact hfail.elim (fun hn => .inr (.inl hn)) fun hn => .inr (.inr (.inl fun ha => hn (ho.allows ha)))

/-- `dir_open_root` on a freshly formatted file system. -/
theorem wp_dirOpenRoot (hP : P.NoFail) (h : Formatted P w) {Q : Option Dir → World → Prop}
    (hQ : ∀ q w', DirOpen {1, 0} w' q 1 → Q (some ⟨q, 20⟩) w') : wp P dirOpenRoot Q E w := by
  have hlive : (1 : ℕ) ∈ ({1, 0} : Set ℕ) := Set.mem_insert 1 {0}
  simp only [dirOpenRoot, dirOpen, wp_bind]
  refine wp_inodeOpen hP h.rest.ok hlive fun q w' ho => ?_
  rw [wp_malloc]
  intro b hb
  rw [hP b hb]
  have hkept : Kept 1 w w' := ho.same.kept hlive Nat.one_ne_zero
  apply (wp_pure _).mpr
  refine hQ q w' ⟨ho.ok, ho.holds_self, Nat.one_ne_zero, ?_⟩
  rw [hkept.length, h.rest.page_eq, h.root.length]
  omega

end Pintos.Filesys
