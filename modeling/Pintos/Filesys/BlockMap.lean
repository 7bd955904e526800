import Pintos.Filesys.Inode
import Pintos.Library.PtrForest

/-!
# The block map of an inode

The 125 sector numbers in a `struct inode_disk` are the roots of a pointer forest: `d_indir_block` of
level 2, `indir_block` of level 1, and 123 direct blocks of level 0.  `dataSec` is the sector of the
`i`-th data block and `byteAt` the byte at a position of the file; both are 0 where nothing has been
allocated.

`inode_read_at` returns the bytes of `byteAt`, and the write loop of `inode_write_at` changes exactly
those it is given.
-/

namespace Pintos.Filesys

open PtrForest

/-- The roots of a `struct inode_disk` and their levels. -/
def pageShape : Shape := ⟨125, fun k => if k = 0 then 2 else if k = 1 then 1 else 0, 128⟩

/-- The root under which data block `i` hangs. -/
def leafRoot (i : ℕ) : ℕ :=
  if i < 123 then i + 2 else if i < 251 then 1 else 0

/-- The path from its root to data block `i`. -/
def leafPath (i : ℕ) : List ℕ :=
  if i < 123 then []
  else if i < 251 then [i - 123]
  else [(i - 251) / 128, (i - 251) % 128]

/-- The sector of data block `i`, 0 if it has none. -/
def dataSec (disk : ℕ → Sector) (d : InodeDisk) (i : ℕ) : ℕ :=
  sec disk (d.word (leafRoot i)) (leafPath i)

/-- The byte at a position of the file; a block that does not exist reads as zeros. -/
def byteAt (disk : ℕ → Sector) (d : InodeDisk) (pos : ℕ) : UInt8 :=
  if dataSec disk d (pos / 512) = 0 then 0
  else (disk (dataSec disk d (pos / 512))).get (pos % 512)

theorem leafRoot_cases (i : ℕ) :
    (i < 123 ∧ leafRoot i = i + 2 ∧ leafPath i = []) ∨
    (123 ≤ i ∧ i < 251 ∧ leafRoot i = 1 ∧ leafPath i = [i - 123]) ∨
    (251 ≤ i ∧ leafRoot i = 0 ∧
      leafPath i = [(i - 251) / 128, (i - 251) % 128]) := by
  unfold leafRoot leafPath
  split
  · exact .inl ⟨‹_›, rfl, rfl⟩
  · split
    · exact .inr (.inl ⟨by omega, ‹_›, rfl, rfl⟩)
    · exact .inr (.inr ⟨by omega, rfl, rfl⟩)

theorem leaf_node {i : ℕ} (h : i < 16635) :
    Node pageShape (leafRoot i) (leafPath i) ∧
      (leafPath i).length = pageShape.level (leafRoot i) := by
  rcases leafRoot_cases i with ⟨hi, hr, hp⟩ | ⟨hi, hi', hr, hp⟩ | ⟨hi, hr, hp⟩
  · rw [hr, hp]
    refine ⟨⟨by show i + 2 < 125; omega, Nat.zero_le _, by simp⟩, ?_⟩
    show 0 = if i + 2 = 0 then 2 else if i + 2 = 1 then 1 else 0
    rw [if_neg (by omega), if_neg (by omega)]
  · rw [hr, hp]
    refine ⟨⟨by decide, le_refl _, ?_⟩, rfl⟩
    simp only [List.mem_singleton, forall_eq]
    show i - 123 < 128
    omega
  · rw [hr, hp]
    refine ⟨⟨by decide, le_refl _, ?_⟩, rfl⟩
    have h₁ : (i - 251) / 128 < 128 := by omega
    have h₂ : (i - 251) % 128 < 128 := by omega
    simpa using ⟨h₁, h₂⟩

theorem leaf_inj {i j : ℕ} (hr : leafRoot i = leafRoot j) (hp : leafPath i = leafPath j) : i = j := by
  rcases leafRoot_cases i with ⟨hi, hri, hpi⟩ | ⟨hi, hi', hri, hpi⟩ | ⟨hi, hri, hpi⟩ <;>
  rcases leafRoot_cases j with ⟨hj, hrj, hpj⟩ | ⟨hj, hj', hrj, hpj⟩ | ⟨hj, hrj, hpj⟩ <;>
  rw [hri, hrj] at hr <;> rw [hpi, hpj] at hp <;> try omega
  · have := List.cons.inj hp
    omega
  · obtain ⟨h₁, h₂⟩ := List.cons.inj hp
    have h₃ := (List.cons.inj h₂).1
    omega

/-- The pointers of a page are those of another wherever they are set, and the rest of the header
agrees. -/
structure PageLe (d d' : InodeDisk) : Prop where
  word : ∀ k, k < 125 → d.word k = 0 ∨ d.word k = d'.word k
  tail : ∀ i, 500 ≤ i → d.get i = d'.get i

theorem PageLe.refl (d : InodeDisk) : PageLe d d := ⟨fun _ _ => .inr rfl, fun _ _ => rfl⟩

theorem PageLe.length {d d' : InodeDisk} (h : PageLe d d') : d.length = d'.length := by
  unfold InodeDisk.length
  congr 1
  exact Bytes.le32_congr fun i hi => h.tail _ (by omega)

theorem PageLe.isDir {d d' : InodeDisk} (h : PageLe d d') : d.isDir = d'.isDir := by
  unfold InodeDisk.isDir
  rw [h.tail 508 (by omega)]

/-- Data block `i` exists and the way to it stays on the device. -/
structure Present (fsSize : ℕ) (disk : ℕ → Sector) (d : InodeDisk) (i : ℕ) : Prop where
  lt : i < 16635
  ne_zero : dataSec disk d i ≠ 0
  range : ∀ m, sec disk (d.word (leafRoot i)) ((leafPath i).take m) < fsSize

theorem Present.dataSec_lt {fsSize : ℕ} {disk : ℕ → Sector} {d : InodeDisk} {i : ℕ}
    (h : Present fsSize disk d i) : dataSec disk d i < fsSize := by
  have := h.range (leafPath i).length
  rwa [List.take_length] at this

/-- Every block below the length of the inode is present. -/
def Mapped (fsSize : ℕ) (disk : ℕ → Sector) (d : InodeDisk) : Prop :=
  ∀ i : ℕ, ((512 * i : ℕ) : ℤ) < d.length → Present fsSize disk d i

/-- The allocator never fails. -/
def Policy.NoFail (P : Policy) : Prop := ∀ b, P.malloc b → b = true

theorem Policy.memory_noFail : Policy.memory.NoFail := fun _ h => h

section Rules

variable {P : Policy} {E : Stop → World → Prop} {w : World}

/-- With memory available, `sector_number` finds the sector of a block that is present. -/
theorem wp_sectorNumber (hP : P.NoFail) {d : InodeDisk} {i : ℕ}
    (hi : Present w.mem.fsSize w.disk d i) {Q : ℕ → World → Prop} (h : Q (dataSec w.disk d i) w) :
    wp P (sectorNumber d i) Q E w := by
  have hlt := hi.lt
  have hsec := hi.ne_zero
  have hrange := hi.range
  rw [dataSec] at h hsec
  rcases leafRoot_cases i with ⟨hd, hr, hp⟩ | ⟨hd, hd', hr, hp⟩ | ⟨hd, hr, hp⟩ <;> rw [sectorNumber]
  · rw [if_pos (by omega), if_neg (by omega)]
    rw [hr, hp] at h
    exact (wp_pure _).mpr h
  · rw [if_neg (by omega), if_pos (by omega)]
    rw [hr, hp] at h hsec hrange
    have h0 : d.word 1 ≠ 0 := by
      intro h0
      rw [h0, sec_zero] at hsec
      exact hsec rfl
    rw [sec_cons h0] at h
    simp only [wp_bind, wp_malloc]
    intro b hb
    rw [hP b hb, if_pos rfl, wp_bind, wp_bufferCacheRead, if_pos (by exact hrange 0)]
    exact (wp_pure _).mpr h
  · rw [if_neg (by omega), if_neg (by omega), if_pos (by omega)]
    rw [hr, hp] at h hsec hrange
    have h0 : d.word 0 ≠ 0 := by
      intro h0
      rw [h0, sec_zero] at hsec
      exact hsec rfl
    have h1 : (w.disk (d.word 0)).word ((i - 251) / 128) ≠ 0 := by
      intro h1
      rw [sec_cons h0, h1, sec_zero] at hsec
      exact hsec rfl
    have hr1 := hrange 1
    rw [List.take_succ_cons, sec_cons h0] at hr1
    rw [sec_cons h0, sec_cons h1] at h
    simp only [wp_bind, wp_malloc]
    intro b hb
    rw [hP b hb, if_pos rfl]
    simp only [wp_bind, wp_bufferCacheRead]
    rw [if_pos (by exact hrange 0), if_pos (by exact hr1)]
    exact (wp_pure _).mpr h

theorem wp_byteToSector (hP : P.NoFail) {p : ℕ} {i : Inode} (hi : w.mem.heap p = some i)
    (hm : Mapped w.mem.fsSize w.disk i.data) {pos : ℕ} {Q : ℕ → World → Prop}
    (hlt : (pos : ℤ) < i.data.length → Q (dataSec w.disk i.data (pos / 512)) w)
    (hge : i.data.length ≤ pos → Q (2 ^ 32 - 1) w) : wp P (byteToSector p pos) Q E w := by
  unfold byteToSector
  rw [wp_bind, wp_deref_some hi]
  by_cases h : (pos : ℤ) < i.data.length
  · rw [if_pos h]
    have hdiv : (pos : ℤ).tdiv 512 = ((pos / 512 : ℕ) : ℤ) := by
      rw [Int.tdiv_eq_ediv_of_nonneg (by omega)]
      rfl
    rw [hdiv]
    exact wp_sectorNumber hP (hm (pos / 512) (by omega)) (hlt h)
  · rw [if_neg h]
    exact (wp_pure _).mpr (hge (by omega))

/-- The size of the piece that a pass of the read or write loop copies. -/
theorem chunk_eq {len ofs size : ℕ} {length : ℤ} (hlen : length = len) (hl : len < 2 ^ 31)
    (hofs : ofs < 2 ^ 31) (hlt : ofs < len) :
    min (size : ℤ) (min (wrap32 (length - ofs)) (512 - (ofs : ℤ).tmod 512)) =
      ((min size (min (len - ofs) (512 - ofs % 512)) : ℕ) : ℤ) := by
  rw [wrap32_of_mem (by omega) (by omega), Int.tmod_eq_emod_of_nonneg (by omega), hlen]
  omega

theorem slice_byteAt {disk : ℕ → Sector} {d : InodeDisk} {ofs c : ℕ}
    (h0 : dataSec disk d (ofs / 512) ≠ 0) (hc : ofs % 512 + c ≤ 512) :
    Bytes.slice (disk (dataSec disk d (ofs / 512))).get (ofs % 512) c =
      Bytes.slice (byteAt disk d) ofs c := by
  refine Bytes.slice_congr fun i hi => ?_
  have hdiv : (ofs + i) / 512 = ofs / 512 := by omega
  have hmod : (ofs + i) % 512 = ofs % 512 + i := by omega
  rw [byteAt, hdiv, if_neg h0, hmod]

/-- The read loop returns the bytes from the offset up to the end of the file or of the request. -/
theorem wp_inodeReadLoop (hP : P.NoFail) {p : ℕ} {i : Inode} (hi : w.mem.heap p = some i)
    (hm : Mapped w.mem.fsSize w.disk i.data) {len : ℕ} (hlen : i.data.length = len) :
    ∀ (fuel size ofs : ℕ) (bounce : Bool) (Q : List UInt8 → World → Prop), size ≤ fuel →
      ofs < 2 ^ 31 → Q (Bytes.slice (byteAt w.disk i.data) ofs (min size (len - ofs))) w →
      wp P (inodeReadLoop p fuel size ofs bounce) Q E w := by
  have hl : len < 2 ^ 31 := by
    have := (toInt32_bounds (i.data.word_lt 125)).2
    unfold InodeDisk.length at hlen
    omega
  intro fuel
  induction fuel with
  | zero =>
    intro size ofs bounce Q hsize _ h
    obtain rfl : size = 0 := by omega
    simpa [inodeReadLoop] using h
  | succ fuel ih =>
    intro size ofs bounce Q hsize hofs h
    rw [inodeReadLoop]
    by_cases hs0 : size = 0
    · subst hs0
      rw [if_pos (by simp)]
      simpa using h
    rw [if_neg (by omega), wp_bind]
    refine wp_byteToSector hP hi hm (fun hlt => ?_) (fun hge => ?_)
    · have hlt' : ofs < len := by omega
      simp only [inodeLength, wp_bind, wp_deref_some hi, wp_pure]
      rw [chunk_eq hlen hl hofs hlt']
      set c := min size (min (len - ofs) (512 - ofs % 512)) with hc
      have hc0 : 0 < c := by omega
      have hpres := hm (ofs / 512) (by rw [hlen]; push_cast; omega)
      have hmod : (ofs : ℤ).tmod 512 = ((ofs % 512 : ℕ) : ℤ) := by
        rw [Int.tmod_eq_emod_of_nonneg (by omega)]
        rfl
      -- what is left after this chunk
      have hrest : min size (len - ofs) = c + min (size - c) (len - (ofs + c)) := by omega
      rw [hrest, Bytes.slice_add, ← slice_byteAt hpres.ne_zero (by omega)] at h
      have hsub : (size : ℤ) - (c : ℤ) = ((size - c : ℕ) : ℤ) := by omega
      have hadd : (ofs : ℤ) + (c : ℤ) = ((ofs + c : ℕ) : ℤ) := by omega
      rw [if_neg (by omega), hmod, hsub, hadd]
      by_cases hfull : ((ofs % 512 : ℕ) : ℤ) = 0 ∧ (c : ℤ) = 512
      · rw [if_pos hfull]
        simp only [wp_bind, wp_bufferCacheRead, if_pos hpres.dataSec_lt]
        refine ih (size - c) (ofs + c) bounce _ (by omega) (by omega) ?_
        have h0 : ofs % 512 = 0 := by omega
        have h1 : c = 512 := by omega
        rw [h0, h1] at h
        rw [h1]
        exact (wp_pure _).mpr h
      · rw [if_neg hfull]
        have hgo : wp P (do
            let b ← bufferCacheRead (dataSec w.disk i.data (ofs / 512))
            if ((ofs % 512 : ℕ) : ℤ) < 0 then
              .stop .outOfBounds
            else
              let rest ← inodeReadLoop p fuel ((size - c : ℕ) : ℤ) ((ofs + c : ℕ) : ℤ) true
              return Bytes.slice b.get ((ofs % 512 : ℕ) : ℤ).toNat (c : ℤ).toNat ++ rest)
            Q E w := by
          simp only [wp_bind, wp_bufferCacheRead, if_pos hpres.dataSec_lt]
          rw [if_neg (by omega), wp_bind]
          exact ih (size - c) (ofs + c) true _ (by omega) (by omega) ((wp_pure _).mpr h)
        cases bounce with
        | true => simpa using hgo
        | false =>
          simp only [wp_bind, Bool.false_eq_true, if_false, wp_malloc]
          intro b hb
          rw [hP b hb]
          simpa using hgo
    · simp only [inodeLength, wp_bind, wp_deref_some hi, wp_pure]
      rw [if_pos]
      · have : len - ofs = 0 := by omega
        simpa [this] using h
      · rw [wrap32_of_mem (by omega) (by omega)]
        omega

/-- **`inode_read_at` returns the bytes of the file.** -/
theorem wp_inodeReadAt (hP : P.NoFail) {p : ℕ} {i : Inode} (hi : w.mem.heap p = some i)
    (hm : Mapped w.mem.fsSize w.disk i.data) {len : ℕ} (hlen : i.data.length = len) {size ofs : ℕ}
    (hofs : ofs < 2 ^ 31) {Q : List UInt8 → World → Prop}
    (h : Q (Bytes.slice (byteAt w.disk i.data) ofs (min size (len - ofs))) w) :
    wp P (inodeReadAt p size ofs) Q E w :=
  wp_inodeReadLoop hP hi hm hlen _ size ofs false Q (by simp) hofs h

/-! ### Writing inside the file -/

/-- The disk after `size` bytes of `buf` have been written at `ofs` into the data blocks of a page:
only sectors of data blocks in that range have changed, and only the bytes of the range. -/
structure Written (disk : ℕ → Sector) (d : InodeDisk) (ofs size : ℕ) (buf : ℕ → UInt8)
    (disk' : ℕ → Sector) : Prop where
  frame : ∀ s, (∀ k, 512 * k < ofs + size → ofs < 512 * k + 512 → dataSec disk d k ≠ s) →
    disk' s = disk s
  byte : ∀ pos, byteAt disk' d pos = Bytes.splice (byteAt disk d) ofs size buf pos

variable {D A : ℕ → Prop}

/-- The sectors of two data blocks differ. -/
theorem dataSec_inj {disk : ℕ → Sector} {d : InodeDisk} (ho : Ok pageShape D A disk d.word) {i j : ℕ}
    (hi : i < 16635) (hj : j < 16635) (h : dataSec disk d i = dataSec disk d j)
    (h0 : dataSec disk d i ≠ 0) : i = j := by
  obtain ⟨hr, hp⟩ := ho.inj _ _ _ _ (leaf_node hi).1 (leaf_node hj).1 h h0
  exact leaf_inj hr hp

/-- Changing data blocks moves no node of the forest. -/
theorem sec_of_data_change {disk disk' : ℕ → Sector} {d : InodeDisk}
    (ho : Ok pageShape D A disk d.word)
    (hd : ∀ s, (∀ k, k < 16635 → dataSec disk d k ≠ s) → disk' s = disk s) {k : ℕ} {π : List ℕ}
    (hn : Node pageShape k π) : sec disk' (d.word k) π = sec disk (d.word k) π := by
  refine sec_congr fun m hm hne => hd _ fun j hj heq => ?_
  obtain ⟨hk, hp⟩ := ho.inj _ _ _ _ (leaf_node hj).1 (hn.take m) heq
    (by rw [dataSec] at heq; rw [heq]; exact hne)
  have hlen := (leaf_node hj).2
  rw [hk, hp, List.length_take] at hlen
  have := hn.length
  omega

theorem dataSec_of_data_change {disk disk' : ℕ → Sector} {d : InodeDisk}
    (ho : Ok pageShape D A disk d.word)
    (hd : ∀ s, (∀ k, k < 16635 → dataSec disk d k ≠ s) → disk' s = disk s) {i : ℕ}
    (hi : i < 16635) : dataSec disk' d i = dataSec disk d i :=
  sec_of_data_change ho hd (leaf_node hi).1

/-- There are no blocks past the last one a page can name. -/
theorem dataSec_ge {disk : ℕ → Sector} {d : InodeDisk} {i : ℕ} (h : 16635 ≤ i) :
    dataSec disk d i = 0 := by
  rcases leafRoot_cases i with ⟨hi, _, _⟩ | ⟨_, hi, _, _⟩ | ⟨hi, hr, hp⟩
  · omega
  · omega
  · rw [dataSec, hr, hp]
    by_cases h0 : d.word 0 = 0
    · rw [h0, sec_zero]
    · have hw : (disk (d.word 0)).word ((i - 251) / 128) = 0 := by
        simp only [Block.word, Bytes.le32]
        rw [Block.get_of_ge (by omega), Block.get_of_ge (by omega), Block.get_of_ge (by omega),
          Block.get_of_ge (by omega)]
        rfl
      rw [sec_cons h0, hw, sec_zero]

/-- What a change of data blocks in a range leaves as it is. -/
theorem Written.other {disk disk' : ℕ → Sector} {d : InodeDisk} {ofs size : ℕ} {buf : ℕ → UInt8}
    (h : Written disk d ofs size buf disk') (hr : ofs + size ≤ 8517120) {s : ℕ}
    (hs : ∀ k, k < 16635 → dataSec disk d k ≠ s) : disk' s = disk s :=
  h.frame s fun k hk _ => hs k (by omega)

theorem Written.refl (disk : ℕ → Sector) (d : InodeDisk) (ofs : ℕ) (buf : ℕ → UInt8) :
    Written disk d ofs 0 buf disk :=
  ⟨fun _ _ => rfl, fun pos => (Bytes.splice_outside (by omega)).symm⟩

/-- Two writes one after the other. -/
theorem Written.trans {disk disk₁ disk₂ : ℕ → Sector} {d : InodeDisk} {ofs c n : ℕ}
    {buf : ℕ → UInt8} (ho : Ok pageShape D A disk d.word) (hr : ofs + c + n ≤ 8517120)
    (h₁ : Written disk d ofs c buf disk₁)
    (h₂ : Written disk₁ d (ofs + c) n (fun i => buf (i + c)) disk₂) (hc : 0 < c) :
    Written disk d ofs (c + n) buf disk₂ := by
  have hsec : ∀ k, k < 16635 → dataSec disk₁ d k = dataSec disk d k := fun k hk =>
    dataSec_of_data_change ho (fun _ => h₁.other (by omega)) hk
  refine ⟨fun s hs => ?_, fun pos => ?_⟩
  · rw [h₂.frame s fun k hk hk' => ?_, h₁.frame s fun k hk hk' => hs k (by omega) hk']
    rw [hsec k (by omega)]
    exact hs k (by omega) (by omega)
  · rw [h₂.byte pos]
    by_cases h : ofs + c ≤ pos ∧ pos < ofs + c + n
    · rw [Bytes.splice_inside h.1 h.2, Bytes.splice_inside (by omega) (by omega)]
      congr 1
      omega
    · rw [Bytes.splice_outside (by omega), h₁.byte pos]
      by_cases h' : ofs ≤ pos ∧ pos < ofs + c
      · rw [Bytes.splice_inside h'.1 h'.2, Bytes.splice_inside (by omega) (by omega)]
      · rw [Bytes.splice_outside (by omega), Bytes.splice_outside (by omega)]

/-- One pass of the write loop: a range inside one data block. -/
theorem Written.chunk {disk : ℕ → Sector} {d : InodeDisk} {ofs c : ℕ} {buf : ℕ → UInt8}
    (ho : Ok pageShape D A disk d.word) (hb : ofs / 512 < 16635)
    (h0 : dataSec disk d (ofs / 512) ≠ 0) (hc0 : 0 < c) (hc : ofs % 512 + c ≤ 512) :
    Written disk d ofs c buf (Function.update disk (dataSec disk d (ofs / 512))
      ((disk (dataSec disk d (ofs / 512))).splice (ofs % 512) c buf)) := by
  set b := dataSec disk d (ofs / 512) with hbdef
  have hframe : ∀ s, (∀ k, 512 * k < ofs + c → ofs < 512 * k + 512 → dataSec disk d k ≠ s) →
      Function.update disk b ((disk b).splice (ofs % 512) c buf) s = disk s := fun s hs =>
    Function.update_of_ne (fun heq => hs (ofs / 512) (by omega) (by omega) heq.symm) _ _
  refine ⟨hframe, fun pos => ?_⟩
  by_cases hp : pos / 512 < 16635
  · have hsec : dataSec (Function.update disk b ((disk b).splice (ofs % 512) c buf)) d (pos / 512) =
        dataSec disk d (pos / 512) :=
      dataSec_of_data_change ho (fun s hs => hframe s fun k _ _ => hs k (by omega)) hp
    by_cases hpb : pos / 512 = ofs / 512
    · rw [byteAt, hsec, hpb, ← hbdef, if_neg h0, Function.update_self,
        Block.get_splice (Nat.mod_lt _ (by omega))]
      unfold Bytes.splice
      by_cases hin : ofs ≤ pos ∧ pos < ofs + c
      · rw [if_pos hin, if_pos (by omega)]
        congr 1
        omega
      · rw [if_neg hin, if_neg (by omega), byteAt, hpb, ← hbdef, if_neg h0]
    · rw [Bytes.splice_outside (by omega), byteAt, byteAt, hsec]
      split
      · rfl
      · next hne =>
        rw [Function.update_of_ne]
        intro heq
        exact hpb (dataSec_inj ho hp hb heq hne)
  · rw [Bytes.splice_outside (by omega), byteAt, byteAt, dataSec_ge (by omega),
      dataSec_ge (by omega), if_pos rfl, if_pos rfl]

/-- Presence of blocks does not depend on what data blocks hold. -/
theorem Mapped.of_data_change {fsSize : ℕ} {disk disk' : ℕ → Sector} {d : InodeDisk}
    (ho : Ok pageShape D A disk d.word) (h : Mapped fsSize disk d)
    (hd : ∀ s, (∀ k, k < 16635 → dataSec disk d k ≠ s) → disk' s = disk s) :
    Mapped fsSize disk' d := by
  intro i hi
  obtain ⟨hlt, hne, hr⟩ := h i hi
  refine ⟨hlt, ?_, fun m => ?_⟩
  · rw [dataSec_of_data_change ho hd hlt]
    exact hne
  · rw [sec_of_data_change ho hd ((leaf_node hlt).1.take m)]
    exact hr m

theorem ok_of_data_change {disk disk' : ℕ → Sector} {d : InodeDisk}
    (ho : Ok pageShape D A disk d.word)
    (hd : ∀ s, (∀ k, k < 16635 → dataSec disk d k ≠ s) → disk' s = disk s) :
    Ok pageShape D A disk' d.word where
  alloc k π hn h0 := by
    rw [sec_of_data_change ho hd hn] at h0 ⊢
    exact ho.alloc k π hn h0
  inj k π k' π' hn hn' heq h0 := by
    rw [sec_of_data_change ho hd hn] at h0 heq
    rw [sec_of_data_change ho hd hn'] at heq
    exact ho.inj k π k' π' hn hn' heq h0

/-- **The write loop inside the file** stores all it is given. -/
theorem wp_inodeWriteLoop (hP : P.NoFail) {p : ℕ} {i : Inode} {len : ℕ}
    (hlen : i.data.length = len) (hmax : len ≤ 8517120) :
    ∀ (fuel size ofs : ℕ) (buf : ℕ → UInt8) (bounce : Bool) (w : World) (Q : ℤ → World → Prop),
      w.mem.heap p = some i → Mapped w.mem.fsSize w.disk i.data →
      Ok pageShape D A w.disk i.data.word → size ≤ fuel → ofs + size ≤ len →
      (∀ disk', Written w.disk i.data ofs size buf disk' → Q size { w with disk := disk' }) →
      wp P (inodeWriteLoop p fuel buf size ofs bounce) Q E w := by
  intro fuel
  induction fuel with
  | zero =>
    intro size ofs buf bounce w Q _ _ _ hsize _ h
    obtain rfl : size = 0 := by omega
    exact (wp_pure _).mpr (h w.disk (Written.refl _ _ _ _))
  | succ fuel ih =>
    intro size ofs buf bounce w Q hi hm ho hsize hend h
    rw [inodeWriteLoop]
    by_cases hs0 : size = 0
    · subst hs0
      rw [if_pos (by simp)]
      exact (wp_pure _).mpr (h w.disk (Written.refl _ _ _ _))
    rw [if_neg (by omega), wp_bind]
    refine wp_byteToSector hP hi hm (fun hlt => ?_) (fun hge => by omega)
    simp only [inodeLength, wp_bind, wp_deref_some hi, wp_pure]
    rw [chunk_eq hlen (by omega) (by omega) (by omega)]
    set c := min size (min (len - ofs) (512 - ofs % 512)) with hc
    have hc0 : 0 < c := by omega
    have hcs : ofs % 512 + c ≤ 512 := by omega
    have hpres := hm (ofs / 512) (by rw [hlen]; push_cast; omega)
    have hmod : (ofs : ℤ).tmod 512 = ((ofs % 512 : ℕ) : ℤ) := by
      rw [Int.tmod_eq_emod_of_nonneg (by omega)]
      rfl
    have hsub : (size : ℤ) - (c : ℤ) = ((size - c : ℕ) : ℤ) := by omega
    have hadd : (ofs : ℤ) + (c : ℤ) = ((ofs + c : ℕ) : ℤ) := by omega
    have htot : c + (size - c) = size := by omega
    rw [if_neg (by omega), hmod, hsub, hadd]
    -- the disk after this chunk, and the rest of the loop from there
    have hw₁ : Written w.disk i.data ofs c buf _ := .chunk ho hpres.lt hpres.ne_zero hc0 hcs
    set disk₁ : ℕ → Sector := Function.update w.disk (dataSec w.disk i.data (ofs / 512))
      ((w.disk (dataSec w.disk i.data (ofs / 512))).splice (ofs % 512) c buf) with hdisk₁
    have hd₁ := fun s => hw₁.other (s := s) (by omega)
    have hgo : ∀ bounce', wp P (inodeWriteLoop p fuel (fun i => buf (i + (c : ℤ).toNat))
          ((size - c : ℕ) : ℤ) ((ofs + c : ℕ) : ℤ) bounce') (fun rest w' => Q ((c : ℤ) + rest) w') E
        { w with disk := disk₁ } := by
      intro bounce'
      refine ih (size - c) (ofs + c) _ bounce' _ _ hi (hm.of_data_change ho hd₁)
        (ok_of_data_change ho hd₁) (by omega) (by omega) fun disk' hw₂ => ?_
      have hcast : (c : ℤ) + ((size - c : ℕ) : ℤ) = (size : ℤ) := by omega
      rw [hcast]
      refine h disk' ?_
      have htr := hw₁.trans (n := size - c) ho (by omega) (by simpa using hw₂) hc0
      rwa [htot] at htr
    by_cases hfull : ((ofs % 512 : ℕ) : ℤ) = 0 ∧ (c : ℤ) = 512
    · rw [if_pos hfull]
      simp only [wp_bind, wp_bufferCacheWrite, if_pos hpres.dataSec_lt, wp_pure]
      have hblock : (w.disk (dataSec w.disk i.data (ofs / 512))).splice (ofs % 512) c buf =
          Block.mk buf := by
        ext j hj
        have h0 : ofs % 512 = 0 := by omega
        rw [Block.get_splice hj, Bytes.splice_inside (by omega) (by omega), Block.get_mk hj, h0,
          Nat.sub_zero]
      have := hgo bounce
      rw [hdisk₁, hblock] at this
      exact this
    · rw [if_neg hfull]
      have hread : ((ofs % 512 : ℕ) : ℤ) > 0 ∨ (c : ℤ) < 512 - ((ofs % 512 : ℕ) : ℤ) := by omega
      have hpart : wp P (do
          let b ← if ((ofs % 512 : ℕ) : ℤ) > 0 ∨ (c : ℤ) < 512 - ((ofs % 512 : ℕ) : ℤ) then
              bufferCacheRead (dataSec w.disk i.data (ofs / 512))
            else pure Block.zero
          if ((ofs % 512 : ℕ) : ℤ) < 0 then
            .stop .outOfBounds
          else
            bufferCacheWrite (dataSec w.disk i.data (ofs / 512))
              (b.splice ((ofs % 512 : ℕ) : ℤ).toNat (c : ℤ).toNat buf)
            let rest ← inodeWriteLoop p fuel (fun i => buf (i + (c : ℤ).toNat))
              ((size - c : ℕ) : ℤ) ((ofs + c : ℕ) : ℤ) true
            return (c : ℤ) + rest) Q E w := by
        rw [if_pos hread]
        simp only [wp_bind, wp_bufferCacheRead, if_pos hpres.dataSec_lt]
        rw [if_neg (by omega)]
        simp only [wp_bind, wp_bufferCacheWrite, if_pos hpres.dataSec_lt, wp_pure]
        exact hgo true
      cases bounce with
      | true => simpa using hpart
      | false =>
        simp only [Bool.false_eq_true, if_false, wp_bind, wp_malloc]
        intro b hb
        rw [hP b hb]
        simpa using hpart

end Rules

end Pintos.Filesys
