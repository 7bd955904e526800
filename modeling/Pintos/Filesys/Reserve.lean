import Pintos.Filesys.FreeMapFile

/-!
# Reserving the blocks of an inode

`reserve_indir` and `inode_reserve` let the pointer forest of a page grow (`PtrForest.Grow`) until it
has all the blocks below a length, or until the device is full.

* `FmKeep` is what such a step keeps of the free map and its file while it writes other sectors.
* `Reserved` is the specification of `reserve_indir`, proved by induction on the level; the loop over
  the pointers of an index block keeps that the pointers read so far have grown.
-/

namespace Pintos.Filesys

open PtrForest

/-! ### Steps that keep the free map file -/

/-- The sectors of the free map file, index blocks included. -/
def FmNode (w : World) (s : ℕ) : Prop :=
  ∃ f i k π, w.mem.freeMapFile = some f ∧ w.mem.heap f.inode = some i ∧ Node pageShape k π ∧
    sec w.disk (i.data.word k) π = s ∧ s ≠ 0

/-- Every sector is in use. -/
def Full (w : World) : Prop := ∀ s, s < w.mem.fsSize → Allocated w s

theorem FmNode.of_data {w : World} {s : ℕ} (h : FmData w s) : FmNode w s := by
  obtain ⟨f, i, k, hf, hi, hk, heq, h0⟩ := h
  exact ⟨f, i, _, _, hf, hi, (leaf_node hk).1, heq, h0⟩

theorem FmOk.node_allocated {w : World} (h : FmOk w) {s : ℕ} (hs : FmNode w s) : Allocated w s := by
  obtain ⟨f, i, k, π, hf, hi, hn, rfl, h0⟩ := hs
  obtain ⟨i', hi'⟩ := h.file f hf
  obtain rfl : i = i' := Option.some.inj (hi.symm.trans hi'.heap)
  exact (hi'.forest.alloc k π hn h0).1

/-- A step that allocates sectors and writes to sectors outside the free map file, and that may change
other in-memory inodes. -/
structure FmKeep (w w' : World) : Prop where
  mem : w'.mem = { w.mem with freeMap := w'.mem.freeMap, heap := w'.mem.heap }
  file : ∀ f, w.mem.freeMapFile = some f → w'.mem.heap f.inode = w.mem.heap f.inode
  bitCnt : w'.mem.freeMap.bitCnt = w.mem.freeMap.bitCnt
  mono : ∀ s, Allocated w s → Allocated w' s
  ok : FmOk w'
  sec : ∀ f i k π, w.mem.freeMapFile = some f → w.mem.heap f.inode = some i → Node pageShape k π →
    sec w'.disk (i.data.word k) π = sec w.disk (i.data.word k) π
  sync : Synced w → Synced w'

section

variable {w w' w'' : World}

theorem FmKeep.freeMapFile (h : FmKeep w w') : w'.mem.freeMapFile = w.mem.freeMapFile := by
  rw [h.mem]

theorem FmKeep.fsSize (h : FmKeep w w') : w'.mem.fsSize = w.mem.fsSize := by rw [h.mem]

theorem FmKeep.node (h : FmKeep w w') (s : ℕ) : FmNode w' s ↔ FmNode w s := by
  constructor
  · rintro ⟨f, i, k, π, hf, hi, hn, heq, h0⟩
    rw [h.freeMapFile] at hf
    rw [h.file f hf] at hi
    exact ⟨f, i, k, π, hf, hi, hn, (h.sec f i k π hf hi hn).symm.trans heq, h0⟩
  · rintro ⟨f, i, k, π, hf, hi, hn, heq, h0⟩
    refine ⟨f, i, k, π, h.freeMapFile.trans hf, (h.file f hf).trans hi, hn, ?_, h0⟩
    exact (h.sec f i k π hf hi hn).trans heq

theorem FmKeep.refl (h : FmOk w) : FmKeep w w :=
  ⟨rfl, fun _ _ => rfl, rfl, fun _ => id, h, fun _ _ _ _ _ _ _ => rfl, id⟩

theorem FmKeep.trans (h₁ : FmKeep w w') (h₂ : FmKeep w' w'') : FmKeep w w'' where
  mem := by
    rw [h₂.mem, h₁.mem]
  file f hf := (h₂.file f (h₁.freeMapFile.trans hf)).trans (h₁.file f hf)
  bitCnt := h₂.bitCnt.trans h₁.bitCnt
  mono s hs := h₂.mono s (h₁.mono s hs)
  ok := h₂.ok
  sec f i k π hf hi hn := by
    rw [h₂.sec f i k π (h₁.freeMapFile.trans hf) ((h₁.file f hf).trans hi) hn]
    exact h₁.sec f i k π hf hi hn
  sync hs := h₂.sync (h₁.sync hs)

theorem FmKeep.full (h : FmKeep w w') (hf : Full w) : Full w' := fun s hs =>
  h.mono s (hf s (by rwa [h.fsSize] at hs))

/-- An allocation is such a step. -/
theorem FmStep.keep (h : FmStep w w') (hok : FmOk w) (hmono : ∀ s, Allocated w s → Allocated w' s)
    (hsync : Synced w') : FmKeep w w' where
  mem := by
    rw [h.mem]
  file _ _ := by rw [h.heap]
  bitCnt := h.bitCnt
  mono := hmono
  ok := h.ok
  sec f i k π hf hi hn := by
    obtain ⟨i', hi'⟩ := hok.file f hf
    obtain rfl : i = i' := Option.some.inj (hi.symm.trans hi'.heap)
    refine sec_of_data_change hi'.forest (fun s hs => h.disk s ?_) hn
    rintro ⟨f₂, i₂, k₂, hf₂, hi₂, hk₂, heq, _⟩
    obtain rfl : f = f₂ := Option.some.inj (hf.symm.trans hf₂)
    obtain rfl : i = i₂ := Option.some.inj (hi.symm.trans hi₂)
    exact hs k₂ hk₂ heq
  sync _ := hsync

/-- The free map file does not see changes of memory and disk outside it. -/
theorem FmOk.keep_of_other (h : FmOk w) {heap : ℕ → Option Inode} {disk : ℕ → Sector}
    (hheap : ∀ f, w.mem.freeMapFile = some f → heap f.inode = w.mem.heap f.inode)
    (hdisk : ∀ s, FmNode w s → disk s = w.disk s) :
    FmKeep w ⟨{ w.mem with heap := heap }, disk⟩ := by
  have hsec : ∀ f i k π, w.mem.freeMapFile = some f → w.mem.heap f.inode = some i →
      Node pageShape k π → sec disk (i.data.word k) π = sec w.disk (i.data.word k) π := by
    intro f i k π hf hi hn
    exact sec_congr fun m _ hne => hdisk _ ⟨f, i, k, _, hf, hi, hn.take m, rfl, hne⟩
  have hdata : ∀ f i j, w.mem.freeMapFile = some f → w.mem.heap f.inode = some i → j < 16635 →
      dataSec disk i.data j = dataSec w.disk i.data j := fun f i j hf hi hj =>
    hsec f i _ _ hf hi (leaf_node hj).1
  refine ⟨rfl, hheap, rfl, fun s hs => hs, ⟨h.bitCnt, h.fsSize, h.zero, fun f hf => ?_⟩, hsec,
    fun hs f i hf hi t ht => ?_⟩
  · obtain ⟨i, hi⟩ := h.file f hf
    refine ⟨i, (hheap f hf).trans hi.heap, hi.sector, hi.allow, hi.size, hi.max, fun k hk => ?_,
      fun k π hn hne => ?_, fun k π k' π' hn hn' heq hne => ?_⟩
    · obtain ⟨hlt, hne, hr⟩ := hi.mapped k hk
      refine ⟨hlt, ?_, fun m => ?_⟩
      · rw [hdata f i k hf hi.heap hlt]
        exact hne
      · rw [hsec f i _ _ hf hi.heap ((leaf_node hlt).1.take m)]
        exact hr m
    · rw [hsec f i k π hf hi.heap hn] at hne ⊢
      exact hi.forest.alloc k π hn hne
    · rw [hsec f i k π hf hi.heap hn] at heq hne
      rw [hsec f i k' π' hf hi.heap hn'] at heq
      exact hi.forest.inj k π k' π' hn hn' heq hne
  · have hi' : w.mem.heap f.inode = some i := (hheap f hf).symm.trans hi
    have hbyte : byteAt disk i.data (t / 8) = byteAt w.disk i.data (t / 8) := by
      unfold byteAt
      by_cases hp : t / 8 / 512 < 16635
      · rw [hdata f i _ hf hi' hp]
        split
        · rfl
        · next hne =>
          rw [hdisk]
          exact ⟨f, i, _, _, hf, hi', (leaf_node hp).1, rfl, hne⟩
      · rw [dataSec_ge (by omega), dataSec_ge (by omega), if_pos rfl, if_pos rfl]
    show (byteAt disk i.data (t / 8)).toNat.testBit (t % 8) = _
    rw [hbyte]
    exact hs f i hf hi' t ht

theorem FmOk.keep_write (h : FmOk w) {s : ℕ} (hs : ¬FmNode w s) (b : Sector) :
    FmKeep w { w with disk := Function.update w.disk s b } :=
  h.keep_of_other (fun _ _ => rfl) fun t ht =>
    Function.update_of_ne (by rintro rfl; exact hs ht) _ _

theorem FmKeep.node_eq (h : FmKeep w w') : FmNode w' = FmNode w := funext fun s => propext (h.node s)

end

/-! ### A fresh block -/

/-- `s` has been allocated and filled with zeros. -/
structure Fresh (w : World) (s : ℕ) (w' : World) : Prop where
  keep : FmKeep w w'
  heap : w'.mem.heap = w.mem.heap
  ne_zero : s ≠ 0
  lt : s < w.mem.fsSize
  free : ¬Allocated w s
  alloc : ∀ t, Allocated w' t ↔ Allocated w t ∨ t = s
  zero : w'.disk s = Block.zero
  frame : ∀ t, ¬FmNode w t → t ≠ s → w'.disk t = w.disk t

/-- An allocated sector is filled with zeros. -/
theorem FmStep.fresh {w w' : World} {s : ℕ} (hok : FmOk w) (hlt : s < w.mem.fsSize)
    (hfree : ¬Allocated w s) (h : FmStep w w')
    (hbits : w'.mem.freeMap.bits = Function.update w.mem.freeMap.bits s true) (hsync : Synced w') :
    Fresh w s { w' with disk := Function.update w'.disk s Block.zero } := by
  have halloc : ∀ t, Allocated w' t ↔ Allocated w t ∨ t = s := by
    intro t
    unfold Allocated
    rw [h.fsSize, hbits]
    by_cases hts : t = s
    · rw [hts, Function.update_self]
      simpa using hlt
    · rw [Function.update_of_ne hts]
      simp [hts]
  have hmono : ∀ t, Allocated w t → Allocated w' t := fun t ht => (halloc t).mpr (.inl ht)
  have hkeep := h.keep hok hmono hsync
  have hnode : ¬FmNode w' s := fun hs => hfree (hok.node_allocated ((hkeep.node s).mp hs))
  refine ⟨hkeep.trans (h.ok.keep_write hnode _), h.heap, ?_, hlt, hfree, halloc,
    Function.update_self _ _ _, fun t ht hts => ?_⟩
  · rintro rfl
    exact hfree hok.zero
  · exact (Function.update_of_ne hts _ _).trans (h.disk t fun hd => ht (FmNode.of_data hd))

theorem Fresh.disk_zero {w w' : World} {s : ℕ} (h : Fresh w s w') : w'.disk 0 = w.disk 0 :=
  h.frame 0 (by rintro ⟨_, _, _, _, _, _, _, _, h0⟩; exact h0 rfl) h.ne_zero.symm

/-! ### `reserve_indir` -/

/-- The position of a leaf among the leaves of its tree. -/
def pathIndex : List ℕ → ℕ
  | [] => 0
  | i :: π => i * 128 ^ π.length + pathIndex π

theorem pathIndex_lt {π : List ℕ} (h : ∀ i ∈ π, i < 128) : pathIndex π < 128 ^ π.length := by
  induction π with
  | nil => simp [pathIndex]
  | cons i π ih =>
    have hi := h i (by simp)
    have hπ := ih fun j hj => h j (List.mem_cons_of_mem _ hj)
    calc pathIndex (i :: π) < i * 128 ^ π.length + 128 ^ π.length := by
          simp only [pathIndex]
          omega
      _ = (i + 1) * 128 ^ π.length := by ring
      _ ≤ 128 * 128 ^ π.length := Nat.mul_le_mul_right _ hi
      _ = 128 ^ (i :: π).length := by rw [List.length_cons, pow_succ, Nat.mul_comm]

/-- The position of the first leaf below a node of a tree with leaves at depth `level`. -/
def firstLeaf (level : ℕ) (π : List ℕ) : ℕ := pathIndex (π ++ List.replicate (level - π.length) 0)

theorem pathIndex_zeros (l : ℕ) : pathIndex (List.replicate l 0) = 0 := by
  induction l with
  | zero => rfl
  | succ l ih => rw [List.replicate_succ, pathIndex, ih, Nat.zero_mul]

theorem firstLeaf_nil (level : ℕ) : firstLeaf level [] = 0 := pathIndex_zeros _

theorem firstLeaf_cons {level i : ℕ} {π : List ℕ} (h : π.length ≤ level) :
    firstLeaf (level + 1) (i :: π) = i * 128 ^ level + firstLeaf level π := by
  have hlen : (π ++ List.replicate (level - π.length) 0).length = level := by
    rw [List.length_append, List.length_replicate]
    omega
  rw [firstLeaf, List.length_cons, Nat.add_sub_add_right, List.cons_append, pathIndex, hlen]
  rfl

/-- What `reserve_indir` does to the tree under a page pointer: it grows; after a success it has its
first `num` leaves and what they need, after a failure the device is full. -/
structure Reserved (P : Policy) (level num : ℕ) (w : World) (page : ℕ) (ok : Bool) (w' : World)
    (page' : ℕ) : Prop where
  keep : FmKeep w w'
  heap : w'.mem.heap = w.mem.heap
  grow : Grow (.tree level 128) (FmNode w) w.disk (Allocated w) (fun _ => page) w'.disk
    (Allocated w') (fun _ => page')
  leaf : ok = true → ∀ π, Node (.tree level 128) 0 π → π.length = level → pathIndex π < num →
    sec w'.disk page' π ≠ 0
  needed : ok = true → ∀ π, Node (.tree level 128) 0 π → sec w'.disk page' π ≠ 0 →
    sec w.disk page π ≠ 0 ∨ firstLeaf level π < num
  zero : ok = true → w'.disk 0 = w.disk 0
  full : ok = false → Full w' ∧ P.noSector
  accounts : ok = true → Accounts (.tree level 128) (Allocated w) (Allocated w') w'.disk fun _ => page'

theorem Reserved.page_lt {P : Policy} {level num page page' : ℕ} {ok : Bool} {w w' : World}
    (h : Reserved P level num w page ok w' page') (hw : FmOk w)
    (hok : Ok (.tree level 128) (FmNode w) (Allocated w) w.disk fun _ => page) :
    page' < w.mem.fsSize := by
  have hroot : Node (.tree level 128) 0 [] := ⟨Nat.one_pos, Nat.zero_le _, by simp⟩
  by_cases h0 : page' = 0
  · rw [h0]
    exact hw.zero.1
  · have := ((h.grow.ok hok fun s => hw.node_allocated).alloc 0 [] hroot h0).1.1
    rwa [h.keep.fsSize] at this

variable {P : Policy} {E : Stop → World → Prop} {bitmapWrite : Fs Bool}

/-- At level 0, `reserve_indir` is the allocation of one block. -/
theorem wp_reserveIndirWith_zero (hbw : WritesMap P bitmapWrite) {page num : ℕ} {w : World}
    (hw : FmOk w) (hok : Ok (.tree 0 128) (FmNode w) (Allocated w) w.disk fun _ => page)
    (hnum : 0 < num) {Q : Bool × ℕ → World → Prop}
    (hQ : ∀ ok page' w', Reserved P 0 num w page ok w' page' → Q (ok, page') w') :
    wp P (reserveIndirWith bitmapWrite 0 page num) Q E w := by
  rw [reserveIndirWith]
  by_cases hp : page = 0
  · rw [if_pos hp, wp_bind]
    refine wp_freeMapAllocateWith hbw hw (fun hfull hno => ?_) (fun s w₁ hlt hfree hst hbits hsync => ?_)
    · rw [wp_pure]
      exact hQ false page w ⟨.refl hw, rfl, .same hok fun _ _ _ _ => rfl, by simp, by simp, by simp,
        fun _ => ⟨hfull, hno⟩, by simp⟩
    · have hf := hst.fresh hw hlt hfree hbits hsync
      rw [← hst.fsSize] at hlt
      simp only [wp_bind, wp_bufferCacheWrite, if_pos hlt, wp_pure]
      refine hQ true s _ ⟨hf.keep, hf.heap, ?_, fun _ π _ hl _ => ?_, fun _ π hn _ => .inr ?_,
        fun _ => hf.disk_zero, by simp, fun _ => .root hf.ne_zero hf.alloc⟩
      · rw [hp]
        refine .root hf.free hf.ne_zero hf.alloc hf.zero fun t ht hn _ => hf.frame t hn ?_
        rintro rfl
        exact hf.free ht
      · rw [List.length_eq_zero_iff.mp hl]
        exact hf.ne_zero
      · rw [List.length_eq_zero_iff.mp (Nat.le_zero.mp hn.length), firstLeaf_nil]
        exact hnum
  · rw [if_neg hp, wp_pure]
    refine hQ true page w ⟨.refl hw, rfl, .same hok fun _ _ _ _ => rfl, fun _ π _ hl _ => ?_,
      fun _ _ _ hne => .inl hne, fun _ => rfl, by simp, fun _ => .refl⟩
    rw [List.length_eq_zero_iff.mp hl]
    exact hp

/-- Setting a pointer of a block. -/
theorem word_setWord_update {b : Sector} {k s : ℕ} (hk : k < 128) (hs : s < 2 ^ 32) :
    (b.setWord k s).word = Function.update b.word k s := by
  funext j
  rw [Block.word_setWord (by omega) hs, Function.update_apply]

/-- The state of the loop over the pointers of an index block: those before `j` have their leaves. -/
structure LoopInv (level num : ℕ) (w₁ : World) (b₀ : Sector) (j : ℕ) (b : Sector × ℕ) (w : World) :
    Prop where
  keep : FmKeep w₁ w
  heap : w.mem.heap = w₁.mem.heap
  grow : Grow (.block level 128) (FmNode w₁) w₁.disk (Allocated w₁) b₀.word w.disk (Allocated w)
    b.1.word
  rest : b.2 = num - j * 128 ^ level
  leaf : ∀ i, i < j → ∀ π, Node (.tree level 128) 0 π → π.length = level →
    i * 128 ^ level + pathIndex π < num → sec w.disk (b.1.word i) π ≠ 0
  needed : ∀ i π, Node (.block level 128) i π → sec w.disk (b.1.word i) π ≠ 0 →
    sec w₁.disk (b₀.word i) π ≠ 0 ∨ i * 128 ^ level + firstLeaf level π < num
  zero : w.disk 0 = w₁.disk 0
  accounts : Accounts (.block level 128) (Allocated w₁) (Allocated w) w.disk b.1.word

/-- The state when a pass of that loop fails. -/
structure LoopFull (P : Policy) (level : ℕ) (w₁ : World) (b₀ : Sector) (w : World) : Prop where
  keep : FmKeep w₁ w
  heap : w.mem.heap = w₁.mem.heap
  grow : ∃ g, Grow (.block level 128) (FmNode w₁) w₁.disk (Allocated w₁) b₀.word w.disk
    (Allocated w) g
  full : Full w ∧ P.noSector

/-- One pass: reserving under pointer `j`. -/
theorem LoopInv.step {level num : ℕ} {w₁ w w' : World} {b₀ : Sector} {j s : ℕ} {b : Sector × ℕ}
    {ok : Bool} (hw₁ : FmOk w₁)
    (hok₁ : Ok (.block level 128) (FmNode w₁) (Allocated w₁) w₁.disk b₀.word)
    (h : LoopInv level num w₁ b₀ j b w) (hj : j < 128)
    (hr : Reserved P level (min b.2 (128 ^ level)) w (b.1.word j) ok w' s) :
    (ok = true → LoopInv level num w₁ b₀ (j + 1) (b.1.setWord j s, b.2 - min b.2 (128 ^ level)) w') ∧
      (ok = false → LoopFull P level w₁ b₀ w') := by
  have hD : ∀ s, FmNode w₁ s → Allocated w₁ s := fun s => hw₁.node_allocated
  have hok := h.grow.ok hok₁ hD
  rw [← h.keep.node_eq] at hok
  have hstep : Grow (.block level 128) (FmNode w) w.disk (Allocated w) b.1.word w'.disk
      (Allocated w') (Function.update b.1.word j s) := Grow.child hok (by exact hj) hr.grow
  have hgrow : Grow (.block level 128) (FmNode w₁) w₁.disk (Allocated w₁) b₀.word w'.disk
      (Allocated w') (Function.update b.1.word j s) := by
    refine h.grow.trans ?_ hD
    rw [← h.keep.node_eq]
    exact hstep
  have hlt : s < 2 ^ 32 := by
    have := hr.page_lt h.keep.ok (hok.root (by exact hj))
    have := h.keep.ok.fsSize
    omega
  have hword := word_setWord_update (b := b.1) hj hlt
  refine ⟨fun hok' => ⟨h.keep.trans hr.keep, hr.heap.trans h.heap, by rw [hword]; exact hgrow, ?_,
    fun i hi π hn hl hidx => ?_, fun i π hn hne => ?_, (hr.zero hok').trans h.zero, ?_⟩,
    fun hok' => ⟨h.keep.trans hr.keep, hr.heap.trans h.heap, ⟨_, hgrow⟩, hr.full hok'⟩⟩
  · simp only [h.rest, Nat.succ_mul]
    omega
  · rw [hword]
    by_cases hij : i = j
    · subst hij
      rw [Function.update_self]
      refine hr.leaf hok' π hn hl ?_
      have := pathIndex_lt hn.fan
      rw [hl] at this
      rw [h.rest]
      omega
    · rw [hstep.old i π ⟨by show i < 128; omega, hn.length, hn.fan⟩ (h.leaf i (by omega) π hn hl hidx)]
      exact h.leaf i (by omega) π hn hl hidx
  · rw [hword] at hne
    by_cases hij : i = j
    · subst hij
      rw [Function.update_self] at hne
      rcases hr.needed hok' π ⟨Nat.one_pos, hn.length, hn.fan⟩ hne with hold | hnew
      · exact h.needed i π hn hold
      · have := h.rest
        exact .inr (by omega)
    · rw [Function.update_of_ne hij, hok.sec_other (by exact hj) hr.grow hn hij] at hne
      exact h.needed i π hn hne
  · rw [hword]
    exact h.accounts.trans (.child (by exact hj) (hr.accounts hok')) hstep

/-- The loop over the pointers of an index block. -/
theorem wp_reserveLoop {level num : ℕ} {w₁ : World} {b₀ : Sector} (hw₁ : FmOk w₁)
    (hok₁ : Ok (.block level 128) (FmNode w₁) (Allocated w₁) w₁.disk b₀.word)
    (hnum : num ≤ 128 ^ (level + 1))
    (ih : ∀ (page n : ℕ) (w : World) (Q : Bool × ℕ → World → Prop), FmOk w →
      Ok (.tree level 128) (FmNode w) (Allocated w) w.disk (fun _ => page) → 0 < n →
      n ≤ 128 ^ level →
      (∀ ok page' w', Reserved P level n w page ok w' page' → Q (ok, page') w') →
      wp P (reserveIndirWith bitmapWrite level page n) Q E w)
    {Q : (Sector × ℕ) ⊕ Unit → World → Prop}
    (hdone : ∀ b w, LoopInv level num w₁ b₀ ((num + 128 ^ level - 1) / 128 ^ level) b w →
      Q (.inl b) w)
    (hfull : ∀ w, LoopFull P level w₁ b₀ w → Q (.inr ()) w) :
    wp P (Prog.forUpTo (fun i (b : Sector × ℕ) => do
      let nmax := min b.2 (128 ^ level)
      let (ok, s) ← reserveIndirWith bitmapWrite level (b.1.word i) nmax
      if ok then return .inl (b.1.setWord i s, b.2 - nmax) else return .inr ())
      ((num + 128 ^ level - 1) / 128 ^ level) 0 (b₀, num)) Q E w₁ := by
  have hpos : 0 < 128 ^ level := by positivity
  have hmax : (num + 128 ^ level - 1) / 128 ^ level ≤ 128 := by
    rw [Nat.div_le_iff_le_mul_add_pred hpos, Nat.mul_comm, ← pow_succ']
    omega
  refine wp_forUpTo (LoopInv level num w₁ b₀) (fun j b w hj hI => ?_) hdone _ 0 _ _ (Nat.zero_add _) ?_
  · -- the passes before `max` have a positive number of sectors left to reserve
    have hrest : 0 < b.2 := by
      have hlt := (Nat.lt_div_iff_mul_lt hpos).mp hj
      have := hI.rest
      omega
    have hok := hI.grow.ok hok₁ fun s => hw₁.node_allocated
    rw [← hI.keep.node_eq] at hok
    rw [wp_bind]
    refine ih _ _ w _ hI.keep.ok (hok.root (by show j < 128; omega)) (by omega) (by omega)
      fun ok s w' hr => ?_
    obtain ⟨hgo, hstop⟩ := hI.step hw₁ hok₁ (by omega) hr
    cases ok with
    | true => exact (wp_pure _).mpr (hgo rfl)
    | false => exact (wp_pure _).mpr (hfull w' (hstop rfl))
  · exact ⟨.refl hw₁, rfl, .same hok₁ fun _ _ _ _ => rfl, by simp, by simp,
      fun _ _ _ hne => .inl hne, rfl, .refl⟩

/-- `reserve_indir` on an index block that exists: its pointers grow, and the block is written back
unless the device runs full. -/
theorem wp_reserveIndex {level num p : ℕ} {w : World} (hw : FmOk w)
    (hok : Ok (.tree (level + 1) 128) (FmNode w) (Allocated w) w.disk fun _ => p) (hp : p ≠ 0)
    (hnum : num ≤ 128 ^ (level + 1)) (hnum0 : 0 < num)
    (ih : ∀ (page n : ℕ) (w : World) (Q : Bool × ℕ → World → Prop), FmOk w →
      Ok (.tree level 128) (FmNode w) (Allocated w) w.disk (fun _ => page) → 0 < n →
      n ≤ 128 ^ level →
      (∀ ok page' w', Reserved P level n w page ok w' page' → Q (ok, page') w') →
      wp P (reserveIndirWith bitmapWrite level page n) Q E w)
    {Q : Bool × ℕ → World → Prop}
    (hQ : ∀ ok w', Reserved P (level + 1) num w p ok w' p → Q (ok, p) w') :
    wp P (do
      let indirBlock ← bufferCacheRead p
      match ← Prog.forUpTo (fun i (b : Sector × ℕ) => do
          let nmax := min b.2 (128 ^ level)
          let (ok, s) ← reserveIndirWith bitmapWrite level (b.1.word i) nmax
          if ok then return .inl (b.1.setWord i s, b.2 - nmax) else return .inr ())
          ((num + 128 ^ level - 1) / 128 ^ level) 0 (indirBlock, num) with
      | .inr () => return (false, p)
      | .inl (indirBlock, num) =>
        if num ≠ 0 then
          .stop (.exit (-1))
        else
          bufferCacheWrite p indirBlock
          return (true, p)) Q E w := by
  have hroot : Node (.tree (level + 1) 128) 0 [] := ⟨Nat.one_pos, Nat.zero_le _, by simp⟩
  obtain ⟨⟨hlt, hbit⟩, hnode⟩ := hok.alloc 0 [] hroot hp
  have hlt' : ∀ w', FmKeep w w' → p < w'.mem.fsSize := fun w' hk => by rw [hk.fsSize]; exact hlt
  simp only [wp_bind, wp_bufferCacheRead, if_pos (show p < w.mem.fsSize from hlt)]
  refine wp_reserveLoop hw (hok.block hp) hnum ih (fun b w' hI => ?_) (fun w' hF => ?_)
  · obtain ⟨b, rem⟩ := b
    have hpos : 0 < 128 ^ level := by positivity
    have hrem : rem = 0 := by
      have hcover : num ≤ (num + 128 ^ level - 1) / 128 ^ level * 128 ^ level := by
        have := Nat.lt_div_mul_add (a := num + 128 ^ level - 1) hpos
        omega
      have := hI.rest
      simp only at this
      omega
    simp only [hrem, ne_eq, not_true_eq_false, if_false, wp_bind, wp_bufferCacheWrite,
      if_pos (hlt' w' hI.keep), wp_pure]
    have hnode' : ¬FmNode w' p := by rwa [hI.keep.node_eq]
    have hblock : Function.update w'.disk p b p = b := Function.update_self _ _ _
    -- below the root, the stored pointers lead where the loop has left them
    have hsec : ∀ i π, Node (.block level 128) i π →
        sec (Function.update w'.disk p b) p (i :: π) = sec w'.disk (b.word i) π := by
      intro i π hn
      rw [sec_cons hp, hblock]
      exact sec_congr fun m _ hne => Function.update_of_ne
        (Grow.root_not_below hok hp hI.grow (hn.take m) hne) _ _
    refine hQ true _ ⟨hI.keep.trans (hI.keep.ok.keep_write hnode' b), hI.heap, ?_,
      fun _ π hn hl hidx => ?_, fun _ π hn hne => ?_, fun _ => ?_, by simp, fun _ => ?_⟩
    · refine Grow.parent hok hp hI.grow (fun i _ => .inl ?_) fun t ht => Function.update_of_ne ht _ _
      exact congrFun (congrArg Block.word hblock) i
    · cases π with
      | nil => exact absurd hl (by simp)
      | cons i π =>
        have hi : i < 128 := hn.fan i (by simp)
        have hl' : π.length = level := Nat.succ.inj hl
        have hfan : ∀ j ∈ π, j < 128 := fun j hj => hn.fan j (List.mem_cons_of_mem _ hj)
        have hnode : Node (.block level 128) i π := ⟨hi, hl'.le, hfan⟩
        simp only [pathIndex, hl'] at hidx
        have himax : i < (num + 128 ^ level - 1) / 128 ^ level := by
          rw [Nat.lt_div_iff_mul_lt hpos]
          omega
        have hleaf := hI.leaf i himax π ⟨Nat.one_pos, hl'.le, hfan⟩ hl' hidx
        exact (hsec i π hnode).trans_ne hleaf
    · cases π with
      | nil =>
        rw [firstLeaf_nil]
        exact .inr hnum0
      | cons i π =>
        have hlen : π.length ≤ level := Nat.le_of_succ_le_succ hn.length
        have hnode : Node (.block level 128) i π :=
          ⟨hn.fan i (by simp), hlen, fun j hj => hn.fan j (List.mem_cons_of_mem _ hj)⟩
        rw [sec_cons hp, firstLeaf_cons hlen]
        exact hI.needed i π hnode ((hsec i π hnode).symm.trans_ne hne)
    · exact (Function.update_of_ne hp.symm _ _).trans hI.zero
    · exact hI.accounts.parent hsec
  · obtain ⟨g, hg⟩ := hF.grow
    simp only [wp_pure]
    -- the block is not written back: its pointers are still the old ones
    have hsame : w'.disk p = w.disk p := by
      refine hg.frame p ⟨hlt, hbit⟩ hnode hp ?_
      rintro ⟨k, π, hn, _, heq⟩
      exact Grow.root_not_below hok hp (Grow.same (hok.block hp) fun _ _ _ _ => rfl) hn
        (by rw [heq]; exact hp) heq
    refine hQ false w' ⟨hF.keep, hF.heap, ?_, by simp, by simp, by simp, fun _ => hF.full, by simp⟩
    refine Grow.parent hok hp hg (fun i hi => ?_) fun _ _ => rfl
    rw [hsame]
    by_cases h0 : (w.disk p).word i = 0
    · exact .inr ⟨h0, h0⟩
    · exact .inl (hg.old i [] ⟨hi, Nat.zero_le _, by simp⟩ h0).symm

/-- `reserve_indir` on a full device and a page without an index block: the block that could not be
allocated is taken to be sector 0, which is overwritten with zeros, and the first leaf fails. -/
theorem wp_reserveIndex_full {level num : ℕ} {w : World} (hw : FmOk w) (hfull : Full w)
    (hnum : num ≤ 128 ^ (level + 1)) (hnum0 : 0 < num)
    (ih : ∀ (page n : ℕ) (w : World) (Q : Bool × ℕ → World → Prop), FmOk w →
      Ok (.tree level 128) (FmNode w) (Allocated w) w.disk (fun _ => page) → 0 < n →
      n ≤ 128 ^ level →
      (∀ ok page' w', Reserved P level n w page ok w' page' → Q (ok, page') w') →
      wp P (reserveIndirWith bitmapWrite level page n) Q E w)
    {Q : Bool × ℕ → World → Prop}
    (hQ : ∀ w', Reserved P (level + 1) num w 0 false w' 0 → Q (false, 0) w') :
    wp P (do
      bufferCacheWrite 0 Block.zero
      let indirBlock ← bufferCacheRead 0
      match ← Prog.forUpTo (fun i (b : Sector × ℕ) => do
          let nmax := min b.2 (128 ^ level)
          let (ok, s) ← reserveIndirWith bitmapWrite level (b.1.word i) nmax
          if ok then return .inl (b.1.setWord i s, b.2 - nmax) else return .inr ())
          ((num + 128 ^ level - 1) / 128 ^ level) 0 (indirBlock, num) with
      | .inr () => return (false, 0)
      | .inl (indirBlock, num) =>
        if num ≠ 0 then
          .stop (.exit (-1))
        else
          bufferCacheWrite 0 indirBlock
          return (true, 0)) Q E w := by
  have h0 : 0 < w.mem.fsSize := hw.zero.1
  have hnode : ¬FmNode w 0 := by
    rintro ⟨_, _, _, _, _, _, _, _, hne⟩
    exact hne rfl
  simp only [wp_bind, wp_bufferCacheWrite, wp_bufferCacheRead, if_pos h0]
  have hkeep := hw.keep_write hnode Block.zero
  set w₁ : World := { w with disk := Function.update w.disk 0 Block.zero } with hw₁
  have hblock : w₁.disk 0 = Block.zero := by
    show Function.update w.disk 0 Block.zero 0 = Block.zero
    exact Function.update_self _ _ _
  have hempty : Ok (.block level 128) (FmNode w₁) (Allocated w₁) w₁.disk (w₁.disk 0).word :=
    .empty fun k _ => by rw [hblock, Block.word_zero]
  have hpos : 0 < 128 ^ level := by positivity
  refine wp_reserveLoop hkeep.ok hempty hnum ih (fun b w' hI => ?_) (fun w' hF => ?_)
  · -- a leaf cannot have been found
    exfalso
    have hmax : 0 < (num + 128 ^ level - 1) / 128 ^ level := Nat.div_pos (by omega) hpos
    have hpath : Node (.tree level 128) 0 (List.replicate level 0) :=
      ⟨Nat.one_pos, by simp, fun i hi => by rw [List.eq_of_mem_replicate hi]; show 0 < 128; omega⟩
    have hleaf := hI.leaf 0 hmax _ hpath (by simp) (by rw [pathIndex_zeros]; omega)
    have hfresh := hI.grow.fresh 0 (List.replicate level 0)
      ⟨by show 0 < 128; omega, by simp, hpath.fan⟩
      (by rw [hblock, Block.word_zero, sec_zero]) hleaf
    have hlt := hfresh.2.1
    rw [hI.keep.fsSize] at hlt
    exact hfresh.1 (hfull _ hlt)
  · obtain ⟨g, hg⟩ := hF.grow
    simp only [wp_pure]
    refine hQ w' ⟨hkeep.trans hF.keep, hF.heap, ?_, by simp, by simp, by simp, fun _ => hF.full, by simp⟩
    refine .empty (fun s hs => hF.keep.mono s hs) (fun s hA hn hs0 => ?_) fun _ _ => rfl
    rw [hg.frame s hA (by rwa [hkeep.node_eq]) hs0 ?_]
    · exact Function.update_of_ne hs0 _ _
    · rintro ⟨k, π, _, _, heq⟩
      rw [hblock, Block.word_zero, sec_zero] at heq
      exact hs0 heq.symm

/-- A root that has just been allocated, and then what grows under it. -/
theorem Reserved.of_fresh {level num p : ℕ} {w w₁ w' : World} {ok : Bool} (hw : FmOk w)
    (hnum0 : 0 < num) (hf : Fresh w p w₁) (hr : Reserved P level num w₁ p ok w' p) :
    Reserved P level num w 0 ok w' p where
  keep := hf.keep.trans hr.keep
  heap := hr.heap.trans hf.heap
  grow := by
    have hroot : Grow (.tree level 128) (FmNode w) w.disk (Allocated w) (fun _ => 0) w₁.disk
        (Allocated w₁) (fun _ => p) := by
      refine .root hf.free hf.ne_zero hf.alloc hf.zero fun t ht hn _ => hf.frame t hn ?_
      rintro rfl
      exact hf.free ht
    refine hroot.trans ?_ fun s => hw.node_allocated
    rw [← hf.keep.node_eq]
    exact hr.grow
  leaf := hr.leaf
  needed hok π hn hne := by
    cases π with
    | nil =>
      rw [firstLeaf_nil]
      exact .inr hnum0
    | cons i π =>
      refine .inr ((hr.needed hok (i :: π) hn hne).resolve_left fun h => h ?_)
      rw [sec_cons hf.ne_zero, hf.zero, Block.word_zero, sec_zero]
  zero hok := (hr.zero hok).trans hf.disk_zero
  full := hr.full
  accounts hok := Accounts.trans (.root hf.ne_zero hf.alloc) (hr.accounts hok) hr.grow

/-- The tree of a fresh root. -/
theorem Fresh.tree_ok {level p : ℕ} {w w₁ : World} (hw : FmOk w) (hf : Fresh w p w₁) :
    Ok (.tree level 128) (FmNode w₁) (Allocated w₁) w₁.disk fun _ => p := by
  have hgrow : Grow (.tree level 128) (FmNode w) w.disk (Allocated w) (fun _ => 0) w₁.disk
      (Allocated w₁) (fun _ => p) := by
    refine .root hf.free hf.ne_zero hf.alloc hf.zero fun t ht hn _ => hf.frame t hn ?_
    rintro rfl
    exact hf.free ht
  rw [hf.keep.node_eq]
  exact hgrow.ok (.empty fun _ _ => rfl) fun s => hw.node_allocated

/-- **`reserve_indir`** lets the tree under a page pointer grow until it has `num` leaves, or until the
device is full. -/
theorem wp_reserveIndirWith (hbw : WritesMap P bitmapWrite) (level : ℕ) (hlevel : level ≤ 2) :
    ∀ (page num : ℕ) (w : World) (Q : Bool × ℕ → World → Prop), FmOk w →
      Ok (.tree level 128) (FmNode w) (Allocated w) w.disk (fun _ => page) → 0 < num →
      num ≤ 128 ^ level →
      (∀ ok page' w', Reserved P level num w page ok w' page' → Q (ok, page') w') →
      wp P (reserveIndirWith bitmapWrite level page num) Q E w := by
  induction level with
  | zero =>
    intro page num w Q hw hok hnum0 _ hQ
    exact wp_reserveIndirWith_zero hbw hw hok hnum0 hQ
  | succ level ih =>
    intro page num w Q hw hok hnum0 hnum hQ
    have hih := ih (by omega)
    have hchunk : (if level + 1 > 1 then 128 else 1) = 128 ^ level := by
      obtain rfl | rfl : level = 0 ∨ level = 1 := by omega
      · rfl
      · rfl
    rw [reserveIndirWith, if_neg (by omega), hchunk]
    by_cases hp : page = 0
    · subst hp
      rw [if_pos rfl, wp_bind]
      refine wp_freeMapAllocateWith hbw hw (fun hfull hno => ?_)
        (fun s w₁ hlt hfree hst hbits hsync => ?_)
      · have h := wp_reserveIndex_full (P := P) (E := E) hw hfull hnum hnum0 hih (hQ false 0)
        simp only [Option.getD_none, wp_bind, wp_pure] at h ⊢
        exact h
      · have hf := hst.fresh hw hlt hfree hbits hsync
        rw [← hst.fsSize] at hlt
        simp only [Option.getD_some, wp_bind, wp_bufferCacheWrite, if_pos hlt, wp_pure]
        have h := wp_reserveIndex (P := P) (E := E) hf.keep.ok (hf.tree_ok hw) hf.ne_zero hnum
          hnum0 hih fun ok w' hr => hQ ok s w' (hr.of_fresh hw hnum0 hf)
        simp only [wp_bind] at h
        exact h
    · rw [if_neg hp, wp_bind, wp_pure]
      exact wp_reserveIndex hw hok hp hnum hnum0 hih fun ok w' hr => hQ ok page w' hr

/-! ### `inode_reserve` -/

/-- `store d` makes the in-memory inodes those that `H d` describes. -/
def Stores (P : Policy) (store : InodeDisk → Fs Unit) (H : InodeDisk → ℕ → Option Inode) : Prop :=
  ∀ (w : World) (d d' : InodeDisk) (Q : Unit → World → Prop) (E : Stop → World → Prop),
    w.mem.heap = H d → Q () ⟨{ w.mem with heap := H d' }, w.disk⟩ → wp P (store d') Q E w

/-- The page has grown; the in-memory inodes are those of the grown page. -/
structure PageGrown (H : InodeDisk → ℕ → Option Inode) (w : World) (page : InodeDisk) (w' : World)
    (page' : InodeDisk) : Prop where
  keep : FmKeep w w'
  heap : w'.mem.heap = H page'
  grow : Grow pageShape (FmNode w) w.disk (Allocated w) page.word w'.disk (Allocated w') page'.word
  tail : ∀ i, 500 ≤ i → page'.get i = page.get i

/-- A node of a page that is needed to reach one of its first `num` data blocks. -/
def NeededNode (num k : ℕ) (π : List ℕ) : Prop :=
  ∃ j, j < num ∧ leafRoot j = k ∧ ∃ m, (leafPath j).take m = π

theorem NeededNode.mono {num num' k : ℕ} {π : List ℕ} (h : NeededNode num k π) (hle : num ≤ num') :
    NeededNode num' k π := by
  obtain ⟨j, hj, hk, hm⟩ := h
  exact ⟨j, by omega, hk, hm⟩

/-- What `inode_reserve` does: the page grows; after a success it has its first `num` data blocks and
what they need, after a failure the device is full. -/
structure PageReserved (P : Policy) (H : InodeDisk → ℕ → Option Inode) (num : ℕ) (w : World)
    (page : InodeDisk) (ok : Bool) (w' : World) (page' : InodeDisk) : Prop
    extends PageGrown H w page w' page' where
  blocks : ok = true → ∀ i, i < num → dataSec w'.disk page' i ≠ 0
  needed : ok = true → ∀ k π, Node pageShape k π → sec w'.disk (page'.word k) π ≠ 0 →
    sec w.disk (page.word k) π ≠ 0 ∨ NeededNode num k π
  zero : ok = true → w'.disk 0 = w.disk 0
  full : ok = false → Full w' ∧ P.noSector
  accounts : ok = true → Accounts pageShape (Allocated w) (Allocated w') w'.disk page'.word

section

variable {H : InodeDisk → ℕ → Option Inode} {w w₁ w₂ : World} {page page₁ : InodeDisk}

theorem PageGrown.forest (h : PageGrown H w page w₁ page₁) (hw : FmOk w)
    (hok : Ok pageShape (FmNode w) (Allocated w) w.disk page.word) :
    Ok pageShape (FmNode w₁) (Allocated w₁) w₁.disk page₁.word := by
  rw [h.keep.node_eq]
  exact h.grow.ok hok fun s => hw.node_allocated

/-- One root of the page grows, and its new pointer is stored. -/
theorem PageGrown.child (h : PageGrown H w page w₁ page₁) (hw : FmOk w)
    (hok : Ok pageShape (FmNode w) (Allocated w) w.disk page.word)
    (hH : ∀ f d d', w.mem.freeMapFile = some f → H d f.inode = H d' f.inode) {k s : ℕ}
    (hk : k < 125) (hkeep : FmKeep w₁ w₂)
    (hg : Grow (.tree (pageShape.level k) 128) (FmNode w₁) w₁.disk (Allocated w₁)
      (fun _ => page₁.word k) w₂.disk (Allocated w₂) (fun _ => s)) (hs : s < 2 ^ 32)
    (hheap : w₂.mem.heap = w₁.mem.heap) :
    PageGrown H w page ⟨{ w₂.mem with heap := H (page₁.setWord k s) }, w₂.disk⟩
      (page₁.setWord k s) ∧
    Grow pageShape (FmNode w₁) w₁.disk (Allocated w₁) page₁.word w₂.disk (Allocated w₂)
      (page₁.setWord k s).word ∧
    ∀ k' π, Node pageShape k' π → k' ≠ k →
      sec w₂.disk ((page₁.setWord k s).word k') π = sec w₁.disk (page₁.word k') π := by
  have hword := word_setWord_update (b := page₁) (show k < 128 by omega) hs
  have hstep := Grow.child (h.forest hw hok) (k := k) (by exact hk) hg
  rw [← hword] at hstep
  have hmem : FmKeep w₂ ⟨{ w₂.mem with heap := H (page₁.setWord k s) }, w₂.disk⟩ := by
    refine hkeep.ok.keep_of_other (fun f hf => ?_) fun _ _ => rfl
    rw [hkeep.freeMapFile, h.keep.freeMapFile] at hf
    rw [hheap, h.heap]
    exact hH f _ _ hf
  refine ⟨⟨h.keep.trans (hkeep.trans hmem), rfl, ?_, fun i hi => ?_⟩, hstep, fun k' π hn hne => ?_⟩
  · refine h.grow.trans ?_ fun s => hw.node_allocated
    rw [← h.keep.node_eq]
    exact hstep
  · rw [Block.get_setWord_ne (by omega), h.tail i hi]
  · rw [hword, Function.update_of_ne hne]
    exact (h.forest hw hok).sec_other (by exact hk) hg hn hne

end

theorem bytesToSectors_of_le {len : ℕ} (h : len ≤ 2147483136) :
    bytesToSectors len = ((len + 511) / 512 : ℕ) := by
  rw [bytesToSectors, wrap32_of_mem (by omega) (by omega), Int.tdiv_eq_ediv_of_nonneg (by omega)]
  omega

/-- Near the largest `off_t` the sum in `DIV_ROUND_UP` overflows, and no sectors are asked for. -/
theorem bytesToSectors_overflow {len : ℤ} (h : 2147483136 < len) (h' : len < 2 ^ 31) :
    bytesToSectors len ≤ 0 := by
  have hneg : wrap32 (len + 512 - 1) < 0 := by
    unfold wrap32 toInt32 ofInt32
    split <;> omega
  rw [bytesToSectors, ← neg_neg (wrap32 (len + 512 - 1)), Int.neg_tdiv]
  have := Int.tdiv_nonneg (a := -wrap32 (len + 512 - 1)) (b := 512) (by omega) (by omega)
  omega

/-- The direct loop of `inode_reserve`. -/
theorem wp_reserveDirect (hbw : WritesMap P bitmapWrite) {store : InodeDisk → Fs Unit}
    {H : InodeDisk → ℕ → Option Inode} (hst : Stores P store H) {w w₁ : World}
    {page page₁ : InodeDisk} (hw : FmOk w)
    (hok : Ok pageShape (FmNode w) (Allocated w) w.disk page.word)
    (hH : ∀ f d d', w.mem.freeMapFile = some f → H d f.inode = H d' f.inode) {j : ℕ} (hj : j < 123)
    (h : PageReserved P H j w page true w₁ page₁) {Q : InodeDisk ⊕ InodeDisk → World → Prop}
    (hgo : ∀ page₂ w₂, PageReserved P H (j + 1) w page true w₂ page₂ → Q (.inl page₂) w₂)
    (hfull : ∀ page₂ w₂, PageReserved P H 0 w page false w₂ page₂ → Q (.inr page₂) w₂) :
    wp P (reserveDirect bitmapWrite store j page₁) Q E w₁ := by
  have hsec : ∀ (disk : ℕ → Sector) (d : InodeDisk) i, i < 123 → dataSec disk d i = d.word (i + 2) := by
    intro disk d i hi
    rcases leafRoot_cases i with ⟨_, hr, hp⟩ | ⟨_, _, _, _⟩ | ⟨_, _, _⟩
    · rw [dataSec, hr, hp]
      rfl
    · omega
    · omega
  have hlevel : pageShape.level (j + 2) = 0 := by
    show (if j + 2 = 0 then 2 else if j + 2 = 1 then 1 else 0) = 0
    rw [if_neg (by omega), if_neg (by omega)]
  rw [reserveDirect]
  by_cases hp : page₁.dirBlock j = 0
  · rw [if_pos hp, wp_bind]
    refine wp_freeMapAllocateWith hbw h.keep.ok (fun hfull' hno => ?_)
      (fun s w₂ hlt hfree hstep hbits hsync => ?_)
    · exact (wp_pure _).mpr
        (hfull page₁ w₁ ⟨h.toPageGrown, by simp, by simp, by simp, fun _ => ⟨hfull', hno⟩, by simp⟩)
    · have hf := hstep.fresh h.keep.ok hlt hfree hbits hsync
      have hs : s < 2 ^ 32 := hlt.trans h.keep.ok.fsSize
      have hgrow : Grow (.tree (pageShape.level (j + 2)) 128) (FmNode w₁) w₁.disk (Allocated w₁)
          (fun _ => page₁.word (j + 2)) (Function.update w₂.disk s Block.zero)
          (Allocated { w₂ with disk := Function.update w₂.disk s Block.zero }) (fun _ => s) := by
        rw [hlevel, show page₁.word (j + 2) = 0 from hp]
        refine .root hf.free hf.ne_zero hf.alloc hf.zero fun t ht hn _ => hf.frame t hn ?_
        rintro rfl
        exact hf.free ht
      obtain ⟨hpg, hstep', hother⟩ := h.toPageGrown.child hw hok hH (by omega) hf.keep hgrow hs hf.heap
      simp only [wp_bind]
      refine hst w₂ page₁ _ _ _ (hstep.heap.trans h.heap) ?_
      rw [← hstep.fsSize] at hlt
      simp only [wp_bufferCacheWrite, if_pos hlt, wp_pure]
      refine hgo _ _ ⟨hpg, fun _ i hi => ?_, fun _ k π hn hne => ?_,
        fun _ => hf.disk_zero.trans (h.zero rfl), by simp, fun _ => ?_⟩
      · rw [hsec _ _ i (by omega)]
        show (page₁.setWord (j + 2) s).word (i + 2) ≠ 0
        by_cases hij : i = j
        · subst hij
          rw [Block.word_setWord_same (by omega) hs]
          exact hf.ne_zero
        · rw [Block.word_setWord_ne (by omega), ← hsec w₁.disk page₁ i (by omega)]
          exact h.blocks rfl i (by omega)
      · by_cases hk : k = j + 2
        · subst hk
          have hπ : π = [] := by
            have := hn.length
            rw [hlevel] at this
            exact List.length_eq_zero_iff.mp (by omega)
          rcases leafRoot_cases j with ⟨_, hr, hp⟩ | ⟨_, _, _, _⟩ | ⟨_, _, _⟩
          · exact .inr ⟨j, by omega, hr, 0, by rw [hp, hπ]; rfl⟩
          · omega
          · omega
        · have hne' := (hother k π hn hk).symm.trans_ne hne
          exact (h.needed rfl k π hn hne').imp_right fun hnd => hnd.mono (by omega)
      · refine (h.accounts rfl).trans ?_ hstep'
        have hword : (page₁.setDirBlock j s).word = Function.update page₁.word (j + 2) s :=
          word_setWord_update (by omega) hs
        rw [hword]
        exact .child (by show j + 2 < 125; omega) (.root hf.ne_zero hf.alloc)
  · rw [if_neg hp, wp_pure]
    refine hgo page₁ w₁ ⟨h.toPageGrown, fun _ i hi => ?_, fun _ k π hn hne =>
      (h.needed rfl k π hn hne).imp_right fun hnd => hnd.mono (by omega), h.zero, h.full, h.accounts⟩
    by_cases hij : i = j
    · rw [hij, hsec _ _ j hj]
      exact hp
    · exact h.blocks rfl i (by omega)

/-- The data blocks under `indir_block`. -/
theorem dataSec_indir (disk : ℕ → Sector) (d : InodeDisk) {i : ℕ} (h : 123 ≤ i) (h' : i < 251) :
    dataSec disk d i = sec disk (d.word 1) [i - 123] := by
  rcases leafRoot_cases i with ⟨_, _, _⟩ | ⟨_, _, hr, hp⟩ | ⟨_, _, _⟩
  · omega
  · rw [dataSec, hr, hp]
  · omega

/-- The data blocks under `d_indir_block`. -/
theorem dataSec_dIndir (disk : ℕ → Sector) (d : InodeDisk) {i : ℕ} (h : 251 ≤ i) :
    dataSec disk d i = sec disk (d.word 0) [(i - 251) / 128, (i - 251) % 128] := by
  rcases leafRoot_cases i with ⟨_, _, _⟩ | ⟨_, _, _, _⟩ | ⟨_, hr, hp⟩
  · omega
  · omega
  · rw [dataSec, hr, hp]

/-- With its first `num` leaves, `indir_block` gives the blocks from 123 on. -/
theorem indir_blocks {disk : ℕ → Sector} {d : InodeDisk} {num : ℕ} (hnum : num ≤ 128)
    (h : ∀ i, i < 123 → dataSec disk d i ≠ 0)
    (hleaf : ∀ π, Node (.tree 1 128) 0 π → π.length = 1 → pathIndex π < num →
      sec disk (d.word 1) π ≠ 0) (i : ℕ) (hi : i < 123 + num) : dataSec disk d i ≠ 0 := by
  by_cases hi' : i < 123
  · exact h i hi'
  · rw [dataSec_indir _ _ (by omega) (by omega)]
    refine hleaf [i - 123] ⟨Nat.one_pos, le_refl _, fun j hj => ?_⟩ rfl ?_
    · rw [List.mem_singleton.mp hj]
      show i - 123 < 128
      omega
    · simp only [pathIndex, List.length_nil, pow_zero]
      omega

/-- With its first `num` leaves, `d_indir_block` gives the blocks from 251 on. -/
theorem dIndir_blocks {disk : ℕ → Sector} {d : InodeDisk} {num : ℕ} (hnum : num ≤ 16384)
    (h : ∀ i, i < 251 → dataSec disk d i ≠ 0)
    (hleaf : ∀ π, Node (.tree 2 128) 0 π → π.length = 2 → pathIndex π < num →
      sec disk (d.word 0) π ≠ 0) (i : ℕ) (hi : i < 251 + num) : dataSec disk d i ≠ 0 := by
  by_cases hi' : i < 251
  · exact h i hi'
  · rw [dataSec_dIndir _ _ (by omega)]
    have h₁ : (i - 251) / 128 < 128 := by omega
    have h₂ : (i - 251) % 128 < 128 := by omega
    refine hleaf _ ⟨Nat.one_pos, le_refl _, by simpa using ⟨h₁, h₂⟩⟩ rfl ?_
    simp only [pathIndex, List.length_nil, List.length_singleton, pow_zero, pow_one]
    omega

/-- Reserving under one of the two roots with index blocks. -/
theorem PageReserved.index {H : InodeDisk → ℕ → Option Inode} {w w₁ w₂ : World}
    {page page₁ : InodeDisk} {N k s num : ℕ} {ok : Bool} (hw : FmOk w)
    (hok : Ok pageShape (FmNode w) (Allocated w) w.disk page.word)
    (hH : ∀ f d d', w.mem.freeMapFile = some f → H d f.inode = H d' f.inode)
    (h : PageReserved P H N w page true w₁ page₁) (hk : k < 2) {level : ℕ}
    (hlevel : pageShape.level k = level)
    (hr : Reserved P level num w₁ (page₁.word k) ok w₂ s) :
    PageGrown H w page ⟨{ w₂.mem with heap := H (page₁.setWord k s) }, w₂.disk⟩ (page₁.setWord k s) ∧
      (ok = true → (∀ i, i < N → dataSec w₂.disk (page₁.setWord k s) i ≠ 0) ∧
        (∀ π, Node (.tree level 128) 0 π → π.length = level → pathIndex π < num →
          sec w₂.disk ((page₁.setWord k s).word k) π ≠ 0) ∧ w₂.disk 0 = w.disk 0 ∧
        Accounts pageShape (Allocated w) (Allocated w₂) w₂.disk (page₁.setWord k s).word ∧
        ∀ k' π, Node pageShape k' π → sec w₂.disk ((page₁.setWord k s).word k') π ≠ 0 →
          sec w.disk (page.word k') π ≠ 0 ∨ NeededNode N k' π ∨ k' = k ∧ firstLeaf level π < num) := by
  subst hlevel
  have hforest := h.toPageGrown.forest hw hok
  have hs : s < 2 ^ 32 := (hr.page_lt h.keep.ok (hforest.root (by show k < 125; omega))).trans
    h.keep.ok.fsSize
  obtain ⟨hpg, hold, hother⟩ := h.toPageGrown.child hw hok hH (by omega) hr.keep hr.grow hs hr.heap
  refine ⟨hpg, fun hok' => ⟨fun i hi => ?_, fun π hn hl hidx => ?_, (hr.zero hok').trans (h.zero rfl), ?_,
    fun k' π hn hne => ?_⟩⟩
  · have h0 := h.blocks rfl i hi
    by_cases hi' : i < 16635
    · have := hold.old _ _ (leaf_node hi').1 h0
      rw [dataSec, this]
      exact h0
    · exact absurd (dataSec_ge (by omega)) h0
  · rw [Block.word_setWord_same (by omega) hs]
    exact hr.leaf hok' π hn hl hidx
  · refine (h.accounts rfl).trans ?_ hold
    rw [word_setWord_update (by omega) hs]
    exact .child (by show k < 125; omega) (hr.accounts hok')
  · by_cases hkk : k' = k
    · subst hkk
      rw [Block.word_setWord_same (by omega) hs] at hne
      rcases hr.needed hok' π ⟨Nat.one_pos, hn.length, hn.fan⟩ hne with hne' | hnew
      · exact (h.needed rfl k' π hn hne').imp_right .inl
      · exact .inr (.inr ⟨rfl, hnew⟩)
    · have hne' := (hother k' π hn hkk).symm.trans_ne hne
      exact (h.needed rfl k' π hn hne').imp_right .inl

/-- The nodes under `indir_block` with a leaf among the first ones. -/
theorem indir_needed {num : ℕ} {π : List ℕ} (hn : Node pageShape 1 π) (hnum : num ≤ 128)
    (h : firstLeaf 1 π < num) : NeededNode (123 + num) 1 π := by
  have hpath : ∀ i, i < num → leafRoot (123 + i) = 1 ∧ leafPath (123 + i) = [i] := by
    intro i hi
    rcases leafRoot_cases (123 + i) with ⟨_, _, _⟩ | ⟨_, _, hr, hp⟩ | ⟨_, _, _⟩
    · omega
    · rw [hr, hp, Nat.add_sub_cancel_left]
      exact ⟨rfl, rfl⟩
    · omega
  have hlen : π.length ≤ 1 := hn.length
  match π, hlen with
  | [], _ =>
    rw [firstLeaf_nil] at h
    exact ⟨123, by omega, (hpath 0 h).1, 0, rfl⟩
  | [i], _ =>
    rw [firstLeaf_cons (Nat.zero_le _), firstLeaf_nil, pow_zero] at h
    exact ⟨123 + i, by omega, (hpath i (by omega)).1, 1, by rw [(hpath i (by omega)).2]; rfl⟩

/-- The nodes under `d_indir_block` with a leaf among the first ones. -/
theorem dIndir_needed {num : ℕ} {π : List ℕ} (hn : Node pageShape 0 π)
    (h : firstLeaf 2 π < num) : NeededNode (251 + num) 0 π := by
  have hpath : ∀ i, leafRoot (251 + i) = 0 ∧ leafPath (251 + i) = [i / 128, i % 128] := by
    intro i
    rcases leafRoot_cases (251 + i) with ⟨_, _, _⟩ | ⟨_, _, _, _⟩ | ⟨_, hr, hp⟩
    · omega
    · omega
    · rw [hr, hp, Nat.add_sub_cancel_left]
      exact ⟨rfl, rfl⟩
  have hlen : π.length ≤ 2 := hn.length
  match π, hlen with
  | [], _ =>
    rw [firstLeaf_nil] at h
    exact ⟨251, by omega, (hpath 0).1, 0, rfl⟩
  | [a], _ =>
    rw [firstLeaf_cons (Nat.zero_le _), firstLeaf_nil, pow_one] at h
    refine ⟨251 + a * 128, by omega, (hpath _).1, 1, ?_⟩
    rw [(hpath _).2, Nat.mul_div_cancel a (by omega)]
    rfl
  | [a, b], _ =>
    have hb : b < 128 := hn.fan b (by simp)
    rw [firstLeaf_cons (by simp), firstLeaf_cons (Nat.zero_le _), firstLeaf_nil, pow_one,
      pow_zero] at h
    refine ⟨251 + (a * 128 + b), by omega, (hpath _).1, 2, ?_⟩
    rw [(hpath _).2]
    have h₁ : (a * 128 + b) / 128 = a := by omega
    have h₂ : (a * 128 + b) % 128 = b := by omega
    rw [h₁, h₂]
    rfl

section

variable {H : InodeDisk → ℕ → Option Inode} {w w₁ w₂ : World} {page page₁ : InodeDisk}

/-- After a success with `indir_block`, the page has the blocks from 123 on. -/
theorem PageReserved.indir (hw : FmOk w) (hok : Ok pageShape (FmNode w) (Allocated w) w.disk page.word)
    (hH : ∀ f d d', w.mem.freeMapFile = some f → H d f.inode = H d' f.inode)
    (h : PageReserved P H 123 w page true w₁ page₁) {s num : ℕ} (hnum : num ≤ 128)
    (hr : Reserved P 1 num w₁ (page₁.word 1) true w₂ s) :
    PageReserved P H (123 + num) w page true ⟨{ w₂.mem with heap := H (page₁.setWord 1 s) }, w₂.disk⟩
      (page₁.setWord 1 s) := by
  obtain ⟨hpg, hleaf⟩ := h.index hw hok hH (k := 1) (by omega) rfl hr
  obtain ⟨hold, hnew, hzero, hacc, hnd⟩ := hleaf rfl
  refine ⟨hpg, fun _ => indir_blocks hnum hold hnew, fun _ k π hn hne => ?_, fun _ => hzero, by simp, fun _ => hacc⟩
  rcases hnd k π hn hne with h | h | ⟨rfl, h⟩
  · exact .inl h
  · exact .inr (h.mono (by omega))
  · exact .inr (indir_needed hn hnum h)

/-- After a success with `d_indir_block`, the page has the blocks from 251 on. -/
theorem PageReserved.dIndir (hw : FmOk w) (hok : Ok pageShape (FmNode w) (Allocated w) w.disk page.word)
    (hH : ∀ f d d', w.mem.freeMapFile = some f → H d f.inode = H d' f.inode)
    (h : PageReserved P H 251 w page true w₁ page₁) {s num : ℕ} (hnum : num ≤ 16384)
    (hr : Reserved P 2 num w₁ (page₁.word 0) true w₂ s) :
    PageReserved P H (251 + num) w page true ⟨{ w₂.mem with heap := H (page₁.setWord 0 s) }, w₂.disk⟩
      (page₁.setWord 0 s) := by
  obtain ⟨hpg, hleaf⟩ := h.index hw hok hH (k := 0) (by omega) rfl hr
  obtain ⟨hold, hnew, hzero, hacc, hnd⟩ := hleaf rfl
  refine ⟨hpg, fun _ => dIndir_blocks hnum hold hnew, fun _ k π hn hne => ?_, fun _ => hzero, by simp, fun _ => hacc⟩
  rcases hnd k π hn hne with h | h | ⟨rfl, h⟩
  · exact .inl h
  · exact .inr (h.mono (by omega))
  · exact .inr (dIndir_needed hn h)

end

/-- **`inode_reserve`** lets a page grow until it has all blocks below a length, or until the device is
full. -/
theorem wp_inodeReserveWith (hbw : WritesMap P bitmapWrite) {store : InodeDisk → Fs Unit}
    {H : InodeDisk → ℕ → Option Inode} (hst : Stores P store H) {w : World} {page : InodeDisk}
    (hw : FmOk w) (hheap : w.mem.heap = H page)
    (hok : Ok pageShape (FmNode w) (Allocated w) w.disk page.word)
    (hH : ∀ f d d', w.mem.freeMapFile = some f → H d f.inode = H d' f.inode) {len : ℤ}
    (hlen : 0 ≤ len)
    (hE : 16635 < bytesToSectors len → ∀ page' w', PageGrown H w page w' page' → E (.exit (-1)) w')
    {Q : Bool × InodeDisk → World → Prop}
    (hQ : ∀ ok page' w', PageReserved P H (bytesToSectors len).toNat w page ok w' page' →
      Q (ok, page') w') :
    wp P (inodeReserveWith bitmapWrite store page len) Q E w := by
  have hstart : PageReserved P H 0 w page true w page :=
    ⟨⟨.refl hw, hheap, .same hok fun _ _ _ _ => rfl, fun _ _ => rfl⟩, by simp,
      fun _ _ _ _ hne => .inl hne, fun _ => rfl, by simp, fun _ => .refl⟩
  have hweak : ∀ {N page₁ w₁}, PageReserved P H N w page false w₁ page₁ →
      PageReserved P H (bytesToSectors len).toNat w page false w₁ page₁ := fun h =>
    ⟨h.toPageGrown, by simp, by simp, by simp, h.full, by simp⟩
  rw [inodeReserveWith, if_neg (by omega)]
  generalize hn : bytesToSectors len = n at *
  simp only [wp_bind]
  refine wp_forUpTo (fun j page₁ w₁ => PageReserved P H j w page true w₁ page₁)
    (fun j page₁ w₁ hj hI => ?_) (fun page₁ w₁ hI => ?_) _ 0 page w (Nat.zero_add _) hstart
  · exact wp_reserveDirect hbw hst hw hok hH (by omega) hI (fun _ _ h => h)
      fun page₂ w₂ h => (wp_pure _).mpr (hQ _ _ _ (hweak h))
  by_cases h1 : n - min n 123 = 0
  · simp only [if_pos h1, wp_pure]
    have hn' : (min n 123).toNat = n.toNat := by omega
    rw [hn'] at hI
    exact hQ _ _ _ hI
  -- the blocks under `indir_block`
  simp only [if_neg h1, wp_bind]
  have hN : (min n 123).toNat = 123 := by omega
  rw [hN] at hI
  have hforest := hI.toPageGrown.forest hw hok
  refine wp_reserveIndirWith hbw 1 (by omega) _ _ w₁ _ hI.keep.ok
    (hforest.root (k := 1) (by decide)) (by omega) (by omega) fun ok s w₂ hr => ?_
  refine hst w₂ page₁ _ _ _ (hr.heap.trans hI.heap) ?_
  cases ok with
  | false =>
    obtain ⟨hpg, _⟩ := hI.index hw hok hH (k := 1) (by omega) rfl hr
    exact (wp_pure _).mpr (hQ _ _ _ ⟨hpg, by simp, by simp, by simp, hr.full, by simp⟩)
  | true =>
    have hI₂ := hI.indir hw hok hH (by omega) hr
    by_cases h2 : n - min n 123 - min (n - min n 123) 128 = 0
    · simp only [Bool.not_true, Bool.false_eq_true, if_false, if_pos h2, wp_pure]
      have hN' : 123 + (min (n - min n 123) 128).toNat = n.toNat := by omega
      rw [hN'] at hI₂
      exact hQ _ _ _ hI₂
    -- the blocks under `d_indir_block`
    simp only [Bool.not_true, Bool.false_eq_true, if_false, if_neg h2, wp_bind]
    have hN' : 123 + (min (n - min n 123) 128).toNat = 251 := by omega
    rw [hN'] at hI₂
    have hforest₂ := hI₂.toPageGrown.forest hw hok
    refine wp_reserveIndirWith hbw 2 (by omega) _ _ _ _ hI₂.keep.ok
      (hforest₂.root (k := 0) (by decide)) (by omega) (by omega) fun ok t w₃ hr₂ => ?_
    refine hst w₃ _ _ _ _ (hr₂.heap.trans hI₂.heap) ?_
    cases ok with
    | false =>
      obtain ⟨hpg₃, _⟩ := hI₂.index hw hok hH (k := 0) (by omega) rfl hr₂
      exact (wp_pure _).mpr (hQ _ _ _ ⟨hpg₃, by simp, by simp, by simp, hr₂.full, by simp⟩)
    | true =>
      have hI₃ := hI₂.dIndir hw hok hH (by omega) hr₂
      by_cases h3 : n - min n 123 - min (n - min n 123) 128 -
          min (n - min n 123 - min (n - min n 123) 128) 16384 = 0
      · simp only [Bool.not_true, Bool.false_eq_true, if_false, if_pos h3, wp_pure]
        have hN₃ : 251 + (min (n - min n 123 - min (n - min n 123) 128) 16384).toNat = n.toNat := by omega
        rw [hN₃] at hI₃
        exact hQ _ _ _ hI₃
      · simp only [Bool.not_true, Bool.false_eq_true, if_false, if_neg h3, wp_stop]
        exact hE (by omega) _ _ hI₃.toPageGrown

end Pintos.Filesys
