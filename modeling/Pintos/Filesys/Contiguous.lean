import Pintos.Filesys.Steady

/-!
# The file system of the fourth project

`filesys/inode.c`, `filesys/file.c` and `filesys/filesys.c` of `project4`, where the sectors of a file are consecutive
and there is one directory.  The functions that are the same in the fifth project (`inode_open`, `inode_reopen`,
`inode_deny_write`, `inode_allow_write`, `file_deny_write`, `file_allow_write`, `file_seek`) are those of
`Pintos.Filesys`; there is no cache, and `bufferCacheRead` and `bufferCacheWrite` are `block_read` and `block_write`.

* `Counted base baseDeny held denied m` says how often each inode is open: as often as others have it open (`base`), and
  as often as `held` says.  A program that opens or closes files moves `held` and leaves `base` alone.
* Closing an inode never panics as long as the sectors of the removed inodes are marked in the free map.
-/

namespace Pintos.Filesys.Contiguous

/-! ## The code -/

/-- `start` of `struct inode_disk` -/
def start (d : InodeDisk) : ℕ := d.word 0

/-- `length` of `struct inode_disk` -/
def length (d : InodeDisk) : ℤ := toInt32 (d.word 1)

/-- `bytes_to_sectors`, as a `size_t`. -/
def bytesToSectors (size : ℤ) : ℕ := ofInt32 ((wrap32 (size + 512 - 1)).tdiv 512)

/-- The sector of a byte within the file: `start + pos / BLOCK_SECTOR_SIZE`. -/
def sectorOf (d : InodeDisk) (pos : ℤ) : ℕ := ofInt32 (start d + pos.tdiv 512)

/-- `byte_to_sector`; `-1` is the largest `block_sector_t`. -/
def byteToSector (p : ℕ) (pos : ℤ) : Fs ℕ := do
  let i ← deref p
  if pos < length i.data then return sectorOf i.data pos else return 2 ^ 32 - 1

/-- `inode_length` -/
def inodeLength (p : ℕ) : Fs ℤ := return length (← deref p).data

/-- The loop of `inode_read_at`; `bounce` says whether the bounce buffer has been allocated. -/
def inodeReadLoop (p : ℕ) : ℕ → ℤ → ℤ → Bool → Fs (List UInt8)
  | 0, _, _, _ => return []
  | fuel + 1, size, offset, bounce =>
    if size ≤ 0 then return []
    else do
      let sectorIdx ← byteToSector p offset
      let sectorOfs := offset.tmod 512
      let inodeLeft := wrap32 ((← inodeLength p) - offset)
      let sectorLeft := 512 - sectorOfs
      let minLeft := min inodeLeft sectorLeft
      let chunkSize := min size minLeft
      if chunkSize ≤ 0 then
        return []
      else if sectorOfs = 0 ∧ chunkSize = 512 then
        let b ← bufferCacheRead sectorIdx
        let rest ← inodeReadLoop p fuel (size - chunkSize) (offset + chunkSize) bounce
        return Bytes.slice b.get 0 512 ++ rest
      else
        let allocated ← if bounce then pure true else malloc
        if !allocated then
          return []
        else
          let b ← bufferCacheRead sectorIdx
          if sectorOfs < 0 then
            .stop .outOfBounds
          else
            let rest ← inodeReadLoop p fuel (size - chunkSize) (offset + chunkSize) true
            return Bytes.slice b.get sectorOfs.toNat chunkSize.toNat ++ rest

/-- `inode_read_at` -/
def inodeReadAt (p : ℕ) (size offset : ℤ) : Fs (List UInt8) := inodeReadLoop p size.toNat size offset false

/-- The loop of `inode_write_at`. -/
def inodeWriteLoop (p : ℕ) : ℕ → (ℕ → UInt8) → ℤ → ℤ → Bool → Fs ℤ
  | 0, _, _, _, _ => return 0
  | fuel + 1, buffer, size, offset, bounce =>
    if size ≤ 0 then return 0
    else do
      let sectorIdx ← byteToSector p offset
      let sectorOfs := offset.tmod 512
      let inodeLeft := wrap32 ((← inodeLength p) - offset)
      let sectorLeft := 512 - sectorOfs
      let minLeft := min inodeLeft sectorLeft
      let chunkSize := min size minLeft
      if chunkSize ≤ 0 then
        return 0
      else if sectorOfs = 0 ∧ chunkSize = 512 then
        bufferCacheWrite sectorIdx (Block.mk buffer)
        let rest ← inodeWriteLoop p fuel (fun i => buffer (i + chunkSize.toNat)) (size - chunkSize)
          (offset + chunkSize) bounce
        return chunkSize + rest
      else
        let allocated ← if bounce then pure true else malloc
        if !allocated then
          return 0
        else
          let b ← if sectorOfs > 0 ∨ chunkSize < sectorLeft then bufferCacheRead sectorIdx else pure Block.zero
          if sectorOfs < 0 then
            .stop .outOfBounds
          else
            bufferCacheWrite sectorIdx (b.splice sectorOfs.toNat chunkSize.toNat buffer)
            let rest ← inodeWriteLoop p fuel (fun i => buffer (i + chunkSize.toNat)) (size - chunkSize)
              (offset + chunkSize) true
            return chunkSize + rest

/-- `inode_write_at` -/
def inodeWriteAt (p : ℕ) (buffer : ℕ → UInt8) (size offset : ℤ) : Fs ℤ := do
  let i ← deref p
  if i.denyWriteCnt ≠ 0 then return 0 else inodeWriteLoop p size.toNat buffer size offset false

/-- `bitmap_write (free_map, free_map_file)` -/
def bitmapWrite : Fs Bool := bitmapWriteWith inodeWriteAt

/-- `free_map_release` -/
def freeMapRelease (sector cnt : ℕ) : Fs Unit := freeMapReleaseWith bitmapWrite sector cnt

/-- `inode_close` -/
def inodeClose : Option ℕ → Fs Unit
  | none => return
  | some p => do
    let i ← deref p
    assign p { i with openCnt := i.openCnt - 1 }
    if i.openCnt - 1 = 0 then
      let m ← getMem
      setMem { m with openInodes := m.openInodes.erase p }
      if i.removed then
        freeMapRelease i.sector 1
        freeMapRelease (start i.data) (bytesToSectors (length i.data))
      let m ← getMem
      setMem { m with heap := Function.update m.heap p none }
    else return

/-- `file_open` -/
def fileOpen (inode : Option ℕ) : Fs (Option File) := do
  let allocated ← malloc
  match inode, allocated with
  | some p, true => return some ⟨p, 0, false⟩
  | inode, _ =>
    inodeClose inode
    return none

/-- `file_close` -/
def fileClose : Option File → Fs Unit
  | none => return
  | some f => do
    let f ← fileAllowWrite f
    inodeClose (some f.inode)

/-- `file_read`: the bytes read and the file with its position moved. -/
def fileRead (f : File) (size : ℤ) : Fs (List UInt8 × File) := do
  let l ← inodeReadAt f.inode size f.pos
  return (l, { f with pos := wrap32 (f.pos + l.length) })

/-- `file_write`: the number of bytes written and the file with its position moved. -/
def fileWrite (f : File) (buffer : ℕ → UInt8) (size : ℤ) : Fs (ℤ × File) := do
  let n ← inodeWriteAt f.inode buffer size f.pos
  return (n, { f with pos := wrap32 (f.pos + n) })

/-- `file_length` -/
def fileLength (f : File) : Fs ℤ := inodeLength f.inode

/-- `dir_open` -/
def dirOpen (inode : Option ℕ) : Fs (Option Dir) := do
  let allocated ← malloc
  match inode, allocated with
  | some p, true => return some ⟨p, 0⟩
  | inode, _ =>
    inodeClose inode
    return none

/-- `dir_open_root` -/
def dirOpenRoot : Fs (Option Dir) := do dirOpen (← inodeOpen rootDirSector)

/-- `dir_close` -/
def dirClose : Option Dir → Fs Unit
  | none => return
  | some d => inodeClose (some d.inode)

/-- Reading one entry: `none` when `inode_read_at` comes back short. -/
def readEntry (d : Dir) (ofs : ℕ) : Fs (Option DirEntry) := do
  let l ← inodeReadAt d.inode 20 (toInt32 ofs)
  return if l.length = 20 then some (Bytes.overlay l fun _ => 0) else none

/-- The loop of `lookup`, from `ofs` on. -/
def lookupLoop (d : Dir) (name : List UInt8) : ℕ → ℕ → Fs (Option DirEntry)
  | 0, _ => .stop .diverges
  | fuel + 1, ofs => do
    match ← readEntry d ofs with
    | none => return none
    | some e => if e.inUse && e.hasName name then return some e else lookupLoop d name fuel (ofs + 20)

/-- `dir_lookup`; what goes to `*inode`. -/
def dirLookup (d : Dir) (name : List UInt8) : Fs (Option ℕ) := do
  match ← lookupLoop d name maxEntries 0 with
  | some e => inodeOpen e.inodeSector
  | none => return none

/-- `filesys_open` -/
def filesysOpen (name : List UInt8) : Fs (Option File) := do
  let dir ← dirOpenRoot
  let inode ← match dir with
    | some d => dirLookup d name
    | none => pure none
  dirClose dir
  fileOpen inode

/-! ## Reading and writing -/

variable {α β : Type}

/-- The program leaves the memory `m` as it is, and stops only with what `E` admits. -/
def Fixes (m : Mem) (E : Stop → Prop) (p : Fs α) : Prop :=
  ∀ w : World, w.mem = m → wp .any p (fun _ w' => w'.mem = m) (fun e w' => w'.mem = m ∧ E e) w

namespace Fixes

variable {m : Mem} {E : Stop → Prop} {p : ℕ} {i : Inode}

theorem ret (a : α) : Fixes m E (.ret a) := fun _ hw => (wp_ret a).mpr hw

theorem stop {e : Stop} (h : E e) : Fixes m E (.stop e : Fs α) := fun _ hw => (wp_stop e).mpr ⟨hw, h⟩

theorem bind {p : Fs β} {f : β → Fs α} (hp : Fixes m E p) (hf : ∀ b, Fixes m E (f b)) : Fixes m E (p >>= f) :=
  fun w hw => wp_seq (hp w hw) fun b w' h => hf b w' h

theorem malloc : Fixes m E malloc := fun _ hw => wp_malloc.mpr fun _ _ => hw

theorem deref (hi : m.heap p = some i) {f : Inode → Fs α} (hf : Fixes m E (f i)) : Fixes m E (deref p >>= f) := by
  intro w hw
  rw [wp_bind, wp_deref_some (by rw [hw]; exact hi)]
  exact hf w hw

theorem bufferCacheRead {s : ℕ} (h : s < m.fsSize ∨ E .panic) : Fixes m E (bufferCacheRead s) := by
  intro w hw
  rw [wp_bufferCacheRead]
  split
  · exact hw
  · rename_i hs
    rw [hw] at hs
    exact ⟨hw, h.resolve_left hs⟩

theorem bufferCacheWrite {s : ℕ} (h : s < m.fsSize ∨ E .panic) (d : Sector) : Fixes m E (bufferCacheWrite s d) := by
  intro w hw
  rw [wp_bufferCacheWrite]
  split
  · exact hw
  · rename_i hs
    rw [hw] at hs
    exact ⟨hw, h.resolve_left hs⟩

theorem inodeLength (hi : m.heap p = some i) {f : ℤ → Fs α} (hf : Fixes m E (f (length i.data))) :
    Fixes m E (inodeLength p >>= f) := by
  unfold Contiguous.inodeLength
  rw [Prog.bind_bind]
  exact .deref hi hf

theorem byteToSector (hi : m.heap p = some i) {pos : ℤ} {f : ℕ → Fs α}
    (hf : Fixes m E (f (if pos < length i.data then sectorOf i.data pos else 2 ^ 32 - 1))) :
    Fixes m E (byteToSector p pos >>= f) := by
  unfold Contiguous.byteToSector
  rw [Prog.bind_bind]
  apply Fixes.deref hi
  split at hf
  · rename_i hpos
    rw [if_pos hpos]
    exact hf
  · rename_i hpos
    rw [if_neg hpos]
    exact hf

/-- Where a bounce buffer is needed. -/
theorem bounced {bounce : Bool} {a : α} {f : Fs α} (hf : Fixes m E f) :
    Fixes m E (do
      let allocated ← if bounce then pure true else Filesys.malloc
      if !allocated then pure a else f) := by
  have hcheck : ∀ allocated : Bool, Fixes m E (if (!allocated) = true then pure a else f) := by
    intro allocated
    cases allocated with
    | false => exact .ret a
    | true => exact hf
  cases bounce with
  | true => exact hcheck true
  | false => exact .bind .malloc hcheck

/-- `inode_read_at` -/
theorem inodeReadAt (hi : m.heap p = some i) (size offset : ℤ) : Fixes m (fun _ => True) (inodeReadAt p size offset) := by
  have hloop : ∀ fuel size offset bounce, Fixes m (fun _ => True) (inodeReadLoop p fuel size offset bounce) := by
    intro fuel
    induction fuel with
    | zero => exact fun _ _ _ => .ret _
    | succ fuel ih =>
      intro size offset bounce
      unfold inodeReadLoop
      split
      · exact .ret _
      apply byteToSector hi
      apply Fixes.inodeLength hi
      dsimp only
      generalize min size (min (wrap32 (length i.data - offset)) (512 - offset.tmod 512)) = c
      split
      · exact .ret _
      split
      · exact .bind (.bufferCacheRead (.inr trivial)) fun b => .bind (ih _ _ _) fun rest => .ret _
      · apply bounced
        apply Fixes.bind (.bufferCacheRead (.inr trivial))
        intro b
        split
        · exact .stop trivial
        · exact .bind (ih _ _ _) fun rest => .ret _
  exact hloop _ _ _ _

end Fixes

/-- The bytes of a file that a write is for have their sectors on the device. -/
structure OnDevice (fsSize : ℕ) (d : InodeDisk) (offset size : ℤ) : Prop where
  nonneg : 0 ≤ offset
  small : offset + size < 2 ^ 31
  length_nonneg : 0 ≤ length d
  sector : ∀ pos, offset ≤ pos → pos < offset + size → pos < length d → sectorOf d pos < fsSize

/-- The rest of a write, after a piece of it. -/
theorem OnDevice.rest {fsSize : ℕ} {d : InodeDisk} {offset size c : ℤ} (h : OnDevice fsSize d offset size)
    (hc : 0 < c) : OnDevice fsSize d (offset + c) (size - c) where
  nonneg := by have := h.nonneg; omega
  small := by have := h.small; omega
  length_nonneg := h.length_nonneg
  sector pos hlo hhi := h.sector pos (by omega) (by omega)

/-- `inode_write_at`, which changes only what is on the disk. -/
theorem Fixes.inodeWriteAt {m : Mem} {E : Stop → Prop} {p : ℕ} {i : Inode} (hi : m.heap p = some i)
    (buffer : ℕ → UInt8) {size offset : ℤ} (h : OnDevice m.fsSize i.data offset size ∨ ∀ e, E e) :
    Fixes m E (inodeWriteAt p buffer size offset) := by
  have hloop : ∀ fuel buffer size offset bounce, (OnDevice m.fsSize i.data offset size ∨ ∀ e, E e) →
      Fixes m E (inodeWriteLoop p fuel buffer size offset bounce) := by
    intro fuel
    induction fuel with
    | zero => exact fun _ _ _ _ _ => .ret _
    | succ fuel ih =>
      intro buffer size offset bounce h
      unfold inodeWriteLoop
      split
      · exact .ret _
      apply byteToSector hi
      apply Fixes.inodeLength hi
      dsimp only
      set c := min size (min (wrap32 (length i.data - offset)) (512 - offset.tmod 512)) with hc
      set s := if offset < length i.data then sectorOf i.data offset else 2 ^ 32 - 1 with hs
      split
      · exact .ret _
      rename_i hpositive
      -- a piece is within the file
      have hsector : s < m.fsSize ∨ E .panic := by
        rcases h with h | h
        · have hlen := toInt32_bounds (v := i.data.word 1) (i.data.word_lt 1)
          have hlo := h.nonneg
          have hhi := h.small
          have hnonneg := h.length_nonneg
          have hwrap : wrap32 (length i.data - offset) = length i.data - offset :=
            wrap32_of_mem (by unfold length at *; omega) (by unfold length at *; omega)
          have hlt : offset < length i.data := by omega
          rw [hs, if_pos hlt]
          exact .inl (h.sector offset (le_refl _) (by omega) hlt)
        · exact .inr (h _)
      have hrest : OnDevice m.fsSize i.data (offset + c) (size - c) ∨ ∀ e, E e :=
        h.imp_left fun h => h.rest (by omega)
      split
      · exact .bind (.bufferCacheWrite hsector _) fun _ => .bind (ih _ _ _ _ hrest) fun rest => .ret _
      · have hpart : ∀ b : Sector, Fixes m E (
            if offset.tmod 512 < 0 then Prog.stop .outOfBounds
            else do
              Filesys.bufferCacheWrite s (b.splice (offset.tmod 512).toNat c.toNat buffer)
              let rest ← inodeWriteLoop p fuel (fun i => buffer (i + c.toNat)) (size - c) (offset + c) true
              return c + rest) := by
          intro b
          split
          · rename_i hneg
            rcases h with h | h
            · have := Int.tmod_nonneg 512 h.nonneg
              omega
            · exact .stop (h _)
          · exact .bind (.bufferCacheWrite hsector _) fun _ => .bind (ih _ _ _ _ hrest) fun rest => .ret _
        apply bounced
        split
        · exact .bind (.bufferCacheRead hsector) hpart
        · exact hpart _
  apply Fixes.deref hi
  split
  · exact .ret _
  · exact hloop _ _ _ _ _ h

/-! ## How often an inode is open -/

/-- The sectors of a file, which are released when it has been removed and is closed for the last time. -/
def sectors (i : Inode) : Set ℕ :=
  {s | s = i.sector ∨ start i.data ≤ s ∧ s < start i.data + bytesToSectors (length i.data)}

/-- They are marked in the free map. -/
structure Marked (b : Bitmap) (i : Inode) : Prop where
  sector : i.sector < b.bitCnt
  data : start i.data + bytesToSectors (length i.data) ≤ b.bitCnt
  apart : ¬(start i.data ≤ i.sector ∧ i.sector < start i.data + bytesToSectors (length i.data))
  bits : ∀ s ∈ sectors i, b.bits s = true

/-- The file of the free map is open, and its sectors are on the device. -/
def FreeMapStored (m : Mem) : Prop :=
  ∃ f i, m.freeMapFile = some f ∧ m.heap f.inode = some i ∧ OnDevice m.fsSize i.data 0 m.freeMap.byteCnt

/-- The sectors of every removed file can be released. -/
structure Releasable (m : Mem) : Prop where
  stored : FreeMapStored m
  marked : ∀ p i, m.heap p = some i → i.removed = true → Marked m.freeMap i
  apart : ∀ p q i j, m.heap p = some i → m.heap q = some j → i.removed = true → j.removed = true → p ≠ q →
    ∀ s ∈ sectors i, s ∉ sectors j

/-- Every inode is open as often as others have opened it, `base`, and as often as `held` says; writes to it are denied
as often as by others, `baseDeny`, and by `denied`. -/
structure Counted (base baseDeny held denied : ℕ → ℕ) (m : Mem) : Prop where
  live : ∀ p, Live m p ↔ 0 < base p + held p
  openCnt : ∀ p i, m.heap p = some i → i.openCnt = base p + held p
  denyWriteCnt : ∀ p i, m.heap p = some i → i.denyWriteCnt = baseDeny p + denied p
  denies : ∀ p, baseDeny p ≤ base p ∧ denied p ≤ held p
  listed : ∀ p, p ∈ m.openInodes ↔ Live m p
  nodup : m.openInodes.Nodup
  fresh : ∀ p, m.next ≤ p → base p + held p = 0
  freeMap : ∀ f, m.freeMapFile = some f → 0 < base f.inode
  releasable : Releasable m

/-- Once more at `p`. -/
def up (f : ℕ → ℕ) (p : ℕ) : ℕ → ℕ := Function.update f p (f p + 1)

@[simp] theorem up_self (f : ℕ → ℕ) (p : ℕ) : up f p p = f p + 1 := Function.update_self ..

theorem up_of_ne (f : ℕ → ℕ) {p q : ℕ} (h : q ≠ p) : up f p q = f q := Function.update_of_ne h ..

theorem le_up (f : ℕ → ℕ) (p q : ℕ) : f q ≤ up f p q := by
  by_cases hq : q = p
  · subst hq
    rw [up_self]
    omega
  · rw [up_of_ne f hq]

variable {m m' : Mem} {base baseDeny held denied held' denied' : ℕ → ℕ} {p : ℕ} {i i' : Inode}

/-- The same files are removed, and what is marked for them stays. -/
theorem Releasable.congr (h : Releasable m) (hsize : m'.fsSize = m.fsSize) (hfile : m'.freeMapFile = m.freeMapFile)
    (hcnt : m'.freeMap.bitCnt = m.freeMap.bitCnt)
    (hmap : ∀ f i, m.freeMapFile = some f → m.heap f.inode = some i →
      ∃ i', m'.heap f.inode = some i' ∧ i'.data = i.data)
    (hheap : ∀ q j', m'.heap q = some j' → j'.removed = true → ∃ j, m.heap q = some j ∧ j.removed = true ∧
      j'.sector = j.sector ∧ j'.data = j.data ∧ ∀ s ∈ sectors j, m'.freeMap.bits s = m.freeMap.bits s) :
    Releasable m' := by
  have hsectors : ∀ {j j' : Inode}, j'.sector = j.sector → j'.data = j.data → sectors j' = sectors j := by
    intro j j' hs hd
    unfold sectors
    rw [hs, hd]
  refine ⟨?_, ?_, ?_⟩
  · obtain ⟨f, i, hf, hi, hdevice⟩ := h.stored
    obtain ⟨i', hi', hdata⟩ := hmap f i hf hi
    refine ⟨f, i', hfile.trans hf, hi', ?_⟩
    unfold Bitmap.byteCnt at hdevice ⊢
    rw [hsize, hcnt, hdata]
    exact hdevice
  · intro q j' hj' hremoved
    obtain ⟨j, hj, hr, hs, hd, hbits⟩ := hheap q j' hj' hremoved
    have hmarked := h.marked q j hj hr
    refine ⟨?_, ?_, ?_, ?_⟩
    · rw [hs, hcnt]
      exact hmarked.sector
    · rw [hd, hcnt]
      exact hmarked.data
    · rw [hs, hd]
      exact hmarked.apart
    · intro s hmem
      rw [hsectors hs hd] at hmem
      rw [hbits s hmem]
      exact hmarked.bits s hmem
  · intro q r j' k' hj' hk' hrj hrk hne
    obtain ⟨j, hj, hr, hs, hd, -⟩ := hheap q j' hj' hrj
    obtain ⟨k, hk, hr', hs', hd', -⟩ := hheap r k' hk' hrk
    rw [hsectors hs hd, hsectors hs' hd']
    exact h.apart q r j k hj hk hr hr' hne

/-- Only the counts of an inode change. -/
theorem Releasable.setInode (h : Releasable m) (hi : m.heap p = some i)
    (hsame : i'.sector = i.sector ∧ i'.removed = i.removed ∧ i'.data = i.data) (ps : List ℕ) :
    Releasable { m with heap := Function.update m.heap p (some i'), openInodes := ps } := by
  have hheap : ∀ q, q ≠ p → Function.update m.heap p (some i') q = m.heap q := fun q hq =>
    Function.update_of_ne hq ..
  have hself : Function.update m.heap p (some i') p = some i' := Function.update_self ..
  refine h.congr rfl rfl rfl ?_ ?_
  · intro f j hf hj
    dsimp only
    by_cases hq : f.inode = p
    · rw [hq] at hj ⊢
      cases hi.symm.trans hj
      exact ⟨i', hself, hsame.2.2⟩
    · rw [hheap _ hq]
      exact ⟨j, hj, rfl⟩
  · intro q j hj hremoved
    dsimp only at hj
    by_cases hq : q = p
    · subst hq
      cases hself.symm.trans hj
      exact ⟨i, hi, hsame.2.1.symm.trans hremoved, hsame.1, hsame.2.2, fun _ _ => rfl⟩
    · rw [hheap q hq] at hj
      exact ⟨j, hj, hremoved, rfl, rfl, fun _ _ => rfl⟩

theorem wp_findOpen {w : World} (sector : ℕ) {E : Stop → World → Prop} :
    ∀ ps, (∀ q ∈ ps, Live w.mem q) →
      wp .any (findOpen sector ps) (fun r w' => w' = w ∧ ∀ q, r = some q → Live w.mem q) E w := by
  intro ps
  induction ps with
  | nil =>
    intro _
    rw [Filesys.findOpen, wp_pure]
    exact ⟨rfl, nofun⟩
  | cons q ps ih =>
    intro hps
    obtain ⟨j, hj⟩ := hps q List.mem_cons_self
    rw [Filesys.findOpen, wp_bind, wp_deref_some hj]
    split
    · rw [wp_pure]
      refine ⟨rfl, ?_⟩
      intro r hr
      cases hr
      exact ⟨j, hj⟩
    · exact ih fun r hr => hps r (List.mem_cons_of_mem q hr)

namespace Counted

theorem inode (h : Counted base baseDeny held denied m) (hp : 0 < base p + held p) :
    ∃ i, m.heap p = some i ∧ i.openCnt = base p + held p ∧ i.denyWriteCnt = baseDeny p + denied p := by
  obtain ⟨i, hi⟩ := (h.live p).mpr hp
  exact ⟨i, hi, h.openCnt p i hi, h.denyWriteCnt p i hi⟩

/-- Only the counts of one inode change. -/
theorem setInode (h : Counted base baseDeny held denied m) (hi : m.heap p = some i)
    (hsame : i'.sector = i.sector ∧ i'.removed = i.removed ∧ i'.data = i.data)
    (hother : ∀ q, q ≠ p → held' q = held q ∧ denied' q = denied q) (hpos : 0 < base p + held' p)
    (hopen : i'.openCnt = base p + held' p) (hdeny : i'.denyWriteCnt = baseDeny p + denied' p)
    (hle : denied' p ≤ held' p) :
    Counted base baseDeny held' denied' { m with heap := Function.update m.heap p (some i') } := by
  have hheap : ∀ q, q ≠ p → Function.update m.heap p (some i') q = m.heap q := fun q hq =>
    Function.update_of_ne hq ..
  have hself : Function.update m.heap p (some i') p = some i' := Function.update_self ..
  have hlive : ∀ q, Live { m with heap := Function.update m.heap p (some i') } q ↔ Live m q := by
    intro q
    unfold Live
    dsimp only
    by_cases hq : q = p
    · subst hq
      rw [hself, hi]
      exact ⟨fun _ => ⟨i, rfl⟩, fun _ => ⟨i', rfl⟩⟩
    · rw [hheap q hq]
  refine ⟨?_, ?_, ?_, ?_, ?_, h.nodup, ?_, h.freeMap, ?_⟩
  · intro q
    rw [hlive, h.live]
    by_cases hq : q = p
    · subst hq
      have hold := (h.live q).mp ⟨i, hi⟩
      exact ⟨fun _ => hpos, fun _ => hold⟩
    · rw [(hother q hq).1]
  · intro q j hj
    dsimp only at hj
    by_cases hq : q = p
    · subst hq
      cases hself.symm.trans hj
      exact hopen
    · rw [hheap q hq] at hj
      rw [(hother q hq).1]
      exact h.openCnt q j hj
  · intro q j hj
    dsimp only at hj
    by_cases hq : q = p
    · subst hq
      cases hself.symm.trans hj
      exact hdeny
    · rw [hheap q hq] at hj
      rw [(hother q hq).2]
      exact h.denyWriteCnt q j hj
  · intro q
    by_cases hq : q = p
    · subst hq
      exact ⟨(h.denies q).1, hle⟩
    · rw [(hother q hq).1, (hother q hq).2]
      exact h.denies q
  · intro q
    rw [hlive]
    exact h.listed q
  · intro q hq
    have hzero := h.fresh q hq
    have hne : q ≠ p := by
      rintro rfl
      have := (h.live q).mp ⟨i, hi⟩
      omega
    rw [(hother q hne).1]
    exact hzero
  · exact h.releasable.setInode hi hsame m.openInodes

/-! ### Opening -/

/-- An inode that is not in memory yet. -/
theorem alloc (h : Counted base baseDeny held denied m) (hi : i.openCnt = 1 ∧ i.denyWriteCnt = 0 ∧ i.removed = false) :
    Counted base baseDeny (up held m.next) denied { m with
      heap := Function.update m.heap m.next (some i)
      next := m.next + 1
      openInodes := m.next :: m.openInodes } := by
  have hzero := h.fresh m.next (le_refl _)
  have hdenies := h.denies m.next
  have hself : Function.update m.heap m.next (some i) m.next = some i := Function.update_self ..
  have hnone : ¬Live m m.next := fun hlive => by
    have := (h.live m.next).mp hlive
    omega
  have hheap : ∀ q, q ≠ m.next → Function.update m.heap m.next (some i) q = m.heap q := fun q hq =>
    Function.update_of_ne hq ..
  have hkept : ∀ q j, m.heap q = some j → q ≠ m.next := by
    rintro q j hj rfl
    exact hnone ⟨j, hj⟩
  have hlive : ∀ q, Live { m with
      heap := Function.update m.heap m.next (some i)
      next := m.next + 1
      openInodes := m.next :: m.openInodes } q ↔ q = m.next ∨ Live m q := by
    intro q
    unfold Live
    dsimp only
    by_cases hq : q = m.next
    · subst hq
      rw [hself]
      exact ⟨fun _ => .inl rfl, fun _ => ⟨i, rfl⟩⟩
    · rw [hheap q hq]
      exact ⟨.inr, fun h => h.resolve_left hq⟩
  refine ⟨?_, ?_, ?_, ?_, ?_, ?_, ?_, h.freeMap, ?_⟩
  · intro q
    rw [hlive, h.live]
    by_cases hq : q = m.next
    · subst hq
      rw [up_self]
      exact ⟨fun _ => by omega, fun _ => .inl rfl⟩
    · rw [up_of_ne held hq]
      exact ⟨fun h => h.resolve_left hq, .inr⟩
  · intro q j hj
    dsimp only at hj
    by_cases hq : q = m.next
    · subst hq
      cases hself.symm.trans hj
      rw [up_self, hi.1]
      omega
    · rw [hheap q hq] at hj
      rw [up_of_ne held hq]
      exact h.openCnt q j hj
  · intro q j hj
    dsimp only at hj
    by_cases hq : q = m.next
    · subst hq
      cases hself.symm.trans hj
      rw [hi.2.1]
      omega
    · rw [hheap q hq] at hj
      exact h.denyWriteCnt q j hj
  · intro q
    exact ⟨(h.denies q).1, le_trans (h.denies q).2 (le_up held m.next q)⟩
  · intro q
    rw [hlive, List.mem_cons, h.listed]
  · refine List.nodup_cons.mpr ⟨?_, h.nodup⟩
    rw [h.listed]
    exact hnone
  · intro q hq
    dsimp only at hq
    rw [up_of_ne held (by omega)]
    exact h.fresh q (by omega)
  · refine h.releasable.congr rfl rfl rfl ?_ ?_
    · intro f j hf hj
      exact ⟨j, (hheap _ (hkept _ j hj)).trans hj, rfl⟩
    · intro q j hj hremoved
      dsimp only at hj
      by_cases hq : q = m.next
      · subst hq
        cases hself.symm.trans hj
        rw [hi.2.2] at hremoved
        cases hremoved
      · rw [hheap q hq] at hj
        exact ⟨j, hj, hremoved, rfl, rfl, fun _ _ => rfl⟩

variable {w : World}

/-- `inode_reopen` -/
theorem inodeReopen (h : Counted base baseDeny held denied w.mem) (hp : Live w.mem p) {E : Stop → World → Prop} :
    wp .any (inodeReopen (some p))
      (fun r w' => r = some p ∧ Counted base baseDeny (up held p) denied w'.mem) E w := by
  have hpos := (h.live p).mp hp
  obtain ⟨i, hi, hopen, hdeny⟩ := h.inode hpos
  simp only [Filesys.inodeReopen, wp_bind, wp_deref_some hi, wp_assign, hi, wp_pure]
  refine ⟨trivial, h.setInode hi ⟨rfl, rfl, rfl⟩ ?_ ?_ ?_ hdeny ?_⟩
  · exact fun q hq => ⟨up_of_ne held hq, rfl⟩
  · rw [up_self]
    omega
  · rw [up_self]
    push_cast
    omega
  · rw [up_self]
    have := (h.denies p).2
    omega

/-- `inode_open`: the inode is open once more, or memory has run out. -/
theorem inodeOpen (h : Counted base baseDeny held denied w.mem) (sector : ℕ) :
    wp .any (inodeOpen sector) (fun r w' => match r with
      | none => Counted base baseDeny held denied w'.mem
      | some p => Counted base baseDeny (up held p) denied w'.mem) (fun _ _ => True) w := by
  rw [Filesys.inodeOpen, wp_bind, wp_getMem]
  apply wp_seq (wp_findOpen sector _ fun q hq => (h.listed q).mp hq)
  rintro r w' ⟨rfl, hr⟩
  cases r with
  | some p =>
    apply wp_mono_ret (h.inodeReopen (hr p rfl))
    rintro r w'' ⟨rfl, hcounted⟩
    exact hcounted
  | none =>
    simp only [wp_bind, wp_malloc]
    intro b _
    cases b with
    | false =>
      rw [if_neg Bool.false_ne_true, wp_pure]
      exact h
    | true =>
      rw [if_pos rfl, wp_bind, wp_bufferCacheRead]
      split
      · simp only [wp_bind, wp_getMem, wp_setMem, wp_pure]
        exact h.alloc ⟨rfl, rfl, rfl⟩
      · trivial

/-! ### Closing -/

/-- An inode that is closed for the last time. -/
theorem free (h : Counted base baseDeny (up held p) denied m) (hi : m.heap p = some i) (hzero : base p + held p = 0)
    (hdenied : denied p ≤ held p) {b : Bitmap} (hcnt : b.bitCnt = m.freeMap.bitCnt)
    (hbits : ∀ s, b.bits s = m.freeMap.bits s ∨ i.removed = true ∧ s ∈ sectors i) :
    Counted base baseDeny held denied { m with
      heap := Function.update m.heap p none
      openInodes := m.openInodes.erase p
      freeMap := b } := by
  have hself : Function.update m.heap p none p = none := Function.update_self ..
  have hheap : ∀ q, q ≠ p → Function.update m.heap p none q = m.heap q := fun q hq => Function.update_of_ne hq ..
  have hkept : ∀ q j, Function.update m.heap p none q = some j → q ≠ p ∧ m.heap q = some j := by
    intro q j hj
    have hq : q ≠ p := by
      rintro rfl
      rw [hself] at hj
      cases hj
    exact ⟨hq, by rwa [hheap q hq] at hj⟩
  have hlive : ∀ q, Live { m with
      heap := Function.update m.heap p none
      openInodes := m.openInodes.erase p
      freeMap := b } q ↔ q ≠ p ∧ Live m q := by
    intro q
    unfold Live
    dsimp only
    by_cases hq : q = p
    · subst hq
      rw [hself]
      constructor
      · rintro ⟨j, hj⟩
        cases hj
      · intro hj
        exact absurd rfl hj.1
    · rw [hheap q hq]
      exact ⟨fun hj => ⟨hq, hj⟩, And.right⟩
  refine ⟨?_, ?_, ?_, ?_, ?_, h.nodup.erase p, ?_, h.freeMap, ?_⟩
  · intro q
    rw [hlive, h.live]
    by_cases hq : q = p
    · subst hq
      exact ⟨fun hj => absurd rfl hj.1, fun hj => by omega⟩
    · rw [up_of_ne held hq]
      exact ⟨And.right, fun hj => ⟨hq, hj⟩⟩
  · intro q j hj
    obtain ⟨hq, hj⟩ := hkept q j hj
    rw [h.openCnt q j hj, up_of_ne held hq]
  · intro q j hj
    exact h.denyWriteCnt q j (hkept q j hj).2
  · intro q
    have hold := h.denies q
    by_cases hq : q = p
    · subst hq
      exact ⟨hold.1, hdenied⟩
    · rw [up_of_ne held hq] at hold
      exact hold
  · intro q
    rw [hlive, h.nodup.mem_erase_iff, h.listed]
  · intro q hq
    have hfresh := h.fresh q hq
    by_cases hqp : q = p
    · subst hqp
      exact hzero
    · rwa [up_of_ne held hqp] at hfresh
  · refine h.releasable.congr rfl rfl hcnt ?_ ?_
    · intro f j hf hj
      have hne : f.inode ≠ p := by
        intro heq
        have := h.freeMap f hf
        rw [heq] at this
        omega
      exact ⟨j, (hheap _ hne).trans hj, rfl⟩
    · intro q j hj hremoved
      obtain ⟨hq, hj⟩ := hkept q j hj
      refine ⟨j, hj, hremoved, rfl, rfl, ?_⟩
      intro s hs
      rcases hbits s with hsame | ⟨hr, hin⟩
      · exact hsame
      · exact absurd hs (h.releasable.apart p q i j hi hj hr hremoved (Ne.symm hq) s hin)

end Counted

/-- `free_map_release`, for sectors that are marked. -/
theorem wp_freeMapRelease {w : World} (h : FreeMapStored w.mem) {sector cnt : ℕ}
    (hcnt : sector + cnt ≤ w.mem.freeMap.bitCnt)
    (hbits : ∀ s, sector ≤ s → s < sector + cnt → w.mem.freeMap.bits s = true) :
    wp .any (freeMapRelease sector cnt)
      (fun _ w' => w'.mem = { w.mem with freeMap := w.mem.freeMap.setMultiple sector cnt false })
      (fun _ _ => False) w := by
  obtain ⟨f, i, hf, hi, hdevice⟩ := h
  have hcontains : w.mem.freeMap.contains sector cnt false = false := by
    unfold Bitmap.contains
    rw [List.any_eq_false]
    intro k hk
    rw [hbits (sector + k) (by omega) (by have := List.mem_range.mp hk; omega)]
    decide
  unfold freeMapRelease freeMapReleaseWith
  rw [wp_bind, wp_getMem, if_neg (by rw [hcontains]; simp; omega), wp_bind, wp_setMem, wp_bind]
  unfold bitmapWrite bitmapWriteWith
  rw [wp_bind, wp_getMem]
  split
  · rename_i hnone
    cases hf.symm.trans hnone
  · rename_i f' hf'
    cases hf.symm.trans hf'
    have hwrite := Fixes.inodeWriteAt (m := { w.mem with freeMap := w.mem.freeMap.setMultiple sector cnt false })
      (E := fun _ => False) hi (w.mem.freeMap.setMultiple sector cnt false).byte (.inl hdevice)
    rw [wp_bind]
    apply wp_mono (hwrite _ rfl)
    · intro n w' hw'
      simp only [wp_pure]
      exact hw'
    · intro e w' hstop
      exact hstop.2.elim

theorem FreeMapStored.setFreeMap (h : FreeMapStored m) {b : Bitmap} (hcnt : b.bitCnt = m.freeMap.bitCnt) :
    FreeMapStored { m with freeMap := b } := by
  obtain ⟨f, i, hf, hi, hdevice⟩ := h
  refine ⟨f, i, hf, hi, ?_⟩
  unfold Bitmap.byteCnt at hdevice ⊢
  rw [hcnt]
  exact hdevice

namespace Counted

variable {w : World}

/-- `inode_close`, which does not panic. -/
theorem inodeClose (h : Counted base baseDeny (up held p) denied w.mem) (hdenied : denied p ≤ held p) :
    wp .any (inodeClose (some p)) (fun _ w' => Counted base baseDeny held denied w'.mem) (fun _ _ => False) w := by
  obtain ⟨i, hi, hopen, hdeny⟩ := h.inode (p := p) (by rw [up_self]; omega)
  rw [up_self] at hopen
  have hreleasable : Releasable { w.mem with
      heap := Function.update w.mem.heap p (some { i with openCnt := i.openCnt - 1 })
      openInodes := w.mem.openInodes.erase p } := by
    refine h.releasable.setInode hi ?_ _
    exact ⟨rfl, rfl, rfl⟩
  rw [Contiguous.inodeClose, wp_bind, wp_deref_some hi, wp_bind, wp_assign, hi]
  dsimp only
  split
  · rename_i hlast
    simp only [wp_bind, wp_getMem, wp_setMem]
    have hzero : base p + held p = 0 := by omega
    by_cases hremoved : i.removed = true
    · have hmarked := h.releasable.marked p i hi hremoved
      rw [if_pos hremoved]
      simp only [wp_bind]
      apply wp_mono_ret (wp_freeMapRelease hreleasable.stored hmarked.sector ?_)
      · intro _ w₁ hw₁
        apply wp_mono_ret (wp_freeMapRelease ?_ ?_ ?_)
        · intro _ w₂ hw₂
          simp only [wp_getMem, wp_setMem]
          rw [hw₂, hw₁]
          dsimp only
          rw [Function.update_idem]
          refine h.free hi hzero hdenied rfl ?_
          intro s
          by_cases hs : s ∈ sectors i
          · exact .inr ⟨hremoved, hs⟩
          · refine .inl ?_
            unfold Bitmap.setMultiple
            dsimp only
            rw [if_neg (fun hin => hs (.inr hin)), if_neg (fun hin => hs (.inl (by omega)))]
        · rw [hw₁]
          exact hreleasable.stored.setFreeMap rfl
        · rw [hw₁]
          exact hmarked.data
        · intro s hlo hhi
          rw [hw₁]
          unfold Bitmap.setMultiple
          dsimp only
          rw [if_neg (fun hin => hmarked.apart (by omega))]
          exact hmarked.bits s (.inr ⟨hlo, hhi⟩)
      · intro s hlo hhi
        exact hmarked.bits s (.inl (by omega))
    · rw [if_neg hremoved]
      simp only [wp_bind, wp_getMem, wp_setMem]
      rw [Function.update_idem]
      exact h.free hi hzero hdenied rfl fun s => .inl rfl
  · rename_i hmore
    rw [wp_pure]
    refine h.setInode hi ⟨rfl, rfl, rfl⟩ ?_ ?_ ?_ hdeny hdenied
    · exact fun q hq => ⟨(up_of_ne held hq).symm, rfl⟩
    · omega
    · dsimp only
      omega

/-- `file_close`, which does not panic. -/
theorem fileClose {f : File} (h : Counted base baseDeny (up held f.inode)
      (if f.denyWrite then up denied f.inode else denied) w.mem) (hdenied : denied f.inode ≤ held f.inode) :
    wp .any (fileClose (some f)) (fun _ w' => Counted base baseDeny held denied w'.mem) (fun _ _ => False) w := by
  rw [Contiguous.fileClose, wp_bind, fileAllowWrite]
  cases hdeny : f.denyWrite with
  | false =>
    rw [hdeny] at h
    rw [if_neg Bool.false_ne_true, wp_pure]
    exact h.inodeClose hdenied
  | true =>
    rw [hdeny, if_pos rfl] at h
    obtain ⟨i, hi, hopen, hcnt⟩ := h.inode (p := f.inode) (by rw [up_self]; omega)
    have hle := (h.denies f.inode).1
    rw [up_self] at hopen hcnt
    have hallowed : 0 < i.denyWriteCnt ∧ i.denyWriteCnt ≤ i.openCnt := by
      constructor
      · omega
      · omega
    rw [if_pos rfl, wp_bind, inodeAllowWrite, wp_bind, wp_deref_some hi, if_pos hallowed, wp_assign, hi]
    dsimp only
    rw [wp_pure]
    refine inodeClose ?_ hdenied
    refine h.setInode hi ⟨rfl, rfl, rfl⟩ ?_ ?_ ?_ ?_ ?_
    · exact fun q hq => ⟨rfl, (up_of_ne denied hq).symm⟩
    · rw [up_self]
      omega
    · rw [up_self]
      exact hopen
    · dsimp only
      omega
    · exact le_trans hdenied (le_up held f.inode f.inode)

/-- `file_deny_write`, which does not panic for a file that is new. -/
theorem fileDenyWrite {f : File} (h : Counted base baseDeny (up held f.inode) denied w.mem)
    (hdenied : denied f.inode ≤ held f.inode) (hf : f.denyWrite = false) :
    wp .any (fileDenyWrite f) (fun r w' => r = { f with denyWrite := true } ∧
      Counted base baseDeny (up held f.inode) (up denied f.inode) w'.mem) (fun _ _ => False) w := by
  obtain ⟨i, hi, hopen, hcnt⟩ := h.inode (p := f.inode) (by rw [up_self]; omega)
  have hle := (h.denies f.inode).1
  rw [up_self] at hopen
  rw [Filesys.fileDenyWrite, hf, if_pos (show (!false) = true from rfl), wp_bind, inodeDenyWrite, wp_bind,
    wp_deref_some hi, wp_bind, wp_assign, hi]
  dsimp only
  rw [if_pos (by omega), wp_pure, wp_pure]
  refine ⟨rfl, h.setInode hi ⟨rfl, rfl, rfl⟩ ?_ ?_ ?_ ?_ ?_⟩
  · exact fun q hq => ⟨rfl, up_of_ne denied hq⟩
  · rw [up_self]
    omega
  · rw [up_self]
    exact hopen
  · rw [up_self]
    push_cast
    omega
  · rw [up_self, up_self]
    omega

/-- `file_open`, which takes over the inode. -/
theorem fileOpen {inode : Option ℕ} (h : Counted base baseDeny (inode.elim held (up held)) denied w.mem)
    (hdenied : ∀ p, denied p ≤ held p) : wp .any (fileOpen inode) (fun r w' => match r with
      | none => Counted base baseDeny held denied w'.mem
      | some f => f.denyWrite = false ∧ Counted base baseDeny (up held f.inode) denied w'.mem) (fun _ _ => False) w := by
  rw [Contiguous.fileOpen, wp_bind, wp_malloc]
  intro allocated _
  cases inode with
  | none =>
    rw [wp_bind, Contiguous.inodeClose, wp_pure, wp_pure]
    exact h
  | some p =>
    cases allocated with
    | true =>
      rw [wp_pure]
      exact ⟨rfl, h⟩
    | false =>
      rw [wp_bind]
      apply wp_mono_ret (inodeClose h (hdenied p))
      intro _ w' hw'
      rw [wp_pure]
      exact hw'

/-- `dir_open_root` -/
theorem dirOpenRoot (h : Counted base baseDeny held denied w.mem) :
    wp .any dirOpenRoot (fun r w' => match r with
      | none => Counted base baseDeny held denied w'.mem
      | some d => Counted base baseDeny (up held d.inode) denied w'.mem) (fun _ _ => True) w := by
  rw [Contiguous.dirOpenRoot, wp_bind]
  apply wp_mono_ret (h.inodeOpen rootDirSector)
  intro inode w₁ h₁
  rw [dirOpen, wp_bind, wp_malloc]
  intro allocated _
  cases inode with
  | none =>
    rw [wp_bind, Contiguous.inodeClose, wp_pure, wp_pure]
    exact h₁
  | some p =>
    cases allocated with
    | true =>
      rw [wp_pure]
      exact h₁
    | false =>
      rw [wp_bind]
      apply wp_mono (inodeClose h₁ (h.denies p).2)
      · intro _ w' hw'
        rw [wp_pure]
        exact hw'
      · exact fun _ _ hno => hno.elim

/-- `dir_lookup`: the inode of the file is open once more. -/
theorem dirLookup {d : Dir} (h : Counted base baseDeny held denied w.mem) (hlive : Live w.mem d.inode)
    (name : List UInt8) : wp .any (dirLookup d name)
      (fun r w' => Counted base baseDeny (r.elim held (up held)) denied w'.mem) (fun _ _ => True) w := by
  obtain ⟨i, hi⟩ := hlive
  have hloop : ∀ fuel ofs, Fixes w.mem (fun _ => True) (lookupLoop d name fuel ofs) := by
    intro fuel
    induction fuel with
    | zero => exact fun _ => .stop trivial
    | succ fuel ih =>
      intro ofs
      refine .bind (.bind (.inodeReadAt hi _ _) fun _ => .ret _) fun e => ?_
      cases e with
      | none => exact .ret _
      | some e =>
        dsimp only
        split
        · exact .ret _
        · exact ih _
  rw [Contiguous.dirLookup, wp_bind]
  apply wp_mono (hloop _ _ w rfl)
  · intro e w₁ hw₁
    have h₁ : Counted base baseDeny held denied w₁.mem := by
      rw [hw₁]
      exact h
    cases e with
    | none =>
      rw [wp_pure]
      exact h₁
    | some e =>
      apply wp_mono_ret (h₁.inodeOpen e.inodeSector)
      intro r w₂ hr
      cases r with
      | none => exact hr
      | some p => exact hr
  · exact fun _ _ _ => trivial

/-- **`filesys_open` has the file open once more, or everything is open as often as before.** -/
theorem filesysOpen (h : Counted base baseDeny held denied w.mem) (name : List UInt8) :
    wp .any (filesysOpen name) (fun r w' => match r with
      | none => Counted base baseDeny held denied w'.mem
      | some f => f.denyWrite = false ∧ Counted base baseDeny (up held f.inode) denied w'.mem) (fun _ _ => True) w := by
  have hdenied := fun p => (h.denies p).2
  have hend : ∀ {w' : World} {inode : Option ℕ},
      Counted base baseDeny (inode.elim held (up held)) denied w'.mem →
      wp .any (Contiguous.fileOpen inode) (fun r w' => match r with
        | none => Counted base baseDeny held denied w'.mem
        | some f => f.denyWrite = false ∧ Counted base baseDeny (up held f.inode) denied w'.mem) (fun _ _ => True) w' :=
    fun h' => wp_mono (h'.fileOpen hdenied) (fun _ _ hr => hr) fun _ _ hno => hno.elim
  rw [Contiguous.filesysOpen, wp_bind]
  apply wp_mono_ret h.dirOpenRoot
  intro dir w₁ h₁
  cases dir with
  | none =>
    rw [wp_bind, wp_pure, wp_bind, dirClose, wp_pure]
    exact hend h₁
  | some d =>
    have hlive : Live w₁.mem d.inode := (h₁.live d.inode).mpr (by rw [up_self]; omega)
    rw [wp_bind]
    apply wp_mono_ret (h₁.dirLookup hlive name)
    intro inode w₂ h₂
    rw [wp_bind, dirClose]
    -- the root directory is closed while the file is open
    have hswap : inode.elim (up held d.inode) (up (up held d.inode)) = up (inode.elim held (up held)) d.inode := by
      cases inode with
      | none => rfl
      | some p =>
        funext q
        show up (up held d.inode) p q = up (up held p) d.inode q
        unfold up
        simp only [Function.update_apply]
        split <;> split <;> simp_all
    rw [hswap] at h₂
    have hle : denied d.inode ≤ inode.elim held (up held) d.inode := by
      cases inode with
      | none => exact hdenied d.inode
      | some p => exact le_trans (hdenied d.inode) (le_up held p d.inode)
    apply wp_mono (h₂.inodeClose hle)
    · intro _ w₃ h₃
      exact hend h₃
    · exact fun _ _ hno => hno.elim

end Counted

end Pintos.Filesys.Contiguous
