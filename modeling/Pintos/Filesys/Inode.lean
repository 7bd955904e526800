import Pintos.Filesys.FreeMap

/-!
# Inodes

`filesys/inode.c`.  A `struct inode *` that may be null is an `Option` of an address.  Buffers are
functions from offsets to bytes; a read returns the bytes it stores.

`inode_reserve` works on a `struct inode_disk` that its caller owns.  It gets the current bytes and a
program `store` that stands for the assignments through its pointer argument: nothing for the local
object of `inode_create`, and the update of the in-memory inode for `inode_write_at`.

`inode_write_at` allocates sectors, and allocating writes the free map with `inode_write_at`.  The
recursion is written with a depth; a kernel stack is one page, and `callDepth` nested calls are more
than a state with a complete free map file ever makes.
-/

namespace Pintos.Filesys

/-! ## Block addresses -/

/-- `bytes_to_sectors`, assigned to an `int`.  The sum is a signed 32-bit one. -/
def bytesToSectors (size : ℤ) : ℤ := (wrap32 (size + 512 - 1)).tdiv 512

/-- `sector_number` -/
def sectorNumber (d : InodeDisk) (index : ℤ) : Fs ℕ :=
  if index < 123 then
    if index < 0 then .stop .outOfBounds else return d.dirBlock index.toNat
  else if index < 251 then do
    if ← malloc then
      let b ← bufferCacheRead d.indirBlock
      return b.word (index.toNat - 123)
    else .stop .pageFault
  else if index < 16635 then do
    if ← malloc then
      let i := index.toNat - 251
      let b ← bufferCacheRead d.dIndirBlock
      let b ← bufferCacheRead (b.word (i / 128))
      return b.word (i % 128)
    else .stop .pageFault
  else return 0

/-- `byte_to_sector`; `-1` is the largest `block_sector_t`. -/
def byteToSector (p : ℕ) (pos : ℤ) : Fs ℕ := do
  let i ← deref p
  if pos < i.data.length then sectorNumber i.data (pos.tdiv 512)
  else return 2 ^ 32 - 1

/-- `inode_length` -/
def inodeLength (p : ℕ) : Fs ℤ := return (← deref p).data.length

/-- `is_inode_dir` -/
def isInodeDir (p : ℕ) : Fs Bool := return (← deref p).data.isDir

/-- `is_inode_rm` -/
def isInodeRm (p : ℕ) : Fs Bool := return (← deref p).removed

/-- `inode_get_inumber` -/
def inodeGetInumber (p : ℕ) : Fs ℕ := return (← deref p).sector

/-! ## Reserving sectors -/

section Reserve

variable (bitmapWrite : Fs Bool)

/-- `reserve_indir` on the sector number `page`, at a level and for `num` data sectors; it returns
its result and the new value of `*page`. -/
def reserveIndirWith : ℕ → ℕ → ℕ → Fs (Bool × ℕ)
  | 0, page, _ => do
    if page = 0 then
      match ← freeMapAllocateWith bitmapWrite 1 with
      | none => return (false, page)
      | some page =>
        bufferCacheWrite page Block.zero
        return (true, page)
    else return (true, page)
  | level + 1, page, num => do
    if level + 1 > 2 then
      .stop (.exit (-1))
    else
      let chunk := if level + 1 > 1 then 128 else 1
      let page ← if page = 0 then do
          -- the result of this allocation is not looked at
          let page := (← freeMapAllocateWith bitmapWrite 1).getD page
          bufferCacheWrite page Block.zero
          pure page
        else pure page
      let indirBlock ← bufferCacheRead page
      let max := (num + chunk - 1) / chunk
      match ← Prog.forUpTo (fun i (b : Sector × ℕ) => do
          let nmax := min b.2 chunk
          let (ok, s) ← reserveIndirWith level (b.1.word i) nmax
          if ok then return .inl (b.1.setWord i s, b.2 - nmax) else return .inr ()) max 0
          (indirBlock, num) with
      | .inr () => return (false, page)
      | .inl (indirBlock, num) =>
        if num ≠ 0 then
          .stop (.exit (-1))
        else
          bufferCacheWrite page indirBlock
          return (true, page)

/-- One pass of the direct loop of `inode_reserve`. -/
def reserveDirect (store : InodeDisk → Fs Unit) (i : ℕ) (page : InodeDisk) :
    Fs (InodeDisk ⊕ InodeDisk) := do
  if page.dirBlock i = 0 then
    match ← freeMapAllocateWith bitmapWrite 1 with
    | none => return .inr page
    | some s =>
      let page := page.setDirBlock i s
      store page
      bufferCacheWrite s Block.zero
      return .inl page
  else return .inl page

/-- `inode_reserve` -/
def inodeReserveWith (store : InodeDisk → Fs Unit) (page : InodeDisk) (len : ℤ) :
    Fs (Bool × InodeDisk) := do
  if len < 0 then
    return (false, page)
  else
    let numSec := bytesToSectors len
    -- direct blocks
    let max := min numSec 123
    match ← Prog.forUpTo (reserveDirect bitmapWrite store) max.toNat 0 page with
    | .inr page => return (false, page)
    | .inl page =>
      let numSec := numSec - max
      if numSec = 0 then
        return (true, page)
      else
        -- indirect block
        let max := min numSec 128
        let (ok, s) ← reserveIndirWith bitmapWrite 1 page.indirBlock max.toNat
        let page := page.setIndirBlock s
        store page
        if !ok then
          return (false, page)
        else
          let numSec := numSec - max
          if numSec = 0 then
            return (true, page)
          else
            -- double indirect block
            let max := min numSec 16384
            let (ok, s) ← reserveIndirWith bitmapWrite 2 page.dIndirBlock max.toNat
            let page := page.setDIndirBlock s
            store page
            if !ok then
              return (false, page)
            else if numSec - max = 0 then
              return (true, page)
            else .stop (.exit (-1))

end Reserve

/-! ## Reading and writing -/

/-- The loop of `inode_read_at`: each pass copies at least one byte, so `size` passes are enough.
`bounce` says whether the bounce buffer has been allocated. -/
def inodeReadLoop (p : ℕ) : ℕ → ℤ → ℤ → Bool → Fs (List UInt8)
  | 0, _, _, _ => return []
  | fuel + 1, size, offset, bounce =>
    if size ≤ 0 then return []
    else do
      let sectorIdx ← byteToSector p offset
      let sectorOfs := offset.tmod 512
      let inodeLeft := wrap32 ((← inodeLength p) - offset)
      let sectorLeft := 512 - sectorOfs
      let minLeft := min inodeLeft sectorLeft
      let chunkSize := min size minLeft
      if chunkSize ≤ 0 then
        return []
      else if sectorOfs = 0 ∧ chunkSize = 512 then
        let b ← bufferCacheRead sectorIdx
        let rest ← inodeReadLoop p fuel (size - chunkSize) (offset + chunkSize) bounce
        return Bytes.slice b.get 0 512 ++ rest
      else
        let allocated ← if bounce then pure true else malloc
        if !allocated then
          return []
        else
          let b ← bufferCacheRead sectorIdx
          if sectorOfs < 0 then
            .stop .outOfBounds
          else
            let rest ← inodeReadLoop p fuel (size - chunkSize) (offset + chunkSize) true
            return Bytes.slice b.get sectorOfs.toNat chunkSize.toNat ++ rest

/-- `inode_read_at`: the bytes stored in the buffer; their number is the value returned. -/
def inodeReadAt (p : ℕ) (size offset : ℤ) : Fs (List UInt8) :=
  inodeReadLoop p size.toNat size offset false

/-- The loop of `inode_write_at`; it returns the number of bytes written. -/
def inodeWriteLoop (p : ℕ) : ℕ → (ℕ → UInt8) → ℤ → ℤ → Bool → Fs ℤ
  | 0, _, _, _, _ => return 0
  | fuel + 1, buffer, size, offset, bounce =>
    if size ≤ 0 then return 0
    else do
      let sectorIdx ← byteToSector p offset
      let sectorOfs := offset.tmod 512
      let inodeLeft := wrap32 ((← inodeLength p) - offset)
      let sectorLeft := 512 - sectorOfs
      let minLeft := min inodeLeft sectorLeft
      let chunkSize := min size minLeft
      if chunkSize ≤ 0 then
        return 0
      else if sectorOfs = 0 ∧ chunkSize = 512 then
        bufferCacheWrite sectorIdx (Block.mk buffer)
        let rest ← inodeWriteLoop p fuel (fun i => buffer (i + chunkSize.toNat)) (size - chunkSize)
          (offset + chunkSize) bounce
        return chunkSize + rest
      else
        let allocated ← if bounce then pure true else malloc
        if !allocated then
          return 0
        else
          let b ← if sectorOfs > 0 ∨ chunkSize < sectorLeft then bufferCacheRead sectorIdx
            else pure Block.zero
          if sectorOfs < 0 then
            .stop .outOfBounds
          else
            bufferCacheWrite sectorIdx (b.splice sectorOfs.toNat chunkSize.toNat buffer)
            let rest ← inodeWriteLoop p fuel (fun i => buffer (i + chunkSize.toNat))
              (size - chunkSize) (offset + chunkSize) true
            return chunkSize + rest

/-- The assignments of `inode_reserve` through `&inode->data`. -/
def storeData (p : ℕ) (d : InodeDisk) : Fs Unit := do
  let i ← deref p
  assign p { i with data := d }

/-- `bitmap_write (free_map, free_map_file)`, given `inode_write_at`. -/
def bitmapWriteWith (inodeWriteAt : ℕ → (ℕ → UInt8) → ℤ → ℤ → Fs ℤ) : Fs Bool := do
  let m ← getMem
  match m.freeMapFile with
  | none => .stop .pageFault
  | some f =>
    let size := m.freeMap.byteCnt
    return (← inodeWriteAt f.inode m.freeMap.byte size 0) = size

/-- `inode_write_at`, with at most `depth` calls of it active at a time. -/
def inodeWriteAtDepth : ℕ → ℕ → (ℕ → UInt8) → ℤ → ℤ → Fs ℤ
  | 0, _, _, _, _ => .stop .stackOverflow
  | depth + 1, p, buffer, size, offset => do
    let i ← deref p
    if i.denyWriteCnt ≠ 0 then
      return 0
    else
      let len := wrap32 (offset + size)
      if (← byteToSector p (wrap32 (len - 1))) = 2 ^ 32 - 1 then
        let bitmapWrite := bitmapWriteWith (inodeWriteAtDepth depth)
        let i ← deref p
        let (ok, d) ← inodeReserveWith bitmapWrite (storeData p) i.data len
        if !ok then
          return 0
        else
          let i ← deref p
          assign p { i with data := d.setLength len }
          bufferCacheWrite i.sector (d.setLength len)
          inodeWriteLoop p size.toNat buffer size offset false
      else
        inodeWriteLoop p size.toNat buffer size offset false

/-- How many calls of `inode_write_at` may be active at a time. -/
def callDepth : ℕ := 3

/-- `inode_write_at` -/
def inodeWriteAt (p : ℕ) (buffer : ℕ → UInt8) (size offset : ℤ) : Fs ℤ :=
  inodeWriteAtDepth callDepth p buffer size offset

/-- `bitmap_write (free_map, free_map_file)` -/
def bitmapWrite : Fs Bool := bitmapWriteWith inodeWriteAt

/-- `free_map_allocate` -/
def freeMapAllocate (cnt : ℕ) : Fs (Option ℕ) := freeMapAllocateWith bitmapWrite cnt

/-- `free_map_release` -/
def freeMapRelease (sector cnt : ℕ) : Fs Unit := freeMapReleaseWith bitmapWrite sector cnt

/-! ## Creating, opening, closing and deleting -/

/-- `delete_indir` on the sector `ent`, at a level and for `numSec` data sectors. -/
def deleteIndir : ℕ → ℕ → ℕ → Fs Unit
  | 0, ent, _ => freeMapRelease ent 1
  | level + 1, ent, numSec => do
    if level + 1 > 2 then
      .stop (.exit (-1))
    else
      let chunk := if level + 1 = 1 then 1 else 128
      let max := (numSec + chunk - 1) / chunk
      let indirBlock ← bufferCacheRead ent
      match ← Prog.forUpTo (fun i (numSec : ℕ) => do
          let nmax := min numSec chunk
          deleteIndir level (indirBlock.word i) nmax
          return .inl (numSec - nmax)) max 0 numSec with
      | .inr r => nomatch (r : Empty)
      | .inl numSec =>
        if numSec ≠ 0 then .stop (.exit (-1)) else freeMapRelease ent 1

/-- `inode_delete` -/
def inodeDelete (p : ℕ) : Fs Bool := do
  let i ← deref p
  if i.data.length < 0 then
    return false
  else
    let numSec := bytesToSectors i.data.length
    let max := min numSec 123
    match ← Prog.forUpTo (fun k (_ : Unit) => do
        freeMapRelease (i.data.dirBlock k) 1
        return .inl ()) max.toNat 0 () with
    | .inr r => nomatch (r : Empty)
    | .inl () =>
      let numSec := numSec - max
      let max := min numSec 128
      let numSec ← if max > 0 then do
          deleteIndir 1 i.data.indirBlock max.toNat
          pure (numSec - max)
        else pure numSec
      let max := min numSec 16384
      let numSec ← if max > 0 then do
          deleteIndir 2 i.data.dIndirBlock max.toNat
          pure (numSec - max)
        else pure numSec
      if numSec ≠ 0 then .stop (.exit (-1)) else return true

/-- `inode_create`; `inode_new` is `inode_reserve` at the length of the new inode. -/
def inodeCreate (sector : ℕ) (length : ℤ) (isDir : Bool) : Fs Bool := do
  if length < 0 then
    .stop .assertion
  else if ← malloc then
    let diskInode : InodeDisk := Block.zero
    let diskInode := ((diskInode.setIsDir isDir).setLength length).setMagic inodeMagic
    let (ok, diskInode) ← inodeReserveWith bitmapWrite (fun _ => pure ()) diskInode diskInode.length
    if ok then
      bufferCacheWrite sector diskInode
      return true
    else return false
  else return false

/-- `inode_reopen` -/
def inodeReopen : Option ℕ → Fs (Option ℕ)
  | none => return none
  | some p => do
    let i ← deref p
    assign p { i with openCnt := i.openCnt + 1 }
    return some p

/-- The search of `inode_open` through `open_inodes`. -/
def findOpen (sector : ℕ) : List ℕ → Fs (Option ℕ)
  | [] => return none
  | p :: ps => do
    let i ← deref p
    if i.sector = sector then return some p else findOpen sector ps

/-- `inode_open` -/
def inodeOpen (sector : ℕ) : Fs (Option ℕ) := do
  let m ← getMem
  match ← findOpen sector m.openInodes with
  | some p => inodeReopen (some p)
  | none =>
    if ← malloc then
      let data ← bufferCacheRead sector
      let m ← getMem
      let p := m.next
      setMem { m with
        heap := Function.update m.heap p (some ⟨sector, 1, false, 0, data⟩)
        next := p + 1
        openInodes := p :: m.openInodes }
      return some p
    else return none

/-- `inode_close` -/
def inodeClose : Option ℕ → Fs Unit
  | none => return
  | some p => do
    let i ← deref p
    assign p { i with openCnt := i.openCnt - 1 }
    if i.openCnt - 1 = 0 then
      let m ← getMem
      setMem { m with openInodes := m.openInodes.erase p }
      if i.removed then
        freeMapRelease i.sector 1
        let _ ← inodeDelete p
      let m ← getMem
      setMem { m with heap := Function.update m.heap p none }
    else return

/-- `inode_remove` -/
def inodeRemove (p : ℕ) : Fs Unit := do
  let i ← deref p
  assign p { i with removed := true }

/-- `inode_deny_write` -/
def inodeDenyWrite (p : ℕ) : Fs Unit := do
  let i ← deref p
  assign p { i with denyWriteCnt := i.denyWriteCnt + 1 }
  if i.denyWriteCnt + 1 ≤ i.openCnt then return else .stop .assertion

/-- `inode_allow_write` -/
def inodeAllowWrite (p : ℕ) : Fs Unit := do
  let i ← deref p
  if 0 < i.denyWriteCnt ∧ i.denyWriteCnt ≤ i.openCnt then
    assign p { i with denyWriteCnt := i.denyWriteCnt - 1 }
  else .stop .assertion

end Pintos.Filesys
