import Pintos.Filesys.Directory

/-!
# The file system interface

`filesys/filesys.c`, and the parts of `filesys/free-map.c` that open and close the free map file.

The arrays `d_token` and `f_token` are taken to be large enough; `filesys_create` declares them one
byte shorter than `filesys_open` does.
-/

namespace Pintos.Filesys

/-- `filesys_create` -/
def filesysCreate (path : List UInt8) (initialSize : ℤ) (isDir : Bool) : Fs Bool := do
  let stale ← junk
  let (dToken, fToken) := divideFn path (stale 0)
  let dir ← makePath dToken
  match dir with
  | none => return false
  | some d =>
    match ← freeMapAllocate 1 with
    | none =>
      dirClose dir
      return false
    | some inodeSector =>
      let created ← inodeCreate inodeSector initialSize isDir
      let success ← if created then dirAdd d fToken inodeSector isDir else pure false
      if !success ∧ inodeSector ≠ 0 then
        freeMapRelease inodeSector 1
      dirClose dir
      return success

/-- `filesys_open` -/
def filesysOpen (name : List UInt8) : Fs (Option File) := do
  if name = [] then
    return none
  else
    let stale ← junk
    let (dToken, fToken) := divideFn name (stale 0)
    match ← makePath dToken with
    | none => return none
    | some d =>
      let inode ← if fToken ≠ [] then do
          let inode ← dirLookup (some d) fToken
          dirClose (some d)
          pure inode
        else pure (some d.inode)
      match inode with
      | none => return none
      | some p => if ← isInodeRm p then return none else fileOpen (some p)

/-- `filesys_remove` -/
def filesysRemove (name : List UInt8) : Fs Bool := do
  if name = [] then
    return false
  else
    let stale ← junk
    let (dToken, fToken) := divideFn name (stale 0)
    match ← makePath dToken with
    | none => return false
    | some d =>
      let success ← dirRemove d fToken
      dirClose (some d)
      return success

/-- `filesys_chdir` -/
def filesysChdir (name : List UInt8) : Fs Bool := do
  match ← makePath name with
  | none => return false
  | some d =>
    let m ← getMem
    dirClose m.cwd
    let m ← getMem
    setMem { m with cwd := some d }
    return true

/-! ## Start and shutdown -/

/-- `free_map_init` -/
def freeMapInit : Fs Unit := do
  let a ← malloc
  if !a then
    .stop .panic
  else
    let b ← malloc
    if !b then
      .stop .panic
    else
      let garbage ← junk
      let m ← getMem
      let freeMap := Bitmap.create m.fsSize fun i => (garbage (i / 8)).toNat.testBit (i % 8)
      setMem { m with freeMap := (freeMap.mark freeMapSector).mark rootDirSector }

/-- `free_map_create` -/
def freeMapCreate : Fs Unit := do
  let m ← getMem
  if !(← inodeCreate freeMapSector (toInt32 m.freeMap.byteCnt) false) then
    .stop .panic
  else
    match ← fileOpen (← inodeOpen freeMapSector) with
    | none => .stop .panic
    | some f =>
      let m ← getMem
      setMem { m with freeMapFile := some f }
      if ← bitmapWrite then return else .stop .panic

/-- `free_map_close`; the variable `free_map_file` keeps its value. -/
def freeMapClose : Fs Unit := do
  let m ← getMem
  fileClose m.freeMapFile

/-- `bitmap_read (free_map, free_map_file)` -/
def bitmapRead : Fs Bool := do
  let m ← getMem
  match m.freeMapFile with
  | none => .stop .pageFault
  | some f =>
    if m.freeMap.bitCnt = 0 then
      return true
    else
      let size := m.freeMap.byteCnt
      let l ← inodeReadAt f.inode size 0
      let m ← getMem
      -- a short read leaves the other elements as they were
      let bytes := Bytes.overlay l m.freeMap.byte
      setMem { m with freeMap := Bitmap.ofBytes m.freeMap.bitCnt bytes }
      return l.length = size

/-- `free_map_open` -/
def freeMapOpen : Fs Unit := do
  match ← fileOpen (← inodeOpen freeMapSector) with
  | none => .stop .panic
  | some f =>
    let m ← getMem
    setMem { m with freeMapFile := some f }
    if ← bitmapRead then return else .stop .panic

/-- `do_format` -/
def doFormat : Fs Unit := do
  freeMapCreate
  if !(← dirCreate rootDirSector 16) then
    .stop .panic
  else freeMapClose

/-- `filesys_init`, behind `buffer_cache_init`. -/
def filesysInit (format : Bool) : Fs Unit := do
  let m ← getMem
  setMem { m with openInodes := [] }
  freeMapInit
  if format then doFormat
  freeMapOpen

/-- `filesys_done`, before `buffer_cache_terminate`. -/
def filesysDone : Fs Unit := freeMapClose

end Pintos.Filesys
