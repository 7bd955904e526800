import Pintos.Filesys.Inode

/-!
# Open files and directories

`filesys/file.c` as far as the rest of the file system uses it, and `filesys/directory.c`.

A `struct file` or `struct dir` is a value here; only the `struct inode` behind it is shared.  A
`struct dir_entry` is its 20 bytes: the sector of the inode, a name of 15 bytes and the flag `in_use`.
A C string is the list of its bytes before the terminator.
-/

namespace Pintos.Filesys

/-! ## `filesys/file.c` -/

/-- `file_open` -/
def fileOpen (inode : Option ℕ) : Fs (Option File) := do
  let allocated ← malloc
  match inode, allocated with
  | some p, true => return some ⟨p, 0, false⟩
  | inode, _ =>
    inodeClose inode
    return none

/-- `file_deny_write` -/
def fileDenyWrite (f : File) : Fs File := do
  if !f.denyWrite then
    inodeDenyWrite f.inode
    return { f with denyWrite := true }
  else return f

/-- `file_allow_write` -/
def fileAllowWrite (f : File) : Fs File := do
  if f.denyWrite then
    inodeAllowWrite f.inode
    return { f with denyWrite := false }
  else return f

/-- `file_close` -/
def fileClose : Option File → Fs Unit
  | none => return
  | some f => do
    let f ← fileAllowWrite f
    inodeClose (some f.inode)

/-- `file_read`: the bytes read and the file with its position moved. -/
def fileRead (f : File) (size : ℤ) : Fs (List UInt8 × File) := do
  let l ← inodeReadAt f.inode size f.pos
  return (l, { f with pos := wrap32 (f.pos + l.length) })

/-- `file_write`: the bytes written and the file with its position moved. -/
def fileWrite (f : File) (buffer : ℕ → UInt8) (size : ℤ) : Fs (ℤ × File) := do
  let n ← inodeWriteAt f.inode buffer size f.pos
  return (n, { f with pos := wrap32 (f.pos + n) })

/-- `file_seek` -/
def fileSeek (f : File) (newPos : ℤ) : Fs File :=
  if 0 ≤ newPos then return { f with pos := newPos } else .stop .assertion

/-! ## Directory entries -/

/-- The bytes of a `struct dir_entry`; those past its end are the memory behind it. -/
abbrev DirEntry := ℕ → UInt8

namespace DirEntry

def inodeSector (e : DirEntry) : ℕ := Bytes.le32 e 0

def inUse (e : DirEntry) : Bool := e 19 != 0

def setInodeSector (e : DirEntry) (s : ℕ) : DirEntry := Bytes.splice e 0 4 (Bytes.leByte s)

def setInUse (e : DirEntry) (b : Bool) : DirEntry := Bytes.splice e 19 1 fun _ => if b then 1 else 0

/-- `strlcpy (e.name, name, sizeof e.name)`: bytes behind the terminator keep what they held. -/
def setName (e : DirEntry) (name : List UInt8) : DirEntry :=
  Bytes.splice e 4 (min name.length 14 + 1) fun i =>
    if i < min name.length 14 then (name[i]?).getD 0 else 0

/-- `strcmp (name, e.name) == 0`.  A name that fills all 15 bytes without a terminator matches
nothing: comparing it runs into `in_use` and past the entry. -/
def hasName (e : DirEntry) (name : List UInt8) : Bool :=
  decide (name.length ≤ 14) &&
    ((List.range name.length).all fun i => e (4 + i) == (name[i]?).getD 0) &&
    e (4 + name.length) == 0

end DirEntry

/-! ## `filesys/directory.c` -/

/-- `dir_open`, which takes over the reference it is given. -/
def dirOpen (inode : Option ℕ) : Fs (Option Dir) := do
  let allocated ← malloc
  match inode, allocated with
  | some p, true => return some ⟨p, 20⟩
  | inode, _ =>
    inodeClose inode
    return none

/-- `dir_open_root` -/
def dirOpenRoot : Fs (Option Dir) := do
  dirOpen (← inodeOpen rootDirSector)

/-- `dir_reopen` -/
def dirReopen (d : Dir) : Fs (Option Dir) := do
  dirOpen (← inodeReopen (some d.inode))

/-- `dir_close` -/
def dirClose : Option Dir → Fs Unit
  | none => return
  | some d => inodeClose (some d.inode)

/-- Reading one entry: `none` when `inode_read_at` comes back short. -/
def readEntry (d : Dir) (ofs : ℕ) : Fs (Option DirEntry) := do
  let l ← inodeReadAt d.inode 20 (toInt32 ofs)
  return if l.length = 20 then some (Bytes.overlay l fun _ => 0) else none

/-- How many entries a scan can read: an `off_t` bounds the length of the file. -/
def maxEntries : ℕ := 2 ^ 31 / 20 + 1

/-- A scan over the entries from `ofs` on, up to the first that satisfies `test`; `none` when the
read comes back short. -/
def scanEntries (d : Dir) (test : DirEntry → Bool) : ℕ → ℕ → Fs (Option (DirEntry × ℕ))
  | 0, _ => .stop .diverges
  | fuel + 1, ofs => do
    match ← readEntry d ofs with
    | none => return none
    | some e => if test e then return some (e, ofs) else scanEntries d test fuel (ofs + 20)

/-- `lookup`: the entry and its offset.  Offset 0 is for the parent directory. -/
def lookup (d : Dir) (name : List UInt8) : Fs (Option (DirEntry × ℕ)) :=
  scanEntries d (fun e => e.inUse && e.hasName name) maxEntries 20

/-- `dir_empty` -/
def dirEmpty : Option Dir → Fs Bool
  | none => .stop .assertion
  | some d => do
    return (← scanEntries d DirEntry.inUse maxEntries 20).isNone

/-- `".."` -/
abbrev dotDot : List UInt8 := [46, 46]

/-- `"."` -/
abbrev dot : List UInt8 := [46]

/-- `dir_lookup`: the inode stored in `*INODE`; it returns whether that is non-null. -/
def dirLookup : Option Dir → List UInt8 → Fs (Option ℕ)
  | none, _ => .stop .assertion
  | some d, name => do
    if name = dotDot then
      -- the result of this read is not looked at
      let e : DirEntry ← junk
      let l ← inodeReadAt d.inode 20 0
      inodeOpen (DirEntry.inodeSector (Bytes.overlay l e))
    else if name = dot then
      inodeReopen (some d.inode)
    else
      match ← lookup d name with
      | some (e, _) => inodeOpen e.inodeSector
      | none => return none

/-- The search of `dir_add` for a free slot.  It leaves the entry it read last in `e`; at the end of
the file only the bytes that were left have been stored. -/
def findSlot (d : Dir) : ℕ → DirEntry → ℕ → Fs (DirEntry × ℕ)
  | 0, _, _ => .stop .diverges
  | fuel + 1, e, ofs => do
    let l ← inodeReadAt d.inode 20 (toInt32 ofs)
    let e : DirEntry := Bytes.overlay l e
    if l.length = 20 then
      if e.inUse then findSlot d fuel e (ofs + 20) else return (e, ofs)
    else return (e, ofs)

/-- The slot part of `dir_add`: find a place for the entry and write it. -/
def writeSlot (d : Dir) (e : DirEntry) (name : List UInt8) (inodeSector : ℕ) : Fs Bool := do
  let (e, ofs) ← findSlot d maxEntries e 0
  let e := ((e.setInUse true).setName name).setInodeSector inodeSector
  return (← inodeWriteAt d.inode e 20 (toInt32 ofs)) = 20

/-- `dir_add` -/
def dirAdd (d : Dir) (name : List UInt8) (inodeSector : ℕ) (isDir : Bool) : Fs Bool := do
  let e : DirEntry ← junk
  if name = [] ∨ 14 < name.length then
    return false
  else if (← lookup d name).isSome then
    return false
  else if isDir then
    match ← dirOpen (← inodeOpen inodeSector) with
    | none => return false
    | some cdir =>
      -- the parent entry of the child: only its sector is set
      let e := e.setInodeSector (← inodeGetInumber d.inode)
      if (← inodeWriteAt cdir.inode e 20 0) ≠ 20 then
        dirClose (some cdir)
        return false
      else
        dirClose (some cdir)
        writeSlot d e name inodeSector
  else writeSlot d e name inodeSector

/-- The end of `dir_remove`, from the erasure of the entry on. -/
def eraseEntry (d : Dir) (e : DirEntry) (ofs inode : ℕ) : Fs Bool := do
  if (← inodeWriteAt d.inode (e.setInUse false) 20 (toInt32 ofs)) ≠ 20 then
    inodeClose (some inode)
    return false
  else
    inodeRemove inode
    inodeClose (some inode)
    return true

/-- `dir_remove` -/
def dirRemove (d : Dir) (name : List UInt8) : Fs Bool := do
  match ← lookup d name with
  | none => return false
  | some (e, ofs) =>
    match ← inodeOpen e.inodeSector with
    | none => return false
    | some inode =>
      if ← isInodeDir inode then
        let dcur ← dirOpen (some inode)
        let empty ← dirEmpty dcur
        dirClose dcur
        if !empty then
          inodeClose (some inode)
          return false
        else eraseEntry d e ofs inode
      else eraseEntry d e ofs inode

/-- `dir_create`, with the size of a directory of `entryCnt` entries. -/
def dirCreate (sector entryCnt : ℕ) : Fs Bool := do
  if !(← inodeCreate sector (toInt32 (entryCnt * 20)) true) then
    return false
  else
    let dir ← dirOpen (← inodeOpen sector)
    let dent : DirEntry ← junk
    match dir with
    | none => return false
    | some d =>
      -- only the sector is set
      let n ← inodeWriteAt d.inode (dent.setInodeSector sector) 20 0
      dirClose (some d)
      return n = 20

/-! ## Paths -/

/-- `'/'` -/
abbrev slash : UInt8 := 47

/-- The tokens `strtok_r (s, "/", &pos)` returns one after another; `cur` is the token being read. -/
def tokensFrom : List UInt8 → List UInt8 → List (List UInt8)
  | cur, [] => if cur = [] then [] else [cur]
  | cur, c :: s =>
    if c = slash then
      if cur = [] then tokensFrom [] s else cur :: tokensFrom [] s
    else tokensFrom (cur ++ [c]) s

def tokens (s : List UInt8) : List (List UInt8) := tokensFrom [] s

/-- The directory `make_path` starts from. -/
def startDir (path : List UInt8) : Fs (Option Dir) := do
  let m ← getMem
  match path.head? == some slash, m.cwd with
  | false, some cwd => dirReopen cwd
  | _, _ => dirOpenRoot

/-- The loop of `make_path` over the remaining tokens; `none` is a return of the null pointer. -/
def walkDirs : Option Dir → List (List UInt8) → Fs (Option (Option Dir))
  | dcur, [] => return some dcur
  | dcur, chunk :: chunks => do
    match ← dirLookup dcur chunk with
    | none =>
      dirClose dcur
      return none
    | some id =>
      match ← dirOpen (some id) with
      | none =>
        dirClose dcur
        return none
      | some dnext =>
        dirClose dcur
        walkDirs (some dnext) chunks

/-- `make_path` -/
def makePath (path : List UInt8) : Fs (Option Dir) := do
  match ← walkDirs (← startDir path) (tokens path) with
  | none => return none
  | some none => .stop .pageFault
  | some (some d) =>
    if ← isInodeRm d.inode then
      dirClose (some d)
      return none
    else return some d

/-- The loop of `divide_fn`: `last` is the token read last and `d` what has been stored in
`d_token`. -/
def divideLoop : List UInt8 → List UInt8 → List (List UInt8) → List UInt8 × List UInt8
  | last, d, [] => (d, last)
  | last, d, chunk :: chunks =>
    divideLoop chunk (if last = [] then d else d ++ last ++ [slash]) chunks

/-- `divide_fn`: the strings left in `d_token` and `f_token`.  `stale` is the byte that `d_token[0]`
holds before; the leading slash is stored only if it is not zero. -/
def divideFn (path : List UInt8) (stale : UInt8) : List UInt8 × List UInt8 :=
  divideLoop [] (if path.head? = some slash ∧ stale ≠ 0 then [slash] else []) (tokens path)

end Pintos.Filesys
