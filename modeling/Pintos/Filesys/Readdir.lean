import Pintos.Filesys.Directory
import Pintos.Library.Packed

/-!
# Reading a directory

`dir_readdir` of `filesys/directory.c`: a `struct dir` holds the offset of the entry to be looked at next.
-/

namespace Pintos.Filesys

/-- `strlcpy (name, e.name, NAME_MAX + 1)` -/
def DirEntry.name (e : DirEntry) : List UInt8 := (cString (Bytes.slice e 4 15)).take 14

/-- The loop of `dir_readdir`: the name that is stored, if any, and the directory with its position moved. -/
def readdirLoop : ℕ → Dir → Fs (Option (List UInt8) × Dir)
  | 0, _ => .stop .diverges
  | fuel + 1, d => do
    let l ← inodeReadAt d.inode 20 d.pos
    if l.length = 20 then
      let e : DirEntry := Bytes.overlay l fun _ => 0
      let d := { d with pos := wrap32 (d.pos + 20) }
      if e.inUse then return (some e.name, d) else readdirLoop fuel d
    else return (none, d)

/-- `dir_readdir` -/
def dirReaddir (d : Dir) : Fs (Option (List UInt8) × Dir) := readdirLoop maxEntries d

end Pintos.Filesys
