import Pintos.Library.Prog
import Pintos.Library.Bytes
import Pintos.Library.FileBytes
import Pintos.Threads.Vaddr

/-!
# Loading an executable

`load`, `validate_segment`, `load_segment`, `install_page` and `setup_stack` of `userprog/process.c`,
and the parts of `userprog/pagedir.c` under them.

The program is a `Loader α`: it reads and writes the page directory of the process, and asks the
outside for pages.  An allocation may fail at any point, and a read of the file may come back short
whenever `inode_read_at` gets no memory for its bounce buffer (`readLimit`).  `load` gets the file that
`filesys_open` has returned.  It hands on to `makeup_stack`, which installs no page.
-/

namespace Pintos.Userprog

open Pintos.Threads

/-! ## The file -/

/-- `struct file` on an inode with the given contents; `off_t` bounds their length. -/
structure ExecFile where
  bytes : List UInt8
  short : bytes.length < 2 ^ 31
  pos : ℕ

/-- `file_length` -/
def fileLength (file : ExecFile) : ℤ := file.bytes.length

/-! ## The page directory -/

/-- A page of a process and its access bit. -/
structure UserPage where
  frame : Block 4096
  writable : Bool

/-- The user part of a page directory: the page mapped at an address. -/
abbrev Pagedir := Word → Option UserPage

/-- The byte of the process at an address, if it is mapped. -/
def Pagedir.byte (pd : Pagedir) (va : Word) : Option UInt8 :=
  (pd (pgRoundDown va)).map fun page => page.frame.get (pgOfs va).toNat

/-! ## Programs -/

/-- An `ASSERT` fails, or a loop does not end. -/
inductive LoadStop
  | assertion
  | diverges
  deriving DecidableEq

inductive LoadOp
  | palloc
  | readLimit
  | getPagedir
  | setPagedir (pd : Pagedir)

/-- The answers: whether an allocation succeeds, how many bytes a read may store, the directory. -/
abbrev LoadOp.Ans : LoadOp → Type
  | .palloc => Bool
  | .readLimit => ℕ
  | .getPagedir => Pagedir
  | .setPagedir _ => Unit

abbrev Loader (α : Type) := Prog LoadOp LoadOp.Ans LoadStop α

/-- Anything may come back from the outside. -/
def loadEffect : Prog.Effect LoadOp LoadOp.Ans Pagedir
  | .palloc, pd, _, pd' => pd' = pd
  | .readLimit, pd, _, pd' => pd' = pd
  | .getPagedir, pd, x, pd' => x = pd ∧ pd' = pd
  | .setPagedir new, _, _, pd' => pd' = new

/-- A run of a program from the page directory `pd` may end with `r` and `pd'`. -/
def Loads {α : Type} (p : Loader α) (pd : Pagedir) (r : Except LoadStop α) (pd' : Pagedir) : Prop :=
  Prog.Ends loadEffect p pd r pd'

/-- `palloc_get_page`, of which the code first asks whether it is null. -/
def pallocGetPage : Loader Bool := Prog.perform LoadOp.palloc

def getPagedir : Loader Pagedir := Prog.perform LoadOp.getPagedir

def setPagedir (pd : Pagedir) : Loader Unit := Prog.perform (LoadOp.setPagedir pd)

/-- `file_seek` -/
def fileSeek (file : ExecFile) (newPos : ℤ) : Loader ExecFile :=
  if 0 ≤ newPos then return { file with pos := newPos.toNat } else .stop .assertion

/-- `file_read`: the bytes stored, and the file with its position advanced by their number. -/
def fileRead (file : ExecFile) (size : ℕ) : Loader (List UInt8 × ExecFile) := do
  let limit ← Prog.perform LoadOp.readLimit
  let l := FileBytes.read file.bytes file.pos (min size limit)
  return (l, { file with pos := file.pos + l.length })

/-- `pagedir_get_page` -/
def pagedirGetPage (upage : Word) : Loader (Option UserPage) := do
  if isUserVaddr upage then
    let pd ← getPagedir
    return pd (pgRoundDown upage)
  else .stop .assertion

/-- `pagedir_set_page`; looking up the page may allocate a page table. -/
def pagedirSetPage (upage : Word) (page : UserPage) : Loader Bool := do
  if pgOfs upage = 0 ∧ isUserVaddr upage then
    if ← pallocGetPage then
      let pd ← getPagedir
      if (pd upage).isNone then
        setPagedir (Function.update pd upage (some page))
        return true
      else .stop .assertion
    else return false
  else .stop .assertion

/-- `install_page` -/
def installPage (upage : Word) (page : UserPage) : Loader Bool := do
  if (← pagedirGetPage upage).isNone then pagedirSetPage upage page else return false

/-! ## Segments -/

/-- `struct Elf32_Phdr` -/
structure Elf32Phdr where
  pType : Word
  pOffset : Word
  pVaddr : Word
  pPaddr : Word
  pFilesz : Word
  pMemsz : Word
  pFlags : Word
  pAlign : Word
  deriving DecidableEq

/-- The word that a little-endian object holds at an offset. -/
def word (b : ℕ → UInt8) (ofs : ℕ) : Word := BitVec.ofNat 32 (Bytes.le32 b ofs)

/-- The half word that a little-endian object holds at an offset. -/
def half (b : ℕ → UInt8) (ofs : ℕ) : ℕ := (b ofs).toNat + 256 * (b (ofs + 1)).toNat

/-- The program header that 32 bytes form. -/
def Elf32Phdr.ofBytes (b : ℕ → UInt8) : Elf32Phdr where
  pType := word b 0
  pOffset := word b 4
  pVaddr := word b 8
  pPaddr := word b 12
  pFilesz := word b 16
  pMemsz := word b 20
  pFlags := word b 24
  pAlign := word b 28

/-- `validate_segment` -/
def validateSegment (phdr : Elf32Phdr) (file : ExecFile) : Bool :=
  if pgOfs phdr.pOffset ≠ pgOfs phdr.pVaddr then false
  else if phdr.pOffset > BitVec.ofInt 32 (fileLength file) then false
  else if phdr.pMemsz < phdr.pFilesz then false
  else if phdr.pMemsz = 0 then false
  else if !isUserVaddr phdr.pVaddr then false
  else if !isUserVaddr (phdr.pVaddr + phdr.pMemsz) then false
  else if phdr.pVaddr + phdr.pMemsz < phdr.pVaddr then false
  else if phdr.pVaddr < pgSize then false
  else true

/-- The arguments of a call of `load_segment`, apart from the file. -/
structure SegmentArgs where
  ofs : ℤ
  upage : Word
  readBytes : Word
  zeroBytes : Word
  writable : Bool

/-- What `load` computes from a program header and passes to `load_segment`. -/
def segmentArgs (phdr : Elf32Phdr) : SegmentArgs :=
  let filePage := phdr.pOffset &&& ~~~pgMask
  let memPage := phdr.pVaddr &&& ~~~pgMask
  let pageOffset := phdr.pVaddr &&& pgMask
  let readBytes := if phdr.pFilesz > 0 then pageOffset + phdr.pFilesz else 0
  let zeroBytes :=
    if phdr.pFilesz > 0 then roundUp (pageOffset + phdr.pMemsz) pgSize - readBytes
    else roundUp (pageOffset + phdr.pMemsz) pgSize
  { ofs := filePage.toInt
    upage := memPage
    readBytes := readBytes
    zeroBytes := zeroBytes
    writable := phdr.pFlags &&& 2 ≠ 0 }

/-- The loop of `load_segment`; each pass fills one page, and there are not more than `2 ^ 20`. -/
def loadPages (writable : Bool) : ℕ → ExecFile → Word → Word → Word → Loader (Bool × ExecFile)
  | 0, _, _, _, _ => .stop .diverges
  | fuel + 1, file, upage, readBytes, zeroBytes =>
    if readBytes > 0 ∨ zeroBytes > 0 then do
      let pageReadBytes := if readBytes < pgSize then readBytes else pgSize
      let pageZeroBytes := pgSize - pageReadBytes
      if !(← pallocGetPage) then
        return (false, file)
      else
        let (l, file) ← fileRead file pageReadBytes.toNat
        if l.length ≠ pageReadBytes.toNat then
          return (false, file)
        else
          -- the page as the read and the `memset` behind it leave it
          let kpage := Block.mk (Bytes.overlay l fun _ => 0)
          if !(← installPage upage ⟨kpage, writable⟩) then
            return (false, file)
          else
            loadPages writable fuel file (upage + pgSize) (readBytes - pageReadBytes)
              (zeroBytes - pageZeroBytes)
    else return (true, file)

/-- The three assertions of `load_segment`. -/
def SegmentArgs.Asserted (a : SegmentArgs) : Prop :=
  (a.readBytes + a.zeroBytes) % pgSize = 0 ∧ pgOfs a.upage = 0 ∧ a.ofs.tmod 4096 = 0

instance (a : SegmentArgs) : Decidable a.Asserted := inferInstanceAs (Decidable (_ ∧ _ ∧ _))

/-- `load_segment`: its result, and the file with its position moved. -/
def loadSegment (file : ExecFile) (a : SegmentArgs) : Loader (Bool × ExecFile) := do
  if a.Asserted then
    let file ← fileSeek file a.ofs
    loadPages a.writable (2 ^ 20 + 1) file a.upage a.readBytes a.zeroBytes
  else .stop .assertion

/-! ## The executable -/

/-- The fields of `struct Elf32_Ehdr` that `load` uses. -/
structure Elf32Ehdr where
  eIdent : List UInt8
  eType : ℕ
  eMachine : ℕ
  eVersion : Word
  eEntry : Word
  ePhoff : Word
  ePhentsize : ℕ
  ePhnum : ℕ

def Elf32Ehdr.ofBytes (b : ℕ → UInt8) : Elf32Ehdr where
  eIdent := Bytes.slice b 0 16
  eType := half b 16
  eMachine := half b 18
  eVersion := word b 20
  eEntry := word b 24
  ePhoff := word b 28
  ePhentsize := half b 42
  ePhnum := half b 44

/-- The checks of `load` on the executable header. -/
def Elf32Ehdr.valid (e : Elf32Ehdr) : Bool :=
  e.eIdent.take 7 == [0x7f, 0x45, 0x4c, 0x46, 1, 1, 1] && e.eType == 2 && e.eMachine == 3 &&
    e.eVersion == 1 && e.ePhentsize == 32 && decide (e.ePhnum ≤ 1024)

/-- The loop of `load` over the program headers. -/
def loadHeaders : ℕ → ExecFile → ℤ → Loader Bool
  | 0, _, _ => return true
  | n + 1, file, fileOfs => do
    if fileOfs < 0 ∨ fileOfs > fileLength file then
      return false
    else
      let file ← fileSeek file fileOfs
      let (l, file) ← fileRead file 32
      if l.length ≠ 32 then
        return false
      else
        let phdr := Elf32Phdr.ofBytes (Bytes.overlay l fun _ => 0)
        let fileOfs := wrap32 (fileOfs + 32)
        if phdr.pType = 2 ∨ phdr.pType = 3 ∨ phdr.pType = 5 then
          -- `PT_DYNAMIC`, `PT_INTERP`, `PT_SHLIB`
          return false
        else if phdr.pType = 1 then
          -- `PT_LOAD`
          if validateSegment phdr file then
            let (ok, file) ← loadSegment file (segmentArgs phdr)
            if ok then loadHeaders n file fileOfs else return false
          else return false
        else loadHeaders n file fileOfs

/-- `setup_stack`: the initial stack pointer. -/
def setupStack : Loader (Option Word) := do
  if ← pallocGetPage then
    if ← installPage (physBase - pgSize) ⟨Block.zero, true⟩ then return some physBase
    else return none
  else return none

/-- `load`: the start address and the stack pointer. -/
def load (file : Option ExecFile) : Loader (Option (Word × Word)) := do
  if !(← pallocGetPage) then
    return none
  else match file with
    | none => return none
    | some file =>
      let (l, file) ← fileRead file 52
      if l.length ≠ 52 then
        return none
      else
        let ehdr := Elf32Ehdr.ofBytes (Bytes.overlay l fun _ => 0)
        if !ehdr.valid then
          return none
        else if !(← loadHeaders ehdr.ePhnum file ehdr.ePhoff.toInt) then
          return none
        else match ← setupStack with
          | none => return none
          | some esp => return some (ehdr.eEntry, esp)

end Pintos.Userprog
