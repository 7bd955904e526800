import Pintos.Library.Bytes
import Pintos.Library.Region

/-!
# The command line of a new process

What `process_execute`, `load` and `makeup_stack` of `project5/src/userprog/process.c` do with the command
line of a new process: the first two cut the name of the file out of it, each in an array of its own, and
the third one cuts it into words in a scratch buffer and builds the stack of the process out of them.

An array is the memory from its start on, with what happens to lie behind it (`Region`); in the scratch buffer
and behind it the bytes are unspecified.  A run ends at the first store outside of an array, for what comes
next is undefined, and at an access to memory that is not mapped.  The two allocations of `makeup_stack`
succeed; the code does not look.
-/

namespace Pintos.Userprog.CommandLine

open Bytes

/-- The arrays that are filled from a command line: `command` of `process_execute` and that of `load`, and
the two allocations of `makeup_stack`. -/
inductive Buffer
  | executeCommand
  | loadCommand
  | argv
  | buf
  deriving DecidableEq

inductive Fault
  /-- a store outside of an array -/
  | outside (array : Buffer)
  /-- an access to memory that is not mapped -/
  | page
  deriving DecidableEq

def check {α : Type} (fault : Fault) : Option α → Except Fault α
  | some a => .ok a
  | none => .error fault

/-! ## Strings -/

/-- The string at the start of a memory, as `strlen` finds it. -/
def string : List UInt8 → Except Fault (List UInt8)
  | [] => .error .page
  | b :: bs => if b = 0 then .ok [] else do return b :: (← string bs)

/-- `strchr (string, c)`; `pos` is the address of the string. -/
def strchr (c : UInt8) : List UInt8 → ℕ → Except Fault (Option ℕ)
  | [], _ => .error .page
  | b :: bs, pos => if b = c then .ok (some pos) else if b = 0 then .ok none else strchr c bs (pos + 1)

/-- `strlcpy (dst, src, size)` -/
def strlcpy {base n : ℕ} (fault : Fault) (r : Region UInt8 base n) (dst : ℕ) (src : List UInt8) (size : ℕ) :
    Except Fault (Region UInt8 base n × ℕ) :=
  if 0 < size then do
    let dstLen := if src.length < size - 1 then src.length else size - 1
    let r ← check fault (r.puts dst (src.take dstLen))
    let r ← check fault (r.put (dst + dstLen) 0)
    return (r, src.length)
  else return (r, src.length)

/-! ## The name of the file -/

/-- `for(i=0;command[i]!=' '&&command[i]!='\0';i++);` -/
def nameEnd : List UInt8 → ℕ → Except Fault ℕ
  | [], _ => .error .page
  | b :: bs, i => if b ≠ 32 ∧ b ≠ 0 then nameEnd bs (i + 1) else .ok i

/-- The name of the file, cut out in an array of `n` bytes. -/
def cutName {n : ℕ} (array : Buffer) (command : Region UInt8 0 n) (fileName : List UInt8) :
    Except Fault (List UInt8) := do
  let (command, _) ← strlcpy (.outside array) command 0 fileName (fileName.length + 1)
  let i ← nameEnd command.cells 0
  let command ← check (.outside array) (command.put i 0)
  string command.cells

/-! ## The words

A pointer of `argv` is an address: first one in the scratch buffer, then one on the stack. -/

/-- `while(*buf && (*buf == ' ')) buf++;` -/
def skipSpaces : List UInt8 → ℕ → Except Fault ℕ
  | [], _ => .error .page
  | b :: bs, buf => if b ≠ 0 ∧ b = 32 then skipSpaces bs (buf + 1) else .ok buf

/-- The loop over `strchr`. -/
def parsing {base : ℕ} : ℕ → Region ℕ 0 256 → ℕ → Region UInt8 base 1024 → ℕ →
    Except Fault (Region ℕ 0 256 × ℕ × Region UInt8 base 1024)
  | 0, _, _, _, _ => .error .page
  | fuel + 1, argv, argc, mem, buf => do
    match ← strchr 32 (mem.behind buf) buf with
    | none => return (argv, argc, mem)
    | some delim =>
      let argv ← check (.outside .argv) (argv.put argc buf)
      let mem ← check (.outside .buf) (mem.put delim 0)
      let buf ← skipSpaces (mem.behind (delim + 1)) (delim + 1)
      parsing fuel argv (argc + 1) mem buf

/-- The first half of `makeup_stack`. -/
def cutWords {base : ℕ} (argv : Region ℕ 0 256) (mem : Region UInt8 base 1024) (fileName : List UInt8) :
    Except Fault (Region ℕ 0 256 × ℕ × Region UInt8 base 1024) := do
  let (mem, len) ← strlcpy (.outside .buf) mem base fileName (fileName.length + 1)
  -- over the terminator
  let mem ← check (.outside .buf) (mem.put (base + len) 32)
  let buf ← skipSpaces (mem.behind base) base
  parsing (mem.cells.length + 1) argv 0 mem buf

/-! ## The stack -/

def physBase : ℕ := 0xC0000000

/-- `*esp` and the page that `setup_stack` has put below `PHYS_BASE`. -/
structure Stack where
  esp : ℕ
  mem : Region UInt8 (physBase - 4096) 4096

def pushString (s : Stack) (arg : List UInt8) : Except Fault Stack := do
  let esp := s.esp - (arg.length + 1)
  let (mem, _) ← strlcpy .page s.mem esp arg (arg.length + 1)
  return ⟨esp, mem⟩

def pushByte (s : Stack) (b : UInt8) : Except Fault Stack := do
  let mem ← check .page (s.mem.put (s.esp - 1) b)
  return ⟨s.esp - 1, mem⟩

/-- The little-endian bytes of a word. -/
def bytes32 (v : ℕ) : List UInt8 := [leByte v 0, leByte v 1, leByte v 2, leByte v 3]

def push32 (s : Stack) (v : ℕ) : Except Fault Stack := do
  let mem ← check .page (s.mem.puts (s.esp - 4) (bytes32 v))
  return ⟨s.esp - 4, mem⟩

/-- The loop over the arguments, from the last one on. -/
def pushArgs {base : ℕ} (mem : Region UInt8 base 1024) : ℕ → Region ℕ 0 256 → ℕ → Stack →
    Except Fault (Region ℕ 0 256 × ℕ × Stack)
  | 0, argv, tlen, s => return (argv, tlen, s)
  | i + 1, argv, tlen, s => do
    let arg ← string (mem.behind (← check .page (argv.get i)))
    let s ← pushString s arg
    let argv ← check (.outside .argv) (argv.put i s.esp)
    pushArgs mem i argv (tlen + (arg.length + 1)) s

def pushZeros : ℕ → Stack → Except Fault Stack
  | 0, s => return s
  | n + 1, s => do pushZeros n (← pushByte s 0)

/-- The loop over the addresses of the arguments. -/
def pushAddrs (argv : Region ℕ 0 256) : ℕ → Stack → Except Fault Stack
  | 0, s => return s
  | i + 1, s => do pushAddrs argv i (← push32 s (← check .page (argv.get i)))

def wordAlign (tlen : ℕ) : ℕ := if tlen % 4 = 0 then 0 else 4 - tlen % 4

/-- The second half of `makeup_stack`, from the words on the stack to the return address. -/
def layOut {base : ℕ} (s : Stack) (argv : Region ℕ 0 256) (argc : ℕ) (mem : Region UInt8 base 1024) :
    Except Fault Stack := do
  let (argv, tlen, s) ← pushArgs mem argc argv 0 s
  let s ← pushZeros (wordAlign tlen) s
  let s ← push32 s 0
  let s ← pushAddrs argv argc s
  let s ← push32 s (s.esp - 4 + 4)
  let s ← push32 s argc
  push32 s 0

/-- `makeup_stack (esp, file_name)` -/
def makeupStack {base : ℕ} (s : Stack) (argv : Region ℕ 0 256) (mem : Region UInt8 base 1024)
    (fileName : List UInt8) : Except Fault Stack := do
  let (argv, argc, mem) ← cutWords argv mem fileName
  layOut s argv argc mem

/-! ## The calls -/

/-- What a run meets: the memory it gets and what the calls on the way answer. -/
structure Setting (base : ℕ) where
  /-- the page of `process_execute`, where there is one -/
  fnCopy : Option (Region UInt8 0 4096)
  command : Region UInt8 0 256
  /-- whether `filesys_open` finds the file in `process_execute` -/
  opens : List UInt8 → Bool
  threadCreate : Bool
  pagedirCreate : Bool
  loadCommand : Region UInt8 0 50
  /-- whether `load` gets from the name of the file to the end of `setup_stack` -/
  loads : List UInt8 → Bool
  argv : Region ℕ 0 256
  buf : Region UInt8 base 1024
  stack : Region UInt8 (physBase - 4096) 4096

/-- `load (file_name)`: the stack of the process, where it gets that far. -/
def load {base : ℕ} (c : Setting base) (fileName : List UInt8) : Except Fault (Option Stack) :=
  if c.pagedirCreate then do
    let command ← cutName .loadCommand c.loadCommand fileName
    if c.loads command then
      let s ← makeupStack ⟨physBase, c.stack⟩ c.argv c.buf fileName
      return some s
    else return none
  else return none

/-- `process_execute (file_name)`, with the `load` of the new thread. -/
def processExecute {base : ℕ} (c : Setting base) (fileName : List UInt8) : Except Fault (Option Stack) :=
  match c.fnCopy with
  | none => return none
  | some fnCopy => do
    let (fnCopy, _) ← strlcpy .page fnCopy 0 fileName 4096
    let command ← cutName .executeCommand c.command fileName
    if c.opens command && c.threadCreate then
      load c (← string fnCopy.cells)
    else return none

end Pintos.Userprog.CommandLine
