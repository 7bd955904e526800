import Pintos.Library.Prog
import Pintos.Library.Bytes
import Pintos.Threads.Vaddr

/-!
# The system call handler

`userprog/syscall.c`.  A program `Sys α` accesses memory one access at a time and leaves a log of its
accesses; it calls the rest of the kernel, whose answers are open, and it may end the process.

* An access at an address succeeds if its page is mapped with the right access, or if `page_fault` maps
  it by growing the stack; `UserMemory.readable` and `UserMemory.writable` say at which addresses this
  is so, in user space and in kernel space.  Otherwise `page_fault` calls `exit (-1)`.
* `read`, `write` and `readdir` are followed down to the single bytes of the caller's buffer.  What the
  file layer copies is an answer: at most as many bytes as were asked for, and then it may return, end
  the process with `exit (-1)`, or panic.
* The other system calls are answered as a whole.
-/

namespace Pintos.Userprog

open Pintos.Threads

/-! ## Memory -/

/-- Memory as the kernel sees it while it runs for a process. -/
structure UserMemory where
  byte : Word → UInt8
  readable : Word → Bool
  writable : Word → Bool

namespace UserMemory

/-- The word at an address, if the four bytes can be read. -/
def word (m : UserMemory) (va : Word) : Option Word :=
  if m.readable va && m.readable (va + 1) && m.readable (va + 2) && m.readable (va + 3) then
    some (BitVec.ofNat 32 (Bytes.le32 (fun i => m.byte (va + BitVec.ofNat 32 i)) 0))
  else none

end UserMemory

/-- One attempt to access the `size` bytes from `va` on, and whether it went through. -/
structure Access where
  va : Word
  size : ℕ
  performed : Bool
  deriving DecidableEq

/-- The bytes lie below `PHYS_BASE`. -/
def Access.Below (a : Access) : Prop := a.va.toNat + a.size ≤ 0xc0000000

instance (a : Access) : Decidable a.Below := inferInstanceAs (Decidable (_ ≤ _))

/-- Memory and the accesses made so far. -/
structure SysState where
  memory : UserMemory
  log : List Access

/-! ## Programs -/

/-- How control leaves the kernel other than by a return to the process: `exit`, `thread_exit` without
`exit`, power off, or a kernel panic. -/
inductive SysStop
  | exit (status : ℤ)
  | threadExit
  | halt
  | panic
  deriving DecidableEq

/-- How a call into another part of the kernel ends: with a value, in `exit (-1)`, or in a panic. -/
inductive Outcome (α : Type)
  | value (a : α)
  | exit
  | panic

/-- System calls that the handler passes on. -/
inductive KernelCall
  | exec (cmdLine : Word)
  | wait (pid : Word)
  | create (file initialSize : Word)
  | remove (file : Word)
  | «open» (file : Word)
  | filesize (fd : Word)
  | seek (fd position : Word)
  | tell (fd : Word)
  | close (fd : Word)
  | chdir (filename : Word)
  | mkdir (filename : Word)
  | isdir (fd : Word)
  | inumber (fd : Word)

inductive SysOp
  | loadWord (va : Word)
  | loadByte (va : Word)
  | storeByte (va : Word) (b : UInt8)
  | kernel (c : KernelCall)
  | fileRead (fd size : Word)
  | fileWrite (fd size : Word)
  | dirRead (fd : Word)
  | inputGetc

/-- The answers.  An access that fails has none.  For a descriptor that is not open the file layer has
nothing to copy; otherwise it says what it copies and how it ends. -/
abbrev SysOp.Ans : SysOp → Type
  | .loadWord _ => Option Word
  | .loadByte _ => Option UInt8
  | .storeByte _ _ => Bool
  | .kernel _ => Outcome Word
  | .fileRead _ _ => Option (List UInt8 × Outcome Unit)
  | .fileWrite _ _ => Option (ℕ × Outcome Unit)
  | .dirRead _ => Option (Outcome (Option (List UInt8)))
  | .inputGetc => UInt8

abbrev Sys (α : Type) := Prog SysOp SysOp.Ans SysStop α

/-- The size of a copy, converted to `off_t`: a negative one copies nothing. -/
def offSize (size : Word) : ℕ := size.toInt.toNat

/-- The admitted answers.  A directory entry has a name of at most `NAME_MAX` bytes. -/
def sysEffect : Prog.Effect SysOp SysOp.Ans SysState
  | .loadWord va, s, x, s' =>
    x = s.memory.word va ∧ s' = { s with log := s.log ++ [⟨va, 4, (s.memory.word va).isSome⟩] }
  | .loadByte va, s, x, s' =>
    x = (if s.memory.readable va then some (s.memory.byte va) else none) ∧
      s' = { s with log := s.log ++ [⟨va, 1, s.memory.readable va⟩] }
  | .storeByte va b, s, x, s' =>
    x = s.memory.writable va ∧ s' =
      { memory := if s.memory.writable va then
          { s.memory with byte := Function.update s.memory.byte va b } else s.memory
        log := s.log ++ [⟨va, 1, s.memory.writable va⟩] }
  | .kernel _, s, _, s' => s' = s
  | .fileRead _ size, s, x, s' => (∀ l o, x = some (l, o) → l.length ≤ offSize size) ∧ s' = s
  | .fileWrite _ size, s, x, s' => (∀ n o, x = some (n, o) → n ≤ offSize size) ∧ s' = s
  | .dirRead _, s, x, s' => (∀ name, x = some (.value (some name)) → name.length ≤ 14) ∧ s' = s
  | .inputGetc, s, _, s' => s' = s

/-- A run of a program on a memory, with an empty log, may end with `r` and `s'`. -/
def SysRuns {α : Type} (p : Sys α) (m : UserMemory) (r : Except SysStop α) (s' : SysState) : Prop :=
  Prog.Ends sysEffect p ⟨m, []⟩ r s'

/-! ## Accesses -/

/-- `exit` -/
def exit {α : Type} (num : ℤ) : Sys α := .stop (.exit num)

/-- A load of a word; `page_fault` ends the process if it fails. -/
def loadWord (va : Word) : Sys Word := do
  match ← Prog.perform (SysOp.loadWord va) with
  | some w => return w
  | none => exit (-1)

def loadByte (va : Word) : Sys UInt8 := do
  match ← Prog.perform (SysOp.loadByte va) with
  | some b => return b
  | none => exit (-1)

def storeByte (va : Word) (b : UInt8) : Sys Unit := do
  if ← Prog.perform (SysOp.storeByte va b) then return else exit (-1)

/-- The end of a call into the file layer. -/
def finish {α : Type} : Outcome α → Sys α
  | .value a => return a
  | .exit => exit (-1)
  | .panic => .stop .panic

/-- `protect_user_memory` -/
def protectUserMemory (add : Word) : Sys Unit :=
  if isUserVaddr add then return else exit (-1)

/-! ## System calls with a buffer -/

/-- Loading `n` bytes from `va` on, in order. -/
def loadBytes : ℕ → Word → Sys Unit
  | 0, _ => return
  | n + 1, va => do
    let _ ← loadByte va
    loadBytes n (va + 1)

/-- Storing bytes from `va` on, in order. -/
def storeBytes : List UInt8 → Word → Sys Unit
  | [], _ => return
  | b :: l, va => do
    storeByte va b
    storeBytes l (va + 1)

/-- The loop of `read` on descriptor 0; it ends when `size` bytes have been stored, so `size + 1`
passes are enough. -/
def readStdin (buffer size : Word) : ℕ → Word → Sys Word
  | 0, cur => return cur
  | fuel + 1, cur => do
    if (← loadByte (buffer + cur)) ≠ 0 then
      let c ← Prog.perform SysOp.inputGetc
      storeByte (buffer + cur) c
      let cur := cur + 1
      if size ≤ cur then return cur else readStdin buffer size fuel cur
    else return cur

/-- `read`; `get_file` finds no descriptor below 3. -/
def read (fd buffer size : Word) : Sys Word := do
  if fd ≠ 0 then
    if fd.toInt < 3 then return -1
    else match ← Prog.perform (SysOp.fileRead fd size) with
      | none => return -1
      | some (l, o) =>
        storeBytes l buffer
        finish o
        return BitVec.ofNat 32 l.length
  else
    let cur ← readStdin buffer size (size.toNat + 1) 0
    return cur - 1

/-- `write` -/
def write (fd buffer size : Word) : Sys Word := do
  if fd ≠ 1 then
    if fd.toInt < 3 then return -1
    else match ← Prog.perform (SysOp.fileWrite fd size) with
      | none => return -1
      | some (n, o) =>
        loadBytes n buffer
        finish o
        return BitVec.ofNat 32 n
  else
    -- `putbuf`
    loadBytes size.toNat buffer
    return size

/-- `readdir`; the `bool` that it returns for a bad descriptor is true. -/
def readdir (fd name : Word) : Sys Word := do
  if fd.toInt < 3 then return 1
  else match ← Prog.perform (SysOp.dirRead fd) with
    | none => return 1
    | some o => match ← finish o with
      | none => return 0
      | some entry =>
        -- `strlcpy` asserts that its destination is not null
        if name = 0 then .stop .panic
        else
          storeBytes (entry ++ [0]) name
          return 1

/-! ## The handler -/

/-- A system call that `syscall_handler` knows. -/
inductive Syscall
  | halt | exit | exec | wait | create | remove | «open» | filesize | read | write | seek | tell | close
  | fibo | maxfour | chdir | mkdir | readdir | isdir | inumber
  deriving DecidableEq

/-- The numbers of `lib/syscall-nr.h`; 15 and 16, `SYS_MMAP` and `SYS_MUNMAP`, have no case. -/
def Syscall.ofNumber (n : Word) : Option Syscall :=
  match n.toNat with
  | 0 => some .halt
  | 1 => some .exit
  | 2 => some .exec
  | 3 => some .wait
  | 4 => some .create
  | 5 => some .remove
  | 6 => some .open
  | 7 => some .filesize
  | 8 => some .read
  | 9 => some .write
  | 10 => some .seek
  | 11 => some .tell
  | 12 => some .close
  | 13 => some .fibo
  | 14 => some .maxfour
  | 17 => some .chdir
  | 18 => some .mkdir
  | 19 => some .readdir
  | 20 => some .isdir
  | 21 => some .inumber
  | _ => none

/-- How many arguments the case of a system call reads. -/
def Syscall.argCount : Syscall → ℕ
  | .halt => 0
  | .create | .seek | .readdir => 2
  | .read | .write => 3
  | .maxfour => 4
  | _ => 1

/-- `fibonacci` -/
def fibonacci (n : Word) : Word :=
  if n = 1 then 1
  else if n = 2 then 1
  else ((List.range (n.toInt - 2).toNat).foldl (fun (f : Word × Word × Word) _ =>
    (f.2.1, f.1 + f.2.1, f.1 + f.2.1)) (1, 1, 2)).2.2

/-- `max_of_four_int` -/
def maxOfFourInt (a b c d : Word) : Word :=
  let c1 := if a.slt b then b else a
  let c2 := if c.slt d then d else c
  if c1.slt c2 then c2 else c1

/-- The address of argument `i`. -/
def argAddr (esp : Word) (i : ℕ) : Word := esp + BitVec.ofNat 32 (4 * (i + 1))

/-- The loop that each case begins with: fetch an argument, check it, fetch the next. -/
def fetchArgs (esp : Word) : ℕ → List Word → Sys (List Word)
  | 0, p => return p
  | n + 1, p => do
    let w ← loadWord (argAddr esp p.length)
    protectUserMemory w
    fetchArgs esp n (p ++ [w])

/-- A system call that is passed on, with `eax` set to its result. -/
def passOn (c : KernelCall) : Sys (Option Word) := do
  return some (← finish (← Prog.perform (SysOp.kernel c)))

/-- What each case does with its arguments; the result is what it stores in `eax`. -/
def Syscall.body (p : ℕ → Word) : Syscall → Sys (Option Word)
  | .halt => .stop .halt
  | .exit => Userprog.exit (p 0).toInt
  | .exec => passOn (.exec (p 0))
  | .wait => passOn (.wait (p 0))
  | .create => if p 0 = 0 then Userprog.exit (-1) else passOn (.create (p 0) (p 1))
  | .remove => if p 0 = 0 then Userprog.exit (-1) else passOn (.remove (p 0))
  | .open => if p 0 = 0 then Userprog.exit (-1) else passOn (.open (p 0))
  | .filesize => passOn (.filesize (p 0))
  | .read => do return some (← Userprog.read (p 0) (p 1) (p 2))
  | .write => do return some (← Userprog.write (p 0) (p 1) (p 2))
  | .seek => do
    let _ ← passOn (.seek (p 0) (p 1))
    return none
  | .tell => passOn (.tell (p 0))
  | .close => do
    let _ ← passOn (.close (p 0))
    return none
  | .fibo => return some (fibonacci (p 0))
  | .maxfour => return some (maxOfFourInt (p 0) (p 1) (p 2) (p 3))
  | .chdir => passOn (.chdir (p 0))
  | .mkdir => passOn (.mkdir (p 0))
  | .readdir => do return some (← Userprog.readdir (p 0) (p 1))
  | .isdir => passOn (.isdir (p 0))
  | .inumber => passOn (.inumber (p 0))

/-- `syscall_handler`: the value stored in `eax`, if any.  No case uses an element of the array `p` that
it has not fetched. -/
def syscallHandler (esp : Word) : Sys (Option Word) := do
  match Syscall.ofNumber (← loadWord esp) with
  | none => return none
  | some c =>
    let p ← fetchArgs esp c.argCount []
    c.body fun i => (p[i]?).getD 0

end Pintos.Userprog
