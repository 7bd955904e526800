import Pintos.Filesys.Filesys
import Pintos.Library.Interleave
import Pintos.Library.Trace
import Pintos.Userprog.Syscall

/-!
# The locks of the system calls

`read`, `write` and `open` of `userprog/syscall.c` with every `lock_acquire` and `lock_release` on their
way: the lock `w` of the system calls, `bc_lock` of the buffer cache, and the console lock.  Any number
of processes make these calls at the same time; a step is one operation of one process.

* The functions of `filesys/` are those of `Pintos.Filesys`, run with each call of the buffer cache
  under `bc_lock` (`ofFs`).  What they read is left open: since other processes change the file system in
  between, an answer may be anything.
* `inode_read_at` and `inode_write_at` on a buffer of the process are written out again, down to the
  single bytes of the buffer: an access that `page_fault` does not resolve ends the process there.
* A pointer that is null because memory has run out is accessed (`nullAccess`), and `page_fault` ends the
  process.
* A panic stops the machine; so does, here, what the C code leaves undefined.
-/

namespace Pintos.Userprog.Locks

open Pintos.Threads Pintos.Filesys

inductive Lock
  | w
  | bcLock
  | console
  deriving DecidableEq

/-- Why a function does not return: `exit` is called, or the machine stops. -/
inductive KStop
  | exit
  | panic
  deriving DecidableEq

inductive KOp
  | lockAcquire (l : Lock)
  | lockRelease (l : Lock)
  | acquireConsole
  | releaseConsole
  | loadByte (va : Word)
  | storeByte (va : Word) (b : UInt8)
  | nullAccess
  | fs (o : Op)
  | getFile (fd : Word)
  | putFile (fd : Word) (f : File)
  | addFd (f : File) (dir : Option Dir)
  | fds
  | threadName
  | inputGetc

/-- The answers.  For the operations on locks they say whether the assertions of `threads/synch.c` hold,
for an access to memory whether it goes through. -/
abbrev KOp.Ans : KOp → Type
  | .lockAcquire _ => Bool
  | .lockRelease _ => Bool
  | .acquireConsole => Unit
  | .releaseConsole => Bool
  | .loadByte _ => Option UInt8
  | .storeByte _ _ => Bool
  | .nullAccess => Unit
  | .fs o => o.Ans
  | .getFile _ => Option File
  | .putFile _ _ => Unit
  | .addFd _ _ => Word
  | .fds => List File
  | .threadName => List UInt8
  | .inputGetc => UInt8

/-- A function that runs in the kernel for a process. -/
abbrev Kern (α : Type) := Prog KOp KOp.Ans KStop α

variable {α β : Type}

/-! ## Locks, memory and the file system -/

/-- `lock_acquire` -/
def lockAcquire (l : Lock) : Kern Unit := do
  if ← Prog.perform (KOp.lockAcquire l) then return else .stop .panic

/-- `lock_release` -/
def lockRelease (l : Lock) : Kern Unit := do
  if ← Prog.perform (KOp.lockRelease l) then return else .stop .panic

/-- `acquire_console`.  Its test looks only at what the current thread has set itself. -/
def acquireConsole : Kern Unit := Prog.perform KOp.acquireConsole

/-- `release_console` -/
def releaseConsole : Kern Unit := do
  if ← Prog.perform KOp.releaseConsole then return else .stop .panic

/-- A load of the kernel from the memory of the process. -/
def loadByte (va : Word) : Kern UInt8 := do
  match ← Prog.perform (KOp.loadByte va) with
  | some b => return b
  | none => .stop .exit

/-- A store of the kernel to the memory of the process. -/
def storeByte (va : Word) (b : UInt8) : Kern Unit := do
  if ← Prog.perform (KOp.storeByte va b) then return else .stop .exit

/-- Copying `n` bytes from `va` on into the kernel. -/
def loadBytes : ℕ → Word → Kern (List UInt8)
  | 0, _ => return []
  | n + 1, va => do
    let b ← loadByte va
    return b :: (← loadBytes n (va + 1))

/-- Copying `n` bytes of a kernel buffer, from `ofs` on, to `va` and on. -/
def storeBytes (b : ℕ → UInt8) : ℕ → ℕ → Word → Kern Unit
  | 0, _, _ => return
  | n + 1, ofs, va => do
    storeByte va (b ofs)
    storeBytes b n (ofs + 1) (va + 1)

/-- Going through a string of the process; one without an end never lets go. -/
def loadString : ℕ → Word → Kern (List UInt8)
  | 0, _ => .stop .panic
  | n + 1, va => do
    let b ← loadByte va
    if b = 0 then return [] else return b :: (← loadString n (va + 1))

/-- A function of `filesys/` with the calls into the buffer cache under `bc_lock`. -/
def ofFs : Fs α → Kern α
  | .ret a => .ret a
  | .stop (.exit _) => .stop .exit
  | .stop .pageFault => do
    Prog.perform KOp.nullAccess
    .stop .exit
  | .stop _ => .stop .panic
  | .call (.cacheRead s) k => do
    lockAcquire .bcLock
    let b ← Prog.perform (KOp.fs (.cacheRead s))
    lockRelease .bcLock
    ofFs (k b)
  | .call (.cacheWrite s d) k => do
    lockAcquire .bcLock
    Prog.perform (KOp.fs (.cacheWrite s d))
    lockRelease .bcLock
    ofFs (k ())
  | .call o k => .call (.fs o) fun x => ofFs (k x)

/-! ## Files -/

/-- `buffer_cache_read` into the memory of the process. -/
def bufferCacheReadTo (sector : ℕ) (target : Word) : Kern Unit := do
  lockAcquire .bcLock
  let m ← Prog.perform (KOp.fs .getMem)
  if sector < m.fsSize then
    let b ← Prog.perform (KOp.fs (.cacheRead sector))
    storeBytes b.get 512 0 target
    lockRelease .bcLock
  else .stop .panic

/-- `buffer_cache_write` from the memory of the process. -/
def bufferCacheWriteFrom (sector : ℕ) (source : Word) : Kern Unit := do
  lockAcquire .bcLock
  let m ← Prog.perform (KOp.fs .getMem)
  if sector < m.fsSize then
    let l ← loadBytes 512 source
    Prog.perform (KOp.fs (.cacheWrite sector (Block.mk (Bytes.overlay l fun _ => 0))))
    lockRelease .bcLock
  else .stop .panic

/-- The bounce buffer, allocated when it is first needed. -/
def bounceBuffer (bounce : Bool) : Kern Bool := if bounce then return true else ofFs malloc

/-- What a bounce buffer holds before a write: the sector, unless all of it is overwritten. -/
def bounceFill (sectorIdx : ℕ) (whole : Prop) [Decidable whole] : Kern Sector :=
  if whole then return Block.zero else ofFs (bufferCacheRead sectorIdx)

/-- The loop of `inode_read_at`, from `buffer` on. -/
def inodeReadLoop (p : ℕ) : ℕ → Word → ℤ → ℤ → Bool → Kern ℤ
  | 0, _, _, _, _ => return 0
  | fuel + 1, buffer, size, offset, bounce =>
    if size ≤ 0 then return 0
    else do
      let sectorIdx ← ofFs (byteToSector p offset)
      let sectorOfs := offset.tmod 512
      let inodeLeft := wrap32 ((← ofFs (inodeLength p)) - offset)
      let sectorLeft := 512 - sectorOfs
      let minLeft := min inodeLeft sectorLeft
      let chunkSize := min size minLeft
      if chunkSize ≤ 0 then
        return 0
      else if sectorOfs = 0 ∧ chunkSize = 512 then
        bufferCacheReadTo sectorIdx buffer
        let rest ← inodeReadLoop p fuel (buffer + BitVec.ofInt 32 chunkSize) (size - chunkSize)
          (offset + chunkSize) bounce
        return chunkSize + rest
      else
        let allocated ← bounceBuffer bounce
        if !allocated then
          return 0
        else
          let b ← ofFs (bufferCacheRead sectorIdx)
          if sectorOfs < 0 then
            .stop .panic
          else
            storeBytes b.get chunkSize.toNat sectorOfs.toNat buffer
            let rest ← inodeReadLoop p fuel (buffer + BitVec.ofInt 32 chunkSize) (size - chunkSize)
              (offset + chunkSize) true
            return chunkSize + rest

/-- `inode_read_at` -/
def inodeReadAt (p : ℕ) (buffer : Word) (size offset : ℤ) : Kern ℤ :=
  inodeReadLoop p size.toNat buffer size offset false

/-- The loop of `inode_write_at`, from `buffer` on. -/
def inodeWriteLoop (p : ℕ) : ℕ → Word → ℤ → ℤ → Bool → Kern ℤ
  | 0, _, _, _, _ => return 0
  | fuel + 1, buffer, size, offset, bounce =>
    if size ≤ 0 then return 0
    else do
      let sectorIdx ← ofFs (byteToSector p offset)
      let sectorOfs := offset.tmod 512
      let inodeLeft := wrap32 ((← ofFs (inodeLength p)) - offset)
      let sectorLeft := 512 - sectorOfs
      let minLeft := min inodeLeft sectorLeft
      let chunkSize := min size minLeft
      if chunkSize ≤ 0 then
        return 0
      else if sectorOfs = 0 ∧ chunkSize = 512 then
        bufferCacheWriteFrom sectorIdx buffer
        let rest ← inodeWriteLoop p fuel (buffer + BitVec.ofInt 32 chunkSize) (size - chunkSize)
          (offset + chunkSize) bounce
        return chunkSize + rest
      else
        let allocated ← bounceBuffer bounce
        if !allocated then
          return 0
        else
          let b ← bounceFill sectorIdx (¬(sectorOfs > 0 ∨ chunkSize < sectorLeft))
          if sectorOfs < 0 then
            .stop .panic
          else
            let l ← loadBytes chunkSize.toNat buffer
            ofFs (bufferCacheWrite sectorIdx
              (b.splice sectorOfs.toNat chunkSize.toNat (Bytes.overlay l fun _ => 0)))
            let rest ← inodeWriteLoop p fuel (buffer + BitVec.ofInt 32 chunkSize) (size - chunkSize)
              (offset + chunkSize) true
            return chunkSize + rest

/-- `inode_write_at`; `inode_reserve` may call `exit (-1)`. -/
def inodeWriteAt (p : ℕ) (buffer : Word) (size offset : ℤ) : Kern ℤ := do
  let i ← ofFs (deref p)
  if i.denyWriteCnt ≠ 0 then
    return 0
  else
    let len := wrap32 (offset + size)
    if (← ofFs (byteToSector p (wrap32 (len - 1)))) = 2 ^ 32 - 1 then
      let i ← ofFs (deref p)
      let (ok, d) ← ofFs (inodeReserveWith bitmapWrite (storeData p) i.data len)
      if !ok then
        return 0
      else
        let i ← ofFs (deref p)
        ofFs (assign p { i with data := d.setLength len })
        ofFs (bufferCacheWrite i.sector (d.setLength len))
        inodeWriteLoop p size.toNat buffer size offset false
    else
      inodeWriteLoop p size.toNat buffer size offset false

/-- `file_read` -/
def fileRead (f : File) (buffer : Word) (size : ℤ) : Kern (ℤ × File) := do
  let n ← inodeReadAt f.inode buffer size f.pos
  return (n, { f with pos := wrap32 (f.pos + n) })

/-- `file_write` -/
def fileWrite (f : File) (buffer : Word) (size : ℤ) : Kern (ℤ × File) := do
  let n ← inodeWriteAt f.inode buffer size f.pos
  return (n, { f with pos := wrap32 (f.pos + n) })

/-! ## System calls -/

/-- `get_file (fd, F)`: no descriptor is below 3. -/
def getFile (fd : Word) : Kern (Option File) :=
  if fd.toInt < 3 then return none else Prog.perform (KOp.getFile fd)

/-- The loop of `read` on descriptor 0; `size + 1` passes are enough. -/
def readStdin (buffer size : Word) : ℕ → Word → Kern Word
  | 0, cur => return cur
  | fuel + 1, cur => do
    if (← loadByte (buffer + cur)) ≠ 0 then
      let c ← Prog.perform KOp.inputGetc
      storeByte (buffer + cur) c
      let cur := cur + 1
      if size ≤ cur then return cur else readStdin buffer size fuel cur
    else return cur

/-- `read`, under `w`. -/
def readLocked (fd buffer size : Word) : Kern Word := do
  if fd ≠ 0 then
    match ← getFile fd with
    | some f =>
      let (n, f) ← fileRead f buffer size.toInt
      Prog.perform (KOp.putFile fd f)
      return BitVec.ofInt 32 n
    | none => return -1
  else
    let cur ← readStdin buffer size (size.toNat + 1) 0
    return cur - 1

/-- `read` -/
def read (fd buffer size : Word) : Kern Word := do
  lockAcquire .w
  let rbytes ← readLocked fd buffer size
  lockRelease .w
  return rbytes

/-- `putbuf` -/
def putbuf (buffer : Word) (n : ℕ) : Kern Unit := do
  acquireConsole
  let _ ← loadBytes n buffer
  releaseConsole

/-- `write`, under `w`. -/
def writeLocked (fd buffer size : Word) : Kern Word := do
  if fd ≠ 1 then
    match ← getFile fd with
    | some f =>
      let (n, f) ← fileWrite f buffer size.toInt
      Prog.perform (KOp.putFile fd f)
      return BitVec.ofInt 32 n
    | none => return -1
  else
    putbuf buffer size.toNat
    return size

/-- `write` -/
def write (fd buffer size : Word) : Kern Word := do
  lockAcquire .w
  let wbytes ← writeLocked fd buffer size
  lockRelease .w
  return wbytes

/-- `filesys_open` on a string of the process: `strlen` and `divide_fn` go through the string, and
everything else works on copies. -/
def filesysOpen (name : Word) : Kern (Option File) := do
  let s ← loadString (2 ^ 32) name
  if s = [] then
    return none
  else
    let s ← loadString (2 ^ 32) name
    ofFs (Filesys.filesysOpen s)

/-- `file_deny_write` on a file just opened. -/
def fileDenyWrite (f : File) : Kern File := do
  ofFs (inodeDenyWrite f.inode)
  return { f with denyWrite := true }

/-- The comparison of `open` with the name of the process. -/
def denyOwn (file : Word) (fnew : File) : Kern File := do
  let s ← loadString (2 ^ 32) file
  if s = (← Prog.perform KOp.threadName) then fileDenyWrite fnew else return fnew

/-- The second reference that `open` takes to a directory. -/
def openDir (fnew : File) : Kern (Option Dir) := do
  if ← ofFs (isInodeDir fnew.inode) then
    ofFs (do dirOpen (← inodeReopen (some fnew.inode)))
  else return none

/-- `open` -/
def «open» (file : Word) : Kern Word := do
  -- `palloc_get_page`
  if !(← ofFs malloc) then
    return -1
  else
    lockAcquire .w
    match ← filesysOpen file with
    | none =>
      lockRelease .w
      return -1
    | some fnew =>
      let fnew ← denyOwn file fnew
      let dir ← openDir fnew
      let num ← Prog.perform (KOp.addFd fnew dir)
      lockRelease .w
      return num

/-- A system call with its arguments. -/
inductive Call
  | read (fd buffer size : Word)
  | write (fd buffer size : Word)
  | «open» (file : Word)

/-- What the kernel runs for a call. -/
def Call.body : Call → Kern Word
  | .read fd buffer size => Locks.read fd buffer size
  | .write fd buffer size => Locks.write fd buffer size
  | .open file => Locks.open file

/-! ## The end of a process -/

/-- `printf` -/
def printf : Kern Unit := do
  acquireConsole
  releaseConsole

/-- The files that `process_exit` closes. -/
def closeFiles : List File → Kern Unit
  | [] => return
  | f :: fds => do
    ofFs (fileClose (some f))
    closeFiles fds

/-- `process_exit`, before its semaphores. -/
def processExit : Kern Unit := do
  closeFiles (← Prog.perform KOp.fds)
  let m ← Prog.perform (KOp.fs .getMem)
  ofFs (dirClose m.cwd)

/-- `exit` -/
def exit : Kern Unit := do
  printf
  processExit

/-- `kill`, with the lines of `intr_dump_frame`. -/
def kill : Kern Unit := do
  printf
  printf
  printf
  printf
  printf
  printf
  processExit

/-! ## Processes side by side -/

/-- What the processes share, and the memory of each. -/
structure Shared where
  holder : Lock → Option ℕ
  consoleLockDepth : ℕ
  memory : ℕ → UserMemory

/-- A store to the memory of process `i`. -/
def Shared.store (s : Shared) (i : ℕ) (va : Word) (b : UInt8) : Shared :=
  let m := s.memory i
  { s with memory := Function.update s.memory i { m with byte := Function.update m.byte va b } }

/-- The admitted answers of an operation of process `i`.  `lock_acquire` answers when the lock is free;
on a lock that the thread holds its assertion fails. -/
def effect (i : ℕ) : Prog.Effect KOp KOp.Ans Shared
  | .lockAcquire l, s, x, s' =>
    (s.holder l = none ∧ x = true ∧ s' = { s with holder := Function.update s.holder l (some i) }) ∨
      (s.holder l = some i ∧ x = false ∧ s' = s)
  | .lockRelease l, s, x, s' =>
    (s.holder l = some i ∧ x = true ∧ s' = { s with holder := Function.update s.holder l none }) ∨
      (s.holder l ≠ some i ∧ x = false ∧ s' = s)
  | .acquireConsole, s, _, s' =>
    (s.holder .console = some i ∧ s' = { s with consoleLockDepth := s.consoleLockDepth + 1 }) ∨
      (s.holder .console = none ∧
        s' = { s with holder := Function.update s.holder .console (some i) })
  | .releaseConsole, s, x, s' =>
    (0 < s.consoleLockDepth ∧ x = true ∧
        s' = { s with consoleLockDepth := s.consoleLockDepth - 1 }) ∨
      (s.consoleLockDepth = 0 ∧ s.holder .console = some i ∧ x = true ∧
        s' = { s with holder := Function.update s.holder .console none }) ∨
      (s.consoleLockDepth = 0 ∧ s.holder .console ≠ some i ∧ x = false ∧ s' = s)
  | .loadByte va, s, x, s' =>
    x = (if (s.memory i).readable va then some ((s.memory i).byte va) else none) ∧ s' = s
  | .storeByte va b, s, x, s' =>
    x = (s.memory i).writable va ∧
      s' = if (s.memory i).writable va then s.store i va b else s
  | _, s, _, s' => s' = s

/-- Where a process is: in its program, in a system call, on its way out through `exit` or
`thread_exit`, or terminated. -/
inductive Thread
  | user
  | inCall (p : Kern Word)
  | exiting (p : Kern Unit)
  | terminated

/-- The whole machine. -/
structure System where
  shared : Shared
  thread : ℕ → Thread
  halted : Bool

namespace System

def setThread (s : System) (i : ℕ) (t : Thread) : System :=
  { s with thread := Function.update s.thread i t }

end System

/-- What a step is. -/
inductive Act
  /-- The process changes its memory, or `page_fault` grows its stack. -/
  | run (m : UserMemory)
  | call (c : Call)
  /-- The process exits, or the handler or a fault in its program calls `exit`. -/
  | exit
  /-- Another exception in its program. -/
  | kill
  | op (o : KOp) (x : o.Ans)
  | returns
  /-- `exit` is called in the kernel. -/
  | exitCalled
  | panic
  | terminate

/-- `Step s (i, a) s'`: process `i` takes the step `a`. -/
inductive Step : System → ℕ × Act → System → Prop
  | run {s : System} {i : ℕ} (m : UserMemory) (hh : s.halted = false) (h : s.thread i = .user) :
      Step s (i, .run m)
        { s with shared := { s.shared with memory := Function.update s.shared.memory i m } }
  | call {s : System} {i : ℕ} (c : Call) (hh : s.halted = false) (h : s.thread i = .user) :
      Step s (i, .call c) (s.setThread i (.inCall c.body))
  | exit {s : System} {i : ℕ} (hh : s.halted = false) (h : s.thread i = .user) :
      Step s (i, .exit) (s.setThread i (.exiting Locks.exit))
  | kill {s : System} {i : ℕ} (hh : s.halted = false) (h : s.thread i = .user) :
      Step s (i, .kill) (s.setThread i (.exiting Locks.kill))
  | callOp {s : System} {i : ℕ} {o : KOp} {k : o.Ans → Kern Word} {x : o.Ans} {t : Shared}
      (hh : s.halted = false) (h : s.thread i = .inCall (.call o k)) (hx : effect i o s.shared x t) :
      Step s (i, .op o x) { s.setThread i (.inCall (k x)) with shared := t }
  | exitOp {s : System} {i : ℕ} {o : KOp} {k : o.Ans → Kern Unit} {x : o.Ans} {t : Shared}
      (hh : s.halted = false) (h : s.thread i = .exiting (.call o k)) (hx : effect i o s.shared x t) :
      Step s (i, .op o x) { s.setThread i (.exiting (k x)) with shared := t }
  | returns {s : System} {i : ℕ} {v : Word} (hh : s.halted = false)
      (h : s.thread i = .inCall (.ret v)) : Step s (i, .returns) (s.setThread i .user)
  | exitInCall {s : System} {i : ℕ} (hh : s.halted = false) (h : s.thread i = .inCall (.stop .exit)) :
      Step s (i, .exitCalled) (s.setThread i (.exiting Locks.exit))
  /-- The rest of the descriptors is closed by the second `process_exit`. -/
  | exitInExit {s : System} {i : ℕ} (hh : s.halted = false)
      (h : s.thread i = .exiting (.stop .exit)) :
      Step s (i, .exitCalled) (s.setThread i (.exiting Locks.exit))
  | panicInCall {s : System} {i : ℕ} (hh : s.halted = false)
      (h : s.thread i = .inCall (.stop .panic)) : Step s (i, .panic) { s with halted := true }
  | panicInExit {s : System} {i : ℕ} (hh : s.halted = false)
      (h : s.thread i = .exiting (.stop .panic)) : Step s (i, .panic) { s with halted := true }
  | terminate {s : System} {i : ℕ} (hh : s.halted = false) (h : s.thread i = .exiting (.ret ())) :
      Step s (i, .terminate) (s.setThread i .terminated)

/-- Every process is in its program, and no lock is held. -/
structure System.Start (s : System) : Prop where
  user : ∀ i, s.thread i = .user
  free : ∀ l, s.shared.holder l = none
  depth : s.shared.consoleLockDepth = 0
  running : s.halted = false

end Pintos.Userprog.Locks
