import Pintos.Filesys.Mount
import Pintos.Library.Trace
import Pintos.Userprog.Load

/-!
# Processes and the inodes they use

What `userprog/process.c` and `userprog/syscall.c` do with inodes: `process_execute` opens the executable
and drops the pointer, `load` opens it again, reads it and closes it, a new process gets a working directory
of its own, the system calls open and close descriptors and change the working directory, and
`process_exit` closes what is left.

A step is one call of one process.  The functions of `filesys/` look at the current thread for one thing
only, its working directory; so a call runs on the world with the working directory of its process.  An
allocation may fail at any point; where this makes the kernel access a null pointer, the process ends
(`Step.fault`).  Left out are a failure of `thread_create`, and such an access while a process closes what
it holds.
-/

namespace Pintos.Userprog.ProcessFiles

open Pintos.Filesys

/-- `struct Fd` -/
structure Fd where
  num : ℤ
  file : File
  dir : Option Dir

/-- Where a process is.  In `start_process`: before `load`, and before the inheritance of the working
directory, which ends with the `sema_up` of `wait_load`.  `waiting` is a parent at `sema_down` of
`wait_load`; `dying` is before `process_exit`. -/
inductive Stage
  | starting (parent : ℕ) (cmd : List UInt8)
  | loaded (parent : ℕ) (success : Bool)
  | running
  | waiting (child : ℕ)
  | dying
  | exited
  deriving DecidableEq

/-- A process: fields of its `struct thread`, the sector of the inode that its program has been loaded from,
and, by address, what the calls on its behalf have added to the `open_cnt` of every inode. -/
structure Process where
  name : List UInt8
  stage : Stage
  executable : Option ℕ
  fds : List Fd
  cwd : Option Dir
  taken : ℕ → ℤ

/-- The file system and the processes in the order of their creation; the first is the initial thread. -/
structure Processes where
  world : World
  procs : List Process

/-! ## The calls -/

/-- The part of a command line that `process_execute` and `load` take for the name of the file. -/
def command (cmd : List UInt8) : List UInt8 := cmd.takeWhile (· ≠ 32)

/-- `strlcpy (t->name, name, sizeof t->name)` -/
def threadName (name : List UInt8) : List UInt8 := name.take 15

/-- The reads of `load` behind the one of the executable header.  Where and how much it reads depends on the
program headers and on the memory that is left; here any reads are possible. -/
def readSegments (file : File) : List (ℤ × ℤ) → Fs Unit
  | [] => return
  | (pos, size) :: reads => do
    let file ← Filesys.fileSeek file pos
    let (_, file) ← Filesys.fileRead file size
    readSegments file reads

/-- `load`, as far as it works on files: the sector of the executable where it returns true.  `success`
says whether it does so for all that comes behind the executable header. -/
def load (cmd : List UInt8) (reads : List (ℤ × ℤ)) (success : Bool) : Fs (Option ℕ) := do
  -- `pagedir_create`
  if ← malloc then
    match ← filesysOpen (command cmd) with
    | none => return none
    | some file =>
      let (header, file) ← Filesys.fileRead file 52
      if header.length = 52 ∧ (Elf32Ehdr.ofBytes (Bytes.overlay header fun _ => 0)).valid then
        readSegments file reads
        let sector ← inodeGetInumber file.inode
        fileClose (some file)
        return if success then some sector else none
      else
        fileClose (some file)
        return none
  else return none

/-- `open`: the file and the directory of the new descriptor.  The name of the file is compared with that of
the thread. -/
def openFd (threadName file : List UInt8) : Fs (Option (File × Option Dir)) := do
  -- the page of the `struct Fd`
  if ← malloc then
    match ← filesysOpen file with
    | none => return none
    | some fnew =>
      let fnew ← if file = threadName then fileDenyWrite fnew else pure fnew
      if ← isInodeDir fnew.inode then
        let dir ← dirOpen (← inodeReopen (some fnew.inode))
        return some (fnew, dir)
      else return some (fnew, none)
  else return none

/-- The number of a new descriptor. -/
def newNum (fds : List Fd) : ℤ :=
  match fds.getLast? with
  | none => 3
  | some fd => fd.num + 1

/-- `get_file (num, F | D)` -/
def getFd (fds : List Fd) (num : ℤ) : Option Fd := fds.find? fun fd => fd.num = num

/-- `get_file (num, F)` -/
def getFile (fds : List Fd) (num : ℤ) : Option Fd := fds.find? fun fd => fd.num = num ∧ fd.dir = none

/-- The descriptors with the position in a file moved. -/
def putFile (fds : List Fd) (num : ℤ) (file : File) : List Fd :=
  fds.map fun fd => if fd.num = num ∧ fd.dir = none then { fd with file := file } else fd

/-- The working directory of a new process, given that of its parent. -/
def inheritCwd : Option Dir → Fs (Option Dir)
  | some cwd => dirReopen cwd
  | none => dirOpenRoot

/-- The loop of `process_exit` over the descriptors: only their files are closed. -/
def closeFiles : List Fd → Fs Unit
  | [] => return
  | fd :: fds => do
    fileClose (some fd.file)
    closeFiles fds

/-- `process_exit` -/
def processExit (fds : List Fd) : Fs Unit := do
  closeFiles fds
  let m ← getMem
  dirClose m.cwd

def setCwd (cwd : Option Dir) : Fs Unit := do
  let m ← getMem
  setMem { m with cwd := cwd }

/-- What a process does on its own.  `exit` stands for the system call and for a fault of the program;
`inherit` is given the working directory of the parent. -/
inductive Act
  | load (reads : List (ℤ × ℤ)) (success : Bool)
  | inherit (cwd : Option Dir)
  | «open» (file : List UInt8)
  | close (num : ℤ)
  | chdir (dir : List UInt8)
  | read (num size : ℤ)
  | write (num : ℤ) (buffer : ℕ → UInt8) (size : ℤ)
  | seek (num position : ℤ)
  | exit
  | cleanup

/-- What the kernel runs for it, and the process afterwards. -/
def Act.body : Act → Process → Fs Process
  | .load reads success, p => do
    match p.stage with
    | .starting parent cmd =>
      let executable ← ProcessFiles.load cmd reads success
      return { p with executable := executable, stage := .loaded parent executable.isSome }
    | _ => return p
  | .inherit cwd, p => do
    setCwd (← inheritCwd cwd)
    return { p with stage := if p.executable.isSome then .running else .dying }
  | .open file, p => do
    match ← openFd p.name file with
    | none => return p
    | some (fnew, dir) => return { p with fds := p.fds ++ [⟨newNum p.fds, fnew, dir⟩] }
  | .close num, p =>
    match getFd p.fds num with
    | none => return { p with stage := .dying }
    | some fd => do
      fileClose (some fd.file)
      dirClose fd.dir
      return { p with fds := p.fds.eraseP fun fd => fd.num = num }
  | .chdir dir, p => do
    let _ ← filesysChdir dir
    return p
  | .read num size, p =>
    match getFile p.fds num with
    | none => return p
    | some fd => do
      let (_, file) ← Filesys.fileRead fd.file size
      return { p with fds := putFile p.fds num file }
  | .write num buffer size, p =>
    match getFile p.fds num with
    | none => return p
    | some fd => do
      let (_, file) ← fileWrite fd.file buffer size
      return { p with fds := putFile p.fds num file }
  | .seek num position, p =>
    match getFile p.fds num with
    | none => return p
    | some fd => do
      let file ← Filesys.fileSeek fd.file position
      return { p with fds := putFile p.fds num file }
  | .exit, p => return { p with stage := .dying }
  | .cleanup, p => do
    processExit p.fds
    -- nobody looks at the pointer again
    setCwd none
    return { p with fds := [], stage := .exited }

/-- The part of a call in which the process holds on to all that it has: if the kernel faults there, the
process ends. -/
def Act.entry : Act → Process → Fs Unit
  | .load reads success, p => do
    match p.stage with
    | .starting _ cmd =>
      let _ ← ProcessFiles.load cmd reads success
      return
    | _ => return
  | .open file, p => do
    let _ ← openFd p.name file
    return
  | .chdir dir, _ => do
    let _ ← makePath dir
    return
  | _, _ => return

/-! ## The steps -/

/-- The `open_cnt` of the inode at an address; a freed one has none. -/
def opened (m : Mem) (q : ℕ) : ℤ := ((m.heap q).map Inode.openCnt).getD 0

/-- What ends a process that the kernel runs for: `exit`, or a fault. -/
def EndsProcess (e : Stop) : Prop := e = .pageFault ∨ ∃ status, e = .exit status

/-- The world as process `p` sees it. -/
def seenBy (w : World) (p : Process) : World :=
  { w with mem := { w.mem with cwd := p.cwd } }

namespace Processes

/-- The state after a call of process `k` that has led to `w`. -/
def put (s : Processes) (k : ℕ) (p : Process) (w : World) : Processes where
  world := w
  procs := s.procs.set k
    { p with cwd := w.mem.cwd, taken := p.taken + (opened w.mem - opened s.world.mem) }

/-- The process that `process_execute` creates. -/
def child (s : Processes) (k : ℕ) (cmd : List UInt8) (w : World) : Process where
  name := threadName (command cmd)
  stage := .starting k cmd
  executable := none
  fds := []
  cwd := none
  taken := opened w.mem - opened s.world.mem

/-- When a process may do something: `start_process` and `process_exit` have their order, a system call
needs a program that runs, and a parent stays at `wait_load` until its child has passed it. -/
def Enabled (s : Processes) (k : ℕ) (p : Process) : Act → Prop
  | .load _ _ => ∃ parent cmd, p.stage = .starting parent cmd
  | .inherit cwd => ∃ parent success q, p.stage = .loaded parent success ∧
      s.procs[parent]? = some q ∧ q.stage = .waiting k ∧ q.cwd = cwd
  | .cleanup => p.stage = .dying
  | _ => p.stage = .running ∧ p.executable.isSome

inductive Label
  | execute (cmd : List UInt8)
  | act (a : Act)
  | fault (a : Act)
  | resume

/-- A step of process `k`. -/
inductive Step : Processes → ℕ × Label → Processes → Prop
  | act {s : Processes} {k : ℕ} {p p' : Process} {a : Act} {w : World} (hp : s.procs[k]? = some p)
      (ha : s.Enabled k p a) (hr : Runs .any (a.body p) (seenBy s.world p) (.ok p') w) :
      Step s (k, .act a) (s.put k p' w)
  | fault {s : Processes} {k : ℕ} {p : Process} {a : Act} {e : Stop} {w : World}
      (hp : s.procs[k]? = some p) (ha : s.Enabled k p a)
      (hr : Runs .any (a.entry p) (seenBy s.world p) (.error e) w) (he : EndsProcess e) :
      Step s (k, .fault a) (s.put k { p with stage := .dying } w)
  /-- `process_execute` finds no file. -/
  | executeNone {s : Processes} {k : ℕ} {p : Process} {cmd : List UInt8} {w : World}
      (hp : s.procs[k]? = some p) (h : p.stage = .running)
      (hr : Runs .any (filesysOpen (command cmd)) (seenBy s.world p) (.ok none) w) :
      Step s (k, .execute cmd) (s.put k p w)
  /-- `process_execute` finds a file, forgets it and creates a thread. -/
  | execute {s : Processes} {k : ℕ} {p : Process} {cmd : List UInt8} {f : File} {w : World}
      (hp : s.procs[k]? = some p) (h : p.stage = .running)
      (hr : Runs .any (filesysOpen (command cmd)) (seenBy s.world p) (.ok (some f)) w) :
      Step s (k, .execute cmd)
        ⟨w, s.procs.set k { p with stage := .waiting s.procs.length } ++ [s.child k cmd w]⟩
  /-- The child has done its `sema_up` of `wait_load`. -/
  | resume {s : Processes} {k c : ℕ} {p q : Process} (hp : s.procs[k]? = some p)
      (h : p.stage = .waiting c) (hq : s.procs[c]? = some q)
      (hstart : ∀ parent cmd, q.stage ≠ .starting parent cmd)
      (hload : ∀ parent success, q.stage ≠ .loaded parent success) :
      Step s (k, .resume) ⟨s.world, s.procs.set k { p with stage := .running }⟩

/-- The initial thread, `"main"`. -/
def main : Process where
  name := [109, 97, 105, 110]
  stage := .running
  executable := none
  fds := []
  cwd := none
  taken := 0

/-- The machine has booted, and no process has been created yet. -/
structure Boot (s : Processes) : Prop where
  init : ∃ w₀ format, Blank w₀ ∧ Runs .any (filesysInit format) w₀ (.ok ()) s.world
  procs : s.procs = [main]

end Processes

end Pintos.Userprog.ProcessFiles
