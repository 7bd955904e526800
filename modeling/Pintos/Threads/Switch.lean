import Mathlib.Tactic
import Pintos.Library.Coroutines
import Pintos.Library.StackMachine

/-!
# Switching threads

`threads/switch.S`, and the part of `threads/thread.c` around it: `thread_create`, `schedule`, `thread_schedule_tail` and
what calls them, with `process_activate` and the end of `process_exit`.

* A thread that is not running is what `switch_threads` or `thread_create` has left on its stack (`Saved`).
* Between two calls of the scheduler the running thread does anything, as long as it spares these few words of each other
  thread, and the `stack` member that says where they are (`Spares`).
-/

namespace Pintos.Threads.Switch

open StackMachine StackMachine.Reg

/-! ## The code -/

/-- `PGSIZE` -/
abbrev pgsize : ℕ := 4096

/-- What the linker and the compiler know: where `stack` is in a `struct thread`, which leaves room for the stack of a new
thread, the addresses of two functions, and the one behind the call of `thread_schedule_tail` in the first of them. -/
structure Layout where
  threadStackOfs : ℕ
  switchEntry : ℕ
  tailReturn : ℕ
  kernelThread : ℕ
  small : threadStackOfs + 48 ≤ pgsize

/-- `enum thread_status` -/
inductive Status
  | running
  | ready
  | blocked
  | dying
  deriving DecidableEq

/-- How far a thread is in `load` or `process_exit`. -/
inductive Stage
  | outside
  /-- `t->pagedir` is there, but `process_activate` has not been called. -/
  | loading
  /-- `cur->pagedir` is `NULL`, and `pd` is what it was. -/
  | dropped (pd : ℕ)
  /-- After `pagedir_activate (NULL)`. -/
  | deactivated (pd : ℕ)
  deriving DecidableEq

inductive Panic
  | notAThread
  | noThread
  | notBlocked
  | prevIsCur
  | freeTwice
  | destroyBase
  deriving DecidableEq

/-- `threads` and `dirs` are the pages that hold a `struct thread` or a page directory. -/
structure Kernel where
  cpu : Cpu
  status : ℕ → Status
  readyList : List ℕ
  idleThread : Option ℕ
  initialThread : ℕ
  threads : Finset ℕ
  pagedir : ℕ → Option ℕ
  stage : ℕ → Stage
  dirs : Finset ℕ
  initPageDir : ℕ
  cr3 : ℕ
  esp0 : ℕ
  failure : Option Panic

/-- The first half of `switch_threads`: the caller's registers, and where they are. -/
def saveCaller (L : Layout) : List StackMachine.Instr :=
  [.pushl ebx, .pushl ebp, .pushl esi, .pushl edi, .movl L.threadStackOfs edx, .load 20 esp eax, .storeIndexed esp eax edx]

/-- The second half of `switch_threads`, which ends on the other stack. -/
def restoreCaller : List StackMachine.Instr :=
  [.load 24 esp ecx, .loadIndexed ecx edx esp, .popl edi, .popl esi, .popl ebp, .popl ebx, .ret]

/-- `switch_threads` -/
def switchThreads (L : Layout) : List StackMachine.Instr := saveCaller L ++ restoreCaller

/-- `switch_threads (cur, next)`, called from C with the return address `ret`. -/
def callSwitchThreads (L : Layout) (cur next ret : ℕ) (c : Cpu) : Cpu :=
  (((c.push next).push cur).push ret).run (switchThreads L)

/-- `switch_entry`, up to the call of `thread_schedule_tail` -/
def callTail (L : Layout) (c : Cpu) : Cpu := (c.run [.addl 8 esp, .pushl eax]).push L.tailReturn

/-- `switch_entry`, from the return of `thread_schedule_tail` on -/
def returnTail : List StackMachine.Instr := [.ret, .addl 4 esp, .ret]

/-- `pg_round_down` of the stack pointer -/
def runningThread (c : Cpu) : ℕ := c.reg esp / pgsize * pgsize

/-- The page of a new thread. -/
def newPage (L : Layout) (t function aux : ℕ) (mem : ℕ → ℕ) : ℕ → ℕ :=
  let kf := t + pgsize - 12
  let ef := kf - 4
  let sf := ef - 28
  let mem := fun a => if a / pgsize * pgsize = t then 0 else mem a
  let mem := Function.update (Function.update (Function.update mem kf 0) (kf + 4) function) (kf + 8) aux
  let mem := Function.update mem ef L.kernelThread
  let mem := Function.update (Function.update mem (sf + 16) L.switchEntry) (sf + 8) 0
  Function.update mem (t + L.threadStackOfs) sf

namespace Kernel

variable (s : Kernel)

/-- The thread that is running. -/
def current : ℕ := runningThread s.cpu

def fail (p : Panic) : Kernel := { s with failure := some p }

def withCpu (c : Cpu) : Kernel := { s with cpu := c }

def setStatus (t : ℕ) (st : Status) : Kernel := { s with status := Function.update s.status t st }

/-- `pagedir_activate` -/
def pagedirActivate (pd : Option ℕ) : Kernel := { s with cr3 := pd.getD s.initPageDir }

/-- `tss_update` -/
def tssUpdate : Kernel := { s with esp0 := s.current + pgsize }

/-- `process_activate` -/
def processActivate : Kernel := (s.pagedirActivate (s.pagedir s.current)).tssUpdate

/-- `palloc_free_page` of a thread -/
def freeThread (t : ℕ) : Kernel :=
  if t ∈ s.threads then { s with threads := s.threads.erase t } else s.fail .freeTwice

/-- `thread_schedule_tail` -/
def threadScheduleTail (prev : ℕ) : Kernel :=
  let cur := s.current
  let s := (s.setStatus cur .running).processActivate
  if prev ≠ 0 ∧ s.status prev = .dying ∧ prev ≠ s.initialThread then
    if prev ≠ cur then s.freeThread prev else s.fail .prevIsCur
  else s

/-- `next_thread_to_run`, and what is left in the run queue -/
def nextThreadToRun : Option (ℕ × List ℕ) :=
  match s.readyList with
  | [] => s.idleThread.map fun t => (t, [])
  | t :: ts => some (t, ts)

/-- Behind `switch_threads`: the rest of `schedule`, or `switch_entry` on the stack of a new thread. -/
def switched (L : Layout) : Kernel :=
  if s.cpu.eip = L.switchEntry then
    let s := s.withCpu (callTail L s.cpu)
    let s := s.threadScheduleTail (s.cpu.mem (s.cpu.reg esp + 4))
    s.withCpu (s.cpu.run returnTail)
  else s.threadScheduleTail (s.cpu.reg eax)

/-- `schedule`; `ret` is the return address of its call of `switch_threads`. -/
def schedule (L : Layout) (ret : ℕ) : Kernel :=
  match s.nextThreadToRun with
  | none => s.fail .noThread
  | some (next, rest) =>
    let s := { s with readyList := rest }
    if s.current ≠ next then (s.withCpu (callSwitchThreads L s.current next ret s.cpu)).switched L
    else s.threadScheduleTail 0

/-- `list_push_back` or `list_insert_ordered` into the run queue; `i` is the place that it finds. -/
def insertReady (t i : ℕ) : Kernel := { s with readyList := s.readyList.take i ++ t :: s.readyList.drop i }

/-- `thread_block` -/
def threadBlock (L : Layout) (ret : ℕ) : Kernel := (s.setStatus s.current .blocked).schedule L ret

/-- `thread_unblock` -/
def threadUnblock (t i : ℕ) : Kernel :=
  if t ∉ s.threads then s.fail .notAThread
  else if s.status t ≠ .blocked then s.fail .notBlocked
  else (s.insertReady t i).setStatus t .ready

/-- `thread_yield`, before `schedule` -/
def readyCurrent (i : ℕ) : Kernel :=
  (if s.idleThread ≠ some s.current then s.insertReady s.current i else s).setStatus s.current .ready

/-- `thread_yield` -/
def threadYield (L : Layout) (ret i : ℕ) : Kernel := (s.readyCurrent i).schedule L ret

/-- `thread_exit`, behind `process_exit` -/
def threadExit (L : Layout) (ret : ℕ) : Kernel := (s.setStatus s.current .dying).schedule L ret

/-- `thread_create`, before `thread_unblock`, when `palloc_get_page` gives the page `t` -/
def newThread (L : Layout) (t function aux : ℕ) : Kernel :=
  { s with
    cpu := { s.cpu with mem := newPage L t function aux s.cpu.mem }
    threads := insert t s.threads
    status := Function.update s.status t .blocked
    pagedir := Function.update s.pagedir t none
    stage := Function.update s.stage t .outside }

/-- `thread_create` -/
def threadCreate (L : Layout) (t function aux i : ℕ) : Kernel := (s.newThread L t function aux).threadUnblock t i

/-- `t->pagedir = pagedir_create ()` in `load` -/
def createPagedir (pd : ℕ) : Kernel :=
  { s with
    dirs := insert pd s.dirs
    pagedir := Function.update s.pagedir s.current (some pd)
    stage := Function.update s.stage s.current .loading }

/-- The call of `process_activate` in `load` -/
def activate : Kernel := { s.processActivate with stage := Function.update s.stage s.current .outside }

/-- `cur->pagedir = NULL` in `process_exit`, when it was `pd` -/
def dropPagedir (pd : ℕ) : Kernel :=
  { s with
    pagedir := Function.update s.pagedir s.current none
    stage := Function.update s.stage s.current (.dropped pd) }

/-- `pagedir_activate (NULL)` in `process_exit` -/
def activateBase (pd : ℕ) : Kernel :=
  { s.pagedirActivate none with stage := Function.update s.stage s.current (.deactivated pd) }

/-- `pagedir_destroy (pd)` in `process_exit` -/
def destroyPagedir (pd : ℕ) : Kernel :=
  if pd = s.initPageDir then s.fail .destroyBase
  else if pd ∉ s.dirs then s.fail .freeTwice
  else { s with dirs := s.dirs.erase pd, stage := Function.update s.stage s.current .outside }

end Kernel

/-! ## The page of the stack -/

theorem runningThread_eq {c : Cpu} {t : ℕ} (hpage : pgsize ∣ t) (hlow : t ≤ c.reg esp) (hhigh : c.reg esp < t + pgsize) :
    runningThread c = t := by
  change 4096 ∣ t at hpage
  change c.reg esp < t + 4096 at hhigh
  show c.reg esp / 4096 * 4096 = t
  omega

theorem current_dvd (s : Kernel) : pgsize ∣ s.current := Dvd.intro_left _ rfl

theorem current_le (s : Kernel) : s.current ≤ s.cpu.reg esp := Nat.div_mul_le_self _ _

theorem lt_current (s : Kernel) : s.cpu.reg esp < s.current + pgsize := by
  have hlt := Nat.lt_div_mul_add (a := s.cpu.reg esp) (show 0 < pgsize by decide)
  exact hlt

attribute [irreducible] runningThread

/-! ## Runs -/

/-- The words that keep the thread `t`: its `stack` member, and the frame there. -/
def Guarded (L : Layout) (mem : ℕ → ℕ) (t a : ℕ) : Prop :=
  a = t + L.threadStackOfs ∨ mem (t + L.threadStackOfs) ≤ a ∧
    (a < mem (t + L.threadStackOfs) + 20 ∨ mem (mem (t + L.threadStackOfs) + 16) = L.switchEntry ∧ a < t + pgsize)

/-- The memory `mem` has the words of the threads that are not running. -/
def Kernel.Spares (L : Layout) (s : Kernel) (mem : ℕ → ℕ) : Prop :=
  ∀ t ∈ s.threads, t ≠ s.current → ∀ a, Guarded L s.cpu.mem t a → mem a = s.cpu.mem a

/-- There is room on the stack for a call of `switch_threads`, above the members of `struct thread`. -/
def Roomy (L : Layout) (c : Cpu) : Prop :=
  runningThread c + L.threadStackOfs + 32 ≤ c.reg esp ∧ 4 ∣ c.reg esp

/-- What happens next; `ret` is where `switch_threads` is called. -/
inductive Event
  /-- The running thread does something. -/
  | work (c : Cpu)
  | create (t function aux i : ℕ)
  | unblock (t i : ℕ)
  | block (ret : ℕ)
  | yield (ret i : ℕ)
  | exit (ret : ℕ)
  /-- `idle_thread = thread_current ()` in `idle` -/
  | idle
  | createPagedir (pd : ℕ)
  | activate
  | dropPagedir
  | activateBase
  | destroyPagedir

/-- A page that nobody has. -/
def Kernel.Free (s : Kernel) (p : ℕ) : Prop :=
  pgsize ∣ p ∧ 0 < p ∧ p ∉ s.threads ∧ p ∉ s.dirs ∧ p ≠ s.initPageDir

/-- The step `e`, as the program has it: the idle thread does not end, a page directory comes before `process_activate` and
goes in three steps, and a thread that ends has none. -/
inductive Step (L : Layout) (s : Kernel) : Event → Kernel → Prop
  | work (c : Cpu) (hstack : runningThread c = s.current) (hspares : s.Spares L c.mem) :
    Step L s (.work c) (s.withCpu c)
  | create (t function aux i : ℕ) (hfree : s.Free t) : Step L s (.create t function aux i) (s.threadCreate L t function aux i)
  | unblock (t i : ℕ) : Step L s (.unblock t i) (s.threadUnblock t i)
  | block (ret : ℕ) (hroom : Roomy L s.cpu) (hret : ret ≠ L.switchEntry) : Step L s (.block ret) (s.threadBlock L ret)
  | yield (ret i : ℕ) (hroom : Roomy L s.cpu) (hret : ret ≠ L.switchEntry) : Step L s (.yield ret i) (s.threadYield L ret i)
  | exit (ret : ℕ) (hroom : Roomy L s.cpu) (hret : ret ≠ L.switchEntry) (hidle : s.idleThread ≠ some s.current)
    (hstage : s.stage s.current = .outside) (hpd : s.pagedir s.current = none) :
    Step L s (.exit ret) (s.threadExit L ret)
  | idle (hnone : s.idleThread = none) : Step L s .idle { s with idleThread := some s.current }
  | createPagedir (pd : ℕ) (hfree : s.Free pd) (hstage : s.stage s.current = .outside) (hpd : s.pagedir s.current = none) :
    Step L s (.createPagedir pd) (s.createPagedir pd)
  | activate (hstage : s.stage s.current = .loading) : Step L s .activate s.activate
  | dropPagedir (pd : ℕ) (hstage : s.stage s.current = .outside) (hpd : s.pagedir s.current = some pd) :
    Step L s .dropPagedir (s.dropPagedir pd)
  | activateBase (pd : ℕ) (hstage : s.stage s.current = .dropped pd) : Step L s .activateBase (s.activateBase pd)
  | destroyPagedir (pd : ℕ) (hstage : s.stage s.current = .deactivated pd) :
    Step L s .destroyPagedir (s.destroyPagedir pd)

end Pintos.Threads.Switch
