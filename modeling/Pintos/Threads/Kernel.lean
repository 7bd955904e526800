import Mathlib.Logic.Function.Basic
import Pintos.Library.Trace
import Pintos.Threads.FixedPoint
import Pintos.Threads.Semaphore

/-!
# The kernel without `USERPROG`

`threads/thread.c`, the semaphores and locks of `threads/synch.c`, and `timer_sleep` and the timer interrupt of
`devices/timer.c`, as they are compiled for the kernel that only has threads of its own.

A section with interrupts off is one step, up to the call of `schedule`; the rest of it is the first step of the
thread when it is scheduled again.  A thread is the address of its page: `thread_create` gets a page that no
thread is in, and `thread_exit` gives it back.  A function is `none` where an assertion fails.

`smallest_tick` is `static` in `threads/thread.h`: `thread.c` and `timer.c` have one each.
-/

namespace Pintos.Threads

/-- What a thread does next when it runs.  With none of these it goes on with its own function. -/
inductive Instr
  /-- `lock_acquire`, up to `sema_down`. -/
  | acquire (l : ℕ)
  | down (s : ℕ)
  /-- The loop of `sema_down` after a wait; interrupts are off. -/
  | retest (s : ℕ)
  /-- `lock->holder = thread_current ()` -/
  | hold (l : ℕ)
  /-- `lock_release`, up to `sema_up`. -/
  | release (l : ℕ)
  | up (s : ℕ)
  /-- `thread_create`, from `thread_unblock (t)` on. -/
  | unblock (t : ℕ)
  /-- `thread_create`: `if (thread_get_priority () < t->priority)`. -/
  | check (t : ℕ)
  /-- `timer_sleep`, after it has read the clock. -/
  | sleep (start ticks : ℤ)
  /-- `idle`: `idle_thread = thread_current ()`. -/
  | startIdle
  /-- The loop of `idle`. -/
  | idleLoop
  deriving DecidableEq

/-- The state of the kernel.  A member of `struct thread` is a function of the thread. -/
structure Kernel where
  status : ℕ → ThreadStatus
  priority : ℕ → ℤ
  wakeT : ℕ → ℤ
  nice : ℕ → ℤ
  recentCpu : ℕ → ℤ
  control : ℕ → List Instr
  allList : List ℕ
  readyList : List ℕ
  blockList : List ℕ
  sema : ℕ → Semaphore
  /-- The `holder` of a lock, the semaphore of which is the one of the same number. -/
  holder : ℕ → Option ℕ
  /-- `running_thread ()` -/
  current : ℕ
  idleThread : Option ℕ
  ticks : ℤ
  threadTicks : ℕ
  /-- `smallest_tick` of `thread.c`. -/
  smallestTick : ℤ
  /-- `smallest_tick` of `timer.c`. -/
  timerSmallestTick : ℤ
  loadAvg : ℤ
  /-- `thread_mlfqs` -/
  mlfqs : Bool
  /-- `thread_prior_aging` -/
  aging : Bool
  /-- How often `schedule` has chosen a thread; no code reads it. -/
  choices : ℕ

/-- The thread of `main`. -/
def initialThread : ℕ := 0

/-- The thread that `thread_start` creates. -/
def firstCreated : ℕ := 1

/-- The semaphore of `tid_lock`. -/
def tidLock : ℕ := 0

/-- `idle_started` -/
def idleStarted : ℕ := 1

/-- `TIME_SLICE` -/
def timeSlice : ℕ := 4

/-- `TIMER_FREQ` -/
def timerFreq : ℤ := 100

/-- `INT64_MAX` -/
def int64Max : ℤ := 2 ^ 63 - 1

/-- The result of an operation on `int64_t`s. -/
def wrap64 (z : ℤ) : ℤ := Int.bmod z (2 ^ 64)

namespace Kernel

/-! ## Threads -/

def setStatus (k : Kernel) (t : ℕ) (st : ThreadStatus) : Kernel :=
  { k with status := Function.update k.status t st }

def setPriority (k : Kernel) (t : ℕ) (p : ℤ) : Kernel := { k with priority := Function.update k.priority t p }

def setRecentCpu (k : Kernel) (t : ℕ) (r : ℤ) : Kernel := { k with recentCpu := Function.update k.recentCpu t r }

def setControl (k : Kernel) (t : ℕ) (is : List Instr) : Kernel :=
  { k with control := Function.update k.control t is }

/-- The running thread has something to do first. -/
def first (k : Kernel) (is : List Instr) : Kernel := k.setControl k.current (is ++ k.control k.current)

/-- `list_insert_ordered (&ready_list, &t->elem, is_prior_larger, NULL)` -/
def insertReady (k : Kernel) (t : ℕ) : Kernel :=
  { k with readyList := listInsertOrdered (isPriorLarger k.priority) t k.readyList }

def setSema (k : Kernel) (s : ℕ) (m : Semaphore) : Kernel := { k with sema := Function.update k.sema s m }

/-- `thread_schedule_tail` in the thread `next`. -/
def scheduleTail (k : Kernel) (next : ℕ) : Kernel :=
  { k.setStatus next .running with current := next, threadTicks := 0, choices := k.choices + 1 }

/-- `schedule`, with `next_thread_to_run`. -/
def schedule (k : Kernel) : Option Kernel :=
  if k.status k.current = .running then none
  else
    match k.readyList with
    | [] => k.idleThread.map k.scheduleTail
    | t :: ts => some ({ k with readyList := ts }.scheduleTail t)

/-- `thread_block` -/
def threadBlock (k : Kernel) : Option Kernel := (k.setStatus k.current .blocked).schedule

/-- `thread_unblock` -/
def threadUnblock (k : Kernel) (t : ℕ) : Option Kernel :=
  if k.status t = .blocked then some ((k.insertReady t).setStatus t .ready) else none

/-- `thread_yield`, up to the call of `schedule`. -/
def requeue (k : Kernel) : Kernel :=
  (if some k.current = k.idleThread then k else k.insertReady k.current).setStatus k.current .ready

/-- `thread_yield` -/
def threadYield (k : Kernel) : Option Kernel := k.requeue.schedule

/-- `thread_exit` -/
def threadExit (k : Kernel) : Option Kernel :=
  ({ k with allList := k.allList.erase k.current }.setStatus k.current .dying).schedule

/-- `init_thread` in the page `t`. -/
def initThread (k : Kernel) (t : ℕ) (priority : ℤ) : Option Kernel :=
  if priMin ≤ priority ∧ priority ≤ priMax then
    some { k with
      status := Function.update k.status t .blocked
      priority := Function.update k.priority t priority
      wakeT := Function.update k.wakeT t 0
      nice := Function.update k.nice t (k.nice k.current)
      recentCpu := Function.update k.recentCpu t (k.recentCpu k.current)
      control := Function.update k.control t []
      allList := k.allList ++ [t] }
  else none

/-- `thread_create`, up to `allocate_tid`. -/
def threadCreate (k : Kernel) (t : ℕ) (priority : ℤ) : Option Kernel :=
  (k.initThread t priority).map fun k => k.first [.acquire tidLock, .release tidLock, .unblock t]

/-- `thread_set_priority` -/
def threadSetPriority (k : Kernel) (newPriority : ℤ) : Option Kernel :=
  if k.mlfqs then some k
  else if k.priority k.current > newPriority then (k.setPriority k.current newPriority).threadYield
  else some (k.setPriority k.current newPriority)

/-- `thread_set_nice` -/
def threadSetNice (k : Kernel) (nice : ℤ) : Checked Kernel := do
  let p ← feedbackPriority (k.recentCpu k.current) nice
  pure { k.setPriority k.current p with nice := Function.update k.nice k.current nice }

/-- `thread_get_load_avg` -/
def threadGetLoadAvg (k : Kernel) : Checked ℤ := hundredfold k.loadAvg

/-- `thread_get_recent_cpu` -/
def threadGetRecentCpu (k : Kernel) : Checked ℤ := hundredfold (k.recentCpu k.current)

/-! ## Semaphores -/

/-- The loop of `sema_down`. -/
def semaDown (k : Kernel) (s : ℕ) : Option Kernel :=
  match (k.sema s).down .threads k.priority k.current with
  | (true, m) => some (k.setSema s m)
  | (false, m) => ((k.setSema s m).first [.retest s]).threadBlock

/-- `sema_up`, up to `thread_yield`. -/
def wakeWaiter (k : Kernel) (s : ℕ) : Option Kernel :=
  match (k.sema s).up .threads k.priority with
  | (none, m) => some (k.setSema s m)
  | (some t, m) => (k.setSema s m).threadUnblock t

/-- `sema_up` -/
def semaUp (k : Kernel) (s : ℕ) : Option Kernel := (k.wakeWaiter s).bind threadYield

/-! ## The timer -/

/-- `update_smallest_tick` -/
def updateSmallestTick (k : Kernel) (ticks : ℤ) : Kernel :=
  { k with smallestTick := if k.smallestTick > ticks then ticks else k.smallestTick }

/-- `timer_sleep`, up to `thread_block`. -/
def fallAsleep (k : Kernel) (wakeT : ℤ) : Kernel :=
  { k.updateSmallestTick wakeT with
    wakeT := Function.update k.wakeT k.current wakeT
    blockList := k.blockList ++ [k.current] }

/-- `timer_sleep`, after the clock has been read. -/
def timerSleep (k : Kernel) (start ticks : ℤ) : Option Kernel :=
  if ticks ≤ 0 then some k else (k.fallAsleep (wrap64 (ticks + start))).threadBlock

/-- The loop of `wake_thread` over the rest of `block_list`. -/
def wakeLoop : List ℕ → Kernel → Option Kernel
  | [], k => some k
  | t :: ts, k =>
    if k.wakeT t ≤ k.ticks then ({ k with blockList := k.blockList.erase t }.threadUnblock t).bind (wakeLoop ts)
    else wakeLoop ts (k.updateSmallestTick (k.wakeT t))

/-- `wake_thread` -/
def wakeThread (k : Kernel) : Option Kernel :=
  wakeLoop k.blockList { k with timerSmallestTick := int64Max }

/-- A loop over a list of threads. -/
def forEach (f : ℕ → Kernel → Checked Kernel) : List ℕ → Kernel → Checked Kernel
  | [], k => pure k
  | t :: ts, k => f t k >>= forEach f ts

/-- `thread_aging` -/
def threadAging (k : Kernel) : Checked Kernel :=
  forEach (fun t k => do
    let p ← Checked.int (k.priority t + 1)
    pure (k.setPriority t p)) k.readyList k

/-- The number of threads that are ready or running. -/
def rdnum (k : Kernel) : ℤ := if some k.current = k.idleThread then k.readyList.length else k.readyList.length + 1

/-- `renew_load_avg` -/
def renewLoadAvg (k : Kernel) : Checked Kernel := do
  let a ← nextLoadAvg k.loadAvg k.rdnum
  pure { k with loadAvg := a }

/-- The body of the loop of `renew_recent_cpu`. -/
def renewRecentCpuOf (t : ℕ) (k : Kernel) : Checked Kernel :=
  if some t = k.idleThread then pure k
  else do
    let r ← nextRecentCpu k.loadAvg (k.recentCpu t) (k.nice t)
    pure (k.setRecentCpu t r)

/-- `renew_recent_cpu` -/
def renewRecentCpu (k : Kernel) : Checked Kernel := forEach renewRecentCpuOf k.allList k

/-- `renew_prior` -/
def renewPrior (k : Kernel) : Checked Kernel :=
  forEach (fun t k => do
    let p ← feedbackPriority (k.recentCpu t) (k.nice t)
    pure (k.setPriority t p)) k.allList k

/-- `t->recent_cpu = FAI (t->recent_cpu, 1)` -/
def countTick (k : Kernel) : Checked Kernel := do
  let r ← fai (k.recentCpu k.current) 1
  pure (k.setRecentCpu k.current r)

/-- What `thread_tick` does every second. -/
def renewUse (k : Kernel) : Checked Kernel :=
  if k.ticks.tmod timerFreq = 0 then k.renewLoadAvg >>= renewRecentCpu else pure k

/-- What it does in every fourth tick. -/
def renewOrder (k : Kernel) : Checked Kernel := if k.ticks.tmod 4 = 0 then k.renewPrior else pure k

/-- The part of `thread_tick` for `thread_mlfqs`. -/
def feedback (k : Kernel) : Checked Kernel := do
  let k ← k.countTick
  let k ← k.renewUse
  k.renewOrder

/-- The part of `thread_tick` for the priorities. -/
def renew (k : Kernel) : Checked Kernel :=
  if k.aging then k.threadAging else if k.mlfqs then k.feedback else pure k

/-- `thread_tick`, behind `++thread_ticks`; `timer_interrupt` adds 1 to `ticks` before. -/
def tick (k : Kernel) : Kernel := { k with ticks := wrap64 (k.ticks + 1), threadTicks := k.threadTicks + 1 }

/-- `timer_interrupt`, behind `thread_tick`. -/
def wakeDue (k : Kernel) : Option Kernel := if k.ticks ≥ k.smallestTick then k.wakeThread else some k

/-- `timer_interrupt` -/
def timerHandler (k : Kernel) : Option Kernel := k.tick.renew.value.wakeDue

/-- The interrupt: `thread_tick` has called `intr_yield_on_return` at the end of a time slice. -/
def timerInterrupt (k : Kernel) : Option Kernel :=
  k.timerHandler.bind fun k' => if k.threadTicks + 1 ≥ timeSlice then k'.threadYield else some k'

/-! ## Steps -/

/-- `t->priority`.  A page that no thread is in any more holds `freed` at this place. -/
def readPriority (k : Kernel) (freed : ℤ) (t : ℕ) : ℤ := if t ∈ k.allList then k.priority t else freed

/-- A statement of the running thread. -/
def instr (k : Kernel) (freed : ℤ) : Instr → Option Kernel
  | .acquire l => if k.holder l = some k.current then none else some (k.first [.down l, .hold l])
  | .down s | .retest s => k.semaDown s
  | .hold l => some { k with holder := Function.update k.holder l (some k.current) }
  | .release l =>
    if k.holder l = some k.current then
      some ({ k with holder := Function.update k.holder l none }.first [.up l])
    else none
  | .up s => k.semaUp s
  | .unblock t => (k.first [.check t]).threadUnblock t
  | .check t => if k.priority k.current < k.readPriority freed t then k.threadYield else some k
  | .sleep start ticks => k.timerSleep start ticks
  | .startIdle => some { k with idleThread := some k.current }
  | .idleLoop => (k.first [.idleLoop]).threadBlock

end Kernel

/-- The calls that the function of a thread makes. -/
inductive Call
  | yield
  | block
  | unblock (t : ℕ)
  | exit
  /-- `thread_create`, with the page that `palloc_get_page` has found. -/
  | create (t : ℕ) (priority : ℤ)
  | acquire (l : ℕ)
  | release (l : ℕ)
  | down (s : ℕ)
  | tryDown (s : ℕ)
  | up (s : ℕ)
  /-- `cond_signal`, with the semaphore of the waiter that it takes. -/
  | signal (l : ℕ) (waiter : Option ℕ)
  | sleep (ticks : ℤ)
  | setPriority (newPriority : ℤ)
  | setNice (nice : ℤ)
  | getLoadAvg
  | getRecentCpu

/-- What happens next: the timer interrupts, or the running thread goes on, with `freed` in the pages that no
thread is in, or its function makes a call. -/
inductive Act
  | interrupt
  | next (freed : ℤ)
  | call (c : Call)

namespace Kernel

def call (k : Kernel) : Call → Option Kernel
  | .yield => k.threadYield
  | .block => k.threadBlock
  | .unblock t => k.threadUnblock t
  | .exit => k.threadExit
  | .create t priority => k.threadCreate t priority
  | .acquire l => some (k.first [.acquire l])
  | .release l => some (k.first [.release l])
  | .down s => some (k.first [.down s])
  | .tryDown s => some (k.setSema s (k.sema s).tryDown.2)
  | .up s => some (k.first [.up s])
  | .signal l waiter => if k.holder l = some k.current then some (k.first (waiter.toList.map .up)) else none
  | .sleep ticks => some (k.first [.sleep k.ticks ticks])
  | .setPriority p => k.threadSetPriority p
  | .setNice n => some (k.threadSetNice n).value
  | .getLoadAvg | .getRecentCpu => some k

/-- A step.  No interrupt comes where a thread goes on with interrupts off, and `palloc_get_page` finds a free
page. -/
inductive Step : Kernel → Act → Kernel → Prop
  | interrupt {k k' : Kernel} (hon : ∀ s, (k.control k.current).head? ≠ some (.retest s))
      (h : k.timerInterrupt = some k') : Step k .interrupt k'
  | next {k k' : Kernel} {freed : ℤ} {i : Instr} {is : List Instr} (hi : k.control k.current = i :: is)
      (h : (k.setControl k.current is).instr freed i = some k') : Step k (.next freed) k'
  | call {k k' : Kernel} {c : Call} (hc : k.control k.current = [])
      (hfree : ∀ t p, c = .create t p → t ∉ k.allList ∧ t ≠ initialThread) (h : k.call c = some k') :
      Step k (.call c) k'

/-- `palloc_get_page` finds a page that no thread is in. -/
def freePage (k : Kernel) : Call → Bool
  | .create t _ => t ∉ k.allList ∧ t ≠ initialThread
  | _ => true

/-- The step, where it is possible and no assertion fails. -/
def exec (k : Kernel) : Act → Option Kernel
  | .interrupt =>
    match (k.control k.current).head? with
    | some (.retest _) => none
    | _ => k.timerInterrupt
  | .next freed =>
    match k.control k.current with
    | [] => none
    | i :: is => (k.setControl k.current is).instr freed i
  | .call c => if k.control k.current = [] ∧ k.freePage c then k.call c else none

theorem exec_step {k k' : Kernel} {a : Act} (h : k.exec a = some k') : Step k a k' := by
  cases a with
  | interrupt =>
    rw [exec] at h
    split at h
    · cases h
    · rename_i hon
      exact .interrupt (fun s => hon s) h
  | next freed =>
    rw [exec] at h
    split at h
    · cases h
    · exact .next ‹_› h
  | call c =>
    rw [exec] at h
    split at h
    · rename_i hc
      refine .call hc.1 (fun t p he => ?_) h
      rw [he, freePage, decide_eq_true_iff] at hc
      exact hc.2
    · cases h

/-- A run of such steps. -/
def run : List Act → Kernel → Option Kernel
  | [], k => some k
  | a :: as, k => (k.exec a).bind (run as)

/-- It is a run, also of the steps that meet a condition, if all steps meet it. -/
theorem run_trace {P : Kernel → Act → Prop} {k k' : Kernel} {as : List Act} (hP : ∀ k, ∀ a ∈ as, P k a)
    (h : run as k = some k') : Trace (fun k a k' => Step k a k' ∧ P k a) k as k' := by
  induction as generalizing k with
  | nil =>
    cases h
    exact .nil _
  | cons a as ih =>
    obtain ⟨k₁, ha, has⟩ := Option.bind_eq_some_iff.mp h
    exact .cons ⟨exec_step ha, hP k a List.mem_cons_self⟩ (ih (fun k a ha => hP k a (List.mem_cons_of_mem _ ha)) has)

/-- A run as long as a condition on the steps is met. -/
def runWhile (p : Kernel → Act → Kernel → Bool) : List Act → Kernel → Option Kernel
  | [], k => some k
  | a :: as, k => (k.exec a).bind fun k' => if p k a k' then runWhile p as k' else none

theorem runWhile_trace {p : Kernel → Act → Kernel → Bool} {P : Kernel → Act → Prop} {k k' : Kernel} {as : List Act}
    (hP : ∀ k, ∀ a ∈ as, P k a) (h : runWhile p as k = some k') :
    Trace (fun k a k' => Step k a k' ∧ P k a ∧ p k a k' = true) k as k' := by
  induction as generalizing k with
  | nil =>
    cases h
    exact .nil _
  | cons a as ih =>
    obtain ⟨k₁, ha, has⟩ := Option.bind_eq_some_iff.mp h
    split at has
    · exact .cons ⟨exec_step ha, hP k a List.mem_cons_self, ‹_›⟩
        (ih (fun k a ha => hP k a (List.mem_cons_of_mem _ ha)) has)
    · cases has

/-- The steps that `thread_start` has still to do. -/
def startUp : List Act := [.next 0, .next 0, .next 0, .next 0]

/-- A call and the steps that it takes. -/
def calls (c : Call) (n : ℕ) : List Act := .call c :: List.replicate n (.next 0)

/-- `main` in `thread_start`, behind `intr_enable ()`: the idle thread has been created.  The other semaphores
have any values. -/
def boot (mlfqs aging : Bool) (value : ℕ → ℕ) : Kernel where
  status := fun t => if t = initialThread then .running else if t = firstCreated then .ready else .dying
  priority := fun t => if t = initialThread then priDefault else priMin
  wakeT := fun _ => 0
  nice := fun _ => 0
  recentCpu := fun _ => 0
  control := fun t =>
    if t = initialThread then [.down idleStarted]
    else if t = firstCreated then [.startIdle, .up idleStarted, .idleLoop]
    else []
  allList := [initialThread, firstCreated]
  readyList := [firstCreated]
  blockList := []
  sema := fun s => ⟨if s = tidLock then 1 else if s = idleStarted then 0 else value s, []⟩
  holder := fun _ => none
  current := initialThread
  idleThread := none
  ticks := 0
  threadTicks := 0
  smallestTick := 0
  timerSmallestTick := 0
  loadAvg := 0
  mlfqs := mlfqs
  aging := aging
  choices := 0

end Kernel

end Pintos.Threads
