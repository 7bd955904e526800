import Pintos.Library.Trace
import Pintos.Threads.Descriptors

/-!
# Interrupts

`threads/interrupt.c` with the two interrupt controllers and the interrupt flag, over any number of threads, each with a
stack of the interrupts that it is in.  What runs between two changes of the interrupt flag is not one step: a handler can
be interrupted wherever the flag is set.

* An external interrupt is taken when the flag is set and no line of its controller is in service; `intr_handler`
  acknowledges it, and yields behind that when it was asked to.
* `Orderly` is what a run of external interrupts looks like; `interrupts_orderly` is about all runs.

Which thread a yield chooses is left open.
-/

namespace Pintos.Threads.Interrupt

open BitFields Descriptors

/-! ## The interrupt table -/

/-- `enum intr_level` -/
inductive Level
  | off
  | on
  deriving DecidableEq

/-- A gate of type 14 turns interrupts off, one of type 15 leaves them. -/
def makeIntrGate (function dpl : ℕ) : ℕ := makeGate function dpl 14

/-- `make_trap_gate` -/
def makeTrapGate (function dpl : ℕ) : ℕ := makeGate function dpl 15

/-- What the kernel does when an assertion fails. -/
inductive Panic
  /-- In `register_handler`, or in the functions that call it. -/
  | registration
  /-- In `intr_enable` and `intr_yield_on_return`, and in what calls `schedule`: at the wrong time. -/
  | caller
  /-- In `intr_handler`. -/
  | intrHandler
  /-- In `pic_end_of_interrupt`. -/
  | endOfInterrupt
  deriving DecidableEq

/-- How far `intr_handler` is. -/
inductive Stage
  /-- In the handler. -/
  | handling
  /-- Behind the handler, but for the return. -/
  | finished
  deriving DecidableEq

/-- An interrupt on the stack of a thread: its vector, the interrupt flag before it, and how far it is. -/
structure Frame where
  vecNo : ℕ
  flags : Level
  stage : Stage
  deriving DecidableEq

/-- What has become of external interrupts. -/
inductive Entry
  | accepted (vecNo : ℕ)
  | asked
  | acknowledged (vecNo : ℕ)
  | yielded
  deriving DecidableEq

/-- The tables of `interrupt.c` (handlers are numbers), the flag, the in-service registers of the controllers, the running
thread, and the interrupts that each thread is in, the last one first. -/
structure Machine where
  idt : ℕ → ℕ
  intrHandlers : ℕ → Option ℕ
  intrNames : ℕ → String
  unexpectedCnt : ℕ → ℕ
  printed : List (ℕ × String)
  inExternalIntr : Bool
  yieldOnReturn : Bool
  level : Level
  pic0 : ℕ
  pic1 : ℕ
  running : ℕ
  frames : ℕ → List Frame
  log : List Entry
  failure : Option Panic

/-- Is it an external interrupt? -/
def external (vecNo : ℕ) : Bool := decide (0x20 ≤ vecNo ∧ vecNo < 0x30)

/-- The non-specific end of interrupt: the line with the highest priority is not in service any more. -/
def endOfService (isr : ℕ) : ℕ := isr &&& (isr - 1)

namespace Machine

variable (s : Machine)

def fail (p : Panic) : Machine := { s with failure := some p }

def note (e : Entry) : Machine := { s with log := s.log ++ [e] }

/-- `intr_context` -/
def intrContext : Bool := s.inExternalIntr

/-- `register_handler`, where `stub` are the addresses of the stubs -/
def registerHandler (stub : ℕ → ℕ) (vecNo dpl : ℕ) (level : Level) (handler : ℕ) (name : String) : Machine :=
  if (s.intrHandlers vecNo).isSome ∨ 3 < dpl then s.fail .registration
  else
    { s with
      idt := Function.update s.idt vecNo
        (if level = .on then makeTrapGate (stub vecNo) dpl else makeIntrGate (stub vecNo) dpl)
      intrHandlers := Function.update s.intrHandlers vecNo (some handler)
      intrNames := Function.update s.intrNames vecNo name }

/-- `intr_register_ext` -/
def intrRegisterExt (stub : ℕ → ℕ) (vecNo handler : ℕ) (name : String) : Machine :=
  if 0x20 ≤ vecNo ∧ vecNo ≤ 0x2f then s.registerHandler stub vecNo 0 .off handler name else s.fail .registration

/-- `intr_register_int` -/
def intrRegisterInt (stub : ℕ → ℕ) (vecNo dpl : ℕ) (level : Level) (handler : ℕ) (name : String) : Machine :=
  if vecNo < 0x20 ∨ 0x2f < vecNo then s.registerHandler stub vecNo dpl level handler name else s.fail .registration

/-- `intr_enable` -/
def intrEnable : Machine := if s.intrContext then s.fail .caller else { s with level := .on }

/-- `intr_disable` -/
def intrDisable : Machine := { s with level := .off }

/-- `intr_yield_on_return` -/
def intrYieldOnReturn : Machine :=
  if s.intrContext then { s with yieldOnReturn := true }.note .asked else s.fail .caller

/-- `unexpected_interrupt` -/
def unexpectedInterrupt (vecNo : ℕ) : Machine :=
  let n := (s.unexpectedCnt vecNo + 1) % 2 ^ 32
  let s := { s with unexpectedCnt := Function.update s.unexpectedCnt vecNo n }
  if n &&& (n + 2 ^ 32 - 1) % 2 ^ 32 = 0 then { s with printed := s.printed ++ [(vecNo, s.intrNames vecNo)] } else s

/-- `pic_end_of_interrupt` -/
def picEndOfInterrupt (irq : ℕ) : Machine :=
  if 0x20 ≤ irq ∧ irq < 0x30 then
    { s with
      pic0 := endOfService s.pic0
      pic1 := if 0x28 ≤ irq then endOfService s.pic1 else s.pic1 }
  else s.fail .endOfInterrupt

def setFrames (fs : List Frame) : Machine := { s with frames := Function.update s.frames s.running fs }

/-- The processor goes through the gate of `vecNo`. -/
def enter (vecNo : ℕ) : Machine :=
  let s' := s.setFrames (⟨vecNo, s.level, .handling⟩ :: s.frames s.running)
  if (decodeGate (s.idt vecNo)).type = 14 then { s' with level := .off } else s'

/-- `intr_handler`, up to the handler -/
def beginHandler (vecNo : ℕ) : Machine :=
  if external vecNo then
    if s.level ≠ .off ∨ s.intrContext then s.fail .intrHandler
    else { s with inExternalIntr := true, yieldOnReturn := false }.note (.accepted vecNo)
  else s

/-- `intr_handler`, where there is no handler -/
def noHandler (vecNo : ℕ) : Machine := if vecNo = 0x27 ∨ vecNo = 0x2f then s else s.unexpectedInterrupt vecNo

/-- Through the gate, to the handler. -/
def interrupt (vecNo : ℕ) : Machine :=
  let s := (s.enter vecNo).beginHandler vecNo
  if (s.intrHandlers vecNo).isSome then s else s.noHandler vecNo

/-- `thread_yield`, which chooses the thread `next`. -/
def threadYield (next : ℕ) : Machine :=
  if s.intrContext then s.fail .caller else { s with level := .off, running := next }

/-- `intr_handler`, behind the handler -/
def endHandler (vecNo next : ℕ) : Machine :=
  if external vecNo then
    if s.level ≠ .off ∨ ¬s.intrContext then s.fail .intrHandler
    else
      let s := { s with inExternalIntr := false }
      let s := s.picEndOfInterrupt vecNo
      let s := s.note (.acknowledged vecNo)
      if s.yieldOnReturn then (s.note .yielded).threadYield next else s
  else s

end Machine

/-! ## Runs -/

/-- What happens next. -/
inductive Event
  | registerExt (vecNo handler : ℕ) (name : String)
  | registerInt (vecNo dpl : ℕ) (level : Level) (handler : ℕ) (name : String)
  /-- A line of the controllers. -/
  | irq (line : ℕ)
  /-- A line that has gone before the processor has asked for it: the last one of either controller. -/
  | spurious (slave : Bool)
  /-- The processor raises an exception. -/
  | exception (vecNo : ℕ)
  /-- `int n` in user mode -/
  | int (n : ℕ)
  | enable
  | disable
  | yieldOnReturn
  /-- `schedule` -/
  | schedule (next : ℕ)
  /-- The handler returns; `next` is the thread to which a yield goes. -/
  | finish (next : ℕ)
  /-- `iret` -/
  | iret

/-- The line may interrupt: no line of the same or a higher priority is in service. -/
def Ready (isr line : ℕ) : Prop := isr &&& (2 <<< line - 1) = 0

/-- A kernel thread, or a handler that has not returned, runs on the stack of the running thread. -/
def Machine.Working (s : Machine) : Prop :=
  ∀ f ∈ (s.frames s.running).head?, f.stage = .handling ∧ (s.intrHandlers f.vecNo).isSome

/-- The controllers hand over the interrupt of a line, and take it for served until they hear otherwise. -/
def Machine.accept (s : Machine) (line : ℕ) : Machine :=
  if line < 8 then { s with pic0 := s.pic0 ||| 1 <<< line }
  else { s with pic0 := s.pic0 ||| 1 <<< 2, pic1 := s.pic1 ||| 1 <<< (line - 8) }

/-- One step; the second controller is on line 2 of the first.  In user mode there are no interrupts on the stack, and
interrupts are on. -/
inductive Step (stub : ℕ → ℕ) (s : Machine) : Event → Machine → Prop
  | registerExt (vecNo handler : ℕ) (name : String) (hvec : vecNo < 256) :
    Step stub s (.registerExt vecNo handler name) (s.intrRegisterExt stub vecNo handler name)
  | registerInt (vecNo dpl : ℕ) (level : Level) (handler : ℕ) (name : String) (hvec : vecNo < 256) :
    Step stub s (.registerInt vecNo dpl level handler name) (s.intrRegisterInt stub vecNo dpl level handler name)
  | master (line : ℕ) (hline : line < 8) (hne : line ≠ 2) (hready : Ready s.pic0 line) (hlevel : s.level = .on) :
    Step stub s (.irq line) ((s.accept line).interrupt (0x20 + line))
  | slave (line : ℕ) (hlow : 8 ≤ line) (hline : line < 16) (hready : Ready s.pic0 2) (hready' : Ready s.pic1 (line - 8))
    (hlevel : s.level = .on) : Step stub s (.irq line) ((s.accept line).interrupt (0x20 + line))
  | spuriousMaster (hlevel : s.level = .on) : Step stub s (.spurious false) (s.interrupt 0x27)
  | spuriousSlave (hready : Ready s.pic0 2) (hlevel : s.level = .on) :
    Step stub s (.spurious true) ({ s with pic0 := s.pic0 ||| 1 <<< 2 }.interrupt 0x2f)
  | exception (vecNo : ℕ) (hvec : vecNo < 0x20) : Step stub s (.exception vecNo) (s.interrupt vecNo)
  | int (n : ℕ) (hn : n < 256) (huser : s.frames s.running = []) (hlevel : s.level = .on) :
    Step stub s (.int n) (s.interrupt (if (decodeGate (s.idt n)).dpl = 3 then n else 13))
  | enable (hwork : s.Working) : Step stub s .enable s.intrEnable
  | disable (hwork : s.Working) : Step stub s .disable s.intrDisable
  | yieldOnReturn (hwork : s.Working) : Step stub s .yieldOnReturn s.intrYieldOnReturn
  | schedule (next : ℕ) (hwork : s.Working) :
    Step stub s (.schedule next) (if s.level = .off then s.threadYield next else s.fail .caller)
  | finish (f : Frame) (fs : List Frame) (next : ℕ) (htop : s.frames s.running = f :: fs) (hstage : f.stage = .handling) :
    Step stub s (.finish next) ((s.setFrames ({ f with stage := .finished } :: fs)).endHandler f.vecNo next)
  | iret (f : Frame) (fs : List Frame) (htop : s.frames s.running = f :: fs) (hstage : f.stage = .finished) :
    Step stub s .iret { s.setFrames fs with level := f.flags }

/-- A run goes on until an assertion fails. -/
def Machine.Step (stub : ℕ → ℕ) (s : Machine) (e : Event) (s' : Machine) : Prop :=
  s.failure = none ∧ Interrupt.Step stub s e s'

/-- `intr_names` after `intr_init` -/
def intrName : ℕ → String
  | 0 => "#DE Divide Error"
  | 1 => "#DB Debug Exception"
  | 2 => "NMI Interrupt"
  | 3 => "#BP Breakpoint Exception"
  | 4 => "#OF Overflow Exception"
  | 5 => "#BR BOUND Range Exceeded Exception"
  | 6 => "#UD Invalid Opcode Exception"
  | 7 => "#NM Device Not Available Exception"
  | 8 => "#DF Double Fault Exception"
  | 9 => "Coprocessor Segment Overrun"
  | 10 => "#TS Invalid TSS Exception"
  | 11 => "#NP Segment Not Present"
  | 12 => "#SS Stack Fault Exception"
  | 13 => "#GP General Protection Exception"
  | 14 => "#PF Page-Fault Exception"
  | 16 => "#MF x87 FPU Floating-Point Error"
  | 17 => "#AC Alignment Check Exception"
  | 18 => "#MC Machine-Check Exception"
  | 19 => "#XF SIMD Floating-Point Exception"
  | _ => "unknown"

/-- After `intr_init`. -/
def intrInit (stub : ℕ → ℕ) : Machine where
  idt v := makeIntrGate (stub v) 0
  intrHandlers := fun _ => none
  intrNames := intrName
  unexpectedCnt := fun _ => 0
  printed := []
  inExternalIntr := false
  yieldOnReturn := false
  level := .off
  pic0 := 0
  pic1 := 0
  running := 0
  frames := fun _ => []
  log := []
  failure := none

/-! ## What a run looks like -/

/-- External interrupts one after the other: each is acknowledged before the next is accepted, and behind that comes a yield
just if it was asked for.  The second argument is the interrupt that is being handled. -/
inductive Orderly : List Entry → Option (ℕ × Bool) → Prop
  | nil : Orderly [] none
  | accepted {l : List Entry} {v : ℕ} (h : Orderly l none) : Orderly (l ++ [.accepted v]) (some (v, false))
  | asked {l : List Entry} {v : ℕ} {b : Bool} (h : Orderly l (some (v, b))) : Orderly (l ++ [.asked]) (some (v, true))
  | acknowledged {l : List Entry} {v : ℕ} (h : Orderly l (some (v, false))) : Orderly (l ++ [.acknowledged v]) none
  | yielded {l : List Entry} {v : ℕ} (h : Orderly l (some (v, true))) :
    Orderly (l ++ [.acknowledged v] ++ [.yielded]) none

/-- An external interrupt that has not been acknowledged. -/
def Frame.Pending (f : Frame) : Prop := external f.vecNo = true ∧ f.stage = .handling

/-- None of the interrupts is one. -/
def Clear (fs : List Frame) : Prop := ∀ f ∈ fs, ¬f.Pending

/-- The gates. -/
def TableOk (stub : ℕ → ℕ) (idt : ℕ → ℕ) : Prop :=
  ∀ v, v < 256 → ∃ dpl type, idt v = makeGate (stub v) dpl type ∧ dpl < 4 ∧ (type = 14 ∨ type = 15) ∧
    (external v → type = 14 ∧ dpl = 0)

/-- One more end of interrupt, and no line is in service. -/
def Serves (vecNo pic0 pic1 : ℕ) : Prop :=
  endOfService pic0 = 0 ∧ (if 0x28 ≤ vecNo then endOfService pic1 = 0 else pic1 = 0)

/-- The external interrupt that is being handled is on the stack of the running thread; what has come above it is no external
interrupt, and has found interrupts off. -/
def Handling (s : Machine) : Prop :=
  ∃ inner f outer, s.frames s.running = inner ++ f :: outer ∧ f.Pending ∧ Clear outer ∧
    (∀ g ∈ inner, external g.vecNo = false ∧ g.flags = .off) ∧ s.level = .off ∧ Serves f.vecNo s.pic0 s.pic1 ∧
    Orderly s.log (some (f.vecNo, s.yieldOnReturn))

structure Inv (stub : ℕ → ℕ) (s : Machine) : Prop where
  table : TableOk stub s.idt
  others : ∀ t, t ≠ s.running → Clear (s.frames t)
  idle : s.inExternalIntr = false → Clear (s.frames s.running) ∧ s.pic0 = 0 ∧ s.pic1 = 0 ∧ Orderly s.log none
  busy : s.inExternalIntr = true → Handling s

variable {stub : ℕ → ℕ} {s s' : Machine} {f : Frame} {fs inner outer : List Frame} {v t next line : ℕ} {e : Event}

/-! ## The parts of a step -/

theorem clear_nil : Clear [] := fun _ hf => by cases hf

theorem clear_cons : Clear (f :: fs) ↔ ¬f.Pending ∧ Clear fs := List.forall_mem_cons

theorem not_pending_internal (hv : external v = false) (l : Level) (st : Stage) : ¬(⟨v, l, st⟩ : Frame).Pending := by
  rintro ⟨hext, _⟩
  rw [hv] at hext
  cases hext

@[simp] theorem setFrames_running (fs : List Frame) : (s.setFrames fs).frames s.running = fs := Function.update_self ..

theorem setFrames_of_ne (h : t ≠ s.running) : (s.setFrames fs).frames t = s.frames t := Function.update_of_ne h ..

/-- The gate of each vector is one that `intr_init` or `register_handler` has made. -/
theorem TableOk.decode (h : TableOk stub s.idt) (hstub : ∀ v, stub v < 2 ^ 32) (hv : v < 256) :
    ∃ dpl type, decodeGate (s.idt v) = ⟨stub v, selKcseg, type, 0, dpl, 1⟩ ∧ (type = 14 ∨ type = 15) ∧
      (external v → type = 14 ∧ dpl = 0) := by
  obtain ⟨dpl, type, heq, hdpl, htype, hext⟩ := h v hv
  refine ⟨dpl, type, ?_, htype, hext⟩
  rw [heq]
  exact decodeGate_makeGate (hstub v) hdpl (by omega)

/-- The next frame, with interrupts off, or as they were behind a trap gate. -/
theorem enter_eq (s : Machine) (v : ℕ) : ∃ l, s.enter v =
    { s.setFrames (⟨v, s.level, .handling⟩ :: s.frames s.running) with level := l } ∧ (l = .off ∨ l = s.level) ∧
      ((decodeGate (s.idt v)).type = 14 → l = .off) := by
  unfold Machine.enter
  split
  · exact ⟨.off, rfl, .inl rfl, fun _ => rfl⟩
  · next htype => exact ⟨s.level, rfl, .inr rfl, fun h => absurd h htype⟩

/-- What `unexpected_interrupt` and a missing handler change is nothing here. -/
theorem interrupt_eq (s : Machine) (v : ℕ) :
    ∃ cnt printed, s.interrupt v =
      { (s.enter v).beginHandler v with unexpectedCnt := cnt, printed := printed } := by
  have hsame : ∀ s' : Machine, s' = { s' with unexpectedCnt := s'.unexpectedCnt, printed := s'.printed } := fun _ => rfl
  simp only [Machine.interrupt]
  split
  · exact ⟨_, _, hsame _⟩
  · unfold Machine.noHandler
    split
    · exact ⟨_, _, hsame _⟩
    · unfold Machine.unexpectedInterrupt
      simp only
      split
      · exact ⟨_, _, rfl⟩
      · exact ⟨_, _, rfl⟩

theorem Inv.level_off (h : Inv stub s) (hon : s.level = .on) : s.inExternalIntr = false := by
  cases hext : s.inExternalIntr with
  | false => rfl
  | true =>
    obtain ⟨_, _, _, _, _, _, _, hoff, _⟩ := h.busy hext
    rw [hon] at hoff
    cases hoff

/-- What the invariant speaks of. -/
theorem Inv.of_eq (h : Inv stub s) (hidt : s'.idt = s.idt) (hrunning : s'.running = s.running) (hframes : s'.frames = s.frames)
    (hext : s'.inExternalIntr = s.inExternalIntr) (hyield : s'.yieldOnReturn = s.yieldOnReturn)
    (hlevel : s'.level = s.level ∨ s'.level = .off ∨ s.inExternalIntr = false) (hpic0 : s'.pic0 = s.pic0)
    (hpic1 : s'.pic1 = s.pic1) (hlog : s'.log = s.log) : Inv stub s' := by
  refine ⟨hidt ▸ h.table, ?_, fun hno => ?_, fun hyes => ?_⟩
  · rw [hrunning, hframes]
    exact h.others
  · rw [hrunning, hframes, hpic0, hpic1, hlog]
    exact h.idle (hext ▸ hno)
  · rw [hext] at hyes
    obtain ⟨inner, f, outer, heq, hf, hclear, hinner, hoff, hserves, horderly⟩ := h.busy hyes
    refine ⟨inner, f, outer, ?_, hf, hclear, hinner, ?_, ?_, ?_⟩
    · rw [hrunning, hframes]
      exact heq
    · rcases hlevel with hsame | hoff' | hno
      · exact hsame.trans hoff
      · exact hoff'
      · rw [hyes] at hno
        cases hno
    · rw [hpic0, hpic1]
      exact hserves
    · rw [hlog, hyield]
      exact horderly

/-! ## Entering -/

/-- An exception, or `int n`. -/
theorem Inv.internal (h : Inv stub s) (hv : external v = false) :
    (s.interrupt v).failure = s.failure ∧ Inv stub (s.interrupt v) := by
  obtain ⟨cnt, printed, heq⟩ := interrupt_eq s v
  obtain ⟨l, hentered, hl, _⟩ := enter_eq s v
  rw [heq]
  rw [Machine.beginHandler, if_neg (by simp [hv]), hentered]
  refine ⟨rfl, h.table, fun t ht => ?_, fun hno => ?_, fun hyes => ?_⟩
  · have ht' : t ≠ s.running := ht
    show Clear ((s.setFrames _).frames t)
    rw [setFrames_of_ne ht']
    exact h.others t ht'
  · obtain ⟨hclear, hpics⟩ := h.idle hno
    refine ⟨?_, hpics⟩
    show Clear ((s.setFrames _).frames s.running)
    rw [setFrames_running]
    exact clear_cons.mpr ⟨not_pending_internal hv _ _, hclear⟩
  · obtain ⟨inner, f, outer, hframes, hf, hclear, hinner, hoff, hrest⟩ := h.busy hyes
    refine ⟨⟨v, s.level, .handling⟩ :: inner, f, outer, ?_, hf, hclear, ?_, ?_, hrest⟩
    · show (s.setFrames _).frames s.running = _
      rw [setFrames_running, hframes]
      rfl
    · exact List.forall_mem_cons.mpr ⟨⟨hv, hoff⟩, hinner⟩
    · exact hl.elim id fun hsame => hsame.trans hoff

/-- An external interrupt, when interrupts are on. -/
theorem Inv.acceptExternal {p0 p1 : ℕ} (h : Inv stub s) (hstub : ∀ v, stub v < 2 ^ 32) (hv : external v = true) (hlt : v < 256)
    (hon : s.level = .on) (hserves : Serves v p0 p1) :
    (Machine.interrupt { s with pic0 := p0, pic1 := p1 } v).failure = s.failure ∧
      Inv stub (Machine.interrupt { s with pic0 := p0, pic1 := p1 } v) := by
  have hno := h.level_off hon
  obtain ⟨hclear, _, _, horderly⟩ := h.idle hno
  obtain ⟨dpl, type, hgate, _, hext⟩ := h.table.decode hstub hlt
  obtain ⟨cnt, printed, heq⟩ := interrupt_eq { s with pic0 := p0, pic1 := p1 } v
  obtain ⟨l, hentered, _, hoff⟩ := enter_eq { s with pic0 := p0, pic1 := p1 } v
  have hl : l = .off := hoff (by
    show (decodeGate (s.idt v)).type = 14
    rw [hgate]
    exact (hext hv).1)
  subst hl
  rw [heq, Machine.beginHandler, if_pos hv, hentered]
  have hcontext : (Machine.intrContext { Machine.setFrames { s with pic0 := p0, pic1 := p1 } (⟨v, s.level, .handling⟩ ::
      s.frames s.running) with level := .off }) = false := hno
  rw [if_neg (by simp [hcontext])]
  refine ⟨rfl, h.table, fun t ht => ?_, fun hno' => absurd hno' (by simp [Machine.note]), fun _ => ?_⟩
  · have ht' : t ≠ s.running := ht
    show Clear ((s.setFrames _).frames t)
    rw [setFrames_of_ne ht']
    exact h.others t ht'
  · refine ⟨[], ⟨v, s.level, .handling⟩, s.frames s.running, ?_, ⟨hv, rfl⟩, hclear, by simp, rfl, hserves, .accepted horderly⟩
    show (s.setFrames _).frames s.running = _
    rw [setFrames_running]
    rfl

/-- The in-service registers when a line is accepted that no other disturbs. -/
theorem serves_line (hline : line < 16) : Serves (0x20 + line)
    (if line < 8 then 0 ||| 1 <<< line else 0 ||| 1 <<< 2) (if line < 8 then 0 else 0 ||| 1 <<< (line - 8)) := by
  unfold Serves endOfService
  interval_cases line <;> decide

theorem external_line (hline : line < 16) : external (0x20 + line) = true ∧ 0x20 + line < 256 := by
  refine ⟨?_, by omega⟩
  simp [external]
  omega

/-- A line of either controller. -/
theorem Inv.irq (h : Inv stub s) (hstub : ∀ v, stub v < 2 ^ 32) (hline : line < 16) (hon : s.level = .on) :
    ((s.accept line).interrupt (0x20 + line)).failure = s.failure ∧ Inv stub ((s.accept line).interrupt (0x20 + line)) := by
  obtain ⟨_, hp0, hp1, _⟩ := h.idle (h.level_off hon)
  obtain ⟨hext, hlt⟩ := external_line hline
  have haccept : s.accept line = { s with
      pic0 := if line < 8 then 0 ||| 1 <<< line else 0 ||| 1 <<< 2
      pic1 := if line < 8 then 0 else 0 ||| 1 <<< (line - 8) } := by
    unfold Machine.accept
    rw [hp0, hp1]
    by_cases hlow : line < 8
    · simp only [if_pos hlow]
    · simp only [if_neg hlow]
  rw [haccept]
  exact h.acceptExternal hstub hext hlt hon (serves_line hline)

/-! ## Returning -/

/-- `intr_handler`, behind the handler of an external interrupt -/
theorem endHandler_eq (hv : external v = true) (hoff : s.level = .off) (hyes : s.inExternalIntr = true) (next : ℕ) :
    s.endHandler v next = { s with
      inExternalIntr := false
      level := .off
      pic0 := endOfService s.pic0
      pic1 := if 0x28 ≤ v then endOfService s.pic1 else s.pic1
      running := if s.yieldOnReturn then next else s.running
      log := s.log ++ [.acknowledged v] ++ if s.yieldOnReturn then [.yielded] else [] } := by
  have hrange : 0x20 ≤ v ∧ v < 0x30 := by simpa [external] using hv
  have hwaiting : ¬(s.level ≠ .off ∨ ¬s.intrContext = true) := not_or.mpr ⟨not_not.mpr hoff, not_not.mpr hyes⟩
  rw [Machine.endHandler, if_pos hv, if_neg hwaiting]
  simp only [Machine.picEndOfInterrupt, if_pos hrange]
  cases s with
  | mk idt handlers names cnt printed inExternal yieldOnReturn =>
    subst hoff hyes
    cases yieldOnReturn <;> simp [Machine.note, Machine.threadYield, Machine.intrContext]

/-- The handler of an external interrupt returns. -/
theorem Inv.endExternal (h : Inv stub s) (hyes : s.inExternalIntr = true) (hf : f.Pending) (hclear : Clear outer)
    (hoff : s.level = .off) (hserves : Serves f.vecNo s.pic0 s.pic1)
    (horderly : Orderly s.log (some (f.vecNo, s.yieldOnReturn))) (next : ℕ) :
    ((s.setFrames ({ f with stage := .finished } :: outer)).endHandler f.vecNo next).failure = s.failure ∧
      Inv stub ((s.setFrames ({ f with stage := .finished } :: outer)).endHandler f.vecNo next) := by
  have hp1 : (if 0x28 ≤ f.vecNo then endOfService s.pic1 else s.pic1) = 0 := by
    have hserved := hserves.2
    split at hserved
    · next hslave => rw [if_pos hslave, hserved]
    · next hmaster => rw [if_neg hmaster, hserved]
  have hclear' : ∀ t, Clear ((s.setFrames ({ f with stage := .finished } :: outer)).frames t) := by
    intro t
    by_cases ht : t = s.running
    · rw [ht, setFrames_running]
      exact clear_cons.mpr ⟨fun hp => absurd hp.2 (by simp), hclear⟩
    · rw [setFrames_of_ne ht]
      exact h.others t ht
  have heq := endHandler_eq (s := s.setFrames ({ f with stage := .finished } :: outer)) hf.1 hoff hyes next
  rw [heq]
  refine ⟨rfl, h.table, fun t _ => hclear' t, fun _ => ⟨hclear' _, hserves.1, hp1, ?_⟩, fun hyes' => absurd hyes' (by simp)⟩
  show Orderly (s.log ++ [.acknowledged f.vecNo] ++ if s.yieldOnReturn then [.yielded] else []) none
  cases hy : s.yieldOnReturn with
  | false =>
    rw [hy] at horderly
    rw [if_neg (by simp), List.append_nil]
    exact .acknowledged horderly
  | true =>
    rw [hy] at horderly
    exact .yielded horderly

/-- The handler of another interrupt returns. -/
theorem Inv.endInternal (h : Inv stub s) (htop : s.frames s.running = f :: fs) (hv : external f.vecNo = false) (next : ℕ) :
    ((s.setFrames ({ f with stage := .finished } :: fs)).endHandler f.vecNo next).failure = s.failure ∧
      Inv stub ((s.setFrames ({ f with stage := .finished } :: fs)).endHandler f.vecNo next) := by
  have heq : (s.setFrames ({ f with stage := .finished } :: fs)).endHandler f.vecNo next =
      s.setFrames ({ f with stage := .finished } :: fs) := by
    rw [Machine.endHandler, if_neg (by simp [hv])]
  rw [heq]
  refine ⟨rfl, h.table, fun t ht => ?_, fun hno => ?_, fun hyes => ?_⟩
  · have ht' : t ≠ s.running := ht
    rw [setFrames_of_ne ht']
    exact h.others t ht'
  · obtain ⟨hclear, hpics⟩ := h.idle hno
    refine ⟨?_, hpics⟩
    show Clear ((s.setFrames _).frames s.running)
    rw [htop] at hclear
    rw [setFrames_running]
    exact clear_cons.mpr ⟨fun hp => absurd hp.2 (by simp), (clear_cons.mp hclear).2⟩
  · obtain ⟨inner, g, outer, hframes, hg, hclear, hinner, hrest⟩ := h.busy hyes
    rw [htop] at hframes
    cases inner with
    | nil =>
      cases hframes
      rw [hg.1] at hv
      cases hv
    | cons g' inner =>
      cases hframes
      obtain ⟨hfirst, hothers⟩ := List.forall_mem_cons.mp hinner
      refine ⟨{ f with stage := .finished } :: inner, g, outer, ?_, hg, hclear,
        List.forall_mem_cons.mpr ⟨hfirst, hothers⟩, hrest⟩
      show (s.setFrames _).frames s.running = _
      rw [setFrames_running]
      rfl

theorem Inv.iret (h : Inv stub s) (htop : s.frames s.running = f :: fs) (hstage : f.stage = .finished) :
    Inv stub { s.setFrames fs with level := f.flags } := by
  refine ⟨h.table, fun t ht => ?_, fun hno => ?_, fun hyes => ?_⟩
  · have ht' : t ≠ s.running := ht
    show Clear ((s.setFrames _).frames t)
    rw [setFrames_of_ne ht']
    exact h.others t ht'
  · obtain ⟨hclear, hpics⟩ := h.idle hno
    refine ⟨?_, hpics⟩
    show Clear ((s.setFrames _).frames s.running)
    rw [htop] at hclear
    rw [setFrames_running]
    exact (clear_cons.mp hclear).2
  · obtain ⟨inner, g, outer, hframes, hg, hclear, hinner, _, hrest⟩ := h.busy hyes
    rw [htop] at hframes
    cases inner with
    | nil =>
      cases hframes
      rw [hg.2] at hstage
      cases hstage
    | cons g' inner =>
      cases hframes
      obtain ⟨hfirst, hothers⟩ := List.forall_mem_cons.mp hinner
      refine ⟨inner, g, outer, ?_, hg, hclear, hothers, hfirst.2, hrest⟩
      show (s.setFrames _).frames s.running = _
      rw [setFrames_running]
      rfl

/-! ## The other steps -/

/-- A failed assertion of a caller, or nothing that the invariant does not allow. -/
def Sound (stub : ℕ → ℕ) (s s' : Machine) : Prop :=
  s'.failure = s.failure ∧ Inv stub s' ∨ s'.failure = some .registration ∨ s'.failure = some .caller

theorem Inv.threadYield (h : Inv stub s) (next : ℕ) : Sound stub s (s.threadYield next) := by
  unfold Machine.threadYield
  split
  · exact .inr (.inr rfl)
  · next hno =>
    have hno' : s.inExternalIntr = false := by simpa [Machine.intrContext] using hno
    obtain ⟨hclear, hpics⟩ := h.idle hno'
    have hall : ∀ t, Clear (s.frames t) := by
      intro t
      by_cases ht : t = s.running
      · rw [ht]
        exact hclear
      · exact h.others t ht
    exact .inl ⟨rfl, h.table, fun t _ => hall t, fun _ => ⟨hall next, hpics⟩,
      fun hyes => absurd (hno'.symm.trans hyes) (by simp)⟩

theorem Inv.registerHandler (h : Inv stub s) {dpl handler : ℕ} {level : Level} {name : String}
    (hext : external v → level = .off ∧ dpl = 0) : Sound stub s (s.registerHandler stub v dpl level handler name) := by
  unfold Machine.registerHandler
  split
  · exact .inr (.inl rfl)
  · next hok =>
    refine .inl ⟨rfl, ⟨fun u hu => ?_, h.others, h.idle, h.busy⟩⟩
    by_cases huv : u = v
    · subst huv
      refine ⟨dpl, if level = .on then 15 else 14, ?_, by omega, by split <;> simp, fun hu' => ?_⟩
      · show Function.update s.idt u _ u = _
        rw [Function.update_self]
        split <;> rfl
      · obtain ⟨hlevel, hdpl⟩ := hext hu'
        simp [hlevel, hdpl]
    · obtain ⟨dpl', type, heq, hrest⟩ := h.table u hu
      refine ⟨dpl', type, ?_, hrest⟩
      show Function.update s.idt v _ u = _
      rw [Function.update_of_ne huv, heq]

theorem Inv.step (h : Inv stub s) (hstub : ∀ v, stub v < 2 ^ 32) (hs : Step stub s e s') : Sound stub s s' := by
  cases hs with
  | registerExt vecNo handler name hvec =>
    unfold Machine.intrRegisterExt
    split
    · exact h.registerHandler fun _ => ⟨rfl, rfl⟩
    · exact .inr (.inl rfl)
  | registerInt vecNo dpl level handler name hvec =>
    unfold Machine.intrRegisterInt
    split
    · next hrange =>
      refine h.registerHandler fun hext => ?_
      have hin : 0x20 ≤ vecNo ∧ vecNo < 0x30 := by simpa [external] using hext
      omega
    · exact .inr (.inl rfl)
  | master line hline _ _ hlevel => exact .inl (h.irq hstub (by omega) hlevel)
  | slave line _ hline _ _ hlevel => exact .inl (h.irq hstub hline hlevel)
  | spuriousMaster hlevel =>
    obtain ⟨_, hp0, hp1, _⟩ := h.idle (h.level_off hlevel)
    exact .inl (h.acceptExternal hstub rfl (by decide) hlevel (by rw [hp0, hp1]; unfold Serves; decide))
  | spuriousSlave _ hlevel =>
    obtain ⟨_, hp0, hp1, _⟩ := h.idle (h.level_off hlevel)
    exact .inl (h.acceptExternal hstub rfl (by decide) hlevel (by rw [hp0, hp1]; unfold Serves; decide))
  | exception vecNo hvec => exact .inl (h.internal (by simp [external]; omega))
  | int n hn huser hlevel =>
    refine .inl (h.internal ?_)
    split
    · next hdpl =>
      by_contra hext
      obtain ⟨dpl, type, hgate, _, hext'⟩ := h.table.decode hstub hn
      rw [hgate] at hdpl
      have hzero := (hext' (by simpa using hext)).2
      simp only at hdpl
      omega
    · rfl
  | enable hwork =>
    unfold Machine.intrEnable
    split
    · exact .inr (.inr rfl)
    · next hno =>
      have hno' : s.inExternalIntr = false := by simpa [Machine.intrContext] using hno
      exact .inl ⟨rfl, h.of_eq rfl rfl rfl rfl rfl (.inr (.inr hno')) rfl rfl rfl⟩
  | disable hwork => exact .inl ⟨rfl, h.of_eq rfl rfl rfl rfl rfl (.inr (.inl rfl)) rfl rfl rfl⟩
  | yieldOnReturn hwork =>
    unfold Machine.intrYieldOnReturn
    split
    · next hyes =>
      obtain ⟨inner, f, outer, hframes, hf, hclear, hinner, hoff, hserves, horderly⟩ := h.busy hyes
      exact .inl ⟨rfl, h.table, h.others, fun hno => absurd (hno.symm.trans hyes) (by simp),
        fun _ => ⟨inner, f, outer, hframes, hf, hclear, hinner, hoff, hserves, .asked horderly⟩⟩
    · exact .inr (.inr rfl)
  | schedule next hwork =>
    split
    · exact h.threadYield next
    · exact .inr (.inr rfl)
  | finish f fs next htop hstage =>
    cases hv : external f.vecNo with
    | false => exact .inl (h.endInternal htop hv next)
    | true =>
      have hpending : f.Pending := ⟨hv, hstage⟩
      have hyes : s.inExternalIntr = true := by
        by_contra hno
        obtain ⟨hclear, _⟩ := h.idle (by simpa using hno)
        rw [htop] at hclear
        exact (clear_cons.mp hclear).1 hpending
      obtain ⟨inner, g, outer, hframes, hg, hclear, hinner, hoff, hserves, horderly⟩ := h.busy hyes
      rw [htop] at hframes
      cases inner with
      | nil =>
        cases hframes
        exact .inl (h.endExternal hyes hpending hclear hoff hserves horderly next)
      | cons g' inner =>
        cases hframes
        have hinternal := (List.forall_mem_cons.mp hinner).1.1
        rw [hv] at hinternal
        cases hinternal
  | iret f fs htop hstage => exact .inl ⟨rfl, h.iret htop hstage⟩

/-! ## Runs -/

theorem intrInit_inv (stub : ℕ → ℕ) : Inv stub (intrInit stub) where
  table v _ := ⟨0, 14, rfl, by decide, .inl rfl, fun _ => ⟨rfl, rfl⟩⟩
  others _ _ := clear_nil
  idle _ := ⟨clear_nil, rfl, rfl, .nil⟩
  busy hyes := absurd hyes (by simp [intrInit])

variable {es : List Event}

theorem Inv.run (h : Inv stub s) (hstub : ∀ v, stub v < 2 ^ 32) (hf : s.failure = none)
    (hrun : Trace (Machine.Step stub) s es s') :
    s'.failure = none ∧ Inv stub s' ∨ s'.failure = some .registration ∨ s'.failure = some .caller := by
  induction hrun with
  | nil s => exact .inl ⟨hf, h⟩
  | cons head tail ih =>
    obtain ⟨_, hs⟩ := head
    rcases h.step hstub hs with ⟨hsame, hinv⟩ | hfail
    · exact ih hinv (hsame.trans hf)
    · right
      cases tail with
      | nil s => exact hfail
      | cons head' tail' =>
        have hnone := head'.1
        rcases hfail with heq | heq <;> exact absurd (hnone.symm.trans heq) (by simp)

/-! ## The tables over a run -/

/-- The handler and the gate that a registration of `v` asks for. -/
def Event.entry (stub : ℕ → ℕ) (v : ℕ) : Event → Option (ℕ × ℕ)
  | .registerExt vecNo handler _ => if vecNo = v then some (handler, makeIntrGate (stub v) 0) else none
  | .registerInt vecNo dpl level handler _ =>
    if vecNo = v then some (handler, if level = .on then makeTrapGate (stub v) dpl else makeIntrGate (stub v) dpl)
    else none
  | _ => none

/-- The handler and the gate of `v` are left alone. -/
def SameEntry (v : ℕ) (s s' : Machine) : Prop := s'.intrHandlers v = s.intrHandlers v ∧ s'.idt v = s.idt v

theorem sameEntry_interrupt (s : Machine) (u v : ℕ) : SameEntry v s (s.interrupt u) := by
  obtain ⟨cnt, printed, heq⟩ := interrupt_eq s u
  obtain ⟨l, hentered, _⟩ := enter_eq s u
  rw [heq, hentered]
  unfold SameEntry Machine.beginHandler
  split
  · split
    · exact ⟨rfl, rfl⟩
    · exact ⟨rfl, rfl⟩
  · exact ⟨rfl, rfl⟩

theorem sameEntry_picEndOfInterrupt (s : Machine) (u v : ℕ) : SameEntry v s (s.picEndOfInterrupt u) := by
  unfold Machine.picEndOfInterrupt
  split
  · exact ⟨rfl, rfl⟩
  · exact ⟨rfl, rfl⟩

theorem sameEntry_threadYield (s : Machine) (next v : ℕ) : SameEntry v s (s.threadYield next) := by
  unfold Machine.threadYield
  split
  · exact ⟨rfl, rfl⟩
  · exact ⟨rfl, rfl⟩

theorem sameEntry_endHandler (s : Machine) (u next v : ℕ) : SameEntry v s (s.endHandler u next) := by
  unfold Machine.endHandler
  split
  · split
    · exact ⟨rfl, rfl⟩
    · have hpic := sameEntry_picEndOfInterrupt { s with inExternalIntr := false } u v
      simp only
      split
      · obtain ⟨hhandlers, hidt⟩ := sameEntry_threadYield
          (((Machine.picEndOfInterrupt { s with inExternalIntr := false } u).note (.acknowledged u)).note .yielded) next v
        exact ⟨hhandlers.trans hpic.1, hidt.trans hpic.2⟩
      · exact hpic
  · exact ⟨rfl, rfl⟩

/-- What one step does to the entry of `v`. -/
def Writes (stub : ℕ → ℕ) (v : ℕ) (s : Machine) (e : Event) (s' : Machine) : Prop :=
  match e.entry stub v with
  | none => SameEntry v s s'
  | some (handler, gate) => s.intrHandlers v = none ∧ s'.intrHandlers v = some handler ∧ s'.idt v = gate

theorem writes_registerHandler {dpl handler : ℕ} {level : Level} {name : String}
    (hentry : e.entry stub v = if t = v then
      some (handler, if level = .on then makeTrapGate (stub v) dpl else makeIntrGate (stub v) dpl) else none)
    (hok : (s.registerHandler stub t dpl level handler name).failure = none) :
    Writes stub v s e (s.registerHandler stub t dpl level handler name) := by
  unfold Writes
  rw [hentry]
  unfold Machine.registerHandler at hok ⊢
  split at hok
  · exact absurd hok (by simp [Machine.fail])
  · next hfree =>
    rw [if_neg hfree]
    by_cases heq : t = v
    · subst heq
      have hnone : s.intrHandlers t = none := by simpa using (not_or.mp hfree).1
      rw [if_pos rfl]
      exact ⟨hnone, Function.update_self .., Function.update_self ..⟩
    · rw [if_neg heq]
      exact ⟨Function.update_of_ne (Ne.symm heq) .., Function.update_of_ne (Ne.symm heq) ..⟩

theorem step_writes (hs : Step stub s e s') (hok : s'.failure = none) (v : ℕ) : Writes stub v s e s' := by
  cases hs with
  | registerExt vecNo handler name hvec =>
    unfold Machine.intrRegisterExt at hok ⊢
    split at hok
    · next hrange =>
      rw [if_pos hrange]
      exact writes_registerHandler rfl hok
    · exact absurd hok (by simp [Machine.fail])
  | registerInt vecNo dpl level handler name hvec =>
    unfold Machine.intrRegisterInt at hok ⊢
    split at hok
    · next hrange =>
      rw [if_pos hrange]
      exact writes_registerHandler rfl hok
    · exact absurd hok (by simp [Machine.fail])
  | master line _ _ _ _ =>
    have haccept : SameEntry v s (s.accept line) := by
      unfold Machine.accept
      split <;> exact ⟨rfl, rfl⟩
    obtain ⟨hhandlers, hidt⟩ := sameEntry_interrupt (s.accept line) (0x20 + line) v
    exact ⟨hhandlers.trans haccept.1, hidt.trans haccept.2⟩
  | slave line _ _ _ _ _ =>
    have haccept : SameEntry v s (s.accept line) := by
      unfold Machine.accept
      split <;> exact ⟨rfl, rfl⟩
    obtain ⟨hhandlers, hidt⟩ := sameEntry_interrupt (s.accept line) (0x20 + line) v
    exact ⟨hhandlers.trans haccept.1, hidt.trans haccept.2⟩
  | spuriousMaster _ => exact sameEntry_interrupt s 0x27 v
  | spuriousSlave _ _ => exact sameEntry_interrupt { s with pic0 := s.pic0 ||| 1 <<< 2 } 0x2f v
  | exception vecNo _ => exact sameEntry_interrupt s vecNo v
  | int n _ _ _ => exact sameEntry_interrupt s _ v
  | enable _ =>
    show SameEntry v s s.intrEnable
    unfold Machine.intrEnable
    split <;> exact ⟨rfl, rfl⟩
  | disable _ => exact ⟨rfl, rfl⟩
  | yieldOnReturn _ =>
    show SameEntry v s s.intrYieldOnReturn
    unfold Machine.intrYieldOnReturn
    split <;> exact ⟨rfl, rfl⟩
  | schedule next _ =>
    show SameEntry v s (if s.level = .off then s.threadYield next else s.fail .caller)
    split
    · exact sameEntry_threadYield s next v
    · exact ⟨rfl, rfl⟩
  | finish f fs next _ _ => exact sameEntry_endHandler (s.setFrames _) f.vecNo next v
  | iret f fs _ _ => exact ⟨rfl, rfl⟩

/-- Nobody has registered `v` since, or just one has, and nobody before. -/
def Written (stub : ℕ → ℕ) (v : ℕ) (s : Machine) (es : List Event) (s' : Machine) : Prop :=
  es.filterMap (Event.entry stub v) = [] ∧ SameEntry v s s' ∨
  ∃ handler gate, es.filterMap (Event.entry stub v) = [(handler, gate)] ∧
    s.intrHandlers v = none ∧ s'.intrHandlers v = some handler ∧ s'.idt v = gate

theorem run_written (hrun : Trace (Machine.Step stub) s es s') (hok : s'.failure = none) (v : ℕ) :
    Written stub v s es s' := by
  induction hrun with
  | nil s => exact .inl ⟨rfl, rfl, rfl⟩
  | @cons s s₁ s' e es head tail ih =>
    have hok₁ : s₁.failure = none := by
      cases tail with
      | nil s => exact hok
      | cons head' _ => exact head'.1
    have hwrites := step_writes head.2 hok₁ v
    unfold Writes at hwrites
    cases hentry : e.entry stub v with
    | none =>
      rw [hentry] at hwrites
      rcases ih hok with ⟨hnone, hsame⟩ | ⟨handler, gate, hone, hfree, hset⟩
      · exact .inl ⟨by rw [List.filterMap_cons_none hentry, hnone], hsame.1.trans hwrites.1, hsame.2.trans hwrites.2⟩
      · exact .inr ⟨handler, gate, by rw [List.filterMap_cons_none hentry, hone], hwrites.1.symm.trans hfree, hset⟩
    | some entry =>
      rw [hentry] at hwrites
      obtain ⟨hfree, hhandler, hgate⟩ := hwrites
      rcases ih hok with ⟨hnone, hsame⟩ | ⟨_, _, _, hfree', _⟩
      · exact .inr ⟨entry.1, entry.2, by rw [List.filterMap_cons_some hentry, hnone], hfree, hsame.1.trans hhandler,
          hsame.2.trans hgate⟩
      · rw [hhandler] at hfree'
        cases hfree'

/-! ## All runs -/

/-- **External interrupts are taken one at a time**: whatever threads, handlers and devices do, `intr_handler` never fails an
assertion, an external interrupt is acknowledged before the next is accepted, and the processor yields behind it just when it
was asked to.  While one is handled, interrupts are off, and no other thread is inside of one; otherwise no line is in service.
Each vector has the handler and the gate of its only registration. -/
theorem interrupts_orderly (hstub : ∀ v, stub v < 2 ^ 32) (hrun : Trace (Machine.Step stub) (intrInit stub) es s) :
    s.failure ≠ some .intrHandler ∧ s.failure ≠ some .endOfInterrupt ∧ (s.failure = none →
      (∃ v, Orderly s.log (if s.inExternalIntr then some (v, s.yieldOnReturn) else none)) ∧
      (if s.inExternalIntr then s.level = .off else s.pic0 = 0 ∧ s.pic1 = 0) ∧
      (∀ t, s.inExternalIntr = false ∨ t ≠ s.running → Clear (s.frames t)) ∧
      ∀ v,
        es.filterMap (Event.entry stub v) = [] ∧ s.intrHandlers v = none ∧ s.idt v = makeIntrGate (stub v) 0 ∨
        ∃ handler gate, es.filterMap (Event.entry stub v) = [(handler, gate)] ∧ s.intrHandlers v = some handler ∧
          s.idt v = gate) := by
  have hwritten := fun hok v => run_written (v := v) hrun hok
  rcases (intrInit_inv stub).run hstub rfl hrun with ⟨hok, hinv⟩ | hfail | hfail
  · refine ⟨by simp [hok], by simp [hok], fun _ => ⟨?_, ?_, fun t ht => ?_, fun v => ?_⟩⟩
    · cases hext : s.inExternalIntr with
      | false => exact ⟨0, (hinv.idle hext).2.2.2⟩
      | true =>
        obtain ⟨_, f, _, _, _, _, _, _, _, horderly⟩ := hinv.busy hext
        exact ⟨f.vecNo, horderly⟩
    · cases hext : s.inExternalIntr with
      | false =>
        obtain ⟨_, hp0, hp1, _⟩ := hinv.idle hext
        exact ⟨hp0, hp1⟩
      | true =>
        obtain ⟨_, _, _, _, _, _, _, hoff, _⟩ := hinv.busy hext
        exact hoff
    · by_cases hrunning : t = s.running
      · rw [hrunning]
        exact (hinv.idle (ht.resolve_right (not_not.mpr hrunning))).1
      · exact hinv.others t hrunning
    · rcases hwritten hok v with ⟨hnone, hsame⟩ | ⟨handler, gate, hone, _, hset⟩
      · exact .inl ⟨hnone, hsame⟩
      · exact .inr ⟨handler, gate, hone, hset⟩
  · exact ⟨by simp [hfail], by simp [hfail], fun hok => absurd (hok.symm.trans hfail) (by simp)⟩
  · exact ⟨by simp [hfail], by simp [hfail], fun hok => absurd (hok.symm.trans hfail) (by simp)⟩

/-- A timer interrupt that asks for a yield. -/
theorem interrupts_orderly_timer : ∃ s, Trace (Machine.Step fun _ => 0) (intrInit fun _ => 0)
      [.registerExt 0x20 7 "8254 Timer", .enable, .irq 0, .yieldOnReturn, .finish 1] s ∧ s.running = 1 ∧
    s.log = [.accepted 0x20, .asked, .acknowledged 0x20, .yielded] ∧ s.failure ≠ some .intrHandler ∧
      ∃ v, Orderly s.log (if s.inExternalIntr then some (v, s.yieldOnReturn) else none) := by
  have hrun : ∃ s, Trace (Machine.Step fun _ => 0) (intrInit fun _ => 0)
      [.registerExt 0x20 7 "8254 Timer", .enable, .irq 0, .yieldOnReturn, .finish 1] s ∧ s.running = 1 ∧
      s.log = [.accepted 0x20, .asked, .acknowledged 0x20, .yielded] ∧ s.failure = none :=
    ⟨_, .cons ⟨rfl, .registerExt 0x20 7 _ (by decide)⟩ (.cons ⟨rfl, .enable (by intro f hf; cases hf)⟩
      (.cons ⟨rfl, .master 0 (by decide) (by decide) rfl rfl⟩
        (.cons ⟨rfl, .yieldOnReturn (by intro f hf; cases hf; exact ⟨rfl, rfl⟩)⟩
          (.cons ⟨rfl, .finish _ [] 1 rfl rfl⟩ (.nil _))))), rfl, rfl, rfl⟩
  obtain ⟨s, hrun, hrunning, hlog, hok⟩ := hrun
  have horderly := interrupts_orderly (fun _ => by decide) hrun
  exact ⟨s, hrun, hrunning, hlog, horderly.1, (horderly.2.2 hok).1⟩

end Pintos.Threads.Interrupt
