import Pintos.Devices.Intq

/-!
# The serial port and the input buffer

`devices/serial.c` and `devices/input.c` over two interrupt queues: `txq` for the bytes to transmit and `buffer` for the
keys received.  Threads write and read, and may wait in either queue; interrupts of the port and of the keyboard come in
between.  What runs with interrupts off is one step, so `write_ier` belongs to the step behind which it comes.

* No byte is lost, doubled or overtaken, on the way out as on the way in, whichever way it is sent: polling, by the
  interrupt, or by a caller that may not wait (`Correct.output`, `Correct.input`).
* The port interrupts whenever there is something to do: a thread that waits for room, or for a key, is not left alone
  with a silent port (`Correct.writer`, `Correct.reader`).  `serial_flush` leaves the transmit interrupt on with nothing
  to transmit, so only one direction holds there.
-/

namespace Pintos.Devices

namespace InterruptQueue

/-! ## Threads that only put -/

/-- The call that a thread is in. -/
def Place.call : Place → Option Call
  | .outside => none
  | .test c | .asleep c | .woken c | .waiting c | .signalled c => some c

namespace System

/-- No thread is in `intq_getc`. -/
def OnlyPuts (s : System) : Prop := ∀ t, (s.place t).call ≠ some .getc

variable {b : Threads.Build} {priority : ℕ → ℤ} {s s' : System} {t u : ℕ} {c : Call} {d : Cond} {p : Place} {byte : UInt8}

theorem OnlyPuts.move (h : OnlyPuts s) (hp : p.call ≠ some .getc) : OnlyPuts (s.move t p) := by
  intro u
  apply forall_move fun _ p => p.call ≠ some .getc
  · exact hp
  · exact fun u _ => h u

theorem unblocked_call {p' : Place} (h : p.unblocked = some p') : p'.call = p.call := by
  cases p <;> simp_all [Place.unblocked, Place.call] <;> simp [← h]

theorem OnlyPuts.threadUnblock (h : OnlyPuts s) (u : ℕ) : OnlyPuts (s.threadUnblock u) := by
  unfold System.threadUnblock
  split
  · next p hp =>
    apply h.move
    rw [unblocked_call hp]
    exact h u
  · exact h

theorem threadUnblock_gets (s : System) (u : ℕ) : (s.threadUnblock u).gets = s.gets := by
  unfold threadUnblock
  split <;> rfl

theorem OnlyPuts.signal (h : OnlyPuts s) (d : Cond) : OnlyPuts (s.signal d) := by
  unfold System.signal
  split
  · split
    · exact h
    · exact h.threadUnblock _
  · exact h

theorem signal_gets (s : System) (d : Cond) : (s.signal d).gets = s.gets := by
  unfold signal
  split
  · split
    · rfl
    · exact threadUnblock_gets s _
  · rfl

theorem signal_puts (s : System) (d : Cond) : (s.signal d).puts = s.puts := by
  unfold signal threadUnblock
  split
  · split
    · rfl
    · dsimp only
      split <;> rfl
  · rfl

theorem signal_bytes (s : System) (d : Cond) : (s.signal d).q.bytes = s.q.bytes := by
  unfold signal
  split
  · split
    · rfl
    · rw [Intq.bytes_setWaiter, threadUnblock_q]
  · rfl

theorem OnlyPuts.finish (h : OnlyPuts s) (c : Call) : OnlyPuts (s.finish c) := by
  cases c with
  | getc =>
    show OnlyPuts (System.signal _ .notFull)
    apply OnlyPuts.signal
    exact h
  | putc byte =>
    show OnlyPuts (System.signal _ .notEmpty)
    apply OnlyPuts.signal
    exact h

@[simp] theorem finish_putc_gets (s : System) (byte : UInt8) : (s.finish (.putc byte)).gets = s.gets := signal_gets _ _

@[simp] theorem finish_putc_puts (s : System) (byte : UInt8) : (s.finish (.putc byte)).puts = s.puts ++ [byte] :=
  signal_puts _ _

@[simp] theorem finish_getc_puts (s : System) : (s.finish .getc).puts = s.puts := signal_puts _ _

@[simp] theorem finish_getc_gets (s : System) : (s.finish .getc).gets = s.gets ++ [s.q.bytes.buf s.q.bytes.tail] :=
  signal_gets _ _

@[simp] theorem finish_putc_bytes (s : System) (byte : UInt8) :
    (s.finish (.putc byte)).q.bytes = s.q.bytes.push bufSize byte := signal_bytes _ _

@[simp] theorem finish_getc_bytes (s : System) : (s.finish .getc).q.bytes = s.q.bytes.pop bufSize := signal_bytes _ _

/-- What a thread in `intq_putc` does. -/
structure PutStep (s s' : System) : Prop where
  only : OnlyPuts s'
  gets : s'.gets = s.gets

theorem down_putStep (h : OnlyPuts s) : PutStep s (s.down b priority t (.putc byte)) := by
  unfold down
  dsimp only
  split
  · unfold wait
    split
    · exact ⟨h, rfl⟩
    · exact ⟨OnlyPuts.move h (by simp [Place.call]), rfl⟩
  · exact ⟨OnlyPuts.move h (by simp [Place.call]), rfl⟩

theorem turn_putStep (h : OnlyPuts s) : PutStep s (s.turn b priority t (.putc byte)) := by
  unfold turn
  split
  · exact ⟨(h.finish _).move (by simp [Place.call]), finish_putc_gets s byte⟩
  · split
    · exact ⟨h, rfl⟩
    · exact down_putStep h

theorem lockRelease_putStep (h : OnlyPuts s) : PutStep s (s.lockRelease b priority t) := by
  unfold lockRelease
  split
  · dsimp only
    split
    · exact ⟨h, rfl⟩
    · apply PutStep.mk
      · apply OnlyPuts.threadUnblock
        exact h
      · exact threadUnblock_gets _ _
  · exact ⟨h, rfl⟩

theorem resume_putStep (h : OnlyPuts s) : PutStep s (s.resume b priority t (.putc byte)) := by
  have hrelease : PutStep s (s.lockRelease b priority t) := lockRelease_putStep h
  have htest : PutStep s ((s.lockRelease b priority t).move t (.test (.putc byte))) :=
    ⟨hrelease.only.move (by simp [Place.call]), hrelease.gets⟩
  unfold resume
  cases b with
  | threads => exact htest
  | userprog =>
    dsimp only
    split
    · have hturn : PutStep ((s.lockRelease .userprog priority t).move t (.test (.putc byte)))
          (((s.lockRelease .userprog priority t).move t (.test (.putc byte))).turn .userprog priority t (.putc byte)) :=
        turn_putStep htest.only
      exact ⟨hturn.only, hturn.gets.trans htest.gets⟩
    · exact htest

end System

/-- The thread that takes a step. -/
def Act.thread : Act → Option ℕ
  | .call t _ | .test t | .retest t | .resume t => some t
  | .interrupt _ => none

namespace System

variable {b : Threads.Build} {priority : ℕ → ℤ} {s s' : System} {t : ℕ} {c : Call} {a : Act}

/-- A thread in `intq_putc` takes a step. -/
theorem step_putStep (hs : s.step b priority a = some s') (h : OnlyPuts s) (ht : a.thread = some t)
    (ha : a ≠ .call t .getc) : PutStep s s' := by
  have hput : ∀ {c}, (s.place t).call = some c → ∃ byte, c = .putc byte := by
    intro c hc
    cases c with
    | getc => exact absurd hc (h t)
    | putc byte => exact ⟨byte, rfl⟩
  unfold step at hs
  split at hs
  · cases a with
    | call u c =>
      obtain rfl : u = t := Option.some.inj ht
      dsimp only at hs
      split at hs
      · cases hs
        cases c with
        | getc => exact absurd rfl ha
        | putc byte => exact turn_putStep h
      · cases hs
    | test u =>
      obtain rfl : u = t := Option.some.inj ht
      dsimp only at hs
      split at hs
      · next c hp =>
        cases hs
        obtain ⟨byte, rfl⟩ := hput (by rw [hp]; rfl)
        exact turn_putStep h
      · cases hs
    | retest u =>
      obtain rfl : u = t := Option.some.inj ht
      dsimp only at hs
      split at hs
      · next c hp =>
        cases hs
        obtain ⟨byte, rfl⟩ := hput (by rw [hp]; rfl)
        exact down_putStep h
      · cases hs
    | resume u =>
      obtain rfl : u = t := Option.some.inj ht
      dsimp only at hs
      split at hs
      · next c hp =>
        cases hs
        obtain ⟨byte, rfl⟩ := hput (by rw [hp]; rfl)
        exact resume_putStep h
      · cases hs
    | interrupt c => cases ht
  · cases hs

/-- The thread is back from its call, or nothing has happened to the bytes. -/
def Settles (s : System) (t : ℕ) (s' : System) : Prop := s'.place t = .outside ∨ s'.q.bytes = s.q.bytes

theorem down_bytes : (s.down b priority t c).q.bytes = s.q.bytes := by
  unfold down
  dsimp only
  split
  · unfold wait
    split
    · rfl
    · exact Intq.bytes_setWaiter
  · rfl

theorem turn_settles : s.Settles t (s.turn b priority t c) := by
  unfold turn
  split
  · exact .inl move_place_self
  · split
    · exact .inr rfl
    · exact .inr down_bytes

theorem lockRelease_bytes : (s.lockRelease b priority t).q.bytes = s.q.bytes := by
  unfold lockRelease
  split
  · dsimp only
    split
    · rfl
    · rw [threadUnblock_q]
  · rfl

theorem resume_settles : s.Settles t (s.resume b priority t c) := by
  unfold resume
  cases b with
  | threads => exact .inr lockRelease_bytes
  | userprog =>
    dsimp only
    split
    · have hturn : ((s.lockRelease .userprog priority t).move t (.test c)).Settles t
          (((s.lockRelease .userprog priority t).move t (.test c)).turn .userprog priority t c) := turn_settles
      rcases hturn with hout | hbytes
      · exact .inl hout
      · exact .inr (hbytes.trans lockRelease_bytes)
    · exact .inr lockRelease_bytes

theorem step_settles (hs : s.step b priority a = some s') (ht : a.thread = some t) : s.Settles t s' := by
  unfold step at hs
  split at hs
  · cases a with
    | call u c =>
      obtain rfl : u = t := Option.some.inj ht
      dsimp only at hs
      split at hs
      · cases hs
        exact turn_settles
      · cases hs
    | test u =>
      obtain rfl : u = t := Option.some.inj ht
      dsimp only at hs
      split at hs
      · cases hs
        exact turn_settles
      · cases hs
    | retest u =>
      obtain rfl : u = t := Option.some.inj ht
      dsimp only at hs
      split at hs
      · cases hs
        exact .inr down_bytes
      · cases hs
    | resume u =>
      obtain rfl : u = t := Option.some.inj ht
      dsimp only at hs
      split at hs
      · cases hs
        exact resume_settles
      · cases hs
    | interrupt c => cases ht
  · cases hs

/-- A step keeps the invariant, or an assertion has failed. -/
theorem Inv.step_or_fails (h : Inv s) (hs : s.step b priority a = some s') : s'.failure = none → Inv s' := by
  intro hrunning
  have hs' : s.Step b a s' := ⟨priority, hs⟩
  apply h.step hs'
  by_contra hstill
  rw [step_fails hs' hstill] at hrunning
  cases hrunning

end System

end InterruptQueue

namespace Serial

open InterruptQueue (System Call Act Intq bufSize)
open InterruptQueue.System (Inv OnlyPuts Settles)
open Threads (Build)

/-! ## The code -/

/-- `mode` -/
inductive Mode
  | uninit
  | poll
  | queue
  deriving DecidableEq

/-- `IER_RECV` -/
def ierRecv : UInt8 := 0x01

/-- `IER_XMIT` -/
def ierXmit : UInt8 := 0x02

/-- `mode`, `txq`, `buffer` of the input, and the interrupt enable register.  `sent` is what has gone to the line, and
`direct` what `serial_putc` has sent there without the queue. -/
structure Port where
  mode : Mode
  txq : System
  buffer : System
  ier : UInt8
  sent : List UInt8
  direct : List UInt8

namespace Port

/-- `write_ier` -/
def writeIer (s : Port) : Port :=
  { s with ier := (if s.txq.q.empty then 0 else ierXmit) ||| (if s.buffer.q.full then 0 else ierRecv) }

/-- `serial_notify` -/
def serialNotify (s : Port) : Port := if s.mode = .queue then s.writeIer else s

/-- `init_poll` -/
def initPoll (s : Port) : Port :=
  if s.mode = .uninit then
    { s with mode := .poll, ier := 0, txq := { s.txq with q := Intq.init s.txq.q.bytes.buf } }
  else s

/-- `serial_init_queue`, which asserts that the mode is `POLL`. -/
def serialInitQueue (s : Port) : Option Port :=
  if s.initPoll.mode = .poll then some { s.initPoll with mode := .queue }.writeIer else none

/-- A byte from the queue goes to the line, as the interrupt handler sends it and `putc_poll (intq_getc (&txq))`. -/
def sendNext (s : Port) : Port :=
  { s with sent := s.sent ++ [s.txq.q.bytes.buf s.txq.q.bytes.tail], txq := s.txq.finish .getc }

/-- The second loop of `serial_interrupt`, with as many rounds as the line is ready for. -/
def transmit : ℕ → Port → Port
  | 0, s => s
  | n + 1, s => if s.txq.q.empty then s else transmit n s.sendNext

/-- `input_putc`, when the buffer is not full. -/
def inputPutc (s : Port) (key : UInt8) : Port :=
  { s with buffer := s.buffer.finish (.putc key) }.serialNotify

/-- The first loop of `serial_interrupt`, with the bytes that have come in. -/
def receive : List UInt8 → Port → Port
  | [], s => s
  | byte :: bytes, s => if s.buffer.q.full then s else receive bytes (s.inputPutc byte)

/-- `serial_interrupt` -/
def serialInterrupt (s : Port) (received : List UInt8) (ready : ℕ) : Port :=
  (transmit ready (receive received s)).writeIer

/-- `serial_flush` -/
def serialFlush (s : Port) : Port := transmit bufSize s

/-- `serial_putc` in polling mode. -/
def putcPoll (s : Port) (byte : UInt8) : Port :=
  { s.initPoll with sent := s.sent ++ [byte], direct := s.direct ++ [byte] }

/-- `serial_putc` of a caller with interrupts off. -/
def putcOff (s : Port) (byte : UInt8) : Port :=
  if s.mode = .queue then
    let s := if s.txq.q.full then s.sendNext else s
    { s with txq := s.txq.finish (.putc byte) }.writeIer
  else s.putcPoll byte

/-- A thread takes a step in `intq_putc`, and comes to `write_ier` if it returns. -/
def txStep (b : Build) (priority : ℕ → ℤ) (s : Port) (t : ℕ) (a : Act) : Option Port :=
  (s.txq.step b priority a).map fun q =>
    if q.place t = .outside then { s with txq := q }.writeIer else { s with txq := q }

/-- A thread takes a step in `intq_getc`, and comes to `serial_notify` if it returns. -/
def rxStep (b : Build) (priority : ℕ → ℤ) (s : Port) (t : ℕ) (a : Act) : Option Port :=
  (s.buffer.step b priority a).map fun q =>
    if q.place t = .outside then { s with buffer := q }.serialNotify else { s with buffer := q }

/-- The thread is in no call. -/
def idle (s : Port) (t : ℕ) : Prop := s.txq.place t = .outside ∧ s.buffer.place t = .outside

instance idleDecidable (s : Port) (t : ℕ) : Decidable (s.idle t) := inferInstanceAs (Decidable (_ ∧ _))

end Port

/-- The ways on for a thread that is in a call. -/
inductive Go
  | test
  | retest
  | resume
  deriving DecidableEq

def Go.act (t : ℕ) : Go → Act
  | test => .test t
  | retest => .retest t
  | resume => .resume t

inductive Event
  /-- `serial_putc` with interrupts on. -/
  | putc (t : ℕ) (byte : UInt8)
  | putcOff (byte : UInt8)
  /-- `input_getc` -/
  | getc (t : ℕ)
  /-- A thread goes on in `intq_putc`. -/
  | putcOn (t : ℕ) (g : Go)
  /-- A thread goes on in `intq_getc`. -/
  | getcOn (t : ℕ) (g : Go)
  /-- `input_putc` by the keyboard interrupt. -/
  | key (byte : UInt8)
  | interrupt (received : List UInt8) (ready : ℕ)
  | flush
  | initQueue

namespace Port

/-- A step.  None is taken after an assertion has failed. -/
def step (b : Build) (priority : ℕ → ℤ) (s : Port) (e : Event) : Option Port :=
  if s.txq.failure = none ∧ s.buffer.failure = none then
    match e with
    | .putc t byte =>
      if s.idle t then
        if s.mode = .queue then s.txStep b priority t (.call t (.putc byte)) else some (s.putcPoll byte)
      else none
    | .putcOff byte => some (s.putcOff byte)
    | .getc t => if s.idle t then s.rxStep b priority t (.call t .getc) else none
    | .putcOn t g => s.txStep b priority t (g.act t)
    | .getcOn t g => s.rxStep b priority t (g.act t)
    | .key byte => if s.buffer.q.full then none else some (s.inputPutc byte)
    | .interrupt received ready => if s.mode = .queue then some (s.serialInterrupt received ready) else none
    | .flush => some s.serialFlush
    | .initQueue => s.serialInitQueue
  else none

/-- A step, at the priorities of its time. -/
def Step (b : Build) (s : Port) (e : Event) (s' : Port) : Prop := ∃ priority, s.step b priority e = some s'

/-- `input_init` has been called; `txq` holds zeros. -/
def booted (buf : ℕ → UInt8) : Port :=
  ⟨.uninit, ⟨⟨⟨0, []⟩, none, none, none, ⟨fun _ => 0, 0, 0⟩⟩, fun _ => .outside, [], [], none⟩, System.init buf, 0, [], []⟩

/-! ## The invariant -/

/-- The bytes on their way, and the queues. -/
structure Core (s : Port) : Prop where
  txq : s.mode ≠ .uninit → Inv s.txq
  buffer : Inv s.buffer
  only : OnlyPuts s.txq
  sent : s.sent = s.direct ++ s.txq.gets
  early : s.mode ≠ .queue →
    ∃ q, s.txq = ⟨q, fun _ => .outside, [], [], none⟩ ∧ q.bytes.head = 0 ∧ q.bytes.tail = 0

/-- The port interrupts when there is something to do. -/
structure Good (s : Port) : Prop extends Core s where
  xmit : s.mode = .queue → s.txq.q.empty = false → s.ier &&& ierXmit ≠ 0
  recv : s.mode = .queue → (s.ier &&& ierRecv ≠ 0 ↔ s.buffer.q.full = false)

variable {b : Build} {priority : ℕ → ℤ} {s s' : Port} {t : ℕ} {byte : UInt8} {e : Event} {a : Act}

theorem ier_bits (empty full : Bool) :
    (((if empty then 0 else ierXmit) ||| (if full then 0 else ierRecv)) &&& ierXmit ≠ 0 ↔ empty = false) ∧
      (((if empty then 0 else ierXmit) ||| (if full then 0 else ierRecv)) &&& ierRecv ≠ 0 ↔ full = false) := by
  cases empty <;> cases full <;> decide

theorem Core.writeIer (h : Core s) : Good s.writeIer where
  toCore := ⟨h.txq, h.buffer, h.only, h.sent, h.early⟩
  xmit _ := (ier_bits s.txq.q.empty s.buffer.q.full).1.mpr
  recv _ := (ier_bits s.txq.q.empty s.buffer.q.full).2

theorem Core.early_good (h : Core s) (hm : s.mode ≠ .queue) : Good s :=
  ⟨h, fun hq => absurd hq hm, fun hq => absurd hq hm⟩

theorem Core.serialNotify (h : Core s) : Good s.serialNotify := by
  unfold Port.serialNotify
  split
  · exact h.writeIer
  · next hm => exact h.early_good hm

theorem Core.of_early {q : Intq} (htxq : s.txq = ⟨q, fun _ => .outside, [], [], none⟩)
    (hhead : q.bytes.head = 0) (htail : q.bytes.tail = 0) (hinv : s.mode ≠ .uninit → Inv s.txq) (hbuffer : Inv s.buffer)
    (hsent : s.sent = s.direct) : Core s := by
  refine ⟨hinv, hbuffer, ?_, ?_, fun _ => ⟨q, htxq, hhead, htail⟩⟩
  · intro t
    simp [htxq, InterruptQueue.Place.call]
  · simp [hsent, htxq]

theorem booted_core (buf : ℕ → UInt8) : Core (booted buf) :=
  .of_early rfl rfl rfl (fun h => absurd rfl h) (System.init_inv buf) rfl

theorem Core.empty_early (h : Core s) (hm : s.mode ≠ .queue) : s.txq.q.empty = true := by
  obtain ⟨q, htxq, hhead, htail⟩ := h.early hm
  simp [htxq, Intq.empty, hhead, htail]

theorem Core.initPoll (h : Core s) : Core s.initPoll ∧ s.initPoll.mode ≠ .uninit := by
  unfold Port.initPoll
  split
  · next hm =>
    have hne : s.mode ≠ .queue := by
      rw [hm]
      decide
    obtain ⟨q, htxq, _, _⟩ := h.early hne
    have hsent := h.sent
    simp only [htxq, List.append_nil] at hsent ⊢
    exact ⟨.of_early rfl rfl rfl (fun _ => System.init_inv _) h.buffer hsent, by simp⟩
  · next hm => exact ⟨h, hm⟩

theorem Core.putcPoll (h : Core s) (hm : s.mode ≠ .queue) (byte : UInt8) : Good (s.putcPoll byte) := by
  obtain ⟨hcore, hinit⟩ := h.initPoll
  have hmode : s.initPoll.mode ≠ .queue := by
    unfold Port.initPoll
    split
    · simp
    · exact hm
  obtain ⟨q, htxq, hhead, htail⟩ := hcore.early hmode
  have hsent : s.sent = s.direct := by
    obtain ⟨q, htxq, _⟩ := h.early hm
    rw [h.sent, htxq, List.append_nil]
  have hcore' : Core (s.putcPoll byte) :=
    .of_early htxq hhead htail hcore.txq hcore.buffer (by simp [Port.putcPoll, hsent])
  exact hcore'.early_good hmode

/-- The next byte of a queue that is not empty goes to the line. -/
theorem Core.sendNext (h : Core s) (hm : s.mode = .queue) (hne : s.txq.q.empty = false) : Core s.sendNext := by
  have hinv := h.txq (by rw [hm]; decide)
  refine ⟨fun _ => hinv.finish (c := .getc) ?_, h.buffer, h.only.finish .getc, ?_, fun hq => absurd hm hq⟩
  · simp [Intq.has, Call.waitsFor, hne]
  · simp [Port.sendNext, h.sent]

/-- What `sendNext` takes. -/
theorem Core.contents_sendNext (h : Core s) (hm : s.mode = .queue) (hne : s.txq.q.empty = false) :
    s.txq.q.bytes.contents bufSize =
      s.txq.q.bytes.buf s.txq.q.bytes.tail :: s.sendNext.txq.q.bytes.contents bufSize := by
  have hinv := h.txq (by rw [hm]; decide)
  have hpop := hinv.bounded.contents_pop (by simpa [Intq.empty] using hne)
  simpa [Port.sendNext] using hpop

/-- **The transmit loop** sends the first bytes of the queue. -/
theorem Core.transmit (h : Core s) (n : ℕ) : Core (transmit n s) ∧ (transmit n s).mode = s.mode ∧
    (transmit n s).buffer = s.buffer ∧ (transmit n s).ier = s.ier ∧
    ((transmit n s).txq.q.empty = false → s.txq.q.empty = false) ∧
    (s.mode = .queue → (transmit n s).sent = s.sent ++ (s.txq.q.bytes.contents bufSize).take n) := by
  induction n generalizing s with
  | zero => simp [Port.transmit, h]
  | succ n ih =>
    rw [Port.transmit]
    cases hempty : s.txq.q.empty with
    | true =>
      refine ⟨h, rfl, rfl, rfl, fun hne => by simp [hempty] at hne, fun hm => ?_⟩
      have hinv := h.txq (by rw [hm]; decide)
      have hnil := hinv.bounded.empty_iff.mp (by simpa [Intq.empty] using hempty)
      simp [hnil]
    | false =>
      have hm : s.mode = .queue := by
        by_contra hm
        rw [h.empty_early hm] at hempty
        cases hempty
      obtain ⟨hcore, hmode, hbuffer, hier, _, hsent⟩ := ih (h.sendNext hm hempty)
      refine ⟨hcore, hmode, hbuffer, hier, fun _ => rfl, fun _ => ?_⟩
      rw [h.contents_sendNext hm hempty, List.take_succ_cons]
      simp only [Bool.false_eq_true, if_false]
      rw [hsent hm]
      simp [Port.sendNext]

/-- **The receive loop** takes what the buffer has room for. -/
theorem Core.receive (h : Core s) (received : List UInt8) : Core (receive received s) ∧
    (receive received s).txq = s.txq ∧ (receive received s).mode = s.mode ∧ (receive received s).sent = s.sent ∧
    (receive received s).buffer.puts =
      s.buffer.puts ++ received.take (bufSize - 1 - (s.buffer.q.bytes.contents bufSize).length) := by
  induction received generalizing s with
  | nil => simp [Port.receive, h]
  | cons byte received ih =>
    rw [Port.receive]
    have hbounded := h.buffer.bounded
    have hlen := hbounded.length_contents_lt
    cases hfull : s.buffer.q.full with
    | true =>
      have hroom := hbounded.full_iff.mp (by simpa [Intq.full] using hfull)
      have hzero : bufSize - 1 - (s.buffer.q.bytes.contents bufSize).length = 0 := by omega
      rw [hzero, List.take_zero]
      simp [h]
    | false =>
      have hnot : Circular.next bufSize s.buffer.q.bytes.head ≠ s.buffer.q.bytes.tail := by
        simpa [Intq.full] using hfull
      have hpush := hbounded.contents_push hnot byte
      have hput : Core { s with buffer := s.buffer.finish (.putc byte) } :=
        ⟨h.txq, h.buffer.finish (c := .putc byte) (by simp [Intq.has, Call.waitsFor, hfull]), h.only, h.sent, h.early⟩
      have hcore : Core (s.inputPutc byte) := hput.serialNotify.toCore
      have hsame : (s.inputPutc byte).txq = s.txq ∧ (s.inputPutc byte).mode = s.mode ∧
          (s.inputPutc byte).sent = s.sent ∧ (s.inputPutc byte).buffer = s.buffer.finish (.putc byte) := by
        unfold Port.inputPutc Port.serialNotify
        split <;> simp [Port.writeIer]
      obtain ⟨htxq, hmode, hsent, hbuffer⟩ := hsame
      obtain ⟨hcore', htxq', hmode', hsent', hputs⟩ := ih hcore
      simp only [Bool.false_eq_true, if_false]
      refine ⟨hcore', htxq'.trans htxq, hmode'.trans hmode, hsent'.trans hsent, ?_⟩
      have hroom : (s.buffer.q.bytes.contents bufSize).length + 1 ≠ bufSize := fun heq =>
        hnot (hbounded.full_iff.mpr heq)
      obtain ⟨k, hk⟩ : ∃ k, bufSize - 1 - (s.buffer.q.bytes.contents bufSize).length = k + 1 :=
        Nat.exists_eq_add_one_of_ne_zero (by omega)
      have hk' : bufSize - 1 - ((s.buffer.q.bytes.contents bufSize).length + 1) = k := by omega
      rw [hputs, hbuffer, System.finish_putc_bytes, hpush, List.length_append, List.length_singleton, hk, hk']
      simp

/-- **An interrupt** sends the first bytes of the queue, and takes what there is room for. -/
theorem Core.serialInterrupt (h : Core s) (hm : s.mode = .queue) (received : List UInt8) (ready : ℕ) :
    Good (s.serialInterrupt received ready) ∧
      (s.serialInterrupt received ready).sent = s.sent ++ (s.txq.q.bytes.contents bufSize).take ready ∧
      (s.serialInterrupt received ready).buffer.puts =
        s.buffer.puts ++ received.take (bufSize - 1 - (s.buffer.q.bytes.contents bufSize).length) := by
  obtain ⟨hcore, htxq, hmode, hsent, hputs⟩ := h.receive received
  obtain ⟨hcore', _, hbuffer, _, _, hsent'⟩ := hcore.transmit ready
  refine ⟨hcore'.writeIer, ?_, ?_⟩
  · show (Port.transmit ready _).sent = _
    rw [hsent' (hmode.trans hm), hsent, htxq]
  · show (Port.transmit ready _).buffer.puts = _
    rw [hbuffer, hputs]

theorem Core.putcOff (h : Core s) (hm : s.mode = .queue) (byte : UInt8) : Good (s.putcOff byte) := by
  have hput : ∀ {s : Port}, Core s → s.mode = .queue → s.txq.q.full = false →
      Good { s with txq := s.txq.finish (.putc byte) }.writeIer := by
    intro s h hm hroom
    have hinv := h.txq (by rw [hm]; decide)
    apply Core.writeIer
    refine ⟨fun _ => hinv.finish (c := .putc byte) ?_, h.buffer, h.only.finish _, ?_, fun hq => absurd hm hq⟩
    · simp [Intq.has, Call.waitsFor, hroom]
    · simp [h.sent]
  rw [Port.putcOff, if_pos hm]
  cases hfull : s.txq.q.full with
  | false => exact hput h hm hfull
  | true =>
    have hbounded := (h.txq (by rw [hm]; decide)).bounded
    have hlen := hbounded.full_iff.mp (by simpa [Intq.full] using hfull)
    have hne : s.txq.q.empty = false := by
      by_contra hempty
      have hnil := hbounded.empty_iff.mp (by simpa [Intq.empty] using hempty)
      simp [hnil] at hlen
    have hcore := h.sendNext hm hne
    have hcontents := h.contents_sendNext hm hne
    apply hput hcore hm
    by_contra hfull'
    have hlen' := (hcore.txq (by rw [show s.sendNext.mode = .queue from hm]; decide)).bounded.full_iff.mp
      (by simpa [Intq.full] using hfull')
    rw [hcontents, List.length_cons] at hlen
    omega

/-- A thread takes a step in `serial_putc`. -/
theorem Good.txStep (h : Good s) (hm : s.mode = .queue) (ha : a.thread = some t) (hput : a ≠ .call t .getc)
    (hs : s.txStep b priority t a = some s') (hrunning : s'.txq.failure = none) : Good s' := by
  obtain ⟨q, hq, heq⟩ := Option.map_eq_some_iff.mp hs
  obtain ⟨honly, hgets⟩ := System.step_putStep hq h.only ha hput
  have hrun : q.failure = none := by
    rw [← heq] at hrunning
    split at hrunning <;> exact hrunning
  have hinv := (h.txq (by rw [hm]; decide)).step_or_fails hq hrun
  have hcore : Core { s with txq := q } :=
    ⟨fun _ => hinv, h.buffer, honly, by simp [h.sent, hgets], fun hne => absurd hm hne⟩
  rw [← heq]
  split
  · exact hcore.writeIer
  · next hout =>
    have hbytes := (System.step_settles hq ha).resolve_left hout
    refine ⟨hcore, fun _ => ?_, h.recv⟩
    show q.q.empty = false → s.ier &&& ierXmit ≠ 0
    rw [Intq.empty, hbytes]
    exact h.xmit hm

/-- A thread takes a step in `input_getc`. -/
theorem Good.rxStep (h : Good s) (ha : a.thread = some t) (hs : s.rxStep b priority t a = some s')
    (hrunning : s'.buffer.failure = none) : Good s' := by
  obtain ⟨q, hq, heq⟩ := Option.map_eq_some_iff.mp hs
  have hrun : q.failure = none := by
    rw [← heq] at hrunning
    unfold Port.serialNotify at hrunning
    split at hrunning
    · split at hrunning <;> exact hrunning
    · exact hrunning
  have hcore : Core { s with buffer := q } := ⟨h.txq, h.buffer.step_or_fails hq hrun, h.only, h.sent, h.early⟩
  rw [← heq]
  split
  · exact hcore.serialNotify
  · next hout =>
    have hbytes := (System.step_settles hq ha).resolve_left hout
    refine ⟨hcore, h.xmit, fun hm => ?_⟩
    show s.ier &&& ierRecv ≠ 0 ↔ q.q.full = false
    rw [Intq.full, hbytes]
    exact h.recv hm

theorem Good.serialFlush (h : Good s) : Good s.serialFlush := by
  obtain ⟨hcore, hmode, hbuffer, hier, hne, _⟩ := h.toCore.transmit bufSize
  refine ⟨hcore, fun hm hempty => ?_, fun hm => ?_⟩
  · show (Port.transmit bufSize s).ier &&& ierXmit ≠ 0
    rw [hier]
    exact h.xmit (hmode ▸ hm) (hne hempty)
  · show (Port.transmit bufSize s).ier &&& ierRecv ≠ 0 ↔ (Port.transmit bufSize s).buffer.q.full = false
    rw [hier, hbuffer]
    exact h.recv (hmode ▸ hm)

theorem Core.serialInitQueue (h : Core s) (hs : s.serialInitQueue = some s') : Good s' := by
  obtain ⟨hcore, hinit⟩ := h.initPoll
  unfold Port.serialInitQueue at hs
  split at hs
  · cases hs
    apply Core.writeIer
    exact ⟨fun _ => hcore.txq hinit, hcore.buffer, hcore.only, hcore.sent, fun hne => absurd rfl hne⟩
  · cases hs

theorem Core.inputPutc (h : Core s) (hfull : s.buffer.q.full = false) (byte : UInt8) : Good (s.inputPutc byte) := by
  apply Core.serialNotify
  exact ⟨h.txq, h.buffer.finish (c := .putc byte) (by simp [Intq.has, Call.waitsFor, hfull]), h.only, h.sent, h.early⟩

theorem go_thread (g : Go) : (g.act t).thread = some t := by cases g <;> rfl

theorem go_not_call (g : Go) (c : Call) : g.act t ≠ .call t c := by cases g <;> simp [Go.act]

/-- Before the queue is used, no thread is in it. -/
theorem Core.no_step (h : Core s) (hm : s.mode ≠ .queue) (g : Go) : s.txq.step b priority (g.act t) = none := by
  obtain ⟨q, htxq, _⟩ := h.early hm
  rw [htxq]
  cases g <;> simp [Go.act, System.step]

/-- **Every step**, unless an assertion fails. -/
theorem Good.step (h : Good s) (hs : s.Step b e s') (htxq : s'.txq.failure = none) (hbuffer : s'.buffer.failure = none) :
    Good s' := by
  obtain ⟨priority, hs⟩ := hs
  unfold Port.step at hs
  split at hs
  · cases e with
    | putc t byte =>
      dsimp only at hs
      split at hs
      · split at hs
        · next hm => exact h.txStep hm rfl (by simp) hs htxq
        · next hm =>
          cases hs
          exact h.toCore.putcPoll hm byte
      · cases hs
    | putcOff byte =>
      cases hs
      by_cases hm : s.mode = .queue
      · exact h.toCore.putcOff hm byte
      · rw [Port.putcOff, if_neg hm]
        exact h.toCore.putcPoll hm byte
    | getc t =>
      dsimp only at hs
      split at hs
      · exact h.rxStep rfl hs hbuffer
      · cases hs
    | putcOn t g =>
      by_cases hm : s.mode = .queue
      · exact h.txStep hm (go_thread g) (go_not_call g _) hs htxq
      · dsimp only [Port.txStep] at hs
        rw [h.toCore.no_step hm] at hs
        cases hs
    | getcOn t g => exact h.rxStep (go_thread g) hs hbuffer
    | key byte =>
      dsimp only at hs
      split at hs
      · cases hs
      · next hfull =>
        cases hs
        exact h.toCore.inputPutc (Bool.eq_false_iff.mpr hfull) byte
    | interrupt received ready =>
      dsimp only at hs
      split at hs
      · next hm =>
        cases hs
        exact (h.toCore.serialInterrupt hm received ready).1
      · cases hs
    | flush =>
      cases hs
      exact h.serialFlush
    | initQueue => exact h.toCore.serialInitQueue hs
  · cases hs

theorem Step.running (hs : s.Step b e s') : s.txq.failure = none ∧ s.buffer.failure = none := by
  obtain ⟨priority, hs⟩ := hs
  unfold Port.step at hs
  split at hs
  · assumption
  · cases hs

/-! ## Runs -/

/-- Nothing is lost, and the port interrupts when somebody needs it. -/
structure Correct (s : Port) : Prop where
  output : s.direct ++ s.txq.puts = s.sent ++ s.txq.q.bytes.contents bufSize
  input : s.buffer.puts = s.buffer.gets ++ s.buffer.q.bytes.contents bufSize
  writer : ∀ t byte, s.txq.place t = .waiting (.putc byte) → s.mode = .queue ∧ s.ier &&& ierXmit ≠ 0
  reader : ∀ t, s.buffer.place t = .waiting .getc → s.mode = .queue → s.ier &&& ierRecv ≠ 0
  interrupt : s.mode = .queue → ∀ received ready,
    (s.serialInterrupt received ready).sent = s.sent ++ (s.txq.q.bytes.contents bufSize).take ready ∧
    (s.serialInterrupt received ready).buffer.puts =
      s.buffer.puts ++ received.take (bufSize - 1 - (s.buffer.q.bytes.contents bufSize).length)

theorem Good.correct (h : Good s) : Correct s where
  output := by
    by_cases hm : s.mode = .queue
    · have hfifo := (h.txq (by rw [hm]; decide)).fifo
      rw [h.sent, List.append_assoc, ← hfifo]
    · obtain ⟨q, htxq, hhead, htail⟩ := h.early hm
      have hlen : q.bytes.length bufSize = 0 := by
        rw [Circular.length, hhead, htail]
        rfl
      simp [h.sent, htxq, Circular.contents, hlen]
  input := h.buffer.fifo
  writer t byte hw := by
    have hm : s.mode = .queue := by
      by_contra hm
      obtain ⟨q, htxq, _⟩ := h.early hm
      rw [htxq] at hw
      cases hw
    have hinv := h.txq (by rw [hm]; decide)
    have hfull := hinv.waits t _ hw
    refine ⟨hm, h.xmit hm ?_⟩
    by_contra hempty
    have hnil := hinv.bounded.empty_iff.mp (by simpa [Intq.empty] using hempty)
    have hlen := hinv.bounded.full_iff.mp (by simpa [Intq.has, Call.waitsFor, Intq.full] using hfull)
    simp [hnil] at hlen
  reader t hw hm := by
    have hempty := h.buffer.waits t _ hw
    apply (h.recv hm).mpr
    by_contra hfull
    have hnil := h.buffer.bounded.empty_iff.mp (by simpa [Intq.has, Call.waitsFor, Intq.empty] using hempty)
    have hlen := h.buffer.bounded.full_iff.mp (by simpa [Intq.full] using hfull)
    simp [hnil] at hlen
  interrupt hm received ready := (h.toCore.serialInterrupt hm received ready).2

/-- **Whatever threads and interrupts do, unless an assertion of the queues fails.** -/
theorem serial_correct {buf : ℕ → UInt8} {es : List Event} (h : Trace (Step b) (booted buf) es s)
    (htxq : s.txq.failure = none) (hbuffer : s.buffer.failure = none) : Correct s := by
  suffices hgood : s.txq.failure = none → s.buffer.failure = none → Good s from (hgood htxq hbuffer).correct
  refine h.invariant (I := fun s => s.txq.failure = none → s.buffer.failure = none → Good s) ?_ fun _ _ => ?_
  · intro s e s' hgood hs
    exact (hgood hs.running.1 hs.running.2).step hs
  · exact (booted_core buf).early_good (by simp [booted])

/-- A byte before the queue is there and one after it, and a key. -/
theorem serial_correct_run : ∃ s, s.sent = [65, 66] ∧ s.buffer.gets = [7] ∧ Correct s := by
  have hrun : Trace (Step .userprog) (booted fun _ => 0)
      [.putc 0 65, .initQueue, .putc 0 66, .interrupt [7] 1, .getc 0] _ :=
    .cons ⟨fun _ => 0, rfl⟩ (.cons ⟨fun _ => 0, rfl⟩ (.cons ⟨fun _ => 0, rfl⟩ (.cons ⟨fun _ => 0, rfl⟩
      (.cons ⟨fun _ => 0, rfl⟩ (.nil _)))))
  exact ⟨_, rfl, rfl, serial_correct hrun rfl rfl⟩

end Port

end Serial

end Pintos.Devices
