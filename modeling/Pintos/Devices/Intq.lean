import Pintos.Library.Circular
import Pintos.Library.Trace
import Pintos.Threads.Semaphore

/-!
# Interrupt queues

`intq_getc` and `intq_putc` of `devices/intq.c`, as any number of threads and the interrupt handlers call them.
Interrupts are off from the call on, so a step is what a thread does until it blocks or yields in `threads/synch.c`, or
until it returns.  Which thread comes next is left open, and so is when an interrupt comes in between.

* The bytes are a first-in first-out queue (`Inv.fifo`), and one thread at most waits (`Inv.unique`).
* `lock_acquire` may sleep after the test of the loop, so the condition may hold when `wait` asserts that it does not
  (`intq_wait_fails`).  `intq_correct` has the steps without that: a thread that has slept in `lock_acquire` gets the
  lock while the queue is still empty (in `intq_putc`: full).
-/

namespace Pintos.Devices.InterruptQueue

open Pintos.Threads

/-! ## The queue -/

/-- `struct intq` -/
structure Intq where
  semaphore : Semaphore
  holder : Option ℕ
  notFull : Option ℕ
  notEmpty : Option ℕ
  /-- `buf`, `head` and `tail`. -/
  bytes : Circular UInt8

/-- `INTQ_BUFSIZE` -/
abbrev bufSize : ℕ := 64

/-- What a thread may wait for. -/
inductive Cond
  | notFull
  | notEmpty
  deriving DecidableEq

namespace Intq

/-- `intq_empty` -/
def empty (q : Intq) : Bool := q.bytes.head == q.bytes.tail

/-- `intq_full` -/
def full (q : Intq) : Bool := Circular.next bufSize q.bytes.head == q.bytes.tail

def has (q : Intq) : Cond → Bool
  | .notFull => !q.full
  | .notEmpty => !q.empty

/-- `*waiter` -/
def waiter (q : Intq) : Cond → Option ℕ
  | .notFull => q.notFull
  | .notEmpty => q.notEmpty

def setWaiter (q : Intq) (o : Option ℕ) : Cond → Intq
  | .notFull => { q with notFull := o }
  | .notEmpty => { q with notEmpty := o }

/-- `intq_init` -/
def init (buf : ℕ → UInt8) : Intq := ⟨⟨1, []⟩, none, none, none, ⟨buf, 0, 0⟩⟩

end Intq

/-- A call. -/
inductive Call
  | getc
  | putc (byte : UInt8)
  deriving DecidableEq

namespace Call

def waitsFor : Call → Cond
  | getc => .notEmpty
  | putc _ => .notFull

def signals : Call → Cond
  | getc => .notFull
  | putc _ => .notEmpty

end Call

/-! ## The threads -/

/-- Where a thread is. -/
inductive Place
  | outside
  /-- Before the test of the loop. -/
  | test (c : Call)
  /-- Blocked in `lock_acquire`. -/
  | asleep (c : Call)
  /-- Unblocked by `sema_up`, before the next test of `value`. -/
  | woken (c : Call)
  /-- Blocked in `wait`. -/
  | waiting (c : Call)
  /-- Unblocked by `signal`, before `lock_release`. -/
  | signalled (c : Call)
  deriving DecidableEq

namespace Place

/-- `thread_unblock`; `none` when the thread is not blocked. -/
def unblocked : Place → Option Place
  | asleep c => some (woken c)
  | waiting c => some (signalled c)
  | _ => none

/-- Between `lock_acquire` and `lock_release`. -/
def locked : Place → Bool
  | waiting _ | signalled _ => true
  | _ => false

end Place

/-- The assertion that stops the machine. -/
inductive Failure
  | acquire
  | release
  | unblock
  | wait
  | signal
  deriving DecidableEq

/-- The queue, the threads, and the bytes that were put and got, in their order. -/
structure System where
  q : Intq
  place : ℕ → Place
  puts : List UInt8
  gets : List UInt8
  failure : Option Failure

namespace System

def move (s : System) (t : ℕ) (p : Place) : System := { s with place := Function.update s.place t p }

def fail (s : System) (f : Failure) : System := { s with failure := some f }

/-- `thread_unblock` -/
def threadUnblock (s : System) (t : ℕ) : System :=
  match (s.place t).unblocked with
  | some p => s.move t p
  | none => s.fail .unblock

/-- `wait` until the thread blocks. -/
def wait (s : System) (t : ℕ) (c : Call) : System :=
  if s.q.has c.waitsFor then s.fail .wait
  else { s with q := s.q.setWaiter (some t) c.waitsFor }.move t (.waiting c)

/-- `signal` -/
def signal (s : System) (c : Cond) : System :=
  if s.q.has c then
    match s.q.waiter c with
    | none => s
    | some t =>
      let s := s.threadUnblock t
      { s with q := s.q.setWaiter none c }
  else s.fail .signal

/-- What `intq_getc` and `intq_putc` do after the loop. -/
def finish (s : System) : Call → System
  | .getc =>
    { s with
      q := { s.q with bytes := s.q.bytes.pop bufSize }
      gets := s.gets ++ [s.q.bytes.buf s.q.bytes.tail] }.signal .notFull
  | .putc byte =>
    { s with
      q := { s.q with bytes := s.q.bytes.push bufSize byte }
      puts := s.puts ++ [byte] }.signal .notEmpty

/-- One test of `value` in `sema_down`, and `wait` if the thread gets the lock. -/
def down (b : Build) (priority : ℕ → ℤ) (s : System) (t : ℕ) (c : Call) : System :=
  let r := s.q.semaphore.down b priority t
  if r.1 then { s with q := { s.q with semaphore := r.2, holder := some t } }.wait t c
  else { s with q := { s.q with semaphore := r.2 } }.move t (.asleep c)

/-- The test of the loop, and what comes behind it. -/
def turn (b : Build) (priority : ℕ → ℤ) (s : System) (t : ℕ) (c : Call) : System :=
  if s.q.has c.waitsFor then (s.finish c).move t .outside
  -- lock_acquire
  else if s.q.holder = some t then s.fail .acquire
  else s.down b priority t c

/-- `lock_release` -/
def lockRelease (b : Build) (priority : ℕ → ℤ) (s : System) (t : ℕ) : System :=
  if s.q.holder = some t then
    let r := s.q.semaphore.up b priority
    let s := { s with q := { s.q with semaphore := r.2, holder := none } }
    match r.1 with
    | none => s
    | some u => s.threadUnblock u
  else s.fail .release

/-- What a thread does after `wait`.  In the kernel without `USERPROG` `sema_up` yields. -/
def resume (b : Build) (priority : ℕ → ℤ) (s : System) (t : ℕ) (c : Call) : System :=
  let s := (s.lockRelease b priority t).move t (.test c)
  match b with
  | .threads => s
  | .userprog => if s.failure = none then s.turn .userprog priority t c else s

end System

inductive Act
  | call (t : ℕ) (c : Call)
  | test (t : ℕ)
  | retest (t : ℕ)
  | resume (t : ℕ)
  /-- A call by an interrupt handler. -/
  | interrupt (c : Call)
  deriving DecidableEq

namespace System

/-- A step.  A handler puts a byte only when the queue is not full, and gets one only when it is not empty. -/
def step (b : Build) (priority : ℕ → ℤ) (s : System) (a : Act) : Option System :=
  if s.failure = none then
    match a with
    | .call t c => if s.place t = .outside then some (s.turn b priority t c) else none
    | .test t =>
      match s.place t with
      | .test c => some (s.turn b priority t c)
      | _ => none
    | .retest t =>
      match s.place t with
      | .woken c => some (s.down b priority t c)
      | _ => none
    | .resume t =>
      match s.place t with
      | .signalled c => some (s.resume b priority t c)
      | _ => none
    | .interrupt c => if s.q.has c.waitsFor then some (s.finish c) else none
  else none

/-- A step, at the priorities of its time. -/
def Step (b : Build) (s : System) (a : Act) (s' : System) : Prop := ∃ priority, s.step b priority a = some s'

/-- `intq_init` has been called, and no thread is in a call. -/
def init (buf : ℕ → UInt8) : System := ⟨Intq.init buf, fun _ => .outside, [], [], none⟩

/-- No thread gets the lock after a sleep when what it wants to wait for holds already. -/
def StillWaits (s : System) (a : Act) : Prop :=
  ∀ t c, a = .retest t → s.place t = .woken c → 0 < s.q.semaphore.value → s.q.has c.waitsFor = false

def StillStep (b : Build) (s : System) (a : Act) (s' : System) : Prop := s.Step b a s' ∧ s.StillWaits a

/-- **No assertion has failed**, the bytes got are those put, in their order, but for those in the queue, and the
thread that is registered for a condition is the only one that waits for it. -/
structure Correct (s : System) : Prop where
  running : s.failure = none
  fifo : s.puts = s.gets ++ s.q.bytes.contents bufSize
  waiter : ∀ c t, s.q.waiter c = some t ↔ ∃ k, s.place t = .waiting k ∧ k.waitsFor = c

end System

/-! ## The invariant -/

namespace Intq

variable {q : Intq} {o : Option ℕ} {c d : Cond}

@[simp] theorem waiter_setWaiter_self : (q.setWaiter o c).waiter c = o := by cases c <;> rfl

theorem waiter_setWaiter_ne (h : d ≠ c) : (q.setWaiter o c).waiter d = q.waiter d := by
  cases c <;> cases d <;> first | rfl | exact absurd rfl h

@[simp] theorem has_setWaiter : (q.setWaiter o c).has d = q.has d := by cases c <;> cases d <;> rfl

@[simp] theorem bytes_setWaiter : (q.setWaiter o c).bytes = q.bytes := by cases c <;> rfl

@[simp] theorem semaphore_setWaiter : (q.setWaiter o c).semaphore = q.semaphore := by cases c <;> rfl

@[simp] theorem holder_setWaiter : (q.setWaiter o c).holder = q.holder := by cases c <;> rfl

theorem has_notEmpty : q.has .notEmpty = true ↔ q.bytes.head ≠ q.bytes.tail := by
  simp [has, empty]

theorem has_notFull : q.has .notFull = true ↔ Circular.next bufSize q.bytes.head ≠ q.bytes.tail := by
  simp [has, full]

end Intq

theorem Call.signals_ne_waitsFor (c : Call) : c.signals ≠ c.waitsFor := by cases c <;> simp [signals, waitsFor]

theorem Call.eq_signals_of_ne {c : Call} {d : Cond} (h : d ≠ c.waitsFor) : d = c.signals := by
  cases c <;> cases d <;> simp_all [signals, waitsFor]

namespace System

/-- What holds in every state in which no assertion has failed. -/
structure Inv (s : System) : Prop where
  running : s.failure = none
  bounded : s.q.bytes.Bounded bufSize
  fifo : s.puts = s.gets ++ s.q.bytes.contents bufSize
  value : s.q.semaphore.value = if s.q.holder = none then 1 else 0
  holder : ∀ t, s.q.holder = some t ↔ (s.place t).locked = true
  waiter : ∀ c t, s.q.waiter c = some t ↔ ∃ k, s.place t = .waiting k ∧ k.waitsFor = c
  waits : ∀ t k, s.place t = .waiting k → s.q.has k.waitsFor = false
  asleep : ∀ t ∈ s.q.semaphore.waiters, ∃ k, s.place t = .asleep k
  nodup : s.q.semaphore.waiters.Nodup

/-- The thread is in none of the lists and registrations. -/
structure Free (s : System) (t : ℕ) : Prop where
  locked : (s.place t).locked = false
  asleep : t ∉ s.q.semaphore.waiters

variable {b : Build} {priority : ℕ → ℤ} {s s' : System} {t u : ℕ} {c k : Call} {p : Place} {a : Act}

@[simp] theorem move_place_self : (s.move t p).place t = p := Function.update_self ..

theorem move_place_ne (h : u ≠ t) : (s.move t p).place u = s.place u := Function.update_of_ne h ..

/-- A property of all places after a thread has moved. -/
theorem forall_move (P : ℕ → Place → Prop) (hself : P t p) (hothers : ∀ u, u ≠ t → P u (s.place u)) (u : ℕ) :
    P u ((s.move t p).place u) := by
  by_cases hu : u = t
  · rw [hu, move_place_self]
    exact hself
  · rw [move_place_ne hu]
    exact hothers u hu

theorem init_inv (buf : ℕ → UInt8) : Inv (init buf) where
  running := rfl
  bounded := ⟨show 0 < bufSize by decide, show 0 < bufSize by decide⟩
  fifo := by simp [init, Intq.init, Circular.contents, Circular.length]
  value := rfl
  holder t := by simp [init, Intq.init, Place.locked]
  waiter c t := by cases c <;> simp [init, Intq.init, Intq.waiter]
  waits t k h := by cases h
  asleep t h := by cases h
  nodup := List.nodup_nil

theorem Inv.unique (h : Inv s) (ht : (s.place t).locked = true) (hu : (s.place u).locked = true) : t = u :=
  Option.some.inj (((h.holder t).mpr ht).symm.trans ((h.holder u).mpr hu))

theorem Inv.free (h : Inv s) (hl : (s.place t).locked = false) (ha : ∀ k, s.place t ≠ .asleep k) : Free s t where
  locked := hl
  asleep hmem := by
    obtain ⟨k, hk⟩ := h.asleep t hmem
    exact ha k hk

theorem Free.not_waiting (h : Free s t) (k : Call) : s.place t ≠ .waiting k := by
  intro hk
  have hl := h.locked
  rw [hk] at hl
  cases hl

/-- A thread that is free goes to another such place. -/
theorem Inv.moveFree (h : Inv s) (hf : Free s t) (hp : p.locked = false) : Inv (s.move t p) where
  running := h.running
  bounded := h.bounded
  fifo := h.fifo
  value := h.value
  holder := by
    apply forall_move fun u q => s.q.holder = some u ↔ q.locked = true
    · rw [h.holder t, hf.locked, hp]
    · exact fun u _ => h.holder u
  waiter d := by
    apply forall_move fun u q => s.q.waiter d = some u ↔ ∃ k, q = .waiting k ∧ k.waitsFor = d
    · rw [h.waiter d t]
      constructor
      · rintro ⟨k, hk, _⟩
        exact absurd hk (hf.not_waiting k)
      · rintro ⟨k, rfl, _⟩
        cases hp
    · exact fun u _ => h.waiter d u
  waits := by
    apply forall_move fun _ q => ∀ k, q = .waiting k → s.q.has k.waitsFor = false
    · intro k hk
      rw [hk] at hp
      cases hp
    · exact fun u _ => h.waits u
  asleep u hu := by
    have hne : u ≠ t := fun hut => hf.asleep (hut ▸ hu)
    rw [move_place_ne hne]
    exact h.asleep u hu
  nodup := h.nodup

/-- No thread waits for what a call that goes on has found to hold. -/
theorem Inv.waitsFor_eq (h : Inv s) (hc : s.q.has c.waitsFor = true) (hk : s.place u = .waiting k) :
    k.waitsFor = c.signals := by
  apply Call.eq_signals_of_ne
  intro hcw
  have hfalse := h.waits u k hk
  rw [hcw, hc] at hfalse
  cases hfalse

/-- The invariant where no thread waits. -/
theorem Inv.of_noWaiter (h : Inv s) {q : Intq} {place : ℕ → Place} {puts gets : List UInt8}
    (hbounded : q.bytes.Bounded bufSize) (hfifo : puts = gets ++ q.bytes.contents bufSize)
    (hsemaphore : q.semaphore = s.q.semaphore) (hholder : q.holder = s.q.holder) (hwaiter : ∀ d, q.waiter d = none)
    (hlocked : ∀ u, (place u).locked = (s.place u).locked) (hno : ∀ u k, place u ≠ .waiting k)
    (hasleep : ∀ u k, s.place u = .asleep k → place u = .asleep k) :
    Inv { s with q := q, place := place, puts := puts, gets := gets } where
  running := h.running
  bounded := hbounded
  fifo := hfifo
  value := by
    show q.semaphore.value = if q.holder = none then 1 else 0
    rw [hsemaphore, hholder]
    exact h.value
  holder u := by
    show q.holder = some u ↔ (place u).locked = true
    rw [hholder, hlocked]
    exact h.holder u
  waiter d u := by
    show q.waiter d = some u ↔ ∃ k, place u = .waiting k ∧ k.waitsFor = d
    rw [hwaiter]
    constructor
    · intro hd
      cases hd
    · rintro ⟨k, hk, _⟩
      exact absurd hk (hno u k)
  waits u k hk := absurd hk (hno u k)
  asleep u hu := by
    have hu' : u ∈ s.q.semaphore.waiters := hsemaphore ▸ hu
    obtain ⟨k, hk⟩ := h.asleep u hu'
    exact ⟨k, hasleep u k hk⟩
  nodup := by
    show q.semaphore.waiters.Nodup
    rw [hsemaphore]
    exact h.nodup

/-- The invariant after call `c` has changed the bytes and has signalled. -/
theorem Inv.signal (h : Inv s) {bytes : Circular UInt8} {puts gets : List UInt8} (hc : s.q.has c.waitsFor = true)
    (hbounded : bytes.Bounded bufSize) (hfifo : puts = gets ++ bytes.contents bufSize)
    (hhas : ({ s.q with bytes := bytes } : Intq).has c.signals = true) :
    Inv ({ s with q := { s.q with bytes := bytes }, puts := puts, gets := gets }.signal c.signals) := by
  have hwaiter : ∀ d, ({ s.q with bytes := bytes } : Intq).waiter d = s.q.waiter d := by
    intro d
    cases d <;> rfl
  have hother : ∀ d u, s.q.waiter d = some u → d = c.signals := by
    intro d u hd
    obtain ⟨k, hk, hkd⟩ := (h.waiter d u).mp hd
    exact hkd.symm.trans (h.waitsFor_eq hc hk)
  unfold System.signal
  rw [if_pos hhas, hwaiter]
  cases hw : s.q.waiter c.signals with
  | none =>
    dsimp only
    apply h.of_noWaiter
    · exact hbounded
    · exact hfifo
    · rfl
    · rfl
    · intro d
      rw [hwaiter]
      apply Option.eq_none_iff_forall_ne_some.mpr
      intro u hd
      rw [hother d u hd, hw] at hd
      cases hd
    · exact fun _ => rfl
    · intro u k hk
      have hsome := (h.waiter c.signals u).mpr ⟨k, hk, h.waitsFor_eq hc hk⟩
      rw [hw] at hsome
      cases hsome
    · exact fun _ _ hk => hk
  | some t =>
    obtain ⟨k, hk, hkc⟩ := (h.waiter c.signals t).mp hw
    have hone : ∀ u l, s.place u = .waiting l → u = t := by
      intro u l hl
      apply h.unique
      · rw [hl]
        rfl
      · rw [hk]
        rfl
    have hunblock : ({ s with q := { s.q with bytes := bytes }, puts := puts, gets := gets } : System).threadUnblock t =
        { s with q := { s.q with bytes := bytes }, puts := puts, gets := gets }.move t (.signalled k) := by
      unfold threadUnblock
      dsimp only
      rw [hk]
      rfl
    dsimp only
    rw [hunblock]
    apply h.of_noWaiter
    · rw [Intq.bytes_setWaiter]
      exact hbounded
    · rw [Intq.bytes_setWaiter]
      exact hfifo
    · exact Intq.semaphore_setWaiter
    · exact Intq.holder_setWaiter
    · intro d
      by_cases hd : d = c.signals
      · rw [hd, Intq.waiter_setWaiter_self]
      · rw [Intq.waiter_setWaiter_ne hd]
        show ({ s.q with bytes := bytes } : Intq).waiter d = none
        rw [hwaiter]
        apply Option.eq_none_iff_forall_ne_some.mpr
        exact fun u hu => hd (hother d u hu)
    · apply forall_move fun u q => q.locked = (s.place u).locked
      · rw [hk]
        rfl
      · exact fun _ _ => rfl
    · apply forall_move fun _ q => ∀ l, q ≠ .waiting l
      · intro l hl
        cases hl
      · exact fun u hu l hl => hu (hone u l hl)
    · apply forall_move fun u q => ∀ l, s.place u = .asleep l → q = .asleep l
      · intro l hl
        rw [hk] at hl
        cases hl
      · exact fun _ _ _ hl => hl

theorem threadUnblock_q : (s.threadUnblock u).q = s.q := by
  unfold threadUnblock
  split <;> rfl

theorem threadUnblock_place (h : u ≠ t) : (s.threadUnblock u).place t = s.place t := by
  unfold threadUnblock
  split
  · exact move_place_ne (Ne.symm h)
  · rfl

theorem signal_semaphore (d : Cond) : (s.signal d).q.semaphore = s.q.semaphore := by
  unfold System.signal
  split
  · split
    · rfl
    · rw [Intq.semaphore_setWaiter, threadUnblock_q]
  · rfl

theorem signal_place {d : Cond} (h : s.q.waiter d ≠ some t) : (s.signal d).place t = s.place t := by
  unfold System.signal
  split
  · split
    · rfl
    · next u hu =>
      apply threadUnblock_place
      rintro rfl
      exact h hu
  · rfl

theorem Inv.waiter_ne (h : Inv s) (hf : Free s t) (d : Cond) : s.q.waiter d ≠ some t := by
  intro hd
  obtain ⟨k, hk, _⟩ := (h.waiter d t).mp hd
  exact hf.not_waiting k hk

/-- A thread that is free is not touched by the end of a call. -/
theorem Inv.free_finish (h : Inv s) (hf : Free s t) : Free (s.finish c) t := by
  have hwaiter := h.waiter_ne hf
  have hplace : (s.finish c).place t = s.place t := by
    cases c with
    | getc => exact signal_place (hwaiter .notFull)
    | putc byte => exact signal_place (hwaiter .notEmpty)
  have hsemaphore : (s.finish c).q.semaphore = s.q.semaphore := by
    cases c <;> exact signal_semaphore _
  exact ⟨by rw [hplace]; exact hf.locked, by rw [hsemaphore]; exact hf.asleep⟩

/-- The call goes on. -/
theorem Inv.finish (h : Inv s) (hc : s.q.has c.waitsFor = true) : Inv (s.finish c) := by
  have hbounded := h.bounded
  cases c with
  | getc =>
    have hne := Intq.has_notEmpty.mp hc
    have hpop := hbounded.contents_pop hne
    have hlen := congrArg List.length hpop
    rw [List.length_cons] at hlen
    apply h.signal (c := .getc) hc hbounded.pop
    · rw [h.fifo, hpop, List.append_assoc, List.singleton_append]
    · apply Intq.has_notFull.mpr
      show Circular.next bufSize (s.q.bytes.pop bufSize).head ≠ (s.q.bytes.pop bufSize).tail
      rw [Ne, hbounded.pop.full_iff]
      have hlt := hbounded.length_contents_lt
      omega
  | putc byte =>
    have hne := Intq.has_notFull.mp hc
    have hpush := hbounded.contents_push hne byte
    apply h.signal (c := .putc byte) hc (hbounded.push byte)
    · rw [h.fifo, hpush, List.append_assoc]
    · apply Intq.has_notEmpty.mpr
      show (s.q.bytes.push bufSize byte).head ≠ (s.q.bytes.push bufSize byte).tail
      rw [Ne, (hbounded.push byte).empty_iff, hpush]
      exact List.append_ne_nil_of_right_ne_nil _ (List.cons_ne_nil _ _)

/-- The invariant when the only thread with the lock comes to wait. -/
theorem Inv.of_wait (h : Inv s) (hf : Free s t) {q : Intq} (hfree : s.q.holder = none) (hholder : q.holder = some t)
    (hvalue : q.semaphore.value = 0) (hwaiters : q.semaphore.waiters = s.q.semaphore.waiters)
    (hbytes : q.bytes = s.q.bytes) (hwaiter : ∀ d, q.waiter d = s.q.waiter d) (hhas : q.has c.waitsFor = false) :
    Inv ({ s with q := q.setWaiter (some t) c.waitsFor }.move t (.waiting c)) := by
  have hnot : ∀ u, (s.place u).locked = false := by
    intro u
    apply Bool.eq_false_iff.mpr
    intro hu
    have hsome := (h.holder u).mpr hu
    rw [hfree] at hsome
    cases hsome
  have hno : ∀ u k, s.place u ≠ .waiting k := by
    intro u k hk
    have hu := hnot u
    rw [hk] at hu
    cases hu
  have hnone : ∀ d, d ≠ c.waitsFor → (q.setWaiter (some t) c.waitsFor).waiter d = none := by
    intro d hd
    rw [Intq.waiter_setWaiter_ne hd, hwaiter]
    apply Option.eq_none_iff_forall_ne_some.mpr
    intro u hu
    obtain ⟨k, hk, _⟩ := (h.waiter d u).mp hu
    exact hno u k hk
  exact {
    running := h.running
    bounded := by
      show (q.setWaiter (some t) c.waitsFor).bytes.Bounded bufSize
      rw [Intq.bytes_setWaiter, hbytes]
      exact h.bounded
    fifo := by
      show s.puts = s.gets ++ (q.setWaiter (some t) c.waitsFor).bytes.contents bufSize
      rw [Intq.bytes_setWaiter, hbytes]
      exact h.fifo
    value := by
      show (q.setWaiter (some t) c.waitsFor).semaphore.value =
        if (q.setWaiter (some t) c.waitsFor).holder = none then 1 else 0
      rw [Intq.semaphore_setWaiter, Intq.holder_setWaiter, hholder, hvalue]
      rfl
    holder := by
      show ∀ u, (q.setWaiter (some t) c.waitsFor).holder = some u ↔ _
      rw [Intq.holder_setWaiter, hholder]
      apply forall_move fun u p => some t = some u ↔ p.locked = true
      · exact iff_of_true rfl rfl
      · intro u hu
        rw [hnot u]
        exact iff_of_false (fun hsome => hu (Option.some.inj hsome).symm) Bool.false_ne_true
    waiter := by
      intro d
      apply forall_move fun u p => (q.setWaiter (some t) c.waitsFor).waiter d = some u ↔
        ∃ k, p = .waiting k ∧ k.waitsFor = d
      · by_cases hd : d = c.waitsFor
        · rw [hd, Intq.waiter_setWaiter_self]
          exact iff_of_true rfl ⟨c, rfl, rfl⟩
        · rw [hnone d hd]
          apply iff_of_false
          · intro hsome
            cases hsome
          · rintro ⟨k, hk, hkd⟩
            cases hk
            exact hd hkd.symm
      · intro u hu
        apply iff_of_false
        · by_cases hd : d = c.waitsFor
          · rw [hd, Intq.waiter_setWaiter_self]
            exact fun hsome => hu (Option.some.inj hsome).symm
          · rw [hnone d hd]
            intro hsome
            cases hsome
        · rintro ⟨k, hk, _⟩
          exact hno u k hk
    waits := by
      apply forall_move fun _ p => ∀ k, p = .waiting k → (q.setWaiter (some t) c.waitsFor).has k.waitsFor = false
      · intro k hk
        cases hk
        rw [Intq.has_setWaiter]
        exact hhas
      · exact fun u _ k hk => absurd hk (hno u k)
    asleep := by
      show ∀ u ∈ (q.setWaiter (some t) c.waitsFor).semaphore.waiters, _
      rw [Intq.semaphore_setWaiter, hwaiters]
      intro u hu
      have hne : u ≠ t := fun hut => hf.asleep (hut ▸ hu)
      obtain ⟨k, hk⟩ := h.asleep u hu
      exact ⟨k, (move_place_ne hne).trans hk⟩
    nodup := by
      show (q.setWaiter (some t) c.waitsFor).semaphore.waiters.Nodup
      rw [Intq.semaphore_setWaiter, hwaiters]
      exact h.nodup }

/-- The invariant when a thread goes to sleep in `lock_acquire`. -/
theorem Inv.of_asleep (h : Inv s) (hf : Free s t) {sema : Semaphore} (hvalue : sema.value = s.q.semaphore.value)
    (hperm : sema.waiters.Perm (t :: s.q.semaphore.waiters)) :
    Inv ({ s with q := { s.q with semaphore := sema } }.move t (.asleep c)) where
  running := h.running
  bounded := h.bounded
  fifo := h.fifo
  value := hvalue.trans h.value
  holder := (h.moveFree hf rfl).holder
  waiter := by
    have hmove := (h.moveFree (p := .asleep c) hf rfl).waiter
    intro d
    cases d
    · exact hmove .notFull
    · exact hmove .notEmpty
  waits := (h.moveFree hf rfl).waits
  asleep u hu := by
    by_cases hut : u = t
    · rw [hut]
      exact ⟨c, move_place_self⟩
    · obtain ⟨k, hk⟩ := h.asleep u ((List.mem_cons.mp (hperm.mem_iff.mp hu)).resolve_left hut)
      exact ⟨k, (move_place_ne hut).trans hk⟩
  nodup := hperm.nodup_iff.mpr (List.nodup_cons.mpr ⟨hf.asleep, h.nodup⟩)

/-- One test of `value` in `lock_acquire`. -/
theorem Inv.down (h : Inv s) (hf : Free s t)
    (hstill : 0 < s.q.semaphore.value → s.q.has c.waitsFor = false) : Inv (s.down b priority t c) := by
  unfold System.down
  cases hd : s.q.semaphore.down b priority t with
  | mk r sema =>
    cases r with
    | true =>
      obtain ⟨hpos, rfl⟩ := Semaphore.down_true hd
      have hvalue := h.value
      have hfree : s.q.holder = none := by
        by_contra hsome
        rw [if_neg hsome] at hvalue
        omega
      rw [if_pos hfree] at hvalue
      have hhas := hstill hpos
      unfold System.wait
      dsimp only
      rw [if_pos rfl]
      rw [if_neg]
      · apply h.of_wait hf hfree
        · rfl
        · exact Nat.sub_eq_zero_of_le hvalue.le
        · rfl
        · rfl
        · intro d
          cases d <;> rfl
        · exact hhas
      · exact fun htrue => Bool.false_ne_true (hhas.symm.trans htrue)
    | false =>
      obtain ⟨_, rfl⟩ := Semaphore.down_false hd
      exact h.of_asleep hf (Semaphore.enqueue_value b priority _ t) (Semaphore.perm_enqueue b priority _ t)

/-- The thread gets the lock, but need not wait any more. -/
theorem down_fails (hpos : 0 < s.q.semaphore.value) (hhas : s.q.has c.waitsFor = true) :
    (s.down b priority t c).failure = some .wait := by
  have hd : s.q.semaphore.down b priority t =
      (true, { s.q.semaphore with value := s.q.semaphore.value - 1 }) := if_neg (by omega)
  unfold System.down
  rw [hd]
  unfold System.wait
  rw [if_pos rfl]
  exact congrArg failure (if_pos hhas)

/-- The test of the loop. -/
theorem Inv.turn (h : Inv s) (hf : Free s t) : Inv (s.turn b priority t c) := by
  unfold System.turn
  by_cases hhas : s.q.has c.waitsFor = true
  · rw [if_pos hhas]
    exact (h.finish hhas).moveFree (h.free_finish hf) rfl
  · have hholder : s.q.holder ≠ some t := by
      intro hsome
      have hlocked := (h.holder t).mp hsome
      rw [hf.locked] at hlocked
      cases hlocked
    rw [if_neg hhas, if_neg hholder]
    exact h.down hf fun _ => Bool.eq_false_iff.mpr hhas

/-- The invariant after `lock_release`, with a waiter that is taken off the list still to be unblocked. -/
theorem Inv.of_release (h : Inv s) (hp : s.place t = .signalled c) {sema : Semaphore} (hvalue : sema.value = 1)
    (hsub : ∀ u ∈ sema.waiters, u ∈ s.q.semaphore.waiters) (hnodup : sema.waiters.Nodup) :
    Inv ({ s with q := { s.q with semaphore := sema, holder := none } }.move t (.test c)) := by
  have hlocked : (s.place t).locked = true := by
    rw [hp]
    rfl
  have hothers : ∀ u, u ≠ t → (s.place u).locked = false := by
    intro u hu
    apply Bool.eq_false_iff.mpr
    exact fun hul => hu (h.unique hul hlocked)
  have hno : ∀ u k, s.place u ≠ .waiting k := by
    intro u k hk
    have hul : (s.place u).locked = true := by
      rw [hk]
      rfl
    rw [h.unique hul hlocked, hp] at hk
    cases hk
  have hnone : ∀ d u, s.q.waiter d ≠ some u := by
    intro d u hu
    obtain ⟨k, hk, _⟩ := (h.waiter d u).mp hu
    exact hno u k hk
  have hmoved : ∀ u k, ({ s with q := { s.q with semaphore := sema, holder := none } }.move t (.test c)).place u ≠
      .waiting k := by
    apply forall_move fun _ p => ∀ k, p ≠ .waiting k
    · intro k hk
      cases hk
    · exact fun u _ => hno u
  exact {
    running := h.running
    bounded := h.bounded
    fifo := h.fifo
    value := hvalue
    holder := by
      apply forall_move fun u p => none = some u ↔ p.locked = true
      · apply iff_of_false
        · exact Option.some_ne_none t ∘ Eq.symm
        · exact Bool.false_ne_true
      · intro u hu
        rw [hothers u hu]
        apply iff_of_false
        · exact Option.some_ne_none u ∘ Eq.symm
        · exact Bool.false_ne_true
    waiter := by
      intro d u
      apply iff_of_false
      · have hnot := hnone d u
        cases d
        · exact hnot
        · exact hnot
      · rintro ⟨k, hk, _⟩
        exact hmoved u k hk
    waits := fun u k hk => absurd hk (hmoved u k)
    asleep := by
      intro u hu
      obtain ⟨k, hk⟩ := h.asleep u (hsub u hu)
      have hne : u ≠ t := by
        rintro rfl
        rw [hp] at hk
        cases hk
      exact ⟨k, (move_place_ne hne).trans hk⟩
    nodup := hnodup }

/-- Moves of two threads commute. -/
theorem threadUnblock_move (hne : u ≠ t) {r : Place} (hu : (s.place u).unblocked = some r) :
    (s.threadUnblock u).move t p = (s.move t p).move u r := by
  unfold threadUnblock
  rw [hu]
  exact congrArg (fun place => { s with place := place }) (Function.update_comm hne _ _ _)

/-- `lock_release` wakes a thread that sleeps in `lock_acquire`, if there is one. -/
theorem Inv.lockRelease (b : Build) (priority : ℕ → ℤ) (h : Inv s) (hp : s.place t = .signalled c) :
    Inv ((s.lockRelease b priority t).move t (.test c)) := by
  have hlocked : (s.place t).locked = true := by
    rw [hp]
    rfl
  have hholder := (h.holder t).mpr hlocked
  have hvalue := h.value
  rw [if_neg (by rw [hholder]; exact Option.some_ne_none t)] at hvalue
  have hup := s.q.semaphore.up_value b priority
  have hperm := s.q.semaphore.perm_up b priority
  rw [hvalue] at hup
  unfold System.lockRelease
  rw [if_pos hholder]
  dsimp only
  cases ho : (s.q.semaphore.up b priority).1 with
  | none =>
    rw [ho, Option.toList_none, List.nil_append] at hperm
    exact h.of_release hp hup (fun u hu => hperm.mem_iff.mpr hu) (hperm.nodup_iff.mp h.nodup)
  | some u =>
    rw [ho, Option.toList_some, List.singleton_append] at hperm
    obtain ⟨hnot, hnodup⟩ := List.nodup_cons.mp (hperm.nodup_iff.mp h.nodup)
    have hmem : u ∈ s.q.semaphore.waiters := hperm.mem_iff.mpr List.mem_cons_self
    obtain ⟨k, hk⟩ := h.asleep u hmem
    have hne : u ≠ t := by
      rintro rfl
      rw [hp] at hk
      cases hk
    have hreleased := h.of_release hp hup (fun v hv => hperm.mem_iff.mpr (List.mem_cons_of_mem u hv)) hnodup
    dsimp only
    rw [threadUnblock_move (r := .woken k) hne]
    · apply hreleased.moveFree
      · exact ⟨by rw [move_place_ne hne, hk]; rfl, hnot⟩
      · rfl
    · rw [hk]
      rfl

/-- What comes behind `wait`. -/
theorem Inv.resume (h : Inv s) (hp : s.place t = .signalled c) : Inv (s.resume b priority t c) := by
  have hreleased := Inv.lockRelease b priority h hp
  unfold System.resume
  cases b with
  | threads => exact hreleased
  | userprog =>
    dsimp only
    rw [if_pos hreleased.running]
    apply hreleased.turn
    apply hreleased.free
    · rw [move_place_self]
      rfl
    · intro k hk
      rw [move_place_self] at hk
      cases hk

/-- **A step in which nobody gets the lock too late keeps the invariant.** -/
theorem Inv.step (h : Inv s) (hs : s.Step b a s') (hstill : s.StillWaits a) : Inv s' := by
  obtain ⟨priority, hs⟩ := hs
  unfold System.step at hs
  rw [if_pos h.running] at hs
  cases a with
  | call t c =>
    dsimp only at hs
    split at hs
    · next hp =>
      cases hs
      apply h.turn
      apply h.free
      · rw [hp]
        rfl
      · intro k hk
        rw [hp] at hk
        cases hk
    · cases hs
  | test t =>
    dsimp only at hs
    split at hs
    · next c hp =>
      cases hs
      apply h.turn
      apply h.free
      · rw [hp]
        rfl
      · intro k hk
        rw [hp] at hk
        cases hk
    · cases hs
  | retest t =>
    dsimp only at hs
    split at hs
    · next c hp =>
      cases hs
      apply h.down
      · apply h.free
        · rw [hp]
          rfl
        · intro k hk
          rw [hp] at hk
          cases hk
      · exact hstill t c rfl hp
    · cases hs
  | resume t =>
    dsimp only at hs
    split at hs
    · next c hp =>
      cases hs
      exact h.resume hp
    · cases hs
  | interrupt c =>
    dsimp only at hs
    split at hs
    · next hhas =>
      cases hs
      exact h.finish hhas
    · cases hs

/-- A step in which somebody does fails the assertion of `wait`. -/
theorem step_fails (hs : s.Step b a s') (hstill : ¬s.StillWaits a) : s'.failure = some .wait := by
  obtain ⟨priority, hs⟩ := hs
  unfold StillWaits at hstill
  push Not at hstill
  obtain ⟨t, c, rfl, hp, hpos, hhas⟩ := hstill
  unfold System.step at hs
  split at hs
  · dsimp only at hs
    rw [hp] at hs
    cases hs
    apply down_fails hpos
    simpa using hhas
  · cases hs

/-- **In every run in which no thread gets the lock too late**, no assertion fails, the bytes are got in the order in
which they were put, and the thread that is registered for a condition is the only one that waits for it.  After one
more step this is so if and only if it was not the first in which a thread gets the lock too late. -/
theorem intq_correct {buf : ℕ → UInt8} {as : List Act} (h : Trace (StillStep b) (init buf) as s) :
    Correct s ∧ ∀ a s', s.Step b a s' → (Correct s' ↔ s.StillWaits a) := by
  have hinv : Inv s := h.invariant (fun _ _ _ hI hs => hI.step hs.1 hs.2) (init_inv buf)
  apply And.intro ⟨hinv.running, hinv.fifo, hinv.waiter⟩
  intro a s' hs
  constructor
  · intro hcorrect
    by_contra hstill
    have hfailed := step_fails hs hstill
    rw [hcorrect.running] at hfailed
    cases hfailed
  · intro hstill
    have hinv' := hinv.step hs hstill
    exact ⟨hinv'.running, hinv'.fifo, hinv'.waiter⟩

/-- The state after some steps, at equal priorities. -/
def run (b : Build) : System → List Act → Option System
  | s, [] => some s
  | s, a :: as => (s.step b (fun _ => 0) a).bind fun s => s.run b as

theorem run_trace {as : List Act} (h : s.run b as = some s') : Trace (Step b) s as s' := by
  induction as generalizing s with
  | nil =>
    cases h
    exact .nil _
  | cons a as ih =>
    obtain ⟨s₁, hstep, hrun⟩ := Option.bind_eq_some_iff.mp h
    exact .cons ⟨_, hstep⟩ (ih hrun)

theorem stillWaits_of_ne (h : ∀ t, a ≠ .retest t) : s.StillWaits a := fun t _ ha => absurd ha (h t)

/-- A reader waits for a byte and gets it. -/
theorem intq_correct_read : ∃ s, s.gets = [7] ∧ Correct s ∧
    ∀ a s', s.Step .userprog a s' → (Correct s' ↔ s.StillWaits a) := by
  have hrun : Trace (StillStep .userprog) (init fun _ => 0) [.call 0 .getc, .interrupt (.putc 7), .resume 0] _ :=
    .cons ⟨⟨fun _ => 0, rfl⟩, stillWaits_of_ne (by simp)⟩
      (.cons ⟨⟨fun _ => 0, rfl⟩, stillWaits_of_ne (by simp)⟩
        (.cons ⟨⟨fun _ => 0, rfl⟩, stillWaits_of_ne (by simp)⟩ (.nil _)))
  exact ⟨_, rfl, intq_correct hrun⟩

/-- Two readers: the first one waits, the second one sleeps in `lock_acquire`; a byte for the first one and, before
the second one runs, another byte.  In the kernel without `USERPROG` the first one has another step after its
`lock_release`. -/
def lateReader : Build → List Act
  | .threads => [.call 0 .getc, .call 1 .getc, .interrupt (.putc 7), .resume 0, .test 0, .interrupt (.putc 8), .retest 1]
  | .userprog => [.call 0 .getc, .call 1 .getc, .interrupt (.putc 7), .resume 0, .interrupt (.putc 8), .retest 1]

/-- The assertion of `wait` fails. -/
theorem intq_wait_fails : (¬∀ as s, Trace (Step .threads) (init fun _ => 0) as s → Correct s) ∧
    ¬∀ as s, Trace (Step .userprog) (init fun _ => 0) as s → Correct s := by
  suffices hboth : ∀ b, ¬∀ as s, Trace (Step b) (init fun _ => 0) as s → Correct s from ⟨hboth _, hboth _⟩
  intro b h
  have hrun : ∃ s, (init fun _ => 0).run b (lateReader b) = some s ∧ s.failure = some .wait := by
    cases b
    · exact ⟨_, rfl, by decide +kernel⟩
    · exact ⟨_, rfl, by decide +kernel⟩
  obtain ⟨s, hs, hfailed⟩ := hrun
  have hrunning := (h _ s (run_trace hs)).running
  rw [hfailed] at hrunning
  cases hrunning

end System

end Pintos.Devices.InterruptQueue
