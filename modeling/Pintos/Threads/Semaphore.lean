import Mathlib.Data.List.Sort
import Pintos.Library.Trace

/-!
# Semaphores

The semaphores of `threads/synch.c`, in the kernel without `USERPROG` and in the one with it: the first
keeps the waiters in the order of their priorities, the second in the order of their arrival.

A section with interrupts off is one step.  Which thread runs is left open: a thread may be switched off and
on again between two steps of its own, and priorities change from one step to the next.  `woken` are the
threads that `sema_up` has taken from `waiters` and that have not tested `value` again; whenever threads
wait, there are at least `value` of them (`sema_covered`), so an up is never lost.

`value` is an `unsigned`, and `sema_up` does not look whether there is room for one more
(`sema_value_wraps`).
-/

namespace Pintos.Threads

/-- `enum thread_status` -/
inductive ThreadStatus
  | running
  | ready
  | blocked
  | dying
  deriving DecidableEq

/-- The two kernels. -/
inductive Build
  | threads
  | userprog
  deriving DecidableEq

/-! ## Lists of threads -/

/-- `is_prior_larger` -/
def isPriorLarger (priority : ℕ → ℤ) (t1 t2 : ℕ) : Bool := decide (priority t1 > priority t2)

/-- `list_insert_ordered`: in front of the first element that `e` is less than. -/
def listInsertOrdered {α : Type} (less : α → α → Bool) (e : α) : List α → List α
  | [] => [e]
  | x :: xs => if less e x then e :: x :: xs else x :: listInsertOrdered less e xs

/-- `list_sort`, which is stable. -/
def listSort {α : Type} (less : α → α → Bool) (l : List α) : List α :=
  l.insertionSort fun a b => less b a = false

theorem perm_listInsertOrdered {α : Type} (less : α → α → Bool) (e : α) (l : List α) :
    (listInsertOrdered less e l).Perm (e :: l) := by
  induction l with
  | nil => exact .refl _
  | cons x xs ih =>
    rw [listInsertOrdered]
    split
    · exact .refl _
    · exact (ih.cons x).trans (.swap e x xs)

@[simp] theorem mem_listInsertOrdered {α : Type} {less : α → α → Bool} {e x : α} {l : List α} :
    x ∈ listInsertOrdered less e l ↔ x = e ∨ x ∈ l := by
  rw [(perm_listInsertOrdered less e l).mem_iff, List.mem_cons]

theorem perm_listSort {α : Type} (less : α → α → Bool) (l : List α) : (listSort less l).Perm l :=
  List.perm_insertionSort _ l

/-! ## The functions -/

/-- `struct semaphore` -/
structure Semaphore where
  value : ℕ
  waiters : List ℕ

namespace Semaphore

/-- The place of a new waiter. -/
def enqueue (b : Build) (priority : ℕ → ℤ) (s : Semaphore) (t : ℕ) : Semaphore :=
  match b with
  | .threads => { s with waiters := listInsertOrdered (isPriorLarger priority) t s.waiters }
  | .userprog => { s with waiters := s.waiters ++ [t] }

/-- One pass of the loop of `sema_down`: whether the thread gets out of it.  If not, it blocks. -/
def down (b : Build) (priority : ℕ → ℤ) (s : Semaphore) (t : ℕ) : Bool × Semaphore :=
  if s.value = 0 then (false, s.enqueue b priority t) else (true, { s with value := s.value - 1 })

/-- `sema_try_down` -/
def tryDown (s : Semaphore) : Bool × Semaphore :=
  if s.value > 0 then (true, { s with value := s.value - 1 }) else (false, s)

/-- The waiters as `sema_up` takes them. -/
def queue (b : Build) (priority : ℕ → ℤ) (s : Semaphore) : List ℕ :=
  match b with
  | .threads => listSort (isPriorLarger priority) s.waiters
  | .userprog => s.waiters

/-- `sema_up`, with the thread that it unblocks. -/
def up (b : Build) (priority : ℕ → ℤ) (s : Semaphore) : Option ℕ × Semaphore :=
  match s.queue b priority with
  | [] => (none, { s with value := (s.value + 1) % 2 ^ 32 })
  | t :: ts => (some t, ⟨(s.value + 1) % 2 ^ 32, ts⟩)

variable (b : Build) (priority : ℕ → ℤ) (s : Semaphore)

@[simp] theorem enqueue_value (t : ℕ) : (s.enqueue b priority t).value = s.value := by cases b <;> rfl

theorem perm_enqueue (t : ℕ) : (s.enqueue b priority t).waiters.Perm (t :: s.waiters) := by
  cases b with
  | threads => exact perm_listInsertOrdered _ _ _
  | userprog => exact List.perm_append_singleton t s.waiters

theorem perm_queue : (s.queue b priority).Perm s.waiters := by
  cases b with
  | threads => exact perm_listSort _ _
  | userprog => exact .refl _

@[simp] theorem up_value : (s.up b priority).2.value = (s.value + 1) % 2 ^ 32 := by
  unfold up
  split <;> rfl

/-- **`sema_up` takes one waiter at most.** -/
theorem perm_up : s.waiters.Perm ((s.up b priority).1.toList ++ (s.up b priority).2.waiters) := by
  have h := s.perm_queue b priority
  unfold up
  split
  · exact .refl _
  · rename_i t ts heq
    rw [heq] at h
    exact h.symm

/-- It takes one if there is one. -/
theorem up_eq_none_iff : (s.up b priority).1 = none ↔ s.waiters = [] := by
  have h := s.perm_queue b priority
  unfold up
  split
  · rename_i heq
    rw [heq] at h
    exact iff_of_true rfl h.nil_eq.symm
  · rename_i t ts heq
    rw [heq] at h
    refine iff_of_false nofun fun hnil => ?_
    rw [hnil] at h
    exact List.not_mem_nil (h.mem_iff.mp List.mem_cons_self)

variable {b priority s}

variable {s' : Semaphore} {t : ℕ}

theorem down_true (h : s.down b priority t = (true, s')) :
    0 < s.value ∧ s' = { s with value := s.value - 1 } := by
  unfold down at h
  split at h
  · cases h
  · cases h
    exact ⟨by omega, rfl⟩

theorem down_false (h : s.down b priority t = (false, s')) :
    s.value = 0 ∧ s' = s.enqueue b priority t := by
  unfold down at h
  split at h
  · rename_i h0
    cases h
    exact ⟨h0, rfl⟩
  · cases h

theorem tryDown_true (h : s.tryDown = (true, s')) :
    0 < s.value ∧ s' = { s with value := s.value - 1 } := by
  unfold tryDown at h
  split at h
  · rename_i h0
    cases h
    exact ⟨h0, rfl⟩
  · cases h

theorem tryDown_false (h : s.tryDown = (false, s')) : s' = s := by
  unfold tryDown at h
  split at h
  · cases h
  · cases h
    rfl

theorem tryDown_waiters : s.tryDown.2.waiters = s.waiters := by
  unfold tryDown
  split <;> rfl

/-- `sema_up` with room for one more. -/
theorem up_eq {o : Option ℕ} (h : s.up b priority = (o, s')) (hroom : s.value + 1 < 2 ^ 32) :
    s'.value = s.value + 1 ∧ s.waiters.Perm (o.toList ++ s'.waiters) ∧ (o = none ↔ s.waiters = []) := by
  have hv := s.up_value b priority
  have hp := s.perm_up b priority
  have hn := s.up_eq_none_iff b priority
  rw [h] at hv hp hn
  exact ⟨hv.trans (Nat.mod_eq_of_lt hroom), hp, hn⟩

end Semaphore

/-! ## Threads at a semaphore -/

/-- A semaphore, the threads around it, and what has been done to it. -/
structure SemaSystem where
  sema : Semaphore
  status : ℕ → ThreadStatus
  woken : List ℕ
  ups : ℕ
  downs : ℕ

/-- What a step is.  `down` is the first pass of the loop of `sema_down`, `retest` a later one.  An
interrupt handler may call `sema_try_down` and `sema_up` as well. -/
inductive SemaAct
  | down (t : ℕ)
  | retest (t : ℕ)
  | tryDown
  | up
  /-- The thread is switched off or on. -/
  | switch (t : ℕ)
  /-- The thread blocks, wakes, starts or dies somewhere else. -/
  | elsewhere (t : ℕ)

namespace SemaSystem

def setStatus (s : SemaSystem) (t : ℕ) (st : ThreadStatus) : SemaSystem :=
  { s with status := Function.update s.status t st }

/-- The thread can run. -/
def Runnable (s : SemaSystem) (t : ℕ) : Prop := s.status t = .running ∨ s.status t = .ready

/-- A step, at the priorities of its time. -/
inductive Step (b : Build) : SemaSystem → SemaAct → SemaSystem → Prop
  | down {s : SemaSystem} {t : ℕ} {sema : Semaphore} (priority : ℕ → ℤ) (ht : s.status t = .running)
      (hw : t ∉ s.woken) (h : s.sema.down b priority t = (true, sema)) :
      Step b s (.down t) { s with sema := sema, downs := s.downs + 1 }
  | downBlock {s : SemaSystem} {t : ℕ} {sema : Semaphore} (priority : ℕ → ℤ) (ht : s.status t = .running)
      (hw : t ∉ s.woken) (h : s.sema.down b priority t = (false, sema)) :
      Step b s (.down t) ({ s with sema := sema }.setStatus t .blocked)
  | retest {s : SemaSystem} {t : ℕ} {sema : Semaphore} (priority : ℕ → ℤ) (ht : s.status t = .running)
      (hw : t ∈ s.woken) (h : s.sema.down b priority t = (true, sema)) :
      Step b s (.retest t) { s with sema := sema, woken := s.woken.erase t, downs := s.downs + 1 }
  | retestBlock {s : SemaSystem} {t : ℕ} {sema : Semaphore} (priority : ℕ → ℤ)
      (ht : s.status t = .running) (hw : t ∈ s.woken) (h : s.sema.down b priority t = (false, sema)) :
      Step b s (.retest t) ({ s with sema := sema, woken := s.woken.erase t }.setStatus t .blocked)
  | tryDown {s : SemaSystem} {sema : Semaphore} (h : s.sema.tryDown = (true, sema)) :
      Step b s .tryDown { s with sema := sema, downs := s.downs + 1 }
  | tryDownFails {s : SemaSystem} {sema : Semaphore} (h : s.sema.tryDown = (false, sema)) :
      Step b s .tryDown { s with sema := sema }
  | upNone {s : SemaSystem} {sema : Semaphore} (priority : ℕ → ℤ) (h : s.sema.up b priority = (none, sema)) :
      Step b s .up { s with sema := sema, ups := s.ups + 1 }
  | upWakes {s : SemaSystem} {t : ℕ} {sema : Semaphore} (priority : ℕ → ℤ)
      (h : s.sema.up b priority = (some t, sema)) :
      Step b s .up ({ s with sema := sema, woken := t :: s.woken, ups := s.ups + 1 }.setStatus t .ready)
  | switch {s : SemaSystem} {t : ℕ} {st : ThreadStatus} (h : s.Runnable t)
      (hst : st = .running ∨ st = .ready) : Step b s (.switch t) (s.setStatus t st)
  | elsewhere {s : SemaSystem} {t : ℕ} {st : ThreadStatus} (hs : t ∉ s.sema.waiters) (hw : t ∉ s.woken) :
      Step b s (.elsewhere t) (s.setStatus t st)

/-- `sema_init (n)` has just been called. -/
structure Init (n : ℕ) (s : SemaSystem) : Prop where
  value : s.sema.value = n
  range : n < 2 ^ 32
  waiters : s.sema.waiters = []
  woken : s.woken = []
  ups : s.ups = 0
  downs : s.downs = 0

/-! ## The counting invariant -/

/-- What holds at a semaphore that started at `n`. -/
structure Inv (n : ℕ) (s : SemaSystem) : Prop where
  value : (s.sema.value : ℤ) = n + s.ups - s.downs
  covered : s.sema.waiters ≠ [] → s.sema.value ≤ s.woken.length
  blocked : ∀ t ∈ s.sema.waiters, s.status t = .blocked
  runnable : ∀ t ∈ s.woken, s.Runnable t
  waitersNodup : s.sema.waiters.Nodup
  wokenNodup : s.woken.Nodup

variable {b : Build} {n : ℕ} {s s' : SemaSystem} {a : SemaAct} {t : ℕ}

theorem Init.inv (h : Init n s) : Inv n s where
  value := by rw [h.value, h.ups, h.downs]; simp
  covered hne := absurd h.waiters hne
  blocked t ht := by simp [h.waiters] at ht
  runnable t ht := by simp [h.woken] at ht
  waitersNodup := by simp [h.waiters]
  wokenNodup := by simp [h.woken]

/-- A thread takes a unit of the value. -/
theorem Inv.take (h : Inv n s) {woken : List ℕ} (h0 : 0 < s.sema.value)
    (hlen : s.woken.length ≤ woken.length + 1) (hsub : ∀ t ∈ woken, t ∈ s.woken) (hn : woken.Nodup) :
    Inv n { s with
      sema := { s.sema with value := s.sema.value - 1 }
      woken := woken
      downs := s.downs + 1 } where
  value := by
    have := h.value
    dsimp only
    push_cast [Nat.cast_sub (Nat.succ_le_of_lt h0)]
    omega
  covered hne := by
    have := h.covered hne
    dsimp only
    omega
  blocked := h.blocked
  runnable t ht := h.runnable t (hsub t ht)
  waitersNodup := h.waitersNodup
  wokenNodup := hn

/-- A thread joins the waiters. -/
theorem Inv.wait (h : Inv n s) (priority : ℕ → ℤ) {woken : List ℕ} (h0 : s.sema.value = 0)
    (hsub : ∀ u ∈ woken, u ∈ s.woken) (hr : s.status t = .running) (ht : t ∉ woken) (hn : woken.Nodup) :
    Inv n ({ s with sema := s.sema.enqueue b priority t, woken := woken }.setStatus t .blocked) where
  value := by simpa [setStatus] using h.value
  covered _ := by simp [setStatus, h0]
  blocked u hu := by
    by_cases hut : u = t
    · subst hut
      simp [setStatus]
    · simp only [setStatus, Function.update_of_ne hut]
      refine h.blocked u ?_
      exact (List.mem_cons.mp ((s.sema.perm_enqueue b priority t).mem_iff.mp hu)).resolve_left hut
  runnable u hu := by
    have hut : u ≠ t := fun hut => ht (hut ▸ hu)
    have := h.runnable u (hsub u hu)
    simpa [Runnable, setStatus, hut] using this
  waitersNodup := by
    have hmem : t ∉ s.sema.waiters := fun hmem => by simp [h.blocked t hmem] at hr
    exact (s.sema.perm_enqueue b priority t).nodup_iff.mpr (List.nodup_cons.mpr ⟨hmem, h.waitersNodup⟩)
  wokenNodup := hn

/-- An up that finds no waiter. -/
theorem Inv.up (h : Inv n s) {sema : Semaphore} (hvalue : sema.value = s.sema.value + 1)
    (hnil : sema.waiters = []) : Inv n { s with sema := sema, ups := s.ups + 1 } where
  value := by
    have := h.value
    dsimp only
    push_cast [hvalue]
    omega
  covered hne := absurd hnil hne
  blocked u hu := by
    dsimp only at hu
    rw [hnil] at hu
    exact absurd hu List.not_mem_nil
  runnable := h.runnable
  waitersNodup := by
    dsimp only
    rw [hnil]
    exact List.nodup_nil
  wokenNodup := h.wokenNodup

/-- **An up that wakes a waiter**: one more thread is on its way to one more unit of the value. -/
theorem Inv.wake (h : Inv n s) {sema : Semaphore} (hvalue : sema.value = s.sema.value + 1)
    (hperm : s.sema.waiters.Perm (t :: sema.waiters)) :
    Inv n ({ s with sema := sema, woken := t :: s.woken, ups := s.ups + 1 }.setStatus t .ready) := by
  have hmem : t ∈ s.sema.waiters := hperm.mem_iff.mpr List.mem_cons_self
  obtain ⟨hnot, hnodup⟩ := List.nodup_cons.mp (hperm.nodup_iff.mp h.waitersNodup)
  have ht : t ∉ s.woken := fun hw => by
    have hr := h.runnable t hw
    simp [Runnable, h.blocked t hmem] at hr
  refine ⟨?_, fun _ => ?_, fun u hu => ?_, fun u hu => ?_, hnodup, List.nodup_cons.mpr ⟨ht, h.wokenNodup⟩⟩
  · have := h.value
    simp only [setStatus]
    push_cast [hvalue]
    omega
  · have := h.covered (List.ne_nil_of_mem hmem)
    simp only [setStatus, List.length_cons]
    omega
  · have hut : u ≠ t := fun hut => hnot (hut ▸ hu)
    simp only [setStatus, Function.update_of_ne hut]
    exact h.blocked u (hperm.mem_iff.mpr (List.mem_cons_of_mem _ hu))
  · by_cases hut : u = t
    · subst hut
      simp [Runnable, setStatus]
    · have := h.runnable u ((List.mem_cons.mp hu).resolve_left hut)
      simpa [Runnable, setStatus, hut] using this

/-- A change of status elsewhere. -/
theorem Inv.setStatus (h : Inv n s) {st : ThreadStatus} (hs : t ∉ s.sema.waiters)
    (hw : t ∈ s.woken → st = .running ∨ st = .ready) : Inv n (s.setStatus t st) where
  value := h.value
  covered := h.covered
  blocked u hu := by
    have hut : u ≠ t := fun hut => hs (hut ▸ hu)
    simp only [SemaSystem.setStatus, Function.update_of_ne hut]
    exact h.blocked u hu
  runnable u hu := by
    by_cases hut : u = t
    · subst hut
      simpa [Runnable, SemaSystem.setStatus] using hw hu
    · have := h.runnable u hu
      simpa [Runnable, SemaSystem.setStatus, hut] using this
  waitersNodup := h.waitersNodup
  wokenNodup := h.wokenNodup

/-- `sema_up` has room for one more. -/
def HasRoom (s : SemaSystem) (a : SemaAct) : Prop := a = .up → s.sema.value ≠ 2 ^ 32 - 1

/-- A step that does not wrap `value` around. -/
def RoomStep (b : Build) (s : SemaSystem) (a : SemaAct) (s' : SemaSystem) : Prop :=
  Step b s a s' ∧ s.HasRoom a

/-- **A step keeps the count.** -/
theorem Inv.step (hlt : s.sema.value < 2 ^ 32) (h : Inv n s) (hs : RoomStep b s a s') :
    Inv n s' ∧ s'.sema.value < 2 ^ 32 := by
  obtain ⟨hs, hroom⟩ := hs
  cases hs with
  | down priority ht hw hd =>
    obtain ⟨h0, rfl⟩ := Semaphore.down_true hd
    refine ⟨h.take h0 (Nat.le_succ _) (fun _ hu => hu) h.wokenNodup, ?_⟩
    dsimp only
    omega
  | @downBlock t sema priority ht hw hd =>
    obtain ⟨h0, rfl⟩ := Semaphore.down_false hd
    refine ⟨h.wait priority h0 (fun _ hu => hu) ht hw h.wokenNodup, ?_⟩
    simpa [SemaSystem.setStatus] using hlt
  | @retest t sema priority ht hw hd =>
    obtain ⟨h0, rfl⟩ := Semaphore.down_true hd
    refine ⟨h.take h0 ?_ (fun u hu => List.mem_of_mem_erase hu) (h.wokenNodup.erase t), ?_⟩
    · have := List.length_erase_of_mem hw
      omega
    · dsimp only
      omega
  | @retestBlock t sema priority ht hw hd =>
    obtain ⟨h0, rfl⟩ := Semaphore.down_false hd
    refine ⟨h.wait priority h0 (fun u hu => List.mem_of_mem_erase hu) ht (h.wokenNodup.not_mem_erase)
      (h.wokenNodup.erase t), ?_⟩
    simpa [SemaSystem.setStatus] using hlt
  | tryDown hd =>
    obtain ⟨h0, rfl⟩ := Semaphore.tryDown_true hd
    refine ⟨h.take h0 (Nat.le_succ _) (fun _ hu => hu) h.wokenNodup, ?_⟩
    dsimp only
    omega
  | tryDownFails hd =>
    obtain rfl := Semaphore.tryDown_false hd
    exact ⟨h, hlt⟩
  | upNone priority hu =>
    have hlt' := hroom rfl
    obtain ⟨hvalue, hperm, hnil⟩ := Semaphore.up_eq hu (by omega)
    rw [hnil.mp rfl] at hperm
    refine ⟨h.up hvalue hperm.nil_eq.symm, ?_⟩
    dsimp only
    omega
  | @upWakes t sema priority hu =>
    have hlt' := hroom rfl
    obtain ⟨hvalue, hperm, -⟩ := Semaphore.up_eq hu (by omega)
    refine ⟨h.wake hvalue hperm, ?_⟩
    show sema.value < 2 ^ 32
    omega
  | @switch t st hr hst =>
    refine ⟨h.setStatus (fun hmem => ?_) fun _ => hst, hlt⟩
    simp [Runnable, h.blocked t hmem] at hr
  | elsewhere hs hw =>
    exact ⟨h.setStatus hs fun hmem => absurd hmem hw, hlt⟩

/-- **No wake-up is lost.**  In every run in which `value` does not wrap around, it is `n` with the ups and
without the downs; an up takes one waiter at most; and while threads wait, at least `value` threads have
been woken that have not tested `value` again, so one of them can run if `value` is positive. -/
theorem sema_covered {s₀ : SemaSystem} {ls : List SemaAct} (h₀ : Init n s₀)
    (hrun : Trace (RoomStep b) s₀ ls s) :
    (s.sema.value : ℤ) = n + s.ups - s.downs ∧
    (∀ s', Step b s .up s' → ∃ o : Option ℕ, s.sema.waiters.Perm (o.toList ++ s'.sema.waiters)) ∧
    s.woken.Nodup ∧
    (s.sema.waiters ≠ [] → s.sema.value ≤ s.woken.length ∧
      (0 < s.sema.value → ∃ t ∈ s.woken, s.Runnable t)) := by
  obtain ⟨h, -⟩ := hrun.invariant (I := fun s => Inv n s ∧ s.sema.value < 2 ^ 32)
    (fun _ _ _ hI hs => hI.1.step hI.2 hs) ⟨h₀.inv, h₀.value ▸ h₀.range⟩
  refine ⟨h.value, fun s' hs => ?_, h.wokenNodup, fun hne => ⟨h.covered hne, fun hpos => ?_⟩⟩
  · cases hs with
    | upNone priority hu =>
      have hp := s.sema.perm_up b priority
      rw [hu] at hp
      exact ⟨none, hp⟩
    | @upWakes t sema priority hu =>
      have hp := s.sema.perm_up b priority
      rw [hu] at hp
      exact ⟨some t, hp⟩
  · have hlen := h.covered hne
    obtain ⟨t, ht⟩ := List.exists_mem_of_length_pos (l := s.woken) (by omega)
    exact ⟨t, ht, h.runnable t ht⟩

/-- A semaphore that has just been set to `n`, with running threads around it. -/
def fresh (n : ℕ) : SemaSystem := ⟨⟨n, []⟩, fun _ => .running, [], 0, 0⟩

theorem fresh_init (h : n < 2 ^ 32) : Init n (fresh n) := ⟨rfl, h, rfl, rfl, rfl, rfl⟩

/-- A thread waits at a semaphore of 0, and is woken. -/
theorem trace_wake (b : Build) : Trace (RoomStep b) (fresh 0) [.down 1, .up]
    ⟨⟨1, []⟩, Function.update (Function.update (fun _ => .running) 1 .blocked) 1 .ready, [1], 1, 0⟩ := by
  cases b <;> exact .cons ⟨.downBlock (fun _ => 31) rfl nofun rfl, nofun⟩
    (.single ⟨.upWakes (fun _ => 31) rfl, fun _ => by decide⟩)

theorem sema_covered_wake : ((1 : ℕ) : ℤ) = (0 : ℕ) + (1 : ℕ) - (0 : ℕ) ∧
    ∃ t ∈ [1], Runnable ⟨⟨1, []⟩, Function.update (Function.update (fun _ => .running) 1 .blocked) 1 .ready,
      [1], 1, 0⟩ t :=
  have h := sema_covered (fresh_init (by decide)) (trace_wake .threads)
  ⟨h.1, 1, by simp, .inr (by simp)⟩

/-- **The value wraps around.**  At its largest value, a `sema_up` sets a semaphore to 0. -/
theorem sema_value_wraps : ∃ s₀ s, Init (2 ^ 32 - 1) s₀ ∧ Trace (Step .threads) s₀ [.up] s ∧
    (s.sema.value : ℤ) ≠ (2 ^ 32 - 1 : ℕ) + s.ups - s.downs :=
  ⟨fresh (2 ^ 32 - 1), ⟨⟨0, []⟩, fun _ => .running, [], 1, 0⟩, fresh_init (by decide),
    .single (.upNone (fun _ => 31) rfl), by decide⟩

end SemaSystem

end Pintos.Threads
