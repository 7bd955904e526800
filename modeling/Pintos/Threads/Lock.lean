import Pintos.Threads.Semaphore

/-!
# Locks

`lock_acquire`, `lock_try_acquire` and `lock_release` of `threads/synch.c`, as any number of threads run
them.  The field `holder` is written outside the sections of the semaphore, so a thread may be switched off
between `sema_down` and the assignment to `holder`, and between clearing `holder` and `sema_up`; every
such place has a name of its own in `LockPlace`.

The semaphore and the threads between their `sema_down` and their `sema_up` share one unit (`Inv.unit`), so
at most one thread holds the lock (`lock_exclusive`).  A thread that acquires a lock that it holds fails the
assertion of `lock_acquire` (`lock_reacquired`).
-/

namespace Pintos.Threads

/-- Where a thread is. -/
inductive LockPlace
  | outside
  /-- In `lock_acquire`, before `sema_down`. -/
  | enter
  | waiting
  | woken
  /-- In `lock_try_acquire`, before `sema_try_down`. -/
  | tryEnter
  /-- The semaphore is down, `holder` is not written yet. -/
  | downed
  | holding
  /-- In `lock_release`, before `holder` is cleared. -/
  | leave
  /-- In `lock_release`, before `sema_up`. -/
  | cleared
  deriving DecidableEq

/-- `struct lock` and the threads around it. -/
structure LockSystem where
  semaphore : Semaphore
  holder : Option ℕ
  place : ℕ → LockPlace
  panicked : Bool

/-- What a step is; the first three are the assertions at the start of the functions. -/
inductive LockAct
  | acquire
  | tryAcquire
  | release
  | down
  | retest
  | tryDown
  | setHolder
  | clearHolder
  | up
  deriving DecidableEq

namespace LockSystem

def move (s : LockSystem) (t : ℕ) (p : LockPlace) : LockSystem :=
  { s with place := Function.update s.place t p }

/-- A thread that `sema_up` has unblocked. -/
def wake (s : LockSystem) : Option ℕ → LockSystem
  | none => s
  | some t => s.move t .woken

/-- An assertion: the machine stops where it fails. -/
def check (s : LockSystem) (holds : Bool) (s' : LockSystem) : LockSystem :=
  if holds then s' else { s with panicked := true }

/-- In thread code a thread is outside or holds the lock. -/
def InCode (s : LockSystem) (t : ℕ) : Prop := s.place t = .outside ∨ s.place t = .holding

/-- A step of thread `t`; a thread releases only what it holds. -/
inductive Step (b : Build) : LockSystem → ℕ × LockAct → LockSystem → Prop
  | acquire {s : LockSystem} {t : ℕ} (hp : s.panicked = false) (h : s.InCode t) :
      Step b s (t, .acquire) (s.check (s.holder ≠ some t) (s.move t .enter))
  | tryAcquire {s : LockSystem} {t : ℕ} (hp : s.panicked = false) (h : s.InCode t) :
      Step b s (t, .tryAcquire) (s.check (s.holder ≠ some t) (s.move t .tryEnter))
  | release {s : LockSystem} {t : ℕ} (hp : s.panicked = false) (h : s.place t = .holding) :
      Step b s (t, .release) (s.check (s.holder = some t) (s.move t .leave))
  | down {s : LockSystem} {t : ℕ} {r : Bool} {sema : Semaphore} (priority : ℕ → ℤ)
      (hp : s.panicked = false) (h : s.place t = .enter) (hd : s.semaphore.down b priority t = (r, sema)) :
      Step b s (t, .down) { s.move t (if r then .downed else .waiting) with semaphore := sema }
  | retest {s : LockSystem} {t : ℕ} {r : Bool} {sema : Semaphore} (priority : ℕ → ℤ)
      (hp : s.panicked = false) (h : s.place t = .woken) (hd : s.semaphore.down b priority t = (r, sema)) :
      Step b s (t, .retest) { s.move t (if r then .downed else .waiting) with semaphore := sema }
  | tryDown {s : LockSystem} {t : ℕ} {r : Bool} {sema : Semaphore} (hp : s.panicked = false)
      (h : s.place t = .tryEnter) (hd : s.semaphore.tryDown = (r, sema)) :
      Step b s (t, .tryDown) { s.move t (if r then .downed else .outside) with semaphore := sema }
  | setHolder {s : LockSystem} {t : ℕ} (hp : s.panicked = false) (h : s.place t = .downed) :
      Step b s (t, .setHolder) { s.move t .holding with holder := some t }
  | clearHolder {s : LockSystem} {t : ℕ} (hp : s.panicked = false) (h : s.place t = .leave) :
      Step b s (t, .clearHolder) { s.move t .cleared with holder := none }
  | up {s : LockSystem} {t : ℕ} {o : Option ℕ} {sema : Semaphore} (priority : ℕ → ℤ)
      (hp : s.panicked = false) (h : s.place t = .cleared) (hu : s.semaphore.up b priority = (o, sema)) :
      Step b s (t, .up) ({ s.move t .outside with semaphore := sema }.wake o)

/-- `lock_init` has just been called. -/
def init : LockSystem := ⟨⟨1, []⟩, none, fun _ => .outside, false⟩

/-! ## One unit -/

/-- Past a successful acquire, and not yet at its release. -/
def Holds (s : LockSystem) (t : ℕ) : Prop :=
  s.place t = .downed ∨ s.place t = .holding ∨ s.place t = .leave

/-- The same, with a release in progress. -/
def Busy (s : LockSystem) (t : ℕ) : Prop := s.Holds t ∨ s.place t = .cleared

/-- What holds in every state. -/
structure Inv (s : LockSystem) : Prop where
  unit : (s.semaphore.value = 1 ∧ ∀ t, ¬s.Busy t) ∨
    (s.semaphore.value = 0 ∧ ∃ t, s.Busy t ∧ ∀ u, s.Busy u → u = t)
  holder : ∀ t, s.holder = some t ↔ s.place t = .holding ∨ s.place t = .leave
  waiting : ∀ t ∈ s.semaphore.waiters, s.place t = .waiting
  nodup : s.semaphore.waiters.Nodup
  running : s.panicked = false

variable {b : Build} {s s' : LockSystem} {t u : ℕ} {a : LockAct}

theorem init_inv : Inv init where
  unit := .inl ⟨rfl, fun t h => by simp [Busy, Holds, init] at h⟩
  holder t := by simp [init]
  waiting t ht := by simp [init] at ht
  nodup := List.nodup_nil
  running := rfl

@[simp] theorem move_place_self (p : LockPlace) : (s.move t p).place t = p := Function.update_self ..

theorem move_place_ne (h : u ≠ t) (p : LockPlace) : (s.move t p).place u = s.place u :=
  Function.update_of_ne h ..

/-- A thread goes on, and does not come to wait. -/
theorem Inv.move (h : Inv s) {p : LockPlace} (hbusy : (s.move t p).Busy t ↔ s.Busy t)
    (hholder : s.holder = some t ↔ p = .holding ∨ p = .leave) (hw : t ∉ s.semaphore.waiters) :
    Inv (s.move t p) := by
  have hall : ∀ u, (s.move t p).Busy u ↔ s.Busy u := fun u => by
    by_cases hut : u = t
    · rw [hut, hbusy]
    · simp only [Busy, Holds, move_place_ne hut]
  refine ⟨?_, fun u => ?_, fun u hu => ?_, h.nodup, h.running⟩
  · simp only [hall]
    exact h.unit
  · by_cases hut : u = t
    · rw [hut, move_place_self]
      exact hholder
    · rw [move_place_ne hut]
      exact h.holder u
  · have hut : u ≠ t := fun hut => hw (hut ▸ hu)
    rw [move_place_ne hut]
    exact h.waiting u hu

theorem Inv.not_waiting (h : Inv s) (hp : s.place t ≠ .waiting) : t ∉ s.semaphore.waiters := fun ht =>
  hp (h.waiting t ht)

/-- **A thread gets the unit.** -/
theorem Inv.take (h : Inv s) (h0 : 0 < s.semaphore.value) (hp : s.place t ≠ .waiting) :
    Inv { s.move t .downed with semaphore := { s.semaphore with value := s.semaphore.value - 1 } } := by
  obtain ⟨hvalue, hfree⟩ : s.semaphore.value = 1 ∧ ∀ t, ¬s.Busy t := by
    rcases h.unit with hu | ⟨hz, _⟩
    · exact hu
    · omega
  have hnot : ∀ u, s.holder ≠ some u := fun u hu => hfree u (.inl (.inr ((h.holder u).mp hu)))
  refine ⟨.inr ⟨by simp [hvalue], t, ?_, fun u hu => ?_⟩, fun u => ?_, fun u hu => ?_, h.nodup, h.running⟩
  · exact .inl (.inl (move_place_self _))
  · by_contra hut
    simp only [Busy, Holds, move_place_ne hut] at hu
    exact hfree u hu
  · refine iff_of_false (hnot u) ?_
    by_cases hut : u = t
    · simp [hut]
    · simp only [move_place_ne hut]
      exact fun hu => hnot u ((h.holder u).mpr hu)
  · have hut : u ≠ t := fun hut => h.not_waiting hp (hut ▸ hu)
    simp only [move_place_ne hut]
    exact h.waiting u hu

/-- A thread joins the waiters. -/
theorem Inv.wait (h : Inv s) (priority : ℕ → ℤ) (hp : s.place t = .enter ∨ s.place t = .woken) :
    Inv { s.move t .waiting with semaphore := s.semaphore.enqueue b priority t } := by
  have hbusy : ¬s.Busy t := by rcases hp with hp | hp <;> simp [Busy, Holds, hp]
  have hholder : s.holder ≠ some t := fun hh => hbusy (.inl (.inr ((h.holder t).mp hh)))
  have hw : t ∉ s.semaphore.waiters := h.not_waiting (by rcases hp with hp | hp <;> simp [hp])
  have hmove : Inv (s.move t .waiting) := h.move (iff_of_false (by simp [Busy, Holds]) hbusy)
    (iff_of_false hholder (by simp)) hw
  have hperm := s.semaphore.perm_enqueue b priority t
  refine ⟨?_, hmove.holder, fun u hu => ?_, ?_, h.running⟩
  · rw [Semaphore.enqueue_value]
    exact hmove.unit
  · rcases List.mem_cons.mp (hperm.mem_iff.mp hu) with rfl | hu
    · exact move_place_self _
    · exact hmove.waiting u hu
  · exact hperm.nodup_iff.mpr (List.nodup_cons.mpr ⟨hw, h.nodup⟩)

/-- A pass of the loop of `sema_down`. -/
theorem Inv.down (h : Inv s) {priority : ℕ → ℤ} {r : Bool} {sema : Semaphore}
    (hp : s.place t = .enter ∨ s.place t = .woken) (hd : s.semaphore.down b priority t = (r, sema)) :
    Inv { s.move t (if r then .downed else .waiting) with semaphore := sema } := by
  cases r with
  | true =>
    obtain ⟨h0, rfl⟩ := Semaphore.down_true hd
    exact h.take h0 (by rcases hp with hp | hp <;> simp [hp])
  | false =>
    obtain ⟨-, rfl⟩ := Semaphore.down_false hd
    exact h.wait priority hp

/-- The thread that has the unit writes `holder`. -/
theorem Inv.own (h : Inv s) {p : LockPlace} {o : Option ℕ} (hbusy : s.Busy t)
    (hp : (s.move t p).Busy t) (ho : o = some t ↔ p = .holding ∨ p = .leave)
    (hother : ∀ u, u ≠ t → o ≠ some u) : Inv { s.move t p with holder := o } := by
  have honly : ∀ u, s.Busy u → u = t := by
    rcases h.unit with ⟨-, hno⟩ | ⟨-, v, -, honly⟩
    · exact absurd hbusy (hno t)
    · exact fun u hu => (honly u hu).trans (honly t hbusy).symm
  have hall : ∀ u, (s.move t p).Busy u → u = t := fun u hu => by
    by_contra hut
    simp only [Busy, Holds, move_place_ne hut] at hu
    exact hut (honly u hu)
  have hvalue : s.semaphore.value = 0 := by
    rcases h.unit with ⟨-, hno⟩ | ⟨hz, -⟩
    · exact absurd hbusy (hno t)
    · exact hz
  refine ⟨.inr ⟨hvalue, t, hp, hall⟩, fun u => ?_, fun u hu => ?_, h.nodup, h.running⟩
  · by_cases hut : u = t
    · rw [hut]
      simpa using ho
    · refine iff_of_false (hother u hut) fun hu => hut (honly u ?_)
      simp only [move_place_ne hut] at hu
      exact .inl (.inr hu)
  · have hwu := h.waiting u hu
    have hut : u ≠ t := fun hut => by
      rw [hut] at hwu
      simp [Busy, Holds, hwu] at hbusy
    simp only [move_place_ne hut]
    exact hwu

/-- **The unit goes back to the semaphore.** -/
theorem Inv.up (h : Inv s) {priority : ℕ → ℤ} {o : Option ℕ} {sema : Semaphore}
    (hp : s.place t = .cleared) (hu : s.semaphore.up b priority = (o, sema)) :
    Inv ({ s.move t .outside with semaphore := sema }.wake o) := by
  have hbusy : s.Busy t := .inr hp
  obtain ⟨hvalue, honly⟩ : s.semaphore.value = 0 ∧ ∀ u, s.Busy u → u = t := by
    rcases h.unit with ⟨-, hno⟩ | ⟨hz, v, -, honly⟩
    · exact absurd hbusy (hno t)
    · exact ⟨hz, fun u hu => (honly u hu).trans (honly t hbusy).symm⟩
  obtain ⟨hone, hperm, -⟩ := Semaphore.up_eq hu (by omega)
  have hnodup := hperm.nodup_iff.mp h.nodup
  have hw : ∀ u, u ∈ o.toList ++ sema.waiters → s.place u = .waiting := fun u hu =>
    h.waiting u (hperm.mem_iff.mpr hu)
  have hnot : ∀ u, s.holder ≠ some u := fun u hu => by
    have hut := honly u (.inl (.inr ((h.holder u).mp hu)))
    have := (h.holder u).mp hu
    simp [hut, hp] at this
  -- nobody is left past a successful acquire
  have hfree : Inv { s.move t .outside with semaphore := sema } := by
    have hnone : ∀ u, ¬(s.move t .outside).Busy u := fun u hb => by
      by_cases hut : u = t
      · simp [Busy, Holds, hut] at hb
      · simp only [Busy, Holds, move_place_ne hut] at hb
        exact hut (honly u hb)
    refine ⟨.inl ⟨by rw [← zero_add 1, ← hvalue]; exact hone, hnone⟩,
      fun u => iff_of_false (hnot u) fun hh => hnone u (.inl (.inr hh)), fun u hu => ?_,
      (List.nodup_append.mp hnodup).2.1, h.running⟩
    have hwu := hw u (List.mem_append_right _ hu)
    have hut : u ≠ t := fun hut => by simp [hut, hp] at hwu
    simp only [move_place_ne hut]
    exact hwu
  cases o with
  | none => exact hfree
  | some v =>
    have hv : s.place v = .waiting := hw v (by simp)
    have hvt : v ≠ t := fun hvt => by simp [hvt, hp] at hv
    refine hfree.move (iff_of_false (by simp [Busy, Holds]) ?_) (iff_of_false (hnot v) (by simp)) ?_
    · simp [Busy, Holds, move_place_ne hvt, hv]
    · simpa using (List.nodup_cons.mp hnodup).1

/-- The thread does not acquire a lock that it holds. -/
def Polite (s : LockSystem) : ℕ × LockAct → Prop
  | (t, .acquire) => s.place t ≠ .holding
  | (t, .tryAcquire) => s.place t ≠ .holding
  | _ => True

def PoliteStep (b : Build) (s : LockSystem) (l : ℕ × LockAct) (s' : LockSystem) : Prop :=
  Step b s l s' ∧ s.Polite l

theorem Inv.enter (h : Inv s) {p : LockPlace} (hc : s.InCode t) (hne : s.place t ≠ .holding)
    (hp : p = .enter ∨ p = .tryEnter) : Inv (s.check (s.holder ≠ some t) (s.move t p)) := by
  have hout : s.place t = .outside := hc.resolve_right hne
  have hholder : s.holder ≠ some t := fun hh => by simpa [hout] using (h.holder t).mp hh
  rw [check, if_pos (decide_eq_true hholder)]
  refine h.move (iff_of_false ?_ (by simp [Busy, Holds, hout])) (iff_of_false hholder ?_)
    (h.not_waiting (by simp [hout]))
  · rcases hp with rfl | rfl <;> simp [Busy, Holds]
  · rcases hp with rfl | rfl <;> simp

/-- **A step keeps the unit.** -/
theorem Inv.step (h : Inv s) {l : ℕ × LockAct} (hs : PoliteStep b s l s') : Inv s' := by
  obtain ⟨hs, hpolite⟩ := hs
  cases hs with
  | acquire hp hc => exact h.enter hc hpolite (.inl rfl)
  | tryAcquire hp hc => exact h.enter hc hpolite (.inr rfl)
  | @release t hp hc =>
    have hholder : s.holder = some t := (h.holder t).mpr (.inl hc)
    rw [check, if_pos (decide_eq_true hholder)]
    exact h.move (iff_of_true (.inl (.inr (.inr (move_place_self _)))) (.inl (.inr (.inl hc))))
      (iff_of_true hholder (.inr rfl)) (h.not_waiting (by simp [hc]))
  | down priority hp hc hd => exact h.down (.inl hc) hd
  | retest priority hp hc hd => exact h.down (.inr hc) hd
  | @tryDown t r sema hp hc hd =>
    cases r with
    | true =>
      obtain ⟨h0, rfl⟩ := Semaphore.tryDown_true hd
      exact h.take h0 (by simp [hc])
    | false =>
      obtain rfl := Semaphore.tryDown_false hd
      have hbusy : ¬s.Busy t := by simp [Busy, Holds, hc]
      exact h.move (iff_of_false (by simp [Busy, Holds]) hbusy)
        (iff_of_false (fun hh => hbusy (.inl (.inr ((h.holder t).mp hh)))) (by simp))
        (h.not_waiting (by simp [hc]))
  | setHolder hp hc =>
    exact h.own (.inl (.inl hc)) (.inl (.inr (.inl (move_place_self _)))) (iff_of_true rfl (.inl rfl))
      fun u hne hu => hne (Option.some.inj hu).symm
  | clearHolder hp hc =>
    exact h.own (.inl (.inr (.inr hc))) (.inr (move_place_self _)) (iff_of_false nofun (by simp))
      fun u _ => nofun
  | up priority hp hc hu => exact h.up hc hu

/-- **The lock is held by one thread at most.**  In every run in which no thread acquires a lock that it
holds: one thread at most is past a successful acquire and not yet at its release, `holder` is null or this
thread, the value and the number of such threads, with a release in progress, make 1, and no assertion has
failed. -/
theorem lock_exclusive {ls : List (ℕ × LockAct)} (hrun : Trace (PoliteStep b) init ls s) :
    (∀ t u, s.Holds t → s.Holds u → t = u) ∧ (∀ t, s.holder = some t → s.Holds t) ∧
    s.semaphore.value + {t | s.Busy t}.ncard = 1 ∧ s.panicked = false := by
  have h : Inv s := hrun.invariant (fun _ _ _ hI hs => hI.step hs) init_inv
  refine ⟨fun t u ht hu => ?_, fun t ht => .inr ((h.holder t).mp ht), ?_, h.running⟩
  · rcases h.unit with ⟨-, hno⟩ | ⟨-, v, -, honly⟩
    · exact absurd (.inl ht) (hno t)
    · exact (honly t (.inl ht)).trans (honly u (.inl hu)).symm
  · rcases h.unit with ⟨hvalue, hno⟩ | ⟨hvalue, v, hv, honly⟩
    · have hempty : {t | s.Busy t} = ∅ := Set.eq_empty_of_forall_notMem hno
      rw [hvalue, hempty, Set.ncard_empty]
    · have hsingle : {t | s.Busy t} = {v} := Set.eq_singleton_iff_unique_mem.mpr ⟨hv, honly⟩
      rw [hvalue, hsingle, Set.ncard_singleton]

/-- A thread acquires the lock. -/
theorem trace_acquire (b : Build) : Trace (PoliteStep b) init [(1, .acquire), (1, .down), (1, .setHolder)]
    { init with
      semaphore := ⟨0, []⟩
      holder := some 1
      place := Function.update (Function.update (Function.update (fun _ => .outside) 1 .enter) 1 .downed) 1
        .holding } :=
  .cons ⟨.acquire rfl (.inl rfl), nofun⟩ (.cons ⟨.down (fun _ => 31) rfl rfl rfl, trivial⟩
    (.single ⟨.setHolder rfl rfl, trivial⟩))

theorem lock_exclusive_acquired : ∃ s : LockSystem, s.holder = some 1 ∧ s.Holds 1 ∧ s.panicked = false :=
  have h := lock_exclusive (trace_acquire .threads)
  ⟨_, rfl, h.2.1 1 rfl, h.2.2.2⟩

/-- **An assertion fails.**  A thread that holds the lock calls `lock_acquire` once more. -/
theorem lock_reacquired : ∃ ls s, Trace (Step .threads) init ls s ∧ s.panicked = true :=
  ⟨_, _, ((trace_acquire .threads).mono fun _ _ _ h => h.1).append (.single (.acquire (t := 1) rfl (.inr rfl))),
    rfl⟩

end LockSystem

end Pintos.Threads
