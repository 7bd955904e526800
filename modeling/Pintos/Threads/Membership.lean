import Pintos.Lib.KernelList
import Pintos.Library.Trace
import Pintos.Threads.Queues

/-!
# Runs of the kernel

In every state of every run the status of a thread goes with the list that it is in, when no thread calls
`thread_unblock` itself except for a thread that is in no list (`Kernel.Proper`): `thread_unblock` takes the
thread from no list, it is its callers that do.
-/

namespace Pintos.Threads.Kernel

variable {k k' : Kernel} {q : Queue} {t : ℕ} {l : List ℕ}

/-! ## What scheduling leaves alone -/

/-- What the choice of another thread changes, and nothing else. -/
def Switched (k k' : Kernel) : Prop :=
  ∃ st rl sm cur tt ch, k' = { k with
    status := st
    readyList := rl
    sema := sm
    current := cur
    threadTicks := tt
    choices := ch }

theorem Switched.refl (k : Kernel) : Switched k k := ⟨_, _, _, _, _, _, rfl⟩

theorem Switched.trans {k₁ : Kernel} (h : Switched k k₁) (h' : Switched k₁ k') : Switched k k' := by
  obtain ⟨_, _, _, _, _, _, rfl⟩ := h
  obtain ⟨st, rl, sm, cur, tt, ch, rfl⟩ := h'
  exact ⟨st, rl, sm, cur, tt, ch, rfl⟩

theorem schedule_switched (hs : k.schedule = some k') : Switched k k' := by
  obtain ⟨-, next, ts, rfl, -⟩ := schedule_eq_some hs
  exact ⟨_, _, _, _, _, _, rfl⟩

theorem threadBlock_switched (hs : k.threadBlock = some k') : Switched k k' := by
  have hblock : Switched k (k.setStatus k.current .blocked) := ⟨_, _, _, _, _, _, rfl⟩
  exact hblock.trans (schedule_switched hs)

theorem requeue_switched (k : Kernel) : Switched k k.requeue := by
  unfold requeue
  split <;> exact ⟨_, _, _, _, _, _, rfl⟩

theorem threadYield_switched (hs : k.threadYield = some k') : Switched k k' :=
  (requeue_switched k).trans (schedule_switched hs)

theorem threadUnblock_switched (hs : k.threadUnblock t = some k') : Switched k k' := by
  obtain ⟨-, rfl⟩ := threadUnblock_eq_some.mp hs
  exact ⟨_, _, _, _, _, _, rfl⟩

theorem wakeWaiter_switched {s : ℕ} (hs : k.wakeWaiter s = some k') : Switched k k' := by
  have hsema : ∀ m, Switched k (k.setSema s m) := fun _ => ⟨_, _, _, _, _, _, rfl⟩
  obtain ⟨m, ⟨-, rfl⟩ | ⟨t, -, hs⟩⟩ := wakeWaiter_eq_some hs
  · exact hsema m
  · exact (hsema m).trans (threadUnblock_switched hs)

theorem semaUp_switched {s : ℕ} (hs : k.semaUp s = some k') : Switched k k' := by
  obtain ⟨k₁, hwake, hyield⟩ := Option.bind_eq_some_iff.mp hs
  exact (wakeWaiter_switched hwake).trans (threadYield_switched hyield)

/-- `sema_down` may have the running thread go on with its loop. -/
theorem semaDown_switched {s : ℕ} (hs : k.semaDown s = some k') :
    Switched k k' ∨ Switched (k.first [.retest s]) k' := by
  unfold semaDown at hs
  split at hs
  · cases hs
    exact .inl ⟨_, _, _, _, _, _, rfl⟩
  · rename_i m hd
    have hsema : Switched (k.first [.retest s]) ((k.setSema s m).first [.retest s]) := ⟨_, _, _, _, _, _, rfl⟩
    exact .inr (hsema.trans (threadBlock_switched hs))

/-- The same and the sleepers. -/
def Scheduled (k k' : Kernel) : Prop :=
  ∃ st w rl bl sm cur tt sk ts ch, k' = { k with
    status := st
    wakeT := w
    readyList := rl
    blockList := bl
    sema := sm
    current := cur
    threadTicks := tt
    smallestTick := sk
    timerSmallestTick := ts
    choices := ch }

theorem Scheduled.refl (k : Kernel) : Scheduled k k := ⟨_, _, _, _, _, _, _, _, _, _, rfl⟩

theorem Scheduled.trans {k₁ : Kernel} (h : Scheduled k k₁) (h' : Scheduled k₁ k') : Scheduled k k' := by
  obtain ⟨_, _, _, _, _, _, _, _, _, _, rfl⟩ := h
  obtain ⟨st, w, rl, bl, sm, cur, tt, sk, ts, ch, rfl⟩ := h'
  exact ⟨st, w, rl, bl, sm, cur, tt, sk, ts, ch, rfl⟩

theorem Scheduled.control (h : Scheduled k k') : k'.control = k.control := by
  obtain ⟨_, _, _, _, _, _, _, _, _, _, rfl⟩ := h
  rfl

theorem Scheduled.idleThread (h : Scheduled k k') : k'.idleThread = k.idleThread := by
  obtain ⟨_, _, _, _, _, _, _, _, _, _, rfl⟩ := h
  rfl

theorem Switched.scheduled (h : Switched k k') : Scheduled k k' := by
  obtain ⟨_, _, _, _, _, _, rfl⟩ := h
  exact ⟨_, _, _, _, _, _, _, _, _, _, rfl⟩

theorem timerSleep_scheduled {start ticks : ℤ} (hs : k.timerSleep start ticks = some k') : Scheduled k k' := by
  unfold timerSleep at hs
  split at hs
  · cases hs
    exact .refl _
  · have hsleep : Scheduled k (k.fallAsleep (wrap64 (ticks + start))) := ⟨_, _, _, _, _, _, _, _, _, _, rfl⟩
    exact hsleep.trans (threadBlock_switched hs).scheduled

theorem wakeLoop_scheduled {ts : List ℕ} (hs : wakeLoop ts k = some k') : Scheduled k k' := by
  induction ts generalizing k with
  | nil =>
    cases hs
    exact .refl _
  | cons t ts ih =>
    rw [wakeLoop] at hs
    split at hs
    · obtain ⟨k₁, hunblock, hs⟩ := Option.bind_eq_some_iff.mp hs
      have herase : Scheduled k { k with blockList := k.blockList.erase t } := ⟨_, _, _, _, _, _, _, _, _, _, rfl⟩
      exact (herase.trans (threadUnblock_switched hunblock).scheduled).trans (ih hs)
    · have hupdate : Scheduled k (k.updateSmallestTick (k.wakeT t)) := ⟨_, _, _, _, _, _, _, _, _, _, rfl⟩
      exact hupdate.trans (ih hs)

theorem wakeDue_scheduled (hs : k.wakeDue = some k') : Scheduled k k' := by
  unfold wakeDue at hs
  split at hs
  · have hreset : Scheduled k { k with timerSmallestTick := int64Max } := ⟨_, _, _, _, _, _, _, _, _, _, rfl⟩
    exact hreset.trans (wakeLoop_scheduled hs)
  · cases hs
    exact .refl _

/-- The timer interrupt is a renewal of the priorities and a change of the lists. -/
theorem timerInterrupt_scheduled (hs : k.timerInterrupt = some k') : Scheduled k.tick.renew.value k' := by
  obtain ⟨k₁, hhandler, hs⟩ := Option.bind_eq_some_iff.mp hs
  have hwake := wakeDue_scheduled hhandler
  split at hs
  · exact hwake.trans (threadYield_switched hs).scheduled
  · cases hs
    exact hwake

theorem timerInterrupt_control (hs : k.timerInterrupt = some k') :
    k'.control = k.control ∧ k'.idleThread = k.idleThread := by
  have h := timerInterrupt_scheduled hs
  obtain ⟨p, r, a, heq⟩ := renew_renewed k.tick
  rw [heq] at h
  exact ⟨h.control, h.idleThread⟩

/-- The threads, their priorities, the numbers of the feedback scheduler, the clock and the modes are the same. -/
structure SameNumbers (k k' : Kernel) : Prop where
  allList : k'.allList = k.allList
  priority : k'.priority = k.priority
  recentCpu : k'.recentCpu = k.recentCpu
  nice : k'.nice = k.nice
  loadAvg : k'.loadAvg = k.loadAvg
  ticks : k'.ticks = k.ticks
  mlfqs : k'.mlfqs = k.mlfqs
  aging : k'.aging = k.aging

theorem Scheduled.sameNumbers (h : Scheduled k k') : SameNumbers k k' := by
  obtain ⟨_, _, _, _, _, _, _, _, _, _, rfl⟩ := h
  exact ⟨rfl, rfl, rfl, rfl, rfl, rfl, rfl, rfl⟩

/-- No statement of `instr` changes them. -/
theorem instr_sameNumbers {freed : ℤ} {i : Instr} (hs : k.instr freed i = some k') : SameNumbers k k' := by
  have hrefl : SameNumbers k k := (Scheduled.refl k).sameNumbers
  cases i with
  | acquire l =>
    rw [instr] at hs
    split at hs
    · cases hs
    · cases hs
      exact ⟨rfl, rfl, rfl, rfl, rfl, rfl, rfl, rfl⟩
  | down s | retest s =>
    rcases semaDown_switched hs with h | h
    · exact h.scheduled.sameNumbers
    · obtain ⟨h₁, h₂, h₃, h₄, h₅, h₆, h₇, h₈⟩ := h.scheduled.sameNumbers
      exact ⟨h₁, h₂, h₃, h₄, h₅, h₆, h₇, h₈⟩
  | hold l | startIdle =>
    cases hs
    exact ⟨rfl, rfl, rfl, rfl, rfl, rfl, rfl, rfl⟩
  | release l =>
    rw [instr] at hs
    split at hs
    · cases hs
      exact ⟨rfl, rfl, rfl, rfl, rfl, rfl, rfl, rfl⟩
    · cases hs
  | up s => exact (semaUp_switched hs).scheduled.sameNumbers
  | unblock t =>
    obtain ⟨h₁, h₂, h₃, h₄, h₅, h₆, h₇, h₈⟩ := (threadUnblock_switched hs).scheduled.sameNumbers
    exact ⟨h₁, h₂, h₃, h₄, h₅, h₆, h₇, h₈⟩
  | check t =>
    rw [instr] at hs
    split at hs
    · exact (threadYield_switched hs).scheduled.sameNumbers
    · cases hs
      exact hrefl
  | sleep start ticks => exact (timerSleep_scheduled hs).sameNumbers
  | idleLoop =>
    obtain ⟨h₁, h₂, h₃, h₄, h₅, h₆, h₇, h₈⟩ := (threadBlock_switched hs).scheduled.sameNumbers
    exact ⟨h₁, h₂, h₃, h₄, h₅, h₆, h₇, h₈⟩

/-- `thread_exit` takes the running thread out of `all_list`. -/
theorem threadExit_sameNumbers (hs : k.threadExit = some k') :
    SameNumbers { k with allList := k.allList.erase k.current } k' := by
  obtain ⟨h₁, h₂, h₃, h₄, h₅, h₆, h₇, h₈⟩ := (schedule_switched hs).scheduled.sameNumbers
  exact ⟨h₁, h₂, h₃, h₄, h₅, h₆, h₇, h₈⟩

/-- No call does but `thread_exit`, `thread_create`, `thread_set_priority` and `thread_set_nice`. -/
theorem call_sameNumbers {c : Call} (hs : k.call c = some k') (hexit : c ≠ .exit) (hcreate : ∀ t p, c ≠ .create t p)
    (hpriority : ∀ p, c ≠ .setPriority p) (hnice : ∀ n, c ≠ .setNice n) : SameNumbers k k' := by
  cases c with
  | yield => exact (threadYield_switched hs).scheduled.sameNumbers
  | block => exact (threadBlock_switched hs).scheduled.sameNumbers
  | unblock t => exact (threadUnblock_switched hs).scheduled.sameNumbers
  | exit => exact absurd rfl hexit
  | create t p => exact absurd rfl (hcreate t p)
  | acquire l | release l | down s | tryDown s | up s | sleep n | getLoadAvg | getRecentCpu =>
    cases hs
    exact ⟨rfl, rfl, rfl, rfl, rfl, rfl, rfl, rfl⟩
  | signal l w =>
    rw [Kernel.call] at hs
    split at hs
    · cases hs
      exact ⟨rfl, rfl, rfl, rfl, rfl, rfl, rfl, rfl⟩
    · cases hs
  | setPriority p => exact absurd rfl (hpriority p)
  | setNice n => exact absurd rfl (hnice n)

/-- `thread_set_priority` changes the priority of the running thread and may schedule. -/
theorem threadSetPriority_switched {p : ℤ} (hs : k.threadSetPriority p = some k') :
    k' = k ∧ k.mlfqs = true ∨ Switched (k.setPriority k.current p) k' := by
  unfold threadSetPriority at hs
  split at hs
  · cases hs
    exact .inl ⟨rfl, ‹_›⟩
  · split at hs
    · exact .inr (threadYield_switched hs)
    · cases hs
      exact .inr (.refl _)

theorem initThread_eq_some {p : ℤ} (hs : k.initThread t p = some k') : (priMin ≤ p ∧ p ≤ priMax) ∧
    k' = { k with
      status := Function.update k.status t .blocked
      priority := Function.update k.priority t p
      wakeT := Function.update k.wakeT t 0
      nice := Function.update k.nice t (k.nice k.current)
      recentCpu := Function.update k.recentCpu t (k.recentCpu k.current)
      control := Function.update k.control t []
      allList := k.allList ++ [t] } := by
  unfold initThread at hs
  split at hs
  · exact ⟨‹_›, (Option.some.inj hs).symm⟩
  · cases hs

/-- No call changes the clock or the modes. -/
theorem call_ticks {c : Call} (hs : k.call c = some k') :
    k'.ticks = k.ticks ∧ k'.mlfqs = k.mlfqs ∧ k'.aging = k.aging := by
  cases c with
  | exit =>
    have h := threadExit_sameNumbers hs
    exact ⟨h.ticks, h.mlfqs, h.aging⟩
  | create t p =>
    obtain ⟨k₁, hinit, rfl⟩ := Option.map_eq_some_iff.mp hs
    obtain ⟨-, rfl⟩ := initThread_eq_some hinit
    exact ⟨rfl, rfl, rfl⟩
  | setPriority p =>
    rcases threadSetPriority_switched hs with ⟨rfl, -⟩ | h
    · exact ⟨rfl, rfl, rfl⟩
    · have h := h.scheduled.sameNumbers
      exact ⟨h.ticks, h.mlfqs, h.aging⟩
  | setNice n =>
    cases hs
    exact ⟨rfl, rfl, rfl⟩
  | _ =>
    have h := call_sameNumbers hs nofun nofun nofun nofun
    exact ⟨h.ticks, h.mlfqs, h.aging⟩

/-- The modes are never changed. -/
theorem Step.modes {a : Act} (hs : Step k a k') : k'.mlfqs = k.mlfqs ∧ k'.aging = k.aging := by
  cases hs with
  | interrupt hon hs =>
    have h := (timerInterrupt_scheduled hs).sameNumbers
    obtain ⟨p, r, a, heq⟩ := renew_renewed k.tick
    rw [heq] at h
    exact ⟨h.mlfqs, h.aging⟩
  | next hi hs =>
    have h := instr_sameNumbers hs
    exact ⟨h.mlfqs, h.aging⟩
  | call hc hfree hs => exact (call_ticks hs).2

/-! ## The invariant -/

/-- Where the idle thread is in its function; no other thread is in it. -/
def IdleControl (k : Kernel) : Prop :=
  ((k.control firstCreated = [.startIdle, .up idleStarted, .idleLoop] ∧ k.idleThread = none) ∨
    ((k.control firstCreated = [.up idleStarted, .idleLoop] ∨ k.control firstCreated = [.idleLoop]) ∧
      k.idleThread = some firstCreated)) ∧
  ∀ u, u ≠ firstCreated → .startIdle ∉ k.control u

/-- What holds in every state. -/
structure Inv (k : Kernel) : Prop where
  lists : Lists k
  running : k.status k.current = .running
  idleControl : IdleControl k

/-- The running thread goes on, and has something to do before. -/
def Continues (k k' : Kernel) (is : List Instr) : Prop :=
  k'.control = (k.first is).control ∧ k'.idleThread = k.idleThread

theorem Scheduled.continues (h : Scheduled k k') : Continues k k' [] :=
  ⟨h.control.trans (Function.update_eq_self _ _).symm, h.idleThread⟩

theorem Scheduled.continues_first {is : List Instr} (h : Scheduled (k.first is) k') : Continues k k' is :=
  ⟨h.control, h.idleThread⟩

/-- Every statement but the first one of `idle` leaves `idle_thread` as it is, and none is followed by a sleep. -/
theorem instr_continues {freed : ℤ} {i : Instr} (hs : k.instr freed i = some k') (hi : i ≠ .startIdle) :
    ∃ is, Continues k k' is ∧ .startIdle ∉ is ∧ (∀ start n, .sleep start n ∉ is) ∧
      (i = .idleLoop → is = [.idleLoop]) ∧ (∀ s, i = .up s → is = []) := by
  have hscheduled : Scheduled k k' → i ≠ .idleLoop → ∃ is, Continues k k' is ∧ .startIdle ∉ is ∧
      (∀ start n, .sleep start n ∉ is) ∧ (i = .idleLoop → is = [.idleLoop]) ∧ (∀ s, i = .up s → is = []) :=
    fun h hi => ⟨[], h.continues, List.not_mem_nil, fun _ _ => List.not_mem_nil, fun h' => absurd h' hi,
      fun _ _ => rfl⟩
  cases i with
  | acquire l =>
    rw [instr] at hs
    split at hs
    · cases hs
    · cases hs
      exact ⟨_, ⟨rfl, rfl⟩, by simp, by simp, nofun, nofun⟩
  | down s | retest s =>
    rcases semaDown_switched hs with h | h
    · exact hscheduled h.scheduled nofun
    · exact ⟨_, h.scheduled.continues_first, by simp, by simp, nofun, nofun⟩
  | hold l =>
    cases hs
    exact ⟨[], ⟨(Function.update_eq_self _ _).symm, rfl⟩, List.not_mem_nil, fun _ _ => List.not_mem_nil, nofun, nofun⟩
  | release l =>
    rw [instr] at hs
    split at hs
    · cases hs
      exact ⟨_, ⟨rfl, rfl⟩, by simp, by simp, nofun, nofun⟩
    · cases hs
  | up s => exact hscheduled (semaUp_switched hs).scheduled nofun
  | unblock t => exact ⟨_, (threadUnblock_switched hs).scheduled.continues_first, by simp, by simp, nofun, nofun⟩
  | check t =>
    rw [instr] at hs
    split at hs
    · exact hscheduled (threadYield_switched hs).scheduled nofun
    · cases hs
      exact hscheduled (.refl _) nofun
  | sleep start ticks => exact hscheduled (timerSleep_scheduled hs) nofun
  | startIdle => exact absurd rfl hi
  | idleLoop => exact ⟨_, (threadBlock_switched hs).scheduled.continues_first, by simp, by simp, fun _ => rfl, nofun⟩

theorem first_control (k : Kernel) (is : List Instr) (u : ℕ) :
    (k.first is).control u = if u = k.current then is ++ k.control k.current else k.control u :=
  Function.update_apply ..

theorem IdleControl.congr (h : IdleControl k) (hc : k'.control = k.control) (hid : k'.idleThread = k.idleThread) :
    IdleControl k' := by
  unfold IdleControl
  rw [hc, hid]
  exact h

/-- A thread that is not in `idle` goes on. -/
theorem IdleControl.continues (h : IdleControl k) {is : List Instr} (hc : Continues k k' is)
    (hcur : k.current ≠ firstCreated) (his : .startIdle ∉ is) : IdleControl k' := by
  obtain ⟨hc, hid⟩ := hc
  have hother : k'.control firstCreated = k.control firstCreated := by
    rw [hc, first_control, if_neg (Ne.symm hcur)]
  refine ⟨by rw [hother, hid]; exact h.1, fun u hu hm => ?_⟩
  rw [hc, first_control] at hm
  split at hm
  · exact (List.mem_append.mp hm).elim his (h.2 _ hcur)
  · exact h.2 u hu hm

/-- What the running thread has taken up of its statements. -/
theorem IdleControl.next (h : IdleControl k) {freed : ℤ} {i : Instr} {is : List Instr}
    (hi : k.control k.current = i :: is) (hs : (k.setControl k.current is).instr freed i = some k') :
    IdleControl k' := by
  set k₁ := k.setControl k.current is
  have hcur₁ : k₁.control k₁.current = is := Function.update_self ..
  have hne : ∀ u, u ≠ k.current → k₁.control u = k.control u := fun u hu => Function.update_of_ne hu _ _
  by_cases hcur : k.current = firstCreated
  · -- the idle thread: the first statement, `sema_up`, the loop
    have hothers : ∀ {js}, k'.control = (k₁.first js).control →
        k'.control firstCreated = js ++ is ∧ ∀ u, u ≠ firstCreated → .startIdle ∉ k'.control u := by
      intro js hc
      rw [hc]
      refine ⟨?_, fun u hu => ?_⟩
      · rw [first_control, if_pos (show firstCreated = k₁.current from hcur.symm), hcur₁]
      · rw [first_control, if_neg (show u ≠ k₁.current from hcur.symm ▸ hu), hne u (hcur.symm ▸ hu)]
        exact h.2 u hu
    rcases h.1 with ⟨hc, hid⟩ | ⟨hc | hc, hid⟩ <;> rw [← hcur, hi] at hc <;> cases hc
    · cases hs
      obtain ⟨hself, hrest⟩ := hothers (show _ = (k₁.first []).control from (Function.update_eq_self _ _).symm)
      exact ⟨.inr ⟨.inl hself, congrArg some hcur⟩, hrest⟩
    · obtain ⟨js, ⟨hc, hid'⟩, -, -, -, hjs⟩ := instr_continues hs nofun
      obtain ⟨hself, hrest⟩ := hothers hc
      rw [hjs _ rfl] at hself
      exact ⟨.inr ⟨.inr hself, hid'.trans hid⟩, hrest⟩
    · obtain ⟨js, ⟨hc, hid'⟩, -, -, hjs, -⟩ := instr_continues hs nofun
      obtain ⟨hself, hrest⟩ := hothers hc
      rw [hjs rfl] at hself
      exact ⟨.inr ⟨.inr hself, hid'.trans hid⟩, hrest⟩
  · have h₁ : IdleControl k₁ := by
      refine ⟨by rw [hne _ (Ne.symm hcur)]; exact h.1, fun u hu hm => ?_⟩
      by_cases huc : u = k.current
      · have hm : .startIdle ∈ is := hcur₁ ▸ huc ▸ hm
        exact h.2 _ hcur (hi ▸ List.mem_cons_of_mem _ hm)
      · exact h.2 u hu (hne u huc ▸ hm)
    have hstart : i ≠ .startIdle := fun hstart => h.2 _ hcur (hi ▸ hstart ▸ List.mem_cons_self)
    obtain ⟨js, hcont, hjs, -⟩ := instr_continues hs hstart
    exact h₁.continues hcont hcur hjs

/-- A thread with nothing left in its list of statements is not the idle thread. -/
theorem IdleControl.not_idle (h : IdleControl k) (hc : k.control k.current = []) :
    k.current ≠ firstCreated ∧ k.idleThread ≠ some k.current := by
  have hne : k.current ≠ firstCreated := fun hne => by
    rw [hne] at hc
    rcases h.1 with ⟨h', -⟩ | ⟨h' | h', -⟩ <;> rw [hc] at h' <;> cases h'
  refine ⟨hne, fun hid => ?_⟩
  rcases h.1 with ⟨-, h'⟩ | ⟨-, h'⟩
  · rw [hid] at h'
    cases h'
  · exact hne (Option.some.inj (hid.symm.trans h'))

/-- The idle thread is at its `sema_up` or in its loop. -/
theorem IdleControl.idle (h : IdleControl k) {i : Instr} {is : List Instr} (hi : k.control k.current = i :: is)
    (hid : k.idleThread = some k.current) : i = .up idleStarted ∨ i = .idleLoop := by
  rcases h.1 with ⟨-, h'⟩ | ⟨h', hid'⟩
  · rw [hid] at h'
    cases h'
  · rw [hid'] at hid
    rw [Option.some.inj hid, hi] at h'
    exact h'.imp (fun h' => (List.cons.inj h').1) fun h' => (List.cons.inj h').1

/-- Nothing but the statements of the running thread changes, and it has no thread to create among them. -/
theorem Lists.first (h : Lists k) (hrun : k.status k.current = .running) {is : List Instr}
    (his : is.filterMap Instr.created = []) : Lists (k.first is) :=
  h.congr (queue_first his) rfl rfl rfl rfl fun u hu => by
    have hne : u ≠ k.current := ne_of_apply_ne k.status (by simp [hu, hrun])
    exact Function.update_of_ne hne _ _

/-- The running thread takes up a statement. -/
theorem Lists.takeUp (h : Lists k) (hrun : k.status k.current = .running) {i : Instr} {is : List Instr}
    (hi : k.control k.current = i :: is) (hcreated : i.created = none) : Lists (k.setControl k.current is) := by
  refine h.congr (queue_setControl_same ?_) rfl rfl rfl rfl fun u hu => ?_
  · rw [hi, List.filterMap_cons_none hcreated]
  · have hne : u ≠ k.current := ne_of_apply_ne k.status (by simp [hu, hrun])
    exact Function.update_of_ne hne _ _

/-- `thread_create` takes up `thread_unblock (t)`. -/
theorem Lists.takeUp_unblock (h : Lists k) (hrun : k.status k.current = .running) {is : List Instr}
    (hi : k.control k.current = .unblock t :: is)
    (hs : ((k.setControl k.current is).first [.check t]).threadUnblock t = some k') : Lists k' := by
  have hperm : (k.queue (.creating k.current)).Perm (t :: is.filterMap Instr.created) := by
    rw [queue, hi]
    exact .refl _
  have ht := hperm.mem_iff.mpr List.mem_cons_self
  have hst : k.status t = .blocked := h.status _ t ht
  obtain ⟨hpop, hno⟩ : Lists (k.setControl k.current is) ∧ ∀ q, t ∉ (k.setControl k.current is).queue q :=
    h.pop (q := .creating k.current) hperm (queue_setControl k _ is) (Function.update_eq_self_iff.mpr hst.symm).symm
      (.inl rfl) rfl h.running rfl fun u hu => by
      have hne : u ≠ k.current := ne_of_apply_ne k.status (by simp [hu, hrun])
      exact Function.update_of_ne hne _ _
  have hqueue : ((k.setControl k.current is).first [.check t]).queue = (k.setControl k.current is).queue :=
    queue_first rfl
  exact (hpop.first hrun rfl).threadUnblock (fun q => hqueue ▸ hno q) (fun hid => (h.idle t hid).2 _ ht) hs

/-- The idle thread sets `idle_thread`. -/
theorem Lists.startIdle (h : Lists k) (hrun : k.status k.current = .running) (hid : k.idleThread = none) :
    Lists { k with idleThread := some k.current } := by
  refine ⟨h.disjoint, h.status, fun t ht hne => h.ready t ht (by rw [hid]; nofun), fun i hi => ?_, h.running, h.alive,
    h.dead, h.allNodup⟩
  cases hi
  exact ⟨by show k.status k.current ≠ .dying; rw [hrun]; nofun, h.not_mem_of_status (.inl hrun)⟩

/-- What a statement does to the lists. -/
theorem Inv.next (h : Inv k) {freed : ℤ} {i : Instr} {is : List Instr} (hi : k.control k.current = i :: is)
    (hs : (k.setControl k.current is).instr freed i = some k') : Lists k' ∧ k'.status k'.current = .running := by
  have hrun : (k.setControl k.current is).status (k.setControl k.current is).current = .running := h.running
  have hnot : i ≠ .up idleStarted → i ≠ .idleLoop → (k.setControl k.current is).idleThread ≠ some k.current :=
    fun hup hloop hid => (h.idleControl.idle hi hid).elim hup hloop
  by_cases hunblock : i.created = none
  · have h₁ := h.lists.takeUp h.running hi hunblock
    cases i with
    | acquire l =>
      rw [instr] at hs
      split at hs
      · cases hs
      · cases hs
        exact ⟨h₁.first hrun rfl, hrun⟩
    | down s | retest s => exact h₁.semaDown hrun (hnot nofun nofun) hs
    | hold l =>
      cases hs
      exact ⟨h₁.congr rfl rfl rfl rfl rfl fun _ _ => rfl, hrun⟩
    | release l =>
      rw [instr] at hs
      split at hs
      · cases hs
        have h₂ : Lists { k.setControl k.current is with holder := Function.update k.holder l none } :=
          h₁.congr rfl rfl rfl rfl rfl fun _ _ => rfl
        exact ⟨h₂.first hrun rfl, hrun⟩
      · cases hs
    | up s => exact h₁.semaUp hrun hs
    | unblock t => cases hunblock
    | check t =>
      rw [instr] at hs
      split at hs
      · exact h₁.threadYield hrun hs
      · cases hs
        exact ⟨h₁, hrun⟩
    | sleep start ticks => exact h₁.timerSleep hrun (hnot nofun nofun) hs
    | startIdle =>
      cases hs
      have hcur : k.current = firstCreated := by
        by_contra hne
        exact h.idleControl.2 _ hne (hi ▸ List.mem_cons_self)
      refine ⟨h₁.startIdle hrun ?_, hrun⟩
      rcases h.idleControl.1 with ⟨-, hid⟩ | ⟨hc | hc, -⟩
      · exact hid
      · rw [← hcur, hi] at hc
        cases hc
      · rw [← hcur, hi] at hc
        cases hc
    | idleLoop => exact (h₁.first hrun rfl).threadBlock hrun hs
  · cases i with
    | unblock t => exact ⟨h.lists.takeUp_unblock h.running hi hs, threadUnblock_running hs hrun⟩
    | _ => exact absurd rfl hunblock

/-- A thread calls `thread_unblock` itself only for a thread in no list, which is not the idle thread. -/
def Proper (k : Kernel) : Act → Prop
  | .call (.unblock t) => (∀ q, t ∉ k.queue q) ∧ k.idleThread ≠ some t
  | _ => True

/-- What a call does to the lists. -/
theorem Inv.call (h : Inv k) {c : Call} (hproper : k.Proper (.call c)) (hc : k.control k.current = [])
    (hfree : ∀ t p, c = .create t p → t ∉ k.allList ∧ t ≠ initialThread) (hs : k.call c = some k') :
    Lists k' ∧ k'.status k'.current = .running := by
  have hid := (h.idleControl.not_idle hc).2
  have hsame : ∀ {k' : Kernel}, k'.queue = k.queue → k'.status = k.status → k'.idleThread = k.idleThread →
      k'.current = k.current → k'.allList = k.allList → k'.control = k.control →
      Lists k' ∧ k'.status k'.current = .running := fun hq hst hid hcur hall hc =>
    ⟨h.lists.congr hq hst hid hcur hall fun u _ => congrFun hc u, by rw [hst, hcur]; exact h.running⟩
  cases c with
  | yield => exact h.lists.threadYield h.running hs
  | block => exact h.lists.threadBlock h.running hs
  | unblock t => exact ⟨h.lists.threadUnblock hproper.1 hproper.2 hs, threadUnblock_running hs h.running⟩
  | exit => exact h.lists.threadExit h.running hid hc hs
  | create t p => exact h.lists.threadCreate h.running (hfree t p rfl).1 hs
  | acquire l | release l | down s | up s | sleep n =>
    cases hs
    exact ⟨h.lists.first h.running rfl, h.running⟩
  | tryDown s =>
    cases hs
    refine hsame ?_ rfl rfl rfl rfl rfl
    rw [queue_setSema, Semaphore.tryDown_waiters]
    exact Function.update_eq_self _ _
  | signal l w =>
    rw [Kernel.call] at hs
    split at hs
    · cases hs
      refine ⟨h.lists.first h.running ?_, h.running⟩
      cases w <;> rfl
    · cases hs
  | setPriority p =>
    obtain ⟨h₁, hrun₁⟩ : Lists (k.setPriority k.current p) ∧ k.status k.current = .running :=
      hsame rfl rfl rfl rfl rfl rfl
    rw [Kernel.call, threadSetPriority] at hs
    split at hs
    · cases hs
      exact ⟨h.lists, h.running⟩
    · split at hs
      · exact h₁.threadYield hrun₁ hs
      · cases hs
        exact ⟨h₁, hrun₁⟩
  | setNice n =>
    cases hs
    exact hsame rfl rfl rfl rfl rfl rfl
  | getLoadAvg | getRecentCpu =>
    cases hs
    exact ⟨h.lists, h.running⟩

/-- A call leaves `idle_thread` as it is, and the statements of the threads except the running one and the one that
it creates; `timer_sleep` is followed by a sleep, and no other call is. -/
theorem call_continues {c : Call} (hs : k.call c = some k') (hcreate : ∀ t p, c ≠ .create t p) :
    ∃ is, Continues k k' is ∧ .startIdle ∉ is ∧ ∀ start n, .sleep start n ∈ is → start = k.ticks ∧ c = .sleep n := by
  have hnil : ∀ start n, .sleep start n ∈ ([] : List Instr) → start = k.ticks ∧ c = .sleep n :=
    fun _ _ => (absurd · List.not_mem_nil)
  have hscheduled : Scheduled k k' →
      ∃ is, Continues k k' is ∧ .startIdle ∉ is ∧ ∀ start n, .sleep start n ∈ is → start = k.ticks ∧ c = .sleep n :=
    fun h => ⟨[], h.continues, List.not_mem_nil, hnil⟩
  have hfirst : ∀ {is}, .startIdle ∉ is → (∀ start n, .sleep start n ∈ is → start = k.ticks ∧ c = .sleep n) →
      some (k.first is) = some k' →
      ∃ is, Continues k k' is ∧ .startIdle ∉ is ∧ ∀ start n, .sleep start n ∈ is → start = k.ticks ∧ c = .sleep n :=
    fun his hsleep hs => by
      cases hs
      exact ⟨_, ⟨rfl, rfl⟩, his, hsleep⟩
  cases c with
  | yield => exact hscheduled (threadYield_switched hs).scheduled
  | block => exact hscheduled (threadBlock_switched hs).scheduled
  | unblock t => exact hscheduled (threadUnblock_switched hs).scheduled
  | exit =>
    have h : Scheduled { k with allList := k.allList.erase k.current } k' := by
      have hdying : Scheduled { k with allList := k.allList.erase k.current }
        ({ k with allList := k.allList.erase k.current }.setStatus k.current .dying) :=
        ⟨_, _, _, _, _, _, _, _, _, _, rfl⟩
      exact hdying.trans (schedule_switched hs).scheduled
    exact ⟨[], ⟨h.continues.1, h.idleThread⟩, List.not_mem_nil, hnil⟩
  | create t p => exact absurd rfl (hcreate t p)
  | acquire l | release l | down s | up s | sleep n => exact hfirst (by simp) (by simp) hs
  | tryDown s =>
    cases hs
    exact hscheduled ⟨_, _, _, _, _, _, _, _, _, _, rfl⟩
  | signal l w =>
    rw [Kernel.call] at hs
    split at hs
    · exact hfirst (by cases w <;> simp) (by cases w <;> simp) hs
    · cases hs
  | setPriority p =>
    rcases threadSetPriority_switched hs with ⟨rfl, -⟩ | h
    · exact hscheduled (.refl _)
    · exact ⟨[], ⟨h.scheduled.continues.1, h.scheduled.idleThread⟩, List.not_mem_nil, hnil⟩
  | setNice n =>
    cases hs
    exact ⟨[], ⟨(Function.update_eq_self _ _).symm, rfl⟩, List.not_mem_nil, hnil⟩
  | getLoadAvg | getRecentCpu =>
    cases hs
    exact hscheduled (.refl _)

theorem IdleControl.call (h : IdleControl k) (hlists : Lists k) {c : Call} (hc : k.control k.current = [])
    (hfree : ∀ t p, c = .create t p → t ∉ k.allList ∧ t ≠ initialThread) (hs : k.call c = some k') :
    IdleControl k' := by
  have hcur := (h.not_idle hc).1
  by_cases hcreate : ∃ t p, c = .create t p
  · obtain ⟨t, p, rfl⟩ := hcreate
    obtain ⟨k₁, hinit, rfl⟩ := Option.map_eq_some_iff.mp hs
    have ht : t ≠ firstCreated := fun ht => by
      have hdead := hlists.dead t ((hlists.alive t).mpr (hfree t p rfl).1)
      rw [ht] at hdead
      rcases h.1 with ⟨h', -⟩ | ⟨h' | h', -⟩ <;> rw [hdead] at h' <;> cases h'
    obtain ⟨-, heq⟩ := initThread_eq_some hinit
    have hcontrol : k₁.control = Function.update k.control t [] := by rw [heq]
    have hid : k₁.idleThread = k.idleThread := by rw [heq]
    have hcur₁ : k₁.current = k.current := by rw [heq]
    have h₁ : IdleControl k₁ := by
      refine ⟨by rw [hcontrol, hid, Function.update_of_ne (Ne.symm ht)]; exact h.1, fun u hu hm => ?_⟩
      rw [hcontrol, Function.update_apply] at hm
      split at hm
      · cases hm
      · exact h.2 u hu hm
    exact h₁.continues ⟨rfl, rfl⟩ (hcur₁ ▸ hcur) (by simp)
  · obtain ⟨is, hcont, his, -⟩ := call_continues hs fun t p hc => hcreate ⟨t, p, hc⟩
    exact h.continues hcont hcur his

/-- **A step keeps the invariant.** -/
theorem Inv.step {a : Act} (h : Inv k) (hproper : k.Proper a) (hs : Step k a k') : Inv k' := by
  cases hs with
  | interrupt hon hs =>
    obtain ⟨hl, hr⟩ := h.lists.timerInterrupt h.running hs
    have hcontrol := timerInterrupt_control hs
    exact ⟨hl, hr, h.idleControl.congr hcontrol.1 hcontrol.2⟩
  | next hi hs =>
    obtain ⟨hl, hr⟩ := h.next hi hs
    exact ⟨hl, hr, h.idleControl.next hi hs⟩
  | call hc hfree hs =>
    obtain ⟨hl, hr⟩ := h.call hproper hc hfree hs
    exact ⟨hl, hr, h.idleControl.call h.lists hc hfree hs⟩

theorem mem_boot_queue {mlfqs aging : Bool} {value : ℕ → ℕ} :
    t ∈ (boot mlfqs aging value).queue q ↔ q = .ready ∧ t = firstCreated := by
  cases q with
  | ready => simp [queue, boot]
  | sleeping | waiters s => simp [queue, boot]
  | creating u =>
    have hnil : (boot mlfqs aging value).queue (.creating u) = [] := by
      simp only [queue, boot]
      split
      · rfl
      · split <;> rfl
    simp [hnil]

theorem boot_lists (mlfqs aging : Bool) (value : ℕ → ℕ) : Lists (boot mlfqs aging value) where
  disjoint := by
    refine ⟨fun q => ?_, fun q q' t h h' => (mem_boot_queue.mp h).1.trans (mem_boot_queue.mp h').1.symm⟩
    by_cases hq : q = .ready
    · rw [hq]
      exact List.nodup_singleton _
    · rw [List.eq_nil_iff_forall_not_mem.mpr fun t ht => hq (mem_boot_queue.mp ht).1]
      exact List.nodup_nil
  status := fun q t ht => by
    obtain ⟨rfl, rfl⟩ := mem_boot_queue.mp ht
    rfl
  ready := fun t ht _ => by
    simp only [boot] at ht ⊢
    split at ht
    · cases ht
    · split at ht
      · rename_i h
        exact List.mem_singleton.mpr h
      · cases ht
  idle := nofun
  running := fun t ht => by
    simp only [boot] at ht ⊢
    split at ht
    · assumption
    · split at ht <;> cases ht
  alive := fun t => by
    simp only [boot, List.mem_cons, List.not_mem_nil, or_false]
    split
    · simp [*]
    · split <;> simp [*]
  dead := fun t ht => by
    simp only [boot] at ht ⊢
    split at ht
    · cases ht
    · split at ht
      · cases ht
      · rw [if_neg ‹_›, if_neg ‹_›]
  allNodup := by
    show [initialThread, firstCreated].Nodup
    decide

theorem boot_inv (mlfqs aging : Bool) (value : ℕ → ℕ) : Inv (boot mlfqs aging value) := by
  refine ⟨boot_lists mlfqs aging value, rfl, .inl ⟨rfl, rfl⟩, fun u hu hm => ?_⟩
  simp only [boot, if_neg hu] at hm
  split at hm <;> simp at hm

/-! ## Runs -/

/-- The status of a thread goes with its list: a ready thread but for the idle thread stands in `ready_list` once,
a running or dying thread and the idle thread in no list, a blocked thread in one list at most and there once,
and `ready_list` has ready threads only. -/
structure StatusMatches (k : Kernel) : Prop where
  ready : ∀ t, k.status t = .ready → k.idleThread ≠ some t → k.readyList.count t = 1
  others : ∀ t, k.status t = .running ∨ k.status t = .dying ∨ k.idleThread = some t →
    t ∉ k.readyList ∧ t ∉ k.blockList ∧ ∀ s, t ∉ (k.sema s).waiters
  sleeping : ∀ t ∈ k.blockList, k.blockList.count t = 1 ∧ ∀ s, t ∉ (k.sema s).waiters
  waiting : ∀ s, ∀ t ∈ (k.sema s).waiters,
    (k.sema s).waiters.count t = 1 ∧ t ∉ k.blockList ∧ ∀ s', t ∈ (k.sema s').waiters → s' = s
  readyList : ∀ t ∈ k.readyList, k.status t = .ready

theorem Lists.statusMatches (h : Lists k) : k.StatusMatches := by
  have hcount : ∀ q, ∀ t ∈ k.queue q, (k.queue q).count t = 1 := fun q t ht =>
    List.count_eq_one_of_mem (h.disjoint.nodup q) ht
  refine ⟨fun t ht hid => hcount .ready t (h.ready t ht hid), fun t ht => ?_, fun t ht => ⟨hcount .sleeping t ht, ?_⟩,
    fun s t ht => ⟨hcount (.waiters s) t ht, ?_, ?_⟩, fun t ht => h.status .ready t ht⟩
  · have hno : ∀ q, t ∉ k.queue q := by
      rcases ht with ht | ht | ht
      · exact h.not_mem_of_status (.inl ht)
      · exact h.not_mem_of_status (.inr ht)
      · exact (h.idle t ht).2
    exact ⟨hno .ready, hno .sleeping, fun s => hno (.waiters s)⟩
  · exact fun s hs => nomatch h.disjoint.disjoint .sleeping (.waiters s) t ht hs
  · exact fun hs => nomatch h.disjoint.disjoint (.waiters s) .sleeping t ht hs
  · intro s' hs'
    cases h.disjoint.disjoint (.waiters s') (.waiters s) t hs' ht
    rfl

/-- A step of threads that call `thread_unblock` so. -/
def ProperStep (k : Kernel) (a : Act) (k' : Kernel) : Prop := Step k a k' ∧ k.Proper a

theorem run_inv {mlfqs aging : Bool} {value : ℕ → ℕ} {as : List Act}
    (hrun : Trace ProperStep (boot mlfqs aging value) as k) : Inv k :=
  hrun.invariant (fun _ _ _ h hs => h.step hs.2 hs.1) (boot_inv mlfqs aging value)

/-- The lists that are linked in memory. -/
def linkedLists : Set Queue := { q | ∀ u, q ≠ .creating u }

/-- **The status of every thread goes with its list.**  And when `sema_up` has sorted the waiters of a semaphore and
has popped the first one, in links of any kind that hold the lists, the `list_remove` of it changes no link. -/
theorem status_matches {mlfqs aging : Bool} {value : ℕ → ℕ} {as : List Act}
    (hrun : Trace ProperStep (boot mlfqs aging value) as k) :
    k.StatusMatches ∧
    ∀ s t ts, (k.sema s).queue .threads k.priority = t :: ts →
      ∀ m : Lib.Links Queue ℕ, m.Holds linkedLists (Function.update k.queue (.waiters s) (t :: ts)) →
        ∃ m', m.listPopFront (.waiters s) = some (.item t, m') ∧
          m'.Holds linkedLists (Function.update k.queue (.waiters s) ts) ∧
          ∃ n, m'.listRemove (.item t) = some (n, m') := by
  have h := (run_inv hrun).lists
  refine ⟨h.statusMatches, fun s t ts hq m hm => ?_⟩
  have hperm : (t :: ts).Perm (k.queue (.waiters s)) := hq ▸ (k.sema s).perm_queue .threads k.priority
  obtain ⟨m', hpop, hholds, hagain⟩ := hm.listPopFront (h.disjoint.perm hperm) (q := .waiters s) (fun _ => nofun)
    (Function.update_self ..)
  rw [Function.update_idem] at hholds
  exact ⟨m', hpop, hholds, hagain⟩

/-- After the start. -/
theorem status_matches_started :
    ∃ k : Kernel, k.StatusMatches ∧ k.current = initialThread ∧ k.control k.current = [] := by
  have hrun : (run startUp (boot false false fun _ => 0)).map (fun k => (k.current, k.control k.current)) =
      some (initialThread, []) := by
    decide +kernel
  obtain ⟨k, hrun, hk⟩ := Option.map_eq_some_iff.mp hrun
  exact ⟨k, (status_matches (run_trace (P := Proper) (by simp [startUp, Proper]) hrun)).1, congrArg Prod.fst hk,
    congrArg Prod.snd hk⟩

/-- A thread that sleeps, and one that calls `thread_unblock` for it. -/
theorem unblocked_sleeper_runs :
    ¬∀ mlfqs aging value as k, Trace Step (boot mlfqs aging value) as k → k.StatusMatches := by
  intro hall
  have hrun : (run (startUp ++ calls (.create 2 40) 7 ++ calls (.sleep 5) 1 ++ calls (.unblock 2) 0 ++ calls .yield 0)
      (boot false false fun _ => 0)).map (fun k => (k.status 2, k.blockList)) = some (.running, [2]) := by
    decide +kernel
  obtain ⟨k, hrun, hk⟩ := Option.map_eq_some_iff.mp hrun
  have hmatch := hall _ _ _ _ k ((run_trace (P := fun _ _ => True) (fun _ _ _ => trivial) hrun).mono
    fun _ _ _ h => h.1)
  obtain ⟨hst, hl⟩ := Prod.mk.inj hk
  exact (hmatch.others 2 (.inl hst)).2.1 (hl ▸ List.mem_singleton_self 2)

end Pintos.Threads.Kernel
