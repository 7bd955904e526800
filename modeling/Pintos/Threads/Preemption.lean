import Pintos.Threads.Order

/-!
# Preemption

Without aging and the feedback scheduler, `thread_create`, `sema_up` and `thread_set_priority` call `thread_yield`
when they may have made a better thread ready than the running one.  `wake_thread` does not: the interrupted
thread goes on up to the end of its time slice (`Kernel.Calm`).
-/

namespace Pintos.Threads.Kernel

variable {k k' : Kernel} {t u : ℕ}

/-- No ready thread has a priority above the one of the running thread. -/
def Top (k : Kernel) : Prop := ∀ u, k.status u = .ready → k.priority u ≤ k.priority k.current

/-- The running thread is in `thread_create`, where it will compare its priority with the one of `t`. -/
def Checking (k : Kernel) (t : ℕ) : Prop := (k.control k.current).head? = some (.check t)

/-- No priority is below that of the idle thread. -/
def Floor (k : Kernel) : Prop := (∀ t, priMin ≤ k.priority t) ∧ k.priority firstCreated = priMin

/-- A step after which the running thread is the right one.  At a tick in its time slice no sleeper above it is
due, and it has not just made a thread above it ready in `thread_create`; it calls `thread_unblock` itself for no
thread above it; and it does not take a priority below the range, nor one below a ready thread by
`thread_set_nice`. -/
def Calm (k : Kernel) : Act → Prop
  | .interrupt => k.threadTicks + 1 < timeSlice →
      (∀ t ∈ k.blockList, k.wakeT t ≤ k.tick.ticks → k.priority t ≤ k.priority k.current) ∧
      ∀ t, k.Checking t → k.status t = .ready → k.priority t ≤ k.priority k.current
  | .call (.unblock t) => k.priority t ≤ k.priority k.current
  | .call (.setPriority p) => priMin ≤ p
  | .call (.setNice n) =>
      ∀ u, k.status u = .ready → k.priority u ≤ (feedbackPriority (k.recentCpu k.current) n).value
  | _ => True

/-! ## The priorities -/

theorem feedbackPriority_range (r n : ℤ) :
    priMin ≤ (feedbackPriority r n).value ∧ (feedbackPriority r n).value ≤ priMax := by
  have hclamp : ∀ p, priMin ≤ clampPriority p ∧ clampPriority p ≤ priMax := fun p => by
    unfold clampPriority priMin priMax
    split
    · decide
    · split <;> omega
  exact hclamp _

/-- The page of the first thread that has been created is never free. -/
theorem Inv.firstCreated_mem (h : Inv k) : firstCreated ∈ k.allList := by
  refine h.lists.mem_allList fun hst => ?_
  have hdead := h.lists.dead firstCreated hst
  rcases h.idleControl.1 with ⟨hc, -⟩ | ⟨hc | hc, -⟩ <;> rw [hdead] at hc <;> cases hc

/-- In this mode a tick changes no priority. -/
theorem renew_plain (hmodes : k.mlfqs = false ∧ k.aging = false) : k.renew.value = k := by
  simp [renew, hmodes.1, hmodes.2]

theorem Floor.step (h : Floor k) (hinv : Inv k) (hmodes : k.mlfqs = false ∧ k.aging = false) {a : Act}
    (hcalm : k.Calm a) (hs : Step k a k') : Floor k' := by
  have hsame : k'.priority = k.priority → Floor k' := fun hp => by
    unfold Floor
    rw [hp]
    exact h
  have hupdate : ∀ {t p}, k'.priority = Function.update k.priority t p → t ≠ firstCreated → priMin ≤ p → Floor k' := by
    intro t p hp ht hle
    refine ⟨fun u => ?_, ?_⟩
    · rw [hp, Function.update_apply]
      split
      · exact hle
      · exact h.1 u
    · rw [hp, Function.update_of_ne (Ne.symm ht)]
      exact h.2
  cases hs with
  | interrupt hon hs =>
    have hs := (timerInterrupt_scheduled hs).sameNumbers.priority
    rw [renew_plain (k := k.tick) hmodes] at hs
    exact hsame hs
  | next hi hs => exact hsame (instr_sameNumbers hs).priority
  | @call _ c hc hfree hs =>
    have hcur := (hinv.idleControl.not_idle hc).1
    cases c with
    | create t p =>
      obtain ⟨k₁, hinit, rfl⟩ := Option.map_eq_some_iff.mp hs
      obtain ⟨hrange, rfl⟩ := initThread_eq_some hinit
      exact hupdate rfl (fun ht => (hfree t p rfl).1 (ht ▸ hinv.firstCreated_mem)) hrange.1
    | setPriority p =>
      rcases threadSetPriority_switched hs with ⟨rfl, -⟩ | hs
      · exact h
      · exact hupdate hs.scheduled.sameNumbers.priority hcur hcalm
    | setNice n =>
      cases hs
      exact hupdate rfl hcur (feedbackPriority_range _ n).1
    | exit => exact hsame (threadExit_sameNumbers hs).priority
    | _ => exact hsame (call_sameNumbers hs nofun nofun nofun nofun).priority

/-- The idle thread has the lowest priority. -/
theorem Best.top (h : Best k) (hfloor : Floor k) (hinv : Inv k) : Top k := by
  intro u hu
  by_cases hid : k.idleThread = some u
  · have hu : u = firstCreated := by
      rcases hinv.idleControl.1 with ⟨-, hid'⟩ | ⟨-, hid'⟩ <;> rw [hid] at hid' <;> cases hid'
      rfl
    rw [hu, hfloor.2]
    exact hfloor.1 _
  · exact h u hu hid

/-! ## The running thread -/

/-- What holds in every state: no ready thread is above the running one, except for the one that this one has just
created. -/
structure Preempts (k : Kernel) : Prop where
  inv : Inv k
  sorted : Sorted k
  modes : k.mlfqs = false ∧ k.aging = false
  floor : Floor k
  top : ∀ u, k.status u = .ready → k.priority u ≤ k.priority k.current ∨ k.Checking u

/-- The threads that the loop of `wake_thread` makes ready are due. -/
theorem wakeLoop_ready {ts : List ℕ} (hs : wakeLoop ts k = some k') : k'.current = k.current ∧
    ∀ u, k'.status u = .ready → k.status u = .ready ∨ u ∈ ts ∧ k.wakeT u ≤ k.ticks := by
  induction ts generalizing k with
  | nil =>
    cases hs
    exact ⟨rfl, fun _ => .inl⟩
  | cons t ts ih =>
    rw [wakeLoop] at hs
    split at hs
    · rename_i hdue
      obtain ⟨k₁, hunblock, hs⟩ := Option.bind_eq_some_iff.mp hs
      obtain ⟨-, rfl⟩ := threadUnblock_eq_some.mp hunblock
      obtain ⟨hcur, hready⟩ := ih hs
      refine ⟨hcur, fun u hu => ?_⟩
      by_cases hut : u = t
      · exact .inr ⟨hut ▸ List.mem_cons_self, hut ▸ hdue⟩
      · exact (hready u hu).imp (fun hst => (Function.update_of_ne hut _ _).symm.trans hst)
          fun h => ⟨List.mem_cons_of_mem _ h.1, h.2⟩
    · obtain ⟨hcur, hready⟩ := ih hs
      exact ⟨hcur, fun u hu => (hready u hu).imp id fun h => ⟨List.mem_cons_of_mem _ h.1, h.2⟩⟩

theorem wakeDue_ready (hs : k.wakeDue = some k') : k'.current = k.current ∧
    ∀ u, k'.status u = .ready → k.status u = .ready ∨ u ∈ k.blockList ∧ k.wakeT u ≤ k.ticks := by
  unfold wakeDue at hs
  split at hs
  · exact wakeLoop_ready (k := { k with timerSmallestTick := int64Max }) hs
  · cases hs
    exact ⟨rfl, fun _ => .inl⟩

/-- **After the timer interrupt the running thread is the right one.** -/
theorem Preempts.interrupt (h : Preempts k) (hcalm : k.Calm .interrupt) (hs : k.timerInterrupt = some k')
    (hinv' : Inv k') (hfloor' : Floor k') : Top k' := by
  obtain ⟨k₁, hhandler, hs⟩ := Option.bind_eq_some_iff.mp hs
  unfold timerHandler at hhandler
  rw [renew_plain (k := k.tick) h.modes] at hhandler
  split at hs
  · have hsorted := (Sorted.wakeDue (k := k.tick) h.sorted hhandler).1
    exact (hsorted.threadYield hs hinv'.lists).2.top hfloor' hinv'
  · cases hs
    obtain ⟨hcur, hready⟩ := wakeDue_ready hhandler
    obtain ⟨hdue, hcheck⟩ := hcalm (not_le.mp ‹_›)
    have hp : k'.priority = k.priority := (wakeDue_scheduled hhandler).sameNumbers.priority
    intro u hu
    rw [hp, hcur]
    rcases hready u hu with hu | ⟨hmem, hwake⟩
    · exact (h.top u hu).elim id fun hc => hcheck u hc hu
    · exact hdue u hmem hwake

/-- Between the calls of functions that schedule, the running thread stays the right one. -/
theorem Top.same (h : Top k) (hst : k'.status = k.status) (hp : k'.priority = k.priority)
    (hcur : k'.current = k.current) : Top k' := by
  unfold Top
  rw [hst, hp, hcur]
  exact h

/-- A thread is made ready. -/
theorem Top.threadUnblock (h : Top k) (hs : k.threadUnblock t = some k') (hu : k'.status u = .ready) :
    u = t ∨ k'.priority u ≤ k'.priority k'.current := by
  obtain ⟨-, rfl⟩ := threadUnblock_eq_some.mp hs
  by_cases hut : u = t
  · exact .inl hut
  · exact .inr (h u ((Function.update_of_ne hut _ _).symm.trans hu))

/-- **A statement of the running thread.** -/
theorem Preempts.next (h : Preempts k) {freed : ℤ} {i : Instr} {is : List Instr} (hi : k.control k.current = i :: is)
    (hs : (k.setControl k.current is).instr freed i = some k') (hinv' : Inv k') (hfloor' : Floor k') :
    ∀ u, k'.status u = .ready → k'.priority u ≤ k'.priority k'.current ∨ k'.Checking u := by
  set k₁ := k.setControl k.current is
  have hsorted₁ : Sorted k₁ := h.sorted
  have hbest : Sorted k' ∧ Best k' → ∀ u, k'.status u = .ready →
      k'.priority u ≤ k'.priority k'.current ∨ k'.Checking u :=
    fun hb u hu => .inl (hb.2.top hfloor' hinv' u hu)
  have htop : (∀ t, i ≠ .check t) → Top k₁ := fun hcheck u hu =>
    (h.top u hu).elim id fun hc => by
      rw [Checking, hi] at hc
      exact absurd (Option.some.inj hc) (hcheck u)
  have hsame : (∀ t, i ≠ .check t) → k'.status = k₁.status → k'.current = k₁.current → ∀ u, k'.status u = .ready →
      k'.priority u ≤ k'.priority k'.current ∨ k'.Checking u := fun hcheck hst hcur u hu =>
    .inl ((htop hcheck).same hst (instr_sameNumbers hs).priority hcur u hu)
  cases i with
  | acquire l =>
    rw [instr] at hs
    split at hs
    · cases hs
    · cases hs
      exact hsame (by simp) rfl rfl
  | down s | retest s =>
    rw [instr, Kernel.semaDown] at hs
    split at hs
    · cases hs
      exact hsame (by simp) rfl rfl
    · rename_i m _
      exact hbest (Sorted.threadBlock (k := (k₁.setSema s m).first [.retest s]) hsorted₁ hs hinv'.lists)
  | hold l | startIdle =>
    cases hs
    exact hsame (by simp) rfl rfl
  | release l =>
    rw [instr] at hs
    split at hs
    · cases hs
      exact hsame (by simp) rfl rfl
    · cases hs
  | up s => exact hbest (hsorted₁.semaUp hs hinv'.lists)
  | unblock t =>
    intro u hu
    have htop₁ : Top (k₁.first [.check t]) := htop (by simp)
    refine (htop₁.threadUnblock hs hu).elim (fun hut => .inr ?_) .inl
    obtain ⟨-, rfl⟩ := threadUnblock_eq_some.mp hs
    rw [hut]
    show ((k₁.first [.check t]).control k₁.current).head? = some (.check t)
    rw [first_control, if_pos rfl]
    rfl
  | check t =>
    rw [instr] at hs
    split at hs
    · exact hbest (hsorted₁.threadYield hs hinv'.lists)
    · rename_i hle
      obtain rfl := Option.some.inj hs
      intro u hu
      refine .inl ((h.top u hu).elim id fun hc => ?_)
      rw [Checking, hi] at hc
      cases Option.some.inj hc
      have halive : t ∈ k₁.allList := h.inv.lists.mem_allList (by rw [show k.status t = .ready from hu]; simp)
      rw [readPriority, if_pos halive] at hle
      exact not_lt.mp hle
  | sleep start ticks =>
    rw [instr, Kernel.timerSleep] at hs
    split at hs
    · obtain rfl := Option.some.inj hs
      exact hsame (by simp) rfl rfl
    · exact hbest (Sorted.threadBlock (k := k₁.fallAsleep (wrap64 (ticks + start))) hsorted₁ hs hinv'.lists)
  | idleLoop => exact hbest (Sorted.threadBlock (k := k₁.first [.idleLoop]) hsorted₁ hs hinv'.lists)

/-- **A call.** -/
theorem Preempts.call (h : Preempts k) {c : Call} (hcalm : k.Calm (.call c)) (hc : k.control k.current = [])
    (hfree : ∀ t p, c = .create t p → t ∉ k.allList ∧ t ≠ initialThread) (hs : k.call c = some k') (hinv' : Inv k')
    (hfloor' : Floor k') : Top k' := by
  have htop : Top k := fun u hu => (h.top u hu).elim id fun hcheck => by
    rw [Checking, hc] at hcheck
    cases hcheck
  have hbest : Sorted k' ∧ Best k' → Top k' := fun hb => hb.2.top hfloor' hinv'
  have hrun := h.inv.running
  cases c with
  | yield => exact hbest (h.sorted.threadYield hs hinv'.lists)
  | block => exact hbest (h.sorted.threadBlock hs hinv'.lists)
  | unblock t =>
    intro u hu
    refine (htop.threadUnblock hs hu).elim (fun hut => ?_) id
    obtain ⟨-, rfl⟩ := threadUnblock_eq_some.mp hs
    exact hut ▸ hcalm
  | exit =>
    have h₁ : Sorted ({ k with allList := k.allList.erase k.current }.setStatus k.current .dying) := h.sorted
    exact hbest (h₁.schedule hs hinv'.lists)
  | create t p =>
    obtain ⟨k₁, hinit, rfl⟩ := Option.map_eq_some_iff.mp hs
    obtain ⟨-, rfl⟩ := initThread_eq_some hinit
    have hcur : k.current ≠ t := fun hcur =>
      (hfree t p rfl).1 (hcur ▸ h.inv.lists.mem_allList (by rw [hrun]; simp))
    intro u hu
    have hut : u ≠ t := fun hut => by
      have hst : Function.update k.status t .blocked u = .ready := hu
      rw [hut, Function.update_self] at hst
      cases hst
    show Function.update k.priority t p u ≤ Function.update k.priority t p k.current
    rw [Function.update_of_ne hut, Function.update_of_ne hcur]
    exact htop u ((Function.update_of_ne hut _ _).symm.trans hu)
  | acquire l | release l | down s | tryDown s | up s | sleep n | getLoadAvg | getRecentCpu =>
    cases hs
    exact htop.same rfl rfl rfl
  | signal l w =>
    rw [Kernel.call] at hs
    split at hs
    · cases hs
      exact htop.same rfl rfl rfl
    · cases hs
  | setPriority p =>
    have hno := h.inv.lists.not_mem_of_status (.inl hrun) .ready
    have h₁ : Sorted (k.setPriority k.current p) := h.sorted.update hno rfl rfl
    rw [Kernel.call, threadSetPriority, if_neg (by rw [h.modes.1]; simp)] at hs
    split at hs
    · exact hbest (h₁.threadYield hs hinv'.lists)
    · -- the priority has not been lowered
      rename_i hle
      cases hs
      intro u hu
      have hu : k.status u = .ready := hu
      have hne : u ≠ k.current := ne_of_apply_ne k.status (by simp [hu, hrun])
      show Function.update k.priority k.current p u ≤ Function.update k.priority k.current p k.current
      rw [Function.update_of_ne hne, Function.update_self]
      exact (htop u hu).trans (not_lt.mp hle)
  | setNice n =>
    cases hs
    intro u hu
    have hu : k.status u = .ready := hu
    have hne : u ≠ k.current := ne_of_apply_ne k.status (by simp [hu, hrun])
    show Function.update k.priority k.current _ u ≤ Function.update k.priority k.current _ k.current
    rw [Function.update_of_ne hne, Function.update_self]
    exact hcalm u hu

/-! ## Runs -/

/-- A step of threads that call `thread_unblock` properly, after which the running thread is the right one. -/
def CalmStep (k : Kernel) (a : Act) (k' : Kernel) : Prop := Step k a k' ∧ k.Proper a ∧ k.Calm a

theorem Preempts.step {a : Act} (h : Preempts k) (hs : CalmStep k a k') :
    Preempts k' ∧ (a = .interrupt → Top k') := by
  obtain ⟨hs, hproper, hcalm⟩ := hs
  have hinv' := h.inv.step hproper hs
  have hfloor' := h.floor.step h.inv h.modes hcalm hs
  have hmodes' := hs.modes
  have hsorted' : Sorted k' := (h.sorted.step h.inv hproper (fun _ => by
    rw [renew_plain (k := k.tick) h.modes]
    exact h.sorted) hs).1
  have hmake : (∀ u, k'.status u = .ready → k'.priority u ≤ k'.priority k'.current ∨ k'.Checking u) → Preempts k' :=
    fun htop => ⟨hinv', hsorted', ⟨hmodes'.1.trans h.modes.1, hmodes'.2.trans h.modes.2⟩, hfloor', htop⟩
  cases hs with
  | interrupt hon hs =>
    have htop := h.interrupt hcalm hs hinv' hfloor'
    exact ⟨hmake fun u hu => .inl (htop u hu), fun _ => htop⟩
  | next hi hs => exact ⟨hmake (h.next hi hs hinv' hfloor'), nofun⟩
  | call hc hfree hs =>
    have htop := h.call hcalm hc hfree hs hinv' hfloor'
    exact ⟨hmake fun u hu => .inl (htop u hu), nofun⟩

theorem boot_preempts (value : ℕ → ℕ) : Preempts (boot false false value) := by
  refine ⟨boot_inv _ _ _, List.pairwise_singleton _ _, ⟨rfl, rfl⟩, ⟨fun t => ?_, rfl⟩, fun u hu => .inl ?_⟩
  · simp only [boot, priDefault, priMin]
    split <;> decide
  · simp only [boot, priDefault, priMin]
    split <;> decide

/-- **The running thread has the highest priority** wherever it is in code of its own, and so after every timer
interrupt, in every run of calm steps. -/
theorem running_is_top {value : ℕ → ℕ} {as : List Act} (hrun : Trace CalmStep (boot false false value) as k) :
    (k.control k.current = [] → Top k) ∧ ∀ k', CalmStep k .interrupt k' → Top k' := by
  have h : Preempts k := hrun.invariant (fun _ _ _ h hs => (h.step hs).1) (boot_preempts value)
  refine ⟨fun hc u hu => (h.top u hu).elim id fun hcheck => ?_, fun k' hs => (h.step hs).2 rfl⟩
  rw [Checking, hc] at hcheck
  cases hcheck

/-- `main`, after it has created a thread. -/
theorem running_is_top_created : ∃ k : Kernel, k.readyList = [2] ∧ Top k := by
  have hrun : (run (startUp ++ calls (.create 2 20) 7) (boot false false fun _ => 0)).map
      (fun k => (k.readyList, k.control k.current)) = some ([2], []) := by
    decide +kernel
  obtain ⟨k, hrun, hk⟩ := Option.map_eq_some_iff.mp hrun
  obtain ⟨hl, hc⟩ := Prod.mk.inj hk
  exact ⟨k, hl, (running_is_top (run_trace (P := fun k a => k.Proper a ∧ k.Calm a)
    (by simp [startUp, calls, Proper, Calm]) hrun)).1 hc⟩

/-- A thread of priority 40 sleeps for one tick, and `main` runs. -/
theorem woken_thread_waits : ¬∀ value as k k', Trace ProperStep (boot false false value) as k →
    ProperStep k .interrupt k' → Top k' := by
  intro hall
  have hrun : (run (startUp ++ calls (.create 2 40) 7 ++ calls (.sleep 1) 1) (boot false false fun _ => 0)).bind
      (fun k => (k.exec .interrupt).map fun k' => (k'.status 2, k'.priority 2, k'.priority k'.current)) =
      some (.ready, 40, 31) := by
    decide +kernel
  obtain ⟨k, hrun, hlast⟩ := Option.bind_eq_some_iff.mp hrun
  obtain ⟨k', hlast, hk⟩ := Option.map_eq_some_iff.mp hlast
  simp only [Prod.mk.injEq] at hk
  obtain ⟨hready, hp, hp'⟩ := hk
  have htop := hall _ _ k k' (run_trace (P := Proper) (by simp [startUp, calls, Proper]) hrun)
    ⟨exec_step hlast, trivial⟩ 2 hready
  rw [hp, hp'] at htop
  omega

end Pintos.Threads.Kernel
