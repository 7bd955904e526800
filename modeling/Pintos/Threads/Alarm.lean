import Pintos.Threads.Membership

/-!
# The alarm clock

`timer_sleep` puts the running thread into `block_list` with the tick at which it is to be woken; every timer
interrupt scans the list, since the guard of the scan is never above the tick of a sleeper (`Kernel.Alarmed`).
Between reading the clock and the section with interrupts off the thread may still be switched off and be
ready; from there on it is not, until the first interrupt at its tick or behind it.
-/

namespace Pintos.Threads.Kernel

variable {k k' : Kernel} {t u : ℕ}

/-- `wake_thread` is called when a sleeper is due. -/
def Alarmed (k : Kernel) : Prop := ∀ u ∈ k.blockList, k.smallestTick ≤ k.wakeT u

/-- The sleepers sleep on as before. -/
structure SleepOn (k k' : Kernel) : Prop where
  sleepers : ∀ u ∈ k.blockList, u ∈ k'.blockList ∧ k'.wakeT u = k.wakeT u
  alarmed : Alarmed k → Alarmed k'

/-- The sleepers, their ticks and the guard of the scan are the same. -/
def SameSleepers (k k' : Kernel) : Prop :=
  k'.blockList = k.blockList ∧ k'.wakeT = k.wakeT ∧ k'.smallestTick = k.smallestTick

theorem Switched.sameSleepers (h : Switched k k') : SameSleepers k k' := by
  obtain ⟨_, _, _, _, _, _, rfl⟩ := h
  exact ⟨rfl, rfl, rfl⟩

theorem SameSleepers.sleepOn (h : SameSleepers k k') : SleepOn k k' := by
  obtain ⟨hl, hw, hs⟩ := h
  refine ⟨fun u hu => ⟨hl ▸ hu, congrFun hw u⟩, fun h => ?_⟩
  unfold Alarmed
  rw [hl, hw, hs]
  exact h

theorem Switched.sleepOn (h : Switched k k') : SleepOn k k' := h.sameSleepers.sleepOn

theorem SleepOn.trans {k₁ : Kernel} (h : SleepOn k k₁) (h' : SleepOn k₁ k') : SleepOn k k' := by
  refine ⟨fun u hu => ?_, fun ha => h'.alarmed (h.alarmed ha)⟩
  obtain ⟨hu, hw⟩ := h.sleepers u hu
  obtain ⟨hu, hw'⟩ := h'.sleepers u hu
  exact ⟨hu, hw'.trans hw⟩

theorem updateSmallestTick_le (k : Kernel) (w : ℤ) :
    (k.updateSmallestTick w).smallestTick ≤ w ∧ (k.updateSmallestTick w).smallestTick ≤ k.smallestTick := by
  unfold updateSmallestTick
  show (if k.smallestTick > w then w else k.smallestTick) ≤ w ∧ (if k.smallestTick > w then w else k.smallestTick) ≤ _
  split <;> omega

/-- The running thread goes to sleep. -/
theorem fallAsleep_sleepOn (hcur : k.current ∉ k.blockList) (w : ℤ) : SleepOn k (k.fallAsleep w) := by
  have hother : ∀ u ∈ k.blockList, (k.fallAsleep w).wakeT u = k.wakeT u := fun u hu =>
    Function.update_of_ne (fun (hc : u = k.current) => hcur (hc ▸ hu)) _ _
  obtain ⟨hle, hle'⟩ := updateSmallestTick_le k w
  refine ⟨fun u hu => ⟨List.mem_append_left _ hu, hother u hu⟩, fun h u hu => ?_⟩
  rcases List.mem_append.mp hu with hu | hu
  · rw [hother u hu]
    exact hle'.trans (h u hu)
  · rw [List.mem_singleton.mp hu]
    exact hle.trans (Function.update_self (f := k.wakeT) ..).ge

theorem timerSleep_sleepOn (hcur : k.current ∉ k.blockList) {start ticks : ℤ}
    (hs : k.timerSleep start ticks = some k') : SleepOn k k' := by
  unfold timerSleep at hs
  split at hs
  · cases hs
    exact (Switched.refl _).sleepOn
  · exact (fallAsleep_sleepOn hcur _).trans (threadBlock_switched hs).sleepOn

/-- A statement of the running thread leaves the sleepers alone, except in `timer_sleep`. -/
theorem instr_sameSleepers {freed : ℤ} {i : Instr} (hi : ∀ start ticks, i ≠ .sleep start ticks)
    (hs : k.instr freed i = some k') : SameSleepers k k' := by
  have hfirst : ∀ {is}, Switched (k.first is) k' → SameSleepers k k' := fun h => h.sameSleepers
  cases i with
  | acquire l =>
    rw [instr] at hs
    split at hs
    · cases hs
    · cases hs
      exact ⟨rfl, rfl, rfl⟩
  | down s | retest s =>
    rcases semaDown_switched hs with h | h
    · exact h.sameSleepers
    · exact hfirst h
  | hold l | startIdle =>
    cases hs
    exact ⟨rfl, rfl, rfl⟩
  | release l =>
    rw [instr] at hs
    split at hs
    · cases hs
      exact ⟨rfl, rfl, rfl⟩
    · cases hs
  | up s => exact (semaUp_switched hs).sameSleepers
  | unblock t => exact hfirst (threadUnblock_switched hs)
  | check t =>
    rw [instr] at hs
    split at hs
    · exact (threadYield_switched hs).sameSleepers
    · cases hs
      exact ⟨rfl, rfl, rfl⟩
  | sleep start ticks => exact absurd rfl (hi start ticks)
  | idleLoop => exact hfirst (threadBlock_switched hs)

/-- No statement wakes a sleeper. -/
theorem instr_sleepOn (hcur : k.current ∉ k.blockList) {freed : ℤ} {i : Instr} (hs : k.instr freed i = some k') :
    SleepOn k k' := by
  cases i with
  | sleep start ticks => exact timerSleep_sleepOn hcur hs
  | _ => exact (instr_sameSleepers (by simp) hs).sleepOn

/-- A call leaves the sleepers alone, except that a new thread is in a page that may have been one's. -/
theorem call_sameSleepers {c : Call} (hcreate : ∀ t p, c ≠ .create t p) (hs : k.call c = some k') :
    SameSleepers k k' := by
  cases c with
  | yield => exact (threadYield_switched hs).sameSleepers
  | block => exact (threadBlock_switched hs).sameSleepers
  | unblock t => exact (threadUnblock_switched hs).sameSleepers
  | exit =>
    have hexit : Switched ({ k with allList := k.allList.erase k.current }.setStatus k.current .dying) k' :=
      schedule_switched hs
    exact hexit.sameSleepers
  | create t p => exact absurd rfl (hcreate t p)
  | acquire l | release l | down s | tryDown s | up s | sleep n | getLoadAvg | getRecentCpu =>
    cases hs
    exact ⟨rfl, rfl, rfl⟩
  | signal l w =>
    rw [Kernel.call] at hs
    split at hs
    · cases hs
      exact ⟨rfl, rfl, rfl⟩
    · cases hs
  | setPriority p =>
    rcases threadSetPriority_switched hs with ⟨rfl, -⟩ | h
    · exact ⟨rfl, rfl, rfl⟩
    · exact h.sameSleepers
  | setNice n =>
    cases hs
    exact ⟨rfl, rfl, rfl⟩

/-- No call wakes a sleeper. -/
theorem call_sleepOn {c : Call} (hfree : ∀ t p, c = .create t p → t ∉ k.blockList) (hs : k.call c = some k') :
    SleepOn k k' := by
  cases c with
  | create t p =>
    obtain ⟨k₁, hinit, rfl⟩ := Option.map_eq_some_iff.mp hs
    obtain ⟨-, rfl⟩ := initThread_eq_some hinit
    have hother : ∀ u ∈ k.blockList, Function.update k.wakeT t 0 u = k.wakeT u := fun u hu =>
      Function.update_of_ne (fun (hut : u = t) => hfree t p rfl (hut ▸ hu)) _ _
    exact ⟨fun u hu => ⟨hu, hother u hu⟩, fun h u hu => (h u hu).trans (hother u hu).ge⟩
  | _ => exact (call_sameSleepers (by simp) hs).sleepOn

/-- **No step but the timer interrupt wakes a sleeper.** -/
theorem Step.sleepOn {a : Act} (hs : Step k a k') (hinv : Inv k) (ha : a ≠ .interrupt) : SleepOn k k' := by
  have hcur : k.current ∉ k.blockList := hinv.lists.not_mem_of_status (.inl hinv.running) .sleeping
  cases hs with
  | interrupt => exact absurd rfl ha
  | @next _ _ i is hi hs =>
    have htake : SleepOn k (k.setControl k.current is) := SameSleepers.sleepOn ⟨rfl, rfl, rfl⟩
    exact htake.trans (instr_sleepOn hcur hs)
  | call hc hfree hs =>
    refine call_sleepOn (fun t p he ht => ?_) hs
    have hst := hinv.lists.status .sleeping t ht
    rw [(hinv.lists.alive t).mpr (hfree t p he).1] at hst
    cases hst

/-! ## The scan -/

/-- What the loop of `wake_thread` has done: the threads of `ts` that are due are ready, and there only. -/
theorem wakeLoop_spec {ts : List ℕ} (hs : wakeLoop ts k = some k') (hnodup : k.blockList.Nodup) (hts : ts.Nodup) :
    k'.blockList = k.blockList.filter (fun u => ¬(u ∈ ts ∧ k.wakeT u ≤ k.ticks)) ∧
    (∀ u, k'.readyList.count u = k.readyList.count u + if u ∈ ts ∧ k.wakeT u ≤ k.ticks then 1 else 0) ∧
    (∀ u, k'.status u = if u ∈ ts ∧ k.wakeT u ≤ k.ticks then .ready else k.status u) ∧
    k'.smallestTick ≤ k.smallestTick ∧ k'.wakeT = k.wakeT := by
  induction ts generalizing k with
  | nil =>
    cases hs
    exact ⟨by simp, by simp, by simp, le_rfl, rfl⟩
  | cons t ts ih =>
    obtain ⟨htts, hts⟩ := List.nodup_cons.mp hts
    rw [wakeLoop] at hs
    split at hs
    · rename_i hdue
      obtain ⟨k₁, hunblock, hs⟩ := Option.bind_eq_some_iff.mp hs
      obtain ⟨-, rfl⟩ := threadUnblock_eq_some.mp hunblock
      obtain ⟨hblock, hready, hstatus, hsmall, hwake⟩ := ih hs (hnodup.erase t) hts
      -- `t` has been taken from the list and is ready
      have hiff : ∀ u, (u ∈ t :: ts ∧ k.wakeT u ≤ k.ticks) ↔ u = t ∨ (u ∈ ts ∧ k.wakeT u ≤ k.ticks) := by
        intro u
        rw [List.mem_cons, or_and_right]
        exact or_congr_left ⟨And.left, fun hut => ⟨hut, hut ▸ hdue⟩⟩
      simp only [hiff]
      refine ⟨?_, fun u => ?_, fun u => ?_, hsmall, hwake⟩
      · rw [hblock]
        show (k.blockList.erase t).filter (fun u => ¬(u ∈ ts ∧ k.wakeT u ≤ k.ticks)) = _
        rw [hnodup.erase_eq_filter, List.filter_filter]
        refine List.filter_congr fun u _ => ?_
        by_cases hut : u = t <;> simp [hut]
      · rw [hready]
        show (listInsertOrdered _ t k.readyList).count u + (if u ∈ ts ∧ k.wakeT u ≤ k.ticks then 1 else 0) = _
        rw [(perm_listInsertOrdered _ t k.readyList).count_eq, List.count_cons]
        by_cases hut : u = t
        · simp [hut, htts]
        · simp [hut, Ne.symm hut]
      · rw [hstatus]
        show (if u ∈ ts ∧ k.wakeT u ≤ k.ticks then _ else Function.update k.status t .ready u) = _
        by_cases hut : u = t
        · simp [hut, htts]
        · simp [hut]
    · rename_i hdue
      obtain ⟨hblock, hready, hstatus, hsmall, hwake⟩ := ih hs hnodup hts
      have hiff : ∀ u, (u ∈ t :: ts ∧ k.wakeT u ≤ k.ticks) ↔ (u ∈ ts ∧ k.wakeT u ≤ k.ticks) := by
        intro u
        rw [List.mem_cons]
        refine and_congr_left fun hu => or_iff_right fun hut => hdue (hut ▸ hu)
      simp only [hiff]
      exact ⟨hblock, hready, hstatus, hsmall.trans (updateSmallestTick_le k _).2, hwake⟩

/-- No assertion fails in the loop: `thread_unblock` gets blocked threads. -/
theorem wakeLoop_total {ts : List ℕ} (hts : ts.Nodup) (hblocked : ∀ t ∈ ts, k.status t = .blocked) :
    ∃ k', wakeLoop ts k = some k' := by
  induction ts generalizing k with
  | nil => exact ⟨k, rfl⟩
  | cons t ts ih =>
    obtain ⟨htts, hts⟩ := List.nodup_cons.mp hts
    obtain ⟨ht, hblocked⟩ := List.forall_mem_cons.mp hblocked
    rw [wakeLoop]
    split
    · have hunblock : { k with blockList := k.blockList.erase t }.threadUnblock t =
          some (({ k with blockList := k.blockList.erase t }.insertReady t).setStatus t .ready) :=
        threadUnblock_eq_some.mpr ⟨ht, rfl⟩
      rw [hunblock]
      refine ih hts fun u hu => ?_
      have hne : u ≠ t := fun hut => htts (hut ▸ hu)
      exact (Function.update_of_ne hne _ _).trans (hblocked u hu)
    · exact ih hts hblocked

theorem timerHandler_total (hinv : Inv k) : ∃ k', k.timerHandler = some k' := by
  obtain ⟨p, r, a, heq⟩ := renew_renewed k.tick
  rw [timerHandler, heq, wakeDue]
  split
  · exact wakeLoop_total (hinv.lists.disjoint.nodup .sleeping) fun t ht => hinv.lists.status .sleeping t ht
  · exact ⟨_, rfl⟩

/-- What the handler of the timer interrupt does at the tick `now`: the sleepers that are due are ready and have
been put into `ready_list` once, the others are in `block_list` in their order, and no other thread is woken. -/
structure Wakes (k k' : Kernel) (now : ℤ) : Prop where
  blockList : k'.blockList = k.blockList.filter fun u => now < k.wakeT u
  woken : ∀ u ∈ k.blockList, k.wakeT u ≤ now → k'.status u = .ready ∧ k'.readyList.count u = 1
  others : ∀ u, ¬(u ∈ k.blockList ∧ k.wakeT u ≤ now) →
    k'.status u = k.status u ∧ k'.readyList.count u = k.readyList.count u

/-- `wake_thread` behind its guard, with what it keeps. -/
theorem wakeDue_wakes (hlists : Lists k) (ha : Alarmed k) (hs : k.wakeDue = some k') :
    Wakes k k' k.ticks ∧ k'.wakeT = k.wakeT ∧ Alarmed k' := by
  have hnodup : k.blockList.Nodup := hlists.disjoint.nodup .sleeping
  have hready : ∀ u ∈ k.blockList, k.readyList.count u = 0 := fun u hu => by
    refine List.count_eq_zero.mpr fun hm => ?_
    cases hlists.disjoint.disjoint .ready .sleeping u hm hu
  unfold wakeDue at hs
  split at hs
  · obtain ⟨hblock, hcount, hstatus, hsmall, hwake⟩ :=
      wakeLoop_spec (k := { k with timerSmallestTick := int64Max }) hs hnodup hnodup
    simp only at hblock hcount hstatus hsmall hwake
    have hdue : k'.blockList = k.blockList.filter fun u => k.ticks < k.wakeT u := by
      rw [hblock]
      refine List.filter_congr fun u hu => decide_eq_decide.mpr ?_
      exact ⟨fun h => not_le.mp fun hle => h ⟨hu, hle⟩, fun h h' => absurd h'.2 (not_le.mpr h)⟩
    refine ⟨⟨hdue, fun u hu hw => ⟨?_, ?_⟩, fun u hno => ⟨?_, ?_⟩⟩, hwake, fun u hu => ?_⟩
    · rw [hstatus, if_pos ⟨hu, hw⟩]
    · rw [hcount, if_pos ⟨hu, hw⟩, hready u hu]
    · rw [hstatus, if_neg hno]
    · rw [hcount, if_neg hno, add_zero]
    · rw [hdue] at hu
      rw [hwake]
      exact hsmall.trans (ha u (List.mem_filter.mp hu).1)
  · -- no sleeper is due
    rename_i hguard
    have hlate : ∀ u ∈ k.blockList, k.ticks < k.wakeT u := fun u hu => (not_le.mp hguard).trans_le (ha u hu)
    cases hs
    refine ⟨⟨?_, fun u hu hw => ?_, fun u _ => ⟨rfl, rfl⟩⟩, rfl, ha⟩
    · exact (List.filter_eq_self.mpr fun u hu => decide_eq_true (hlate u hu)).symm
    · exact absurd hw (not_le.mpr (hlate u hu))

/-- The handler, with what it keeps. -/
theorem timerHandler_wakes (hinv : Inv k) (ha : Alarmed k) (hs : k.timerHandler = some k') :
    Wakes k k' k'.ticks ∧ k'.wakeT = k.wakeT ∧ Alarmed k' := by
  have hticks := (wakeDue_scheduled hs).sameNumbers.ticks
  obtain ⟨p, r, a, heq⟩ := renew_renewed k.tick
  have h := wakeDue_wakes (k := k.tick.renew.value)
    (by rw [heq]; exact hinv.lists.congr rfl rfl rfl rfl rfl fun _ _ => rfl) (by rw [heq]; exact ha) hs
  rw [heq] at h hticks
  obtain ⟨⟨hblock, hwoken, hothers⟩, hwake, ha'⟩ := h
  rw [hticks]
  exact ⟨⟨hblock, hwoken, hothers⟩, hwake, ha'⟩

/-- The interrupt ends with the handler, or with `thread_yield` behind it. -/
theorem timerInterrupt_eq_some (hs : k.timerInterrupt = some k') :
    ∃ k₁, k.timerHandler = some k₁ ∧ (k' = k₁ ∨ k₁.threadYield = some k') := by
  obtain ⟨k₁, hhandler, hs⟩ := Option.bind_eq_some_iff.mp hs
  refine ⟨k₁, hhandler, ?_⟩
  split at hs
  · exact .inr hs
  · exact .inl (Option.some.inj hs).symm

/-- **The guard of the scan never hides a sleeper.** -/
theorem Alarmed.step {a : Act} (h : Alarmed k) (hinv : Inv k) (hs : Step k a k') : Alarmed k' := by
  by_cases ha : a = .interrupt
  · subst ha
    cases hs with
    | interrupt hon hs =>
      obtain ⟨k₁, hhandler, hs⟩ := timerInterrupt_eq_some hs
      have h₁ := (timerHandler_wakes hinv h hhandler).2.2
      rcases hs with rfl | hs
      · exact h₁
      · exact (threadYield_switched hs).sleepOn.alarmed h₁
  · exact (hs.sleepOn hinv ha).alarmed h

/-! ## Runs -/

/-- A step that is no interrupt at the tick `w` or behind it. -/
def EarlyStep (w : ℤ) (k : Kernel) (a : Act) (k' : Kernel) : Prop :=
  ProperStep k a k' ∧ (a = .interrupt → k'.ticks < w)

/-- What holds from the time at which a thread has fallen asleep. -/
structure Sleeps (k : Kernel) (t : ℕ) (w : ℤ) : Prop where
  inv : Inv k
  alarmed : Alarmed k
  mem : t ∈ k.blockList
  wakeT : k.wakeT t = w

/-- **Until its tick a thread sleeps on.** -/
theorem Sleeps.step {w : ℤ} {a : Act} (h : Sleeps k t w) (hs : EarlyStep w k a k') : Sleeps k' t w := by
  obtain ⟨⟨hs, hproper⟩, hearly⟩ := hs
  have hmake : t ∈ k'.blockList ∧ k'.wakeT t = k.wakeT t → Sleeps k' t w := fun hm =>
    ⟨h.inv.step hproper hs, h.alarmed.step h.inv hs, hm.1, hm.2.trans h.wakeT⟩
  by_cases ha : a = .interrupt
  · subst ha
    refine hmake ?_
    cases hs with
    | interrupt hon hs =>
      obtain ⟨k₁, hhandler, hs⟩ := timerInterrupt_eq_some hs
      obtain ⟨hwakes, hwake, -⟩ := timerHandler_wakes h.inv h.alarmed hhandler
      have hearly : k₁.ticks < w := by
        rcases hs with rfl | hs
        · exact hearly rfl
        · exact (threadYield_switched hs).scheduled.sameNumbers.ticks ▸ hearly rfl
      have hmem : t ∈ k₁.blockList := by
        rw [hwakes.blockList, List.mem_filter, decide_eq_true_iff, h.wakeT]
        exact ⟨h.mem, hearly⟩
      rcases hs with rfl | hs
      · exact ⟨hmem, congrFun hwake t⟩
      · have hon := (threadYield_switched hs).sleepOn.sleepers t hmem
        exact ⟨hon.1, hon.2.trans (congrFun hwake t)⟩
  · exact hmake ((hs.sleepOn h.inv ha).sleepers t h.mem)

/-- The thread that has read the clock at `start` falls asleep. -/
theorem Sleeps.start {start ticks freed : ℤ} {is : List Instr} (hinv : Inv k) (halarmed : Alarmed k)
    (hi : k.control k.current = .sleep start ticks :: is) (hpos : 0 < ticks)
    (hrange : -2 ^ 63 ≤ start + ticks ∧ start + ticks < 2 ^ 63) (hs : Step k (.next freed) k') :
    Sleeps k' k.current (start + ticks) := by
  have hasleep : k.current ∈ k'.blockList ∧ k'.wakeT k.current = start + ticks := by
    cases hs with
    | next hi' hs =>
      rw [hi] at hi'
      cases hi'
      rw [instr, timerSleep, if_neg (not_le.mpr hpos)] at hs
      obtain ⟨hmem, hwake⟩ := (threadBlock_switched hs).sleepOn.sleepers k.current
        (List.mem_append_right _ (List.mem_singleton_self _))
      refine ⟨hmem, hwake.trans ((Function.update_self ..).trans ?_)⟩
      rw [add_comm ticks]
      exact Int.bmod_eq_of_le (by omega) (by omega)
  exact ⟨hinv.step (a := .next freed) trivial hs, halarmed.step hinv hs, hasleep.1, hasleep.2⟩

/-- **The alarm clock.**  A thread that is in `timer_sleep (ticks)` and has read the clock at `start` falls asleep
and is not ready as long as no interrupt comes at `start + ticks` or behind it; and in every such state the
handler of the interrupt makes the sleepers ready that are due, once, and no other thread, and so this one if the
tick is `start + ticks` or behind it. -/
theorem alarm_clock {mlfqs aging : Bool} {value : ℕ → ℕ} {as bs : List Act} {start ticks freed : ℤ}
    {is : List Instr} {k₀ k₁ : Kernel} (hrun : Trace ProperStep (boot mlfqs aging value) as k)
    (hi : k.control k.current = .sleep start ticks :: is) (hpos : 0 < ticks)
    (hrange : -2 ^ 63 ≤ start + ticks ∧ start + ticks < 2 ^ 63) (hs : Step k (.next freed) k₀)
    (hearly : Trace (EarlyStep (start + ticks)) k₀ bs k₁) :
    (k₁.status k.current = .blocked ∧ k.current ∈ k₁.blockList ∧ k.current ∉ k₁.readyList) ∧
    ∃ k₂, k₁.timerHandler = some k₂ ∧ Wakes k₁ k₂ k₂.ticks ∧
      (start + ticks ≤ k₂.ticks →
        k.current ∉ k₂.blockList ∧ k₂.status k.current = .ready ∧ k₂.readyList.count k.current = 1) := by
  have hI : Inv k ∧ Alarmed k := by
    refine hrun.invariant (I := fun k => Inv k ∧ Alarmed k) (fun k a k' hI hs => ?_) ⟨boot_inv mlfqs aging value, nofun⟩
    exact ⟨hI.1.step hs.2 hs.1, hI.2.step hI.1 hs.1⟩
  have h : Sleeps k₁ k.current (start + ticks) :=
    hearly.invariant (I := fun k' => Sleeps k' k.current (start + ticks)) (fun _ _ _ h hs => h.step hs)
      (.start hI.1 hI.2 hi hpos hrange hs)
  have hst : k₁.status k.current = .blocked := h.inv.lists.status .sleeping _ h.mem
  obtain ⟨k₂, hhandler⟩ := timerHandler_total h.inv
  refine ⟨⟨hst, h.mem, fun hm => ?_⟩, k₂, hhandler, ?_⟩
  · cases h.inv.lists.disjoint.disjoint .ready .sleeping _ hm h.mem
  · have hwakes := (timerHandler_wakes h.inv h.alarmed hhandler).1
    refine ⟨hwakes, fun hdue => ⟨fun hm => ?_, hwakes.woken _ h.mem (h.wakeT ▸ hdue)⟩⟩
    rw [hwakes.blockList, List.mem_filter, decide_eq_true_iff, h.wakeT] at hm
    exact absurd hm.2 (not_lt.mpr hdue)

/-- `main` sleeps for two ticks, and the second one comes. -/
theorem alarm_clock_second_tick : ∃ k : Kernel, k.ticks = 2 ∧ k.status 0 = .ready ∧ k.readyList.count 0 = 1 := by
  have hrun : (run (startUp ++ [.call (.sleep 2)]) (boot false false fun _ => 0)).bind (fun k =>
      (k.exec (.next 0)).bind fun k₀ => (k₀.exec .interrupt).bind fun k₁ => k₁.timerHandler.map fun k₂ =>
        (k.current, k.control k.current, k₁.ticks, k₂.ticks)) = some (0, [.sleep 0 2], 1, 2) := by
    decide +kernel
  obtain ⟨k, hrun, h⟩ := Option.bind_eq_some_iff.mp hrun
  obtain ⟨k₀, hsleep, h⟩ := Option.bind_eq_some_iff.mp h
  obtain ⟨k₁, htick, h⟩ := Option.bind_eq_some_iff.mp h
  obtain ⟨k₂, hhandler, h⟩ := Option.map_eq_some_iff.mp h
  simp only [Prod.mk.injEq] at h
  obtain ⟨hcur, hcontrol, hone, htwo⟩ := h
  have hearly : Trace (EarlyStep (0 + 2)) k₀ [.interrupt] k₁ :=
    .single ⟨⟨exec_step htick, trivial⟩, fun _ => by rw [hone]; decide⟩
  obtain ⟨k₂', hhandler', -, halarm⟩ := (alarm_clock (run_trace (P := Proper) (by simp [startUp, Proper]) hrun) hcontrol
    (by decide) (by decide) (exec_step hsleep) hearly).2
  cases hhandler.symm.trans hhandler'
  rw [hcur] at halarm
  exact ⟨k₂, htwo, (halarm (by rw [htwo]; decide)).2⟩

/-- `main` has read the clock in `timer_sleep (10)`, and its time slice ends. -/
theorem sleeper_ready_early : ¬∀ mlfqs aging value as k, Trace ProperStep (boot mlfqs aging value) as k →
    ∀ t start ticks is, k.control t = .sleep start ticks :: is → 0 < ticks → k.ticks < start + ticks →
      t ∉ k.readyList := by
  intro hall
  have hrun : (run (startUp ++ calls (.create 2 31) 7 ++
      [.call (.sleep 10), .interrupt, .interrupt, .interrupt, .interrupt]) (boot false false fun _ => 0)).map
      (fun k => (k.readyList, k.control 0, k.ticks)) = some ([0], [.sleep 0 10], 4) := by
    decide +kernel
  obtain ⟨k, hrun, hk⟩ := Option.map_eq_some_iff.mp hrun
  simp only [Prod.mk.injEq] at hk
  obtain ⟨hl, hc, hticks⟩ := hk
  refine hall _ _ _ _ k (run_trace (P := Proper) (by simp [startUp, calls, Proper]) hrun) 0 0 10 [] hc (by decide)
    (by rw [hticks]; decide) (hl ▸ List.mem_singleton_self 0)

end Pintos.Threads.Kernel
