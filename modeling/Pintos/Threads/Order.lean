import Pintos.Threads.Membership

/-!
# The order of the ready queue

`ready_list` is sorted when a thread comes into it: `list_insert_ordered` looks for its place in a list that is
sorted already.  What changes the priority of a thread in the list may break the order; `thread_aging` changes
all of them alike, and `renew_prior` does not (`Kernel.KeepsOrder`).
-/

namespace Pintos.Threads

theorem pairwise_listInsertOrdered {priority : ℕ → ℤ} {t : ℕ} {l : List ℕ}
    (h : l.Pairwise fun a b => priority b ≤ priority a) :
    (listInsertOrdered (isPriorLarger priority) t l).Pairwise fun a b => priority b ≤ priority a := by
  induction l with
  | nil => exact List.pairwise_singleton _ _
  | cons x xs ih =>
    obtain ⟨hx, hxs⟩ := List.pairwise_cons.mp h
    rw [listInsertOrdered]
    split
    · rename_i hlt
      have hlt : priority x < priority t := by simpa [isPriorLarger] using hlt
      refine List.pairwise_cons.mpr ⟨fun a ha => ?_, h⟩
      rcases List.mem_cons.mp ha with rfl | ha
      · exact hlt.le
      · exact (hx a ha).trans hlt.le
    · rename_i hle
      have hle : priority t ≤ priority x := by simpa [isPriorLarger] using hle
      refine List.pairwise_cons.mpr ⟨fun a ha => ?_, ih hxs⟩
      rcases mem_listInsertOrdered.mp ha with rfl | ha
      · exact hle
      · exact hx a ha

namespace Kernel

variable {k k' : Kernel} {t : ℕ}

/-- `ready_list` is in the order of the priorities. -/
def Sorted (k : Kernel) : Prop := k.readyList.Pairwise fun a b => k.priority b ≤ k.priority a

/-- No ready thread has a priority above the one of the running thread; the idle thread is not counted. -/
def Best (k : Kernel) : Prop :=
  ∀ u, k.status u = .ready → k.idleThread ≠ some u → k.priority u ≤ k.priority k.current

/-- The priorities in the list, and the list, are the same. -/
theorem Sorted.congr (h : Sorted k) (hl : k'.readyList = k.readyList)
    (hp : ∀ t ∈ k.readyList, k'.priority t = k.priority t) : Sorted k' := by
  unfold Sorted
  rw [hl]
  exact List.Pairwise.imp_of_mem (fun ha hb hab => by rw [hp _ ha, hp _ hb]; exact hab) h

/-- The priority of one thread changes, and it is not in the list. -/
theorem Sorted.update (h : Sorted k) {p : ℤ} (ht : t ∉ k.readyList) (hl : k'.readyList = k.readyList)
    (hp : k'.priority = Function.update k.priority t p) : Sorted k' :=
  h.congr hl fun u hu => by rw [hp, Function.update_of_ne fun (hut : u = t) => ht (hut ▸ hu)]

theorem Sorted.insertReady (h : Sorted k) (t : ℕ) : Sorted (k.insertReady t) := pairwise_listInsertOrdered h

theorem Sorted.threadUnblock (h : Sorted k) (hs : k.threadUnblock t = some k') :
    Sorted k' ∧ k'.choices = k.choices := by
  obtain ⟨-, rfl⟩ := threadUnblock_eq_some.mp hs
  exact ⟨h.insertReady t, rfl⟩

/-- **`schedule` chooses a thread of the highest priority.** -/
theorem Sorted.schedule (h : Sorted k) (hs : k.schedule = some k') (hlists : Lists k') : Sorted k' ∧ Best k' := by
  obtain ⟨-, next, ts, rfl, hl | ⟨hl, rfl, -⟩⟩ := schedule_eq_some hs
  · unfold Sorted at h
    rw [hl] at h
    obtain ⟨hhead, hts⟩ := List.pairwise_cons.mp h
    exact ⟨hts, fun u hu hid => hhead u (hlists.ready u hu hid)⟩
  · exact ⟨.nil, fun u hu hid => absurd (hlists.ready u hu hid) List.not_mem_nil⟩

theorem Sorted.requeue (h : Sorted k) : Sorted k.requeue := by
  unfold Kernel.requeue
  split
  · exact h
  · exact h.insertReady k.current

/-- `thread_yield` -/
theorem Sorted.threadYield (h : Sorted k) (hs : k.threadYield = some k') (hlists : Lists k') : Sorted k' ∧ Best k' :=
  h.requeue.schedule hs hlists

/-- `thread_block` -/
theorem Sorted.threadBlock (h : Sorted k) (hs : k.threadBlock = some k') (hlists : Lists k') : Sorted k' ∧ Best k' :=
  Sorted.schedule (k := k.setStatus k.current .blocked) h hs hlists

/-- The queue is in order, and if a thread has been chosen there is none better. -/
def Orderly (k k' : Kernel) : Prop := Sorted k' ∧ (k'.choices = k.choices ∨ Best k')

theorem Orderly.of_best (h : Sorted k' ∧ Best k') : Orderly k k' := ⟨h.1, .inr h.2⟩

theorem Sorted.orderly (h : Sorted k') (hc : k'.choices = k.choices) : Orderly k k' := ⟨h, .inl hc⟩

theorem Sorted.wakeWaiter (h : Sorted k) {s : ℕ} (hs : k.wakeWaiter s = some k') :
    Sorted k' ∧ k'.choices = k.choices := by
  obtain ⟨m, ⟨-, rfl⟩ | ⟨t, -, hs⟩⟩ := wakeWaiter_eq_some hs
  · exact ⟨h, rfl⟩
  · exact Sorted.threadUnblock (k := k.setSema s m) h hs

/-- `sema_up` -/
theorem Sorted.semaUp (h : Sorted k) {s : ℕ} (hs : k.semaUp s = some k') (hlists : Lists k') :
    Sorted k' ∧ Best k' := by
  obtain ⟨k₁, hwake, hyield⟩ := Option.bind_eq_some_iff.mp hs
  exact (h.wakeWaiter hwake).1.threadYield hyield hlists

/-- `sema_down` -/
theorem Sorted.semaDown (h : Sorted k) {s : ℕ} (hs : k.semaDown s = some k') (hlists : Lists k') : Orderly k k' := by
  unfold Kernel.semaDown at hs
  split at hs
  · cases hs
    exact Sorted.orderly h rfl
  · rename_i m _
    exact .of_best (Sorted.threadBlock (k := (k.setSema s m).first [.retest s]) h hs hlists)

/-- `timer_sleep`, after the clock has been read. -/
theorem Sorted.timerSleep (h : Sorted k) {start ticks : ℤ} (hs : k.timerSleep start ticks = some k')
    (hlists : Lists k') : Orderly k k' := by
  unfold Kernel.timerSleep at hs
  split at hs
  · cases hs
    exact h.orderly rfl
  · exact .of_best (Sorted.threadBlock (k := k.fallAsleep (wrap64 (ticks + start))) h hs hlists)

theorem Sorted.wakeLoop {ts : List ℕ} (h : Sorted k) (hs : wakeLoop ts k = some k') :
    Sorted k' ∧ k'.choices = k.choices := by
  induction ts generalizing k with
  | nil =>
    cases hs
    exact ⟨h, rfl⟩
  | cons t ts ih =>
    rw [Kernel.wakeLoop] at hs
    split at hs
    · obtain ⟨k₁, hunblock, hs⟩ := Option.bind_eq_some_iff.mp hs
      obtain ⟨h₁, hc⟩ := Sorted.threadUnblock (k := { k with blockList := k.blockList.erase t }) h hunblock
      obtain ⟨h', hc'⟩ := ih h₁ hs
      exact ⟨h', hc'.trans hc⟩
    · exact ih (k := k.updateSmallestTick (k.wakeT t)) h hs

theorem Sorted.wakeDue (h : Sorted k) (hs : k.wakeDue = some k') : Sorted k' ∧ k'.choices = k.choices := by
  unfold Kernel.wakeDue at hs
  split at hs
  · exact Sorted.wakeLoop (k := { k with timerSmallestTick := int64Max }) h hs
  · cases hs
    exact ⟨h, rfl⟩

/-- The timer interrupt, when the queue is in order after the priorities have been renewed. -/
theorem Sorted.timerInterrupt (h : Sorted k.tick.renew.value) (hs : k.timerInterrupt = some k') (hlists : Lists k') :
    Orderly k k' := by
  obtain ⟨k₁, hhandler, hs⟩ := Option.bind_eq_some_iff.mp hs
  obtain ⟨h₁, hc⟩ := h.wakeDue hhandler
  have hc' : k.tick.renew.value.choices = k.choices := by
    obtain ⟨p, r, a, heq⟩ := renew_renewed k.tick
    rw [heq]
    rfl
  split at hs
  · exact .of_best (h₁.threadYield hs hlists)
  · cases hs
    exact h₁.orderly (hc.trans hc')

/-- A statement of the running thread. -/
theorem Sorted.instr (h : Sorted k) {freed : ℤ} {i : Instr} (hs : k.instr freed i = some k') (hlists : Lists k') :
    Orderly k k' := by
  cases i with
  | acquire l =>
    rw [Kernel.instr] at hs
    split at hs
    · cases hs
    · cases hs
      exact Sorted.orderly h rfl
  | down s | retest s => exact h.semaDown hs hlists
  | hold l | startIdle =>
    cases hs
    exact Sorted.orderly h rfl
  | release l =>
    rw [Kernel.instr] at hs
    split at hs
    · cases hs
      exact Sorted.orderly h rfl
    · cases hs
  | up s => exact .of_best (h.semaUp hs hlists)
  | unblock t =>
    obtain ⟨h', hc⟩ := Sorted.threadUnblock (k := k.first [.check t]) h hs
    exact h'.orderly hc
  | check t =>
    rw [Kernel.instr] at hs
    split at hs
    · exact .of_best (h.threadYield hs hlists)
    · cases hs
      exact h.orderly rfl
  | sleep start ticks => exact h.timerSleep hs hlists
  | idleLoop => exact .of_best (Sorted.threadBlock (k := k.first [.idleLoop]) h hs hlists)

/-- A call of a thread that is in no list. -/
theorem Sorted.call (h : Sorted k) {c : Call} (hno : k.current ∉ k.readyList)
    (hfree : ∀ t p, c = .create t p → t ∉ k.readyList) (hs : k.call c = some k') (hlists : Lists k') :
    Orderly k k' := by
  cases c with
  | yield => exact .of_best (h.threadYield hs hlists)
  | block => exact .of_best (h.threadBlock hs hlists)
  | unblock t =>
    obtain ⟨h', hc⟩ := h.threadUnblock hs
    exact h'.orderly hc
  | exit =>
    have h₁ : Sorted ({ k with allList := k.allList.erase k.current }.setStatus k.current .dying) := h
    exact .of_best (h₁.schedule hs hlists)
  | create t p =>
    obtain ⟨k₁, hinit, rfl⟩ := Option.map_eq_some_iff.mp hs
    unfold initThread at hinit
    split at hinit
    · cases hinit
      refine Sorted.orderly ?_ rfl
      exact h.update (p := p) (hfree t p rfl) rfl rfl
    · cases hinit
  | acquire l | release l | down s | tryDown s | up s | sleep n | getLoadAvg | getRecentCpu =>
    cases hs
    exact Sorted.orderly h rfl
  | signal l w =>
    rw [Kernel.call] at hs
    split at hs
    · cases hs
      exact Sorted.orderly h rfl
    · cases hs
  | setPriority p =>
    have h₁ : Sorted (k.setPriority k.current p) := h.update hno rfl rfl
    rw [Kernel.call, threadSetPriority] at hs
    split at hs
    · cases hs
      exact h.orderly rfl
    · split at hs
      · exact .of_best (h₁.threadYield hs hlists)
      · cases hs
        exact h₁.orderly rfl
  | setNice n =>
    cases hs
    refine Sorted.orderly ?_ rfl
    exact h.update (p := (feedbackPriority (k.recentCpu k.current) n).value) hno rfl rfl

/-- **A step keeps the order, if the renewal of the priorities keeps it.** -/
theorem Sorted.step (h : Sorted k) (hinv : Inv k) {a : Act} (hproper : k.Proper a)
    (hrenew : a = .interrupt → Sorted k.tick.renew.value) (hs : Step k a k') : Orderly k k' := by
  have hlists := (hinv.step hproper hs).lists
  cases hs with
  | interrupt hon hs => exact (hrenew rfl).timerInterrupt hs hlists
  | next hi hs => exact Sorted.instr (k := k.setControl k.current _) h hs hlists
  | call hc hfree hs =>
    refine h.call (hinv.lists.not_mem_of_status (.inl hinv.running) .ready) (fun t p he ht => ?_) hs hlists
    have hst := hinv.lists.status .ready t ht
    rw [(hinv.lists.alive t).mpr (hfree t p he).1] at hst
    cases hst

/-! ## The renewal of the priorities -/

/-- A loop that sets a number of every thread in a list, which it computes from the thread alone. -/
theorem forEach_value {r : Kernel → ℕ → ℤ} {w : Kernel → ℕ → ℤ → Kernel} {g : ℕ → Kernel → ℤ}
    {f : ℕ → Kernel → Checked Kernel} (hset : ∀ k u p, r (w k u p) = Function.update (r k) u p)
    (hf : ∀ t k, (f t k).value = w k t (g t k)) (hg : ∀ t u p k, u ≠ t → g t (w k u p) = g t k) {l : List ℕ}
    (hl : l.Nodup) (k : Kernel) (t : ℕ) :
    r (forEach f l k).value t = if t ∈ l then g t k else r k t := by
  induction l generalizing k with
  | nil => rfl
  | cons u l ih =>
    obtain ⟨hu, hl⟩ := List.nodup_cons.mp hl
    rw [forEach, Checked.value_bind, hf, ih hl]
    by_cases htu : t = u
    · rw [if_neg (htu ▸ hu), if_pos (htu ▸ List.mem_cons_self), hset, htu, Function.update_self]
    · rw [hg t u _ k (Ne.symm htu), hset, Function.update_of_ne htu]
      simp only [List.mem_cons, htu, false_or]

theorem threadAging_priority (hnodup : k.readyList.Nodup) (t : ℕ) :
    k.threadAging.value.priority t = if t ∈ k.readyList then wrap32 (k.priority t + 1) else k.priority t :=
  forEach_value (r := Kernel.priority) (w := Kernel.setPriority) (g := fun t k => wrap32 (k.priority t + 1))
    (fun _ _ _ => rfl) (fun _ _ => rfl)
    (fun t u p k hu => by simp only [Kernel.setPriority, Function.update_of_ne (Ne.symm hu)]) hnodup k t

theorem renewPrior_priority (hnodup : k.allList.Nodup) (t : ℕ) :
    k.renewPrior.value.priority t =
      if t ∈ k.allList then (feedbackPriority (k.recentCpu t) (k.nice t)).value else k.priority t :=
  forEach_value (r := Kernel.priority) (w := Kernel.setPriority)
    (g := fun t k => (feedbackPriority (k.recentCpu t) (k.nice t)).value) (fun _ _ _ => rfl) (fun _ _ => rfl)
    (fun _ _ _ _ _ => rfl) hnodup k t

/-- The `recent_cpu` that `renew_recent_cpu` gives a thread. -/
def renewedUse (t : ℕ) (k : Kernel) : ℤ :=
  if some t = k.idleThread then k.recentCpu t else (nextRecentCpu k.loadAvg (k.recentCpu t) (k.nice t)).value

theorem renewRecentCpuOf_value (t : ℕ) (k : Kernel) :
    (renewRecentCpuOf t k).value = k.setRecentCpu t (renewedUse t k) := by
  unfold renewRecentCpuOf renewedUse
  split
  · exact congrArg (fun r => { k with recentCpu := r }) (Function.update_eq_self t k.recentCpu).symm
  · rfl

theorem renewRecentCpu_recentCpu (hnodup : k.allList.Nodup) (t : ℕ) :
    k.renewRecentCpu.value.recentCpu t = if t ∈ k.allList then renewedUse t k else k.recentCpu t :=
  forEach_value (r := Kernel.recentCpu) (w := Kernel.setRecentCpu) (fun _ _ _ => rfl) renewRecentCpuOf_value
    (fun t u p k hu => by simp only [renewedUse, Kernel.setRecentCpu, Function.update_of_ne (Ne.symm hu)]) hnodup k t

theorem renewUse_priority (k : Kernel) : k.renewUse.value.priority = k.priority := by
  have hround : ∀ t k', k'.priority = k.priority → (renewRecentCpuOf t k').value.priority = k.priority :=
    fun t k' h => by
    rw [renewRecentCpuOf_value]
    exact h
  unfold renewUse
  split
  · exact forEach_keeps (P := fun k' => k'.priority = k.priority) hround _ rfl
  · rfl

/-- What `thread_aging` does to the order. -/
theorem Sorted.threadAging (h : Sorted k) (hnodup : k.readyList.Nodup)
    (hrange : ∀ t ∈ k.readyList, Int32Range (k.priority t + 1)) : Sorted k.threadAging.value := by
  obtain ⟨p, r, a, heq⟩ := threadAging_renewed k
  have hp : ∀ t ∈ k.readyList, k.threadAging.value.priority t = k.priority t + 1 := fun t ht => by
    rw [threadAging_priority hnodup, if_pos ht]
    exact wrap32_of_mem (hrange t ht).1 (hrange t ht).2
  have hl : k.threadAging.value.readyList = k.readyList := by rw [heq]
  unfold Sorted
  rw [hl]
  refine List.Pairwise.imp_of_mem (fun ha hb hab => ?_) h
  rw [hp _ ha, hp _ hb]
  omega

/-- The `recent_cpu` of a queued thread after a tick that has been counted. -/
def dueUse (k : Kernel) (t : ℕ) : ℤ :=
  if k.ticks.tmod timerFreq = 0 then
    (nextRecentCpu (nextLoadAvg k.loadAvg k.rdnum).value (k.recentCpu t) (k.nice t)).value
  else k.recentCpu t

/-- The priority that it is worth. -/
def duePriority (k : Kernel) (t : ℕ) : ℤ := (feedbackPriority (k.dueUse t) (k.nice t)).value

/-- At a tick with aging no queued thread has the highest `int` as its priority, and at a tick at which the
feedback scheduler renews the priorities no queued thread is worth more than one that stands before it. -/
def TickKeepsOrder (k : Kernel) : Prop :=
  if k.aging then ∀ t ∈ k.readyList, Int32Range (k.priority t + 1)
  else k.mlfqs = true → k.tick.ticks.tmod 4 = 0 →
    k.readyList.Pairwise fun a b => k.tick.duePriority b ≤ k.tick.duePriority a

/-- Every tick is so. -/
def KeepsOrder (k : Kernel) : Act → Prop
  | .interrupt => k.TickKeepsOrder
  | _ => True

theorem renewUse_recentCpu (hlists : Lists k) (hrun : k.status k.current = .running) (ht : t ∈ k.readyList) :
    k.countTick.value.renewUse.value.recentCpu t = k.dueUse t := by
  have hst : k.status t = .ready := hlists.status .ready t ht
  have hcur : t ≠ k.current := ne_of_apply_ne k.status (by simp [hst, hrun])
  have hid : some t ≠ k.idleThread := fun hid => (hlists.idle t hid.symm).2 .ready ht
  have hall : t ∈ k.allList := hlists.mem_allList (by rw [hst]; nofun)
  have hcount : k.countTick.value.recentCpu t = k.recentCpu t := Function.update_of_ne hcur _ _
  unfold renewUse dueUse
  by_cases hsecond : k.ticks.tmod timerFreq = 0
  · rw [if_pos (show k.countTick.value.ticks.tmod timerFreq = 0 from hsecond), if_pos hsecond, Checked.value_bind,
      renewRecentCpu_recentCpu (k := k.countTick.value.renewLoadAvg.value) hlists.allNodup,
      if_pos (show t ∈ k.countTick.value.renewLoadAvg.value.allList from hall), renewedUse,
      if_neg (show some t ≠ k.countTick.value.renewLoadAvg.value.idleThread from hid)]
    show (nextRecentCpu _ (k.countTick.value.recentCpu t) _).value = _
    rw [hcount]
    rfl
  · rw [if_neg (show ¬k.countTick.value.ticks.tmod timerFreq = 0 from hsecond), if_neg hsecond]
    exact hcount

/-- What the feedback scheduler does to the order. -/
theorem Sorted.feedback (h : Sorted k) (hlists : Lists k) (hrun : k.status k.current = .running)
    (hdue : k.ticks.tmod 4 = 0 → k.readyList.Pairwise fun a b => k.duePriority b ≤ k.duePriority a) :
    Sorted k.feedback.value := by
  obtain ⟨p, r, a, heq⟩ := renewUse_renewed k.countTick.value
  obtain ⟨p', r', a', heq'⟩ := feedback_renewed k
  set k₂ := k.countTick.value.renewUse.value
  have hfeedback : k.feedback.value = k₂.renewOrder.value := rfl
  have hl : k.feedback.value.readyList = k.readyList := by rw [heq']
  by_cases hfourth : k.ticks.tmod 4 = 0
  · have hp : ∀ t ∈ k.readyList, k.feedback.value.priority t = k.duePriority t := by
      intro t ht
      have hall : t ∈ k.allList := hlists.mem_allList (by rw [hlists.status .ready t ht]; nofun)
      have horder : k₂.renewOrder = k₂.renewPrior := if_pos (by rw [heq]; exact hfourth)
      rw [hfeedback, horder, renewPrior_priority (by rw [heq]; exact hlists.allNodup),
        if_pos (by rw [heq]; exact hall), renewUse_recentCpu hlists hrun ht]
      unfold duePriority
      rw [heq]
      rfl
    unfold Sorted
    rw [hl]
    refine List.Pairwise.imp_of_mem (fun ha hb hab => ?_) (hdue hfourth)
    rw [hp _ ha, hp _ hb]
    exact hab
  · have horder : k₂.renewOrder = pure k₂ := if_neg (by rw [heq]; exact hfourth)
    refine h.congr hl fun t _ => ?_
    rw [hfeedback, horder]
    exact congrFun (renewUse_priority k.countTick.value) t

/-- **The order after a tick.** -/
theorem Sorted.renew (h : Sorted k) (hinv : Inv k) (hkeeps : k.TickKeepsOrder) : Sorted k.tick.renew.value := by
  have hlists : Lists k.tick := hinv.lists.congr rfl rfl rfl rfl rfl fun _ _ => rfl
  unfold TickKeepsOrder at hkeeps
  unfold Kernel.renew
  by_cases haging : k.aging = true
  · rw [if_pos haging] at hkeeps
    rw [if_pos (show k.tick.aging = true from haging)]
    exact Sorted.threadAging (k := k.tick) h (hlists.disjoint.nodup .ready) hkeeps
  · rw [if_neg haging] at hkeeps
    rw [if_neg (show ¬k.tick.aging = true from haging)]
    split
    · exact Sorted.feedback (k := k.tick) h hlists hinv.running (hkeeps ‹_›)
    · exact h

/-! ## Runs -/

/-- A step that keeps the lists and the order. -/
def OrderlyStep (k : Kernel) (a : Act) (k' : Kernel) : Prop := Step k a k' ∧ k.Proper a ∧ k.KeepsOrder a

theorem OrderlyStep.sorted {a : Act} (hs : OrderlyStep k a k') (hinv : Inv k) (h : Sorted k) :
    Inv k' ∧ Orderly k k' := by
  obtain ⟨hs, hproper, hkeeps⟩ := hs
  refine ⟨hinv.step hproper hs, h.step hinv hproper (fun ha => ?_) hs⟩
  subst ha
  exact h.renew hinv hkeeps

/-- **The queue is in order in every state of such a run.** -/
theorem run_sorted {mlfqs aging : Bool} {value : ℕ → ℕ} {as : List Act}
    (hrun : Trace OrderlyStep (boot mlfqs aging value) as k) :
    Inv k ∧ Sorted k ∧ k.mlfqs = mlfqs ∧ k.aging = aging := by
  refine hrun.invariant (I := fun k => Inv k ∧ Sorted k ∧ k.mlfqs = mlfqs ∧ k.aging = aging)
    (fun k _ k' hI hs => ?_) ⟨boot_inv mlfqs aging value, List.pairwise_singleton _ _, rfl, rfl⟩
  obtain ⟨hinv', hsorted'⟩ := hs.sorted hI.1 hI.2.1
  exact ⟨hinv', hsorted'.1, hs.1.modes.1.trans hI.2.2.1, hs.1.modes.2.trans hI.2.2.2⟩

/-- The first thread of the queue is one of the highest priority. -/
theorem Sorted.head (h : Sorted k) (hlists : Lists k) {ts : List ℕ} (hl : k.readyList = t :: ts) {u : ℕ}
    (hu : k.status u = .ready) (hid : k.idleThread ≠ some u) : k.priority u ≤ k.priority t := by
  have hmem := hlists.ready u hu hid
  unfold Sorted at h
  rw [hl] at h hmem
  rcases List.mem_cons.mp hmem with rfl | hmem
  · exact le_rfl
  · exact (List.pairwise_cons.mp h).1 u hmem

/-- With aging, at a tick no thread in the queue has the highest `int` as its priority. -/
def AgesInRange (k : Kernel) : Act → Prop
  | .interrupt => k.aging = true → ∀ t ∈ k.readyList, Int32Range (k.priority t + 1)
  | _ => True

theorem AgesInRange.keepsOrder {a : Act} (h : k.AgesInRange a) (hmode : k.mlfqs = false) : k.KeepsOrder a := by
  cases a with
  | interrupt =>
    show k.TickKeepsOrder
    unfold TickKeepsOrder
    split
    · exact h ‹_›
    · rw [hmode]
      nofun
  | _ => trivial

/-- A step without the feedback scheduler. -/
def AgingStep (k : Kernel) (a : Act) (k' : Kernel) : Prop := Step k a k' ∧ k.Proper a ∧ k.AgesInRange a

end Kernel

end Pintos.Threads
