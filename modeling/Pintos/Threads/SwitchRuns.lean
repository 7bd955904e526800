import Pintos.Threads.ContextSwitch

/-!
# Threads are coroutines

Whole runs of `schedule` and of what calls it, with any number of threads.

* `Leaving.schedule`: one pass through the scheduler, in whatever way the running thread gives up the processor.
* `threads_are_coroutines`: each thread goes on with the registers, the stack pointer and the return address with which it
  has left off, and a new one begins with `kernel_thread`.
-/

namespace Pintos.Threads.Switch

open StackMachine StackMachine.Reg

/-! ## `thread_schedule_tail` -/

namespace Kernel

/-- `thread_schedule_tail`, without what it does to `prev`. -/
def settled (s : Kernel) : Kernel := (s.setStatus s.current .running).processActivate

variable {s : Kernel} {L : Layout} {prev t next : ℕ} {rest : List ℕ}

@[simp] theorem settled_cpu : s.settled.cpu = s.cpu := rfl

@[simp] theorem settled_current : s.settled.current = s.current := rfl

@[simp] theorem settled_threads : s.settled.threads = s.threads := rfl

@[simp] theorem settled_readyList : s.settled.readyList = s.readyList := rfl

@[simp] theorem settled_idleThread : s.settled.idleThread = s.idleThread := rfl

@[simp] theorem settled_initialThread : s.settled.initialThread = s.initialThread := rfl

@[simp] theorem settled_failure : s.settled.failure = s.failure := rfl

theorem settled_status : s.settled.status = Function.update s.status s.current .running := rfl

theorem settled_status_of_ne (h : t ≠ s.current) : s.settled.status t = s.status t := Function.update_of_ne h ..

theorem tail_zero : s.threadScheduleTail 0 = s.settled := by simp [threadScheduleTail, settled]

/-- What becomes of the thread before: it is destroyed when it is dying, unless it is the first one. -/
theorem tail_eq (hne : prev ≠ s.current) (hpos : 0 < prev) (hthread : prev ∈ s.threads) :
    s.threadScheduleTail prev = { s.settled with
      threads := if s.status prev = .dying ∧ prev ≠ s.initialThread then s.threads.erase prev else s.threads } := by
  have hstatus : ((s.setStatus s.current .running).processActivate).status prev = s.status prev :=
    settled_status_of_ne hne
  have hinitial : ((s.setStatus s.current .running).processActivate).initialThread = s.initialThread := rfl
  simp only [threadScheduleTail, hstatus, hinitial]
  by_cases hdying : s.status prev = .dying ∧ prev ≠ s.initialThread
  · rw [if_pos ⟨hpos.ne', hdying⟩, if_pos hne, if_pos hdying]
    exact if_pos hthread
  · rw [if_neg fun h => hdying h.2, if_neg hdying]
    rfl

end Kernel

/-! ## The invariant -/

/-- What the scheduler knows of the threads, and what their stacks say. -/
structure Accounted (L : Layout) (s : Kernel) (a : Coroutines ℕ Cont) : Prop where
  running : a.running = s.current
  isThread : s.current ∈ s.threads
  aligned : ∀ t ∈ s.threads, pgsize ∣ t ∧ 0 < t
  saved : ∀ t k, a.suspended t = some k →
    t ∈ s.threads ∧ t ≠ s.current ∧ s.status t ≠ .dying ∧ s.status t ≠ .running ∧ Saved L s.cpu.mem t k
  kept : ∀ t ∈ s.threads, t = s.current ∨ (a.suspended t).isSome ∨ s.status t = .dying
  nodup : s.readyList.Nodup

/-- Between two passes through the scheduler. -/
structure Settled (L : Layout) (s : Kernel) (a : Coroutines ℕ Cont) : Prop extends Accounted L s a where
  context : Matches L s.cpu s.current a.context
  status : s.status s.current = .running
  ready : ∀ t ∈ s.readyList, (a.suspended t).isSome ∧ s.status t = .ready
  idle : ∀ t, s.idleThread = some t → t = s.current ∨ (a.suspended t).isSome

/-- The running thread is about to call `schedule`. -/
structure Leaving (L : Layout) (s : Kernel) (a : Coroutines ℕ Cont) : Prop extends Accounted L s a where
  status : s.status s.current ≠ .running
  ready : ∀ t ∈ s.readyList, (t = s.current ∨ (a.suspended t).isSome) ∧ s.status t = .ready
  idle : ∀ t, s.idleThread = some t → t = s.current ∧ s.status t ≠ .dying ∨ (a.suspended t).isSome

/-- What a pass through the scheduler is for the coroutines. -/
def Kernel.turn (ret : ℕ) (s : Kernel) : Coroutines.Move ℕ Cont :=
  match s.nextThreadToRun with
  | none => .stay
  | some (next, _) =>
    if s.current = next then .stay
    else if s.status s.current = .dying then .finish next
    else .transfer next (.resume (callContext ret s.cpu))

variable {L : Layout} {s s' : Kernel} {a a' : Coroutines ℕ Cont} {c : Cpu} {t next ret : ℕ} {rest : List ℕ}

theorem Roomy.calls (h : Roomy L s.cpu) : Calls L s.cpu s.current := ⟨current_dvd s, h.1, lt_current s⟩

/-- The thread that comes next. -/
theorem Leaving.nextThread (h : Leaving L s a) (hnext : s.nextThreadToRun = some (next, rest)) :
    (next = s.current ∧ s.status next ≠ .dying ∨ next ≠ s.current ∧ (a.suspended next).isSome) ∧ next ∉ rest ∧
      rest.Nodup ∧ ∀ t ∈ rest, t ∈ s.readyList := by
  unfold Kernel.nextThreadToRun at hnext
  have hne : ∀ t, (a.suspended t).isSome → t ≠ s.current := by
    intro t ht
    obtain ⟨k, hk⟩ := Option.isSome_iff_exists.mp ht
    exact (h.saved t k hk).2.1
  have hnodup := h.nodup
  cases hlist : s.readyList with
  | nil =>
    rw [hlist] at hnext
    obtain ⟨t, hidle, heq⟩ := Option.map_eq_some_iff.mp hnext
    cases heq
    refine ⟨?_, by simp, List.nodup_nil, by simp⟩
    rcases h.idle next hidle with hcur | hsome
    · exact .inl hcur
    · exact .inr ⟨hne _ hsome, hsome⟩
  | cons t ts =>
    rw [hlist] at hnext hnodup
    cases hnext
    obtain ⟨hmem, hrest⟩ := List.nodup_cons.mp hnodup
    refine ⟨?_, hmem, hrest, fun t ht => List.mem_cons_of_mem _ ht⟩
    obtain ⟨hcur | hsome, hready⟩ := h.ready next (by simp [hlist])
    · exact .inl ⟨hcur, by simp [hready]⟩
    · exact .inr ⟨hne _ hsome, hsome⟩

/-! ## One pass through the scheduler -/

/-- The processor when the thread `next` goes on after `cur`. -/
structure Switched (L : Layout) (cur next ret : ℕ) (c c' : Cpu) (k : Cont) : Prop where
  running : runningThread c' = next
  goesOn : Matches L c' next k
  saved : Saved L c'.mem cur (.resume (callContext ret c))
  others : ∀ u k, pgsize ∣ u → u ≠ cur → u ≠ next → Saved L c.mem u k → Saved L c'.mem u k

@[simp] theorem withCpu_withCpu {c c' : Cpu} : (s.withCpu c).withCpu c' = s.withCpu c' := rfl

/-- `thread_schedule_tail` asks the stack pointer for the page only. -/
theorem tail_withCpu {c' : Cpu} (h : runningThread c' = s.current) (prev : ℕ) :
    (s.withCpu c').threadScheduleTail prev = (s.threadScheduleTail prev).withCpu c' := by
  have hcur : (s.withCpu c').current = s.current := h
  have hsettled : ((s.withCpu c').setStatus s.current .running).processActivate =
      ((s.setStatus s.current .running).processActivate).withCpu c' := by
    simp only [Kernel.processActivate, Kernel.pagedirActivate, Kernel.tssUpdate, Kernel.current, Kernel.withCpu,
      Kernel.setStatus, h]
  unfold Kernel.threadScheduleTail
  simp only [hcur, hsettled]
  generalize (s.setStatus s.current .running).processActivate = s₁
  by_cases hdying : prev ≠ 0 ∧ s₁.status prev = .dying ∧ prev ≠ s₁.initialThread
  · rw [if_pos hdying]
    refine (if_pos hdying).trans ?_
    by_cases hmem : prev ∈ s₁.threads
    · simp only [Kernel.freeThread, if_pos hmem]
      rw [if_pos (show prev ∈ (s₁.withCpu c').threads from hmem)]
      split <;> rfl
    · simp only [Kernel.freeThread, if_neg hmem]
      rw [if_neg (show prev ∉ (s₁.withCpu c').threads from hmem)]
      split <;> rfl
  · rw [if_neg hdying]
    exact if_neg hdying

@[simp] theorem withCpu_cpu {c : Cpu} : (s.withCpu c).cpu = c := rfl

theorem tail_cpu (s : Kernel) (prev : ℕ) : (s.threadScheduleTail prev).cpu = s.cpu := by
  unfold Kernel.threadScheduleTail Kernel.freeThread
  simp only
  split_ifs <;> rfl

theorem switched_resume (h : c.eip ≠ L.switchEntry) :
    (s.withCpu c).switched L = (s.withCpu c).threadScheduleTail (c.reg eax) := if_neg h

theorem switched_start (h : c.eip = L.switchEntry)
    (hpage : runningThread ((callTail L c).run returnTail) = runningThread (callTail L c)) :
    (s.withCpu c).switched L = (s.withCpu ((callTail L c).run returnTail)).threadScheduleTail
      ((callTail L c).mem ((callTail L c).reg esp + 4)) := by
  refine (if_pos h).trans ?_
  simp only [withCpu_cpu, withCpu_withCpu, tail_cpu]
  exact (tail_withCpu (s := s.withCpu (callTail L c)) hpage _).symm

/-- `schedule`, when it takes another thread, up to `thread_schedule_tail`. -/
theorem schedule_switches (hcalls : Calls L s.cpu s.current) (hret : ret ≠ L.switchEntry)
    (hnext : s.nextThreadToRun = some (next, rest)) (hne : next ≠ s.current) (hpage : pgsize ∣ next) {k : Cont}
    (hsaved : Saved L s.cpu.mem next k) :
    ∃ c', Switched L s.current next ret s.cpu c' k ∧
      s.schedule L ret = (({ s with readyList := rest } : Kernel).withCpu c').threadScheduleTail s.current := by
  have hself := hcalls.saved next hret
  have hothers : ∀ u k, pgsize ∣ u → u ≠ s.current → Saved L s.cpu.mem u k →
      Saved L (callSwitchThreads L s.current next ret s.cpu).mem u k :=
    fun u k hu hne hk => hcalls.others next ret hk hu hne
  have hschedule : s.schedule L ret = (({ s with readyList := rest } : Kernel).withCpu
      (callSwitchThreads L s.current next ret s.cpu)).switched L := by
    rw [Kernel.schedule, hnext]
    exact if_pos hne.symm
  rw [hschedule]
  cases k with
  | resume k =>
    obtain ⟨hcontext, heax, hentry, hlow, hhigh⟩ := hcalls.resume ret hsaved hpage hne
    have heip : (callSwitchThreads L s.current next ret s.cpu).eip = k.eip := congrArg Context.eip hcontext
    have hesp : (callSwitchThreads L s.current next ret s.cpu).reg esp = k.esp := congrArg Context.esp hcontext
    refine ⟨_, ⟨runningThread_eq hpage (hesp ▸ hlow) (hesp ▸ hhigh), hcontext, hself, fun u k hu hne _ => hothers u k hu hne⟩,
      ?_⟩
    rw [switched_resume (by rw [heip]; exact hentry), heax]
  | start function aux =>
    obtain ⟨heip, heax, hebp, hesp⟩ := hcalls.start ret hsaved hpage hne
    have hstart := start_matches hesp hebp (hothers next _ hpage hne hsaved)
    generalize callSwitchThreads L s.current next ret s.cpu = c₁ at *
    have hsize : pgsize = 4096 := rfl
    obtain ⟨hesp', _⟩ := callTail_reg (L := L) hesp
    obtain ⟨hmem, hend, _⟩ := returnTail_eq hesp'
    have htail : runningThread (callTail L c₁) = next := runningThread_eq hpage (by omega) (by omega)
    have hreturn : runningThread ((callTail L c₁).run returnTail) = next := runningThread_eq hpage (by omega) (by omega)
    have hkept : ∀ u k, pgsize ∣ u → u ≠ next → Saved L c₁.mem u k → Saved L ((callTail L c₁).run returnTail).mem u k := by
      intro u k hu hun hk
      rw [hmem, callTail_mem hesp]
      refine hk.of_page hu hpage hun fun a ha => ?_
      by_contra hout
      rw [Function.update_of_ne (by omega), Function.update_of_ne (by omega)] at ha
      exact ha rfl
    refine ⟨_, ⟨hreturn, hstart, hkept _ _ (current_dvd s) hne.symm hself,
      fun u k hu hcur hnext hk => hkept u k hu hnext (hothers u k hu hcur hk)⟩, ?_⟩
    have hargument : (callTail L c₁).mem ((callTail L c₁).reg esp + 4) = s.current := by
      rw [hesp', callTail_mem hesp, Function.update_of_ne (by omega), Function.update_self, heax]
    rw [switched_start heip (hreturn.trans htail.symm), hargument]

/-- Nobody else is to run. -/
theorem Leaving.stays (h : Leaving L s a) (hnext : s.nextThreadToRun = some (s.current, rest)) :
    s.schedule L ret = ({ s with readyList := rest } : Kernel).settled ∧
      (Matches L s.cpu s.current a.context → Settled L (s.schedule L ret) a) := by
  obtain ⟨_, hout, hnodup, hrest⟩ := h.nextThread hnext
  have heq : s.schedule L ret = ({ s with readyList := rest } : Kernel).settled := by
    rw [Kernel.schedule, hnext]
    exact (if_neg fun hne => hne rfl).trans Kernel.tail_zero
  refine ⟨heq, fun hcontext => ?_⟩
  rw [heq]
  have hstatus : ∀ t, t ≠ s.current → ({ s with readyList := rest } : Kernel).settled.status t = s.status t :=
    fun t ht => Kernel.settled_status_of_ne ht
  refine ⟨⟨h.running, h.isThread, h.aligned, fun t k hk => ?_, fun t ht => ?_, hnodup⟩, hcontext, ?_, fun t ht => ?_,
    fun t ht => ?_⟩
  · obtain ⟨hthread, hcur, hdying, hrunning, hsaved⟩ := h.saved t k hk
    exact ⟨hthread, hcur, by rwa [hstatus t hcur], by rwa [hstatus t hcur], hsaved⟩
  · by_cases hcur : t = s.current
    · exact .inl hcur
    · rw [hstatus t hcur]
      exact h.kept t ht
  · rw [Kernel.settled_current, Kernel.settled_status, Function.update_self]
  · have hcur : t ≠ s.current := fun heq => hout (heq ▸ ht)
    obtain ⟨hor, hready⟩ := h.ready t (hrest t ht)
    exact ⟨hor.resolve_left hcur, by rw [hstatus t hcur, hready]⟩
  · exact (h.idle t ht).imp And.left id

/-- The state when `next` goes on. -/
def arrived (s : Kernel) (rest : List ℕ) (c : Cpu) : Kernel :=
  { (({ s with readyList := rest } : Kernel).withCpu c).settled with
    threads := if s.status s.current = .dying ∧ s.current ≠ s.initialThread then s.threads.erase s.current else s.threads }

theorem arrived_status (hcur : runningThread c = next) :
    (arrived s rest c).status = Function.update s.status next .running := by
  subst hcur
  rfl

theorem mem_arrived (ht : t ∈ s.threads) (h : t = s.current → s.status t ≠ .dying) :
    t ∈ (arrived s rest c).threads := by
  by_cases hdying : s.status s.current = .dying ∧ s.current ≠ s.initialThread
  · rw [arrived, if_pos hdying]
    refine Finset.mem_erase.mpr ⟨?_, ht⟩
    rintro rfl
    exact h rfl hdying.1
  · rw [arrived, if_neg hdying]
    exact ht

theorem of_mem_arrived (ht : t ∈ (arrived s rest c).threads) : t ∈ s.threads := by
  unfold arrived at ht
  simp only at ht
  split at ht
  · exact Finset.mem_of_mem_erase ht
  · exact ht

/-- The contexts of the others are where they were. -/
structure Handover (s : Kernel) (a : Coroutines ℕ Cont) (next ret : ℕ) (f : ℕ → Option Cont) : Prop where
  resumed : f next = none
  others : ∀ t, t ≠ next → t ≠ s.current → f t = a.suspended t
  current : f s.current = if s.status s.current = .dying then none else some (.resume (callContext ret s.cpu))

theorem Leaving.arrived (h : Leaving L s a) (hnext : s.nextThreadToRun = some (next, rest)) (hne : next ≠ s.current)
    {k : Cont} (hk : a.suspended next = some k) (hswitched : Switched L s.current next ret s.cpu c k)
    {f : ℕ → Option Cont} (hf : Handover s a next ret f) : Settled L (arrived s rest c) ⟨next, k, f⟩ := by
  obtain ⟨hrunning, hgoesOn, hself, hothers⟩ := hswitched
  obtain ⟨_, hout, hnodup, hrest⟩ := h.nextThread hnext
  obtain ⟨hthread, _⟩ := h.saved next k hk
  have hcurrent : (Switch.arrived s rest c).current = next := hrunning
  have hstatus : ∀ t, t ≠ next → (Switch.arrived s rest c).status t = s.status t := by
    intro t ht
    rw [arrived_status hrunning, Function.update_of_ne ht]
  refine ⟨⟨hcurrent.symm, ?_, fun t ht => h.aligned t (of_mem_arrived ht), fun t k' hk' => ?_, fun t ht => ?_, hnodup⟩,
    ?_, ?_, fun t ht => ?_, fun t ht => ?_⟩
  · rw [hcurrent]
    exact mem_arrived hthread fun heq => absurd heq hne
  · change f t = some k' at hk'
    have htn : t ≠ next := by
      rintro rfl
      rw [hf.resumed] at hk'
      cases hk'
    rw [hcurrent, hstatus t htn]
    by_cases hcur : t = s.current
    · subst hcur
      by_cases hdying : s.status s.current = .dying
      · rw [hf.current, if_pos hdying] at hk'
        cases hk'
      · rw [hf.current, if_neg hdying] at hk'
        cases hk'
        exact ⟨mem_arrived h.isThread fun _ => hdying, htn, hdying, h.status, hself⟩
    · rw [hf.others t htn hcur] at hk'
      obtain ⟨ht, _, hdying, hrun, hsaved⟩ := h.saved t k' hk'
      exact ⟨mem_arrived ht fun heq => absurd heq hcur, htn, hdying, hrun,
        hothers t k' (h.aligned t ht).1 hcur htn hsaved⟩
  · rw [hcurrent]
    by_cases htn : t = next
    · exact .inl htn
    · rw [hstatus t htn]
      by_cases hcur : t = s.current
      · subst hcur
        by_cases hdying : s.status s.current = .dying
        · exact .inr (.inr hdying)
        · exact .inr (.inl (by simp [hf.current, hdying]))
      · rcases h.kept t (of_mem_arrived ht) with heq | hsome | hdying
        · exact absurd heq hcur
        · exact .inr (.inl (by simpa [hf.others t htn hcur] using hsome))
        · exact .inr (.inr hdying)
  · rw [hcurrent]
    exact hgoesOn
  · rw [hcurrent, arrived_status hrunning, Function.update_self]
  · have htn : t ≠ next := fun heq => hout (heq ▸ ht)
    obtain ⟨hor, hready⟩ := h.ready t (hrest t ht)
    refine ⟨?_, by rw [hstatus t htn, hready]⟩
    by_cases hcur : t = s.current
    · subst hcur
      simp [hf.current, hready]
    · simpa [hf.others t htn hcur] using hor.resolve_left hcur
  · rw [hcurrent]
    by_cases htn : t = next
    · exact .inl htn
    · right
      rcases h.idle t ht with ⟨hcur, hdying⟩ | hsome
      · subst hcur
        simp [hf.current, hdying]
      · have hcur : t ≠ s.current := by
          rintro rfl
          obtain ⟨k', hk'⟩ := Option.isSome_iff_exists.mp hsome
          exact (h.saved _ k' hk').2.1 rfl
        simpa [hf.others t htn hcur] using hsome

/-- Somebody else goes on. -/
theorem Leaving.switches (h : Leaving L s a) (hroom : Roomy L s.cpu) (hret : ret ≠ L.switchEntry)
    (hnext : s.nextThreadToRun = some (next, rest)) (hne : next ≠ s.current) :
    ∃ a' c', Coroutines.Step a (s.turn ret) a' ∧ Settled L (s.schedule L ret) a' ∧
      s.schedule L ret = Switch.arrived s rest c' := by
  obtain ⟨hor, _⟩ := h.nextThread hnext
  have hsome : (a.suspended next).isSome := (hor.resolve_left fun heq => hne heq.1).2
  obtain ⟨k, hk⟩ := Option.isSome_iff_exists.mp hsome
  obtain ⟨hthread, _, hdying, hrunning, hsaved⟩ := h.saved next k hk
  obtain ⟨c', hswitched, hschedule⟩ := schedule_switches hroom.calls hret hnext hne (h.aligned next hthread).1 hsaved
  have hcurrent : (({ s with readyList := rest } : Kernel).withCpu c').current = next := hswitched.running
  have harrived : s.schedule L ret = Switch.arrived s rest c' := by
    rw [hschedule]
    exact Kernel.tail_eq (s := ({ s with readyList := rest } : Kernel).withCpu c') (by rw [hcurrent]; exact hne.symm)
      (h.aligned _ h.isThread).2 h.isThread
  have hself : a.suspended s.current = none := by
    by_contra hsome
    obtain ⟨k', hk'⟩ := Option.ne_none_iff_exists'.mp hsome
    exact (h.saved _ k' hk').2.1 rfl
  by_cases hdead : s.status s.current = .dying
  · refine ⟨⟨next, k, Function.update a.suspended next none⟩, c', ?_, ?_, harrived⟩
    · rw [Kernel.turn, hnext]
      simp only [if_neg hne.symm, if_pos hdead]
      exact Coroutines.resume_eq hk
    · rw [harrived]
      refine h.arrived hnext hne hk hswitched ⟨Function.update_self .., fun t ht _ => Function.update_of_ne ht .., ?_⟩
      rw [if_pos hdead, Function.update_of_ne hne.symm, hself]
  · refine ⟨⟨next, k, Function.update (Function.update a.suspended next none) s.current
      (some (.resume (callContext ret s.cpu)))⟩, c', ?_, ?_, harrived⟩
    · rw [Kernel.turn, hnext]
      simp only [if_neg hne.symm, if_neg hdead]
      rw [Coroutines.Step, Coroutines.step, Coroutines.resume_eq hk, ← h.running]
      rfl
    · rw [harrived]
      refine h.arrived hnext hne hk hswitched ⟨?_, fun t ht hcur => ?_, ?_⟩
      · rw [Function.update_of_ne hne, Function.update_self]
      · rw [Function.update_of_ne hcur, Function.update_of_ne ht]
      · rw [if_neg hdead, Function.update_self]

/-! ## One step -/

/-- What a step is for the coroutines. -/
def Kernel.move (s : Kernel) : Event → Coroutines.Move ℕ Cont
  | .work c => .work (.resume (contextOf c))
  | .create t function aux _ => .spawn t (.start function aux)
  | .block ret => (s.setStatus s.current .blocked).turn ret
  | .yield ret i => (s.readyCurrent i).turn ret
  | .exit ret => (s.setStatus s.current .dying).turn ret
  | _ => .stay

theorem Settled.ne_current {k : Cont} (h : Settled L s a) (hk : a.suspended t = some k) : t ≠ s.current :=
  (h.saved t k hk).2.1

/-- The running thread changes its status, and may be in the run queue. -/
theorem Settled.leave (h : Settled L s a) {st : Status} (hst : st ≠ .running) {l : List ℕ} (hnodup : l.Nodup)
    (hl : ∀ t ∈ l, t = s.current ∧ st = .ready ∨ t ∈ s.readyList)
    (hidle : st = .dying → s.idleThread ≠ some s.current) :
    Leaving L (({ s with readyList := l } : Kernel).setStatus s.current st) a := by
  have hstatus : ∀ t, t ≠ s.current → Function.update s.status s.current st t = s.status t :=
    fun t ht => Function.update_of_ne ht ..
  have hself : Function.update s.status s.current st s.current = st := Function.update_self ..
  refine ⟨⟨h.running, h.isThread, h.aligned, fun t k hk => ?_, fun t ht => ?_, hnodup⟩, ?_, fun t ht => ?_, fun t ht => ?_⟩
  · obtain ⟨hthread, hcur, hdying, hrunning, hsaved⟩ := h.saved t k hk
    refine ⟨hthread, hcur, ?_, ?_, hsaved⟩
    · exact fun heq => hdying ((hstatus t hcur).symm.trans heq)
    · exact fun heq => hrunning ((hstatus t hcur).symm.trans heq)
  · by_cases hcur : t = s.current
    · exact .inl hcur
    · rcases h.kept t ht with heq | hsome | hdying
      · exact .inl heq
      · exact .inr (.inl hsome)
      · exact .inr (.inr ((hstatus t hcur).trans hdying))
  · exact fun heq => hst (hself.symm.trans heq)
  · rcases hl t ht with ⟨rfl, rfl⟩ | hmem
    · exact ⟨.inl rfl, hself⟩
    · obtain ⟨hsome, hready⟩ := h.ready t hmem
      obtain ⟨k, hk⟩ := Option.isSome_iff_exists.mp hsome
      exact ⟨.inr hsome, (hstatus t (h.ne_current hk)).trans hready⟩
  · rcases h.idle t ht with rfl | hsome
    · refine .inl ⟨rfl, ?_⟩
      show Function.update s.status s.current st s.current ≠ .dying
      rw [hself]
      exact fun hdying => hidle hdying ht
    · exact .inr hsome

theorem Settled.current_notMem (h : Settled L s a) : s.current ∉ s.readyList := by
  intro hmem
  obtain ⟨hsome, _⟩ := h.ready _ hmem
  obtain ⟨k, hk⟩ := Option.isSome_iff_exists.mp hsome
  exact h.ne_current hk rfl

theorem mem_insert {i : ℕ} {l : List ℕ} {u : ℕ} : u ∈ l.take i ++ t :: l.drop i ↔ u = t ∨ u ∈ l := by
  have hsplit : u ∈ l ↔ u ∈ l.take i ∨ u ∈ l.drop i := by rw [← List.mem_append, List.take_append_drop]
  rw [hsplit, List.mem_append, List.mem_cons]
  tauto

theorem nodup_insert {i : ℕ} {l : List ℕ} (h : l.Nodup) (ht : t ∉ l) : (l.take i ++ t :: l.drop i).Nodup := by
  rw [List.nodup_middle, List.take_append_drop]
  exact List.nodup_cons.mpr ⟨ht, h⟩

theorem Settled.block (h : Settled L s a) : Leaving L (s.setStatus s.current .blocked) a :=
  h.leave (by decide) h.nodup (fun _ => .inr) (by simp)

theorem Settled.exit (h : Settled L s a) (hidle : s.idleThread ≠ some s.current) :
    Leaving L (s.setStatus s.current .dying) a :=
  h.leave (by decide) h.nodup (fun _ => .inr) fun _ => hidle

theorem Settled.yield (h : Settled L s a) (i : ℕ) : Leaving L (s.readyCurrent i) a := by
  unfold Kernel.readyCurrent
  split
  · exact h.leave (by decide) (nodup_insert h.nodup h.current_notMem)
      (fun t ht => (mem_insert.mp ht).imp (fun heq => ⟨heq, rfl⟩) id) (by simp)
  · exact h.leave (by decide) h.nodup (fun _ => .inr) (by simp)

/-- A thread that is woken, or new. -/
theorem Settled.ready_insert (h : Settled L s a) {k : Cont} (hk : a.suspended t = some k) (hblocked : s.status t = .blocked)
    (i : ℕ) : Settled L ((s.insertReady t i).setStatus t .ready) a := by
  have htc := h.ne_current hk
  have hstatus : ∀ u, u ≠ t → Function.update s.status t .ready u = s.status u :=
    fun u hu => Function.update_of_ne hu ..
  have hself : Function.update s.status t .ready t = .ready := Function.update_self ..
  have hout : t ∉ s.readyList := by
    intro hmem
    rw [(h.ready t hmem).2] at hblocked
    cases hblocked
  refine ⟨⟨h.running, h.isThread, h.aligned, fun u k' hk' => ?_, fun u hu => ?_, nodup_insert h.nodup hout⟩, h.context,
    (hstatus _ htc.symm).trans h.status, fun u hu => ?_, h.idle⟩
  · obtain ⟨hthread, hcur, hdying, hrunning, hsaved⟩ := h.saved u k' hk'
    refine ⟨hthread, hcur, ?_, ?_, hsaved⟩
    all_goals
      show Function.update s.status t .ready u ≠ _
      by_cases hut : u = t
      · rw [hut, hself]
        decide
      · rw [hstatus u hut]
        assumption
  · by_cases hut : u = t
    · exact .inr (.inl (by rw [hut, hk]; rfl))
    · rcases h.kept u hu with heq | hsome | hdying
      · exact .inl heq
      · exact .inr (.inl hsome)
      · exact .inr (.inr ((hstatus u hut).trans hdying))
  · show (a.suspended u).isSome ∧ Function.update s.status t .ready u = .ready
    rcases mem_insert.mp hu with rfl | hmem
    · exact ⟨by rw [hk]; rfl, hself⟩
    · by_cases hut : u = t
      · exact ⟨by rw [hut, hk]; rfl, by rw [hut, hself]⟩
      · rw [hstatus u hut]
        exact h.ready u hmem

/-! ## A new thread -/

theorem newPage_saved (L : Layout) (t function aux : ℕ) (mem : ℕ → ℕ) :
    Saved L (newPage L t function aux mem) t (.start function aux) := by
  have hsmall : L.threadStackOfs ≤ 4048 := Nat.le_of_add_le_add_right L.small
  have hkf : t + pgsize - 12 = t + 4084 := rfl
  have hef : t + 4084 - 4 = t + 4080 := rfl
  have hsf : t + 4080 - 28 = t + 4052 := rfl
  have hne : ∀ j, 4052 ≤ j → t + j ≠ t + L.threadStackOfs := fun j hj => by omega
  simp only [newPage, hkf, hef, hsf]
  refine ⟨Function.update_self .., ?_, ?_, ?_, ?_, ?_, ?_⟩
  all_goals
    rw [Function.update_of_ne (hne _ (by decide))]
    simp [Nat.add_assoc]

theorem newPage_of_ne {function aux : ℕ} {mem : ℕ → ℕ} (hpage : pgsize ∣ t) {b : ℕ}
    (hb : newPage L t function aux mem b ≠ mem b) : t ≤ b ∧ b < t + pgsize := by
  have hsmall : L.threadStackOfs ≤ 4048 := Nat.le_of_add_le_add_right L.small
  have hsize : pgsize = 4096 := rfl
  by_contra hout
  apply hb
  have hkf : t + pgsize - 12 = t + 4084 := rfl
  have hef : t + 4084 - 4 = t + 4080 := rfl
  have hsf : t + 4080 - 28 = t + 4052 := rfl
  have hother : ¬b / pgsize * pgsize = t := by
    rintro rfl
    exact hout ⟨Nat.div_mul_le_self _ _, Nat.lt_div_mul_add (by decide)⟩
  simp only [newPage, hkf, hef, hsf, Function.update_apply, if_neg hother]
  repeat rw [if_neg (by omega)]

theorem newThread_current {function aux : ℕ} : (s.newThread L t function aux).current = s.current :=
  runningThread_eq (current_dvd s) (current_le s) (lt_current s)

theorem Settled.newThread (h : Settled L s a) (hfree : s.Free t) (function aux : ℕ) :
    Settled L (s.newThread L t function aux)
      { a with suspended := Function.update a.suspended t (some (.start function aux)) } := by
  obtain ⟨hpage, hpos, hfresh, _⟩ := hfree
  have hcurrent : (s.newThread L t function aux).current = s.current := newThread_current
  have htc : t ≠ s.current := fun heq => hfresh (heq ▸ h.isThread)
  have hstatus : ∀ u, u ≠ t → (s.newThread L t function aux).status u = s.status u :=
    fun u hu => Function.update_of_ne hu ..
  have hself : (s.newThread L t function aux).status t = .blocked := Function.update_self ..
  have hsuspended : ∀ u, u ≠ t → Function.update a.suspended t (some (.start function aux)) u = a.suspended u :=
    fun u hu => Function.update_of_ne hu ..
  have hold : ∀ u, (a.suspended u).isSome → u ≠ t := by
    rintro u hsome rfl
    obtain ⟨k, hk⟩ := Option.isSome_iff_exists.mp hsome
    exact hfresh (h.saved u k hk).1
  have hwords : ∀ u k, pgsize ∣ u → u ≠ t → Saved L s.cpu.mem u k → Saved L (s.newThread L t function aux).cpu.mem u k :=
    fun u k hu hne hk => hk.of_page hu hpage hne fun _ hb => newPage_of_ne hpage hb
  refine ⟨⟨h.running.trans hcurrent.symm, ?_, fun u hu => ?_, fun u k hk => ?_, fun u hu => ?_, h.nodup⟩, ?_, ?_,
    fun u hu => ?_, fun u hu => ?_⟩
  · rw [hcurrent]
    exact Finset.mem_insert_of_mem h.isThread
  · rcases Finset.mem_insert.mp hu with rfl | hu
    · exact ⟨hpage, hpos⟩
    · exact h.aligned u hu
  · rw [hcurrent]
    by_cases hut : u = t
    · subst hut
      change Function.update a.suspended u (some (.start function aux)) u = some k at hk
      rw [Function.update_self] at hk
      cases hk
      rw [hself]
      exact ⟨Finset.mem_insert_self .., htc, by decide, by decide, newPage_saved ..⟩
    · rw [hstatus u hut]
      obtain ⟨hu, hcur, hdying, hrunning, hsaved⟩ := h.saved u k ((hsuspended u hut).symm.trans hk)
      exact ⟨Finset.mem_insert_of_mem hu, hcur, hdying, hrunning, hwords u k (h.aligned u hu).1 hut hsaved⟩
  · rw [hcurrent]
    show _ ∨ (Function.update a.suspended t (some (.start function aux)) u).isSome ∨ _
    by_cases hut : u = t
    · subst hut
      simp
    · rw [hstatus u hut, hsuspended u hut]
      exact h.kept u ((Finset.mem_insert.mp hu).resolve_left hut)
  · rw [hcurrent]
    have hcontext := h.context
    show Matches L _ _ a.context
    cases hk : a.context with
    | resume k =>
      rw [hk] at hcontext
      exact hcontext
    | start f x =>
      rw [hk] at hcontext
      obtain ⟨heip, hebp, hesp, hwords⟩ := hcontext
      have hkept : ∀ j, 4084 ≤ j → j < 4096 → (s.newThread L t function aux).cpu.mem (s.current + j) =
          s.cpu.mem (s.current + j) := by
        intro j hlow hhigh
        by_contra hchanged
        exact page_disjoint (current_dvd s) hpage htc.symm ⟨by omega, Nat.add_lt_add_left hhigh _⟩
          (newPage_of_ne hpage hchanged) rfl
      refine ⟨heip, hebp, hesp, ?_⟩
      rw [hkept 4084 (by decide) (by decide), hkept 4088 (by decide) (by decide), hkept 4092 (by decide) (by decide)]
      exact hwords
  · rw [hcurrent, hstatus _ htc.symm]
    exact h.status
  · obtain ⟨hsome, hready⟩ := h.ready u hu
    show (Function.update a.suspended t _ u).isSome ∧ _
    rw [hsuspended u (hold u hsome), hstatus u (hold u hsome)]
    exact ⟨hsome, hready⟩
  · rw [hcurrent]
    show _ ∨ (Function.update a.suspended t _ u).isSome
    refine (h.idle u hu).imp_right fun hsome => ?_
    rw [hsuspended u (hold u hsome)]
    exact hsome

/-! ## Runs -/

/-- Nothing has failed yet; `m` is what the step is for the coroutines. -/
def Kernel.Step (L : Layout) (s : Kernel) (l : Event × Coroutines.Move ℕ Cont) (s' : Kernel) : Prop :=
  s.failure = none ∧ Switch.Step L s l.1 s' ∧ l.2 = s.move l.1

/-- What a step does, unless something fails. -/
def Follows (L : Layout) (a : Coroutines ℕ Cont) (m : Coroutines.Move ℕ Cont) (s' : Kernel) : Prop :=
  ∃ a', Coroutines.Step a m a' ∧ (s'.failure = none → Settled L s' a')

theorem Leaving.schedule (h : Leaving L s a) (hcontext : Matches L s.cpu s.current a.context) (hroom : Roomy L s.cpu)
    (hret : ret ≠ L.switchEntry) : Follows L a (s.turn ret) (s.schedule L ret) := by
  cases hnext : s.nextThreadToRun with
  | none =>
    refine ⟨a, by rw [Kernel.turn, hnext]; rfl, fun hf => ?_⟩
    rw [Kernel.schedule, hnext] at hf
    cases hf
  | some p =>
    obtain ⟨next, rest⟩ := p
    by_cases hne : next = s.current
    · subst hne
      refine ⟨a, ?_, fun _ => (h.stays hnext).2 hcontext⟩
      rw [Kernel.turn, hnext]
      simp only [if_pos]
      rfl
    · obtain ⟨a', _, hstep, hsettled, _⟩ := h.switches hroom hret hnext hne
      exact ⟨a', hstep, fun _ => hsettled⟩

theorem Settled.threadUnblock (h : Settled L s a) (t i : ℕ) (hf : (s.threadUnblock t i).failure = none) :
    Settled L (s.threadUnblock t i) a := by
  unfold Kernel.threadUnblock at hf ⊢
  split
  · next hout =>
    rw [if_pos hout] at hf
    cases hf
  · next hthread =>
    rw [if_neg hthread] at hf
    split
    · next hblocked =>
      rw [if_pos hblocked] at hf
      cases hf
    · next hblocked =>
      rw [not_not] at hthread hblocked
      have hne : t ≠ s.current := by
        rintro rfl
        rw [h.status] at hblocked
        cases hblocked
      rcases h.kept t hthread with heq | hsome | hdying
      · exact absurd heq hne
      · obtain ⟨k, hk⟩ := Option.isSome_iff_exists.mp hsome
        exact h.ready_insert hk hblocked i
      · rw [hblocked] at hdying
        cases hdying

/-- The parts of the state that only address spaces have. -/
theorem Settled.of_eq (h : Settled L s a) (hcpu : s'.cpu = s.cpu) (hstatus : s'.status = s.status)
    (hready : s'.readyList = s.readyList) (hidle : s'.idleThread = s.idleThread) (hthreads : s'.threads = s.threads) :
    Settled L s' a := by
  have hcurrent : s'.current = s.current := congrArg runningThread hcpu
  obtain ⟨⟨hrunning, hthread, haligned, hsaved, hkept, hnodup⟩, hcontext, hst, hlist, hidl⟩ := h
  refine ⟨⟨?_, ?_, ?_, ?_, ?_, ?_⟩, ?_, ?_, ?_, ?_⟩
  all_goals simp only [hcurrent, hcpu, hstatus, hready, hidle, hthreads]
  all_goals assumption

/-- **One step of the threads is a move of the coroutines.** -/
theorem Settled.step {e : Event} (h : Settled L s a) (hs : Step L s e s') : Follows L a (s.move e) s' := by
  cases hs with
  | work c hstack hspares =>
    refine ⟨{ a with context := .resume (contextOf c) }, rfl, fun _ => ?_⟩
    have hcurrent : (s.withCpu c).current = s.current := hstack
    refine ⟨⟨h.running.trans hcurrent.symm, ?_, h.aligned, fun t k hk => ?_, ?_, h.nodup⟩, rfl, ?_, h.ready, ?_⟩
    · rw [hcurrent]
      exact h.isThread
    · obtain ⟨hthread, hcur, hdying, hrunning, hsaved⟩ := h.saved t k hk
      rw [hcurrent]
      exact ⟨hthread, hcur, hdying, hrunning, hsaved.congr fun a ha => hspares t hthread hcur a ha⟩
    · rw [hcurrent]
      exact h.kept
    · rw [hcurrent]
      exact h.status
    · rw [hcurrent]
      exact h.idle
  | create t function aux i hfree =>
    have hnew := h.newThread hfree function aux
    refine ⟨_, ?_, fun hf => hnew.threadUnblock t i hf⟩
    have htc : t ≠ a.running := fun heq => hfree.2.2.1 (by rw [heq, h.running]; exact h.isThread)
    have hnone : a.suspended t = none := by
      by_contra hsome
      obtain ⟨k, hk⟩ := Option.ne_none_iff_exists'.mp hsome
      exact hfree.2.2.1 (h.saved t k hk).1
    exact if_pos ⟨htc, by simp [hnone]⟩
  | unblock t i => exact ⟨a, rfl, h.threadUnblock t i⟩
  | block ret hroom hret => exact h.block.schedule h.context hroom hret
  | yield ret i hroom hret =>
    have hcpu : (s.readyCurrent i).cpu = s.cpu := by
      unfold Kernel.readyCurrent
      split <;> rfl
    have hcurrent : (s.readyCurrent i).current = s.current := congrArg runningThread hcpu
    refine (h.yield i).schedule ?_ ?_ hret
    · rw [hcpu, hcurrent]
      exact h.context
    · rw [hcpu]
      exact hroom
  | exit ret hroom hret hidle hstage hpd => exact (h.exit hidle).schedule h.context hroom hret
  | idle hnone =>
    refine ⟨a, rfl, fun _ => ⟨⟨h.running, h.isThread, h.aligned, h.saved, h.kept, h.nodup⟩, h.context, h.status, h.ready,
      fun t ht => .inl (Option.some.inj ht).symm⟩⟩
  | createPagedir pd hfree hstage hpd => exact ⟨a, rfl, fun _ => h.of_eq rfl rfl rfl rfl rfl⟩
  | activate hstage => exact ⟨a, rfl, fun _ => h.of_eq rfl rfl rfl rfl rfl⟩
  | dropPagedir pd hstage hpd => exact ⟨a, rfl, fun _ => h.of_eq rfl rfl rfl rfl rfl⟩
  | activateBase pd hstage => exact ⟨a, rfl, fun _ => h.of_eq rfl rfl rfl rfl rfl⟩
  | destroyPagedir pd hstage =>
    refine ⟨a, rfl, fun _ => ?_⟩
    unfold Kernel.destroyPagedir
    split_ifs
    · exact h.of_eq rfl rfl rfl rfl rfl
    · exact h.of_eq rfl rfl rfl rfl rfl
    · exact h.of_eq rfl rfl rfl rfl rfl

/-- After `thread_init`, `paging_init` and `tss_init`: the thread of the stack pointer is the only one. -/
def booted (c : Cpu) (initPageDir : ℕ) : Kernel where
  cpu := c
  status := fun _ => .running
  readyList := []
  idleThread := none
  initialThread := runningThread c
  threads := {runningThread c}
  pagedir := fun _ => none
  stage := fun _ => .outside
  dirs := ∅
  initPageDir := initPageDir
  cr3 := initPageDir
  esp0 := runningThread c + pgsize
  failure := none

/-- The thread that runs alone. -/
def alone (c : Cpu) : Coroutines ℕ Cont := ⟨runningThread c, .resume (contextOf c), fun _ => none⟩

theorem booted_settled (L : Layout) {c : Cpu} (hpos : 0 < runningThread c) (initPageDir : ℕ) :
    Settled L (booted c initPageDir) (alone c) where
  running := rfl
  isThread := Finset.mem_singleton_self _
  aligned t ht := by
    rw [Finset.mem_singleton.mp ht]
    exact ⟨current_dvd (booted c initPageDir), hpos⟩
  saved t k hk := by cases hk
  kept t ht := .inl (Finset.mem_singleton.mp ht)
  nodup := List.nodup_nil
  context := rfl
  status := rfl
  ready t ht := by cases ht
  idle t ht := by cases ht

variable {ls : List (Event × Coroutines.Move ℕ Cont)}

/-- A run, as long as nothing has failed before its last step. -/
theorem Settled.run (h : Settled L s a) (hrun : Trace (Kernel.Step L) s ls s') :
    ∃ a', Trace Coroutines.Step a (ls.map Prod.snd) a' ∧ (s'.failure = none → Settled L s' a') := by
  induction hrun generalizing a with
  | nil s => exact ⟨a, .nil a, fun _ => h⟩
  | cons head tail ih =>
    obtain ⟨_, hs, hmove⟩ := head
    obtain ⟨a₁, hstep, hsettled⟩ := h.step hs
    rw [← hmove] at hstep
    cases tail with
    | nil s => exact ⟨a₁, .single hstep, hsettled⟩
    | cons head' tail' =>
      obtain ⟨a', ha', hend⟩ := ih (hsettled head'.1)
      exact ⟨a', .cons hstep ha', hend⟩

/-- **Threads are coroutines.**  Whatever the threads do between two passes through the scheduler, and in whatever order
they run, each of them goes on in the context in which it has left off, and a new one at `kernel_thread`, with its two
arguments; and those that have a context are the threads that live, but for the running one. -/
theorem threads_are_coroutines {c : Cpu} {initPageDir : ℕ} (hpos : 0 < runningThread c)
    (h : Trace (Kernel.Step L) (booted c initPageDir) ls s) :
    ∃ a, Trace Coroutines.Step (alone c) (ls.map Prod.snd) a ∧ (s.failure = none →
      a.running = s.current ∧ Matches L s.cpu s.current a.context ∧
      ∀ t, (a.suspended t).isSome ↔ t ∈ s.threads ∧ t ≠ s.current ∧ s.status t ≠ .dying) := by
  obtain ⟨a, ha, hsettled⟩ := (booted_settled L hpos initPageDir).run h
  refine ⟨a, ha, fun hf => ?_⟩
  have hs := hsettled hf
  refine ⟨hs.running, hs.context, fun t => ⟨fun hsome => ?_, fun ⟨hthread, hcur, hdying⟩ => ?_⟩⟩
  · obtain ⟨k, hk⟩ := Option.isSome_iff_exists.mp hsome
    obtain ⟨hthread, hcur, hdying, _⟩ := hs.saved t k hk
    exact ⟨hthread, hcur, hdying⟩
  · exact ((hs.kept t hthread).resolve_left hcur).resolve_right hdying

/-! ### A new thread, and the first switch to it -/

def image : Layout := ⟨24, 1, 2, 3, by decide⟩

def bootCpu : Cpu := ⟨fun r => if r = esp then 12000 else 0, 0, fun _ => 0⟩

def twoThreads : Kernel := (booted bootCpu 4096).threadCreate image 12288 5 6 0

def turnedOver : Kernel := twoThreads.threadYield image 7 1

theorem turnedOver_runs : turnedOver.failure = none ∧ turnedOver.current = 12288 ∧ twoThreads.failure = none ∧
    runningThread twoThreads.cpu + 56 ≤ twoThreads.cpu.reg esp ∧ 4 ∣ twoThreads.cpu.reg esp := by
  decide +kernel

theorem turnedOver_trace : Trace (Kernel.Step image) (booted bootCpu 4096)
    [(.create 12288 5 6 0, .spawn 12288 (.start 5 6)), (.yield 7 1, twoThreads.move (.yield 7 1))] turnedOver := by
  obtain ⟨_, _, hf, hroom⟩ := turnedOver_runs
  have hfree : (booted bootCpu 4096).Free 12288 := ⟨by decide, by decide, by decide +kernel, by decide, by decide⟩
  exact .cons ⟨rfl, .create 12288 5 6 0 hfree, rfl⟩ (.single ⟨hf, .yield 7 1 hroom (by decide), rfl⟩)

theorem threads_are_coroutines_turnedOver : ∃ ms a, Trace Coroutines.Step (alone bootCpu) ms a ∧ a.running = 12288 ∧
    Matches image turnedOver.cpu 12288 a.context := by
  obtain ⟨hf, hcurrent, _⟩ := turnedOver_runs
  obtain ⟨a, htrace, hend⟩ := threads_are_coroutines (by decide +kernel) turnedOver_trace
  obtain ⟨hrunning, hcontext, _⟩ := hend hf
  rw [hcurrent] at hrunning hcontext
  exact ⟨_, a, htrace, hrunning, hcontext⟩

/-- In terms of the machine: a thread that calls `switch_threads` returns from it with the registers of its call, whatever
the others have done in the meantime. -/
theorem thread_comes_back {c : Cpu} {initPageDir u : ℕ} {k : Cont} {e e' : Event} {m : Coroutines.Move ℕ Cont}
    {s₀ s₁ s₂ s₃ : Kernel} {ls₀ : List (Event × Coroutines.Move ℕ Cont)} (hpos : 0 < runningThread c)
    (h₀ : Trace (Kernel.Step L) (booted c initPageDir) ls₀ s₀) (hleave : Kernel.Step L s₀ (e, .transfer u k) s₁)
    (hothers : Trace (Kernel.Step L) s₁ ls s₂) (hls : ∀ l ∈ ls, l.2.resumed ≠ some s₀.current)
    (hback : Kernel.Step L s₂ (e', m) s₃) (hm : m.resumed = some s₀.current) (hf : s₃.failure = none) :
    s₃.current = s₀.current ∧ Matches L s₃.cpu s₀.current k := by
  obtain ⟨a₀, _, hsettled₀⟩ := (booted_settled L hpos initPageDir).run h₀
  have hs₀ := hsettled₀ hleave.1
  obtain ⟨a₁, hstep₁, hsettled₁⟩ := hs₀.step hleave.2.1
  rw [← hleave.2.2] at hstep₁
  obtain ⟨hu, hcontext₁⟩ := hstep₁.running rfl
  have hleft : a₁.suspended s₀.current = some k := hs₀.running ▸ hstep₁.left
  have hne : s₀.current ≠ a₁.running := hu.symm ▸ (hs₀.ne_current hcontext₁).symm
  have hrunning₁ : ∀ l s₂', Kernel.Step L s₁ l s₂' → Settled L s₁ a₁ := fun _ _ hs => hsettled₁ hs.1
  have hs₁ : Settled L s₁ a₁ := by
    cases hothers with
    | nil s => exact hrunning₁ _ _ hback
    | cons head _ => exact hrunning₁ _ _ head
  obtain ⟨a₂, htrace, hsettled₂⟩ := hs₁.run hothers
  obtain ⟨hkept, _⟩ := Coroutines.suspended_of_trace htrace hleft hne fun m hm => by
    obtain ⟨l, hl, rfl⟩ := List.mem_map.mp hm
    exact hls l hl
  obtain ⟨a₃, hstep₃, hsettled₃⟩ := (hsettled₂ hback.1).step hback.2.1
  rw [← hback.2.2] at hstep₃
  obtain ⟨hrunning, hcontext⟩ := hstep₃.running hm
  have hs₃ := hsettled₃ hf
  have hcurrent : s₃.current = s₀.current := hs₃.running.symm.trans hrunning
  have hk : a₃.context = k := Option.some.inj (hcontext.symm.trans hkept)
  refine ⟨hcurrent, ?_⟩
  rw [← hk, ← hcurrent]
  exact hs₃.context

end Pintos.Threads.Switch
