import Pintos.Library.DisjointLists
import Pintos.Threads.Kernel

/-!
# The lists of threads

A thread has one `elem`, which links it into `ready_list`, into `block_list` or among the waiters of a semaphore.
Together with the threads that are being created, which `thread_create` has a pointer to, these lists are
disjoint, and the list that a thread is in goes with its status (`Lists`).
-/

namespace Pintos.Threads

/-- A list of threads. -/
inductive Queue
  | ready
  | sleeping
  | waiters (s : ℕ)
  /-- What a thread has in `thread_create` and not yet unblocked. -/
  | creating (u : ℕ)
  deriving DecidableEq

/-- The status of the threads in a list. -/
def Queue.status : Queue → ThreadStatus
  | .ready => .ready
  | _ => .blocked

/-- The thread that is being created. -/
def Instr.created : Instr → Option ℕ
  | .unblock t => some t
  | _ => none

theorem Queue.status_ne {q : Queue} : q.status ≠ .running ∧ q.status ≠ .dying := by
  cases q <;> exact ⟨nofun, nofun⟩

theorem Queue.eq_ready {q : Queue} (h : q.status = .ready) : q = .ready := by
  cases q <;> first | rfl | cases h

namespace Kernel

variable {k k' : Kernel} {q : Queue} {t : ℕ} {l : List ℕ}

def queue (k : Kernel) : Queue → List ℕ
  | .ready => k.readyList
  | .sleeping => k.blockList
  | .waiters s => (k.sema s).waiters
  | .creating u => (k.control u).filterMap Instr.created

theorem queue_readyList (k : Kernel) (l : List ℕ) :
    { k with readyList := l }.queue = Function.update k.queue .ready l := by
  funext q
  cases q <;> simp [queue]

theorem queue_blockList (k : Kernel) (l : List ℕ) :
    { k with blockList := l }.queue = Function.update k.queue .sleeping l := by
  funext q
  cases q <;> simp [queue]

theorem queue_setSema (k : Kernel) (s : ℕ) (m : Semaphore) :
    (k.setSema s m).queue = Function.update k.queue (.waiters s) m.waiters := by
  funext q
  cases q with
  | waiters s' => by_cases h : s' = s <;> simp [queue, setSema, h]
  | _ => simp [queue, setSema]

theorem queue_setControl (k : Kernel) (u : ℕ) (is : List Instr) :
    (k.setControl u is).queue = Function.update k.queue (.creating u) (is.filterMap Instr.created) := by
  funext q
  cases q with
  | creating u' => by_cases h : u' = u <;> simp [queue, setControl, h]
  | _ => simp [queue, setControl]

/-- The statements of a thread change, but not what it creates. -/
theorem queue_setControl_same {u : ℕ} {c : List Instr}
    (h : c.filterMap Instr.created = (k.control u).filterMap Instr.created) :
    (k.setControl u c).queue = k.queue := by
  rw [queue_setControl, h]
  exact Function.update_eq_self _ _

theorem queue_first {is : List Instr} (h : is.filterMap Instr.created = []) : (k.first is).queue = k.queue := by
  refine queue_setControl_same ?_
  rw [List.filterMap_append, h, List.nil_append]

/-! ## The invariant -/

/-- The lists are disjoint, and a thread is in one that goes with its status; the ready threads except the idle
thread are in `ready_list`, and the idle thread is in no list. -/
structure Lists (k : Kernel) : Prop where
  disjoint : DisjointLists k.queue
  status : ∀ q t, t ∈ k.queue q → k.status t = q.status
  ready : ∀ t, k.status t = .ready → k.idleThread ≠ some t → t ∈ k.readyList
  idle : ∀ i, k.idleThread = some i → k.status i ≠ .dying ∧ ∀ q, i ∉ k.queue q
  running : ∀ t, k.status t = .running → t = k.current
  alive : ∀ t, k.status t = .dying ↔ t ∉ k.allList
  dead : ∀ t, k.status t = .dying → k.control t = []
  allNodup : k.allList.Nodup

/-- A thread that runs is in no list. -/
theorem Lists.not_mem_of_status (h : Lists k) (ht : k.status t = .running ∨ k.status t = .dying) (q : Queue) :
    t ∉ k.queue q := fun hm => by
  have hq := h.status q t hm
  have := q.status_ne
  rcases ht with ht | ht <;> rw [ht] at hq
  · exact this.1 hq.symm
  · exact this.2 hq.symm

/-- A thread comes into a list. -/
theorem Lists.push (h : Lists k) (hno : ∀ q, t ∉ k.queue q) (hidle : k.idleThread ≠ some t)
    (halive : t ∈ k.allList) (hl : l.Perm (t :: k.queue q)) (hqueue : k'.queue = Function.update k.queue q l)
    (hstatus : k'.status = Function.update k.status t q.status) (hid : k'.idleThread = k.idleThread)
    (hcur : k'.current = k.current) (hall : k'.allList = k.allList)
    (hdead : ∀ u, k.status u = .dying → k'.control u = k.control u) : Lists k' := by
  have hmem : ∀ {q' u}, u ∈ k'.queue q' → u = t ∧ q' = q ∨ u ≠ t ∧ u ∈ k.queue q' := by
    intro q' u hu
    rw [hqueue, Function.update_apply] at hu
    split at hu
    · rename_i heq
      rw [hl.mem_iff, List.mem_cons] at hu
      by_cases hut : u = t
      · exact .inl ⟨hut, heq⟩
      · exact .inr ⟨hut, heq ▸ hu.resolve_left hut⟩
    · exact .inr ⟨fun hut => hno q' (hut ▸ hu), hu⟩
  have hother : ∀ {u}, u ≠ t → k'.status u = k.status u := fun hut => by
    rw [hstatus, Function.update_of_ne hut]
  have hself : k'.status t = q.status := by rw [hstatus, Function.update_self]
  refine ⟨hqueue ▸ h.disjoint.push hno hl, fun q' u hu => ?_, fun u hu hui => ?_, fun i hi => ?_, fun u hu => ?_,
    fun u => ?_, fun u hu => ?_, hall ▸ h.allNodup⟩
  · rcases hmem hu with ⟨rfl, rfl⟩ | ⟨hut, hu⟩
    · exact hself
    · rw [hother hut, h.status q' u hu]
  · have hready : k'.readyList = Function.update k.queue q l .ready := hqueue ▸ rfl
    rw [hready]
    by_cases hut : u = t
    · rw [hut, hself] at hu
      rw [Queue.eq_ready hu, Function.update_self, hl.mem_iff, hut]
      exact List.mem_cons_self
    · rw [hother hut] at hu
      rw [Function.update_apply]
      have := h.ready u hu (hid ▸ hui)
      split
      · rename_i heq
        rw [hl.mem_iff]
        exact List.mem_cons_of_mem _ (heq ▸ this)
      · exact this
  · rw [hid] at hi
    have hit : i ≠ t := fun hit => hidle (hit ▸ hi)
    refine ⟨hother hit ▸ (h.idle i hi).1, fun q' hm => ?_⟩
    rcases hmem hm with ⟨rfl, -⟩ | ⟨-, hm⟩
    · exact hidle hi
    · exact (h.idle i hi).2 q' hm
  · by_cases hut : u = t
    · rw [hut, hself] at hu
      exact absurd hu q.status_ne.1
    · rw [hother hut] at hu
      rw [hcur]
      exact h.running u hu
  · rw [hall]
    by_cases hut : u = t
    · rw [hut, hself]
      exact iff_of_false q.status_ne.2 (not_not_intro halive)
    · rw [hother hut]
      exact h.alive u
  · by_cases hut : u = t
    · rw [hut, hself] at hu
      exact absurd hu q.status_ne.2
    · rw [hother hut] at hu
      rw [hdead u hu, h.dead u hu]

theorem dying_update {st : ThreadStatus} (ht : k.status t ≠ .dying) (hst : st ≠ .dying) (u : ℕ) :
    Function.update k.status t st u = .dying ↔ k.status u = .dying := by
  by_cases hut : u = t
  · rw [hut, Function.update_self]
    exact iff_of_false hst ht
  · rw [Function.update_of_ne hut]

/-- A thread is in no list then, and the others are where they were. -/
theorem Lists.leave (h : Lists k) {s : ThreadStatus} (hdisjoint : DisjointLists k'.queue)
    (hmem : ∀ q u, u ∈ k'.queue q ↔ u ∈ k.queue q ∧ u ≠ t) (hstatus : k'.status = Function.update k.status t s)
    (hready : s = .ready → k.idleThread = some t) (hdying : s = .dying → k.idleThread ≠ some t)
    (hid : k'.idleThread = k.idleThread) (hrunning : ∀ u, k'.status u = .running → u = k'.current)
    (halive : ∀ u, k'.status u = .dying ↔ u ∉ k'.allList) (hdead : ∀ u, k'.status u = .dying → k'.control u = [])
    (hall : k'.allList.Nodup) : Lists k' := by
  refine ⟨hdisjoint, fun q u hu => ?_, fun u hu hui => ?_, fun i hi => ⟨fun hu => ?_, fun q hm => ?_⟩, hrunning,
    halive, hdead, hall⟩
  · obtain ⟨hu, hut⟩ := (hmem q u).mp hu
    rw [hstatus, Function.update_of_ne hut]
    exact h.status q u hu
  · rw [hid] at hui
    by_cases hut : u = t
    · rw [hut, hstatus, Function.update_self] at hu
      exact absurd (hut ▸ hready hu) hui
    · rw [hstatus, Function.update_of_ne hut] at hu
      exact (hmem .ready u).mpr ⟨h.ready u hu hui, hut⟩
  · rw [hid] at hi
    by_cases hit : i = t
    · rw [hit, hstatus, Function.update_self] at hu
      exact hdying hu (hit ▸ hi)
    · rw [hstatus, Function.update_of_ne hit] at hu
      exact (h.idle i hi).1 hu
  · exact (h.idle i (hid ▸ hi)).2 q ((hmem q i).mp hm).1

/-- A thread is taken from a list. -/
theorem Lists.pop (h : Lists k) {s : ThreadStatus} (hl : (k.queue q).Perm (t :: l))
    (hqueue : k'.queue = Function.update k.queue q l) (hstatus : k'.status = Function.update k.status t s)
    (hst : s = .blocked ∨ s = .running) (hid : k'.idleThread = k.idleThread)
    (hrunning : ∀ u, k'.status u = .running → u = k'.current) (hall : k'.allList = k.allList)
    (hdead : ∀ u, k.status u = .dying → k'.control u = k.control u) : Lists k' ∧ ∀ q', t ∉ k'.queue q' := by
  have hnot : ∀ q', t ∉ k'.queue q' := fun q' => hqueue ▸ h.disjoint.not_mem_pop hl q'
  have ht : k.status t ≠ .dying := by
    rw [h.status q t (hl.mem_iff.mpr List.mem_cons_self)]
    exact q.status_ne.2
  have hdying : ∀ u, k'.status u = .dying ↔ k.status u = .dying :=
    hstatus ▸ dying_update ht (by rcases hst with rfl | rfl <;> nofun)
  refine ⟨h.leave (hqueue ▸ h.disjoint.pop hl) (fun q' u => ⟨fun hu => ?_, fun hu => ?_⟩) hstatus
    (by rcases hst with rfl | rfl <;> nofun) (by rcases hst with rfl | rfl <;> nofun) hid hrunning
    (fun u => hall ▸ (hdying u).trans (h.alive u))
    (fun u hu => ?_) (hall ▸ h.allNodup), hnot⟩
  · exact ⟨DisjointLists.mem_pop hl (hqueue ▸ hu), fun hut => hnot q' (hut ▸ hu)⟩
  · rw [hqueue]
    exact DisjointLists.mem_pop_of_ne hl hu.1 hu.2
  · rw [hdying] at hu
    rw [hdead u hu, h.dead u hu]

/-- The status of a thread in no list changes. -/
theorem Lists.settle (h : Lists k) {s : ThreadStatus} (hno : ∀ q, t ∉ k.queue q) (ht : k.status t ≠ .dying)
    (hst : s ≠ .dying) (hqueue : k'.queue = k.queue) (hstatus : k'.status = Function.update k.status t s)
    (hready : s = .ready → k.idleThread = some t) (hid : k'.idleThread = k.idleThread)
    (hrunning : ∀ u, k'.status u = .running → u = k'.current) (hall : k'.allList = k.allList)
    (hdead : ∀ u, k.status u = .dying → k'.control u = k.control u) : Lists k' := by
  have hdying : ∀ u, k'.status u = .dying ↔ k.status u = .dying := hstatus ▸ dying_update ht hst
  refine h.leave (hqueue ▸ h.disjoint) (fun q u => ?_) hstatus hready (fun h' => absurd h' hst) hid hrunning
    (fun u => hall ▸ (hdying u).trans (h.alive u)) (fun u hu => ?_) (hall ▸ h.allNodup)
  · rw [hqueue]
    exact ⟨fun hu => ⟨hu, fun hut => hno q (hut ▸ hu)⟩, And.left⟩
  · rw [hdying] at hu
    rw [hdead u hu, h.dead u hu]

/-- Nothing of this changes. -/
theorem Lists.congr (h : Lists k) (hqueue : k'.queue = k.queue) (hstatus : k'.status = k.status)
    (hid : k'.idleThread = k.idleThread) (hcur : k'.current = k.current) (hall : k'.allList = k.allList)
    (hdead : ∀ u, k.status u = .dying → k'.control u = k.control u) : Lists k' := by
  have hready : k'.readyList = k.readyList := congrFun hqueue .ready
  refine ⟨hqueue ▸ h.disjoint, ?_, ?_, ?_, ?_, ?_, fun t ht => ?_, hall ▸ h.allNodup⟩
  · rw [hqueue, hstatus]
    exact h.status
  · rw [hstatus, hid, hready]
    exact h.ready
  · rw [hid, hqueue, hstatus]
    exact h.idle
  · rw [hstatus, hcur]
    exact h.running
  · rw [hstatus, hall]
    exact h.alive
  · rw [hstatus] at ht
    rw [hdead t ht, h.dead t ht]

/-! ## The functions -/

/-- What `schedule` does: the thread that runs next is the first one of `ready_list` or the idle thread. -/
theorem schedule_eq_some (h : k.schedule = some k') : k.status k.current ≠ .running ∧
    ∃ next ts, k' = { k with readyList := ts }.scheduleTail next ∧
      (k.readyList = next :: ts ∨ k.readyList = [] ∧ ts = [] ∧ k.idleThread = some next) := by
  unfold schedule at h
  split at h
  · cases h
  · rename_i hrun
    refine ⟨hrun, ?_⟩
    split at h
    · rename_i hl
      obtain ⟨i, hi, rfl⟩ := Option.map_eq_some_iff.mp h
      exact ⟨i, [], by rw [← hl], .inr ⟨hl, rfl, hi⟩⟩
    · rename_i t ts hl
      exact ⟨t, ts, (Option.some.inj h).symm, .inl hl⟩

/-- Of `schedule`: the thread that it chooses runs. -/
theorem Lists.schedule (h : Lists k) (hs : k.schedule = some k') :
    Lists k' ∧ k'.status k'.current = .running := by
  obtain ⟨hrun, next, ts, rfl, hnext⟩ := schedule_eq_some hs
  have hno : ∀ u, k.status u ≠ .running := fun u hu => hrun (h.running u hu ▸ hu)
  have hrunning : ∀ u, Function.update k.status next .running u = .running → u = next := by
    intro u hu
    by_contra hne
    rw [Function.update_of_ne hne] at hu
    exact hno u hu
  refine ⟨?_, Function.update_self ..⟩
  rcases hnext with hl | ⟨hl, rfl, hid⟩
  · have hpop : Lists ({ k with readyList := ts }.scheduleTail next) ∧ _ := h.pop (q := .ready) (t := next) (l := ts)
      (.of_eq hl) (queue_readyList k ts) rfl (.inr rfl) rfl hrunning rfl fun _ _ => rfl
    exact hpop.1
  · have hsame : { k with readyList := [] } = k := by rw [← hl]
    rw [hsame]
    exact h.settle (s := .running) (h.idle next hid).2 (h.idle next hid).1 nofun rfl rfl nofun rfl
      hrunning rfl fun _ _ => rfl

theorem Lists.mem_allList (h : Lists k) (ht : k.status t ≠ .dying) : t ∈ k.allList := by
  by_contra hno
  exact ht ((h.alive t).mpr hno)

theorem Lists.running_update (h : Lists k) {st : ThreadStatus} (u : ℕ)
    (hu : Function.update k.status k.current st u = .running) : u = k.current := by
  by_contra hne
  rw [Function.update_of_ne hne] at hu
  exact hne (h.running u hu)

theorem threadUnblock_eq_some :
    k.threadUnblock t = some k' ↔ k.status t = .blocked ∧ k' = (k.insertReady t).setStatus t .ready := by
  rw [Kernel.threadUnblock]
  split
  · rename_i ht
    rw [and_iff_right ht, Option.some.injEq]
    exact eq_comm
  · rename_i ht
    exact iff_of_false nofun fun h => ht h.1

/-- `thread_unblock` of a thread in no list. -/
theorem Lists.threadUnblock (h : Lists k) (hno : ∀ q, t ∉ k.queue q) (hidle : k.idleThread ≠ some t)
    (hs : k.threadUnblock t = some k') : Lists k' := by
  obtain ⟨ht, rfl⟩ := threadUnblock_eq_some.mp hs
  exact h.push (q := .ready) hno hidle (h.mem_allList (by rw [ht]; nofun)) (perm_listInsertOrdered _ _ _)
    (queue_readyList k _) rfl rfl rfl rfl fun _ _ => rfl

/-- The thread that runs goes on. -/
theorem threadUnblock_running (hs : k.threadUnblock t = some k') (hrun : k.status k.current = .running) :
    k'.status k'.current = .running := by
  obtain ⟨ht, rfl⟩ := threadUnblock_eq_some.mp hs
  have hne : k.current ≠ t := ne_of_apply_ne k.status (by simp [hrun, ht])
  exact (Function.update_of_ne hne _ _).trans hrun

/-- `thread_yield`, up to `schedule`. -/
theorem Lists.requeue (h : Lists k) (hrun : k.status k.current = .running) : Lists k.requeue := by
  have hno := h.not_mem_of_status (.inl hrun)
  have hmem : k.current ∈ k.allList := h.mem_allList (by rw [hrun]; nofun)
  by_cases hid : some k.current = k.idleThread
  · have heq : k.requeue = k.setStatus k.current .ready := by rw [Kernel.requeue, if_pos hid]
    rw [heq]
    refine h.settle (t := k.current) (s := .ready) hno (by rw [hrun]; nofun) nofun rfl rfl (fun _ => hid.symm) rfl
      h.running_update rfl fun _ _ => rfl
  · have heq : k.requeue = (k.insertReady k.current).setStatus k.current .ready := by rw [Kernel.requeue, if_neg hid]
    rw [heq]
    exact h.push (q := .ready) hno (fun hc => hid hc.symm) hmem (perm_listInsertOrdered _ _ _)
      (queue_readyList k _) rfl rfl rfl rfl fun _ _ => rfl

/-- `thread_yield` -/
theorem Lists.threadYield (h : Lists k) (hrun : k.status k.current = .running) (hs : k.threadYield = some k') :
    Lists k' ∧ k'.status k'.current = .running :=
  (h.requeue hrun).schedule hs

/-- `thread_block`, in no list. -/
theorem Lists.threadBlock (h : Lists k) (hrun : k.status k.current = .running) (hs : k.threadBlock = some k') :
    Lists k' ∧ k'.status k'.current = .running :=
  have hblocked : Lists (k.setStatus k.current .blocked) :=
    h.settle (s := .blocked) (h.not_mem_of_status (.inl hrun)) (by rw [hrun]; nofun) nofun rfl rfl nofun rfl
      h.running_update rfl fun _ _ => rfl
  hblocked.schedule hs

/-- `thread_exit` -/
theorem Lists.threadExit (h : Lists k) (hrun : k.status k.current = .running) (hid : k.idleThread ≠ some k.current)
    (hcontrol : k.control k.current = []) (hs : k.threadExit = some k') :
    Lists k' ∧ k'.status k'.current = .running := by
  have hlists : Lists ({ k with allList := k.allList.erase k.current }.setStatus k.current .dying) := by
    refine h.leave (t := k.current) (s := .dying) h.disjoint (fun q u => ?_) rfl nofun (fun _ => hid) rfl
      h.running_update (fun u => ?_) (fun u hu => ?_) (h.allNodup.erase _)
    · exact ⟨fun hu => ⟨hu, fun hut => h.not_mem_of_status (.inl hrun) q (hut ▸ hu)⟩, And.left⟩
    · show Function.update k.status k.current .dying u = .dying ↔ u ∉ k.allList.erase k.current
      by_cases hu : u = k.current
      · rw [hu, Function.update_self]
        exact iff_of_true rfl h.allNodup.not_mem_erase
      · rw [Function.update_of_ne hu, h.alive u, List.mem_erase_of_ne hu]
    · by_cases hut : u = k.current
      · exact hut ▸ hcontrol
      · exact h.dead u ((Function.update_of_ne hut _ _).symm.trans hu)
  exact hlists.schedule hs

/-- `init_thread` in a free page. -/
theorem Lists.initThread (h : Lists k) {p : ℤ} (hfree : t ∉ k.allList) (hs : k.initThread t p = some k') :
    Lists k' ∧ (∀ q, t ∉ k'.queue q) ∧ k'.idleThread ≠ some t ∧ k'.status = Function.update k.status t .blocked ∧
      k'.current = k.current := by
  have ht : k.status t = .dying := (h.alive t).mpr hfree
  have hno := h.not_mem_of_status (.inr ht)
  have hid : k.idleThread ≠ some t := fun hid => (h.idle t hid).1 ht
  unfold Kernel.initThread at hs
  split at hs
  · cases hs
    set k' : Kernel := { k with
      status := Function.update k.status t .blocked
      priority := Function.update k.priority t p
      wakeT := Function.update k.wakeT t 0
      nice := Function.update k.nice t (k.nice k.current)
      recentCpu := Function.update k.recentCpu t (k.recentCpu k.current)
      control := Function.update k.control t []
      allList := k.allList ++ [t] }
    have hqueue : k'.queue = k.queue :=
      queue_setControl_same (k := k) (u := t) (c := []) (by rw [h.dead t ht])
    have hst : k'.status t = .blocked := Function.update_self ..
    refine ⟨h.leave (hqueue ▸ h.disjoint) (fun q u => ?_) rfl nofun nofun rfl (fun u hu => ?_) (fun u => ?_)
      (fun u hu => ?_) ?_, hqueue ▸ hno, hid, rfl, rfl⟩
    · rw [hqueue]
      exact ⟨fun hu => ⟨hu, fun hut => hno q (hut ▸ hu)⟩, And.left⟩
    · have hut : u ≠ t := ne_of_apply_ne k'.status (by simp [hu, hst])
      exact h.running u ((Function.update_of_ne hut _ _).symm.trans hu)
    · by_cases hut : u = t
      · rw [hut, hst]
        exact iff_of_false nofun fun hno => hno (List.mem_append_right _ (List.mem_singleton_self t))
      · show Function.update k.status t .blocked u = .dying ↔ u ∉ k.allList ++ [t]
        rw [Function.update_of_ne hut, h.alive u, List.mem_append, List.mem_singleton, or_iff_left hut]
    · have hut : u ≠ t := ne_of_apply_ne k'.status (by simp [hu, hst])
      exact (Function.update_of_ne hut _ _).trans (h.dead u ((Function.update_of_ne hut _ _).symm.trans hu))
    · exact List.nodup_append.mpr ⟨h.allNodup, List.nodup_singleton t, fun a ha b hb hab => by
        rw [List.mem_singleton] at hb
        exact hfree (hb ▸ hab ▸ ha)⟩
  · cases hs

/-- The running thread has a pointer to the thread that it creates. -/
theorem Lists.first_unblock (h : Lists k) (hrun : k.status k.current = .running) (hno : ∀ q, t ∉ k.queue q)
    (hid : k.idleThread ≠ some t) (ht : k.status t = .blocked) {c : List Instr}
    (his : c.filterMap Instr.created = []) : Lists (k.first (c ++ [.unblock t])) := by
  refine h.push (q := .creating k.current) (l := t :: k.queue (.creating k.current)) hno hid
    (h.mem_allList (by rw [ht]; nofun)) (.refl _) ?_ ?_ rfl rfl rfl fun u hu => ?_
  · rw [first, queue_setControl]
    simp [his, queue, Instr.created]
  · exact (Function.update_eq_self_iff.mpr ht.symm).symm
  · exact Function.update_of_ne (fun huc => by rw [huc, hrun] at hu; cases hu) _ _

/-- `thread_create`, up to `allocate_tid`. -/
theorem Lists.threadCreate (h : Lists k) (hrun : k.status k.current = .running) {p : ℤ} (hfree : t ∉ k.allList)
    (hs : k.threadCreate t p = some k') : Lists k' ∧ k'.status k'.current = .running := by
  obtain ⟨k₁, hinit, rfl⟩ := Option.map_eq_some_iff.mp hs
  obtain ⟨h₁, hno, hid, hst, hcur⟩ := h.initThread hfree hinit
  have hne : k.current ≠ t := fun hne => hfree (hne ▸ h.mem_allList (by rw [hrun]; nofun))
  have hrun₁ : k₁.status k₁.current = .running := by rw [hcur, hst, Function.update_of_ne hne, hrun]
  exact ⟨h₁.first_unblock (c := [.acquire tidLock, .release tidLock]) hrun₁ hno hid
    (by rw [hst, Function.update_self]) rfl, hrun₁⟩

/-- The running thread comes among the waiters of a semaphore, or to the sleepers, and blocks. -/
theorem Lists.block_in (h : Lists k) (hrun : k.status k.current = .running) (hid : k.idleThread ≠ some k.current)
    {k'' : Kernel} (hs : k'.threadBlock = some k'') (hq : q.status = .blocked) (hl : l.Perm (k.current :: k.queue q))
    (hqueue : k'.queue = Function.update k.queue q l) (hstatus : k'.status = k.status)
    (hidle : k'.idleThread = k.idleThread) (hcur : k'.current = k.current) (hall : k'.allList = k.allList)
    (hdead : ∀ u, k.status u = .dying → k'.control u = k.control u) :
    Lists k'' ∧ k''.status k''.current = .running := by
  have hblocked : Lists (k'.setStatus k'.current .blocked) := by
    refine h.push (t := k.current) (h.not_mem_of_status (.inl hrun)) hid (h.mem_allList (by rw [hrun]; nofun)) hl hqueue
      ?_ hidle hcur hall hdead
    rw [hq, ← hstatus, ← hcur]
    rfl
  exact hblocked.schedule hs

/-- `sema_down` -/
theorem Lists.semaDown (h : Lists k) (hrun : k.status k.current = .running) (hid : k.idleThread ≠ some k.current)
    {s : ℕ} (hs : k.semaDown s = some k') : Lists k' ∧ k'.status k'.current = .running := by
  unfold Kernel.semaDown at hs
  split at hs
  · rename_i m hd
    obtain ⟨-, rfl⟩ := Semaphore.down_true hd
    cases hs
    refine ⟨h.congr ?_ rfl rfl rfl rfl fun _ _ => rfl, hrun⟩
    rw [queue_setSema]
    exact Function.update_eq_self _ _
  · rename_i m hd
    obtain ⟨-, rfl⟩ := Semaphore.down_false hd
    set m := Semaphore.enqueue .threads k.priority (k.sema s) k.current
    refine h.block_in (q := .waiters s) hrun hid hs rfl
      (Semaphore.perm_enqueue .threads k.priority (k.sema s) k.current) ?_ rfl rfl rfl rfl fun u hu => ?_
    · exact (queue_first rfl).trans (queue_setSema k s m)
    · have hne : u ≠ k.current := ne_of_apply_ne k.status (by simp [hu, hrun])
      exact Function.update_of_ne hne _ _

/-- What `sema_up` does before `thread_yield`. -/
theorem wakeWaiter_eq_some {s : ℕ} (hs : k.wakeWaiter s = some k') :
    ∃ m, (m.waiters = (k.sema s).waiters ∧ k' = k.setSema s m) ∨
      ∃ t, (k.sema s).waiters.Perm (t :: m.waiters) ∧ (k.setSema s m).threadUnblock t = some k' := by
  have hperm := (k.sema s).perm_up .threads k.priority
  have hnone := (k.sema s).up_eq_none_iff .threads k.priority
  unfold Kernel.wakeWaiter at hs
  split at hs
  · rename_i m hup
    rw [hup] at hperm hnone
    have hnil := hnone.mp rfl
    rw [hnil] at hperm
    exact ⟨m, .inl ⟨hperm.nil_eq.symm.trans hnil.symm, (Option.some.inj hs).symm⟩⟩
  · rename_i t m hup
    rw [hup] at hperm
    exact ⟨m, .inr ⟨t, hperm, hs⟩⟩

/-- `sema_up`, up to `thread_yield`. -/
theorem Lists.wakeWaiter (h : Lists k) {s : ℕ} (hs : k.wakeWaiter s = some k') : Lists k' := by
  obtain ⟨m, ⟨hm, rfl⟩ | ⟨t, hperm, hs⟩⟩ := wakeWaiter_eq_some hs
  · refine h.congr ?_ rfl rfl rfl rfl fun _ _ => rfl
    rw [queue_setSema, hm]
    exact Function.update_eq_self _ _
  · have ht : t ∈ k.queue (.waiters s) := hperm.mem_iff.mpr List.mem_cons_self
    have hst : k.status t = .blocked := h.status (.waiters s) t ht
    obtain ⟨hpop, hno⟩ : Lists (k.setSema s m) ∧ ∀ q, t ∉ (k.setSema s m).queue q :=
      h.pop (q := .waiters s) hperm (queue_setSema k s m) (Function.update_eq_self_iff.mpr hst.symm).symm (.inl rfl) rfl
        h.running rfl fun _ _ => rfl
    exact hpop.threadUnblock hno (fun hid => (h.idle t hid).2 _ ht) hs

theorem wakeWaiter_running {s : ℕ} (hs : k.wakeWaiter s = some k') (hrun : k.status k.current = .running) :
    k'.status k'.current = .running := by
  obtain ⟨m, ⟨-, rfl⟩ | ⟨t, -, hs⟩⟩ := wakeWaiter_eq_some hs
  · exact hrun
  · exact threadUnblock_running hs hrun

/-- `sema_up` -/
theorem Lists.semaUp (h : Lists k) (hrun : k.status k.current = .running) {s : ℕ} (hs : k.semaUp s = some k') :
    Lists k' ∧ k'.status k'.current = .running := by
  obtain ⟨k₁, hwake, hyield⟩ := Option.bind_eq_some_iff.mp hs
  exact (h.wakeWaiter hwake).threadYield (wakeWaiter_running hwake hrun) hyield

/-- `timer_sleep`, after the clock has been read. -/
theorem Lists.timerSleep (h : Lists k) (hrun : k.status k.current = .running) (hid : k.idleThread ≠ some k.current)
    {start ticks : ℤ} (hs : k.timerSleep start ticks = some k') :
    Lists k' ∧ k'.status k'.current = .running := by
  unfold Kernel.timerSleep at hs
  split at hs
  · cases hs
    exact ⟨h, hrun⟩
  · exact h.block_in (q := .sleeping) hrun hid hs rfl (List.perm_append_singleton k.current k.blockList)
      (queue_blockList k _) rfl rfl rfl rfl fun _ _ => rfl

/-- The loop of `wake_thread`, over threads of `block_list`. -/
theorem Lists.wakeLoop {ts : List ℕ} (h : Lists k) (hrun : k.status k.current = .running) (hnodup : ts.Nodup)
    (hts : ∀ t ∈ ts, t ∈ k.blockList) (hs : wakeLoop ts k = some k') :
    Lists k' ∧ k'.status k'.current = .running := by
  induction ts generalizing k with
  | nil =>
    cases hs
    exact ⟨h, hrun⟩
  | cons t ts ih =>
    obtain ⟨htts, hnodup⟩ := List.nodup_cons.mp hnodup
    obtain ⟨ht, hts⟩ := List.forall_mem_cons.mp hts
    rw [Kernel.wakeLoop] at hs
    split at hs
    · obtain ⟨k₁, hunblock, hs⟩ := Option.bind_eq_some_iff.mp hs
      have hst : k.status t = .blocked := h.status .sleeping t ht
      obtain ⟨hpop, hno⟩ : Lists { k with blockList := k.blockList.erase t } ∧
          ∀ q, t ∉ ({ k with blockList := k.blockList.erase t } : Kernel).queue q :=
        h.pop (q := .sleeping) (List.perm_cons_erase ht) (queue_blockList k _)
          (Function.update_eq_self_iff.mpr hst.symm).symm (.inl rfl) rfl h.running rfl fun _ _ => rfl
      refine ih (hpop.threadUnblock hno (fun hid => (h.idle t hid).2 .sleeping ht) hunblock)
        (threadUnblock_running hunblock hrun) hnodup (fun u hu => ?_) hs
      obtain ⟨-, rfl⟩ := threadUnblock_eq_some.mp hunblock
      have hne : u ≠ t := fun hut => htts (hut ▸ hu)
      exact (List.mem_erase_of_ne hne).mpr (hts u hu)
    · exact ih (k := k.updateSmallestTick (k.wakeT t)) (h.congr rfl rfl rfl rfl rfl fun _ _ => rfl) hrun hnodup hts hs

/-- `wake_thread` -/
theorem Lists.wakeThread (h : Lists k) (hrun : k.status k.current = .running) (hs : k.wakeThread = some k') :
    Lists k' ∧ k'.status k'.current = .running :=
  Lists.wakeLoop (k := { k with timerSmallestTick := int64Max }) (h.congr rfl rfl rfl rfl rfl fun _ _ => rfl) hrun
    (h.disjoint.nodup .sleeping) (fun _ ht => ht) hs

/-- The functions that compute priorities change nothing else than these, `recent_cpu` and `load_avg`. -/
def Renewed (k k' : Kernel) : Prop := ∃ p r a, k' = { k with priority := p, recentCpu := r, loadAvg := a }

theorem Renewed.refl (k : Kernel) : Renewed k k := ⟨_, _, _, rfl⟩

theorem Renewed.trans {k₁ : Kernel} (h : Renewed k k₁) (h' : Renewed k₁ k') : Renewed k k' := by
  obtain ⟨_, _, _, rfl⟩ := h
  obtain ⟨p, r, a, rfl⟩ := h'
  exact ⟨p, r, a, rfl⟩

/-- What every round of a loop keeps, the loop keeps. -/
theorem forEach_keeps {P : Kernel → Prop} {f : ℕ → Kernel → Checked Kernel} (hf : ∀ t k, P k → P (f t k).value)
    (ts : List ℕ) (hk : P k) : P (forEach f ts k).value := by
  induction ts generalizing k with
  | nil => exact hk
  | cons t ts ih => exact ih (hf t k hk)

theorem forEach_renewed {f : ℕ → Kernel → Checked Kernel} (hf : ∀ t k, Renewed k (f t k).value) (ts : List ℕ)
    (k : Kernel) : Renewed k (forEach f ts k).value :=
  forEach_keeps (fun t k' h => h.trans (hf t k')) ts (.refl k)

theorem threadAging_renewed (k : Kernel) : Renewed k k.threadAging.value :=
  forEach_renewed (fun _ _ => ⟨_, _, _, rfl⟩) _ k

theorem renewRecentCpu_renewed (k : Kernel) : Renewed k k.renewRecentCpu.value := by
  refine forEach_renewed (fun t k => ?_) _ k
  unfold renewRecentCpuOf
  split <;> exact ⟨_, _, _, rfl⟩

theorem renewPrior_renewed (k : Kernel) : Renewed k k.renewPrior.value :=
  forEach_renewed (fun _ _ => ⟨_, _, _, rfl⟩) _ k

theorem renewUse_renewed (k : Kernel) : Renewed k k.renewUse.value := by
  unfold renewUse
  split
  · have hload : Renewed k k.renewLoadAvg.value := ⟨_, _, _, rfl⟩
    exact hload.trans (renewRecentCpu_renewed _)
  · exact .refl k

theorem renewOrder_renewed (k : Kernel) : Renewed k k.renewOrder.value := by
  unfold renewOrder
  split
  · exact renewPrior_renewed k
  · exact .refl k

theorem feedback_renewed (k : Kernel) : Renewed k k.feedback.value := by
  have hcount : Renewed k k.countTick.value := ⟨_, _, _, rfl⟩
  exact (hcount.trans (renewUse_renewed _)).trans (renewOrder_renewed _)

theorem renew_renewed (k : Kernel) : Renewed k k.renew.value := by
  unfold renew
  split
  · exact threadAging_renewed k
  · split
    · exact feedback_renewed k
    · exact .refl k

/-- The timer interrupt. -/
theorem Lists.timerInterrupt (h : Lists k) (hrun : k.status k.current = .running) (hs : k.timerInterrupt = some k') :
    Lists k' ∧ k'.status k'.current = .running := by
  obtain ⟨k₁, hhandler, hs⟩ := Option.bind_eq_some_iff.mp hs
  have htick : Lists k.tick := h.congr rfl rfl rfl rfl rfl fun _ _ => rfl
  have hrenew : Lists k.tick.renew.value ∧ k.tick.renew.value.status k.tick.renew.value.current = .running := by
    obtain ⟨p, r, a, heq⟩ := renew_renewed k.tick
    rw [heq]
    exact ⟨htick.congr rfl rfl rfl rfl rfl fun _ _ => rfl, hrun⟩
  have hwake : Lists k₁ ∧ k₁.status k₁.current = .running := by
    unfold timerHandler wakeDue at hhandler
    split at hhandler
    · exact hrenew.1.wakeThread hrenew.2 hhandler
    · cases hhandler
      exact hrenew
  split at hs
  · exact hwake.1.threadYield hwake.2 hs
  · cases hs
    exact hwake

end Kernel

end Pintos.Threads
