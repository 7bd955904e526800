import Pintos.Library.Trace
import Pintos.Library.Bytes

/-!
# A process and its children

`process_execute`, `start_process`, `process_wait` and `process_exit` of `userprog/process.c`, as one
parent and any number of children that run at the same time.  A step is one operation on something that
parent and child share: the semaphores `wait_load`, `pblock` and `defer_block`, the list `childs`, the
fields `is_load` and `exit_number`, and the page of a child's `struct thread`.  The scheduler may switch
between any two steps, so every order of enabled steps is a run.

`sema_down` is a step that is enabled when the value is positive.  A child that has got past
`defer_block` is dying; its page is freed when the scheduler switches away from it, and is filled with
`0xcc` then.
-/

namespace Pintos.Userprog

/-- `TID_ERROR` -/
abbrev tidError : ℤ := -1

/-- Where a child is: in `load`, before its `sema_up (&wait_load)`, before it stores `is_load`, in its
program, before its `sema_up (&pblock)`, before its `sema_down (&defer_block)`, past it, and freed. -/
inductive Phase
  | load
  | upLoad
  | storeLoad
  | running
  | upBlock
  | downDefer
  | dying
  | freed
  deriving DecidableEq

namespace Phase

/-- The child has done its `sema_up (&wait_load)`. -/
def announced (ph : Phase) : Bool := ph != .load && ph != .upLoad

/-- The child has stored `is_load`. -/
def stored (ph : Phase) : Bool := ph.announced && ph != .storeLoad

/-- The child has done its `sema_up (&pblock)`, with its status in `exit_number`. -/
def exited (ph : Phase) : Bool := ph == .downDefer || ph == .dying || ph == .freed

/-- The child has got past `defer_block`. -/
def released (ph : Phase) : Bool := ph == .dying || ph == .freed

end Phase

/-- What the parent shares with a child: fields of the child's `struct thread`, and the result of its
`load`. -/
structure Child where
  phase : Phase
  loaded : Bool
  isLoad : ℤ
  pblock : ℕ
  deferBlock : ℕ
  exitNumber : ℤ
  deriving DecidableEq

/-- A child as `thread_create` leaves it. -/
def Child.fresh : Child := ⟨.load, false, 0, 0, 0, 0⟩

/-- What a load of `exit_number` gives: a freed page holds `0xcccccccc`. -/
def Child.readExitNumber (c : Child) : ℤ :=
  if c.phase = .freed then toInt32 0xcccccccc else c.exitNumber

/-- From where `process_wait` has been called: by `process_execute`, or by the system call. -/
inductive Caller
  | exec
  | wait
  deriving DecidableEq

/-- Where the parent is.  In `process_execute`: before `thread_create`, before `sema_down (&wait_load)`,
and in the loop over `childs` with a rest of the list to go.  In `process_wait`: before the search, before
`sema_down (&pblock)`, before `list_remove`, before `sema_up (&defer_block)` and before the load of
`exit_number`.  `returned` is the return of a call, for a `tid`, with a value; `reaped` says whether
`process_wait` has found the child.  `tid` is -1 where `process_execute` has made no thread. -/
inductive ParentPc
  | user
  | create
  | downLoad (tid : ℤ)
  | scan (tid : ℤ) (rest : List ℤ)
  | find (c : Caller) (tid : ℤ)
  | downBlock (c : Caller) (tid : ℤ)
  | remove (c : Caller) (tid : ℤ)
  | upDefer (c : Caller) (tid : ℤ)
  | readExit (c : Caller) (tid : ℤ)
  | returned (c : Caller) (tid : ℤ) (reaped : Bool) (value : ℤ)
  | terminated
  deriving DecidableEq

/-- The parent is in its program and may make the next call. -/
def ParentPc.atUser : ParentPc → Bool
  | .user => true
  | .returned _ _ _ _ => true
  | _ => false

/-- A parent with its children by `tid`; `childs` is its list, and every `tid` from `nextTid` on is new. -/
structure Family where
  pc : ParentPc
  waitLoad : ℕ
  childs : List ℤ
  child : ℤ → Option Child
  nextTid : ℤ

namespace Family

def goto (s : Family) (pc : ParentPc) : Family := { s with pc := pc }

def setChild (s : Family) (tid : ℤ) (c : Child) : Family :=
  { s with child := Function.update s.child tid (some c) }

@[simp] theorem goto_pc (s : Family) (pc : ParentPc) : (s.goto pc).pc = pc := rfl
@[simp] theorem goto_waitLoad (s : Family) (pc : ParentPc) : (s.goto pc).waitLoad = s.waitLoad := rfl
@[simp] theorem goto_childs (s : Family) (pc : ParentPc) : (s.goto pc).childs = s.childs := rfl
@[simp] theorem goto_child (s : Family) (pc : ParentPc) : (s.goto pc).child = s.child := rfl
@[simp] theorem goto_nextTid (s : Family) (pc : ParentPc) : (s.goto pc).nextTid = s.nextTid := rfl

@[simp] theorem setChild_pc (s : Family) (tid : ℤ) (c : Child) : (s.setChild tid c).pc = s.pc := rfl
@[simp] theorem setChild_waitLoad (s : Family) (tid : ℤ) (c : Child) :
    (s.setChild tid c).waitLoad = s.waitLoad := rfl
@[simp] theorem setChild_childs (s : Family) (tid : ℤ) (c : Child) :
    (s.setChild tid c).childs = s.childs := rfl
@[simp] theorem setChild_nextTid (s : Family) (tid : ℤ) (c : Child) :
    (s.setChild tid c).nextTid = s.nextTid := rfl
@[simp] theorem setChild_child (s : Family) (tid : ℤ) (c : Child) :
    (s.setChild tid c).child = Function.update s.child tid (some c) := rfl

end Family

/-- The steps of a child, by themselves. -/
inductive ChildAct
  /-- `load` returns. -/
  | load (success : Bool)
  /-- `sema_up (&p->wait_load)` -/
  | upLoad
  /-- `is_load = 1`, or `is_load = -1` and then `exit (-1)` up to `process_exit`. -/
  | storeLoad
  /-- The program ends: `exit_number` holds `n` when `process_exit` comes to `sema_up (&pblock)`. -/
  | exit (n : ℤ)
  /-- `sema_up (&pblock)` -/
  | upBlock
  /-- `sema_down (&defer_block)` returns. -/
  | downDefer
  /-- The scheduler switches away from the dying thread and frees its page. -/
  | free
  deriving DecidableEq

/-- `c.Steps a c'`: the child takes a step of its own. -/
inductive Child.Steps : Child → ChildAct → Child → Prop
  | load {c : Child} (b : Bool) (h : c.phase = .load) :
      Steps c (.load b) { c with phase := .upLoad, loaded := b }
  | upLoad {c : Child} (h : c.phase = .upLoad) : Steps c .upLoad { c with phase := .storeLoad }
  | storeSuccess {c : Child} (h : c.phase = .storeLoad) (hl : c.loaded = true) :
      Steps c .storeLoad { c with phase := .running, isLoad := 1 }
  | storeFailure {c : Child} (h : c.phase = .storeLoad) (hl : c.loaded = false) :
      Steps c .storeLoad { c with phase := .upBlock, isLoad := -1, exitNumber := -1 }
  | exit {c : Child} (n : ℤ) (h : c.phase = .running) :
      Steps c (.exit n) { c with phase := .upBlock, exitNumber := n }
  | upBlock {c : Child} (h : c.phase = .upBlock) :
      Steps c .upBlock { c with phase := .downDefer, pblock := c.pblock + 1 }
  | downDefer {c : Child} (h : c.phase = .downDefer) (hv : 0 < c.deferBlock) :
      Steps c .downDefer { c with phase := .dying, deferBlock := c.deferBlock - 1 }
  | free {c : Child} (h : c.phase = .dying) : Steps c .free { c with phase := .freed }

/-- A step of the family. -/
inductive Act
  /-- `process_execute` is called, and finds memory and the executable, or returns -1. -/
  | execute (found : Bool)
  /-- `thread_create` makes the thread `tid`, or fails. -/
  | create (tid : Option ℤ)
  /-- `sema_down (&wait_load)` returns. -/
  | downLoad
  /-- One look at `is_load`, or the end of the loop. -/
  | scan
  /-- The system call `wait (tid)`. -/
  | wait (tid : ℤ)
  /-- The search of `process_wait`. -/
  | find
  /-- `sema_down (&thd->pblock)` returns. -/
  | downBlock
  /-- `list_remove` -/
  | remove
  /-- `sema_up (&thd->defer_block)` -/
  | upDefer
  /-- `return thd->exit_number` -/
  | readExit
  /-- The parent's program ends. -/
  | exit
  /-- A step of the child `tid`. -/
  | child (tid : ℤ) (a : ChildAct)
  deriving DecidableEq

/-- `Step s a s'`: the step `a` is enabled in `s` and leads to `s'`. -/
inductive Step : Family → Act → Family → Prop
  | executeFound {s : Family} (h : s.pc.atUser = true) : Step s (.execute true) (s.goto .create)
  | executeNot {s : Family} (h : s.pc.atUser = true) :
      Step s (.execute false) (s.goto (.returned .exec tidError false tidError))
  | create {s : Family} {tid : ℤ} (h : s.pc = .create) (htid : s.nextTid ≤ tid) :
      Step s (.create (some tid))
        { s with
          pc := .downLoad tid
          childs := s.childs ++ [tid]
          child := Function.update s.child tid (some Child.fresh)
          nextTid := tid + 1 }
  | createFails {s : Family} (h : s.pc = .create) :
      Step s (.create none) (s.goto (.downLoad tidError))
  | downLoad {s : Family} {tid : ℤ} (h : s.pc = .downLoad tid) (hv : 0 < s.waitLoad) :
      Step s .downLoad { s.goto (.scan tid s.childs) with waitLoad := s.waitLoad - 1 }
  | scanEnd {s : Family} {tid : ℤ} (h : s.pc = .scan tid []) :
      Step s .scan (s.goto (.returned .exec tid false tid))
  | scanNext {s : Family} {tid t : ℤ} {rest : List ℤ} {c : Child} (h : s.pc = .scan tid (t :: rest))
      (hc : s.child t = some c) (hl : c.isLoad ≠ -1) : Step s .scan (s.goto (.scan tid rest))
  | scanFailed {s : Family} {tid t : ℤ} {rest : List ℤ} {c : Child}
      (h : s.pc = .scan tid (t :: rest)) (hc : s.child t = some c) (hl : c.isLoad = -1) :
      Step s .scan (s.goto (.find .exec tid))
  | wait {s : Family} (tid : ℤ) (h : s.pc.atUser = true) :
      Step s (.wait tid) (s.goto (.find .wait tid))
  | findNot {s : Family} {c : Caller} {tid : ℤ} (h : s.pc = .find c tid)
      (hno : tid = tidError ∨ tid ∉ s.childs) :
      Step s .find (s.goto (.returned c tid false (-1)))
  | find {s : Family} {c : Caller} {tid : ℤ} (h : s.pc = .find c tid) (htid : tid ≠ tidError)
      (hmem : tid ∈ s.childs) : Step s .find (s.goto (.downBlock c tid))
  | downBlock {s : Family} {k : Caller} {tid : ℤ} {c : Child} (h : s.pc = .downBlock k tid)
      (hc : s.child tid = some c) (hv : 0 < c.pblock) :
      Step s .downBlock ((s.setChild tid { c with pblock := c.pblock - 1 }).goto (.remove k tid))
  | remove {s : Family} {k : Caller} {tid : ℤ} (h : s.pc = .remove k tid) :
      Step s .remove { s.goto (.upDefer k tid) with childs := s.childs.erase tid }
  | upDefer {s : Family} {k : Caller} {tid : ℤ} {c : Child} (h : s.pc = .upDefer k tid)
      (hc : s.child tid = some c) :
      Step s .upDefer
        ((s.setChild tid { c with deferBlock := c.deferBlock + 1 }).goto (.readExit k tid))
  | readExit {s : Family} {k : Caller} {tid : ℤ} {c : Child} (h : s.pc = .readExit k tid)
      (hc : s.child tid = some c) :
      Step s .readExit (s.goto (.returned k tid true c.readExitNumber))
  | exit {s : Family} (h : s.pc.atUser = true) : Step s .exit (s.goto .terminated)
  | child {s : Family} {tid : ℤ} {c c' : Child} {a : ChildAct} (hc : s.child tid = some c)
      (hs : c.Steps a c') :
      Step s (.child tid a)
        { s.setChild tid c' with waitLoad := s.waitLoad + if a = .upLoad then 1 else 0 }

/-- A parent that has had no children yet. -/
def Family.Start (s : Family) : Prop :=
  s.pc = .user ∧ s.waitLoad = 0 ∧ s.childs = [] ∧ (∀ tid, s.child tid = none) ∧ 0 < s.nextTid

/-- A parent without children. -/
def lonely : Family := ⟨.user, 0, [], fun _ => none, 1⟩

theorem lonely_start : lonely.Start := ⟨rfl, rfl, rfl, fun _ => rfl, by decide⟩

/-! ## What holds in every run -/

/-- What the steps of a child and the semaphores alone guarantee of it. -/
structure Child.Ok (c : Child) : Prop where
  isLoad : c.isLoad = -1 ↔ c.loaded = false ∧ c.phase.stored = true
  failed : c.loaded = false → c.phase.stored = true → c.exitNumber = -1 ∧ c.phase ≠ .running
  pblock : c.phase.exited = false → c.pblock = 0

theorem Child.Ok.fresh : Child.Ok .fresh :=
  ⟨by decide, fun _ h => absurd h (by decide), fun _ => rfl⟩

theorem Child.Ok.steps {c c' : Child} {a : ChildAct} (h : c.Ok) (hs : c.Steps a c') : c'.Ok := by
  obtain ⟨hload, hfail, hblock⟩ := h
  cases hs with
  | load b h | upLoad h | storeSuccess h hl | storeFailure h hl | exit n h | upBlock h | downDefer h hv
  | free h =>
    constructor <;> simp_all [Phase.stored, Phase.announced, Phase.exited]

section Steps

variable {c c' : Child} {a : ChildAct}

/-- A child that has exited keeps its status. -/
theorem Child.Steps.exited (hs : c.Steps a c') (h : c.phase.exited = true) :
    c'.phase.exited = true ∧ c'.exitNumber = c.exitNumber := by
  cases hs <;> simp_all [Phase.exited]

/-- A child that has not been let past `defer_block` stays before it. -/
theorem Child.Steps.kept (hs : c.Steps a c') (h : c.deferBlock = 0) (hr : c.phase.released = false) :
    c'.deferBlock = 0 ∧ c'.phase.released = false := by
  cases hs <;> simp_all [Phase.released]

/-- Only its `sema_up (&wait_load)` announces a child. -/
theorem Child.Steps.announced (hs : c.Steps a c') (ha : a ≠ .upLoad) :
    c'.phase.announced = c.phase.announced := by
  cases hs <;> simp_all [Phase.announced] <;> decide

theorem Child.Steps.upLoad_iff (hs : c.Steps .upLoad c') :
    c.phase.announced = false ∧ c'.phase.announced = true := by
  cases hs with
  | upLoad h => simp [h, Phase.announced]

/-- The result of `load` does not change once the child has announced it. -/
theorem Child.Steps.loaded (hs : c.Steps a c') (h : c.phase.announced = true) :
    c'.loaded = c.loaded ∧ c'.phase.announced = true := by
  cases hs <;> simp_all [Phase.announced]

theorem Child.Steps.stored (hs : c.Steps a c') (h : c.phase.stored = true) :
    c'.phase.stored = true := by
  cases hs <;> simp_all [Phase.stored, Phase.announced]

theorem Phase.stored_of_exited {ph : Phase} (h : ph.exited = true) : ph.stored = true := by
  cases ph <;> simp_all [Phase.exited, Phase.stored, Phase.announced]

theorem Phase.announced_of_stored {ph : Phase} (h : ph.stored = true) : ph.announced = true := by
  cases ph <;> simp_all [Phase.stored, Phase.announced]

end Steps

/-- What is known of a child that the parent is about to let go, or has let go. -/
def Family.Exited (s : Family) (tid : ℤ) : Prop := ∃ c, s.child tid = some c ∧ c.phase.exited = true

/-- What holds where the parent is in `process_wait`. -/
def ParentPc.Place (s : Family) : ParentPc → Prop
  | .scan _ rest => ∀ t ∈ rest, t ∈ s.childs
  | .downBlock _ tid => tid ∈ s.childs
  | .remove _ tid => tid ∈ s.childs ∧ s.Exited tid
  | .upDefer _ tid => tid ∉ s.childs ∧ s.Exited tid
  | .readExit _ tid => tid ∉ s.childs ∧ s.Exited tid
  | .returned _ tid reaped _ => reaped = true → tid ∉ s.childs ∧ s.Exited tid
  | _ => True

/-- The invariant of every run. -/
structure Family.Ok (s : Family) : Prop where
  ok : ∀ tid c, s.child tid = some c → c.Ok
  known : ∀ tid c, s.child tid = some c → 0 < tid ∧ tid < s.nextTid
  next : 0 < s.nextTid
  listed : ∀ tid, tid ∈ s.childs → ∃ c, s.child tid = some c
  nodup : s.childs.Nodup
  kept : ∀ tid c, s.child tid = some c → (tid ∈ s.childs ∨ ∃ k, s.pc = .upDefer k tid) →
    c.deferBlock = 0 ∧ c.phase.released = false
  place : s.pc.Place s

theorem Family.Start.ok {s : Family} (h : s.Start) : s.Ok := by
  obtain ⟨hpc, _, hchilds, hchild, hnext⟩ := h
  refine ⟨fun tid c hc => ?_, fun tid c hc => ?_, hnext, fun tid ht => ?_, ?_, fun tid c hc => ?_, ?_⟩
  · rw [hchild] at hc
    cases hc
  · rw [hchild] at hc
    cases hc
  · rw [hchilds] at ht
    cases ht
  · rw [hchilds]
    exact List.nodup_nil
  · rw [hchild] at hc
    cases hc
  · rw [hpc]
    trivial

/-- Going to a place where `upDefer` is not next. -/
theorem Family.Ok.goto {s : Family} {pc : ParentPc} (h : s.Ok) (hpc : ∀ k tid, pc ≠ .upDefer k tid)
    (hplace : pc.Place (s.goto pc)) : (s.goto pc).Ok where
  ok := h.ok
  known := h.known
  next := h.next
  listed := h.listed
  nodup := h.nodup
  kept tid c hc hk := by
    rcases hk with hk | ⟨k, hk⟩
    · exact h.kept tid c hc (.inl hk)
    · exact absurd hk (hpc k tid)
  place := hplace

theorem update_eq_some {f : ℤ → Option Child} {tid t : ℤ} {c d : Child}
    (h : Function.update f tid (some c) t = some d) : (t = tid ∧ d = c) ∨ (t ≠ tid ∧ f t = some d) := by
  by_cases ht : t = tid
  · subst ht
    rw [Function.update_self] at h
    exact .inl ⟨rfl, (Option.some.inj h).symm⟩
  · rw [Function.update_of_ne ht] at h
    exact .inr ⟨ht, h⟩

/-- Putting a new record for a child that keeps the invariants of a child. -/
theorem Family.Ok.setChild {s : Family} {tid : ℤ} {c c' : Child} (h : s.Ok) (hc : s.child tid = some c)
    (hok : c'.Ok) (hex : c.phase.exited = true → c'.phase.exited = true)
    (hkept : c.deferBlock = 0 → c.phase.released = false →
      (tid ∈ s.childs ∨ ∃ k, s.pc = .upDefer k tid) → c'.deferBlock = 0 ∧ c'.phase.released = false) :
    (s.setChild tid c').Ok := by
  have hexited : ∀ t, s.Exited t → (s.setChild tid c').Exited t := by
    rintro t ⟨d, hd, hde⟩
    by_cases ht : t = tid
    · subst ht
      rw [hc] at hd
      cases hd
      exact ⟨c', by simp, hex hde⟩
    · exact ⟨d, by simpa [Function.update_of_ne ht] using hd, hde⟩
  refine ⟨fun t d hd => ?_, fun t d hd => ?_, h.next, fun t ht => ?_, h.nodup, fun t d hd hk => ?_, ?_⟩
  · rcases update_eq_some hd with ⟨rfl, rfl⟩ | ⟨_, hd⟩
    · exact hok
    · exact h.ok t d hd
  · rcases update_eq_some hd with ⟨rfl, rfl⟩ | ⟨_, hd⟩
    · exact h.known t c hc
    · exact h.known t d hd
  · by_cases heq : t = tid
    · subst heq
      exact ⟨c', by simp⟩
    · obtain ⟨d, hd⟩ := h.listed t ht
      exact ⟨d, by simpa [Function.update_of_ne heq] using hd⟩
  · rcases update_eq_some hd with ⟨rfl, rfl⟩ | ⟨_, hd⟩
    · obtain ⟨h0, hr⟩ := h.kept t c hc hk
      exact hkept h0 hr hk
    · exact h.kept t d hd hk
  · have hplace := h.place
    show s.pc.Place _
    revert hplace
    cases s.pc with
    | remove k t => exact fun hp => ⟨hp.1, hexited t hp.2⟩
    | upDefer k t => exact fun hp => ⟨hp.1, hexited t hp.2⟩
    | readExit k t => exact fun hp => ⟨hp.1, hexited t hp.2⟩
    | returned k t b v => exact fun hp hb => ⟨(hp hb).1, hexited t (hp hb).2⟩
    | user | create | downLoad t | scan t rest | find k t | downBlock k t | terminated => exact id

section Parent

variable {s : Family} {tid : ℤ} {c : Child} {k : Caller}

/-- A `tid` that has not been given out is no child. -/
theorem Family.Ok.fresh (h : s.Ok) (htid : s.nextTid ≤ tid) : s.child tid = none ∧ tid ∉ s.childs := by
  have hnew : s.child tid = none := by
    by_contra hne
    obtain ⟨c, hc⟩ := Option.ne_none_iff_exists'.mp hne
    have := (h.known tid c hc).2
    omega
  refine ⟨hnew, fun hmem => ?_⟩
  obtain ⟨c, hc⟩ := h.listed tid hmem
  rw [hnew] at hc
  cases hc

theorem Family.Ok.create (h : s.Ok) (htid : s.nextTid ≤ tid) :
    Family.Ok { s with
      pc := .downLoad tid
      childs := s.childs ++ [tid]
      child := Function.update s.child tid (some Child.fresh)
      nextTid := tid + 1 } := by
  obtain ⟨_, hnot⟩ := h.fresh htid
  have hpos := h.next
  refine ⟨fun t d hd => ?_, fun t d hd => ?_, show 0 < tid + 1 by omega, fun t ht => ?_, ?_,
    fun t d hd hk => ?_, trivial⟩
  · rcases update_eq_some hd with ⟨rfl, rfl⟩ | ⟨_, hd⟩
    · exact Child.Ok.fresh
    · exact h.ok t d hd
  · show 0 < t ∧ t < tid + 1
    rcases update_eq_some hd with ⟨rfl, rfl⟩ | ⟨_, hd⟩
    · omega
    · have := h.known t d hd
      omega
  · by_cases heq : t = tid
    · subst heq
      exact ⟨Child.fresh, by simp⟩
    · rcases List.mem_append.mp ht with ht | ht
      · obtain ⟨d, hd⟩ := h.listed t ht
        exact ⟨d, by simpa [Function.update_of_ne heq] using hd⟩
      · exact absurd (List.mem_singleton.mp ht) heq
  · exact List.nodup_append.mpr ⟨h.nodup, List.nodup_singleton tid, fun x hx y hy hxy => by
      rw [List.mem_singleton.mp hy] at hxy
      exact hnot (hxy ▸ hx)⟩
  · rcases update_eq_some hd with ⟨rfl, rfl⟩ | ⟨hne, hd⟩
    · exact ⟨rfl, rfl⟩
    · rcases hk with hk | ⟨k, hk⟩
      · rcases List.mem_append.mp hk with hk | hk
        · exact h.kept t d hd (.inl hk)
        · exact absurd (List.mem_singleton.mp hk) hne
      · cases hk

/-- `sema_down (&thd->pblock)` returns only when the child has exited. -/
theorem Family.Ok.downBlock (h : s.Ok) (hpc : s.pc = .downBlock k tid) (hc : s.child tid = some c)
    (hv : 0 < c.pblock) : ((s.setChild tid { c with pblock := c.pblock - 1 }).goto (.remove k tid)).Ok := by
  have hplace := h.place
  rw [hpc] at hplace
  have hok := h.ok tid c hc
  have hex : c.phase.exited = true := by
    by_contra hno
    have := hok.pblock (by simpa using hno)
    omega
  have hset : (s.setChild tid { c with pblock := c.pblock - 1 }).Ok := h.setChild hc
    ⟨hok.isLoad, hok.failed, fun hno => absurd hex (by simp_all)⟩ id (fun h0 hr _ => ⟨h0, hr⟩)
  exact hset.goto (by simp) ⟨hplace, _, Function.update_self _ _ _, hex⟩

theorem Family.Ok.remove (h : s.Ok) (hpc : s.pc = .remove k tid) :
    Family.Ok { s.goto (.upDefer k tid) with childs := s.childs.erase tid } := by
  have hplace := h.place
  rw [hpc] at hplace
  have hnot : tid ∉ s.childs.erase tid := fun hmem => (h.nodup.mem_erase_iff.mp hmem).1 rfl
  refine ⟨h.ok, h.known, h.next, fun t ht => h.listed t (List.mem_of_mem_erase ht), h.nodup.erase tid,
    fun t d hd hk => ?_, hnot, hplace.2⟩
  rcases hk with hk | ⟨k', hk⟩
  · exact h.kept t d hd (.inl (List.mem_of_mem_erase hk))
  · cases hk
    exact h.kept tid d hd (.inl hplace.1)

/-- `sema_up (&thd->defer_block)` lets a child go that is off the list. -/
theorem Family.Ok.upDefer (h : s.Ok) (hpc : s.pc = .upDefer k tid) (hc : s.child tid = some c) :
    ((s.setChild tid { c with deferBlock := c.deferBlock + 1 }).goto (.readExit k tid)).Ok := by
  have hplace := h.place
  rw [hpc] at hplace
  obtain ⟨hnot, d, hd, hex⟩ := hplace
  obtain rfl : c = d := Option.some.inj (hc.symm.trans hd)
  have hok := h.ok tid c hc
  refine ⟨fun t e he => ?_, fun t e he => ?_, h.next, fun t ht => ?_, h.nodup, fun t e he hk => ?_,
    hnot, _, Function.update_self _ _ _, hex⟩
  · rcases update_eq_some he with ⟨rfl, rfl⟩ | ⟨_, he⟩
    · exact ⟨hok.isLoad, hok.failed, hok.pblock⟩
    · exact h.ok t e he
  · rcases update_eq_some he with ⟨rfl, rfl⟩ | ⟨_, he⟩
    · exact h.known t c hc
    · exact h.known t e he
  · obtain ⟨e, he⟩ := h.listed t ht
    have hne : t ≠ tid := fun heq => hnot (heq ▸ ht)
    exact ⟨e, by simpa [Function.update_of_ne hne] using he⟩
  · rcases hk with hk | ⟨k', hk⟩
    · rcases update_eq_some he with ⟨rfl, rfl⟩ | ⟨_, he⟩
      · exact absurd hk hnot
      · exact h.kept t e he (.inl hk)
    · cases hk

end Parent

/-- **The invariant is kept by every step.** -/
theorem Family.Ok.step {s s' : Family} {a : Act} (h : s.Ok) (hs : Step s a s') : s'.Ok := by
  cases hs with
  | executeFound hpc => exact h.goto (by simp) trivial
  | executeNot hpc => exact h.goto (by simp) (fun hb => nomatch hb)
  | create hpc htid => exact h.create htid
  | createFails hpc => exact h.goto (by simp) trivial
  | @downLoad tid hpc hv =>
    have : (s.goto (.scan tid s.childs)).Ok := h.goto (by simp) (fun t ht => ht)
    exact ⟨this.ok, this.known, this.next, this.listed, this.nodup, this.kept, this.place⟩
  | scanEnd hpc => exact h.goto (by simp) (fun hb => nomatch hb)
  | scanNext hpc hc hl =>
    have hplace := h.place
    rw [hpc] at hplace
    exact h.goto (by simp) (fun t ht => hplace t (List.mem_cons_of_mem _ ht))
  | scanFailed hpc hc hl => exact h.goto (by simp) trivial
  | wait tid hpc => exact h.goto (by simp) trivial
  | findNot hpc hno => exact h.goto (by simp) (fun hb => nomatch hb)
  | find hpc htid hmem => exact h.goto (by simp) hmem
  | downBlock hpc hc hv => exact h.downBlock hpc hc hv
  | remove hpc => exact h.remove hpc
  | upDefer hpc hc => exact h.upDefer hpc hc
  | readExit hpc hc =>
    have hplace := h.place
    rw [hpc] at hplace
    exact h.goto (by simp) fun _ => hplace
  | exit hpc => exact h.goto (by simp) trivial
  | @child tid c c' a hc hs =>
    have hset : (s.setChild tid c').Ok := h.setChild hc ((h.ok tid c hc).steps hs) (fun hex => (hs.exited hex).1)
      (fun h0 hr _ => hs.kept h0 hr)
    refine ⟨hset.ok, hset.known, hset.next, hset.listed, hset.nodup, hset.kept, ?_⟩
    have hplace := hset.place
    revert hplace
    show s.pc.Place _ → s.pc.Place _
    cases s.pc <;> exact id

end Pintos.Userprog
