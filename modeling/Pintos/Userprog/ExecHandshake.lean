import Pintos.Userprog.Family

/-!
# Exec and load

`process_execute` waits on `wait_load` whether or not it has made a thread, and a child that cannot be
loaded ups `wait_load` before it stores `is_load`.  In the runs in which threads can be made and the
parent does not look in between, `process_execute` reports the result of the new child's `load`
(`exec_handshake`).
-/

namespace Pintos.Userprog

variable {s s' : Family} {a : Act}

/-- The step is not a `thread_create` that fails, not a look of the parent at `is_load` of its new child
while that child has announced but not yet stored a failure, and does not free a child whose status
`process_execute` is about to read. -/
structure InTime (s : Family) (a : Act) : Prop where
  create : a ≠ .create none
  scan : a = .scan → ∀ tid rest c, s.pc = .scan tid (tid :: rest) → s.child tid = some c →
    c.phase = .storeLoad → c.loaded = true
  read : ∀ tid, a = .child tid .free → s.pc ≠ .readExit .exec tid

/-- A step that the condition admits. -/
def InTimeStep (s : Family) (a : Act) (s' : Family) : Prop := Step s a s' ∧ InTime s a

/-- What `process_execute` returns when it has made the thread `tid`, or none if that is -1. -/
def Family.ExecResult (s : Family) (tid v : ℤ) : Prop :=
  (∃ c, s.child tid = some c ∧ c.loaded = true ∧ v = tid) ∨
    ((∀ c, s.child tid = some c → c.loaded = false) ∧ v = -1)

/-- The report of `process_execute` at a state. -/
structure Reports (s : Family) : Prop where
  /-- The value returned is the `tid` of the new child if that was loaded, and -1 otherwise. -/
  result : ∀ tid reaped v, s.pc = .returned .exec tid reaped v → s.ExecResult tid v
  /-- A child for which `process_execute` waits has not been loaded. -/
  failed : ∀ tid c, s.pc = .downBlock .exec tid → s.child tid = some c → c.loaded = false
  /-- A parent that blocks on `wait_load` has a child that has not upped it yet. -/
  awaited : ∀ tid, s.pc = .downLoad tid → s.waitLoad = 0 →
    ∃ c, s.child tid = some c ∧ c.phase.announced = false

/-! ### The invariant -/

/-- The call of `process_execute` is about the new child `tid`, still on the list. -/
def ParentPc.current : ParentPc → Option ℤ
  | .downLoad tid => some tid
  | .scan tid _ => some tid
  | .find .exec tid => some tid
  | .downBlock .exec tid => some tid
  | .remove .exec tid => some tid
  | _ => none

/-- The new child has failed, and has stored that. -/
def Family.Failed (s : Family) (tid : ℤ) : Prop :=
  ∃ c, s.child tid = some c ∧ c.loaded = false ∧ c.phase.stored = true

/-- What holds where the parent is in `process_execute`. -/
def ParentPc.ExecPlace (s : Family) : ParentPc → Prop
  | .downLoad tid => tid ∈ s.childs ∧
    ∃ c, s.child tid = some c ∧ s.waitLoad = if c.phase.announced then 1 else 0
  | .scan tid rest => tid ∈ s.childs ∧ ∃ c, s.child tid = some c ∧ (tid ∈ rest ∨ c.loaded = true)
  | .find .exec tid => tid ∈ s.childs ∧ s.Failed tid
  | .downBlock .exec tid => s.Failed tid
  | .remove .exec tid => s.Failed tid
  | .upDefer .exec tid => s.Failed tid
  | .readExit .exec tid => s.Failed tid ∧ ∀ c, s.child tid = some c → c.phase ≠ .freed
  | .returned .exec tid _ v => s.ExecResult tid v
  | _ => True

/-- Outside the wait for a new child `wait_load` is 0, and every child has announced itself; those on the
list, apart from the one that `process_execute` is about, have been loaded. -/
structure Family.ExecOk (s : Family) : Prop where
  waitLoad : (∀ tid, s.pc ≠ .downLoad tid) → s.waitLoad = 0
  announced : ∀ t c, s.child t = some c → s.pc ≠ .downLoad t → c.phase.announced = true
  loaded : ∀ t c, t ∈ s.childs → s.child t = some c → s.pc.current ≠ some t → c.loaded = true
  place : s.pc.ExecPlace s

theorem Family.ExecOk.reports (h : s.ExecOk) : Reports s := by
  have hplace := h.place
  refine ⟨fun tid b v hpc => ?_, fun tid c hpc hc => ?_, fun tid hpc h0 => ?_⟩
  · rw [hpc] at hplace
    exact hplace
  · rw [hpc] at hplace
    obtain ⟨d, hd, hl, _⟩ := hplace
    obtain rfl : c = d := Option.some.inj (hc.symm.trans hd)
    exact hl
  · rw [hpc] at hplace
    obtain ⟨_, c, hc, hw⟩ := hplace
    refine ⟨c, hc, ?_⟩
    cases hann : c.phase.announced with
    | false => rfl
    | true =>
      rw [hann, h0] at hw
      cases hw

theorem Family.Start.execOk (h : s.Start) : s.ExecOk := by
  obtain ⟨hpc, hwait, hchilds, hchild, _⟩ := h
  refine ⟨ fun _ => hwait, fun t c hc => ?_, fun t c ht => ?_, ?_⟩
  · rw [hchild] at hc
    cases hc
  · rw [hchilds] at ht
    cases ht
  · rw [hpc]
    trivial

/-- Going to a place from which no child is awaited. -/
theorem Family.ExecOk.goto {pc : ParentPc} (h : s.ExecOk)
    (hno : ∀ tid, s.pc ≠ .downLoad tid)
    (hcur : ∀ t c, t ∈ s.childs → s.child t = some c → s.pc.current = some t → pc.current ≠ some t →
      c.loaded = true)
    (hplace : pc.ExecPlace (s.goto pc)) : (s.goto pc).ExecOk where
  waitLoad _ := h.waitLoad hno
  announced t c hc _ := h.announced t c hc (hno t)
  loaded t c ht hc hne := by
    by_cases heq : s.pc.current = some t
    · exact hcur t c ht hc heq hne
    · exact h.loaded t c ht hc heq
  place := hplace

/-- Going on in the call about the same child. -/
theorem Family.ExecOk.goto_same {pc : ParentPc} (h : s.ExecOk) (hno : ∀ tid, s.pc ≠ .downLoad tid)
    (hcur : ∀ t, s.pc.current = some t → pc.current = some t) (hplace : pc.ExecPlace (s.goto pc)) :
    (s.goto pc).ExecOk :=
  h.goto hno (fun t _ _ _ heq hne => absurd (hcur t heq) hne) hplace

theorem ParentPc.atUser_current {pc : ParentPc} (h : pc.atUser = true) :
    pc.current = none ∧ ∀ tid, pc ≠ .downLoad tid := by
  cases pc <;> simp_all [ParentPc.atUser, ParentPc.current]

/-- Leaving the program, or coming back to it, changes nothing for the children. -/
theorem Family.ExecOk.goto_user {pc : ParentPc} (h : s.ExecOk)
    (huser : s.pc.atUser = true) (hplace : pc.ExecPlace (s.goto pc)) : (s.goto pc).ExecOk := by
  obtain ⟨hcur, hno⟩ := ParentPc.atUser_current huser
  refine h.goto hno (fun t c _ _ hc => ?_) hplace
  rw [hcur] at hc
  cases hc

theorem Phase.storeLoad_of_announced {ph : Phase} (h : ph.announced = true) (hst : ph.stored = false) :
    ph = .storeLoad := by
  cases ph <;> simp_all [Phase.announced, Phase.stored]

section SetChild

variable {tid : ℤ} {c c' : Child}

theorem Family.Failed.setChild {t : ℤ} (h : s.Failed t) (hc : s.child tid = some c) (hl : c'.loaded = c.loaded)
    (hst : c.phase.stored = true → c'.phase.stored = true) : (s.setChild tid c').Failed t := by
  obtain ⟨d, hd, hdl, hds⟩ := h
  by_cases heq : t = tid
  · subst heq
    obtain rfl : c = d := Option.some.inj (hc.symm.trans hd)
    exact ⟨c', Function.update_self _ _ _, hl.trans hdl, hst hds⟩
  · exact ⟨d, (Function.update_of_ne heq _ _).trans hd, hdl, hds⟩

theorem Family.ExecResult.setChild {t v : ℤ} (h : s.ExecResult t v) (hc : s.child tid = some c)
    (hl : c'.loaded = c.loaded) : (s.setChild tid c').ExecResult t v := by
  rcases h with ⟨d, hd, hdl, hv⟩ | ⟨hnone, hv⟩
  · by_cases heq : t = tid
    · subst heq
      obtain rfl : c = d := Option.some.inj (hc.symm.trans hd)
      exact .inl ⟨c', Function.update_self _ _ _, hl.trans hdl, hv⟩
    · exact .inl ⟨d, (Function.update_of_ne heq _ _).trans hd, hdl, hv⟩
  · refine .inr ⟨fun d hd => ?_, hv⟩
    rcases update_eq_some hd with ⟨rfl, rfl⟩ | ⟨_, hd⟩
    · exact hl.trans (hnone c hc)
    · exact hnone d hd

/-- A later record for a child that is not awaited keeps what holds where the parent is. -/
theorem ParentPc.ExecPlace.setChild {pc : ParentPc} (h : pc.ExecPlace s) (hc : s.child tid = some c)
    (hno : pc ≠ .downLoad tid) (hl : c'.loaded = c.loaded) (hst : c.phase.stored = true → c'.phase.stored = true)
    (hfreed : pc = .readExit .exec tid → c.phase ≠ .freed → c'.phase ≠ .freed) :
    pc.ExecPlace (s.setChild tid c') := by
  cases pc with
  | downLoad t =>
    have hne : t ≠ tid := fun heq => hno (congrArg ParentPc.downLoad heq)
    obtain ⟨ht, d, hd, hw⟩ := h
    exact ⟨ht, d, (Function.update_of_ne hne _ _).trans hd, hw⟩
  | scan t rest =>
    obtain ⟨ht, d, hd, hr⟩ := h
    by_cases heq : t = tid
    · subst heq
      obtain rfl : c = d := Option.some.inj (hc.symm.trans hd)
      exact ⟨ht, c', Function.update_self _ _ _, by rwa [hl]⟩
    · exact ⟨ht, d, (Function.update_of_ne heq _ _).trans hd, hr⟩
  | find k t =>
    cases k with
    | exec => exact ⟨h.1, Family.Failed.setChild h.2 hc hl hst⟩
    | wait => trivial
  | downBlock k t | remove k t | upDefer k t =>
    cases k with
    | exec => exact Family.Failed.setChild h hc hl hst
    | wait => trivial
  | readExit k t =>
    cases k with
    | wait => trivial
    | exec =>
      refine ⟨Family.Failed.setChild h.1 hc hl hst, fun d hd => ?_⟩
      rcases update_eq_some hd with ⟨rfl, rfl⟩ | ⟨_, hd⟩
      · exact hfreed rfl (h.2 c hc)
      · exact h.2 d hd
  | returned k t b v =>
    cases k with
    | wait => trivial
    | exec => exact Family.ExecResult.setChild h hc hl
  | user | create | terminated => trivial

/-- Putting a later record for a child that is not awaited. -/
theorem Family.ExecOk.setChild (h : s.ExecOk) (hc : s.child tid = some c) (hno : s.pc ≠ .downLoad tid)
    (hl : c'.loaded = c.loaded) (hann : c'.phase.announced = true)
    (hst : c.phase.stored = true → c'.phase.stored = true)
    (hfreed : s.pc = .readExit .exec tid → c.phase ≠ .freed → c'.phase ≠ .freed) :
    (s.setChild tid c').ExecOk := by
  refine ⟨h.waitLoad, fun t d hd hpc => ?_, fun t d ht hd hcur => ?_, h.place.setChild hc hno hl hst hfreed⟩
  · rcases update_eq_some hd with ⟨rfl, rfl⟩ | ⟨_, hd⟩
    · exact hann
    · exact h.announced t d hd hpc
  · rcases update_eq_some hd with ⟨rfl, rfl⟩ | ⟨_, hd⟩
    · exact hl.trans (h.loaded t c ht hc hcur)
    · exact h.loaded t d ht hd hcur

end SetChild

/-- A step of a child. -/
theorem Family.ExecOk.child {tid : ℤ} {c c' : Child} {b : ChildAct} (h : s.ExecOk)
    (hc : s.child tid = some c) (hs : c.Steps b c')
    (hread : b = .free → s.pc ≠ .readExit .exec tid) :
    Family.ExecOk { s.setChild tid c' with waitLoad := s.waitLoad + if b = .upLoad then 1 else 0 } := by
  by_cases hpc : s.pc = .downLoad tid
  · -- the new child, for which the parent waits
    have hplace := h.place
    rw [hpc] at hplace
    obtain ⟨htid, d, hd, hw⟩ := hplace
    obtain rfl : c = d := Option.some.inj (hc.symm.trans hd)
    refine ⟨fun hno => absurd hpc (hno tid), fun t d hd hne => ?_, fun t d ht hd hcur => ?_, ?_⟩
    · rcases update_eq_some hd with ⟨rfl, rfl⟩ | ⟨_, hd⟩
      · exact absurd hpc hne
      · exact h.announced t d hd hne
    · rcases update_eq_some hd with ⟨rfl, rfl⟩ | ⟨_, hd⟩
      · exact absurd (congrArg ParentPc.current hpc) hcur
      · exact h.loaded t d ht hd hcur
    · show s.pc.ExecPlace _
      rw [hpc]
      refine ⟨htid, c', Function.update_self _ _ _, ?_⟩
      by_cases hb : b = .upLoad
      · subst hb
        obtain ⟨hann, hann'⟩ := hs.upLoad_iff
        simp [hw, hann, hann']
      · simp [hb, hs.announced hb, hw]
  · have hann := h.announced tid c hc hpc
    have hb : b ≠ .upLoad := fun hb => by
      subst hb
      rw [hs.upLoad_iff.1] at hann
      cases hann
    obtain ⟨hl, hann'⟩ := hs.loaded hann
    rw [if_neg hb]
    refine h.setChild hc hpc hl hann' hs.stored fun hr hf hf' => ?_
    cases hs with
    | free hd => exact hread rfl hr
    | load _ _ | upLoad _ | storeSuccess _ _ | storeFailure _ _ | exit _ _ | upBlock _ | downDefer _ _ =>
      cases hf'

section Parent

variable {tid t : ℤ} {rest : List ℤ} {c : Child} {k : Caller}

/-- `thread_create` makes the child. -/
theorem Family.ExecOk.create (h : s.ExecOk) (hpc : s.pc = .create) :
    Family.ExecOk { s with
      pc := .downLoad tid
      childs := s.childs ++ [tid]
      child := Function.update s.child tid (some Child.fresh)
      nextTid := tid + 1 } := by
  refine ⟨fun hno => absurd rfl (hno tid), fun t d hd hne => ?_, fun t d ht hd hcur => ?_, ?_⟩
  · rcases update_eq_some hd with ⟨rfl, rfl⟩ | ⟨_, hd⟩
    · exact absurd rfl hne
    · exact h.announced t d hd (by simp [hpc])
  · rcases update_eq_some hd with ⟨rfl, rfl⟩ | ⟨hne, hd⟩
    · exact absurd rfl hcur
    · have ht : t ∈ s.childs := (List.mem_append.mp ht).resolve_right fun ht => hne (List.mem_singleton.mp ht)
      exact h.loaded t d ht hd (by simp [hpc, ParentPc.current])
  · exact ⟨List.mem_append_right _ (List.mem_singleton_self tid), .fresh, Function.update_self _ _ _,
      h.waitLoad (by simp [hpc])⟩

/-- The parent comes back from `sema_down (&wait_load)`: the new child has announced itself. -/
theorem Family.ExecOk.downLoad (h : s.ExecOk) (hpc : s.pc = .downLoad tid) (hv : 0 < s.waitLoad) :
    Family.ExecOk { s.goto (.scan tid s.childs) with waitLoad := s.waitLoad - 1 } := by
  have hplace := h.place
  rw [hpc] at hplace
  obtain ⟨htid, c, hc, hw⟩ := hplace
  have hann : c.phase.announced = true := by
    by_contra hno
    rw [if_neg hno] at hw
    omega
  rw [if_pos hann] at hw
  refine ⟨fun _ => by show s.waitLoad - 1 = 0; omega, fun t d hd _ => ?_,
    fun t d ht hd hcur => h.loaded t d ht hd (by rw [hpc]; exact hcur), htid, c, hc, .inl htid⟩
  by_cases heq : t = tid
  · subst heq
    obtain rfl : c = d := Option.some.inj (hc.symm.trans hd)
    exact hann
  · exact h.announced t d hd (by rw [hpc]; exact fun he => heq (by cases he; rfl))

/-- The loop over `childs` comes to its end: the new child is loaded. -/
theorem Family.ExecOk.scanEnd (h : s.ExecOk) (hpc : s.pc = .scan tid []) :
    (s.goto (.returned .exec tid false tid)).ExecOk := by
  have hplace := h.place
  rw [hpc] at hplace
  obtain ⟨htid, c, hc, hr⟩ := hplace
  have hl : c.loaded = true := hr.resolve_left List.not_mem_nil
  refine h.goto (by simp [hpc]) (fun t d _ hd hcur _ => ?_) (.inl ⟨c, hc, hl, rfl⟩)
  rw [hpc] at hcur
  cases hcur
  obtain rfl : c = d := Option.some.inj (hc.symm.trans hd)
  exact hl

/-- The loop goes past a child whose `is_load` is not -1: if that is the new one, it is loaded, for the parent
does not look between its announcement and its store. -/
theorem Family.ExecOk.scanNext (hok : s.Ok) (h : s.ExecOk) (hpc : s.pc = .scan tid (t :: rest))
    (hc : s.child t = some c) (hl : c.isLoad ≠ -1)
    (hintime : t = tid → c.phase = .storeLoad → c.loaded = true) : (s.goto (.scan tid rest)).ExecOk := by
  have hplace := h.place
  rw [hpc] at hplace
  obtain ⟨htid, d, hd, hr⟩ := hplace
  refine h.goto_same (by simp [hpc]) (by rw [hpc]; exact fun _ => id) ⟨htid, d, hd, ?_⟩
  by_cases heq : t = tid
  · -- the look at the new child
    obtain rfl : c = d := Option.some.inj (hc.symm.trans (heq ▸ hd))
    refine .inr ?_
    by_contra hno
    have hfail : c.loaded = false := by simpa using hno
    have hann := h.announced t c hc (by simp [hpc])
    have hst : c.phase.stored = false := by
      by_contra hst
      exact hl ((hok.ok t c hc).isLoad.mpr ⟨hfail, by simpa using hst⟩)
    exact hno (hintime heq (Phase.storeLoad_of_announced hann hst))
  · rcases hr with hr | hr
    · exact .inl ((List.mem_cons.mp hr).resolve_left (Ne.symm heq))
    · exact .inr hr

/-- The loop finds a child that has failed: it is the new one. -/
theorem Family.ExecOk.scanFailed (hok : s.Ok) (h : s.ExecOk) (hpc : s.pc = .scan tid (t :: rest))
    (hc : s.child t = some c) (hl : c.isLoad = -1) : (s.goto (.find .exec tid)).ExecOk := by
  have hplace := h.place
  have hrest := hok.place
  rw [hpc] at hplace hrest
  obtain ⟨hfail, hst⟩ := (hok.ok t c hc).isLoad.mp hl
  have hcur : s.pc.current = some t := by
    by_contra hne
    rw [h.loaded t c (hrest t (List.mem_cons_self ..)) hc hne] at hfail
    cases hfail
  rw [hpc] at hcur
  cases hcur
  exact h.goto_same (by simp [hpc]) (by rw [hpc]; exact fun _ => id) ⟨hplace.1, c, hc, hfail, hst⟩

/-- `process_execute` finds its own child. -/
theorem Family.ExecOk.findNot (hok : s.Ok) (h : s.ExecOk) (hpc : s.pc = .find k tid)
    (hno : tid = tidError ∨ tid ∉ s.childs) : (s.goto (.returned k tid false (-1))).ExecOk := by
  cases k with
  | exec =>
    have hplace := h.place
    rw [hpc] at hplace
    obtain ⟨htid, c, hc, _⟩ := hplace
    have hpos := (hok.known tid c hc).1
    rcases hno with hno | hno
    · rw [hno] at hpos
      exact absurd hpos (by decide)
    · exact absurd htid hno
  | wait => exact h.goto_same (by simp [hpc]) (by simp [hpc, ParentPc.current]) trivial

theorem Family.ExecOk.find (h : s.ExecOk) (hpc : s.pc = .find k tid) : (s.goto (.downBlock k tid)).ExecOk := by
  have hplace := h.place
  rw [hpc] at hplace
  cases k with
  | exec => exact h.goto_same (by simp [hpc]) (by rw [hpc]; exact fun _ => id) hplace.2
  | wait => exact h.goto_same (by simp [hpc]) (by simp [hpc, ParentPc.current]) trivial

/-- The parent's own change of a semaphore of a child that has announced itself. -/
theorem Family.ExecOk.setSema {c' : Child} (h : s.ExecOk) (hc : s.child tid = some c) (hno : ∀ t, s.pc ≠ .downLoad t)
    (hread : s.pc ≠ .readExit .exec tid) (hl : c'.loaded = c.loaded) (hphase : c'.phase = c.phase) :
    (s.setChild tid c').ExecOk :=
  h.setChild hc (hno tid) hl (hphase ▸ h.announced tid c hc (hno tid)) (by rw [hphase]; exact id)
    fun hr => absurd hr hread

theorem Family.ExecOk.downBlock (h : s.ExecOk) (hpc : s.pc = .downBlock k tid) (hc : s.child tid = some c) :
    ((s.setChild tid { c with pblock := c.pblock - 1 }).goto (.remove k tid)).ExecOk := by
  have hset : (s.setChild tid { c with pblock := c.pblock - 1 }).ExecOk :=
    h.setSema hc (by simp [hpc]) (by simp [hpc]) rfl rfl
  have hplace := hset.place
  rw [Family.setChild_pc, hpc] at hplace
  cases k with
  | exec => exact hset.goto_same (by simp [hpc]) (by rw [Family.setChild_pc, hpc]; exact fun _ => id) hplace
  | wait => exact hset.goto_same (by simp [hpc]) (by simp [hpc, ParentPc.current]) trivial

theorem Family.ExecOk.remove (hok : s.Ok) (h : s.ExecOk) (hpc : s.pc = .remove k tid) :
    Family.ExecOk { s.goto (.upDefer k tid) with childs := s.childs.erase tid } := by
  have hplace := h.place
  rw [hpc] at hplace
  refine ⟨fun _ => h.waitLoad (by simp [hpc]), fun t d hd _ => h.announced t d hd (by simp [hpc]),
    fun t d ht hd _ => ?_, ?_⟩
  · have hmem := hok.nodup.mem_erase_iff.mp ht
    refine h.loaded t d hmem.2 hd ?_
    rw [hpc]
    cases k with
    | exec => exact fun heq => hmem.1 (Option.some.inj heq).symm
    | wait => simp [ParentPc.current]
  · cases k with
    | exec => exact hplace
    | wait => trivial

/-- The child that `process_wait` lets go has not been freed: it waits on `defer_block`. -/
theorem Family.ExecOk.upDefer (hok : s.Ok) (h : s.ExecOk) (hpc : s.pc = .upDefer k tid)
    (hc : s.child tid = some c) :
    ((s.setChild tid { c with deferBlock := c.deferBlock + 1 }).goto (.readExit k tid)).ExecOk := by
  have hrel := (hok.kept tid c hc (.inr ⟨k, hpc⟩)).2
  have hset : (s.setChild tid { c with deferBlock := c.deferBlock + 1 }).ExecOk :=
    h.setSema hc (by simp [hpc]) (by simp [hpc]) rfl rfl
  refine hset.goto_same (by simp [hpc]) (by simp [hpc, ParentPc.current]) ?_
  have hplace := hset.place
  rw [Family.setChild_pc, hpc] at hplace
  cases k with
  | wait => trivial
  | exec =>
    refine ⟨hplace, fun d hd hfreed => ?_⟩
    rcases update_eq_some hd with ⟨_, rfl⟩ | ⟨hne, _⟩
    · have hfreed : c.phase = .freed := hfreed
      rw [hfreed] at hrel
      cases hrel
    · exact absurd rfl hne

/-- The status of a child that has not been loaded is -1. -/
theorem Family.ExecOk.readExit (hok : s.Ok) (h : s.ExecOk) (hpc : s.pc = .readExit k tid)
    (hc : s.child tid = some c) : (s.goto (.returned k tid true c.readExitNumber)).ExecOk := by
  refine h.goto_same (by simp [hpc]) (by simp [hpc, ParentPc.current]) ?_
  have hplace := h.place
  rw [hpc] at hplace
  cases k with
  | wait => trivial
  | exec =>
    obtain ⟨⟨d, hd, hl, hst⟩, hfreed⟩ := hplace
    obtain rfl : c = d := Option.some.inj (hc.symm.trans hd)
    refine .inr ⟨fun e he => ?_, ?_⟩
    · obtain rfl : c = e := Option.some.inj (hc.symm.trans he)
      exact hl
    · rw [Child.readExitNumber, if_neg (hfreed c hc)]
      exact ((hok.ok tid c hc).failed hl hst).1

end Parent

/-- **The invariant is kept by every step in time.** -/
theorem Family.ExecOk.step (hok : s.Ok) (h : s.ExecOk) (hs : InTimeStep s a s') : s'.ExecOk := by
  obtain ⟨hs, htime⟩ := hs
  cases hs with
  | executeFound hpc => exact h.goto_user hpc trivial
  | executeNot hpc =>
    refine h.goto_user hpc (.inr ⟨fun c hc => ?_, rfl⟩)
    exact absurd (hok.known _ _ hc).1 (by decide)
  | wait tid hpc => exact h.goto_user hpc trivial
  | exit hpc => exact h.goto_user hpc trivial
  | create hpc _ => exact h.create hpc
  | createFails hpc => exact absurd rfl htime.create
  | downLoad hpc hv => exact h.downLoad hpc hv
  | scanEnd hpc => exact h.scanEnd hpc
  | @scanNext tid t rest c hpc hc hl =>
    refine h.scanNext hok hpc hc hl fun heq hst => ?_
    subst heq
    exact htime.scan rfl t rest c hpc hc hst
  | scanFailed hpc hc hl => exact h.scanFailed hok hpc hc hl
  | findNot hpc hno => exact h.findNot hok hpc hno
  | find hpc _ _ => exact h.find hpc
  | downBlock hpc hc _ => exact h.downBlock hpc hc
  | remove hpc => exact h.remove hok hpc
  | upDefer hpc hc => exact h.upDefer hok hpc hc
  | readExit hpc hc => exact h.readExit hok hpc hc
  | @child tid c c' b hc hs => exact h.child hc hs fun hb => htime.read tid (by rw [hb])

end Pintos.Userprog
