import Pintos.Userprog.Family

/-!
# Wait and exit

`process_wait` takes the child off the list, ups `defer_block` and reads `exit_number` after that, and
`process_exit` of a parent leaves the children that it has not waited for alone.  In the runs that avoid
what follows from this, the handshake is right (`wait_handshake`).
-/

namespace Pintos.Userprog

variable {s s' : Family} {a : Act}

/-- A child that waits in `sema_down (&defer_block)`. -/
def Child.Deferred (c : Child) : Prop := c.phase = .downDefer ∧ c.deferBlock = 0

/-- The step does not free a child whose status the parent is about to read, does not end a parent with
a child that waits at `defer_block`, and does not bring a child to `defer_block` after its parent. -/
structure Orderly (s : Family) (a : Act) : Prop where
  read : ∀ tid k, a = .child tid .free → s.pc ≠ .readExit k tid
  parent : a = .exit → ∀ tid c, s.child tid = some c → ¬c.Deferred
  child : ∀ tid, a = .child tid .upBlock → s.pc ≠ .terminated

/-- A step that the condition admits. -/
def OrderlyStep (s : Family) (a : Act) (s' : Family) : Prop := Step s a s' ∧ Orderly s a

/-- The handshake at a state. -/
structure Handshake (s : Family) : Prop where
  /-- The value returned is the status that the child has stored. -/
  status : ∀ k tid v, s.pc = .returned k tid true v →
    ∃ c, s.child tid = some c ∧ c.phase.exited = true ∧ v = c.exitNumber
  /-- The status is read while the page of the child is allocated. -/
  allocated : ∀ k tid c, s.pc = .readExit k tid → s.child tid = some c → c.phase ≠ .freed
  /-- No child waits at `defer_block` for a parent that has terminated. -/
  orphan : s.pc = .terminated → ∀ tid c, s.child tid = some c → ¬c.Deferred

theorem Handshake.of_pc (hstatus : ∀ k tid v, s.pc ≠ .returned k tid true v)
    (hread : ∀ k tid, s.pc ≠ .readExit k tid) (hterm : s.pc ≠ .terminated) : Handshake s :=
  ⟨fun k tid v h => absurd h (hstatus k tid v), fun k tid _ h => absurd h (hread k tid),
    fun h => absurd h hterm⟩

theorem Child.Steps.deferred {c c' : Child} {b : ChildAct} (hs : c.Steps b c') (hb : b ≠ .upBlock)
    (_ : ¬c.Deferred) : ¬c'.Deferred := by
  cases hs <;> simp_all [Child.Deferred]

theorem Child.Steps.not_freed {c c' : Child} {b : ChildAct} (hs : c.Steps b c') (hb : b ≠ .free)
    (_ : c.phase ≠ .freed) : c'.phase ≠ .freed := by
  cases hs <;> simp_all

theorem Handshake.step (hok : s.Ok) (h : Handshake s) (hs : OrderlyStep s a s') : Handshake s' := by
  obtain ⟨hs, horder⟩ := hs
  cases hs with
  | @upDefer k tid c hpc hc =>
    -- the child cannot have got past `defer_block` before
    refine ⟨fun k' t v h => (nomatch h), fun k' t d hr hd => ?_, fun h => (nomatch h)⟩
    cases hr
    rcases update_eq_some hd with ⟨_, rfl⟩ | ⟨hne, _⟩
    · have hrel := (hok.kept tid c hc (.inr ⟨k, hpc⟩)).2
      intro hfreed
      have hfreed : c.phase = .freed := hfreed
      rw [hfreed] at hrel
      cases hrel
    · exact absurd rfl hne
  | @readExit k tid c hpc hc =>
    have hplace := hok.place
    rw [hpc] at hplace
    obtain ⟨_, d, hd, hex⟩ := hplace
    obtain rfl : c = d := Option.some.inj (hc.symm.trans hd)
    refine ⟨fun k' t v hr => ?_, fun k' t d h => (nomatch h), fun h => (nomatch h)⟩
    cases hr
    exact ⟨c, hc, hex, if_neg (h.allocated k tid c hpc hc)⟩
  | exit hpc =>
    exact ⟨fun k t v h => (nomatch h), fun k t d h => (nomatch h), fun _ => horder.parent rfl⟩
  | @child tid c c' b hc hs =>
    refine ⟨fun k t v hr => ?_, fun k t d hr hd => ?_, fun hterm t d hd => ?_⟩
    · obtain ⟨d, hd, hex, hv⟩ := h.status k t v hr
      by_cases heq : t = tid
      · subst heq
        obtain rfl : c = d := Option.some.inj (hc.symm.trans hd)
        obtain ⟨hex', hv'⟩ := hs.exited hex
        exact ⟨c', Function.update_self _ _ _, hex', hv.trans hv'.symm⟩
      · exact ⟨d, (Function.update_of_ne heq _ _).trans hd, hex, hv⟩
    · rcases update_eq_some hd with ⟨rfl, rfl⟩ | ⟨_, hd⟩
      · have hfree : b ≠ .free := fun hb => horder.read t k (by rw [hb]) hr
        exact hs.not_freed hfree (h.allocated k t c hr hc)
      · exact h.allocated k t d hr hd
    · rcases update_eq_some hd with ⟨rfl, rfl⟩ | ⟨_, hd⟩
      · have hup : b ≠ .upBlock := fun hb => horder.child t (by rw [hb]) hterm
        exact hs.deferred hup (h.orphan hterm t c hc)
      · exact h.orphan hterm t d hd
  | findNot hpc hno | executeNot hpc | scanEnd hpc | executeFound hpc | create hpc htid | createFails hpc
  | downLoad hpc hv | scanNext hpc hc hl | scanFailed hpc hc hl | wait tid hpc | find hpc htid hmem
  | downBlock hpc hc hv | remove hpc =>
    exact Handshake.of_pc (fun _ _ _ => nofun) (fun _ _ => nofun) nofun

/-- A child that has been waited for stays off the list. -/
theorem Family.Ok.gone_step {tid : ℤ} (hok : s.Ok) (hs : Step s a s')
    (h : (∃ c, s.child tid = some c) ∧ tid ∉ s.childs) :
    (∃ c, s'.child tid = some c) ∧ tid ∉ s'.childs := by
  obtain ⟨⟨c, hc⟩, hnot⟩ := h
  have hupdate : ∀ t (d : Child), ∃ e, Function.update s.child t (some d) tid = some e := fun t d => by
    by_cases heq : tid = t
    · subst heq
      exact ⟨d, Function.update_self _ _ _⟩
    · exact ⟨c, (Function.update_of_ne heq _ _).trans hc⟩
  cases hs with
  | @create t hpc ht =>
    refine ⟨hupdate t .fresh, fun hmem => ?_⟩
    rcases List.mem_append.mp hmem with hmem | hmem
    · exact hnot hmem
    · have := (hok.known tid c hc).2
      rw [List.mem_singleton.mp hmem] at this
      omega
  | downBlock hpc hd hv => exact ⟨hupdate _ _, hnot⟩
  | upDefer hpc hd => exact ⟨hupdate _ _, hnot⟩
  | child hd hs => exact ⟨hupdate _ _, hnot⟩
  | remove hpc => exact ⟨⟨c, hc⟩, fun hmem => hnot (List.mem_of_mem_erase hmem)⟩
  | executeFound hpc | executeNot hpc | createFails hpc | downLoad hpc hv | scanEnd hpc
  | scanNext hpc hd hl | scanFailed hpc hd hl | wait t hpc | findNot hpc hno | find hpc ht hmem
  | readExit hpc hd | exit hpc => exact ⟨⟨c, hc⟩, hnot⟩

/-- In `process_wait (tid)` the parent returns -1 in its next step, and no other step is its next. -/
def ReturnsAtOnce (s : Family) (k : Caller) (tid : ℤ) : Prop :=
  Step s .find (s.goto (.returned k tid false (-1))) ∧
    ∀ a s', Step s a s' → s'.pc = s.pc ∨ s'.pc = .returned k tid false (-1)

theorem returnsAtOnce {k : Caller} {tid : ℤ} (hpc : s.pc = .find k tid) (hnot : tid ∉ s.childs) :
    ReturnsAtOnce s k tid := by
  refine ⟨.findNot hpc (.inr hnot), fun a s' hs => ?_⟩
  cases hs with
  | @findNot k' t hpc' hno =>
    rw [hpc] at hpc'
    cases hpc'
    exact .inr rfl
  | @find k' t hpc' ht hmem =>
    rw [hpc] at hpc'
    cases hpc'
    exact absurd hmem hnot
  | child hc hs => exact .inl rfl
  | executeFound h | executeNot h | wait t h | exit h => simp [hpc, ParentPc.atUser] at h
  | create h ht | createFails h | downLoad h hv | scanEnd h | scanNext h hd hl | scanFailed h hd hl
  | downBlock h hd hv | remove h | upDefer h hd | readExit h hd =>
    rw [hpc] at h
    cases h

/-- A child is loaded, its program ends with the status 7, and the parent's `wait` for it gets to the
load of `exit_number`. -/
def reapFirst : List Act :=
  [.execute true, .create (some 1), .child 1 (.load true), .child 1 .upLoad, .downLoad, .scan, .scan,
    .child 1 .storeLoad, .child 1 (.exit 7), .child 1 .upBlock, .wait 1, .find, .downBlock, .remove,
    .upDefer]

theorem orderly_of_ne (hfree : ∀ tid, a ≠ .child tid .free) (hexit : a ≠ .exit)
    (hpc : s.pc ≠ .terminated) : Orderly s a :=
  ⟨fun tid _ h => absurd h (hfree tid), fun h => absurd h hexit, fun _ _ => hpc⟩

theorem trace_reapFirst : ∃ s, Trace OrderlyStep lonely reapFirst s ∧ s.pc = .readExit .wait 1 ∧
    s.child 1 = some ⟨.downDefer, true, 1, 0, 1, 7⟩ := by
  have hstep : ∀ {s a s'}, Step s a s' → (∀ tid, a ≠ .child tid .free) → a ≠ .exit →
      s.pc ≠ .terminated → OrderlyStep s a s' := fun hs h₁ h₂ h₃ => ⟨hs, orderly_of_ne h₁ h₂ h₃⟩
  exact ⟨_,
    .cons (hstep (.executeFound rfl) nofun nofun nofun) <|
    .cons (hstep (.create rfl (by decide)) nofun nofun nofun) <|
    .cons (hstep (.child rfl (.load true rfl)) nofun nofun nofun) <|
    .cons (hstep (.child rfl (.upLoad rfl)) nofun nofun nofun) <|
    .cons (hstep (.downLoad rfl (by decide)) nofun nofun nofun) <|
    .cons (hstep (.scanNext rfl rfl (by decide)) nofun nofun nofun) <|
    .cons (hstep (.scanEnd rfl) nofun nofun nofun) <|
    .cons (hstep (.child rfl (.storeSuccess rfl rfl)) nofun nofun nofun) <|
    .cons (hstep (.child rfl (.exit 7 rfl)) nofun nofun nofun) <|
    .cons (hstep (.child rfl (.upBlock rfl)) nofun nofun nofun) <|
    .cons (hstep (.wait 1 rfl) nofun nofun nofun) <|
    .cons (hstep (.find rfl (by decide) (by decide)) nofun nofun nofun) <|
    .cons (hstep (.downBlock rfl rfl (by decide)) nofun nofun nofun) <|
    .cons (hstep (.remove rfl) nofun nofun nofun) <|
    .single (hstep (.upDefer rfl rfl) nofun nofun nofun), rfl, rfl⟩

end Pintos.Userprog
