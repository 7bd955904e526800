import Pintos.Threads.Mlfqs
import Pintos.Threads.Preemption

/-!
# The range of the priorities

`renew_prior` and `thread_set_nice` bring a priority into the range of `PRI_MIN` and `PRI_MAX`, and
`init_thread` looks whether it is in there.  `thread_aging` adds 1 without a look at `PRI_MAX`.
-/

namespace Pintos.Threads.Kernel

variable {k k' : Kernel}

/-- A priority between `PRI_MIN` and `PRI_MAX`. -/
def IsPriority (p : ℤ) : Prop := priMin ≤ p ∧ p ≤ priMax

/-- All threads have such a priority. -/
def PrioritiesInRange (k : Kernel) : Prop := ∀ t ∈ k.allList, IsPriority (k.priority t)

/-- The arguments of `thread_create`, `thread_set_priority` and `thread_set_nice` are what they are for. -/
def ArgumentInRange : Act → Prop
  | .call (.create _ p) | .call (.setPriority p) => IsPriority p
  | .call (.setNice n) => NiceRange n
  | _ => True

/-- At a tick with aging no queued thread has the priority `PRI_MAX`. -/
def RoomToAge (k : Kernel) : Act → Prop
  | .interrupt => k.aging = true → ∀ t ∈ k.readyList, k.priority t ≠ priMax
  | _ => True

/-- The threads that there are have the same priorities. -/
theorem PrioritiesInRange.congr (h : PrioritiesInRange k) (hall : ∀ t ∈ k'.allList, t ∈ k.allList)
    (hp : k'.priority = k.priority) : PrioritiesInRange k' := by
  intro t ht
  rw [hp]
  exact h t (hall t ht)

/-- One priority is set. -/
theorem PrioritiesInRange.update (h : PrioritiesInRange k) {t : ℕ} {p : ℤ} (hp : IsPriority p)
    (hall : ∀ u ∈ k'.allList, u = t ∨ u ∈ k.allList) (heq : k'.priority = Function.update k.priority t p) :
    PrioritiesInRange k' := by
  intro u hu
  rw [heq, Function.update_apply]
  split
  · exact hp
  · exact h u ((hall u hu).resolve_left ‹_›)

/-! ## The tick -/

/-- `renew_prior` -/
theorem PrioritiesInRange.renewPrior (h : PrioritiesInRange k) : PrioritiesInRange k.renewPrior.value := by
  apply forEach_keeps (fun t k h => ?_) _ h
  exact h.update (t := t) (feedbackPriority_range (k.recentCpu t) (k.nice t)) (fun _ hu => .inr hu) rfl

/-- The part of `thread_tick` for the feedback scheduler. -/
theorem PrioritiesInRange.feedback (h : PrioritiesInRange k) : PrioritiesInRange k.feedback.value := by
  have huse : PrioritiesInRange k.countTick.value.renewUse.value := by
    obtain ⟨p, r, a, heq⟩ := renewUse_renewed k.countTick.value
    apply h.congr
    · rw [heq]
      exact fun _ ht => ht
    · exact renewUse_priority k.countTick.value
  show PrioritiesInRange k.countTick.value.renewUse.value.renewOrder.value
  unfold renewOrder
  split
  · exact huse.renewPrior
  · exact huse

/-- `thread_aging` keeps the range where no queued thread is at its end. -/
theorem PrioritiesInRange.threadAging_iff (h : PrioritiesInRange k) (hlists : Lists k) :
    PrioritiesInRange k.threadAging.value ↔ ∀ t ∈ k.readyList, k.priority t ≠ priMax := by
  have hall : k.threadAging.value.allList = k.allList := by
    obtain ⟨p, r, a, heq⟩ := threadAging_renewed k
    rw [heq]
  have hready : ∀ t ∈ k.readyList, t ∈ k.allList := fun t ht =>
    hlists.mem_allList (by rw [hlists.status .ready t ht]; nofun)
  have hplus : ∀ t ∈ k.allList, wrap32 (k.priority t + 1) = k.priority t + 1 := fun t ht => by
    obtain ⟨hl, hu⟩ := h t ht
    unfold priMin priMax at *
    exact wrap32_of_mem (by omega) (by omega)
  have hp := threadAging_priority (hlists.disjoint.nodup .ready)
  constructor
  · intro h' t ht hmax
    have hle := (h' t (hall ▸ hready t ht)).2
    rw [hp, if_pos ht, hplus t (hready t ht), hmax] at hle
    exact absurd hle (by decide)
  · intro hroom t ht
    rw [hall] at ht
    rw [hp]
    split
    · obtain ⟨hl, hu⟩ := h t ht
      have hne := hroom t ‹_›
      rw [hplus t ht]
      exact ⟨by omega, by omega⟩
    · exact h t ht

theorem PrioritiesInRange.renew_iff (h : PrioritiesInRange k) (hlists : Lists k) :
    PrioritiesInRange k.renew.value ↔ (k.aging = true → ∀ t ∈ k.readyList, k.priority t ≠ priMax) := by
  unfold Kernel.renew
  by_cases haging : k.aging = true
  · rw [if_pos haging]
    exact (h.threadAging_iff hlists).trans ⟨fun hroom _ => hroom, fun hroom => hroom haging⟩
  · rw [if_neg haging]
    refine iff_of_true ?_ fun ha => absurd ha haging
    split
    · exact h.feedback
    · exact h

/-! ## Runs -/

/-- **A step keeps the range where it does not age a thread at its end.** -/
theorem PrioritiesInRange.step_iff (h : PrioritiesInRange k) (hinv : Inv k) {a : Act} (hargument : ArgumentInRange a)
    (hs : Step k a k') : PrioritiesInRange k' ↔ k.RoomToAge a := by
  cases hs with
  | interrupt hon hs =>
    have hsame := (timerInterrupt_scheduled hs).sameNumbers
    have hlists : Lists k.tick := hinv.lists.congr rfl rfl rfl rfl rfl fun _ _ => rfl
    have hrenew := PrioritiesInRange.renew_iff (k := k.tick) h hlists
    refine Iff.trans ?_ hrenew
    unfold PrioritiesInRange
    rw [hsame.allList, hsame.priority]
  | next hi hs =>
    have hsame := instr_sameNumbers hs
    exact iff_of_true (h.congr (fun _ ht => hsame.allList ▸ ht) hsame.priority) trivial
  | @call _ c hc hfree hs =>
    refine iff_of_true ?_ trivial
    cases c with
    | create t p =>
      obtain ⟨k₁, hinit, rfl⟩ := Option.map_eq_some_iff.mp hs
      obtain ⟨hrange, rfl⟩ := initThread_eq_some hinit
      apply h.update hrange _ rfl
      intro u hu
      rw [or_comm]
      exact (List.mem_append.mp hu).imp id List.mem_singleton.mp
    | setPriority p =>
      rcases threadSetPriority_switched hs with ⟨rfl, -⟩ | hs
      · exact h
      · have hsame := hs.scheduled.sameNumbers
        exact h.update hargument (fun _ hu => .inr (hsame.allList ▸ hu)) hsame.priority
    | setNice n =>
      cases hs
      exact h.update (feedbackPriority_range _ n) (fun _ hu => .inr hu) rfl
    | exit =>
      have hsame := threadExit_sameNumbers hs
      exact h.congr (fun _ ht => List.mem_of_mem_erase (hsame.allList ▸ ht)) hsame.priority
    | _ =>
      have hsame := call_sameNumbers hs nofun nofun nofun nofun
      exact h.congr (fun _ ht => hsame.allList ▸ ht) hsame.priority

/-- A step with such arguments. -/
def RangedStep (k : Kernel) (a : Act) (k' : Kernel) : Prop := ProperStep k a k' ∧ ArgumentInRange a

/-- One that leaves room to age. -/
def RoomyStep (k : Kernel) (a : Act) (k' : Kernel) : Prop := RangedStep k a k' ∧ k.RoomToAge a

/-- **All priorities are between `PRI_MIN` and `PRI_MAX`** in every state of a run in which no thread that is queued
with the priority `PRI_MAX` gets older; and a further step keeps them there if and only if it is of this kind. -/
theorem priorities_in_range {mlfqs aging : Bool} {value : ℕ → ℕ} {as : List Act}
    (hrun : Trace RoomyStep (boot mlfqs aging value) as k) :
    PrioritiesInRange k ∧ ∀ a k', RangedStep k a k' → (PrioritiesInRange k' ↔ k.RoomToAge a) := by
  have hboot : PrioritiesInRange (boot mlfqs aging value) := by
    intro t _
    show IsPriority (if t = initialThread then priDefault else priMin)
    split
    · exact ⟨by decide, by decide⟩
    · exact ⟨by decide, by decide⟩
  have hI : Inv k ∧ PrioritiesInRange k := by
    apply hrun.invariant (I := fun k => Inv k ∧ PrioritiesInRange k) _ ⟨boot_inv mlfqs aging value, hboot⟩
    intro k a k' hI hs
    obtain ⟨⟨⟨hs, hproper⟩, hargument⟩, hroom⟩ := hs
    exact ⟨hI.1.step hproper hs, (hI.2.step_iff hI.1 hargument hs).mpr hroom⟩
  exact ⟨hI.2, fun a k' hs => hI.2.step_iff hI.1 hs.2 hs.1.1⟩

/-- A thread at the lower end gets older. -/
theorem priorities_in_range_aged : ∃ k : Kernel, k.readyList = [2] ∧ k.priority 2 = 1 ∧ PrioritiesInRange k := by
  have hrun : (runWhile (fun k _ _ => k.readyList.all fun t => k.priority t ≠ priMax)
      (startUp ++ calls (.create 2 0) 7 ++ [.interrupt]) (boot false true fun _ => 0)).map
      (fun k => (k.readyList, k.priority 2)) = some ([2], 1) := by
    decide +kernel
  obtain ⟨k, hrun, hk⟩ := Option.map_eq_some_iff.mp hrun
  obtain ⟨hl, hp⟩ := Prod.mk.inj hk
  have htrace := runWhile_trace (P := fun k a => k.Proper a ∧ ArgumentInRange a)
    (by simp [startUp, calls, Proper, ArgumentInRange, IsPriority, priMin, priMax]) hrun
  refine ⟨k, hl, hp, (priorities_in_range (htrace.mono fun k a k' h => ?_)).1⟩
  obtain ⟨hs, ⟨hproper, hargument⟩, hcheck⟩ := h
  refine ⟨⟨⟨hs, hproper⟩, hargument⟩, ?_⟩
  cases a with
  | interrupt => exact fun _ t ht => of_decide_eq_true (List.all_eq_true.mp hcheck t ht)
  | _ => trivial

/-- `main` and a thread that it creates have the priority `PRI_MAX`, and the thread gets older. -/
theorem aging_leaves_range : ¬∀ mlfqs aging value as k, Trace RangedStep (boot mlfqs aging value) as k →
    PrioritiesInRange k := by
  intro hall
  have hrun : (run (startUp ++ calls (.setPriority 63) 0 ++ calls (.create 2 63) 7 ++ [.interrupt])
      (boot false true fun _ => 0)).map (fun k => (k.allList, k.priority 2)) = some ([0, 1, 2], 64) := by
    decide +kernel
  obtain ⟨k, hrun, hk⟩ := Option.map_eq_some_iff.mp hrun
  obtain ⟨hl, hp⟩ := Prod.mk.inj hk
  have htrace := run_trace (P := fun k a => k.Proper a ∧ ArgumentInRange a)
    (by simp [startUp, calls, Proper, ArgumentInRange, IsPriority, priMin, priMax]) hrun
  have hrange := hall _ _ _ _ k (htrace.mono fun _ _ _ h => ⟨⟨h.1, h.2.1⟩, h.2.2⟩) 2 (by rw [hl]; decide)
  rw [hp] at hrange
  exact absurd hrange.2 (by decide)

end Pintos.Threads.Kernel
