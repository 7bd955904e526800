import Pintos.Threads.Alarm

/-!
# The tick at which the next sleeper is due

`get_next_awake` returns the `smallest_tick` of `thread.c`.  `wake_thread` sets the one of `timer.c` to `INT64_MAX`
before it builds the minimum again, so that the one of `thread.c` is never raised: it stays at 0, from where it
starts, unless the tick of a sleeper is negative.
-/

namespace Pintos.Threads.Kernel

variable {k k' : Kernel}

/-- `get_next_awake` -/
def getNextAwake (k : Kernel) : ℤ := k.smallestTick

/-- The lowest tick of a sleeper, and `INT64_MAX` if there is none. -/
def nextWake (k : Kernel) : ℤ := (k.blockList.map k.wakeT).foldl min int64Max

/-- What `get_next_awake` returns is this. -/
def CacheExact (k : Kernel) : Prop := k.getNextAwake = k.nextWake

/-- The argument of `timer_sleep` is an `int64_t`. -/
def WordArgument : Act → Prop
  | .call (.sleep ticks) => -2 ^ 63 ≤ ticks ∧ ticks < 2 ^ 63
  | _ => True

/-- The running thread puts itself into `block_list` with the tick `w`. -/
def Registers (k : Kernel) (w : ℤ) (a : Act) : Prop :=
  ∃ freed start ticks is, a = .next freed ∧ k.control k.current = .sleep start ticks :: is ∧ 0 < ticks ∧
    w = wrap64 (ticks + start)

/-- The step is a registration in `timer_sleep` or a timer interrupt. -/
def Completes (k : Kernel) (a : Act) : Prop := a = .interrupt ∨ ∃ w, k.Registers w a

/-- After such a step the cache is exact, and the interrupt scans the list only when a sleeper is due. -/
def Punctual (k : Kernel) (a : Act) (k' : Kernel) : Prop :=
  (k.Completes a → CacheExact k') ∧
  (a = .interrupt → k.getNextAwake ≤ k.tick.ticks → ∃ u ∈ k.blockList, k.wakeT u ≤ k.tick.ticks)

/-- The clock is below the cache, or the new sleeper is due no later than the cache says; or, for both, the cache
has been exact. -/
def KeepsCache (k : Kernel) : Act → Prop
  | .interrupt => k.tick.ticks < k.getNextAwake ∧ CacheExact k
  | a => ∃ w, k.Registers w a ∧ (w ≤ k.getNextAwake ∨ CacheExact k)

/-! ## The minimum -/

theorem le_foldl_min {x m : ℤ} {l : List ℤ} : x ≤ l.foldl min m ↔ x ≤ m ∧ ∀ y ∈ l, x ≤ y := by
  induction l generalizing m with
  | nil => simp
  | cons y l ih => rw [List.foldl_cons, ih, le_min_iff, List.forall_mem_cons, and_assoc]

theorem le_nextWake_iff {x : ℤ} : x ≤ k.nextWake ↔ x ≤ int64Max ∧ ∀ u ∈ k.blockList, x ≤ k.wakeT u := by
  rw [nextWake, le_foldl_min, List.forall_mem_map]

/-- A sleeper more. -/
theorem nextWake_append {u : ℕ} {w : ℤ} (hu : u ∉ k.blockList) (hl : k'.blockList = k.blockList ++ [u])
    (hw : k'.wakeT = Function.update k.wakeT u w) : k'.nextWake = min k.nextWake w := by
  have hother : k.blockList.map (Function.update k.wakeT u w) = k.blockList.map k.wakeT := by
    apply List.map_congr_left
    intro v hv
    exact Function.update_of_ne (fun (h : v = u) => hu (h ▸ hv)) _ _
  rw [nextWake, hl, hw, List.map_append, hother, List.foldl_append]
  show min k.nextWake (Function.update k.wakeT u w u) = _
  rw [Function.update_self]

/-- The sleepers and the cache are the same. -/
theorem SameSleepers.cacheExact_iff (h : SameSleepers k k') : CacheExact k' ↔ CacheExact k := by
  obtain ⟨hl, hw, hs⟩ := h
  unfold CacheExact getNextAwake nextWake
  rw [hl, hw, hs]

/-- The cache is below every sleeper, and not above 0. -/
structure CacheLow (k : Kernel) : Prop where
  inv : Inv k
  alarmed : Alarmed k
  low : k.getNextAwake ≤ 0

theorem CacheLow.le_nextWake (h : CacheLow k) : k.getNextAwake ≤ k.nextWake :=
  le_nextWake_iff.mpr ⟨h.low.trans (by decide), h.alarmed⟩

/-! ## The two steps -/

/-- What `timer_sleep` does when it registers the thread. -/
theorem Registers.step {w : ℤ} {a : Act} (h : k.Registers w a) (hs : Step k a k') :
    k'.blockList = k.blockList ++ [k.current] ∧ k'.wakeT = Function.update k.wakeT k.current w ∧
      k'.getNextAwake = min k.getNextAwake w := by
  obtain ⟨freed, start, ticks, is, rfl, hi, hpos, rfl⟩ := h
  cases hs with
  | next hi' hs =>
    rw [hi] at hi'
    cases hi'
    rw [instr, timerSleep, if_neg (not_le.mpr hpos)] at hs
    obtain ⟨hl, hw, hsmall⟩ := (threadBlock_switched hs).sameSleepers
    refine ⟨hl, hw, hsmall.trans ?_⟩
    show (if k.smallestTick > wrap64 (ticks + start) then wrap64 (ticks + start) else k.smallestTick) = min _ _
    split
    · exact (min_eq_right (le_of_lt ‹_›)).symm
    · exact (min_eq_left (not_lt.mp ‹_›)).symm

/-- **The cache after a registration.** -/
theorem CacheLow.register_iff (h : CacheLow k) {w : ℤ} {a : Act} (hreg : k.Registers w a) (hs : Step k a k') :
    CacheExact k' ↔ w ≤ k.getNextAwake ∨ CacheExact k := by
  have hcur : k.current ∉ k.blockList := h.inv.lists.not_mem_of_status (.inl h.inv.running) .sleeping
  obtain ⟨hl, hw, hcache⟩ := hreg.step hs
  have hle := h.le_nextWake
  unfold CacheExact
  rw [hcache, nextWake_append hcur hl hw]
  omega

/-- The interrupt, up to the end of the handler: the cache is not raised, and it is exact only where there has been
no scan. -/
theorem CacheLow.timerHandler (h : CacheLow k) (hs : k.timerHandler = some k') :
    k'.getNextAwake ≤ k.getNextAwake ∧ (CacheExact k' ↔ k.tick.ticks < k.getNextAwake ∧ CacheExact k) := by
  obtain ⟨p, r, a, heq⟩ := renew_renewed k.tick
  obtain ⟨hwakes, hwake, -⟩ := timerHandler_wakes h.inv h.alarmed hs
  have hnodup : k.blockList.Nodup := h.inv.lists.disjoint.nodup .sleeping
  have hticks := (wakeDue_scheduled hs).sameNumbers.ticks
  rw [Kernel.timerHandler, heq, wakeDue] at hs
  rw [heq] at hticks
  have hticks : k'.ticks = k.tick.ticks := hticks
  split at hs
  · rename_i hscan
    have hlow : k'.getNextAwake ≤ k.getNextAwake :=
      (wakeLoop_spec (k := { k.tick with priority := p, recentCpu := r, loadAvg := a, timerSmallestTick := int64Max })
        hs hnodup hnodup).2.2.2.1
    have hscan : k.getNextAwake ≤ k.tick.ticks := hscan
    refine ⟨hlow, iff_of_false (fun hexact => ?_) fun hno => absurd hno.1 (not_lt.mpr hscan)⟩
    -- the sleepers that are left are due later than the clock, and so than the cache says
    have hlater : k'.getNextAwake + 1 ≤ k'.nextWake := by
      apply le_nextWake_iff.mpr
      have hmax : (0 : ℤ) + 1 ≤ int64Max := by decide
      have hzero := h.low
      refine ⟨by omega, fun u hu => ?_⟩
      rw [hwakes.blockList, List.mem_filter, decide_eq_true_iff, hticks] at hu
      rw [hwake]
      have := hu.2
      omega
    unfold CacheExact at hexact
    omega
  · rename_i hno
    have hno : k.tick.ticks < k.getNextAwake := not_le.mp hno
    cases hs
    refine ⟨le_rfl, ?_⟩
    rw [and_iff_right hno]
    exact SameSleepers.cacheExact_iff ⟨rfl, rfl, rfl⟩

/-- **The cache after a timer interrupt.** -/
theorem CacheLow.interrupt_iff (h : CacheLow k) (hs : Step k .interrupt k') :
    k'.getNextAwake ≤ k.getNextAwake ∧ (CacheExact k' ↔ k.tick.ticks < k.getNextAwake ∧ CacheExact k) := by
  cases hs with
  | interrupt hon hs =>
    obtain ⟨k₁, hhandler, hs⟩ := timerInterrupt_eq_some hs
    obtain ⟨hlow, hiff⟩ := h.timerHandler hhandler
    rcases hs with rfl | hs
    · exact ⟨hlow, hiff⟩
    · have hsame := (threadYield_switched hs).sameSleepers
      exact ⟨hsame.2.2.le.trans hlow, hsame.cacheExact_iff.trans hiff⟩

/-! ## Runs -/

/-- Every other step leaves the cache alone. -/
theorem Step.getNextAwake_le {a : Act} (hs : Step k a k') (ha : a ≠ .interrupt) :
    k'.getNextAwake ≤ k.getNextAwake := by
  cases hs with
  | interrupt => exact absurd rfl ha
  | @next _ freed i is hi hs =>
    by_cases hsleep : ∃ start ticks, i = .sleep start ticks
    · obtain ⟨start, ticks, rfl⟩ := hsleep
      by_cases hpos : 0 < ticks
      · have hreg : k.Registers (wrap64 (ticks + start)) (.next freed) := ⟨freed, start, ticks, is, rfl, hi, hpos, rfl⟩
        rw [(hreg.step (.next hi hs)).2.2]
        exact min_le_left _ _
      · rw [instr, timerSleep, if_pos (not_lt.mp hpos)] at hs
        cases hs
        exact le_rfl
    · exact (instr_sameSleepers (fun start ticks h => hsleep ⟨start, ticks, h⟩) hs).2.2.le
  | @call _ c hc hfree hs =>
    by_cases hcreate : ∃ t p, c = .create t p
    · obtain ⟨t, p, rfl⟩ := hcreate
      obtain ⟨k₁, hinit, rfl⟩ := Option.map_eq_some_iff.mp hs
      obtain ⟨-, rfl⟩ := initThread_eq_some hinit
      exact le_rfl
    · exact (call_sameSleepers (fun t p h => hcreate ⟨t, p, h⟩) hs).2.2.le

/-- **The cache is never raised.** -/
theorem CacheLow.step {a : Act} (h : CacheLow k) (hs : ProperStep k a k') : CacheLow k' := by
  refine ⟨h.inv.step hs.2 hs.1, h.alarmed.step h.inv hs.1, le_trans ?_ h.low⟩
  by_cases ha : a = .interrupt
  · subst ha
    exact (h.interrupt_iff hs.1).1
  · exact hs.1.getNextAwake_le ha

theorem CacheLow.completes_iff {a : Act} (h : CacheLow k) (hs : ProperStep k a k') (hc : k.Completes a) :
    CacheExact k' ↔ k.KeepsCache a := by
  rcases hc with rfl | ⟨w, hreg⟩
  · exact (h.interrupt_iff hs.1).2
  · refine (h.register_iff hreg hs.1).trans ?_
    obtain ⟨freed, start, ticks, is, rfl, hi, hpos, rfl⟩ := hreg
    constructor
    · intro hkeeps
      exact ⟨_, ⟨freed, start, ticks, is, rfl, hi, hpos, rfl⟩, hkeeps⟩
    · intro ⟨w, ⟨_, start', ticks', is', _, hi', _, hw⟩, hkeeps⟩
      rw [hi] at hi'
      cases hi'
      rw [← hw]
      exact hkeeps

/-- Up to the first registration or interrupt: the threads that are in `timer_sleep` have read the clock at 0. -/
structure Fresh (k : Kernel) : Prop where
  blockList : k.blockList = []
  cache : k.getNextAwake = 0
  ticks : k.ticks = 0
  sleeps : ∀ u start n, .sleep start n ∈ k.control u → start = 0 ∧ n < 2 ^ 63

/-- The sleepers and the clock are the same, and the threads go on with what they had to do before. -/
theorem Fresh.congr (h : Fresh k) (hsame : SameSleepers k k') (hticks : k'.ticks = k.ticks)
    (hcontrol : ∀ u start n, .sleep start n ∈ k'.control u → .sleep start n ∈ k.control u ∨ start = 0 ∧ n < 2 ^ 63) :
    Fresh k' := by
  refine ⟨hsame.1.trans h.blockList, hsame.2.2.trans h.cache, hticks.trans h.ticks, fun u start n hmem => ?_⟩
  rcases hcontrol u start n hmem with hmem | hrange
  · exact h.sleeps u start n hmem
  · exact hrange

/-- **Up to there a step changes nothing of it.** -/
theorem Fresh.step {a : Act} (h : Fresh k) (hs : Step k a k') (hword : WordArgument a) (hno : ¬k.Completes a) :
    Fresh k' := by
  cases hs with
  | interrupt => exact absurd (.inl rfl) hno
  | @next _ freed i is hi hs =>
    have htake : Fresh (k.setControl k.current is) := by
      refine h.congr ⟨rfl, rfl, rfl⟩ rfl fun u start n hmem => .inl ?_
      have hmem : .sleep start n ∈ Function.update k.control k.current is u := hmem
      rw [Function.update_apply] at hmem
      split at hmem
      · rename_i hu
        rw [hu, hi]
        exact List.mem_cons_of_mem _ hmem
      · exact hmem
    by_cases hsleep : ∃ start ticks, i = .sleep start ticks
    · obtain ⟨start, ticks, rfl⟩ := hsleep
      have hle : ticks ≤ 0 := not_lt.mp fun hpos =>
        hno (.inr ⟨_, freed, start, ticks, is, rfl, hi, hpos, rfl⟩)
      rw [instr, timerSleep, if_pos hle] at hs
      cases hs
      exact htake
    · have hsame := instr_sameSleepers (fun start ticks h => hsleep ⟨start, ticks, h⟩) hs
      refine htake.congr hsame (instr_sameNumbers hs).ticks fun u start n hmem => .inl ?_
      by_cases hstart : i = .startIdle
      · subst hstart
        cases hs
        exact hmem
      · obtain ⟨js, ⟨hcontrol, -⟩, -, hjs, -⟩ := instr_continues hs hstart
        rw [hcontrol, first_control] at hmem
        split at hmem
        · rename_i hu
          rw [hu]
          exact (List.mem_append.mp hmem).resolve_left (hjs start n)
        · exact hmem
  | @call _ c hc hfree hs =>
    by_cases hcreate : ∃ t p, c = .create t p
    · obtain ⟨t, p, rfl⟩ := hcreate
      obtain ⟨k₁, hinit, rfl⟩ := Option.map_eq_some_iff.mp hs
      obtain ⟨-, rfl⟩ := initThread_eq_some hinit
      refine ⟨h.blockList, h.cache, h.ticks, fun u start n hmem => ?_⟩
      rw [first_control] at hmem
      have hnew : ∀ v, .sleep start n ∈ Function.update k.control t [] v → start = 0 ∧ n < 2 ^ 63 := fun v hv => by
        rw [Function.update_apply] at hv
        split at hv
        · exact absurd hv List.not_mem_nil
        · exact h.sleeps v start n hv
      split at hmem
      · exact hnew _ (by simpa using hmem)
      · exact hnew _ hmem
    · have hcreate : ∀ t p, c ≠ .create t p := fun t p h => hcreate ⟨t, p, h⟩
      obtain ⟨is, ⟨hcontrol, -⟩, -, his⟩ := call_continues hs hcreate
      refine h.congr (call_sameSleepers hcreate hs) (call_ticks hs).1 fun u start n hmem => ?_
      rw [hcontrol, first_control] at hmem
      split at hmem
      · rename_i hu
        rcases List.mem_append.mp hmem with hmem | hmem
        · obtain ⟨hstart, rfl⟩ := his start n hmem
          exact .inr ⟨hstart.trans h.ticks, hword.2⟩
        · exact .inl (hu ▸ hmem)
      · exact .inl hmem

/-- The first of them leaves the cache behind. -/
theorem Fresh.completes {a : Act} (h : Fresh k) (hlow : CacheLow k) (hs : ProperStep k a k') (hc : k.Completes a) :
    ¬CacheExact k' := by
  have hbefore : ¬CacheExact k := by
    unfold CacheExact nextWake
    rw [h.cache, h.blockList, List.map_nil, List.foldl_nil]
    decide
  rw [hlow.completes_iff hs hc]
  cases a with
  | interrupt => exact fun hkeeps => hbefore hkeeps.2
  | next freed | call c =>
    intro ⟨w, ⟨_, start, ticks, is, _, hi, hpos, hw⟩, hkeeps⟩
    obtain ⟨rfl, hlt⟩ := h.sleeps k.current start ticks (hi ▸ List.mem_cons_self)
    have hwake : w = ticks := by
      rw [hw, add_zero]
      exact Int.bmod_eq_of_le (by omega) (by omega)
    rcases hkeeps with hle | hexact
    · rw [h.cache] at hle
      omega
    · exact hbefore hexact

/-- A step of such threads, with the argument of `timer_sleep` of its type. -/
def ClockStep (k : Kernel) (a : Act) (k' : Kernel) : Prop := ProperStep k a k' ∧ WordArgument a

theorem boot_cacheLow (mlfqs aging : Bool) (value : ℕ → ℕ) : CacheLow (boot mlfqs aging value) :=
  ⟨boot_inv mlfqs aging value, nofun, le_rfl⟩

theorem boot_fresh (mlfqs aging : Bool) (value : ℕ → ℕ) : Fresh (boot mlfqs aging value) := by
  refine ⟨rfl, rfl, rfl, fun u start n hmem => ?_⟩
  simp only [boot] at hmem
  split at hmem
  · simp at hmem
  · split at hmem <;> simp at hmem

/-- **When the cache is exact.**  A run keeps it exact at every registration and every interrupt if and only if it
has none of them.  After one that comes later the cache is exact if and only if it has been exact before and the
clock is below it or a thread has been registered, or if the thread has been registered for a tick not above it. -/
theorem next_wake_exact_iff (mlfqs aging : Bool) (value : ℕ → ℕ) :
    (∀ as k, Trace (fun k a k' => ClockStep k a k' ∧ Punctual k a k') (boot mlfqs aging value) as k ↔
      Trace (fun k a k' => ClockStep k a k' ∧ ¬k.Completes a) (boot mlfqs aging value) as k) ∧
    ∀ as k, Trace ClockStep (boot mlfqs aging value) as k → ∀ a k', ClockStep k a k' → k.Completes a →
      (CacheExact k' ↔ k.KeepsCache a) := by
  have hlow : ∀ as k, Trace ClockStep (boot mlfqs aging value) as k → CacheLow k := fun as k hrun =>
    hrun.invariant (fun _ _ _ h hs => h.step hs.1) (boot_cacheLow mlfqs aging value)
  constructor
  · intro as k
    constructor
    · intro hrun
      -- a run that keeps the cache exact is fresh in every state
      have hsim := hrun.simulates (fun k a k' => ClockStep k a k' ∧ ¬k.Completes a)
        (I := fun k => CacheLow k ∧ Fresh k) (f := id) (g := id) (fun k a k' hI hs => ?_)
        ⟨boot_cacheLow mlfqs aging value, boot_fresh mlfqs aging value⟩
      · rw [List.map_id] at hsim
        exact hsim.2
      · have hno : ¬k.Completes a := fun hc => hI.2.completes hI.1 hs.1.1 hc (hs.2.1 hc)
        exact ⟨⟨hI.1.step hs.1.1, hI.2.step hs.1.1.1 hs.1.2 hno⟩, hs.1, hno⟩
    · intro hrun
      apply hrun.mono
      intro k a k' hs
      exact ⟨hs.1, fun hc => absurd hc hs.2, fun ha => absurd (.inl ha) hs.2⟩
  · intro as k hrun a k' hs hc
    exact (hlow as k hrun).completes_iff hs.1 hc

/-- `main` sleeps for ten ticks: it is the only sleeper and due at the tick 10. -/
theorem next_wake_behind : ¬∀ mlfqs aging value as k a k', Trace ClockStep (boot mlfqs aging value) as k →
    ClockStep k a k' → k.Completes a → CacheExact k' := by
  intro hall
  have hrun : (run (startUp ++ [.call (.sleep 10)]) (boot false false fun _ => 0)).bind (fun k =>
      (k.exec (.next 0)).map fun k' => (k.control k.current, k'.getNextAwake, k'.nextWake)) =
      some ([.sleep 0 10], 0, 10) := by
    decide +kernel
  obtain ⟨k, hrun, h⟩ := Option.bind_eq_some_iff.mp hrun
  obtain ⟨k', hsleep, h⟩ := Option.map_eq_some_iff.mp h
  simp only [Prod.mk.injEq] at h
  obtain ⟨hcontrol, hcache, hnext⟩ := h
  have htrace := run_trace (P := fun k a => k.Proper a ∧ WordArgument a)
    (by simp [startUp, Proper, WordArgument]) hrun
  have hexact := hall _ _ _ _ k (.next 0) k' (htrace.mono fun _ _ _ h => ⟨⟨h.1, h.2.1⟩, h.2.2⟩)
    ⟨⟨exec_step hsleep, trivial⟩, trivial⟩ (.inr ⟨_, 0, 0, 10, [], rfl, hcontrol, by decide, rfl⟩)
  rw [CacheExact, hcache, hnext] at hexact
  exact absurd hexact (by decide)

end Pintos.Threads.Kernel
