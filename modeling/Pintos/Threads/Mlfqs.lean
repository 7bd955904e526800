import Pintos.Threads.Order

/-!
# The range of the feedback scheduler's numbers

`load_avg` stays below the number of the threads.  A second takes every `recent_cpu` by the factor
`2 * load_avg / (2 * load_avg + 1)` and adds what the thread has used and its `nice`, so that with 60 threads it
stays below 14760.  The idle thread has no such bound: it counts its ticks, and `renew_recent_cpu` leaves it out
(`Kernel.InRange`).
-/

namespace Pintos.Threads

open Checked

/-! ## The arithmetic -/

/-- What `thread_set_nice` is called with. -/
def NiceRange (n : ℤ) : Prop := -20 ≤ n ∧ n ≤ 20

/-- The highest `load_avg` with 60 threads and the idle thread. -/
def loadBound : ℤ := 61 * fract

/-- How far from 0 `recent_cpu` is after a second with 60 threads. -/
def secondBound : ℤ := 14660 * fract

theorem abs_tdiv_le {z b m : ℤ} (hm : 0 < m) (h : |z| ≤ b * m) : |z.tdiv m| ≤ b := by
  have hnonneg : ∀ w, 0 ≤ w → w ≤ b * m → |w.tdiv m| ≤ b := fun w hw hle => by
    rw [Int.tdiv_eq_ediv_of_nonneg hw, abs_of_nonneg (Int.ediv_nonneg hw hm.le)]
    exact Int.ediv_le_of_le_mul hm hle
  rcases le_total 0 z with hz | hz
  · exact hnonneg z hz ((le_abs_self z).trans h)
  · rw [← abs_neg, ← Int.neg_tdiv]
    exact hnonneg (-z) (by omega) ((neg_le_abs z).trans h)

theorem int32Range_of_abs {z b : ℤ} (h : |z| ≤ b) (hb : b < 2 ^ 31) : Int32Range z := by
  obtain ⟨hl, hu⟩ := abs_le.mp h
  exact ⟨by omega, by omega⟩

theorem fai_exact {f i : ℤ} (hi : Int32Range (i * fract)) (h : Int32Range (f + i * fract)) :
    (fai f i).Exact (f + i * fract) := (exact_int hi).bind (exact_int h)

theorem NiceRange.abs_mul_fract {n : ℤ} (hn : NiceRange n) : |n * fract| ≤ 20 * fract := by
  rw [abs_mul]
  exact mul_le_mul_of_nonneg_right (abs_le.mpr hn) (abs_nonneg fract)

/-- `renew_load_avg`, with at most `N` threads that are ready or run. -/
theorem nextLoadAvg_exact {N a n : ℤ} (hN : N ≤ 2184) (ha : 0 ≤ a ∧ a ≤ N * fract) (hn : 0 ≤ n ∧ n ≤ N) :
    (nextLoadAvg a n).Exact ((59 * a + n * fract).tdiv 60) ∧
      0 ≤ (59 * a + n * fract).tdiv 60 ∧ (59 * a + n * fract).tdiv 60 ≤ N * fract := by
  unfold fract at *
  have hnonneg : 0 ≤ 59 * a + n * 2 ^ 14 := by omega
  have hle : (59 * a + n * 2 ^ 14) / 60 ≤ N * 2 ^ 14 := by omega
  have hpos : 0 ≤ (59 * a + n * 2 ^ 14) / 60 := by omega
  rw [Int.tdiv_eq_ediv_of_nonneg hnonneg]
  refine ⟨?_, hpos, hle⟩
  rw [← Int.tdiv_eq_ediv_of_nonneg hnonneg] at hpos hle ⊢
  refine (exact_int (z := 59 * a) ⟨by omega, by omega⟩).bind (.bind (fai_exact ?_ ?_) (exact_int ?_))
  · unfold fract
    exact ⟨by omega, by omega⟩
  · unfold fract
    exact ⟨by omega, by omega⟩
  · exact ⟨by unfold fract; omega, by unfold fract; omega⟩

/-- The factor of `renew_recent_cpu`, at `2 * load_avg = a`. -/
theorem decay_exact {a : ℤ} (ha : 0 ≤ a) :
    (fdf a (a + 1 * fract)).Exact (a * fract / (a + 1 * fract)) ∧ 0 ≤ a * fract / (a + 1 * fract) ∧
      a * fract / (a + 1 * fract) < fract := by
  have hpos : 0 < a + 1 * fract := by unfold fract; omega
  have hnum : 0 ≤ a * fract := mul_nonneg ha (by decide)
  have hnonneg : 0 ≤ a * fract / (a + 1 * fract) := Int.ediv_nonneg hnum hpos.le
  have hlt : a * fract / (a + 1 * fract) < fract := by
    apply Int.ediv_lt_of_lt_mul hpos
    unfold fract
    omega
  have hfract : fract < 2 ^ 31 := by decide
  refine ⟨?_, hnonneg, hlt⟩
  rw [fdf, if_neg hpos.ne', Int.tdiv_eq_ediv_of_nonneg hnum]
  exact exact_int ⟨by omega, by omega⟩

theorem decay_le {a : ℤ} (ha : 0 ≤ a ∧ a ≤ 2 * loadBound) : a * fract / (a + 1 * fract) ≤ 16250 := by
  apply Int.le_of_lt_add_one
  apply Int.ediv_lt_of_lt_mul
  · unfold fract
    omega
  · unfold loadBound fract at *
    omega

/-- `renew_recent_cpu` -/
theorem nextRecentCpu_exact {a r n : ℤ} (ha : 0 ≤ a ∧ a ≤ loadBound) (hr : |r| ≤ 14760 * fract) (hn : NiceRange n) :
    ∃ r', (nextRecentCpu a r n).Exact r' ∧ |r'| ≤ secondBound := by
  have ha₂ : 0 ≤ 2 * a ∧ 2 * a ≤ 2 * loadBound := by omega
  obtain ⟨hdecay, hnonneg, -⟩ := decay_exact ha₂.1
  have hd : |2 * a * fract / (2 * a + 1 * fract)| ≤ 16250 := by
    rw [abs_of_nonneg hnonneg]
    exact decay_le ha₂
  set d := 2 * a * fract / (2 * a + 1 * fract)
  -- the decay takes off more than the 100 ticks of a second and the `nice`
  have hprod : |(d * r).tdiv fract| ≤ 14640 * fract := by
    refine abs_tdiv_le (by decide) ?_
    rw [abs_mul]
    refine (mul_le_mul hd hr (abs_nonneg r) (by decide)).trans ?_
    decide
  have hsum : |(d * r).tdiv fract + n * fract| ≤ secondBound :=
    (abs_add_le _ _).trans ((add_le_add hprod hn.abs_mul_fract).trans (by decide))
  refine ⟨(d * r).tdiv fract + n * fract, ?_, hsum⟩
  have hn₁ := int32Range_of_abs hn.abs_mul_fract (by decide)
  refine .bind (exact_int (int32Range_of_abs (b := 2 * loadBound) ?_ (by decide)))
    (.bind (fai_exact (by decide) (int32Range_of_abs (b := 2 * loadBound + fract) ?_ (by decide)))
      (.bind hdecay (.bind (exact_int (int32Range_of_abs hprod (by decide)))
        (fai_exact hn₁ (int32Range_of_abs hsum (by decide))))))
  · rw [abs_of_nonneg ha₂.1]
    exact ha₂.2
  · rw [abs_of_nonneg (by unfold fract; omega)]
    omega

/-- `renew_prior` and `thread_set_nice` are in the range for every `recent_cpu` that is an `int`. -/
theorem feedbackPriority_fits {r n : ℤ} (hr : Int32Range r) (hn : NiceRange n) :
    (feedbackPriority r n).fits = true := by
  obtain ⟨hl, hu⟩ := hr
  have hquarter : -2 ^ 29 ≤ r.tdiv 4 ∧ r.tdiv 4 ≤ 2 ^ 29 :=
    abs_le.mp (abs_tdiv_le (by decide) (abs_le.mpr ⟨by omega, by omega⟩))
  obtain ⟨hnl, hnu⟩ := hn
  have hmax : (fai 0 priMax).Exact (63 * 2 ^ 14) := fai_exact (f := 0) (i := priMax) (by decide) (by decide)
  have hnice : (fai 0 n).Exact (0 + n * fract) :=
    fai_exact (by unfold fract; exact ⟨by omega, by omega⟩) (by unfold fract; exact ⟨by omega, by omega⟩)
  refine (hmax.bind (.bind (exact_int (z := r.tdiv 4) ⟨by omega, by omega⟩)
    (.bind (exact_int ⟨by omega, by omega⟩) (.bind hnice (.bind (exact_int ⟨?_, ?_⟩)
      (.map (exact_int ⟨?_, ?_⟩) fun p => clampPriority (p.tdiv fract))))))).1
  all_goals
    unfold fract
    omega

namespace Kernel

variable {k k' : Kernel} {t : ℕ} {b : ℤ}

/-! ## The loops -/

/-- What holds before and after every round of a loop in which nothing overflows. -/
theorem forEach_fits {P : Kernel → Prop} {f : ℕ → Kernel → Checked Kernel} {l : List ℕ}
    (hf : ∀ t ∈ l, ∀ k, P k → (f t k).fits = true ∧ P (f t k).value) (hk : P k) :
    (forEach f l k).fits = true ∧ P (forEach f l k).value := by
  induction l generalizing k with
  | nil => exact ⟨rfl, hk⟩
  | cons t l ih =>
    obtain ⟨hfits, hP⟩ := hf t List.mem_cons_self k hk
    obtain ⟨hfits', hP'⟩ := ih (fun u hu => hf u (List.mem_cons_of_mem _ hu)) hP
    rw [forEach]
    exact ⟨(fits_bind _ _).mpr ⟨hfits, hfits'⟩, hP'⟩

/-- The numbers of the scheduler in their bounds; `b` is the one of `recent_cpu`. -/
structure Bounded (k : Kernel) (b : ℤ) : Prop where
  load : 0 ≤ k.loadAvg ∧ k.loadAvg ≤ loadBound
  nice : ∀ t ∈ k.allList, NiceRange (k.nice t)
  use : ∀ t ∈ k.allList, k.idleThread ≠ some t → |k.recentCpu t| ≤ b * fract
  idle : ∀ t, k.idleThread = some t → -(14760 * fract) ≤ k.recentCpu t ∧ k.recentCpu t < 2 ^ 31

theorem Bounded.mono (h : Bounded k b) {b' : ℤ} (hb : b ≤ b') : Bounded k b' :=
  ⟨h.load, h.nice, fun t ht hid => (h.use t ht hid).trans (mul_le_mul_of_nonneg_right hb (by decide)), h.idle⟩

/-- The threads that there are have the same numbers. -/
theorem Bounded.congr (h : Bounded k b) (hall : ∀ t ∈ k'.allList, t ∈ k.allList) (hload : k'.loadAvg = k.loadAvg)
    (hnice : k'.nice = k.nice) (huse : k'.recentCpu = k.recentCpu) (hid : k'.idleThread = k.idleThread) :
    Bounded k' b := by
  refine ⟨hload ▸ h.load, fun t ht => ?_, fun t ht => ?_, fun t => ?_⟩
  · rw [hnice]
    exact h.nice t (hall t ht)
  · rw [hid, huse]
    exact h.use t (hall t ht)
  · rw [hid, huse]
    exact h.idle t

theorem Bounded.int32Range (h : Bounded k b) (hb : b ≤ 14760) (ht : t ∈ k.allList) : Int32Range (k.recentCpu t) := by
  by_cases hid : k.idleThread = some t
  · obtain ⟨hl, hu⟩ := h.idle t hid
    exact ⟨le_trans (by decide) hl, hu⟩
  · exact int32Range_of_abs ((h.mono hb).use t ht hid) (by decide)

/-- A `recent_cpu` is set. -/
theorem Bounded.setRecentCpu (h : Bounded k b) {r : ℤ} (huse : k.idleThread ≠ some t → |r| ≤ b * fract)
    (hidle : k.idleThread = some t → -(14760 * fract) ≤ r ∧ r < 2 ^ 31) : Bounded (k.setRecentCpu t r) b := by
  refine ⟨h.load, h.nice, fun u hu hid => ?_, fun u hid => ?_⟩ <;>
    simp only [Kernel.setRecentCpu, Function.update_apply]
  · split
    · rename_i hut
      exact huse (hut ▸ hid)
    · exact h.use u hu hid
  · split
    · rename_i hut
      exact hidle (hut ▸ hid)
    · exact h.idle u hid

/-- The running thread has used the tick. -/
theorem Bounded.countTick (h : Bounded k b) (hb : b < 14760) (hcur : k.current ∈ k.allList)
    (hidle : k.idleThread = some k.current → k.recentCpu k.current < 2 ^ 31 - fract) :
    k.countTick.fits = true ∧ Bounded k.countTick.value (b + 1) := by
  have hr : (k.idleThread ≠ some k.current → |k.recentCpu k.current + 1 * fract| ≤ (b + 1) * fract) ∧
      (k.idleThread = some k.current →
        -(14760 * fract) ≤ k.recentCpu k.current + 1 * fract ∧ k.recentCpu k.current + 1 * fract < 2 ^ 31) := by
    refine ⟨fun hid => ?_, fun hid => ?_⟩
    · rw [add_mul]
      exact (abs_add_le _ _).trans (add_le_add (h.use _ hcur hid) (by decide))
    · have hl := (h.idle _ hid).1
      have hu := hidle hid
      unfold fract at *
      exact ⟨by omega, by omega⟩
  have hrange : Int32Range (k.recentCpu k.current + 1 * fract) := by
    by_cases hid : k.idleThread = some k.current
    · exact ⟨le_trans (by decide) (hr.2 hid).1, (hr.2 hid).2⟩
    · refine int32Range_of_abs ((hr.1 hid).trans ?_) (show 14760 * fract < 2 ^ 31 by decide)
      exact mul_le_mul_of_nonneg_right (by omega) (by decide)
  have hexact : k.countTick.Exact (k.setRecentCpu k.current (k.recentCpu k.current + 1 * fract)) :=
    (fai_exact (by decide) hrange).map _
  refine ⟨hexact.1, ?_⟩
  rw [hexact.2]
  exact (h.mono (by omega)).setRecentCpu hr.1 hr.2

theorem rdnum_range (hlists : Lists k) (hrun : k.status k.current = .running) :
    0 ≤ k.rdnum ∧ k.rdnum ≤ k.allList.length := by
  have hready : k.readyList ⊆ k.allList := fun t ht =>
    hlists.mem_allList (by rw [hlists.status .ready t ht]; nofun)
  have hcur : k.current ∈ k.allList := hlists.mem_allList (by rw [hrun]; nofun)
  have hnodup : (k.current :: k.readyList).Nodup :=
    List.nodup_cons.mpr ⟨hlists.not_mem_of_status (.inl hrun) .ready, hlists.disjoint.nodup .ready⟩
  have hle : (k.current :: k.readyList).length ≤ k.allList.length :=
    (List.subperm_of_subset hnodup (List.cons_subset.mpr ⟨hcur, hready⟩)).length_le
  rw [List.length_cons] at hle
  unfold rdnum
  split <;> omega

theorem Bounded.renewLoadAvg (h : Bounded k b) (hn : 0 ≤ k.rdnum ∧ k.rdnum ≤ 61) :
    k.renewLoadAvg.fits = true ∧ Bounded k.renewLoadAvg.value b := by
  obtain ⟨hexact, hload⟩ := nextLoadAvg_exact (by decide) h.load hn
  have hexact := hexact.map fun a => { k with loadAvg := a }
  refine ⟨hexact.1, ?_⟩
  rw [show k.renewLoadAvg.value = _ from hexact.2]
  exact ⟨hload, h.nice, h.use, h.idle⟩

/-- What `renew_recent_cpu` gives a thread that is not the idle thread. -/
theorem Bounded.nextRecentCpu_exact (h : Bounded k 14760) (ht : t ∈ k.allList) (hid : k.idleThread ≠ some t) :
    ∃ r, (nextRecentCpu k.loadAvg (k.recentCpu t) (k.nice t)).Exact r ∧ |r| ≤ secondBound :=
  Threads.nextRecentCpu_exact h.load (h.use t ht hid) (h.nice t ht)

/-- **After a second all are as near to 0 as at the start of it.** -/
theorem Bounded.renewRecentCpu (h : Bounded k 14760) (hnodup : k.allList.Nodup) :
    k.renewRecentCpu.fits = true ∧ Bounded k.renewRecentCpu.value 14660 := by
  have hloop : k.renewRecentCpu.fits = true ∧
      Bounded k.renewRecentCpu.value 14760 ∧ k.renewRecentCpu.value.allList = k.allList := by
    refine forEach_fits (P := fun k' => Bounded k' 14760 ∧ k'.allList = k.allList) (fun t ht k' hk' => ?_) ⟨h, rfl⟩
    unfold renewRecentCpuOf
    split
    · exact ⟨rfl, hk'⟩
    · rename_i hid
      obtain ⟨r, hexact, hr⟩ := hk'.1.nextRecentCpu_exact (hk'.2 ▸ ht) (Ne.symm hid)
      have hexact := hexact.map (k'.setRecentCpu t)
      refine ⟨hexact.1, ?_⟩
      rw [hexact.2]
      exact ⟨hk'.1.setRecentCpu (fun _ => hr.trans (by decide)) fun hid' => absurd hid'.symm hid, hk'.2⟩
  obtain ⟨hfits, hbounded, hall⟩ := hloop
  refine ⟨hfits, hbounded.load, hbounded.nice, fun t ht hid => ?_, hbounded.idle⟩
  have hid' : k.renewRecentCpu.value.idleThread = k.idleThread := by
    obtain ⟨p, r, a, heq⟩ := renewRecentCpu_renewed k
    rw [heq]
  rw [hid'] at hid
  rw [hall] at ht
  obtain ⟨r, hexact, hr⟩ := h.nextRecentCpu_exact ht hid
  rw [renewRecentCpu_recentCpu hnodup, if_pos ht, renewedUse, if_neg (Ne.symm hid), hexact.2]
  exact hr

theorem Bounded.renewPrior (h : Bounded k b) (hb : b ≤ 14760) :
    k.renewPrior.fits = true ∧ Bounded k.renewPrior.value b := by
  have hloop : k.renewPrior.fits = true ∧ Bounded k.renewPrior.value b ∧ k.renewPrior.value.allList = k.allList := by
    refine forEach_fits (P := fun k' => Bounded k' b ∧ k'.allList = k.allList) (fun t ht k' hk' => ?_) ⟨h, rfl⟩
    have ht' : t ∈ k'.allList := hk'.2 ▸ ht
    refine ⟨(fits_bind _ _).mpr ⟨feedbackPriority_fits (hk'.1.int32Range hb ht') (hk'.1.nice t ht'), rfl⟩, ?_⟩
    exact ⟨hk'.1.congr (fun _ hu => hu) rfl rfl rfl rfl, hk'.2⟩
  exact ⟨hloop.1, hloop.2.1⟩

/-! ## The tick -/

/-- The range of `ticks`. -/
def TicksRange (k : Kernel) : Prop := -2 ^ 63 ≤ k.ticks ∧ k.ticks < 2 ^ 63

/-- A second is over, or the tick is a later one of the same second.  From the highest number the clock goes to the
lowest one, in the middle of a second. -/
theorem TicksRange.tick (h : TicksRange k) : TicksRange k.tick ∧
    (k.tick.ticks.tmod timerFreq = 0 ∧ k.tick.ticks % 100 = 0 ∨
      ¬k.tick.ticks.tmod timerFreq = 0 ∧ k.ticks % 100 + 1 ≤ k.tick.ticks % 100) := by
  have hsecond : k.tick.ticks.tmod timerFreq = 0 ↔ k.tick.ticks % 100 = 0 :=
    Int.dvd_iff_tmod_eq_zero.symm.trans Int.dvd_iff_emod_eq_zero
  obtain ⟨hl, hu⟩ := h
  rw [hsecond]
  unfold TicksRange
  by_cases hlast : k.ticks = 2 ^ 63 - 1
  · have hwrap : k.tick.ticks = -2 ^ 63 := by
      show wrap64 (k.ticks + 1) = _
      rw [hlast]
      decide
    rw [hwrap, hlast]
    decide
  · have hnext : k.tick.ticks = k.ticks + 1 := Int.bmod_eq_of_le (by omega) (by omega)
    rw [hnext]
    omega

/-- What holds in every state of a run of the feedback scheduler. -/
structure InBounds (k : Kernel) : Prop where
  inv : Inv k
  modes : k.mlfqs = true ∧ k.aging = false
  threads : k.allList.length ≤ 61
  ticks : TicksRange k
  bounded : Bounded k (14660 + k.ticks % 100)

/-- The running thread is there. -/
theorem Inv.current_mem (h : Inv k) : k.current ∈ k.allList :=
  h.lists.mem_allList (by rw [h.running]; nofun)

theorem renew_mlfqs (hmodes : k.mlfqs = true ∧ k.aging = false) : k.tick.renew = k.tick.feedback := by
  unfold Kernel.renew
  rw [if_neg (show ¬k.tick.aging = true by rw [show k.tick.aging = false from hmodes.2]; decide),
    if_pos (show k.tick.mlfqs = true from hmodes.1)]

/-- **The part of `thread_tick` for the feedback scheduler.** -/
theorem InBounds.renew (h : InBounds k)
    (hidle : k.idleThread = some k.current → k.recentCpu k.current < 2 ^ 31 - fract) :
    k.tick.renew.fits = true ∧ Bounded k.tick.renew.value (14660 + k.tick.ticks % 100) := by
  have hmod : k.ticks % 100 < 100 := Int.emod_lt_of_pos _ (by decide)
  have hbounded : Bounded k.tick (14660 + k.ticks % 100) := h.bounded.congr (fun _ ht => ht) rfl rfl rfl rfl
  obtain ⟨hcount, h₁⟩ := hbounded.countTick (by omega) h.inv.current_mem hidle
  set k₁ := k.tick.countTick.value
  have huse : k₁.renewUse.fits = true ∧ Bounded k₁.renewUse.value (14660 + k.tick.ticks % 100) := by
    unfold renewUse
    rcases h.ticks.tick.2 with ⟨hsecond, hzero⟩ | ⟨hsecond, hlater⟩
    · rw [if_pos (show k₁.ticks.tmod timerFreq = 0 from hsecond), hzero]
      have hlists : Lists k := h.inv.lists
      have hn : 0 ≤ k₁.rdnum ∧ k₁.rdnum ≤ 61 := by
        obtain ⟨hl, hu⟩ := rdnum_range hlists h.inv.running
        have hthreads := h.threads
        exact ⟨hl, hu.trans (by omega)⟩
      obtain ⟨hload, h₂⟩ := (h₁.mono (by omega : 14660 + k.ticks % 100 + 1 ≤ 14760)).renewLoadAvg hn
      obtain ⟨hrecent, h₃⟩ := h₂.renewRecentCpu hlists.allNodup
      exact ⟨(fits_bind _ _).mpr ⟨hload, hrecent⟩, h₃⟩
    · rw [if_neg (show ¬k₁.ticks.tmod timerFreq = 0 from hsecond)]
      exact ⟨rfl, h₁.mono (by omega)⟩
  have hmod' : k.tick.ticks % 100 < 100 := Int.emod_lt_of_pos _ (by decide)
  have horder : ∀ k' : Kernel, Bounded k' (14660 + k.tick.ticks % 100) →
      k'.renewOrder.fits = true ∧ Bounded k'.renewOrder.value (14660 + k.tick.ticks % 100) := fun k' h' => by
    unfold renewOrder
    split
    · exact h'.renewPrior (by omega)
    · exact ⟨rfl, h'⟩
  obtain ⟨hfits, hvalue⟩ := horder _ huse.2
  rw [renew_mlfqs h.modes]
  exact ⟨(fits_bind _ _).mpr ⟨hcount, (fits_bind _ _).mpr ⟨huse.1, hfits⟩⟩, hvalue⟩

/-! ## Steps -/

/-- No thread takes a `nice` out of the range. -/
def NiceArgument : Act → Prop
  | .call (.setNice n) => NiceRange n
  | _ => True

/-- A step with no more than 60 threads and the idle thread. -/
def MlfqsStep (k : Kernel) (a : Act) (k' : Kernel) : Prop :=
  Step k a k' ∧ k.Proper a ∧ NiceArgument a ∧ k'.allList.length ≤ 61

/-- Every `int` that the scheduler computes is in the range of the type. -/
def Fits (k : Kernel) : Act → Prop
  | .interrupt => k.tick.renew.fits = true
  | .call (.setNice n) => (k.threadSetNice n).fits = true
  | .call .getLoadAvg => k.threadGetLoadAvg.fits = true
  | .call .getRecentCpu => k.threadGetRecentCpu.fits = true
  | _ => True

/-- At a tick of the idle thread its `recent_cpu` is below 131071, and a thread that calls `thread_get_recent_cpu` has
one below 1310.72. -/
def InRange (k : Kernel) : Act → Prop
  | .interrupt => k.idleThread = some k.current → k.recentCpu k.current < 2 ^ 31 - fract
  | .call .getRecentCpu => |k.recentCpu k.current| ≤ 21474836
  | _ => True

/-- A step that meets the condition. -/
def RangeStep (k : Kernel) (a : Act) (k' : Kernel) : Prop := MlfqsStep k a k' ∧ k.InRange a

/-- A statement of the running thread changes no number; in the first one of `idle` the thread becomes the idle
thread. -/
theorem InBounds.next (h : InBounds k) {freed : ℤ} {i : Instr} {is : List Instr}
    (hi : k.control k.current = i :: is) (hs : (k.setControl k.current is).instr freed i = some k') :
    Bounded k' (14660 + k.ticks % 100) := by
  have hsame := instr_sameNumbers hs
  have hall : ∀ t ∈ k'.allList, t ∈ k.allList := fun t ht => hsame.allList ▸ ht
  by_cases hstart : i = .startIdle
  · subst hstart
    cases hs
    have hcur := h.inv.current_mem
    have hmod : k.ticks % 100 < 100 := Int.emod_lt_of_pos _ (by decide)
    have hnone : k.idleThread = none := by
      have hfirst : k.current = firstCreated := by
        by_contra hne
        exact h.inv.idleControl.2 _ hne (hi ▸ List.mem_cons_self)
      rcases h.inv.idleControl.1 with ⟨-, hid⟩ | ⟨hc | hc, -⟩
      · exact hid
      · rw [← hfirst, hi] at hc
        cases hc
      · rw [← hfirst, hi] at hc
        cases hc
    have huse := h.bounded.use
    rw [hnone] at huse
    refine ⟨h.bounded.load, h.bounded.nice, fun t ht _ => huse t ht nofun, fun t ht => ?_⟩
    cases ht
    obtain ⟨hl, hu⟩ := abs_le.mp ((huse _ hcur nofun).trans
      (mul_le_mul_of_nonneg_right (by omega : 14660 + k.ticks % 100 ≤ 14760) (by decide)))
    exact ⟨hl, hu.trans_lt (by decide)⟩
  · obtain ⟨js, hcont, -⟩ := instr_continues hs hstart
    exact h.bounded.congr hall hsame.loadAvg hsame.nice hsame.recentCpu hcont.2

/-- A call changes the `nice` of the running thread at most, and a thread that is created takes over the numbers of
the running one. -/
theorem InBounds.call (h : InBounds k) {c : Call} (hc : k.control k.current = [])
    (hnice : NiceArgument (.call c)) (hfree : ∀ t p, c = .create t p → t ∉ k.allList ∧ t ≠ initialThread)
    (hs : k.call c = some k') : Bounded k' (14660 + k.ticks % 100) := by
  have hid : k.idleThread ≠ some k.current := (h.inv.idleControl.not_idle hc).2
  have hcur := h.inv.current_mem
  cases c with
  | exit =>
    have hsame := threadExit_sameNumbers hs
    obtain ⟨is, hcont, -⟩ := call_continues (c := .exit) hs (by simp)
    refine h.bounded.congr (fun t ht => ?_) hsame.loadAvg hsame.nice hsame.recentCpu hcont.2
    rw [hsame.allList] at ht
    exact List.mem_of_mem_erase ht
  | create t p =>
    obtain ⟨k₁, hinit, rfl⟩ := Option.map_eq_some_iff.mp hs
    obtain ⟨-, rfl⟩ := initThread_eq_some hinit
    refine ⟨h.bounded.load, fun u hu => ?_, fun u hu hidu => ?_, fun u hidu => ?_⟩
    · show NiceRange (Function.update k.nice t (k.nice k.current) u)
      rw [Function.update_apply]
      split
      · exact h.bounded.nice _ hcur
      · exact h.bounded.nice u ((List.mem_append.mp hu).resolve_right fun hu => ‹u ≠ t› (List.mem_singleton.mp hu))
    · show |Function.update k.recentCpu t (k.recentCpu k.current) u| ≤ _
      rw [Function.update_apply]
      split
      · exact h.bounded.use _ hcur hid
      · exact h.bounded.use u
          ((List.mem_append.mp hu).resolve_right fun hu => ‹u ≠ t› (List.mem_singleton.mp hu)) hidu
    · show _ ≤ Function.update k.recentCpu t (k.recentCpu k.current) u ∧ _
      have hut : u ≠ t := fun hut => by
        obtain ⟨hst, -⟩ := h.inv.lists.idle u hidu
        exact hst ((h.inv.lists.alive u).mpr (hut ▸ (hfree t p rfl).1))
      simp only [Kernel.first, Kernel.setControl, Function.update_of_ne hut]
      exact h.bounded.idle u hidu
  | setPriority p =>
    rcases threadSetPriority_switched hs with ⟨rfl, -⟩ | hswitched
    · exact h.bounded
    · have hsame := hswitched.scheduled.sameNumbers
      exact h.bounded.congr (fun t ht => hsame.allList ▸ ht) hsame.loadAvg hsame.nice hsame.recentCpu
        hswitched.scheduled.idleThread
  | setNice n =>
    cases hs
    refine ⟨h.bounded.load, fun u hu => ?_, h.bounded.use, h.bounded.idle⟩
    show NiceRange (Function.update k.nice k.current n u)
    rw [Function.update_apply]
    split
    · exact hnice
    · exact h.bounded.nice u hu
  | _ =>
    have hsame := call_sameNumbers hs (by simp) (by simp) (by simp) (by simp)
    obtain ⟨is, hcont, -⟩ := call_continues hs (by simp)
    exact h.bounded.congr (fun t ht => hsame.allList ▸ ht) hsame.loadAvg hsame.nice hsame.recentCpu hcont.2

/-- Where nothing overflows the tick of the running thread is counted. -/
theorem countTick_of_fits (hmodes : k.mlfqs = true ∧ k.aging = false) (h : k.tick.renew.fits = true) :
    Int32Range (k.recentCpu k.current + fract) ∧
      k.tick.countTick.value = k.tick.setRecentCpu k.current (k.recentCpu k.current + fract) := by
  rw [renew_mlfqs hmodes] at h
  obtain ⟨hcount, -⟩ := (fits_bind _ _).mp h
  obtain ⟨hfai, -⟩ := (fits_bind _ _).mp hcount
  obtain ⟨-, hsum⟩ := (fits_bind _ _).mp hfai
  have hrange := fits_int.mp hsum
  rw [value_int (by decide), one_mul] at hrange
  have hexact := fai_exact (f := k.recentCpu k.current) (i := 1) (by decide) (by rw [one_mul]; exact hrange)
  rw [one_mul] at hexact
  exact ⟨hrange, congrArg (k.tick.setRecentCpu k.current) hexact.2⟩

/-- **A step that meets the condition keeps the bounds.** -/
theorem InBounds.step (h : InBounds k) {a : Act} (hs : RangeStep k a k') : InBounds k' := by
  obtain ⟨⟨hs, hproper, hnice, hthreads⟩, hrange⟩ := hs
  have hmodes := hs.modes
  suffices hkeep : TicksRange k' ∧ Bounded k' (14660 + k'.ticks % 100) from
    ⟨h.inv.step hproper hs, ⟨hmodes.1.trans h.modes.1, hmodes.2.trans h.modes.2⟩, hthreads, hkeep.1, hkeep.2⟩
  cases hs with
  | interrupt hon hs =>
    obtain ⟨-, hrenew⟩ := h.renew hrange
    have hscheduled := timerInterrupt_scheduled hs
    have hsame := hscheduled.sameNumbers
    have hticks : k'.ticks = k.tick.ticks := by
      obtain ⟨p, r, a, heq⟩ := renew_renewed k.tick
      rw [hsame.ticks, heq]
    unfold TicksRange
    rw [hticks]
    exact ⟨h.ticks.tick.1, hrenew.congr (fun t ht => hsame.allList ▸ ht) hsame.loadAvg hsame.nice hsame.recentCpu
      hscheduled.idleThread⟩
  | next hi hs =>
    have hticks : k'.ticks = k.ticks := (instr_sameNumbers hs).ticks
    unfold TicksRange
    rw [hticks]
    exact ⟨h.ticks, h.next hi hs⟩
  | call hc hfree hs =>
    unfold TicksRange
    rw [(call_ticks hs).1]
    exact ⟨h.ticks, h.call hc hnice hfree hs⟩

theorem boot_inBounds (value : ℕ → ℕ) : InBounds (boot true false value) where
  inv := boot_inv true false value
  modes := ⟨rfl, rfl⟩
  threads := by
    show [initialThread, firstCreated].length ≤ 61
    decide
  ticks := by
    show -2 ^ 63 ≤ (0 : ℤ) ∧ (0 : ℤ) < 2 ^ 63
    decide
  bounded := by
    refine ⟨?_, fun _ _ => ?_, fun _ _ _ => ?_, nofun⟩
    · show 0 ≤ (0 : ℤ) ∧ (0 : ℤ) ≤ loadBound
      decide
    · show NiceRange 0
      exact ⟨by decide, by decide⟩
    · show |(0 : ℤ)| ≤ (14660 + 0 % 100) * fract
      decide

/-- In such a state the condition is what keeps the numbers in the range. -/
theorem InBounds.fits_iff (h : InBounds k) {a : Act} (hnice : NiceArgument a) : k.Fits a ↔ k.InRange a := by
  have hcur := h.inv.current_mem
  have hmod : k.ticks % 100 < 100 := Int.emod_lt_of_pos _ (by decide)
  have hrecent : Int32Range (k.recentCpu k.current) := h.bounded.int32Range (by omega) hcur
  cases a with
  | interrupt =>
    refine ⟨fun hfits hid => ?_, fun hrange => (h.renew hrange).1⟩
    have hu := (countTick_of_fits h.modes hfits).1.2
    omega
  | next freed => exact Iff.rfl
  | call c =>
    cases c with
    | setNice n =>
      refine iff_of_true ?_ trivial
      exact (fits_bind _ _).mpr ⟨feedbackPriority_fits hrecent hnice, rfl⟩
    | getLoadAvg =>
      refine iff_of_true ?_ trivial
      obtain ⟨hl, hu⟩ := h.bounded.load
      refine (fits_bind _ _).mpr ⟨fits_int.mpr ?_, rfl⟩
      unfold loadBound fract at hu
      exact ⟨by omega, by omega⟩
    | getRecentCpu =>
      have hiff : k.threadGetRecentCpu.fits = true ↔ Int32Range (100 * k.recentCpu k.current) :=
        (fits_bind _ _).trans ((and_iff_left rfl).trans fits_int)
      refine hiff.trans ?_
      show _ ↔ |k.recentCpu k.current| ≤ 21474836
      unfold Int32Range
      rw [abs_le]
      omega
    | _ => exact Iff.rfl

theorem hundredfold_value {f : ℤ} (h : (hundredfold f).fits = true) : (hundredfold f).value = (100 * f).tdiv fract := by
  obtain ⟨hfits, -⟩ := (fits_bind _ _).mp h
  show (int (100 * f)).value.tdiv fract = _
  rw [value_int (fits_int.mp hfits)]

/-- **The numbers of the feedback scheduler are in the range,** in every state of a run the steps of which all meet
the condition, for what meets it and for nothing else; and the getters return 100 times the number, truncated. -/
theorem mlfqs_fits_iff {value : ℕ → ℕ} {as : List Act} {a : Act}
    (hrun : Trace RangeStep (boot true false value) as k) (hnice : NiceArgument a) :
    (k.Fits a ↔ k.InRange a) ∧ k.threadGetLoadAvg.value = (100 * k.loadAvg).tdiv fract ∧
      (k.InRange (.call .getRecentCpu) →
        k.threadGetRecentCpu.value = (100 * k.recentCpu k.current).tdiv fract) := by
  have h : InBounds k := hrun.invariant (fun _ _ _ h hs => h.step hs) (boot_inBounds value)
  refine ⟨h.fits_iff hnice, ?_, fun hrange => ?_⟩
  · exact hundredfold_value ((h.fits_iff (a := .call .getLoadAvg) trivial).mpr trivial)
  · exact hundredfold_value ((h.fits_iff (a := .call .getRecentCpu) trivial).mpr hrange)

/-- The condition on the states, for a run that does not call `thread_get_recent_cpu`. -/
def rangeCheck (k : Kernel) (_ : Act) (k' : Kernel) : Bool :=
  k'.allList.length ≤ 61 ∧ (k.idleThread = some k.current → k.recentCpu k.current < 2 ^ 31 - fract)

theorem rangeCheck_trace {value : ℕ → ℕ} {as : List Act} (has : ∀ k : Kernel, ∀ a ∈ as, k.Proper a ∧ NiceArgument a)
    (hget : .call .getRecentCpu ∉ as) (h : runWhile rangeCheck as (boot true false value) = some k) :
    Trace RangeStep (boot true false value) as k := by
  refine (runWhile_trace (P := fun k a => k.Proper a ∧ NiceArgument a ∧ a ≠ .call .getRecentCpu)
    (fun k a ha => ⟨(has k a ha).1, (has k a ha).2, fun hc => hget (hc ▸ ha)⟩) h).mono ?_
  rintro k a k' ⟨hs, ⟨hproper, hnice, hne⟩, hcheck⟩
  obtain ⟨hall, hidle⟩ := of_decide_eq_true hcheck
  refine ⟨⟨hs, hproper, hnice, hall⟩, ?_⟩
  cases a with
  | interrupt => exact hidle
  | next => trivial
  | call c =>
    cases c with
    | getRecentCpu => exact absurd rfl hne
    | _ => trivial

/-- `main` runs for a second. -/
theorem mlfqs_fits_second : ∃ k : Kernel, k.ticks = 100 ∧ k.Fits (.call .getRecentCpu) ∧
    k.threadGetLoadAvg.value = 1 ∧ k.threadGetRecentCpu.value = 322 := by
  have hrun : (runWhile rangeCheck (startUp ++ List.replicate 100 .interrupt) (boot true false fun _ => 0)).map
      (fun k => (k.ticks, k.loadAvg, k.recentCpu k.current)) = some (100, 273, 52800) := by
    decide +kernel
  obtain ⟨k, hrun, hk⟩ := Option.map_eq_some_iff.mp hrun
  simp only [Prod.mk.injEq] at hk
  obtain ⟨hticks, hload, hrecent⟩ := hk
  have hrange : k.InRange (.call .getRecentCpu) := by
    show |k.recentCpu k.current| ≤ 21474836
    rw [hrecent]
    decide
  obtain ⟨hiff, hgetLoad, hgetRecent⟩ := mlfqs_fits_iff (a := .call .getRecentCpu) (rangeCheck_trace
    (by simp [startUp, Proper, NiceArgument]) (by simp [startUp]) hrun) trivial
  refine ⟨k, hticks, hiff.mpr hrange, ?_, ?_⟩
  · rw [hgetLoad, hload]
    decide
  · rw [hgetRecent hrange, hrecent]
    decide

/-! ## The idle thread -/

/-- The idle thread runs, and no other thread is ready or sleeps. -/
structure Idling (k : Kernel) : Prop where
  current : k.current = firstCreated
  idleThread : k.idleThread = some firstCreated
  readyList : k.readyList = []
  blockList : k.blockList = []
  control : k.control firstCreated = [.idleLoop]
  modes : k.mlfqs = true ∧ k.aging = false

/-- No tick but its own changes the `recent_cpu` of the idle thread. -/
theorem feedback_recentCpu_idle (hnodup : k.allList.Nodup) (hid : k.idleThread = some t) :
    k.feedback.value.recentCpu t = k.countTick.value.recentCpu t := by
  set k₁ := k.countTick.value
  have huse : k₁.renewUse.value.recentCpu t = k₁.recentCpu t := by
    unfold renewUse
    split
    · rw [value_bind, renewRecentCpu_recentCpu (k := k₁.renewLoadAvg.value) hnodup]
      split
      · exact if_pos hid.symm
      · rfl
    · rfl
  have horder : ∀ k' : Kernel, k'.renewOrder.value.recentCpu = k'.recentCpu := fun k' => by
    unfold renewOrder
    split
    · exact forEach_keeps (P := fun k => k.recentCpu = k'.recentCpu) (fun _ _ h => h) _ rfl
    · rfl
  exact (congrFun (horder _) t).trans huse

theorem Idling.wakeDue (h : Idling k) : ∃ ts, k.wakeDue = some { k with timerSmallestTick := ts } := by
  unfold Kernel.wakeDue
  split
  · refine ⟨int64Max, ?_⟩
    rw [wakeThread, h.blockList]
    rfl
  · exact ⟨k.timerSmallestTick, rfl⟩

/-- Its `thread_yield` schedules the idle thread again. -/
theorem Idling.threadYield (h : Idling k) :
    k.threadYield = some ((k.setStatus k.current .ready).scheduleTail firstCreated) := by
  have hrequeue : k.requeue = k.setStatus k.current .ready := by
    rw [requeue, if_pos (by rw [h.current, h.idleThread])]
  have hst : (k.setStatus k.current .ready).status (k.setStatus k.current .ready).current ≠ .running := by
    show Function.update k.status k.current .ready k.current ≠ .running
    rw [Function.update_self]
    simp
  have hready : (k.setStatus k.current .ready).readyList = [] := h.readyList
  have hid : (k.setStatus k.current .ready).idleThread = some firstCreated := h.idleThread
  rw [Kernel.threadYield, hrequeue, schedule, if_neg hst, hready]
  simp only [hid, Option.map_some]

/-- A timer interrupt then: the idle thread goes on. -/
theorem Idling.timerInterrupt (h : Idling k) : ∃ k', k.timerInterrupt = some k' ∧ Idling k' ∧
    k'.recentCpu = k.tick.renew.value.recentCpu ∧ k'.allList = k.allList := by
  obtain ⟨p, r, a, heq⟩ := renew_renewed k.tick
  have hrenewed : Idling k.tick.renew.value ∧ k.tick.renew.value.allList = k.allList := by
    rw [heq]
    exact ⟨⟨h.current, h.idleThread, h.readyList, h.blockList, h.control, h.modes⟩, rfl⟩
  obtain ⟨hidling, hall⟩ := hrenewed
  obtain ⟨ts, hwake⟩ := hidling.wakeDue
  set k₁ : Kernel := { k.tick.renew.value with timerSmallestTick := ts }
  have hidling₁ : Idling k₁ := ⟨hidling.current, hidling.idleThread, hidling.readyList, hidling.blockList,
    hidling.control, hidling.modes⟩
  have hhandler : k.timerHandler = some k₁ := hwake
  rw [Kernel.timerInterrupt, hhandler, Option.bind_some]
  split
  · exact ⟨_, hidling₁.threadYield, ⟨rfl, hidling₁.idleThread, hidling₁.readyList, hidling₁.blockList,
      hidling₁.control, hidling₁.modes⟩, rfl, hall⟩
  · exact ⟨_, rfl, hidling₁, rfl, hall⟩

/-- When nothing overflows, the idle thread has one more tick. -/
theorem Idling.tick (h : Idling k) (hnodup : k.allList.Nodup) (hfits : k.Fits .interrupt) :
    ∃ k', Step k .interrupt k' ∧ Idling k' ∧ k'.recentCpu firstCreated = k.recentCpu firstCreated + fract ∧
      k'.allList = k.allList := by
  obtain ⟨k', hs, hidling, hrecent, hall⟩ := h.timerInterrupt
  have hon : ∀ s, (k.control k.current).head? ≠ some (.retest s) := fun s => by
    rw [h.current, h.control, List.head?_cons]
    nofun
  refine ⟨k', .interrupt hon hs, hidling, ?_, hall⟩
  rw [hrecent, renew_mlfqs h.modes, feedback_recentCpu_idle (k := k.tick) hnodup h.idleThread,
    (countTick_of_fits h.modes hfits).2, h.current]
  show Function.update k.recentCpu firstCreated (k.recentCpu firstCreated + fract) firstCreated = _
  rw [Function.update_self]

/-- `main` waits for ever; the idle thread overflows at tick 131072. -/
theorem idle_thread_overflows : ¬∀ value as k a, Trace MlfqsStep (boot true false value) as k → NiceArgument a →
    k.Fits a := by
  intro hall
  have hcount : ∀ n : ℕ, ∃ k as, Trace MlfqsStep (boot true false fun _ => 0) as k ∧ Idling k ∧
      k.recentCpu firstCreated = n * fract ∧ k.allList.length ≤ 61 := by
    intro n
    induction n with
    | zero =>
      have hrun : (runWhile rangeCheck (startUp ++ calls (.down 5) 1) (boot true false fun _ => 0)).map
          (fun k => decide ((k.current = 1 ∧ k.idleThread = some 1 ∧ k.readyList = [] ∧ k.blockList = [] ∧
            k.control 1 = [.idleLoop] ∧ k.mlfqs = true ∧ k.aging = false) ∧
            k.recentCpu 1 = 0 ∧ k.allList.length ≤ 61)) = some true := by
        decide +kernel
      obtain ⟨k, hrun, hk⟩ := Option.map_eq_some_iff.mp hrun
      obtain ⟨⟨hcur, hid, hready, hblock, hcontrol, hmodes⟩, hrecent, hthreads⟩ := of_decide_eq_true hk
      refine ⟨k, _, (rangeCheck_trace (by simp [startUp, calls, Proper, NiceArgument]) (by simp [startUp, calls])
        hrun).mono fun _ _ _ h => h.1, ⟨hcur, hid, hready, hblock, hcontrol, hmodes⟩, ?_, hthreads⟩
      rw [Nat.cast_zero, zero_mul]
      exact hrecent
    | succ n ih =>
      obtain ⟨k, as, hrun, hidling, hrecent, hthreads⟩ := ih
      have hinv : Inv k := run_inv (hrun.mono fun _ _ _ h => ⟨h.1, h.2.1⟩)
      obtain ⟨k', hs, hidling', hrecent', hall'⟩ :=
        hidling.tick hinv.lists.allNodup (hall _ _ _ .interrupt hrun trivial)
      have hthreads' : k'.allList.length ≤ 61 := hall' ▸ hthreads
      refine ⟨k', _, hrun.append (.single ⟨hs, trivial, trivial, hthreads'⟩), hidling', ?_, hthreads'⟩
      rw [hrecent', hrecent, Nat.cast_succ, add_mul, one_mul]
  obtain ⟨k, as, hrun, hidling, hrecent, -⟩ := hcount 131071
  have hrange := (countTick_of_fits hidling.modes (hall _ _ _ .interrupt hrun trivial)).1.2
  rw [hidling.current, hrecent] at hrange
  exact absurd hrange (by decide)

end Kernel

end Pintos.Threads
