import Pintos.Threads.Mlfqs

/-!
# The load average and the decay

`load_avg` is a weighted mean of the numbers of threads that have been ready or running at the calls of
`renew_load_avg`, so it stays below the highest of them; up to 2184 threads no `int` overflows on the way.  The
factor by which `renew_recent_cpu` takes every `recent_cpu` is then at least 0 and below 1.
-/

namespace Pintos.Threads

open Checked

/-- `FAI (2 * load_avg, 1)` -/
def decayDivisor (loadAvg : ℤ) : Checked ℤ := do
  let a ← int (2 * loadAvg)
  fai a 1

/-- `FDF (2 * load_avg, FAI (2 * load_avg, 1))` -/
def decayFactor (loadAvg : ℤ) : Checked ℤ := do
  let a ← int (2 * loadAvg)
  let b ← decayDivisor loadAvg
  fdf a b

theorem nextRecentCpu_value (loadAvg recentCpu nice : ℤ) : (nextRecentCpu loadAvg recentCpu nice).value =
    (decayFactor loadAvg >>= fun decay => fmf decay recentCpu >>= fun c => fai c nice).value := by
  unfold nextRecentCpu decayFactor decayDivisor
  simp only [value_bind]

theorem nextRecentCpu_fits {loadAvg recentCpu nice : ℤ} (h : (decayFactor loadAvg).fits = true)
    (h' : (fmf (decayFactor loadAvg).value recentCpu >>= fun c => fai c nice).fits = true) :
    (nextRecentCpu loadAvg recentCpu nice).fits = true := by
  obtain ⟨htwice, hrest⟩ := (fits_bind _ _).mp h
  obtain ⟨hdivisor, hquotient⟩ := (fits_bind _ _).mp hrest
  obtain ⟨-, hplus⟩ := (fits_bind _ _).mp hdivisor
  exact (fits_bind _ _).mpr ⟨htwice, (fits_bind _ _).mpr ⟨hplus, (fits_bind _ _).mpr ⟨hquotient, h'⟩⟩⟩

/-- The range of `load_avg` with up to 2184 threads. -/
def LoadRange (a : ℤ) : Prop := 0 ≤ a ∧ a ≤ 2184 * fract

variable {a : ℤ}

theorem LoadRange.twice (h : LoadRange a) : Int32Range (2 * a) := by
  obtain ⟨hl, hu⟩ := h
  unfold fract at hu
  exact ⟨by omega, by omega⟩

/-- The divisor is at least 1. -/
theorem decayDivisor_exact (h : LoadRange a) :
    (decayDivisor a).Exact (2 * a + 1 * fract) ∧ fract ≤ 2 * a + 1 * fract := by
  obtain ⟨hl, hu⟩ := id h
  constructor
  · apply (exact_int h.twice).bind
    apply fai_exact (by decide)
    unfold fract at *
    exact ⟨by omega, by omega⟩
  · omega

/-- **The factor is at least 0 and below 1.** -/
theorem decayFactor_exact (h : LoadRange a) :
    ∃ decay, (decayFactor a).Exact decay ∧ 0 ≤ decay ∧ decay < fract := by
  have hnonneg : 0 ≤ 2 * a := by
    have := h.1
    omega
  obtain ⟨hexact, hl, hu⟩ := decay_exact hnonneg
  exact ⟨_, (exact_int h.twice).bind ((decayDivisor_exact h).1.bind hexact), hl, hu⟩

/-- The product with such a factor is no farther from 0. -/
theorem abs_decay_le {decay : ℤ} (hl : 0 ≤ decay) (hu : decay < fract) (r : ℤ) : |(decay * r).tdiv fract| ≤ |r| := by
  apply abs_tdiv_le (by decide)
  rw [abs_mul, abs_of_nonneg hl, mul_comm]
  exact mul_le_mul_of_nonneg_left hu.le (abs_nonneg r)

/-- **What `renew_recent_cpu` makes of a `recent_cpu`,** also where it overflows. -/
theorem abs_nextRecentCpu_le (h : LoadRange a) (r n : ℤ) : |(nextRecentCpu a r n).value| ≤ |r| + |n| * fract := by
  obtain ⟨decay, hexact, hl, hu⟩ := decayFactor_exact h
  rw [nextRecentCpu_value, value_bind, hexact.2]
  have hproduct : |(fmf decay r).value| ≤ |r| := (abs_wrap32_le _).trans (abs_decay_le hl hu r)
  have hnice : |wrap32 (n * fract)| ≤ |n| * fract := by
    refine (abs_wrap32_le _).trans ?_
    rw [abs_mul]
    exact le_of_eq rfl
  calc |wrap32 ((fmf decay r).value + wrap32 (n * fract))|
      ≤ |(fmf decay r).value + wrap32 (n * fract)| := abs_wrap32_le _
    _ ≤ |(fmf decay r).value| + |wrap32 (n * fract)| := abs_add_le _ _
    _ ≤ |r| + |n| * fract := add_le_add hproduct hnice

/-- It overflows only where this bound does. -/
theorem nextRecentCpu_fits_of_abs (h : LoadRange a) {r n : ℤ} (hfits : |r| + |n| * fract < 2 ^ 31) :
    (nextRecentCpu a r n).fits = true := by
  obtain ⟨decay, hexact, hl, hu⟩ := decayFactor_exact h
  apply nextRecentCpu_fits hexact.1
  rw [hexact.2]
  have hproduct := abs_decay_le hl hu r
  have hnice : |n * fract| = |n| * fract := abs_mul n fract
  have hr := abs_nonneg r
  have hn := abs_nonneg (n * fract)
  have hsum := abs_add_le ((decay * r).tdiv fract) (n * fract)
  have hadd : (fai ((decay * r).tdiv fract) n).Exact ((decay * r).tdiv fract + n * fract) :=
    fai_exact (int32Range_of_abs le_rfl (by omega)) (int32Range_of_abs hsum (by omega))
  exact ((exact_int (int32Range_of_abs hproduct (by omega))).bind hadd).1

namespace Kernel

variable {k k' : Kernel}

/-- The calls that this is about, and everything else that happens. -/
inductive UseAct
  | renewLoadAvg
  | renewRecentCpu
  | elsewhere

/-- They come in any order, `renew_load_avg` with at most `N` threads that are ready or run; nothing else changes
`load_avg`. -/
inductive UseStep (N : ℕ) : Kernel → UseAct → Kernel → Prop
  | renewLoadAvg {k : Kernel} (h : 0 ≤ k.rdnum ∧ k.rdnum ≤ N) : UseStep N k .renewLoadAvg k.renewLoadAvg.value
  | renewRecentCpu {k : Kernel} : UseStep N k .renewRecentCpu k.renewRecentCpu.value
  | elsewhere {k k' : Kernel} (h : k'.loadAvg = k.loadAvg) : UseStep N k .elsewhere k'

/-- `load_avg` between 0 and the number of the threads. -/
def LoadBounded (N : ℕ) (k : Kernel) : Prop := 0 ≤ k.loadAvg ∧ k.loadAvg ≤ N * fract

theorem LoadBounded.range {N : ℕ} (h : LoadBounded N k) (hN : N ≤ 2184) : LoadRange k.loadAvg := by
  obtain ⟨hl, hu⟩ := h
  unfold LoadRange fract at *
  omega

theorem LoadBounded.renewLoadAvg {N : ℕ} (h : LoadBounded N k) (hN : N ≤ 2184) (hn : 0 ≤ k.rdnum ∧ k.rdnum ≤ N) :
    k.renewLoadAvg.fits = true ∧ LoadBounded N k.renewLoadAvg.value := by
  obtain ⟨hexact, hload⟩ := nextLoadAvg_exact (by omega) h hn
  have hexact := hexact.map fun a => { k with loadAvg := a }
  refine ⟨hexact.1, ?_⟩
  rw [show k.renewLoadAvg.value = _ from hexact.2]
  exact hload

theorem renewRecentCpu_loadAvg (k : Kernel) : k.renewRecentCpu.value.loadAvg = k.loadAvg := by
  apply forEach_keeps (P := fun k' => k'.loadAvg = k.loadAvg) (fun t k' h => ?_) _ rfl
  rw [renewRecentCpuOf_value]
  exact h

/-- **A call keeps the bounds.** -/
theorem LoadBounded.step {N : ℕ} (h : LoadBounded N k) (hN : N ≤ 2184) {a : UseAct} (hs : UseStep N k a k') :
    LoadBounded N k' := by
  have hsame : k'.loadAvg = k.loadAvg → LoadBounded N k' := fun heq => by
    unfold LoadBounded
    rw [heq]
    exact h
  cases hs with
  | renewLoadAvg hn => exact (h.renewLoadAvg hN hn).2
  | renewRecentCpu => exact hsame (renewRecentCpu_loadAvg k)
  | elsewhere heq => exact hsame heq

theorem abs_renewRecentCpu_le (h : LoadRange k.loadAvg) (hnodup : k.allList.Nodup) (t : ℕ) :
    |k.renewRecentCpu.value.recentCpu t| ≤ |k.recentCpu t| + |k.nice t| * fract := by
  have hnonneg : 0 ≤ |k.nice t| * fract := mul_nonneg (abs_nonneg _) (by decide)
  rw [renewRecentCpu_recentCpu hnodup]
  unfold renewedUse
  split
  · split
    · exact le_add_of_nonneg_right hnonneg
    · exact abs_nextRecentCpu_le h _ _
  · exact le_add_of_nonneg_right hnonneg

/-- **The load average and the decay are bounded,** in every state that calls of `renew_load_avg` and
`renew_recent_cpu` lead to from `load_avg = 0` with at most `N` threads that are ready or run: `load_avg` is between
0 and `N`, `renew_load_avg` does not overflow, the divisor is at least 1, the factor is at least 0 and below 1, and
`renew_recent_cpu` brings a `recent_cpu` no farther from 0 than by `nice`. -/
theorem load_average_bounded {N : ℕ} (hN : N ≤ 2184) {k₀ : Kernel} (hzero : k₀.loadAvg = 0) {as : List UseAct}
    (hrun : Trace (UseStep N) k₀ as k) :
    (0 ≤ k.loadAvg ∧ k.loadAvg ≤ N * fract) ∧
    (0 ≤ k.rdnum ∧ k.rdnum ≤ N → k.renewLoadAvg.fits = true) ∧
    (∃ divisor, (decayDivisor k.loadAvg).Exact divisor ∧ fract ≤ divisor) ∧
    (∃ decay, (decayFactor k.loadAvg).Exact decay ∧ 0 ≤ decay ∧ decay < fract) ∧
    (k.allList.Nodup → ∀ t, |k.renewRecentCpu.value.recentCpu t| ≤ |k.recentCpu t| + |k.nice t| * fract) ∧
    ∀ t, |k.recentCpu t| + |k.nice t| * fract < 2 ^ 31 →
      (nextRecentCpu k.loadAvg (k.recentCpu t) (k.nice t)).fits = true := by
  have hstart : LoadBounded N k₀ := by
    unfold LoadBounded
    rw [hzero]
    exact ⟨le_rfl, mul_nonneg (Nat.cast_nonneg N) (by decide)⟩
  have h : LoadBounded N k := hrun.invariant (fun _ _ _ h hs => h.step hN hs) hstart
  have hrange := h.range hN
  exact ⟨h, fun hn => (h.renewLoadAvg hN hn).1, ⟨_, decayDivisor_exact hrange⟩, decayFactor_exact hrange,
    abs_renewRecentCpu_le hrange, fun t => nextRecentCpu_fits_of_abs hrange⟩

/-- After the start the load average is renewed with one thread, and then the `recent_cpu` of all. -/
theorem load_average_bounded_started : ∃ k : Kernel, k.loadAvg = 546 ∧ k.loadAvg ≤ 2 * fract ∧
    k.renewLoadAvg.fits = true ∧ |k.renewRecentCpu.value.recentCpu 0| ≤ 0 := by
  set k₀ := boot true false fun _ => 0
  have hload : (boot true false fun _ => 0).renewLoadAvg.value.loadAvg = 546 := by decide +kernel
  have hrun : Trace (UseStep 2) k₀ [.renewLoadAvg, .renewRecentCpu] k₀.renewLoadAvg.value.renewRecentCpu.value :=
    .cons (.renewLoadAvg (by decide)) (.single .renewRecentCpu)
  obtain ⟨hbounds, hfits, -, -, hdecay, -⟩ := load_average_bounded (by decide) rfl hrun
  have heq : k₀.renewLoadAvg.value.renewRecentCpu.value.loadAvg = 546 := by
    rw [renewRecentCpu_loadAvg]
    exact hload
  refine ⟨_, heq, hbounds.2, hfits (by decide +kernel), (hdecay (by decide +kernel) 0).trans ?_⟩
  decide +kernel

end Kernel

end Pintos.Threads
