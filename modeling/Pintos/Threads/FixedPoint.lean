import Pintos.Library.Checked

/-!
# The numbers of the feedback scheduler

The 17.14 fixed-point numbers of `threads/thread.c`, and what the multi-level feedback queue scheduler
computes with them.  Every operation on an `int` is one of `Checked`; a product or a quotient of `FMF` or `FDF`
is an `int64_t` on the way and is narrowed at the end.
-/

namespace Pintos.Threads

open Checked (int)

/-- `FRACT` -/
def fract : ℤ := 2 ^ 14

/-- `PRI_MIN` -/
def priMin : ℤ := 0

/-- `PRI_DEFAULT` -/
def priDefault : ℤ := 31

/-- `PRI_MAX` -/
def priMax : ℤ := 63

/-- `FAI`: a fixed-point number and an integer. -/
def fai (f i : ℤ) : Checked ℤ := do
  let p ← int (i * fract)
  int (f + p)

/-- `FMF`: the product of two fixed-point numbers. -/
def fmf (f1 f2 : ℤ) : Checked ℤ := int ((f1 * f2).tdiv fract)

/-- `FDF`: the quotient of two fixed-point numbers.  The machine stops at the divisor 0. -/
def fdf (f1 f2 : ℤ) : Checked ℤ := if f2 = 0 then ⟨0, false⟩ else int ((f1 * fract).tdiv f2)

/-- The right-hand side of `renew_load_avg`. -/
def nextLoadAvg (loadAvg rdnum : ℤ) : Checked ℤ := do
  let a ← int (59 * loadAvg)
  let b ← fai a rdnum
  int (b.tdiv 60)

/-- The right-hand side of `renew_recent_cpu`. -/
def nextRecentCpu (loadAvg recentCpu nice : ℤ) : Checked ℤ := do
  let a ← int (2 * loadAvg)
  let b ← fai a 1
  let decay ← fdf a b
  let c ← fmf decay recentCpu
  fai c nice

/-- The range that `renew_prior` and `thread_set_nice` bring a priority into. -/
def clampPriority (p : ℤ) : ℤ := if p < priMin then priMin else if p > priMax then priMax else p

/-- The priority in `renew_prior` and `thread_set_nice`. -/
def feedbackPriority (recentCpu nice : ℤ) : Checked ℤ := do
  let a ← fai 0 priMax
  let b ← int (recentCpu.tdiv 4)
  let c ← int (a - b)
  let d ← fai 0 nice
  let e ← int (2 * d)
  let p ← int (c - e)
  pure (clampPriority (p.tdiv fract))

/-- What `thread_get_load_avg` and `thread_get_recent_cpu` return: 100 times a fixed-point number. -/
def hundredfold (f : ℤ) : Checked ℤ := do
  let a ← int (100 * f)
  pure (a.tdiv fract)

end Pintos.Threads
