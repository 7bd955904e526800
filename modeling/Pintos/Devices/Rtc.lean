import Mathlib.Logic.Function.Iterate
import Mathlib.Tactic

/-!
# The real-time clock

`devices/rtc.c`, with a clock that goes on while its registers are read.

* `dateAt` counts days from the first one of 1970 on; `dayNumber_dateAt` is the closed form.
* `rtcGetTime_ahead`: the time that is returned is that of one moment of the last round, but 27 to 32 days later: the days of
  the current month are counted, and leap years are taken to be those that come a whole number of times four years after
  1970.

The code calculates with 32-bit numbers, which is enough up to 2037.
-/

namespace Pintos.Devices.Rtc

/-! ## The code -/

/-- The time registers, in BCD. -/
structure Registers where
  sec : UInt8
  min : UInt8
  hour : UInt8
  mday : UInt8
  mon : UInt8
  year : UInt8
  deriving DecidableEq

/-- `bcd_to_bin` -/
def bcdToBin (x : UInt8) : ℕ := (x &&& 0x0f).toNat + (x >>> 4).toNat * 10

/-- `days_per_month` -/
def daysPerMonth : List ℕ := [31, 28, 31, 30, 31, 30, 31, 31, 30, 31, 30, 31]

/-- `rtc_get_time`, behind the loop that reads the registers -/
def seconds (r : Registers) : ℤ :=
  let year : ℕ := if bcdToBin r.year < 70 then bcdToBin r.year + 100 else bcdToBin r.year
  let year : ℤ := year - 70
  let time : ℤ := (year * 365 + (year - 1).tdiv 4) * 24 * 60 * 60
  let time := time + (((daysPerMonth.take (bcdToBin r.mon)).map fun d => d * 24 * 60 * 60).sum : ℕ)
  let time := if 2 < bcdToBin r.mon ∧ year.tmod 4 = 0 then time + 24 * 60 * 60 else time
  let time := time + (bcdToBin r.mday - 1) * 24 * 60 * 60
  let time := time + bcdToBin r.hour * 60 * 60
  let time := time + bcdToBin r.min * 60
  time + bcdToBin r.sec

/-- One round of the loop of `rtc_get_time`; read number `i` finds the registers `clock i`. -/
def readRound (clock : ℕ → Registers) (i : ℕ) : Registers :=
  ⟨(clock i).sec, (clock (i + 1)).min, (clock (i + 2)).hour, (clock (i + 3)).mday, (clock (i + 4)).mon,
    (clock (i + 5)).year⟩

/-- `rtc_get_time`, for as many rounds as `fuel` says -/
def rtcGetTime (clock : ℕ → Registers) : ℕ → ℕ → Option ℤ
  | _, 0 => none
  | i, fuel + 1 =>
    let r := readRound clock i
    if bcdToBin r.sec ≠ bcdToBin (clock (i + 6)).sec then rtcGetTime clock (i + 7) fuel else some (seconds r)

/-! ## The calendar -/

def IsLeap (year : ℕ) : Prop := 4 ∣ year ∧ (¬100 ∣ year ∨ 400 ∣ year)

instance isLeapDecidable : DecidablePred IsLeap := fun _ => inferInstanceAs (Decidable (_ ∧ _))

def monthLength (year month : ℕ) : ℕ := if month = 2 ∧ IsLeap year then 29 else daysPerMonth.getD (month - 1) 0

structure Date where
  year : ℕ
  month : ℕ
  day : ℕ
  deriving DecidableEq

namespace Date

def tomorrow (d : Date) : Date :=
  if d.day < monthLength d.year d.month then { d with day := d.day + 1 }
  else if d.month < 12 then ⟨d.year, d.month + 1, 1⟩
  else ⟨d.year + 1, 1, 1⟩

structure Valid (d : Date) : Prop where
  year : 1970 ≤ d.year
  month : 1 ≤ d.month ∧ d.month ≤ 12
  day : 1 ≤ d.day ∧ d.day ≤ monthLength d.year d.month

/-- The days from 1970 up to the beginning of the year. -/
def daysBefore (year : ℕ) : ℤ :=
  365 * ((year : ℤ) - 1970) + ((year - 1) / 4 - (year - 1) / 100 + (year - 1) / 400 - 477)

/-- The days of the year before the month. -/
def monthStart (year month : ℕ) : ℕ :=
  (daysPerMonth.take (month - 1)).sum + if 2 < month ∧ IsLeap year then 1 else 0

/-- The days since the first one of 1970. -/
def dayNumber (d : Date) : ℤ := daysBefore d.year + monthStart d.year d.month + (d.day - 1)

end Date

/-- The date, so many days after the first one of 1970. -/
def dateAt (n : ℕ) : Date := Date.tomorrow^[n] ⟨1970, 1, 1⟩

open Date

variable {d : Date} {year month n : ℕ}

theorem daysBefore_succ (year : ℕ) :
    daysBefore (year + 1) = daysBefore year + if IsLeap year then 366 else 365 := by
  by_cases hleap : IsLeap year
  · rw [if_pos hleap]
    unfold daysBefore IsLeap at *
    omega
  · rw [if_neg hleap]
    unfold daysBefore IsLeap at *
    omega

theorem monthLength_le (year : ℕ) (hmonth : 1 ≤ month ∧ month ≤ 12) : monthLength year month ≤ 31 := by
  obtain ⟨hlow, hhigh⟩ := hmonth
  unfold monthLength
  interval_cases month <;> by_cases hleap : IsLeap year <;> simp [daysPerMonth, hleap]

theorem monthStart_succ (hmonth : 1 ≤ month ∧ month < 12) :
    monthStart year (month + 1) = monthStart year month + monthLength year month := by
  obtain ⟨hlow, hhigh⟩ := hmonth
  unfold monthStart monthLength
  interval_cases month <;> by_cases hleap : IsLeap year <;> simp [daysPerMonth, hleap]

theorem monthStart_december (year : ℕ) :
    (monthStart year 12 + monthLength year 12 : ℤ) = if IsLeap year then 366 else 365 := by
  unfold monthStart monthLength
  by_cases hleap : IsLeap year <;> simp [daysPerMonth, hleap]

theorem Date.Valid.tomorrow (h : d.Valid) : d.tomorrow.Valid := by
  obtain ⟨hyear, hmonth, hday⟩ := h
  unfold Date.tomorrow
  split
  · next hlt => exact ⟨hyear, hmonth, by simp, hlt⟩
  · split
    · next hlt =>
      refine ⟨hyear, ⟨by simp, hlt⟩, le_rfl, ?_⟩
      obtain ⟨hlow, _⟩ := hmonth
      simp only
      unfold monthLength
      generalize d.month = m at *
      interval_cases m <;> simp [daysPerMonth]
      split <;> simp
    · exact ⟨Nat.le_succ_of_le hyear, ⟨le_rfl, by simp⟩, le_rfl, by simp [monthLength, daysPerMonth]⟩

/-- Each day has the next number. -/
theorem Date.Valid.dayNumber_tomorrow (h : d.Valid) : d.tomorrow.dayNumber = d.dayNumber + 1 := by
  obtain ⟨hyear, hmonth, hday⟩ := h
  unfold Date.tomorrow
  split
  · unfold dayNumber
    push_cast
    ring
  · next hlast =>
    have hlast' : d.day = monthLength d.year d.month := by omega
    split
    · next hlt =>
      unfold dayNumber
      simp only
      rw [monthStart_succ ⟨hmonth.1, hlt⟩, ← hlast']
      push_cast
      ring
    · have hdecember : d.month = 12 := by omega
      rw [hdecember] at hlast'
      have hyear' := monthStart_december d.year
      rw [← hlast'] at hyear'
      unfold dayNumber
      simp only
      rw [daysBefore_succ d.year, hdecember, ← hyear']
      simp [monthStart]
      ring

theorem dateAt_valid (n : ℕ) : (dateAt n).Valid := by
  induction n with
  | zero => exact ⟨le_rfl, by decide, by decide⟩
  | succ n ih =>
    rw [dateAt, Function.iterate_succ_apply']
    exact ih.tomorrow

/-- **The closed form of the calendar.** -/
theorem dayNumber_dateAt (n : ℕ) : (dateAt n).dayNumber = n := by
  induction n with
  | zero => decide
  | succ n ih =>
    have hnext : dateAt (n + 1) = (dateAt n).tomorrow := Function.iterate_succ_apply' ..
    rw [hnext, (dateAt_valid n).dayNumber_tomorrow, ih]
    rfl

/-! ## The clock -/

def toBcd (k : ℕ) : UInt8 := UInt8.ofNat (k / 10 * 16 + k % 10)

theorem bcdToBin_toBcd : ∀ k, k < 100 → bcdToBin (toBcd k) = k := by decide +kernel

/-- What the clock shows, so many seconds after the beginning of 1970. -/
def registersAt (n : ℕ) : Registers :=
  let d := dateAt (n / 86400)
  ⟨toBcd (n % 60), toBcd (n / 60 % 60), toBcd (n / 3600 % 24), toBcd d.day, toBcd d.month, toBcd (d.year % 100)⟩

/-- By how many days `rtc_get_time` is ahead, `y` years after 1970. -/
def ahead (y month : ℕ) : ℤ :=
  daysPerMonth.getD (month - 1) 0 - (if y % 4 = 3 ∨ y % 4 = 0 ∧ 0 < y then 1 else 0) +
    if 2 < month then if y % 4 = 0 then 1 else if y % 4 = 2 then -1 else 0 else 0

theorem ahead_bounds {y : ℕ} (hmonth : 1 ≤ month ∧ month ≤ 12) : 27 ≤ ahead y month ∧ ahead y month ≤ 32 := by
  obtain ⟨hlow, hhigh⟩ := hmonth
  unfold ahead
  interval_cases month <;> simp [daysPerMonth] <;> split_ifs <;> omega

theorem year_registersAt (hyear : 1970 ≤ year ∧ year ≤ 2069) :
    ((if bcdToBin (toBcd (year % 100)) < 70 then bcdToBin (toBcd (year % 100)) + 100
      else bcdToBin (toBcd (year % 100)) : ℕ) : ℤ) - 70 = (year - 1970 : ℕ) := by
  rw [bcdToBin_toBcd _ (Nat.mod_lt _ (by decide))]
  split <;> omega

theorem isLeap_iff (hyear : 1970 ≤ year ∧ year ≤ 2069) : IsLeap year ↔ (year - 1970) % 4 = 2 := by
  unfold IsLeap
  omega

theorem tdiv_pred (y : ℕ) : ((y : ℤ) - 1).tdiv 4 = (y - 1 : ℕ) / 4 := by
  cases y with
  | zero => rfl
  | succ y =>
    rw [Nat.cast_succ, add_sub_cancel_right, Int.tdiv_eq_ediv_of_nonneg (Int.natCast_nonneg y)]
    rfl

/-- The days that `rtc_get_time` counts, and those that there were. -/
theorem days_ahead (y : ℕ) (hyear : year = 1970 + y) (hy : y ≤ 99) (hmonth : 1 ≤ month ∧ month ≤ 12) :
    ((y : ℤ) * 365 + (y - 1 : ℕ) / 4) + (daysPerMonth.take month).sum +
      (if 2 < month ∧ y % 4 = 0 then 1 else 0) = daysBefore year + monthStart year month + ahead y month := by
  have hleap : IsLeap year ↔ y % 4 = 2 := by
    rw [isLeap_iff (by omega), hyear, Nat.add_sub_cancel_left]
  have hbefore : daysBefore year = 365 * (y : ℤ) + (y + 1 : ℕ) / 4 := by
    subst hyear
    unfold daysBefore
    omega
  obtain ⟨hlow, hhigh⟩ := hmonth
  rw [hbefore]
  unfold monthStart ahead
  simp only [hleap]
  have hquot : ((y + 1 : ℕ) / 4 : ℤ) - (y - 1 : ℕ) / 4 = if y % 4 = 3 ∨ y % 4 = 0 ∧ 0 < y then 1 else 0 := by
    split <;> omega
  interval_cases month <;> simp [daysPerMonth] <;> split_ifs at * <;> omega

/-- **The time that `rtc_get_time` makes of a moment.** -/
theorem seconds_registersAt (hyear : (dateAt (n / 86400)).year ≤ 2069) :
    seconds (registersAt n) = n + 86400 * ahead ((dateAt (n / 86400)).year - 1970) (dateAt (n / 86400)).month := by
  obtain ⟨hyear', hmonth, hday⟩ := dateAt_valid (n / 86400)
  have hnumber := dayNumber_dateAt (n / 86400)
  have hlast := monthLength_le (dateAt (n / 86400)).year hmonth
  unfold dayNumber at hnumber
  unfold registersAt seconds
  generalize dateAt (n / 86400) = d at *
  have hdays := days_ahead (d.year - 1970) (show d.year = _ by omega) (by omega) hmonth
  have hsum : ((daysPerMonth.take d.month).map fun k => k * 24 * 60 * 60).sum = 86400 * (daysPerMonth.take d.month).sum := by
    obtain ⟨hlow, hhigh⟩ := hmonth
    generalize d.month = m at *
    interval_cases m <;> rfl
  have hmod : ((d.year - 1970 : ℕ) : ℤ).tmod 4 = 0 ↔ (d.year - 1970) % 4 = 0 := by
    rw [Int.tmod_eq_emod_of_nonneg (Int.natCast_nonneg _)]
    omega
  simp only
  rw [year_registersAt ⟨hyear', hyear⟩, bcdToBin_toBcd d.month (by omega), bcdToBin_toBcd d.day (by omega),
    bcdToBin_toBcd _ (by omega), bcdToBin_toBcd _ (by omega), bcdToBin_toBcd _ (by omega), hsum, tdiv_pred]
  simp only [hmod]
  generalize ahead (d.year - 1970) d.month = extra at *
  generalize (daysPerMonth.take d.month).sum = counted at *
  push_cast
  split_ifs at hdays ⊢
  · omega
  · omega

/-! ## Reading a clock that goes on -/

variable {τ : ℕ → ℕ} {i fuel : ℕ} {time : ℤ}

/-- A round that begins and ends in the same second is in one moment. -/
theorem readRound_eq (hmono : Monotone τ) (hshort : τ (i + 6) < τ i + 60)
    (hsec : bcdToBin (registersAt (τ i)).sec = bcdToBin (registersAt (τ (i + 6))).sec) :
    readRound (fun k => registersAt (τ k)) i = registersAt (τ i) := by
  have hle : ∀ k, k ≤ 6 → τ i ≤ τ (i + k) ∧ τ (i + k) ≤ τ (i + 6) :=
    fun k hk => ⟨hmono (Nat.le_add_right i k), hmono (Nat.add_le_add_left hk i)⟩
  have hsame : τ (i + 6) = τ i := by
    simp only [registersAt] at hsec
    rw [bcdToBin_toBcd _ (by omega), bcdToBin_toBcd _ (by omega)] at hsec
    have hge := (hle 6 le_rfl).1
    omega
  have heq : ∀ k, k ≤ 6 → τ (i + k) = τ i := fun k hk => by
    have hk' := hle k hk
    omega
  simp only [readRound, heq 1 (by decide), heq 2 (by decide), heq 3 (by decide), heq 4 (by decide), heq 5 (by decide)]

theorem rtcGetTime_spec (hmono : Monotone τ) (hshort : ∀ k, τ (k + 6) < τ k + 60)
    (h : rtcGetTime (fun k => registersAt (τ k)) i fuel = some time) : ∃ k, i ≤ k ∧ time = seconds (registersAt (τ k)) := by
  induction fuel generalizing i with
  | zero => cases h
  | succ fuel ih =>
    rw [rtcGetTime] at h
    split at h
    · obtain ⟨k, hk, heq⟩ := ih h
      exact ⟨k, by omega, heq⟩
    · next hsec =>
      rw [readRound_eq hmono (hshort i) (not_not.mp hsec)] at h
      exact ⟨i, le_rfl, (Option.some.inj h).symm⟩

/-- The loop ends when a round is within one second. -/
theorem rtcGetTime_isSome {j : ℕ} (hj : j < fuel) (hround : τ (i + 7 * j) = τ (i + 7 * j + 6)) :
    (rtcGetTime (fun k => registersAt (τ k)) i fuel).isSome := by
  induction fuel generalizing i j with
  | zero => exact absurd hj (Nat.not_lt_zero j)
  | succ fuel ih =>
    rw [rtcGetTime]
    split
    · next hsec =>
      cases j with
      | zero => exact absurd (by rw [readRound, show τ i = τ (i + 6) from hround]) hsec
      | succ j =>
        have harg : i + 7 + 7 * j = i + 7 * (j + 1) := by omega
        exact ih (Nat.lt_of_succ_lt_succ hj) (by rw [harg]; exact hround)
    · rfl

/-- **`rtc_get_time` is 27 to 32 days ahead.**  The clock goes on while it is read, and no round takes a minute: the time
returned is that of one moment, with the days of the month counted twice and the leap days of other years; and the loop ends
as soon as a round is within one second. -/
theorem rtcGetTime_ahead (hmono : Monotone τ) (hshort : ∀ k, τ (k + 6) < τ k + 60)
    (hyear : ∀ k, (dateAt (τ k / 86400)).year ≤ 2037) (fuel : ℕ) :
    (∀ time, rtcGetTime (fun k => registersAt (τ k)) 0 fuel = some time → ∃ k,
      time = τ k + 86400 * ahead ((dateAt (τ k / 86400)).year - 1970) (dateAt (τ k / 86400)).month ∧
      τ k + 27 * 86400 ≤ time ∧ time ≤ τ k + 32 * 86400) ∧
    ∀ j, j < fuel → τ (7 * j) = τ (7 * j + 6) → (rtcGetTime (fun k => registersAt (τ k)) 0 fuel).isSome := by
  refine ⟨fun time h => ?_, fun j hj hround => ?_⟩
  · obtain ⟨k, _, rfl⟩ := rtcGetTime_spec hmono hshort h
    have hbounds := ahead_bounds (y := (dateAt (τ k / 86400)).year - 1970) (dateAt_valid (τ k / 86400)).month
    have hyear' : (dateAt (τ k / 86400)).year ≤ 2069 := (hyear k).trans (by decide)
    refine ⟨k, seconds_registersAt hyear', ?_⟩
    rw [seconds_registersAt hyear']
    omega
  · exact rtcGetTime_isSome hj (by simpa using hround)

/-- The third day of March 1970. -/
theorem rtcGetTime_ahead_march : ∃ time, rtcGetTime (fun _ => registersAt 5270400) 0 1 = some time ∧
    time = 5270400 + 86400 * ahead 0 3 := by
  have hdate : dateAt (5270400 / 86400) = ⟨1970, 3, 3⟩ := by decide +kernel
  have hyear : ∀ _ : ℕ, (dateAt (5270400 / 86400)).year ≤ 2037 := fun _ => by rw [hdate]; decide
  obtain ⟨hvalue, hsome⟩ := rtcGetTime_ahead (τ := fun _ => 5270400) monotone_const (fun _ => by decide) hyear 1
  obtain ⟨time, htime⟩ := Option.isSome_iff_exists.mp (hsome 0 (by decide) rfl)
  obtain ⟨_, heq, _⟩ := hvalue time htime
  rw [hdate] at heq
  exact ⟨time, htime, heq⟩

end Pintos.Devices.Rtc
