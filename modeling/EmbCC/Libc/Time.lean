import Mathlib

/-!
# The calendar

`gmtime_r` and `timegm` of `time.c`. Days are counted in eras of 400 years that
start in March. `Calendar` is the proleptic Gregorian calendar, month by month and
year by year, and the formulas agree with it on all integers (`timegm_gmtimeR`).

A `long` is an integer here, which it is where nothing overflows. Of the casts to
`int` only that of the year can lose anything.
-/

namespace EmbCC.Libc.Time

def daysFromCivil (y m d : ℤ) : ℤ :=
  let y := if m ≤ 2 then y - 1 else y
  let era := (if y ≥ 0 then y else y - 399).tdiv 400
  let yoe := y - era * 400
  let doy := (153 * (m + if m > 2 then -3 else 9) + 2) / 5 + d - 1
  let doe := yoe * 365 + yoe / 4 - yoe / 100 + doy
  era * 146097 + doe - 719468

/-- The year, the month and the day. -/
def civilFromDays (z : ℤ) : ℤ × ℤ × ℤ :=
  let z := z + 719468
  let era := (if z ≥ 0 then z else z - 146096).tdiv 146097
  let doe := z - era * 146097
  let yoe := (doe - doe / 1460 + doe / 36524 - doe / 146096) / 365
  let yy := yoe + era * 400
  let doy := doe - (365 * yoe + yoe / 4 - yoe / 100)
  let mp := (5 * doy + 2) / 153
  let d := doy - (153 * mp + 2) / 5 + 1
  let m := mp + if mp < 10 then 3 else -9
  (if m ≤ 2 then yy + 1 else yy, m, d)

def isLeap (y : ℤ) : Bool := (y % 4 = 0 ∧ y % 100 ≠ 0) ∨ y % 400 = 0

def fdiv (a b : ℤ) : ℤ :=
  if a.tmod b ≠ 0 ∧ ¬(a < 0 ↔ b < 0) then a.tdiv b - 1 else a.tdiv b

def fmod (a b : ℤ) : ℤ := a - fdiv a b * b

/-- `struct tm`, without what says which zone it is. -/
structure Tm where
  sec : ℤ
  min : ℤ
  hour : ℤ
  mday : ℤ
  mon : ℤ
  year : ℤ
  wday : ℤ
  yday : ℤ

def gmtimeR (t : ℤ) : Tm :=
  let days := fdiv t 86400
  let rem := fmod t 86400
  let c := civilFromDays days
  { hour := rem / 3600, min := rem % 3600 / 60, sec := rem % 60, wday := fmod (days + 4) 7,
    year := (c.1 - 1900).bmod (2 ^ 32), mon := c.2.1 - 1, mday := c.2.2,
    yday := days - daysFromCivil c.1 1 1 }

/-- The time, and what `*tm` is then. -/
def timegm (tm : Tm) : ℤ × Tm :=
  let y := tm.year + 1900 + fdiv tm.mon 12
  let mon := fmod tm.mon 12
  let days := daysFromCivil y (mon + 1) 1 + (tm.mday - 1)
  let secs := days * 86400 + tm.hour * 3600 + tm.min * 60 + tm.sec
  (secs, gmtimeR secs)

/-- The length of a month, counted from 0. -/
def monthDays (y m : ℤ) : ℤ :=
  if m = 1 then if isLeap y then 29 else 28 else if m = 3 ∨ m = 5 ∨ m = 8 ∨ m = 10 then 30 else 31

/-- `first y m` is the day on which the month begins, counted from the first of January 1970. -/
structure Calendar (first : ℤ → ℤ → ℤ) : Prop where
  epoch : first 1970 0 = 0
  month : ∀ y m, 0 ≤ m → m < 11 → first y (m + 1) = first y m + monthDays y m
  year : ∀ y, first (y + 1) 0 = first y 11 + monthDays y 11

lemma tdiv_floor {z n : ℤ} (hn : n = 400 ∨ n = 146097) : (if z ≥ 0 then z else z - (n - 1)).tdiv n = z / n := by
  rw [Int.tdiv_eq_ediv, Int.sign_eq_one_of_pos (by omega)]
  rcases hn with rfl | rfl <;> omega

lemma fdiv_eq {a b : ℤ} (hb : b = 7 ∨ b = 12 ∨ b = 86400) : fdiv a b = a / b := by
  rw [fdiv, Int.tmod_def, Int.tdiv_eq_ediv, Int.sign_eq_one_of_pos (by omega)]
  rcases hb with rfl | rfl | rfl <;> split_ifs <;> omega

lemma fmod_eq {a b : ℤ} (hb : b = 7 ∨ b = 12 ∨ b = 86400) : fmod a b = a % b := by
  rw [fmod, fdiv_eq hb, Int.emod_def, mul_comm]

/-- The days of the years before `y`, in years that begin in March. -/
def before (y : ℤ) : ℤ := 365 * y + y / 4 - y / 100 + y / 400

lemma daysFromCivil_eq (y m d : ℤ) : daysFromCivil y m d = before (if m ≤ 2 then y - 1 else y) +
    (153 * (m + if m > 2 then -3 else 9) + 2) / 5 + d - 719469 := by
  have hera := tdiv_floor (z := if m ≤ 2 then y - 1 else y) (.inl rfl)
  norm_num at hera
  simp only [daysFromCivil, hera, before]
  omega

lemma daysFromCivil_month {y m : ℤ} (h0 : 0 ≤ m) (h1 : m < 11) :
    daysFromCivil y (m + 1 + 1) 1 = daysFromCivil y (m + 1) 1 + monthDays y m := by
  simp only [daysFromCivil_eq, monthDays, isLeap, before]
  interval_cases m <;> norm_num <;> omega

lemma calendar_daysFromCivil : Calendar fun y m => daysFromCivil y (m + 1) 1 where
  epoch := rfl
  month y m h0 h1 := daysFromCivil_month h0 h1
  year y := by
    simp only [daysFromCivil_eq, monthDays]
    norm_num
    omega

/-- The year of the era, from the day of the era. -/
def yearOf (doe : ℤ) : ℤ := (doe - doe / 1460 + doe / 36524 - doe / 146096) / 365

lemma yearOf_mono : Monotone yearOf := by
  refine monotone_int_of_le_succ fun a => ?_
  have h1 : (a + 1) / 1460 ≤ a / 1460 + 1 := by omega
  have h2 : (a + 1) / 146096 - a / 146096 ≤ (a + 1) / 36524 - a / 36524 := by omega
  exact Int.ediv_le_ediv (by norm_num) (by linarith)

lemma yearOf_edges : ∀ n ∈ List.range 400, yearOf (before n) = n ∧ yearOf (before (n + 1) - 1) = n := by
  decide +kernel

/-- The year of the era that the day falls in. -/
lemma yearOf_spec {doe : ℤ} (h0 : 0 ≤ doe) (h1 : doe < 146097) : (0 ≤ yearOf doe ∧ yearOf doe < 400) ∧
    before (yearOf doe) ≤ doe ∧ doe < before (yearOf doe + 1) := by
  have hr : 0 ≤ yearOf doe ∧ yearOf doe < 400 := by
    unfold yearOf
    omega
  obtain ⟨n, hn⟩ := Int.eq_ofNat_of_zero_le hr.1
  rw [hn] at hr ⊢
  refine ⟨hr, not_lt.1 fun h => ?_, not_le.1 fun h => ?_⟩
  · cases n with
    | zero => exact absurd h (not_lt.2 h0)
    | succ n =>
      have hm := yearOf_mono (show doe ≤ before (n + 1) - 1 by push_cast at h; omega)
      rw [(yearOf_edges n (List.mem_range.2 (by omega))).2] at hm
      omega
  · have hm := yearOf_mono h
    rcases eq_or_ne n 399 with rfl | hne
    · exact absurd h (not_le.2 h1)
    · have := (yearOf_edges (n + 1) (List.mem_range.2 (by omega))).1
      push_cast at this
      omega

lemma before_add (y e : ℤ) : before (y + e * 400) = before y + e * 146097 := by
  have h4 : (y + e * 400) / 4 = y / 4 + e * 100 := by omega
  have h100 : (y + e * 400) / 100 = y / 100 + e * 4 := by omega
  have h400 : (y + e * 400) / 400 = y / 400 + e := by omega
  rw [before, before, h4, h100, h400]
  ring

lemma before_succ (y : ℤ) : before (y + 1) = before y + if isLeap (y + 1) then 366 else 365 := by
  have h4 : (y + 1) / 4 = y / 4 + if (y + 1) % 4 = 0 then 1 else 0 := by omega
  have h100 : (y + 1) / 100 = y / 100 + if (y + 1) % 100 = 0 then 1 else 0 := by omega
  have h400 : (y + 1) / 400 = y / 400 + if (y + 1) % 400 = 0 then 1 else 0 := by omega
  simp only [before, isLeap, decide_eq_true_eq]
  split_ifs <;> omega

/-- The date found is one of the calendar, and its day number is the one given. -/
lemma civilFromDays_spec (z : ℤ) : ∃ y m d, civilFromDays z = (y, m, d) ∧ (1 ≤ m ∧ m ≤ 12) ∧
    (1 ≤ d ∧ d ≤ monthDays y (m - 1)) ∧ daysFromCivil y m d = z := by
  have hera := tdiv_floor (z := z + 719468) (.inr rfl)
  norm_num at hera
  refine ⟨_, _, _, rfl, ?_⟩
  simp only [hera, daysFromCivil_eq]
  have hdoe : 0 ≤ z + 719468 - (z + 719468) / 146097 * 146097 ∧
      z + 719468 - (z + 719468) / 146097 * 146097 < 146097 := by omega
  generalize (z + 719468) / 146097 = era at *
  generalize hw : z + 719468 - era * 146097 = doe at *
  obtain ⟨hyoe, hlo, hhi⟩ := yearOf_spec hdoe.1 hdoe.2
  rw [← yearOf]
  generalize yearOf doe = yoe at *
  have hbefore : 365 * yoe + yoe / 4 - yoe / 100 = before yoe := by
    unfold before
    omega
  rw [hbefore]
  generalize hdoy : doe - before yoe = doy
  -- the day of the year that begins in March
  have hz : z + 719468 = before (yoe + era * 400) + doy := by
    rw [before_add]
    omega
  have hlen : doy < if isLeap (yoe + era * 400 + 1) then 366 else 365 := by
    have := before_succ (yoe + era * 400)
    have := before_add (yoe + 1) era
    rw [add_right_comm] at this
    omega
  have hmp : 0 ≤ (5 * doy + 2) / 153 ∧ (5 * doy + 2) / 153 ≤ 11 := by split at hlen <;> omega
  generalize hq : (5 * doy + 2) / 153 = mp at *
  obtain ⟨h0, h11⟩ := hmp
  simp only [monthDays]
  rcases h11.eq_or_lt with rfl | h11
  · norm_num
    split_ifs at hlen ⊢ <;> omega
  · interval_cases mp <;> norm_num <;> omega

lemma yday_bounds (y : ℤ) {m d : ℤ} (hm : 1 ≤ m ∧ m ≤ 12) (hd : 1 ≤ d ∧ d ≤ monthDays y (m - 1)) :
    0 ≤ daysFromCivil y m d - daysFromCivil y 1 1 ∧
      daysFromCivil y m d - daysFromCivil y 1 1 < if isLeap y then 366 else 365 := by
  have hs := before_succ (y - 1)
  rw [sub_add_cancel] at hs
  simp only [daysFromCivil_eq, monthDays] at *
  obtain ⟨h1, h12⟩ := hm
  interval_cases m <;> norm_num at hd ⊢ <;> omega

/-- `timegm` of any fields carries months into years and adds up the rest, and undoes `gmtime_r` of a
time whose year fits an `int`. -/
theorem timegm_gmtimeR : ∃ first, Calendar first ∧
    (∀ tm, (timegm tm).1 = (first (tm.year + 1900 + tm.mon / 12) (tm.mon % 12) + tm.mday - 1) * 86400 +
      tm.hour * 3600 + tm.min * 60 + tm.sec) ∧
    ∀ t, -2 ^ 31 ≤ (civilFromDays (t / 86400)).1 - 1900 → (civilFromDays (t / 86400)).1 - 1900 < 2 ^ 31 →
      let tm := gmtimeR t
      let y := tm.year + 1900
      (timegm tm).1 = t ∧ (0 ≤ tm.sec ∧ tm.sec < 60) ∧ (0 ≤ tm.min ∧ tm.min < 60) ∧
      (0 ≤ tm.hour ∧ tm.hour < 24) ∧ (1 ≤ tm.mday ∧ tm.mday ≤ monthDays y tm.mon) ∧
      (0 ≤ tm.mon ∧ tm.mon < 12) ∧ tm.wday = (t / 86400 + 4) % 7 ∧
      tm.yday = t / 86400 - first y 0 ∧ 0 ≤ tm.yday ∧ tm.yday < if isLeap y then 366 else 365 := by
  have htime tm : (timegm tm).1 = (daysFromCivil (tm.year + 1900 + tm.mon / 12) (tm.mon % 12 + 1) 1 +
      tm.mday - 1) * 86400 + tm.hour * 3600 + tm.min * 60 + tm.sec := by
    simp (disch := decide) only [timegm, fdiv_eq, fmod_eq]
    ring
  refine ⟨_, calendar_daysFromCivil, htime, fun t hlo hhi => ?_⟩
  obtain ⟨y, m, d, hc, hm, hd, hdays⟩ := civilFromDays_spec (t / 86400)
  rw [hc] at hlo hhi
  have hyear : (y - 1900).bmod (2 ^ 32) + 1900 = y := by
    rw [Int.bmod_eq_of_le] <;> omega
  have hyday := yday_bounds y hm hd
  have hmon : (m - 1) / 12 = 0 ∧ (m - 1) % 12 = m - 1 := by omega
  have hday : daysFromCivil y m d = daysFromCivil y m 1 + d - 1 := by
    simp only [daysFromCivil_eq]
    omega
  simp (disch := decide) only [htime, gmtimeR, fdiv_eq, fmod_eq, hc, hyear, hmon, sub_add_cancel]
  norm_num
  omega

end EmbCC.Libc.Time
