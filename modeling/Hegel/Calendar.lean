/-
Dates of the proleptic Gregorian calendar as numbers of days, and times of day
as numbers of nanoseconds.  A year starts in March here, so that the leap day
is the last one; months counted through all years then start on days that grow
by the lengths of the months.
-/
import Mathlib

namespace Hegel

/-- The casts to narrower integer types. -/
def asU8 (value : Int) : Nat :=
  (value % 2 ^ 8).toNat

def asU32 (value : Int) : Nat :=
  (value % 2 ^ 32).toNat

def asI32 (value : Int) : Int :=
  (value + 2 ^ 31) % 2 ^ 32 - 2 ^ 31

structure Date where
  year : Int
  month : Nat
  day : Nat
deriving DecidableEq

structure Time where
  hour : Nat
  minute : Nat
  second : Nat
  nanosecond : Nat
deriving DecidableEq

structure DateTime where
  date : Date
  time : Time
deriving DecidableEq

def isLeap (year : Int) : Bool :=
  year.tmod 4 = 0 && (year.tmod 100 != 0 || year.tmod 400 = 0)

/-- The length of a month, if there is such a month. -/
def daysInMonth (year : Int) : Nat → Option Nat
  | 1 | 3 | 5 | 7 | 8 | 10 | 12 => some 31
  | 4 | 6 | 9 | 11 => some 30
  | 2 => some (if isLeap year then 29 else 28)
  | _ => none

def minYear : Int := -999999

def maxYear : Int := 999999

/-- Days since the first of January 1970. -/
def daysFromCivil (d : Date) : Int :=
  let y := d.year - if d.month ≤ 2 then 1 else 0
  let era := y / 400
  let yoe := y - era * 400
  let mp : Int := d.month + if d.month > 2 then -3 else 9
  let doy := (153 * mp + 2).tdiv 5 + d.day - 1
  let doe := yoe * 365 + yoe.tdiv 4 - yoe.tdiv 100 + doy
  era * 146097 + doe - 719468

def civilFromDays (days : Int) : Date :=
  let z := days + 719468
  let era := z / 146097
  let doe := z - era * 146097
  let yoe :=
    (doe - doe.tdiv 1460 + doe.tdiv 36524 - doe.tdiv 146096).tdiv 365
  let y := yoe + era * 400
  let doy := doe - (365 * yoe + yoe.tdiv 4 - yoe.tdiv 100)
  let mp := (5 * doy + 2).tdiv 153
  let month := asU8 (if mp < 10 then mp + 3 else mp - 9)
  { year := asI32 (y + if month ≤ 2 then 1 else 0)
    month := month
    day := asU8 (doy - (153 * mp + 2).tdiv 5 + 1) }

def timeToNs (t : Time) : Int :=
  ((t.hour * 60 + t.minute) * 60 + t.second) * 1000000000 + t.nanosecond

def timeFromNs (ns : Int) : Time where
  hour := asU8 (ns.tdiv 3600000000000)
  minute := asU8 ((ns.tdiv 60000000000).tmod 60)
  second := asU8 ((ns.tdiv 1000000000).tmod 60)
  nanosecond := asU32 (ns.tmod 1000000000)

def lastNsOfDay : Int := 86400000000000 - 1

/-- The dates that are accepted as bounds. -/
def Date.isValid (d : Date) : Bool :=
  minYear ≤ d.year && d.year ≤ maxYear && (1 ≤ d.month && d.month ≤ 12) &&
    1 ≤ d.day && (daysInMonth d.year d.month).any fun days => d.day ≤ days

def Time.isValid (t : Time) : Bool :=
  t.hour ≤ 23 && t.minute ≤ 59 && t.second ≤ 59 && t.nanosecond ≤ 999999999

/-- The order of the calendar. -/
def Date.Before (d e : Date) : Prop :=
  d.year < e.year ∨ d.year = e.year ∧
    (d.month < e.month ∨ d.month = e.month ∧ d.day < e.day)

/-- The order within a day. -/
def Time.Before (s t : Time) : Prop :=
  s.hour < t.hour ∨ s.hour = t.hour ∧
    (s.minute < t.minute ∨ s.minute = t.minute ∧
      (s.second < t.second ∨
        s.second = t.second ∧ s.nanosecond < t.nanosecond))

def DateTime.Before (a b : DateTime) : Prop :=
  a.date.Before b.date ∨ a.date = b.date ∧ a.time.Before b.time

section Months

/-- First day of the year that starts in March, counted from year zero. -/
def yearStart (y : Int) : Int :=
  365 * y + y / 4 - y / 100 + y / 400

/-- First day of a month; months are counted from March of year zero. -/
def monthStart (m : Int) : Int :=
  yearStart (m / 12) + (153 * (m % 12) + 2) / 5 - 719468

/-- Months between March of year zero and the month of a date. -/
def Date.monthIndex (d : Date) : Int :=
  12 * d.year + d.month - 3

theorem isLeap_iff {year : Int} :
    isLeap year = true ↔
      year % 4 = 0 ∧ (year % 100 ≠ 0 ∨ year % 400 = 0) := by
  have htmod (n : Int) : year.tmod n = 0 ↔ year % n = 0 := by
    rw [← Int.dvd_iff_tmod_eq_zero, Int.dvd_iff_emod_eq_zero]
  simp [isLeap, htmod]

/-- The parts of a date that is valid but for its year. -/
structure Date.Civil (d : Date) : Prop where
  month_pos : 1 ≤ d.month
  month_le : d.month ≤ 12
  day_pos : 1 ≤ d.day
  day_le : ∃ days, daysInMonth d.year d.month = some days ∧ d.day ≤ days

theorem Date.isValid_iff {d : Date} :
    d.isValid = true ↔ minYear ≤ d.year ∧ d.year ≤ maxYear ∧ d.Civil := by
  rw [isValid]
  simp only [Bool.and_eq_true, decide_eq_true_eq, Option.any_eq_true]
  constructor
  · rintro ⟨⟨⟨⟨hmin, hmax⟩, hpos, hle⟩, hday⟩, hdays⟩
    exact ⟨hmin, hmax, hpos, hle, hday, hdays⟩
  · rintro ⟨hmin, hmax, hpos, hle, hday, hdays⟩
    exact ⟨⟨⟨⟨hmin, hmax⟩, hpos, hle⟩, hday⟩, hdays⟩

theorem daysFromCivil_eq {d : Date} (hciv : d.Civil) :
    daysFromCivil d = monthStart d.monthIndex + d.day - 1 := by
  obtain ⟨hpos, hle, -, -⟩ := hciv
  rw [daysFromCivil, monthStart, yearStart, Date.monthIndex]
  have hyoe (y : Int) : 0 ≤ y - y / 400 * 400 := by omega
  have hmp : (0 : Int) ≤ d.month + (if d.month > 2 then -3 else 9) := by
    split <;> omega
  simp only [Int.tdiv_eq_ediv_of_nonneg (hyoe _),
    Int.tdiv_eq_ediv_of_nonneg
      (show 0 ≤ 153 * ((d.month : Int) + if d.month > 2 then -3 else 9) + 2
        by omega)]
  by_cases hearly : d.month ≤ 2
  · rw [if_pos hearly, if_neg (by omega)]
    have hdiv : (12 * d.year + (d.month : Int) - 3) / 12 = d.year - 1 := by
      omega
    have hmod : (12 * d.year + (d.month : Int) - 3) % 12 = d.month + 9 := by
      omega
    rw [hdiv, hmod]
    omega
  · rw [if_neg hearly, if_pos (by omega)]
    have hdiv : (12 * d.year + (d.month : Int) - 3) / 12 = d.year := by omega
    have hmod : (12 * d.year + (d.month : Int) - 3) % 12 = d.month + -3 := by
      omega
    rw [hdiv, hmod]
    omega

/-- A month and the next one as parts of a year that starts in March. -/
theorem monthStart_parts (y mp : Int) (hmp : 0 ≤ mp) (hlt : mp < 12) :
    monthStart (12 * y + mp) =
      yearStart y + (153 * mp + 2) / 5 - 719468 := by
  have hdiv : (12 * y + mp) / 12 = y := by omega
  have hmod : (12 * y + mp) % 12 = mp := by omega
  rw [monthStart, hdiv, hmod]

/-- Only a leap year has a day more. -/
theorem yearStart_succ (y : Int) :
    yearStart (y + 1) = yearStart y + 365 + if isLeap (y + 1) then 1 else 0 := by
  rw [yearStart, yearStart]
  by_cases hleap : isLeap (y + 1) = true
  · have hcond := isLeap_iff.mp hleap
    rw [if_pos hleap]
    omega
  · have hcond := mt isLeap_iff.mpr hleap
    rw [if_neg hleap]
    omega

/-- The next month starts when a month is over. -/
theorem monthStart_succ {year : Int} {month days : Nat}
    (hdays : daysInMonth year month = some days) :
    monthStart (12 * year + month - 3 + 1) =
      monthStart (12 * year + month - 3) + days := by
  have hparts (y mp : Int) (hmp : 0 ≤ mp) (hlt : mp < 11) :
      monthStart (12 * y + mp + 1) = monthStart (12 * y + mp) +
        ((153 * (mp + 1) + 2) / 5 - (153 * mp + 2) / 5) := by
    rw [add_assoc, monthStart_parts y (mp + 1) (by omega) (by omega),
      monthStart_parts y mp hmp (by omega)]
    omega
  rcases eq_or_ne month 2 with rfl | hfeb
  · -- March of the same year begins a new one.
    have hthis : 12 * year + ((2 : Nat) : Int) - 3 = 12 * (year - 1) + 11 := by
      omega
    have hnext : 12 * (year - 1) + 11 + 1 = 12 * year + (0 : Int) := by omega
    rw [hthis, hnext, monthStart_parts year 0 (by omega) (by omega),
      monthStart_parts (year - 1) 11 (by omega) (by omega)]
    have hyear := yearStart_succ (year - 1)
    rw [sub_add_cancel] at hyear
    have hlength : days = if isLeap year then 29 else 28 := by
      rw [daysInMonth] at hdays
      exact (Option.some.inj hdays).symm
    rw [hyear, hlength]
    split <;> omega
  · rcases Nat.lt_or_ge month 3 with hearly | hlate
    · have hjan : month = 1 := by
        rcases month with _ | _ | _ | n
        · cases hdays
        · rfl
        · exact absurd rfl hfeb
        · omega
      subst hjan
      cases hdays
      have hthis : 12 * year + ((1 : Nat) : Int) - 3 = 12 * (year - 1) + 10 := by
        omega
      rw [hthis, hparts _ 10 (by omega) (by omega)]
      rfl
    · have hle : month ≤ 12 := by
        by_contra hbeyond
        rw [daysInMonth] at hdays
        · cases hdays
        all_goals omega
      have hthis : 12 * year + (month : Int) - 3 = 12 * year + (month - 3) := by
        omega
      rw [hthis, hparts _ _ (by omega) (by omega)]
      interval_cases month <;> cases hdays <;> rfl

/-- The months that there are, without their names. -/
theorem exists_daysInMonth (m : Int) : ∃ (year : Int) (month days : Nat),
    m = 12 * year + month - 3 ∧ 1 ≤ month ∧ month ≤ 12 ∧
      daysInMonth year month = some days ∧ 28 ≤ days := by
  refine ⟨(m + 2) / 12, ((m + 2) % 12).toNat + 1, ?_⟩
  have hmonth : ((m + 2) % 12).toNat < 12 := by omega
  generalize hyear : (m + 2) / 12 = year
  generalize hrest : ((m + 2) % 12).toNat = rest at hmonth ⊢
  have hm : m = 12 * year + ((rest + 1 : Nat) : Int) - 3 := by omega
  interval_cases rest
  case «1» =>
    refine ⟨_, hm, by omega, by omega, rfl, ?_⟩
    split <;> omega
  all_goals exact ⟨_, hm, by omega, by omega, rfl, by omega⟩

theorem strictMono_monthStart : StrictMono monthStart := by
  apply strictMono_int_of_lt_succ
  intro m
  obtain ⟨year, month, days, rfl, -, -, hdays, hlong⟩ := exists_daysInMonth m
  rw [monthStart_succ hdays]
  omega

/-- All days of a month come before the next month. -/
theorem daysFromCivil_bounds {d : Date} (hciv : d.Civil) :
    monthStart d.monthIndex ≤ daysFromCivil d ∧
      daysFromCivil d < monthStart (d.monthIndex + 1) := by
  obtain ⟨days, hdays, hle⟩ := hciv.day_le
  have hpos := hciv.day_pos
  rw [daysFromCivil_eq hciv, Date.monthIndex, monthStart_succ hdays]
  omega

theorem daysFromCivil_lt {d e : Date} (hd : d.Civil) (he : e.Civil)
    (hbefore : d.Before e) : daysFromCivil d < daysFromCivil e := by
  have hindex : d.monthIndex < e.monthIndex ∨
      d.monthIndex = e.monthIndex ∧ d.day < e.day := by
    have hdpos := hd.month_pos
    have hdle := hd.month_le
    have hepos := he.month_pos
    have hele := he.month_le
    rw [Date.monthIndex, Date.monthIndex]
    rcases hbefore with hyear | ⟨hyear, hmonth | ⟨hmonth, hday⟩⟩ <;> omega
  rcases hindex with hlt | ⟨heq, hday⟩
  · calc daysFromCivil d < monthStart (d.monthIndex + 1) :=
          (daysFromCivil_bounds hd).2
      _ ≤ monthStart e.monthIndex := strictMono_monthStart.monotone hlt
      _ ≤ daysFromCivil e := (daysFromCivil_bounds he).1
  · rw [daysFromCivil_eq hd, daysFromCivil_eq he, heq]
    omega

theorem Date.eq_or_before (d e : Date) : d = e ∨ d.Before e ∨ e.Before d := by
  rcases d with ⟨year, month, day⟩
  rcases e with ⟨year', month', day'⟩
  simp only [Date.mk.injEq, Date.Before]
  omega

theorem daysFromCivil_lt_iff {d e : Date} (hd : d.Civil) (he : e.Civil) :
    daysFromCivil d < daysFromCivil e ↔ d.Before e := by
  refine ⟨fun hlt => ?_, daysFromCivil_lt hd he⟩
  rcases d.eq_or_before e with rfl | hbefore | hafter
  · omega
  · exact hbefore
  · have := daysFromCivil_lt he hd hafter
    omega

theorem daysFromCivil_injective {d e : Date} (hd : d.Civil) (he : e.Civil)
    (heq : daysFromCivil d = daysFromCivil e) : d = e := by
  rcases d.eq_or_before e with hsame | hbefore | hafter
  · exact hsame
  · have := daysFromCivil_lt hd he hbefore
    omega
  · have := daysFromCivil_lt he hd hafter
    omega

end Months

section Days

/-- A day of an era by centuries, groups of four years and years; the last day
of an era stands alone. -/
theorem yearOfEra_parts {c k t s : Int} (hc : 0 ≤ c) (hc' : c ≤ 3) (hk : 0 ≤ k)
    (hs : 0 ≤ s) (hs' : s ≤ 1460) (hcentury : 1461 * k + s < 36524)
    (ht : t = min (s / 365) 3) {doe : Int}
    (hdoe : doe = 36524 * c + (1461 * k + s)) :
    (doe - doe / 1460 + doe / 36524 - doe / 146096) / 365 =
      100 * c + 4 * k + t := by
  have htop : doe / 146096 = 0 := by omega
  have hcenturies : doe / 36524 = c := by omega
  -- The days of a group of four are one more than 1460.
  have hgroups : doe / 1460 = 25 * c + k ∨
      doe / 1460 = 25 * c + k + 1 ∧ 1364 ≤ s := by
    omega
  have hlast : s = 1460 → doe / 1460 = 25 * c + k + 1 := by omega
  rw [htop, hcenturies]
  omega

theorem yearStart_parts {c k t : Int} (hc : 0 ≤ c) (hc' : c ≤ 3) (hk : 0 ≤ k)
    (hk' : k ≤ 24) (ht : 0 ≤ t) (ht' : t ≤ 3) :
    yearStart (100 * c + 4 * k + t) = 36524 * c + 1461 * k + 365 * t := by
  have hquad : (100 * c + 4 * k + t) / 4 = 25 * c + k := by omega
  have hcenturies : (100 * c + 4 * k + t) / 100 = c := by omega
  have hera : (100 * c + 4 * k + t) / 400 = 0 := by omega
  rw [yearStart, hquad, hcenturies, hera]
  omega

/-- The year within an era of four centuries, from the day within it. -/
theorem yearOfEra {doe yoe : Int} (hpos : 0 ≤ doe) (hlt : doe < 146097)
    (hyoe : yoe = (doe - doe / 1460 + doe / 36524 - doe / 146096) / 365) :
    0 ≤ yoe ∧ yoe < 400 ∧ yearStart yoe ≤ doe ∧ doe < yearStart (yoe + 1) := by
  by_cases hlast : doe = 146096
  · subst hlast
    subst hyoe
    decide
  · obtain ⟨c, r, hc, hr, hr', hdoe⟩ : ∃ c r, (0 ≤ c ∧ c ≤ 3) ∧ 0 ≤ r ∧
        r < 36524 ∧ doe = 36524 * c + r :=
      ⟨doe / 36524, doe % 36524, by omega, by omega, by omega, by omega⟩
    obtain ⟨k, s, hk, hs, hs', hrest⟩ : ∃ k s, (0 ≤ k ∧ k ≤ 24) ∧ 0 ≤ s ∧
        s ≤ 1460 ∧ r = 1461 * k + s :=
      ⟨r / 1461, r % 1461, by omega, by omega, by omega, by omega⟩
    subst hrest
    obtain ⟨t, ht⟩ : ∃ t, t = min (s / 365) 3 := ⟨_, rfl⟩
    rw [yearOfEra_parts hc.1 hc.2 hk.1 hs hs' hr' ht hdoe] at hyoe
    have hstart := yearStart_parts hc.1 hc.2 hk.1 hk.2
      (show 0 ≤ t by omega) (by omega)
    have hsucc := yearStart_succ yoe
    have hleap := @isLeap_iff (yoe + 1)
    rw [← hyoe] at hstart
    refine ⟨by omega, by omega, by omega, ?_⟩
    rw [hsucc, hstart]
    rcases (show s < 365 * (t + 1) ∨ t = 3 ∧ s = 1460 by omega) with hin | hend
    · split <;> omega
    · rw [if_pos (hleap.mpr (by omega))]
      omega

/-- The month of a day within a year that starts in March. -/
theorem monthOfYear {doy mp : Int} (hpos : 0 ≤ doy) (hle : doy ≤ 365)
    (hmp : mp = (5 * doy + 2) / 153) :
    0 ≤ mp ∧ mp ≤ 11 ∧ (153 * mp + 2) / 5 ≤ doy ∧
      (mp ≤ 10 → doy < (153 * (mp + 1) + 2) / 5) := by
  omega

theorem asI32_of_range {value : Int} (hmin : -2 ^ 31 ≤ value)
    (hlt : value < 2 ^ 31) : asI32 value = value := by
  rw [asI32]
  omega

theorem yearStart_era (yoe era : Int) :
    yearStart (yoe + era * 400) = yearStart yoe + era * 146097 := by
  rw [yearStart, yearStart]
  omega

/-- A number of days is taken apart into a month and a day within it. -/
theorem civilFromDays_parts (days : Int) : ∃ y mp dd : Int,
    (0 ≤ mp ∧ mp < 12) ∧ 0 ≤ dd ∧ days = monthStart (12 * y + mp) + dd ∧
      days < monthStart (12 * y + mp + 1) ∧
      civilFromDays days =
        { year := asI32 (y + if mp < 10 then 0 else 1)
          month := (if mp < 10 then mp + 3 else mp - 9).toNat
          day := asU8 (dd + 1) } := by
  obtain ⟨doe, hdoe⟩ : ∃ doe, doe = days + 719468 -
    (days + 719468) / 146097 * 146097 := ⟨_, rfl⟩
  have hdoe0 : 0 ≤ doe := by omega
  have hdoe1 : doe < 146097 := by omega
  obtain ⟨yoe, hyoe⟩ : ∃ yoe, yoe =
    (doe - doe / 1460 + doe / 36524 - doe / 146096) / 365 := ⟨_, rfl⟩
  obtain ⟨hyoe0, hyoe1, hstart, hnext⟩ := yearOfEra hdoe0 hdoe1 hyoe
  have hsucc := yearStart_succ yoe
  obtain ⟨doy, hdoy⟩ : ∃ doy, doy =
    doe - (365 * yoe + yoe / 4 - yoe / 100) := ⟨_, rfl⟩
  have hwithin : doy = doe - yearStart yoe := by
    rw [hdoy, yearStart]
    omega
  have hdoy1 : doy ≤ 365 := by
    split at hsucc <;> omega
  obtain ⟨mp, hmp⟩ : ∃ mp, mp = (5 * doy + 2) / 153 := ⟨_, rfl⟩
  obtain ⟨hmp0, hmp1, hfirst, hmonth⟩ := monthOfYear (by omega) hdoy1 hmp
  have hera := yearStart_era yoe ((days + 719468) / 146097)
  refine ⟨yoe + (days + 719468) / 146097 * 400, mp,
    doy - (153 * mp + 2) / 5, by omega, by omega, ?_, ?_, ?_⟩
  · rw [monthStart_parts _ _ hmp0 (by omega), hera]
    omega
  · rcases lt_or_ge mp 11 with hearly | hlast
    · rw [add_assoc, monthStart_parts _ _ (by omega) (by omega), hera]
      have := hmonth (by omega)
      omega
    · have hnextYear : 12 * (yoe + (days + 719468) / 146097 * 400) + mp + 1 =
          12 * (yoe + 1 + (days + 719468) / 146097 * 400) + 0 := by
        omega
      rw [hnextYear, monthStart_parts _ _ (by omega) (by omega), yearStart_era]
      omega
  · have hyears : (doe - doe.tdiv 1460 + doe.tdiv 36524 -
        doe.tdiv 146096).tdiv 365 = yoe := by
      simp only [Int.tdiv_eq_ediv_of_nonneg hdoe0]
      rw [Int.tdiv_eq_ediv_of_nonneg (by omega), hyoe]
    have hdays : doe - (365 * yoe + yoe.tdiv 4 - yoe.tdiv 100) = doy := by
      rw [Int.tdiv_eq_ediv_of_nonneg hyoe0, Int.tdiv_eq_ediv_of_nonneg hyoe0,
        hdoy]
    have hmonths : (5 * doy + 2).tdiv 153 = mp := by
      rw [Int.tdiv_eq_ediv_of_nonneg (by omega), hmp]
    have hcast : asU8 (if mp < 10 then mp + 3 else mp - 9) =
        (if mp < 10 then mp + 3 else mp - 9).toNat := by
      rw [asU8]
      split <;> omega
    rw [civilFromDays]
    simp only [← hdoe, hyears, hdays, hmonths, hcast,
      Int.tdiv_eq_ediv_of_nonneg (show 0 ≤ 153 * mp + 2 by omega)]
    congr 3
    split <;> split <;> omega

/-- Every day is one of the calendar; only its year may be too large. -/
theorem exists_civil (days : Int) : ∃ d : Date, d.Civil ∧
    daysFromCivil d = days ∧
      civilFromDays days = { d with year := asI32 d.year } := by
  obtain ⟨y, mp, dd, ⟨hmp, hmp'⟩, hdd, hstart, hnext, hparts⟩ :=
    civilFromDays_parts days
  obtain ⟨year, month, length, hm, hpos, hle, hlength, -⟩ :=
    exists_daysInMonth (12 * y + mp)
  have hyear : year = y + if mp < 10 then 0 else 1 := by
    split <;> omega
  have hmonth : month = (if mp < 10 then mp + 3 else mp - 9).toNat := by
    split <;> omega
  have hshort : length ≤ 31 := by
    rw [daysInMonth.eq_def] at hlength
    split at hlength <;> cases hlength <;> first | omega | (split <;> omega)
  rw [hm, monthStart_succ hlength] at hnext
  rw [hm] at hstart
  have hday : asU8 (dd + 1) = (dd + 1).toNat := by
    rw [asU8]
    omega
  have hciv : Date.Civil ⟨year, month, (dd + 1).toNat⟩ := by
    refine ⟨hpos, hle, ?_, length, hlength, ?_⟩
    · change 1 ≤ (dd + 1).toNat
      omega
    · change (dd + 1).toNat ≤ length
      omega
  refine ⟨_, hciv, ?_, ?_⟩
  · rw [daysFromCivil_eq hciv, Date.monthIndex]
    change monthStart (12 * year + month - 3) + ((dd + 1).toNat : Int) - 1 = days
    omega
  · rw [hparts, hday, ← hyear, ← hmonth]

/-- The first and the last accepted date. -/
def firstDate : Date := ⟨minYear, 1, 1⟩

def lastDate : Date := ⟨maxYear, 12, 31⟩

theorem civil_firstDate : firstDate.Civil :=
  (Date.isValid_iff.mp (by decide)).2.2

theorem civil_lastDate : lastDate.Civil :=
  (Date.isValid_iff.mp (by decide)).2.2

/-- The accepted dates are those between the first and the last one. -/
theorem Date.Civil.isValid_iff_days {d : Date} (hciv : d.Civil) :
    d.isValid = true ↔ daysFromCivil firstDate ≤ daysFromCivil d ∧
      daysFromCivil d ≤ daysFromCivil lastDate := by
  rw [← not_lt, ← not_lt, daysFromCivil_lt_iff hciv civil_firstDate,
    daysFromCivil_lt_iff civil_lastDate hciv, Date.isValid_iff]
  obtain ⟨hpos, hle, hday, length, hlength, hshort⟩ := hciv
  simp only [Date.Before, firstDate, lastDate]
  constructor
  · rintro ⟨hmin, hmax, -⟩
    refine ⟨by omega, ?_⟩
    rintro (hyear | ⟨-, hmonth | ⟨hmonth, hlate⟩⟩)
    · omega
    · omega
    · rw [← hmonth] at hlength
      cases hlength
      omega
  · rintro ⟨hfirst, hlast⟩
    exact ⟨by omega, by omega, hpos, hle, hday, length, hlength, hshort⟩

theorem civilFromDays_spec {days : Int} (hfirst : daysFromCivil firstDate ≤ days)
    (hlast : days ≤ daysFromCivil lastDate) :
    (civilFromDays days).isValid = true ∧
      daysFromCivil (civilFromDays days) = days := by
  obtain ⟨d, hciv, rfl, hcivil⟩ := exists_civil days
  have hvalid := hciv.isValid_iff_days.mpr ⟨hfirst, hlast⟩
  obtain ⟨hmin, hmax, -⟩ := Date.isValid_iff.mp hvalid
  rw [minYear] at hmin
  rw [maxYear] at hmax
  have hyear : asI32 d.year = d.year := asI32_of_range (by omega) (by omega)
  rw [hyear] at hcivil
  rw [hcivil]
  exact ⟨hvalid, rfl⟩

theorem civilFromDays_daysFromCivil {d : Date} (hvalid : d.isValid = true) :
    civilFromDays (daysFromCivil d) = d := by
  obtain ⟨-, -, hciv⟩ := Date.isValid_iff.mp hvalid
  obtain ⟨hfirst, hlast⟩ := hciv.isValid_iff_days.mp hvalid
  obtain ⟨hvalid', hdays⟩ := civilFromDays_spec hfirst hlast
  exact daysFromCivil_injective (Date.isValid_iff.mp hvalid').2.2 hciv hdays

example : civilFromDays (daysFromCivil ⟨-400, 2, 29⟩) = ⟨-400, 2, 29⟩ := by
  decide

end Days

section TimeOfDay

theorem Time.isValid_iff {t : Time} :
    t.isValid = true ↔ t.hour ≤ 23 ∧ t.minute ≤ 59 ∧ t.second ≤ 59 ∧
      t.nanosecond ≤ 999999999 := by
  simp [isValid, and_assoc]

theorem timeToNs_bounds {t : Time} (hvalid : t.isValid = true) :
    0 ≤ timeToNs t ∧ timeToNs t ≤ lastNsOfDay := by
  obtain ⟨hhour, hminute, hsecond, hnano⟩ := Time.isValid_iff.mp hvalid
  rw [timeToNs, lastNsOfDay]
  omega

/-- Without the casts and with the division of natural numbers. -/
theorem timeFromNs_eq {ns : Int} (hpos : 0 ≤ ns) (hle : ns ≤ lastNsOfDay) :
    timeFromNs ns = ⟨(ns / 3600000000000).toNat, (ns / 60000000000 % 60).toNat,
      (ns / 1000000000 % 60).toNat, (ns % 1000000000).toNat⟩ := by
  rw [lastNsOfDay] at hle
  have hcast (value : Int) (h0 : 0 ≤ value) (h1 : value < 2 ^ 8) :
      asU8 value = value.toNat := by
    rw [asU8, Int.emod_eq_of_lt h0 h1]
  have hcast' (value : Int) (h0 : 0 ≤ value) (h1 : value < 2 ^ 32) :
      asU32 value = value.toNat := by
    rw [asU32, Int.emod_eq_of_lt h0 h1]
  rw [timeFromNs]
  rw [Int.tdiv_eq_ediv_of_nonneg hpos, Int.tdiv_eq_ediv_of_nonneg hpos,
    Int.tdiv_eq_ediv_of_nonneg hpos, Int.tmod_eq_emod_of_nonneg hpos,
    Int.tmod_eq_emod_of_nonneg (by omega), Int.tmod_eq_emod_of_nonneg (by omega),
    hcast _ (by omega) (by omega), hcast _ (by omega) (by omega),
    hcast _ (by omega) (by omega), hcast' _ (by omega) (by omega)]

theorem timeFromNs_spec {ns : Int} (hpos : 0 ≤ ns) (hle : ns ≤ lastNsOfDay) :
    (timeFromNs ns).isValid = true ∧ timeToNs (timeFromNs ns) = ns := by
  rw [timeFromNs_eq hpos hle, Time.isValid_iff, timeToNs]
  rw [lastNsOfDay] at hle
  simp only []
  omega

theorem timeToNs_lt_iff {s t : Time} (hs : s.isValid = true)
    (ht : t.isValid = true) : timeToNs s < timeToNs t ↔ s.Before t := by
  obtain ⟨hhour, hminute, hsecond, hnano⟩ := Time.isValid_iff.mp hs
  obtain ⟨hhour', hminute', hsecond', hnano'⟩ := Time.isValid_iff.mp ht
  rw [timeToNs, timeToNs, Time.Before]
  omega

theorem timeToNs_injective {s t : Time} (hs : s.isValid = true)
    (ht : t.isValid = true) (heq : timeToNs s = timeToNs t) : s = t := by
  obtain ⟨hhour, hminute, hsecond, hnano⟩ := Time.isValid_iff.mp hs
  obtain ⟨hhour', hminute', hsecond', hnano'⟩ := Time.isValid_iff.mp ht
  rcases s with ⟨hour, minute, second, nanosecond⟩
  rcases t with ⟨hour', minute', second', nanosecond'⟩
  simp only [timeToNs, Time.mk.injEq] at *
  omega

theorem timeFromNs_timeToNs {t : Time} (hvalid : t.isValid = true) :
    timeFromNs (timeToNs t) = t := by
  obtain ⟨hpos, hle⟩ := timeToNs_bounds hvalid
  obtain ⟨hvalid', hns⟩ := timeFromNs_spec hpos hle
  exact timeToNs_injective hvalid' hvalid hns

end TimeOfDay

end Hegel
