/-
Draws of dates, times and datetimes.  A date is one integer draw of a number of
days from its centre, a time one of a number of nanoseconds from its lower
bound; the bounds of a datetime's time apply on the boundary dates only.
-/
import Hegel.Calendar
import Hegel.MachineCalls
import Hegel.ServedDraws

namespace Hegel

def labelDate : Nat := 21

def labelTime : Nat := 22

def labelDateTime : Nat := 23

/-- A number that is filled up with zeros behind its sign. -/
def zeroPadded (width : Nat) (value : Int) : String :=
  let sign := if value < 0 then "-" else ""
  let digits := toString value.natAbs
  let zeros := width - sign.length - digits.length
  sign ++ String.ofList (List.replicate zeros '0') ++ digits

def Date.debug (d : Date) : String :=
  "Date \x7b year: " ++ toString d.year ++ ", month: " ++ toString d.month ++
    ", day: " ++ toString d.day ++ " \x7d"

def Time.debug (t : Time) : String :=
  "Time \x7b hour: " ++ toString t.hour ++ ", minute: " ++ toString t.minute ++
    ", second: " ++ toString t.second ++ ", nanosecond: " ++
    toString t.nanosecond ++ " \x7d"

def DateTime.debug (dt : DateTime) : String :=
  "DateTime \x7b date: " ++ dt.date.debug ++ ", time: " ++ dt.time.debug ++
    " \x7d"

section Validation

variable {State : Type}

def validateDate (what : String) (d : Date) : Attempt State MachineError Unit :=
  if d.isValid then pure ()
  else .refuse (.invalidArgument (what ++ " is not a valid date (year in [" ++
    toString minYear ++ ", " ++ toString maxYear ++ "]): " ++
    zeroPadded 5 d.year ++ "-" ++ zeroPadded 2 d.month ++ "-" ++
    zeroPadded 2 d.day))

def validateTime (what : String) (t : Time) : Attempt State MachineError Unit :=
  if t.isValid then pure ()
  else .refuse (.invalidArgument (what ++ " is not a valid time: " ++
    zeroPadded 2 t.hour ++ ":" ++ zeroPadded 2 t.minute ++ ":" ++
    zeroPadded 2 t.second ++ "." ++ zeroPadded 9 t.nanosecond))

/-- The refusal of bounds that leave nothing between them. -/
def emptyRange (operation lower upper : String) : MachineError :=
  .invalidArgument (operation ++ " requires min_value <= max_value, got [" ++
    lower ++ ", " ++ upper ++ "]")

end Validation

section Drawing

variable {Rng : Type} (sampler : Sampler Rng)

def drawI64 (minValue maxValue : Int) :
    Attempt (Source Rng) MachineError Int := do
  let value ← drawInt sampler minValue maxValue
  Attempt.ofExcept
    (if -2 ^ 63 ≤ value ∧ value < 2 ^ 63 then .ok value else .error .outOfRange)

/-- The day that draws of dates shrink towards. -/
def centerDay (minDays maxDays : Int) : Int :=
  max minDays (min maxDays (daysFromCivil ⟨2000, 1, 1⟩))

def drawDateIn (minDays maxDays : Int) :
    Attempt (Source Rng) MachineError Date := do
  let center := centerDay minDays maxDays
  let offset ← drawI64 sampler (minDays - center) (maxDays - center)
  return civilFromDays (center + offset)

def drawTimeIn (minNs maxNs : Int) : Attempt (Source Rng) MachineError Time := do
  let offset ← drawI64 sampler 0 (maxNs - minNs)
  return timeFromNs (minNs + offset)

def generateDate (lower upper : Date) :
    Attempt (Source Rng) MachineError Date := do
  validateDate "min_value" lower
  validateDate "max_value" upper
  let minDays := daysFromCivil lower
  let maxDays := daysFromCivil upper
  if minDays > maxDays then
    Attempt.refuse (emptyRange "generate_date" lower.debug upper.debug)
  else spanned labelDate (drawDateIn sampler minDays maxDays)

def generateTime (lower upper : Time) :
    Attempt (Source Rng) MachineError Time := do
  validateTime "min_value" lower
  validateTime "max_value" upper
  let minNs := timeToNs lower
  let maxNs := timeToNs upper
  if minNs > maxNs then
    Attempt.refuse (emptyRange "generate_time" lower.debug upper.debug)
  else spanned labelTime (drawTimeIn sampler minNs maxNs)

/-- A date, then a time within the bounds that remain on that date. -/
def drawDateTimeIn (minDays maxDays minNs maxNs : Int) :
    Attempt (Source Rng) MachineError DateTime := do
  let date ← drawDateIn sampler minDays maxDays
  let day := daysFromCivil date
  let lo := if day = minDays then minNs else 0
  let hi := if day = maxDays then maxNs else lastNsOfDay
  let time ← drawTimeIn sampler lo hi
  return ⟨date, time⟩

def generateDateTime (lower upper : DateTime) :
    Attempt (Source Rng) MachineError DateTime := do
  validateDate "min_value.date" lower.date
  validateDate "max_value.date" upper.date
  validateTime "min_value.time" lower.time
  validateTime "max_value.time" upper.time
  let minDays := daysFromCivil lower.date
  let maxDays := daysFromCivil upper.date
  let minNs := timeToNs lower.time
  let maxNs := timeToNs upper.time
  if minDays > maxDays ∨ minDays = maxDays ∧ minNs > maxNs then
    Attempt.refuse (emptyRange "generate_datetime" lower.debug upper.debug)
  else
    spanned labelDateTime (drawDateTimeIn sampler minDays maxDays minNs maxNs)

end Drawing

/-- Valid and within the bounds. -/
structure Date.Between (lower upper d : Date) : Prop where
  valid : d.isValid = true
  lower_le : ¬ d.Before lower
  le_upper : ¬ upper.Before d

structure Time.Between (lower upper t : Time) : Prop where
  valid : t.isValid = true
  lower_le : ¬ t.Before lower
  le_upper : ¬ upper.Before t

structure DateTime.Between (lower upper dt : DateTime) : Prop where
  date_valid : dt.date.isValid = true
  time_valid : dt.time.isValid = true
  lower_le : ¬ dt.Before lower
  le_upper : ¬ upper.Before dt

section Bounds

theorem Date.isValid_days {d : Date} (hvalid : d.isValid = true) :
    daysFromCivil firstDate ≤ daysFromCivil d ∧
      daysFromCivil d ≤ daysFromCivil lastDate :=
  (Date.isValid_iff.mp hvalid).2.2.isValid_iff_days.mp hvalid

theorem Date.not_before_iff {d e : Date} (hd : d.isValid = true)
    (he : e.isValid = true) :
    ¬ d.Before e ↔ daysFromCivil e ≤ daysFromCivil d := by
  rw [← not_lt, daysFromCivil_lt_iff (Date.isValid_iff.mp hd).2.2
    (Date.isValid_iff.mp he).2.2]

theorem Time.not_before_iff {s t : Time} (hs : s.isValid = true)
    (ht : t.isValid = true) : ¬ s.Before t ↔ timeToNs t ≤ timeToNs s := by
  rw [← not_lt, timeToNs_lt_iff hs ht]

theorem Date.between_iff {lower upper d : Date} (hlower : lower.isValid = true)
    (hupper : upper.isValid = true) :
    Date.Between lower upper d ↔ d.isValid = true ∧
      daysFromCivil lower ≤ daysFromCivil d ∧
      daysFromCivil d ≤ daysFromCivil upper := by
  constructor
  · rintro ⟨hvalid, hmin, hmax⟩
    exact ⟨hvalid, (Date.not_before_iff hvalid hlower).mp hmin,
      (Date.not_before_iff hupper hvalid).mp hmax⟩
  · rintro ⟨hvalid, hmin, hmax⟩
    exact ⟨hvalid, (Date.not_before_iff hvalid hlower).mpr hmin,
      (Date.not_before_iff hupper hvalid).mpr hmax⟩

theorem Time.between_iff {lower upper t : Time} (hlower : lower.isValid = true)
    (hupper : upper.isValid = true) :
    Time.Between lower upper t ↔ t.isValid = true ∧
      timeToNs lower ≤ timeToNs t ∧ timeToNs t ≤ timeToNs upper := by
  constructor
  · rintro ⟨hvalid, hmin, hmax⟩
    exact ⟨hvalid, (Time.not_before_iff hvalid hlower).mp hmin,
      (Time.not_before_iff hupper hvalid).mp hmax⟩
  · rintro ⟨hvalid, hmin, hmax⟩
    exact ⟨hvalid, (Time.not_before_iff hvalid hlower).mpr hmin,
      (Time.not_before_iff hupper hvalid).mpr hmax⟩

/-- Of two dates with a time the first is not before the second. -/
theorem DateTime.not_before_iff {a b : DateTime} (ha : a.date.isValid = true)
    (ha' : a.time.isValid = true) (hb : b.date.isValid = true)
    (hb' : b.time.isValid = true) :
    ¬ a.Before b ↔ daysFromCivil b.date < daysFromCivil a.date ∨
      daysFromCivil b.date = daysFromCivil a.date ∧
        timeToNs b.time ≤ timeToNs a.time := by
  have hdate : a.date = b.date ↔
      daysFromCivil a.date = daysFromCivil b.date :=
    ⟨fun heq => by rw [heq], daysFromCivil_injective
      (Date.isValid_iff.mp ha).2.2 (Date.isValid_iff.mp hb).2.2⟩
  rw [DateTime.Before, ← timeToNs_lt_iff ha' hb', hdate,
    ← daysFromCivil_lt_iff (Date.isValid_iff.mp ha).2.2
      (Date.isValid_iff.mp hb).2.2]
  omega

/-- Days of accepted dates, and their distances, are 64-bit numbers. -/
theorem days_range {days : Int} (hfirst : daysFromCivil firstDate ≤ days)
    (hlast : days ≤ daysFromCivil lastDate) : -2 ^ 32 < days ∧ days < 2 ^ 32 := by
  have hmin : -2 ^ 32 < daysFromCivil firstDate := by decide
  have hmax : daysFromCivil lastDate < 2 ^ 32 := by decide
  omega

theorem centerDay_bounds {minDays maxDays : Int} (h : minDays ≤ maxDays) :
    minDays ≤ centerDay minDays maxDays ∧
      centerDay minDays maxDays ≤ maxDays := by
  rw [centerDay]
  omega

end Bounds

section Soundness

variable {Rng : Type} {sampler : Sampler Rng} {source : Source Rng}

theorem drawI64_yields {minValue maxValue : Int} (h : minValue ≤ maxValue)
    (hmin : -2 ^ 63 ≤ minValue) (hmax : maxValue < 2 ^ 63) :
    (drawI64 sampler minValue maxValue).Meets source (Yields (fun _ => True)
      fun v _ => minValue ≤ v ∧ v ≤ maxValue) := by
  apply meets_bind_yields (drawInt_yields h)
  rintro v after - ⟨hlow, hhigh⟩
  apply Attempt.meets_ofExcept
  rw [if_pos ⟨hmin.trans hlow, hhigh.trans_lt hmax⟩]
  exact ⟨trivial, hlow, hhigh⟩

theorem drawDateIn_yields {minDays maxDays : Int} (h : minDays ≤ maxDays)
    (hfirst : daysFromCivil firstDate ≤ minDays)
    (hlast : maxDays ≤ daysFromCivil lastDate) :
    (drawDateIn sampler minDays maxDays).Meets source (Yields (fun _ => True)
      fun d _ => d.isValid = true ∧ minDays ≤ daysFromCivil d ∧
        daysFromCivil d ≤ maxDays) := by
  have hcenter := centerDay_bounds h
  have hrange := days_range hfirst (h.trans hlast)
  have hrange' := days_range (hfirst.trans h) hlast
  apply meets_bind_yields
    (drawI64_yields (by omega) (by omega) (by omega))
  rintro offset after - ⟨hlow, hhigh⟩
  obtain ⟨hvalid, hdays⟩ := @civilFromDays_spec
    (centerDay minDays maxDays + offset) (by omega) (by omega)
  refine ⟨trivial, hvalid, ?_⟩
  rw [hdays]
  omega

theorem drawTimeIn_yields {minNs maxNs : Int} (h : minNs ≤ maxNs)
    (hpos : 0 ≤ minNs) (hlast : maxNs ≤ lastNsOfDay) :
    (drawTimeIn sampler minNs maxNs).Meets source (Yields (fun _ => True)
      fun t _ => t.isValid = true ∧ minNs ≤ timeToNs t ∧
        timeToNs t ≤ maxNs) := by
  have hday : lastNsOfDay < 2 ^ 63 := by decide
  apply meets_bind_yields
    (drawI64_yields (by omega) (by omega) (by omega))
  rintro offset after - ⟨hlow, hhigh⟩
  obtain ⟨hvalid, hns⟩ := @timeFromNs_spec (minNs + offset)
    (by omega) (by omega)
  refine ⟨trivial, hvalid, ?_⟩
  rw [hns]
  omega

/-- A check that passes has no effect; one that fails is not internal. -/
theorem meets_validateDate {Value : Type} {what : String} {d : Date}
    {next : Unit → Attempt (Source Rng) MachineError Value}
    {good : Value → Source Rng → Prop}
    (hnext : d.isValid = true →
      (next ()).Meets source (Yields (fun _ => True) good)) :
    Attempt.Meets (validateDate what d >>= next) source
      (Yields (fun _ => True) good) := by
  apply Attempt.meets_bind
  rw [validateDate]
  by_cases hvalid : d.isValid = true
  · rw [if_pos hvalid]
    exact hnext hvalid
  · rw [if_neg hvalid]
    exact ⟨trivial, rfl⟩

theorem meets_validateTime {Value : Type} {what : String} {t : Time}
    {next : Unit → Attempt (Source Rng) MachineError Value}
    {good : Value → Source Rng → Prop}
    (hnext : t.isValid = true →
      (next ()).Meets source (Yields (fun _ => True) good)) :
    Attempt.Meets (validateTime what t >>= next) source
      (Yields (fun _ => True) good) := by
  apply Attempt.meets_bind
  rw [validateTime]
  by_cases hvalid : t.isValid = true
  · rw [if_pos hvalid]
    exact hnext hvalid
  · rw [if_neg hvalid]
    exact ⟨trivial, rfl⟩

theorem generateDate_yields (lower upper : Date) :
    (generateDate sampler lower upper).Meets source (Yields (fun _ => True)
      fun d _ => Date.Between lower upper d) := by
  rw [generateDate]
  apply meets_validateDate
  intro hlower
  apply meets_validateDate
  intro hupper
  dsimp only
  split
  next hempty => exact ⟨trivial, rfl⟩
  next hle =>
      apply NativeStateMachine.spanned_yields
      intro source
      apply (drawDateIn_yields (not_lt.mp hle) (Date.isValid_days hlower).1
        (Date.isValid_days hupper).2).mono
      intro result after hresult
      exact hresult.mono (fun _ hkept => hkept) fun d _ _ hd =>
        (Date.between_iff hlower hupper).mpr hd

theorem generateTime_yields (lower upper : Time) :
    (generateTime sampler lower upper).Meets source (Yields (fun _ => True)
      fun t _ => Time.Between lower upper t) := by
  rw [generateTime]
  apply meets_validateTime
  intro hlower
  apply meets_validateTime
  intro hupper
  dsimp only
  split
  next hempty => exact ⟨trivial, rfl⟩
  next hle =>
      apply NativeStateMachine.spanned_yields
      intro source
      apply (drawTimeIn_yields (not_lt.mp hle) (timeToNs_bounds hlower).1
        (timeToNs_bounds hupper).2).mono
      intro result after hresult
      exact hresult.mono (fun _ hkept => hkept) fun t _ _ ht =>
        (Time.between_iff hlower hupper).mpr ht

theorem generateDateTime_yields (lower upper : DateTime) :
    (generateDateTime sampler lower upper).Meets source (Yields (fun _ => True)
      fun dt _ => DateTime.Between lower upper dt) := by
  rw [generateDateTime]
  apply meets_validateDate
  intro hlower
  apply meets_validateDate
  intro hupper
  apply meets_validateTime
  intro hlower'
  apply meets_validateTime
  intro hupper'
  dsimp only
  split
  next hempty => exact ⟨trivial, rfl⟩
  next hle =>
      obtain ⟨hlow, hlow'⟩ := timeToNs_bounds hlower'
      obtain ⟨hup, hup'⟩ := timeToNs_bounds hupper'
      apply NativeStateMachine.spanned_yields
      intro source
      apply meets_bind_yields (drawDateIn_yields (by omega)
        (Date.isValid_days hlower).1 (Date.isValid_days hupper).2)
      rintro date after - ⟨hdate, hmin, hmax⟩
      apply meets_bind_yields (drawTimeIn_yields (by split <;> split <;> omega)
        (by split <;> omega) (by split <;> omega))
      rintro time final - ⟨htime, hearly, hlate⟩
      refine ⟨trivial, hdate, htime, ?_, ?_⟩
      · rw [DateTime.not_before_iff hdate htime hlower hlower']
        change daysFromCivil lower.date < daysFromCivil date ∨
          daysFromCivil lower.date = daysFromCivil date ∧
            timeToNs lower.time ≤ timeToNs time
        split at hearly <;> omega
      · rw [DateTime.not_before_iff hupper hupper' hdate htime]
        change daysFromCivil date < daysFromCivil upper.date ∨
          daysFromCivil date = daysFromCivil upper.date ∧
            timeToNs time ≤ timeToNs upper.time
        split at hlate <;> omega

end Soundness

section Replayed

variable {Rng : Type}

variable (sampler : Sampler Rng) {source : Source Rng}
  {values : List ChoiceValue}

theorem drawI64_serves {minValue maxValue v : Int}
    (hserves : source.Serves (.integer v :: values)) (hmin : minValue ≤ v)
    (hmax : v ≤ maxValue) (hrange : -2 ^ 63 ≤ v ∧ v < 2 ^ 63) :
    ∃ after, drawI64 sampler minValue maxValue source = (.ok v, after) ∧
      after.Serves values := by
  obtain ⟨after, hdraw, hafter⟩ :=
    drawInt_serves sampler hserves hmin hmax
  refine ⟨after, ?_, hafter⟩
  simp only [drawI64, bind, Attempt.bind, hdraw, if_pos hrange,
    Attempt.ofExcept]

/-- The offset of a date is served as that date. -/
theorem drawDateIn_serves {minDays maxDays : Int} {d : Date}
    (hvalid : d.isValid = true)
    (hfirst : daysFromCivil firstDate ≤ minDays)
    (hlast : maxDays ≤ daysFromCivil lastDate)
    (hmin : minDays ≤ daysFromCivil d) (hmax : daysFromCivil d ≤ maxDays)
    (hserves : source.Serves
      (.integer (daysFromCivil d - centerDay minDays maxDays) :: values)) :
    ∃ after, drawDateIn sampler minDays maxDays source = (.ok d, after) ∧
      after.Serves values := by
  have hcenter := centerDay_bounds (hmin.trans hmax)
  have hrange := days_range hfirst (by omega)
  have hrange' := days_range (by omega) hlast
  obtain ⟨after, hdraw, hafter⟩ := @drawI64_serves Rng sampler source values
    (minDays - centerDay minDays maxDays) (maxDays - centerDay minDays maxDays)
    _ hserves (by omega) (by omega) (by omega)
  refine ⟨after, ?_, hafter⟩
  simp only [drawDateIn, bind, Attempt.bind, hdraw, pure]
  rw [add_sub_cancel, civilFromDays_daysFromCivil hvalid]

theorem drawTimeIn_serves {minNs maxNs : Int} {t : Time}
    (hvalid : t.isValid = true) (hpos : 0 ≤ minNs)
    (hmin : minNs ≤ timeToNs t) (hmax : timeToNs t ≤ maxNs)
    (hserves : source.Serves (.integer (timeToNs t - minNs) :: values)) :
    ∃ after, drawTimeIn sampler minNs maxNs source = (.ok t, after) ∧
      after.Serves values := by
  have hday : lastNsOfDay < 2 ^ 63 := by decide
  have hns := timeToNs_bounds hvalid
  obtain ⟨after, hdraw, hafter⟩ := @drawI64_serves Rng sampler source values
    0 (maxNs - minNs) _ hserves (by omega) (by omega) (by omega)
  refine ⟨after, ?_, hafter⟩
  simp only [drawTimeIn, bind, Attempt.bind, hdraw, pure]
  rw [add_sub_cancel, timeFromNs_timeToNs hvalid]

theorem validateDate_valid {State : Type} {what : String} {d : Date}
    (hvalid : d.isValid = true) (state : State) :
    validateDate what d state = (.ok (), state) := by
  rw [validateDate, if_pos hvalid]
  rfl

theorem validateTime_valid {State : Type} {what : String} {t : Time}
    (hvalid : t.isValid = true) (state : State) :
    validateTime what t state = (.ok (), state) := by
  rw [validateTime, if_pos hvalid]
  rfl

theorem generateDate_serves {lower upper d : Date}
    (hlower : lower.isValid = true) (hupper : upper.isValid = true)
    (hbetween : Date.Between lower upper d)
    (hdepth : source.stream.record.spanStack.length < maxDepth)
    (hserves : source.Serves [.integer (daysFromCivil d -
      centerDay (daysFromCivil lower) (daysFromCivil upper))]) :
    (generateDate sampler lower upper source).1 = .ok d := by
  obtain ⟨hvalid, hmin, hmax⟩ := (Date.between_iff hlower hupper).mp hbetween
  have hle : ¬ daysFromCivil lower > daysFromCivil upper := by omega
  obtain ⟨after, hdraw, -⟩ := drawDateIn_serves sampler hvalid
    (Date.isValid_days hlower).1 (Date.isValid_days hupper).2 hmin hmax
    (hserves.openSpan labelDate hdepth)
  simp only [generateDate, bind, Attempt.bind, validateDate_valid hlower,
    validateDate_valid hupper]
  rw [if_neg hle, spanned, hdraw]

theorem generateTime_serves {lower upper t : Time}
    (hlower : lower.isValid = true) (hupper : upper.isValid = true)
    (hbetween : Time.Between lower upper t)
    (hdepth : source.stream.record.spanStack.length < maxDepth)
    (hserves : source.Serves [.integer (timeToNs t - timeToNs lower)]) :
    (generateTime sampler lower upper source).1 = .ok t := by
  obtain ⟨hvalid, hmin, hmax⟩ := (Time.between_iff hlower hupper).mp hbetween
  have hle : ¬ timeToNs lower > timeToNs upper := by omega
  obtain ⟨after, hdraw, -⟩ := drawTimeIn_serves sampler hvalid
    (timeToNs_bounds hlower).1 hmin hmax
    (hserves.openSpan labelTime hdepth)
  simp only [generateTime, bind, Attempt.bind, validateTime_valid hlower,
    validateTime_valid hupper]
  rw [if_neg hle, spanned, hdraw]

/-- The lower bound of the time on some date. -/
def timeFloor (lower : DateTime) (d : Date) : Int :=
  if daysFromCivil d = daysFromCivil lower.date then timeToNs lower.time else 0

theorem generateDateTime_serves {lower upper dt : DateTime}
    (hlower : lower.date.isValid = true) (hlower' : lower.time.isValid = true)
    (hupper : upper.date.isValid = true) (hupper' : upper.time.isValid = true)
    (hbetween : DateTime.Between lower upper dt)
    (hdepth : source.stream.record.spanStack.length < maxDepth)
    (hserves : source.Serves [.integer (daysFromCivil dt.date -
      centerDay (daysFromCivil lower.date) (daysFromCivil upper.date)),
      .integer (timeToNs dt.time - timeFloor lower dt.date)]) :
    (generateDateTime sampler lower upper source).1 = .ok dt := by
  obtain ⟨hdate, htime, hmin, hmax⟩ := hbetween
  rw [DateTime.not_before_iff hdate htime hlower hlower'] at hmin
  rw [DateTime.not_before_iff hupper hupper' hdate htime] at hmax
  have hns := timeToNs_bounds htime
  have hnsLower := timeToNs_bounds hlower'
  have hle : ¬ (daysFromCivil lower.date > daysFromCivil upper.date ∨
      daysFromCivil lower.date = daysFromCivil upper.date ∧
        timeToNs lower.time > timeToNs upper.time) := by
    omega
  obtain ⟨after, hdraw, hafter⟩ := drawDateIn_serves sampler hdate
    (Date.isValid_days hlower).1 (Date.isValid_days hupper).2
    (show daysFromCivil lower.date ≤ _ by omega)
    (show _ ≤ daysFromCivil upper.date by omega)
    (hserves.openSpan labelDateTime hdepth)
  obtain ⟨final, hdraw', -⟩ := @drawTimeIn_serves Rng sampler after []
    (timeFloor lower dt.date)
    (if daysFromCivil dt.date = daysFromCivil upper.date then
      timeToNs upper.time else lastNsOfDay) dt.time htime
    (by rw [timeFloor]; split <;> omega) (by rw [timeFloor]; split <;> omega)
    (by split <;> omega) hafter
  rw [timeFloor] at hdraw'
  simp only [generateDateTime, bind, Attempt.bind, validateDate_valid hlower,
    validateDate_valid hupper, validateTime_valid hlower',
    validateTime_valid hupper']
  rw [if_neg hle, spanned]
  simp only [drawDateTimeIn, bind, Attempt.bind, hdraw, hdraw', pure]

end Replayed

/-- The numbers of days and of nanoseconds stand for the dates and the times,
in their order; and what is drawn between two bounds is between them, while
every value between them is drawn by some test case. -/
theorem calendar_draws_all_between :
    ((∀ d : Date, d.isValid = true → civilFromDays (daysFromCivil d) = d) ∧
      (∀ days, daysFromCivil firstDate ≤ days →
        days ≤ daysFromCivil lastDate → (civilFromDays days).isValid = true ∧
          daysFromCivil (civilFromDays days) = days) ∧
      ∀ d e : Date, d.isValid = true → e.isValid = true →
        (daysFromCivil d < daysFromCivil e ↔ d.Before e)) ∧
    ((∀ t : Time, t.isValid = true → timeFromNs (timeToNs t) = t) ∧
      (∀ ns, 0 ≤ ns → ns ≤ lastNsOfDay → (timeFromNs ns).isValid = true ∧
        timeToNs (timeFromNs ns) = ns) ∧
      ∀ s t : Time, s.isValid = true → t.isValid = true →
        (timeToNs s < timeToNs t ↔ s.Before t)) ∧
    (∀ lower upper d : Date,
      (∀ (Rng : Type) (sampler : Sampler Rng) (source : Source Rng),
        (generateDate sampler lower upper source).1 = .ok d →
          Date.Between lower upper d) ∧
      (lower.isValid = true → upper.isValid = true →
        Date.Between lower upper d → ∃ values, ∀ (Rng : Type)
          (sampler : Sampler Rng), (generateDate sampler lower upper
            (.forChoices Rng values)).1 = .ok d)) ∧
    (∀ lower upper t : Time,
      (∀ (Rng : Type) (sampler : Sampler Rng) (source : Source Rng),
        (generateTime sampler lower upper source).1 = .ok t →
          Time.Between lower upper t) ∧
      (lower.isValid = true → upper.isValid = true →
        Time.Between lower upper t → ∃ values, ∀ (Rng : Type)
          (sampler : Sampler Rng), (generateTime sampler lower upper
            (.forChoices Rng values)).1 = .ok t)) ∧
    ∀ lower upper dt : DateTime,
      (∀ (Rng : Type) (sampler : Sampler Rng) (source : Source Rng),
        (generateDateTime sampler lower upper source).1 = .ok dt →
          DateTime.Between lower upper dt) ∧
      (lower.date.isValid = true → lower.time.isValid = true →
        upper.date.isValid = true → upper.time.isValid = true →
        DateTime.Between lower upper dt → ∃ values, ∀ (Rng : Type)
          (sampler : Sampler Rng), (generateDateTime sampler lower upper
            (.forChoices Rng values)).1 = .ok dt) := by
  have hdepth (Rng : Type) (values : List ChoiceValue) :
      (Source.forChoices Rng values).stream.record.spanStack.length <
        maxDepth :=
    (by decide : 0 < maxDepth)
  refine ⟨⟨fun d => civilFromDays_daysFromCivil, fun days => civilFromDays_spec,
    fun d e hd he => daysFromCivil_lt_iff (Date.isValid_iff.mp hd).2.2
      (Date.isValid_iff.mp he).2.2⟩,
    ⟨fun t => timeFromNs_timeToNs, fun ns => timeFromNs_spec,
      fun s t => timeToNs_lt_iff⟩, ?_, ?_, ?_⟩
  · intro lower upper d
    constructor
    · intro Rng sampler source hdrawn
      have hyields := @generateDate_yields Rng sampler source lower upper
      rw [Attempt.Meets, hdrawn] at hyields
      exact hyields.2
    · intro hlower hupper hbetween
      exact ⟨_, fun Rng sampler => generateDate_serves sampler hlower hupper
        hbetween (hdepth Rng _)
        (Source.serves_forChoices (by decide : 1 ≤ usizeMax))⟩
  · intro lower upper t
    constructor
    · intro Rng sampler source hdrawn
      have hyields := @generateTime_yields Rng sampler source lower upper
      rw [Attempt.Meets, hdrawn] at hyields
      exact hyields.2
    · intro hlower hupper hbetween
      exact ⟨_, fun Rng sampler => generateTime_serves sampler hlower hupper
        hbetween (hdepth Rng _)
        (Source.serves_forChoices (by decide : 1 ≤ usizeMax))⟩
  · intro lower upper dt
    constructor
    · intro Rng sampler source hdrawn
      have hyields := @generateDateTime_yields Rng sampler source lower upper
      rw [Attempt.Meets, hdrawn] at hyields
      exact hyields.2
    · intro hlower hlower' hupper hupper' hbetween
      exact ⟨_, fun Rng sampler => generateDateTime_serves sampler hlower
        hlower' hupper hupper' hbetween (hdepth Rng _)
        (Source.serves_forChoices (by decide : 2 ≤ usizeMax))⟩

/-- The leap day of a year before the first one, drawn from the days around it
and at a time between two in them. -/
theorem calendar_draws_all_between_leapDay :
    civilFromDays (daysFromCivil ⟨-400, 2, 29⟩) = ⟨-400, 2, 29⟩ ∧
      timeFromNs (timeToNs ⟨23, 59, 59, 999999999⟩) =
        ⟨23, 59, 59, 999999999⟩ ∧
      (∃ values, ∀ (Rng : Type) (sampler : Sampler Rng),
        (generateDate sampler ⟨-400, 2, 28⟩ ⟨-400, 3, 1⟩
          (.forChoices Rng values)).1 = .ok ⟨-400, 2, 29⟩) ∧
      ∃ values, ∀ (Rng : Type) (sampler : Sampler Rng),
        (generateDateTime sampler ⟨⟨-400, 2, 28⟩, ⟨23, 30, 0, 0⟩⟩
          ⟨⟨-400, 3, 1⟩, ⟨0, 0, 0, 1⟩⟩ (.forChoices Rng values)).1 =
            .ok ⟨⟨-400, 2, 29⟩, ⟨12, 0, 0, 0⟩⟩ := by
  obtain ⟨⟨hround, -, -⟩, ⟨hround', -, -⟩, hdates, -, hdateTimes⟩ :=
    calendar_draws_all_between
  refine ⟨hround _ (by decide), hround' _ (by decide),
    (hdates _ _ _).2 (by decide) (by decide) ⟨by decide, ?_, ?_⟩,
    (hdateTimes _ _ _).2 (by decide) (by decide) (by decide) (by decide)
      ⟨by decide, by decide, ?_, ?_⟩⟩
  · unfold Date.Before
    decide
  · unfold Date.Before
    decide
  · unfold DateTime.Before Date.Before Time.Before
    decide
  · unfold DateTime.Before Date.Before Time.Before
    decide

end Hegel
