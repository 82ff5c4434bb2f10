import Libpdk.Time.CalendarBijective

/-!
# Weeks

`getDayOfWeek`, `getDayOfYear` and `getWeekNumber` of `Date`. A week is seven days from a Monday
on and belongs to the year of its Thursday; the first week of a year is that of its first Thursday.
The code counts the days of the year instead, with a correction at both ends (`weekNumber_iff`).
-/
namespace Libpdk.Time

/-! ## The code -/

/-- mirrors time/DateTime.cpp:318-328 -/
def dayOfWeek (jd : Int) : Option Int :=
  if !isValidJd jd then some 0
  else if jd ≥ 0 then do
    let n ← int64 (jd.tmod 7)
    let n ← int64 (n + 1)
    int n
  else do
    let n ← int64 (jd + 1)
    let n ← int64 (n.tmod 7)
    let n ← int64 (n + 7)
    int n

/-- mirrors time/DateTime.cpp:294-300 -/
def getYear (jd : Int) : Option Int :=
  if !isValidJd jd then some 0 else (getDateFromJulianDay jd).map ParsedDate.year

/-- mirrors time/DateTime.cpp:330-336 -/
def dayOfYear (jd : Int) : Option Int :=
  if !isValidJd jd then some 0
  else do
    let year ← getYear jd
    let first ← julianDayFromDate year 1 1
    let n ← int64 (jd - first)
    let n ← int64 (n + 1)
    int n

/-- `(yday + days - wday + 10) / 7` with the sums from left to right. -/
def weekOf (yday days leap wday : Int) : Option Int := do
  let n ← int (yday + days)
  let n ← int (n + leap)
  let n ← int (n - wday)
  let n ← int (n + 10)
  int (n.tdiv 7)

/-- The week and the year that is written to `yearNumber`. An overflow gives `none`, and so does
an assertion that fails.
mirrors time/DateTime.cpp:359-388 -/
def weekNumber (jd : Int) : Option (Int × Option Int) :=
  if !isValidJd jd then some (0, none)
  else do
    let year ← getYear jd
    let yday ← dayOfYear jd
    let wday ← dayOfWeek jd
    let week ← weekOf yday 0 0 wday
    if week = 0 then
      -- "last week of previous year"
      let year ← int (year - 1)
      let week ← weekOf yday 365 (if isLeapYear year then 1 else 0) wday
      if week = 52 ∨ week = 53 then some (week, some year) else none
    else if week = 53 then
      -- "maybe first week of next year"
      let w ← weekOf yday (-365) (-(if isLeapYear year then 1 else 0)) wday
      if w > 0 then
        let year ← int (year + 1)
        if w = 53 ∨ w = 1 then some (w, some year) else none
      else some (week, some year)
    else some (week, some year)

/-! ## Weeks -/

/-- The Thursday of the week of a day. -/
def thursday (jd : Int) : Int := jd - jd % 7 + 3

/-- The day is the first Thursday of a year. -/
structure IsFirstThursday (year first : Int) : Prop where
  thursday : first % 7 = 3
  inYear : (civil first).year = year
  least : ∀ jd, (civil jd).year = year → jd % 7 = 3 → first ≤ jd

/-- The first of January. -/
def newYear (year : Int) : Int := julianDay ⟨year, 1, 1⟩

def firstThursday (year : Int) : Int := newYear year + (3 - newYear year) % 7

theorem newYear_real (year : Int) : (⟨year, 1, 1⟩ : ParsedDate).Real :=
  ⟨⟨Int.le_refl _, show (1 : Int) ≤ 12 by decide⟩, Int.le_refl _,
    show (1 : Int) ≤ monthLength year 1 by have := monthLength_pos year 1; omega⟩

theorem newYear_succ (year : Int) :
    newYear (year + 1) = newYear year + (if IsLeap year then 366 else 365) := by
  have hleap := leap_year (year + 4799)
  have hiff := isLeap_add year
  rw [show year + 4799 + 1 = year + 4800 by omega] at hleap
  simp only [hiff] at hleap
  rw [newYear, newYear, julianDay_eq, julianDay_eq]
  norm_num
  rw [show year + 1 + 4800 - 1 = year + 4800 by omega,
    show year + 4800 - 1 = year + 4799 by omega]
  split_ifs at hleap ⊢ <;> omega

/-- The days of a year. -/
theorem civil_year_iff (jd year : Int) :
    (civil jd).year = year ↔ newYear year ≤ jd ∧ jd < newYear (year + 1) := by
  have hreal := civil_real jd
  have hmonth := hreal.month
  have hday := hreal.day.1
  have hbefore (y : Int) : jd < newYear y ↔ (civil jd).Before ⟨y, 1, 1⟩ := by
    rw [← julianDay_lt_iff hreal (newYear_real y), julianDay_civil, newYear]
  have hlo := hbefore year
  have hhi := hbefore (year + 1)
  simp only [ParsedDate.Before] at hlo hhi
  constructor
  · intro h
    constructor
    · by_contra hlt
      have := hlo.mp (by omega)
      omega
    · exact hhi.mpr (.inl (by omega))
  · rintro ⟨hle, hlt⟩
    have := hhi.mp hlt
    by_contra hne
    have := hlo.mpr (.inl (by omega))
    omega

theorem firstThursday_isFirst (year : Int) : IsFirstThursday year (firstThursday year) := by
  have hsucc := newYear_succ year
  have hlen : newYear year + 365 ≤ newYear (year + 1) := by split_ifs at hsucc <;> omega
  refine ⟨?_, (civil_year_iff _ _).mpr ⟨?_, ?_⟩, fun jd hjd hthursday => ?_⟩
  · unfold firstThursday
    omega
  · unfold firstThursday
    omega
  · unfold firstThursday
    omega
  · have hbounds := (civil_year_iff jd year).mp hjd
    unfold firstThursday
    omega

/-! ## The code is exact -/

theorem dayOfWeek_eq {jd : Int} (h : isValidJd jd = true) : dayOfWeek jd = some (jd % 7 + 1) := by
  have hbounds := h
  rw [isValidJd, Bool.and_eq_true, decide_eq_true_eq, decide_eq_true_eq, minJd, maxJd] at hbounds
  rw [dayOfWeek, h, if_neg (by decide)]
  by_cases hpos : jd ≥ 0
  · rw [if_pos hpos, Int.tmod_eq_emod_of_nonneg hpos, int64_bind (by omega) (by omega),
      int64_bind (by omega) (by omega)]
    exact int_of (by omega) (by omega)
  · have hneg : (jd + 1).tmod 7 = -(-(jd + 1) % 7) := by
      rw [← Int.tmod_eq_emod_of_nonneg (by omega), Int.neg_tmod, Int.neg_neg]
    rw [if_neg hpos, int64_bind (by omega) (by omega), hneg, int64_bind (by omega) (by omega),
      int64_bind (by omega) (by omega), int_of (by omega) (by omega)]
    congr 1
    omega

theorem getYear_eq {jd : Int} (h : isValidJd jd = true) :
    getYear jd = some (withoutZero (civil jd).year) := by
  rw [getYear, h, if_neg (by decide), getDateFromJulianDay_written h]
  rfl

theorem dayOfYear_eq {jd : Int} (h : isValidJd jd = true) :
    dayOfYear jd = some (jd - newYear (civil jd).year + 1) := by
  have hyear := (isValidJd_iff jd).mp h
  have hin := (civil_year_iff jd (civil jd).year).mp rfl
  have hsucc := newYear_succ (civil jd).year
  have hlen : newYear ((civil jd).year + 1) ≤ newYear (civil jd).year + 366 := by
    split_ifs at hsucc <;> omega
  have hbounds := h
  rw [isValidJd, Bool.and_eq_true, decide_eq_true_eq, decide_eq_true_eq, minJd, maxJd] at hbounds
  have hwritten : -2147483648 ≤ withoutZero (civil jd).year ∧
      withoutZero (civil jd).year < 2147483648 := by
    unfold withoutZero
    split <;> omega
  have hfirst : julianDayFromDate (withoutZero (civil jd).year) 1 1 =
      some (newYear (civil jd).year) := by
    rw [julianDayFromDate_eq hwritten.1 hwritten.2 (by decide) (by decide), withZero_withoutZero]
    rfl
  rw [dayOfYear, h, if_neg (by decide), getYear_eq h, Option.bind_eq_bind, Option.bind_some,
    hfirst, Option.bind_some, int64_of (by omega) (by omega), Option.bind_some,
    int64_of (by omega) (by omega), Option.bind_some]
  exact int_of (by omega) (by omega)

theorem weekOf_eq {yday days leap wday : Int} (hyday : 1 ≤ yday ∧ yday ≤ 366)
    (hdays : -365 ≤ days ∧ days ≤ 365) (hleap : -1 ≤ leap ∧ leap ≤ 1)
    (hwday : 1 ≤ wday ∧ wday ≤ 7) (hpos : 0 ≤ yday + days + leap - wday + 10) :
    weekOf yday days leap wday = some ((yday + days + leap - wday + 10) / 7) := by
  rw [weekOf, int_bind (by omega) (by omega), int_bind (by omega) (by omega),
    int_bind (by omega) (by omega), int_bind (by omega) (by omega),
    Int.tdiv_eq_ediv_of_nonneg hpos]
  exact int_of (by omega) (by omega)

/-- Year 1 begins with a Monday, so no week has days on both sides of the year that is missing. -/
theorem newYear_one : newYear 1 % 7 = 0 := by rfl

/-- The first year begins with a Thursday, so no week of `Date` belongs to the year before. -/
theorem newYear_min : newYear (-2147483647) % 7 = 3 := by rfl

theorem thursday_week (jd year : Int) : 1 + (thursday jd - firstThursday year) / 7 =
    (thursday jd - newYear year + 7) / 7 := by
  unfold thursday firstThursday
  omega

theorem isLeapYear_withoutZero (year : Int) :
    isLeapYear (withoutZero year) = decide (IsLeap year) := by
  have hiff := isLeapYear_iff (withoutZero_ne_zero year)
  rw [withZero_withoutZero] at hiff
  by_cases hleap : IsLeap year
  · rw [decide_eq_true hleap, hiff.mpr hleap]
  · rw [decide_eq_false hleap, Bool.eq_false_iff]
    exact fun h => hleap (hiff.mp h)

/-- The digit of a leap year is what its days have more than 365. -/
theorem leapDay_eq (year : Int) : (if isLeapYear (withoutZero year) then (1 : Int) else 0) =
    newYear (year + 1) - newYear year - 365 := by
  rw [isLeapYear_withoutZero, newYear_succ]
  by_cases hleap : IsLeap year
  · rw [decide_eq_true hleap, if_pos rfl, if_pos hleap]
    omega
  · rw [decide_eq_false hleap, if_neg (by decide), if_neg hleap]
    omega

theorem year_length (year : Int) :
    newYear year + 365 ≤ newYear (year + 1) ∧ newYear (year + 1) ≤ newYear year + 366 := by
  rw [newYear_succ]
  split <;> omega

variable {jd year : Int}

/-- What the code computes first. -/
theorem weekNumber_first (h : isValidJd jd = true) (hyear : (civil jd).year = year) :
    weekNumber jd =
      (weekOf (jd - newYear year + 1) 0 0 (jd % 7 + 1)).bind fun week =>
        if week = 0 then
          (int (withoutZero year - 1)).bind fun year' =>
            (weekOf (jd - newYear year + 1) 365 (if isLeapYear year' then 1 else 0)
              (jd % 7 + 1)).bind fun week =>
              if week = 52 ∨ week = 53 then some (week, some year') else none
        else if week = 53 then
          (weekOf (jd - newYear year + 1) (-365)
            (-(if isLeapYear (withoutZero year) then 1 else 0)) (jd % 7 + 1)).bind fun w =>
            if w > 0 then
              (int (withoutZero year + 1)).bind fun year' =>
                if w = 53 ∨ w = 1 then some (w, some year') else none
            else some (week, some (withoutZero year))
        else some (week, some (withoutZero year)) := by
  rw [weekNumber, h, if_neg (by decide), getYear_eq h, dayOfYear_eq h, dayOfWeek_eq h, hyear]
  rfl

/-- The week belongs to the year before. -/
theorem weekNumber_before (h : isValidJd jd = true) (hyear : (civil jd).year = year)
    (hbefore : thursday jd < newYear year) :
    weekNumber jd = some ((thursday jd - newYear (year - 1) + 7) / 7,
      some (withoutZero (year - 1))) ∧
      (civil (thursday jd)).year = year - 1 ∧ -2147483647 ≤ year - 1 := by
  have hin := (civil_year_iff jd year).mp hyear
  have hvalid := (isValidJd_iff jd).mp h
  have hone := newYear_one
  have hmin := newYear_min
  have hdays := year_length (year - 1)
  have hyday := year_length year
  have hleap := leapDay_eq (year - 1)
  have hthursday : thursday jd = jd - jd % 7 + 3 := rfl
  rw [hyear] at hvalid
  rw [Int.sub_add_cancel] at hdays hleap
  have hne : year ≠ 1 := by
    rintro rfl
    omega
  have hlo : year ≠ -2147483647 := by
    rintro rfl
    omega
  have hprevious : withoutZero year - 1 = withoutZero (year - 1) := by
    unfold withoutZero
    split_ifs <;> omega
  have hint : int (withoutZero (year - 1)) = some (withoutZero (year - 1)) := by
    unfold withoutZero
    split <;> exact int_of (by omega) (by omega)
  have hweek : (jd - newYear year + 1 + 0 + 0 - (jd % 7 + 1) + 10) / 7 = 0 := by omega
  refine ⟨?_, (civil_year_iff _ _).mpr ⟨by omega, by rw [Int.sub_add_cancel]; exact hbefore⟩,
    by omega⟩
  rw [weekNumber_first h hyear,
    weekOf_eq (by omega) (by decide) (by decide) (by omega) (by omega), hweek, Option.bind_some,
    if_pos rfl, hprevious, hint, Option.bind_some, hleap,
    weekOf_eq (by omega) (by decide) (by omega) (by omega) (by omega), Option.bind_some]
  have hsame : (jd - newYear year + 1 + 365 + (newYear year - newYear (year - 1) - 365) -
      (jd % 7 + 1) + 10) / 7 = (thursday jd - newYear (year - 1) + 7) / 7 := by
    congr 1
    omega
  rw [hsame]
  exact if_pos (by omega)

/-- The week belongs to the year after, which has to be an `int`. -/
theorem weekNumber_after (h : isValidJd jd = true) (hyear : (civil jd).year = year)
    (hafter : newYear (year + 1) ≤ thursday jd) :
    weekNumber jd = (int (withoutZero (year + 1))).map (fun year' =>
      ((thursday jd - newYear (year + 1) + 7) / 7, some year')) ∧
      (civil (thursday jd)).year = year + 1 := by
  have hin := (civil_year_iff jd year).mp hyear
  have hone := newYear_one
  have hdays := year_length year
  have hlen := year_length (year + 1)
  have hleap := leapDay_eq year
  have hthursday : thursday jd = jd - jd % 7 + 3 := rfl
  have hne : year ≠ 0 := by
    rintro rfl
    rw [Int.zero_add] at hafter hin
    omega
  have hnext : withoutZero year + 1 = withoutZero (year + 1) := by
    unfold withoutZero
    split_ifs <;> omega
  have hweek : (jd - newYear year + 1 + 0 + 0 - (jd % 7 + 1) + 10) / 7 = 53 := by omega
  refine ⟨?_, (civil_year_iff _ _).mpr ⟨hafter, by omega⟩⟩
  have hsame : (jd - newYear year + 1 + -365 + -(newYear (year + 1) - newYear year - 365) -
      (jd % 7 + 1) + 10) / 7 = 1 := by omega
  rw [weekNumber_first h hyear,
    weekOf_eq (by omega) (by decide) (by decide) (by omega) (by omega), hweek, Option.bind_some,
    if_neg (by decide), if_pos rfl, hleap,
    weekOf_eq (by omega) (by decide) (by omega) (by omega) (by omega), Option.bind_some, hsame,
    if_pos (by decide), hnext, show (thursday jd - newYear (year + 1) + 7) / 7 = 1 by omega]
  cases int (withoutZero (year + 1)) <;> rfl

/-- The week belongs to the year of its day. -/
theorem weekNumber_within (h : isValidJd jd = true) (hyear : (civil jd).year = year)
    (hbegin : newYear year ≤ thursday jd) (hend : thursday jd < newYear (year + 1)) :
    weekNumber jd = some ((thursday jd - newYear year + 7) / 7, some (withoutZero year)) := by
  have hin := (civil_year_iff jd year).mp hyear
  have hdays := year_length year
  have hthursday : thursday jd = jd - jd % 7 + 3 := rfl
  obtain ⟨week, hweek⟩ : ∃ week, week = (thursday jd - newYear year + 7) / 7 := ⟨_, rfl⟩
  have hfirst : (jd - newYear year + 1 + 0 + 0 - (jd % 7 + 1) + 10) / 7 = week := by omega
  rw [weekNumber_first h hyear,
    weekOf_eq (by omega) (by decide) (by decide) (by omega) (by omega), hfirst, Option.bind_some,
    if_neg (by omega), ← hweek]
  by_cases hlast : week = 53
  · rw [if_pos hlast, leapDay_eq,
      weekOf_eq (by omega) (by decide) (by omega) (by omega) (by omega), Option.bind_some]
    exact if_neg (by omega)
  · rw [if_neg hlast]

/-- The week and the year of a day. -/
theorem weekNumber_eq (h : isValidJd jd = true) :
    weekNumber jd = if isValidJd (thursday jd) then
      some (1 + (thursday jd - firstThursday (civil (thursday jd)).year) / 7,
        some (withoutZero (civil (thursday jd)).year)) else none := by
  have hvalid := (isValidJd_iff jd).mp h
  have hvalid' := isValidJd_iff (thursday jd)
  rw [thursday_week]
  by_cases hbefore : thursday jd < newYear (civil jd).year
  · obtain ⟨hweek, hyear, hlo⟩ := weekNumber_before h rfl hbefore
    rw [hyear] at hvalid' ⊢
    rw [hweek, if_pos (hvalid'.mpr (by omega))]
  · by_cases hafter : newYear ((civil jd).year + 1) ≤ thursday jd
    · obtain ⟨hweek, hyear⟩ := weekNumber_after h rfl hafter
      rw [hyear] at hvalid' ⊢
      rw [hweek]
      by_cases hlast : (civil jd).year + 1 < 2147483648
      · rw [if_pos (hvalid'.mpr (by omega)), int_of, Option.map_some]
        · unfold withoutZero
          split <;> omega
        · unfold withoutZero
          split <;> omega
      · have hnot : ¬isValidJd (thursday jd) = true := fun hv => hlast (hvalid'.mp hv).2
        rw [if_neg hnot, int_none, Option.map_none]
        unfold withoutZero
        split <;> omega
    · have hyear := (civil_year_iff (thursday jd) (civil jd).year).mpr
        ⟨not_lt.mp hbefore, not_le.mp hafter⟩
      rw [hyear] at hvalid' ⊢
      rw [weekNumber_within h rfl (not_lt.mp hbefore) (not_le.mp hafter), if_pos (hvalid'.mpr hvalid)]

/-- The number and the year of a week as ISO 8601 has them, from Monday to Sunday. -/
def IsoWeek (jd : Int) : Prop :=
  ∃ first, IsFirstThursday (civil (thursday jd)).year first ∧
    ∀ jd', isValidJd jd' = true → thursday jd' = thursday jd →
      weekNumber jd' = some (1 + (thursday jd - first) / 7,
        some (withoutZero (civil (thursday jd)).year))

/-- `Date` ends with a Tuesday. -/
theorem isValidJd_thursday (h : isValidJd jd = true) :
    isValidJd (thursday jd) = true ↔ jd < maxJd - 1 := by
  rw [isValidJd, Bool.and_eq_true, decide_eq_true_eq, decide_eq_true_eq] at h ⊢
  unfold minJd maxJd at h ⊢
  unfold thursday
  omega

/-- The weeks are those of ISO 8601 up to the last but one; that one belongs to a year that is no
`int`. Each day of the week is followed by the next one. -/
theorem weekNumber_iff (jd : Int) (h : isValidJd jd = true) :
    (IsoWeek jd ↔ jd < maxJd - 1) ∧
    (∃ wday, dayOfWeek jd = some wday ∧ 1 ≤ wday ∧ wday ≤ 7) ∧
    (isValidJd (jd + 1) = true →
      dayOfWeek (jd + 1) = (dayOfWeek jd).map fun wday => if wday = 7 then 1 else wday + 1) := by
  refine ⟨?_, ⟨_, dayOfWeek_eq h, by omega, by omega⟩, fun h' => ?_⟩
  · rw [← isValidJd_thursday h]
    constructor
    · rintro ⟨first, -, hweek⟩
      have hsome := hweek jd h rfl
      rw [weekNumber_eq h] at hsome
      by_contra hnot
      rw [if_neg hnot] at hsome
      cases hsome
    · intro hthursday
      refine ⟨_, firstThursday_isFirst _, fun jd' hjd' hsame => ?_⟩
      rw [weekNumber_eq hjd', hsame, if_pos hthursday]
  · rw [dayOfWeek_eq h, dayOfWeek_eq h', Option.map_some, Option.some.injEq]
    split <;> omega

/-- A Saturday, and the Sunday after it. -/
theorem weekNumber_saturday : isValidJd 1721060 = true ∧ isValidJd 1721061 = true ∧
    IsoWeek 1721060 ∧ dayOfWeek 1721060 = some 6 ∧ dayOfWeek 1721061 = some 7 := by
  have hsaturday : dayOfWeek 1721060 = some 6 := by decide
  obtain ⟨hweek, -, hnext⟩ := weekNumber_iff 1721060 (by decide)
  refine ⟨by decide, by decide, hweek.mpr (by decide), hsaturday, ?_⟩
  exact (hnext (by decide)).trans (by rw [hsaturday]; rfl)

/-- The last day, December 31 of 2147483647, is in the first week of the next year. -/
theorem weekNumber_last : isValidJd maxJd = true ∧ getDateFromJulianDay maxJd =
    some ⟨2147483647, 12, 31⟩ ∧ weekNumber maxJd = none ∧ weekNumber (maxJd - 1) = none := by decide

/-- January 1 and December 31 of year -1, which are a Saturday and a Sunday. -/
example : weekNumber 1721060 = some (52, some (-2)) ∧ weekNumber 1721425 = some (52, some (-1)) ∧
    weekNumber 1721426 = some (1, some 1) := by decide

end Libpdk.Time
