import Libpdk.Time.CalendarBijective

/-!
# Adding months and years

`addMonths` and `addYears` of `Date`. The years of the loop are those that are written, as if there
were a year 0, and the step over it is made up for at the end. The months of a date are counted
with a year 0; the loop adds to this number (`addMonthsLoop_eq`).
-/
namespace Libpdk.Time

/-! ## The code -/

/-- mirrors time/DateTime.cpp:338-349 -/
def daysInMonth (jd : Int) : Option Int :=
  if !isValidJd jd then some 0
  else (getDateFromJulianDay jd).map fun pd =>
    if pd.month = 2 && isLeapYear pd.year then 29 else monthDays.getD pd.month.toNat 0

/-- The days in the month of a date that may be null. -/
def daysInMonthOf (date : Option Int) : Option Int :=
  match date with
  | none => some 0
  | some jd => daysInMonth jd

/-- mirrors time/DateTime.cpp:78-83 -/
def fixedDate (y m d : Int) : Option (Option Int) := do
  let result ← setDate y m 1
  let days ← daysInMonthOf result
  setDate y m (min d days)

/-- One round of the loop: year, month and the months that are left.
mirrors time/DateTime.cpp:514-538 -/
def addMonthsRound (y m nmonths : Int) : Option (Int × Int × Int) :=
  if nmonths < 0 ∧ nmonths + 12 ≤ 0 then do
    let y ← int (y - 1)
    some (y, m, nmonths + 12)
  else if nmonths < 0 then
    if m + nmonths ≤ 0 then do
      let y ← int (y - 1)
      some (y, m + nmonths + 12, 0)
    else some (y, m + nmonths, 0)
  else if nmonths - 12 ≥ 0 then do
    let y ← int (y + 1)
    some (y, m, nmonths - 12)
  else if m = 12 then do
    let y ← int (y + 1)
    some (y, 0, nmonths)
  else if m + nmonths > 12 then do
    let y ← int (y + 1)
    some (y, m + nmonths - 12, 0)
  else some (y, m + nmonths, 0)

/-- The loop, with the number of rounds allowed. -/
def addMonthsLoop : Nat → Int → Int → Int → Option (Int × Int)
  | 0, _, _, _ => none
  | rounds + 1, y, m, nmonths =>
    if nmonths = 0 then some (y, m)
    else (addMonthsRound y m nmonths).bind fun (y, m, nmonths) => addMonthsLoop rounds y m nmonths

/-- "was there a sign change?" -/
def signChanged (oldY y : Int) (increasing : Bool) : Option Int :=
  if (oldY > 0 ∧ y ≤ 0) ∨ (oldY < 0 ∧ y ≥ 0) then int (y + if increasing then 1 else -1)
  else some y

/-- A null date is `some none`; an overflow, and a loop that goes on too long, is `none`.
mirrors time/DateTime.cpp:495-547 -/
def addMonths (jd nmonths : Int) : Option (Option Int) :=
  if !isValidJd jd then some none
  else if nmonths = 0 then some (some jd)
  else do
    let pd ← getDateFromJulianDay jd
    let (y, m) ← addMonthsLoop (nmonths.natAbs + 2) pd.year pd.month nmonths
    let y ← signChanged pd.year y (nmonths > 0)
    fixedDate y m pd.day

/-- mirrors time/DateTime.cpp:549-566 -/
def addYears (jd nyears : Int) : Option (Option Int) :=
  if !isValidJd jd then some none
  else do
    let pd ← getDateFromJulianDay jd
    let y ← int (pd.year + nyears)
    let y ← signChanged pd.year y (nyears > 0)
    fixedDate y pd.month pd.day

/-! ## The loop -/

/-- A year on the way to a later one; where it is no `int` that one is none. -/
theorem int_forward {α : Type} {f g : Int → Option α} {y q : Int} (hy : -2147483648 ≤ y)
    (hq : 1 ≤ q) (hf : y + 1 < 2147483648 → f (y + 1) = (int (y + q)).bind g) :
    (int (y + 1)).bind f = (int (y + q)).bind g := by
  by_cases hint : y + 1 < 2147483648
  · rw [int_of (by omega) hint, Option.bind_some, hf hint]
  · rw [int_none (by omega), int_none (by omega)]
    rfl

theorem int_backward {α : Type} {f g : Int → Option α} {y q : Int} (hy : y < 2147483648)
    (hq : q ≤ -1) (hf : -2147483648 ≤ y - 1 → f (y - 1) = (int (y + q)).bind g) :
    (int (y - 1)).bind f = (int (y + q)).bind g := by
  by_cases hint : -2147483648 ≤ y - 1
  · rw [int_of hint (by omega), Option.bind_some, hf hint]
  · rw [int_none (by omega), int_none (by omega)]
    rfl

/-- The year and the month that are `n` months after a month. -/
def monthsAfter (y m n : Int) : Option (Int × Int) :=
  (int (y + (m - 1 + n) / 12)).bind fun y => some (y, (m - 1 + n) % 12 + 1)

theorem monthsAfter_zero {y m : Int} (hy : -2147483648 ≤ y ∧ y < 2147483648)
    (hm : 1 ≤ m ∧ m ≤ 12) : monthsAfter y m 0 = some (y, m) := by
  have hq : (m - 1 + 0) / 12 = 0 := by omega
  have hr : (m - 1 + 0) % 12 + 1 = m := by omega
  rw [monthsAfter, hq, hr, Int.add_zero, int_of hy.1 hy.2, Option.bind_some]

theorem monthsAfter_eq {y m n y' m' n' : Int} (h : 12 * y' + m' + n' = 12 * y + m + n) :
    monthsAfter y' m' n' = monthsAfter y m n := by
  have hq : y' + (m' - 1 + n') / 12 = y + (m - 1 + n) / 12 := by omega
  have hr : (m' - 1 + n') % 12 = (m - 1 + n) % 12 := by omega
  rw [monthsAfter, monthsAfter, hq, hr]

/-- Each round keeps the month that is counted to. -/
theorem addMonthsLoop_eq : ∀ (rounds : Nat) (y m n : Int), (-2147483648 ≤ y ∧ y < 2147483648) →
    0 ≤ m → m ≤ 12 → (m = 0 → 0 < n ∧ n < 12) →
    n.natAbs + (if m = 12 ∧ n ≠ 0 then 1 else 0) < rounds →
    addMonthsLoop rounds y m n = monthsAfter y m n
  | 0, _, _, _, _, _, _, _, hrounds => absurd hrounds (Nat.not_lt_zero _)
  | rounds + 1, y, m, n, hy, hm, hm', hzero, hrounds => by
    have next := addMonthsLoop_eq rounds
    rw [addMonthsLoop]
    by_cases hn : n = 0
    · subst hn
      rw [if_pos rfl, monthsAfter_zero hy (by omega)]
    · have hleft : n.natAbs < rounds + 1 := by omega
      rw [if_neg hn, addMonthsRound]
      by_cases hback : n < 0 ∧ n + 12 ≤ 0
      · rw [if_pos hback, Option.bind_eq_bind, Option.bind_assoc]
        refine int_backward hy.2 (by omega) fun hint => ?_
        refine (next (y - 1) m (n + 12) (by omega) hm hm' (by omega)
          (by split at hrounds <;> split <;> omega)).trans ?_
        exact monthsAfter_eq (by omega)
      · rw [if_neg hback]
        by_cases hneg : n < 0
        · rw [if_pos hneg]
          by_cases hless : m + n ≤ 0
          · rw [if_pos hless, Option.bind_eq_bind, Option.bind_assoc]
            refine int_backward hy.2 (by omega) fun hint => ?_
            refine (next (y - 1) (m + n + 12) 0 (by omega) (by omega) (by omega) (by omega)
              (by split <;> omega)).trans ?_
            exact monthsAfter_eq (by omega)
          · rw [if_neg hless]
            refine (next y (m + n) 0 hy (by omega) (by omega) (by omega)
              (by split <;> omega)).trans ?_
            exact monthsAfter_eq (by omega)
        · rw [if_neg hneg]
          by_cases hahead : n - 12 ≥ 0
          · rw [if_pos hahead, Option.bind_eq_bind, Option.bind_assoc]
            refine int_forward hy.1 (by omega) fun hint => ?_
            refine (next (y + 1) m (n - 12) (by omega) hm hm' (by omega)
              (by split at hrounds <;> split <;> omega)).trans ?_
            exact monthsAfter_eq (by omega)
          · rw [if_neg hahead]
            by_cases hdecember : m = 12
            · rw [if_pos hdecember, Option.bind_eq_bind, Option.bind_assoc]
              refine int_forward hy.1 (by omega) fun hint => ?_
              refine (next (y + 1) 0 n (by omega) (by omega) (by omega) (by omega)
                (by split at hrounds <;> split <;> omega)).trans ?_
              exact monthsAfter_eq (by omega)
            · rw [if_neg hdecember]
              by_cases hmore : m + n > 12
              · rw [if_pos hmore, Option.bind_eq_bind, Option.bind_assoc]
                refine int_forward hy.1 (by omega) fun hint => ?_
                refine (next (y + 1) (m + n - 12) 0 (by omega) (by omega) (by omega) (by omega)
                  (by split <;> omega)).trans ?_
                exact monthsAfter_eq (by omega)
              · rw [if_neg hmore]
                refine (next y (m + n) 0 hy (by omega) (by omega) (by omega)
                  (by split <;> omega)).trans ?_
                exact monthsAfter_eq (by omega)

/-! ## The date -/

theorem daysInMonth_eq {jd : Int} (h : isValidJd jd = true) :
    daysInMonth jd = some (monthLength (civil jd).year (civil jd).month) := by
  have hmonth := (civil_real jd).month
  have hleap := isLeapYear_iff (withoutZero_ne_zero (civil jd).year)
  rw [withZero_withoutZero] at hleap
  rw [daysInMonth, h, if_neg (by decide), getDateFromJulianDay_written h, Option.map_some]
  show some (if (civil jd).month = 2 && isLeapYear (withoutZero (civil jd).year) then 29
    else monthDays.getD (civil jd).month.toNat 0) = _
  rw [monthDays_getD hmonth, monthLength]
  by_cases h2 : (civil jd).month = 2
  · by_cases hl : IsLeap (civil jd).year
    · simp [h2, hleap.mpr hl, hl]
    · have hl' : isLeapYear (withoutZero (civil jd).year) = false := by
        rw [Bool.eq_false_iff]
        exact fun h => hl (hleap.mp h)
      simp [h2, hl', hl]
  · simp [h2]

/-- The date with the day clamped to its month. -/
def clamped (t : ParsedDate) : ParsedDate := ⟨t.year, t.month, min t.day (monthLength t.year t.month)⟩

theorem clamped_real {t : ParsedDate} (hm : 1 ≤ t.month ∧ t.month ≤ 12) (hd : 1 ≤ t.day) :
    (clamped t).Real := by
  have hlen := monthLength_pos t.year t.month
  exact ⟨hm, show 1 ≤ min t.day _ by omega, Int.min_le_right _ _⟩

/-- A date whose year, without a year 0, is an `int`. -/
theorem setDate_written {t : ParsedDate} (hreal : t.Real)
    (hyear : -2147483647 ≤ t.year ∧ t.year < 2147483648) :
    setDate (withoutZero t.year) t.month t.day = some (some (julianDay t)) ∧
      isValidJd (julianDay t) = true := by
  have hcivil := civil_julianDay hreal
  have hjd : isValidJd (julianDay t) = true := by
    rw [isValidJd_iff, hcivil]
    exact hyear
  have hvalid := isValid_written (julianDay t)
  have hnumber := julianDayFromDate_written hjd
  rw [hcivil] at hvalid hnumber
  refine ⟨?_, hjd⟩
  rw [setDate]
  exact (if_pos hvalid).trans (congrArg (Option.map some) hnumber)

theorem fixedDate_eq {t : ParsedDate} (hm : 1 ≤ t.month ∧ t.month ≤ 12) (hd : 1 ≤ t.day)
    (hyear : -2147483647 ≤ t.year ∧ t.year < 2147483648) :
    fixedDate (withoutZero t.year) t.month t.day = some (some (julianDay (clamped t))) := by
  have hfirst : (⟨t.year, t.month, 1⟩ : ParsedDate).Real :=
    ⟨hm, Int.le_refl _, show (1 : Int) ≤ monthLength t.year t.month by
      have := monthLength_pos t.year t.month
      omega⟩
  obtain ⟨hset, hjd⟩ := setDate_written hfirst hyear
  have hset' : setDate (withoutZero t.year) t.month 1 =
      some (some (julianDay ⟨t.year, t.month, 1⟩)) := hset
  rw [fixedDate, hset', Option.bind_eq_bind, Option.bind_some, daysInMonthOf, daysInMonth_eq hjd,
    civil_julianDay hfirst]
  exact (setDate_written (clamped_real hm hd) hyear).1

/-- The year that is missing is made up for. -/
theorem signChanged_eq {year q : Int} {increasing : Bool}
    (hsign : if increasing then 0 ≤ q else q ≤ 0)
    (hyear : -2147483647 ≤ year + q ∧ year + q < 2147483648) :
    signChanged (withoutZero year) (withoutZero year + q) increasing =
      some (withoutZero (year + q)) := by
  rw [signChanged]
  by_cases hpos : 0 < year
  · have hwritten : withoutZero year = year := if_neg (by omega)
    rw [hwritten]
    by_cases hcross : year + q ≤ 0
    · have hnext : withoutZero (year + q) = year + q + -1 := if_pos hcross
      cases increasing with
      | true =>
        have hq : 0 ≤ q := hsign
        omega
      | false =>
        rw [if_pos (.inl ⟨hpos, hcross⟩), if_neg (by decide), hnext]
        exact int_of (by omega) (by omega)
    · have hnext : withoutZero (year + q) = year + q := if_neg hcross
      rw [if_neg (by omega), hnext]
  · have hwritten : withoutZero year = year - 1 := if_pos (by omega)
    rw [hwritten]
    by_cases hcross : 0 < year + q
    · have hnext : withoutZero (year + q) = year - 1 + q + 1 :=
        (if_neg (by omega)).trans (by omega)
      cases increasing with
      | true =>
        rw [if_pos (.inr ⟨by omega, by omega⟩), if_pos rfl, hnext]
        exact int_of (by omega) (by omega)
      | false =>
        have hq : q ≤ 0 := hsign
        omega
    · have hnext : withoutZero (year + q) = year - 1 + q := (if_pos (by omega)).trans (by omega)
      rw [if_neg (by omega), hnext]

/-- The months of a date, counted with a year 0. -/
def monthCount (t : ParsedDate) : Int := 12 * withZero t.year + t.month

/-- The date `n` months later, with a year 0. -/
def laterMonth (t : ParsedDate) (n : Int) : ParsedDate :=
  ⟨t.year + (t.month - 1 + n) / 12, (t.month - 1 + n) % 12 + 1, t.day⟩

variable {jd n : Int}

theorem clamped_self {t : ParsedDate} (h : t.Real) : clamped t = t := by
  rw [clamped, Int.min_eq_left h.day.2]

theorem addMonths_bind (h : isValidJd jd = true) (hn : n ≠ 0) :
    addMonths jd n = (monthsAfter (withoutZero (civil jd).year) (civil jd).month n).bind
      fun t => (signChanged (withoutZero (civil jd).year) t.1 (n > 0)).bind
        fun y => fixedDate y t.2 (civil jd).day := by
  have hyear := (isValidJd_iff jd).mp h
  have hmonth := (civil_real jd).month
  have hwritten : -2147483648 ≤ withoutZero (civil jd).year ∧
      withoutZero (civil jd).year < 2147483648 := by
    unfold withoutZero
    split <;> omega
  rw [addMonths, h, if_neg (by decide), if_neg hn, getDateFromJulianDay_written h,
    ← addMonthsLoop_eq (n.natAbs + 2) _ _ n hwritten (by omega) hmonth.2 (by omega)
      (by split <;> omega)]
  rfl

theorem addYears_bind (h : isValidJd jd = true) :
    addYears jd n = (int (withoutZero (civil jd).year + n)).bind fun y =>
      (signChanged (withoutZero (civil jd).year) y (n > 0)).bind
        fun y => fixedDate y (civil jd).month (civil jd).day := by
  rw [addYears, h, if_neg (by decide), getDateFromJulianDay_written h]
  rfl

theorem addMonths_eq (h : isValidJd jd = true)
    (hyear : -2147483647 ≤ (laterMonth (civil jd) n).year ∧
      (laterMonth (civil jd) n).year < 2147483648) :
    addMonths jd n = some (some (julianDay (clamped (laterMonth (civil jd) n)))) := by
  have hreal := civil_real jd
  have hmonth := hreal.month
  by_cases hn : n = 0
  · have hsame : laterMonth (civil jd) n = civil jd := by
      have hq : ((civil jd).month - 1 + 0) / 12 = 0 := by omega
      have hr : ((civil jd).month - 1 + 0) % 12 + 1 = (civil jd).month := by omega
      rw [hn, laterMonth, hq, hr, Int.add_zero]
    rw [hsame, clamped_self hreal, julianDay_civil, addMonths, h, if_neg (by decide), if_pos hn]
  · obtain ⟨q, hq⟩ : ∃ q, q = ((civil jd).month - 1 + n) / 12 := ⟨_, rfl⟩
    have hsign : if (decide (n > 0)) = true then 0 ≤ q else q ≤ 0 := by
      by_cases hpos : n > 0
      · rw [if_pos (decide_eq_true hpos)]
        omega
      · rw [if_neg (by simp [hpos])]
        omega
    have hfits : -2147483647 ≤ (civil jd).year + q ∧ (civil jd).year + q < 2147483648 := by
      rw [hq]
      exact hyear
    have hvalid := (isValidJd_iff jd).mp h
    have hint : int (withoutZero (civil jd).year + q) = some (withoutZero (civil jd).year + q) := by
      unfold withoutZero
      split <;> exact int_of (by omega) (by omega)
    have hresult : laterMonth (civil jd) n =
        ⟨(civil jd).year + q, ((civil jd).month - 1 + n) % 12 + 1, (civil jd).day⟩ := by
      rw [laterMonth, hq]
    rw [addMonths_bind h hn, monthsAfter, ← hq, hint, Option.bind_some, Option.bind_some,
      signChanged_eq hsign hfits, Option.bind_some, hresult]
    exact fixedDate_eq (t := ⟨(civil jd).year + q, _, _⟩)
      ⟨show 1 ≤ ((civil jd).month - 1 + n) % 12 + 1 by omega,
        show ((civil jd).month - 1 + n) % 12 + 1 ≤ 12 by omega⟩ hreal.day.1 hfits

/-- Twelve months are a year, also where the year is no `int`. -/
theorem addYears_eq (h : isValidJd jd = true) : addYears jd n = addMonths jd (12 * n) := by
  have hreal := civil_real jd
  have hmonth := hreal.month
  have hq : ((civil jd).month - 1 + 12 * n) / 12 = n := by omega
  have hr : ((civil jd).month - 1 + 12 * n) % 12 + 1 = (civil jd).month := by omega
  by_cases hn : n = 0
  · have hvalid := (isValidJd_iff jd).mp h
    have hsame : addMonths jd (12 * n) = some (some jd) := by
      rw [addMonths, h, if_neg (by decide), if_pos (by omega)]
    have hint : int (withoutZero (civil jd).year + n) = some (withoutZero (civil jd).year + n) := by
      unfold withoutZero
      split <;> exact int_of (by omega) (by omega)
    have hsign : if (decide (n > 0)) = true then 0 ≤ n else n ≤ 0 := by
      rw [hn]
      decide
    have hfits : -2147483647 ≤ (civil jd).year + n ∧ (civil jd).year + n < 2147483648 := by omega
    rw [hsame, addYears_bind h, hint, Option.bind_some, signChanged_eq hsign hfits,
      Option.bind_some, hn, Int.add_zero, fixedDate_eq hmonth hreal.day.1 hvalid,
      clamped_self hreal, julianDay_civil]
  · have hpos : (12 * n > 0) = (n > 0) := by
      rw [eq_iff_iff]
      omega
    rw [addYears_bind h, addMonths_bind h (by omega), monthsAfter, hq, hr, Option.bind_assoc]
    simp only [Option.bind_some, hpos]

theorem monthCount_written (t : ParsedDate) : monthCount t.written = 12 * t.year + t.month := by
  show 12 * withZero (withoutZero t.year) + t.month = _
  rw [withZero_withoutZero]

/-- The date `n` months later has the day of the month or the last one, wherever its year is an
`int`, and the same holds of years. -/
theorem addMonths_exact :
    (∀ jd t n, isValidJd jd = true → getDateFromJulianDay jd = some t →
      int (withoutZero ((monthCount t + n - 1) / 12)) =
        some (withoutZero ((monthCount t + n - 1) / 12)) →
      ∃ jd' t', addMonths jd n = some (some jd') ∧ isValidJd jd' = true ∧
        getDateFromJulianDay jd' = some t' ∧ monthCount t' = monthCount t + n ∧
        t'.day = min t.day (monthLength (withZero t'.year) t'.month)) ∧
    ∀ jd n, isValidJd jd = true → addYears jd n = addMonths jd (12 * n) := by
  refine ⟨fun jd t n h ht hyear => ?_, fun jd n h => addYears_eq h⟩
  rw [getDateFromJulianDay_written h] at ht
  obtain rfl := Option.some.inj ht
  have hreal := civil_real jd
  have hmonth := hreal.month
  rw [monthCount_written] at hyear ⊢
  have hlater : (12 * (civil jd).year + (civil jd).month + n - 1) / 12 =
      (laterMonth (civil jd) n).year := by
    show _ = (civil jd).year + ((civil jd).month - 1 + n) / 12
    omega
  have hint := int_iff.mp hyear
  rw [hlater] at hint
  have hfits : -2147483647 ≤ (laterMonth (civil jd) n).year ∧
      (laterMonth (civil jd) n).year < 2147483648 := by
    unfold withoutZero at hint
    split at hint <;> omega
  have hmonth' : 1 ≤ (laterMonth (civil jd) n).month ∧ (laterMonth (civil jd) n).month ≤ 12 := by
    show 1 ≤ ((civil jd).month - 1 + n) % 12 + 1 ∧ ((civil jd).month - 1 + n) % 12 + 1 ≤ 12
    omega
  have hreal' := clamped_real hmonth' hreal.day.1
  have hvalid := (setDate_written hreal' hfits).2
  have hcivil := civil_julianDay hreal'
  refine ⟨_, _, addMonths_eq h hfits, hvalid, getDateFromJulianDay_written hvalid, ?_, ?_⟩
  · rw [hcivil, monthCount_written]
    show 12 * ((civil jd).year + ((civil jd).month - 1 + n) / 12) +
      (((civil jd).month - 1 + n) % 12 + 1) = 12 * (civil jd).year + (civil jd).month + n
    omega
  · rw [hcivil]
    show min (civil jd).day _ = min (civil jd).day (monthLength (withZero (withoutZero _)) _)
    rw [withZero_withoutZero]
    rfl

/-- A month after January 31 of year 1, and two months before it. -/
example : (setDate 1 1 31).bind (fun jd => (addMonths (jd.getD 0) 1).bind fun jd =>
      getDateFromJulianDay (jd.getD 0)) = some ⟨1, 2, 28⟩ ∧
    (setDate 1 1 31).bind (fun jd => (addMonths (jd.getD 0) (-2)).bind fun jd =>
      getDateFromJulianDay (jd.getD 0)) = some ⟨-1, 11, 30⟩ := by decide

end Libpdk.Time
