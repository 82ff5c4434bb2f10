import Mathlib.Tactic.NormNum
import Libpdk.Time.Calendar

/-!
# The calendar is a bijection

A day number is a century, a year in it that begins in March, a month and a day: floors of
three lines, one after the other (`March`). The lengths of months and years come from this, so
that `julianDay` and `civil` are inverse to each other on all dates that there are, in
calendar order (`civil_succ`). The functions of the code compute these two, without an
overflow, on all of `Date` (`calendar_exact`).

Years are counted with a year 0 here; `withoutZero` takes it out.
-/
namespace Libpdk.Time

open FloorLine

/-! ## Dates -/

def IsLeap (year : Int) : Prop := (year % 4 = 0 ∧ year % 100 ≠ 0) ∨ year % 400 = 0

instance (year : Int) : Decidable (IsLeap year) := inferInstanceAs (Decidable (_ ∨ _))

def monthLength (year month : Int) : Int :=
  if month = 2 then if IsLeap year then 29 else 28
  else if month = 4 ∨ month = 6 ∨ month = 9 ∨ month = 11 then 30
  else 31

/-- The days that there are. -/
structure ParsedDate.Real (t : ParsedDate) : Prop where
  month : 1 ≤ t.month ∧ t.month ≤ 12
  day : 1 ≤ t.day ∧ t.day ≤ monthLength t.year t.month

/-- The day after. -/
def ParsedDate.next (t : ParsedDate) : ParsedDate :=
  if t.day < monthLength t.year t.month then ⟨t.year, t.month, t.day + 1⟩
  else if t.month < 12 then ⟨t.year, t.month + 1, 1⟩
  else ⟨t.year + 1, 1, 1⟩

/-- Calendar order. -/
def ParsedDate.Before (t t' : ParsedDate) : Prop :=
  t.year < t'.year ∨ (t.year = t'.year ∧
    (t.month < t'.month ∨ (t.month = t'.month ∧ t.day < t'.day)))

/-! ## March years -/

/-- Century, year of the century, month from March on and day of the month, all from 0. -/
structure March where
  century : Int
  year : Int
  month : Int
  day : Int

namespace March

def centuries (n : Int) : Int := line 146097 0 4 n

def years (n : Int) : Int := line 1461 0 4 n

def months (n : Int) : Int := line 153 2 5 n

/-- The number of the day. -/
def number (t : March) : Int := centuries t.century + years t.year + months t.month + t.day

/-- The day is in its month, its year and its century. -/
structure Fits (t : March) : Prop where
  year : 0 ≤ t.year ∧ t.year ≤ 99
  month : 0 ≤ t.month ∧ t.month ≤ 11
  day : 0 ≤ t.day
  inMonth : months t.month + t.day < months (t.month + 1)
  inYear : years t.year + months t.month + t.day < years (t.year + 1)
  inCentury : centuries t.century + years t.year + months t.month + t.day <
    centuries (t.century + 1)

def ofNumber (n : Int) : March :=
  let century := position 146097 0 4 n
  let n := n - centuries century
  let year := position 1461 0 4 n
  let n := n - years year
  let month := position 153 2 5 n
  ⟨century, year, month, n - months month⟩

theorem number_ofNumber (n : Int) : (ofNumber n).number = n := by
  simp only [number, ofNumber]
  omega

theorem fits_ofNumber (n : Int) : (ofNumber n).Fits := by
  obtain ⟨b, hb⟩ : ∃ b, b = position 146097 0 4 n := ⟨_, rfl⟩
  obtain ⟨c, hc⟩ : ∃ c, c = n - centuries b := ⟨_, rfl⟩
  obtain ⟨d, hd⟩ : ∃ d, d = position 1461 0 4 c := ⟨_, rfl⟩
  obtain ⟨e, he⟩ : ∃ e, e = c - years d := ⟨_, rfl⟩
  obtain ⟨m, hm⟩ : ∃ m, m = position 153 2 5 e := ⟨_, rfl⟩
  have hb' : centuries b ≤ n ∧ n < centuries (b + 1) :=
    (position_eq_iff (by decide) (by decide)).mp hb.symm
  have hd' : years d ≤ c ∧ c < years (d + 1) :=
    (position_eq_iff (by decide) (by decide)).mp hd.symm
  have hm' : months m ≤ e ∧ e < months (m + 1) :=
    (position_eq_iff (by decide) (by decide)).mp hm.symm
  have hof : ofNumber n = ⟨b, d, m, e - months m⟩ := by
    simp only [ofNumber, ← hb, ← hc, ← hd, ← he, ← hm]
  have hc0 : 0 ≤ c ∧ c < 36525 := by
    unfold centuries line at hc hb'
    omega
  have hd0 : 0 ≤ d ∧ d ≤ 99 := by
    unfold position at hd
    omega
  have he0 : 0 ≤ e ∧ e < 366 := by
    unfold years line at he hd'
    omega
  have hm0 : 0 ≤ m ∧ m ≤ 11 := by
    unfold position at hm
    omega
  rw [hof]
  refine ⟨hd0, hm0, ?_, ?_, ?_, ?_⟩
  · show 0 ≤ e - months m
    omega
  · show months m + (e - months m) < months (m + 1)
    omega
  · show years d + months m + (e - months m) < years (d + 1)
    omega
  · show centuries b + years d + months m + (e - months m) < centuries (b + 1)
    omega

theorem months_nonneg {n : Int} (h : 0 ≤ n) : 0 ≤ months n := by
  unfold months line
  omega

theorem years_nonneg {n : Int} (h : 0 ≤ n) : 0 ≤ years n := by
  unfold years line
  omega

theorem ofNumber_number {t : March} (h : t.Fits) : ofNumber t.number = t := by
  obtain ⟨hyear, hmonth, hday, hinMonth, hinYear, hinCentury⟩ := h
  have hm := months_nonneg hmonth.1
  have hy := years_nonneg hyear.1
  have hnumber : t.number = centuries t.century + years t.year + months t.month + t.day := rfl
  have hcentury : position 146097 0 4 t.number = t.century :=
    (position_eq_iff (by decide) (by decide)).mpr
      ⟨show centuries t.century ≤ t.number by omega, hinCentury⟩
  have hyear' : position 1461 0 4 (t.number - centuries t.century) = t.year :=
    (position_eq_iff (by decide) (by decide)).mpr
      ⟨show years t.year ≤ t.number - centuries t.century by omega,
        show t.number - centuries t.century < years (t.year + 1) by omega⟩
  have hmonth' : position 153 2 5 (t.number - centuries t.century - years t.year) = t.month :=
    (position_eq_iff (by decide) (by decide)).mpr
      ⟨show months t.month ≤ t.number - centuries t.century - years t.year by omega,
        show t.number - centuries t.century - years t.year < months (t.month + 1) by omega⟩
  have hday' : t.number - centuries t.century - years t.year - months t.month = t.day := by omega
  simp only [ofNumber, hcentury, hyear', hmonth', hday']

end March

namespace March

/-! ## Months -/

/-- The months from March to January have their lengths. -/
theorem months_succ {m : Int} (h : 0 ≤ m ∧ m ≤ 10) (year : Int) :
    months (m + 1) = months m + monthLength year (m + 3 - 12 * (m / 10)) := by
  have hcases : m = 0 ∨ m = 1 ∨ m = 2 ∨ m = 3 ∨ m = 4 ∨ m = 5 ∨ m = 6 ∨ m = 7 ∨ m = 8 ∨ m = 9 ∨
    m = 10 := by omega
  rcases hcases with rfl | rfl | rfl | rfl | rfl | rfl | rfl | rfl | rfl | rfl | rfl <;> rfl

theorem months_le {m : Int} (h : m ≤ 11) : months m ≤ 337 := by
  unfold months line
  omega

theorem years_eq (d : Int) : years d = 365 * d + d / 4 := by
  unfold years line
  omega

theorem centuries_eq (b : Int) : centuries b = 36524 * b + b / 4 := by
  unfold centuries line
  omega

theorem years_succ (d : Int) :
    years (d + 1) = years d + 365 + (if (d + 1) % 4 = 0 then 1 else 0) := by
  rw [years_eq, years_eq]
  split <;> omega

theorem centuries_succ (b : Int) :
    centuries (b + 1) = centuries b + 36524 + (if (b + 1) % 4 = 0 then 1 else 0) := by
  rw [centuries_eq, centuries_eq]
  split <;> omega

theorem years_le {d : Int} (h : d ≤ 98) : years d ≤ 35794 := by
  unfold years line
  omega

/-- The year that ends with the February of a March year. -/
theorem isLeap_iff {b d : Int} (h : 0 ≤ d ∧ d ≤ 99) :
    IsLeap (100 * b + d - 4800 + 1) ↔
      if d = 99 then (b + 1) % 4 = 0 else (d + 1) % 4 = 0 := by
  unfold IsLeap
  by_cases hd : d = 99
  · subst hd
    rw [if_pos rfl]
    omega
  · rw [if_neg hd]
    have hcentury : (100 * b + d - 4800 + 1) % 100 = d + 1 := by omega
    have hnot : (100 * b + d - 4800 + 1) % 400 ≠ 0 := by omega
    rw [hcentury]
    omega

/-- February ends with the year. -/
theorem february {b d k : Int} (h : 0 ≤ d ∧ d ≤ 99) (hk : 0 ≤ k) :
    (months 11 + k < months 12 ∧ years d + months 11 + k < years (d + 1) ∧
      centuries b + years d + months 11 + k < centuries (b + 1)) ↔
    k + 1 ≤ monthLength (100 * b + d - 4800 + 1) 2 := by
  have hm : months 11 = 337 ∧ months 12 = 367 := ⟨rfl, rfl⟩
  have hleap := isLeap_iff (b := b) h
  have hy := years_succ d
  have hc := centuries_succ b
  rw [hm.1, hm.2, monthLength, if_pos rfl]
  by_cases hd : d = 99
  · subst hd
    have h99 : years 99 = 36159 := rfl
    rw [if_pos rfl] at hleap
    by_cases hb : (b + 1) % 4 = 0
    · rw [if_pos (hleap.mpr hb)]
      rw [if_pos hb] at hc
      omega
    · rw [if_neg fun h => hb (hleap.mp h)]
      rw [if_neg hb] at hc
      omega
  · have hle := years_le (d := d) (by omega)
    rw [if_neg hd] at hleap
    by_cases hd4 : (d + 1) % 4 = 0
    · rw [if_pos (hleap.mpr hd4)]
      rw [if_pos hd4] at hy
      split at hc <;> omega
    · rw [if_neg fun h => hd4 (hleap.mp h)]
      rw [if_neg hd4] at hy
      split at hc <;> omega

/-! ## Dates -/

def date (t : March) : ParsedDate where
  year := 100 * t.century + t.year - 4800 + t.month / 10
  month := t.month + 3 - 12 * (t.month / 10)
  day := t.day + 1

def ofDate (t : ParsedDate) : March :=
  let a := (14 - t.month) / 12
  let y := t.year + 4800 - a
  ⟨y / 100, y % 100, t.month + 12 * a - 3, t.day - 1⟩

/-- The positions that fit are the days that there are. -/
theorem fits_iff {b d m k : Int} (hd : 0 ≤ d ∧ d ≤ 99) (hm : 0 ≤ m ∧ m ≤ 11) :
    Fits ⟨b, d, m, k⟩ ↔
      1 ≤ k + 1 ∧ k + 1 ≤ monthLength (100 * b + d - 4800 + m / 10) (m + 3 - 12 * (m / 10)) := by
  by_cases hfeb : m = 11
  · subst hfeb
    constructor
    · rintro ⟨-, -, hk, h₁, h₂, h₃⟩
      exact ⟨by have : 0 ≤ k := hk; omega, (february hd hk).mp ⟨h₁, h₂, h₃⟩⟩
    · rintro ⟨hk, hlen⟩
      obtain ⟨h₁, h₂, h₃⟩ := (february (b := b) hd (show 0 ≤ k by omega)).mpr hlen
      exact ⟨hd, hm, show 0 ≤ k by omega, h₁, h₂, h₃⟩
  · have hsucc := months_succ (m := m) (by omega) (100 * b + d - 4800 + m / 10)
    have hle := months_le (m := m + 1) (by omega)
    have hy := years_succ d
    have hc := centuries_succ b
    have h99 : d = 99 → years d = 36159 := by
      rintro rfl
      rfl
    have h98 : d ≠ 99 → years d ≤ 35794 := fun h => years_le (by omega)
    constructor
    · rintro ⟨-, -, hk, h₁, -, -⟩
      have hk : 0 ≤ k := hk
      have h₁ : months m + k < months (m + 1) := h₁
      omega
    · rintro ⟨hk, hlen⟩
      refine ⟨hd, hm, show 0 ≤ k by omega, show months m + k < months (m + 1) by omega, ?_, ?_⟩
      · show years d + months m + k < years (d + 1)
        split at hy <;> omega
      · show centuries b + years d + months m + k < centuries (b + 1)
        by_cases hd99 : d = 99
        · have := h99 hd99
          split at hc <;> omega
        · have := h98 hd99
          split at hc <;> omega

theorem real_date {t : March} (h : t.Fits) : t.date.Real := by
  obtain ⟨b, d, m, k⟩ := t
  have hm : 0 ≤ m ∧ m ≤ 11 := h.month
  refine ⟨⟨?_, ?_⟩, (fits_iff h.year h.month).mp h⟩
  · show 1 ≤ m + 3 - 12 * (m / 10)
    omega
  · show m + 3 - 12 * (m / 10) ≤ 12
    omega

theorem ofDate_date {t : March} (h : t.Fits) : ofDate t.date = t := by
  obtain ⟨b, d, m, k⟩ := t
  have hm : 0 ≤ m ∧ m ≤ 11 := h.month
  have hd : 0 ≤ d ∧ d ≤ 99 := h.year
  simp only [ofDate, date, March.mk.injEq]
  omega

theorem date_ofDate {t : ParsedDate} (h : 1 ≤ t.month ∧ t.month ≤ 12) : (ofDate t).date = t := by
  obtain ⟨y, m, d⟩ := t
  have hm : 1 ≤ m ∧ m ≤ 12 := h
  simp only [ofDate, date, ParsedDate.mk.injEq]
  omega

theorem fits_ofDate {t : ParsedDate} (h : t.Real) : (ofDate t).Fits := by
  have hdate := date_ofDate h.month
  obtain ⟨y, m, d⟩ := t
  obtain ⟨hm, hd⟩ := h
  have hm : 1 ≤ m ∧ m ≤ 12 := hm
  rw [← hdate] at hd
  refine (fits_iff ?_ ?_).mpr hd
  · omega
  · omega

end March

/-! ## Day numbers -/

def julianDay (t : ParsedDate) : Int := (March.ofDate t).number - 32044

def civil (jd : Int) : ParsedDate := (March.ofNumber (jd + 32044)).date

theorem civil_real (jd : Int) : (civil jd).Real := March.real_date (March.fits_ofNumber _)

theorem julianDay_civil (jd : Int) : julianDay (civil jd) = jd := by
  rw [julianDay, civil, March.ofDate_date (March.fits_ofNumber _), March.number_ofNumber]
  omega

theorem civil_julianDay {t : ParsedDate} (h : t.Real) : civil (julianDay t) = t := by
  rw [civil, julianDay, Int.sub_add_cancel, March.ofNumber_number (March.fits_ofDate h),
    March.date_ofDate h.month]

/-- The days of a March year and those before. -/
theorem yearDays (y : Int) : March.centuries (y / 100) + March.years (y % 100) =
    365 * y + y / 4 - y / 100 + y / 400 := by
  rw [March.centuries_eq, March.years_eq]
  have h4 : y / 4 = 25 * (y / 100) + y % 100 / 4 := by omega
  have h400 : y / 400 = y / 100 / 4 := by omega
  omega

theorem julianDay_eq (year month day : Int) : julianDay ⟨year, month, day⟩ =
    day + (153 * (month + 12 * ((14 - month) / 12) - 3) + 2) / 5 +
      365 * (year + 4800 - (14 - month) / 12) + (year + 4800 - (14 - month) / 12) / 4 -
      (year + 4800 - (14 - month) / 12) / 100 + (year + 4800 - (14 - month) / 12) / 400 - 32045 := by
  have hdays := yearDays (year + 4800 - (14 - month) / 12)
  simp only [julianDay, March.number, March.ofDate, March.months, line]
  omega

/-! ## The next day -/

theorem monthLength_pos (year month : Int) : 28 ≤ monthLength year month := by
  unfold monthLength
  split_ifs <;> omega

theorem real_next {t : ParsedDate} (h : t.Real) : t.next.Real := by
  obtain ⟨hm, hd⟩ := h
  have hlen (y m : Int) := monthLength_pos y m
  unfold ParsedDate.next
  split
  · next hlt => exact ⟨hm, show 1 ≤ t.day + 1 by omega,
      show t.day + 1 ≤ monthLength t.year t.month by omega⟩
  · split
    · next hlt =>
      exact ⟨⟨show 1 ≤ t.month + 1 by omega, show t.month + 1 ≤ 12 by omega⟩, Int.le_refl _,
        show 1 ≤ monthLength t.year (t.month + 1) by have := hlen t.year (t.month + 1); omega⟩
    · exact ⟨⟨Int.le_refl _, show (1 : Int) ≤ 12 by decide⟩, Int.le_refl _,
        show 1 ≤ monthLength (t.year + 1) 1 by have := hlen (t.year + 1) 1; omega⟩

/-- The first of the next month, from the last of a month other than February and December. -/
theorem julianDay_month {year month : Int} (h : 1 ≤ month ∧ month ≤ 11) (h2 : month ≠ 2) :
    julianDay ⟨year, month + 1, 1⟩ = julianDay ⟨year, month, monthLength year month⟩ + 1 := by
  by_cases h1 : month = 1
  · subst h1
    have hlen : monthLength year 1 = 31 := rfl
    rw [hlen, julianDay_eq, julianDay_eq]
    norm_num
    omega
  · have ha : (14 - month) / 12 = 0 := by omega
    have ha' : (14 - (month + 1)) / 12 = 0 := by omega
    have hsucc := March.months_succ (m := month - 3) (by omega) year
    rw [show month - 3 + 3 - 12 * ((month - 3) / 10) = month by omega] at hsucc
    unfold March.months line at hsucc
    rw [julianDay_eq, julianDay_eq, ha, ha', show month + 1 + 12 * 0 - 3 = month - 3 + 1 by omega,
      show month + 12 * 0 - 3 = month - 3 by omega]
    omega

theorem leap_year (y : Int) : (y + 1) / 4 - (y + 1) / 100 + (y + 1) / 400 =
    y / 4 - y / 100 + y / 400 + (if IsLeap (y + 1) then 1 else 0) := by
  unfold IsLeap
  have h4 : (y + 1) / 4 = y / 4 + (if (y + 1) % 4 = 0 then 1 else 0) := by split <;> omega
  have h100 : (y + 1) / 100 = y / 100 + (if (y + 1) % 100 = 0 then 1 else 0) := by split <;> omega
  have h400 : (y + 1) / 400 = y / 400 + (if (y + 1) % 400 = 0 then 1 else 0) := by split <;> omega
  have h100_4 : (y + 1) % 100 = 0 → (y + 1) % 4 = 0 := by omega
  have h400_100 : (y + 1) % 400 = 0 → (y + 1) % 100 = 0 := by omega
  rw [h4, h100, h400]
  clear h4 h100 h400
  generalize y / 4 = a, y / 100 = b, y / 400 = c
  split_ifs <;> omega

theorem isLeap_add (year : Int) : IsLeap (year + 4800) ↔ IsLeap year := by
  unfold IsLeap
  omega

theorem julianDay_february (year : Int) :
    julianDay ⟨year, 3, 1⟩ = julianDay ⟨year, 2, monthLength year 2⟩ + 1 := by
  have hleap := leap_year (year + 4799)
  have hiff := isLeap_add year
  rw [show year + 4799 + 1 = year + 4800 by omega] at hleap
  simp only [hiff] at hleap
  rw [julianDay_eq, julianDay_eq, monthLength, if_pos rfl]
  norm_num
  rw [show year + 4800 - 1 = year + 4799 by omega]
  split_ifs at hleap ⊢ <;> omega

theorem julianDay_december (year : Int) :
    julianDay ⟨year + 1, 1, 1⟩ = julianDay ⟨year, 12, monthLength year 12⟩ + 1 := by
  have hlen : monthLength year 12 = 31 := rfl
  rw [hlen, julianDay_eq, julianDay_eq]
  norm_num
  rw [show year + 1 + 4800 - 1 = year + 4800 by omega]
  omega

theorem julianDay_next {t : ParsedDate} (h : t.Real) : julianDay t.next = julianDay t + 1 := by
  obtain ⟨year, month, day⟩ := t
  obtain ⟨hm, hd⟩ := h
  have hm : 1 ≤ month ∧ month ≤ 12 := hm
  have hd : 1 ≤ day ∧ day ≤ monthLength year month := hd
  show julianDay (if day < monthLength year month then ⟨year, month, day + 1⟩
    else if month < 12 then ⟨year, month + 1, 1⟩ else ⟨year + 1, 1, 1⟩) =
      julianDay ⟨year, month, day⟩ + 1
  by_cases hlast : day < monthLength year month
  · rw [if_pos hlast, julianDay_eq, julianDay_eq]
    omega
  · have hday : day = monthLength year month := by omega
    rw [if_neg hlast, hday]
    by_cases h12 : month < 12
    · rw [if_pos h12]
      by_cases h2 : month = 2
      · subst h2
        exact julianDay_february year
      · exact julianDay_month (by omega) h2
    · obtain rfl : month = 12 := by omega
      rw [if_neg h12]
      exact julianDay_december year

/-- The day after a day number is the next day of the calendar. -/
theorem civil_succ (jd : Int) : civil (jd + 1) = (civil jd).next := by
  have hreal := civil_real jd
  rw [← civil_julianDay (real_next hreal), julianDay_next hreal, julianDay_civil]

/-! ## Order -/

theorem before_next (t : ParsedDate) : t.Before t.next := by
  unfold ParsedDate.next
  split
  · exact .inr ⟨rfl, .inr ⟨rfl, show t.day < t.day + 1 by omega⟩⟩
  · split
    · exact .inr ⟨rfl, .inl (show t.month < t.month + 1 by omega)⟩
    · exact .inl (show t.year < t.year + 1 by omega)

theorem ParsedDate.Before.trans {s t u : ParsedDate} (h : s.Before t) (h' : t.Before u) : s.Before u := by
  unfold ParsedDate.Before at *
  omega

theorem ParsedDate.Before.irrefl (t : ParsedDate) : ¬t.Before t := by
  unfold ParsedDate.Before
  omega

theorem civil_before {jd jd' : Int} (h : jd < jd') : (civil jd).Before (civil jd') := by
  obtain ⟨n, rfl⟩ : ∃ n : Nat, jd' = jd + 1 + n := ⟨(jd' - jd - 1).toNat, by omega⟩
  induction n with
  | zero =>
    rw [show jd + 1 + ((0 : Nat) : Int) = jd + 1 by omega, civil_succ]
    exact before_next _
  | succ n ih =>
    rw [show jd + 1 + ((n + 1 : Nat) : Int) = jd + 1 + n + 1 by omega, civil_succ]
    exact (ih (by omega)).trans (before_next _)

/-- Dates are in calendar order where their day numbers are. -/
theorem julianDay_lt_iff {t t' : ParsedDate} (h : t.Real) (h' : t'.Real) :
    julianDay t < julianDay t' ↔ t.Before t' := by
  constructor
  · intro hlt
    have := civil_before hlt
    rwa [civil_julianDay h, civil_julianDay h'] at this
  · intro hbefore
    by_contra hle
    rcases Int.lt_or_eq_of_le (not_lt.mp hle) with hlt | heq
    · have := civil_before hlt
      rw [civil_julianDay h, civil_julianDay h'] at this
      exact ParsedDate.Before.irrefl t (hbefore.trans this)
    · have : t = t' := by rw [← civil_julianDay h, ← civil_julianDay h', heq]
      rw [this] at hbefore
      exact ParsedDate.Before.irrefl t' hbefore

/-! ## The code -/

/-- The division of the code rounds down. -/
theorem tdiv_eq_floor {a b : Int} (hb : 0 < b) :
    (a - (if a < 0 then b - 1 else 0)).tdiv b = a / b := by
  by_cases ha : a < 0
  · rw [if_pos ha, show a - (b - 1) = -(-a + b - 1) by omega, Int.neg_tdiv,
      Int.tdiv_eq_ediv_of_nonneg (by omega)]
    have hmod := Int.emod_nonneg a (show b ≠ 0 by omega)
    have hlt := Int.emod_lt_of_pos a hb
    have hsplit := Int.emod_add_mul_ediv a b
    have hneg : b * -(a / b) = -(b * (a / b)) := Int.mul_neg b (a / b)
    have hdiv := ((Int.ediv_emod_unique hb (a := -a + b - 1) (r := b - 1 - a % b)
      (q := -(a / b))).mpr ⟨by rw [hneg]; omega, by omega, by omega⟩).1
    rw [hdiv, Int.neg_neg]
  · rw [if_neg ha, Int.sub_zero, Int.tdiv_eq_ediv_of_nonneg (by omega)]

theorem ediv_bounds {a b lo hi : Int} (hb : 0 < b) (hlo : lo ≤ 0) (hhi : 0 < hi) (h : lo ≤ a)
    (h' : a < hi) : lo ≤ a / b ∧ a / b < hi := by
  constructor
  · rw [Int.le_ediv_iff_mul_le hb]
    have := Int.mul_le_mul_of_nonpos_left hlo (show (1 : Int) ≤ b by omega)
    omega
  · rw [Int.ediv_lt_iff_lt_mul hb]
    have := Int.mul_le_mul_of_nonneg_left (show (1 : Int) ≤ b by omega) (Int.le_of_lt hhi)
    omega

theorem floordiv_int {a b : Int} (hb : 0 < b) (h : b - 2147483648 ≤ a) (h' : a < 2147483648) :
    floordiv int a b = some (a / b) := by
  obtain ⟨hlo, hhi⟩ := ediv_bounds hb (show (-2147483648 : Int) ≤ 0 by decide)
    (show (0 : Int) < 2147483648 by decide) (show -2147483648 ≤ a by omega) h'
  rw [floordiv, int_of (by split <;> omega) (by split <;> omega), Option.bind_eq_bind,
    Option.bind_some, tdiv_eq_floor hb, int_of hlo hhi]

theorem floordiv_int64 {a b : Int} (hb : 0 < b) (h : b - 9223372036854775808 ≤ a)
    (h' : a < 9223372036854775808) : floordiv int64 a b = some (a / b) := by
  obtain ⟨hlo, hhi⟩ := ediv_bounds hb (show (-9223372036854775808 : Int) ≤ 0 by decide)
    (show (0 : Int) < 9223372036854775808 by decide) (show -9223372036854775808 ≤ a by omega) h'
  rw [floordiv, int64_of (by split <;> omega) (by split <;> omega), Option.bind_eq_bind,
    Option.bind_some, tdiv_eq_floor hb, int64_of hlo hhi]

theorem floordiv_int_bind {a b : Int} {α : Type} {f : Int → Option α} (hb : 0 < b)
    (h : b - 2147483648 ≤ a) (h' : a < 2147483648) : (floordiv int a b >>= f) = f (a / b) := by
  rw [floordiv_int hb h h']
  rfl

theorem floordiv_int64_bind {a b : Int} {α : Type} {f : Int → Option α} (hb : 0 < b)
    (h : b - 9223372036854775808 ≤ a) (h' : a < 9223372036854775808) :
    (floordiv int64 a b >>= f) = f (a / b) := by
  rw [floordiv_int64 hb h h']
  rfl

/-- Years as they are written: there is no year 0. -/
def withoutZero (year : Int) : Int := if year ≤ 0 then year - 1 else year

def withZero (year : Int) : Int := if year < 0 then year + 1 else year

theorem adjusted_eq {year : Int} (h : -2147483648 ≤ year) :
    adjusted year = some (withZero year) := by
  unfold adjusted withZero
  split
  · exact int_of (by omega) (by omega)
  · rfl

theorem adjusted_bind {year : Int} {α : Type} {f : Int → Option α} (h : -2147483648 ≤ year) :
    (adjusted year >>= f) = f (withZero year) := by
  rw [adjusted_eq h]
  rfl

theorem unadjusted_eq {year : Int} (h : -2147483647 ≤ year) :
    unadjusted year = some (withoutZero year) := by
  unfold unadjusted withoutZero
  split
  · exact int_of (by omega) (by omega)
  · rfl

theorem unadjusted_bind {year : Int} {α : Type} {f : Int → Option α} (h : -2147483647 ≤ year) :
    (unadjusted year >>= f) = f (withoutZero year) := by
  rw [unadjusted_eq h]
  rfl

/-- No overflow on the way to a day number. -/
theorem julianDayFromDate_eq {year month day : Int} (hy : -2147483648 ≤ year)
    (hy' : year < 2147483648) (hm : 1 ≤ month ∧ month ≤ 12) (hd : 1 ≤ day ∧ day ≤ 31) :
    julianDayFromDate year month day = some (julianDay ⟨withZero year, month, day⟩) := by
  obtain ⟨y, hy0⟩ : ∃ y, y = withZero year := ⟨_, rfl⟩
  have hbounds : -2147483648 ≤ y ∧ y < 2147483648 := by
    unfold withZero at hy0
    split at hy0 <;> omega
  -- the months of the year before this one, in years from March on
  obtain ⟨a, ha⟩ : ∃ a, a = (14 - month) / 12 := ⟨_, rfl⟩
  obtain ⟨m, hmdef⟩ : ∃ m, m = month + 12 * a - 3 := ⟨_, rfl⟩
  obtain ⟨n, hn⟩ : ∃ n, n = (153 * m + 2) / 5 := ⟨_, rfl⟩
  obtain ⟨y', hy'def⟩ : ∃ y', y' = y + 4800 - a := ⟨_, rfl⟩
  have ha01 : 0 ≤ a ∧ a ≤ 1 := by omega
  have hm11 : 0 ≤ m ∧ m ≤ 11 := by omega
  have hn337 : 0 ≤ n ∧ n ≤ 337 := by omega
  rw [julianDay_eq, ← hy0, ← ha, ← hmdef, ← hn, ← hy'def, julianDayFromDate]
  rw [adjusted_bind hy, ← hy0,
    int_bind (by omega) (by omega),
    floordiv_int_bind (by decide) (by omega) (by omega), ← ha,
    int64_bind (by omega) (by omega),
    int64_bind (by omega) (by omega), ← hy'def,
    int_bind (by omega) (by omega),
    int_bind (by omega) (by omega),
    int_bind (by omega) (by omega), ← hmdef,
    int_bind (by omega) (by omega),
    int_bind (by omega) (by omega),
    floordiv_int_bind (by decide) (by omega) (by omega), ← hn,
    int_bind (by omega) (by omega),
    int64_bind (by omega) (by omega),
    int64_bind (by omega) (by omega),
    floordiv_int64_bind (by decide) (by omega) (by omega),
    int64_bind (by omega) (by omega),
    floordiv_int64_bind (by decide) (by omega) (by omega),
    int64_bind (by omega) (by omega),
    floordiv_int64_bind (by decide) (by omega) (by omega),
    int64_bind (by omega) (by omega), int64_of (by omega) (by omega)]

/-- No overflow on the way to a date whose year is an `int`. -/
theorem getDateFromJulianDay_eq {jd : Int} (h : minJd ≤ jd ∧ jd ≤ maxJd)
    (hy : -2147483647 ≤ (civil jd).year ∧ (civil jd).year < 2147483648) :
    getDateFromJulianDay jd =
      some ⟨withoutZero (civil jd).year, (civil jd).month, (civil jd).day⟩ := by
  obtain ⟨hlo, hhi⟩ := h
  unfold minJd at hlo
  unfold maxJd at hhi
  obtain ⟨a, ha⟩ : ∃ a, a = jd + 32044 := ⟨_, rfl⟩
  obtain ⟨b, hb⟩ : ∃ b, b = (4 * a + 3) / 146097 := ⟨_, rfl⟩
  obtain ⟨c, hc⟩ : ∃ c, c = a - 146097 * b / 4 := ⟨_, rfl⟩
  obtain ⟨d, hd⟩ : ∃ d, d = (4 * c + 3) / 1461 := ⟨_, rfl⟩
  obtain ⟨e, he⟩ : ∃ e, e = c - 1461 * d / 4 := ⟨_, rfl⟩
  obtain ⟨m, hm⟩ : ∃ m, m = (5 * e + 2) / 153 := ⟨_, rfl⟩
  obtain ⟨n, hn⟩ : ∃ n, n = (153 * m + 2) / 5 := ⟨_, rfl⟩
  have hcentury : position 146097 0 4 a = b := hb.symm
  have hyear : position 1461 0 4 c = d := hd.symm
  have hmonth : position 153 2 5 e = m := hm.symm
  have hcenturies : a - March.centuries b = c := by
    rw [hc, March.centuries, line, Int.add_zero]
  have hyears : c - March.years d = e := by
    rw [he, March.years, line, Int.add_zero]
  have hmonths : March.months m = n := hn.symm
  have hcivil : civil jd = March.date ⟨b, d, m, e - n⟩ := by
    rw [civil, ← ha, March.ofNumber]
    simp only [hcentury, hcenturies, hyear, hyears, hmonth, hmonths]
  have hdate : civil jd = ⟨100 * b + d - 4800 + m / 10, m + 3 - 12 * (m / 10), e - n + 1⟩ := hcivil
  rw [hdate] at hy ⊢
  have hc0 : 0 ≤ c ∧ c < 36525 := by omega
  have hd0 : 0 ≤ d ∧ d ≤ 99 := by omega
  have he0 : 0 ≤ e ∧ e < 366 := by omega
  have hm0 : 0 ≤ m ∧ m ≤ 11 := by omega
  have hn0 : 0 ≤ n ∧ n ≤ 337 := by omega
  obtain ⟨tens, htens⟩ : ∃ tens, tens = m / 10 := ⟨_, rfl⟩
  have htens0 : 0 ≤ tens ∧ tens ≤ 1 := by omega
  rw [← htens] at hy ⊢
  rw [getDateFromJulianDay]
  rw [int64_bind (by omega) (by omega), ← ha,
    int64_bind (by omega) (by omega),
    int64_bind (by omega) (by omega),
    floordiv_int64_bind (by decide) (by omega) (by omega), ← hb,
    int64_bind (by omega) (by omega),
    floordiv_int64_bind (by decide) (by omega) (by omega),
    int64_bind (by omega) (by omega), ← hc,
    int_bind (by omega) (by omega),
    int_bind (by omega) (by omega),
    int_bind (by omega) (by omega),
    floordiv_int_bind (by decide) (by omega) (by omega), ← hd,
    int_bind (by omega) (by omega),
    floordiv_int_bind (by decide) (by omega) (by omega),
    int_bind (by omega) (by omega), ← he,
    int_bind (by omega) (by omega),
    int_bind (by omega) (by omega),
    floordiv_int_bind (by decide) (by omega) (by omega), ← hm,
    int_bind (by omega) (by omega),
    int_bind (by omega) (by omega),
    floordiv_int_bind (by decide) (by omega) (by omega), ← hn,
    int_bind (by omega) (by omega),
    int_bind (by omega) (by omega),
    floordiv_int_bind (by decide) (by omega) (by omega), ← htens,
    int_bind (by omega) (by omega),
    int_bind (by omega) (by omega),
    int_bind (by omega) (by omega),
    int64_bind (by omega) (by omega),
    int64_bind (by omega) (by omega),
    int64_bind (by omega) (by omega),
    int64_bind (by omega) (by omega),
    int_bind (by omega) hy.2, unadjusted_bind hy.1]

/-! ## Written dates -/

/-- The date as it is written. -/
def ParsedDate.written (t : ParsedDate) : ParsedDate := ⟨withoutZero t.year, t.month, t.day⟩

/-- The date counted with a year 0. -/
def ParsedDate.counted (t : ParsedDate) : ParsedDate := ⟨withZero t.year, t.month, t.day⟩

/-- The day after: year 1 follows year -1. -/
def ParsedDate.dayAfter (t : ParsedDate) : ParsedDate :=
  if t.day < monthLength (withZero t.year) t.month then ⟨t.year, t.month, t.day + 1⟩
  else if t.month < 12 then ⟨t.year, t.month + 1, 1⟩
  else ⟨if t.year = -1 then 1 else t.year + 1, 1, 1⟩

theorem withZero_withoutZero (year : Int) : withZero (withoutZero year) = year := by
  unfold withZero withoutZero
  split_ifs <;> omega

theorem withoutZero_withZero {year : Int} (h : year ≠ 0) : withoutZero (withZero year) = year := by
  unfold withZero withoutZero
  split_ifs <;> omega

theorem withoutZero_ne_zero (year : Int) : withoutZero year ≠ 0 := by
  unfold withoutZero
  split <;> omega

theorem ParsedDate.counted_written (t : ParsedDate) : t.written.counted = t := by
  rw [counted, written]
  simp only [withZero_withoutZero]

theorem ParsedDate.written_counted {t : ParsedDate} (h : t.year ≠ 0) : t.counted.written = t := by
  rw [counted, written]
  simp only [withoutZero_withZero h]

theorem ParsedDate.counted_before {t t' : ParsedDate} (h : t.year ≠ 0) (h' : t'.year ≠ 0) :
    t.counted.Before t'.counted ↔ t.Before t' := by
  simp only [Before, counted, withZero]
  split_ifs <;> omega

theorem ParsedDate.written_next (t : ParsedDate) : t.next.written = t.written.dayAfter := by
  obtain ⟨year, month, day⟩ := t
  have hlast : withoutZero (year + 1) =
      if withoutZero year = -1 then 1 else withoutZero year + 1 := by
    unfold withoutZero
    split_ifs <;> omega
  show written (if day < monthLength year month then ⟨year, month, day + 1⟩
    else if month < 12 then ⟨year, month + 1, 1⟩ else ⟨year + 1, 1, 1⟩) =
      if day < monthLength (withZero (withoutZero year)) month then
        ⟨withoutZero year, month, day + 1⟩
      else if month < 12 then ⟨withoutZero year, month + 1, 1⟩
      else ⟨if withoutZero year = -1 then 1 else withoutZero year + 1, 1, 1⟩
  rw [withZero_withoutZero, ← hlast]
  by_cases hday : day < monthLength year month
  · rw [if_pos hday, if_pos hday]
    rfl
  · rw [if_neg hday, if_neg hday]
    by_cases hmonth : month < 12
    · rw [if_pos hmonth, if_pos hmonth]
      rfl
    · rw [if_neg hmonth, if_neg hmonth]
      rfl

theorem isLeapYear_iff {year : Int} (h : year ≠ 0) :
    isLeapYear year = true ↔ IsLeap (withZero year) := by
  have hzero : (if year < 1 then year + 1 else year) = withZero year := by
    unfold withZero
    split_ifs <;> omega
  have htmod (n : Int) (hn : n ≠ 0) : (withZero year).tmod n = 0 ↔ withZero year % n = 0 := by
    rw [← Int.dvd_iff_tmod_eq_zero, ← Int.dvd_iff_emod_eq_zero]
  simp only [isLeapYear, hzero, IsLeap, Bool.or_eq_true, Bool.and_eq_true, decide_eq_true_eq,
    bne_iff_ne, ne_eq, htmod 4 (by decide), htmod 100 (by decide), htmod 400 (by decide)]

theorem monthDays_getD {month : Int} (h : 1 ≤ month ∧ month ≤ 12) :
    monthDays.getD month.toNat 0 =
      if month = 2 then 28
      else if month = 4 ∨ month = 6 ∨ month = 9 ∨ month = 11 then 30 else 31 := by
  obtain rfl | rfl | rfl | rfl | rfl | rfl | rfl | rfl | rfl | rfl | rfl | rfl :
      month = 1 ∨ month = 2 ∨ month = 3 ∨ month = 4 ∨ month = 5 ∨ month = 6 ∨ month = 7 ∨
        month = 8 ∨ month = 9 ∨ month = 10 ∨ month = 11 ∨ month = 12 := by omega
  all_goals rfl

/-- The dates that are valid are the days that there are. -/
theorem isValid_iff (t : ParsedDate) :
    isValid t.year t.month t.day = true ↔ t.year ≠ 0 ∧ t.counted.Real := by
  obtain ⟨year, month, day⟩ := t
  show isValid year month day = true ↔ year ≠ 0 ∧ (⟨withZero year, month, day⟩ : ParsedDate).Real
  by_cases hy : year = 0
  · simp [isValid, hy]
  have hreal : (⟨withZero year, month, day⟩ : ParsedDate).Real ↔
      (1 ≤ month ∧ month ≤ 12) ∧ 1 ≤ day ∧ day ≤ monthLength (withZero year) month :=
    ⟨fun h => ⟨h.month, h.day⟩, fun h => ⟨h.1, h.2⟩⟩
  have hleap := isLeapYear_iff hy
  rw [isValid, if_neg hy, hreal]
  by_cases hm : 1 ≤ month ∧ month ≤ 12
  · rw [monthDays_getD hm, monthLength]
    simp only [Bool.and_eq_true, Bool.or_eq_true, decide_eq_true_eq, hleap]
    by_cases h2 : month = 2
    · by_cases h4 : IsLeap (withZero year)
      · simp only [if_pos h2, h4, if_true, and_true]
        omega
      · simp only [if_pos h2, h4, if_false, and_false, or_false]
        omega
    · simp only [if_neg h2]
      omega
  · simp only [Bool.and_eq_true, decide_eq_true_eq]
    constructor
    · rintro ⟨⟨⟨-, h1⟩, h12⟩, -⟩
      exact absurd ⟨by omega, h12⟩ hm
    · rintro ⟨-, h, -⟩
      exact absurd h hm

/-! ## The code is exact -/

theorem civil_minJd : civil minJd = ⟨-2147483647, 1, 1⟩ := by rfl

theorem civil_maxJd : civil maxJd = ⟨2147483647, 12, 31⟩ := by rfl

/-- The days of `Date` are those whose year, without a year 0, is an `int`. -/
theorem isValidJd_iff (jd : Int) : isValidJd jd = true ↔
    -2147483647 ≤ (civil jd).year ∧ (civil jd).year < 2147483648 := by
  have hreal := civil_real jd
  have hday := hreal.day
  have hmonth := hreal.month
  have hlen (y : Int) : monthLength y 12 = 31 := rfl
  rw [isValidJd, Bool.and_eq_true, decide_eq_true_eq, decide_eq_true_eq]
  constructor
  · rintro ⟨hlo, hhi⟩
    constructor
    · rcases Int.lt_or_eq_of_le hlo with h | h
      · have := civil_before h
        rw [civil_minJd] at this
        simp only [ParsedDate.Before] at this
        omega
      · rw [← h, civil_minJd]
    · rcases Int.lt_or_eq_of_le hhi with h | h
      · have := civil_before h
        rw [civil_maxJd] at this
        simp only [ParsedDate.Before] at this
        omega
      · rw [h, civil_maxJd]
        decide
  · rintro ⟨hlo, hhi⟩
    constructor
    · by_contra h
      have := civil_before (not_le.mp h)
      rw [civil_minJd] at this
      simp only [ParsedDate.Before] at this
      omega
    · by_contra h
      have := civil_before (not_le.mp h)
      rw [civil_maxJd] at this
      simp only [ParsedDate.Before] at this
      by_cases h12 : (civil jd).month = 12
      · rw [h12, hlen] at hday
        omega
      · omega

/-- Days of `Date`, dates and what the code answers. -/
structure CalendarExact : Prop where
  /-- A day number of `Date` is that of a valid date. -/
  ofJulianDay : ∀ jd, isValidJd jd = true → ∃ t, getDateFromJulianDay jd = some t ∧
    isValid t.year t.month t.day = true ∧ julianDayFromDate t.year t.month t.day = some jd
  /-- A valid date is the date of its day number, which is one of `Date`. -/
  ofDate : ∀ year month day, int year = some year → isValid year month day = true → ∃ jd,
    julianDayFromDate year month day = some jd ∧ isValidJd jd = true ∧
      getDateFromJulianDay jd = some ⟨year, month, day⟩ ∧
      setDate year month day = some (some jd)
  /-- The next day number is that of the next day. -/
  next : ∀ jd, isValidJd jd = true → isValidJd (jd + 1) = true →
    getDateFromJulianDay (jd + 1) = (getDateFromJulianDay jd).map ParsedDate.dayAfter
  /-- Both functions are strictly monotone. -/
  monotone : ∀ jd jd' t t', isValidJd jd = true → isValidJd jd' = true →
    getDateFromJulianDay jd = some t → getDateFromJulianDay jd' = some t' →
      (jd < jd' ↔ t.Before t')
  /-- The valid dates have a year, a month and a day of the month; February 29 is in leap years. -/
  valid : ∀ year month day, isValid year month day = true ↔
    year ≠ 0 ∧ (1 ≤ month ∧ month ≤ 12) ∧ 1 ≤ day ∧ day ≤ monthLength (withZero year) month
  leap : ∀ year, year ≠ 0 → (isLeapYear year = true ↔ IsLeap (withZero year))

/-- The day number of a date that is written. -/
theorem julianDayFromDate_written {jd : Int} (h : isValidJd jd = true) :
    julianDayFromDate (civil jd).written.year (civil jd).written.month (civil jd).written.day =
      some jd := by
  obtain ⟨hlo, hhi⟩ := (isValidJd_iff jd).mp h
  have hreal := civil_real jd
  have hlen : monthLength (civil jd).year (civil jd).month ≤ 31 := by
    unfold monthLength
    split_ifs <;> omega
  have hyear : -2147483648 ≤ (civil jd).written.year ∧ (civil jd).written.year < 2147483648 := by
    show -2147483648 ≤ withoutZero (civil jd).year ∧ withoutZero (civil jd).year < 2147483648
    unfold withoutZero
    split_ifs <;> omega
  refine (julianDayFromDate_eq hyear.1 hyear.2 hreal.month
    ⟨hreal.day.1, hreal.day.2.trans hlen⟩).trans ?_
  show some (julianDay (civil jd).written.counted) = some jd
  rw [ParsedDate.counted_written, julianDay_civil]

theorem getDateFromJulianDay_written {jd : Int} (h : isValidJd jd = true) :
    getDateFromJulianDay jd = some (civil jd).written := by
  have hbounds := h
  rw [isValidJd, Bool.and_eq_true, decide_eq_true_eq, decide_eq_true_eq] at hbounds
  exact getDateFromJulianDay_eq hbounds ((isValidJd_iff jd).mp h)

theorem isValid_written (jd : Int) :
    isValid (civil jd).written.year (civil jd).written.month (civil jd).written.day = true := by
  rw [isValid_iff, ParsedDate.counted_written]
  exact ⟨withoutZero_ne_zero _, civil_real jd⟩

/-- A valid date is that of a day number of `Date`. -/
theorem exists_written {year month day : Int} (hint : int year = some year)
    (h : isValid year month day = true) :
    ∃ jd, isValidJd jd = true ∧ (civil jd).written = ⟨year, month, day⟩ := by
  obtain ⟨hyear, hreal⟩ := (isValid_iff ⟨year, month, day⟩).mp h
  have hcivil := civil_julianDay hreal
  refine ⟨_, (isValidJd_iff _).mpr ?_, by rw [hcivil, ParsedDate.written_counted hyear]⟩
  rw [hcivil]
  show -2147483647 ≤ withZero year ∧ withZero year < 2147483648
  have hfits : -2147483648 ≤ year ∧ year < 2147483648 := by
    by_contra hout
    rw [int, if_neg hout] at hint
    cases hint
  have hyear : year ≠ 0 := hyear
  unfold withZero
  split_ifs <;> omega

theorem calendar_exact : CalendarExact where
  ofJulianDay jd h := ⟨_, getDateFromJulianDay_written h, isValid_written jd,
    julianDayFromDate_written h⟩
  ofDate year month day hint h := by
    obtain ⟨jd, hjd, hwritten⟩ := exists_written hint h
    have hnumber := julianDayFromDate_written hjd
    rw [hwritten] at hnumber
    have hnumber : julianDayFromDate year month day = some jd := hnumber
    refine ⟨jd, hnumber, hjd, ?_, ?_⟩
    · rw [getDateFromJulianDay_written hjd, hwritten]
    · rw [setDate, if_pos h, hnumber, Option.map_some]
  next jd h h' := by
    rw [getDateFromJulianDay_written h, getDateFromJulianDay_written h', civil_succ,
      ParsedDate.written_next, Option.map_some]
  monotone jd jd' t t' h h' ht ht' := by
    rw [getDateFromJulianDay_written h] at ht
    rw [getDateFromJulianDay_written h'] at ht'
    obtain rfl := Option.some.inj ht
    obtain rfl := Option.some.inj ht'
    rw [← ParsedDate.counted_before (withoutZero_ne_zero _) (withoutZero_ne_zero _),
      ParsedDate.counted_written, ParsedDate.counted_written,
      ← julianDay_lt_iff (civil_real jd) (civil_real jd'), julianDay_civil, julianDay_civil]
  valid year month day :=
    (isValid_iff ⟨year, month, day⟩).trans
      (and_congr_right fun _ => ⟨fun h => ⟨h.month, h.day⟩, fun h => ⟨h.1, h.2⟩⟩)
  leap _ h := isLeapYear_iff h

/-- March 1 of the year before year 1 is 306 days before it. -/
example : julianDayFromDate (-1) 3 1 = some 1721120 ∧
    getDateFromJulianDay 1721120 = some ⟨-1, 3, 1⟩ ∧
    getDateFromJulianDay 1721119 = some ⟨-1, 2, 29⟩ := by decide

end Libpdk.Time
