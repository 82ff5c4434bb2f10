import Libpdk.Time.CalendarBijective

/-!
# Times of day

`Time` is a number of milliseconds since midnight, -1 for a null time. `addSecs` and `addMSecs`
count modulo a day, in `int`: every sum, product and quotient has its C++ type, as in `Calendar`.
The seconds never overflow; the milliseconds do near the ends of `int` (`addMSecs_iff`).
-/
namespace Libpdk.Time

def msecsPerDay : Int := 86400000

/-- `NULL_TIME`; a time is its milliseconds of the day. -/
def nullTime : Int := -1

/-- mirrors time/DateTime.cpp:675-678 -/
def isValidTime (time : Int) : Bool := nullTime < time && time < msecsPerDay

theorem isValidTime_iff (time : Int) :
    isValidTime time = true ↔ 0 ≤ time ∧ time < msecsPerDay := by
  rw [isValidTime, Bool.and_eq_true, decide_eq_true_eq, decide_eq_true_eq, nullTime]
  omega

end Libpdk.Time

namespace Libpdk.Time.TimeOfDay

def secsPerDay : Int := 86400

/-- mirrors time/Time.h:132-135 -/
def ds (mds : Int) : Int := if mds = -1 then 0 else mds

/-- A null time stays null; the outer `none` is an overflow.
mirrors time/DateTime.cpp:778-791 -/
def addMSecs (mds ms : Int) : Option Int :=
  if isValidTime mds then
    if ms < 0 then do
      let n ← int (msecsPerDay - ms)
      let negdays ← int (n.tdiv msecsPerDay)
      let sum ← int (ds mds + ms)
      let days ← int (negdays * msecsPerDay)
      let n ← int (sum + days)
      int (n.tmod msecsPerDay)
    else do
      let n ← int (ds mds + ms)
      int (n.tmod msecsPerDay)
  else some nullTime

/-- mirrors time/DateTime.cpp:760-764 -/
def addSecs (mds s : Int) : Option Int := do
  let s ← int (s.tmod secsPerDay)
  let ms ← int (s * 1000)
  addMSecs mds ms

/-! ## Counting modulo a day -/

/-- The sum of the time and the milliseconds, and a day less the milliseconds where they are
negative, are no more than an `int`. -/
def Sums (mds ms : Int) : Prop :=
  if ms < 0 then msecsPerDay - ms < 2147483648 else mds + ms < 2147483648

instance (mds ms : Int) : Decidable (Sums mds ms) := inferInstanceAs (Decidable (ite _ _ _))

theorem sums_neg {mds ms : Int} (h : ms < 0) : Sums mds ms ↔ 86400000 - ms < 2147483648 :=
  iff_of_eq (if_pos h)

theorem sums_nonneg {mds ms : Int} (h : ¬ms < 0) : Sums mds ms ↔ mds + ms < 2147483648 :=
  iff_of_eq (if_neg h)

variable {t : Int}

theorem validTime_iff : isValidTime t = true ↔ 0 ≤ t ∧ t < 86400000 := isValidTime_iff t

theorem ds_eq (ht : isValidTime t = true) : ds t = t := by
  have hbounds := validTime_iff.mp ht
  exact if_neg (by omega)

/-- The days that are added are enough to make the sum positive. -/
theorem addMSecs_neg (ht : isValidTime t = true) {ms : Int} (hms : int ms = some ms)
    (hneg : ms < 0) :
    addMSecs t ms = if Sums t ms then some ((t + ms) % msecsPerDay) else none := by
  have hbounds := validTime_iff.mp ht
  have hint := int_iff.mp hms
  rw [addMSecs, if_pos ht, if_pos hneg, ds_eq ht]
  unfold msecsPerDay
  by_cases hsums : Sums t ms
  · have hfits := (sums_neg hneg).mp hsums
    obtain ⟨d, hd⟩ : ∃ d, d = (86400000 - ms) / 86400000 := ⟨_, rfl⟩
    have hdiv : (86400000 - ms).tdiv 86400000 = d := by
      rw [hd, Int.tdiv_eq_ediv_of_nonneg (by omega)]
    have hmod : (t + ms + d * 86400000) % 86400000 = (t + ms) % 86400000 :=
      Int.add_mul_emod_self_right _ _ _
    rw [if_pos hsums,
      int_bind (by omega) (by omega), hdiv,
      int_bind (by omega) (by omega),
      int_bind (by omega) (by omega),
      int_bind (by omega) (by omega),
      int_bind (by omega) (by omega),
      Int.tmod_eq_emod_of_nonneg (by omega), hmod]
    exact int_of (by omega) (by omega)
  · have hlarge : ¬86400000 - ms < 2147483648 := fun h => hsums ((sums_neg hneg).mpr h)
    rw [if_neg hsums, int_none (by omega)]
    rfl

theorem addMSecs_nonneg (ht : isValidTime t = true) {ms : Int} (hms : int ms = some ms)
    (hpos : ¬ms < 0) :
    addMSecs t ms = if Sums t ms then some ((t + ms) % msecsPerDay) else none := by
  have hbounds := validTime_iff.mp ht
  have hint := int_iff.mp hms
  rw [addMSecs, if_pos ht, if_neg hpos, ds_eq ht]
  unfold msecsPerDay
  by_cases hsums : Sums t ms
  · have hfits := (sums_nonneg hpos).mp hsums
    rw [if_pos hsums, int_bind (by omega) hfits, Int.tmod_eq_emod_of_nonneg (by omega)]
    exact int_of (by omega) (by omega)
  · have hlarge : ¬t + ms < 2147483648 := fun h => hsums ((sums_nonneg hpos).mpr h)
    rw [if_neg hsums, int_none (by omega)]
    rfl

theorem addMSecs_eq (ht : isValidTime t = true) {ms : Int} (hms : int ms = some ms) :
    addMSecs t ms = if Sums t ms then some ((t + ms) % msecsPerDay) else none := by
  by_cases hneg : ms < 0
  · exact addMSecs_neg ht hms hneg
  · exact addMSecs_nonneg ht hms hneg

theorem addSecs_eq (ht : isValidTime t = true) {s : Int} (hs : int s = some s) :
    addSecs t s = some ((t + 1000 * s) % msecsPerDay) := by
  have hbounds := validTime_iff.mp ht
  have hint := int_iff.mp hs
  obtain ⟨r, hr⟩ : ∃ r, r = s.tmod 86400 := ⟨_, rfl⟩
  have hsplit : s.tmod 86400 + 86400 * s.tdiv 86400 = s := Int.tmod_add_mul_tdiv s 86400
  have hrange : -86400 < r ∧ r < 86400 := by
    rw [hr]
    exact ⟨Int.lt_tmod_of_pos s (by decide), Int.tmod_lt_of_pos s (by decide)⟩
  have hsums : Sums t (r * 1000) := by
    unfold Sums msecsPerDay
    split <;> omega
  rw [addSecs, secsPerDay, ← hr, int_bind (by omega) (by omega), int_bind (by omega) (by omega),
    addMSecs_eq ht (int_of (by omega) (by omega)), if_pos hsums, msecsPerDay]
  congr 1
  omega

theorem isValidTime_emod (n : Int) : isValidTime (n % msecsPerDay) = true := by
  rw [validTime_iff, msecsPerDay]
  omega

/-- Milliseconds are added modulo a day unless a sum is too large, seconds always are, and two
times are added as their sum where none of the three is too large. -/
theorem addMSecs_iff (ht : isValidTime t = true) :
    (∀ ms, int ms = some ms →
      (addMSecs t ms = some ((t + ms) % msecsPerDay) ↔ Sums t ms)) ∧
    (∀ s, int s = some s → addSecs t s = some ((t + 1000 * s) % msecsPerDay)) ∧
    ∀ a b, int a = some a → int b = some b → int (a + b) = some (a + b) →
      ((∃ u, addMSecs t (a + b) = some u ∧ (addMSecs t a).bind (addMSecs · b) = some u) ↔
        Sums t a ∧ Sums ((t + a) % msecsPerDay) b ∧ Sums t (a + b)) := by
  refine ⟨fun ms hms => ?_, fun s hs => addSecs_eq ht hs, fun a b ha hb hab => ?_⟩
  · rw [addMSecs_eq ht hms]
    split <;> simp_all
  · have hnext := addMSecs_eq (isValidTime_emod (t + a)) hb
    have hmod : ((t + a) % msecsPerDay + b) % msecsPerDay = (t + (a + b)) % msecsPerDay := by
      rw [Int.emod_add_emod, Int.add_assoc]
    rw [hmod] at hnext
    rw [addMSecs_eq ht ha, addMSecs_eq ht hab]
    by_cases hsum : Sums t a
    · rw [if_pos hsum, Option.bind_some, hnext]
      by_cases hsum' : Sums ((t + a) % msecsPerDay) b
      · by_cases hboth : Sums t (a + b)
        · simp [hsum, hsum', hboth]
        · simp [hboth]
      · simp [hsum']
    · simp [hsum]

/-- A minute before midnight. -/
theorem addMSecs_midnight : isValidTime 86340000 = true ∧
    (addMSecs 86340000 60000 = some 0 ∧ addSecs 86340000 (-86400) = some 86340000) := by
  refine ⟨by decide, ?_⟩
  obtain ⟨hms, hs, -⟩ := addMSecs_iff (t := 86340000) (by decide)
  exact ⟨(hms 60000 (by decide)).mpr (by decide), hs (-86400) (by decide)⟩

/-- A millisecond after midnight, the largest number of milliseconds is too much; at midnight the
smallest one is. -/
theorem addMSecs_overflow : isValidTime 1 = true ∧ int 2147483647 = some 2147483647 ∧
    addMSecs 1 2147483647 = none ∧ addMSecs 0 (-2147483648) = none := by decide

end Libpdk.Time.TimeOfDay
