import Mathlib.Tactic.Ring

/-!
# The timer list

The `timespec` operators of kernel/internal/CoreUnixPrivate.h, and
`TimerInfoList` of kernel/_platform/TimerInfoUnix.cpp. Seconds and nanoseconds
are 64-bit numbers of the platform; a clock reading is far from their bounds, so
they are integers here.

The platform's clock is monotonic (`repairTimersIfNeeded` does nothing). The list
holds pointers to timers; a timer is known by its id, which no other timer has.
`m_activateRef` is not null while the event of the timer is being sent.

`timerInsert` may advance an iterator past the end, which the language leaves
undefined. Where it comes to is a parameter, `pastEnd`: the lists of the usual
libraries are circular, and it comes to the first position.
-/
namespace Libpdk.Kernel

structure Timespec where
  sec : Int
  nsec : Int
  deriving DecidableEq, Repr

namespace Timespec

/-- The nanoseconds are less than a second. -/
def Normal (t : Timespec) : Prop := 0 ≤ t.nsec ∧ t.nsec < 1000000000

instance (t : Timespec) : Decidable t.Normal := inferInstanceAs (Decidable (_ ∧ _))

/-- The time in nanoseconds. -/
def nsecs (t : Timespec) : Int := t.sec * 1000000000 + t.nsec

/-- mirrors kernel/internal/CoreUnixPrivate.h:75-86 -/
def normalized (t : Timespec) : Timespec := ⟨t.sec + t.nsec / 1000000000, t.nsec % 1000000000⟩

/-- mirrors kernel/internal/CoreUnixPrivate.h:88-91 -/
instance : LT Timespec := ⟨fun a b => a.sec < b.sec ∨ a.sec = b.sec ∧ a.nsec < b.nsec⟩

theorem lt_def {a b : Timespec} : a < b ↔ a.sec < b.sec ∨ a.sec = b.sec ∧ a.nsec < b.nsec := Iff.rfl

instance : DecidableLT Timespec := fun a b =>
  inferInstanceAs (Decidable (a.sec < b.sec ∨ a.sec = b.sec ∧ a.nsec < b.nsec))

/-- mirrors kernel/internal/CoreUnixPrivate.h:118-124 -/
instance : Sub Timespec :=
  ⟨fun a b => normalized ⟨a.sec - (b.sec - 1), a.nsec - (b.nsec + 1000000000)⟩⟩

/-- mirrors kernel/_platform/TimerInfoUnix.cpp:162-173 -/
def addMsecs (t : Timespec) (ms : Int) : Timespec :=
  normalized ⟨t.sec + ms.tdiv 1000, t.nsec + ms.tmod 1000 * 1000 * 1000⟩

/-- mirrors kernel/_platform/TimerInfoUnix.cpp:177-184 -/
def roundToMillisecond (t : Timespec) : Timespec :=
  normalized ⟨t.sec, t.nsec + (1000 * 1000 - t.nsec.tmod (1000 * 1000))⟩

/-! ## Order -/

instance : LinearOrder Timespec where
  le a b := ¬ b < a
  lt := (· < ·)
  le_refl a := by
    simp only [lt_def]
    omega
  le_trans a b c := by
    simp only [lt_def]
    omega
  lt_iff_le_not_ge a b := by
    simp only [lt_def]
    omega
  le_antisymm a b := by
    obtain ⟨s, n⟩ := a
    obtain ⟨s', n'⟩ := b
    simp only [lt_def, mk.injEq]
    omega
  le_total a b := by
    simp only [lt_def]
    omega
  toDecidableLE a b := inferInstanceAs (Decidable (¬ b < a))
  toDecidableLT := inferInstance
  toDecidableEq := inferInstance

theorem lt_iff_nsecs {a b : Timespec} (ha : a.Normal) (hb : b.Normal) :
    a < b ↔ a.nsecs < b.nsecs := by
  unfold Normal at ha hb
  unfold nsecs
  rw [lt_def]
  omega

theorem le_iff_nsecs {a b : Timespec} (ha : a.Normal) (hb : b.Normal) :
    a ≤ b ↔ a.nsecs ≤ b.nsecs := by
  rw [← not_lt, lt_iff_nsecs hb ha, not_lt]

/-! ## Normal results -/

theorem normalized_normal (t : Timespec) : (normalized t).Normal := by
  unfold normalized Normal
  simp only
  omega

@[simp] theorem normalized_nsecs (t : Timespec) : (normalized t).nsecs = t.nsecs := by
  unfold normalized nsecs
  simp only
  omega

theorem addMsecs_normal (t : Timespec) (ms : Int) : (t.addMsecs ms).Normal := normalized_normal _

theorem sub_nsecs (a b : Timespec) : (a - b).nsecs = a.nsecs - b.nsecs := by
  change (normalized _).nsecs = _
  rw [normalized_nsecs]
  unfold nsecs
  simp only
  omega

/-- Rounding is always up. -/
theorem lt_roundToMillisecond (t : Timespec) : t.nsecs < t.roundToMillisecond.nsecs := by
  unfold roundToMillisecond
  rw [normalized_nsecs]
  unfold nsecs
  simp only
  have := Int.tmod_lt_of_pos t.nsec (b := 1000 * 1000) (by omega)
  omega

end Timespec

/-! ## Timers -/

/-- mirrors global/EnumDefs.h:36-41 -/
inductive TimerType
  | precise | coarse | veryCoarse
  deriving DecidableEq, Repr

/-- The interval is in seconds for a very coarse timer.
mirrors kernel/internal/TimerInfoUnixPrivate.h:29-36 -/
structure TimerInfo where
  id : Nat
  interval : Nat
  timerType : TimerType
  timeout : Timespec
  obj : Nat
  active : Bool
  deriving DecidableEq, Repr

/-! ## Timeouts -/

/-- The boundaries that a timer of at least 100 ms goes to.
mirrors kernel/_platform/TimerInfoUnix.cpp:249-274 -/
def wantedBoundaryMultiple (interval : Nat) : Nat :=
  if interval % 500 = 0 then 500
  else if interval % 50 = 0 then
    let mult50 := interval / 50
    if mult50 % 4 = 0 then 200
    else if mult50 % 2 = 0 then 100
    else if mult50 % 5 = 0 then 250
    else 50
  else 25

/-- The millisecond that a coarse timeout goes to; 1000 is the next second.
mirrors kernel/_platform/TimerInfoUnix.cpp:204-283 -/
def coarseMsec (interval msec : Nat) : Nat :=
  let absMaxRounding := interval / 20
  if interval < 100 ∧ interval ≠ 25 ∧ interval ≠ 50 ∧ interval ≠ 75 then
    if interval < 50 then ((msec >>> 1) ||| (decide (25 ≤ msec % 50)).toNat) <<< 1
    else ((msec >>> 2) ||| (decide (50 ≤ msec % 100)).toNat) <<< 2
  else
    let min := msec - absMaxRounding
    let max := Nat.min 1000 (msec + absMaxRounding)
    if min = 0 then 0
    else if max = 1000 then 1000
    else if interval % 500 = 0 ∧ 5000 ≤ interval then
      if 500 ≤ msec then max else min
    else
      let multiple := wantedBoundaryMultiple interval
      let base := msec / multiple * multiple
      let middlepoint := base + multiple / 2
      if msec < middlepoint then Nat.max base min else Nat.min (base + multiple) max

/-- mirrors kernel/_platform/TimerInfoUnix.cpp:186-295 -/
def calculateCoarseTimerTimeout (t : TimerInfo) (currentTime : Timespec) : TimerInfo :=
  let msec := coarseMsec t.interval (t.timeout.nsec.toNat / 1000 / 1000)
  let timeout : Timespec :=
    if msec = 1000 then ⟨t.timeout.sec + 1, 0⟩ else ⟨t.timeout.sec, (msec * 1000 * 1000 : Nat)⟩
  { t with timeout := if timeout < currentTime then timeout.addMsecs t.interval else timeout }

/-- mirrors kernel/_platform/TimerInfoUnix.cpp:297-339 -/
def calculateNextTimeout (t : TimerInfo) (currentTime : Timespec) : TimerInfo :=
  match t.timerType with
  | .precise | .coarse =>
    let timeout := t.timeout.addMsecs t.interval
    let t := { t with
      timeout := if timeout < currentTime then currentTime.addMsecs t.interval else timeout }
    if t.timerType = .coarse then calculateCoarseTimerTimeout t currentTime else t
  | .veryCoarse =>
    let sec := t.timeout.sec + t.interval
    { t with timeout :=
        ⟨if sec ≤ currentTime.sec then currentTime.sec + t.interval else sec, t.timeout.nsec⟩ }

/-- mirrors kernel/_platform/TimerInfoUnix.cpp:430-443 -/
def veryCoarseTimer (id interval obj : Nat) (currentTime : Timespec) : TimerInfo :=
  let interval := (interval / 500 + 1) >>> 1
  let sec := currentTime.sec + interval
  ⟨id, interval, .veryCoarse, ⟨if 500 * 1000 * 1000 < currentTime.nsec then sec + 1 else sec, 0⟩,
    obj, false⟩

/-- The timer that `registerTimer` makes.
mirrors kernel/_platform/TimerInfoUnix.cpp:396-443 -/
def newTimer (id interval : Nat) (timerType : TimerType) (obj : Nat) (currentTime : Timespec) :
    TimerInfo :=
  let expected := currentTime.addMsecs interval
  match timerType with
  | .precise => ⟨id, interval, .precise, expected, obj, false⟩
  | .coarse =>
    if 20000 ≤ interval then veryCoarseTimer id interval obj currentTime
    else if interval ≤ 20 then ⟨id, interval, .precise, expected, obj, false⟩
    else calculateCoarseTimerTimeout ⟨id, interval, .coarse, expected, obj, false⟩ currentTime
  | .veryCoarse => veryCoarseTimer id interval obj currentTime

/-! ## The list -/

/-- The walk starts at the front and ends at the first timer that is not due
later; the new timer goes behind it.
mirrors kernel/_platform/TimerInfoUnix.cpp:147-160 -/
def timerInsert (pastEnd : List TimerInfo → Nat) (t : TimerInfo) (l : List TimerInfo) :
    List TimerInfo :=
  let i := l.findIdx fun u => !decide (t.timeout < u.timeout)
  let i := if i < l.length then i + 1 else pastEnd l
  l.take i ++ t :: l.drop i

/-- mirrors kernel/_platform/TimerInfoUnix.cpp:475-498 -/
def unregisterTimer (id : Nat) (l : List TimerInfo) : Bool × List TimerInfo :=
  if l.any (·.id = id) then (true, l.eraseP (·.id = id)) else (false, l)

/-- mirrors kernel/_platform/TimerInfoUnix.cpp:500-524 -/
def unregisterTimers (obj : Nat) (l : List TimerInfo) : Bool × List TimerInfo :=
  if l.isEmpty then (false, l) else (true, l.filter (·.obj ≠ obj))

/-- `none` is the answer false.
mirrors kernel/_platform/TimerInfoUnix.cpp:343-367 -/
def timerWait (currentTime : Timespec) (l : List TimerInfo) : Option Timespec :=
  match l.find? fun t => !t.active with
  | none => none
  | some t =>
    if currentTime < t.timeout then some (t.timeout - currentTime).roundToMillisecond
    else some ⟨0, 0⟩

/-- An event, with the list as its handler finds it. -/
structure Sent where
  timer : TimerInfo
  during : List TimerInfo
  deriving DecidableEq, Repr

def setActive (id : Nat) (active : Bool) (l : List TimerInfo) : List TimerInfo :=
  l.map fun t => if t.id = id then { t with active := active } else t

/-- The loop of `getActivateTimers`, with `maxCount`, `m_firstTimerInfo` and `n_act`.
mirrors kernel/_platform/TimerInfoUnix.cpp:573-625 -/
def fireLoop (pastEnd : List TimerInfo → Nat) (currentTime : Timespec) :
    Nat → Option TimerInfo → Nat → List TimerInfo → Nat × List Sent × List TimerInfo
  | 0, _, nAct, l => (nAct, [], l)
  | _ + 1, _, nAct, [] => (nAct, [], [])
  | maxCount + 1, first, nAct, t :: l =>
    if currentTime < t.timeout then (nAct, [], t :: l)
    else if first.any (·.id = t.id) then (nAct, [], t :: l)
    else
      let first := if first.all (t.interval ≤ ·.interval) then some t else first
      let t := calculateNextTimeout t currentTime
      let l := timerInsert pastEnd t l
      let nAct := if 0 < t.interval then nAct + 1 else nAct
      if t.active then fireLoop pastEnd currentTime maxCount first nAct l
      else
        let l := setActive t.id true l
        let rest := fireLoop pastEnd currentTime maxCount first nAct (setActive t.id false l)
        (rest.1, ⟨t, l⟩ :: rest.2.1, rest.2.2)

/-- mirrors kernel/_platform/TimerInfoUnix.cpp:42 -/
def disableLowpriorityTimers : Bool := false

/-- What is returned, the events sent and the list afterwards.
mirrors kernel/_platform/TimerInfoUnix.cpp:546-628 -/
def getActivateTimers (pastEnd : List TimerInfo → Nat) (currentTime : Timespec)
    (l : List TimerInfo) : Nat × List Sent × List TimerInfo :=
  if disableLowpriorityTimers || l.isEmpty then (0, [], l)
  else
    let maxCount := (l.takeWhile fun t => !decide (currentTime < t.timeout)).length
    fireLoop pastEnd currentTime maxCount none 0 l

end Libpdk.Kernel
