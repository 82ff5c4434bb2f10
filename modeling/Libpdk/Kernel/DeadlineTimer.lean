import Libpdk.Kernel.TimerInfoList
import Libpdk.Time.Calendar

/-!
# Deadlines

A `DeadlineTimer` holds seconds and nanoseconds or, where `inT2` is false, nanoseconds alone; the
current time is given from outside. `none` is an overflow. After every chain of calls that are
`Right` a deadline is the exact instant and is compared as such (`deadlines_exact`). With seconds,
a call that reaches a whole second is not right: the carry tests for more than a second, and a
negative number of whole seconds is split into one second less and a whole second of nanoseconds.
-/
namespace Libpdk.Kernel

open Time (int64)

/-- mirrors kernel/DeadlineTimer.h:235-238 -/
structure DeadlineTimer where
  t1 : Int
  t2 : Nat
  type : TimerType
  deriving DecidableEq

namespace DeadlineTimer

/-! ## The source -/

/-- `std::numeric_limits<pdk::pint64>::max()` -/
abbrev maxInt64 : Int := 9223372036854775807

/-- mirrors kernel/DeadlineTimer.h:35-39 -/
def start (type : TimerType) : DeadlineTimer := ⟨0, 0, type⟩

/-- mirrors kernel/DeadlineTimer.h:41-45 -/
def forever (type : TimerType) : DeadlineTimer := ⟨maxInt64, 0, type⟩

def isForever (d : DeadlineTimer) : Bool := d.t1 == maxInt64

/-- mirrors kernel/DeadlineTimer.cpp:25-34 -/
def toSecsAndNSecs (nsecs : Int) : Option (Int × Int) := do
  let secs := nsecs.tdiv 1000000000
  let secs := if nsecs < 0 then secs - 1 else secs
  let whole ← int64 (secs * 1000000000)
  let nsecs ← int64 (nsecs - whole)
  some (secs, nsecs)

/-- Nanoseconds are added in 32 bits without a sign.
mirrors kernel/DeadlineTimer.cpp:64-67 and 159-163 -/
def carry (t1 : Int) (t2 : Nat) (nsecs : Int) (type : TimerType) : Option DeadlineTimer := do
  let t2 := ((t2 + nsecs) % 2 ^ 32).toNat
  if t2 > 1000000000 then some ⟨← int64 (t1 + 1), t2 - 1000000000, type⟩ else some ⟨t1, t2, type⟩

/-- mirrors kernel/DeadlineTimer.cpp:53-72 -/
def setPreciseRemainingTime (inT2 : Bool) (now : TimerType → DeadlineTimer) (secs nsecs : Int)
    (type : TimerType) : Option DeadlineTimer :=
  if secs = -1 then some (forever type)
  else if inT2 then do
    let (s, n) ← toSecsAndNSecs nsecs
    let sum ← int64 (secs + s)
    carry (← int64 ((now type).t1 + sum)) (now type).t2 n (now type).type
  else do
    let product ← int64 (secs * 1000000000)
    let sum ← int64 (product + nsecs)
    some { now type with t1 := ← int64 ((now type).t1 + sum) }

/-- mirrors kernel/DeadlineTimer.cpp:139-151 -/
def setPreciseDeadline (inT2 : Bool) (d : DeadlineTimer) (secs nsecs : Int) (type : TimerType) :
    Option DeadlineTimer :=
  if secs = maxInt64 ∨ nsecs = maxInt64 then some (forever type)
  else if inT2 then do
    let (s, n) ← toSecsAndNSecs nsecs
    some ⟨← int64 (secs + s), (n % 2 ^ 32).toNat, type⟩
  else do
    let product ← int64 (secs * 1000000000)
    some ⟨← int64 (product + nsecs), d.t2, type⟩

/-- mirrors kernel/DeadlineTimer.cpp:153-168 -/
def addNSecs (inT2 : Bool) (d : DeadlineTimer) (nsecs : Int) : Option DeadlineTimer :=
  if d.isForever ∨ nsecs = maxInt64 then some (forever d.type)
  else if inT2 then do
    let (s, n) ← toSecsAndNSecs nsecs
    carry (← int64 (d.t1 + s)) d.t2 n d.type
  else do
    some { d with t1 := ← int64 (d.t1 + nsecs) }

/-- `operator+`
mirrors kernel/DeadlineTimer.h:115-118 -/
def plus (inT2 : Bool) (d : DeadlineTimer) (msecs : Int) : Option DeadlineTimer := do
  d.addNSecs inT2 (← int64 (msecs * 1000000))

/-- `operator-`
mirrors kernel/DeadlineTimer.h:125-128 -/
def minus (inT2 : Bool) (d : DeadlineTimer) (msecs : Int) : Option DeadlineTimer := do
  d.plus inT2 (← int64 (-msecs))

/-- `operator==` -/
def eq (lhs rhs : DeadlineTimer) : Bool := lhs.t1 == rhs.t1 && lhs.t2 == rhs.t2

/-- `operator<` -/
def lt (lhs rhs : DeadlineTimer) : Bool := lhs.t1 < rhs.t1 || (lhs.t1 == rhs.t1 && lhs.t2 < rhs.t2)

/-- `operator<=` -/
def le (lhs rhs : DeadlineTimer) : Bool := lhs.eq rhs || lhs.lt rhs

/-- mirrors kernel/DeadlineTimer.cpp:74-80 -/
def hasExpired (now : TimerType → DeadlineTimer) (d : DeadlineTimer) : Bool :=
  !d.isForever && d.le (now d.type)

/-- mirrors kernel/DeadlineTimer.cpp:102-109 -/
def rawRemainingTimeNSecs (inT2 : Bool) (now : TimerType → DeadlineTimer) (d : DeadlineTimer) :
    Option Int := do
  let difference ← int64 (d.t1 - (now d.type).t1)
  if inT2 then
    let product ← int64 (difference * 1000000000)
    let sum ← int64 (product + d.t2)
    int64 (sum - (now d.type).t2)
  else some difference

/-- mirrors kernel/DeadlineTimer.cpp:93-100 -/
def getRemainingTimeNSecs (inT2 : Bool) (now : TimerType → DeadlineTimer) (d : DeadlineTimer) :
    Option Int :=
  if d.isForever then some (-1)
  else (d.rawRemainingTimeNSecs inT2 now).map fun raw => if raw < 0 then 0 else raw

/-- mirrors kernel/DeadlineTimer.cpp:119-128 -/
def getDeadlineNSecs (inT2 : Bool) (d : DeadlineTimer) : Option Int :=
  if d.isForever then some d.t1
  else if inT2 then do
    let product ← int64 (d.t1 * 1000000000)
    int64 (product + d.t2)
  else some d.t1

inductive Call
  | setPreciseRemainingTime (now : TimerType → DeadlineTimer) (secs nsecs : Int) (type : TimerType)
  | setPreciseDeadline (secs nsecs : Int) (type : TimerType)
  | addNSecs (nsecs : Int)
  | plus (msecs : Int)
  | minus (msecs : Int)

def perform (inT2 : Bool) (d : DeadlineTimer) : Call → Option DeadlineTimer
  | .setPreciseRemainingTime now secs nsecs type => setPreciseRemainingTime inT2 now secs nsecs type
  | .setPreciseDeadline secs nsecs type => d.setPreciseDeadline inT2 secs nsecs type
  | .addNSecs nsecs => d.addNSecs inT2 nsecs
  | .plus msecs => d.plus inT2 msecs
  | .minus msecs => d.minus inT2 msecs

def run (inT2 : Bool) (d : DeadlineTimer) : List Call → Option DeadlineTimer
  | [] => some d
  | call :: calls => (d.perform inT2 call).bind fun d => d.run inT2 calls

/-! ## Instants -/

/-- The instant that a deadline denotes, in nanoseconds. -/
def instant (inT2 : Bool) (d : DeadlineTimer) : Int :=
  if inT2 then d.t1 * 1000000000 + d.t2 else d.t1

/-- A number of 64 bits. -/
def Number (n : Int) : Prop := -9223372036854775808 ≤ n ∧ n ≤ maxInt64

/-- The first field of a deadline; the last number is kept for forever. -/
def Field (n : Int) : Prop := -9223372036854775808 ≤ n ∧ n < maxInt64

/-- An instant that a deadline can denote. -/
def Fits (inT2 : Bool) (x : Int) : Prop := if inT2 then Field (x / 1000000000) else Field x

/-- The deadline is the instant `x`, split as it should be. -/
structure Exactly (inT2 : Bool) (d : DeadlineTimer) (x : Int) : Prop where
  instant : d.instant inT2 = x
  nsecs : d.t2 < 1000000000
  alone : inT2 = false → d.t2 = 0
  fits : Field d.t1

/-- Every clock shows an instant. -/
def Clock (inT2 : Bool) (now : TimerType → DeadlineTimer) : Prop :=
  ∀ type, Exactly inT2 (now type) ((now type).instant inT2)

/-- The exact instant behind a call. -/
def total (inT2 : Bool) (x : Int) : Call → Int
  | .setPreciseRemainingTime now secs nsecs type =>
    (now type).instant inT2 + secs * 1000000000 + nsecs
  | .setPreciseDeadline secs nsecs _ => secs * 1000000000 + nsecs
  | .addNSecs nsecs => x + nsecs
  | .plus msecs => x + msecs * 1000000
  | .minus msecs => x - msecs * 1000000

def totals (inT2 : Bool) (x : Int) (calls : List Call) : Int := calls.foldl (total inT2) x

/-- The amounts are numbers of 64 bits that do not stand for forever, and the total fits. -/
def Allowed (inT2 : Bool) (x : Int) (call : Call) : Prop :=
  Fits inT2 (total inT2 x call) ∧
    match call with
    | .setPreciseRemainingTime now secs nsecs _ =>
      Clock inT2 now ∧ secs ≠ -1 ∧ Number secs ∧ Number nsecs
    | .setPreciseDeadline secs nsecs _ => Field secs ∧ Field nsecs
    | .addNSecs nsecs => Field nsecs
    | .plus msecs => Number msecs
    | .minus msecs => Number msecs

/-- The seconds of a number of nanoseconds, one less for a negative number. -/
def seconds (nsecs : Int) : Int :=
  if nsecs < 0 then nsecs.tdiv 1000000000 - 1 else nsecs.tdiv 1000000000

/-- An amount is added to the seconds and the nanoseconds of an instant: nothing overflows on the
way, and a whole second is reached only from a whole second, forwards. -/
def RightSum (x secs nsecs : Int) : Prop :=
  -9223372036000000000 < nsecs ∧ Number (secs + seconds nsecs) ∧
    -9223372036854775808 ≤ x / 1000000000 + (secs + seconds nsecs) ∧
      ((x + nsecs) % 1000000000 = 0 → x % 1000000000 = 0 ∧ 0 ≤ nsecs)

/-- The condition under which a call is right. -/
def Right (inT2 : Bool) (x : Int) : Call → Prop
  | .setPreciseRemainingTime now secs nsecs type =>
    if inT2 then RightSum ((now type).instant true) secs nsecs
    else Number (secs * 1000000000) ∧ Number (secs * 1000000000 + nsecs)
  | .setPreciseDeadline secs nsecs _ =>
    if inT2 then RightSum 0 secs nsecs else Number (secs * 1000000000)
  | .addNSecs nsecs => inT2 → RightSum x 0 nsecs
  | .plus msecs => Number (msecs * 1000000) ∧ (inT2 → RightSum x 0 (msecs * 1000000))
  | .minus msecs =>
    Number (-msecs) ∧ Number (-msecs * 1000000) ∧ (inT2 → RightSum x 0 (-msecs * 1000000))

/-- Every call of a chain is allowed and right. -/
def Good (inT2 : Bool) : Int → List Call → Prop
  | _, [] => True
  | x, call :: calls =>
    Allowed inT2 x call ∧ Right inT2 x call ∧ Good inT2 (total inT2 x call) calls

/-- The nanoseconds between two instants can be computed in 64 bits. -/
def Near (inT2 : Bool) (x y : Int) : Prop :=
  Number (x - y) ∧ (inT2 → Number ((x / 1000000000 - y / 1000000000) * 1000000000) ∧
    Number ((x / 1000000000 - y / 1000000000) * 1000000000 + x % 1000000000))

/-! ## Sums -/

variable {inT2 : Bool} {d : DeadlineTimer} {x : Int}

theorem Exactly.split (h : Exactly true d x) :
    d.t1 = x / 1000000000 ∧ (d.t2 : Int) = x % 1000000000 := by
  have hx : d.t1 * 1000000000 + d.t2 = x := h.instant
  have ht2 := h.nsecs
  omega

theorem Exactly.not_forever (h : Exactly inT2 d x) : d.isForever = false := by
  have hne : d.t1 ≠ maxInt64 := ne_of_lt h.fits.2
  simpa [isForever] using hne

theorem seconds_eq (nsecs : Int) :
    seconds nsecs = if nsecs < 0 then -(-nsecs / 1000000000) - 1 else nsecs / 1000000000 := by
  unfold seconds
  split
  · rw [← Int.tdiv_eq_ediv_of_nonneg (by omega), Int.neg_tdiv, Int.neg_neg]
  · exact Int.tdiv_eq_ediv_of_nonneg (by omega)

/-- What is left of an amount after its seconds is at most a second, and a whole second only for a
negative amount. -/
theorem toSecsAndNSecs_eq {nsecs : Int} (h : Number nsecs) (hlow : -9223372036000000000 < nsecs) :
    ∃ n, toSecsAndNSecs nsecs = some (seconds nsecs, n) ∧
      seconds nsecs * 1000000000 + n = nsecs ∧ 0 ≤ n ∧ n ≤ 1000000000 ∧
        (n = 1000000000 → nsecs < 0) := by
  obtain ⟨hlo, hhi⟩ := h
  have hseconds := seconds_eq nsecs
  refine ⟨nsecs - seconds nsecs * 1000000000, ?_, ?_⟩
  · show (do
      let whole ← int64 (seconds nsecs * 1000000000)
      let nsecs' ← int64 (nsecs - whole)
      some (seconds nsecs, nsecs')) = _
    rw [Time.int64_bind (by grind) (by grind), Time.int64_bind (by grind) (by grind)]
  · split at hseconds <;> omega

/-- The carry keeps the sum exact where no whole second is reached by it. -/
theorem carry_eq (t1 : Int) {n x : Int} {t2 : Nat} (type : TimerType) (ht2 : t2 < 1000000000)
    (hn : 0 ≤ n) (hn' : n ≤ 1000000000) (hx : t1 * 1000000000 + t2 + n = x)
    (hlow : -9223372036854775808 ≤ t1) (hfits : Fits true x) (hright : t2 + n ≠ 1000000000) :
    ∃ d, carry t1 t2 n type = some d ∧ Exactly true d x := by
  have hhigh : x / 1000000000 < 9223372036854775807 := hfits.2
  have hmod : ((t2 + n) % 2 ^ 32).toNat = (t2 + n).toNat := by omega
  unfold carry
  rw [hmod]
  simp only
  by_cases hgt : (t2 + n).toNat > 1000000000
  · rw [if_pos hgt, Time.int64_bind (by omega) (by omega)]
    refine ⟨_, rfl, ?_, ?_, nofun, ?_, ?_⟩
    all_goals simp only [instant, if_true, maxInt64]; omega
  · rw [if_neg hgt]
    refine ⟨_, rfl, ?_, ?_, nofun, ?_, ?_⟩
    all_goals simp only [instant, if_true, maxInt64]; omega

/-- An amount is added to an instant in seconds. -/
theorem add_seconds (secs : Int) {nsecs y : Int} (type : TimerType) (h : Exactly true d y)
    (hn : Number nsecs) (hright : RightSum y secs nsecs)
    (hfits : Fits true (y + secs * 1000000000 + nsecs)) :
    ∃ n d', toSecsAndNSecs nsecs = some (seconds nsecs, n) ∧
      (int64 (d.t1 + (secs + seconds nsecs))).bind (fun t1 => carry t1 d.t2 n type) = some d' ∧
        Exactly true d' (y + secs * 1000000000 + nsecs) := by
  obtain ⟨hlow, hnumber, hpartial, hwhole⟩ := hright
  obtain ⟨hquot, hrem⟩ := h.split
  obtain ⟨n, hsplit, hn', hnonneg, hle, hsecond⟩ := toSecsAndNSecs_eq hn hlow
  have hd := h.nsecs
  have hhigh : (y + secs * 1000000000 + nsecs) / 1000000000 < 9223372036854775807 := hfits.2
  obtain ⟨d', hcarry, hexact⟩ := carry_eq (d.t1 + (secs + seconds nsecs)) type hd hnonneg
    hle (x := y + secs * 1000000000 + nsecs) (by omega) (by omega) hfits (by omega)
  refine ⟨n, d', hsplit, ?_, hexact⟩
  rw [Time.int64_of (by omega) (by omega), Option.bind_some]
  exact hcarry

/-! ## Calls -/

theorem addNSecs_exact {nsecs : Int} (h : Exactly inT2 d x) (hn : Field nsecs)
    (hfits : Fits inT2 (x + nsecs)) (hright : inT2 → RightSum x 0 nsecs) :
    ∃ d', d.addNSecs inT2 nsecs = some d' ∧ Exactly inT2 d' (x + nsecs) := by
  have hmax : ¬ (d.isForever = true ∨ nsecs = maxInt64) := by
    rw [h.not_forever]
    exact fun hc => hc.elim Bool.false_ne_true fun hn' => absurd hn.2 (by rw [hn']; decide)
  unfold addNSecs
  rw [if_neg hmax]
  cases inT2 with
  | true =>
    have hsum : x + 0 * 1000000000 + nsecs = x + nsecs := by omega
    obtain ⟨n, d', hsplit, hcarry, hexact⟩ := add_seconds 0 d.type h
      ⟨hn.1, hn.2.le⟩ (hright rfl) (hsum.symm ▸ hfits)
    refine ⟨d', ?_, hsum ▸ hexact⟩
    simp only [if_true, hsplit, Option.bind_eq_bind, Option.bind_some]
    rwa [Int.zero_add] at hcarry
  | false =>
    have hx : d.t1 = x := h.instant
    obtain ⟨hlo, hhi⟩ : Field (x + nsecs) := hfits
    unfold maxInt64 at hhi
    refine ⟨{ d with t1 := d.t1 + nsecs }, ?_, ?_, h.nsecs, h.alone, ?_⟩
    · rw [if_neg (by simp), Time.int64_bind (by omega) (by omega)]
    · simp only [instant, Bool.false_eq_true, if_false]
      omega
    · exact hx ▸ ⟨hlo, hhi⟩

theorem plus_exact {msecs : Int} (h : Exactly inT2 d x) (hfits : Fits inT2 (x + msecs * 1000000))
    (hn : Number (msecs * 1000000)) (hright : inT2 → RightSum x 0 (msecs * 1000000)) :
    ∃ d', d.plus inT2 msecs = some d' ∧ Exactly inT2 d' (x + msecs * 1000000) := by
  obtain ⟨hlo, hhi⟩ := hn
  unfold maxInt64 at hhi
  have hfield : Field (msecs * 1000000) := ⟨hlo, by unfold maxInt64; omega⟩
  obtain ⟨d', hd', hexact⟩ := addNSecs_exact h hfield hfits hright
  exact ⟨d', by rw [plus, Time.int64_bind (by omega) (by omega), hd'], hexact⟩

theorem setPreciseRemainingTime_exact {now : TimerType → DeadlineTimer} {secs nsecs : Int}
    {type : TimerType} (hclock : Clock inT2 now) (hsecs : secs ≠ -1) (hn : Number nsecs)
    (hfits : Fits inT2 (total inT2 x (.setPreciseRemainingTime now secs nsecs type)))
    (hright : Right inT2 x (.setPreciseRemainingTime now secs nsecs type)) :
    ∃ d', setPreciseRemainingTime inT2 now secs nsecs type = some d' ∧
      Exactly inT2 d' (total inT2 x (.setPreciseRemainingTime now secs nsecs type)) := by
  have hnow := hclock type
  unfold setPreciseRemainingTime
  rw [if_neg hsecs]
  cases inT2 with
  | true =>
    have hsum : RightSum ((now type).instant true) secs nsecs := hright
    obtain ⟨n, d', hsplit, hcarry, hexact⟩ := add_seconds secs (now type).type hnow hn hsum hfits
    obtain ⟨-, hnumber, -, -⟩ := hsum
    refine ⟨d', ?_, hexact⟩
    simp only [if_true, hsplit, Option.bind_eq_bind, Option.bind_some,
      Time.int64_of hnumber.1 (Int.lt_add_one_of_le hnumber.2)]
    exact hcarry
  | false =>
    obtain ⟨⟨hplo, hphi⟩, hslo, hshi⟩ :
      Number (secs * 1000000000) ∧ Number (secs * 1000000000 + nsecs) := hright
    have hx : (now type).instant false = (now type).t1 := rfl
    obtain ⟨hlo, hhi⟩ : Field ((now type).instant false + secs * 1000000000 + nsecs) := hfits
    unfold maxInt64 at *
    refine ⟨{ now type with t1 := (now type).t1 + (secs * 1000000000 + nsecs) }, ?_, ?_,
      hnow.nsecs, hnow.alone, ?_⟩
    · rw [if_neg (by simp), Time.int64_bind (by omega) (by omega),
        Time.int64_bind (by omega) (by omega), Time.int64_bind (by omega) (by omega)]
    · simp only [instant, total, Bool.false_eq_true, if_false]
      omega
    · simp only [Field, maxInt64]
      omega

theorem setPreciseDeadline_exact {secs nsecs : Int} {type : TimerType} (h : Exactly inT2 d x)
    (hsecs : Field secs) (hn : Field nsecs)
    (hfits : Fits inT2 (secs * 1000000000 + nsecs))
    (hright : Right inT2 x (.setPreciseDeadline secs nsecs type)) :
    ∃ d', d.setPreciseDeadline inT2 secs nsecs type = some d' ∧
      Exactly inT2 d' (secs * 1000000000 + nsecs) := by
  obtain ⟨hnlo, hnhi⟩ := hn
  unfold setPreciseDeadline
  rw [if_neg (fun hc => hc.elim (ne_of_lt hsecs.2) (ne_of_lt hnhi))]
  cases inT2 with
  | true =>
    obtain ⟨hlow, ⟨hslo, hshi⟩, -, hwhole⟩ : RightSum 0 secs nsecs := hright
    obtain ⟨n, hsplit, hsum, hnonneg, hle, hsecond⟩ := toSecsAndNSecs_eq ⟨hnlo, hnhi.le⟩ hlow
    have hhi : (secs * 1000000000 + nsecs) / 1000000000 < 9223372036854775807 := hfits.2
    unfold maxInt64 at *
    have hmod : (n % 2 ^ 32).toNat = n.toNat := by omega
    refine ⟨⟨secs + seconds nsecs, n.toNat, type⟩, ?_, ?_, ?_, nofun, hslo, ?_⟩
    · simp only [if_true, hsplit, Option.bind_eq_bind, Option.bind_some, hmod,
        Time.int64_of hslo (Int.lt_add_one_of_le hshi)]
    all_goals simp only [instant, if_true, maxInt64]; omega
  | false =>
    obtain ⟨hplo, hphi⟩ : Number (secs * 1000000000) := hright
    obtain ⟨hlo, hhi⟩ : Field (secs * 1000000000 + nsecs) := hfits
    unfold maxInt64 at *
    refine ⟨⟨secs * 1000000000 + nsecs, d.t2, type⟩, ?_, ?_, h.nsecs, h.alone, hlo, hhi⟩
    · rw [if_neg (by simp), Time.int64_bind (by omega) (by omega),
        Time.int64_bind (by omega) (by omega)]
    · simp only [instant, Bool.false_eq_true, if_false]

/-- One call that is right reaches the exact instant. -/
theorem perform_exact {call : Call} (h : Exactly inT2 d x) (hallowed : Allowed inT2 x call)
    (hright : Right inT2 x call) :
    ∃ d', d.perform inT2 call = some d' ∧ Exactly inT2 d' (total inT2 x call) := by
  obtain ⟨hfits, hamounts⟩ := hallowed
  cases call with
  | setPreciseRemainingTime now secs nsecs type =>
    obtain ⟨hclock, hsecs, -, hn⟩ := hamounts
    exact setPreciseRemainingTime_exact hclock hsecs hn hfits hright
  | setPreciseDeadline secs nsecs type =>
    exact setPreciseDeadline_exact h hamounts.1 hamounts.2 hfits hright
  | addNSecs nsecs => exact addNSecs_exact h hamounts hfits hright
  | plus msecs => exact plus_exact h hfits hright.1 hright.2
  | minus msecs =>
    obtain ⟨⟨hlo, hhi⟩, hn, hsum⟩ := hright
    have hneg : total inT2 x (.minus msecs) = x + -msecs * 1000000 := by
      simp only [total]
      omega
    rw [hneg] at hfits ⊢
    obtain ⟨d', hd', hexact⟩ := plus_exact h hfits hn hsum
    unfold maxInt64 at hhi
    refine ⟨d', ?_, hexact⟩
    show d.minus inT2 msecs = _
    rw [minus, Time.int64_bind (by omega) (by omega), hd']

/-- And so does a chain of calls. -/
theorem run_exact : ∀ {calls : List Call} {d : DeadlineTimer} {x : Int}, Exactly inT2 d x →
    Good inT2 x calls →
      ∃ d', d.run inT2 calls = some d' ∧ Exactly inT2 d' (totals inT2 x calls)
  | [], d, x, h, _ => ⟨d, rfl, h⟩
  | call :: calls, d, x, h, ⟨hallowed, hright, hgood⟩ => by
    obtain ⟨d₁, hcall, h₁⟩ := perform_exact h hallowed hright
    obtain ⟨d₂, hrun, h₂⟩ := run_exact h₁ hgood
    exact ⟨d₂, by rw [run, hcall, Option.bind_some, hrun], h₂⟩

/-! ## Comparisons -/

section Comparisons

variable {e : DeadlineTimer} {y : Int}

theorem eq_iff (h : Exactly inT2 d x) (he : Exactly inT2 e y) : d.eq e ↔ x = y := by
  rw [eq, Bool.and_eq_true, beq_iff_eq, beq_iff_eq]
  cases inT2 with
  | true =>
    obtain ⟨hd, hd'⟩ := h.split
    obtain ⟨he, he'⟩ := he.split
    omega
  | false =>
    have hx : d.t1 = x := h.instant
    have hy : e.t1 = y := he.instant
    rw [h.alone rfl, he.alone rfl, hx, hy]
    simp

theorem lt_iff (h : Exactly inT2 d x) (he : Exactly inT2 e y) : d.lt e ↔ x < y := by
  rw [lt, Bool.or_eq_true, Bool.and_eq_true, beq_iff_eq, decide_eq_true_iff, decide_eq_true_iff]
  cases inT2 with
  | true =>
    obtain ⟨hd, hd'⟩ := h.split
    obtain ⟨he, he'⟩ := he.split
    omega
  | false =>
    have hx : d.t1 = x := h.instant
    have hy : e.t1 = y := he.instant
    rw [h.alone rfl, he.alone rfl, hx, hy]
    simp

theorem le_iff (h : Exactly inT2 d x) (he : Exactly inT2 e y) : d.le e ↔ x ≤ y := by
  rw [le, Bool.or_eq_true, eq_iff h he, lt_iff h he]
  omega

theorem hasExpired_iff {now : TimerType → DeadlineTimer} (h : Exactly inT2 d x)
    (hclock : Clock inT2 now) : d.hasExpired now ↔ x ≤ (now d.type).instant inT2 := by
  rw [hasExpired, h.not_forever, ← le_iff h (hclock d.type)]
  simp

theorem rawRemainingTimeNSecs_eq {now : TimerType → DeadlineTimer} (h : Exactly inT2 d x)
    (hclock : Clock inT2 now) (hnear : Near inT2 x ((now d.type).instant inT2)) :
    d.rawRemainingTimeNSecs inT2 now = some (x - (now d.type).instant inT2) := by
  have hnow := hclock d.type
  obtain ⟨⟨hlo, hhi⟩, hparts⟩ := hnear
  unfold rawRemainingTimeNSecs
  cases inT2 with
  | true =>
    obtain ⟨⟨hplo, hphi⟩, hslo, hshi⟩ := hparts rfl
    obtain ⟨hd, hd'⟩ := h.split
    obtain ⟨he, he'⟩ := hnow.split
    unfold maxInt64 at *
    rw [Time.int64_bind (by omega) (by omega), if_pos rfl, Time.int64_bind (by omega) (by omega),
      Time.int64_bind (by omega) (by omega), Time.int64_of (by omega) (by omega)]
    exact congrArg some (by omega)
  | false =>
    have hx : d.t1 = x := h.instant
    have hy : (now d.type).t1 = (now d.type).instant false := rfl
    unfold maxInt64 at *
    rw [Time.int64_bind (by omega) (by omega), if_neg (by simp), hx, hy]

theorem getRemainingTimeNSecs_eq {now : TimerType → DeadlineTimer} (h : Exactly inT2 d x)
    (hclock : Clock inT2 now) (hnear : Near inT2 x ((now d.type).instant inT2)) :
    d.getRemainingTimeNSecs inT2 now = some (max 0 (x - (now d.type).instant inT2)) := by
  rw [getRemainingTimeNSecs, h.not_forever, rawRemainingTimeNSecs_eq h hclock hnear]
  simp only [Bool.false_eq_true, if_false, Option.map_some, Option.some.injEq]
  split <;> omega

theorem getDeadlineNSecs_eq (h : Exactly inT2 d x) (hnear : Near inT2 x 0) :
    d.getDeadlineNSecs inT2 = some x := by
  obtain ⟨⟨hlo, hhi⟩, hparts⟩ := hnear
  rw [getDeadlineNSecs, h.not_forever]
  cases inT2 with
  | true =>
    obtain ⟨⟨hplo, hphi⟩, -⟩ := hparts rfl
    obtain ⟨hd, hd'⟩ := h.split
    unfold maxInt64 at *
    rw [if_neg (by simp), if_pos rfl, Time.int64_bind (by omega) (by omega),
      Time.int64_of (by omega) (by omega)]
    exact congrArg some (by omega)
  | false => exact congrArg some h.instant

end Comparisons

/-- After a chain of right calls a deadline is the exact instant, and is compared as such. -/
theorem deadlines_exact (inT2 : Bool) (type : TimerType) (calls : List Call)
    (hgood : Good inT2 0 calls) :
    ∃ d, (start type).run inT2 calls = some d ∧ d.instant inT2 = totals inT2 0 calls ∧
      d.t2 < 1000000000 ∧
      (Near inT2 (totals inT2 0 calls) 0 → d.getDeadlineNSecs inT2 = totals inT2 0 calls) ∧
      (∀ now, Clock inT2 now →
        (d.hasExpired now ↔ totals inT2 0 calls ≤ (now d.type).instant inT2) ∧
        (Near inT2 (totals inT2 0 calls) ((now d.type).instant inT2) →
          ∃ r, d.getRemainingTimeNSecs inT2 now = some r ∧ (d.hasExpired now ↔ r = 0))) ∧
      ∀ type' calls', Good inT2 0 calls' → ∃ e, (start type').run inT2 calls' = some e ∧
        (d.eq e ↔ totals inT2 0 calls = totals inT2 0 calls') ∧
        (d.lt e ↔ totals inT2 0 calls < totals inT2 0 calls') ∧
        (d.le e ↔ totals inT2 0 calls ≤ totals inT2 0 calls') := by
  have hstart (type : TimerType) : Exactly inT2 (start type) 0 :=
    ⟨by cases inT2 <;> rfl, Nat.succ_pos _, fun _ => rfl, by simp [start, Field, maxInt64]⟩
  obtain ⟨d, hrun, hd⟩ := run_exact (hstart type) hgood
  refine ⟨d, hrun, hd.instant, hd.nsecs, getDeadlineNSecs_eq hd, ?_, ?_⟩
  · intro now hclock
    refine ⟨hasExpired_iff hd hclock, fun hnear =>
      ⟨_, getRemainingTimeNSecs_eq hd hclock hnear, ?_⟩⟩
    rw [hasExpired_iff hd hclock]
    omega
  · intro type' calls' hgood'
    obtain ⟨e, hrun', he⟩ := run_exact (hstart type') hgood'
    exact ⟨e, hrun', eq_iff hd he, lt_iff hd he, le_iff hd he⟩

theorem deadlines_exact_half_seconds :
    ∃ d, (start .precise).run true [.setPreciseDeadline 5 700000000 .precise, .plus 500,
      .addNSecs (-1400000000)] = some d ∧ d.instant true = 4800000000 ∧ d.t2 < 1000000000 := by
  obtain ⟨d, hrun, hd, ht2, -⟩ := deadlines_exact true .precise
    [.setPreciseDeadline 5 700000000 .precise, .plus 500, .addNSecs (-1400000000)]
    (by simp [Good, Allowed, Right, RightSum, Fits, Field, Number, total, seconds, maxInt64])
  exact ⟨d, hrun, hd, ht2⟩

/-- A second is taken from the instant 0 and a whole second of nanoseconds is left behind. -/
theorem second_behind_zero :
    ∃ d e, Allowed true 0 (.addNSecs (-1000000000)) ∧
      Allowed true 0 (.setPreciseDeadline (-1) 0 .precise) ∧
      totals true 0 [.addNSecs (-1000000000)] =
        totals true 0 [.setPreciseDeadline (-1) 0 .precise] ∧
      (start .precise).run true [.addNSecs (-1000000000)] = some d ∧
      (start .precise).run true [.setPreciseDeadline (-1) 0 .precise] = some e ∧
      ¬ d.t2 < 1000000000 ∧ ¬ d.eq e := by
  refine ⟨⟨-2, 1000000000, .precise⟩, ⟨-1, 0, .precise⟩, ?_⟩
  simp only [Allowed, Fits, Field, total, maxInt64]
  decide

end DeadlineTimer

end Libpdk.Kernel
