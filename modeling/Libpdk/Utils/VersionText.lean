import Libpdk.Utils.LocaleIntegers
import Libpdk.Utils.VersionOrder

/-!
# Version numbers as text

`fromString` lets `strtoull` find the numbers, which skips blanks, takes a sign, and reads on until
the memory shows it the end. What it returns is compared with the longest version text that the view
begins with (`versionPrefix`); the two agree as long as the last place where a number is looked for
says so (`EndsWell`).
-/
namespace Libpdk.Utils

open Io (Host)
open Numeral

/-! ## The source -/

/-- A view: the memory from its first character on, `none` where it is null, and its size.
mirrors lang/String.h:82-131 -/
structure Latin1String where
  data : Option Bytes
  size : Nat
  fits : size ≤ (data.getD []).length
  int : size < 2 ^ 31

def Latin1String.chars (s : Latin1String) : Bytes := (s.data.getD []).take s.size

namespace VersionNumber

/-- The loop of `fromString`. A pointer is the memory behind it; `size` is how far the end of the
view is, `offset` how far its beginning.
mirrors utils/VersionNumber.cpp:173-187 -/
def fromStringLoop (start : Bytes) (size offset lastGoodEnd : Nat) (seg : List Int32) :
    Option (List Int32 × Nat) := do
  let parsed ← pdkStrtoull start 10
  if !parsed.ok || parsed.value > 2147483647 then some (seg, lastGoodEnd)
  else
    let stop ← parsed.endptr
    let length := start.length - stop.length
    let seg := seg ++ [Int32.ofInt parsed.value]
    if _h : length + 1 < size ∧ stop.head? = some (byte '.') then
      fromStringLoop stop.tail (size - (length + 1)) (offset + length + 1) (offset + length) seg
    else some (seg, offset + length)
termination_by size

/-- With `suffixIndex`. `none` is a read outside of the memory.
mirrors utils/VersionNumber.cpp:173-193 -/
def fromString [Host] (s : Latin1String) : Option (VersionNumber × Int) := do
  let start ← s.data
  let (seg, lastGoodEnd) ← fromStringLoop start s.size 0 0 []
  if h : seg.length < 2 ^ 31 then some (ofVector seg h, (BitVec.ofNat 32 lastGoodEnd).toInt) else none

/-- mirrors lang/String.cpp:3247-3266 -/
def number (n : Int) : Option Str := do
  letI := asciiTables
  LocaleData.c.longLongToString n (-1) 10 (-1) .noFlags

/-- The loop of `toString`, from the given segments on.
mirrors utils/VersionNumber.cpp:147-157 -/
def toStringLoop (version : Str) (first : Bool) : List Int → Option Str
  | [] => some version
  | segment :: segments => do
    let version := if first then version else version ++ [unit '.']
    toStringLoop (version ++ (← number segment)) false segments

/-- `none` is an overflow or a text that a string cannot hold.
mirrors utils/VersionNumber.cpp:144-158 -/
def toString [Host] (v : VersionNumber) : Option Str := do
  let twice ← Time.int (v.segmentCount * 2)
  let _ ← Time.int (max (twice - 1) 0)
  let version ← toStringLoop [] true ((List.range v.segmentCount).map v.segmentAt)
  if version.length < 2 ^ 30 then some version else none

end VersionNumber

/-! ## Version texts -/

/-- A text of the form digits('.'digits)* whose numbers each fit an `int`. -/
inductive VersionText : Bytes → List Int → Prop
  | number {ds : Bytes} (hne : ds ≠ []) (h : ∀ c ∈ ds, isDigit digitValue 10 c = true)
      (hfits : value 10 (digitsOf digitValue ds) < 2 ^ 31) :
      VersionText ds [(value 10 (digitsOf digitValue ds) : Int)]
  | dot {ds text : Bytes} {segments : List Int} (hne : ds ≠ [])
      (h : ∀ c ∈ ds, isDigit digitValue 10 c = true)
      (hfits : value 10 (digitsOf digitValue ds) < 2 ^ 31) (htext : VersionText text segments) :
      VersionText (ds ++ byte '.' :: text) ((value 10 (digitsOf digitValue ds) : Int) :: segments)

/-- The first characters of a text are a version text, and its last number is not cut off. -/
def VersionAt (s : Bytes) (n : Nat) (segments : List Int) : Prop :=
  n ≤ s.length ∧ VersionText (s.take n) segments ∧
    ∀ c ∈ (s.drop n).head?, isDigit digitValue 10 c = false

/-- The longest version text that a text begins with, or no segments where there is none. -/
def LongestVersion (s : Bytes) (n : Nat) (segments : List Int) : Prop :=
  (VersionAt s n segments ∨ (n = 0 ∧ segments = [])) ∧ ∀ m segments', VersionAt s m segments' → m ≤ n

/-! ### The longest one -/

/-- The number that a text begins with, if it has digits there and the number fits. -/
def firstNumber (s : Bytes) : Option Int :=
  if run digitValue 10 s ≠ [] ∧ value 10 (digitsOf digitValue (run digitValue 10 s)) < 2 ^ 31 then
    some (value 10 (digitsOf digitValue (run digitValue 10 s)))
  else none

/-- What follows a number and a point behind it. -/
def afterPoint (s : Bytes) : Option Bytes :=
  match behind digitValue 10 s with
  | c :: text => if c = byte '.' then some text else none
  | [] => none

theorem afterPoint_eq {s text : Bytes} : afterPoint s = some text ↔
    behind digitValue 10 s = byte '.' :: text := by
  rw [afterPoint]
  split
  · next c u heq =>
    rw [heq, List.cons.injEq]
    split
    · next hc => simp [hc]
    · next hc => exact iff_of_false nofun fun h => hc h.1
  · next heq => simp [heq]

theorem afterPoint_split {s text : Bytes} (h : afterPoint s = some text) :
    s = run digitValue 10 s ++ byte '.' :: text := by
  rw [← afterPoint_eq.mp h, run_append_behind]

theorem afterPoint_length {s text : Bytes} (h : afterPoint s = some text) :
    text.length < s.length := by
  have hlength := congrArg List.length (afterPoint_split h)
  rw [List.length_append, List.length_cons] at hlength
  omega

/-- The segments of the longest version text, and its length. -/
def versionPrefix (s : Bytes) : List Int × Nat :=
  match firstNumber s with
  | none => ([], 0)
  | some v =>
    match _h : afterPoint s with
    | none => ([v], (run digitValue 10 s).length)
    | some text =>
      if (versionPrefix text).1 = [] then ([v], (run digitValue 10 s).length)
      else (v :: (versionPrefix text).1, (run digitValue 10 s).length + 1 + (versionPrefix text).2)
termination_by s.length
decreasing_by
  all_goals exact afterPoint_length _h

theorem run_point (text : Bytes) : run digitValue 10 (byte '.' :: text) = [] :=
  run_cons_other (by decide)

theorem run_of_head {text : Bytes} (h : ∀ c ∈ text.head?, isDigit digitValue 10 c = false) :
    run digitValue 10 text = [] ∧ behind digitValue 10 text = text := by
  cases text with
  | nil => exact ⟨rfl, rfl⟩
  | cons c text => exact ⟨run_cons_other (h c rfl), behind_cons_other (h c rfl)⟩

theorem head_behind (s : Bytes) :
    ∀ c ∈ (behind digitValue 10 s).head?, isDigit digitValue 10 c = false := by
  intro c hc
  obtain ⟨text, htext⟩ := List.head?_eq_some_iff.mp hc
  exact isDigit_behind htext

theorem take_run (s : Bytes) : s.take (run digitValue 10 s).length = run digitValue 10 s := by
  have h := @List.take_left _ (run digitValue 10 s) (behind digitValue 10 s)
  rwa [run_append_behind] at h

theorem drop_run (s : Bytes) : s.drop (run digitValue 10 s).length = behind digitValue 10 s := by
  have h := @List.drop_left _ (run digitValue 10 s) (behind digitValue 10 s)
  rwa [run_append_behind] at h

/-- A version text is a number, or a number with a point and a version text behind it. -/
theorem versionAt_iff {s : Bytes} {n : Nat} {segments : List Int} :
    VersionAt s n segments ↔ ∃ v, firstNumber s = some v ∧
      ((n = (run digitValue 10 s).length ∧ segments = [v]) ∨
        ∃ text m segments', afterPoint s = some text ∧ n = (run digitValue 10 s).length + 1 + m ∧
          VersionAt text m segments' ∧ segments = v :: segments') := by
  constructor
  · rintro ⟨hn, htext, hhead⟩
    have hs := (List.take_append_drop n s).symm
    generalize ht : s.take n = t at htext hs
    have hlength : t.length = n := by rw [← ht, List.length_take]; omega
    cases htext with
    | @number ds hne h hfits =>
      have hrun : run digitValue 10 s = t := by
        rw [hs, run_append h, (run_of_head hhead).1, List.append_nil]
      refine ⟨_, if_pos ⟨by rwa [hrun], by rwa [hrun]⟩, Or.inl ⟨by rw [hrun, hlength], ?_⟩⟩
      rw [hrun]
    | @dot ds text segments' hne h hfits htext =>
      rw [List.append_assoc, List.cons_append] at hs
      have hrun : run digitValue 10 s = ds := by
        rw [hs, run_append h, run_point, List.append_nil]
      have hafter : afterPoint s = some (text ++ s.drop n) := by
        rw [afterPoint_eq]
        conv_lhs => rw [hs]
        rw [behind_append h, behind_cons_other (by decide)]
      refine ⟨_, if_pos ⟨by rwa [hrun], by rwa [hrun]⟩, Or.inr ⟨_, text.length, segments', hafter,
        ?_, ⟨by simp, by rwa [List.take_left], by rwa [List.drop_left]⟩, by rw [hrun]⟩⟩
      rw [hrun, ← hlength, List.length_append, List.length_cons]
      omega
  · rintro ⟨v, hv, hrest⟩
    rw [firstNumber] at hv
    split at hv
    · next hnumber =>
      cases hv
      have hdigit : ∀ c ∈ run digitValue 10 s, isDigit digitValue 10 c = true :=
        fun c hc => isDigit_of_mem_run hc
      have hs := @run_append_behind _ digitValue 10 s
      rcases hrest with ⟨rfl, rfl⟩ | ⟨text, m, segments', hafter, rfl, ⟨hm, htext, hhead⟩, rfl⟩
      · refine ⟨?_, ?_, ?_⟩
        · have hlong := congrArg List.length hs
          rw [List.length_append] at hlong
          omega
        · rw [take_run]
          exact .number hnumber.1 hdigit hnumber.2
        · rw [drop_run]
          exact head_behind s
      · have hpoint := afterPoint_eq.mp hafter
        refine ⟨?_, ?_, ?_⟩
        · have hlong := congrArg List.length hs
          rw [hpoint, List.length_append, List.length_cons] at hlong
          omega
        · rw [Nat.add_assoc, List.take_add, take_run, drop_run, hpoint, Nat.add_comm 1,
            List.take_succ_cons]
          exact .dot hnumber.1 hdigit hnumber.2 htext
        · rw [Nat.add_assoc, ← List.drop_drop, drop_run, hpoint, Nat.add_comm 1,
            List.drop_succ_cons]
          exact hhead
    · cases hv

theorem versionPrefix_eq_nil {s : Bytes} : (versionPrefix s).1 = [] ↔ firstNumber s = none := by
  rw [versionPrefix]
  cases firstNumber s with
  | none => simp
  | some v =>
    simp only [reduceCtorEq, iff_false]
    split
    · simp
    · split <;> simp

theorem versionPrefix_longest (s : Bytes) :
    LongestVersion s (versionPrefix s).2 (versionPrefix s).1 := by
  induction hn : s.length using Nat.strong_induction_on generalizing s with
  | _ n ih =>
    rw [versionPrefix]
    cases hv : firstNumber s with
    | none =>
      refine ⟨Or.inr ⟨rfl, rfl⟩, fun m segments' hat => ?_⟩
      obtain ⟨v, hv', -⟩ := versionAt_iff.mp hat
      rw [hv] at hv'
      cases hv'
    | some v =>
      have hone : VersionAt s (run digitValue 10 s).length [v] :=
        versionAt_iff.mpr ⟨v, hv, Or.inl ⟨rfl, rfl⟩⟩
      simp only
      split
      · next hafter =>
        refine ⟨Or.inl hone, fun m segments' hat => ?_⟩
        obtain ⟨v', -, ⟨rfl, -⟩ | ⟨text, k, segments'', hafter', -⟩⟩ := versionAt_iff.mp hat
        · exact Nat.le_refl _
        · rw [hafter] at hafter'
          cases hafter'
      · next text hafter =>
        obtain ⟨hlongest, hmax⟩ := ih text.length (hn ▸ afterPoint_length hafter) text rfl
        split
        · next hempty =>
          refine ⟨Or.inl hone, fun m segments' hat => ?_⟩
          obtain ⟨v', -, ⟨rfl, -⟩ | ⟨text', k, segments'', hafter', -, hat', -⟩⟩ :=
            versionAt_iff.mp hat
          · exact Nat.le_refl _
          · rw [hafter] at hafter'
            cases hafter'
            obtain ⟨v', hv', -⟩ := versionAt_iff.mp hat'
            rw [versionPrefix_eq_nil.mp hempty] at hv'
            cases hv'
        · next hne =>
          refine ⟨Or.inl ?_, fun m segments' hat => ?_⟩
          · exact versionAt_iff.mpr ⟨v, hv, Or.inr ⟨text, _, _, hafter, rfl,
              hlongest.resolve_right fun h => hne h.2, rfl⟩⟩
          · obtain ⟨v', -, ⟨rfl, -⟩ | ⟨text', k, segments'', hafter', rfl, hat', -⟩⟩ :=
              versionAt_iff.mp hat
            · simp only
              omega
            · rw [hafter] at hafter'
              cases hafter'
              have hle := hmax k segments'' hat'
              simp only
              omega

/-! ## Where the numbers are found -/

/-- The number that `pdk_strtoull` finds, with the memory behind it: `none` where it reads outside of
the memory, and nothing where there is no number that fits. -/
def foundNumber (m : Bytes) : Option (Option (Nat × Bytes)) :=
  let s := subject 10 m
  if s.negative then some none
  else if s.rest = [] then none
  else if s.digits ≠ [] ∧ s.magnitude < 2 ^ 31 then some (some (s.magnitude, s.rest))
  else some none

/-- The place in a view at which the last number is looked for. -/
def lastPlace (s : Bytes) : Nat :=
  match firstNumber s with
  | none => 0
  | some _ =>
    match _h : afterPoint s with
    | none => 0
    | some text => if text = [] then 0 else (run digitValue 10 s).length + 1 + lastPlace text
termination_by s.length
decreasing_by
  all_goals exact afterPoint_length _h

/-- At the place where `m` is the memory and the view has `s`, `pdk_strtoull` finds no more than the
view has. -/
def EndsAt (m s : Bytes) : Prop :=
  if run digitValue 10 s = [] then
    (subject 10 m).negative = true ∨
      ((subject 10 m).rest ≠ [] ∧ ((subject 10 m).digits = [] ∨ 2 ^ 31 ≤ (subject 10 m).magnitude))
  else
    behind digitValue 10 s ≠ [] ∨
      (behind digitValue 10 m ≠ [] ∧
        (2 ^ 31 ≤ value 10 (digitsOf digitValue (run digitValue 10 s)) ∨
          (value 10 (digitsOf digitValue (run digitValue 10 m)) =
              value 10 (digitsOf digitValue (run digitValue 10 s)) ∧
            (run digitValue 10 m).length % 2 ^ 32 = (run digitValue 10 s).length % 2 ^ 32)))

namespace VersionNumber

/-- One turn of the loop. -/
theorem fromStringLoop_eq (start : Bytes) (size offset lastGoodEnd : Nat) (seg : List Int32) :
    fromStringLoop start size offset lastGoodEnd seg =
      match foundNumber start with
      | none => none
      | some none => some (seg, lastGoodEnd)
      | some (some (v, stop)) =>
        if start.length - stop.length + 1 < size ∧ stop.head? = some (byte '.') then
          fromStringLoop stop.tail (size - (start.length - stop.length + 1))
            (offset + (start.length - stop.length) + 1) (offset + (start.length - stop.length))
            (seg ++ [Int32.ofInt v])
        else some (seg ++ [Int32.ofInt v], offset + (start.length - stop.length)) := by
  rw [fromStringLoop, pdkStrtoull_eq, foundNumber]
  simp only
  cases (subject 10 start).negative with
  | true => simp
  | false =>
    simp only [Bool.false_eq_true, if_false]
    by_cases hrest : (subject 10 start).rest = []
    · simp [hrest]
    · rw [if_neg hrest, if_neg hrest]
      by_cases hnumber : (subject 10 start).digits ≠ [] ∧ (subject 10 start).magnitude < 2 ^ 31
      · have hbig : ¬((subject 10 start).magnitude : Int) > 2147483647 := by omega
        rw [if_pos ⟨hnumber.1, by omega⟩, if_pos hnumber]
        simp [hbig]
      · rw [if_neg hnumber]
        by_cases hfits : (subject 10 start).digits ≠ [] ∧ (subject 10 start).magnitude < 2 ^ 64
        · have hbig : ((subject 10 start).magnitude : Int) > 2147483647 := by
            have hge : ¬(subject 10 start).magnitude < 2 ^ 31 := fun h => hnumber ⟨hfits.1, h⟩
            omega
          rw [if_pos hfits]
          simp [hbig]
        · rw [if_neg hfits]
          simp

/-- Segments are only added. -/
theorem fromStringLoop_prefix {start : Bytes} {size offset lastGoodEnd : Nat} {seg : List Int32}
    {r : List Int32 × Nat} (h : fromStringLoop start size offset lastGoodEnd seg = some r) :
    seg <+: r.1 := by
  induction size using Nat.strong_induction_on generalizing start offset lastGoodEnd seg with
  | _ size ih =>
    rw [fromStringLoop_eq] at h
    split at h
    · cases h
    · cases h
      exact List.prefix_refl _
    · next v stop hfound =>
      split at h
      · next hmore =>
        have hnext := ih (size - (start.length - stop.length + 1)) (by omega) h
        exact (List.prefix_append seg _).trans hnext
      · cases h
        exact List.prefix_append seg _

/-- The same segments as before mean that no number was found. -/
theorem fromStringLoop_found {start stop : Bytes} {size offset lastGoodEnd v : Nat} {seg : List Int32}
    {e : Nat} (hfound : foundNumber start = some (some (v, stop))) :
    fromStringLoop start size offset lastGoodEnd seg ≠ some (seg, e) := by
  intro h
  rw [fromStringLoop_eq, hfound] at h
  have hlonger : seg ++ [Int32.ofInt v] <+: seg := by
    simp only at h
    split at h
    · exact fromStringLoop_prefix h
    · have hseg : seg ++ [Int32.ofInt v] = seg := congrArg Prod.fst (Option.some.inj h)
      simp at hseg
  have hlength := hlonger.length_le
  rw [List.length_append, List.length_singleton] at hlength
  omega

end VersionNumber

/-! ## The memory behind a view -/

theorem subject_digits {m : Bytes} (h : run digitValue 10 m ≠ []) :
    subject 10 m = ⟨false, 10, run digitValue 10 m, behind digitValue 10 m⟩ := by
  obtain ⟨c, t, hm⟩ := List.exists_cons_of_ne_nil h
  have hc : isDigit digitValue 10 c = true := isDigit_of_mem_run (s := m) (by rw [hm]; simp)
  have hdigit := isDigit_iff.mp hc
  obtain ⟨u, rfl⟩ : ∃ u, m = c :: u := by
    have hsplit := @run_append_behind _ digitValue 10 m
    rw [hm, List.cons_append] at hsplit
    exact ⟨_, hsplit.symm⟩
  have hspace : isspace c = false := by
    by_contra hspace
    obtain ⟨k, hk, -⟩ := hdigit
    rw [digitValue_isspace (Bool.not_eq_false _ ▸ hspace)] at hk
    cases hk
  have hsign : c ≠ byte '-' ∧ c ≠ byte '+' := by
    obtain ⟨k, hk, -⟩ := hdigit
    constructor <;> (rintro rfl; cases hk)
  rw [subject, List.dropWhile_cons_of_neg (by simp [hspace]), splitSign, if_neg hsign.1,
    if_neg hsign.2]
  rfl

theorem foundNumber_digits {m : Bytes} (h : run digitValue 10 m ≠ []) :
    foundNumber m = if behind digitValue 10 m = [] then none
      else if value 10 (digitsOf digitValue (run digitValue 10 m)) < 2 ^ 31 then
        some (some (value 10 (digitsOf digitValue (run digitValue 10 m)), behind digitValue 10 m))
      else some none := by
  rw [foundNumber, subject_digits h]
  simp [h, Subject.magnitude]

/-- Digits that end inside of the view end there in memory. -/
theorem run_inside {s t : Bytes} (h : behind digitValue 10 s ≠ []) :
    run digitValue 10 (s ++ t) = run digitValue 10 s ∧
      behind digitValue 10 (s ++ t) = behind digitValue 10 s ++ t := by
  have hsplit := @run_append_behind _ digitValue 10 s
  obtain ⟨c, u, hbehind⟩ := List.exists_cons_of_ne_nil h
  have hc := isDigit_behind hbehind
  have hall : ∀ x ∈ run digitValue 10 s, isDigit digitValue 10 x = true :=
    fun x hx => isDigit_of_mem_run hx
  have hst : s ++ t = run digitValue 10 s ++ (c :: (u ++ t)) := by
    conv_lhs => rw [← hsplit, hbehind, List.append_assoc, List.cons_append]
  constructor
  · conv_lhs => rw [hst, run_append hall, run_cons_other hc, List.append_nil]
  · conv_lhs => rw [hst, behind_append hall, behind_cons_other hc]
    rw [hbehind, List.cons_append]

/-- Digits up to the end of the view may go on in memory. -/
theorem run_outside {s t : Bytes} (h : behind digitValue 10 s = []) :
    run digitValue 10 (s ++ t) = s ++ run digitValue 10 t ∧
      behind digitValue 10 (s ++ t) = behind digitValue 10 t ∧ run digitValue 10 s = s := by
  have hs := eq_run h
  have hall : ∀ x ∈ s, isDigit digitValue 10 x = true := isDigit_of_behind h
  exact ⟨run_append hall, behind_append hall, hs⟩

/-! ## The loop and the longest version text -/

/-- The loop returns the segments and the length of the longest version text of the view, up to
the bits that an `int` has. -/
def Agrees (s m : Bytes) (offset lastGoodEnd : Nat) (seg : List Int32) : Prop :=
  ∃ e, VersionNumber.fromStringLoop m s.length offset lastGoodEnd seg =
      some (seg ++ (versionPrefix s).1.map Int32.ofInt, e) ∧
    e % 2 ^ 32 =
      (if (versionPrefix s).1 = [] then lastGoodEnd else offset + (versionPrefix s).2) % 2 ^ 32

theorem versionPrefix_none {s : Bytes} (h : firstNumber s = none) :
    versionPrefix s = ([], 0) ∧ lastPlace s = 0 := by
  rw [versionPrefix, lastPlace, h]
  exact ⟨rfl, rfl⟩

/-- Without a number in the view none may be found in memory. -/
theorem agrees_none {s t : Bytes} (h : firstNumber s = none) (offset lastGoodEnd : Nat)
    (seg : List Int32) :
    Agrees s (s ++ t) offset lastGoodEnd seg ↔ foundNumber (s ++ t) = some none := by
  rw [Agrees, (versionPrefix_none h).1]
  simp only [List.map_nil, List.append_nil, if_true]
  cases hfound : foundNumber (s ++ t) with
  | none =>
    refine iff_of_false ?_ nofun
    rintro ⟨e, he, -⟩
    rw [VersionNumber.fromStringLoop_eq, hfound] at he
    cases he
  | some found =>
    cases found with
    | none => simp [VersionNumber.fromStringLoop_eq, hfound]
    | some found =>
      refine iff_of_false ?_ (by simp)
      rintro ⟨e, he, -⟩
      exact VersionNumber.fromStringLoop_found hfound he

theorem foundNumber_none {m : Bytes} : foundNumber m = some none ↔
    (subject 10 m).negative = true ∨
      ((subject 10 m).rest ≠ [] ∧
        ((subject 10 m).digits = [] ∨ 2 ^ 31 ≤ (subject 10 m).magnitude)) := by
  rw [foundNumber]
  cases (subject 10 m).negative with
  | true => simp
  | false =>
    by_cases hrest : (subject 10 m).rest = []
    · simp [hrest]
    · by_cases hnumber : (subject 10 m).digits ≠ [] ∧ (subject 10 m).magnitude < 2 ^ 31
      · rw [if_neg (by simp), if_neg hrest, if_pos hnumber]
        refine iff_of_false (by simp) ?_
        rintro (h | ⟨-, h | h⟩)
        · cases h
        · exact hnumber.1 h
        · omega
      · rw [if_neg (by simp), if_neg hrest, if_neg hnumber]
        refine iff_of_true rfl (Or.inr ⟨hrest, ?_⟩)
        by_contra hnot
        rw [not_or, Nat.not_le] at hnot
        exact hnumber hnot

theorem endsAt_none {s t : Bytes} (h : firstNumber s = none) :
    EndsAt (s ++ t) s ↔ foundNumber (s ++ t) = some none := by
  rw [EndsAt]
  split
  · exact foundNumber_none.symm
  · next hrun =>
    have hbig : 2 ^ 31 ≤ value 10 (digitsOf digitValue (run digitValue 10 s)) := by
      by_contra hsmall
      rw [firstNumber, if_pos ⟨hrun, by omega⟩] at h
      cases h
    by_cases hbehind : behind digitValue 10 s = []
    · obtain ⟨hrun', hbehind', hs⟩ := run_outside (t := t) hbehind
      have hne : s ≠ [] := fun hnil => hrun (by rw [hnil]; rfl)
      rw [foundNumber_digits (by rw [hrun']; simp [hne]), hrun', hbehind']
      rw [hs] at hbig
      have hge : ¬value 10 (digitsOf digitValue (s ++ run digitValue 10 t)) < 2 ^ 31 := by
        have hle := value_le_append (b := 10) (by decide) (digitsOf digitValue s)
          (digitsOf digitValue (run digitValue 10 t))
        rw [← digitsOf_append] at hle
        omega
      rw [if_neg hge]
      by_cases htail : behind digitValue 10 t = []
      · rw [if_pos htail]
        exact iff_of_false (by simp [hbehind, htail]) nofun
      · rw [if_neg htail, hs]
        exact iff_of_true (Or.inr ⟨htail, Or.inl hbig⟩) rfl
    · obtain ⟨hrun', hbehind'⟩ := run_inside (t := t) hbehind
      rw [foundNumber_digits (by rwa [hrun']), hrun', hbehind', if_neg (by simp [hbehind]),
        if_neg (by omega)]
      exact iff_of_true (Or.inl hbehind) rfl

section

variable {s t : Bytes} {offset lastGoodEnd : Nat} {seg : List Int32}

theorem firstNumber_some {v : Int} (h : firstNumber s = some v) : run digitValue 10 s ≠ [] ∧
    value 10 (digitsOf digitValue (run digitValue 10 s)) < 2 ^ 31 ∧
      v = value 10 (digitsOf digitValue (run digitValue 10 s)) := by
  rw [firstNumber] at h
  split at h
  · next hnumber => exact ⟨hnumber.1, hnumber.2, (Option.some.inj h).symm⟩
  · cases h

theorem versionPrefix_single {v : Int} (h : firstNumber s = some v)
    (hafter : ∀ text, afterPoint s = some text → text = []) :
    versionPrefix s = ([v], (run digitValue 10 s).length) ∧ lastPlace s = 0 := by
  rw [versionPrefix, lastPlace, h]
  simp only
  constructor
  · split
    · rfl
    · next text htext =>
      rw [hafter text htext, if_pos (versionPrefix_eq_nil.mpr rfl)]
  · split
    · rfl
    · next text htext => rw [if_pos (hafter text htext)]

/-- A number that ends inside of the view is found as it is. -/
theorem foundNumber_inside {v : Int} (h : firstNumber s = some v)
    (hbehind : behind digitValue 10 s ≠ []) :
    ∃ n : Nat, v = n ∧ foundNumber (s ++ t) = some (some (n, behind digitValue 10 s ++ t)) ∧
      (s ++ t).length - (behind digitValue 10 s ++ t).length = (run digitValue 10 s).length := by
  obtain ⟨hrun, hfits, rfl⟩ := firstNumber_some h
  obtain ⟨hrun', hbehind'⟩ := run_inside (t := t) hbehind
  refine ⟨_, rfl, ?_, ?_⟩
  · rw [foundNumber_digits (by rwa [hrun']), hrun', hbehind', if_neg (by simp [hbehind]),
      if_pos hfits]
  · have hlength := congrArg List.length (@run_append_behind _ digitValue 10 s)
    rw [List.length_append] at hlength
    rw [List.length_append, List.length_append]
    omega

theorem agrees_inside {v : Int} (h : firstNumber s = some v) (hbehind : behind digitValue 10 s ≠ [])
    (hafter : ∀ text, afterPoint s = some text → text = []) :
    Agrees s (s ++ t) offset lastGoodEnd seg := by
  obtain ⟨n, rfl, hfound, hlength⟩ := foundNumber_inside (t := t) h hbehind
  rw [Agrees, (versionPrefix_single h hafter).1]
  refine ⟨offset + (run digitValue 10 s).length, ?_, rfl⟩
  rw [VersionNumber.fromStringLoop_eq, hfound]
  simp only [hlength]
  rw [if_neg]
  · rfl
  · rintro ⟨hmore, hpoint⟩
    obtain ⟨c, u, hcu⟩ := List.exists_cons_of_ne_nil hbehind
    rw [hcu, List.cons_append, List.head?_cons, Option.some.injEq] at hpoint
    have hnil := hafter u (afterPoint_eq.mpr (by rw [hcu, hpoint]))
    have hlong := congrArg List.length (@run_append_behind _ digitValue 10 s)
    rw [hcu, hnil, List.length_append, List.length_singleton] at hlong
    omega

/-- Behind a point the loop goes on. -/
theorem agrees_point {v : Int} {text : Bytes} (h : firstNumber s = some v)
    (hafter : afterPoint s = some text) (hne : text ≠ []) :
    Agrees s (s ++ t) offset lastGoodEnd seg ↔
      Agrees text (text ++ t) (offset + (run digitValue 10 s).length + 1)
        (offset + (run digitValue 10 s).length) (seg ++ [Int32.ofInt v]) := by
  have hbehind := afterPoint_eq.mp hafter
  obtain ⟨n, rfl, hfound, hlength⟩ := foundNumber_inside (t := t) h (by rw [hbehind]; simp)
  have hlong := congrArg List.length (afterPoint_split hafter)
  rw [List.length_append, List.length_cons] at hlong
  have hpos := List.length_pos_of_ne_nil hne
  have hpre : versionPrefix s =
      if (versionPrefix text).1 = [] then ([(n : Int)], (run digitValue 10 s).length)
      else (n :: (versionPrefix text).1,
        (run digitValue 10 s).length + 1 + (versionPrefix text).2) := by
    rw [versionPrefix, h]
    simp only
    split
    · next hnone =>
      rw [hafter] at hnone
      cases hnone
    · next text' htext =>
      rw [hafter] at htext
      cases htext
      rfl
  have hloop : VersionNumber.fromStringLoop (s ++ t) s.length offset lastGoodEnd seg =
      VersionNumber.fromStringLoop (text ++ t) text.length
        (offset + (run digitValue 10 s).length + 1) (offset + (run digitValue 10 s).length)
        (seg ++ [Int32.ofInt n]) := by
    rw [VersionNumber.fromStringLoop_eq, hfound]
    simp only [hlength]
    rw [if_pos ⟨by omega, by rw [hbehind]; rfl⟩, hbehind, List.cons_append, List.tail_cons]
    congr 1
    omega
  rw [Agrees, Agrees, hloop, hpre]
  split
  · next hempty =>
    rw [hempty]
    simp
  · simp [Nat.add_assoc, Nat.add_comm 1]

/-- Where the view ends in digits, the memory decides. -/
theorem agrees_outside {v : Int} (h : firstNumber s = some v) (hbehind : behind digitValue 10 s = []) :
    Agrees s (s ++ t) offset lastGoodEnd seg ↔ EndsAt (s ++ t) s := by
  obtain ⟨hrun, hfits, rfl⟩ := firstNumber_some h
  obtain ⟨hrun', hbehind', hs⟩ := run_outside (t := t) hbehind
  have hafter : ∀ text, afterPoint s = some text → text = [] := by
    intro text htext
    rw [afterPoint_eq.mp htext] at hbehind
    cases hbehind
  have hne : run digitValue 10 (s ++ t) ≠ [] := by
    rw [hrun', ← hs]
    simp [hrun]
  have hlength : (s ++ t).length - (behind digitValue 10 t).length =
      (run digitValue 10 (s ++ t)).length := by
    have hlong := congrArg List.length (@run_append_behind _ digitValue 10 (s ++ t))
    rw [hbehind', List.length_append] at hlong
    omega
  have hlonger : s.length ≤ (run digitValue 10 (s ++ t)).length := by
    rw [hrun', List.length_append]
    omega
  rw [Agrees, EndsAt, if_neg hrun, (versionPrefix_single h hafter).1,
    VersionNumber.fromStringLoop_eq, foundNumber_digits hne, hbehind']
  by_cases htail : behind digitValue 10 t = []
  · simp [htail, hbehind]
  rw [if_neg htail]
  by_cases hbig : value 10 (digitsOf digitValue (run digitValue 10 (s ++ t))) < 2 ^ 31
  · rw [if_pos hbig]
    simp only [hlength]
    rw [if_neg (by omega)]
    have hsame : seg ++ [Int32.ofInt (value 10 (digitsOf digitValue (run digitValue 10 (s ++ t))))] =
        seg ++ [Int32.ofInt (value 10 (digitsOf digitValue (run digitValue 10 s)))] ↔
          value 10 (digitsOf digitValue (run digitValue 10 (s ++ t))) =
            value 10 (digitsOf digitValue (run digitValue 10 s)) := by
      refine ⟨fun heq => ?_, fun heq => by rw [heq]⟩
      have hint := congrArg Int32.toInt (List.singleton_inj.mp (List.append_cancel_left heq))
      rw [Int32.toInt_ofInt_of_le (by omega) (by omega),
        Int32.toInt_ofInt_of_le (by omega) (by omega)] at hint
      omega
    constructor
    · rintro ⟨e, he, hmod⟩
      obtain ⟨hseg, rfl⟩ := Prod.mk.inj (Option.some.inj he)
      refine Or.inr ⟨htail, Or.inr ⟨hsame.mp hseg, ?_⟩⟩
      simp only [reduceCtorEq, if_false] at hmod
      omega
    · rintro (hnot | ⟨-, hvalue | ⟨hvalue, hmod⟩⟩)
      · exact absurd hbehind hnot
      · omega
      · refine ⟨_, by rw [hvalue]; rfl, ?_⟩
        simp only [reduceCtorEq, if_false]
        omega
  · rw [if_neg hbig]
    refine iff_of_false ?_ ?_
    · rintro ⟨e, he, -⟩
      have hseg := congrArg Prod.fst (Option.some.inj he)
      simp at hseg
    · rintro (hnot | ⟨-, hvalue | ⟨hvalue, -⟩⟩)
      · exact hnot hbehind
      · omega
      · omega

/-- Behind a point the last place is that of the text there. -/
theorem drop_lastPlace {v : Int} {text : Bytes} (hv : firstNumber s = some v)
    (hafter : afterPoint s = some text) (hne : text ≠ []) (u : Bytes) :
    (run digitValue 10 s ++ byte '.' :: u).drop (lastPlace s) = u.drop (lastPlace text) := by
  have hplace : lastPlace s = (run digitValue 10 s).length + 1 + lastPlace text := by
    rw [lastPlace, hv]
    simp only
    split
    · next hnone =>
      rw [hafter] at hnone
      cases hnone
    · next text' htext' =>
      rw [hafter] at htext'
      cases htext'
      rw [if_neg hne]
  rw [hplace, ← List.drop_drop, ← List.drop_drop, List.drop_left]
  rfl

theorem agrees_iff (s t : Bytes) (offset lastGoodEnd : Nat) (seg : List Int32) :
    Agrees s (s ++ t) offset lastGoodEnd seg ↔
      EndsAt ((s ++ t).drop (lastPlace s)) (s.drop (lastPlace s)) := by
  induction hn : s.length using Nat.strong_induction_on generalizing s offset lastGoodEnd seg with
  | _ n ih =>
    cases hv : firstNumber s with
    | none =>
      rw [(versionPrefix_none hv).2, agrees_none hv]
      exact (endsAt_none hv).symm
    | some v =>
      obtain ⟨hrun, -⟩ := firstNumber_some hv
      by_cases hbehind : behind digitValue 10 s = []
      · have hafter : ∀ text, afterPoint s = some text → text = [] := by
          intro text htext
          rw [afterPoint_eq.mp htext] at hbehind
          cases hbehind
        rw [(versionPrefix_single hv hafter).2]
        exact agrees_outside hv hbehind
      · by_cases hafter : ∀ text, afterPoint s = some text → text = []
        · rw [(versionPrefix_single hv hafter).2]
          refine iff_of_true (agrees_inside hv hbehind hafter) ?_
          rw [List.drop_zero, List.drop_zero, EndsAt, if_neg hrun]
          exact Or.inl hbehind
        · push Not at hafter
          obtain ⟨text, htext, hne⟩ := hafter
          have hdrop := drop_lastPlace hv htext hne
          have hsplit := afterPoint_split htext
          rw [agrees_point hv htext hne, ih text.length (hn ▸ afterPoint_length htext) _ _ _ _ rfl]
          have hst : s ++ t = run digitValue 10 s ++ byte '.' :: (text ++ t) := by
            conv_lhs => rw [hsplit, List.append_assoc, List.cons_append]
          rw [← hdrop text, ← hdrop (text ++ t), ← hst, ← hsplit]

end

/-! ### Uniqueness -/

theorem firstNumber_run {s : Bytes} {v : Int} (h : firstNumber s = some v) :
    0 < (run digitValue 10 s).length := List.length_pos_of_ne_nil (firstNumber_some h).1

theorem VersionAt.unique {s : Bytes} {n : Nat} {segments segments' : List Int}
    (h : VersionAt s n segments) (h' : VersionAt s n segments') : segments = segments' := by
  induction hn : s.length using Nat.strong_induction_on generalizing s n segments segments' with
  | _ k ih =>
    obtain ⟨v, hv, hrest⟩ := versionAt_iff.mp h
    obtain ⟨v', hv', hrest'⟩ := versionAt_iff.mp h'
    obtain rfl : v = v' := Option.some.inj (hv.symm.trans hv')
    rcases hrest with ⟨rfl, rfl⟩ | ⟨text, m, segs, hafter, rfl, hat, rfl⟩
    · rcases hrest' with ⟨-, rfl⟩ | ⟨text, m, segs, hafter, hlength, -⟩
      · rfl
      · omega
    · rcases hrest' with ⟨hlength, -⟩ | ⟨text', m', segs', hafter', hlength, hat', rfl⟩
      · omega
      · obtain rfl : text = text' := Option.some.inj (hafter.symm.trans hafter')
        obtain rfl : m = m' := by omega
        rw [ih text.length (hn ▸ afterPoint_length hafter) hat hat' rfl]

theorem VersionAt.pos {s : Bytes} {n : Nat} {segments : List Int} (h : VersionAt s n segments) :
    0 < n ∧ segments ≠ [] := by
  obtain ⟨v, hv, ⟨rfl, rfl⟩ | ⟨text, m, segs, -, rfl, -, rfl⟩⟩ := versionAt_iff.mp h
  · exact ⟨firstNumber_run hv, by simp⟩
  · exact ⟨by omega, by simp⟩

theorem LongestVersion.unique {s : Bytes} {n n' : Nat} {segments segments' : List Int}
    (h : LongestVersion s n segments) (h' : LongestVersion s n' segments') :
    n = n' ∧ segments = segments' := by
  obtain ⟨hat | ⟨rfl, rfl⟩, hmax⟩ := h
  · obtain ⟨hat' | ⟨rfl, rfl⟩, hmax'⟩ := h'
    · obtain rfl := Nat.le_antisymm (hmax' _ _ hat) (hmax _ _ hat')
      exact ⟨rfl, hat.unique hat'⟩
    · have hpos := hat.pos.1
      have hle := hmax' _ _ hat
      omega
  · obtain ⟨hat' | ⟨rfl, rfl⟩, hmax'⟩ := h'
    · have hpos := hat'.pos.1
      have hle := hmax _ _ hat'
      omega
    · exact ⟨rfl, rfl⟩

theorem VersionText.facts {t : Bytes} {segments : List Int} (h : VersionText t segments) :
    segments.length ≤ t.length ∧ ∀ x ∈ segments, 0 ≤ x ∧ x < 2 ^ 31 := by
  induction h with
  | number hne h hfits =>
    have hpos := List.length_pos_of_ne_nil hne
    refine ⟨by rw [List.length_singleton]; omega, fun x hx => ?_⟩
    rw [List.mem_singleton.mp hx]
    omega
  | dot hne h hfits htext ih =>
    refine ⟨?_, fun x hx => ?_⟩
    · rw [List.length_append, List.length_cons, List.length_cons]
      omega
    · rcases List.mem_cons.mp hx with rfl | hx
      · omega
      · exact ih.2 x hx

theorem LongestVersion.facts {s : Bytes} {n : Nat} {segments : List Int}
    (h : LongestVersion s n segments) : n ≤ s.length ∧ segments.length ≤ s.length ∧
      (segments = [] → n = 0) ∧ ∀ x ∈ segments, 0 ≤ x ∧ x < 2 ^ 31 := by
  obtain ⟨hat | ⟨rfl, rfl⟩, -⟩ := h
  · obtain ⟨hlength, hints⟩ := hat.2.1.facts
    rw [List.length_take] at hlength
    exact ⟨hat.1, by omega, fun h => absurd h hat.pos.2, hints⟩
  · simp

theorem toInt_suffix {e n : Nat} (hn : n < 2 ^ 31) :
    (BitVec.ofNat 32 e).toInt = n ↔ e % 2 ^ 32 = n % 2 ^ 32 := by
  rw [BitVec.toInt_eq_toNat_cond, BitVec.toNat_ofNat]
  split <;> omega

/-! ## The result -/

section

variable [Host]

open VersionNumber

/-- What is returned are the segments and the length of the longest version text of the view. -/
def ParsesExactly (s : Latin1String) : Prop :=
  ∃ (v : VersionNumber) (n : Nat), fromString s = some (v, (n : Int)) ∧
    LongestVersion s.chars n v.getSegments

/-- The view is not null, and the last number is looked for where nothing but the view decides. -/
def WellEnded (s : Latin1String) : Prop :=
  ∃ mem, s.data = some mem ∧
    EndsAt (mem.drop (lastPlace s.chars)) (s.chars.drop (lastPlace s.chars))

theorem fromString_iff (s : Latin1String) : ParsesExactly s ↔ WellEnded s := by
  obtain ⟨data, size, hfits, hint⟩ := s
  cases data with
  | none => exact iff_of_false (fun ⟨v, n, h, _⟩ => nomatch h) (fun ⟨mem, h, _⟩ => nomatch h)
  | some mem =>
    have hlength : (mem.take size).length = size := by
      rw [List.length_take]
      exact Nat.min_eq_left hfits
    have hagrees := agrees_iff (mem.take size) (mem.drop size) 0 0 []
    rw [List.take_append_drop] at hagrees
    have hlongest := versionPrefix_longest (mem.take size)
    obtain ⟨hn, hcount, hnil, hints⟩ := hlongest.facts
    rw [hlength] at hn hcount
    have hback : ((versionPrefix (mem.take size)).1.map Int32.ofInt).map Int32.toInt =
        (versionPrefix (mem.take size)).1 := by
      rw [List.map_map]
      conv_rhs => rw [← List.map_id (versionPrefix (mem.take size)).1]
      refine List.map_congr_left fun x hx => ?_
      have hx := hints x hx
      exact Int32.toInt_ofInt_of_le (by omega) (by omega)
    have hwell : WellEnded ⟨some mem, size, hfits, hint⟩ ↔
        Agrees (mem.take size) mem 0 0 [] := by
      rw [hagrees]
      constructor
      · rintro ⟨mem', ⟨⟩, h⟩
        exact h
      · exact fun h => ⟨mem, rfl, h⟩
    have htarget : (if (versionPrefix (mem.take size)).1 = [] then 0
        else 0 + (versionPrefix (mem.take size)).2) = (versionPrefix (mem.take size)).2 := by
      split
      · next hempty => exact (hnil hempty).symm
      · omega
    rw [hwell, Agrees, hlength, htarget, List.nil_append]
    constructor
    · rintro ⟨v, n, h, hversion⟩
      obtain ⟨⟨seg, e⟩, hloop, h⟩ := Option.bind_eq_some_iff.mp h
      obtain ⟨rfl, hsegments⟩ := hversion.unique hlongest
      refine ⟨e, ?_, ?_⟩
      · simp only at h
        split at h
        · obtain ⟨rfl, -⟩ := Prod.mk.inj (Option.some.inj h)
          rw [getSegments_ofVector] at hsegments
          refine hloop.trans ?_
          rw [← hsegments, List.map_map]
          simp [Function.comp_def]
        · cases h
      · simp only at h
        split at h
        · exact (toInt_suffix (by omega)).mp (congrArg Prod.snd (Option.some.inj h))
        · cases h
    · rintro ⟨e, hloop, hmod⟩
      have hshort : ((versionPrefix (mem.take size)).1.map Int32.ofInt).length < 2 ^ 31 := by
        rw [List.length_map]
        omega
      refine ⟨ofVector _ hshort, (versionPrefix (mem.take size)).2, ?_, ?_⟩
      · rw [fromString]
        simp only [Option.bind_eq_bind, Option.bind_some, hloop, dif_pos hshort,
          (toInt_suffix (Nat.lt_of_le_of_lt hn hint)).mpr hmod]
      · rw [getSegments_ofVector, hback]
        exact hlongest

end

/-! ## What is written -/

/-- A number as it is written. -/
def numberText (x : Int) : Str := (LocaleData.shown x.toNat).map LocaleData.c.symbol

/-- Numbers with points between them. -/
def versionString : List Int → Str
  | [] => []
  | x :: xs => numberText x ++ xs.flatMap fun y => unit '.' :: numberText y

/-- The view of the Latin-1 array that is made of a string, with the terminator and what the memory
has behind it.
mirrors lang/String.h:113-116, utils/VersionNumber.cpp:161-169 -/
def Latin1String.ofString (text : Str) (tail : Bytes) (h : text.length < 2 ^ 31) : Latin1String where
  data := some (toLatin1 text ++ 0 :: tail)
  size := ((toLatin1 text).takeWhile (· ≠ 0)).length
  fits := by
    have hle := (List.takeWhile_sublist (l := toLatin1 text) (· ≠ 0)).length_le
    rw [Option.getD_some, List.length_append]
    omega
  int := by
    have hle := (List.takeWhile_sublist (l := toLatin1 text) (· ≠ 0)).length_le
    rw [toLatin1, List.length_map] at hle
    exact Nat.lt_of_le_of_lt hle h

theorem number_eq {x : Int} (h : 0 ≤ x) (h' : x < 2 ^ 31) :
    VersionNumber.number x = some (numberText x) := by
  let _ := asciiTables
  have hdigits : pdkLltoa x 10 LocaleData.c.zero =
      some ((digits 10 x.natAbs).map LocaleData.c.symbol) := by
    rw [pdkLltoa_eq (by decide) (by omega) (by omega),
      LocaleData.map_localeSymbol fun k hk => digits_lt (by decide) hk]
  have habs : x.natAbs = x.toNat := by omega
  obtain ⟨first, groups, heq, hspelling, hformat⟩ := @LocaleData.formatInteger_eq LocaleData.c
    _ x.natAbs (by omega) _ (LocaleData.shown_of_digits x.natAbs) false false false true
    (decide (x < 0)) (-1) (by decide) (by decide)
  have hgroups : groups = [] := List.length_eq_zero_iff.mp hspelling.groups_length
  subst hgroups
  have hneg : decide (x < 0) = false := decide_eq_false (by omega)
  rw [VersionNumber.number, LocaleData.longLongToString, if_pos rfl, if_pos rfl, hdigits]
  rw [hneg] at hformat
  simp only [and_true, hneg, Option.bind_eq_bind, Option.bind_some]
  refine hformat.trans ?_
  rw [numberText, ← habs, heq]
  simp [LocaleData.signText, LocaleData.padding, LocaleData.spelled, LocaleData.integerFlags]

theorem toStringLoop_eq {xs : List Int} (h : ∀ x ∈ xs, 0 ≤ x ∧ x < 2 ^ 31) (version : Str) :
    VersionNumber.toStringLoop version false xs =
      some (version ++ xs.flatMap fun y => unit '.' :: numberText y) := by
  induction xs generalizing version with
  | nil => simp [VersionNumber.toStringLoop]
  | cons x xs ih =>
    have hx := h x List.mem_cons_self
    rw [VersionNumber.toStringLoop, number_eq hx.1 hx.2, Option.bind_eq_bind, Option.bind_some,
      ih fun y hy => h y (List.mem_cons_of_mem _ hy)]
    simp

theorem length_numberText (x : Int) : 0 < (numberText x).length := by
  rw [numberText, List.length_map]
  exact List.length_pos_of_ne_nil (LocaleData.shown_ne_nil _)

/-- With the points, a text is at least twice as long as there are numbers, less one. -/
theorem length_versionString (xs : List Int) : 2 * xs.length ≤ (versionString xs).length + 1 := by
  have htail (ys : List Int) :
      2 * ys.length ≤ (ys.flatMap fun y => unit '.' :: numberText y).length := by
    induction ys with
    | nil => simp
    | cons y ys ih =>
      have hy := length_numberText y
      rw [List.flatMap_cons, List.length_append, List.length_cons, List.length_cons]
      omega
  cases xs with
  | nil => simp
  | cons x xs =>
    have hx := length_numberText x
    have hxs := htail xs
    rw [versionString, List.length_append, List.length_cons]
    omega

namespace VersionNumber

variable [Host]

theorem toString_eq (v : VersionNumber) (h : ∀ x ∈ v.getSegments, 0 ≤ x)
    (hlength : (versionString v.getSegments).length < 2 ^ 30) :
    v.toString = some (versionString v.getSegments) := by
  have hcount := length_versionString v.getSegments
  rw [length_getSegments] at hcount
  have hints : ∀ x ∈ v.getSegments, 0 ≤ x ∧ x < 2 ^ 31 := by
    intro x hx
    have hint := ints_getSegments v x hx
    exact ⟨h x hx, by omega⟩
  have hsegments : (List.range v.segmentCount).map v.segmentAt = v.getSegments := by
    apply List.ext_getElem
    · rw [List.length_map, List.length_range, length_getSegments]
    · intro i hi hi'
      rw [List.getElem_map, List.getElem_range, segmentAt_eq, List.getD_eq_getElem _ _ hi']
  have hloop : toStringLoop [] true v.getSegments = some (versionString v.getSegments) := by
    cases hv : v.getSegments with
    | nil => rfl
    | cons x xs =>
      rw [hv] at hints
      have hx := hints x List.mem_cons_self
      rw [toStringLoop, number_eq hx.1 hx.2, Option.bind_eq_bind, Option.bind_some,
        toStringLoop_eq fun y hy => hints y (List.mem_cons_of_mem _ hy)]
      rfl
  rw [toString, Time.int_bind (by omega) (by omega), Time.int_bind (by omega) (by omega), hsegments,
    hloop, Option.bind_eq_bind, Option.bind_some, if_pos hlength]

end VersionNumber

/-! ### What is written is read back -/

/-- The bytes of a number. -/
def numberBytes (x : Int) : Bytes := (LocaleData.shown x.toNat).map LocaleData.digitByte

theorem toLatin1_append (s t : Str) : toLatin1 (s ++ t) = toLatin1 s ++ toLatin1 t := List.map_append

theorem toLatin1_numberText (x : Int) : toLatin1 (numberText x) = numberBytes x := by
  have hall : ∀ k : Fin 10, toLatin1 [LocaleData.c.symbol k] = [LocaleData.digitByte k] := by decide
  rw [toLatin1, numberText, numberBytes, List.map_map]
  refine List.map_congr_left fun k hk => ?_
  exact List.singleton_inj.mp (hall ⟨k, LocaleData.shown_lt hk⟩)

theorem numberBytes_facts {x : Int} (h : 0 ≤ x) : numberBytes x ≠ [] ∧
    (∀ c ∈ numberBytes x, isDigit digitValue 10 c = true) ∧
    (value 10 (digitsOf digitValue (numberBytes x)) : Int) = x := by
  have hdigit : ∀ k ∈ LocaleData.shown x.toNat, digitValue (LocaleData.digitByte k) = some k :=
    fun k hk => (LocaleData.digitByte_facts (LocaleData.shown_lt hk)).2.2.2.2.2.2.2
  refine ⟨by simp [numberBytes, LocaleData.shown_ne_nil],
    isDigit_write hdigit fun k hk => LocaleData.shown_lt hk, ?_⟩
  rw [numberBytes, digitsOf_write hdigit, LocaleData.value_shown]
  omega

/-- What is written of some segments is a version text. -/
theorem versionText_written {xs : List Int} (h : ∀ x ∈ xs, 0 ≤ x ∧ x < 2 ^ 31) (hne : xs ≠ []) :
    VersionText (toLatin1 (versionString xs)) xs := by
  induction xs with
  | nil => exact absurd rfl hne
  | cons x xs ih =>
    obtain ⟨hlow, hhigh⟩ := h x List.mem_cons_self
    obtain ⟨hbytes, hdigits, hvalue⟩ := numberBytes_facts hlow
    have hfits : value 10 (digitsOf digitValue (numberBytes x)) < 2 ^ 31 := by omega
    cases xs with
    | nil =>
      have hnumber := VersionText.number hbytes hdigits hfits
      rw [hvalue] at hnumber
      simpa [versionString, toLatin1_numberText] using hnumber
    | cons y ys =>
      have hrest := ih (fun z hz => h z (List.mem_cons_of_mem _ hz)) (by simp)
      have hdot := VersionText.dot hbytes hdigits hfits hrest
      rw [hvalue] at hdot
      rw [versionString, toLatin1_append, toLatin1_numberText, List.flatMap_cons]
      exact hdot

theorem VersionText.no_nul {t : Bytes} {segments : List Int} (h : VersionText t segments) : 0 ∉ t := by
  induction h with
  | number _ h _ => exact no_nul_of_digits h
  | dot _ h _ _ ih =>
    rw [List.mem_append, List.mem_cons]
    rintro (hmem | hzero | hmem)
    · exact no_nul_of_digits h hmem
    · exact absurd hzero (by decide)
    · exact ih hmem

/-- All of a version text is the longest one. -/
theorem VersionText.longest {t : Bytes} {segments : List Int} (h : VersionText t segments) :
    LongestVersion t t.length segments :=
  ⟨Or.inl ⟨Nat.le_refl _, by rwa [List.take_length], by simp⟩, fun _ _ hat => hat.1⟩

/-- The last number that is looked for in a version text is there. -/
theorem VersionAt.lastPlace {s : Bytes} {segments : List Int} (h : VersionAt s s.length segments) :
    run digitValue 10 (s.drop (lastPlace s)) ≠ [] := by
  induction hn : s.length using Nat.strong_induction_on generalizing s segments with
  | _ n ih =>
    obtain ⟨v, hv, ⟨hlength, -⟩ | ⟨text, m, segs, hafter, hlength, hat, -⟩⟩ := versionAt_iff.mp h
    · have hafter : ∀ text, afterPoint s = some text → text = [] := by
        intro text htext
        have hlong := congrArg List.length (afterPoint_split htext)
        rw [List.length_append, List.length_cons] at hlong
        omega
      rw [(versionPrefix_single hv hafter).2]
      exact (firstNumber_some hv).1
    · have hlong := congrArg List.length (afterPoint_split hafter)
      rw [List.length_append, List.length_cons] at hlong
      obtain rfl : m = text.length := by omega
      have hne : text ≠ [] := by
        rintro rfl
        exact absurd hat.pos.1 (by decide)
      have hdrop := drop_lastPlace hv hafter hne text
      rw [← afterPoint_split hafter] at hdrop
      rw [hdrop]
      exact ih text.length (hn ▸ afterPoint_length hafter) hat rfl

/-- Where a terminator follows the last number, the memory has no more of it than the view. -/
theorem endsAt_nul {s : Bytes} (h : run digitValue 10 s ≠ []) (tail : Bytes) :
    EndsAt (s ++ 0 :: tail) s := by
  rw [EndsAt, if_neg h, run_nul, behind_nul]
  exact Or.inr ⟨by simp, Or.inr ⟨rfl, rfl⟩⟩

/-- What is written is the longest version text of its view, and the view ends well. -/
theorem written_wellEnded [Host] {xs : List Int} (h : ∀ x ∈ xs, 0 ≤ x ∧ x < 2 ^ 31)
    (hlength : (versionString xs).length < 2 ^ 31) (tail : Bytes) :
    WellEnded (.ofString (versionString xs) tail hlength) ∧
      LongestVersion (Latin1String.ofString (versionString xs) tail hlength).chars
        (versionString xs).length xs := by
  by_cases hne : xs = []
  · subst hne
    refine ⟨⟨0 :: tail, rfl, ?_⟩, Or.inr ⟨rfl, rfl⟩, fun m segs hat => hat.1⟩
    have hplace : lastPlace [] = 0 := (versionPrefix_none rfl).2
    rw [show (Latin1String.ofString (versionString []) tail hlength).chars = [] from rfl, hplace]
    exact Or.inr ⟨nofun, Or.inl rfl⟩
  · have hversion := versionText_written h hne
    have hsize : (toLatin1 (versionString xs)).takeWhile (· ≠ 0) = toLatin1 (versionString xs) := by
      rw [List.takeWhile_eq_self_iff]
      intro c hc
      exact decide_eq_true fun hzero => hversion.no_nul (hzero ▸ hc)
    have hchars : (Latin1String.ofString (versionString xs) tail hlength).chars =
        toLatin1 (versionString xs) := by
      show (toLatin1 (versionString xs) ++ 0 :: tail).take
        ((toLatin1 (versionString xs)).takeWhile (· ≠ 0)).length = _
      rw [hsize, List.take_left]
    have htext : (toLatin1 (versionString xs)).length = (versionString xs).length :=
      List.length_map _
    rw [hchars]
    refine ⟨⟨_, rfl, ?_⟩, htext ▸ hversion.longest⟩
    have hlast : run digitValue 10
        ((toLatin1 (versionString xs)).drop (lastPlace (toLatin1 (versionString xs)))) ≠ [] := by
      have hat : VersionAt (toLatin1 (versionString xs)) (toLatin1 (versionString xs)).length xs :=
        ⟨Nat.le_refl _, by rwa [List.take_length], by simp⟩
      exact hat.lastPlace
    have hplace : lastPlace (toLatin1 (versionString xs)) ≤ (toLatin1 (versionString xs)).length := by
      by_contra hbeyond
      rw [List.drop_of_length_le (by omega)] at hlast
      exact hlast rfl
    rw [hchars, List.drop_append_of_le_length hplace]
    exact endsAt_nul hlast tail

section

variable [Host]

open VersionNumber

/-- What `toString` writes is read back, whatever the memory has behind the terminator. -/
theorem fromString_toString (v : VersionNumber) (h : ∀ x ∈ v.getSegments, 0 ≤ x)
    (hlength : (versionString v.getSegments).length < 2 ^ 31) (tail : Bytes) :
    ∃ v', fromString (.ofString (versionString v.getSegments) tail hlength) =
        some (v', ((versionString v.getSegments).length : Int)) ∧
      v'.getSegments = v.getSegments := by
  have hints : ∀ x ∈ v.getSegments, 0 ≤ x ∧ x < 2 ^ 31 := by
    intro x hx
    have hint := ints_getSegments v x hx
    exact ⟨h x hx, by omega⟩
  obtain ⟨hwell, hlongest⟩ := written_wellEnded hints hlength tail
  obtain ⟨v', n, hparsed, hversion⟩ := (fromString_iff _).mpr hwell
  obtain ⟨rfl, hsegments⟩ := hversion.unique hlongest
  exact ⟨v', hparsed, hsegments⟩

/-- A version number is read back from its text. A view is read as the longest version text that it
begins with if, and only if, it ends well. -/
theorem fromString_exact :
    (∀ v : VersionNumber, (∀ x ∈ v.getSegments, 0 ≤ x) →
      (versionString v.getSegments).length < 2 ^ 30 →
      v.toString = some (versionString v.getSegments) ∧
        ∀ (hlength : (versionString v.getSegments).length < 2 ^ 31) (tail : Bytes), ∃ v',
          fromString (.ofString (versionString v.getSegments) tail hlength) =
              some (v', ((versionString v.getSegments).length : Int)) ∧
            v'.getSegments = v.getSegments) ∧
    ∀ s : Latin1String, ParsesExactly s ↔ WellEnded s :=
  ⟨fun v h hlength => ⟨toString_eq v h hlength, fun hlength tail =>
    fromString_toString v h hlength tail⟩, fromString_iff⟩

end

open VersionNumber in
theorem fromString_exact_three : ∃ (_ : Host) (v v' : VersionNumber),
    v.getSegments = [1, 20, 3] ∧ v.toString = some (lit16 "1.20.3") ∧
      fromString (.ofString (lit16 "1.20.3") [byte '9'] (by decide)) = some (v', 6) ∧
      v'.getSegments = [1, 20, 3] := by
  let host : Host := ⟨.littleEndian⟩
  have hv := getSegments_ofVector (show [1, 20, 3].length < 2 ^ 31 by decide)
  have htext : versionString [1, 20, 3] = lit16 "1.20.3" := by decide +kernel
  have hresult := fromString_exact.1 (ofVector [1, 20, 3] (by decide))
    (by rw [hv]; decide) (by rw [hv]; decide +kernel)
  obtain ⟨hwritten, hread⟩ := hresult
  rw [hv] at hwritten hread
  obtain ⟨v', hparsed, hsegments⟩ := hread (by decide +kernel) [byte '9']
  refine ⟨host, _, v', hv, ?_, ?_, hsegments⟩
  · rw [← htext]
    exact hwritten
  · simp only [← htext]
    exact hparsed

open VersionNumber in
/-- The view of the first digit of 12, in a memory that has both. -/
theorem fromString_outside : ∃ (_ : Host) (s : Latin1String) (v : VersionNumber),
    s.data = some (lit "12" ++ [0]) ∧ s.chars = lit "1" ∧ fromString s = some (v, 2) ∧
      v.getSegments = [12] ∧ ¬ParsesExactly s := by
  let host : Host := ⟨.littleEndian⟩
  have hloop : fromStringLoop (lit "12" ++ [0]) 1 0 0 [] = some ([12], 2) := by
    rw [fromStringLoop_eq]
    rfl
  have hparsed : fromString ⟨some (lit "12" ++ [0]), 1, by decide, by decide⟩ =
      some (ofVector [12] (by decide), 2) := by
    rw [fromString]
    simp only [Option.bind_eq_bind, Option.bind_some, hloop]
    rfl
  refine ⟨host, ⟨some (lit "12" ++ [0]), 1, by decide, by decide⟩, _, rfl, rfl, hparsed,
    getSegments_ofVector _, ?_⟩
  rintro ⟨v, n, h, hlongest⟩
  rw [hparsed] at h
  obtain ⟨-, hn⟩ := Prod.mk.inj (Option.some.inj h)
  have hle : n ≤ 1 := hlongest.facts.1
  omega

end Libpdk.Utils
