import Libpdk.Core.Splice
import Libpdk.Lang.StringSearchExact

/-!
# Replacing in a string

The arguments are pointers with a length, and they may point into the string that is rewritten:
a pointer into it is gone with the first write, so what is still needed then has to be copied
before. Places are collected in batches of 1024; a batch is rewritten in place, and the search goes
on behind what was put in.
-/
namespace Libpdk.Lang

section

open Codecs.Character

/-- Where an argument points: into the string itself, to units elsewhere, or to a copy. -/
inductive Pointer
  | own (offset : Nat)
  | outside (address : Nat)
  | buffer (units : Str)
  deriving DecidableEq

/-- The units of the string; once they were written no pointer into them is used. -/
structure Rewriting where
  units : Str
  rewritten : Bool

/-- `length` units that are there. -/
structure Argument (s : Str) where
  pointer : Pointer
  length : Nat
  valid : match pointer with
    | .own offset => offset + length ≤ s.length
    | .outside _ => True
    | .buffer units => length ≤ units.length

/-! ## The matcher -/

/-- A string and a pattern in one memory. -/
def beside (s pattern : Str) : Memory := ⟨fun i => (s ++ pattern).getD i 0, fun _ => 0⟩

def stringView (s : Str) : StringView := ⟨some 0, s.length, (nomatch ·)⟩

def patternView (s pattern : Str) : StringView := ⟨some s.length, pattern.length, (nomatch ·)⟩

/-- A `StringMatcher` whose pattern is a pointer. -/
structure PatternMatcher where
  pattern : Pointer
  skiptable : Nat → Nat

section

variable (outside fresh : Nat → UInt16) (f : CaseFolding) (cs : CaseSensitivity)

/-- `n` units at a pointer. -/
def readPointer (t : Rewriting) (n : Nat) : Pointer → Option Str
  | .own offset =>
    if n = 0 then some [] else if t.rewritten then none else Block.read t.units offset n
  | .outside address => some ((List.range n).map fun i => outside (address + i))
  | .buffer units => Block.read units 0 n

/-- mirrors lang/String.cpp:1262-1269 -/
def textCopy (t : Rewriting) (start : Pointer) (len : Nat) : Option Pointer :=
  (readPointer outside t len start).map .buffer

/-- mirrors lang/String.cpp:1271-1275 -/
def pointsIntoRange (t : Rewriting) : Pointer → Bool
  | .own offset => offset < t.units.length
  | _ => false

/-- mirrors lang/StringMatcher.cpp:121-128 -/
def patternMatcher (t : Rewriting) (uc : Pointer) (len : Nat) : Option PatternMatcher := do
  let pattern ← readPointer outside t len uc
  let skiptable ← bmInitSkiptable (beside [] pattern) f cs (patternView [] pattern)
  some ⟨uc, skiptable⟩

/-- mirrors lang/StringMatcher.cpp:176-184 -/
def PatternMatcher.indexIn (matcher : PatternMatcher) (t : Rewriting) (blength : Nat)
    (start : Int) : Option Int := do
  let pattern ← readPointer outside t blength matcher.pattern
  bmFind (beside t.units pattern) f cs (stringView t.units) (max start 0).toNat
    (patternView t.units pattern) matcher.skiptable

/-! ## One batch -/

/-- "replace in place"
mirrors lang/String.cpp:1289-1293 -/
def inPlaceLoop (after : Str) : List Nat → Str → Option Str
  | [], u => some u
  | index :: indices, u => do
    let u ← Block.write u index after
    inPlaceLoop after indices u

/-- The units between two places move to the front.
mirrors lang/String.cpp:1303-1307 and 1314-1317 -/
def moveToFront (u : Str) (dst movestart moveend : Nat) : Option (Str × Nat) :=
  if movestart < moveend then do
    let u ← Block.move u dst movestart (moveend - movestart)
    some (u, dst + (moveend - movestart))
  else some (u, dst)

/-- mirrors lang/String.cpp:1302-1313 -/
def shrinkLoop (after : Str) (blength : Nat) :
    List Nat → Str → Nat → Nat → Option (Str × Nat × Nat)
  | [], u, dst, movestart => some (u, dst, movestart)
  | index :: indices, u, dst, movestart => do
    let (u, dst) ← moveToFront u dst movestart index
    let u ← Block.write u dst after
    shrinkLoop after blength indices u (dst + after.length) (index + blength)

/-- "replace from front"
mirrors lang/String.cpp:1295-1318 -/
def shrink (after : Str) (blength : Nat) (u : Str) : List Nat → Option Str
  | [] => none
  | index :: indices => do
    let size := u.length
    let u ← Block.write u index after
    let (u, dst, movestart) ←
      shrinkLoop after blength indices u (index + after.length) (index + blength)
    let (u, _) ← moveToFront u dst movestart size
    some (u.take (size - (indices.length + 1) * (blength - after.length)))

/-- The places from the last one down.
mirrors lang/String.cpp:1325-1334 -/
def growLoop (after : Str) (blength : Nat) : List Nat → Str → Nat → Option Str
  | [], u, _ => some u
  | index :: indices, u, moveend => do
    let movestart := index + blength
    let insertstart := index + indices.length * (after.length - blength)
    let moveto := insertstart + after.length
    let u ← Block.move u moveto movestart (moveend - movestart)
    let u ← Block.write u insertstart after
    growLoop after blength indices u (movestart - blength)

/-- "replace from back"
mirrors lang/String.cpp:1320-1334 -/
def grow (after : Str) (blength : Nat) (u : Str) (indices : List Nat) : Option Str :=
  let adjust := indices.length * (after.length - blength)
  growLoop after blength indices.reverse (u ++ (List.range adjust).map fresh) u.length

/-- `after`, copied where it is vulnerable. -/
def safeAfter (t : Rewriting) (after : Pointer) (alength : Nat) : Option Pointer :=
  if pointsIntoRange t after then textCopy outside t after alength else some after

/-- mirrors lang/String.cpp:1287-1335 -/
def moveUnits (text : Str) (blength : Nat) (u : Str) (indices : List Nat) : Option Str :=
  if blength = text.length then inPlaceLoop text indices u
  else if text.length < blength then shrink text blength u indices
  else grow fresh text blength u indices

/-- mirrors lang/String.cpp:1278-1341 -/
def replaceHelper (t : Rewriting) (indices : List Nat) (blength : Nat) (after : Pointer)
    (alength : Nat) : Option Rewriting := do
  let after ← safeAfter outside t after alength
  -- from here on the units are written
  let text ← readPointer outside { t with rewritten := true } alength after
  let units ← moveUnits fresh text blength t.units indices
  some ⟨units, true⟩

/-! ## The batches -/

/-- mirrors lang/String.cpp:1363-1376 -/
def collectIndices (matcher : PatternMatcher) (t : Rewriting) (blength : Nat) :
    Nat → Int → Option (List Nat × Int)
  | 0, index => some ([], index)
  | count + 1, index => do
    let index ← matcher.indexIn outside f cs t blength index
    if index = -1 then some ([], -1)
    else do
      let (indices, next) ← collectIndices matcher t blength count
        (if blength ≠ 0 then index + blength else index + 1)
      some (index.toNat :: indices, next)

/-- "data, that before and after might point into, and we'll need that data for our next batch"
mirrors lang/String.cpp:1381-1385 -/
def keepAfter (t : Rewriting) (index : Int) (after : Pointer) (alength : Nat) : Option Pointer :=
  if index ≠ -1 ∧ pointsIntoRange t after then textCopy outside t after alength else some after

/-- mirrors lang/String.cpp:1387-1390 -/
def keepMatcher (t : Rewriting) (index : Int) (matcher : PatternMatcher) (blength : Nat) :
    Option PatternMatcher :=
  if index ≠ -1 ∧ pointsIntoRange t matcher.pattern then do
    let before ← textCopy outside t matcher.pattern blength
    patternMatcher outside f cs t before blength
  else some matcher

/-- mirrors lang/String.cpp:1360-1398 -/
def replaceLoop (blength alength : Nat) :
    Nat → PatternMatcher → Pointer → Rewriting → Int → Option Str
  | 0, _, _, _, _ => none
  | rounds + 1, matcher, after, t, index => do
    let (indices, index) ← collectIndices outside f cs matcher t blength 1024 index
    if indices = [] then some t.units
    else do
      let after ← keepAfter outside t index after alength
      let matcher ← keepMatcher outside f cs t index matcher blength
      let t ← replaceHelper outside fresh t indices blength after alength
      let moved : Int := index + indices.length * ((alength : Int) - blength)
      if index = -1 then some t.units
      else replaceLoop blength alength rounds matcher after t moved

/-- `String::replace` of a string that nobody has written to yet.
mirrors lang/String.cpp:1343-1402 -/
def replaceText (s : Str) (before after : Argument s) : Option Str :=
  if s = [] ∧ before.length ≠ 0 then some s
  else if s ≠ [] ∧ cs = .sensitive ∧ before.pointer = after.pointer ∧
      before.length = after.length then some s
  else if after.length = 0 ∧ before.length = 0 then some s
  else do
    let t : Rewriting := ⟨s, false⟩
    let matcher ← patternMatcher outside f cs t before.pointer before.length
    replaceLoop outside fresh f cs before.length after.length (s.length + 2) matcher after.pointer
      t 0

end

end

/-!
## Replacing replaces every occurrence

A batch of places is rewritten in place: with a text of the same length, from the front with a
shorter one, from the back with a longer one. Each time the units become what `splice` says
(`moveUnits_splice`).

A pointer is either copied before the string is written or does not depend on it (`Lasting`). So
each batch finds the occurrences that are left, from the left and without overlaps (`Greedy`), and
after it the units in front of where the search goes on are those of the result
(`replaceText_exact`).
-/

/-! ## A text of the same length -/

/-- In front of the place the units are done, from there on they are as before. -/
theorem inPlaceLoop_splice {s after : Str} : ∀ {places : List Nat} {place : Nat} {u : Str},
    Spaced s.length after.length place places → u.length = s.length →
    u.drop place = s.drop place →
    inPlaceLoop after places u = some (u.take place ++ splice after.length after s place places)
  | [], place, u, _, _, hdrop => by
    rw [inPlaceLoop, splice, ← hdrop, List.take_append_drop]
  | index :: places, place, u, h, hlen, hdrop => by
    obtain ⟨hle, hrest⟩ := h
    have hend := hrest.le
    obtain ⟨u', hu', hw⟩ := Block.write_spec u index after (by omega)
    obtain ⟨d, rfl⟩ := Nat.exists_eq_add_of_le hle
    have hgap : u.take (place + d) = u.take place ++ (s.drop place).take d := by
      rw [List.take_add, hdrop]
    have hback : u.drop (place + d + after.length) = s.drop (place + d + after.length) := by
      rw [Nat.add_assoc, ← List.drop_drop, hdrop, List.drop_drop]
    rw [inPlaceLoop, hu', Option.bind_eq_bind, Option.bind_some,
      inPlaceLoop_splice hrest (hw.length.trans hlen) (hw.back.trans hback), hw.front, hgap, splice,
      Nat.add_sub_cancel_left]
    simp only [List.append_assoc]

/-! ## A shorter text -/

theorem moveToFront_spec {u : Str} {dst movestart moveend : Nat} (hle : dst ≤ movestart)
    (hend : moveend ≤ u.length) (hmove : movestart ≤ moveend) :
    ∃ u', moveToFront u dst movestart moveend = some (u', dst + (moveend - movestart)) ∧
      u'.length = u.length ∧
      u'.take (dst + (moveend - movestart)) =
        u.take dst ++ (u.drop movestart).take (moveend - movestart) ∧
      u'.drop moveend = u.drop moveend := by
  rw [moveToFront]
  by_cases hlt : movestart < moveend
  · obtain ⟨u', hu', hw⟩ := Block.move_spec u dst movestart (moveend - movestart)
      (by omega) (by omega)
    have hlen : ((u.drop movestart).take (moveend - movestart)).length = moveend - movestart := by
      rw [List.length_take, List.length_drop]
      omega
    refine ⟨u', by rw [if_pos hlt, hu']; rfl, hw.length, ?_, hw.drop (by omega)⟩
    have hfront := hw.front
    rwa [hlen] at hfront
  · have hzero : moveend - movestart = 0 := by omega
    refine ⟨u, by rw [if_neg hlt, hzero, Nat.add_zero], rfl, ?_, rfl⟩
    rw [hzero, Nat.add_zero, List.take_zero, List.append_nil]

/-- Up to `dst` the units are done; from `movestart` on they are as before. -/
theorem shrinkLoop_splice {s after : Str} {blength : Nat} (hshort : after.length ≤ blength) :
    ∀ {places : List Nat} {u : Str} {dst movestart : Nat},
      Spaced s.length blength movestart places → u.length = s.length → dst ≤ movestart →
      u.drop movestart = s.drop movestart →
      ∃ u' dst' movestart', shrinkLoop after blength places u dst movestart =
          some (u', dst', movestart') ∧
        u'.length = s.length ∧ dst' ≤ movestart' ∧ movestart' ≤ s.length ∧
        u'.drop movestart' = s.drop movestart' ∧
        u'.take dst' ++ s.drop movestart' =
          u.take dst ++ splice blength after s movestart places ∧
        dst' + (s.length - movestart') + places.length * (blength - after.length) =
          dst + (s.length - movestart)
  | [], u, dst, movestart, h, hlen, hle, hdrop =>
    ⟨u, dst, movestart, rfl, hlen, hle, h, hdrop, rfl, by simp⟩
  | index :: places, u, dst, movestart, h, hlen, hle, hdrop => by
    obtain ⟨hindex, hrest⟩ := h
    have hend := hrest.le
    obtain ⟨u₁, hu₁, hlen₁, hfront₁, hback₁⟩ := moveToFront_spec (u := u) hle
      (show index ≤ u.length by omega) hindex
    obtain ⟨u₂, hu₂, hw⟩ := Block.write_spec u₁ (dst + (index - movestart)) after (by omega)
    have hback : u₂.drop (index + blength) = s.drop (index + blength) := by
      obtain ⟨d, rfl⟩ := Nat.exists_eq_add_of_le hindex
      rw [hw.drop (by omega), ← List.drop_drop, hback₁, List.drop_drop, Nat.add_assoc,
        ← List.drop_drop, hdrop, List.drop_drop]
    obtain ⟨u', dst', movestart', hrun, hlen', hle', hin', hdrop', htake', hcount'⟩ :=
      shrinkLoop_splice hshort hrest (hw.length.trans (hlen₁.trans hlen))
        (show dst + (index - movestart) + after.length ≤ index + blength by omega) hback
    refine ⟨u', dst', movestart', ?_, hlen', hle', hin', hdrop', ?_, ?_⟩
    · rw [shrinkLoop, hu₁, Option.bind_eq_bind, Option.bind_some]
      simp only [hu₂, Option.bind_eq_bind, Option.bind_some, hrun]
    · rw [htake', hw.front, hfront₁, hdrop, splice]
      simp only [List.append_assoc]
    · rw [List.length_cons, Nat.add_mul]
      omega

theorem shrink_splice {s after : Str} {blength index : Nat} {places : List Nat}
    (hshort : after.length ≤ blength) (h : Spaced s.length blength 0 (index :: places)) :
    shrink after blength s (index :: places) =
      some (splice blength after s 0 (index :: places)) := by
  obtain ⟨-, hrest⟩ := h
  have hend := hrest.le
  obtain ⟨u₁, hu₁, hw⟩ := Block.write_spec s index after (by omega)
  obtain ⟨u₂, dst, movestart, hrun, hlen, hle, hin, hdrop, htake, hcount⟩ :=
    shrinkLoop_splice (u := u₁) hshort hrest hw.length
      (show index + after.length ≤ index + blength by omega) (hw.drop (by omega))
  obtain ⟨u₃, hu₃, hlen₃, hfront₃, -⟩ := moveToFront_spec (u := u₂) hle
    (show s.length ≤ u₂.length by omega) hin
  have hsize : s.length - (places.length + 1) * (blength - after.length) =
      dst + (s.length - movestart) := by
    rw [Nat.add_mul]
    omega
  rw [shrink, hu₁, Option.bind_eq_bind, Option.bind_some]
  simp only [hrun, Option.bind_eq_bind, Option.bind_some, hu₃]
  have hrest' : (s.drop movestart).take (s.length - movestart) = s.drop movestart :=
    List.take_of_length_le (Nat.le_of_eq List.length_drop)
  rw [hsize, hfront₃, hdrop, hrest', htake, hw.front, splice, List.drop_zero, Nat.sub_zero]
  simp only [List.append_assoc]

/-! ## A longer text -/

/-- It is the expansion of the library. -/
theorem growLoop_expand (after : Str) (blength : Nat) : ∀ (indices : List Nat) (u : Str)
    (moveend : Nat), growLoop after blength indices u moveend =
      Block.expand blength after indices u moveend
  | [], _, _ => rfl
  | index :: indices, u, moveend => by
    simp only [growLoop, Block.expand, Nat.add_sub_cancel, growLoop_expand after blength indices]

theorem grow_splice {s after : Str} {blength : Nat} (fresh : Nat → UInt16) {places : List Nat}
    (hlong : blength ≤ after.length) (h : Spaced s.length blength 0 places) :
    grow fresh after blength s places = some (splice blength after s 0 places) := by
  have hrun : grow fresh after blength s places =
      some (splice blength after s 0 (places ++ [])) :=
    (growLoop_expand after blength _ _ _).trans <| Block.expand_splice hlong
    (by rwa [List.append_nil]) (fun p hp => (h.place_le hp).2)
    (Nat.le_refl s.length) (by simp) (by rw [List.take_left, List.take_length]) (by
      rw [splice, List.drop_length]
      apply List.drop_eq_nil_of_le
      simp)
  rwa [List.append_nil] at hrun

theorem moveUnits_splice {s text : Str} {blength : Nat} (fresh : Nat → UInt16) {places : List Nat}
    (hne : places ≠ []) (h : Spaced s.length blength 0 places) :
    moveUnits fresh text blength s places = some (splice blength text s 0 places) := by
  rw [moveUnits]
  by_cases hsame : blength = text.length
  · subst hsame
    rw [if_pos rfl, inPlaceLoop_splice h rfl rfl, List.take_zero, List.nil_append]
  rw [if_neg hsame]
  by_cases hshort : text.length < blength
  · cases places with
    | nil => exact absurd rfl hne
    | cons index places => rw [if_pos hshort, shrink_splice (by omega) h]
  · rw [if_neg hshort, grow_splice fresh (by omega) h]

open Codecs.Character

section

variable {outside fresh : Nat → UInt16} {f : CaseFolding}

/-! ## Pointers -/

/-- The units of an argument. -/
def Argument.text {s : Str} (outside : Nat → UInt16) (a : Argument s) : Str :=
  match a.pointer with
  | .own offset => (s.drop offset).take a.length
  | .outside address => (List.range a.length).map fun i => outside (address + i)
  | .buffer units => units.take a.length

/-- A pointer that is not affected by what happens to the string. -/
def Lasting (outside : Nat → UInt16) (p : Pointer) (text : Str) : Prop :=
  ∀ t, readPointer outside t text.length p = some text

/-- A pointer that can be read, and lasts where it does not point into the string. -/
structure Usable (outside : Nat → UInt16) (t : Rewriting) (p : Pointer) (text : Str) : Prop where
  reads : readPointer outside t text.length p = some text
  lasting : pointsIntoRange t p = false → Lasting outside p text

theorem Lasting.usable {p : Pointer} {text : Str} (h : Lasting outside p text) (t : Rewriting) :
    Usable outside t p text := ⟨h t, fun _ => h⟩

theorem lasting_buffer (text : Str) : Lasting outside (.buffer text) text := by
  intro t
  rw [readPointer, Block.read_eq (by omega), List.drop_zero, List.take_length]

theorem Argument.length_text {s : Str} (a : Argument s) : (a.text outside).length = a.length := by
  have hvalid := a.valid
  rw [text]
  split
  · next offset hp =>
    rw [hp] at hvalid
    simp only at hvalid
    rw [List.length_take, List.length_drop]
    omega
  · rw [List.length_map, List.length_range]
  · next units hp =>
    rw [hp] at hvalid
    simp only at hvalid
    rw [List.length_take]
    omega

theorem Argument.usable {s : Str} (a : Argument s) :
    Usable outside ⟨s, false⟩ a.pointer (a.text outside) := by
  have hlen : (a.text outside).length = a.length := a.length_text
  have hvalid := a.valid
  cases hp : a.pointer with
  | own offset =>
    rw [hp] at hvalid
    have htext : a.text outside = (s.drop offset).take a.length := by rw [text, hp]
    simp only at hvalid
    refine ⟨?_, fun hout t => ?_⟩
    · rw [hlen, readPointer]
      by_cases hzero : a.length = 0
      · rw [if_pos hzero, htext, hzero, List.take_zero]
      · rw [if_neg hzero, htext]
        exact Block.read_eq hvalid
    · -- only an empty text can stand at the end
      have hend : s.length ≤ offset := by
        simpa [pointsIntoRange] using hout
      have hzero : a.length = 0 := by omega
      rw [hlen, readPointer, if_pos hzero, htext, hzero, List.take_zero]
  | outside address =>
    have hall : Lasting outside (.outside address) (a.text outside) := by
      intro t
      rw [hlen, readPointer, text, hp]
    exact hall.usable _
  | buffer units =>
    rw [hp] at hvalid
    simp only at hvalid
    have hall : Lasting outside (.buffer units) (a.text outside) := by
      intro t
      rw [hlen, readPointer, Block.read_eq (by omega), text, hp, List.drop_zero]
    exact hall.usable _

theorem textCopy_lasting {t : Rewriting} {p : Pointer} {text : Str}
    (h : readPointer outside t text.length p = some text) :
    ∃ p', textCopy outside t p text.length = some p' ∧ Lasting outside p' text :=
  ⟨.buffer text, by rw [textCopy, h]; rfl, lasting_buffer text⟩

theorem safeAfter_lasting {t : Rewriting} {p : Pointer} {text : Str}
    (h : Usable outside t p text) :
    ∃ p', safeAfter outside t p text.length = some p' ∧ Lasting outside p' text := by
  rw [safeAfter]
  by_cases hin : pointsIntoRange t p
  · rw [if_pos hin]
    exact textCopy_lasting h.reads
  · rw [if_neg hin]
    exact ⟨p, rfl, h.lasting (by simpa using hin)⟩

theorem keepAfter_usable {t : Rewriting} {p : Pointer} {text : Str} (h : Usable outside t p text)
    (index : Int) :
    ∃ p', keepAfter outside t index p text.length = some p' ∧ Usable outside t p' text ∧
      (index ≠ -1 → Lasting outside p' text) := by
  rw [keepAfter]
  by_cases hin : index ≠ -1 ∧ pointsIntoRange t p
  · obtain ⟨p', hp', hall⟩ := textCopy_lasting h.reads
    exact ⟨p', by rw [if_pos hin, hp'], hall.usable t, fun _ => hall⟩
  · refine ⟨p, if_neg hin, h, fun hindex => h.lasting ?_⟩
    simpa using fun hp => hin ⟨hindex, hp⟩

/-! ## The matcher -/

theorem read_stringView (s pattern : Str) :
    (stringView s).read (beside s pattern).units = s :=
  read_getD [] s pattern 0

theorem read_patternView (s pattern : Str) :
    (patternView s pattern).read (beside s pattern).units = pattern := by
  have hread := read_getD s pattern [] 0
  rwa [List.append_nil] at hread

theorem occurs_beside {s pattern : Str} {i : Nat} :
    Occurs (beside s pattern) (stringView s) (patternView s pattern) i ↔ OccursAt pattern s i := by
  rw [Occurs, read_stringView, read_patternView]

/-- A matcher that can be read and whose table is that of the pattern. -/
structure Matching (outside : Nat → UInt16) (t : Rewriting) (matcher : PatternMatcher)
    (pattern : Str) : Prop where
  usable : Usable outside t matcher.pattern pattern
  skips : BoyerMoore.Skips (· % 256) (numbers pattern) matcher.skiptable

variable (f) in
theorem patternMatcher_spec {t : Rewriting} {p : Pointer} {pattern : Str}
    (h : Usable outside t p pattern) :
    ∃ matcher, patternMatcher outside f .sensitive t p pattern.length = some matcher ∧
      matcher.pattern = p ∧ Matching outside t matcher pattern := by
  obtain ⟨skiptable, htable, hskip⟩ :=
    bmInitSkiptable_spec (beside [] pattern) f .sensitive (patternView [] pattern)
  have hskips := hskip (unsplit_sensitive _)
  rw [Skipping, stringKeys, read_patternView] at hskips
  refine ⟨⟨p, skiptable⟩, ?_, rfl, h, hskips⟩
  rw [patternMatcher, h.reads, Option.bind_eq_bind, Option.bind_some, htable]
  rfl

variable (f) in
theorem keepMatcher_matching {t : Rewriting} {matcher : PatternMatcher} {pattern : Str}
    (h : Matching outside t matcher pattern) (index : Int) :
    ∃ matcher', keepMatcher outside f .sensitive t index matcher pattern.length = some matcher' ∧
      (index ≠ -1 → ∀ t', Matching outside t' matcher' pattern) := by
  rw [keepMatcher]
  by_cases hin : index ≠ -1 ∧ pointsIntoRange t matcher.pattern
  · obtain ⟨p, hp, hall⟩ := textCopy_lasting h.usable.reads
    obtain ⟨matcher', hmatcher, hpattern, hmatching⟩ := patternMatcher_spec f (hall.usable t)
    refine ⟨matcher', by rw [if_pos hin, hp]; exact hmatcher, fun _ t' => ⟨?_, hmatching.skips⟩⟩
    rw [hpattern]
    exact hall.usable t'
  · refine ⟨matcher, if_neg hin, fun hindex t' => ⟨(h.usable.lasting ?_).usable t', h.skips⟩⟩
    simpa using fun hp => hin ⟨hindex, hp⟩

theorem bmFind_behind {m : Memory} {cs : CaseSensitivity} {h needle : StringView}
    (skiptable : Nat → Nat) {index : Nat} (hindex : h.size < index) :
    bmFind m f cs h index needle skiptable = some (-1) := by
  rw [bmFind_search]
  exact BoyerMoore.search_behind _ (by rwa [length_stringKeys])

variable (f) in
/-- The matcher finds the first occurrence, from behind the end none. -/
theorem PatternMatcher.indexIn_first {t : Rewriting} {matcher : PatternMatcher} {pattern : Str}
    (h : Matching outside t matcher pattern) (index : Nat) :
    ∃ r, matcher.indexIn outside f .sensitive t pattern.length index = some r ∧
      FirstFrom (OccursAt pattern t.units) index r := by
  have hmax : (max (index : Int) 0).toNat = index := by omega
  rw [indexIn, h.usable.reads, Option.bind_eq_bind, Option.bind_some, hmax]
  by_cases hindex : index ≤ (stringView t.units).size
  · obtain ⟨r, hr, -, hfirst⟩ := bmFind_first (beside t.units pattern) f .sensitive
      (patternView t.units pattern) matcher.skiptable hindex
    have hskip : Skipping (beside t.units pattern) f .sensitive (patternView t.units pattern)
        matcher.skiptable := by
      rw [Skipping, stringKeys, read_patternView]
      exact h.skips
    refine ⟨r, hr, (hfirst hskip).congr fun j _ => ?_⟩
    rw [keysAt_sensitive, occurs_beside]
  · refine ⟨-1, bmFind_behind _ (by omega), .none fun j hj hat => ?_⟩
    have hle := hat.le
    have hsize : (stringView t.units).size = t.units.length := rfl
    omega

/-! ## A batch -/

variable (f) in
/-- A batch ends where nothing is left, or when it is full. -/
theorem collectIndices_greedy {t : Rewriting} {matcher : PatternMatcher} {pattern : Str}
    (h : Matching outside t matcher pattern) : ∀ (count k : Nat),
    ∃ places next k', collectIndices outside f .sensitive matcher t pattern.length count k =
        some (places, next) ∧ Greedy pattern t.units k places k' ∧
      ((next = -1 ∧ ∀ j, k' ≤ j → ¬OccursAt pattern t.units j) ∨
        (next = k' ∧ (places = [] → count = 0)))
  | 0, k => ⟨[], k, k, rfl, .stop k, .inr ⟨rfl, fun _ => rfl⟩⟩
  | count + 1, k => by
    obtain ⟨r, hr, hfirst⟩ := matcher.indexIn_first f h k
    rw [collectIndices, hr, Option.bind_eq_bind, Option.bind_some]
    cases hfirst with
    | none nowhere =>
      exact ⟨[], -1, k, if_pos rfl, .stop k, .inl ⟨rfl, nowhere⟩⟩
    | @found j le holds least =>
      obtain ⟨places, next, k', hrun, hgreedy, hnext⟩ :=
        collectIndices_greedy h count (j + stride pattern)
      have hstep : (if pattern.length ≠ 0 then (j : Int) + pattern.length else (j : Int) + 1) =
          (j + stride pattern : Nat) := by
        rw [stride]
        by_cases hne : pattern = []
        · rw [if_neg (by simp [hne]), if_pos hne]
          rfl
        · rw [if_pos (by simpa using hne), if_neg hne]
          rfl
      refine ⟨j :: places, next, k', ?_, .cons le holds least hgreedy, ?_⟩
      · rw [if_neg (by omega), hstep, hrun]
        rfl
      · rcases hnext with hend | ⟨hnext, -⟩
        · exact .inl hend
        · exact .inr ⟨hnext, (absurd · (List.cons_ne_nil _ _))⟩

theorem replaceHelper_splice {t : Rewriting} {places : List Nat} {blength : Nat}
    {after : Pointer} {text : Str} (hafter : Usable outside t after text) (hne : places ≠ [])
    (hspaced : Spaced t.units.length blength 0 places) :
    replaceHelper outside fresh t places blength after text.length =
      some ⟨splice blength text t.units 0 places, true⟩ := by
  obtain ⟨p, hp, hlasting⟩ := safeAfter_lasting hafter
  rw [replaceHelper, hp, Option.bind_eq_bind, Option.bind_some, hlasting, Option.bind_eq_bind,
    Option.bind_some, moveUnits_splice fresh hne hspaced]
  rfl

/-! ## The batches -/

variable (fresh f) in
theorem replaceLoop_exact {before text : Str} : ∀ (rounds : Nat) {matcher : PatternMatcher}
    {after : Pointer} {t : Rewriting} {k : Nat}, t.units.length + 2 ≤ rounds + k →
    k ≤ t.units.length + 1 → Matching outside t matcher before → Usable outside t after text →
    replaceLoop outside fresh f .sensitive before.length text.length rounds matcher after t k =
      some (t.units.take k ++ replaceTail before text t.units k)
  | 0, matcher, after, t, k, hrounds, hk, _, _ => by omega
  | rounds + 1, matcher, after, t, k, hrounds, hk, hmatching, hafter => by
    obtain ⟨places, next, k', hrun, hgreedy, hnext⟩ := collectIndices_greedy f hmatching 1024 k
    rw [replaceLoop, hrun, Option.bind_eq_bind, Option.bind_some]
    by_cases hnil : places = []
    · -- nothing is left
      subst hnil
      have hnowhere : ∀ j, k ≤ j → ¬OccursAt before t.units j := by
        cases hgreedy with
        | nil le within blank =>
          rcases hnext with ⟨-, hnone⟩ | ⟨-, hfull⟩
          · intro j hj
            by_cases hlt : j < k'
            · exact blank j hj hlt
            · exact hnone j (by omega)
          · exact absurd (hfull rfl) (by decide)
      rw [replaceTail_none hnowhere, List.take_append_drop]
      rfl
    obtain ⟨-, hbound, hnonempty⟩ := hgreedy.next_le
    obtain ⟨hlt, hin⟩ := hnonempty hnil
    have hk' : k' ≤ t.units.length + 1 := by omega
    have hspaced : Spaced t.units.length before.length 0 places :=
      hgreedy.spaced.mono (Nat.zero_le _)
    obtain ⟨p, hp, husable, hlasting⟩ := keepAfter_usable hafter next
    obtain ⟨matcher', hmatcher, hkept⟩ := keepMatcher_matching f hmatching next
    obtain ⟨place, hplace, hlen, hdone⟩ := hgreedy.moved text hin hk'
    simp only [if_neg hnil, hp, hmatcher, replaceHelper_splice husable hnil hspaced,
      Option.bind_some, Option.bind_eq_bind]
    by_cases hend : next = -1
    · rw [if_pos hend]
      rcases hnext with ⟨-, hnone⟩ | ⟨hk'', -⟩
      · obtain ⟨done, hsplice, htail, -⟩ := hgreedy.splice text
        rw [Nat.min_eq_left hin] at hsplice
        have hmin := hgreedy.spaced
        rw [Nat.min_eq_left hin] at hmin
        rw [htail, replaceTail_none hnone, ← hsplice, splice_skip (Nat.zero_le k) hmin,
          List.drop_zero, Nat.sub_zero]
      · omega
    · rcases hnext with ⟨hneg, -⟩ | ⟨hk'', -⟩
      · exact absurd hneg hend
      · rw [if_neg hend, hk'', hplace, hdone]
        refine replaceLoop_exact rounds ?_ ?_ (hkept hend _) ((hlasting hend).usable _)
        · show (splice before.length text t.units 0 places).length + 2 ≤ rounds + place
          omega
        · show place ≤ (splice before.length text t.units 0 places).length + 1
          omega

/-! ## The whole string -/

variable (fresh f) in
theorem replaceText_of_text {s pattern text : Str} {before after : Argument s}
    (hbefore : before.text outside = pattern) (hafter : after.text outside = text) :
    replaceText outside fresh f .sensitive s before after = some (replaceAll pattern text s) := by
  have hb : pattern.length = before.length := hbefore ▸ before.length_text
  have ha : text.length = after.length := hafter ▸ after.length_text
  rw [replaceText]
  by_cases hempty : s = [] ∧ before.length ≠ 0
  · obtain ⟨rfl, hne⟩ := hempty
    have hpattern : pattern ≠ [] := by
      intro hnil
      rw [hnil] at hb
      exact hne hb.symm
    rw [if_pos ⟨rfl, hne⟩, replaceAll, replaceFrom, if_neg hpattern]
  rw [if_neg hempty]
  by_cases hsame : s ≠ [] ∧ CaseSensitivity.sensitive = .sensitive ∧
      before.pointer = after.pointer ∧ before.length = after.length
  · obtain ⟨-, -, hpointer, hlength⟩ := id hsame
    have htext : pattern = text := by
      rw [← hbefore, ← hafter, Argument.text, Argument.text, hpointer, hlength]
    rw [if_pos hsame, htext, replaceAll_self]
  rw [if_neg hsame]
  by_cases hzero : after.length = 0 ∧ before.length = 0
  · have hbnil : pattern = [] := List.length_eq_zero_iff.mp (by omega)
    have hanil : text = [] := List.length_eq_zero_iff.mp (by omega)
    rw [if_pos hzero, hbnil, hanil, replaceAll_self]
  · have husable : Usable outside ⟨s, false⟩ before.pointer pattern :=
      hbefore ▸ before.usable
    obtain ⟨matcher, hmatcher, -, hmatching⟩ := patternMatcher_spec f husable
    have hrun := replaceLoop_exact fresh f (s.length + 2) (k := 0) (by simp) (Nat.zero_le _)
      hmatching (hafter ▸ after.usable)
    rw [hb] at hmatcher hrun
    rw [ha] at hrun
    rw [if_neg hzero]
    simp only [hmatcher, Option.bind_eq_bind, Option.bind_some]
    rw [replaceTail, if_pos (Nat.zero_le _)] at hrun
    simpa using hrun

end

end Libpdk.Lang
