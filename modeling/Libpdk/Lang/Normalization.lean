import Libpdk.Codecs.Character
import Libpdk.Core.Splice
import Libpdk.Core.Text

/-!
# Normalization

The helpers that decompose a string, compose it and order its combining marks, each in place. The
generated tables are parameters; Hangul syllables are computed and not looked up. A unit that is
not there makes a helper fail (`none`).
-/
namespace Libpdk.Lang

open Codecs.Character

/-- The Unicode tables that normalization looks into. -/
structure UnicodeTables where
  unicodeVersion : Nat → Nat
  combiningClass : Nat → Nat
  /-- The tag and the units, where the code point has an entry. -/
  decomposition : Nat → Option (Nat × Str)
  /-- What `u1` and `u2` make according to the entry of `u2`, 0 if there is none. -/
  ligature : Nat → Nat → Nat

/-- `Decomposition::Canonical` -/
def canonicalTag : Nat := 1

def sBase : Nat := 0xac00
def lBase : Nat := 0x1100
def vBase : Nat := 0x1161
def tBase : Nat := 0x11a7
def lCount : Nat := 19
def vCount : Nat := 21
def tCount : Nat := 28
def nCount : Nat := vCount * tCount
def sCount : Nat := lCount * nCount

/-- The difference of two `uint`s. -/
def uintSub (a b : Nat) : Nat := (a + 2 ^ 32 - b) % 2 ^ 32

section

variable (t : UnicodeTables) (version : Nat)

/-! ## Decomposition -/

/-- The tag and the units of a decomposition.
mirrors lang/Character.cpp:388-414 -/
def decompositionHelper (ucs4 : Nat) : Option (Nat × Str) :=
  if ucs4 ≥ sBase ∧ ucs4 < sBase + sCount then
    let sIndex := ucs4 - sBase
    let l := lBase + sIndex / nCount
    let v := vBase + sIndex % nCount / tCount
    let t := tBase + sIndex % tCount
    let buffer := [UInt16.ofNat l, UInt16.ofNat v, UInt16.ofNat t]
    some (canonicalTag, buffer.take (if t = tBase then 2 else 3))
  else t.decomposition ucs4

/-- The code point that ends in front of `uc`, and where it begins.
mirrors lang/Character.cpp:425-432 -/
def codePointBefore (s : Str) (uc : Nat) : Option (Nat × Nat) := do
  let unit ← s[uc - 1]?
  if isLowSurrogate unit.toNat ∧ uc - 1 ≠ 0 then
    let high ← s[uc - 2]?
    if isHighSurrogate high.toNat then some (surrogateToUcs4 high unit, uc - 2)
    else some (unit.toNat, uc - 1)
  else some (unit.toNat, uc - 1)

/-- Whether and by what a code point is replaced.
mirrors lang/Character.cpp:433-438 -/
def decompositionOf (canonical : Bool) (ucs4 : Nat) : Option Str :=
  if t.unicodeVersion ucs4 > version then none
  else
    match decompositionHelper t ucs4 with
    | none => none
    | some (tag, d) => if canonical ∧ tag ≠ canonicalTag then none else some d

/-- mirrors lang/Character.cpp:424-445 -/
def decomposeLoop (canonical : Bool) (start : Nat) : Nat → Str → Nat → Option Str
  | 0, _, _ => none
  | rounds + 1, s, uc =>
    if uc = start then some s
    else do
      let (ucs4, pos) ← codePointBefore s uc
      match decompositionOf t version canonical ucs4 with
      | none => decomposeLoop canonical start rounds s pos
      | some d =>
        let size := if requiresSurrogates ucs4 then 2 else 1
        decomposeLoop canonical start rounds (splice size d s 0 [pos]) (pos + d.length)

/-- mirrors lang/Character.cpp:416-446 -/
def decomposeHelper (rounds : Nat) (s : Str) (canonical : Bool) (start : Nat) : Option Str :=
  decomposeLoop t version canonical start rounds s s.length

/-! ## Composition -/

/-- What two code points make, 0 if they make nothing.
mirrors lang/Character.cpp:471-510 -/
def ligatureHelper (u1 u2 : Nat) : Nat :=
  if u1 ≥ lBase ∧ u1 ≤ sBase + sCount ∧
      uintSub u1 lBase < lCount ∧ uintSub u2 vBase < vCount then
    sBase + (uintSub u1 lBase * vCount + uintSub u2 vBase) * tCount
  else if u1 ≥ lBase ∧ u1 ≤ sBase + sCount ∧
      uintSub u1 sBase < sCount ∧ uintSub u1 sBase % tCount = 0 ∧ uintSub u2 tBase ≤ tCount then
    u1 + uintSub u2 tBase
  else t.ligature u1 u2

/-- mirrors lang/Character.cpp:514-523 -/
structure Composing where
  s : Str
  stcode : Nat
  starter : Int
  next : Int
  lastCombining : Nat
  pos : Nat

/-- The code point at `pos`, and where its last unit is.
mirrors lang/Character.cpp:526-533 -/
def codePointAt (s : Str) (pos : Nat) : Option (Nat × Nat) := do
  let uc ← s[pos]?
  if isHighSurrogate uc.toNat ∧ pos + 1 < s.length then
    let low ← s[pos + 1]?
    if isLowSurrogate low.toNat then some (surrogateToUcs4 uc low, pos + 1)
    else some (uc.toNat, pos)
  else some (uc.toNat, pos)

/-- The ligature in the place of the starter; what it was made with is removed.
mirrors lang/Character.cpp:550-559 -/
def placeLigature (s : Str) (starter i ligature : Nat) : Str :=
  if requiresSurrogates ligature then
    splice 2 [] ((s.set starter (getHighSurrogate ligature)).set (starter + 1)
      (getLowSurrogate ligature)) 0 [i]
  else splice 1 [] (s.set starter (UInt16.ofNat ligature)) 0 [i]

/-- mirrors lang/Character.cpp:524-570 -/
def composeLoop (start : Int) : Nat → Composing → Option Str
  | 0, _ => none
  | rounds + 1, st =>
    if st.pos < st.s.length then do
      let i := st.pos
      let (uc, pos) ← codePointAt st.s st.pos
      if t.unicodeVersion uc > version then
        composeLoop start rounds
          { st with starter := -1, next := -1, lastCombining := 255, pos := pos + 1 }
      else
        let combining := t.combiningClass uc
        let ligature :=
          if ((i : Int) = st.next ∨ combining > st.lastCombining) ∧ st.starter ≥ start then
            ligatureHelper t st.stcode uc
          else 0
        if ligature ≠ 0 then
          composeLoop start rounds
            { st with
              stcode := ligature, s := placeLigature st.s st.starter.toNat i ligature, pos := pos }
        else if combining = 0 then
          composeLoop start rounds
            { st with
              starter := i, stcode := uc, next := pos + 1, lastCombining := combining
              pos := pos + 1 }
        else composeLoop start rounds { st with lastCombining := combining, pos := pos + 1 }
    else some st.s

/-- mirrors lang/Character.cpp:512-571 -/
def composeHelper (s : Str) (start : Int) : Option Str :=
  if start < 0 ∨ s.length - start < 2 then some s
  else composeLoop t version start (s.length + 1) ⟨s, 0, -1, -1, 255, start.toNat⟩

/-! ## Canonical order -/

/-- The combining class, 0 for a code point that is newer than the version.
mirrors lang/Character.cpp:607-613 and 619-624 -/
def classAt (ucs4 : Nat) : Nat :=
  if t.unicodeVersion ucs4 ≤ version then t.combiningClass ucs4 else 0

/-- The units of a code point. -/
def units (ucs4 : Nat) : Str :=
  if requiresSurrogates ucs4 then [getHighSurrogate ucs4, getLowSurrogate ucs4]
  else [UInt16.ofNat ucs4]

/-- Where the loop goes on after an exchange at `pos`.
mirrors lang/Character.cpp:642-647 -/
def stepBack (s : Str) (pos : Nat) : Option Nat :=
  if pos - 1 > 0 then do
    let unit ← s[pos - 1]?
    if isLowSurrogate unit.toNat then some (pos - 2) else some (pos - 1)
  else some (pos - 1)

/-- The loop from its head, or from the label `advance` with `p2`, `u1` and `c1`.
mirrors lang/Character.cpp:582-663 -/
def orderLoop : Nat → Str → Nat → Option (Nat × Nat × Nat) → Option Str
  | 0, _, _, _ => none
  | rounds + 1, s, pos, none =>
    if pos + 1 < s.length then do
      let (u1, last) ← codePointAt s pos
      if last + 1 < s.length then orderLoop rounds s pos (some (last + 1, u1, 0)) else some s
    else some s
  | rounds + 1, s, pos, some (p2, u1, c1) => do
    let (u2, last) ← codePointAt s p2
    let c2 := classAt t version u2
    if c2 = 0 then orderLoop rounds s (last + 1) none
    else if (if c1 = 0 then classAt t version u1 else c1) > c2 then
      let s ← Block.write s pos (units u2 ++ units u1)
      let pos ← stepBack s pos
      orderLoop rounds s pos none
    else
      let pos := pos + (units u1).length
      let p2 := pos + (units u2).length
      if p2 < s.length then orderLoop rounds s pos (some (p2, u2, c2)) else some s

/-- Ends after at most some rounds.
mirrors lang/Character.cpp:573-664 -/
def canonicalOrderHelper (rounds : Nat) (s : Str) (start : Nat) : Option Str :=
  orderLoop t version rounds s start none

end

end Libpdk.Lang
