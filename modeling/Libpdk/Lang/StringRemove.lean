import Libpdk.Lang.StringReplace

/-!
# Removing a string

The loop looks for the argument from where it removed it last, and reads its length again each
time. Another string keeps its length; the string itself has lost all of its units after the first
round, and the empty string is found forever (`remove_ends_iff`).
-/
namespace Libpdk.Lang

open Codecs.Character

/-- The units of a string, which an `int` counts. -/
abbrev Units := { u : Str // u.length < 2 ^ 31 }

/-- What is searched for: another string, or the string that is searched. -/
inductive Pattern
  | other (units : Units)
  | self

namespace Pattern

/-- The units of the pattern while the string holds `u`. -/
def units (u : Units) : Pattern → Units
  | other units => units
  | self => u

def memory (u : Units) : Pattern → Memory
  | other units => beside u.val units.val
  | self => beside u.val []

def view (u : Units) : Pattern → StringView
  | other units => patternView u.val units.val
  | self => stringView u.val

theorem size_view (u : Units) (p : Pattern) : (p.view u).size = (p.units u).val.length := by
  cases p <;> rfl

def text (u : Units) (p : Pattern) : Text :=
  ⟨p.view u, by rw [size_view]; exact (p.units u).property⟩

end Pattern

/-- The string itself. -/
def Units.text (u : Units) : Text := ⟨stringView u.val, u.property⟩

/-- The first `n` units. -/
def Units.take (u : Units) (n : Nat) : Units :=
  ⟨u.val.take n, Nat.lt_of_le_of_lt (List.length_take_le' n u.val) u.property⟩

section

variable (b : Build) (f : CaseFolding) (cs : CaseSensitivity)

/-- The units behind those that go move with the one that ends the string.
mirrors lang/String.cpp:1193-1197 -/
def closeGap (u : Units) (pos length : Nat) : Option Units := do
  let block ← Block.move (u.val ++ [0]) pos (pos + length) (u.val.length - pos - length + 1)
  some ⟨block.take (u.val.length - length), by
    have hlen := List.length_take_le (u.val.length - length) block
    have hfits := u.property
    omega⟩

/-- mirrors lang/String.cpp:1182-1200 -/
def removeUnits (u : Units) (pos length : Int) : Option Units :=
  let size := u.val.length
  let pos := if pos < 0 then pos + size else pos
  if pos % 2 ^ 32 ≥ size then some u
  else if length ≥ size - pos then some (u.take pos.toNat)
  else if length > 0 then closeGap u pos.toNat length.toNat
  else some u

/-- What is left, and the places from which was searched.
mirrors lang/String.cpp:1206-1208 -/
def removeLoop (str : Pattern) : Nat → Units → Int → Option (Units × List Int)
  | 0, _, _ => none
  | rounds + 1, u, i => do
    let found ← indexOf b (str.memory u) f cs u.text (str.text u) (Int32.ofInt i)
    if found = -1 then some (u, [i])
    else do
      let rest ← removeUnits u found (str.units u).val.length
      let (left, starts) ← removeLoop str rounds rest found
      some (left, i :: starts)

/-- Ends after at most some rounds.
mirrors lang/String.cpp:1202-1211 -/
def remove (rounds : Nat) (s : Units) (str : Pattern) : Option (Units × List Int) :=
  if (str.units s).val.length ≠ 0 then removeLoop b f cs str rounds s 0 else some (s, [])

end

section

variable {b : Build} {m : Memory} {f : CaseFolding} {cs : CaseSensitivity}

/-! ## A text in itself -/

theorem keysAt_self (s : StringView) : KeysAt m f cs s s 0 :=
  ⟨by omega, fun j _ => by rw [Nat.zero_add]⟩

theorem hashAt_self {s : StringView} {a : Nat} (h : s.begin = some a) :
    HashAt b m f cs s s 0 := by
  refine ⟨by omega, rfl, ?_⟩
  obtain ⟨start, size, null⟩ := s
  simp only at h
  subst h
  cases cs with
  | sensitive =>
    rw [compareStrings_zero]
    rfl
  | insensitive => simp [compareStrings, unicodeStricmp]

theorem foundAt_self {s : StringView} {a : Nat} (h : s.begin = some a) :
    FoundAt b m f cs s s 0 := by
  rw [FoundAt]
  by_cases hone : s.size = 1
  · have hread := View.getElem?_read s m.units (i := 0) (by omega)
    have hfetch : fetch m s 0 = (s.read m.units)[0]? := fetch_nat s 0
    rw [if_pos hone, hfetch, hread]
    refine ⟨_, rfl, ?_⟩
    rw [CharAt, hread, Option.map_some]
  rw [if_neg hone]
  by_cases hbm : s.size > 500 ∧ s.size > 5
  · rw [if_pos hbm]
    exact keysAt_self s
  · rw [if_neg hbm]
    exact hashAt_self h

/-- The last unit of the needle is at the distance 0 from its end. -/
theorem bmInitSkiptable_last {needle : StringView} (hsize : 1 < needle.size) {x : Nat}
    (hx : (stringKeys m f.foldCase32 cs needle)[needle.size - 1]? = some x) :
    ∃ skiptable, bmInitSkiptable m f cs needle = some skiptable ∧ skiptable (x % 256) = 0 := by
  obtain ⟨first, hfirst⟩ : ∃ first, first = needle.size - min needle.size 255 := ⟨_, rfl⟩
  obtain ⟨keys, hkeys⟩ := collect_isSome (f := fun i => unitKey m f cs needle first i) (i := first)
    (n := min needle.size 255) fun j hj => unitKey_isSome (by omega) (by omega)
  refine ⟨_, by rw [bmInitSkiptable, ← hfirst, hkeys]; rfl, ?_⟩
  obtain ⟨hlen, hget⟩ := collect_eq_some.mp hkeys
  have hne : keys ≠ [] := List.length_pos_iff.mp (by omega)
  obtain ⟨front, last, rfl⟩ : ∃ front last, keys = front ++ [last] :=
    ⟨keys.dropLast, keys.getLast hne, (List.dropLast_append_getLast hne).symm⟩
  rw [List.length_append, List.length_singleton] at hlen
  have hkey := hget front.length (by simp)
  have hplace : first + front.length = needle.size - 1 := by omega
  rw [hplace, unitKey_start (by omega), unitKey_nat, hx] at hkey
  rw [List.getElem_concat_length rfl, Option.some.injEq] at hkey
  rw [hkey]
  exact BoyerMoore.distances_last (· % 256)

/-- Boyer-Moore finds a text in itself, whatever the table holds of its other units. -/
theorem findStringBoyerMoore_self {s : StringView} (hsize : 1 < s.size) :
    findStringBoyerMoore m f cs s 0 s = some 0 := by
  obtain ⟨x, hx⟩ := stringKeys_getElem? m f cs (s := s) (i := s.size - 1) (by omega)
  obtain ⟨skiptable, htable, hzero⟩ := bmInitSkiptable_last hsize hx
  obtain ⟨skip, hskip, hle, -, hdiff⟩ := BoyerMoore.matchBack_spec
    (stringKeys m f.foldCase32 cs s) (stringKeys m f.foldCase32 cs s) (a := 0) (by omega) s.size 0
    (by rw [length_stringKeys, Nat.zero_add])
    fun d hd => absurd hd (Nat.not_lt_zero d)
  rw [length_stringKeys] at hle hdiff hskip
  have hall : skip ≥ s.size := by
    by_contra hlt
    refine hdiff (by omega) ?_
    rw [Nat.zero_add]
  have hmatch : bmSkip m f cs s s skiptable (0 + (s.size - 1)) = some none := by
    rw [bmSkip, unitKey_nat, Nat.zero_add, hx, Option.bind_eq_bind, Option.bind_some,
      if_neg (by omega), bmMatch_matchBack]
    rw [Nat.zero_add] at hskip
    rw [hskip, Option.bind_some, if_pos hall]
  rw [findStringBoyerMoore, htable, Option.bind_eq_bind, Option.bind_some, bmFind,
    if_neg (by omega), bmLoop]
  have hmax : (max (0 : Int) 0).toNat = 0 := rfl
  have hplace : ((0 + (s.size - 1) : Nat) : Int) - (s.size - 1) = 0 := by omega
  rw [hmax, if_pos (by omega), hmatch, Option.bind_eq_bind, Option.bind_some, hplace]

/-! ## One removal -/

theorem closeGap_eq {u : Units} {pos length : Nat} (h : pos + length ≤ u.val.length) :
    ∃ v, closeGap u pos length = some v ∧
      v.val = u.val.take pos ++ u.val.drop (pos + length) := by
  have hsize : (u.val ++ [0]).length = u.val.length + 1 := by
    rw [List.length_append, List.length_singleton]
  obtain ⟨block, hblock, hmoved⟩ := Block.move_spec (u.val ++ [(0 : UInt16)]) pos (pos + length)
    (u.val.length - pos - length + 1) (by omega) (by omega)
  have hback : ((u.val ++ [(0 : UInt16)]).drop (pos + length)).take
      (u.val.length - pos - length + 1) = u.val.drop (pos + length) ++ [0] := by
    rw [List.drop_append_of_le_length h, List.take_of_length_le]
    rw [List.length_append, List.length_drop, List.length_singleton]
    omega
  have hfront := hmoved.front
  rw [hback, List.take_append_of_le_length (show pos ≤ u.val.length by omega),
    ← List.append_assoc] at hfront
  refine ⟨_, by rw [closeGap, hblock]; rfl, ?_⟩
  have hlen : (u.val.take pos ++ u.val.drop (pos + length)).length = u.val.length - length := by
    rw [List.length_append, List.length_take, List.length_drop]
    omega
  have hshort := congrArg (List.take (u.val.length - length)) hfront
  rw [List.take_take, Nat.min_eq_left (by
    rw [List.length_append, List.length_drop]
    omega), ← hlen, List.take_left, hlen] at hshort
  exact hshort

theorem removeUnits_found {u : Units} {pos n : Nat} (hn : 0 < n) (h : pos + n ≤ u.val.length) :
    ∃ v, removeUnits u pos n = some v ∧ v.val = u.val.take pos ++ u.val.drop (pos + n) := by
  have hfits := u.property
  have hwrap : (pos : Int) % 2 ^ 32 = pos := by
    apply Int.emod_eq_of_lt <;> omega
  have hplace : (if (pos : Int) < 0 then (pos : Int) + u.val.length else pos) = pos :=
    if_neg (by omega)
  simp only [removeUnits, hplace, hwrap]
  rw [if_neg (by omega)]
  by_cases hend : (n : Int) ≥ u.val.length - pos
  · -- the string ends with what goes
    have hnil : u.val.drop (pos + n) = [] := List.drop_eq_nil_of_le (by omega)
    exact ⟨_, if_pos hend, by rw [hnil, List.append_nil]; rfl⟩
  · rw [if_neg hend, if_pos (by omega)]
    exact closeGap_eq h

/-! ## Searches -/

/-- Where the search takes what it finds for the pattern `n`; with case, where the pattern is. -/
def Located (b : Build) (f : CaseFolding) (cs : CaseSensitivity) (n u : Str) (j : Nat) : Prop :=
  match cs with
  | .sensitive => OccursAt n u j
  | .insensitive => FoundAt b (beside u n) f .insensitive (stringView u) (patternView u n) j

theorem foundAt_beside {u n : Str} {j : Nat} :
    FoundAt b (beside u n) f cs (stringView u) (patternView u n) j ↔ Located b f cs n u j := by
  cases cs with
  | sensitive => rw [foundAt_sensitive, occurs_beside, Located]
  | insensitive => rfl

/-- The table of a pattern is built of the keys that the pattern has as a whole. -/
def Whole (f : CaseFolding) (cs : CaseSensitivity) (n : Str) : Prop :=
  Unsplit (beside [] n) f cs (patternView [] n)

variable (f cs) in
theorem unitKey_beside (u n : Str) (start i : Nat) :
    unitKey (beside u n) f cs (patternView u n) start i =
      unitKey (beside [] n) f cs (patternView [] n) start i := by
  have hfetch (k : Int) : fetch (beside u n) (patternView u n) k =
      fetch (beside [] n) (patternView [] n) k := by
    rcases Int.lt_or_le k 0 with hneg | hpos
    · rw [fetch_neg hneg, fetch_neg hneg]
    · obtain ⟨i, rfl⟩ := Int.eq_ofNat_of_zero_le hpos
      rw [fetch_nat, fetch_nat, read_patternView, read_patternView]
  cases cs with
  | sensitive => rw [unitKey, unitKey, hfetch]
  | insensitive => simp only [unitKey, foldCaseAt, hfetch]

theorem Whole.unsplit {n : Str} (h : Whole f cs n) (u : Str) :
    Unsplit (beside u n) f cs (patternView u n) := by
  rw [Whole, Unsplit] at h
  rw [Unsplit]
  have hfirst := unitKey_beside f cs u n (n.length - min n.length 255)
    (n.length - min n.length 255)
  have hzero := unitKey_beside f cs u n 0 (n.length - min n.length 255)
  exact hfirst.trans (h.trans hzero.symm)

variable (b f cs) in
theorem indexOf_other (u : Units) {n : Units} (hn : n.val ≠ []) {i : Nat} (hi : i < 2 ^ 31) :
    ∃ r, indexOf b ((Pattern.other n).memory u) f cs u.text ((Pattern.other n).text u)
        (Int32.ofInt i) = some r ∧
      (r = -1 ∨ ∃ j : Nat, r = j ∧ i ≤ j ∧ j + n.val.length ≤ u.val.length) ∧
      (Whole f cs n.val → r = -1 → ∀ j, i ≤ j → ¬Located b f cs n.val u.val j) := by
  have hpos : 0 < n.val.length := List.length_pos_iff.mpr hn
  have hpos' : 0 < ((Pattern.other n).text u).view.size := hpos
  obtain ⟨r, hr, hsound, hfirst⟩ := findString_found b (beside u.val n.val) f cs
    (h := u.text) (startPlace_ofInt hi) hpos'
  refine ⟨r, hr, ?_, fun hwhole hneg j hj hat => ?_⟩
  · rcases hsound with hneg | ⟨j, hj, hle, hat⟩
    · exact .inl hneg
    · exact .inr ⟨j, hj, hle, hat.le⟩
  · have hfound := hfirst (hwhole.unsplit u.val)
    rw [hneg] at hfound
    cases hfound with
    | none nowhere => exact nowhere j hj (foundAt_beside.mpr hat)

/-! ## The rounds -/

variable (b f cs) in
theorem removeLoop_other {n : Units} (hn : n.val ≠ []) : ∀ (rounds : Nat) (u : Units) (i : Nat),
    u.val.length < rounds → i < 2 ^ 31 →
    ∃ v starts last, removeLoop b f cs (.other n) rounds u i = some (v, starts) ∧
      starts.Pairwise (· ≤ ·) ∧ (∀ start ∈ starts, (i : Int) ≤ start) ∧
      starts.getLast? = some last ∧
      (Whole f cs n.val → ∀ j : Nat, last ≤ j → ¬Located b f cs n.val v.val j)
  | 0, u, i, hrounds, _ => absurd hrounds (Nat.not_lt_zero _)
  | rounds + 1, u, i, hrounds, hi => by
    have hpos : 0 < n.val.length := List.length_pos_iff.mpr hn
    obtain ⟨r, hr, hsound, hnowhere⟩ := indexOf_other b f cs u hn hi
    rw [removeLoop, hr, Option.bind_eq_bind, Option.bind_some]
    rcases hsound with hneg | ⟨j, rfl, hle, hin⟩
    · refine ⟨u, [(i : Int)], i, if_pos hneg, List.pairwise_singleton _ _, ?_, rfl, ?_⟩
      · intro start hstart
        rw [List.mem_singleton.mp hstart]
      · exact fun hwhole j hj => hnowhere hwhole hneg j (by omega)
    · have hfits := u.property
      obtain ⟨rest, hrest, hval⟩ := removeUnits_found hpos hin
      have hshort : rest.val.length + n.val.length = u.val.length := by
        rw [hval, List.length_append, List.length_take, List.length_drop]
        omega
      obtain ⟨v, starts, last, hrun, hforward, hfrom, hlast, hnone⟩ :=
        removeLoop_other hn rounds rest j (by omega) (by omega)
      have hsome : starts ≠ [] := by
        rintro rfl
        cases hlast
      refine ⟨v, (i : Int) :: starts, last, ?_, ?_, ?_, ?_, hnone⟩
      · rw [if_neg (by omega)]
        have hsize : ((Pattern.other n).units u).val.length = n.val.length := rfl
        rw [hsize, hrest, Option.bind_eq_bind, Option.bind_some, hrun]
        rfl
      · refine List.pairwise_cons.mpr ⟨fun start hstart => ?_, hforward⟩
        have hstart := hfrom start hstart
        omega
      · intro start hstart
        rcases List.mem_cons.mp hstart with rfl | hstart
        · exact Int.le_refl _
        · have hstart := hfrom start hstart
          omega
      · rw [List.getLast?_cons_of_ne_nil hsome, hlast]

/-- The empty string is found in itself at any time. -/
theorem removeLoop_emptied {u : Units} (hu : u.val = []) : ∀ rounds : Nat,
    removeLoop b f cs .self rounds u 0 = none
  | 0 => rfl
  | rounds + 1 => by
    have hempty : indexOf b (Pattern.self.memory u) f cs u.text (Pattern.self.text u)
        (Int32.ofInt 0) = some ((0 : Nat) : Int) :=
      findString_empty b _ f cs (startPlace_ofInt (i := 0) (by decide))
        (by show u.val.length = 0; rw [hu, List.length_nil]) (Nat.zero_le _)
    have hkept : removeUnits u 0 (u.val.length : Int) = some u := by
      simp [removeUnits, hu]
    rw [removeLoop, hempty, Option.bind_eq_bind, Option.bind_some, if_neg (by omega)]
    show (removeUnits u 0 (u.val.length : Int)).bind _ = none
    rw [hkept, Option.bind_some]
    show (removeLoop b f cs .self rounds u 0).bind _ = none
    rw [removeLoop_emptied hu rounds, Option.bind_none]

variable (b f cs) in
theorem indexOf_self {u : Units} (hu : u.val ≠ []) :
    indexOf b (Pattern.self.memory u) f cs u.text (Pattern.self.text u) (Int32.ofInt 0) =
      some 0 := by
  have hpos : 0 < u.val.length := List.length_pos_iff.mpr hu
  have hfits := u.property
  have hwrap : ((u.val.length : Int) + 0) % 2 ^ 32 = u.val.length := by
    rw [Int.add_zero]
    apply Int.emod_eq_of_lt <;> omega
  have hat : FoundAt b (beside u.val []) f cs (stringView u.val) (stringView u.val) 0 :=
    foundAt_self rfl
  have hzero : ((0 : Nat) : Int) = 0 := rfl
  show findString b (beside u.val []) f cs ⟨stringView u.val, hfits⟩ ⟨stringView u.val, _⟩
    (Int32.ofInt 0) = some 0
  have hsize : (stringView u.val).size = u.val.length := rfl
  have hstart : (if (Int32.ofInt 0).toInt < 0 then (Int32.ofInt 0).toInt + (u.val.length : Int)
    else (Int32.ofInt 0).toInt) = 0 := rfl
  simp only [findString, hsize, hstart, hwrap]
  rw [if_neg (by omega), if_neg (by omega), if_neg (by omega)]
  rw [FoundAt, hsize] at hat
  by_cases hone : u.val.length = 1
  · rw [if_pos hone] at hat
    obtain ⟨c, hc, hchar⟩ := hat
    obtain ⟨r, hr, hfirst⟩ := findChar_nat (beside u.val []) f cs b (stringView u.val) c 0
    rw [if_pos hone, hc, Option.bind_eq_bind, Option.bind_some, ← hzero, hr,
      hfirst.unique (.here hchar)]
  rw [if_neg hone] at hat ⊢
  by_cases hbm : u.val.length > 500 ∧ u.val.length > 5
  · rw [if_pos hbm]
    exact findStringBoyerMoore_self (show 1 < u.val.length by omega)
  · rw [if_neg hbm] at hat ⊢
    obtain ⟨r, hr, hfirst⟩ : ∃ r, findStringHash b (beside u.val []) f cs (stringView u.val)
        (stringView u.val) ((0 : Nat) : Int) = some r ∧ FirstFrom (HashAt b (beside u.val []) f cs
          (stringView u.val) (stringView u.val)) 0 r :=
      findStringHash_first b (beside u.val []) f cs hpos (Nat.le_of_eq (Nat.zero_add _))
    rw [← hzero, hr, hfirst.unique (.here hat)]

theorem removeLoop_self {u : Units} (hu : u.val ≠ []) : ∀ rounds : Nat,
    removeLoop b f cs .self rounds u 0 = none
  | 0 => rfl
  | rounds + 1 => by
    have hpos : 0 < u.val.length := List.length_pos_iff.mpr hu
    obtain ⟨v, hv, hval⟩ : ∃ v, removeUnits u (0 : Nat) (u.val.length : Nat) = some v ∧
        v.val = u.val.take 0 ++ u.val.drop (0 + u.val.length) :=
      removeUnits_found hpos (by omega)
    have hnil : v.val = [] := by
      rw [hval, List.take_zero, List.nil_append, Nat.zero_add, List.drop_length]
    rw [removeLoop, indexOf_self b f cs hu, Option.bind_eq_bind, Option.bind_some,
      if_neg (by omega)]
    show (removeUnits u (0 : Nat) (u.val.length : Nat)).bind _ = none
    rw [hv, Option.bind_some]
    show (removeLoop b f cs .self rounds v 0).bind _ = none
    rw [removeLoop_emptied hnil, Option.bind_none]

end

/-- The removal ends, and its searches went forward. -/
def Halts (b : Build) (f : CaseFolding) (cs : CaseSensitivity) (s : Units) (str : Pattern) :
    Prop :=
  ∃ rounds v starts, remove b f cs rounds s str = some (v, starts) ∧ starts.Pairwise (· ≤ ·)

/-- From where the last search started on there is nothing left of what was to be removed. -/
def Clears (b : Build) (f : CaseFolding) (cs : CaseSensitivity) (s : Units) (str : Pattern) :
    Prop :=
  ∃ rounds v starts, remove b f cs rounds s str = some (v, starts) ∧ starts.Pairwise (· ≤ ·) ∧
    ∀ last ∈ starts.getLast?, ∀ j : Nat, last ≤ j → ¬Located b f cs (str.units s).val v.val j

section

variable {b : Build} {f : CaseFolding} {cs : CaseSensitivity} {s : Units} {str : Pattern}

theorem Clears.halts (h : Clears b f cs s str) : Halts b f cs s str := by
  obtain ⟨rounds, v, starts, hrun, hforward, -⟩ := h
  exact ⟨rounds, v, starts, hrun, hforward⟩

theorem not_halts_self (hs : s.val ≠ []) : ¬Halts b f cs s .self := by
  rintro ⟨rounds, v, starts, hrun, -⟩
  have hpos : 0 < s.val.length := List.length_pos_iff.mpr hs
  have hlong : (Pattern.self.units s).val.length ≠ 0 := Nat.ne_of_gt hpos
  rw [remove, if_pos hlong, removeLoop_self hs] at hrun
  cases hrun

theorem clears_empty (hs : (str.units s).val = []) : Clears b f cs s str := by
  refine ⟨0, s, [], ?_, List.Pairwise.nil, fun last hlast => nomatch hlast⟩
  rw [remove, hs, if_neg (by simp)]

variable (b f cs s) in
theorem halts_other {n : Units} (hn : n.val ≠ []) :
    Halts b f cs s (.other n) ∧ (Whole f cs n.val → Clears b f cs s (.other n)) := by
  have hpos : 0 < n.val.length := List.length_pos_iff.mpr hn
  obtain ⟨v, starts, last, hrun, hforward, -, hlast, hnone⟩ :=
    removeLoop_other b f cs hn (s.val.length + 1) s 0 (by omega) (by omega)
  have hremove : remove b f cs (s.val.length + 1) s (.other n) = some (v, starts) :=
    (if_pos (show n.val.length ≠ 0 by omega)).trans hrun
  refine ⟨⟨_, v, starts, hremove, hforward⟩, fun hwhole => ⟨_, v, starts, hremove, hforward, ?_⟩⟩
  intro last' hlast'
  rw [hlast, Option.mem_some_iff] at hlast'
  rw [← hlast']
  exact hnone hwhole

end

/-- A removal ends where the argument is another string or empty, and only there; what it leaves
holds nothing to remove from the last start on, of a pattern whose table is its own. -/
theorem remove_ends_iff (b : Build) (f : CaseFolding) (cs : CaseSensitivity) (s : Units)
    (str : Pattern) :
    (Halts b f cs s str ↔ (str.units s).val = [] ∨ str ≠ .self) ∧
      (Whole f cs (str.units s).val →
        (Clears b f cs s str ↔ (str.units s).val = [] ∨ str ≠ .self)) := by
  by_cases hempty : (str.units s).val = []
  · have hclears : Clears b f cs s str := clears_empty hempty
    exact ⟨iff_of_true hclears.halts (.inl hempty), fun _ => iff_of_true hclears (.inl hempty)⟩
  cases str with
  | other n =>
    obtain ⟨hhalts, hclears⟩ := halts_other b f cs s hempty
    exact ⟨iff_of_true hhalts (.inr (nomatch ·)),
      fun hwhole => iff_of_true (hclears hwhole) (.inr (nomatch ·))⟩
  | self =>
    have hnot : ¬Halts b f cs s .self := not_halts_self hempty
    have hcond : ¬((Pattern.self.units s).val = [] ∨ Pattern.self ≠ .self) := by
      rintro (hnil | hne)
      · exact hempty hnil
      · exact hne rfl
    exact ⟨iff_of_false hnot hcond, fun _ => iff_of_false (fun h => hnot h.halts) hcond⟩

/-- `s.remove(s)` of "a" -/
theorem remove_self_endless :
    ¬Halts sse2Build latin1Folding .sensitive ⟨[0x61], by decide⟩ .self :=
  not_halts_self (List.cons_ne_nil _ _)

end Libpdk.Lang
