import Libpdk.Settings.IniKeyReadings

/-!
# Reading keys

`iniUnescapedKey` on a range of a `ByteArray`, with its positions, its result and what it returns
(`iniUnescapedKeyRange`). It reads inside its range and ends (`keyLoop_spec`), it gives back every
escaped key, and of other bytes what the two readings of a key say.
-/
namespace Libpdk.Settings

/-! ## A range of the bytes -/

/-- `Character::isUpper`; the letters beyond ASCII come from a table.
mirrors lang/Character.h:724-728 -/
def isUpper (isUpperLetter : UInt16 → Bool) (ch : UInt16) : Bool :=
  (unit 'A' ≤ ch && ch ≤ unit 'Z') || (127 < ch && isUpperLetter ch)

/-- `key.at(i)`; `none` is a read outside of the range. -/
def byteAt (key : Bytes) (stop i : Nat) : Option UInt8 := if i < stop then key[i]? else none

/-- `key.mid(pos, len)`, all of it in the range. -/
def bytesAt (key : Bytes) (stop pos len : Nat) : Option Bytes :=
  if pos + len ≤ stop ∧ stop ≤ key.length then some ((key.drop pos).take len) else none

/-- The variables of `iniUnescapedKey`. -/
structure KeyState where
  i : Nat
  result : Str
  lowercaseOnly : Bool
  deriving DecidableEq

def KeyState.add (s : KeyState) (ch : UInt16) (upper : Bool) (i : Nat) : KeyState :=
  ⟨i, s.result ++ [ch], s.lowercaseOnly && !upper⟩

/-- A turn of the loop.
mirrors io/fs/Settings.cpp:506-553 -/
def keyTurn (isUpperLetter : UInt16 → Bool) (key : Bytes) (stop : Nat) (s : KeyState) :
    Option KeyState := do
  let ch ← byteAt key stop s.i
  if ch = 0x5C then some (s.add slash false (s.i + 1))
  else if ch ≠ byte '%' ∨ s.i + 1 = stop then
    some (s.add ch.toUInt16 (byte 'A' ≤ ch && ch ≤ byte 'Z') (s.i + 1))
  else do
    let next ← byteAt key stop (s.i + 1)
    let firstDigitPos := if next = byte 'U' then s.i + 2 else s.i + 1
    let numDigits := if next = byte 'U' then 4 else 2
    if firstDigitPos + numDigits > stop then some (s.add (unit '%') false (s.i + 1))
    else do
      let digits ← bytesAt key stop firstDigitPos numDigits
      match toInt16 digits with
      | none => some (s.add (unit '%') false (s.i + 1))
      | some n =>
        some (s.add (characterOfInt n) (isUpper isUpperLetter (characterOfInt n))
          (firstDigitPos + numDigits))

/-- At most `turns` turns of the loop; `none` when it does not end by then. -/
def keyLoop (isUpperLetter : UInt16 → Bool) (key : Bytes) (stop : Nat) :
    (turns : Nat) → KeyState → Option KeyState
  | 0, s => if s.i < stop then none else some s
  | turns + 1, s =>
    if s.i < stop then
      (keyTurn isUpperLetter key stop s).bind (keyLoop isUpperLetter key stop turns)
    else some s

/-- What is appended to `result`, and whether all of it is in lower case.
mirrors io/fs/Settings.cpp:501-555 -/
def iniUnescapedKeyRange (isUpperLetter : UInt16 → Bool) (key : Bytes) (first stop : Nat)
    (result : Str) : Option (Str × Bool) :=
  (keyLoop isUpperLetter key stop (stop - first) ⟨first, result, true⟩).map
    fun s => (s.result, s.lowercaseOnly)

theorem byteAt_append (start l behind : Bytes) (j : Nat) :
    byteAt (start ++ l ++ behind) (start.length + l.length) (start.length + j) = l[j]? := by
  unfold byteAt
  by_cases hj : j < l.length
  · rw [if_pos (by omega), List.append_assoc, List.getElem?_append_right (by omega),
      Nat.add_sub_cancel_left, List.getElem?_append_left hj]
  · rw [if_neg (by omega), List.getElem?_eq_none (by omega)]

theorem bytesAt_append (start l behind : Bytes) {j n : Nat} (h : j + n ≤ l.length) :
    bytesAt (start ++ l ++ behind) (start.length + l.length) (start.length + j) n =
      some ((l.drop j).take n) := by
  unfold bytesAt
  rw [if_pos ⟨by omega, by simp only [List.length_append]; omega⟩, List.append_assoc,
    List.drop_length_add_append, List.drop_append_of_le_length (by omega),
    List.take_append_of_le_length (by rw [List.length_drop]; omega)]

/-! ## A turn of the loop -/

section

variable (isUpperLetter : UInt16 → Bool)

theorem upperUnits_slash (rest : Bytes) :
    upperUnits (isUpper isUpperLetter) (0x5C :: rest) =
      upperUnits (isUpper isUpperLetter) rest := by
  rw [upperUnits, if_pos rfl]

theorem upperUnits_ordinary {ch : UInt8} (rest : Bytes) (hs : ch ≠ 0x5C) (hp : ch ≠ byte '%') :
    upperUnits (isUpper isUpperLetter) (ch :: rest) =
      ((byte 'A' ≤ ch && ch ≤ byte 'Z') || upperUnits (isUpper isUpperLetter) rest) := by
  rw [upperUnits, if_neg hs, if_neg hp]

theorem upperUnits_some {rest left : Bytes} {u : UInt16} (h : takenEscape rest = some (u, left)) :
    upperUnits (isUpper isUpperLetter) (byte '%' :: rest) =
      (isUpper isUpperLetter u || upperUnits (isUpper isUpperLetter) left) := by
  rw [upperUnits, if_neg (by decide), if_pos rfl]
  split
  · rename_i u' left' h'
    rw [h] at h'
    cases h'
    rfl
  · rename_i h'
    rw [h] at h'
    cases h'

theorem upperUnits_none {rest : Bytes} (h : takenEscape rest = none) :
    upperUnits (isUpper isUpperLetter) (byte '%' :: rest) =
      upperUnits (isUpper isUpperLetter) rest := by
  rw [upperUnits, if_neg (by decide), if_pos rfl]
  split
  · rename_i h'
    rw [h] at h'
    cases h'
  · rfl

/-- One turn takes bytes from the range and adds one character. -/
structure Turn (l : Bytes) (s s' : KeyState) : Prop where
  step : ∃ ch upper n, 0 < n ∧ n ≤ l.length ∧ s' = s.add ch upper (s.i + n) ∧
    iniUnescapedKey l = ch :: iniUnescapedKey (l.drop n) ∧
    upperUnits (isUpper isUpperLetter) l =
      (upper || upperUnits (isUpper isUpperLetter) (l.drop n))

theorem keyTurn_spec (start behind : Bytes) {l : Bytes} (hl : l ≠ []) {s : KeyState}
    (hi : s.i = start.length) : ∃ s',
    keyTurn isUpperLetter (start ++ l ++ behind) (start.length + l.length) s = some s' ∧
      Turn isUpperLetter l s s' := by
  obtain ⟨ch, rest, rfl⟩ := List.exists_cons_of_ne_nil hl
  have hfirst := byteAt_append start (ch :: rest) behind 0
  have hsecond := byteAt_append start (ch :: rest) behind 1
  rw [Nat.add_zero, List.getElem?_cons_zero] at hfirst
  rw [List.getElem?_cons_succ] at hsecond
  have hlen : (ch :: rest).length = rest.length + 1 := rfl
  unfold keyTurn
  rw [hi, hfirst, Option.bind_eq_bind, Option.bind_some]
  by_cases hs : ch = 0x5C
  · rw [if_pos hs]
    refine ⟨_, rfl, ⟨slash, false, 1, Nat.one_pos, by omega, by rw [hi], ?_, ?_⟩⟩
    · rw [hs, iniUnescapedKey_slash]
      rfl
    · rw [hs, upperUnits_slash, Bool.false_or]
      rfl
  rw [if_neg hs]
  by_cases hp : ch ≠ byte '%'
  · rw [if_pos (.inl hp)]
    refine ⟨_, rfl, ⟨_, _, 1, Nat.one_pos, by omega, by rw [hi], ?_, ?_⟩⟩
    · exact iniUnescapedKey_ordinary rest hs hp
    · exact upperUnits_ordinary isUpperLetter rest hs hp
  rw [not_not] at hp
  subst hp
  -- a percent sign that stays: at the end, with too few digits, or in front of no number
  have hkeep : takenEscape rest = none →
      Turn isUpperLetter (byte '%' :: rest) s (s.add (unit '%') false (start.length + 1)) := by
    intro ht
    refine ⟨_, _, 1, Nat.one_pos, by omega, by rw [hi], ?_, ?_⟩
    · rw [iniUnescapedKey_percent, ht]
      rfl
    · rw [upperUnits_none isUpperLetter ht, Bool.false_or]
      rfl
  by_cases hrest : rest = []
  · subst hrest
    rw [if_pos (.inr (by rw [hlen]; rfl))]
    exact ⟨_, rfl, hkeep rfl⟩
  obtain ⟨a, rest, rfl⟩ := List.exists_cons_of_ne_nil hrest
  rw [if_neg (by rw [hlen, List.length_cons]; rintro (h | h); exact h rfl; omega), hsecond,
    List.getElem?_cons_zero, Option.bind_some]
  simp only
  by_cases ha : a = byte 'U'
  · subst ha
    rw [if_pos rfl, if_pos rfl]
    have hbehind : digitsBehind (byte 'U' :: rest) =
        if 4 ≤ rest.length then some (rest.take 4, rest.drop 4) else none := by
      rw [digitsBehind, if_pos rfl]
    by_cases hmany : 4 ≤ rest.length
    · have hdigits := bytesAt_append start (byte '%' :: byte 'U' :: rest) behind
        (show 2 + 4 ≤ (byte '%' :: byte 'U' :: rest).length by
          simp only [List.length_cons]
          omega)
      rw [if_neg (by simp only [List.length_cons]; omega), hdigits, Option.bind_eq_bind,
        Option.bind_some]
      simp only [List.drop_succ_cons, List.drop_zero]
      cases hn : toInt16 (rest.take 4) with
      | none =>
        refine ⟨_, rfl, hkeep ?_⟩
        rw [takenEscape, hbehind, if_pos hmany]
        simp only [Option.bind_some, hn, Option.map_none]
      | some n =>
        have ht : takenEscape (byte 'U' :: rest) = some (characterOfInt n, rest.drop 4) := by
          rw [takenEscape, hbehind, if_pos hmany]
          simp only [Option.bind_some, hn, Option.map_some]
        refine ⟨_, rfl, ⟨_, _, 6, by decide, by simp only [List.length_cons]; omega,
          by rw [hi], ?_, ?_⟩⟩
        · rw [iniUnescapedKey_percent, ht]
          rfl
        · rw [upperUnits_some isUpperLetter ht]
          rfl
    · rw [if_pos (by simp only [List.length_cons]; omega)]
      refine ⟨_, rfl, hkeep ?_⟩
      rw [takenEscape, hbehind, if_neg hmany]
      rfl
  · rw [if_neg ha, if_neg ha]
    have hbehind : digitsBehind (a :: rest) =
        if 1 ≤ rest.length then some (a :: rest.take 1, rest.drop 1) else none := by
      rw [digitsBehind, if_neg ha]
    by_cases hmany : 1 ≤ rest.length
    · have hdigits := bytesAt_append start (byte '%' :: a :: rest) behind
        (show 1 + 2 ≤ (byte '%' :: a :: rest).length by
          simp only [List.length_cons]
          omega)
      rw [if_neg (by simp only [List.length_cons]; omega), hdigits, Option.bind_eq_bind,
        Option.bind_some]
      simp only [List.drop_succ_cons, List.drop_zero, List.take_succ_cons]
      cases hn : toInt16 (a :: rest.take 1) with
      | none =>
        refine ⟨_, rfl, hkeep ?_⟩
        rw [takenEscape, hbehind, if_pos hmany]
        simp only [Option.bind_some, hn, Option.map_none]
      | some n =>
        have ht : takenEscape (a :: rest) = some (characterOfInt n, rest.drop 1) := by
          rw [takenEscape, hbehind, if_pos hmany]
          simp only [Option.bind_some, hn, Option.map_some]
        refine ⟨_, rfl, ⟨_, _, 3, by decide, by simp only [List.length_cons]; omega,
          by rw [hi], ?_, ?_⟩⟩
        · rw [iniUnescapedKey_percent, ht]
          rfl
        · rw [upperUnits_some isUpperLetter ht]
          rfl
    · rw [if_pos (by simp only [List.length_cons]; omega)]
      refine ⟨_, rfl, hkeep ?_⟩
      rw [takenEscape, hbehind, if_neg hmany]
      rfl

/-- The loop ends, and reads nothing outside of its range. -/
theorem keyLoop_spec (behind : Bytes) : ∀ (turns : Nat) (start l : Bytes) (s : KeyState),
    s.i = start.length → l.length ≤ turns →
    keyLoop isUpperLetter (start ++ l ++ behind) (start.length + l.length) turns s =
      some ⟨start.length + l.length, s.result ++ iniUnescapedKey l,
        s.lowercaseOnly && !upperUnits (isUpper isUpperLetter) l⟩
  | turns, start, [], s, hi, _ => by
    have hdone : keyLoop isUpperLetter (start ++ [] ++ behind) (start.length + 0) turns s =
        some s := by
      cases turns <;> exact if_neg (by omega)
    rw [List.length_nil, hdone, iniUnescapedKey, upperUnits, List.append_nil, Bool.not_false,
      Bool.and_true, Nat.add_zero, ← hi]
  | turns + 1, start, ch :: rest, s, hi, hturns => by
    obtain ⟨s', hs', ⟨u, upper, n, hn, hle, rfl, hunits, hupper⟩⟩ :=
      keyTurn_spec isUpperLetter start behind (List.cons_ne_nil ch rest) hi
    rw [keyLoop, if_pos (by rw [hi, List.length_cons]; omega), hs', Option.bind_some]
    have hsplit : start ++ (ch :: rest) ++ behind =
        (start ++ (ch :: rest).take n) ++ (ch :: rest).drop n ++ behind := by
      rw [List.append_assoc start ((ch :: rest).take n), List.take_append_drop]
    have hstart : (start ++ (ch :: rest).take n).length = start.length + n := by
      rw [List.length_append, List.length_take, Nat.min_eq_left hle]
    have hstop : start.length + (ch :: rest).length =
        (start ++ (ch :: rest).take n).length + ((ch :: rest).drop n).length := by
      rw [hstart, List.length_drop]
      omega
    have ih := keyLoop_spec behind turns (start ++ (ch :: rest).take n) ((ch :: rest).drop n)
      (s.add u upper (s.i + n)) (by rw [hstart, ← hi]; rfl)
      (by rw [List.length_drop]; omega)
    rw [hsplit, hstop, ih, hunits, hupper]
    simp only [KeyState.add, List.append_assoc, List.singleton_append, Bool.not_or,
      Bool.and_assoc]

theorem iniUnescapedKeyRange_eq {key : Bytes} {first stop : Nat} (h : first ≤ stop)
    (hstop : stop ≤ key.length) (result : Str) :
    iniUnescapedKeyRange isUpperLetter key first stop result =
      some (result ++ iniUnescapedKey ((key.take stop).drop first),
        !upperUnits (isUpper isUpperLetter) ((key.take stop).drop first)) := by
  obtain ⟨start, hstart⟩ : ∃ start, start = key.take first := ⟨_, rfl⟩
  obtain ⟨l, hl⟩ : ∃ l, l = (key.take stop).drop first := ⟨_, rfl⟩
  obtain ⟨behind, hbehind⟩ : ∃ behind, behind = key.drop stop := ⟨_, rfl⟩
  have hfirst : start.length = first := by
    rw [hstart, List.length_take]
    omega
  have hlen : l.length = stop - first := by
    rw [hl, List.length_drop, List.length_take]
    omega
  have hkey : key = start ++ l ++ behind := by
    have htake : key.take stop = start ++ l := by
      rw [hstart, hl, ← List.take_append_drop first (key.take stop), List.take_take,
        Nat.min_eq_left h, List.drop_append_of_le_length (by rw [List.length_take]; omega),
        List.drop_take_self, List.nil_append]
    rw [← htake, hbehind, List.take_append_drop]
  have hrun := keyLoop_spec isUpperLetter behind (stop - first) start l ⟨first, result, true⟩
    hfirst.symm (by omega)
  have hsum : start.length + l.length = stop := by omega
  rw [hsum, ← hkey] at hrun
  rw [iniUnescapedKeyRange, hrun, ← hl]
  rfl

end

/-! ## Escaped keys -/

theorem takenEscape_two {ch : UInt16} (h : ch.toNat ≤ 255) (rest : Bytes) :
    takenEscape (hexDigit (ch.toNat / 16) :: hexDigit (ch.toNat % 16) :: rest) =
      some (ch, rest) := by
  have hd : ∀ d ∈ [ch.toNat / 16, ch.toNat % 16], d < 16 := by
    intro d hd
    rw [List.mem_cons, List.mem_singleton] at hd
    omega
  have hU := (hexDigit_plain (ch.toNat / 16) (by omega)).2.2.2.2.2.2
  have hint := toInt16_hexDigits _ hd (List.cons_ne_nil _ _)
  simp only [List.map_cons, List.map_nil, List.foldl_cons, List.foldl_nil] at hint
  rw [takenEscape, digitsBehind, if_neg hU,
    if_pos (show 1 ≤ (hexDigit (ch.toNat % 16) :: rest).length from Nat.le_add_left 1 _)]
  simp only [Option.bind_some, List.take_succ_cons, List.take_zero, hint, Option.map_some,
    List.drop_succ_cons, List.drop_zero]
  rw [show 16 * (16 * 0 + ch.toNat / 16) + ch.toNat % 16 = ch.toNat by omega, characterOfInt_toNat]

theorem takenEscape_four (ch : UInt16) (rest : Bytes) :
    takenEscape (byte 'U' :: hexDigit (ch.toNat / 4096 % 16) :: hexDigit (ch.toNat / 256 % 16) ::
      hexDigit (ch.toNat / 16 % 16) :: hexDigit (ch.toNat % 16) :: rest) = some (ch, rest) := by
  have hn := ch.toNat_lt
  have hd : ∀ d ∈ [ch.toNat / 4096 % 16, ch.toNat / 256 % 16, ch.toNat / 16 % 16, ch.toNat % 16],
      d < 16 := by
    intro d hd
    simp only [List.mem_cons, List.not_mem_nil, or_false] at hd
    omega
  have hint := toInt16_hexDigits _ hd (List.cons_ne_nil _ _)
  simp only [List.map_cons, List.map_nil, List.foldl_cons, List.foldl_nil] at hint
  rw [takenEscape, digitsBehind, if_pos rfl,
    if_pos (by simp only [List.length_cons]; omega)]
  simp only [Option.bind_some, List.take_succ_cons, List.take_zero, hint, Option.map_some,
    List.drop_succ_cons, List.drop_zero]
  rw [show 16 * (16 * (16 * (16 * 0 + ch.toNat / 4096 % 16) + ch.toNat / 256 % 16) +
    ch.toNat / 16 % 16) + ch.toNat % 16 = ch.toNat by omega, characterOfInt_toNat]

theorem isUpper_byte (isUpperLetter : UInt16 → Bool) {b : UInt8} (h : b.toNat < 128) :
    isUpper isUpperLetter b.toUInt16 = (byte 'A' ≤ b && b ≤ byte 'Z') := by
  have hlow : ¬(127 : UInt16) < b.toUInt16 := by
    rw [UInt16.lt_iff_toNat_lt, UInt8.toNat_toUInt16]
    show ¬127 < b.toNat
    omega
  unfold isUpper
  rw [decide_eq_false hlow, Bool.false_and, Bool.or_false]
  simp only [UInt16.le_iff_toNat_le, UInt8.toNat_toUInt16, UInt8.le_iff_toNat_le]
  rfl

theorem isPlainKeyUnit_lt {ch : UInt16} (h : isPlainKeyUnit ch = true) :
    ch.toUInt8.toNat < 128 := by
  simp [isPlainKeyUnit, UInt16.le_iff_toNat_le, ← UInt16.toNat_inj] at h
  rw [UInt16.toNat_toUInt8]
  omega

theorem upperUnits_unit (isUpperLetter : UInt16 → Bool) (ch : UInt16) (rest : Bytes) :
    upperUnits (isUpper isUpperLetter) (escapeKeyUnit ch ++ rest) =
      (isUpper isUpperLetter ch || upperUnits (isUpper isUpperLetter) rest) := by
  unfold escapeKeyUnit
  split
  · rename_i hs
    have hslash := isUpper_byte isUpperLetter (show (byte '/').toNat < 128 by decide)
    rw [hs, List.singleton_append, upperUnits_slash]
    rw [show slash = (byte '/').toUInt16 from rfl, hslash]
    rfl
  split
  · rename_i hplain
    rw [List.singleton_append, upperUnits_ordinary isUpperLetter rest
      (isPlainKeyUnit_ne hplain (by decide)) (isPlainKeyUnit_ne hplain (by decide)),
      ← isUpper_byte isUpperLetter (isPlainKeyUnit_lt hplain), isPlainKeyUnit_byte hplain]
  split
  · rename_i hle
    exact upperUnits_some isUpperLetter (takenEscape_two (UInt16.le_iff_toNat_le.mp hle) rest)
  · exact upperUnits_some isUpperLetter (takenEscape_four ch rest)

theorem upperUnits_escaped (isUpperLetter : UInt16 → Bool) : ∀ key : Str,
    upperUnits (isUpper isUpperLetter) (iniEscapedKey key) = key.any (isUpper isUpperLetter)
  | [] => by
    rw [iniEscapedKey, List.flatMap_nil, upperUnits]
    rfl
  | ch :: key => by
    have ih := upperUnits_escaped isUpperLetter key
    unfold iniEscapedKey at ih ⊢
    rw [List.flatMap_cons, upperUnits_unit, ih, List.any_cons]

theorem iniEscapedKey_bytes {key : Str} {b : UInt8} (h : b ∈ iniEscapedKey key) :
    b ∉ [byte '=', byte ';', byte '[', byte ']', byte ' ', 9, 10, 13] := by
  obtain ⟨ch, -, hb⟩ := List.mem_flatMap.mp h
  by_cases hs : ch = slash
  · rw [escapeKeyUnit, if_pos hs, List.mem_singleton] at hb
    rw [hb]
    decide
  · obtain ⟨hspecial, hspace, hopen⟩ := escapeKeyUnit_ordinary hs b hb
    have hclose : b ≠ byte ']' := by
      have hd : ∀ n < 16, hexDigit n ≠ byte ']' := by decide
      have hn := ch.toNat_lt
      unfold escapeKeyUnit at hb
      rw [if_neg hs] at hb
      split at hb
      · rename_i hplain
        rw [List.mem_singleton] at hb
        rw [hb]
        exact isPlainKeyUnit_ne hplain (by decide)
      · split at hb
        · rename_i hle
          have hle : ch.toNat ≤ 255 := UInt16.le_iff_toNat_le.mp hle
          simp only [List.mem_cons, List.not_mem_nil, or_false] at hb
          rcases hb with rfl | rfl | rfl
          · decide
          · exact hd _ (by omega)
          · exact hd _ (by omega)
        · simp only [List.mem_cons, List.not_mem_nil, or_false] at hb
          rcases hb with rfl | rfl | rfl | rfl | rfl | rfl
          · decide
          · decide
          all_goals exact hd _ (by omega)
    simp only [isSpecial, isSpace, Bool.or_eq_false_iff, beq_eq_false_iff_ne,
      ne_eq] at hspecial hspace
    obtain ⟨⟨⟨⟨⟨-, -⟩, -⟩, hsemi⟩, heq⟩, -⟩ := hspecial
    obtain ⟨⟨⟨htab, hlf⟩, hcr⟩, hblank⟩ := hspace
    simp only [List.mem_cons, List.not_mem_nil, or_false, not_or]
    exact ⟨heq, hsemi, hopen, hclose, hblank, htab, hlf, hcr⟩

/-- Every key comes back from its bytes. Of any range all of the bytes are kept that are in no
well-formed escape, unless `toInt` reads a number behind a percent sign that is no such escape. -/
theorem iniKeys_iff (isUpperLetter : UInt16 → Bool) :
    (∀ key result : Str,
      iniUnescapedKeyRange isUpperLetter (iniEscapedKey key) 0 (iniEscapedKey key).length result =
        some (result ++ key, !key.any (isUpper isUpperLetter))) ∧
    Function.Injective iniEscapedKey ∧
    (∀ key : Str, ∀ b ∈ iniEscapedKey key,
      b ∉ [byte '=', byte ';', byte '[', byte ']', byte ' ', 9, 10, 13]) ∧
    ∀ (key : Bytes) (first stop : Nat) (result : Str), first ≤ stop → stop ≤ key.length →
      ∃ units lowercaseOnly,
        iniUnescapedKeyRange isUpperLetter key first stop result =
          some (result ++ units, lowercaseOnly) ∧
        (units = keptUnits ((key.take stop).drop first) ↔
          looseEscape ((key.take stop).drop first) = false) := by
  refine ⟨fun key result => ?_, fun key key' h => ?_, fun key b => iniEscapedKey_bytes,
    fun key first stop result h hstop => ?_⟩
  · rw [iniUnescapedKeyRange_eq isUpperLetter (Nat.zero_le _) (Nat.le_refl _), List.take_length,
      List.drop_zero, iniUnescapedKey_escaped, upperUnits_escaped]
  · rw [← iniUnescapedKey_escaped key, h, iniUnescapedKey_escaped]
  · exact ⟨_, _, iniUnescapedKeyRange_eq isUpperLetter h hstop result,
      keptUnits_iff _ _ (Nat.le_refl _)⟩

theorem iniKeys_percent : ∃ units lowercaseOnly,
    iniUnescapedKeyRange (fun _ => false) (lit "a%4g%41") 1 7 [] =
      some ([] ++ units, lowercaseOnly) ∧
      (units = keptUnits (((lit "a%4g%41").take 7).drop 1) ↔
        looseEscape (((lit "a%4g%41").take 7).drop 1) = false) :=
  (iniKeys_iff fun _ => false).2.2.2 (lit "a%4g%41") 1 7 [] (by decide) (by decide)

/-- The sign and the digit behind the percent sign are lost. -/
theorem iniKeys_sign : ∃ units lowercaseOnly,
    iniUnescapedKeyRange (fun _ => false) (lit "%+1") 0 3 [] = some (units, lowercaseOnly) ∧
      units ≠ keptUnits (lit "%+1") := by
  have hwell : wellFormed (lit "+1") = none := by decide
  have hloose : looseEscape (lit "%+1") = true := by
    show looseEscape (byte '%' :: lit "+1") = true
    rw [looseEscape_none hwell]
    rfl
  refine ⟨_, _, iniUnescapedKeyRange_eq _ (by decide) (by decide) [], fun h => ?_⟩
  have hkept : iniUnescapedKey (lit "%+1") = keptUnits (lit "%+1") := h
  rw [(keptUnits_iff _ _ (Nat.le_refl _)).mp hkept] at hloose
  cases hloose

end Libpdk.Settings
