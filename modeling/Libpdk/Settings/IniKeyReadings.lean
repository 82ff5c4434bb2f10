import Libpdk.Settings.IniLines

/-!
# Two readings of a key

`iniUnescapedKey` against the reading in which only well-formed escapes are escapes (`keptUnits`).
The two agree up to the first percent sign behind which `toInt` finds a number that is not written
in digits alone (`looseEscape`), and never again behind it: the characters are then too few
(`notMore`) or other ones (`taken_ne_kept`).
-/
namespace Libpdk.Settings

/-- `[0-9a-fA-F]`, as a byte. -/
def isHexByte (b : UInt8) : Bool := (hexValue b.toNat).isSome

/-- The digits of an escape, and what is behind them. -/
@[grind =] def digitsBehind : Bytes → Option (Bytes × Bytes)
  | [] => none
  | b :: rest =>
    if b = byte 'U' then if 4 ≤ rest.length then some (rest.take 4, rest.drop 4) else none
    else if 1 ≤ rest.length then some (b :: rest.take 1, rest.drop 1) else none

/-- What `toInt` takes behind a percent sign. -/
def takenEscape (rest : Bytes) : Option (UInt16 × Bytes) :=
  (digitsBehind rest).bind fun (digits, left) =>
    (toInt16 digits).map fun n => (characterOfInt n, left)

def hexNumber (digits : Bytes) : Nat :=
  digits.foldl (fun n b => 16 * n + (hexValue b.toNat).getD 0) 0

/-- Two digits, or a `U` and four. -/
def wellFormed (rest : Bytes) : Option (UInt16 × Bytes) :=
  (digitsBehind rest).bind fun (digits, left) =>
    if digits.all isHexByte then some (UInt16.ofNat (hexNumber digits), left) else none

theorem digitsBehind_shape {rest digits left : Bytes}
    (h : digitsBehind rest = some (digits, left)) :
    (∃ a b, a ≠ byte 'U' ∧ digits = [a, b] ∧ rest = a :: b :: left) ∨
      ∃ a b c d, digits = [a, b, c, d] ∧ rest = byte 'U' :: a :: b :: c :: d :: left := by
  match rest with
  | [] => cases h
  | [a] =>
    by_cases ha : a = byte 'U'
    · rw [digitsBehind, if_pos ha] at h
      cases h
    · rw [digitsBehind, if_neg ha] at h
      cases h
  | a :: b :: rest =>
    by_cases ha : a = byte 'U'
    · rw [digitsBehind, if_pos ha] at h
      split at h
      · rename_i hlen
        rcases rest with _ | ⟨c, _ | ⟨d, _ | ⟨e, rest⟩⟩⟩
        · simp at hlen
        · simp at hlen
        · simp at hlen
        · cases h
          exact .inr ⟨b, c, d, e, rfl, by rw [ha]; rfl⟩
      · cases h
    · rw [digitsBehind, if_neg ha,
        if_pos (show 1 ≤ (b :: rest).length from Nat.le_add_left 1 _)] at h
      cases h
      exact .inl ⟨a, b, ha, rfl, rfl⟩

theorem digitsBehind_length {rest digits left : Bytes}
    (h : digitsBehind rest = some (digits, left)) : left.length < rest.length := by
  obtain ⟨a, b, -, -, rfl⟩ | ⟨a, b, c, d, -, rfl⟩ := digitsBehind_shape h
  · simp only [List.length_cons]
    omega
  · simp only [List.length_cons]
    omega

theorem wellFormed_digits {rest left : Bytes} {ch : UInt16}
    (h : wellFormed rest = some (ch, left)) :
    ∃ digits, digitsBehind rest = some (digits, left) ∧ digits.all isHexByte = true ∧
      ch = UInt16.ofNat (hexNumber digits) := by
  unfold wellFormed at h
  obtain ⟨⟨digits, left'⟩, hd, h⟩ := Option.bind_eq_some_iff.mp h
  simp only at h
  split at h
  · rename_i hall
    cases h
    exact ⟨digits, hd, hall, rfl⟩
  · cases h

theorem takenEscape_digits {rest left : Bytes} {ch : UInt16}
    (h : takenEscape rest = some (ch, left)) :
    ∃ digits n, digitsBehind rest = some (digits, left) ∧ toInt16 digits = some n ∧
      ch = characterOfInt n := by
  unfold takenEscape at h
  obtain ⟨⟨digits, left'⟩, hd, h⟩ := Option.bind_eq_some_iff.mp h
  simp only [Option.map_eq_some_iff] at h
  obtain ⟨n, hn, h⟩ := h
  cases h
  exact ⟨digits, n, hd, hn, rfl⟩

theorem wellFormed_length {rest left : Bytes} {ch : UInt16}
    (h : wellFormed rest = some (ch, left)) :
    left.length < rest.length := by
  obtain ⟨digits, hd, -⟩ := wellFormed_digits h
  exact digitsBehind_length hd

theorem takenEscape_length {rest left : Bytes} {ch : UInt16}
    (h : takenEscape rest = some (ch, left)) : left.length < rest.length := by
  obtain ⟨digits, n, hd, -⟩ := takenEscape_digits h
  exact digitsBehind_length hd

/-- The characters of a key when every byte that is not part of a well-formed escape is kept. -/
@[grind =] def keptUnits : Bytes → Str
  | [] => []
  | ch :: rest =>
    if ch = 0x5C then slash :: keptUnits rest
    else if ch = byte '%' then
      match h : wellFormed rest with
      | some (u, left) =>
        have := wellFormed_length h
        u :: keptUnits left
      | none => unit '%' :: keptUnits rest
    else ch.toUInt16 :: keptUnits rest
  termination_by key => key.length
  decreasing_by all_goals simp only [List.length_cons]; omega

/-- There is a percent sign that begins no well-formed escape, and `toInt` finds a number in the
bytes behind it all the same. -/
@[grind =] def looseEscape : Bytes → Bool
  | [] => false
  | ch :: rest =>
    if ch = byte '%' then
      match h : wellFormed rest with
      | some (_, left) =>
        have := wellFormed_length h
        looseEscape left
      | none => (takenEscape rest).isSome || looseEscape rest
    else looseEscape rest
  termination_by key => key.length
  decreasing_by all_goals simp only [List.length_cons]; omega

/-- Whether `lowercaseOnly` is reset: by a raw letter of ASCII, and by any escaped one. -/
@[grind =] def upperUnits (isUpper : UInt16 → Bool) : Bytes → Bool
  | [] => false
  | ch :: rest =>
    if ch = 0x5C then upperUnits isUpper rest
    else if ch = byte '%' then
      match h : takenEscape rest with
      | some (u, left) =>
        have := takenEscape_length h
        isUpper u || upperUnits isUpper left
      | none => upperUnits isUpper rest
    else (byte 'A' ≤ ch && ch ≤ byte 'Z') || upperUnits isUpper rest
  termination_by key => key.length
  decreasing_by all_goals simp only [List.length_cons]; omega

/-! ## What `toInt` takes -/

theorem strtollDigits_hex : ∀ (l : Bytes) {n m : Nat} {any : Bool},
    strtollDigits l n any = some m → ∀ b ∈ l, isHexByte b = true
  | [], _, _, _, _, b, hb => absurd hb List.not_mem_nil
  | c :: l, n, m, any, h, b, hb => by
    rw [strtollDigits] at h
    cases hc : hexValue c.toNat with
    | none =>
      rw [hc] at h
      cases h
    | some d =>
      rw [hc] at h
      rcases List.mem_cons.mp hb with rfl | hb
      · rw [isHexByte, hc]
        rfl
      · exact strtollDigits_hex l h b hb

theorem strtollPrefix_mem {l : Bytes} {b : UInt8} (h : b ∈ l) : b ∈ strtollPrefix l ∨
    b = byte '0' ∨ b = byte 'x' ∨ b = byte 'X' := by
  match l, h with
  | [], h => cases h
  | [_], h => exact .inl h
  | [_, _], h => exact .inl h
  | z :: x :: d :: rest, h =>
    rw [strtollPrefix]
    split
    · rename_i hprefix
      rcases List.mem_cons.mp h with rfl | h
      · exact .inr (.inl hprefix.1)
      · rcases List.mem_cons.mp h with rfl | h
        · exact .inr (.inr hprefix.2.1)
        · exact .inl h
    · exact .inl h

/-- No percent sign in front of a NUL, and something in front of it. -/
theorem toInt16_some {s : Bytes} {n : Int} (h : toInt16 s = some n) :
    s.takeWhile (· ≠ 0) ≠ [] ∧ byte '%' ∉ s.takeWhile (· ≠ 0) := by
  have hplain : ∀ (l : Bytes) (m : Nat), strtollDigits (strtollPrefix l) 0 false = some m →
      byte '%' ∉ l := by
    intro l m hl hmem
    rcases strtollPrefix_mem hmem with hmem | hmem | hmem | hmem
    · exact absurd (strtollDigits_hex _ hl _ hmem) (by decide)
    all_goals exact absurd hmem (by decide)
  obtain ⟨t, ht⟩ : ∃ t, t = s.takeWhile (· ≠ 0) := ⟨_, rfl⟩
  unfold toInt16 at h
  rw [← ht] at h ⊢
  constructor
  · rintro rfl
    cases h
  · intro hmem
    have hdrop : byte '%' ∈ t.dropWhile isCSpace := by
      rw [← List.takeWhile_append_dropWhile (p := isCSpace) (l := t), List.mem_append] at hmem
      refine hmem.resolve_left fun hspace => ?_
      exact absurd (List.mem_takeWhile_imp hspace) (by decide)
    split at h
    · rename_i hnil
      rw [hnil] at hdrop
      cases hdrop
    · rename_i b rest hcons
      rw [hcons] at hdrop
      have hrest : b ≠ byte '%' → byte '%' ∈ rest := fun hb =>
        (List.mem_cons.mp hdrop).resolve_left fun he => hb he.symm
      split at h
      · rename_i hb
        obtain ⟨m, hm, -⟩ := Option.map_eq_some_iff.mp h
        obtain ⟨k, hk, -⟩ := Option.bind_eq_some_iff.mp hm
        exact hplain rest k hk (hrest (by rw [hb]; decide))
      · split at h
        · rename_i hb
          obtain ⟨m, hm, -⟩ := Option.map_eq_some_iff.mp h
          obtain ⟨k, hk, -⟩ := Option.bind_eq_some_iff.mp hm
          exact hplain rest k hk (hrest (by rw [hb]; decide))
        · obtain ⟨m, hm, -⟩ := Option.map_eq_some_iff.mp h
          obtain ⟨k, hk, -⟩ := Option.bind_eq_some_iff.mp hm
          exact hplain (b :: rest) k hk hdrop

theorem isHexByte_ne {b c : UInt8} (h : isHexByte b = true) (hc : isHexByte c = false) : b ≠ c := by
  rintro rfl
  rw [h] at hc
  cases hc

theorem strtollDigits_number : ∀ (l : Bytes) (n : Nat) (any : Bool), (∀ b ∈ l, isHexByte b = true) →
    (l = [] → any = true) →
    strtollDigits l n any =
      some (l.foldl (fun n b => 16 * n + (hexValue b.toNat).getD 0) n)
  | [], n, any, _, hany => by
    rw [strtollDigits, if_pos (hany rfl)]
    rfl
  | b :: l, n, any, h, _ => by
    obtain ⟨d, hd⟩ := Option.isSome_iff_exists.mp (h b List.mem_cons_self)
    rw [strtollDigits, hd, List.foldl_cons, hd]
    exact strtollDigits_number l _ true (fun c hc => h c (List.mem_cons_of_mem _ hc)) fun _ => rfl

theorem strtollPrefix_hex {l : Bytes} (h : ∀ b ∈ l, isHexByte b = true) : strtollPrefix l = l := by
  match l with
  | [] => rfl
  | [_] => rfl
  | [_, _] => rfl
  | z :: x :: d :: rest =>
    have hx : isHexByte x = true := h x (List.mem_cons_of_mem _ List.mem_cons_self)
    rw [strtollPrefix, if_neg]
    rintro ⟨-, hx' | hx', -⟩
    · exact isHexByte_ne hx (by decide) hx'
    · exact isHexByte_ne hx (by decide) hx'

/-- Of digits `toInt` takes the number. -/
theorem toInt16_hex {l : Bytes} (h : ∀ b ∈ l, isHexByte b = true) (hne : l ≠ []) :
    toInt16 l = some (hexNumber l : Int) := by
  have htake : l.takeWhile (· ≠ 0) = l := by
    rw [List.takeWhile_eq_self_iff]
    intro b hb
    exact decide_eq_true (isHexByte_ne (h b hb) (by decide))
  have hspace : ∀ b : UInt8, isCSpace b = true → isHexByte b = false := by
    intro b hb
    simp [isCSpace, UInt8.le_iff_toNat_le, ← UInt8.toNat_inj] at hb
    rw [isHexByte, hexValue]
    split_ifs <;> simp <;> omega
  obtain ⟨b, rest, rfl⟩ := List.exists_cons_of_ne_nil hne
  have hb := h b List.mem_cons_self
  have hnospace : ¬isCSpace b = true := fun hs => by
    rw [hspace b hs] at hb
    cases hb
  unfold toInt16
  rw [htake, List.dropWhile_cons_of_neg hnospace]
  simp only
  rw [if_neg (isHexByte_ne hb (by decide)), if_neg (isHexByte_ne hb (by decide)),
    strtollPrefix_hex h, strtollDigits_number _ 0 false h (fun he => absurd he hne)]
  rfl

/-- A well-formed escape is taken as it should be. -/
theorem takenEscape_of_wellFormed {rest left : Bytes} {ch : UInt16}
    (h : wellFormed rest = some (ch, left)) : takenEscape rest = some (ch, left) := by
  obtain ⟨digits, hd, hall, rfl⟩ := wellFormed_digits h
  have hne : digits ≠ [] := by
    obtain ⟨a, b, -, rfl, -⟩ | ⟨a, b, c, d, rfl, -⟩ := digitsBehind_shape hd <;>
      exact List.cons_ne_nil _ _
  rw [takenEscape, hd]
  simp only [Option.bind_some]
  rw [toInt16_hex (List.all_eq_true.mp hall) hne]
  simp only [Option.map_some, characterOfInt, Option.some_inj, Prod.mk.injEq, and_true]
  apply UInt16.toNat_inj.mp
  rw [UInt16.toNat_ofNat', UInt16.toNat_ofNat']
  omega

/-! ## One character -/

/-- The loop at a percent sign. -/
theorem iniUnescapedKey_percent (rest : Bytes) : iniUnescapedKey (byte '%' :: rest) =
    match takenEscape rest with
    | some (u, left) => u :: iniUnescapedKey left
    | none => unit '%' :: iniUnescapedKey rest := by
  have hslash : ¬byte '%' = 0x5C := by decide
  match rest with
  | [] =>
    conv_lhs => rw [iniUnescapedKey, if_neg hslash, if_pos (.inr rfl)]
    rfl
  | a :: rest =>
    rw [iniUnescapedKey, if_neg hslash, if_neg (by rintro (h | h) <;> exact absurd h (by simp))]
    by_cases ha : a = byte 'U'
    · simp only [List.head?_cons, ha, if_true, takenEscape, digitsBehind, List.length_cons]
      by_cases hlen : 4 ≤ rest.length
      · rw [if_neg (by omega), if_pos hlen]
        simp only [List.drop_succ_cons, List.drop_zero, Option.bind_some, Nat.add_comm 1 4]
        cases toInt16 (rest.take 4) <;> rfl
      · rw [if_pos (by omega), if_neg hlen]
        rfl
    · simp only [List.head?_cons, Option.some.injEq, ha, if_false, takenEscape, digitsBehind,
        List.length_cons]
      by_cases hlen : 1 ≤ rest.length
      · rw [if_neg (by omega), if_pos hlen]
        simp only [List.drop_zero, Nat.zero_add, List.take_succ_cons, List.drop_succ_cons,
          Option.bind_some]
        cases toInt16 (a :: rest.take 1) <;> rfl
      · rw [if_pos (by omega), if_neg hlen]
        rfl

theorem iniUnescapedKey_ordinary {ch : UInt8} (rest : Bytes) (hs : ch ≠ 0x5C) (hp : ch ≠ byte '%') :
    iniUnescapedKey (ch :: rest) = ch.toUInt16 :: iniUnescapedKey rest := by
  rw [iniUnescapedKey, if_neg hs, if_pos (.inl hp)]

theorem iniUnescapedKey_slash (rest : Bytes) :
    iniUnescapedKey (0x5C :: rest) = slash :: iniUnescapedKey rest := by
  rw [iniUnescapedKey, if_pos rfl]

theorem keptUnits_ordinary {ch : UInt8} (rest : Bytes) (hs : ch ≠ 0x5C) (hp : ch ≠ byte '%') :
    keptUnits (ch :: rest) = ch.toUInt16 :: keptUnits rest := by
  rw [keptUnits, if_neg hs, if_neg hp]

theorem keptUnits_slash (rest : Bytes) : keptUnits (0x5C :: rest) = slash :: keptUnits rest := by
  rw [keptUnits, if_pos rfl]

theorem keptUnits_some {rest left : Bytes} {u : UInt16} (h : wellFormed rest = some (u, left)) :
    keptUnits (byte '%' :: rest) = u :: keptUnits left := by
  rw [keptUnits, if_neg (by decide), if_pos rfl]
  split
  · rename_i u' left' h'
    rw [h] at h'
    cases h'
    rfl
  · rename_i h'
    rw [h] at h'
    cases h'

theorem keptUnits_none {rest : Bytes} (h : wellFormed rest = none) :
    keptUnits (byte '%' :: rest) = unit '%' :: keptUnits rest := by
  rw [keptUnits, if_neg (by decide), if_pos rfl]
  split
  · rename_i h'
    rw [h] at h'
    cases h'
  · rfl

theorem looseEscape_ordinary {ch : UInt8} (rest : Bytes) (hp : ch ≠ byte '%') :
    looseEscape (ch :: rest) = looseEscape rest := by
  rw [looseEscape, if_neg hp]

theorem looseEscape_some {rest left : Bytes} {u : UInt16} (h : wellFormed rest = some (u, left)) :
    looseEscape (byte '%' :: rest) = looseEscape left := by
  rw [looseEscape, if_pos rfl]
  split
  · rename_i u' left' h'
    rw [h] at h'
    cases h'
    rfl
  · rename_i h'
    rw [h] at h'
    cases h'

theorem looseEscape_none {rest : Bytes} (h : wellFormed rest = none) :
    looseEscape (byte '%' :: rest) = ((takenEscape rest).isSome || looseEscape rest) := by
  rw [looseEscape, if_pos rfl]
  split
  · rename_i h'
    rw [h] at h'
    cases h'
  · rfl

/-- A byte that is not a percent sign is one character, in both readings. -/
theorem one_unit {ch : UInt8} (hp : ch ≠ byte '%') : ∃ u : UInt16, ∀ rest : Bytes,
    iniUnescapedKey (ch :: rest) = u :: iniUnescapedKey rest ∧
      keptUnits (ch :: rest) = u :: keptUnits rest := by
  by_cases hs : ch = 0x5C
  · rw [hs]
    exact ⟨slash, fun rest => ⟨iniUnescapedKey_slash rest, keptUnits_slash rest⟩⟩
  · exact ⟨ch.toUInt16, fun rest =>
      ⟨iniUnescapedKey_ordinary rest hs hp, keptUnits_ordinary rest hs hp⟩⟩

theorem isHexByte_units {b : UInt8} (h : isHexByte b = true) (rest : Bytes) :
    iniUnescapedKey (b :: rest) = b.toUInt16 :: iniUnescapedKey rest :=
  iniUnescapedKey_ordinary rest (isHexByte_ne h (by decide)) (isHexByte_ne h (by decide))

/-! ## How much is taken -/

/-- A well-formed escape in front of other bytes. -/
theorem wellFormed_shape {rest left : Bytes} {ch : UInt16} (h : wellFormed rest = some (ch, left)) :
    (∃ a b, isHexByte a = true ∧ isHexByte b = true ∧ rest = a :: b :: left) ∨
      ∃ a b c d, isHexByte a = true ∧ isHexByte b = true ∧ isHexByte c = true ∧
        isHexByte d = true ∧ rest = byte 'U' :: a :: b :: c :: d :: left := by
  obtain ⟨digits, hd, hall, -⟩ := wellFormed_digits h
  obtain ⟨a, b, -, rfl, rfl⟩ | ⟨a, b, c, d, rfl, rfl⟩ := digitsBehind_shape hd
  · simp only [List.all_cons, List.all_nil, Bool.and_true, Bool.and_eq_true] at hall
    exact .inl ⟨a, b, hall.1, hall.2, rfl⟩
  · simp only [List.all_cons, List.all_nil, Bool.and_true, Bool.and_eq_true] at hall
    exact .inr ⟨a, b, c, d, hall.1, hall.2.1, hall.2.2.1, hall.2.2.2, rfl⟩

/-- The characters that `iniUnescapedKey` makes of short keys are not more than are kept. -/
def NotMore (n : Nat) : Prop :=
  ∀ key : Bytes, key.length ≤ n → (iniUnescapedKey key).length ≤ (keptUnits key).length

/-- The percent sign of an escape is in front of `rest`, and `iniUnescapedKey` goes on behind it. -/
theorem notMore_one {rest : Bytes} (h : NotMore rest.length) (b : UInt8) :
    (iniUnescapedKey rest).length ≤ (keptUnits (b :: rest)).length + 4 := by
  have hrest := h rest (Nat.le_refl _)
  by_cases hb : b = byte '%'
  · rw [hb]
    cases hw : wellFormed rest with
    | none =>
      rw [keptUnits_none hw, List.length_cons]
      omega
    | some r =>
      obtain ⟨u, left⟩ := r
      have hleft := h left (Nat.le_of_lt (wellFormed_length hw))
      rw [keptUnits_some hw, List.length_cons]
      obtain ⟨c, d, hc, hd, rfl⟩ | ⟨c, d, e, f, hc, hd, he, hf, rfl⟩ := wellFormed_shape hw
      · rw [isHexByte_units hc, isHexByte_units hd, List.length_cons, List.length_cons]
        omega
      · rw [iniUnescapedKey_ordinary _ (by decide) (by decide), isHexByte_units hc,
          isHexByte_units hd, isHexByte_units he, isHexByte_units hf]
        simp only [List.length_cons]
        omega
  · obtain ⟨u, hu⟩ := one_unit hb
    rw [(hu rest).2, List.length_cons]
    omega

theorem notMore_two {rest : Bytes} (h : NotMore rest.length) (a b : UInt8) :
    (iniUnescapedKey rest).length ≤ (keptUnits (a :: b :: rest)).length + 3 := by
  have hone := notMore_one h b
  by_cases ha : a = byte '%'
  · rw [ha]
    cases hw : wellFormed (b :: rest) with
    | none =>
      rw [keptUnits_none hw, List.length_cons]
      omega
    | some r =>
      obtain ⟨u, left⟩ := r
      rw [keptUnits_some hw, List.length_cons]
      obtain ⟨c, d, -, hd, he⟩ | ⟨c, d, e, f, hc, hd, he, hf, heq⟩ := wellFormed_shape hw
      · rw [List.cons.injEq] at he
        obtain ⟨-, rfl⟩ := he
        have hleft := h left (by rw [List.length_cons]; omega)
        rw [isHexByte_units hd, List.length_cons]
        omega
      · rw [List.cons.injEq] at heq
        obtain ⟨-, rfl⟩ := heq
        have hleft := h left (by simp only [List.length_cons]; omega)
        rw [isHexByte_units hc, isHexByte_units hd, isHexByte_units he, isHexByte_units hf]
        simp only [List.length_cons]
        omega
  · obtain ⟨u, hu⟩ := one_unit ha
    rw [(hu (b :: rest)).2, List.length_cons]
    omega

theorem takeWhile_nonzero {b : UInt8} (h : b ≠ 0) (l : Bytes) :
    (b :: l).takeWhile (· ≠ 0) = b :: l.takeWhile (· ≠ 0) :=
  List.takeWhile_cons_of_pos (decide_eq_true h)

/-- What is behind a percent sign when `toInt` takes a number: no percent sign soon. -/
theorem takenEscape_shape {rest left : Bytes} {ch : UInt16}
    (h : takenEscape rest = some (ch, left)) :
    (∃ a b, a ≠ byte '%' ∧ b ≠ byte '%' ∧ rest = a :: b :: left) ∨
      ∃ a b c d, a ≠ byte '%' ∧ b ≠ byte '%' ∧ rest = byte 'U' :: a :: b :: c :: d :: left ∧
        (isHexByte a = true → isHexByte b = true → isHexByte c = true → d ≠ byte '%') := by
  obtain ⟨digits, n, hd, hn, -⟩ := takenEscape_digits h
  obtain ⟨hne, hpercent⟩ := toInt16_some hn
  obtain ⟨a, b, -, rfl, rfl⟩ | ⟨a, b, c, d, rfl, rfl⟩ := digitsBehind_shape hd
  all_goals
    have ha : a ≠ 0 := by
      rintro rfl
      exact hne rfl
    rw [takeWhile_nonzero ha] at hpercent
    have hap : a ≠ byte '%' := fun he => hpercent (by rw [he]; exact List.mem_cons_self)
    have hbp : b ≠ byte '%' := by
      rintro rfl
      rw [takeWhile_nonzero (by decide)] at hpercent
      exact hpercent (List.mem_cons_of_mem _ List.mem_cons_self)
  · exact .inl ⟨a, b, hap, hbp, rfl⟩
  · refine .inr ⟨a, b, c, d, hap, hbp, rfl, fun _ hb hc => ?_⟩
    rintro rfl
    rw [takeWhile_nonzero (isHexByte_ne hb (by decide)),
      takeWhile_nonzero (isHexByte_ne hc (by decide)), takeWhile_nonzero (by decide)] at hpercent
    exact hpercent (by simp)

theorem notMore : ∀ n, NotMore n := by
  intro n
  induction n with
  | zero =>
    intro key hkey
    rw [List.length_eq_zero_iff.mp (Nat.le_zero.mp hkey), iniUnescapedKey, keptUnits]
  | succ n ih =>
    intro key hkey
    cases key with
    | nil => rw [iniUnescapedKey, keptUnits]
    | cons ch rest =>
      rw [List.length_cons] at hkey
      have hshort : ∀ l : Bytes, l.length ≤ rest.length → NotMore l.length :=
        fun l hl key hk => ih key (by omega)
      by_cases hp : ch = byte '%'
      · rw [hp, iniUnescapedKey_percent]
        cases ht : takenEscape rest with
        | none =>
          have hw : wellFormed rest = none := by
            cases hw : wellFormed rest with
            | none => rfl
            | some r =>
              rw [takenEscape_of_wellFormed hw] at ht
              cases ht
          have hrest := ih rest (by omega)
          rw [keptUnits_none hw, List.length_cons, List.length_cons]
          omega
        | some r =>
          obtain ⟨u, left⟩ := r
          have hlen := takenEscape_length ht
          have hleft := ih left (by omega)
          cases hw : wellFormed rest with
          | some r' =>
            obtain ⟨u', left'⟩ := r'
            rw [takenEscape_of_wellFormed hw] at ht
            cases ht
            rw [keptUnits_some hw, List.length_cons, List.length_cons]
            omega
          | none =>
            rw [keptUnits_none hw, List.length_cons, List.length_cons]
            obtain ⟨a, b, ha, hb, rfl⟩ | ⟨a, b, c, d, ha, hb, rfl, -⟩ := takenEscape_shape ht
            · obtain ⟨ua, hua⟩ := one_unit ha
              obtain ⟨ub, hub⟩ := one_unit hb
              rw [(hua _).2, (hub _).2, List.length_cons, List.length_cons]
              omega
            · obtain ⟨ua, hua⟩ := one_unit ha
              obtain ⟨ub, hub⟩ := one_unit hb
              have htwo := notMore_two (hshort left (by omega)) c d
              rw [keptUnits_ordinary _ (by decide) (by decide), (hua _).2, (hub _).2]
              simp only [List.length_cons]
              omega
      · obtain ⟨u, hu⟩ := one_unit hp
        have hrest := ih rest (by omega)
        rw [(hu rest).1, (hu rest).2, List.length_cons, List.length_cons]
        omega

/-! ## The two readings -/

theorem toUInt16_inj {a b : UInt8} (h : a.toUInt16 = b.toUInt16) : a = b := by
  apply UInt8.toNat_inj.mp
  rw [← UInt8.toNat_toUInt16, ← UInt8.toNat_toUInt16, h]

/-- A byte that is kept as a digit is one. -/
theorem kept_unit (c : UInt8) (rest : Bytes) (h : c = byte '%' → wellFormed rest = none) :
    ∃ u, keptUnits (c :: rest) = u :: keptUnits rest ∧
      ∀ b, isHexByte b = true → u = b.toUInt16 → isHexByte c = true := by
  by_cases hp : c = byte '%'
  · rw [hp, keptUnits_none (h hp)]
    refine ⟨_, rfl, fun b hb he => ?_⟩
    rw [toUInt16_inj (show (byte '%').toUInt16 = b.toUInt16 from he)]
    exact hb
  · by_cases hs : c = 0x5C
    · rw [hs, keptUnits_slash]
      refine ⟨_, rfl, fun b hb he => ?_⟩
      have hslash := toUInt16_inj (show (byte '/').toUInt16 = b.toUInt16 from he)
      rw [← hslash] at hb
      exact absurd hb (by decide)
    · rw [keptUnits_ordinary rest hs hp]
      refine ⟨_, rfl, fun b hb he => ?_⟩
      rw [toUInt16_inj he]
      exact hb

/-- An escape that is not well formed is not kept: `iniUnescapedKey` goes on too far behind it. -/
theorem taken_ne_kept {rest left : Bytes} {ch : UInt16} (ht : takenEscape rest = some (ch, left)) :
    iniUnescapedKey left ≠ keptUnits rest := by
  intro heq
  have hleft := notMore left.length left (Nat.le_refl _)
  have hlen := congrArg List.length heq
  obtain ⟨a, b, ha, hb, rfl⟩ | ⟨a, b, c, d, ha, hb, rfl, hd⟩ := takenEscape_shape ht
  · obtain ⟨ua, hua⟩ := one_unit ha
    obtain ⟨ub, hub⟩ := one_unit hb
    rw [(hua _).2, (hub _).2, List.length_cons, List.length_cons] at hlen
    omega
  · obtain ⟨ua, hua, hha⟩ := kept_unit a (b :: c :: d :: left) fun h => absurd h ha
    obtain ⟨ub, hub, hhb⟩ := kept_unit b (c :: d :: left) fun h => absurd h hb
    rw [keptUnits_ordinary _ (by decide) (by decide), hua, hub] at heq hlen
    simp only [List.length_cons] at hlen
    by_cases hc : c = byte '%' ∧ wellFormed (d :: left) ≠ none
    · obtain ⟨⟨u, left'⟩, hw⟩ := Option.ne_none_iff_exists'.mp hc.2
      rw [hc.1, keptUnits_some hw, List.length_cons] at hlen
      obtain ⟨e, f, -, hf, he⟩ | ⟨e, f, g, i, hhe, -, -, -, he⟩ := wellFormed_shape hw
      · rw [List.cons.injEq] at he
        rw [he.2, isHexByte_units hf, List.length_cons] at hlen
        have := notMore left'.length left' (Nat.le_refl _)
        omega
      · rw [List.cons.injEq] at he
        rw [he.2, isHexByte_units hhe, List.cons.injEq] at heq
        exact isHexByte_ne hhe (by decide) (toUInt16_inj heq.1)
    · obtain ⟨uc, huc, hhc⟩ := kept_unit c (d :: left) fun h => by
        by_contra hne
        exact hc ⟨h, hne⟩
      rw [huc] at heq hlen
      rw [List.length_cons] at hlen
      by_cases hdp : d = byte '%'
      · cases hw : wellFormed left with
        | none =>
          rw [hdp, keptUnits_none hw, List.length_cons] at hlen
          omega
        | some r =>
          obtain ⟨u, left'⟩ := r
          have hleft' := notMore left'.length left' (Nat.le_refl _)
          rw [hdp, keptUnits_some hw, List.length_cons] at hlen
          obtain ⟨e, f, he, hf, rfl⟩ | ⟨e, f, g, i, he, hf, hg, hi, rfl⟩ := wellFormed_shape hw
          · rw [isHexByte_units he, isHexByte_units hf, List.length_cons, List.length_cons] at hlen
            omega
          · rw [iniUnescapedKey_ordinary _ (by decide) (by decide), isHexByte_units he,
              isHexByte_units hf, isHexByte_units hg] at heq
            simp only [List.cons.injEq] at heq
            obtain ⟨-, hea, hfb, hgc, -⟩ := heq
            exact hd (hha e he hea.symm) (hhb f hf hfb.symm) (hhc g hg hgc.symm) hdp
      · obtain ⟨ud, hud⟩ := one_unit hdp
        rw [(hud left).2, List.length_cons] at hlen
        omega

theorem keptUnits_iff : ∀ (n : Nat) (key : Bytes), key.length ≤ n →
    (iniUnescapedKey key = keptUnits key ↔ looseEscape key = false) := by
  intro n
  induction n with
  | zero =>
    intro key hkey
    rw [List.length_eq_zero_iff.mp (Nat.le_zero.mp hkey), iniUnescapedKey, keptUnits, looseEscape]
    exact ⟨fun _ => rfl, fun _ => rfl⟩
  | succ n ih =>
    intro key hkey
    cases key with
    | nil =>
      rw [iniUnescapedKey, keptUnits, looseEscape]
      exact ⟨fun _ => rfl, fun _ => rfl⟩
    | cons ch rest =>
      rw [List.length_cons] at hkey
      by_cases hp : ch = byte '%'
      · rw [hp, iniUnescapedKey_percent]
        cases hw : wellFormed rest with
        | some r =>
          obtain ⟨u, left⟩ := r
          have hlen := wellFormed_length hw
          rw [takenEscape_of_wellFormed hw, keptUnits_some hw, looseEscape_some hw,
            List.cons_inj_right]
          exact ih left (by omega)
        | none =>
          rw [keptUnits_none hw, looseEscape_none hw]
          cases ht : takenEscape rest with
          | none =>
            rw [List.cons_inj_right, Option.isSome_none, Bool.false_or]
            exact ih rest (by omega)
          | some r =>
            obtain ⟨u, left⟩ := r
            rw [Option.isSome_some, Bool.true_or]
            refine ⟨fun h => absurd (List.cons.inj h).2 (taken_ne_kept ht), fun h => ?_⟩
            cases h
      · obtain ⟨u, hu⟩ := one_unit hp
        rw [(hu rest).1, (hu rest).2, looseEscape_ordinary rest hp, List.cons_inj_right]
        exact ih rest (by omega)

end Libpdk.Settings
