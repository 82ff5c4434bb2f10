import Libpdk.Utils.LocaleData

/-!
# Integers of a locale are read back

What is written is a sign, a first group of digits with the padding in front, and groups of three
(`spelled`). `numberToCLocale` takes it back to the digits as long as the first group is no longer
than the others (`numberToCLocale_spelled`).
-/
namespace Libpdk.Utils

open Numeral
open Time (int)

namespace LocaleData

/-! ## Symbols -/

/-- One of the ten digits of the locale, or of ASCII. -/
def IsDigit (d : LocaleData) (c : UInt16) : Prop :=
  (d.zero ≤ c ∧ c.toNat ≤ d.zero.toNat + 9) ∨ (unit '0' ≤ c ∧ c ≤ unit '9')

def symbols (d : LocaleData) : List UInt16 :=
  [d.zero, d.decimal, d.group, d.plus, d.minus, d.exponential]

/-- The symbols can be told apart, and are no white space. -/
structure Distinct [UnicodeTables] (d : LocaleData) : Prop where
  nodup : d.symbols.Nodup
  space : ∀ c ∈ d.symbols, Character.isSpace c = false

/-- No symbol is an ASCII letter. -/
def NoLetter (d : LocaleData) : Prop :=
  ∀ c ∈ d.symbols, ¬(unit 'A' ≤ c ∧ c ≤ unit 'Z') ∧ ¬(unit 'a' ≤ c ∧ c ≤ unit 'z')

/-- There are ten digits, none of them white space; no other symbol is a digit, the separator of
groups is no sign that all locales have, and the minus is no ASCII plus. -/
structure Separate [UnicodeTables] (d : LocaleData) : Prop where
  ten : d.zero.toNat + 10 < 65536
  digits : ∀ k < 10, Character.isSpace (d.zero + UInt16.ofNat k) = false
  group : ¬d.IsDigit d.group
  plus : ¬d.IsDigit d.plus
  minus : ¬d.IsDigit d.minus
  group_sign : d.group ≠ unit '+' ∧ d.group ≠ unit '-' ∧ d.group ≠ 0x2212
  minus_plus : d.minus ≠ unit '+'

/-- Digit `k` of the locale. -/
def symbol (d : LocaleData) (k : Nat) : UInt16 := d.zero + UInt16.ofNat k

/-- Digits with a separator in front of every group but the first. -/
def spelled (d : LocaleData) (first : List Nat) (groups : List (List Nat)) : Str :=
  first.map d.symbol ++ groups.flatMap fun g => d.group :: g.map d.symbol

/-! ## Writing -/

section

variable {d : LocaleData}

theorem localeSymbol_eq {k : Nat} (hk : k < 10) : localeSymbol 10 d.zero k = d.symbol k := by
  rw [localeSymbol, symbol]
  split
  · next h =>
    rcases h with h | h
    · exact absurd rfl h
    · rw [asciiSymbol, if_pos hk, h]
  · rfl

theorem map_localeSymbol {ds : List Nat} (h : ∀ k ∈ ds, k < 10) :
    ds.map (localeSymbol 10 d.zero) = ds.map d.symbol :=
  List.map_congr_left fun k hk => localeSymbol_eq (h k hk)

theorem take_split {α : Type} {a b : List α} {i : Nat} (h : a.length = i) :
    (a ++ b).take i = a ∧ (a ++ b).drop i = b := by
  subst h
  exact ⟨List.take_left, List.drop_left⟩

/-- What the loop makes of the text in front of place `i`. -/
theorem groupLoop_eq (group : UInt16) (f : Nat → UInt16) : ∀ (i : Nat) (a : List Nat) (b : Str),
    0 < i → a.length = i → ∃ (first : List Nat) (groups : List (List Nat)),
      a = first ++ groups.flatten ∧ 1 ≤ first.length ∧ first.length ≤ 3 ∧
      (∀ g ∈ groups, g.length = 3) ∧ groupLoop group i (a.map f ++ b) =
        first.map f ++ (groups.flatMap fun g => group :: g.map f) ++ group :: b
  | 0, _, _, h, _ => absurd h (by decide)
  | 1, a, b, _, ha => by
    obtain ⟨htake, hdrop⟩ := take_split (b := b) ((List.length_map f).trans ha)
    refine ⟨a, [], by simp, by omega, by omega, by simp, ?_⟩
    rw [groupLoop, htake, hdrop]
    simp
  | 2, a, b, _, ha => by
    obtain ⟨htake, hdrop⟩ := take_split (b := b) ((List.length_map f).trans ha)
    refine ⟨a, [], by simp, by omega, by omega, by simp, ?_⟩
    rw [groupLoop, htake, hdrop]
    simp
  | i + 3, a, b, _, ha => by
    obtain ⟨htake, hdrop⟩ := take_split (b := b) ((List.length_map f).trans ha)
    rw [groupLoop, htake, hdrop]
    rcases Nat.eq_zero_or_pos i with rfl | hpos
    · exact ⟨a, [], by simp, by omega, by omega, by simp, by simp [groupLoop]⟩
    · -- the last three digits of `a` are a group of their own
      obtain ⟨first, groups, heq, hone, hthree, hgroups, hloop⟩ :=
        groupLoop_eq group f i (a.take i) ((a.drop i).map f ++ group :: b) hpos (by simp [ha])
      refine ⟨first, groups ++ [a.drop i], ?_, hone, hthree, ?_, ?_⟩
      · rw [List.flatten_append, ← List.append_assoc, ← heq]
        simp
      · intro g hg
        rcases List.mem_append.mp hg with hg | hg
        · exact hgroups g hg
        · rw [List.mem_singleton.mp hg, List.length_drop, ha]
          omega
      · rw [← List.append_assoc, ← List.map_append, List.take_append_drop] at hloop
        rw [hloop]
        simp

/-- Grouped digits. -/
theorem groupLoop_spelled (ds : List Nat) (hne : ds ≠ []) :
    ∃ (first : List Nat) (groups : List (List Nat)),
      ds = first ++ groups.flatten ∧ 1 ≤ first.length ∧ first.length ≤ 3 ∧
      (∀ g ∈ groups, g.length = 3) ∧
      groupLoop d.group ((ds.map d.symbol).length - 3) (ds.map d.symbol) = d.spelled first groups := by
  rw [List.length_map]
  have hpos := List.length_pos_of_ne_nil hne
  by_cases hlen : ds.length ≤ 3
  · refine ⟨ds, [], by simp, hpos, hlen, by simp, ?_⟩
    rw [Nat.sub_eq_zero_of_le hlen, groupLoop, spelled]
    simp
  · obtain ⟨first, groups, heq, hone, hthree, hgroups, hloop⟩ :=
      groupLoop_eq d.group d.symbol (ds.length - 3) (ds.take (ds.length - 3))
        ((ds.drop (ds.length - 3)).map d.symbol) (by omega) (by simp)
    refine ⟨first, groups ++ [ds.drop (ds.length - 3)], ?_, hone, hthree, ?_, ?_⟩
    · rw [List.flatten_append, ← List.append_assoc, ← heq]
      simp
    · intro g hg
      rcases List.mem_append.mp hg with hg | hg
      · exact hgroups g hg
      · rw [List.mem_singleton.mp hg, List.length_drop]
        omega
    · rw [← List.map_append, List.take_append_drop] at hloop
      rw [hloop, spelled]
      simp

/-! ### Padding -/

/-- The digits of a number as it is written. -/
def shown (n : Nat) : List Nat := if n = 0 then [0] else digits 10 n

theorem shown_lt {n k : Nat} (h : k ∈ shown n) : k < 10 := by
  rw [shown] at h
  split at h
  · rw [List.mem_singleton.mp h]
    decide
  · exact digits_lt (by decide) h

theorem value_shown (n : Nat) : value 10 (shown n) = n := by
  rw [shown]
  split
  · next h => rw [h]; rfl
  · exact value_digits n

theorem shown_ne_nil (n : Nat) : shown n ≠ [] := by
  rw [shown]
  split
  · simp
  · next h => exact digits_ne_nil h

theorem length_shown_le {n : Nat} (hn : n < 2 ^ 64) : (shown n).length ≤ 20 := by
  rw [shown]
  split
  · simp
  · exact length_digits_le (by decide) (by omega)

/-- The flags of an integer: groups, padding, and a sign on every number. -/
def integerFlags (grouped padded sign : Bool) : Flags :=
  ⟨padded, false, false, sign, grouped, false, false, false⟩

/-- The separators among that many digits. -/
def separators (count : Nat) : Nat := (count - 1) / 3

/-- How many digits stand in front of the first separator. -/
def firstGroup (count : Nat) : Nat := (count - 1) % 3 + 1

/-- The zeros in front of a text of that length. -/
def padding (length : Nat) (signed negative : Bool) (width : Int) (flags : Flags) : Nat :=
  if flags.zeroPadded then
    (width - length - if signed && (negative || flags.alwaysShowSign) then 1 else 0).toNat
  else 0

/-- The sign in front of the digits. -/
def signText (d : LocaleData) (negative : Bool) (flags : Flags) : Str :=
  if negative then [d.minus] else if flags.alwaysShowSign then [d.plus] else []

/-- The sign in the C locale. -/
def signBytes (negative : Bool) (flags : Flags) : Bytes :=
  if negative then [byte '-'] else if flags.alwaysShowSign then [byte '+'] else []

/-- The byte of a digit. -/
def digitByte (k : Nat) : UInt8 := byte '0' + UInt8.ofNat k

/-- There is no separator, or the zeros in front of the digits leave no more than three in the first
group. -/
def PaddingFits (n : Nat) (signed negative : Bool) (width : Int) (flags : Flags) : Prop :=
  flags.thousandsGroup = true → 3 < (shown n).length →
    padding ((shown n).length + separators (shown n).length) signed negative width flags +
      firstGroup (shown n).length ≤ 3

instance (n : Nat) (signed negative : Bool) (width : Int) (flags : Flags) :
    Decidable (PaddingFits n signed negative width flags) :=
  inferInstanceAs (Decidable (_ → _ → _))

/-- The text behind the loop. -/
def inGroups (d : LocaleData) (grouped : Bool) (numStr : Str) : Str :=
  if grouped then groupLoop d.group (numStr.length - 3) numStr else numStr

/-- The digits of a number in their groups. -/
structure Spelling (count : Nat) (grouped : Bool) (first : List Nat) (groups : List (List Nat)) :
    Prop where
  groups_three : ∀ g ∈ groups, g.length = 3
  groups_length : groups.length = if grouped then separators count else 0
  first_length : first.length = if grouped then firstGroup count else count

theorem Spelling.length {count : Nat} {grouped : Bool} {first : List Nat} {groups : List (List Nat)}
    (h : Spelling count grouped first groups) (hcount : 0 < count) :
    (d.spelled first groups).length = count + if grouped then separators count else 0 := by
  have hflat : ∀ gs : List (List Nat), (∀ g ∈ gs, g.length = 3) →
      (gs.flatMap fun g => d.group :: g.map d.symbol).length = 4 * gs.length := by
    intro gs hgs
    induction gs with
    | nil => rfl
    | cons g gs ih =>
      rw [List.flatMap_cons, List.length_append, ih fun g hg => hgs g (List.mem_cons_of_mem _ hg)]
      simp [hgs g List.mem_cons_self]
      omega
  have hfirst := h.first_length
  have hgroups := h.groups_length
  rw [spelled, List.length_append, List.length_map, hflat groups h.groups_three, hfirst, hgroups]
  cases grouped with
  | true => simp only [separators, firstGroup, if_true]; omega
  | false => simp

/-- The digits as the loop leaves them. -/
theorem grouped_spelling (ds : List Nat) (hne : ds ≠ []) (grouped : Bool) :
    ∃ (first : List Nat) (groups : List (List Nat)),
      ds = first ++ groups.flatten ∧ Spelling ds.length grouped first groups ∧
      d.inGroups grouped (ds.map d.symbol) = d.spelled first groups := by
  cases grouped with
  | false => exact ⟨ds, [], by simp, ⟨by simp, by simp, by simp⟩, by simp [spelled, inGroups]⟩
  | true =>
    obtain ⟨first, groups, heq, hone, hthree, hgroups, hloop⟩ := groupLoop_spelled (d := d) ds hne
    have hflatten : groups.flatten.length = 3 * groups.length := by
      rw [List.length_flatten, List.map_congr_left hgroups]
      simp [Nat.mul_comm]
    have hlength : ds.length = first.length + 3 * groups.length := by
      rw [heq, List.length_append, hflatten]
    refine ⟨first, groups, heq, ⟨hgroups, ?_, ?_⟩, by rw [inGroups, if_pos rfl, hloop]⟩
    · simp only [separators, if_true]
      omega
    · simp only [firstGroup, if_true]
      omega

theorem pad_zeros (p : Nat) (first : List Nat) (groups : List (List Nat)) :
    List.replicate p d.zero ++ d.spelled first groups =
      d.spelled (List.replicate p 0 ++ first) groups := by
  have hzero : d.symbol 0 = d.zero := by simp [symbol]
  rw [spelled, spelled, List.map_append, List.map_replicate, hzero, List.append_assoc]

/-- The digits in their groups, with the zero that stands for no digits. -/
theorem precision_spelled (n : Nat) (numStr : Str) (grouped : Bool)
    (hnum : numStr = (shown n).map d.symbol ∨ (n = 0 ∧ numStr = [])) :
    ∃ (first : List Nat) (groups : List (List Nat)),
      shown n = first ++ groups.flatten ∧ Spelling (shown n).length grouped first groups ∧
      List.replicate (1 - (d.inGroups grouped numStr).length) d.zero ++
        d.inGroups grouped numStr = d.spelled first groups := by
  rcases hnum with rfl | ⟨rfl, rfl⟩
  · obtain ⟨first, groups, heq, hspelling, htext⟩ :=
      grouped_spelling (d := d) (shown n) (shown_ne_nil n) grouped
    refine ⟨first, groups, heq, hspelling, ?_⟩
    have hlength := hspelling.length (d := d) (List.length_pos_of_ne_nil (shown_ne_nil n))
    have hpos := List.length_pos_of_ne_nil (shown_ne_nil n)
    rw [htext, show 1 - (d.spelled first groups).length = 0 by omega]
    rfl
  · refine ⟨[0], [], rfl, ⟨by simp, by cases grouped <;> rfl, by cases grouped <;> rfl⟩, ?_⟩
    cases grouped <;> simp [inGroups, groupLoop, spelled, symbol]

/-- What is written of a number: the sign, the padding, and the digits. -/
theorem formatInteger_eq [UnicodeTables] {n : Nat} (hn : n < 2 ^ 64) {numStr : Str}
    (hnum : numStr = (shown n).map d.symbol ∨ (n = 0 ∧ numStr = [])) (grouped padded sign : Bool)
    (signed negative : Bool) {width : Int} (hlow : -2 ^ 31 + 32 ≤ width) (hhigh : width < 2 ^ 31) :
    ∃ (first : List Nat) (groups : List (List Nat)),
      shown n = first ++ groups.flatten ∧ Spelling (shown n).length grouped first groups ∧
      formatInteger d signed negative numStr (-1) 10 width (integerFlags grouped padded sign) =
        some (signText d negative (integerFlags grouped padded sign) ++
          d.spelled (List.replicate (padding (d.spelled first groups).length signed negative width
            (integerFlags grouped padded sign)) 0 ++ first) groups) := by
  obtain ⟨first, groups, heq, hspelling, htext⟩ := precision_spelled n numStr grouped hnum
  refine ⟨first, groups, heq, hspelling, ?_⟩
  have hlength := hspelling.length (d := d) (List.length_pos_of_ne_nil (shown_ne_nil n))
  have htwenty := length_shown_le hn
  have hshort : (d.spelled first groups).length ≤ 27 := by
    rw [hlength, separators]
    split <;> omega
  have hwidth : int (width - (d.spelled first groups).length) =
      some (width - (d.spelled first groups).length) := Time.int_of (by omega) (by omega)
  have hless : int (width - (d.spelled first groups).length - 1) =
      some (width - (d.spelled first groups).length - 1) := Time.int_of (by omega) (by omega)
  rw [inGroups] at htext
  cases padded with
  | false =>
    cases negative <;> cases sign <;>
      simp [formatInteger, integerFlags, htext, signText, padding]
  | true =>
    cases negative <;> cases sign <;> cases signed <;>
      simp [formatInteger, integerFlags, htext, signText, padding, hwidth, hless, pad_zeros]

end

/-! ## Reading -/

section

variable [UnicodeTables] {d : LocaleData}

theorem toNat_symbol (h : d.Separate) {k : Nat} (hk : k < 10) :
    (d.symbol k).toNat = d.zero.toNat + k := by
  have hten := h.ten
  rw [symbol, UInt16.toNat_add, UInt16.toNat_ofNat']
  omega

theorem lt_tenUnicode (h : d.Separate) (c : UInt16) :
    c < d.zero + 10 ↔ c.toNat ≤ d.zero.toNat + 9 := by
  have hten := h.ten
  rw [UInt16.lt_iff_toNat_lt, UInt16.toNat_add, show (10 : UInt16).toNat = 10 from rfl]
  omega

theorem digitToCLocale_symbol (h : d.Separate) {k : Nat} (hk : k < 10) :
    d.digitToCLocale (d.symbol k) = byte '0' + UInt8.ofNat k := by
  have hsymbol := toNat_symbol h hk
  have hten := h.ten
  rw [digitToCLocale, if_pos]
  · rw [← UInt8.toNat_inj, UInt16.toNat_toUInt8, UInt16.toNat_sub, UInt16.toNat_add, hsymbol,
      show (unit '0').toNat = 48 from rfl, UInt8.toNat_add, show (byte '0').toNat = 48 from rfl,
      UInt8.toNat_ofNat']
    omega
  · rw [lt_tenUnicode h, ge_iff_le, UInt16.le_iff_toNat_le, hsymbol]
    omega

/-- What is no digit is compared with the other symbols. -/
theorem digitToCLocale_other (h : d.Separate) {c : UInt16} (hc : ¬d.IsDigit c) :
    d.digitToCLocale c =
      if c = d.plus ∨ c = unit '+' then byte '+'
      else if c = d.minus ∨ c = unit '-' ∨ c = 0x2212 then byte '-'
      else if c = d.decimal then byte '.'
      else if c = d.group then byte ','
      else if c = d.exponential ∨ c = UnicodeTables.toUpper d.exponential then byte 'e'
      else if d.group = 0xA0 ∧ c = unit ' ' then byte ','
      else 0 := by
  rw [IsDigit, not_or] at hc
  rw [digitToCLocale, if_neg, if_neg hc.2]
  rw [lt_tenUnicode h]
  exact hc.1

theorem digitToCLocale_plus (h : d.Separate) : d.digitToCLocale d.plus = byte '+' := by
  rw [digitToCLocale_other h h.plus, if_pos (Or.inl rfl)]

theorem digitToCLocale_minus (hd : d.Distinct) (h : d.Separate) :
    d.digitToCLocale d.minus = byte '-' := by
  have hne : d.plus ≠ d.minus := by
    have hnodup := hd.nodup
    simp only [symbols, List.nodup_cons, List.mem_cons, not_or] at hnodup
    tauto
  rw [digitToCLocale_other h h.minus, if_neg, if_pos (Or.inl rfl)]
  rintro (heq | heq)
  · exact hne heq.symm
  · exact h.minus_plus heq

theorem digitToCLocale_group (hd : d.Distinct) (h : d.Separate) :
    d.digitToCLocale d.group = byte ',' := by
  have hne : d.group ≠ d.plus ∧ d.group ≠ d.minus ∧ d.group ≠ d.decimal := by
    have hnodup := hd.nodup
    simp only [symbols, List.nodup_cons, List.mem_cons, not_or] at hnodup
    refine ⟨?_, ?_, fun heq => ?_⟩ <;> tauto
  obtain ⟨hplus, hminus, htypographic⟩ := h.group_sign
  rw [digitToCLocale_other h h.group, if_neg, if_neg, if_neg hne.2.2, if_pos rfl]
  · rintro (heq | heq | heq)
    · exact hne.2.1 heq
    · exact hminus heq
    · exact htypographic heq
  · rintro (heq | heq)
    · exact hne.1 heq
    · exact hplus heq

theorem charToCLocale_known {c : UInt16} {out : UInt8} (h : d.digitToCLocale c = out)
    (hne : out ≠ 0) : d.charToCLocale c = some (out, true) := by
  rw [charToCLocale, h, if_pos hne]

end

/-! ### One character -/

theorem digitByte_facts {k : Nat} (hk : k < 10) : byte '0' ≤ digitByte k ∧ digitByte k ≤ byte '9' ∧
    digitByte k ≠ 0 ∧ digitByte k ≠ byte '.' ∧ digitByte k ≠ byte 'e' ∧ digitByte k ≠ byte 'E' ∧
    digitByte k ≠ byte ',' ∧ digitValue (digitByte k) = some k := by
  have hall : ∀ k : Fin 10, byte '0' ≤ digitByte k ∧ digitByte k ≤ byte '9' ∧
      digitByte k ≠ 0 ∧ digitByte k ≠ byte '.' ∧ digitByte k ≠ byte 'e' ∧ digitByte k ≠ byte 'E' ∧
      digitByte k ≠ byte ',' ∧ digitValue (digitByte k) = some k.val := by
    decide
  exact hall ⟨k, hk⟩

section

variable {opts : NumberOptions} {l : Nat} {s : Scan} {out : UInt8} {known : Bool}

theorem rejectsZero_none (hdecpt : s.decptIdx = none) (hexponent : s.exponentIdx = none)
    (out : UInt8) : rejectsZero opts out l s = false := by
  simp [rejectsZero, hdecpt, hexponent]

theorem notePoint_other (hpoint : out ≠ byte '.') (he : out ≠ byte 'e') :
    notePoint out known s = some s := by
  rw [notePoint, if_neg fun hc => hpoint hc.2, if_neg fun hc => he hc.2]

theorem noteSeparator_digit (hopts : opts.rejectGroupSeparator = false) {k : Nat} (hk : k < 10) :
    noteSeparator opts (digitByte k) s =
      some (false, { s with startOfDigitsIdx := some (s.startOfDigitsIdx.getD s.idx) }) := by
  obtain ⟨hlow, hhigh, -, hpoint, he, hbigE, hcomma, -⟩ := digitByte_facts hk
  have hother : ¬(digitByte k = byte '.' ∨ digitByte k = byte 'e' ∨ digitByte k = byte 'E') := by
    tauto
  obtain ⟨idx, decpt, last, start, exponent, result⟩ := s
  rw [noteSeparator, hopts, if_neg (by decide)]
  cases start with
  | none => exact if_pos ⟨rfl, hlow, hhigh⟩
  | some start =>
    rw [if_neg (by simp), if_neg hcomma, if_neg hother]
    rfl

theorem noteSeparator_comma (hopts : opts.rejectGroupSeparator = false) :
    noteSeparator opts (byte ',') s = if separatorAllowed s then
      some (true, { s with lastSeparatorIdx := some s.idx }) else none := by
  have hdigit : ¬(s.startOfDigitsIdx.isNone = true ∧ byte ',' ≥ byte '0' ∧ byte ',' ≤ byte '9') :=
    fun h => absurd h.2.1 (by decide)
  rw [noteSeparator, hopts, if_neg (by decide), if_neg hdigit, if_pos rfl]

theorem noteSeparator_sign (hopts : opts.rejectGroupSeparator = false)
    (hout : out = byte '+' ∨ out = byte '-') : noteSeparator opts out s = some (false, s) := by
  rcases hout with rfl | rfl
  · rw [noteSeparator, hopts, if_neg (by decide), if_neg fun h => absurd h.2.1 (by decide),
      if_neg (by decide), if_neg (by decide)]
  · rw [noteSeparator, hopts, if_neg (by decide), if_neg fun h => absurd h.2.1 (by decide),
      if_neg (by decide), if_neg (by decide)]

variable [UnicodeTables] {d : LocaleData} {c : UInt16}

/-- What one turn makes of a character that goes through. -/
theorem scanStep_eq_some {s' : Scan} : scanStep d opts l s c = some s' ↔
    ∃ out known s₁ separator s₂, d.charToCLocale c = some (out, known) ∧
      notePoint out known s = some s₁ ∧ rejectsZero opts out l s₁ = false ∧
      noteSeparator opts out s₁ = some (separator, s₂) ∧
      s' = { s₂ with
        idx := s₂.idx + 1
        result := if separator then s₂.result else s₂.result ++ [out] } := by
  rw [scanStep]
  constructor
  · intro h
    obtain ⟨⟨out, known⟩, hchar, h⟩ := Option.bind_eq_some_iff.mp h
    obtain ⟨s₁, hpoint, h⟩ := Option.bind_eq_some_iff.mp h
    cases hreject : rejectsZero opts out l s₁ with
    | true => simp [hreject] at h
    | false =>
      simp only [hreject, Bool.false_eq_true, if_false] at h
      obtain ⟨⟨separator, s₂⟩, hseparator, h⟩ := Option.bind_eq_some_iff.mp h
      exact ⟨out, known, s₁, separator, s₂, hchar, hpoint, hreject, hseparator,
        (Option.some.inj h).symm⟩
  · rintro ⟨out, known, s₁, separator, s₂, hchar, hpoint, hreject, hseparator, rfl⟩
    simp [hchar, hpoint, hreject, hseparator]

theorem scanStep_symbol (h : d.Separate) (hopts : opts.rejectGroupSeparator = false)
    (hdecpt : s.decptIdx = none) (hexponent : s.exponentIdx = none) {k : Nat} (hk : k < 10) :
    scanStep d opts l s (d.symbol k) = some { s with
      idx := s.idx + 1
      startOfDigitsIdx := some (s.startOfDigitsIdx.getD s.idx)
      result := s.result ++ [digitByte k] } := by
  obtain ⟨-, -, hzero, hpoint, he, -⟩ := digitByte_facts hk
  exact scanStep_eq_some.mpr ⟨digitByte k, true, s, false, _,
    charToCLocale_known (digitToCLocale_symbol h hk) hzero, notePoint_other hpoint he,
    rejectsZero_none hdecpt hexponent _, noteSeparator_digit hopts hk, rfl⟩

theorem scanStep_group (hd : d.Distinct) (h : d.Separate) (hopts : opts.rejectGroupSeparator = false)
    (hdecpt : s.decptIdx = none) (hexponent : s.exponentIdx = none) :
    scanStep d opts l s d.group = if separatorAllowed s then
      some { s with idx := s.idx + 1, lastSeparatorIdx := some s.idx } else none := by
  have hchar := charToCLocale_known (digitToCLocale_group hd h) (by decide)
  have hpoint : notePoint (byte ',') true s = some s := notePoint_other (by decide) (by decide)
  split
  · next hallowed =>
    have hseparator := noteSeparator_comma (s := s) hopts
    rw [if_pos hallowed] at hseparator
    exact scanStep_eq_some.mpr ⟨byte ',', true, s, true, _, hchar, hpoint,
      rejectsZero_none hdecpt hexponent _, hseparator, rfl⟩
  · next hallowed =>
    by_contra hsome
    obtain ⟨s', hs'⟩ := Option.ne_none_iff_exists'.mp hsome
    obtain ⟨out, known, s₁, separator, s₂, hchar', hpoint', -, hseparator, -⟩ :=
      scanStep_eq_some.mp hs'
    obtain ⟨rfl, rfl⟩ := Prod.mk.inj (Option.some.inj (hchar.symm.trans hchar'))
    rw [hpoint] at hpoint'
    cases hpoint'
    rw [noteSeparator_comma hopts, if_neg hallowed] at hseparator
    cases hseparator

/-- A sign changes nothing but the result. -/
theorem scanStep_sign (hopts : opts.rejectGroupSeparator = false) (hdecpt : s.decptIdx = none)
    (hexponent : s.exponentIdx = none) (hout : out = byte '+' ∨ out = byte '-')
    (hc : d.digitToCLocale c = out) :
    scanStep d opts l s c = some { s with idx := s.idx + 1, result := s.result ++ [out] } := by
  have hne : out ≠ 0 ∧ out ≠ byte '.' ∧ out ≠ byte 'e' := by
    rcases hout with rfl | rfl <;> decide
  exact scanStep_eq_some.mpr ⟨out, true, s, false, s, charToCLocale_known hc hne.1,
    notePoint_other hne.2.1 hne.2.2, rejectsZero_none hdecpt hexponent _,
    noteSeparator_sign hopts hout, rfl⟩

/-! ### A whole text -/

theorem scanLoop_append (a b : Str) :
    scanLoop d opts l s (a ++ b) = (scanLoop d opts l s a).bind fun s => scanLoop d opts l s b := by
  induction a generalizing s with
  | nil => rfl
  | cons c a ih =>
    rw [List.cons_append, scanLoop, scanLoop]
    cases hstep : scanStep d opts l s c with
    | none => rfl
    | some s' => exact ih

theorem scanLoop_symbols (h : d.Separate) (hopts : opts.rejectGroupSeparator = false)
    (hdecpt : s.decptIdx = none) (hexponent : s.exponentIdx = none) {ds : List Nat}
    (hds : ∀ k ∈ ds, k < 10) (hne : ds ≠ []) :
    scanLoop d opts l s (ds.map d.symbol) = some { s with
      idx := s.idx + ds.length
      startOfDigitsIdx := some (s.startOfDigitsIdx.getD s.idx)
      result := s.result ++ ds.map digitByte } := by
  induction ds generalizing s with
  | nil => exact absurd rfl hne
  | cons k ds ih =>
    have hstep := scanStep_symbol (l := l) h hopts hdecpt hexponent (hds k List.mem_cons_self)
    rw [List.map_cons, scanLoop, hstep, Option.bind_eq_bind, Option.bind_some]
    cases ds with
    | nil => rfl
    | cons k' ds =>
      refine (ih ?_ ?_ (fun k hk => hds k (List.mem_cons_of_mem _ hk)) (by simp)).trans ?_
      · exact hdecpt
      · exact hexponent
      · simp only [Option.getD_some, List.map_cons, List.length_cons, List.append_assoc,
          List.singleton_append, Option.some.injEq, Scan.mk.injEq, and_true]
        omega

/-- Groups of three, each behind a separator. -/
theorem scanLoop_groups (hd : d.Distinct) (h : d.Separate) (hopts : opts.rejectGroupSeparator = false)
    (hdecpt : s.decptIdx = none) (hexponent : s.exponentIdx = none) {start : Nat}
    (hstart : s.startOfDigitsIdx = some start) {groups : List (List Nat)}
    (hthree : ∀ g ∈ groups, g.length = 3) (hlt : ∀ g ∈ groups, ∀ k ∈ g, k < 10)
    (hallowed : groups ≠ [] → separatorAllowed s = true) :
    scanLoop d opts l s (groups.flatMap fun g => d.group :: g.map d.symbol) = some { s with
      idx := s.idx + 4 * groups.length
      lastSeparatorIdx := if groups = [] then s.lastSeparatorIdx
        else some (s.idx + 4 * groups.length - 4)
      result := s.result ++ groups.flatten.map digitByte } := by
  induction groups generalizing s with
  | nil => simp [scanLoop]
  | cons g groups ih =>
    have hg := hthree g List.mem_cons_self
    have hne : g ≠ [] := by
      rintro rfl
      cases hg
    have hstep := scanStep_group (l := l) hd h hopts hdecpt hexponent
    rw [if_pos (hallowed (by simp))] at hstep
    have hdigits := scanLoop_symbols (l := l)
      (s := { s with idx := s.idx + 1, lastSeparatorIdx := some s.idx }) h hopts hdecpt hexponent
      (hlt g List.mem_cons_self) hne
    rw [List.flatMap_cons, scanLoop_append, scanLoop, hstep, Option.bind_eq_bind, Option.bind_some,
      hdigits, Option.bind_some]
    refine (ih ?_ ?_ ?_ (fun g hg => hthree g (List.mem_cons_of_mem _ hg))
      (fun g hg => hlt g (List.mem_cons_of_mem _ hg)) ?_).trans ?_
    · exact hdecpt
    · exact hexponent
    · simp [hstart]
    · -- the next separator is behind three digits
      intro _
      simp only [separatorAllowed, hdecpt, hexponent, hg]
      simp
      omega
    · simp only [hstart, hg, Option.getD_some, List.length_cons, List.flatten_cons, List.map_append,
        List.append_assoc, Option.some.injEq, Scan.mk.injEq, true_and, and_true, reduceCtorEq,
        if_false]
      refine ⟨by omega, ?_⟩
      split
      · next hnil => simp [hnil]
      · next hne =>
        have hpos := List.length_pos_of_ne_nil hne
        rw [Option.some.injEq]
        omega

theorem scanLoop_sign (hd : d.Distinct) (h : d.Separate)
    (hopts : opts.rejectGroupSeparator = false) (negative : Bool) (flags : Flags) :
    scanLoop d opts l ⟨0, none, none, none, none, []⟩ (d.signText negative flags) =
      some ⟨(d.signText negative flags).length, none, none, none, none, signBytes negative flags⟩ := by
  rw [signText, signBytes]
  cases negative with
  | true =>
    rw [if_pos rfl, if_pos rfl, scanLoop,
      scanStep_sign hopts rfl rfl (Or.inr rfl) (digitToCLocale_minus hd h)]
    rfl
  | false =>
    simp only [Bool.false_eq_true, if_false]
    cases flags.alwaysShowSign with
    | true =>
      rw [if_pos rfl, if_pos rfl, scanLoop,
        scanStep_sign hopts rfl rfl (Or.inl rfl) (digitToCLocale_plus h)]
      rfl
    | false => rfl

theorem isSpace_spelled (hd : d.Distinct) (h : d.Separate) (negative : Bool) (flags : Flags)
    {first : List Nat} {groups : List (List Nat)} (hfirst : ∀ k ∈ first, k < 10)
    (hlt : ∀ g ∈ groups, ∀ k ∈ g, k < 10) :
    ∀ c ∈ d.signText negative flags ++ d.spelled first groups, Character.isSpace c = false := by
  have hsymbol : ∀ k < 10, Character.isSpace (d.symbol k) = false := h.digits
  have hgroup : Character.isSpace d.group = false := hd.space _ (by simp [symbols])
  intro c hc
  rcases List.mem_append.mp hc with hc | hc
  · rw [signText] at hc
    split at hc
    · rw [List.mem_singleton.mp hc]
      exact hd.space _ (by simp [symbols])
    · split at hc
      · rw [List.mem_singleton.mp hc]
        exact hd.space _ (by simp [symbols])
      · cases hc
  · rw [spelled] at hc
    rcases List.mem_append.mp hc with hc | hc
    · obtain ⟨k, hk, rfl⟩ := List.mem_map.mp hc
      exact hsymbol k (hfirst k hk)
    · obtain ⟨g, hg, hc⟩ := List.mem_flatMap.mp hc
      rcases List.mem_cons.mp hc with rfl | hc
      · exact hgroup
      · obtain ⟨k, hk, rfl⟩ := List.mem_map.mp hc
        exact hsymbol k (hlt g hg k hk)

/-- No blank is cut off from a text that has none. -/
theorem numberToCLocale_of_no_space {str : Str} (hne : str ≠ [])
    (hspace : ∀ c ∈ str, Character.isSpace c = false) :
    d.numberToCLocale str opts =
      (scanLoop d opts str.length ⟨0, none, none, none, none, []⟩ str).bind (scanEnd opts) := by
  have htake : str.takeWhile Character.isSpace = [] := by
    cases str with
    | nil => rfl
    | cons c str => exact List.takeWhile_cons_of_neg (by simp [hspace c List.mem_cons_self])
  have hdrop : str.rdropWhile Character.isSpace = str := by
    rw [List.rdropWhile_eq_self_iff]
    intro hl
    simp [hspace _ (List.getLast_mem hl)]
  rw [numberToCLocale, htake]
  simp only [List.length_nil, List.drop_zero, hdrop, if_neg hne, Nat.zero_add]
  rfl

/-- A first group that is longer than three digits is refused as soon as a separator follows. -/
theorem numberToCLocale_spelled (hd : d.Distinct) (h : d.Separate)
    (hopts : opts.rejectGroupSeparator = false) (negative : Bool) (flags : Flags)
    {first : List Nat} {groups : List (List Nat)} (hne : first ≠ []) (hfirst : ∀ k ∈ first, k < 10)
    (hthree : ∀ g ∈ groups, g.length = 3) (hlt : ∀ g ∈ groups, ∀ k ∈ g, k < 10) :
    d.numberToCLocale (d.signText negative flags ++ d.spelled first groups) opts =
      if groups = [] ∨ first.length ≤ 3 then
        some (signBytes negative flags ++ (first ++ groups.flatten).map digitByte ++ [0])
      else none := by
  have htext : d.signText negative flags ++ d.spelled first groups ≠ [] := by
    simp [spelled, hne]
  rw [numberToCLocale_of_no_space htext (isSpace_spelled hd h negative flags hfirst hlt), spelled,
    scanLoop_append, scanLoop_sign hd h hopts, Option.bind_some, scanLoop_append,
    scanLoop_symbols h hopts rfl rfl hfirst hne, Option.bind_some]
  simp only [Option.getD_none]
  generalize hl : (d.signText negative flags ++ (first.map d.symbol ++ _)).length = l
  split
  · next hgroups =>
    have hloop := scanLoop_groups (l := l) (s := ⟨(d.signText negative flags).length + first.length,
      none, none, some (d.signText negative flags).length, none,
      signBytes negative flags ++ first.map digitByte⟩) hd h hopts rfl rfl rfl hthree hlt (by
        intro hne
        simpa [separatorAllowed] using hgroups.resolve_left hne)
    rw [hloop, Option.bind_some, scanEnd, if_neg, if_neg (by simp)]
    · simp
    · simp only [hopts, separatorApart]
      split
      · simp
      · next p hp =>
        split at hp
        · cases hp
        · next hne =>
          have hpos := List.length_pos_of_ne_nil hne
          cases hp
          simp
          omega
  · next hgroups =>
    rw [not_or] at hgroups
    obtain ⟨g, groups, rfl⟩ := List.exists_cons_of_ne_nil hgroups.1
    rw [List.flatMap_cons, List.cons_append, scanLoop, scanStep_group hd h hopts rfl rfl, if_neg]
    · rfl
    · simpa [separatorAllowed] using hgroups.2

end

/-! ## Round trips -/

/-- The bytes that `numberToCLocale` makes of a number are the number. -/
theorem bytearrayTo_digits {isUnsigned negative : Bool} {n : Nat} (flags : Flags) (pads : Nat)
    (hunsigned : isUnsigned = true → negative = false)
    (hfits : Fits64 isUnsigned (if negative then -(n : Int) else n)) :
    bytearrayTo isUnsigned
      (signBytes negative flags ++ (List.replicate pads 0 ++ shown n).map digitByte ++ [0]) 10 =
        some (true, if negative then -(n : Int) else n) := by
  have hlt : ∀ k ∈ List.replicate pads 0 ++ shown n, k < 10 := by
    intro k hk
    rcases List.mem_append.mp hk with hk | hk
    · rw [List.eq_of_mem_replicate hk]
      decide
    · exact shown_lt hk
  have hdigit : ∀ k ∈ List.replicate pads 0 ++ shown n, digitValue (digitByte k) = some k :=
    fun k hk => (digitByte_facts (hlt k hk)).2.2.2.2.2.2.2
  have hliteral := @Literal.plain 10
    ((List.replicate pads 0 ++ shown n).map digitByte) (by decide) (by simp [shown_ne_nil])
    (isDigit_write hdigit hlt)
  rw [digitsOf_write hdigit, value_zeros, value_shown] at hliteral
  have hwhole : Whole isUnsigned 10
      (signBytes negative flags ++ (List.replicate pads 0 ++ shown n).map digitByte)
      (if negative then -(n : Int) else n) := by
    refine ⟨negative, n, ⟨[], signBytes negative flags, _, rfl, by simp, hliteral, ?_⟩, hunsigned, rfl⟩
    rw [signBytes]
    cases negative with
    | true => rfl
    | false => cases flags.alwaysShowSign <;> simp
  exact (bytearrayTo_spec hwhole.no_nul [] isUnsigned).1 _ hwhole hfits

/-- A number as a locale writes it is read as the same number where the padding fits, and is refused
elsewhere. -/
theorem formatted_read [UnicodeTables] {d : LocaleData} (hd : d.Distinct) (h : d.Separate)
    {opts : NumberOptions} (hopts : opts.rejectGroupSeparator = false) {n : Nat} (hn : n < 2 ^ 64)
    {numStr : Str} (hnum : numStr = (shown n).map d.symbol ∨ (n = 0 ∧ numStr = []))
    (grouped padded sign : Bool) {width : Int} (hlow : -2 ^ 31 + 32 ≤ width) (hhigh : width < 2 ^ 31)
    {isUnsigned negative : Bool} (hunsigned : isUnsigned = true → negative = false)
    (hfits : Fits64 isUnsigned (if negative then -(n : Int) else n)) :
    ∃ str, formatInteger d (!isUnsigned) negative numStr (-1) 10 width
        (integerFlags grouped padded sign) = some str ∧
      (match d.numberToCLocale str opts with
        | none => some (false, 0)
        | some buff => bytearrayTo isUnsigned buff 10) =
          if PaddingFits n (!isUnsigned) negative width (integerFlags grouped padded sign) then
            some (true, if negative then -(n : Int) else n)
          else some (false, 0) := by
  obtain ⟨first, groups, heq, hspelling, hformat⟩ :=
    formatInteger_eq hn hnum grouped padded sign (!isUnsigned) negative hlow hhigh
  refine ⟨_, hformat, ?_⟩
  have hcount := List.length_pos_of_ne_nil (shown_ne_nil n)
  have hlt : ∀ k ∈ first ++ groups.flatten, k < 10 := fun k hk => shown_lt (heq ▸ hk)
  have hfirst := hspelling.first_length
  have hgroups := hspelling.groups_length
  have hne : first ≠ [] := by
    rintro rfl
    rw [List.length_nil, firstGroup] at hfirst
    split at hfirst <;> omega
  generalize hpads : padding (d.spelled first groups).length (!isUnsigned) negative width
    (integerFlags grouped padded sign) = pads
  have hiff : (groups = [] ∨ (List.replicate pads 0 ++ first).length ≤ 3) ↔
      PaddingFits n (!isUnsigned) negative width (integerFlags grouped padded sign) := by
    rw [← List.length_eq_zero_iff, hgroups, List.length_append, List.length_replicate, hfirst,
      PaddingFits, ← hpads, hspelling.length hcount]
    cases grouped with
    | false => simp [integerFlags]
    | true =>
      simp only [if_true, show (integerFlags true padded sign).thousandsGroup = true from rfl,
        true_imp_iff]
      have hzero : separators (shown n).length = 0 ↔ ¬3 < (shown n).length := by
        rw [separators]
        omega
      rw [hzero]
      tauto
  rw [numberToCLocale_spelled hd h hopts negative _ (by simp [hne]) ?_ hspelling.groups_three ?_]
  · by_cases hpass : groups = [] ∨ (List.replicate pads 0 ++ first).length ≤ 3
    · rw [if_pos hpass, if_pos (hiff.mp hpass), List.append_assoc (List.replicate pads 0), ← heq]
      exact bytearrayTo_digits _ pads hunsigned hfits
    · rw [if_neg hpass, if_neg fun hfit => hpass (hiff.mpr hfit)]
  · intro k hk
    rcases List.mem_append.mp hk with hk | hk
    · rw [List.eq_of_mem_replicate hk]
      decide
    · exact hlt k (List.mem_append_left _ hk)
  · intro g hg k hk
    exact hlt k (List.mem_append_right _ (List.mem_flatten.mpr ⟨g, hg, hk⟩))

section

variable {d : LocaleData}

theorem shown_of_digits (n : Nat) :
    (digits 10 n).map d.symbol = (shown n).map d.symbol ∨
      (n = 0 ∧ (digits 10 n).map d.symbol = []) := by
  rw [shown]
  split
  · next h => exact Or.inr ⟨h, by rw [h, digits_zero]; rfl⟩
  · exact Or.inl rfl

variable [UnicodeTables]

theorem longLongToString_read (hd : d.Distinct) (h : d.Separate) {opts : NumberOptions}
    (hopts : opts.rejectGroupSeparator = false) {n : Int} (hn : -2 ^ 63 < n) (hn' : n < 2 ^ 63)
    (grouped padded sign : Bool) {width : Int} (hlow : -2 ^ 31 + 32 ≤ width)
    (hhigh : width < 2 ^ 31) :
    ∃ str, d.longLongToString n (-1) 10 width (integerFlags grouped padded sign) = some str ∧
      d.stringToLongLong str 10 opts =
        if PaddingFits n.natAbs true (n < 0) width (integerFlags grouped padded sign) then
          some (true, n)
        else some (false, 0) := by
  have hvalue : (if decide (n < 0) then -(n.natAbs : Int) else n.natAbs) = n := by
    split
    · next hneg =>
      have hneg := of_decide_eq_true hneg
      omega
    · next hneg =>
      have hneg : ¬n < 0 := fun h => hneg (decide_eq_true h)
      omega
  obtain ⟨str, hstr, hread⟩ := @formatted_read _ d hd h opts hopts n.natAbs (by omega) _
    (shown_of_digits n.natAbs) grouped padded sign width hlow hhigh false (decide (n < 0))
    (absurd · Bool.false_ne_true)
    (by rw [hvalue]; exact ⟨by omega, hn'⟩)
  refine ⟨str, ?_, ?_⟩
  · rw [longLongToString, if_pos rfl, if_pos rfl, pdkLltoa_eq (by decide) hn hn',
      map_localeSymbol fun k hk => digits_lt (by decide) hk]
    simpa using hstr
  · rw [hvalue] at hread
    exact hread

theorem unsLongLongToString_read (hd : d.Distinct) (h : d.Separate) {opts : NumberOptions}
    (hopts : opts.rejectGroupSeparator = false) {n : Nat} (hn : n < 2 ^ 64)
    (grouped padded sign : Bool) {width : Int} (hlow : -2 ^ 31 + 32 ≤ width)
    (hhigh : width < 2 ^ 31) :
    ∃ str, d.unsLongLongToString n (-1) 10 width (integerFlags grouped padded sign) = some str ∧
      d.stringToUnsLongLong str 10 opts =
        if PaddingFits n false false width (integerFlags grouped padded sign) then
          some (true, (n : Int))
        else some (false, 0) := by
  obtain ⟨str, hstr, hread⟩ := @formatted_read _ d hd h opts hopts n hn _ (Or.inl rfl) grouped padded
    sign width hlow hhigh true false (fun _ => rfl) ⟨by simp, by simpa using hn⟩
  refine ⟨str, ?_, hread⟩
  have hwritten : d.unsLongLongToString n (-1) 10 width (integerFlags grouped padded sign) =
      if integerFlags grouped padded sign = .noFlags then some ((shown n).map d.symbol)
      else d.formatInteger false false ((shown n).map d.symbol) (-1) 10 width
        (integerFlags grouped padded sign) := by
    rw [unsLongLongToString, shown]
    by_cases hzero : n = 0
    · simp [hzero, symbol]
    · rw [if_neg hzero, if_neg hzero, pdkUlltoa_eq (by decide) hn,
        map_localeSymbol fun k hk => digits_lt (by decide) hk]
      simp
  rw [hwritten, ← hstr]
  split
  · next hflags =>
    -- without flags the padding and the sign are empty
    have hpos := List.length_pos_of_ne_nil (shown_ne_nil n)
    have hshort : 1 - (shown n).length = 0 := by omega
    rw [hflags]
    simp [formatInteger, Flags.noFlags, hshort]
  · rfl

end

end LocaleData

end Libpdk.Utils
