import Libpdk.Utils.LocaleIntegers

/-!
# Where group separators may stand

`numberToCLocale` does not look at what stands between two separators, only at how far apart they
are: in what it accepts, groups of three characters follow one to three from the first digit on
(`GroupsOfThree`).
-/
namespace Libpdk.Utils.LocaleData

open Numeral

theorem toLatin1_letter {c : UInt16} (hlow : unit 'a' ≤ c) (hhigh : c ≤ unit 'z') :
    byte 'a' ≤ Character.toLatin1 c := by
  rw [UInt16.le_iff_toNat_le] at hlow hhigh
  have hunit : (unit 'a').toNat = 97 ∧ (unit 'z').toNat = 122 := by decide
  have hsmall : ¬c > 0xff := by
    rw [gt_iff_lt, UInt16.lt_iff_toNat_lt, show (0xff : UInt16).toNat = 255 from rfl]
    omega
  rw [Character.toLatin1, if_neg hsmall, UInt8.le_iff_toNat_le, UInt16.toNat_toUInt8,
    show (byte 'a').toNat = 97 from rfl]
  omega

theorem forall_concat {P : UInt16 → Prop} {t : Str} {c : UInt16} (ht : ∀ c ∈ t, P c) (hc : P c) :
    ∀ x ∈ t ++ [c], P x := by
  intro x hx
  rcases List.mem_append.mp hx with hx | hx
  · exact ht x hx
  · rwa [List.mem_singleton.mp hx]

theorem notePoint_cases {out : UInt8} {known : Bool} {s s₁ : Scan}
    (h : notePoint out known s = some s₁) :
    ((known = true ∧ (out = byte '.' ∨ out = byte 'e')) ∧ s₁.idx = s.idx ∧
      s₁.lastSeparatorIdx = s.lastSeparatorIdx ∧ s₁.startOfDigitsIdx = s.startOfDigitsIdx ∧
      (s₁.decptIdx.isSome = true ∨ s₁.exponentIdx.isSome = true)) ∨
    (¬(known = true ∧ (out = byte '.' ∨ out = byte 'e')) ∧ s₁ = s) := by
  rw [notePoint] at h
  split at h
  · next hpoint =>
    split at h
    · cases h
    · cases h
      exact Or.inl ⟨⟨hpoint.1, Or.inl hpoint.2⟩, rfl, rfl, rfl, Or.inl rfl⟩
  · split at h
    · next hexponent =>
      cases h
      exact Or.inl ⟨⟨hexponent.1, Or.inr hexponent.2⟩, rfl, rfl, rfl, Or.inr rfl⟩
    · next hpoint hexponent =>
      cases h
      refine Or.inr ⟨?_, rfl⟩
      tauto

theorem noteSeparator_cases {opts : NumberOptions} (hopts : opts.rejectGroupSeparator = false)
    {out : UInt8} {separator : Bool} {s s₂ : Scan}
    (h : noteSeparator opts out s = some (separator, s₂)) :
    (out = byte ',' ∧ separatorAllowed s = true ∧
      s₂ = { s with lastSeparatorIdx := some s.idx }) ∨
    ((byte '0' ≤ out ∧ out ≤ byte '9') ∧ s.startOfDigitsIdx = none ∧
      s₂ = { s with startOfDigitsIdx := some s.idx }) ∨
    ((out = byte '.' ∨ out = byte 'e' ∨ out = byte 'E') ∧ separatorApart s = true ∧
      s₂ = { s with lastSeparatorIdx := none }) ∨
    (out ≠ byte ',' ∧ ¬(out = byte '.' ∨ out = byte 'e' ∨ out = byte 'E') ∧
      (byte '0' ≤ out ∧ out ≤ byte '9' → s.startOfDigitsIdx.isSome = true) ∧ s₂ = s) := by
  rw [noteSeparator, hopts, if_neg (by decide)] at h
  split at h
  · next hdigit =>
    cases h
    exact Or.inr (Or.inl ⟨hdigit.2, Option.isNone_iff_eq_none.mp hdigit.1, rfl⟩)
  · next hdigit =>
    split at h
    · next hcomma =>
      split at h
      · next hallowed =>
        cases h
        exact Or.inl ⟨hcomma, hallowed, rfl⟩
      · cases h
    · next hcomma =>
      split at h
      · next hends =>
        split at h
        · next hapart =>
          cases h
          exact Or.inr (Or.inr (Or.inl ⟨hends, hapart, rfl⟩))
        · cases h
      · next hends =>
        cases h
        refine Or.inr (Or.inr (Or.inr ⟨hcomma, hends, fun hout => ?_, rfl⟩))
        by_contra hnone
        rw [Bool.not_eq_true, Option.isSome_eq_false_iff] at hnone
        exact hdigit ⟨hnone, hout⟩

section

variable [UnicodeTables] {d : LocaleData}

/-! ## Where separators may stand -/

/-- A group separator. -/
def Separator (d : LocaleData) (c : UInt16) : Prop := d.digitToCLocale c = byte ','

/-- A digit. -/
def Digit (d : LocaleData) (c : UInt16) : Prop :=
  byte '0' ≤ d.digitToCLocale c ∧ d.digitToCLocale c ≤ byte '9'

/-- Neither a separator nor a decimal point nor an exponent. -/
def Plain (d : LocaleData) (c : UInt16) : Prop :=
  ¬d.Separator c ∧ d.digitToCLocale c ≠ byte '.' ∧ d.digitToCLocale c ≠ byte 'e'

/-- A decimal point, an exponent, or the letter of one. -/
def Ends (d : LocaleData) (c : UInt16) : Prop :=
  ∃ out known, d.charToCLocale c = some (out, known) ∧
    (out = byte '.' ∨ out = byte 'e' ∨ out = byte 'E')

/-- What is in front of the first digit, and the text from there to the first separator. -/
structure Head (d : LocaleData) (front first : Str) : Prop where
  plain : ∀ c ∈ front ++ first, d.Plain c
  front : ∀ c ∈ front, ¬d.Digit c
  first : ∀ c ∈ first.head?, d.Digit c

/-- Separators, each with three characters behind it. -/
def Groups (d : LocaleData) (groups : List (UInt16 × Str)) : Prop :=
  ∀ g ∈ groups, d.Separator g.1 ∧ g.2.length = 3 ∧ ∀ c ∈ g.2, d.Plain c

/-- The first separator is behind one to three characters from the first digit on, every other one
behind three more, and none behind a decimal point or an exponent. -/
structure Grouped (d : LocaleData) (text front first : Str) (groups : List (UInt16 × Str))
    (rest : Str) : Prop where
  text_eq : text = front ++ first ++ (groups.flatMap fun g => g.1 :: g.2) ++ rest
  head : d.Head front first
  one : 1 ≤ first.length
  three : first.length ≤ 3
  each : d.Groups groups
  some_group : groups ≠ []
  ends : ∀ c ∈ rest.head?, d.Ends c
  rest : ∀ c ∈ rest, ¬d.Separator c

def GroupsOfThree (d : LocaleData) (text : Str) : Prop :=
  ∃ front first groups rest, d.Grouped text front first groups rest

/-- A character that `digitToCLocale` knows, or one of a list, of a percentage, or a letter. -/
theorem charToCLocale_cases {c : UInt16} {out : UInt8} {known : Bool}
    (h : d.charToCLocale c = some (out, known)) :
    (known = true ∧ d.digitToCLocale c = out) ∨
      (known = false ∧ d.digitToCLocale c = 0 ∧
        (out = byte ';' ∨ out = byte '%' ∨ byte 'a' ≤ out)) := by
  by_cases hzero : d.digitToCLocale c = 0
  · right
    rw [charToCLocale, hzero] at h
    simp only [ne_eq, not_true, if_false] at h
    split at h
    · cases h
      exact ⟨rfl, hzero, Or.inl rfl⟩
    · split at h
      · cases h
        exact ⟨rfl, hzero, Or.inr (Or.inl rfl)⟩
      · split at h
        · next hupper =>
          cases h
          refine ⟨rfl, hzero, Or.inr (Or.inr ?_)⟩
          obtain ⟨hlow, hhigh⟩ := hupper
          have hlow' := hlow
          have hhigh' := hhigh
          rw [ge_iff_le, UInt16.le_iff_toNat_le] at hlow'
          rw [UInt16.le_iff_toNat_le] at hhigh'
          have hunit : (unit 'A').toNat = 65 ∧ (unit 'Z').toNat = 90 ∧ (unit 'a').toNat = 97 ∧
            (unit 'z').toNat = 122 := by decide
          have hplus : (c + 32).toNat = c.toNat + 32 := by
            rw [UInt16.toNat_add, show (32 : UInt16).toNat = 32 from rfl]
            omega
          rw [UnicodeTables.toLower_ascii c, if_pos ⟨hlow, hhigh⟩]
          · apply toLatin1_letter
            · rw [UInt16.le_iff_toNat_le]
              omega
            · rw [UInt16.le_iff_toNat_le]
              omega
          · rw [UInt16.lt_iff_toNat_lt, show (128 : UInt16).toNat = 128 from rfl]
            omega
        · split at h
          · next hlower =>
            cases h
            exact ⟨rfl, hzero, Or.inr (Or.inr (toLatin1_letter hlower.1 hlower.2))⟩
          · cases h
  · left
    rw [charToCLocale] at h
    simp only [ne_eq, hzero, not_false_eq_true, if_true, Option.some.injEq, Prod.mk.injEq] at h
    exact ⟨h.2.symm, h.1⟩

/-- What `out` says of the character. -/
theorem charToCLocale_facts {c : UInt16} {out : UInt8} {known : Bool}
    (h : d.charToCLocale c = some (out, known)) :
    (d.Separator c ↔ out = byte ',') ∧ (d.Digit c ↔ byte '0' ≤ out ∧ out ≤ byte '9') ∧
      (out ≠ byte ',' → ¬(known = true ∧ (out = byte '.' ∨ out = byte 'e')) → d.Plain c) := by
  rcases charToCLocale_cases h with ⟨rfl, hout⟩ | ⟨rfl, hout, hother⟩
  · rw [Separator, Digit, Plain, Separator, hout]
    tauto
  · have hne : out ≠ byte ',' ∧ ¬(byte '0' ≤ out ∧ out ≤ byte '9') := by
      rcases hother with rfl | rfl | hletter
      · decide
      · decide
      · rw [UInt8.le_iff_toNat_le] at hletter
        have hbyte : (byte 'a').toNat = 97 ∧ (byte '9').toNat = 57 := by decide
        refine ⟨?_, fun h => ?_⟩
        · rintro rfl
          exact absurd hletter (by decide)
        · have hhigh := UInt8.le_iff_toNat_le.mp h.2
          omega
    rw [Separator, Digit, Plain, Separator, hout]
    refine ⟨iff_of_false (by decide) hne.1, iff_of_false (by decide) hne.2, fun _ _ => by decide⟩

/-! ## One turn of the loop -/

/-- What a turn does to the indices. -/
inductive Turn (d : LocaleData) (s s' : Scan) (c : UInt16) : Prop
  | separator (hc : d.Separator c) (hallowed : separatorAllowed s = true)
      (heq : s' = { s with
        idx := s.idx + 1, lastSeparatorIdx := some s.idx, result := s'.result })
  | point (hc : ¬d.Separator c) (hends : d.Ends c) (hapart : separatorApart s = true)
      (hidx : s'.idx = s.idx + 1) (hlast : s'.lastSeparatorIdx = none)
      (hstart : s'.startOfDigitsIdx = s.startOfDigitsIdx)
      (hpoint : s'.decptIdx.isSome = true ∨ s'.exponentIdx.isSome = true)
  | digit (hc : d.Plain c) (hdigit : d.Digit c) (hstart : s.startOfDigitsIdx = none)
      (heq : s' = { s with
        idx := s.idx + 1, startOfDigitsIdx := some s.idx, result := s'.result })
  | letter (hc : d.Plain c) (hends : d.Ends c) (hdigit : ¬d.Digit c) (hapart : separatorApart s = true)
      (heq : s' = { s with idx := s.idx + 1, lastSeparatorIdx := none, result := s'.result })
  | other (hc : d.Plain c) (hdigit : d.Digit c → s.startOfDigitsIdx.isSome = true)
      (heq : s' = { s with idx := s.idx + 1, result := s'.result })

theorem scanStep_turn {opts : NumberOptions} (hopts : opts.rejectGroupSeparator = false) {l : Nat}
    {s s' : Scan} {c : UInt16} (h : scanStep d opts l s c = some s') : d.Turn s s' c := by
  obtain ⟨out, known, s₁, separator, s₂, hchar, hpoint, -, hseparator, heq⟩ := scanStep_eq_some.mp h
  obtain ⟨hcomma, hdigit, hplain⟩ := charToCLocale_facts hchar
  have hends : out = byte '.' ∨ out = byte 'e' ∨ out = byte 'E' →
      out ≠ byte ',' ∧ ¬(byte '0' ≤ out ∧ out ≤ byte '9') := by
    rintro (rfl | rfl | rfl) <;> decide
  rcases noteSeparator_cases hopts hseparator with
    ⟨hout, hallowed, rfl⟩ | ⟨hout, hstart, rfl⟩ | ⟨hout, hapart, rfl⟩ | ⟨hne, hout, hstart, rfl⟩
  · obtain ⟨-, rfl⟩ := (notePoint_cases hpoint).resolve_left fun h =>
      absurd hout (hends (h.1.2.imp_right Or.inl)).1
    exact .separator (hcomma.mpr hout) hallowed (by rw [heq])
  · obtain ⟨hnot, rfl⟩ := (notePoint_cases hpoint).resolve_left fun h =>
      absurd hout (hends (h.1.2.imp_right Or.inl)).2
    refine .digit (hplain ?_ hnot) (hdigit.mpr hout) hstart (by rw [heq])
    rintro rfl
    exact absurd hout (by decide)
  · obtain ⟨hne, hnondigit⟩ := hends hout
    rcases notePoint_cases hpoint with ⟨-, hidx, hlast, hstart, hpoint⟩ | ⟨hnot, rfl⟩
    · have hapart' : separatorApart s = true := by
        rwa [separatorApart, hidx, hlast] at hapart
      subst heq
      exact .point (fun h => hne (hcomma.mp h)) ⟨out, known, hchar, hout⟩ hapart'
        (congrArg (· + 1) hidx) rfl hstart hpoint
    · exact .letter (hplain hne hnot) ⟨out, known, hchar, hout⟩ (fun h => hnondigit (hdigit.mp h))
        hapart (by rw [heq])
  · obtain ⟨hnot, rfl⟩ := (notePoint_cases hpoint).resolve_left fun h => hout (h.1.2.imp_right Or.inl)
    exact .other (hplain hne hnot) (fun h => hstart (hdigit.mp h)) (by rw [heq])

/-! ## The run -/

/-- How far the loop has come with a text that began at a place. -/
inductive Progress (d : LocaleData) (place : Nat) (t : Str) (s : Scan) : Prop
  | before (front first : Str) (ht : t = front ++ first) (hhead : d.Head front first)
      (hidx : s.idx = place + t.length) (hlast : s.lastSeparatorIdx = none)
      (hstart : s.startOfDigitsIdx = if first = [] then none else some (place + front.length))
  | ended (hnone : ∀ c ∈ t, ¬d.Separator c) (hlast : s.lastSeparatorIdx = none)
      (hpoint : s.decptIdx.isSome = true ∨ s.exponentIdx.isSome = true)
  | within (front first : Str) (groups : List (UInt16 × Str)) (sep : UInt16) (cur : Str)
      (ht : t = front ++ first ++ (groups.flatMap fun g => g.1 :: g.2) ++ sep :: cur)
      (hhead : d.Head front first) (hone : 1 ≤ first.length) (hthree : first.length ≤ 3)
      (hgroups : d.Groups groups) (hsep : d.Separator sep) (hcur : ∀ c ∈ cur, d.Plain c)
      (hidx : s.idx = place + t.length)
      (hlast : s.lastSeparatorIdx = some (s.idx - cur.length - 1))
      (hstart : s.startOfDigitsIdx = some (place + front.length))
  | behind (front first : Str) (groups : List (UInt16 × Str)) (rest : Str)
      (hgrouped : d.Grouped t front first groups rest) (hrest : rest ≠ [])
      (hidx : s.idx = place + t.length) (hlast : s.lastSeparatorIdx = none)
      (hstart : s.startOfDigitsIdx = some (place + front.length))

theorem Groups.concat {groups : List (UInt16 × Str)} (h : d.Groups groups) {sep : UInt16} {cur : Str}
    (hsep : d.Separator sep) (hlength : cur.length = 3) (hcur : ∀ c ∈ cur, d.Plain c) :
    d.Groups (groups ++ [(sep, cur)]) := by
  intro g hg
  rcases List.mem_append.mp hg with hg | hg
  · exact h g hg
  · rw [List.mem_singleton.mp hg]
    exact ⟨hsep, hlength, hcur⟩

/-- A plain character in front of the first separator. -/
theorem Progress.before_plain {place : Nat} {t front first : Str} {s s' : Scan} {c : UInt16}
    (ht : t = front ++ first) (hhead : d.Head front first) (hc : d.Plain c)
    (hidx : s'.idx = place + (t ++ [c]).length) (hlast : s'.lastSeparatorIdx = none)
    (hstart : s.startOfDigitsIdx = if first = [] then none else some (place + front.length))
    (hdigit : (d.Digit c ∧ first = [] ∧ s'.startOfDigitsIdx = some (place + t.length)) ∨
      ((d.Digit c → first ≠ []) ∧ s'.startOfDigitsIdx = s.startOfDigitsIdx)) :
    d.Progress place (t ++ [c]) s' := by
  have hplain := forall_concat hhead.plain hc
  rw [List.append_assoc] at hplain
  rcases hdigit with ⟨hdigit, rfl, hstart'⟩ | ⟨hdigit, hstart'⟩
  · refine .before front [c] (by rw [ht]; simp) ⟨by simpa using hplain, hhead.front, ?_⟩ hidx
      hlast (by simp [hstart', ht])
    rintro x ⟨⟩
    exact hdigit
  · by_cases hfirst : first = []
    · subst hfirst
      refine .before (front ++ [c]) [] (by rw [ht]; simp) ⟨by simpa using hplain, ?_, by simp⟩
        hidx hlast (by rw [hstart', hstart]; rfl)
      exact forall_concat hhead.front fun h => hdigit h rfl
    · obtain ⟨x, first, rfl⟩ := List.exists_cons_of_ne_nil hfirst
      exact .before front (x :: first ++ [c]) (by rw [ht]; simp)
        ⟨hplain, hhead.front, hhead.first⟩ hidx hlast
        (by rw [hstart', hstart]; simp)

theorem Turn.idx {s s' : Scan} {c : UInt16} (h : d.Turn s s' c) : s'.idx = s.idx + 1 := by
  cases h with
  | separator _ _ heq => rw [heq]
  | point _ _ _ hidx _ _ _ => exact hidx
  | digit _ _ _ heq => rw [heq]
  | letter _ _ _ _ heq => rw [heq]
  | other _ _ heq => rw [heq]

section

variable {place : Nat} {t front first rest cur : Str} {groups : List (UInt16 × Str)} {sep : UInt16}
  {s s' : Scan} {c : UInt16}

theorem Turn.before (hturn : d.Turn s s' c) (ht : t = front ++ first) (hhead : d.Head front first)
    (hidx : s.idx = place + t.length) (hlast : s.lastSeparatorIdx = none)
    (hstart : s.startOfDigitsIdx = if first = [] then none else some (place + front.length)) :
    d.Progress place (t ++ [c]) s' := by
  have hidx' : s'.idx = place + (t ++ [c]).length := by
    rw [hturn.idx, hidx, List.length_append, List.length_singleton, Nat.add_assoc]
  cases hturn with
  | separator hc hallowed heq =>
    rw [separatorAllowed, hlast, hstart] at hallowed
    by_cases hfirst : first = []
    · simp [hfirst] at hallowed
    · have hone := List.length_pos_of_ne_nil hfirst
      have hthree : first.length ≤ 3 := by
        simp only [hfirst, if_false, Bool.and_eq_true, decide_eq_true_eq] at hallowed
        rw [hidx, ht, List.length_append] at hallowed
        omega
      refine .within front first [] c [] (by simp [ht]) hhead hone hthree (by simp [Groups]) hc
        (by simp) hidx' ?_ ?_
      · rw [heq]
        simp
      · rw [heq]
        simpa [hfirst] using hstart
  | point hc hends hapart _ hlast' hstart' hpoint =>
    refine .ended (forall_concat (fun x hx => ?_) hc) hlast' hpoint
    rw [ht] at hx
    exact (hhead.plain x hx).1
  | digit hc hdigit hnone heq =>
    have hfirst : first = [] := by
      by_contra hfirst
      rw [hstart, if_neg hfirst] at hnone
      cases hnone
    exact .before_plain ht hhead hc hidx' (by rw [heq]; exact hlast) hstart
      (Or.inl ⟨hdigit, hfirst, by rw [heq]; exact congrArg some hidx⟩)
  | letter hc hends hdigit hapart heq =>
    exact .before_plain ht hhead hc hidx' (by rw [heq]) hstart
      (Or.inr ⟨fun h => absurd h hdigit, by rw [heq]⟩)
  | other hc hdigit heq =>
    refine .before_plain ht hhead hc hidx' (by rw [heq]; exact hlast) hstart
      (Or.inr ⟨fun h hfirst => ?_, by rw [heq]⟩)
    have hsome := hdigit h
    simp [hstart, hfirst] at hsome

theorem Turn.ended (hturn : d.Turn s s' c) (hnone : ∀ c ∈ t, ¬d.Separator c)
    (hlast : s.lastSeparatorIdx = none)
    (hpoint : s.decptIdx.isSome = true ∨ s.exponentIdx.isSome = true) :
    d.Progress place (t ++ [c]) s' := by
  cases hturn with
  | separator hc hallowed heq =>
    rw [separatorAllowed] at hallowed
    rcases hpoint with hpoint | hpoint
    · simp [Option.isNone_eq_false_iff.mpr hpoint] at hallowed
    · simp [Option.isNone_eq_false_iff.mpr hpoint] at hallowed
  | point hc hends hapart _ hlast' hstart' hpoint' =>
    exact .ended (forall_concat hnone hc) hlast' hpoint'
  | digit hc hdigit _ heq =>
    exact .ended (forall_concat hnone hc.1) (by rw [heq]; exact hlast) (by rw [heq]; exact hpoint)
  | letter hc hends hdigit hapart heq =>
    exact .ended (forall_concat hnone hc.1) (by rw [heq]) (by rw [heq]; exact hpoint)
  | other hc hdigit heq =>
    exact .ended (forall_concat hnone hc.1) (by rw [heq]; exact hlast) (by rw [heq]; exact hpoint)

theorem Turn.within (hturn : d.Turn s s' c)
    (ht : t = front ++ first ++ (groups.flatMap fun g => g.1 :: g.2) ++ sep :: cur)
    (hhead : d.Head front first) (hone : 1 ≤ first.length) (hthree : first.length ≤ 3)
    (hgroups : d.Groups groups) (hsep : d.Separator sep) (hcur : ∀ c ∈ cur, d.Plain c)
    (hidx : s.idx = place + t.length) (hlast : s.lastSeparatorIdx = some (s.idx - cur.length - 1))
    (hstart : s.startOfDigitsIdx = some (place + front.length)) :
    d.Progress place (t ++ [c]) s' := by
  have hidx' : s'.idx = place + (t ++ [c]).length := by
    rw [hturn.idx, hidx, List.length_append, List.length_singleton, Nat.add_assoc]
  have hlong : cur.length + 1 ≤ s.idx := by
    rw [hidx, ht, List.length_append, List.length_cons]
    omega
  have hnext (groups' : List (UInt16 × Str)) (hg : groups' = groups ++ [(sep, cur)]) :
      t = front ++ first ++ (groups'.flatMap fun g => g.1 :: g.2) := by
    rw [hg, ht]
    simp
  have hplain : d.Plain c → s'.lastSeparatorIdx = s.lastSeparatorIdx →
      s'.startOfDigitsIdx = s.startOfDigitsIdx → d.Progress place (t ++ [c]) s' := by
    intro hc hlast' hstart'
    refine .within front first groups sep (cur ++ [c]) (by rw [ht]; simp) hhead hone hthree hgroups
      hsep (forall_concat hcur hc) hidx' ?_ (by rw [hstart', hstart])
    rw [hlast', hlast, hturn.idx, List.length_append, List.length_singleton, Option.some.injEq]
    omega
  have hbehind : cur.length = 3 → ¬d.Separator c → d.Ends c → s'.lastSeparatorIdx = none →
      s'.startOfDigitsIdx = s.startOfDigitsIdx → d.Progress place (t ++ [c]) s' := by
    intro hlength hc hends hlast' hstart'
    refine .behind front first (groups ++ [(sep, cur)]) [c] ⟨?_, hhead, hone, hthree,
      hgroups.concat hsep hlength hcur, by simp, ?_, ?_⟩ (by simp) hidx' hlast'
      (by rw [hstart', hstart])
    · rw [hnext _ rfl]
    · rintro x ⟨⟩
      exact hends
    · intro x hx
      rwa [List.mem_singleton.mp hx]
  cases hturn with
  | separator hc hallowed heq =>
    simp only [separatorAllowed, hlast, Bool.and_eq_true, beq_iff_eq] at hallowed
    have hlength : cur.length = 3 := by omega
    refine .within front first (groups ++ [(sep, cur)]) c [] ?_ hhead hone hthree
      (hgroups.concat hsep hlength hcur) hc (by simp) hidx' ?_ ?_
    · rw [hnext _ rfl]
    · rw [heq]
      simp
    · rw [heq]
      exact hstart
  | point hc hends hapart _ hlast' hstart' hpoint =>
    simp only [separatorApart, hlast, beq_iff_eq] at hapart
    exact hbehind (by omega) hc hends hlast' hstart'
  | digit hc hdigit hnone heq =>
    rw [hstart] at hnone
    cases hnone
  | letter hc hends hdigit hapart heq =>
    simp only [separatorApart, hlast, beq_iff_eq] at hapart
    exact hbehind (by omega) hc.1 hends (by rw [heq]) (by rw [heq])
  | other hc hdigit heq => exact hplain hc (by rw [heq]) (by rw [heq])

theorem Turn.behind (hturn : d.Turn s s' c) (hgrouped : d.Grouped t front first groups rest)
    (hrest : rest ≠ []) (hidx : s.idx = place + t.length) (hlast : s.lastSeparatorIdx = none)
    (hstart : s.startOfDigitsIdx = some (place + front.length)) :
    d.Progress place (t ++ [c]) s' := by
  have hidx' : s'.idx = place + (t ++ [c]).length := by
    rw [hturn.idx, hidx, List.length_append, List.length_singleton, Nat.add_assoc]
  have hmore : ¬d.Separator c → s'.lastSeparatorIdx = none →
      s'.startOfDigitsIdx = s.startOfDigitsIdx → d.Progress place (t ++ [c]) s' := by
    intro hc hlast' hstart'
    refine .behind front first groups (rest ++ [c]) ⟨?_, hgrouped.head, hgrouped.one, hgrouped.three,
      hgrouped.each, hgrouped.some_group, ?_, forall_concat hgrouped.rest hc⟩ (by simp) hidx' hlast'
      (by rw [hstart', hstart])
    · rw [hgrouped.text_eq, List.append_assoc]
    · rw [List.head?_append_of_ne_nil _ hrest]
      exact hgrouped.ends
  cases hturn with
  | separator hc hallowed heq =>
    -- the first digit is too far back
    obtain ⟨g, groups, rfl⟩ := List.exists_cons_of_ne_nil hgrouped.some_group
    have hg := (hgrouped.each g List.mem_cons_self).2.1
    have hone := hgrouped.one
    simp only [separatorAllowed, hlast, hstart, Bool.and_eq_true, decide_eq_true_eq] at hallowed
    rw [hidx, hgrouped.text_eq] at hallowed
    simp only [List.length_append, List.flatMap_cons, List.length_cons, hg] at hallowed
    omega
  | point hc hends hapart _ hlast' hstart' hpoint => exact hmore hc hlast' hstart'
  | digit hc hdigit hnone heq =>
    rw [hstart] at hnone
    cases hnone
  | letter hc hends hdigit hapart heq => exact hmore hc.1 (by rw [heq]) (by rw [heq])
  | other hc hdigit heq => exact hmore hc.1 (by rw [heq]; exact hlast) (by rw [heq])

end

theorem Progress.step {place : Nat} {t : Str} {s s' : Scan} {c : UInt16}
    (h : d.Progress place t s) (hturn : d.Turn s s' c) : d.Progress place (t ++ [c]) s' := by
  cases h with
  | before front first ht hhead hidx hlast hstart =>
    exact hturn.before ht hhead hidx hlast hstart
  | ended hnone hlast hpoint => exact hturn.ended hnone hlast hpoint
  | within front first groups sep cur ht hhead hone hthree hgroups hsep hcur hidx hlast hstart =>
    exact hturn.within ht hhead hone hthree hgroups hsep hcur hidx hlast hstart
  | behind front first groups rest hgrouped hrest hidx hlast hstart =>
    exact hturn.behind hgrouped hrest hidx hlast hstart

theorem Progress.run {opts : NumberOptions} (hopts : opts.rejectGroupSeparator = false) {l place : Nat}
    {t text : Str} {s s' : Scan} (h : d.Progress place t s)
    (hloop : scanLoop d opts l s text = some s') : d.Progress place (t ++ text) s' := by
  induction text generalizing t s with
  | nil =>
    cases hloop
    rwa [List.append_nil]
  | cons c text ih =>
    rw [scanLoop] at hloop
    obtain ⟨s₁, hstep, hloop⟩ := Option.bind_eq_some_iff.mp hloop
    have hnext := ih (h.step (scanStep_turn hopts hstep)) hloop
    rwa [List.append_assoc, List.singleton_append] at hnext

/-- The text between the blanks around it. -/
def trimmed (str : Str) : Str :=
  (str.drop (str.takeWhile Character.isSpace).length).rdropWhile Character.isSpace

/-- At the end of the text the last group has to be complete. -/
theorem Progress.finish {place : Nat} {t : Str} {s : Scan} (h : d.Progress place t s)
    (hapart : separatorApart s = true) (hseparator : ∃ c ∈ t, d.Separator c) : d.GroupsOfThree t := by
  obtain ⟨c, hmem, hc⟩ := hseparator
  cases h with
  | before front first ht hhead hidx hlast hstart =>
    rw [ht] at hmem
    exact absurd hc (hhead.plain c hmem).1
  | ended hnone hlast hpoint => exact absurd hc (hnone c hmem)
  | within front first groups sep cur ht hhead hone hthree hgroups hsep hcur hidx hlast hstart =>
    have hlength : cur.length = 3 := by
      have hlong : cur.length + 1 ≤ s.idx := by
        rw [hidx, ht, List.length_append, List.length_cons]
        omega
      simp only [separatorApart, hlast, beq_iff_eq] at hapart
      omega
    exact ⟨front, first, groups ++ [(sep, cur)], [], by rw [ht]; simp, hhead, hone, hthree,
      hgroups.concat hsep hlength hcur, by simp, by simp, by simp⟩
  | behind front first groups rest hgrouped hrest hidx hlast hstart =>
    exact ⟨front, first, groups, rest, hgrouped⟩

theorem numberToCLocale_groups {opts : NumberOptions} (hopts : opts.rejectGroupSeparator = false)
    {str : Str} {buff : Bytes} (h : d.numberToCLocale str opts = some buff)
    (hseparator : ∃ c ∈ trimmed str, d.Separator c) : d.GroupsOfThree (trimmed str) := by
  rw [numberToCLocale] at h
  simp only at h
  split at h
  · cases h
  · obtain ⟨s, hloop, hend⟩ := Option.bind_eq_some_iff.mp h
    have hprogress := Progress.run (t := []) hopts (.before [] [] rfl ⟨by simp, by simp, by simp⟩
      rfl rfl rfl) hloop
    have hapart : separatorApart s = true := by
      by_contra hnot
      rw [scanEnd, if_pos ⟨by simp [hopts], hnot⟩] at hend
      cases hend
    exact hprogress.finish hapart hseparator

/-! ## All of it -/

/-- Integers that a locale writes with any of the flags are read as the same numbers, unless zeros
in front of the digits make the group before the first separator too long; and in a text that is
accepted the separators are where they may stand. -/
theorem integers_read_back (hd : d.Distinct) (h : d.Separate) {opts : NumberOptions}
    (hopts : opts.rejectGroupSeparator = false) (grouped padded sign : Bool) {width : Int}
    (hlow : -2 ^ 31 + 32 ≤ width) (hhigh : width < 2 ^ 31) :
    (∀ n : Int, -2 ^ 63 < n → n < 2 ^ 63 → ∃ str,
      d.longLongToString n (-1) 10 width (integerFlags grouped padded sign) = some str ∧
        (d.stringToLongLong str 10 opts = some (true, n) ↔
          PaddingFits n.natAbs true (n < 0) width (integerFlags grouped padded sign))) ∧
    (∀ n : Nat, n < 2 ^ 64 → ∃ str,
      d.unsLongLongToString n (-1) 10 width (integerFlags grouped padded sign) = some str ∧
        (d.stringToUnsLongLong str 10 opts = some (true, (n : Int)) ↔
          PaddingFits n false false width (integerFlags grouped padded sign))) ∧
    ∀ str buff, d.numberToCLocale str opts = some buff →
      (∃ c ∈ trimmed str, d.Separator c) → d.GroupsOfThree (trimmed str) := by
  refine ⟨fun n hn hn' => ?_, fun n hn => ?_, fun str buff h => numberToCLocale_groups hopts h⟩
  · obtain ⟨str, hstr, hread⟩ :=
      longLongToString_read hd h hopts hn hn' grouped padded sign hlow hhigh
    refine ⟨str, hstr, ?_⟩
    rw [hread]
    split <;> simp_all
  · obtain ⟨str, hstr, hread⟩ :=
      unsLongLongToString_read hd h hopts hn grouped padded sign hlow hhigh
    refine ⟨str, hstr, ?_⟩
    rw [hread]
    split <;> simp_all

end

section

local instance : UnicodeTables := asciiTables

-- along the list, not over all units there are
local instance (priority := high) {p : UInt16 → Prop} [DecidablePred p] (l : List UInt16) :
    Decidable (∀ c ∈ l, p c) := List.decidableBAll p l

theorem c_distinct : LocaleData.c.Distinct := ⟨by decide, by decide⟩

theorem c_separate : LocaleData.c.Separate where
  ten := by decide
  digits := by decide
  group := by unfold IsDigit; decide
  plus := by unfold IsDigit; decide
  minus := by unfold IsDigit; decide
  group_sign := by decide
  minus_plus := by decide

/-- Minus 1,234,567 with two zeros in front. -/
theorem integers_read_back_c : ∃ str,
    LocaleData.c.longLongToString (-1234567) (-1) 10 12 (integerFlags true true false) = some str ∧
      LocaleData.c.stringToLongLong str 10 .default = some (true, -1234567) := by
  obtain ⟨str, hstr, hread⟩ := (@integers_read_back _ _ c_distinct c_separate .default rfl true
    true false 12 (by decide) (by decide)).1 (-1234567) (by decide) (by decide)
  exact ⟨str, hstr, hread.mpr (by decide +kernel)⟩

/-- A locale whose exponent is no letter, and one whose groups a typographic minus separates. -/
def caret : LocaleData := { LocaleData.c with exponential := unit '^' }

def minusGroups : LocaleData := { caret with group := 0x2212 }

/-- A grouped number with two zeros in front is refused, a letter in a group is not, the least
number cannot be written, and a separator that is a sign elsewhere is read as that sign. -/
theorem integers_read_back_refused :
    (caret.Distinct ∧ caret.NoLetter) ∧
    ((caret.longLongToString 12345 (-1) 10 8 (integerFlags true true false)).bind fun str =>
      caret.stringToLongLong str 10 .default) = some (false, 0) ∧
    caret.numberToCLocale ([unit '1', unit ',', unit 'a', unit '2', unit '3']) .default =
      some [byte '1', byte 'a', byte '2', byte '3', 0] ∧
    caret.longLongToString (-2 ^ 63) (-1) 10 (-1) .noFlags = none ∧
    (minusGroups.Distinct ∧ minusGroups.NoLetter) ∧
    ((minusGroups.longLongToString 1234 (-1) 10 (-1) (integerFlags true false false)).bind fun str =>
      minusGroups.stringToLongLong str 10 .default) = some (false, 0) := by
  refine ⟨⟨⟨by decide, by decide⟩, by unfold NoLetter; decide⟩, ?_, ?_, rfl,
    ⟨⟨by decide, by decide⟩, by unfold NoLetter; decide⟩, ?_⟩
  · decide +kernel
  · decide +kernel
  · decide +kernel

end

end Libpdk.Utils.LocaleData
