import Libpdk.Lang.Normalization
import Mathlib.Data.List.Induction

/-!
# Hangul

Syllables are decomposed into their jamo, and a starter is composed with what follows it as long
as there is a ligature. The ranges of the leading consonants and of the vowels are tested as they
should be; the one of the trailing consonants holds one unit too many at either end, so that a
string in which such a unit follows a leading consonant and a vowel loses it (`hangul_iff`).
-/
namespace Libpdk.Lang

open Codecs.Character

/-! ## Jamo and syllables -/

def IsL (c : UInt16) : Prop := lBase ≤ c.toNat ∧ c.toNat < lBase + lCount

def IsV (c : UInt16) : Prop := vBase ≤ c.toNat ∧ c.toNat < vBase + vCount

def IsT (c : UInt16) : Prop := tBase < c.toNat ∧ c.toNat < tBase + tCount

def IsSyllable (c : UInt16) : Prop := sBase ≤ c.toNat ∧ c.toNat < sBase + sCount

/-- A syllable without a trailing consonant. -/
def IsLV (c : UInt16) : Prop := IsSyllable c ∧ (c.toNat - sBase) % tCount = 0

/-- The jamo and syllables that are assigned. -/
def IsHangul (c : UInt16) : Prop :=
  (0x1100 ≤ c.toNat ∧ c.toNat ≤ 0x11ff) ∨ (0xa960 ≤ c.toNat ∧ c.toNat ≤ 0xa97c) ∨
    IsSyllable c ∨ (0xd7b0 ≤ c.toNat ∧ c.toNat ≤ 0xd7fb)

instance : DecidablePred IsL := fun _ => inferInstanceAs (Decidable (_ ∧ _))
instance : DecidablePred IsV := fun _ => inferInstanceAs (Decidable (_ ∧ _))
instance : DecidablePred IsT := fun _ => inferInstanceAs (Decidable (_ ∧ _))
instance : DecidablePred IsSyllable := fun _ => inferInstanceAs (Decidable (_ ∧ _))
instance : DecidablePred IsLV := fun _ => inferInstanceAs (Decidable (_ ∧ _))
instance : DecidablePred IsHangul := fun _ => inferInstanceAs (Decidable (_ ∨ _ ∨ _ ∨ _))

/-- The tables as they are for Hangul: known at the version, starters, without a decomposition
other than that of a syllable, and in no ligature. -/
structure HangulTables extends UnicodeTables where
  version : Nat
  known : ∀ c, IsHangul c → unicodeVersion c.toNat ≤ version
  starter : ∀ c, IsHangul c → combiningClass c.toNat = 0
  atomic : ∀ c, IsHangul c → decomposition c.toNat = none
  unjoined : ∀ u c, IsHangul c → ligature u c.toNat = 0

abbrev HangulString := { s : Str // ∀ c ∈ s, IsHangul c }

/-! ## What is asked for -/

/-- The jamo of a syllable. -/
def jamo (c : UInt16) : Str :=
  if IsSyllable c then
    let index := c.toNat - sBase
    [UInt16.ofNat (lBase + index / nCount), UInt16.ofNat (vBase + index % nCount / tCount)] ++
      if index % tCount = 0 then [] else [UInt16.ofNat (tBase + index % tCount)]
  else [c]

def decomposed (s : Str) : Str := s.flatMap jamo

/-- A leading consonant and a vowel, and a syllable of both and a trailing consonant. -/
def joined (c u : UInt16) : Option UInt16 :=
  if IsL c ∧ IsV u then
    some (UInt16.ofNat
      (sBase + ((c.toNat - lBase) * vCount + (u.toNat - vBase)) * tCount))
  else if IsLV c ∧ IsT u then some (UInt16.ofNat (c.toNat + (u.toNat - tBase)))
  else none

/-- Starters are joined with what follows them as long as that can be joined. -/
def composeFrom (join : UInt16 → UInt16 → Option UInt16) : UInt16 → Str → Str
  | c, [] => [c]
  | c, u :: s =>
    match join c u with
    | some c' => composeFrom join c' s
    | none => c :: composeFrom join u s

def composeAll (join : UInt16 → UInt16 → Option UInt16) : Str → Str
  | [] => []
  | c :: s => composeFrom join c s

def composed (s : Str) : Str := composeAll joined s

/-- The string is decomposed, composed and decomposed again as it should be. -/
structure Normalizes (t : HangulTables) (canonical : Bool) (s : Str) : Prop where
  decomposes : ∃ rounds, decomposeHelper t.toUnicodeTables t.version rounds s canonical 0 =
    some (decomposed s)
  composes : composeHelper t.toUnicodeTables t.version (decomposed s) 0 =
    some (composed (decomposed s))
  again : ∃ rounds, decomposeHelper t.toUnicodeTables t.version rounds
    (composed (decomposed s)) canonical 0 = some (decomposed s)

/-- One of the two units beside those of the trailing consonants. -/
def AtEdge (x : UInt16) : Prop := x.toNat = tBase ∨ x.toNat = tBase + tCount

/-- Somewhere such a unit follows a leading consonant and a vowel. -/
def HasEdge : Str → Prop
  | l :: v :: x :: s => (IsL l ∧ IsV v ∧ AtEdge x) ∨ HasEdge (v :: x :: s)
  | _ => False

section

variable {c u : UInt16}

theorem isL_iff : IsL c ↔ 0x1100 ≤ c.toNat ∧ c.toNat < 0x1113 := Iff.rfl

theorem isV_iff : IsV c ↔ 0x1161 ≤ c.toNat ∧ c.toNat < 0x1176 := Iff.rfl

theorem isT_iff : IsT c ↔ 0x11a7 < c.toNat ∧ c.toNat < 0x11c3 := Iff.rfl

theorem isSyllable_iff : IsSyllable c ↔ 0xac00 ≤ c.toNat ∧ c.toNat < 0xd7a4 := Iff.rfl

theorem isLV_iff : IsLV c ↔ IsSyllable c ∧ (c.toNat - 0xac00) % 28 = 0 := Iff.rfl

theorem atEdge_iff : AtEdge c ↔ c.toNat = 0x11a7 ∨ c.toNat = 0x11c3 := Iff.rfl

theorem IsSyllable.isHangul (hc : IsSyllable c) : IsHangul c := .inr (.inr (.inl hc))

theorem isHangul_of_jamo (hc : 0x1100 ≤ c.toNat ∧ c.toNat ≤ 0x11ff) : IsHangul c := .inl hc

/-- Hangul is no surrogate. -/
theorem IsHangul.not_surrogate (hc : IsHangul c) :
    isHighSurrogate c.toNat = false ∧ isLowSurrogate c.toNat = false := by
  have hlt := c.toNat_lt
  have hnot : ¬(0xd800 ≤ c.toNat ∧ c.toNat < 0xe000) := by
    rw [IsHangul, isSyllable_iff] at hc
    omega
  rw [← Bool.not_eq_true, ← Bool.not_eq_true, isHighSurrogate_iff (by omega),
    isLowSurrogate_iff (by omega)]
  omega

end

/-! ## Decomposition -/

/-- The jamo of a syllable by their places. -/
theorem jamo_syllable {c : UInt16} (hc : IsSyllable c) :
    ∃ l v, IsL l ∧ IsV v ∧
      l.toNat = 0x1100 + (c.toNat - 0xac00) / 588 ∧
      v.toNat = 0x1161 + (c.toNat - 0xac00) % 588 / 28 ∧
      ((IsLV c ∧ jamo c = [l, v]) ∨
        ∃ x, IsT x ∧ x.toNat = 0x11a7 + (c.toNat - 0xac00) % 28 ∧ ¬IsLV c ∧
          jamo c = [l, v, x]) := by
  have hrange := isSyllable_iff.mp hc
  obtain ⟨index, hindex⟩ : ∃ index, c.toNat - 0xac00 = index := ⟨_, rfl⟩
  have hl : (UInt16.ofNat (0x1100 + index / 588)).toNat = 0x1100 + index / 588 :=
    UInt16.toNat_ofNat_of_lt' (by show _ < 65536; omega)
  have hv : (UInt16.ofNat (0x1161 + index % 588 / 28)).toNat = 0x1161 + index % 588 / 28 :=
    UInt16.toNat_ofNat_of_lt' (by show _ < 65536; omega)
  have hx : (UInt16.ofNat (0x11a7 + index % 28)).toNat = 0x11a7 + index % 28 :=
    UInt16.toNat_ofNat_of_lt' (by show _ < 65536; omega)
  have hjamo : jamo c = [UInt16.ofNat (0x1100 + index / 588),
      UInt16.ofNat (0x1161 + index % 588 / 28)] ++
        if index % 28 = 0 then [] else [UInt16.ofNat (0x11a7 + index % 28)] := by
    rw [← hindex]
    exact if_pos hc
  refine ⟨_, _, isL_iff.mpr ?_, isV_iff.mpr ?_, by rw [hl, hindex], by rw [hv, hindex], ?_⟩
  · rw [hl]
    omega
  · rw [hv]
    omega
  · by_cases hzero : index % 28 = 0
    · refine .inl ⟨isLV_iff.mpr ⟨hc, by rw [hindex]; exact hzero⟩, ?_⟩
      rw [hjamo, if_pos hzero]
      rfl
    · refine .inr ⟨_, isT_iff.mpr ?_, by rw [hx, hindex], ?_, ?_⟩
      · rw [hx]
        omega
      · rintro ⟨-, hmod⟩
        rw [← hindex] at hzero
        exact hzero hmod
      · rw [hjamo, if_neg hzero]
        rfl

/-- The helper's buffer. -/
theorem decompositionHelper_syllable (t : UnicodeTables) {c : UInt16} (hc : IsSyllable c) :
    decompositionHelper t c.toNat = some (canonicalTag, jamo c) := by
  have hrange : c.toNat ≥ sBase ∧ c.toNat < sBase + sCount := hc
  simp only [decompositionHelper, jamo]
  rw [if_pos hrange, if_pos hc]
  by_cases hzero : (c.toNat - sBase) % tCount = 0
  · rw [hzero, if_pos (Nat.add_zero _), if_pos rfl]
    rfl
  · rw [if_neg (by omega), if_neg hzero]
    rfl

section

variable (t : HangulTables) (canonical : Bool)

theorem decompositionOf_hangul {c : UInt16} (hc : IsHangul c) :
    decompositionOf t.toUnicodeTables t.version canonical c.toNat =
      if IsSyllable c then some (jamo c) else none := by
  rw [decompositionOf, if_neg (Nat.not_lt.mpr (t.known c hc))]
  by_cases hsyllable : IsSyllable c
  · rw [decompositionHelper_syllable _ hsyllable, if_pos hsyllable]
    exact if_neg fun h => h.2 rfl
  · have hrange : ¬(c.toNat ≥ sBase ∧ c.toNat < sBase + sCount) := hsyllable
    rw [decompositionHelper, if_neg hrange, t.atomic c hc, if_neg hsyllable]

/-- The unit in front of `uc`. -/
theorem codePointBefore_hangul {front tail : Str} {c : UInt16} (hc : IsHangul c) :
    codePointBefore (front ++ c :: tail) (front.length + 1) = some (c.toNat, front.length) := by
  rw [codePointBefore, Nat.add_sub_cancel, List.getElem?_append_right (Nat.le_refl _), Nat.sub_self,
    List.getElem?_cons_zero, Option.bind_eq_bind, Option.bind_some, if_neg]
  rintro ⟨hlow, -⟩
  rw [hc.not_surrogate.2] at hlow
  cases hlow

/-- One round of the loop. -/
theorem decomposeLoop_step (rounds : Nat) (front tail : Str) {c : UInt16} (hc : IsHangul c) :
    decomposeLoop t.toUnicodeTables t.version canonical 0 (rounds + 1) (front ++ c :: tail)
        (front.length + 1) =
      if IsSyllable c then
        decomposeLoop t.toUnicodeTables t.version canonical 0 rounds (front ++ (jamo c ++ tail))
          (front.length + (jamo c).length)
      else
        decomposeLoop t.toUnicodeTables t.version canonical 0 rounds (front ++ c :: tail)
          front.length := by
  have hone := splice_one (jamo c) front [c] tail
  rw [List.singleton_append, List.length_singleton] at hone
  rw [decomposeLoop, if_neg (Nat.succ_ne_zero _), codePointBefore_hangul hc, Option.bind_eq_bind,
    Option.bind_some]
  simp only [decompositionOf_hangul t canonical hc, not_requiresSurrogates]
  by_cases hsyllable : IsSyllable c
  · simp only [if_pos hsyllable, Bool.false_eq_true, if_false, hone]
  · simp only [if_neg hsyllable]

theorem jamo_atomic {c : UInt16} (hc : IsHangul c) :
    ∀ x ∈ jamo c, IsHangul x ∧ ¬IsSyllable x := by
  by_cases hsyllable : IsSyllable c
  · obtain ⟨l, v, hl, hv, -, -, hjamo⟩ := jamo_syllable hsyllable
    rw [isL_iff] at hl
    rw [isV_iff] at hv
    have hlow : ∀ x : UInt16, 0x1100 ≤ x.toNat ∧ x.toNat ≤ 0x11ff →
        IsHangul x ∧ ¬IsSyllable x := by
      intro x hx
      refine ⟨isHangul_of_jamo hx, ?_⟩
      rw [isSyllable_iff]
      omega
    rcases hjamo with ⟨-, hjamo⟩ | ⟨x, hx, -, -, hjamo⟩
    · rw [hjamo]
      intro x hx
      simp only [List.mem_cons, List.not_mem_nil, or_false] at hx
      rcases hx with rfl | rfl
      · exact hlow _ (by omega)
      · exact hlow _ (by omega)
    · rw [isT_iff] at hx
      rw [hjamo]
      intro y hy
      simp only [List.mem_cons, List.not_mem_nil, or_false] at hy
      rcases hy with rfl | rfl | rfl
      · exact hlow _ (by omega)
      · exact hlow _ (by omega)
      · exact hlow _ (by omega)
  · intro x hx
    rw [jamo, if_neg hsyllable, List.mem_singleton] at hx
    rw [hx]
    exact ⟨hc, hsyllable⟩

/-- Jamo are passed over. -/
theorem decomposeLoop_atomic (rounds : Nat) (front middle tail : Str)
    (hmiddle : ∀ x ∈ middle, IsHangul x ∧ ¬IsSyllable x) :
    decomposeLoop t.toUnicodeTables t.version canonical 0 (rounds + middle.length)
        (front ++ (middle ++ tail)) (front.length + middle.length) =
      decomposeLoop t.toUnicodeTables t.version canonical 0 rounds (front ++ (middle ++ tail))
        front.length := by
  induction middle using List.reverseRecOn generalizing tail with
  | nil => rfl
  | append_singleton middle c ih =>
    obtain ⟨hc, hatomic⟩ := hmiddle c (List.mem_append_right _ (List.mem_singleton_self c))
    have hrest := ih (c :: tail) fun x hx => hmiddle x (List.mem_append_left _ hx)
    have hstep := decomposeLoop_step t canonical (rounds + middle.length) (front ++ middle) tail hc
    rw [if_neg hatomic, List.length_append] at hstep
    rw [List.length_append, List.length_singleton, List.append_assoc, List.singleton_append,
      ← hrest, ← List.append_assoc, ← hstep]
    congr 1

/-- From the end to the front each unit is replaced by its jamo. -/
theorem decomposeLoop_eq (front tail : Str) (hfront : ∀ x ∈ front, IsHangul x) :
    ∃ rounds, decomposeLoop t.toUnicodeTables t.version canonical 0 rounds (front ++ tail)
      front.length = some (decomposed front ++ tail) := by
  induction front using List.reverseRecOn generalizing tail with
  | nil => exact ⟨1, rfl⟩
  | append_singleton front c ih =>
    have hc := hfront c (List.mem_append_right _ (List.mem_singleton_self c))
    obtain ⟨rounds, hrounds⟩ := ih (jamo c ++ tail) fun x hx =>
      hfront x (List.mem_append_left _ hx)
    have hend : decomposed (front ++ [c]) ++ tail = decomposed front ++ (jamo c ++ tail) := by
      rw [decomposed, List.flatMap_append, List.flatMap_singleton, List.append_assoc, decomposed]
    rw [hend, List.append_assoc, List.singleton_append, List.length_append,
      List.length_singleton, ← hrounds]
    by_cases hsyllable : IsSyllable c
    · refine ⟨rounds + (jamo c).length + 1, ?_⟩
      rw [decomposeLoop_step t canonical _ _ _ hc, if_pos hsyllable,
        decomposeLoop_atomic t canonical _ _ _ _ (jamo_atomic hc)]
    · refine ⟨rounds + 1, ?_⟩
      rw [decomposeLoop_step t canonical _ _ _ hc, if_neg hsyllable, jamo, if_neg hsyllable]
      rfl

theorem decomposeHelper_eq {s : Str} (hs : ∀ x ∈ s, IsHangul x) :
    ∃ rounds, decomposeHelper t.toUnicodeTables t.version rounds s canonical 0 =
      some (decomposed s) := by
  obtain ⟨rounds, hrounds⟩ := decomposeLoop_eq t canonical s [] hs
  rw [List.append_nil, List.append_nil] at hrounds
  exact ⟨rounds, hrounds⟩

end

/-! ## Composition -/

/-- What the helper joins. -/
def looselyJoined (c u : UInt16) : Option UInt16 :=
  if IsL c ∧ IsV u then joined c u
  else if IsLV c ∧ tBase ≤ u.toNat ∧ u.toNat ≤ tBase + tCount then
    some (UInt16.ofNat (c.toNat + (u.toNat - tBase)))
  else none

theorem uintSub_lt {a b k : Nat} (ha : a < 2 ^ 16) (hb : b < 2 ^ 16) (hk : k < 2 ^ 16) :
    uintSub a b < k ↔ b ≤ a ∧ a < b + k := by
  rw [uintSub]
  omega

theorem uintSub_eq {a b : Nat} (ha : a < 2 ^ 16) (hle : b ≤ a) : uintSub a b = a - b := by
  rw [uintSub]
  omega

/-- A leading consonant and a vowel make a syllable of these jamo. -/
theorem joined_vowel {c u : UInt16} (hc : IsL c) (hu : IsV u) :
    ∃ c', joined c u = some c' ∧
      c'.toNat = sBase + ((c.toNat - lBase) * vCount + (u.toNat - vBase)) * tCount ∧
      IsLV c' ∧ jamo c' = [c, u] := by
  have hl := isL_iff.mp hc
  have hv := isV_iff.mp hu
  have hval : (UInt16.ofNat (sBase + ((c.toNat - lBase) * vCount + (u.toNat - vBase)) *
      tCount)).toNat = sBase + ((c.toNat - lBase) * vCount + (u.toNat - vBase)) * tCount :=
    UInt16.toNat_ofNat_of_lt' (by
      simp only [sBase, lBase, vBase, vCount, tCount, UInt16.size]
      omega)
  refine ⟨_, if_pos ⟨hc, hu⟩, hval, ?_⟩
  obtain ⟨c', hc'⟩ : ∃ c', UInt16.ofNat (sBase + ((c.toNat - lBase) * vCount +
    (u.toNat - vBase)) * tCount) = c' := ⟨_, rfl⟩
  rw [hc'] at hval ⊢
  simp only [sBase, lBase, vBase, vCount, tCount] at hval
  have hsyllable : IsSyllable c' := isSyllable_iff.mpr (by omega)
  have hlv : IsLV c' := isLV_iff.mpr ⟨hsyllable, by omega⟩
  obtain ⟨l, v, -, -, hl', hv', hjamo⟩ := jamo_syllable hsyllable
  have hlc : l = c := UInt16.toNat_inj.mp (by omega)
  have hvu : v = u := UInt16.toNat_inj.mp (by omega)
  rcases hjamo with ⟨-, hjamo⟩ | ⟨x, -, -, hnot, -⟩
  · exact ⟨hlv, by rw [hjamo, hlc, hvu]⟩
  · exact absurd hlv hnot

theorem uintSub_le {a b k : Nat} (ha : a < 2 ^ 16) (hb : b < 2 ^ 16) (hk : k < 2 ^ 16) :
    uintSub a b ≤ k ↔ b ≤ a ∧ a ≤ b + k := by
  rw [uintSub]
  omega

/-- The first test of the helper. -/
theorem isL_isV_iff (c u : UInt16) :
    (c.toNat ≥ lBase ∧ c.toNat ≤ sBase + sCount ∧
      uintSub c.toNat lBase < lCount ∧ uintSub u.toNat vBase < vCount) ↔ IsL c ∧ IsV u := by
  rw [uintSub_lt c.toNat_lt (by decide) (by decide), uintSub_lt u.toNat_lt (by decide) (by decide),
    isL_iff, isV_iff]
  simp only [lBase, sBase, vBase, lCount, vCount, sCount, nCount, tCount]
  omega

/-- The second test of the helper. -/
theorem isLV_iff_test (c u : UInt16) :
    (c.toNat ≥ lBase ∧ c.toNat ≤ sBase + sCount ∧
      uintSub c.toNat sBase < sCount ∧ uintSub c.toNat sBase % tCount = 0 ∧
        uintSub u.toNat tBase ≤ tCount) ↔
      IsLV c ∧ tBase ≤ u.toNat ∧ u.toNat ≤ tBase + tCount := by
  rw [uintSub_lt c.toNat_lt (by decide) (by decide), uintSub_le u.toNat_lt (by decide) (by decide),
    isLV_iff, isSyllable_iff]
  by_cases hle : sBase ≤ c.toNat
  · rw [uintSub_eq c.toNat_lt hle]
    simp only [lBase, sBase, tBase, lCount, vCount, sCount, nCount, tCount] at hle ⊢
    omega
  · simp only [lBase, sBase, tBase, lCount, vCount, sCount, nCount, tCount] at hle ⊢
    omega

/-- The helper joins as it should, but for the units at the edges. -/
theorem ligatureHelper_eq (t : HangulTables) (c : UInt16) {u : UInt16} (hu : IsHangul u) :
    ligatureHelper t.toUnicodeTables c.toNat u.toNat =
      ((looselyJoined c u).map UInt16.toNat).getD 0 := by
  have hc16 := c.toNat_lt
  have hu16 := u.toNat_lt
  rw [ligatureHelper, looselyJoined]
  by_cases hv : IsL c ∧ IsV u
  · obtain ⟨c', hjoined, hvalue, -⟩ := joined_vowel hv.1 hv.2
    rw [if_pos ((isL_isV_iff c u).mpr hv), if_pos hv, hjoined, uintSub_eq hc16 hv.1.1,
      uintSub_eq hu16 hv.2.1, Option.map_some, Option.getD_some, hvalue]
  rw [if_neg (fun h => hv ((isL_isV_iff c u).mp h)), if_neg hv]
  by_cases ht : IsLV c ∧ tBase ≤ u.toNat ∧ u.toNat ≤ tBase + tCount
  · have hrange := isSyllable_iff.mp ht.1.1
    have hsum : c.toNat + (u.toNat - tBase) < UInt16.size := by
      have hedge := ht.2.2
      simp only [tBase, tCount, UInt16.size] at hedge ⊢
      omega
    rw [if_pos ((isLV_iff_test c u).mpr ht), if_pos ht, uintSub_eq hu16 ht.2.1, Option.map_some,
      Option.getD_some, UInt16.toNat_ofNat_of_lt' hsum]
  · rw [if_neg (fun h => ht ((isLV_iff_test c u).mp h)), if_neg ht]
    exact t.unjoined _ _ hu

/-- What is joined is a syllable, or the code point behind the last one, and not in front of what
it begins with. -/
theorem looselyJoined_bounds {c u c' : UInt16} (hjoin : looselyJoined c u = some c') :
    sBase ≤ c'.toNat ∧ c.toNat ≤ c'.toNat := by
  rw [looselyJoined] at hjoin
  split at hjoin
  · next hv =>
    obtain ⟨c₁, hjoined, hvalue, -⟩ := joined_vowel hv.1 hv.2
    have hl := isL_iff.mp hv.1
    rw [hjoined, Option.some.injEq] at hjoin
    rw [← hjoin, hvalue]
    simp only [sBase, lBase, vBase, vCount, tCount]
    omega
  · split at hjoin
    · next ht =>
      have hrange := isSyllable_iff.mp ht.1.1
      have hsum : c.toNat + (u.toNat - tBase) < UInt16.size := by
        have hedge := ht.2.2
        simp only [tBase, tCount, UInt16.size] at hedge ⊢
        omega
      rw [Option.some.injEq] at hjoin
      rw [← hjoin, UInt16.toNat_ofNat_of_lt' hsum, sBase]
      omega
    · cases hjoin

section

variable (t : HangulTables)

theorem codePointAt_hangul (front tail : Str) {c : UInt16} (hc : IsHangul c) :
    codePointAt (front ++ c :: tail) front.length = some (c.toNat, front.length) := by
  rw [codePointAt, List.getElem?_append_right (Nat.le_refl _), Nat.sub_self,
    List.getElem?_cons_zero, Option.bind_eq_bind, Option.bind_some, if_neg]
  rintro ⟨hhigh, -⟩
  rw [hc.not_surrogate.1] at hhigh
  cases hhigh

theorem placeLigature_eq (front rest : Str) (c u c' : UInt16) :
    placeLigature (front ++ c :: u :: rest) front.length (front.length + 1) c'.toNat =
      front ++ c' :: rest := by
  have hone := splice_one [] (front ++ [c']) [u] rest
  simp only [List.append_assoc, List.singleton_append, List.length_append, List.length_singleton,
    List.nil_append] at hone
  rw [placeLigature, not_requiresSurrogates, if_neg Bool.false_ne_true,
    List.set_append_right _ _ (Nat.le_refl _), Nat.sub_self, List.set_cons_zero,
    UInt16.ofNat_toNat, hone]

/-- The starter in front of `rest` is composed with it. -/
theorem composeLoop_eq (rest : Str) : ∀ (rounds : Nat) (front : Str) (c : UInt16),
    rest.length < rounds → (∀ u ∈ rest, IsHangul u) →
    composeLoop t.toUnicodeTables t.version 0 rounds
        ⟨front ++ c :: rest, c.toNat, front.length, front.length + 1, 0, front.length + 1⟩ =
      some (front ++ composeFrom looselyJoined c rest) := by
  induction rest with
  | nil =>
    intro rounds front c hrounds _
    obtain ⟨rounds, rfl⟩ : ∃ n, rounds = n + 1 := ⟨rounds - 1, by omega⟩
    rw [composeLoop, if_neg (by simp)]
    rfl
  | cons u rest ih =>
    intro rounds front c hrounds hhangul
    obtain ⟨rounds, rfl⟩ : ∃ n, rounds = n + 1 := ⟨rounds - 1, by omega⟩
    have hu := hhangul u (List.mem_cons_self ..)
    have hrest := fun x hx => hhangul x (List.mem_cons_of_mem _ hx)
    rw [List.length_cons] at hrounds
    have hpoint := codePointAt_hangul (front ++ [c]) rest hu
    rw [List.append_assoc, List.singleton_append, List.length_append, List.length_singleton]
      at hpoint
    have hformed : ((((front.length + 1 : Nat) : Int) = (front.length : Int) + 1 ∨
        t.combiningClass u.toNat > 0) ∧ (front.length : Int) ≥ 0) :=
      ⟨.inl rfl, Int.natCast_nonneg _⟩
    rw [composeLoop, if_pos (by simp)]
    simp only [hpoint, Option.bind_eq_bind, Option.bind_some,
      if_neg (Nat.not_lt.mpr (t.known u hu)), if_pos hformed, ligatureHelper_eq t c hu]
    rw [composeFrom]
    cases hjoin : looselyJoined c u with
    | some c' =>
      have hpos : c'.toNat ≠ 0 := by
        have hbounds := (looselyJoined_bounds hjoin).1
        rw [sBase] at hbounds
        omega
      simp only [Option.map_some, Option.getD_some, if_pos hpos, Int.toNat_natCast,
        placeLigature_eq]
      exact ih rounds front c' (by omega) hrest
    | none =>
      have hdone : front ++ c :: composeFrom looselyJoined u rest =
          (front ++ [c]) ++ composeFrom looselyJoined u rest := by
        rw [List.append_assoc, List.singleton_append]
      have hnext := ih rounds (front ++ [c]) u (by omega) hrest
      rw [List.length_append, List.length_singleton, List.append_assoc,
        List.singleton_append] at hnext
      simp only [Option.map_none, Option.getD_none, ne_eq, not_true_eq_false, if_false,
        t.starter u hu, hdone]
      exact hnext

theorem composeHelper_eq {s : Str} (hs : ∀ c ∈ s, IsHangul c) :
    composeHelper t.toUnicodeTables t.version s 0 = some (composeAll looselyJoined s) := by
  rw [composeHelper]
  match s with
  | [] => rfl
  | [c] => rfl
  | c :: u :: rest =>
    have hc := hs c (List.mem_cons_self ..)
    have hpoint := codePointAt_hangul [] (u :: rest) hc
    have hfirst : ¬((((0 : Nat) : Int) = -1 ∨ 0 > 255) ∧ (-1 : Int) ≥ 0) :=
      fun h => absurd h.2 (by decide)
    have hloop := composeLoop_eq t (u :: rest) (u :: rest).length.succ [] c (Nat.lt_succ_self _)
      fun x hx => hs x (List.mem_cons_of_mem _ hx)
    rw [if_neg (by simp only [List.length_cons]; omega), composeLoop, if_pos (by simp)]
    rw [List.nil_append, List.length_nil] at hpoint
    simp only [Int.toNat_zero, hpoint, Option.bind_eq_bind, Option.bind_some,
      if_neg (Nat.not_lt.mpr (t.known c hc)), t.starter c hc]
    rw [if_neg hfirst, if_neg (fun h => h rfl), if_pos trivial]
    exact hloop

end

/-! ## What is lost -/

theorem IsLV.not_isL {c : UInt16} (hc : IsLV c) : ¬IsL c := by
  have hrange := isSyllable_iff.mp hc.1
  rw [isL_iff]
  omega

/-- The sum of a syllable and the place of a trailing consonant, up to the edge. -/
theorem toNat_trailing {c u : UInt16} (hc : IsLV c) (hedge : u.toNat ≤ tBase + tCount) :
    (UInt16.ofNat (c.toNat + (u.toNat - tBase))).toNat = c.toNat + (u.toNat - tBase) := by
  have hrange := isSyllable_iff.mp hc.1
  refine UInt16.toNat_ofNat_of_lt' ?_
  simp only [tBase, tCount, UInt16.size] at hedge ⊢
  omega

/-- A syllable without a trailing consonant and one make a syllable of these jamo. -/
theorem joined_trailing {c u : UInt16} (hc : IsLV c) (hu : IsT u) :
    ∃ c', joined c u = some c' ∧ IsSyllable c' ∧ jamo c' = jamo c ++ [u] := by
  have hrange := isSyllable_iff.mp hc.1
  have ht := isT_iff.mp hu
  have hvalue := toNat_trailing hc (u := u) (by simp only [tBase, tCount]; omega)
  have hmod := (isLV_iff.mp hc).2
  refine ⟨_, (if_neg fun h => hc.not_isL h.1).trans (if_pos ⟨hc, hu⟩), ?_⟩
  obtain ⟨c', hc'⟩ : ∃ c', UInt16.ofNat (c.toNat + (u.toNat - tBase)) = c' := ⟨_, rfl⟩
  rw [hc'] at hvalue ⊢
  rw [tBase] at hvalue
  have hsyllable : IsSyllable c' := isSyllable_iff.mpr (by omega)
  obtain ⟨l, v, -, -, hl, hv, hjamo⟩ := jamo_syllable hc.1
  obtain ⟨l', v', -, -, hl', hv', hjamo'⟩ := jamo_syllable hsyllable
  have hll : l' = l := UInt16.toNat_inj.mp (by omega)
  have hvv : v' = v := UInt16.toNat_inj.mp (by omega)
  rcases hjamo with ⟨-, hjamo⟩ | ⟨x, -, -, hnot, -⟩
  · rcases hjamo' with ⟨hlv, -⟩ | ⟨x, -, hx, -, hjamo'⟩
    · have hmod' := (isLV_iff.mp hlv).2
      omega
    · have hxu : x = u := UInt16.toNat_inj.mp (by omega)
      exact ⟨hsyllable, by rw [hjamo', hjamo, hll, hvv, hxu]; rfl⟩
  · exact absurd hc hnot

/-- Joining keeps the jamo. -/
theorem jamo_joined {c u c' : UInt16} (hjoin : joined c u = some c') :
    IsSyllable c' ∧ jamo c' = jamo c ++ [u] := by
  by_cases hv : IsL c ∧ IsV u
  · obtain ⟨c₁, hjoined, -, hlv, hjamo⟩ := joined_vowel hv.1 hv.2
    have hl := isL_iff.mp hv.1
    have hatomic : jamo c = [c] := if_neg (by rw [isSyllable_iff]; omega)
    rw [hjoined, Option.some.injEq] at hjoin
    rw [← hjoin, hatomic]
    exact ⟨hlv.1, hjamo⟩
  by_cases ht : IsLV c ∧ IsT u
  · obtain ⟨c₁, hjoined, hsyllable, hjamo⟩ := joined_trailing ht.1 ht.2
    rw [hjoined, Option.some.injEq] at hjoin
    rw [← hjoin]
    exact ⟨hsyllable, hjamo⟩
  · rw [joined, if_neg hv, if_neg ht] at hjoin
    cases hjoin

theorem looselyJoined_of_joined {c u c' : UInt16} (hjoin : joined c u = some c') :
    looselyJoined c u = some c' := by
  rw [looselyJoined]
  by_cases hv : IsL c ∧ IsV u
  · rw [if_pos hv, hjoin]
  rw [joined, if_neg hv] at hjoin
  rw [if_neg hv]
  by_cases ht : IsLV c ∧ IsT u
  · rw [if_pos ht] at hjoin
    rw [if_pos ⟨ht.1, Nat.le_of_lt ht.2.1, Nat.le_of_lt ht.2.2⟩, hjoin]
  · rw [if_neg ht] at hjoin
    cases hjoin

/-- The helper joins more only at the edges. -/
theorem joined_none {c u c' : UInt16} (hnone : joined c u = none)
    (hjoin : looselyJoined c u = some c') :
    IsLV c ∧ ((u.toNat = tBase ∧ c' = c) ∨ (u.toNat = tBase + tCount ∧ c.toNat < c'.toNat)) := by
  by_cases hv : IsL c ∧ IsV u
  · rw [looselyJoined, if_pos hv, hnone] at hjoin
    cases hjoin
  rw [joined, if_neg hv] at hnone
  rw [looselyJoined, if_neg hv] at hjoin
  split at hjoin
  · next hrange =>
    have hnot : ¬IsT u := fun ht => by
      rw [if_pos ⟨hrange.1, ht⟩] at hnone
      cases hnone
    have hvalue := toNat_trailing hrange.1 hrange.2.2
    rw [Option.some.injEq] at hjoin
    rw [hjoin] at hvalue
    rw [isT_iff] at hnot
    have hedge := hrange.2
    simp only [tBase, tCount] at hedge hvalue ⊢
    refine ⟨hrange.1, ?_⟩
    by_cases hlow : u.toNat = 0x11a7
    · exact .inl ⟨hlow, UInt16.toNat_inj.mp (by omega)⟩
    · exact .inr ⟨by omega, by omega⟩
  · cases hjoin

/-- The first code point that is composed is not in front of what it begins with, and it is this
or a syllable or behind them. -/
theorem composeFrom_head (c : UInt16) (s : Str) :
    ∃ first rest, composeFrom looselyJoined c s = first :: rest ∧ c.toNat ≤ first.toNat ∧
      (first = c ∨ sBase ≤ first.toNat) := by
  induction s generalizing c with
  | nil => exact ⟨c, [], rfl, Nat.le_refl _, .inl rfl⟩
  | cons u s ih =>
    rw [composeFrom]
    cases hjoin : looselyJoined c u with
    | none => exact ⟨c, _, rfl, Nat.le_refl _, .inl rfl⟩
    | some c' =>
      obtain ⟨first, rest, heq, hle, hcases⟩ := ih c'
      have hbounds := looselyJoined_bounds hjoin
      exact ⟨first, rest, heq, by omega, .inr (by omega)⟩

/-- What a syllable without a trailing consonant takes in. -/
theorem looselyJoined_lv {c u : UInt16} (hc : IsLV c) :
    looselyJoined c u = if tBase ≤ u.toNat ∧ u.toNat ≤ tBase + tCount then
      some (UInt16.ofNat (c.toNat + (u.toNat - tBase))) else none := by
  rw [looselyJoined, if_neg fun h => hc.not_isL h.1]
  by_cases hrange : tBase ≤ u.toNat ∧ u.toNat ≤ tBase + tCount
  · rw [if_pos ⟨hc, hrange⟩, if_pos hrange]
  · rw [if_neg fun h => hrange h.2, if_neg hrange]

/-- A syllable takes in the unit in front of the trailing consonants as often as it follows, so
that unit never stands behind the syllable. -/
theorem composeFrom_swallows {c x : UInt16} (hc : IsLV c) (hx : x.toNat = tBase) (s rest : Str) :
    composeFrom looselyJoined c s ≠ c :: x :: rest := by
  induction s with
  | nil => exact fun h => nomatch (List.cons.inj h).2
  | cons u s ih =>
    rw [composeFrom, looselyJoined_lv hc]
    by_cases hrange : tBase ≤ u.toNat ∧ u.toNat ≤ tBase + tCount
    · rw [if_pos hrange]
      have hvalue := toNat_trailing hc hrange.2
      by_cases hlow : u.toNat = tBase
      · rw [hlow, Nat.sub_self, Nat.add_zero, UInt16.ofNat_toNat]
        exact ih
      · obtain ⟨first, rest', heq, hle, -⟩ :=
          composeFrom_head (UInt16.ofNat (c.toNat + (u.toNat - tBase))) s
        intro hsame
        rw [(List.cons.inj (heq.symm.trans hsame)).1] at hle
        omega
    · rw [if_neg hrange]
      obtain ⟨first, rest', heq, -, hcases⟩ := composeFrom_head u s
      intro hsame
      have hfirst := (List.cons.inj hsame).2
      rw [heq] at hfirst
      rw [(List.cons.inj hfirst).1] at hcases
      rcases hcases with rfl | hbig
      · rw [hx] at hrange
        exact hrange ⟨Nat.le_refl _, Nat.le_add_right _ _⟩
      · rw [hx, sBase, tBase] at hbig
        omega

theorem HasEdge.cons {s : Str} (h : HasEdge s) (c : UInt16) : HasEdge (c :: s) := by
  match s with
  | [] => exact h
  | [_] => exact h
  | _ :: _ :: _ => exact .inr h

theorem HasEdge.append {s : Str} (h : HasEdge s) (front : Str) : HasEdge (front ++ s) := by
  induction front with
  | nil => exact h
  | cons c front ih => exact ih.cons c

/-- A vowel begins no such place. -/
theorem hasEdge_vowel {v : UInt16} (hv : IsV v) {s : Str} (h : HasEdge (v :: s)) : HasEdge s := by
  match s with
  | [] => exact h
  | [_] => exact absurd h id
  | _ :: _ :: _ =>
    rcases h with ⟨hl, -⟩ | h
    · rw [isV_iff] at hv
      rw [isL_iff] at hl
      omega
    · exact h

/-- Where a syllable or a jamo is not joined with what follows it, the unit at the edge is what it
takes in, or comes later. -/
theorem hasEdge_behind {c u : UInt16} {s : Str} (hnone : joined c u = none)
    (h : HasEdge (jamo c ++ u :: s)) : (IsLV c ∧ AtEdge u) ∨ HasEdge (u :: s) := by
  by_cases hc : IsSyllable c
  · obtain ⟨l, v, hl, hv, -, -, hjamo⟩ := jamo_syllable hc
    rcases hjamo with ⟨hlv, hjamo⟩ | ⟨x, hx, -, -, hjamo⟩
    · rw [hjamo] at h
      rcases h with ⟨-, -, hedge⟩ | h
      · exact .inl ⟨hlv, hedge⟩
      · exact .inr (hasEdge_vowel hv h)
    · rw [hjamo] at h
      rw [isT_iff] at hx
      rcases h with ⟨-, -, hedge⟩ | h
      · rw [atEdge_iff] at hedge
        omega
      · have hrest := hasEdge_vowel hv h
        match s with
        | [] => exact absurd hrest id
        | _ :: _ =>
          rcases hrest with ⟨hl', -⟩ | hrest
          · rw [isL_iff] at hl'
            omega
          · exact .inr hrest
  · rw [jamo, if_neg hc, List.singleton_append] at h
    match s with
    | [] => exact absurd h id
    | _ :: _ =>
      rcases h with ⟨hl, hv, -⟩ | h
      · rw [joined, if_pos ⟨hl, hv⟩] at hnone
        cases hnone
      · exact .inr h

theorem not_hasEdge_jamo (c : UInt16) : ¬HasEdge (jamo c) := by
  intro h
  by_cases hc : IsSyllable c
  · obtain ⟨l, v, -, hv, -, -, hjamo⟩ := jamo_syllable hc
    rcases hjamo with ⟨-, hjamo⟩ | ⟨x, hx, -, -, hjamo⟩
    · rw [hjamo] at h
      exact h
    · rw [hjamo] at h
      rw [isT_iff] at hx
      rcases h with ⟨-, -, hedge⟩ | h
      · rw [atEdge_iff] at hedge
        omega
      · exact h
  · rw [jamo, if_neg hc] at h
    exact h

/-- The unit in front of the trailing consonants is joined with nothing. -/
theorem composeFrom_low {x : UInt16} (hx : x.toNat = tBase) (s : Str) :
    ∃ rest, composeFrom joined x s = x :: rest := by
  cases s with
  | nil => exact ⟨[], rfl⟩
  | cons u s =>
    have hnone : joined x u = none := by
      rw [tBase] at hx
      rw [joined, if_neg fun h => by have := isL_iff.mp h.1; omega,
        if_neg fun h => by have := isSyllable_iff.mp h.1.1; omega]
    rw [composeFrom, hnone]
    exact ⟨_, rfl⟩

/-- The helper composes as it should if and only if there is no unit at an edge. -/
theorem composeFrom_iff (c : UInt16) (s : Str) (hs : ∀ u ∈ s, ¬IsSyllable u) :
    composeFrom looselyJoined c s = composeFrom joined c s ↔ ¬HasEdge (jamo c ++ s) := by
  induction s generalizing c with
  | nil =>
    rw [List.append_nil]
    exact iff_of_true rfl (not_hasEdge_jamo c)
  | cons u s ih =>
    have hrest : ∀ x ∈ s, ¬IsSyllable x := fun x hx => hs x (List.mem_cons_of_mem _ hx)
    rw [composeFrom, composeFrom]
    cases hjoin : joined c u with
    | some c' =>
      have hstep : jamo c ++ u :: s = jamo c' ++ s := by
        rw [(jamo_joined hjoin).2, List.append_assoc, List.singleton_append]
      rw [looselyJoined_of_joined hjoin, hstep]
      exact ih c' hrest
    | none =>
      cases hloose : looselyJoined c u with
      | none =>
        have hu : jamo u = [u] := if_neg (hs u (List.mem_cons_self ..))
        have hih := ih u hrest
        rw [hu, List.singleton_append] at hih
        refine (List.cons_inj_right c).trans (hih.trans (not_congr
          ⟨fun h => h.append _, fun h => ?_⟩))
        rcases hasEdge_behind hjoin h with ⟨hlv, hedge⟩ | h
        · have hrange : tBase ≤ u.toNat ∧ u.toNat ≤ tBase + tCount := by
            rw [AtEdge] at hedge
            omega
          rw [looselyJoined_lv hlv, if_pos hrange] at hloose
          cases hloose
        · exact h
      | some c' =>
        obtain ⟨hlv, hcases⟩ := joined_none hjoin hloose
        have hedge : AtEdge u := hcases.imp And.left And.left
        refine iff_of_false ?_ (not_not.mpr ?_)
        · rcases hcases with ⟨hlow, rfl⟩ | ⟨-, hlt⟩
          · obtain ⟨rest, hrest⟩ := composeFrom_low hlow s
            rw [hrest]
            exact composeFrom_swallows hlv hlow s rest
          · obtain ⟨first, rest, heq, hle, -⟩ := composeFrom_head c' s
            intro hsame
            rw [(List.cons.inj (heq.symm.trans hsame)).1] at hle
            omega
        · obtain ⟨l, v, hl, hv, -, -, hjamo⟩ := jamo_syllable hlv.1
          rcases hjamo with ⟨-, hjamo⟩ | ⟨x, -, -, hnot, -⟩
          · rw [hjamo]
            exact .inl ⟨hl, hv, hedge⟩
          · exact absurd hlv hnot

/-- What is composed as it should be has the jamo it was made of. -/
theorem decomposed_composeFrom (c : UInt16) (s : Str) (hs : ∀ u ∈ s, ¬IsSyllable u) :
    decomposed (composeFrom joined c s) = jamo c ++ s := by
  induction s generalizing c with
  | nil => rfl
  | cons u s ih =>
    have hrest : ∀ x ∈ s, ¬IsSyllable x := fun x hx => hs x (List.mem_cons_of_mem _ hx)
    rw [composeFrom]
    cases hjoin : joined c u with
    | some c' =>
      have hstep : jamo c ++ u :: s = jamo c' ++ s := by
        rw [(jamo_joined hjoin).2, List.append_assoc, List.singleton_append]
      rw [hstep]
      exact ih c' hrest
    | none =>
      have hu : jamo u = [u] := if_neg (hs u (List.mem_cons_self ..))
      have hih := ih u hrest
      rw [hu, List.singleton_append] at hih
      exact congrArg (jamo c ++ ·) hih

theorem composeFrom_hangul (c : UInt16) (s : Str) (hc : IsHangul c) (hs : ∀ u ∈ s, IsHangul u) :
    ∀ x ∈ composeFrom joined c s, IsHangul x := by
  induction s generalizing c with
  | nil =>
    intro x hx
    rwa [List.mem_singleton.mp hx]
  | cons u s ih =>
    have hrest : ∀ x ∈ s, IsHangul x := fun x hx => hs x (List.mem_cons_of_mem _ hx)
    rw [composeFrom]
    cases hjoin : joined c u with
    | some c' => exact ih c' (jamo_joined hjoin).1.isHangul hrest
    | none =>
      intro x hx
      rcases List.mem_cons.mp hx with rfl | hx
      · exact hc
      · exact ih u (hs u (List.mem_cons_self ..)) hrest x hx

theorem decomposed_hangul {s : Str} (hs : ∀ c ∈ s, IsHangul c) :
    ∀ x ∈ decomposed s, IsHangul x ∧ ¬IsSyllable x := by
  intro x hx
  obtain ⟨c, hc, hx⟩ := List.mem_flatMap.mp hx
  exact jamo_atomic (hs c hc) x hx

/-- What is composed of jamo, as the helper does it and as it should be. -/
theorem composeAll_iff {s : Str} (hs : ∀ c ∈ s, IsHangul c ∧ ¬IsSyllable c) :
    (composeAll looselyJoined s = composed s ↔ ¬HasEdge s) ∧ decomposed (composed s) = s ∧
      ∀ c ∈ composed s, IsHangul c := by
  cases s with
  | nil => exact ⟨iff_of_true rfl id, rfl, nofun⟩
  | cons c s =>
    have hrest := fun x hx => hs x (List.mem_cons_of_mem _ hx)
    have hc := hs c (List.mem_cons_self ..)
    have hiff := composeFrom_iff c s fun x hx => (hrest x hx).2
    have hagain := decomposed_composeFrom c s fun x hx => (hrest x hx).2
    rw [jamo, if_neg hc.2, List.singleton_append] at hiff hagain
    exact ⟨hiff, hagain, composeFrom_hangul c s hc.1 fun x hx => (hrest x hx).1⟩

/-- A Hangul string is normalized as it should be, and nothing is lost, if and only if no unit at
an edge follows a leading consonant and a vowel. -/
theorem hangul_iff (t : HangulTables) (canonical : Bool) (s : HangulString) :
    Normalizes t canonical s.val ↔ ¬HasEdge (decomposed s.val) := by
  have hatomic := decomposed_hangul s.property
  have hcompose := composeHelper_eq t fun c hc => (hatomic c hc).1
  obtain ⟨hiff, hagain, hhangul⟩ := composeAll_iff hatomic
  rw [← hiff]
  constructor
  · intro hnormal
    rw [← Option.some.injEq, ← hcompose]
    exact hnormal.composes
  · intro hsame
    refine ⟨decomposeHelper_eq t canonical s.property, by rw [hcompose, hsame], ?_⟩
    obtain ⟨rounds, hrounds⟩ := decomposeHelper_eq t canonical hhangul
    rw [hagain] at hrounds
    exact ⟨rounds, hrounds⟩

/-- The tables for Hangul only. -/
def hangulTables : HangulTables where
  unicodeVersion _ := 1
  combiningClass _ := 0
  decomposition _ := none
  ligature _ _ := 0
  version := 1
  known _ _ := Nat.le_refl 1
  starter _ _ := rfl
  atomic _ _ := rfl
  unjoined _ _ _ := rfl

/-- U+1100 U+1161 U+11A7 -/
theorem trailing_base_lost : ¬Normalizes hangulTables true [0x1100, 0x1161, 0x11A7] := by
  intro hnormal
  have hcompose := hnormal.composes
  revert hcompose
  decide

end Libpdk.Lang
