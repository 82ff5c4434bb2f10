import Libpdk.Core.Runs
import Libpdk.Lang.Normalization
import Mathlib.Data.List.Chain

/-!
# Canonical order

The loop compares the combining classes of two neighbouring characters, exchanges them where they
are not in order, and goes back to the one in front. Each exchange takes an inversion away; where
the loop ends the marks behind each starter are in order (`canonicalOrder_sorts`).
-/
namespace Libpdk.Lang

open Codecs.Character

/-! ## Characters -/

def IsHigh (c : UInt16) : Prop := isHighSurrogate c.toNat = true

def IsLow (c : UInt16) : Prop := isLowSurrogate c.toNat = true

instance : DecidablePred IsHigh := fun _ => inferInstanceAs (Decidable (_ = true))
instance : DecidablePred IsLow := fun _ => inferInstanceAs (Decidable (_ = true))

/-- The characters of a string: surrogate pairs and units. -/
def chars : Str → List Str
  | [] => []
  | [c] => [[c]]
  | c :: d :: s => if IsHigh c ∧ IsLow d then [c, d] :: chars s else [c] :: chars (d :: s)

/-- The code point of a character. -/
def codePoint : Str → Nat
  | [c] => c.toNat
  | [h, l] => surrogateToUcs4 h l
  | _ => 0

/-- A unit, or a surrogate pair. -/
inductive IsChar : Str → Prop
  | unit (c : UInt16) : IsChar [c]
  | pair {h l : UInt16} (hh : IsHigh h) (hl : IsLow l) : IsChar [h, l]

/-- Two characters that are not the halves of a pair. -/
def Apart (x y : Str) : Prop := ∀ h l, x = [h] → y = [l] → ¬(IsHigh h ∧ IsLow l)

/-- Characters that are those of the string they make. -/
structure Characters (cs : List Str) : Prop where
  each : ∀ x ∈ cs, IsChar x
  apart : cs.IsChain Apart

section

variable {c d h l : UInt16} {x y z : Str} {cs front rest : List Str}

theorem isHigh_iff : IsHigh c ↔ 0xd800 ≤ c.toNat ∧ c.toNat < 0xdc00 :=
  isHighSurrogate_iff (by have := c.toNat_lt; omega)

theorem isLow_iff : IsLow c ↔ 0xdc00 ≤ c.toNat ∧ c.toNat < 0xe000 :=
  isLowSurrogate_iff (by have := c.toNat_lt; omega)

theorem IsHigh.not_low (hh : IsHigh c) : ¬IsLow c := by
  rw [isHigh_iff] at hh
  rw [isLow_iff]
  omega

theorem IsChar.ne_nil (hx : IsChar x) : x ≠ [] := by
  cases hx <;> exact List.cons_ne_nil _ _

theorem chars_flatten (s : Str) : (chars s).flatten = s := by
  induction s using chars.induct with
  | case1 => rfl
  | case2 c => rfl
  | case3 c d s hpair ih => rw [chars, if_pos hpair, List.flatten_cons, ih]; rfl
  | case4 c d s hnot ih => rw [chars, if_neg hnot, List.flatten_cons, ih]; rfl

/-- The first unit of a character that is a low surrogate is all of it. -/
theorem IsChar.of_low_head (hx : IsChar x) (hl : IsLow l) (hhead : x.head? = some l) : x = [l] := by
  cases hx with
  | unit c =>
    rw [List.head?_cons, Option.some.injEq] at hhead
    rw [hhead]
  | pair hh _ =>
    rw [List.head?_cons, Option.some.injEq] at hhead
    rw [hhead] at hh
    exact absurd hl hh.not_low

theorem Characters.tail (h : Characters (x :: cs)) : Characters cs :=
  ⟨fun y hy => h.each y (List.mem_cons_of_mem _ hy), h.apart.of_cons⟩

theorem Characters.append_right (h : Characters (front ++ cs)) : Characters cs :=
  ⟨fun y hy => h.each y (List.mem_append_right _ hy), h.apart.right_of_append⟩

/-- Behind a unit that is a high surrogate there is no low one. -/
theorem Characters.not_low (h : Characters ([c] :: cs)) (hc : IsHigh c) :
    ∀ d, cs.flatten.head? = some d → ¬IsLow d := by
  intro d hd hlow
  cases cs with
  | nil => cases hd
  | cons y cs =>
    have hy := h.each y (List.mem_cons_of_mem _ (List.mem_cons_self ..))
    have hhead : y.head? = some d := by
      cases hy <;> exact hd
    have hapart := (List.isChain_cons_cons.mp h.apart).1
    exact hapart c d rfl (hy.of_low_head hlow hhead) ⟨hc, hlow⟩

/-- Characters are found again in what they make. -/
theorem Characters.chars_eq (h : Characters cs) : chars cs.flatten = cs := by
  induction cs with
  | nil => rfl
  | cons x cs ih =>
    have hrest := ih h.tail
    have hx := h.each x (List.mem_cons_self ..)
    rw [List.flatten_cons]
    cases hx with
    | unit c =>
      rw [List.singleton_append]
      cases hs : cs.flatten with
      | nil =>
        rw [hs] at hrest
        rw [← hrest]
        rfl
      | cons d s =>
        have hnot : ¬(IsHigh c ∧ IsLow d) := fun hpair =>
          h.not_low hpair.1 d (by rw [hs]; rfl) hpair.2
        rw [chars, if_neg hnot, ← hs, hrest]
    | pair hh hl => rw [List.cons_append, List.singleton_append, chars, if_pos ⟨hh, hl⟩, hrest]

theorem characters_chars (s : Str) : Characters (chars s) := by
  induction s using chars.induct with
  | case1 => exact ⟨nofun, List.isChain_nil⟩
  | case2 c =>
    refine ⟨fun x hx => ?_, List.isChain_singleton _⟩
    rw [List.mem_singleton.mp hx]
    exact .unit c
  | case3 c d s hpair ih =>
    rw [chars, if_pos hpair]
    refine ⟨fun x hx => ?_, ?_⟩
    · rcases List.mem_cons.mp hx with rfl | hx
      · exact .pair hpair.1 hpair.2
      · exact ih.each x hx
    · exact List.isChain_cons.mpr ⟨fun y _ h l hx => (nomatch hx), ih.apart⟩
  | case4 c d s hnot ih =>
    rw [chars, if_neg hnot]
    refine ⟨fun x hx => ?_, ?_⟩
    · rcases List.mem_cons.mp hx with rfl | hx
      · exact .unit c
      · exact ih.each x hx
    · refine List.isChain_cons.mpr ⟨fun y hy h l hx hl hpair => ?_, ih.apart⟩
      obtain ⟨rest, hrest⟩ : ∃ rest, chars (d :: s) = y :: rest := by
        cases hcs : chars (d :: s) with
        | nil => rw [hcs] at hy; cases hy
        | cons z rest =>
          rw [hcs, List.head?_cons, Option.mem_some_iff] at hy
          exact ⟨rest, by rw [hy]⟩
      have hflat := chars_flatten (d :: s)
      rw [hrest, hl] at hflat
      rw [(List.cons.inj hx).1, ← (List.cons.inj hflat).1] at hnot
      exact hnot hpair

/-! ## Reading and writing characters -/

theorem units_codePoint (hx : IsChar x) : units (codePoint x) = x := by
  cases hx with
  | unit c => rw [codePoint, units, not_requiresSurrogates, if_neg Bool.false_ne_true,
      UInt16.ofNat_toNat]
  | pair hh hl =>
    rename_i h l
    have hh' := isHigh_iff.mp hh
    have hl' := isLow_iff.mp hl
    have hvalue := surrogateToUcs4_eq hh'.1 hl'.1 hh'.2 hl'.2
    have hhigh : getHighSurrogate (surrogateToUcs4 h l) = h := by
      rw [getHighSurrogate_eq (by omega) (by omega), ← UInt16.toNat_inj,
        UInt16.toNat_ofNat_of_lt' (by show _ < 65536; omega)]
      omega
    have hlow : getLowSurrogate (surrogateToUcs4 h l) = l := by
      rw [getLowSurrogate_eq, ← UInt16.toNat_inj,
        UInt16.toNat_ofNat_of_lt' (by show _ < 65536; omega)]
      omega
    rw [codePoint, units, if_pos (requiresSurrogates_iff.mpr (by omega)), hhigh, hlow]

/-- The character at a place is read, up to its last unit. -/
theorem codePointAt_char (front : Str) (h : Characters (x :: rest)) :
    codePointAt (front ++ (x :: rest).flatten) front.length =
      some (codePoint x, front.length + x.length - 1) := by
  have hat : ∀ (c : UInt16) (s : Str), (front ++ c :: s)[front.length]? = some c := fun c s => by
    rw [List.getElem?_append_right (Nat.le_refl _), Nat.sub_self, List.getElem?_cons_zero]
  have hnext : ∀ (c : UInt16) (s : Str), (front ++ c :: s)[front.length + 1]? = s.head? :=
    fun c s => by
      have hone : front.length + 1 - front.length = 1 := by omega
      rw [List.getElem?_append_right (Nat.le_succ _), Nat.succ_eq_add_one, hone,
        List.getElem?_cons_succ, List.head?_eq_getElem?]
  rw [List.flatten_cons]
  cases h.each x (List.mem_cons_self ..) with
  | unit c =>
    have hend : front.length + ([c] : Str).length - 1 = front.length := by
      rw [List.length_singleton, Nat.add_sub_cancel]
    rw [codePointAt, List.singleton_append, hat, Option.bind_eq_bind, Option.bind_some, hnext, hend]
    split
    · next hhigh =>
      cases hd : rest.flatten.head? with
      | none =>
        have hnil := List.head?_eq_none_iff.mp hd
        rw [hnil, List.length_append, List.length_singleton] at hhigh
        omega
      | some d =>
        have hlow : ¬isLowSurrogate d.toNat = true := h.not_low hhigh.1 d hd
        rw [Option.bind_some, if_neg hlow]
        rfl
    · rfl
  | pair hh hl =>
    rename_i hi lo
    have hend : front.length + ([hi, lo] : Str).length - 1 = front.length + 1 := rfl
    have hlow : isLowSurrogate lo.toNat = true := hl
    rw [codePointAt, List.cons_append, List.singleton_append, hat, Option.bind_eq_bind,
      Option.bind_some, hnext, hend, if_pos ⟨hh, by simp⟩, List.head?_cons, Option.bind_some,
      if_pos hlow]
    rfl

end

/-! ## Exchanging characters -/

/-- The tables with combining classes, which are 0 for surrogates. -/
structure MarkTables extends UnicodeTables where
  surrogates : ∀ u, 0xd800 ≤ u → u < 0xe000 → combiningClass u = 0

section

variable (t : MarkTables) (version : Nat)

/-- The class of a character. -/
def classOf (x : Str) : Nat := classAt t.toUnicodeTables version (codePoint x)

variable {t version} {x y z : Str} {cs front rest : List Str}

/-- A mark is not a surrogate. -/
theorem classOf_surrogate {c : UInt16} (hc : IsHigh c ∨ IsLow c) : classOf t version [c] = 0 := by
  rw [isHigh_iff, isLow_iff] at hc
  rw [classOf, codePoint, classAt]
  split
  · exact t.surrogates _ (by omega) (by omega)
  · rfl

theorem apart_right (hy : classOf t version y ≠ 0) (x : Str) : Apart x y := by
  rintro h l - rfl ⟨-, hl⟩
  exact hy (classOf_surrogate (.inr hl))

theorem apart_left (hx : classOf t version x ≠ 0) (y : Str) : Apart x y := by
  rintro h l rfl - ⟨hh, -⟩
  exact hx (classOf_surrogate (.inl hh))

/-- Two marks exchanged are characters again. -/
theorem Characters.swap (h : Characters (front ++ x :: y :: rest))
    (hx : classOf t version x ≠ 0) (hy : classOf t version y ≠ 0) :
    Characters (front ++ y :: x :: rest) := by
  refine ⟨fun z hz => h.each z ?_, ?_⟩
  · exact ((List.Perm.swap x y rest).append_left front).mem_iff.mp hz
  · have hchain := h.apart
    rw [List.isChain_append] at hchain ⊢
    obtain ⟨hfront, hmiddle, -⟩ := hchain
    refine ⟨hfront, ?_, fun z _ w hw => ?_⟩
    · rw [List.isChain_cons_cons]
      refine ⟨apart_right hx y, List.isChain_cons.mpr ⟨fun w _ => apart_left hx w, ?_⟩⟩
      exact hmiddle.of_cons.of_cons
    · rw [List.head?_cons, Option.mem_some_iff] at hw
      rw [← hw]
      exact apart_right hy z

/-! ## The loop -/

/-- A low surrogate is read as it is. -/
theorem codePointAt_low {s : Str} {pos : Nat} {c : UInt16} (hc : s[pos]? = some c)
    (hlow : IsLow c) : codePointAt s pos = some (c.toNat, pos) := by
  rw [codePointAt, hc, Option.bind_eq_bind, Option.bind_some, if_neg]
  rintro ⟨hhigh, -⟩
  exact IsHigh.not_low hhigh hlow

theorem getElem?_front {s : Str} (front tail : Str) (hs : s = front ++ tail) (i : Nat) :
    s[front.length + i]? = tail[i]? := by
  rw [hs, List.getElem?_append_right (Nat.le_add_right _ _), Nat.add_sub_cancel_left]

/-- In the middle of a pair that a lone low surrogate follows: behind that one after two rounds. -/
theorem orderLoop_middle (t : MarkTables) (version : Nat) {front tail s : Str} {l c : UInt16}
    (hs : s = front ++ l :: c :: tail) (hl : IsLow l) (hc : IsLow c) (rounds : Nat) :
    orderLoop t.toUnicodeTables version (rounds + 2) s front.length none =
      orderLoop t.toUnicodeTables version rounds s (front.length + 2) none := by
  have hlen : front.length + 1 < s.length := by
    rw [hs, List.length_append, List.length_cons, List.length_cons]
    omega
  have hfirst : codePointAt s front.length = some (l.toNat, front.length) :=
    codePointAt_low (by rw [← Nat.add_zero front.length, getElem?_front _ _ hs]; rfl) hl
  have hsecond : codePointAt s (front.length + 1) = some (c.toNat, front.length + 1) :=
    codePointAt_low (by rw [getElem?_front _ _ hs]; rfl) hc
  have hzero : classAt t.toUnicodeTables version c.toNat = 0 := classOf_surrogate (.inr hc)
  rw [orderLoop, if_pos hlen, hfirst, Option.bind_eq_bind, Option.bind_some]
  simp only [if_pos hlen]
  rw [orderLoop, hsecond, Option.bind_eq_bind, Option.bind_some]
  simp only [if_pos hzero]

/-- From behind some characters the loop goes back over at most two of them; where it comes to lie
in the middle of a pair, in front of a lone surrogate, it is back after two rounds. -/
theorem stepBack_spec (t : MarkTables) (version : Nat) (front : List Str) (s tail : Str)
    (hs : s = front.flatten ++ tail) (hfront : ∀ x ∈ front, IsChar x) :
    ∃ pos more front' middle, stepBack s front.flatten.length = some pos ∧
      front = front' ++ middle ∧ middle.flatten.length ≤ 2 ∧
      (middle = [] → ∀ z ∈ front.getLast?, classOf t version z = 0) ∧
      ∀ rounds, orderLoop t.toUnicodeTables version (rounds + more) s pos none =
        orderLoop t.toUnicodeTables version rounds s front'.flatten.length none := by
  rcases List.eq_nil_or_concat' front with rfl | ⟨front', z, rfl⟩
  · exact ⟨0, 0, [], [], rfl, rfl, Nat.zero_le 2, fun _ _ hz => (nomatch hz), fun _ => rfl⟩
  have hz := hfront z (List.mem_append_right _ (List.mem_singleton_self z))
  obtain ⟨place, hplace⟩ : ∃ place, front'.flatten.length = place := ⟨_, rfl⟩
  have hlen : (front' ++ [z]).flatten.length = place + z.length := by
    rw [List.flatten_append, List.flatten_singleton, List.length_append, hplace]
  have hs' : s = front'.flatten ++ (z ++ tail) := by
    rw [hs, List.flatten_append, List.flatten_singleton, List.append_assoc]
  have hunit : ∀ i, s[place + i]? = (z ++ tail)[i]? := fun i => by
    rw [← hplace, getElem?_front _ _ hs']
  cases hz with
  | pair hh hl =>
    rename_i h l
    have hlast : s[place + 1]? = some l := hunit 1
    have hlow : isLowSurrogate l.toNat = true := hl
    refine ⟨place, 0, front', [[h, l]], ?_, rfl, Nat.le_refl 2, nofun,
      fun _ => by rw [hplace]; rfl⟩
    have htwo : place + ([h, l] : Str).length = place + 2 := rfl
    have hone : place + 2 - 1 = place + 1 := rfl
    rw [stepBack, hlen, htwo, hone, if_pos (Nat.succ_pos _), hlast, Option.bind_eq_bind,
      Option.bind_some, if_pos hlow]
    rfl
  | unit c =>
    have hfirst : s[place]? = some c := hunit 0
    rw [List.length_singleton] at hlen
    rw [hlen]
    by_cases hstart : place = 0
    · refine ⟨place, 0, front', [[c]], ?_, rfl, Nat.le_succ 1, nofun,
        fun _ => by rw [hplace]; rfl⟩
      rw [stepBack, Nat.add_sub_cancel, if_neg (by omega)]
    rw [stepBack, Nat.add_sub_cancel, if_pos (by omega), hfirst, Option.bind_eq_bind,
      Option.bind_some]
    by_cases hlow : isLowSurrogate c.toNat = true
    · rw [if_pos hlow]
      -- the loop steps over the lone surrogate and one unit more
      rcases List.eq_nil_or_concat' front' with rfl | ⟨front'', w, rfl⟩
      · exact absurd hplace.symm hstart
      have hw := hfront w (List.mem_append_left _
        (List.mem_append_right _ (List.mem_singleton_self w)))
      rw [List.flatten_append, List.flatten_singleton, List.length_append] at hplace
      cases hw with
      | unit d =>
        rw [List.length_singleton] at hplace
        refine ⟨place + 1 - 2, 0, front'', [[d], [c]], rfl, ?_, Nat.le_refl 2, nofun, fun _ => ?_⟩
        · rw [List.append_assoc, List.singleton_append]
        · rw [← hplace]
          rfl
      | pair hh hl =>
        rename_i h l
        have hmiddle : s = (front''.flatten ++ [h]) ++ l :: c :: tail := by
          rw [hs, List.flatten_append, List.flatten_append, List.flatten_singleton,
            List.flatten_singleton]
          simp only [List.append_assoc, List.cons_append, List.nil_append]
        have hrounds := orderLoop_middle t version hmiddle hl hlow
        rw [List.length_append, List.length_singleton] at hrounds
        refine ⟨place + 1 - 2, 2, front'' ++ [[h, l]] ++ [[c]], [], rfl,
          (List.append_nil _).symm, Nat.zero_le 2, fun _ z hz => ?_, fun rounds => ?_⟩
        · rw [List.getLast?_concat, Option.mem_some_iff] at hz
          rw [← hz]
          exact classOf_surrogate (.inr hlow)
        · rw [hlen, ← hplace]
          exact hrounds rounds
    · rw [if_neg hlow]
      exact ⟨place, 0, front', [[c]], rfl, rfl, Nat.le_succ 1, nofun, fun _ => by rw [hplace]; rfl⟩

/-- The loop ends with the characters reordered so that no neighbours are left to be exchanged. -/
def Finishes (t : MarkTables) (version : Nat) (cs : List Str) (s : Str) (pos : Nat)
    (label : Option (Nat × Nat × Nat)) : Prop :=
  ∃ rounds cs', orderLoop t.toUnicodeTables version rounds s pos label = some cs'.flatten ∧
    Characters cs' ∧ Reordered (classOf t version) cs cs' ∧
      cs'.IsChain (InOrder (classOf t version))

theorem Finishes.after {s s' : Str} {pos pos' : Nat} {label label' : Option (Nat × Nat × Nat)}
    (more : Nat)
    (hrounds : ∀ rounds, orderLoop t.toUnicodeTables version (rounds + more) s pos label =
      orderLoop t.toUnicodeTables version rounds s' pos' label')
    (h : Finishes t version cs s' pos' label') : Finishes t version cs s pos label := by
  obtain ⟨rounds, cs', hrun, hrest⟩ := h
  exact ⟨rounds + more, cs', (hrounds rounds).trans hrun, hrest⟩

theorem Finishes.reordered {cs₁ : List Str} {s : Str} {pos : Nat}
    {label : Option (Nat × Nat × Nat)} (hswap : Reordered (classOf t version) cs cs₁)
    (h : Finishes t version cs₁ s pos label) : Finishes t version cs s pos label := by
  obtain ⟨rounds, cs', hrun, hchars, hreordered, hsorted⟩ := h
  exact ⟨rounds, cs', hrun, hchars, hswap.trans hreordered, hsorted⟩

theorem Finishes.here {pos : Nat} {label : Option (Nat × Nat × Nat)} (hchars : Characters cs)
    (hsorted : cs.IsChain (InOrder (classOf t version)))
    (hrun : orderLoop t.toUnicodeTables version 1 cs.flatten pos label = some cs.flatten) :
    Finishes t version cs cs.flatten pos label :=
  ⟨1, cs, hrun, hchars, .refl cs, hsorted⟩

theorem IsChar.pos (hx : IsChar x) : 0 < x.length := List.length_pos_iff.mpr hx.ne_nil

theorem flatten_front (front rest : List Str) (x : Str) :
    (front ++ x :: rest).flatten = front.flatten ++ (x ++ rest.flatten) := by
  rw [List.flatten_append, List.flatten_cons]

/-- The head of the loop. -/
theorem finishes_head (hchars : Characters (front ++ rest))
    (hsorted : (front ++ rest.take 1).IsChain (InOrder (classOf t version)))
    (hadvance : ∀ x y rest', rest = x :: y :: rest' →
      Finishes t version (front ++ rest) (front ++ rest).flatten front.flatten.length
        (some (front.flatten.length + x.length, codePoint x, 0))) :
    Finishes t version (front ++ rest) (front ++ rest).flatten front.flatten.length none := by
  match rest with
  | [] =>
    refine .here hchars hsorted ?_
    rw [orderLoop, if_neg]
    rw [List.append_nil]
    omega
  | x :: rest =>
    have hx := hchars.append_right.each x (List.mem_cons_self ..)
    have hpos := hx.pos
    have hread := codePointAt_char front.flatten hchars.append_right
    rw [← List.flatten_append] at hread
    have hlast : front.flatten.length + x.length - 1 + 1 = front.flatten.length + x.length := by
      omega
    match rest with
    | [] =>
      have hlen : (front ++ [x]).flatten.length = front.flatten.length + x.length := by
        rw [List.flatten_append, List.flatten_singleton, List.length_append]
      refine .here hchars hsorted ?_
      rw [orderLoop]
      split
      · rw [hread, Option.bind_eq_bind, Option.bind_some]
        simp only [hlast]
        rw [if_neg (by omega)]
      · rfl
    | y :: rest =>
      have hy := (hchars.append_right.tail.each y (List.mem_cons_self ..)).pos
      have hlen : (front ++ x :: y :: rest).flatten.length =
          front.flatten.length + (x.length + (y.length + rest.flatten.length)) := by
        rw [flatten_front, List.length_append, List.length_append, List.flatten_cons,
          List.length_append]
      refine .after 1 (fun rounds => ?_) (hadvance x y rest rfl)
      rw [orderLoop, if_pos (by omega), hread, Option.bind_eq_bind, Option.bind_some]
      simp only [hlast]
      rw [if_pos (by omega)]

/-- What the loop still has to do. -/
def work (t : MarkTables) (version : Nat) (front rest : List Str) : Nat :=
  3 * inversions (classOf t version) (front ++ rest) + rest.flatten.length

theorem codePointAt_second (hchars : Characters (front ++ x :: y :: rest)) :
    codePointAt (front ++ x :: y :: rest).flatten (front.flatten.length + x.length) =
      some (codePoint y, front.flatten.length + x.length + y.length - 1) := by
  have hread := codePointAt_char (front.flatten ++ x) hchars.append_right.tail
  rw [List.length_append, List.append_assoc] at hread
  rw [flatten_front]
  exact hread

theorem flatten_snoc (front : List Str) (x : Str) :
    (front ++ [x]).flatten.length = front.flatten.length + x.length := by
  rw [List.flatten_append, List.flatten_singleton, List.length_append]

/-- The rest of the loop for two characters. -/
theorem orderLoop_advance {c1 : Nat} (hchars : Characters (front ++ x :: y :: rest))
    (rounds : Nat) :
    orderLoop t.toUnicodeTables version (rounds + 1) (front ++ x :: y :: rest).flatten
        front.flatten.length (some (front.flatten.length + x.length, codePoint x, c1)) =
      if classOf t version y = 0 then
        orderLoop t.toUnicodeTables version rounds (front ++ x :: y :: rest).flatten
          (front ++ [x, y]).flatten.length none
      else if (if c1 = 0 then classOf t version x else c1) > classOf t version y then
        (Block.write (front ++ x :: y :: rest).flatten front.flatten.length (y ++ x)).bind
          fun s => (stepBack s front.flatten.length).bind fun pos =>
            orderLoop t.toUnicodeTables version rounds s pos none
      else if (front ++ [x, y]).flatten.length < (front ++ x :: y :: rest).flatten.length then
        orderLoop t.toUnicodeTables version rounds (front ++ x :: y :: rest).flatten
          (front ++ [x]).flatten.length
          (some ((front ++ [x]).flatten.length + y.length, codePoint y, classOf t version y))
      else some (front ++ x :: y :: rest).flatten := by
  have hx := units_codePoint (hchars.append_right.each x (List.mem_cons_self ..))
  have hychar := hchars.append_right.tail.each y (List.mem_cons_self ..)
  have hy := units_codePoint hychar
  have hpos := hychar.pos
  have hboth : (front ++ [x, y]).flatten.length =
      front.flatten.length + x.length + y.length := by
    rw [flatten_front, List.flatten_singleton, List.length_append, List.length_append,
      Nat.add_assoc]
  have hlast : front.flatten.length + x.length + y.length - 1 + 1 =
      front.flatten.length + x.length + y.length := Nat.sub_add_cancel (by omega)
  rw [orderLoop, codePointAt_second hchars, Option.bind_eq_bind, Option.bind_some, hboth,
    flatten_snoc]
  simp only [hlast, hx, hy]
  rfl

/-- Behind a character without a class the loop begins again. -/
theorem finishes_separator {c1 : Nat} (hchars : Characters (front ++ x :: y :: rest))
    (hzero : classOf t version y = 0)
    (hhead : Finishes t version (front ++ x :: y :: rest) (front ++ x :: y :: rest).flatten
      (front ++ [x, y]).flatten.length none) :
    Finishes t version (front ++ x :: y :: rest) (front ++ x :: y :: rest).flatten
      front.flatten.length (some (front.flatten.length + x.length, codePoint x, c1)) := by
  refine .after 1 (fun rounds => ?_) hhead
  rw [orderLoop_advance hchars, if_pos hzero]

/-- Two marks that are in order: on with the second one, or at the end. -/
theorem finishes_forward {c1 : Nat} (hchars : Characters (front ++ x :: y :: rest))
    (hsorted : (front ++ [x, y]).IsChain (InOrder (classOf t version)))
    (hmark : classOf t version y ≠ 0)
    (horder : ¬(if c1 = 0 then classOf t version x else c1) > classOf t version y)
    (hnext : rest ≠ [] →
      Finishes t version (front ++ x :: y :: rest) (front ++ x :: y :: rest).flatten
        (front ++ [x]).flatten.length
        (some ((front ++ [x]).flatten.length + y.length, codePoint y, classOf t version y))) :
    Finishes t version (front ++ x :: y :: rest) (front ++ x :: y :: rest).flatten
      front.flatten.length (some (front.flatten.length + x.length, codePoint x, c1)) := by
  match rest with
  | [] =>
    refine .here hchars hsorted ?_
    rw [orderLoop_advance hchars, if_neg hmark, if_neg horder, if_neg (Nat.lt_irrefl _)]
  | z :: rest =>
    have hz := (hchars.append_right.tail.tail.each z (List.mem_cons_self ..)).pos
    have hlonger : (front ++ [x, y]).flatten.length <
        (front ++ x :: y :: z :: rest).flatten.length := by
      rw [flatten_front, flatten_front]
      simp only [List.length_append, List.flatten_cons, List.flatten_nil, List.length_nil]
      omega
    refine .after 1 (fun rounds => ?_) (hnext (List.cons_ne_nil z rest))
    rw [orderLoop_advance hchars, if_neg hmark, if_neg horder, if_pos hlonger]

/-- Two marks that are not in order are exchanged, and the loop goes back. -/
theorem finishes_exchange {c1 : Nat} (hchars : Characters (front ++ x :: y :: rest))
    (hmark : classOf t version y ≠ 0)
    (horder : (if c1 = 0 then classOf t version x else c1) > classOf t version y)
    (hclass : classOf t version y < classOf t version x)
    (hback : ∀ front' middle, front = front' ++ middle → middle.flatten.length ≤ 2 →
      (middle = [] → ∀ z ∈ front.getLast?, classOf t version z = 0) →
      Finishes t version (front ++ y :: x :: rest) (front ++ y :: x :: rest).flatten
        front'.flatten.length none) :
    Finishes t version (front ++ x :: y :: rest) (front ++ x :: y :: rest).flatten
      front.flatten.length (some (front.flatten.length + x.length, codePoint x, c1)) := by
  have hwrite : Block.write (front ++ x :: y :: rest).flatten front.flatten.length (y ++ x) =
      some (front ++ y :: x :: rest).flatten := by
    have hsplit : (front ++ x :: y :: rest).flatten =
        front.flatten ++ (x ++ y) ++ rest.flatten := by
      rw [flatten_front, List.flatten_cons, List.append_assoc, List.append_assoc]
    have hsame : front.flatten.length + (y ++ x).length =
        (front.flatten ++ (x ++ y)).length := by
      simp only [List.length_append]
      omega
    have htake : (front.flatten ++ (x ++ y) ++ rest.flatten).take front.flatten.length =
        front.flatten := by
      rw [List.append_assoc, List.take_left]
    rw [Block.write, hsame, hsplit, htake, List.drop_left, if_pos (by simp), flatten_front,
      List.flatten_cons]
    simp only [List.append_assoc]
  obtain ⟨pos, more, front', middle, hpos, hfront, hmiddle, hlast, hrounds⟩ :=
    stepBack_spec t version front _ _ (flatten_front front (x :: rest) y)
      fun z hz => hchars.each z (List.mem_append_left _ hz)
  refine .reordered (reordered_swap (by omega) hclass) ?_
  refine .after (more + 1) (fun rounds => ?_) (hback front' middle hfront hmiddle hlast)
  rw [← Nat.add_assoc, orderLoop_advance hchars, if_neg hmark, if_pos horder, hwrite,
    Option.bind_some, hpos, Option.bind_some, hrounds]

/-- The loop finishes from its head and from `advance`. -/
structure LoopFinishes (t : MarkTables) (version : Nat) (front rest : List Str) : Prop where
  head : Finishes t version (front ++ rest) (front ++ rest).flatten front.flatten.length none
  advance : ∀ x y rest' c1, rest = x :: y :: rest' → c1 = 0 ∨ c1 = classOf t version x →
    Finishes t version (front ++ rest) (front ++ rest).flatten front.flatten.length
      (some (front.flatten.length + x.length, codePoint x, c1))

/-- What is in order in front of an exchange is in order behind it, as far as the loop goes back. -/
theorem sorted_back {front' middle : List Str}
    (hsorted : front.IsChain (InOrder (classOf t version))) (hfront : front = front' ++ middle)
    (hlast : middle = [] → ∀ z ∈ front.getLast?, classOf t version z = 0) (y : Str) :
    (front' ++ (middle ++ y :: rest).take 1).IsChain (InOrder (classOf t version)) := by
  cases middle with
  | nil =>
    rw [List.append_nil] at hfront
    rw [← hfront]
    refine hsorted.append (List.isChain_singleton y) fun z hz w _ => ?_
    exact .zero_left (hlast rfl z hz) w
  | cons m middle =>
    rw [hfront, ← List.singleton_append, ← List.append_assoc] at hsorted
    exact hsorted.left_of_append

/-- What one round of the loop leaves to the next ones. -/
theorem finishes_advance {c1 : Nat} (hchars : Characters (front ++ x :: y :: rest))
    (hsorted : (front ++ [x]).IsChain (InOrder (classOf t version)))
    (hc1 : c1 = 0 ∨ c1 = classOf t version x)
    (ih : ∀ front' rest', work t version front' rest' < work t version front (x :: y :: rest) →
      Characters (front' ++ rest') →
      (front' ++ rest'.take 1).IsChain (InOrder (classOf t version)) →
      LoopFinishes t version front' rest') :
    Finishes t version (front ++ x :: y :: rest) (front ++ x :: y :: rest).flatten
      front.flatten.length (some (front.flatten.length + x.length, codePoint x, c1)) := by
  have hx := (hchars.append_right.each x (List.mem_cons_self ..)).pos
  have hclass : (if c1 = 0 then classOf t version x else c1) = classOf t version x := by
    split <;> omega
  have hpair : InOrder (classOf t version) x y →
      (front ++ [x, y]).IsChain (InOrder (classOf t version)) := fun hxy => by
    refine (List.isChain_append.mpr ⟨hsorted.left_of_append, ?_, ?_⟩)
    · exact List.isChain_cons_cons.mpr ⟨hxy, List.isChain_singleton y⟩
    · exact (List.isChain_append.mp hsorted).2.2
  have hone : ∀ s : List Str, front ++ x :: s = (front ++ [x]) ++ s := fun s => by
    rw [List.append_assoc, List.singleton_append]
  have htwo : ∀ s : List Str, front ++ x :: y :: s = (front ++ [x, y]) ++ s := fun s => by
    rw [List.append_assoc, List.cons_append, List.singleton_append]
  by_cases hmark : classOf t version y = 0
  · refine finishes_separator hchars hmark ?_
    have hless : work t version (front ++ [x, y]) rest < work t version front (x :: y :: rest) := by
      rw [work, work, ← htwo, List.flatten_cons, List.flatten_cons, List.length_append,
        List.length_append]
      omega
    have hchain : ((front ++ [x, y]) ++ rest.take 1).IsChain (InOrder (classOf t version)) := by
      refine (hpair (.of_zero hmark x)).append ?_ fun z hz w _ => ?_
      · cases rest with
        | nil => exact List.isChain_nil
        | cons z rest => exact List.isChain_singleton z
      · rw [List.getLast?_append_cons, List.getLast?_cons_cons, List.getLast?_singleton,
          Option.mem_some_iff] at hz
        exact .zero_left (hz ▸ hmark) w
    rw [htwo] at hchars ⊢
    exact (ih _ _ hless hchars hchain).head
  · by_cases horder : classOf t version y < classOf t version x
    · refine finishes_exchange hchars hmark (by rw [hclass]; exact horder) horder ?_
      intro front' middle hfront hmiddle hlast
      have hback : front ++ y :: x :: rest = front' ++ (middle ++ y :: x :: rest) := by
        rw [hfront, List.append_assoc]
      have hswap : Characters (front ++ y :: x :: rest) := hchars.swap (by omega) hmark
      have hless : work t version front' (middle ++ y :: x :: rest) <
          work t version front (x :: y :: rest) := by
        have hinv : inversions (classOf t version) (front ++ y :: x :: rest) + 1 =
            inversions (classOf t version) (front ++ x :: y :: rest) :=
          inversions_swap (Nat.pos_of_ne_zero hmark) horder
        rw [work, work, ← hback, List.flatten_append]
        simp only [List.length_append, List.flatten_cons]
        omega
      rw [hback] at hswap ⊢
      exact (ih _ _ hless hswap (sorted_back hsorted.left_of_append hfront hlast y)).head
    · have hchain := hpair (.inr (Nat.le_of_not_lt horder))
      refine finishes_forward hchars hchain hmark (by omega) fun hrest => ?_
      have hless : work t version (front ++ [x]) (y :: rest) <
          work t version front (x :: y :: rest) := by
        rw [work, work, ← hone]
        simp only [List.flatten_cons, List.length_append]
        omega
      obtain ⟨z, rest', rfl⟩ := List.exists_cons_of_ne_nil hrest
      rw [hone] at hchars ⊢
      have hchain' : ((front ++ [x]) ++ (y :: z :: rest').take 1).IsChain
          (InOrder (classOf t version)) := by
        rw [← hone]
        exact hchain
      exact (ih _ _ hless hchars hchain').advance y z rest' _ rfl (.inr rfl)

/-- The loop finishes, by how much it still has to do. -/
theorem loop_finishes (n : Nat) : ∀ front rest, work t version front rest < n →
    Characters (front ++ rest) →
    (front ++ rest.take 1).IsChain (InOrder (classOf t version)) →
    LoopFinishes t version front rest := by
  induction n with
  | zero => exact fun front rest hwork => absurd hwork (Nat.not_lt_zero _)
  | succ n ih =>
    intro front rest hwork hchars hsorted
    have hadvance : ∀ x y rest' c1, rest = x :: y :: rest' →
        c1 = 0 ∨ c1 = classOf t version x →
        Finishes t version (front ++ rest) (front ++ rest).flatten front.flatten.length
          (some (front.flatten.length + x.length, codePoint x, c1)) := by
      rintro x y rest' c1 rfl hc1
      refine finishes_advance hchars hsorted hc1 fun front' rest' hless => ?_
      exact ih front' rest' (by omega)
    exact ⟨finishes_head hchars hsorted fun x y rest' hrest =>
      hadvance x y rest' 0 hrest (.inl rfl), hadvance⟩

/-- Canonical ordering ends with the characters reordered so that the classes of the marks behind
each starter are in order. -/
theorem canonicalOrder_sorts (t : MarkTables) (version : Nat) (s : Str) :
    ∃ rounds r, canonicalOrderHelper t.toUnicodeTables version rounds s 0 = some r ∧
      Reordered (classOf t version) (chars s) (chars r) ∧
      ∀ run, run <:+: chars r → (∀ x ∈ run, classOf t version x ≠ 0) →
        run.Pairwise fun x y => classOf t version x ≤ classOf t version y := by
  have hstart : ((chars s).take 1).IsChain (InOrder (classOf t version)) := by
    cases chars s with
    | nil => exact List.isChain_nil
    | cons x rest => exact List.isChain_singleton x
  have hfinish : LoopFinishes t version [] (chars s) :=
    loop_finishes _ [] (chars s) (Nat.lt_succ_self _) (characters_chars s) hstart
  obtain ⟨rounds, cs', hrun, hchars, hreordered, hsorted⟩ := hfinish.head
  rw [List.nil_append, chars_flatten] at hrun
  refine ⟨rounds, cs'.flatten, hrun, ?_, ?_⟩
  · rw [hchars.chars_eq]
    exact hreordered
  · rw [hchars.chars_eq]
    exact fun run => sorted_run hsorted

/-- Tables in which two halves of pairs are marks. -/
def surrogateMarks : UnicodeTables where
  unicodeVersion _ := 0
  combiningClass u := if u = 0xdc00 then 2 else if u = 0xd800 then 1 else 0
  decomposition _ := none
  ligature _ _ := 0

/-- Surrogates that are marks would be exchanged, and make a pair then. -/
theorem surrogateMarks_join :
    ¬∀ (t : UnicodeTables) (version : Nat) (s : Str),
      ∃ rounds r, canonicalOrderHelper t version rounds s 0 = some r ∧
        Reordered (fun x => classAt t version (codePoint x)) (chars s) (chars r) ∧
        ∀ run, run <:+: chars r → (∀ x ∈ run, classAt t version (codePoint x) ≠ 0) →
          run.Pairwise fun x y =>
            classAt t version (codePoint x) ≤ classAt t version (codePoint y) := by
  intro h
  obtain ⟨rounds, r, hrun, hreordered, -⟩ := h surrogateMarks 0 [0xdc00, 0xd800]
  have hr : r = [0xd800, 0xdc00] := by
    match rounds with
    | 0 | 1 | 2 => cases hrun
    | rounds + 3 =>
      have hpair : canonicalOrderHelper surrogateMarks 0 (rounds + 3) [0xdc00, 0xd800] 0 =
          some [0xd800, 0xdc00] := rfl
      rw [hpair, Option.some.injEq] at hrun
      exact hrun.symm
  have hlen := hreordered.perm.length_eq
  rw [hr] at hlen
  revert hlen
  decide

end

end Libpdk.Lang
