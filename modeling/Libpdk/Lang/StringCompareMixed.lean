import Libpdk.Lang.StringCompare

/-!
# Comparing the same texts in mixed encodings

For texts of bytes the four comparisons are the same on every build exactly where `Comparable`
says so (`mixed_iff`).
-/
namespace Libpdk.Lang

section

open Codecs.Character

/-- What a byte is compared by. -/
def key : CaseSensitivity → UInt8 → Nat
  | .insensitive => foldLatin1
  | .sensitive => UInt8.toNat

/-- How two texts are ordered. -/
def order (cs : CaseSensitivity) (A B : Bytes) : Ordering :=
  compare (A.map (key cs)) (B.map (key cs))

/-! ## Units with units -/

theorem compare_lencmp (m n : Nat) : compare (lencmp m n) 0 = compare m n := by
  rw [lencmp]
  rcases Nat.lt_trichotomy m n with h | h | h
  · rw [if_neg (by omega), if_neg (by omega), Nat.compare_eq_lt.mpr h]
    rfl
  · rw [if_pos h, Nat.compare_eq_eq.mpr h]
    rfl
  · rw [if_neg (by omega), if_pos h, Nat.compare_eq_gt.mpr h]
    rfl

theorem compare_orLencmp (d : Int) (m n : Nat) :
    compare (if d ≠ 0 then d else lencmp m n) 0 = (compare d 0).then (compare m n) := by
  rw [compare_orElse, compare_lencmp]

theorem compare_self (a : List Nat) : compare a a = .eq := by
  rw [← compare_differences, firstNonzero_self, Nat.compare_eq_eq.mpr rfl]
  rfl

theorem tailLoop_take (l r : Str) :
    tailLoop (l.take (min l.length r.length)) (r.take (min l.length r.length)) = tailLoop l r := by
  rw [tailLoop_eq, tailLoop_eq, numbers, numbers, List.map_take, List.map_take]
  congr 1
  conv_rhs => rw [differences, List.zipWith_eq_zipWith_take_min, List.length_map, List.length_map]
  rfl

theorem tailLoop_sign (l r : Str) :
    (compare (tailLoop l r) 0).then (compare l.length r.length) =
      compare (numbers l) (numbers r) := by
  rw [← compare_differences, tailLoop_eq, List.length_map, List.length_map]

theorem View.read_eq {α : Type} {v w : View} {memory : Nat → α} (h : v.begin = w.begin)
    (hs : v.size = w.size) : v.read memory = w.read memory := by
  rw [View.read, View.read, h, hs]

/-- With case units are compared as numbers. -/
theorem unicodeStrcmp_sign (b : Build) (m : Memory) (lhs rhs : StringView) :
    compare (unicodeStrcmp b m lhs rhs) 0 =
      compare (numbers (lhs.read m.units)) (numbers (rhs.read m.units)) := by
  rw [unicodeStrcmp]
  split
  · rename_i h
    rw [View.read_eq h.1 h.2, compare_self]
    rfl
  · have hl := lhs.length_read m.units
    have hr := rhs.length_read m.units
    have htake := tailLoop_take (lhs.read m.units) (rhs.read m.units)
    rw [hl, hr] at htake
    rw [compare_orLencmp, unicodeStrncmp_eq b m lhs rhs (Nat.min_le_left _ _)
      (Nat.min_le_right _ _), htake, ← tailLoop_sign, hl, hr]

theorem numbers_latin1 (A : Bytes) : numbers (latin1 A) = A.map (key .sensitive) := by
  simp only [numbers, latin1, List.map_map]
  exact List.map_congr_left fun c _ => UInt8.toNat_toUInt16 c

theorem foldCase32_latin1 (f : CaseFolding) (c : UInt8) (last : UInt16) :
    f.foldCase32 c.toUInt16 last = foldLatin1 c := by
  have hlow : isLowSurrogate c.toUInt16.toNat = false := by
    have hc := c.toNat_lt
    rw [isLowSurrogate, UInt8.toNat_toUInt16, and_surrogateMask (by omega), beq_eq_false_iff_ne]
    simp only [minLowSurrogate]
    omega
  rw [CaseFolding.foldCase32, hlow, Bool.false_and, if_neg (by simp), UInt8.toNat_toUInt16,
    f.latin1]

/-- A loop that compares by keys. -/
theorem compare_step (x y : Nat) (a b : List Nat) {rest : Int}
    (h : compare rest 0 = compare a b) :
    compare (if ((x : Int) - y) ≠ 0 then (x : Int) - y else rest) 0 =
      compare (x :: a) (y :: b) := by
  rw [compare_orElse, compare_sub, h, List.compare_cons_cons]

theorem stricmpLoop_sign (f : CaseFolding) : ∀ (A B : Bytes) (p q : UInt16),
    compare (stricmpLoop f p q (latin1 A) (latin1 B)) 0 = order .insensitive A B
  | [], [], _, _ => rfl
  | [], _ :: _, _, _ => rfl
  | _ :: _, [], _, _ => rfl
  | c :: A, d :: B, p, q => by
    have ih := stricmpLoop_sign f A B c.toUInt16 d.toUInt16
    show compare (if ((f.foldCase32 c.toUInt16 p : Int) - f.foldCase32 d.toUInt16 q) ≠ 0 then _
      else _) 0 = _
    rw [foldCase32_latin1, foldCase32_latin1]
    exact compare_step _ _ _ _ ih

theorem View.getElem?_read {α : Type} (v : View) (memory : Nat → α) {i : Nat} (h : i < v.size) :
    (v.read memory)[i]? = some (memory (v.begin.getD 0 + i)) := by
  rw [View.read, List.getElem?_map, List.getElem?_range h, Option.map_some]

/-- Ranges with the same beginning. -/
theorem compare_begin {α : Type} {v w : View} {memory : Nat → α} (h : v.begin = w.begin)
    (k : α → Nat) : compare ((v.read memory).map k) ((w.read memory).map k) =
      compare v.size w.size := by
  rcases firstDifference_or ((v.read memory).map k) ((w.read memory).map k) with
    ⟨i, x, y, hd⟩ | ⟨heq, -⟩
  · have hv := (List.getElem?_eq_some_iff.mp hd.left).1
    have hw := (List.getElem?_eq_some_iff.mp hd.right).1
    rw [List.length_map, View.length_read] at hv hw
    have hx := hd.left
    have hy := hd.right
    rw [List.getElem?_map, View.getElem?_read _ _ hv, h] at hx
    rw [List.getElem?_map, View.getElem?_read _ _ hw] at hy
    exact absurd (Option.some.inj (hx.symm.trans hy)) hd.ne
  · rw [heq, List.length_map, List.length_map, View.length_read, View.length_read]

/-- Without case, but for a null pointer. -/
theorem unicodeStricmp_sign (m : Memory) (f : CaseFolding) {lhs rhs : StringView} {A B : Bytes}
    (hl : lhs.read m.units = latin1 A) (hr : rhs.read m.units = latin1 B)
    (hempty : A = [] ↔ B = []) :
    compare (unicodeStricmp m f lhs rhs) 0 = order .insensitive A B := by
  have hlsize : lhs.size = A.length := by
    rw [← lhs.length_read m.units, hl, latin1, List.length_map]
  have hrsize : rhs.size = B.length := by
    rw [← rhs.length_read m.units, hr, latin1, List.length_map]
  have hnull : lhs.size = 0 ↔ rhs.size = 0 := by
    rw [hlsize, hrsize, List.length_eq_zero_iff, List.length_eq_zero_iff, hempty]
  have hboth : lhs.size = 0 → rhs.size = 0 → order .insensitive A B = .eq := by
    intro hlz hrz
    rw [hlsize, List.length_eq_zero_iff] at hlz
    rw [hrsize, List.length_eq_zero_iff] at hrz
    subst hlz hrz
    rfl
  rw [unicodeStricmp]
  split
  · rename_i hbegin
    have hfold : ∀ X : Bytes, X.map (key .insensitive) =
        (latin1 X).map fun c => foldLatin1 c.toUInt8 := by
      intro X
      simp only [latin1, List.map_map]
      exact List.map_congr_left fun c _ => by simp [key]
    rw [compare_sub, order, hfold, hfold, ← hl, ← hr, compare_begin hbegin]
  · split
    · rename_i hnone
      have hz := lhs.null hnone
      rw [hnull.mp hz, hboth hz (hnull.mp hz)]
      rfl
    · split
      · rename_i hnone
        have hz := rhs.null hnone
        rw [hnull.mpr hz, hboth (hnull.mpr hz) hz]
        rfl
      · rw [hl, hr, stricmpLoop_sign]

/-! ## Folding bytes -/

theorem latin1Lowercased_toNat (c : UInt8) : (latin1Lowercased c).toNat =
    if (0x41 ≤ c.toNat ∧ c.toNat ≤ 0x5a) ∨ (0xc0 ≤ c.toNat ∧ c.toNat ≤ 0xde ∧ c.toNat ≠ 0xd7)
      then c.toNat + 0x20 else c.toNat := by
  have hiff : (((0x41 : UInt8) ≤ c ∧ c ≤ 0x5a) ∨ (0xc0 ≤ c ∧ c ≤ 0xde ∧ c ≠ 0xd7)) ↔
      ((0x41 ≤ c.toNat ∧ c.toNat ≤ 0x5a) ∨ (0xc0 ≤ c.toNat ∧ c.toNat ≤ 0xde ∧ c.toNat ≠ 0xd7)) := by
    simp only [UInt8.le_iff_toNat_le, ne_eq, ← UInt8.toNat_inj, UInt8.reduceToNat]
  rw [latin1Lowercased]
  by_cases h : ((0x41 : UInt8) ≤ c ∧ c ≤ 0x5a) ∨ (0xc0 ≤ c ∧ c ≤ 0xde ∧ c ≠ 0xd7)
  · have h' := hiff.mp h
    rw [if_pos h, if_pos h', UInt8.toNat_add]
    simp only [UInt8.reduceToNat]
    omega
  · rw [if_neg h, if_neg (mt hiff.mpr h)]

theorem foldLatin1_eq (c : UInt8) : foldLatin1 c =
    if c.toNat = 0xb5 then 0x3bc else (latin1Lowercased c).toNat := by
  have hiff : c = 0xb5 ↔ c.toNat = 0xb5 := by
    simp only [← UInt8.toNat_inj, UInt8.reduceToNat]
  simp only [foldLatin1, hiff]

theorem foldLatin1_lt (c : UInt8) : foldLatin1 c < 0x400 := by
  have hc := c.toNat_lt
  rw [foldLatin1_eq, latin1Lowercased_toNat]
  split <;> try split
  all_goals omega

/-- What is not ASCII is not folded to ASCII, nor the other way. -/
theorem high_iff (c : UInt8) : 0x80 ≤ foldLatin1 c ↔ 0x80 ≤ c.toNat := by
  rw [foldLatin1_eq, latin1Lowercased_toNat]
  split <;> try split
  all_goals omega

/-- The table of `strnicmp` tells the same bytes apart. -/
theorem lower_inj (c d : UInt8) :
    (latin1Lowercased c).toNat = (latin1Lowercased d).toNat ↔ foldLatin1 c = foldLatin1 d := by
  have hc := c.toNat_lt
  have hd := d.toNat_lt
  rw [foldLatin1_eq, foldLatin1_eq, latin1Lowercased_toNat, latin1Lowercased_toNat]
  by_cases hmc : c.toNat = 0xb5 <;> by_cases hmd : d.toNat = 0xb5
  all_goals simp only [hmc, hmd, if_true, if_false]
  all_goals split <;> try split
  all_goals omega

/-- It orders them in the same way, but for those that are not ASCII. -/
theorem compare_lower {c d : UInt8} (h : ¬(0x80 ≤ c.toNat ∧ 0x80 ≤ d.toNat)) :
    compare (latin1Lowercased c).toNat (latin1Lowercased d).toNat =
      compare (foldLatin1 c) (foldLatin1 d) := by
  have hmicro : ∀ e : UInt8, e.toNat ≠ 0xb5 → foldLatin1 e = (latin1Lowercased e).toNat := by
    intro e he
    rw [foldLatin1_eq, if_neg he]
  by_cases hc : c.toNat = 0xb5
  · have hd : foldLatin1 d < 0x80 := by
      have := high_iff d
      omega
    rw [← hmicro d (by omega), Nat.compare_eq_gt.mpr, Nat.compare_eq_gt.mpr]
    · rw [foldLatin1_eq c, if_pos hc]
      omega
    · rw [latin1Lowercased_toNat, hc]
      simp only [show ¬((65 ≤ 181 ∧ 181 ≤ 90) ∨ (192 ≤ 181 ∧ 181 ≤ 222 ∧ 181 ≠ 215)) by omega,
        if_false]
      omega
  · by_cases hd : d.toNat = 0xb5
    · have hc' : foldLatin1 c < 0x80 := by
        have := high_iff c
        omega
      rw [← hmicro c hc, Nat.compare_eq_lt.mpr, Nat.compare_eq_lt.mpr]
      · rw [foldLatin1_eq d, if_pos hd]
        omega
      · rw [latin1Lowercased_toNat, hd]
        simp only [show ¬((65 ≤ 181 ∧ 181 ≤ 90) ∨ (192 ≤ 181 ∧ 181 ≤ 222 ∧ 181 ≠ 215)) by omega,
          if_false]
        omega
    · rw [hmicro c hc, hmicro d hd]

/-! ## Units with bytes, without case -/

/-- What a byte is compared by where it is extended with its sign. -/
def byteKey (b : Build) (d : UInt8) : Nat :=
  if b.signedChar = true ∧ 0x80 ≤ d.toNat then 0xff00 + d.toNat else foldLatin1 d

theorem foldCase16_latin1 (f : CaseFolding) (c : UInt8) :
    (f.foldCase16 c.toUInt16).toNat = foldLatin1 c := by
  have hlt := foldLatin1_lt c
  rw [CaseFolding.foldCase16, UInt8.toNat_toUInt16, f.latin1, UInt16.toNat_ofNat']
  omega

theorem foldCase16_char (f : CaseFolding) (b : Build) (d : UInt8) :
    (f.foldCase16 (charToChar16 b d)).toNat = byteKey b d := by
  have hd := d.toNat_lt
  have hiff : (0x80 : UInt8) ≤ d ↔ 0x80 ≤ d.toNat := UInt8.le_iff_toNat_le
  simp only [charToChar16, byteKey, hiff]
  by_cases h : b.signedChar = true ∧ 0x80 ≤ d.toNat
  · have hnat : ((0xff00 : UInt16) + d.toUInt16).toNat = 0xff00 + d.toNat := by
      rw [UInt16.toNat_add, UInt8.toNat_toUInt16]
      simp only [UInt16.reduceToNat]
      omega
    rw [if_pos h, if_pos h, CaseFolding.foldCase16, hnat, f.halfwidth _ (by omega) (by omega),
      UInt16.toNat_ofNat']
    omega
  · rw [if_neg h, if_neg h, foldCase16_latin1]

theorem stricmpLatin1Loop_sign (b : Build) (f : CaseFolding) : ∀ A B : Bytes,
    compare (stricmpLatin1Loop b f (latin1 A) B) 0 =
      compare (A.map foldLatin1) (B.map (byteKey b))
  | [], [] => rfl
  | [], _ :: _ => rfl
  | _ :: _, [] => rfl
  | c :: A, d :: B => by
    have ih := stricmpLatin1Loop_sign b f A B
    show compare (if (((f.foldCase16 c.toUInt16).toNat : Int) -
      (f.foldCase16 (charToChar16 b d)).toNat) ≠ 0 then _ else _) 0 = _
    rw [foldCase16_latin1, foldCase16_char]
    exact compare_step _ _ _ _ ih

theorem unicodeStricmpLatin1_sign (b : Build) (m : Memory) (f : CaseFolding) {lhs : StringView}
    {rhs : Latin1String} {A B : Bytes} (hl : lhs.read m.units = latin1 A)
    (hr : rhs.read m.bytes = B) (hempty : A = [] ↔ B = []) :
    compare (unicodeStricmpLatin1 b m f lhs rhs) 0 =
      compare (A.map foldLatin1) (B.map (byteKey b)) := by
  have hlsize : lhs.size = A.length := by
    rw [← lhs.length_read m.units, hl, latin1, List.length_map]
  have hrsize : rhs.size = B.length := by
    rw [← rhs.length_read m.bytes, hr]
  have hnull : lhs.size = 0 ↔ rhs.size = 0 := by
    rw [hlsize, hrsize, List.length_eq_zero_iff, List.length_eq_zero_iff, hempty]
  have hboth : lhs.size = 0 → rhs.size = 0 →
      compare (A.map foldLatin1) (B.map (byteKey b)) = .eq := by
    intro hlz hrz
    rw [hlsize, List.length_eq_zero_iff] at hlz
    rw [hrsize, List.length_eq_zero_iff] at hrz
    rw [hlz, hrz]
    rfl
  rw [unicodeStricmpLatin1]
  split
  · rename_i hnone
    have hz := lhs.null hnone
    rw [hnull.mp hz, hboth hz (hnull.mp hz)]
    rfl
  · split
    · rename_i hnone
      have hz := rhs.null hnone
      rw [hnull.mpr hz, hboth (hnull.mpr hz) hz]
      rfl
    · rw [hl, hr, stricmpLatin1Loop_sign]

/-- No two bytes that are not ASCII stand behind text that is the same without case. -/
def NoHigh (A B : Bytes) : Prop :=
  ∀ i c d, A[i]? = some c → B[i]? = some d → 0x80 ≤ c.toNat → 0x80 ≤ d.toNat →
    (A.take i).map foldLatin1 ≠ (B.take i).map foldLatin1

theorem NoHigh.head {c d : UInt8} {A B : Bytes} (h : NoHigh (c :: A) (d :: B)) :
    ¬(0x80 ≤ c.toNat ∧ 0x80 ≤ d.toNat) := fun hcd => h 0 c d rfl rfl hcd.1 hcd.2 rfl

theorem NoHigh.tail {c d : UInt8} {A B : Bytes} (h : NoHigh (c :: A) (d :: B))
    (hcd : foldLatin1 c = foldLatin1 d) : NoHigh A B := by
  intro i x y hx hy hxh hyh hsame
  refine h (i + 1) x y (by simpa using hx) (by simpa using hy) hxh hyh ?_
  rw [List.take_succ_cons, List.take_succ_cons, List.map_cons, List.map_cons, hcd, hsame]

theorem compare_byteKey (b : Build) : ∀ {A B : Bytes}, NoHigh A B →
    compare (A.map foldLatin1) (B.map (byteKey b)) = order .insensitive A B
  | [], [], _ => rfl
  | [], _ :: _, _ => rfl
  | _ :: _, [], _ => rfl
  | c :: A, d :: B, h => by
    have hhead := h.head
    show compare (foldLatin1 c :: A.map foldLatin1) (byteKey b d :: B.map (byteKey b)) =
      compare (foldLatin1 c :: A.map foldLatin1) (foldLatin1 d :: B.map foldLatin1)
    rw [List.compare_cons_cons, List.compare_cons_cons]
    by_cases hd : 0x80 ≤ d.toNat
    · -- the other one is ASCII, and less by either key
      have hc : foldLatin1 c < 0x80 := by
        have := high_iff c
        omega
      have hfold : 0x80 ≤ foldLatin1 d := (high_iff d).mpr hd
      have hbyte : 0x80 ≤ byteKey b d := by
        rw [byteKey]
        split <;> omega
      rw [Nat.compare_eq_lt.mpr (by omega : foldLatin1 c < byteKey b d),
        Nat.compare_eq_lt.mpr (by omega : foldLatin1 c < foldLatin1 d)]
      rfl
    · have hbyte : byteKey b d = foldLatin1 d := by
        rw [byteKey, if_neg (by omega)]
      rw [hbyte]
      cases hc : compare (foldLatin1 c) (foldLatin1 d) with
      | lt => rfl
      | gt => rfl
      | eq =>
        rw [Ordering.eq_then, Ordering.eq_then,
          compare_byteKey b (h.tail (Nat.compare_eq_eq.mp hc))]
        rfl

/-- With a signed `char` the bytes are less at such a place. -/
theorem compare_byteKey_lt {b : Build} (hb : b.signedChar = true) {i : Nat} {c d : UInt8} :
    ∀ {A B : Bytes}, A[i]? = some c → B[i]? = some d → 0x80 ≤ c.toNat → 0x80 ≤ d.toNat →
    (A.take i).map foldLatin1 = (B.take i).map foldLatin1 →
    compare (A.map foldLatin1) (B.map (byteKey b)) = .lt := by
  induction i with
  | zero =>
    intro A B hA hB hc hd _
    cases A with
    | nil => cases hA
    | cons x A =>
      cases B with
      | nil => cases hB
      | cons y B =>
        obtain rfl : x = c := by simpa using hA
        obtain rfl : y = d := by simpa using hB
        have hlt : foldLatin1 x < byteKey b y := by
          have := foldLatin1_lt x
          rw [byteKey, if_pos ⟨hb, hd⟩]
          omega
        rw [List.map_cons, List.map_cons, List.compare_cons_cons, Nat.compare_eq_lt.mpr hlt]
        rfl
  | succ i ih =>
    intro A B hA hB hc hd hsame
    cases A with
    | nil => cases hA
    | cons x A =>
      cases B with
      | nil => cases hB
      | cons y B =>
        simp only [List.take_succ_cons, List.map_cons, List.cons.injEq] at hsame
        rw [List.map_cons, List.map_cons, List.compare_cons_cons]
        by_cases hy : 0x80 ≤ y.toNat
        · have hlt : foldLatin1 x < byteKey b y := by
            have := foldLatin1_lt x
            rw [byteKey, if_pos ⟨hb, hy⟩]
            omega
          rw [Nat.compare_eq_lt.mpr hlt]
          rfl
        · have hbyte : byteKey b y = foldLatin1 y := by
            rw [byteKey, if_neg (by omega)]
          rw [hbyte, hsame.1, Nat.compare_eq_eq.mpr rfl, Ordering.eq_then]
          exact ih (by simpa using hA) (by simpa using hB) hc hd hsame.2

end

/-!
## The order of strings

With case `String::compare` is the order of the units. Without case it compares what the units
are folded to, each by what is before it; but a null string is greater than each that is not
empty. So it is a preorder of the strings of a set, with the null string as an empty one, where
the set has no null string or no other than empty ones (`stringCompare_preorder_iff`).
-/

open Codecs.Character

/-- What a unit is folded to, by the unit before it: a code point, so that differences are of
type `int`. -/
abbrev Folding := UInt16 → UInt16 → Nat

/-! ## The comparison -/

/-- mirrors lang/String.cpp:172-192 -/
def foldingLoop (fold : Folding) : UInt16 → UInt16 → Str → Str → Int
  | lhsLast, rhsLast, c :: lhs, d :: rhs =>
    let diff := (fold c lhsLast : Int) - fold d rhsLast
    if diff ≠ 0 then diff else foldingLoop fold c d lhs rhs
  | _, _, [], [] => 0
  | _, _, [], _ :: _ => -1
  | _, _, _ :: _, [] => 1

/-- mirrors lang/String.cpp:160-193 -/
def foldingStricmp (m : Memory) (fold : Folding) (lhs rhs : StringView) : Int :=
  if lhs.begin = rhs.begin then (lhs.size : Int) - rhs.size
  else if lhs.begin = none then rhs.size
  else if rhs.begin = none then -lhs.size
  else foldingLoop fold 0 0 (lhs.read m.units) (rhs.read m.units)

/-- `String::compare`, of which a null string is a null pointer.
mirrors lang/String.cpp:413-419, 2541-2544 -/
def stringCompare (b : Build) (m : Memory) (fold : Folding) (cs : CaseSensitivity)
    (lhs rhs : StringView) : Int :=
  match cs with
  | .sensitive => unicodeStrcmp b m lhs rhs
  | .insensitive => foldingStricmp m fold lhs rhs

section

variable (b : Build) (m : Memory)

/-! ## Keys -/

/-- What the units of a string are folded to. -/
def foldKeys (fold : Folding) : UInt16 → Str → List Nat
  | _, [] => []
  | last, c :: s => fold c last :: foldKeys fold c s

/-- What a string is compared by. -/
def stringKeys (fold : Folding) (cs : CaseSensitivity) (s : StringView) : List Nat :=
  match cs with
  | .sensitive => numbers (s.read m.units)
  | .insensitive => foldKeys fold 0 (s.read m.units)

variable {m} {fold : Folding} {cs : CaseSensitivity}

theorem foldKeys_append (s t : Str) (last : UInt16) :
    ∃ keys, foldKeys fold last (s ++ t) = foldKeys fold last s ++ keys ∧
      keys.length = t.length := by
  induction s generalizing last with
  | nil =>
    refine ⟨foldKeys fold last t, rfl, ?_⟩
    induction t generalizing last with
    | nil => rfl
    | cons c t ih => rw [foldKeys, List.length_cons, ih c, List.length_cons]
  | cons c s ih =>
    obtain ⟨keys, heq, hlen⟩ := ih c
    refine ⟨keys, ?_, hlen⟩
    rw [List.cons_append, foldKeys, heq, foldKeys, List.cons_append]

variable (fold cs) in
/-- Keys of a text that goes on. -/
theorem stringKeys_append {s t : StringView} {rest : Str}
    (h : t.read m.units = s.read m.units ++ rest) :
    ∃ keys, stringKeys m fold cs t = stringKeys m fold cs s ++ keys ∧
      keys.length = rest.length := by
  cases cs with
  | sensitive =>
    refine ⟨numbers rest, ?_, List.length_map _⟩
    rw [stringKeys, stringKeys, h, numbers, List.map_append]
  | insensitive =>
    rw [stringKeys, stringKeys, h]
    exact foldKeys_append _ _ 0

theorem stringKeys_empty {s : StringView} (h : s.size = 0) : stringKeys m fold cs s = [] := by
  have hread : s.read m.units = [] := List.length_eq_zero_iff.mp (by rw [View.length_read, h])
  cases cs with
  | sensitive => rw [stringKeys, hread]; rfl
  | insensitive => rw [stringKeys, hread]; rfl

theorem compare_append (a keys : List Nat) : compare a (a ++ keys) = compare 0 keys.length := by
  induction a with
  | nil => cases keys <;> rfl
  | cons x a ih =>
    rw [List.cons_append, List.compare_cons_cons, Nat.compare_eq_eq.mpr rfl, ← ih]
    rfl

theorem compare_append_swap (a keys : List Nat) :
    compare (a ++ keys) a = compare keys.length 0 := by
  rw [Std.OrientedOrd.eq_swap, compare_append]
  exact Std.OrientedOrd.eq_swap.symm

theorem foldingLoop_sign : ∀ (l r : Str) (p q : UInt16),
    compare (foldingLoop fold p q l r) 0 = compare (foldKeys fold p l) (foldKeys fold q r)
  | [], [], _, _ => rfl
  | [], _ :: _, _, _ => rfl
  | _ :: _, [], _, _ => rfl
  | c :: l, d :: r, _, _ => compare_step _ _ _ _ (foldingLoop_sign l r c d)

theorem View.read_append {α : Type} {v w : View} (memory : Nat → α) (h : v.begin = w.begin)
    (hs : v.size ≤ w.size) : ∃ rest, w.read memory = v.read memory ++ rest ∧
      rest.length = w.size - v.size := by
  refine ⟨(List.range' v.size (w.size - v.size)).map fun i => memory (w.begin.getD 0 + i), ?_, ?_⟩
  · have hrange : List.range' 0 v.size ++ List.range' (0 + v.size) (w.size - v.size) =
        List.range' 0 w.size := by
      rw [List.range'_append_1, Nat.add_sub_cancel' hs]
    rw [Nat.zero_add] at hrange
    rw [View.read, View.read, h, ← List.map_append, List.range_eq_range', List.range_eq_range',
      hrange]
  · rw [List.length_map, List.length_range']

/-- Strings of the same beginning differ in their lengths. -/
theorem stringKeys_begin {s t : StringView} (h : s.begin = t.begin) :
    compare ((s.size : Int) - t.size) 0 =
      compare (stringKeys m fold cs s) (stringKeys m fold cs t) := by
  rw [compare_sub]
  rcases Nat.le_total s.size t.size with hle | hle
  · obtain ⟨rest, hread, hrest⟩ := View.read_append m.units h hle
    obtain ⟨keys, hkeys, hlen⟩ := stringKeys_append fold cs hread
    rw [hkeys, compare_append, hlen, hrest, ← compare_sub, ← compare_sub]
    congr 1
    omega
  · obtain ⟨rest, hread, hrest⟩ := View.read_append m.units h.symm hle
    obtain ⟨keys, hkeys, hlen⟩ := stringKeys_append fold cs hread
    rw [hkeys, compare_append_swap, hlen, hrest, ← compare_sub, ← compare_sub]
    congr 1
    omega

/-- Neither of the strings is null where the other one has units. -/
def Alike (cs : CaseSensitivity) (s t : StringView) : Prop :=
  cs = .sensitive ∨ ((s.begin = none → t.size = 0) ∧ (t.begin = none → s.size = 0))

/-- Strings are compared by their keys. -/
theorem stringCompare_sign {s t : StringView} (h : Alike cs s t) :
    compare (stringCompare b m fold cs s t) 0 =
      compare (stringKeys m fold cs s) (stringKeys m fold cs t) := by
  cases cs with
  | sensitive => exact unicodeStrcmp_sign b m s t
  | insensitive =>
    rcases h with h | ⟨hs, ht⟩
    · cases h
    show compare (foldingStricmp m fold s t) 0 = _
    rw [foldingStricmp]
    by_cases hbegin : s.begin = t.begin
    · rw [if_pos hbegin, stringKeys_begin hbegin]
    rw [if_neg hbegin]
    by_cases hsnull : s.begin = none
    · rw [if_pos hsnull, hs hsnull, stringKeys_empty (s.null hsnull), stringKeys_empty (hs hsnull)]
      rfl
    rw [if_neg hsnull]
    by_cases htnull : t.begin = none
    · rw [if_pos htnull, ht htnull, stringKeys_empty (t.null htnull), stringKeys_empty (ht htnull)]
      rfl
    rw [if_neg htnull, foldingLoop_sign]
    rfl

/-- A null string without case: the sign is that of the other one's length. -/
theorem stringCompare_null {s t : StringView} (hs : s.begin = none) (ht : t.size ≠ 0) :
    stringCompare b m fold .insensitive s t = t.size := by
  have hbegin : s.begin ≠ t.begin := fun heq => ht (t.null (heq ▸ hs))
  show foldingStricmp m fold s t = _
  rw [foldingStricmp, if_neg hbegin, if_pos hs]

/-! ## The preorder -/

/-- A total preorder of the strings of a set, in which a proper beginning is smaller, a null
string is as an empty one, and with case the order is that of the units. -/
structure Preordered (b : Build) (m : Memory) (fold : Folding) (cs : CaseSensitivity)
    (D : StringView → Prop) : Prop where
  refl : ∀ s, D s → stringCompare b m fold cs s s = 0
  antisymm : ∀ s t, D s → D t → compare (stringCompare b m fold cs s t) 0 =
    (compare (stringCompare b m fold cs t s) 0).swap
  trans : ∀ s t u, D s → D t → D u → stringCompare b m fold cs s t ≤ 0 →
    stringCompare b m fold cs t u ≤ 0 → stringCompare b m fold cs s u ≤ 0
  beginning : ∀ s t, D s → D t → ∀ rest ≠ [], t.read m.units = s.read m.units ++ rest →
    stringCompare b m fold cs s t < 0
  null : ∀ s t u, D s → D t → D u → s.begin = none → t.size = 0 →
    compare (stringCompare b m fold cs s u) 0 = compare (stringCompare b m fold cs t u) 0
  lexicographic : cs = .sensitive → ∀ s t, D s → D t →
    compare (stringCompare b m fold cs s t) 0 =
      compare (numbers (s.read m.units)) (numbers (t.read m.units))

theorem le_zero_iff (d : Int) : d ≤ 0 ↔ (compare d 0).isLE = true := by
  rw [Int.isLE_compare]

theorem Preordered.of_alike {D : StringView → Prop} (h : ∀ s t, D s → D t → Alike cs s t) :
    Preordered b m fold cs D where
  refl := by
    intro s hs
    have hsign : compare (stringCompare b m fold cs s s) 0 = _ :=
      stringCompare_sign b (h s s hs hs)
    rw [compare_self, Int.compare_eq_eq] at hsign
    exact hsign
  antisymm := by
    intro s t hs ht
    rw [stringCompare_sign b (h s t hs ht), stringCompare_sign b (h t s ht hs)]
    exact Std.OrientedOrd.eq_swap
  trans := by
    intro s t u hs ht hu hst htu
    rw [le_zero_iff, stringCompare_sign b (h s t hs ht)] at hst
    rw [le_zero_iff, stringCompare_sign b (h t u ht hu)] at htu
    rw [le_zero_iff, stringCompare_sign b (h s u hs hu)]
    exact Std.TransOrd.isLE_trans hst htu
  beginning := by
    intro s t hs ht rest hrest hread
    obtain ⟨keys, hkeys, hlen⟩ := stringKeys_append fold cs hread
    have hpos := List.length_pos_of_ne_nil hrest
    rw [← Int.compare_eq_lt, stringCompare_sign b (h s t hs ht), hkeys, compare_append, hlen,
      Nat.compare_eq_lt]
    exact hpos
  null := by
    intro s t u hs ht hu hnull hempty
    rw [stringCompare_sign b (h s u hs hu), stringCompare_sign b (h t u ht hu),
      stringKeys_empty (s.null hnull), stringKeys_empty hempty]
  lexicographic := by
    rintro rfl s t hs ht
    exact stringCompare_sign b (h s t hs ht)

/-- Without case the order is one where no null string meets one with units. -/
theorem stringCompare_preorder_iff (b : Build) (m : Memory) (fold : Folding)
    (cs : CaseSensitivity) (D : StringView → Prop) :
    Preordered b m fold cs D ↔
      cs = .sensitive ∨ (∀ s, D s → s.begin ≠ none) ∨ (∀ s, D s → s.size = 0) := by
  constructor
  · intro h
    cases cs with
    | sensitive => exact .inl rfl
    | insensitive =>
      refine .inr ?_
      by_contra hnot
      rw [not_or] at hnot
      obtain ⟨hnull, hunits⟩ := hnot
      simp only [not_forall, not_not] at hnull hunits
      obtain ⟨s, hs, hsnull⟩ := hnull
      obtain ⟨t, ht, htunits⟩ := hunits
      have hread : s.read m.units = [] :=
        List.length_eq_zero_iff.mp (by rw [View.length_read, s.null hsnull])
      have hne : t.read m.units ≠ [] := by
        intro hnil
        apply htunits
        rw [← t.length_read m.units, hnil, List.length_nil]
      -- the null string is a beginning of the other one
      have hless := h.beginning s t hs ht (t.read m.units) hne (by rw [hread, List.nil_append])
      rw [stringCompare_null b hsnull htunits] at hless
      omega
  · intro h
    apply Preordered.of_alike
    intro s t hs ht
    rcases h with rfl | hnull | hempty
    · exact .inl rfl
    · exact .inr ⟨fun hnone => absurd hnone (hnull s hs), fun hnone => absurd hnone (hnull t ht)⟩
    · exact .inr ⟨fun _ => hempty t ht, fun _ => hempty s hs⟩

end

/-- A null string and "a" -/
theorem null_greater :
    ¬ ∀ (b : Build) (m : Memory) (fold : Folding) (cs : CaseSensitivity),
      Preordered b m fold cs fun _ => True := by
  intro hall
  have h := hall ⟨true, true, true, false, true⟩ ⟨fun _ => 0x61, fun _ => 0x61⟩
    (fun c _ => c.toNat) .insensitive
  have hless := h.beginning ⟨none, 0, fun _ => rfl⟩ ⟨some 0, 1, fun hn => nomatch hn⟩ trivial
    trivial [0x61] (by decide) rfl
  revert hless
  decide

end Libpdk.Lang
