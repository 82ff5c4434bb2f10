import Libpdk.Ds.ByteArraySearch
import Libpdk.Lang.StringSearchFromEnd

/-!
# The edges of byte searches

A search is safe where it reads nothing outside of the array, returns a place at which there is
room for what it looks for, and does so in each overload. For each length of the needle the starts
where it is are known (`safe_iff`).
-/
namespace Libpdk.Ds.ByteArraySearch

/-- -1, or a place at which the array has room for the needle. -/
def Lies (h needle : Chars) (r : Int) : Prop := r = -1 ∨ 0 ≤ r ∧ r + needle.size ≤ h.size

structure Safe (h needle : Chars) (start : Int32) : Prop where
  front : ∃ r, indexOf h needle start = some r ∧ Lies h needle r
  back : ∃ r, lastIndexOf h needle start = some r ∧ Lies h needle r
  text : ∀ str : CString, str.chars = needle →
    indexOfText h str start = indexOf h needle start ∧
      lastIndexOfText h str start = lastIndexOf h needle start
  char : ∀ c, needle.val = [c] →
    indexOfChar h c start = indexOf h needle start ∧
      lastIndexOfChar h c start = lastIndexOf h needle start

/-- An empty needle is searched from a byte of the array; one byte from anywhere but the end; a
longer needle is not longer than the array if it is searched from a place of it, and a start in
front of the array is so far away that the needle does not reach it, or so near that it does not
end in it, or is searched with a table. -/
def Inside (h needle : Chars) (start : Int32) : Prop :=
  let l : Int := h.size
  let sl : Int := needle.size
  let start := start.toInt
  if sl = 0 then 0 ≤ start ∧ start < l
  else if sl = 1 then start ≠ l
  else ¬(0 ≤ start ∧ start ≤ l ∧ l < sl) ∧
    (0 ≤ start + l ∨ sl + (start + l) < 0 ∨ 0 < sl + start ∨ l = 0 ∨ (l > 500 ∧ sl > 5))

instance (h needle : Chars) (start : Int32) : Decidable (Inside h needle start) := by
  unfold Inside
  infer_instance

variable {h needle : Chars} {start : Int32}

theorem lies_of_occursAt {j : Nat} (hat : OccursAt needle.val h.val j) : Lies h needle j := by
  have hle := hat.le
  exact .inr ⟨by omega, by rw [Chars.size, Chars.size]; omega⟩

theorem lies_of_firstFrom {place : Nat} {r : Int}
    (hfirst : FirstFrom (OccursAt needle.val h.val) place r) : Lies h needle r := by
  cases hfirst with
  | found _ hat _ => exact lies_of_occursAt hat
  | none _ => exact .inl rfl

theorem lies_of_lastUpTo {place r : Int} (hlast : LastUpTo (OccursAt needle.val h.val) place r) :
    Lies h needle r := by
  cases hlast with
  | found _ hat _ => exact lies_of_occursAt hat
  | none _ => exact .inl rfl

/-! ## From the back -/

theorem lastCharLoop_last (h : Bytes) (c : UInt8) : ∀ n : Nat, n ≤ h.length →
    ∃ r, lastCharLoop h c n = some r ∧ LastUpTo (OccursAt [c] h) ((n : Int) - 1) r
  | 0, _ => ⟨-1, rfl, .none fun j hj => by omega⟩
  | n + 1, hn => by
    obtain ⟨x, hx⟩ := getElem?_isSome (s := h) (i := n) (by omega)
    have hlast : ((n + 1 : Nat) : Int) - 1 = n := by omega
    rw [lastCharLoop, elementAt_nat, hx, hlast, Option.bind_eq_bind, Option.bind_some]
    by_cases hc : x = c
    · exact ⟨n, if_pos hc, .here (occursAt_singleton.mpr (by rw [hx, hc]))⟩
    · obtain ⟨r, hr, hup⟩ := lastCharLoop_last h c n (by omega)
      refine ⟨r, (if_neg hc).trans hr, hup.skip (by omega) fun j hj hj' hat => ?_⟩
      obtain rfl : j = n := by omega
      rw [occursAt_singleton, hx, Option.some.injEq] at hat
      exact hc hat

theorem sameBack_eq {h needle : Bytes} {i : Nat} (hi : i + needle.length ≤ h.length) :
    ∃ same, sameBack h needle (RollingHash.hash (words needle).reverse)
        (RollingHash.hash (RollingHash.window (words h) i needle.length).reverse) i = some same ∧
      (same = true ↔ OccursAt needle h i) := by
  rw [sameBack]
  by_cases hhash : RollingHash.hash (RollingHash.window (words h) i needle.length).reverse =
      RollingHash.hash (words needle).reverse
  · rw [if_pos hhash]
    exact sameBytes_eq hi
  · refine ⟨false, if_neg hhash, Bool.noConfusion, fun hat => absurd ?_ hhash⟩
    rw [hash_of_occursAt hat]

/-- From a byte at which the needle has room its last occurrence up to there is found. -/
theorem lastWindow_last {h needle : Bytes} (hfits : needle.length < 2 ^ 31) {start : Nat}
    (hlt : start < h.length) (hin : start + needle.length ≤ h.length) :
    ∃ r, lastWindow h needle start = some r ∧ LastUpTo (OccursAt needle h) start r := by
  have hneedle : RollingHash.hashBack (words needle) 0 needle.length 0 =
      some (RollingHash.hash (words needle).reverse) := by
    have heq := RollingHash.hashBack_eq (words needle) 0 needle.length 0 (by simp)
    rw [window_words, List.drop_zero, List.take_length] at heq
    exact heq
  have hhay := RollingHash.hashBack_eq (words h) start needle.length 0 (by simpa using hin)
  obtain ⟨first, hfirst⟩ := getElem?_isSome (s := words h) (i := start) (by rwa [length_words])
  have hcount : ((start : Int) + 1).toNat = start + 1 := by omega
  obtain ⟨r, hr, hlast⟩ := RollingHash.slideBack_last (words h) needle.length
    (minusOne needle.length) (sameBack h needle (RollingHash.hash (words needle).reverse))
    (P := OccursAt needle h)
    (fun n hn => by rw [minusOne]; omega)
    (fun hzero i hi => by
      rw [length_words] at hi
      rwa [List.length_eq_zero_iff.mp hzero, occursAt_nil])
    (fun i hi => sameBack_eq (by rwa [length_words] at hi))
    (start + 1)
    (RollingHash.hash (RollingHash.window (words h) start needle.length).reverse - first) (by
      rintro i hi
      obtain rfl : start = i := by omega
      exact ⟨by rwa [length_words], first, hfirst, BitVec.sub_add_cancel _ _⟩)
  have hplace : ((start + 1 : Nat) : Int) - 1 = start := by omega
  rw [hplace] at hlast
  refine ⟨r, ?_, hlast⟩
  rw [lastWindow, hneedle, hhay, elementAt_nat, hfirst, hcount]
  exact hr

theorem lastWindow_neg {h needle : Bytes} {start : Int} (hstart : start < 0)
    (hpos : 0 < needle.length) : lastWindow h needle start = none := by
  obtain ⟨n, hn⟩ : ∃ n, needle.length = n + 1 := ⟨needle.length - 1, by omega⟩
  rw [lastWindow, hn, RollingHash.hashBack_neg hstart]
  cases RollingHash.hashBack (words needle) 0 (n + 1) 0 <;> rfl

/-- At the end there is no byte to take off the hash. -/
theorem lastWindow_end (h : Bytes) : lastWindow h [] h.length = none := by
  have hnone : elementAt (words h) h.length = none := by
    rw [elementAt_nat, List.getElem?_eq_none (by rw [length_words])]
  rw [lastWindow, hnone]
  rfl

/-- Where the window begins that is looked at first. -/
theorem lastIndexOfHelper_eq {place : Nat} {start : Int}
    (hplace : (if start < 0 then (h.size : Int) - needle.size else start) = place)
    (hle : place ≤ h.size) : lastIndexOfHelper h needle start =
      lastWindow h.val needle.val
        (if (place : Int) > h.size - needle.size then (h.size : Int) - needle.size else place) := by
  simp only [lastIndexOfHelper, hplace]
  rw [if_neg (by omega)]

theorem lastIndexOfHelper_refused {start : Int}
    (hstart : (if start < 0 then (h.size : Int) - needle.size else start) < 0 ∨ start > h.size) :
    lastIndexOfHelper h needle start = some (-1) := by
  simp only [lastIndexOfHelper]
  rw [if_pos]
  rcases hstart with hneg | hbehind
  · exact .inl hneg
  · right
    rw [if_neg (by omega)]
    exact hbehind

theorem lastWindow_lies {place : Nat} (hlt : place < h.size)
    (hin : place + needle.size ≤ h.size) :
    ∃ r, lastWindow h.val needle.val place = some r ∧ Lies h needle r := by
  obtain ⟨r, hr, hlast⟩ := lastWindow_last needle.property hlt hin
  exact ⟨r, hr, lies_of_lastUpTo hlast⟩

/-- The empty needle is searched from a byte, or from behind the end, where it is refused. -/
theorem lastIndexOf_nil (hnil : needle.size = 0) :
    (∃ r, lastIndexOf h needle start = some r ∧ Lies h needle r) ↔
      (0 ≤ start.toInt ∧ start.toInt < h.size) ∨ start.toInt > h.size := by
  have hempty : needle.val = [] := List.length_eq_zero_iff.mp hnil
  rw [lastIndexOf, if_neg (by omega)]
  by_cases hbehind : start.toInt > h.size
  · exact iff_of_true ⟨-1, lastIndexOfHelper_refused (.inr hbehind), .inl rfl⟩ (.inr hbehind)
  by_cases hbyte : 0 ≤ start.toInt ∧ start.toInt < h.size
  · obtain ⟨place, hplace⟩ := Int.eq_ofNat_of_zero_le hbyte.1
    refine iff_of_true ?_ (.inl hbyte)
    have hfrom : (if start.toInt < 0 then (h.size : Int) - needle.size else start.toInt) =
        place := by
      rw [if_neg (by omega), hplace]
    rw [lastIndexOfHelper_eq hfrom (by omega), if_neg (by omega)]
    exact lastWindow_lies (by omega) (by omega)
  · refine iff_of_false ?_ (by omega)
    rintro ⟨r, hr, -⟩
    have hend : (if start.toInt < 0 then (h.size : Int) - needle.size else start.toInt) =
        (h.size : Nat) := by
      split <;> omega
    rw [lastIndexOfHelper_eq hend (Nat.le_refl _), if_neg (by omega), hempty, Chars.size,
      lastWindow_end] at hr
    cases hr

theorem lastIndexOf_one (hone : needle.size = 1) :
    (∃ r, lastIndexOf h needle start = some r ∧ Lies h needle r) ↔ start.toInt ≠ h.size := by
  obtain ⟨c, hc⟩ := List.length_eq_one_iff.mp hone
  have heq : lastIndexOf h needle start = lastIndexOfChar h c start := by
    rw [lastIndexOf, if_pos hone, elementAt_singleton hc]
    rfl
  obtain ⟨place, hplace⟩ : ∃ place, place = if start.toInt < 0 then start.toInt + h.size
    else if start.toInt > h.size then (h.size : Int) - 1 else start.toInt := ⟨_, rfl⟩
  have hcases : (start.toInt = h.size ∧ place = h.size) ∨
      (start.toInt ≠ h.size ∧ place < h.size) := by
    split at hplace
    · omega
    · split at hplace <;> omega
  rw [heq, lastIndexOfChar, ← hplace]
  rcases hcases with ⟨hend, hlast⟩ | ⟨hne, hlt⟩
  · refine iff_of_false ?_ (by omega)
    rintro ⟨r, hr, -⟩
    have hnone : elementAt h.val (h.size : Nat) = none := by
      rw [elementAt_nat, Chars.size, List.getElem?_eq_none (Nat.le_refl _)]
    rw [hlast, if_pos (by omega), Int.toNat_natCast, lastCharLoop, hnone] at hr
    cases hr
  · refine iff_of_true ?_ hne
    by_cases hpos : place ≥ 0
    · obtain ⟨r, hr, hup⟩ := lastCharLoop_last h.val c (place.toNat + 1)
        (by rw [← Chars.size]; omega)
      rw [← hc] at hup
      exact ⟨r, (if_pos hpos).trans hr, lies_of_lastUpTo hup⟩
    · exact ⟨-1, if_neg hpos, .inl rfl⟩

theorem lastIndexOf_long (hlong : 2 ≤ needle.size) :
    (∃ r, lastIndexOf h needle start = some r ∧ Lies h needle r) ↔
      ¬(0 ≤ start.toInt ∧ start.toInt ≤ h.size ∧ (h.size : Int) < needle.size) := by
  rw [lastIndexOf, if_neg (by omega)]
  by_cases hbehind : start.toInt > h.size
  · exact iff_of_true ⟨-1, lastIndexOfHelper_refused (.inr hbehind), .inl rfl⟩ (by omega)
  by_cases hshort : (needle.size : Int) ≤ h.size
  · refine iff_of_true ?_ (by omega)
    obtain ⟨place, hplace⟩ : ∃ place : Nat,
        (if start.toInt < 0 then (h.size : Int) - needle.size else start.toInt) = place :=
      Int.eq_ofNat_of_zero_le (by split <;> omega)
    have hle : place ≤ h.size := by
      split at hplace <;> omega
    rw [lastIndexOfHelper_eq hplace hle]
    obtain ⟨first, hfirst⟩ : ∃ first : Nat, (if (place : Int) > h.size - needle.size then
        (h.size : Int) - needle.size else place) = first :=
      Int.eq_ofNat_of_zero_le (by split <;> omega)
    have hroom : first + needle.size ≤ h.size := by
      split at hfirst <;> omega
    rw [hfirst]
    exact lastWindow_lies (by omega) hroom
  by_cases hneg : start.toInt < 0
  · exact iff_of_true
      ⟨-1, lastIndexOfHelper_refused (.inl (by rw [if_pos hneg]; omega)), .inl rfl⟩ (by omega)
  · refine iff_of_false ?_ (by omega)
    rintro ⟨r, hr, -⟩
    obtain ⟨place, hplace⟩ := Int.eq_ofNat_of_zero_le (show 0 ≤ start.toInt by omega)
    have hfrom : (if start.toInt < 0 then (h.size : Int) - needle.size else start.toInt) =
        place := by
      rw [if_neg hneg, hplace]
    rw [lastIndexOfHelper_eq hfrom (by omega), if_pos (by omega),
      lastWindow_neg (by omega) (by rw [← Chars.size]; omega)] at hr
    cases hr

/-! ## From the front -/

theorem findHash_neg {h needle : Bytes} {start : Int} (hstart : start < 0)
    (hpos : 0 < needle.length) : findHash h needle start = none := by
  obtain ⟨n, hn⟩ : ∃ n, needle.length = n + 1 := ⟨needle.length - 1, by omega⟩
  rw [findHash, hn, RollingHash.hashFrom_neg hstart]
  cases RollingHash.hashFrom (words needle) (n + 1) 0 0 <;> rfl

theorem indexOf_long (hlong : 2 ≤ needle.size) :
    (∃ r, indexOf h needle start = some r ∧ Lies h needle r) ↔
      (0 ≤ start.toInt + h.size ∨ needle.size + (start.toInt + h.size) < 0 ∨
        0 < needle.size + start.toInt ∨ (h.size : Int) = 0 ∨
        ((h.size : Int) > 500 ∧ (needle.size : Int) > 5)) := by
  have hlow := Int32.le_toInt start
  have hhigh := Int32.toInt_lt start
  have hh : h.size < 2 ^ 31 := h.property
  have hn : needle.size < 2 ^ 31 := needle.property
  simp only [indexOf]
  rw [if_neg (by omega), if_neg (by omega)]
  by_cases hearly : start.toInt > h.size ∨ (needle.size : Int) + start.toInt > h.size
  · exact iff_of_true ⟨-1, if_pos hearly, .inl rfl⟩ (by omega)
  rw [if_neg hearly]
  by_cases hplace : 0 ≤ start.toInt + h.size
  · obtain ⟨place, hcounted⟩ : ∃ place : Nat,
        (if start.toInt < 0 then start.toInt + (h.size : Int) else start.toInt) = place :=
      Int.eq_ofNat_of_zero_le (by split <;> omega)
    obtain ⟨r, hr, hfirst⟩ := findByteArray_first hcounted (by split at hcounted <;> omega)
      (show 0 < needle.size by omega)
    exact iff_of_true ⟨r, hr, lies_of_firstFrom hfirst⟩ (.inl hplace)
  -- the start lies in front of the array
  simp only [findByteArray]
  rw [if_pos (show start.toInt < 0 by omega)]
  by_cases hwrap : ((needle.size : Int) + (start.toInt + h.size)) % 2 ^ 32 > h.size
  · exact iff_of_true ⟨-1, if_pos hwrap, .inl rfl⟩ (by omega)
  rw [if_neg hwrap, if_neg (by omega)]
  by_cases hzero : h.size = 0
  · exact iff_of_true ⟨-1, if_pos hzero, .inl rfl⟩ (by omega)
  rw [if_neg hzero, if_neg (by omega)]
  by_cases hbm : h.size > 500 ∧ needle.size > 5
  · obtain ⟨r, hr, hfirst⟩ := bmFind_first needle.val (Nat.zero_le h.val.length)
    have hmax : (max (start.toInt + h.size) 0).toNat = 0 := by omega
    refine iff_of_true ⟨r, ?_, lies_of_firstFrom hfirst⟩ (by omega)
    rw [if_pos hbm, findBoyerMoore, hmax, hr]
  · refine iff_of_false ?_ (by omega)
    rintro ⟨r, hr, -⟩
    rw [if_neg hbm, findHash_neg (by omega) (by rw [← Chars.size]; omega)] at hr
    cases hr

/-! ## The overloads -/

theorem lastIndexOfText_eq {str : CString} (start : Int32) :
    lastIndexOfText h str start = lastIndexOf h str.chars start := by
  rw [lastIndexOfText, lastIndexOf, strlen_eq]

theorem char_eq {c : UInt8} (hc : needle.val = [c]) :
    indexOfChar h c start = indexOf h needle start ∧
      lastIndexOfChar h c start = lastIndexOf h needle start := by
  have hone : needle.size = 1 := by rw [Chars.size, hc, List.length_singleton]
  simp only [indexOf, lastIndexOf, hone, elementAt_singleton hc]
  exact ⟨rfl, rfl⟩

theorem indexOf_nil (hnil : needle.size = 0) : indexOf h needle start = some start.toInt := by
  simp only [indexOf]
  rw [if_pos hnil]

theorem indexOfText_nil {str : CString} (hnil : str.chars.size = 0)
    (hle : start.toInt ≤ h.size) : indexOfText h str start = some start.toInt := by
  simp only [indexOfText, strlen_eq, hnil]
  rw [if_neg (by omega), if_neg (by omega), if_pos trivial]

theorem indexOf_one (hone : needle.size = 1) :
    ∃ r, indexOf h needle start = some r ∧ Lies h needle r := by
  obtain ⟨c, hc⟩ := List.length_eq_one_iff.mp hone
  obtain ⟨r, hr, hfirst⟩ := findChar_first h c start.toInt
  rw [← (char_eq hc).1]
  rw [← hc] at hfirst
  exact ⟨r, hr, lies_of_firstFrom hfirst⟩

theorem safe_of_size (hpos : 0 < needle.size)
    (hfront : ∃ r, indexOf h needle start = some r ∧ Lies h needle r)
    (hback : ∃ r, lastIndexOf h needle start = some r ∧ Lies h needle r) :
    Safe h needle start := by
  refine ⟨hfront, hback, ?_, fun c hc => char_eq hc⟩
  rintro str rfl
  exact ⟨indexOfText_eq (List.length_pos_iff.mp hpos) start, lastIndexOfText_eq start⟩

theorem safe_nil (hnil : needle.size = 0) :
    Safe h needle start ↔ 0 ≤ start.toInt ∧ start.toInt < h.size := by
  constructor
  · rintro ⟨⟨r, hr, hlies⟩, hback, -, -⟩
    rw [indexOf_nil hnil, Option.some.injEq] at hr
    rw [lastIndexOf_nil hnil] at hback
    rw [Lies, ← hr] at hlies
    omega
  · intro hin
    have hfront : indexOf h needle start = some start.toInt := indexOf_nil hnil
    refine ⟨⟨_, hfront, .inr (by omega)⟩, (lastIndexOf_nil hnil).mpr (.inl hin), ?_, ?_⟩
    · rintro str rfl
      rw [hfront]
      exact ⟨indexOfText_nil hnil (by omega), lastIndexOfText_eq start⟩
    · intro c hc
      rw [Chars.size, hc, List.length_singleton] at hnil
      cases hnil

/-- The searches are safe from these starts and from no others. -/
theorem safe_iff (h needle : Chars) (start : Int32) :
    Safe h needle start ↔ Inside h needle start := by
  simp only [Inside]
  by_cases hnil : needle.size = 0
  · rw [if_pos (by omega)]
    exact safe_nil hnil
  rw [if_neg (by omega)]
  by_cases hone : needle.size = 1
  · rw [if_pos (by omega), ← lastIndexOf_one hone]
    exact ⟨fun hsafe => hsafe.back, safe_of_size (by omega) (indexOf_one hone)⟩
  · rw [if_neg (by omega), ← lastIndexOf_long (by omega), ← indexOf_long (by omega)]
    exact ⟨fun hsafe => ⟨hsafe.back, hsafe.front⟩, fun hin => safe_of_size (by omega) hin.2 hin.1⟩

/-- The empty array is found in "abab" at 7. -/
theorem empty_behind_end : ¬Safe ababBytes ⟨[], by decide⟩ 7 := by
  rintro ⟨⟨r, hr, hlies⟩, -, -, -⟩
  have hseven : indexOf ababBytes ⟨[], by decide⟩ 7 = some 7 := rfl
  rw [hseven, Option.some.injEq] at hr
  subst hr
  revert hlies
  unfold Lies
  decide

/-!
## Counting in byte arrays

`indexOf` refuses no start of an empty array: it returns the start, so the searches that count go
on until the start has wrapped. Any other array is counted at each place where it stands, as in
strings (`count_iff`).
-/

theorem count_exact {h array : Chars} (hne : array.val ≠ []) :
    count (h.size + 2) h array = some (occurrences array.val h.val) := by
  have hpos : 0 < array.val.length := List.length_pos_iff.mpr hne
  have hfits := h.property
  have hint {place : Nat} (hplace : place ≤ h.size) : (Int32.ofInt place).toInt = place := by
    rw [Chars.size] at hplace
    exact Int32.toInt_ofInt_of_le (by omega) (by omega)
  rw [count]
  by_cases hbm : h.size > 500 ∧ array.size > 5
  · rw [if_pos hbm]
    refine countFrom_occurrences fun place hplace => ?_
    have hle : place ≤ h.size := by rw [Chars.size]; omega
    exact indexIn_first array (hint hle) hle
  · rw [if_neg hbm]
    refine countFrom_occurrences fun place hplace => ?_
    have hle : place ≤ h.size := by rw [Chars.size]; omega
    exact indexOf_first (hint hle) hne

/-- The starts that an empty array is searched from: each one up to -1, round the end of the
integers. -/
theorem countFrom_empty {h array : Chars} (hnil : array.val = []) : ∀ (rounds r : Nat) (pos : Int),
    countFrom (fun pos => indexOf h array (Int32.ofInt pos)) rounds pos = some r →
      (r : Int) = (-2 - pos) % 2 ^ 32
  | 0, r, pos, hrun => nomatch hrun
  | rounds + 1, r, pos, hrun => by
    have hsize : array.size = 0 := by rw [Chars.size, hnil, List.length_nil]
    have hwrap : (Int32.ofInt (pos + 1)).toInt = (pos + 1 + 2 ^ 31) % 2 ^ 32 - 2 ^ 31 := by
      rw [Int32.toInt_ofInt, Int.bmod]
      simp only [Int32.size]
      omega
    obtain ⟨start, hstart⟩ : ∃ start, (pos + 1 + 2 ^ 31) % 2 ^ 32 - 2 ^ 31 = start := ⟨_, rfl⟩
    have hfound : indexOf h array (Int32.ofInt (pos + 1)) = some start := by
      simp only [indexOf, hsize, if_pos, hwrap, hstart]
    rw [countFrom, hfound, Option.bind_eq_bind, Option.bind_some] at hrun
    by_cases hend : start = -1
    · rw [if_pos hend, Option.some.injEq] at hrun
      omega
    · rw [if_neg hend, Option.map_eq_some_iff] at hrun
      obtain ⟨r', hrest, rfl⟩ := hrun
      have hr' := countFrom_empty hnil rounds r' start hrest
      push_cast
      omega

/-- An empty array is not counted as often as it stands. -/
theorem count_empty {h array : Chars} (hnil : array.val = []) (rounds : Nat) :
    count rounds h array ≠ some (occurrences array.val h.val) := by
  have hsize : ¬(h.size > 500 ∧ array.size > 5) := by
    rw [Chars.size, Chars.size, hnil, List.length_nil]
    omega
  intro hrun
  rw [count, if_neg hsize] at hrun
  have hr := countFrom_empty hnil rounds _ _ hrun
  have hfits := h.property
  rw [hnil, occurrences_nil] at hr
  omega

/-- An array is counted at each place if and only if it is not empty, a string always. -/
theorem count_iff (h array : Chars) (b : Lang.Build) (m : Lang.Memory)
    (f : Lang.CaseFolding) (haystack needle : Lang.Text) :
    ((∃ rounds, count rounds h array = some (occurrences array.val h.val)) ↔ array.val ≠ []) ∧
      ∃ rounds, Lang.stringCount b m f .sensitive rounds haystack needle =
        some (occurrences (needle.view.read m.units) (haystack.view.read m.units)) := by
  refine ⟨⟨?_, fun hne => ⟨_, count_exact hne⟩⟩, _, Lang.stringCount_exact b m f haystack needle⟩
  rintro ⟨rounds, hrun⟩ hnil
  exact count_empty hnil rounds hrun

/-- The empty array in "a" -/
theorem count_empty_endless :
    ¬∃ rounds, count rounds ⟨[0x61], by decide⟩ ⟨[], by decide⟩ =
      some (occurrences [] [0x61]) := by
  rintro ⟨rounds, hrun⟩
  exact count_empty rfl rounds hrun

end Libpdk.Ds.ByteArraySearch
