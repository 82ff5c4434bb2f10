import Libpdk.Lang.StringCompareMixed

/-!
# Where the four comparisons are the same

`Comparable` names what the texts must not have: an empty text and another one, text in front of
which there is a zero byte and that the lengths do not order, bytes that are not ASCII at a place
up to which the texts are the same, and halves of blocks that hide a difference.
-/
namespace Libpdk.Lang

/-! ## Units with bytes, with case -/

/-- How the texts are ordered at the place that is taken for a difference. -/
def misreadOrder (A B : Bytes) : Ordering :=
  match misread (min A.length B.length) A B with
  | none => .eq
  | some k => compare (A.getD k 0).toNat (B.getD k 0).toNat

theorem mate_lt {n k : Nat} (h : k < n) : mate n k < n := by
  rw [mate]
  split <;> omega

theorem getD_take {A : Bytes} {n k : Nat} (h : k < n) : (A.take n).getD k 0 = A.getD k 0 := by
  rw [List.getD_eq_getElem?_getD, List.getElem?_take, if_pos h, ← List.getD_eq_getElem?_getD]

theorem misread_take (n : Nat) (A B : Bytes) :
    misread n (A.take n) (B.take n) = misread n A B := by
  refine List.find?_congr fun k hk => ?_
  have hk := List.mem_range.mp hk
  rw [getD_take hk, getD_take (mate_lt hk)]

theorem length_latin1 (A : Bytes) : (latin1 A).length = A.length := List.length_map _

/-- On builds with SSE2 and not AVX2 the first place counts that is taken for a difference. -/
theorem unicodeStrcmpLatin1_sse2 {b : Build} (hsse : b.sse2 = true) (havx : b.avx2 = false)
    (m : Memory) {lhs : StringView} {rhs : Latin1String} {A B : Bytes}
    (hl : lhs.read m.units = latin1 A) (hr : rhs.read m.bytes = B) :
    compare (unicodeStrcmpLatin1 b m lhs rhs) 0 =
      (misreadOrder A B).then (compare A.length B.length) := by
  have hlsize : lhs.size = A.length := by rw [← lhs.length_read m.units, hl, length_latin1]
  have hrsize : rhs.size = B.length := by rw [← rhs.length_read m.bytes, hr]
  rw [unicodeStrcmpLatin1, compare_orLencmp, unicodeStrncmpLatin1, hl, hr, hlsize, hrsize]
  congr 1
  generalize hn : min A.length B.length = n
  have htake : (latin1 A).take n = latin1 (A.take n) := List.map_take.symm
  have hA : (A.take n).length = n := by
    rw [List.length_take]
    omega
  have hB : (B.take n).length = n := by
    rw [List.length_take]
    omega
  simp only [hsse, if_true, htake]
  rw [blocks16_sse2 havx _ hA hB rfl, misread_take, misreadOrder, hn]
  cases hfind : misread n A B with
  | none => rfl
  | some k =>
    have hk := List.mem_range.mp (List.mem_of_find?_eq_some hfind)
    rw [differenceAt, getD_latin1, getD_latin1, getD_take hk, getD_take hk, UInt8.toNat_toUInt16,
      UInt8.toNat_toUInt16, compare_sub]

/-- On all other builds the first difference counts. -/
theorem unicodeStrcmpLatin1_sign {b : Build} (hb : b.sse2 = false ∨ b.avx2 = true)
    (m : Memory) {lhs : StringView} {rhs : Latin1String} {A B : Bytes}
    (hl : lhs.read m.units = latin1 A) (hr : rhs.read m.bytes = B) :
    compare (unicodeStrcmpLatin1 b m lhs rhs) 0 = order .sensitive A B := by
  have hlsize : lhs.size = A.length := by rw [← lhs.length_read m.units, hl, length_latin1]
  have hrsize : rhs.size = B.length := by rw [← rhs.length_read m.bytes, hr]
  have htail : unicodeStrncmpLatin1 b m lhs rhs (min lhs.size rhs.size) =
      tailLoop (latin1 A) (latin1 B) := by
    have hcut := tailLoop_take (latin1 A) (latin1 B)
    rw [length_latin1, length_latin1, ← hlsize, ← hrsize] at hcut
    have htake : latin1 (B.take (min lhs.size rhs.size)) =
        (latin1 B).take (min lhs.size rhs.size) := List.map_take
    rw [unicodeStrncmpLatin1, hl, hr]
    by_cases hsse : b.sse2 = true
    · have havx : b.avx2 = true := by
        rcases hb with hb | hb
        · rw [hsse] at hb
          cases hb
        · exact hb
      have hlen : ((latin1 A).take (min lhs.size rhs.size)).length =
          (B.take (min lhs.size rhs.size)).length := by
        rw [List.length_take, List.length_take, length_latin1]
        omega
      simp only [hsse, if_true]
      rw [blocks16_avx2 havx _ hlen, htake, hcut]
    · simp only [hsse, Bool.false_eq_true, if_false]
      rw [htake, hcut]
  rw [unicodeStrcmpLatin1, compare_orLencmp, htail, hlsize, hrsize, order, ← numbers_latin1,
    ← numbers_latin1, ← tailLoop_sign, length_latin1, length_latin1]

/-! ## Bytes with bytes -/

/-- The loops that end at a zero byte. -/
@[grind =] def zeroLoop (k : UInt8 → Nat) : Bytes → Bytes → Int
  | c :: lhs, d :: rhs =>
    if ((k c : Int) - k d) ≠ 0 then (k c : Int) - k d
    else if k c = 0 then 0 else zeroLoop k lhs rhs
  | _, _ => 0

theorem strncmpLoop_eq (A B : Bytes) : strncmpLoop A B = zeroLoop UInt8.toNat A B := by
  induction A generalizing B with
  | nil => rfl
  | cons c A ih =>
    cases B with
    | nil => rfl
    | cons d B =>
      have hne : c ≠ d ↔ ((c.toNat : Int) - d.toNat) ≠ 0 := by
        rw [ne_eq, ← UInt8.toNat_inj]
        omega
      have hzero : c = 0 ↔ c.toNat = 0 := by rw [← UInt8.toNat_inj]; rfl
      simp only [strncmpLoop, zeroLoop, hne, hzero, ih]

theorem strnicmpLoop_eq (A B : Bytes) :
    strnicmpLoop A B = zeroLoop (fun c => (latin1Lowercased c).toNat) A B := by
  induction A generalizing B with
  | nil => rfl
  | cons c A ih =>
    cases B with
    | nil => rfl
    | cons d B =>
      have hzero : latin1Lowercased c = 0 ↔ (latin1Lowercased c).toNat = 0 := by
        rw [← UInt8.toNat_inj]
        rfl
      simp only [strnicmpLoop, zeroLoop, hzero, ih]

theorem zeroLoop_take (k : UInt8 → Nat) (A B : Bytes) :
    zeroLoop k (A.take (min A.length B.length)) (B.take (min A.length B.length)) =
      zeroLoop k A B := by
  induction A generalizing B with
  | nil => rfl
  | cons c A ih =>
    cases B with
    | nil => rfl
    | cons d B =>
      rw [List.length_cons, List.length_cons, Nat.succ_min_succ, List.take_succ_cons,
        List.take_succ_cons, zeroLoop, zeroLoop, ih]

/-- A zero byte in front of the first difference hides it. -/
theorem zeroLoop_first {k : UInt8 → Nat} {i x y : Nat} : ∀ {A B : Bytes},
    FirstDifference (A.map k) (B.map k) i x y →
    zeroLoop k A B = if 0 ∈ (A.take i).map k then 0 else (x : Int) - y := by
  induction i with
  | zero =>
    intro A B h
    cases A with
    | nil => cases h.left
    | cons c A =>
      cases B with
      | nil => cases h.right
      | cons d B =>
        obtain ⟨rfl, rfl⟩ := h.of_zero
        have hne := h.ne
        rw [zeroLoop, if_pos (by omega), if_neg (by simp)]
  | succ i ih =>
    intro A B h
    cases A with
    | nil => cases h.left
    | cons c A =>
      cases B with
      | nil => cases h.right
      | cons d B =>
        obtain ⟨hcd, h'⟩ := h.of_succ
        rw [zeroLoop, if_neg (by omega), ih h', List.take_succ_cons, List.map_cons]
        by_cases hz : k c = 0
        · rw [if_pos hz, if_pos (List.mem_cons.mpr (.inl hz.symm))]
        · have hz' : ¬(0 = k c) := fun h => hz h.symm
          simp only [hz, hz', List.mem_cons, if_false, false_or]

/-- Where the texts do not differ up to the end of the shorter one, nothing is returned. -/
theorem zeroLoop_same {k : UInt8 → Nat} : ∀ {A B : Bytes},
    (∀ i < min A.length B.length, (A.map k)[i]? = (B.map k)[i]?) → zeroLoop k A B = 0
  | [], _, _ => by rw [zeroLoop]; simp
  | _ :: _, [], _ => rfl
  | c :: A, d :: B, h => by
    have hhead := h 0 (by simp)
    simp only [List.map_cons, List.getElem?_cons_zero, Option.some.injEq] at hhead
    have htail : zeroLoop k A B = 0 := zeroLoop_same fun i hi => by
      have := h (i + 1) (by simp only [List.length_cons]; omega)
      simpa using this
    rw [zeroLoop, if_neg (by omega), htail, ite_self]

/-- By which table bytes are compared with bytes. -/
def byteTable : CaseSensitivity → UInt8 → Nat
  | .insensitive => fun c => (latin1Lowercased c).toNat
  | .sensitive => UInt8.toNat

theorem compareLatin1_sign (m : Memory) {lhs rhs : Latin1String} {A B : Bytes}
    (hl : lhs.read m.bytes = A) (hr : rhs.read m.bytes = B) (cs : CaseSensitivity) :
    compare (compareLatin1 m lhs rhs cs) 0 =
      (compare (zeroLoop (byteTable cs) A B) 0).then (compare A.length B.length) := by
  have hlsize : lhs.size = A.length := by rw [← lhs.length_read m.bytes, hl]
  have hrsize : rhs.size = B.length := by rw [← rhs.length_read m.bytes, hr]
  have hnil : ∀ k, zeroLoop k [] B = 0 := fun k => by cases B <;> rfl
  rw [compareLatin1]
  split
  · rename_i hz
    rw [hlsize, List.length_eq_zero_iff] at hz
    rw [hz, hnil, compare_lencmp, hrsize]
    rfl
  · rename_i hz
    have hsome : lhs.begin ≠ none := fun hnone => hz (lhs.null hnone)
    have hguarded : ∀ {loop : Bytes → Bytes → Int} {k : UInt8 → Nat},
        (∀ X Y, loop X Y = zeroLoop k X Y) →
        (compare (guarded loop m lhs rhs (min lhs.size rhs.size)) 0).then
          (compare lhs.size rhs.size) =
        (compare (zeroLoop k A B) 0).then (compare A.length B.length) := by
      intro loop k hloop
      rw [guarded]
      by_cases hrsome : rhs.begin ≠ none
      · rw [if_pos ⟨hsome, hrsome⟩, hloop, hl, hr, hlsize, hrsize, zeroLoop_take]
      · have hrz : rhs.size = 0 := rhs.null (not_not.mp hrsome)
        have hB : B = [] := List.length_eq_zero_iff.mp (hrsize ▸ hrz)
        have hgt : compare A.length 0 = .gt := Nat.compare_eq_gt.mpr (by omega)
        rw [if_neg (fun h => hrsome h.2), if_pos hsome, hB, List.length_nil, hgt]
        cases A <;> rfl
    rw [compare_orLencmp]
    cases cs with
    | sensitive => exact hguarded strncmpLoop_eq
    | insensitive => exact hguarded strnicmpLoop_eq

/-! ## The four comparisons -/

/-- The comparisons of two strings and of the same texts as bytes have the result `o`, and the first
string equals the second text exactly when it equals the string made of it. -/
structure Results (f : CaseFolding) (b : Build) (m : Memory) (lhs rhs : StringView)
    (lhs' rhs' : Latin1String) (cs : CaseSensitivity) (o : Ordering) : Prop where
  strings : compare (compareStrings b m f lhs rhs cs) 0 = o
  right : compare (compareWithLatin1 b m f lhs rhs' cs) 0 = o
  left : compare (compareLatin1With b m f lhs' rhs cs) 0 = o
  bytes : compare (compareLatin1 m lhs' rhs' cs) 0 = o
  equal : equalsLatin1 b m f lhs rhs' = equals b m f lhs rhs

/-- All comparisons of the texts, of whatever ranges of memory and on whatever build, have the
result `o`. -/
def Agree (f : CaseFolding) (A B : Bytes) (cs : CaseSensitivity) (o : Ordering) : Prop :=
  ∀ (b : Build) (m : Memory) (lhs rhs : StringView) (lhs' rhs' : Latin1String),
    lhs.read m.units = latin1 A → rhs.read m.units = latin1 B →
    lhs'.read m.bytes = A → rhs'.read m.bytes = B → Results f b m lhs rhs lhs' rhs' cs o

def Mixed (f : CaseFolding) (A B : Bytes) : Prop := ∀ cs, ∃ o, Agree f A B cs o

/-- Where there is a zero byte in front of the first difference, the lengths order the texts as it
does. -/
def ZeroOk (cs : CaseSensitivity) (A B : Bytes) : Prop :=
  ∀ i x y, FirstDifference (A.map (key cs)) (B.map (key cs)) i x y → 0 ∈ A.take i →
    compare x y = compare A.length B.length

/-- The place that is taken for a difference orders the texts as the first difference does. -/
def HalvesOk (A B : Bytes) : Prop :=
  ∀ i x y, FirstDifference (A.map UInt8.toNat) (B.map UInt8.toNat) i x y →
    compare x y = (misreadOrder A B).then (compare A.length B.length)

structure Comparable (A B : Bytes) : Prop where
  empty : A = [] ↔ B = []
  zero : ∀ cs, ZeroOk cs A B
  high : NoHigh A B
  halves : HalvesOk A B
  halves' : HalvesOk B A

/-! ## Where they agree -/

theorem map_eq_of_key {j k : UInt8 → Nat} (h : ∀ c d, j c = j d ↔ k c = k d) : ∀ {X Y : Bytes},
    X.map k = Y.map k → X.map j = Y.map j
  | [], [], _ => rfl
  | c :: X, d :: Y, hk => by
    simp only [List.map_cons, List.cons.injEq] at hk
    rw [List.map_cons, List.map_cons, (h c d).mpr hk.1, map_eq_of_key h hk.2]

/-- The first difference is at the same place for both tables. -/
theorem first_byteTable {cs : CaseSensitivity} {A B : Bytes} (hhigh : NoHigh A B) {i x y : Nat}
    (h : FirstDifference (A.map (key cs)) (B.map (key cs)) i x y) :
    ∃ x' y', FirstDifference (A.map (byteTable cs)) (B.map (byteTable cs)) i x' y' ∧
      compare x' y' = compare x y := by
  cases cs with
  | sensitive => exact ⟨x, y, h, rfl⟩
  | insensitive =>
    have hl := h.left
    have hr := h.right
    rw [List.getElem?_map, Option.map_eq_some_iff] at hl hr
    obtain ⟨c, hc, rfl⟩ := hl
    obtain ⟨d, hd, rfl⟩ := hr
    have hsame := h.same
    rw [← List.map_take, ← List.map_take] at hsame
    have hascii : ¬(0x80 ≤ c.toNat ∧ 0x80 ≤ d.toNat) := fun hcd =>
      hhigh i c d hc hd hcd.1 hcd.2 hsame
    refine ⟨_, _, ⟨by rw [List.getElem?_map, hc]; rfl, by rw [List.getElem?_map, hd]; rfl, ?_, ?_⟩,
      compare_lower hascii⟩
    · exact fun heq => h.ne ((lower_inj c d).mp heq)
    · rw [← List.map_take, ← List.map_take]
      exact map_eq_of_key lower_inj hsame

theorem byteTable_zero (cs : CaseSensitivity) (c : UInt8) : byteTable cs c = 0 ↔ c = 0 := by
  rw [← UInt8.toNat_inj]
  cases cs with
  | sensitive => exact Iff.rfl
  | insensitive =>
    have hc := c.toNat_lt
    simp only [byteTable, latin1Lowercased_toNat, UInt8.toNat_zero]
    split <;> omega

theorem zero_mem_byteTable (cs : CaseSensitivity) (A : Bytes) :
    0 ∈ A.map (byteTable cs) ↔ 0 ∈ A := by
  rw [List.mem_map]
  refine ⟨?_, fun h => ⟨0, h, (byteTable_zero cs 0).mpr rfl⟩⟩
  rintro ⟨c, hc, hz⟩
  rw [(byteTable_zero cs c).mp hz] at hc
  exact hc

/-- What bytes with bytes are ordered by. -/
theorem zeroLoop_order {cs : CaseSensitivity} {A B : Bytes} (hhigh : NoHigh A B) :
    (compare (zeroLoop (byteTable cs) A B) 0).then (compare A.length B.length) = order cs A B ↔
      ZeroOk cs A B := by
  rcases firstDifference_or (A.map (key cs)) (B.map (key cs)) with ⟨i, x, y, h⟩ | ⟨heq, hsame⟩
  · obtain ⟨x', y', h', hcompare⟩ := first_byteTable hhigh h
    have hne : compare x y ≠ .eq := fun heq => h.ne (Nat.compare_eq_eq.mp heq)
    have hloop := zeroLoop_first h'
    simp only [zero_mem_byteTable] at hloop
    rw [hloop, order, h.compare_eq]
    by_cases hz : 0 ∈ A.take i
    · rw [if_pos hz]
      refine ⟨fun heq j x₁ y₁ h₁ _ => ?_, fun hok => (hok i x y h hz).symm⟩
      rw [← h₁.compare_eq, h.compare_eq]
      exact heq.symm
    · rw [if_neg hz, compare_sub, hcompare]
      refine ⟨fun _ j x₁ y₁ h₁ hz₁ => ?_, fun _ => ?_⟩
      · exact absurd (h₁.place_eq h ▸ hz₁) hz
      · cases hc : compare x y with
        | eq => exact absurd hc hne
        | lt => rfl
        | gt => rfl
  · have hkey : ∀ c d, key cs c = key cs d → byteTable cs c = byteTable cs d := by
      cases cs with
      | sensitive => exact fun _ _ h => h
      | insensitive => exact fun c d h => (lower_inj c d).mpr h
    have hloop : zeroLoop (byteTable cs) A B = 0 := by
      refine zeroLoop_same fun i hi => ?_
      have h := hsame i (by rw [List.length_map, List.length_map]; exact hi)
      simp only [List.getElem?_map, List.getElem?_eq_getElem (show i < A.length by omega),
        List.getElem?_eq_getElem (show i < B.length by omega), Option.map_some,
        Option.some.injEq] at h ⊢
      exact hkey _ _ h
    rw [hloop, order, heq, List.length_map, List.length_map]
    exact ⟨fun _ i x y h _ => (h.not_same hsame).elim, fun _ => rfl⟩

/-! ## Halves of blocks -/

theorem misreadOrder_order {A B : Bytes} :
    (misreadOrder A B).then (compare A.length B.length) = order .sensitive A B ↔
      HalvesOk A B := by
  rcases firstDifference_or (A.map UInt8.toNat) (B.map UInt8.toNat) with
    ⟨i, x, y, h⟩ | ⟨heq, hsame⟩
  · show _ = compare (A.map UInt8.toNat) (B.map UInt8.toNat) ↔ _
    rw [h.compare_eq]
    refine ⟨fun heq j x₁ y₁ h₁ => ?_, fun hok => (hok i x y h).symm⟩
    rw [← h₁.compare_eq, h.compare_eq, heq]
  · have hmis : misreadOrder A B = .eq := by
      rw [misreadOrder]
      cases hfind : misread (min A.length B.length) A B with
      | none => rfl
      | some k =>
        have hk := List.mem_range.mp (List.mem_of_find?_eq_some hfind)
        have h := hsame k (by rw [List.length_map, List.length_map]; exact hk)
        rw [List.getElem?_map, List.getElem?_map] at h
        simp only [List.getD_eq_getElem?_getD]
        simp only [List.getElem?_eq_getElem (show k < A.length by omega),
          List.getElem?_eq_getElem (show k < B.length by omega), Option.map_some,
          Option.some.injEq, Option.getD_some] at h ⊢
        exact Nat.compare_eq_eq.mpr h
    show _ = compare (A.map UInt8.toNat) (B.map UInt8.toNat) ↔ _
    rw [hmis, heq, List.length_map, List.length_map]
    exact ⟨fun _ i x y h => (h.not_same hsame).elim, fun _ => rfl⟩

/-! ## The texts in memory -/

theorem read_getD {α : Type} (X Y Z : List α) (d : α) :
    View.read ⟨some X.length, Y.length, by simp⟩ (fun i => (X ++ Y ++ Z).getD i d) = Y := by
  apply List.ext_getElem?
  intro i
  by_cases hi : i < Y.length
  · rw [View.getElem?_read _ _ hi]
    simp only [Option.getD_some, List.getD_eq_getElem?_getD]
    rw [List.getElem?_append_left (by simp; omega), List.getElem?_append_right (by omega),
      Nat.add_sub_cancel_left, List.getElem?_eq_getElem hi, Option.getD_some]
  · rw [List.getElem?_eq_none (by rw [View.length_read]; simpa using hi),
      List.getElem?_eq_none (by omega)]

/-- Both texts, one behind the other. -/
def sideBySide (A B : Bytes) : Memory :=
  ⟨fun i => (latin1 (A ++ B)).getD i 0, fun i => (A ++ B).getD i 0⟩

def lhsView (A : Bytes) : View := ⟨some 0, A.length, by simp⟩

def rhsView (A B : Bytes) : View := ⟨some A.length, B.length, by simp⟩

def nullView : View := ⟨none, 0, fun _ => rfl⟩

theorem read_lhs_bytes (A B : Bytes) : (lhsView A).read (sideBySide A B).bytes = A :=
  read_getD [] A B 0

theorem read_rhs_bytes (A B : Bytes) : (rhsView A B).read (sideBySide A B).bytes = B := by
  have h := read_getD A B [] 0
  rw [List.append_nil] at h
  exact h

theorem read_lhs_units (A B : Bytes) : (lhsView A).read (sideBySide A B).units = latin1 A := by
  have h := read_getD [] (latin1 A) (latin1 B) 0
  simp only [length_latin1, List.nil_append, ← latin1_append] at h
  exact h

theorem read_rhs_units (A B : Bytes) : (rhsView A B).read (sideBySide A B).units = latin1 B := by
  have h := read_getD (latin1 A) (latin1 B) [] 0
  simp only [length_latin1, List.append_nil, ← latin1_append] at h
  exact h

/-- The texts in memory are compared as they agree. -/
theorem Agree.results {f : CaseFolding} {A B : Bytes} {cs : CaseSensitivity} {o : Ordering}
    (h : Agree f A B cs o) (b : Build) :
    Results f b (sideBySide A B) (lhsView A) (rhsView A B) (lhsView A) (rhsView A B) cs o :=
  h b (sideBySide A B) (lhsView A) (rhsView A B) (lhsView A) (rhsView A B) (read_lhs_units A B)
    (read_rhs_units A B) (read_lhs_bytes A B) (read_rhs_bytes A B)

/-! ## What comparable texts are compared by -/

theorem order_swap (cs : CaseSensitivity) (A B : Bytes) :
    order cs A B = (order cs B A).swap :=
  Std.OrientedOrd.eq_swap

variable {f : CaseFolding} {A B : Bytes} {b : Build} {m : Memory} {cs : CaseSensitivity}

theorem compareStrings_sign (h : A = [] ↔ B = []) {lhs rhs : StringView}
    (hl : lhs.read m.units = latin1 A) (hr : rhs.read m.units = latin1 B) :
    compare (compareStrings b m f lhs rhs cs) 0 = order cs A B := by
  cases cs with
  | sensitive =>
    rw [compareStrings, unicodeStrcmp_sign, hl, hr, numbers_latin1, numbers_latin1]
    rfl
  | insensitive => exact unicodeStricmp_sign m f hl hr h

theorem compareWithLatin1_sign (h : A = [] ↔ B = []) (hhigh : NoHigh A B) (hhalves : HalvesOk A B)
    {lhs : StringView} {rhs : Latin1String} (hl : lhs.read m.units = latin1 A)
    (hr : rhs.read m.bytes = B) :
    compare (compareWithLatin1 b m f lhs rhs cs) 0 = order cs A B := by
  cases cs with
  | sensitive =>
    rw [compareWithLatin1]
    by_cases hb : b.sse2 = false ∨ b.avx2 = true
    · exact unicodeStrcmpLatin1_sign hb m hl hr
    · obtain ⟨hsse, havx⟩ := not_or.mp hb
      rw [unicodeStrcmpLatin1_sse2 (by simpa using hsse) (by simpa using havx) m hl hr,
        misreadOrder_order.mpr hhalves]
  | insensitive =>
    rw [compareWithLatin1, unicodeStricmpLatin1_sign b m f hl hr h, compare_byteKey b hhigh]

theorem NoHigh.symm (h : NoHigh A B) : NoHigh B A :=
  fun i c d hc hd hch hdh hsame => h i d c hd hc hdh hch hsame.symm

theorem beq_of_compare {x y : Int} (h : compare x 0 = compare y 0) : (x == 0) = (y == 0) := by
  rw [Bool.eq_iff_iff, beq_iff_eq, beq_iff_eq, ← Int.compare_eq_eq, ← Int.compare_eq_eq, h]

theorem Comparable.agree (h : Comparable A B) (cs : CaseSensitivity) :
    Agree f A B cs (order cs A B) := by
  intro b m lhs rhs lhs' rhs' hl hr hl' hr'
  refine ⟨compareStrings_sign h.empty hl hr,
    compareWithLatin1_sign h.empty h.high h.halves hl hr', ?_, ?_, ?_⟩
  · rw [compareLatin1With, compare_neg, order_swap,
      compareWithLatin1_sign h.empty.symm h.high.symm h.halves' hr hl']
  · rw [compareLatin1_sign m hl' hr', (zeroLoop_order h.high).mpr (h.zero cs)]
  · have hsize : rhs.size = rhs'.size := by
      rw [← rhs.length_read m.units, hr, length_latin1, ← hr', View.length_read]
    have hsign : compare (compareWithLatin1 b m f lhs rhs' .sensitive) 0 =
        compare (compareStrings b m f lhs rhs .sensitive) 0 := by
      rw [compareWithLatin1_sign h.empty h.high h.halves hl hr', compareStrings_sign h.empty hl hr]
    rw [equalsLatin1, equals, hsize, beq_of_compare hsign]

/-! ## What texts are that agree -/

/-- A build with SSE2 and not AVX2, on which `char` is signed. -/
def sse2Build : Build := ⟨true, false, true, false, true⟩

theorem Mixed.empty (h : Mixed f A B) : A = [] ↔ B = [] := by
  obtain ⟨o, ho⟩ := h .insensitive
  have hbytes := (ho.results sse2Build).bytes
  rw [compareLatin1_sign _ (read_lhs_bytes A B) (read_rhs_bytes A B)] at hbytes
  constructor
  · rintro rfl
    by_contra hne
    -- the string is null, and not less
    have hlen : B.length ≠ 0 := fun hz => hne (List.length_eq_zero_iff.mp hz)
    have hnull := (ho sse2Build (sideBySide [] B) nullView (rhsView [] B) (lhsView [])
      (rhsView [] B) rfl (read_rhs_units [] B) (read_lhs_bytes [] B) (read_rhs_bytes [] B)).strings
    have hloop : zeroLoop (byteTable .insensitive) [] B = 0 := by cases B <;> rfl
    have hgt : compare (B.length : Int) 0 = .gt := Int.compare_eq_gt.mpr (by omega)
    have hlt : compare ([] : Bytes).length B.length = .lt := Nat.compare_eq_lt.mpr (by simp; omega)
    rw [hloop, hlt] at hbytes
    have hresult : compareStrings sse2Build (sideBySide [] B) f nullView (rhsView [] B)
        .insensitive = B.length := rfl
    rw [hresult, hgt, ← hbytes] at hnull
    cases hnull
  · rintro rfl
    by_contra hne
    have hlen : A.length ≠ 0 := fun hz => hne (List.length_eq_zero_iff.mp hz)
    have hnull := (ho sse2Build (sideBySide A []) (lhsView A) nullView (lhsView A)
      (rhsView A []) (read_lhs_units A []) rfl (read_lhs_bytes A []) (read_rhs_bytes A [])).strings
    have hloop : zeroLoop (byteTable .insensitive) A [] = 0 := by cases A <;> rfl
    have hlt : compare (-(A.length : Int)) 0 = .lt := Int.compare_eq_lt.mpr (by omega)
    have hgt : compare A.length ([] : Bytes).length = .gt := Nat.compare_eq_gt.mpr (by simp; omega)
    rw [hloop, hgt] at hbytes
    have hresult : compareStrings sse2Build (sideBySide A []) f (lhsView A) nullView
        .insensitive = -(A.length : Int) := rfl
    rw [hresult, hlt, ← hbytes] at hnull
    cases hnull

theorem Mixed.high (h : Mixed f A B) : NoHigh A B := by
  intro i c d hc hd hch hdh hsame
  obtain ⟨o, ho⟩ := h .insensitive
  have hb : sse2Build.signedChar = true := rfl
  have hright := (ho.results sse2Build).right
  have hleft := (ho.results sse2Build).left
  rw [compareWithLatin1, unicodeStricmpLatin1_sign _ _ f (read_lhs_units A B) (read_rhs_bytes A B)
    h.empty, compare_byteKey_lt hb hc hd hch hdh hsame] at hright
  rw [compareLatin1With, compare_neg, compareWithLatin1,
    unicodeStricmpLatin1_sign _ _ f (read_rhs_units A B) (read_lhs_bytes A B) h.empty.symm,
    compare_byteKey_lt hb hd hc hdh hch hsame.symm, ← hright] at hleft
  cases hleft

theorem Mixed.zero (h : Mixed f A B) (cs : CaseSensitivity) : ZeroOk cs A B := by
  obtain ⟨o, ho⟩ := h cs
  have hstrings := (ho.results sse2Build).strings
  have hbytes := (ho.results sse2Build).bytes
  rw [compareStrings_sign h.empty (read_lhs_units A B) (read_rhs_units A B)] at hstrings
  rw [compareLatin1_sign _ (read_lhs_bytes A B) (read_rhs_bytes A B)] at hbytes
  exact (zeroLoop_order h.high).mp (hbytes.trans hstrings.symm)

theorem Mixed.halves (h : Mixed f A B) : HalvesOk A B ∧ HalvesOk B A := by
  obtain ⟨o, ho⟩ := h .sensitive
  have hstrings := (ho.results sse2Build).strings
  have hright := (ho.results sse2Build).right
  have hleft := (ho.results sse2Build).left
  rw [compareStrings_sign h.empty (read_lhs_units A B) (read_rhs_units A B)] at hstrings
  rw [compareWithLatin1, unicodeStrcmpLatin1_sse2 rfl rfl _ (read_lhs_units A B)
    (read_rhs_bytes A B), ← hstrings] at hright
  rw [compareLatin1With, compare_neg, compareWithLatin1, unicodeStrcmpLatin1_sse2 rfl rfl _
    (read_rhs_units A B) (read_lhs_bytes A B), ← hstrings, order_swap] at hleft
  exact ⟨misreadOrder_order.mp hright, misreadOrder_order.mp (Ordering.swap_inj.mp hleft)⟩

/-- The comparisons of two texts in mixed encodings are the same exactly where the texts are
comparable. -/
theorem mixed_iff (f : CaseFolding) (A B : Bytes) : Mixed f A B ↔ Comparable A B := by
  constructor
  · intro h
    exact ⟨h.empty, h.zero, h.high, h.halves.1, h.halves.2⟩
  · exact fun h cs => ⟨order cs A B, h.agree cs⟩

/-- A folding that knows no more than bytes. -/
def latin1Folding : CaseFolding where
  fold c := if c < 0x100 then foldLatin1 (UInt8.ofNat c) else c
  latin1 c := by rw [if_pos c.toNat_lt, UInt8.ofNat_toNat]
  halfwidth c h _ := if_neg (by omega)

/-- "baaaaaaaaaaaaaaa" and "bbaaaaaaaaaaaaaa" are not equal as strings, and equal where the second
one is a `Latin1String`. -/
theorem mixed_false :
    ¬Mixed latin1Folding (0x62 :: List.replicate 15 0x61)
      (0x62 :: 0x62 :: List.replicate 14 0x61) := by
  intro h
  obtain ⟨o, ho⟩ := h .sensitive
  have hstrings := (ho.results sse2Build).strings
  have hright := (ho.results sse2Build).right
  rw [← hright] at hstrings
  revert hstrings
  decide

end Libpdk.Lang
