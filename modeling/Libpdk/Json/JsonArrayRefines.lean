import Libpdk.Core.Lts
import Libpdk.Json.Handle
import Libpdk.Json.JsonArray

/-!
# An array is a list

`system` runs the operations of an array next to those of a list of values.
`perform_spec` is the step: what `reserveSpace`, `removeItems`, `clone` and
`compact` do to the content of the base is what the operation does to the list.
`array_refines_list` says it of every run.

Values are any that stand for something (`Represents`); an array that has been
built this way is one of them.
-/
namespace Libpdk.Json.JsonArray

open Libpdk.Mem

/-! ## One operation -/

/-- What `insert` and `replace` write for an element. -/
theorem storeValue_spec {m body gap rest : Bytes} {size n : Nat} {ws₁ ws₂ : List Nat}
    {val : JsonValue} {c : Bool} {x : Val}
    (hb : BaseAt m header false size (body ++ gap) (ws₁ ++ (12 + body.length) :: ws₂) rest)
    (hs : Storable val n c x) (hgap : gap.length = n) (hsmall : 12 + body.length < 2 ^ 27) :
    ∃ m' w data, storeValue m root ws₁.length val (12 + body.length) n c = some m' ∧
      m'.length = m.length ∧ data.length = n ∧ Stored (body ++ data) w x n ∧
      BaseAt m' header false size (body ++ data) (ws₁ ++ w :: ws₂) rest := by
  obtain ⟨w, hw⟩ : ∃ w, w = valueWord (typeTag val) c false (valueToStore val (12 + body.length)) :=
    ⟨_, rfl⟩
  have hwlt : w < 2 ^ 32 := by
    rw [hw]
    exact valueWord_lt _ _ _ (typeTag_lt val)
  obtain ⟨m₁, hset, hb₁⟩ := hb.setTableAt w hwlt
  have hlen₁ : m₁.length = m.length := by
    rw [hb.eq, hb₁.eq]
    simp only [List.length_append, length_headBytes, length_tableBytes, List.length_cons]
  rw [length_header, hw] at hset
  unfold storeValue
  rw [hset, Option.bind_eq_bind, Option.bind_some]
  split
  · next h0 =>
    have hnil : gap = [] := List.length_eq_zero_iff.mp (by omega)
    subst hnil
    obtain ⟨hout, hread⟩ := hs.inline h0 false (12 + body.length)
    rw [← hw] at hout hread
    refine ⟨m₁, w, [], rfl, hlen₁, h0.symm, ?_, hb₁⟩
    rw [h0]
    exact .inline hout hread
  · next h0 =>
    have hbound := hb.length_lt
    have hmod := hb.body_aligned
    have halign := hs.aligned
    rw [List.length_append] at hbound hmod
    obtain ⟨data, hdata, hlen, hpay⟩ :=
      hs.data (by omega) (by omega) (root + (12 + body.length)) (by unfold root; omega)
    have hb₁' : BaseAt m₁ header false size (body ++ gap ++ []) (ws₁ ++ w :: ws₂) rest := by
      rwa [List.append_nil]
    obtain ⟨m₂, hpoke, hlen₂, hb₂⟩ := hb₁'.poke_body (W := data) (by omega)
    rw [List.append_nil] at hb₂
    rw [length_header] at hpoke
    refine ⟨m₂, w, data, ?_, by omega, hlen, ?_, hb₂⟩
    · unfold copyData
      rw [hdata, Option.bind_eq_bind, Option.bind_some, hpoke]
    · rw [← hlen]
      refine .of_gap ?_ ?_
      · rw [hw]
        exact hpay _ _
      · rw [hw, valueWord_value _ _ _ (typeTag_lt val), hs.offset (by omega)]
        omega

/-- What follows the `detach` of an operation that takes an element out. -/
theorem dropAt_spec {E : Type} {R : Holding E} {obj : Bool} (fill : Nat → UInt8)
    (hR : Movable obj R) {size : Nat} {es₁ es₂ : List (E × Nat)} {e : E × Nat} {d : Data}
    (hc : Content R d.raw header obj size (es₁ ++ e :: es₂)) :
    ∃ d', dropAt fill d root es₁.length = some (some (d', root)) ∧
      Content R d'.raw header obj (settledSize (d.compactionCounter + 1) size (es₁ ++ es₂))
        (es₁ ++ es₂) := by
  obtain ⟨m', hrem, -, hc'⟩ := hc.removeItems
  rw [length_header] at hrem
  obtain ⟨d', hcompact, hc''⟩ :=
    compactIfDue_spec (d := ⟨m', d.compactionCounter + 1⟩) fill hR hc'
  refine ⟨d', ?_, hc''⟩
  unfold dropAt
  rw [hrem, Option.bind_eq_bind, Option.bind_some, hcompact]

section Operations

variable (fill : Nat → UInt8) {size n : Nat} {es₁ es₂ : List (Val × Nat)}
  {e : Val × Nat} {val : JsonValue} {c : Bool} {x : Val} {d : Data}

theorem insertAt_spec (hc : Content Stored d.raw header false size (es₁ ++ es₂))
    (hs : Storable val n c x) (hroom : root + size + (n + 4) ≤ d.raw.length) :
    ∃ stored d', insertAt d root es₁.length val n c = some (stored, some (d', root)) ∧
      (size + n < maxSize → stored = true) ∧
      (stored = false → Content Stored d'.raw header false size (es₁ ++ es₂)) ∧
      (stored = true → Content Stored d'.raw header false (size + n + 4) (es₁ ++ (x, n) :: es₂)) := by
  have hM : maxSize = 0x7FFFFFF := rfl
  obtain ⟨m₁, hreset, hlen₁, hc₁⟩ := resetTable_spec hc
  obtain ⟨body, words, rest, hb, hes, hsum⟩ := hc₁
  obtain ⟨ws₁, ws₂, rfl, hws, h₁, h₂⟩ := hes.split
  unfold insertAt
  rw [hreset, Option.bind_eq_bind, Option.bind_some]
  by_cases hfit : size + n < maxSize
  · obtain ⟨gap, m₂, rest', hgap, hlen₂, hres, hb₂⟩ :=
      hb.reserveSpace_insert hs.aligned hfit (by rw [length_header]; omega)
    have htab := hb.table
    obtain ⟨m₃, w, data, hstore, hlen₃, hdata, hst, hb₃⟩ := storeValue_spec hb₂ hs hgap (by omega)
    rw [length_header, hws] at hres
    rw [hws] at hstore
    refine ⟨true, { d with raw := m₃ }, ?_, fun _ => rfl, fun h => absurd h (by simp), fun _ =>
      ⟨body ++ data, ws₁ ++ w :: ws₂, rest', hb₃, ?_, ?_⟩⟩
    · rw [hres, Option.bind_eq_bind, Option.bind_some]
      simp only
      rw [if_neg (by omega), hstore]
      rfl
    · exact Elements.append (h₁.imp (Stored.append data)) (.cons hst (h₂.imp (Stored.append data)))
    · rw [List.length_append, hdata]
      simp only [List.map_append, List.map_cons, List.sum_append, List.sum_cons] at hsum ⊢
      omega
  · have hres : reserveSpace m₁ root n es₁.length 1 false = some (0, m₁) := by
      have hsize := hb.baseSize
      rw [length_header] at hsize
      unfold reserveSpace
      rw [hsize, Option.bind_eq_bind, Option.bind_some, if_pos (by omega)]
    refine ⟨false, { d with raw := m₁ }, ?_, fun h => absurd h hfit, fun _ => ?_,
      fun h => absurd h (by simp)⟩
    · rw [hres]
      rfl
    · exact ⟨body, ws₁ ++ ws₂, rest, hb, h₁.append h₂, hsum⟩

theorem replaceAt_spec (hc : Content Stored d.raw header false size (es₁ ++ e :: es₂))
    (hs : Storable val n c x) (hroom : root + size + n ≤ d.raw.length) :
    ∃ stored d', replaceAt fill d root es₁.length val n c = some (stored, some (d', root)) ∧
      (size + n < maxSize → stored = true) ∧
      (stored = false → Content Stored d'.raw header false size (es₁ ++ e :: es₂)) ∧
      (stored = true → Content Stored d'.raw header false
        (settledSize (d.compactionCounter + 1) (size + n) (es₁ ++ (x, n) :: es₂))
        (es₁ ++ (x, n) :: es₂)) := by
  have hM : maxSize = 0x7FFFFFF := rfl
  obtain ⟨m₁, hreset, hlen₁, hc₁⟩ := resetTable_spec hc
  obtain ⟨body, words, rest, hb, hes, hsum⟩ := hc₁
  obtain ⟨ws₁, w₀, ws₂, rfl, hws, hw₀, h₁, h₂⟩ := hes.split_cons
  unfold replaceAt
  rw [hreset, Option.bind_eq_bind, Option.bind_some]
  by_cases hfit : size + n < maxSize
  · obtain ⟨gap, m₂, rest', hgap, hlen₂, hres, hb₂⟩ :=
      hb.reserveSpace_replace hs.aligned hfit (by rw [length_header]; omega)
    have htab := hb.table
    obtain ⟨m₃, w, data, hstore, hlen₃, hdata, hst, hb₃⟩ := storeValue_spec hb₂ hs hgap (by omega)
    rw [length_header, hws] at hres
    rw [hws] at hstore
    have hc₃ : Content Stored m₃ header false (size + n) (es₁ ++ (x, n) :: es₂) := by
      refine ⟨body ++ data, ws₁ ++ w :: ws₂, rest', hb₃, ?_, ?_⟩
      · exact Elements.append (h₁.imp (Stored.append data)) (.cons hst (h₂.imp (Stored.append data)))
      · rw [List.length_append, hdata]
        simp only [List.map_append, List.map_cons, List.sum_append, List.sum_cons] at hsum ⊢
        omega
    obtain ⟨d', hcompact, hc'⟩ :=
      compactIfDue_spec (d := ⟨m₃, d.compactionCounter + 1⟩) fill movable_stored hc₃
    refine ⟨true, d', ?_, fun _ => rfl, fun h => absurd h (by simp), fun _ => hc'⟩
    rw [hres, Option.bind_eq_bind, Option.bind_some]
    simp only
    rw [if_neg (by omega), hstore, Option.bind_some, hcompact]
    rfl
  · have hres : reserveSpace m₁ root n es₁.length 1 true = some (0, m₁) := by
      have hsize := hb.baseSize
      rw [length_header] at hsize
      unfold reserveSpace
      rw [hsize, Option.bind_eq_bind, Option.bind_some, if_pos (by omega)]
    refine ⟨false, { d with raw := m₁ }, ?_, fun h => absurd h hfit, fun _ => ?_,
      fun h => absurd h (by simp)⟩
    · rw [hres]
      rfl
    · exact ⟨body, ws₁ ++ w₀ :: ws₂, rest, hb, h₁.append (.cons hw₀ h₂), hsum⟩

end Operations

/-! ## What an array reports -/

section Reports

variable {a : Handle} {size : Nat} {es : List (Val × Nat)}

theorem getSize_spec (ha : Refers Stored false a size es) : getSize a = some es.length := by
  cases a with
  | none =>
    obtain ⟨-, rfl⟩ := ha
    rfl
  | some b =>
    obtain ⟨d, p⟩ := b
    obtain ⟨rfl, hc⟩ := ha
    exact hc.baseLength

theorem at?_spec (ha : Refers Stored false a size es) {i : Nat} (hi : i < es.length) :
    ∃ v, at? a i = some v ∧ Represents v es[i].1 := by
  cases a with
  | none =>
    obtain ⟨-, rfl⟩ := ha
    cases hi
  | some b =>
    obtain ⟨d, p⟩ := b
    obtain ⟨rfl, hc⟩ := ha
    have hlen := hc.baseLength
    obtain ⟨body, ws₁, w, ws₂, rest, hb, hws, hw⟩ := hc.element hi
    obtain ⟨v, hv, hr⟩ := hb.ofWord hw
    have htab := hb.tableAt
    rw [length_header] at hlen hv htab
    refine ⟨v, ?_, hr⟩
    simp only [at?, hlen, Option.bind_eq_bind, Option.bind_some]
    rw [if_neg (by omega), Int.toNat_natCast, ← hws, htab, Option.bind_some, hv]

theorem at?_out (ha : Refers Stored false a size es) {i : Int}
    (hi : i < 0 ∨ (es.length : Int) ≤ i) : at? a i = some .undefined := by
  cases a with
  | none => rfl
  | some b =>
    obtain ⟨d, p⟩ := b
    obtain ⟨rfl, hc⟩ := ha
    have hlen := hc.baseLength
    rw [length_header] at hlen
    simp only [at?, hlen, Option.bind_eq_bind, Option.bind_some]
    rw [if_pos hi]

end Reports

/-! ## The operations -/

/-- The operations that change an array. -/
inductive Op (α : Type) where
  | insert (i : Int) (v : α)
  | append (v : α)
  | prepend (v : α)
  | replace (i : Int) (v : α)
  | removeAt (i : Int)
  | takeAt (i : Int)

/-- An operation of the array; the flag is whether the value has been stored. -/
def perform (fill : Nat → UInt8) (shared : Bool) (a : Handle) : Op JsonValue → Option (Bool × Handle)
  | .insert i v => insert fill shared a i v
  | .append v => append fill shared a v
  | .prepend v => prepend fill shared a v
  | .replace i v => replace fill shared a i v
  | .removeAt i => (removeAt fill shared a i).map fun a => (true, a)
  | .takeAt i => (takeAt fill shared a i).map fun r => (true, r.2)

namespace Op

/-- The operation of the list that stands for one of the array. -/
def Represents : Op JsonValue → Op Val → Prop
  | .insert i v, .insert j x => i = j ∧ Json.Represents v x
  | .append v, .append x => Json.Represents v x
  | .prepend v, .prepend x => Json.Represents v x
  | .replace i v, .replace j x => i = j ∧ Json.Represents v x
  | .removeAt i, .removeAt j => i = j
  | .takeAt i, .takeAt j => i = j
  | _, _ => False

def InRange (l : List Val) : Op Val → Prop
  | .insert i _ => 0 ≤ i ∧ i ≤ l.length
  | .append _ | .prepend _ => True
  | .replace i _ | .removeAt i | .takeAt i => 0 ≤ i ∧ i < l.length

def apply (l : List Val) : Op Val → List Val
  | .insert i x => l.insertIdx i.toNat x
  | .append x => l ++ [x]
  | .prepend x => x :: l
  | .replace i x => l.set i.toNat x
  | .removeAt i | .takeAt i => l.eraseIdx i.toNat

/-- The value to store fits into an array of the given size. -/
def FitsIn (fill : Nat → UInt8) (size : Nat) : Op JsonValue → Prop
  | .insert _ v | .append v | .prepend v | .replace _ v =>
    ∀ val n c, requiredStorage fill v = some (val, n, c) → Fits size (n + 4)
  | .removeAt _ | .takeAt _ => True

end Op

section Step

variable (fill : Nat → UInt8) (shared : Bool) {a : Handle} {size : Nat} {es : List (Val × Nat)}

/-- What an operation that has been tried leaves behind. -/
def Outcome (r : Option (Bool × Handle)) (es : List (Val × Nat)) (l : List Val) (fits : Prop) : Prop :=
  ∃ stored a' size' es', r = some (stored, a') ∧ Refers Stored false a' size' es' ∧
    (fits → stored = true) ∧ es'.map Prod.fst = if stored then l else es.map Prod.fst

theorem exists_split {α : Type} {l : List α} {i : Nat} (h : i ≤ l.length) :
    ∃ l₁ l₂, l = l₁ ++ l₂ ∧ l₁.length = i :=
  ⟨l.take i, l.drop i, (List.take_append_drop i l).symm, by rw [List.length_take]; omega⟩

theorem exists_split_cons {α : Type} {l : List α} {i : Nat} (h : i < l.length) :
    ∃ l₁ x l₂, l = l₁ ++ x :: l₂ ∧ l₁.length = i := by
  refine ⟨l.take i, l[i], l.drop (i + 1), ?_, by rw [List.length_take]; omega⟩
  rw [← List.drop_eq_getElem_cons h, List.take_append_drop]

/-- What `insert` does to the base. -/
theorem insert_exact {es₁ es₂ : List (Val × Nat)} (ha : Refers Stored false a size (es₁ ++ es₂))
    {v val : JsonValue} {x : Val} {n : Nat} {c : Bool}
    (hreq : requiredStorage fill v = some (val, n, c)) (hs : Storable val n c x) :
    ∃ stored a', insert fill shared a es₁.length v = some (stored, a') ∧
      (Fits size (n + 4) → stored = true) ∧
      (stored = false → Refers Stored false a' size (es₁ ++ es₂)) ∧
      (stored = true → Refers Stored false a' (size + n + 4) (es₁ ++ (x, n) :: es₂)) := by
  have hM : maxSize = 0x7FFFFFF := rfl
  obtain ⟨y, hdet, -, hfits, hy⟩ := detach_spec fill shared (n + 4) ha
  have hsize := getSize_spec ha
  rw [List.length_append] at hsize
  unfold insert
  simp only [hsize, hreq, hdet, Option.bind_eq_bind, Option.bind_some, Int.toNat_natCast]
  rw [if_neg (by omega)]
  cases y with
  | none =>
    refine ⟨false, a, rfl, fun hf => absurd (hfits hf) Bool.false_ne_true, fun _ => ha,
      fun h => absurd h Bool.false_ne_true⟩
  | some b =>
    obtain ⟨d, p⟩ := b
    obtain ⟨rfl, hc, hroom⟩ := hy d p rfl
    obtain ⟨stored, d', hat, hfit, hno, hyes⟩ := insertAt_spec hc hs hroom
    refine ⟨stored, _, hat, fun hf => hfit ?_, fun h => ⟨rfl, hno h⟩, fun h => ⟨rfl, hyes h⟩⟩
    unfold Fits at hf
    omega

theorem insert_spec (ha : Refers Stored false a size es) {v : JsonValue} {x : Val}
    (hv : Represents v x) {i : Nat} (hi : i ≤ es.length) :
    Outcome (insert fill shared a i v) es ((es.map Prod.fst).insertIdx i x)
      (∀ val n c, requiredStorage fill v = some (val, n, c) → Fits size (n + 4)) := by
  obtain ⟨val, n, c, hreq, hs⟩ := requiredStorage_spec fill hv
  obtain ⟨es₁, es₂, rfl, rfl⟩ := exists_split hi
  obtain ⟨stored, a', hins, hfits, hno, hyes⟩ := insert_exact fill shared ha hreq hs
  cases stored with
  | false =>
    exact ⟨false, a', size, es₁ ++ es₂, hins, hno rfl, fun hf => hfits (hf _ _ _ hreq),
      by rw [if_neg Bool.false_ne_true]⟩
  | true =>
    refine ⟨true, a', _, _, hins, hyes rfl, fun _ => rfl, ?_⟩
    have happ := Account.insertIdx_append (es₁.map Prod.fst) (es₂.map Prod.fst) x
    rw [List.length_map] at happ
    rw [if_pos rfl, List.map_append, List.map_append, List.map_cons, happ]

/-- What `replace` does to the base. -/
theorem replace_exact {es₁ es₂ : List (Val × Nat)} {e : Val × Nat}
    (ha : Refers Stored false a size (es₁ ++ e :: es₂)) {v val : JsonValue} {x : Val} {n : Nat}
    {c : Bool} (hreq : requiredStorage fill v = some (val, n, c)) (hs : Storable val n c x) :
    ∃ stored a', replace fill shared a es₁.length v = some (stored, a') ∧
      (Fits size n → stored = true) ∧
      (stored = false → Refers Stored false a' size (es₁ ++ e :: es₂)) ∧
      (stored = true → ∃ counter, keptCounter shared a n = some counter ∧
        Refers Stored false a' (settledSize (counter + 1) (size + n) (es₁ ++ (x, n) :: es₂))
          (es₁ ++ (x, n) :: es₂)) := by
  have hM : maxSize = 0x7FFFFFF := rfl
  obtain ⟨y, hdet, -, hfits, hy⟩ := detach_spec fill shared n ha
  have hsize := getSize_spec ha
  rw [List.length_append, List.length_cons] at hsize
  unfold replace
  simp only [hsize, hreq, hdet, Option.bind_eq_bind, Option.bind_some, Int.toNat_natCast]
  rw [if_neg (by omega)]
  cases y with
  | none =>
    refine ⟨false, a, rfl, fun hf => absurd (hfits hf) Bool.false_ne_true, fun _ => ha,
      fun h => absurd h Bool.false_ne_true⟩
  | some b =>
    obtain ⟨d, p⟩ := b
    obtain ⟨rfl, hc, hroom⟩ := hy d p rfl
    obtain ⟨stored, d', hat, hfit, hno, hyes⟩ := replaceAt_spec fill hc hs hroom
    refine ⟨stored, _, hat, fun hf => hfit ?_, fun h => ⟨rfl, hno h⟩,
      fun h => ⟨_, detach_counter fill shared n ha hdet, rfl, hyes h⟩⟩
    unfold Fits at hf
    omega

theorem replace_spec (ha : Refers Stored false a size es) {v : JsonValue} {x : Val}
    (hv : Represents v x) {i : Nat} (hi : i < es.length) :
    Outcome (replace fill shared a i v) es ((es.map Prod.fst).set i x)
      (∀ val n c, requiredStorage fill v = some (val, n, c) → Fits size (n + 4)) := by
  obtain ⟨val, n, c, hreq, hs⟩ := requiredStorage_spec fill hv
  obtain ⟨es₁, e, es₂, rfl, rfl⟩ := exists_split_cons hi
  obtain ⟨stored, a', hrep, hfits, hno, hyes⟩ := replace_exact fill shared ha hreq hs
  have hfits' (hf : ∀ val n c, requiredStorage fill v = some (val, n, c) → Fits size (n + 4)) :
      stored = true := by
    refine hfits ?_
    have := hf _ _ _ hreq
    unfold Fits at this ⊢
    omega
  cases stored with
  | false =>
    exact ⟨false, a', size, es₁ ++ e :: es₂, hrep, hno rfl, hfits',
      by rw [if_neg Bool.false_ne_true]⟩
  | true =>
    obtain ⟨counter, -, ha'⟩ := hyes rfl
    refine ⟨true, a', _, _, hrep, ha', fun _ => rfl, ?_⟩
    rw [if_pos rfl, List.map_append, List.map_append, List.map_cons, List.map_cons,
      List.set_append_right _ _ (by rw [List.length_map]), List.length_map, Nat.sub_self,
      List.set_cons_zero]

/-- What `removeAt` does to the base. -/
theorem removeAt_exact {es₁ es₂ : List (Val × Nat)} {e : Val × Nat}
    (ha : Refers Stored false a size (es₁ ++ e :: es₂)) :
    ∃ a' counter, removeAt fill shared a es₁.length = some a' ∧
      keptCounter shared a 0 = some counter ∧
      Refers Stored false a' (settledSize (counter + 1) size (es₁ ++ es₂)) (es₁ ++ es₂) := by
  obtain ⟨y, hdet, hsome, -, hy⟩ := detach_spec fill shared 0 ha
  have hsize := getSize_spec ha
  rw [List.length_append, List.length_cons] at hsize
  unfold removeAt
  simp only [hsize, hdet, Option.bind_eq_bind, Option.bind_some, Int.toNat_natCast]
  rw [if_neg (by omega)]
  cases y with
  | none =>
    cases a with
    | none =>
      obtain ⟨-, hnil⟩ := ha
      exact absurd hnil (by simp)
    | some b => exact absurd (hsome rfl rfl) Bool.false_ne_true
  | some b =>
    obtain ⟨d, p⟩ := b
    obtain ⟨rfl, hc, -⟩ := hy d p rfl
    obtain ⟨d', hdrop, hc'⟩ := dropAt_spec fill movable_stored hc
    exact ⟨_, _, hdrop, detach_counter fill shared 0 ha hdet, rfl, hc'⟩

theorem removeAt_spec (ha : Refers Stored false a size es) {i : Nat} (hi : i < es.length) :
    ∃ a' size' es', removeAt fill shared a i = some a' ∧ Refers Stored false a' size' es' ∧
      es'.map Prod.fst = (es.map Prod.fst).eraseIdx i := by
  obtain ⟨es₁, e, es₂, rfl, rfl⟩ := exists_split_cons hi
  obtain ⟨a', counter, hrem, -, ha'⟩ := removeAt_exact fill shared ha
  refine ⟨a', _, es₁ ++ es₂, hrem, ha', ?_⟩
  rw [List.map_append, List.map_append, List.map_cons,
    List.eraseIdx_append_of_length_le (by rw [List.length_map]), List.length_map, Nat.sub_self,
    List.eraseIdx_cons_zero]

/-- The value that is taken out is the element. -/
theorem takeAt_spec (ha : Refers Stored false a size es) {i : Nat} (hi : i < es.length) :
    ∃ v a' size' es', takeAt fill shared a i = some (v, a') ∧ Represents v es[i].1 ∧
      Refers Stored false a' size' es' ∧ es'.map Prod.fst = (es.map Prod.fst).eraseIdx i := by
  obtain ⟨v, hv, hrep⟩ := at?_spec ha hi
  obtain ⟨a', size', es', hrem, ha', hes'⟩ :=
    removeAt_spec fill (shared || isContainer v) ha hi
  refine ⟨v, a', size', es', ?_, hrep, ha', hes'⟩
  unfold takeAt
  rw [hv, Option.bind_eq_bind, Option.bind_some, hrem]
  rfl

/-- One operation: it runs without an access outside of the block, and does to the
elements what the operation of the list does. It is refused only when the value
does not fit, and then the elements are as before. -/
theorem perform_spec (ha : Refers Stored false a size es) {op : Op JsonValue} {opx : Op Val}
    (hop : op.Represents opx) (hin : opx.InRange (es.map Prod.fst)) :
    Outcome (perform fill shared a op) es (opx.apply (es.map Prod.fst)) (op.FitsIn fill size) := by
  have htaken : ∀ {r : Option Handle} {l : List Val} {P : Prop}, (∃ a' size' es', r = some a' ∧
      Refers Stored false a' size' es' ∧ es'.map Prod.fst = l) →
      Outcome (r.map fun a => (true, a)) es l P := by
    intro r l P h
    obtain ⟨a', size', es', rfl, ha', hl⟩ := h
    exact ⟨true, a', size', es', rfl, ha', fun _ => rfl, by rw [if_pos rfl, hl]⟩
  cases op with
  | insert i v =>
    cases opx with
    | insert j x =>
      obtain ⟨rfl, hv⟩ := hop
      obtain ⟨h0, hi⟩ := hin
      rw [List.length_map] at hi
      obtain ⟨k, rfl⟩ := Int.eq_ofNat_of_zero_le h0
      exact insert_spec fill shared ha hv (by omega)
    | _ => cases hop
  | append v =>
    cases opx with
    | append x =>
      have hspec := insert_spec fill shared ha hop (Nat.le_refl es.length)
      have happ := List.insertIdx_length_self (l := es.map Prod.fst) (x := x)
      rw [List.length_map] at happ
      rw [happ] at hspec
      have happend : append fill shared a v = insert fill shared a es.length v := by
        unfold append
        rw [getSize_spec ha]
        rfl
      rw [perform, happend]
      exact hspec
    | _ => cases hop
  | prepend v =>
    cases opx with
    | prepend x => exact insert_spec fill shared ha hop (Nat.zero_le _)
    | _ => cases hop
  | replace i v =>
    cases opx with
    | replace j x =>
      obtain ⟨rfl, hv⟩ := hop
      obtain ⟨h0, hi⟩ := hin
      rw [List.length_map] at hi
      obtain ⟨k, rfl⟩ := Int.eq_ofNat_of_zero_le h0
      exact replace_spec fill shared ha hv (by omega)
    | _ => cases hop
  | removeAt i =>
    cases opx with
    | removeAt j =>
      cases hop
      obtain ⟨h0, hi⟩ := hin
      rw [List.length_map] at hi
      obtain ⟨k, rfl⟩ := Int.eq_ofNat_of_zero_le h0
      exact htaken (removeAt_spec fill shared ha (by omega))
    | _ => cases hop
  | takeAt i =>
    cases opx with
    | takeAt j =>
      cases hop
      obtain ⟨h0, hi⟩ := hin
      rw [List.length_map] at hi
      obtain ⟨k, rfl⟩ := Int.eq_ofNat_of_zero_le h0
      obtain ⟨v, a', size', es', htake, -, ha', hl⟩ :=
        takeAt_spec fill shared ha (show k < es.length by omega)
      have := htaken (P := True) ⟨a', size', es', rfl, ha', hl⟩
      rw [perform, htake]
      exact htaken ⟨a', size', es', rfl, ha', hl⟩
    | _ => cases hop

end Step

/-! ## Whole runs -/

/-- A step: an operation on values, the operation of the list that it stands for,
and whether other references to the block are around. -/
structure Label where
  shared : Bool
  op : Op JsonValue
  val : Op Val

/-- The array next to the list. Every operation is in range and none is refused
because of the size of the document. -/
def system (fill : Nat → UInt8) : Lts (Handle × List Val) Label where
  init s := s = (none, [])
  step s l s' := l.op.Represents l.val ∧ l.val.InRange s.2 ∧
    perform fill l.shared s.1 l.op = some (true, s'.1) ∧ s'.2 = l.val.apply s.2

def Inv (s : Handle × List Val) : Prop :=
  ∃ size es, Refers Stored false s.1 size es ∧ es.map Prod.fst = s.2

theorem inductive_inv (fill : Nat → UInt8) : (system fill).Inductive Inv where
  init := by
    intro s hs
    cases hs
    exact ⟨12, [], ⟨rfl, rfl⟩, rfl⟩
  step := by
    intro s l s' hinv hstep
    obtain ⟨size, es, ha, hes⟩ := hinv
    obtain ⟨hop, hin, hperf, hl⟩ := hstep
    rw [← hes] at hin
    obtain ⟨stored, a', size', es', hr, ha', -, hes'⟩ := perform_spec fill _ ha hop hin
    rw [hperf] at hr
    cases hr
    exact ⟨size', es', ha', by rw [hes', if_pos rfl, hl, hes]⟩

/-- The buffer invariant: the table lies in the base, and the base in the block. -/
def InBuffer (a : Handle) : Prop :=
  ∀ d p, a = some (d, p) → ∃ t len size, tableOffset d.raw p = some t ∧
    baseLength d.raw p = some len ∧ baseSize d.raw p = some size ∧ t + 4 * len ≤ size ∧
      size ≤ d.raw.length - 8

theorem Inv.inBuffer {s : Handle × List Val} (h : Inv s) : InBuffer s.1 := by
  obtain ⟨size, es, ha, -⟩ := h
  intro d p hd
  rw [hd] at ha
  obtain ⟨rfl, hc⟩ := ha
  obtain ⟨t, ht, -, htab, hin⟩ := hc.bounds
  rw [length_header] at ht hin
  exact ⟨t, es.length, size, ht, hc.baseLength, hc.baseSize, htab, by unfold root at hin; omega⟩

/-- What the array reports is the list. -/
structure Reports (a : Handle) (l : List Val) : Prop where
  size : getSize a = some l.length
  get : ∀ i : Nat, ∀ x, l[i]? = some x → ∃ v, at? a i = some v ∧ Json.Represents v x
  out : ∀ i : Int, i < 0 ∨ (l.length : Int) ≤ i → at? a i = some .undefined
  first : ∀ x, l.head? = some x → ∃ v, first a = some v ∧ Json.Represents v x
  last : ∀ x, l.getLast? = some x → ∃ v, last a = some v ∧ Json.Represents v x
  none : l = [] → JsonArray.first a = some .undefined ∧ JsonArray.last a = some .undefined

theorem Inv.reports {s : Handle × List Val} (h : Inv s) : Reports s.1 s.2 := by
  obtain ⟨size, es, ha, hes⟩ := h
  have hlen : s.2.length = es.length := by rw [← hes, List.length_map]
  have hget : ∀ i : Nat, ∀ x, s.2[i]? = some x → ∃ v, at? s.1 i = some v ∧ Json.Represents v x := by
    intro i x hx
    rw [← hes, List.getElem?_map, Option.map_eq_some_iff] at hx
    obtain ⟨e, he, rfl⟩ := hx
    obtain ⟨hi, rfl⟩ := List.getElem?_eq_some_iff.mp he
    exact at?_spec ha hi
  have hsize := getSize_spec ha
  rw [← hlen] at hsize
  have hlast : s.2 ≠ [] → JsonArray.last s.1 = at? s.1 ((s.2.length - 1 : Nat) : Int) := by
    intro hne
    have hpos := List.length_pos_iff.mpr hne
    have hsome : s.1.isSome = true := by
      cases hs : s.1 with
      | some b => rfl
      | none =>
        rw [hs] at ha
        obtain ⟨-, rfl⟩ := ha
        rw [← hes] at hpos
        cases hpos
    unfold JsonArray.last
    rw [hsize, Option.bind_eq_bind, Option.bind_some, if_pos hsome]
    congr 1
    omega
  refine ⟨hsize, hget, fun i hi => at?_out ha (by omega), fun x hx => ?_, fun x hx => ?_,
    fun hnil => ⟨?_, ?_⟩⟩
  · rw [List.head?_eq_getElem?] at hx
    exact hget 0 x hx
  · rw [hlast (by rintro h; rw [h] at hx; cases hx)]
    rw [List.getLast?_eq_getElem?] at hx
    exact hget _ x hx
  · rw [hnil, List.length_nil] at hlen
    exact at?_out ha (by omega)
  · rw [hnil, List.length_nil] at hlen hsize
    unfold JsonArray.last
    rw [hsize, Option.bind_eq_bind, Option.bind_some]
    exact at?_out ha (by split <;> omega)

/-- An array may be stored in another one. -/
theorem Inv.represents {s : Handle × List Val} (h : Inv s) :
    Json.Represents (.array s.1) (.array s.2) := by
  obtain ⟨size, es, ha, hes⟩ := h
  rw [← hes]
  cases hs : s.1 with
  | none =>
    rw [hs] at ha
    obtain ⟨-, rfl⟩ := ha
    rfl
  | some b =>
    obtain ⟨d, p⟩ := b
    rw [hs] at ha
    obtain ⟨rfl, hc⟩ := ha
    obtain ⟨sub, hp, halone, halign, hhead, hsmall⟩ := hc.alone
    exact ⟨sub, hp, halone.selfContained halign hhead hsmall⟩

/-- The size of the base, or of the one that the first operation makes. -/
def currentSize : Handle → Option Nat
  | none => some 12
  | some (d, p) => baseSize d.raw p

theorem currentSize_spec {a : Handle} {size : Nat} {es : List (Val × Nat)}
    (ha : Refers Stored false a size es) : currentSize a = some size := by
  cases a with
  | none =>
    obtain ⟨rfl, -⟩ := ha
    rfl
  | some b =>
    obtain ⟨d, p⟩ := b
    obtain ⟨rfl, hc⟩ := ha
    exact hc.baseSize

/-- In every run from an empty array, in which no operation is refused because the
document would reach the maximal size, the array reports the list, lies in its
block, and stands for the list wherever it is stored. Every further operation in
range runs without an access outside of the block and leaves the array in its
block. It is refused only when the value does not fit, and then the array reports
what it has reported before. -/
theorem array_refines_list (fill : Nat → UInt8) {a : Handle} {l : List Val}
    (h : (system fill).Reachable (a, l)) :
    Reports a l ∧ InBuffer a ∧ Json.Represents (.array a) (.array l) ∧
      (∀ shared op opx, op.Represents opx → opx.InRange l →
        ∃ stored a', perform fill shared a op = some (stored, a') ∧ InBuffer a' ∧
          Reports a' (if stored then opx.apply l else l) ∧
          ((∀ size, currentSize a = some size → op.FitsIn fill size) → stored = true)) ∧
      ∀ shared (i : Nat) x, l[i]? = some x →
        ∃ v a', takeAt fill shared a i = some (v, a') ∧ Json.Represents v x := by
  have hinv := (inductive_inv fill).reachable (a, l) h
  refine ⟨hinv.reports, hinv.inBuffer, hinv.represents, ?_, ?_⟩
  · intro shared op opx hop hin
    obtain ⟨size, es, ha, hes⟩ := hinv
    simp only at ha hes
    rw [← hes] at hin ⊢
    obtain ⟨stored, a', size', es', hr, ha', hfit, hes'⟩ :=
      perform_spec fill shared ha hop hin
    have hinv' : Inv (a', if stored then opx.apply (es.map Prod.fst) else es.map Prod.fst) :=
      ⟨size', es', ha', hes'⟩
    exact ⟨stored, a', hr, hinv'.inBuffer, hinv'.reports,
      fun hfits => hfit (hfits size (currentSize_spec ha))⟩
  · intro shared i x hx
    obtain ⟨size, es, ha, hes⟩ := hinv
    simp only at ha hes
    rw [← hes, List.getElem?_map, Option.map_eq_some_iff] at hx
    obtain ⟨e, he, rfl⟩ := hx
    obtain ⟨hi, rfl⟩ := List.getElem?_eq_some_iff.mp he
    obtain ⟨v, a', -, -, htake, hv, -, -⟩ := takeAt_spec fill shared ha hi
    exact ⟨v, a', htake, hv⟩

/-- An array after one operation, in a block of zeros. -/
def oneElement : Handle :=
  some (⟨header ++ headBytes false 16 1 12 ++ toLe 4 (valueWord 1 false false 1) ++ toLe 4 0, 0⟩, root)

theorem oneElement_reports : Reports oneElement [.bool true] ∧ InBuffer oneElement := by
  have hop : (system fun _ => 0).step (none, []) ⟨false, .append (.bool true), .append (.bool true)⟩
      (oneElement, [.bool true]) := ⟨rfl, trivial, by decide, rfl⟩
  have hstep : (system fun _ => 0).Reachable (oneElement, [.bool true]) :=
    ⟨(none, []), [⟨false, .append (.bool true), .append (.bool true)⟩], rfl,
      .cons hop (.nil _)⟩
  exact ⟨(array_refines_list _ hstep).1, (array_refines_list _ hstep).2.1⟩

end Libpdk.Json.JsonArray
