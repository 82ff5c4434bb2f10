import Libpdk.Json.Layout
import Libpdk.Json.BaseLayout

/-!
# Storing a value

A `JsonValue` is what the API passes around: a scalar, a string, or a container,
which is a base inside of the block of some array, object or document. An
insertion asks how much storage the value takes (`requiredStorage`), writes the
value word (`valueToStore`) and copies the data (`copyData`).

What is read from a part of a block does not depend on where the part lies and
what is around it (`readBase_embed`): offsets count from the base. So the data
of a value may be copied to any place (`Payload`), and a value is in the body of
a base when its word holds it or points to such data (`Stored`).

`Represents` is the value that a `JsonValue` stands for, and
`requiredStorage_spec` says that what is written for it can be read back.
-/
namespace Libpdk.Json

open Libpdk.Mem

/-- A container is a base of a block, or none at all when it has just been made.
mirrors utils/json/JsonValue.h:56-65 and 175-184 -/
inductive JsonValue where
  | undefined
  | null
  | bool (b : Bool)
  | double (bits : UInt64)
  | string (s : Str)
  | array (base : Option (Data × Nat))
  | object (base : Option (Data × Nat))

/-- The value of a word of the base at `p`.
mirrors utils/json/JsonValue.cpp:40-72 -/
def JsonValue.ofWord (d : Data) (p w : Nat) : Option JsonValue :=
  match wordKind w with
  | .null => some .null
  | .bool => some (.bool (wordValue w != 0))
  | .double =>
    if latinOrIntValue w then some (.double (doubleOfInt (intValue w)))
    else (le 8 d.raw (p + wordValue w)).map fun bits => .double (UInt64.ofNat bits)
  | .string => (readString d.raw (latinOrIntValue w) (p + wordValue w)).map .string
  | .array => some (.array (some (d, p + wordValue w)))
  | .object => some (.object (some (d, p + wordValue w)))

/-! ## Strings and numbers -/

/-- mirrors utils/json/internal/JsonPrivate.h:128-142 -/
def useCompressed (s : Str) : Bool := decide (s.length < 0x8000) && s.all fun c => decide (c ≤ 0xFF)

/-- mirrors utils/json/internal/JsonPrivate.h:144-151 -/
def stringSize (s : Str) (compress : Bool) : Nat :=
  align (if compress then 2 + s.length else (2 + s.length) * 2)

/-- The bytes of code units. -/
def unitBytes (s : Str) : Bytes := s.flatMap fun c => toLe 2 c.toNat

/-- What `copy_string` writes at `dest`. A Latin-1 string is padded up to a
4-aligned address, a UTF-16 string of odd length by one null unit.
mirrors utils/json/internal/JsonPrivate.h:208-223, 313-349 and 474-483 -/
def copyString (dest : Nat) (s : Str) (compress : Bool) : Bytes :=
  if compress then
    let n := dest + 2 + s.length
    toLe 2 s.length ++ s.map UInt16.toUInt8 ++ List.replicate (align n - n) 0
  else toLe 4 s.length ++ unitBytes s ++ if s.length % 2 = 1 then [0, 0] else []

/-- The integer of a double that is one below `2 ^ 26`, by its bits.
mirrors utils/json/internal/JsonPrivate.h:154-177 -/
def compressedNumber (bits : UInt64) : Option Int :=
  let val := bits.toNat
  let exp : Int := (val / 2 ^ 52 % 2 ^ 11 : Nat) - 1023
  if exp < 0 ∨ 25 < exp then none
  else
    let fraction := val % 2 ^ 52
    if fraction % 2 ^ (52 - exp.toNat) ≠ 0 then none
    else
      let res : Int := ((fraction + 2 ^ 52) / 2 ^ (52 - exp.toNat) : Nat)
      some (if val / 2 ^ 63 ≠ 0 then -res else res)

/-! ## `LocalValue` -/

/-- `JsonValue::detach`; it keeps the other references to the block.
mirrors utils/json/JsonValue.cpp:383-395 -/
def detachValue (fill : Nat → UInt8) (d : Data) (p : Nat) : Option (Data × Nat) := do
  let x ← clone fill d p false 0
  let x ← x
  some (x, root)

/-- The container that is stored: a block with garbage in it is copied first.
The value is a copy of the argument, so its block is never the only reference. -/
def compacted (fill : Nat → UInt8) (d : Data) (p : Nat) : Option (Data × Nat) :=
  if d.compactionCounter = 0 then some (d, p)
  else do
    let (x, _) ← detachValue fill d p
    let x ← compact fill x
    some (x, root)

/-- The value to store, the size of its data, and `compressed`.
mirrors utils/json/Json.cpp:351-380 -/
def requiredStorage (fill : Nat → UInt8) : JsonValue → Option (JsonValue × Nat × Bool)
  | .double bits =>
    if (compressedNumber bits).isSome then some (.double bits, 0, true)
    else some (.double bits, 8, false)
  | .string s => some (.string s, stringSize s (useCompressed s), useCompressed s)
  | .array none => some (.array none, 12, false)
  | .object none => some (.object none, 12, false)
  | .array (some (d, p)) => do
    let (d, p) ← compacted fill d p
    let size ← baseSize d.raw p
    some (.array (some (d, p)), size, false)
  | .object (some (d, p)) => do
    let (d, p) ← compacted fill d p
    let size ← baseSize d.raw p
    some (.object (some (d, p)), size, false)
  | v => some (v, 0, false)

/-- mirrors utils/json/Json.cpp:382-403 -/
def valueToStore (v : JsonValue) (offset : Nat) : Nat :=
  match v with
  | .undefined | .null => 0
  | .bool b => b.toNat
  | .double bits =>
    match compressedNumber bits with
    | some c => toUInt32 c
    | none => offset
  | .string _ | .array _ | .object _ => offset

/-- `sg_emptyArray` and `sg_emptyObject`, which are the same bytes. -/
def emptyBase : Bytes := toLe 4 12 ++ toLe 4 0 ++ toLe 4 0

/-- `memcpy(dest, b, b->m_size)` of a container. -/
def baseBytes : Option (Data × Nat) → Option Bytes
  | none => some emptyBase
  | some (d, p) => do
    let size ← baseSize d.raw p
    peek d.raw p size

/-- What `copyData` writes at `dest`.
mirrors utils/json/Json.cpp:405-431 -/
def dataBytes (dest : Nat) (v : JsonValue) (compressed : Bool) : Option Bytes :=
  match v with
  | .double bits => some (if compressed then [] else toLe 8 bits.toNat)
  | .string s => some (copyString dest s compressed)
  | .array base => baseBytes base
  | .object base => baseBytes base
  | _ => some []

def copyData (m : Bytes) (dest : Nat) (v : JsonValue) (compressed : Bool) : Option Bytes := do
  let bytes ← dataBytes dest v compressed
  poke m dest bytes

/-- `m_type` of a stored value; `Undefined` becomes `Null`. -/
def typeTag : JsonValue → Nat
  | .undefined | .null => 0
  | .bool _ => 1
  | .double _ => 2
  | .string _ => 3
  | .array _ => 4
  | .object _ => 5

/-- The word with the given fields. -/
def valueWord (tag : Nat) (latinOrInt latinKey : Bool) (value : Nat) : Nat :=
  tag + 8 * latinOrInt.toNat + 16 * latinKey.toNat + 32 * (value % 2 ^ 27)

/-! ## The word without its offset -/

theorem wordKind_mod (w : Nat) : wordKind (w % 32) = wordKind w := by
  unfold wordKind
  rw [show w % 32 % 8 = w % 8 by omega]

theorem latinOrIntValue_mod (w : Nat) : latinOrIntValue (w % 32) = latinOrIntValue w := by
  unfold latinOrIntValue
  rw [show w % 32 / 8 % 2 = w / 8 % 2 by omega]

theorem outOfLine_mod (w : Nat) : outOfLine (w % 32) = outOfLine w := by
  unfold outOfLine
  rw [wordKind_mod, latinOrIntValue_mod]

theorem wordValue_mod (w : Nat) : wordValue (w % 32) = 0 := by
  unfold wordValue
  omega

theorem wordKind_congr {w w' : Nat} (h : w' % 32 = w % 32) : wordKind w' = wordKind w := by
  rw [← wordKind_mod w', h, wordKind_mod]

theorem latinOrIntValue_congr {w w' : Nat} (h : w' % 32 = w % 32) :
    latinOrIntValue w' = latinOrIntValue w := by
  rw [← latinOrIntValue_mod w', h, latinOrIntValue_mod]

/-! ## Reading a part of a block -/

theorem unitsUntilNull_append {X junk : Bytes} {s : Str} (h : unitsUntilNull X = some s) :
    unitsUntilNull (X ++ junk) = some s := by
  induction X using unitsUntilNull.induct generalizing s with
  | case1 lo hi rest hnull =>
    rw [unitsUntilNull, if_pos hnull] at h
    rwa [List.cons_append, List.cons_append, unitsUntilNull, if_pos hnull]
  | case2 lo hi rest hnull ih =>
    rw [unitsUntilNull, if_neg hnull, Option.map_eq_some_iff] at h
    obtain ⟨s', hs', rfl⟩ := h
    rw [List.cons_append, List.cons_append, unitsUntilNull, if_neg hnull, ih hs', Option.map_some]
  | case3 X hX =>
    rw [unitsUntilNull] at h
    · cases h
    · exact hX

/-- A value that is held by its word. -/
theorem readValue_inline {m X : Bytes} {sub sub' : Bool → Nat → Option Val} {k p w : Nat} {v : Val}
    (hout : outOfLine w = false) (h : readValue sub X k w = some v) :
    readValue sub' m p w = some v := by
  unfold readValue at h ⊢
  unfold outOfLine at hout
  cases hk : wordKind w with
  | null => rwa [hk] at h
  | bool => rwa [hk] at h
  | double =>
    rw [hk] at h hout
    have hflag : latinOrIntValue w = true := by simpa using hout
    rw [hflag, if_pos rfl] at h ⊢
    exact h
  | string => rw [hk] at hout; cases hout
  | array => rw [hk] at hout; cases hout
  | object => rw [hk] at hout; cases hout

section Embed

variable {m A X B : Bytes} (hm : m = A ++ X ++ B)
include hm

theorem readString_embed {latin : Bool} {k : Nat} {s : Str} (h : readString X latin k = some s) :
    readString m latin (A.length + k) = some s := by
  cases latin with
  | true =>
    simp only [readString, readLatin1, if_true, Option.bind_eq_bind, Option.bind_eq_some_iff] at h ⊢
    obtain ⟨n, hn, bs, hbs, hs⟩ := h
    exact ⟨n, le_embed hm hn, bs, peek_embed hm hbs, hs⟩
  | false =>
    simp only [readString, readUtf16, Bool.false_eq_true, if_false, Option.bind_eq_bind,
      Option.bind_eq_some_iff] at h ⊢
    obtain ⟨n, hn, hs⟩ := h
    refine ⟨n, le_embed hm hn, ?_⟩
    split
    · next hneg =>
      rw [if_pos hneg] at hs
      have hle := le_bound hn
      have hdrop : m.drop (A.length + k + 4) = X.drop (k + 4) ++ B := by
        rw [hm, List.append_assoc, Nat.add_assoc, List.drop_length_add_append,
          List.drop_append_of_le_length hle]
      rw [hdrop]
      exact unitsUntilNull_append hs
    · next hpos =>
      rw [if_neg hpos, Option.map_eq_some_iff] at hs
      obtain ⟨bs, hbs, rfl⟩ := hs
      rw [Nat.add_assoc, peek_embed hm hbs, Option.map_some]

theorem tableAt_embed {k i w : Nat} (h : tableAt X k i = some w) :
    tableAt m (A.length + k) i = some w := by
  simp only [tableAt, tableOffset, Option.bind_eq_bind, Option.bind_eq_some_iff] at h ⊢
  obtain ⟨t, ht, hw⟩ := h
  refine ⟨t, ?_, ?_⟩
  · rw [Nat.add_assoc]
    exact le_embed hm ht
  · rw [Nat.add_assoc, Nat.add_assoc]
    rw [Nat.add_assoc] at hw
    exact le_embed hm hw

theorem elementWord_embed {obj : Bool} {k i w : Nat} (h : elementWord X obj k i = some w) :
    elementWord m obj (A.length + k) i = some w := by
  simp only [elementWord, Option.bind_eq_bind, Option.bind_eq_some_iff] at h ⊢
  obtain ⟨x, hx, hw⟩ := h
  refine ⟨x, tableAt_embed hm hx, ?_⟩
  split
  · next hobj =>
    rw [if_pos hobj] at hw
    rw [Nat.add_assoc]
    exact le_embed hm hw
  · next hobj => rwa [if_neg hobj] at hw

theorem entryKey_embed {k i : Nat} {s : Str} (h : entryKey X k i = some s) :
    entryKey m (A.length + k) i = some s := by
  simp only [entryKey, Option.bind_eq_bind, Option.bind_eq_some_iff] at h ⊢
  obtain ⟨off, hoff, w, hw, hs⟩ := h
  refine ⟨off, tableAt_embed hm hoff, w, ?_, ?_⟩
  · rw [Nat.add_assoc]
    exact le_embed hm hw
  · rw [Nat.add_assoc, Nat.add_assoc, ← Nat.add_assoc k]
    exact readString_embed hm hs

/-- Moving the data of a value, with a word that differs only in the offset. -/
theorem readValue_move {sub sub' : Bool → Nat → Option Val} {k p w w' : Nat} {v : Val}
    (hsub : ∀ obj k v, sub obj k = some v → sub' obj (A.length + k) = some v)
    (hw : w' % 32 = w % 32) (hout : outOfLine w = true)
    (hp : p + wordValue w' = A.length + (k + wordValue w)) (h : readValue sub X k w = some v) :
    readValue sub' m p w' = some v := by
  have hkind := wordKind_congr hw
  have hflag := latinOrIntValue_congr hw
  unfold readValue at h ⊢
  unfold outOfLine at hout
  rw [hkind, hflag, hp]
  cases hk : wordKind w with
  | null => rw [hk] at hout; cases hout
  | bool => rw [hk] at hout; cases hout
  | double =>
    rw [hk] at h hout
    have hflag' : latinOrIntValue w = false := by simpa using hout
    simp only [hflag', Bool.false_eq_true, if_false, Option.map_eq_some_iff] at h ⊢
    obtain ⟨bits, hbits, hv⟩ := h
    exact ⟨bits, le_embed hm hbits, hv⟩
  | string =>
    simp only [hk, Option.map_eq_some_iff] at h ⊢
    obtain ⟨s, hs, hv⟩ := h
    exact ⟨s, readString_embed hm hs, hv⟩
  | array =>
    rw [hk] at h
    exact hsub false _ v h
  | object =>
    rw [hk] at h
    exact hsub true _ v h

theorem readValue_embed {sub sub' : Bool → Nat → Option Val} {k w : Nat} {v : Val}
    (hsub : ∀ obj k v, sub obj k = some v → sub' obj (A.length + k) = some v)
    (h : readValue sub X k w = some v) : readValue sub' m (A.length + k) w = some v := by
  cases hout : outOfLine w with
  | true => exact readValue_move hm hsub rfl hout (Nat.add_assoc _ _ _) h
  | false => exact readValue_inline hout h

/-- A base reads the same wherever it lies, and with more fuel. -/
theorem readBase_embed {n n' : Nat} (hn : n ≤ n') {obj : Bool} {k : Nat} {v : Val}
    (h : readBase n X obj k = some v) : readBase n' m obj (A.length + k) = some v := by
  induction n generalizing n' obj k v with
  | zero => cases h
  | succ n ih =>
    obtain ⟨n', rfl⟩ : ∃ n'', n' = n'' + 1 := ⟨n' - 1, by omega⟩
    have hsub : ∀ obj k v, readBase n X obj k = some v →
        readBase n' m obj (A.length + k) = some v := fun obj k v h => ih (by omega) h
    have hlen : ∀ len, baseLength X k = some len → baseLength m (A.length + k) = some len := by
      intro len hlen
      unfold baseLength at hlen ⊢
      rw [Option.map_eq_some_iff] at hlen
      obtain ⟨d, hd, rfl⟩ := hlen
      rw [Nat.add_assoc, le_embed hm hd, Option.map_some]
    cases obj with
    | true =>
      simp only [readBase, Option.bind_eq_bind, Option.bind_eq_some_iff] at h ⊢
      obtain ⟨len, hl, es, hes, hv⟩ := h
      refine ⟨len, hlen len hl, es, ?_, hv⟩
      rw [collect_eq_some] at hes ⊢
      refine ⟨hes.1, fun j hj => ?_⟩
      have hj' := hes.2 j hj
      simp only [readEntry, Option.bind_eq_bind, Option.bind_eq_some_iff] at hj' ⊢
      obtain ⟨key, hkey, w, hw, x, hx, hjx⟩ := hj'
      exact ⟨key, entryKey_embed hm hkey, w, elementWord_embed hm hw, x,
        readValue_embed hm hsub hx, hjx⟩
    | false =>
      simp only [readBase, Option.bind_eq_bind, Option.bind_eq_some_iff] at h ⊢
      obtain ⟨len, hl, vs, hvs, hv⟩ := h
      refine ⟨len, hlen len hl, vs, ?_, hv⟩
      rw [collect_eq_some] at hvs ⊢
      refine ⟨hvs.1, fun j hj => ?_⟩
      have hj' := hvs.2 j hj
      simp only [readElement, Option.bind_eq_bind, Option.bind_eq_some_iff] at hj' ⊢
      obtain ⟨w, hw, hx⟩ := hj'
      exact ⟨w, elementWord_embed hm hw, readValue_embed hm hsub hx⟩

theorem getUsedStorage_move {k p w w' : Nat} {s : Int} (hw : w' % 32 = w % 32)
    (hp : p + wordValue w' = A.length + (k + wordValue w)) (h : getUsedStorage X k w = some s) :
    getUsedStorage m p w' = some s := by
  have hkind := wordKind_congr hw
  have hflag := latinOrIntValue_congr hw
  unfold getUsedStorage at h ⊢
  rw [hkind, hflag, hp]
  cases hk : wordKind w with
  | null => rwa [hk] at h
  | bool => rwa [hk] at h
  | double => rwa [hk] at h
  | string =>
    simp only [hk] at h ⊢
    split at h
    · next hlatin =>
      rw [if_pos hlatin]
      rw [Option.map_eq_some_iff] at h ⊢
      obtain ⟨n, hn, hs⟩ := h
      exact ⟨n, le_embed hm hn, hs⟩
    · next hlatin =>
      rw [if_neg hlatin]
      rw [Option.map_eq_some_iff] at h ⊢
      obtain ⟨n, hn, hs⟩ := h
      exact ⟨n, le_embed hm hn, hs⟩
  | array =>
    simp only [hk, Option.map_eq_some_iff] at h ⊢
    obtain ⟨n, hn, hs⟩ := h
    exact ⟨n, le_embed hm hn, hs⟩
  | object =>
    simp only [hk, Option.map_eq_some_iff] at h ⊢
    obtain ⟨n, hn, hs⟩ := h
    exact ⟨n, le_embed hm hn, hs⟩

end Embed

/-! ## Data and words -/

/-- The base that is all of `sub`. -/
structure SelfContained (sub : Bytes) (obj : Bool) (v : Val) : Prop where
  size : baseSize sub 0 = some sub.length
  aligned : sub.length % 4 = 0
  head : 12 ≤ sub.length
  small : sub.length < 2 ^ 28
  reads : ∃ n, readBase n sub obj 0 = some v

/-- `data` is the data of `v`, under a word of the type and flags of `w`. -/
structure Payload (w : Nat) (data : Bytes) (v : Val) : Prop where
  out : outOfLine w = true
  aligned : data.length % 4 = 0
  pos : 0 < data.length
  used : getUsedStorage data 0 (w % 32) = some (data.length : Int)
  reads : ∃ n, readValue (readBase n data) data 0 (w % 32) = some v
  base : ∀ obj, wordKind w = (if obj then .object else .array) → SelfContained data obj v

/-- `v` is the value of the word `w` of a base with the given body. The index is
the storage that it uses there. -/
inductive Stored (body : Bytes) (w : Nat) (v : Val) : Nat → Prop
  | inline : outOfLine w = false → (∀ sub m p, readValue sub m p w = some v) → Stored body w v 0
  | data (data : Bytes) : Payload w data v → 12 ≤ wordValue w →
      peek body (wordValue w - 12) data.length = some data → Stored body w v data.length

theorem Stored.append {body : Bytes} {w n : Nat} {v : Val} (x : Bytes) (h : Stored body w v n) :
    Stored (body ++ x) w v n := by
  cases h with
  | inline hout hv => exact .inline hout hv
  | data data hd h12 hp =>
    refine .data data hd h12 ?_
    rw [peek_append x (peek_eq_some hp).2]
    exact hp

theorem Stored.aligned {body : Bytes} {w n : Nat} {v : Val} (h : Stored body w v n) :
    n % 4 = 0 := by
  cases h with
  | inline => rfl
  | data data hd => exact hd.aligned

/-- A payload at the end of the body. -/
theorem Stored.of_gap {body data : Bytes} {w : Nat} {v : Val} (hd : Payload w data v)
    (hw : wordValue w = 12 + body.length) : Stored (body ++ data) w v data.length := by
  refine .data data hd (by omega) ?_
  rw [hw, Nat.add_sub_cancel_left]
  exact peek_of_split (B := []) (by simp) rfl rfl

section InBase

variable {m pre body rest : Bytes} {obj : Bool} {size : Nat} {words : List Nat}

/-- Where the data of a value is, in its block. -/
theorem BaseAt.split_data (h : BaseAt m pre obj size body words rest) {o : Nat} {data : Bytes}
    (ho : 12 ≤ o) (hp : peek body (o - 12) data.length = some data) :
    ∃ A B, m = A ++ data ++ B ∧ A.length = pre.length + o := by
  have hpeek := h.peek_body ho hp
  have hle := (peek_eq_some hpeek).2
  unfold peek at hpeek
  rw [if_pos hle] at hpeek
  refine ⟨m.take (pre.length + o), m.drop (pre.length + o + data.length), ?_, ?_⟩
  · have hcut := List.take_append_drop (pre.length + o) m
    have hcut' := List.take_append_drop data.length (m.drop (pre.length + o))
    rw [Option.some.inj hpeek, List.drop_drop] at hcut'
    rw [List.append_assoc, hcut', hcut]
  · rw [List.length_take]
    omega

theorem BaseAt.readValue (h : BaseAt m pre obj size body words rest) {w s : Nat} {v : Val}
    (hs : Stored body w v s) :
    ∃ n₀, ∀ n ≥ n₀, readValue (readBase n m) m pre.length w = some v := by
  cases hs with
  | inline _ hv => exact ⟨0, fun n _ => hv _ _ _⟩
  | data data hd h12 hp =>
    obtain ⟨A, B, hm, hA⟩ := h.split_data h12 hp
    obtain ⟨n₀, hn₀⟩ := hd.reads
    refine ⟨n₀, fun n hn => ?_⟩
    have hzero := wordValue_mod w
    exact readValue_move hm (fun obj k v hk => readBase_embed hm hn hk) (by omega)
      (by rw [outOfLine_mod]; exact hd.out) (by omega) hn₀

/-- The storage that a value uses is that of its data. -/
theorem BaseAt.usedStorage (h : BaseAt m pre obj size body words rest) {w s : Nat} {v : Val}
    (hs : Stored body w v s) : usedStorage m pre.length w = some s := by
  cases hs with
  | inline hout _ =>
    unfold Json.usedStorage getUsedStorage
    unfold outOfLine at hout
    cases hk : wordKind w with
    | null => rfl
    | bool => rfl
    | double =>
      rw [hk] at hout
      have hflag : latinOrIntValue w = true := by simpa using hout
      simp only [hflag, if_true]
      rfl
    | string => rw [hk] at hout; cases hout
    | array => rw [hk] at hout; cases hout
    | object => rw [hk] at hout; cases hout
  | data data hd h12 hp =>
    obtain ⟨A, B, hm, hA⟩ := h.split_data h12 hp
    have hzero := wordValue_mod w
    unfold Json.usedStorage
    rw [getUsedStorage_move hm (by omega) (by omega) hd.used]
    rfl

end InBase

end Libpdk.Json
