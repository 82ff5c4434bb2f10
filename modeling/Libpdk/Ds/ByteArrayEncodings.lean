import Mathlib.Data.Nat.Bitwise
import Libpdk.Core.ByteQueue

/-!
# Bytes as text

`toBase64`, `fromBase64`, `toHex` and `fromHex` of `ByteArray`. An array is made first, and its
bytes are written one after the other (`put`): `none` where a size is no `int`, where an array is
too large, and where a byte is written that was not allocated.
-/
namespace Libpdk.Ds.ByteArray

/-- A size of type `int`. -/
def intSize (n : Nat) : Option Nat := if n < 2147483648 then some n else none

/-- `ByteArray(size, pdk::Uninitialized)`, of which nothing is written. -/
def uninitialized (size : Nat) : Option Nat := if size < maxByteArraySize then some size else none

/-- The next of `room` bytes is written. -/
def put (room : Nat) (out : Bytes) (c : UInt8) : Option Bytes :=
  if out.length < room then some (out ++ [c]) else none

/-! ## Base64 -/

/-- mirrors ds/ByteArray.h:102-108 -/
structure Base64Options where
  base64UrlEncoding : Bool
  omitTrailingEquals : Bool

def alphabetBase64 : Bytes :=
  lit "ABCDEFGHIJKLMNOPQRSTUVWXYZabcdefghijklmnopqrstuvwxyz0123456789+/"

def alphabetBase64url : Bytes :=
  lit "ABCDEFGHIJKLMNOPQRSTUVWXYZabcdefghijklmnopqrstuvwxyz0123456789-_"

def padchar : UInt8 := byte '='

namespace Base64Options

def alphabet (options : Base64Options) : Bytes :=
  if options.base64UrlEncoding then alphabetBase64url else alphabetBase64

/-- A character, or what stands for it where there are no more bytes. -/
def putDigit (options : Base64Options) (room : Nat) (out : Bytes) (pad : Bool) (digit : Nat) :
    Option Bytes :=
  if pad then if options.omitTrailingEquals then some out else put room out padchar
  else put room out (options.alphabet.getD digit 0)

/-- The characters of three bytes.
mirrors ds/ByteArray.cpp:1266-1287 -/
def putChunk (options : Base64Options) (room chunk padLength : Nat) (out : Bytes) :
    Option Bytes := do
  let j := (chunk &&& 0x00fc0000) >>> 18
  let k := (chunk &&& 0x0003f000) >>> 12
  let l := (chunk &&& 0x00000fc0) >>> 6
  let m := chunk &&& 0x0000003f
  let out ← put room out (options.alphabet.getD j 0)
  let out ← put room out (options.alphabet.getD k 0)
  let out ← options.putDigit room out (padLength > 1) l
  options.putDigit room out (padLength > 0) m

/-- mirrors ds/ByteArray.cpp:1250-1288 -/
def encodeLoop (options : Base64Options) (room : Nat) : Bytes → Bytes → Option Bytes
  | [], out => some out
  | [a], out => options.putChunk room (a.toNat <<< 16) 2 out
  | [a, b], out => options.putChunk room (a.toNat <<< 16 ||| b.toNat <<< 8) 1 out
  | a :: b :: c :: data, out =>
    (options.putChunk room (a.toNat <<< 16 ||| b.toNat <<< 8 ||| c.toNat) 0 out).bind
      (encodeLoop options room data)

/-- The value of a character, `none` for -1.
mirrors ds/ByteArray.cpp:227-243 -/
def digit (options : Base64Options) (ch : UInt8) : Option Nat :=
  if ch ≥ byte 'A' ∧ ch ≤ byte 'Z' then some (ch.toNat - 65)
  else if ch ≥ byte 'a' ∧ ch ≤ byte 'z' then some (ch.toNat - 97 + 26)
  else if ch ≥ byte '0' ∧ ch ≤ byte '9' then some (ch.toNat - 48 + 52)
  else if ch = byte '+' ∧ ¬options.base64UrlEncoding then some 62
  else if ch = byte '-' ∧ options.base64UrlEncoding then some 62
  else if ch = byte '/' ∧ ¬options.base64UrlEncoding then some 63
  else if ch = byte '_' ∧ options.base64UrlEncoding then some 63
  else none

end Base64Options

/-- The text; with padding the assertion is that all of it was written.
mirrors ds/ByteArray.cpp:1232-1294 -/
def toBase64 (data : Bytes) (options : Base64Options) : Option Bytes := do
  let size ← intSize (data.length + 2)
  let size ← intSize (size / 3 * 4)
  let room ← uninitialized size
  let out ← options.encodeLoop room data []
  if options.omitTrailingEquals ∨ out.length = room then some out else none

/-- What `fromBase64` has read: bits that are not written yet, and the bytes that are. -/
structure Decoding where
  buf : Nat
  nbits : Nat
  out : Bytes

/-- mirrors ds/ByteArray.cpp:244-252 -/
def Decoding.add (room : Nat) (s : Decoding) (d : Nat) : Option Decoding :=
  let buf := (s.buf <<< 6 ||| d) % 4294967296
  let nbits := s.nbits + 6
  if nbits ≥ 8 then do
    let nbits := nbits - 8
    let out ← put room s.out (UInt8.ofNat (buf >>> nbits))
    some ⟨buf &&& ((1 <<< nbits) - 1), nbits, out⟩
  else some ⟨buf, nbits, s.out⟩

def Decoding.step (options : Base64Options) (room : Nat) (s : Decoding) (ch : UInt8) :
    Option Decoding :=
  match options.digit ch with
  | none => some s
  | some d => s.add room d

/-- mirrors ds/ByteArray.cpp:216-256 -/
def fromBase64 (base64 : Bytes) (options : Base64Options) : Option Bytes := do
  let size ← intSize (base64.length * 3)
  let room ← uninitialized (size / 4)
  let s ← base64.foldlM (Decoding.step options room) ⟨0, 0, []⟩
  some s.out

/-! ## Hex -/

/-- mirrors kernel/StringUtils.h:105-108 -/
def toHexLower (value : Nat) : UInt8 := (lit "0123456789abcdef").getD (value &&& 0xF) 0

/-- mirrors kernel/StringUtils.h:110-119 -/
def fromHexDigit (c : UInt8) : Option Nat :=
  if c ≥ byte '0' ∧ c ≤ byte '9' then some (c.toNat - 48)
  else if c ≥ byte 'A' ∧ c ≤ byte 'F' then some (c.toNat - 65 + 10)
  else if c ≥ byte 'a' ∧ c ≤ byte 'f' then some (c.toNat - 97 + 10)
  else none

/-- mirrors ds/ByteArray.cpp:1303-1310 -/
def toHexLoop (separator : UInt8) (length : Nat) : Bytes → Bytes → Option Bytes
  | [], hex => some hex
  | b :: data, hex => do
    let hex ← put length hex (toHexLower (b.toNat >>> 4))
    let hex ← put length hex (toHexLower (b.toNat &&& 0xf))
    if separator ≠ 0 ∧ hex.length < length then
      (put length hex separator).bind (toHexLoop separator length data)
    else toHexLoop separator length data hex

/-- `none` also where a part of the array is not written.
mirrors ds/ByteArray.cpp:1294-1312 -/
def toHex (data : Bytes) (separator : UInt8) : Option Bytes :=
  if data = [] then some []
  else do
    let length ← intSize (data.length * if separator ≠ 0 then 3 else 2)
    let length ← uninitialized (if separator ≠ 0 then length - 1 else length)
    let hex ← toHexLoop separator length data []
    if hex.length = length then some hex else none

/-- The bytes that are written at the end of the array, and whether the next digit is the last one
of a byte.
mirrors ds/ByteArray.cpp:264-276 -/
def fromHexStep (room : Nat) (s : Bytes × Bool) (ch : UInt8) : Option (Bytes × Bool) :=
  match fromHexDigit ch with
  | none => some s
  | some temp =>
    if s.2 then
      if s.1.length < room then some (UInt8.ofNat temp :: s.1, false) else none
    else
      match s.1 with
      | [] => none
      | b :: out => some ((b ||| UInt8.ofNat (temp <<< 4)) :: out, true)

/-- mirrors ds/ByteArray.cpp:258-279 -/
def fromHex (hexEncoded : Bytes) : Option Bytes := do
  let size ← intSize (hexEncoded.length + 1)
  let room ← uninitialized (size / 2)
  let s ← hexEncoded.reverse.foldlM (fromHexStep room) ([], true)
  some s.1

/-! ## The text of Base64 -/

theorem put_eq {room : Nat} {out : Bytes} {c : UInt8} (h : out.length < room) :
    put room out c = some (out ++ [c]) := if_pos h

theorem intSize_eq {n : Nat} (h : n < 2147483648) : intSize n = some n := if_pos h

theorem intSize_none {n : Nat} (h : ¬n < 2147483648) : intSize n = none := if_neg h

theorem uninitialized_eq {n : Nat} (h : n < maxByteArraySize) : uninitialized n = some n := if_pos h

namespace Base64Options

variable (options : Base64Options)

/-- A digit as a character. -/
def char (d : Nat) : UInt8 := options.alphabet.getD d 0

def padding (n : Nat) : Bytes := if options.omitTrailingEquals then [] else List.replicate n padchar

/-- Four characters for three bytes. -/
def text : Bytes → Bytes
  | [] => []
  | [a] => [options.char (a.toNat / 4), options.char (a.toNat % 4 * 16)] ++ options.padding 2
  | [a, b] =>
    [options.char (a.toNat / 4), options.char (a.toNat % 4 * 16 + b.toNat / 16),
      options.char (b.toNat % 16 * 4)] ++ options.padding 1
  | a :: b :: c :: data =>
    [options.char (a.toNat / 4), options.char (a.toNat % 4 * 16 + b.toNat / 16),
      options.char (b.toNat % 16 * 4 + c.toNat / 64), options.char (c.toNat % 64)] ++ text data

def length (n : Nat) : Nat :=
  if options.omitTrailingEquals then n / 3 * 4 + (if n % 3 = 0 then 0 else n % 3 + 1)
  else (n + 2) / 3 * 4

theorem length_text : ∀ data : Bytes, (options.text data).length = options.length data.length
  | [] => by
    rw [text, length]
    split <;> rfl
  | [a] => by
    rw [text, length, padding]
    split <;> simp
  | [a, b] => by
    rw [text, length, padding]
    split <;> simp
  | a :: b :: c :: data => by
    have ih := length_text data
    rw [text, List.length_append, ih]
    simp only [length, List.length_cons, List.length_nil]
    split_ifs <;> omega

end Base64Options

/-- The four digits of three bytes. -/
theorem chunk_digits {a b c : Nat} (ha : a < 256) (hb : b < 256) (hc : c < 256) :
    let chunk := a <<< 16 ||| b <<< 8 ||| c
    (chunk &&& 0x00fc0000) >>> 18 = a / 4 ∧ (chunk &&& 0x0003f000) >>> 12 = a % 4 * 16 + b / 16 ∧
      (chunk &&& 0x00000fc0) >>> 6 = b % 16 * 4 + c / 64 ∧ chunk &&& 0x0000003f = c % 64 := by
  intro chunk
  have hchunk : chunk = a * 65536 + b * 256 + c := by
    have h₁ : a <<< 8 ||| b = a * 256 + b := by
      rw [← Nat.shiftLeft_add_eq_or_of_lt (show b < 2 ^ 8 from hb), Nat.shiftLeft_eq]
    have h₂ : chunk = (a <<< 8 ||| b) <<< 8 ||| c := by
      rw [Nat.shiftLeft_or_distrib, ← Nat.shiftLeft_add]
    rw [h₂, ← Nat.shiftLeft_add_eq_or_of_lt (show c < 2 ^ 8 from hc), h₁, Nat.shiftLeft_eq]
    omega
  have hmask (k : Nat) : (chunk &&& 63 <<< k) >>> k = chunk / 2 ^ k % 64 := by
    rw [Nat.shiftRight_and_distrib, Nat.shiftLeft_shiftRight, Nat.shiftRight_eq_div_pow]
    exact Nat.and_two_pow_sub_one_eq_mod _ 6
  refine ⟨(hmask 18).trans ?_, (hmask 12).trans ?_, (hmask 6).trans ?_, (hmask 0).trans ?_⟩
  · rw [hchunk]
    omega
  · rw [hchunk]
    omega
  · rw [hchunk]
    omega
  · rw [hchunk]
    omega

namespace Base64Options

variable (options : Base64Options)

theorem digit_char {d : Nat} (h : d < 64) : options.digit (options.char d) = some d := by
  have hall : ∀ url omitted : Bool, (alphabet ⟨url, omitted⟩).map (digit ⟨url, omitted⟩) =
      (List.range 64).map some := by decide
  have hd := congrArg (·[d]?) (hall options.base64UrlEncoding options.omitTrailingEquals)
  simp only [List.getElem?_map, List.getElem?_range h, Option.map_some] at hd
  obtain ⟨c, hc, hdigit⟩ := Option.map_eq_some_iff.mp hd
  rw [char, List.getD_eq_getElem?_getD, hc]
  exact hdigit

theorem digit_lt {ch : UInt8} {d : Nat} (h : options.digit ch = some d) : d < 64 := by
  have hc := ch.toNat_lt
  simp only [digit, UInt8.le_iff_toNat_le, ge_iff_le] at h
  split_ifs at h <;> simp at * <;> omega

theorem digit_padchar : options.digit padchar = none := by
  have hall : ∀ url omitted : Bool, digit ⟨url, omitted⟩ padchar = none := by decide
  exact hall options.base64UrlEncoding options.omitTrailingEquals

theorem putDigit_eq {room : Nat} {out : Bytes} {pad : Bool} {d : Nat}
    (h : out.length + (if pad then options.padding 1 else [options.char d]).length ≤ room) :
    options.putDigit room out pad d =
      some (out ++ if pad then options.padding 1 else [options.char d]) := by
  cases pad with
  | false => exact put_eq h
  | true =>
    rw [if_pos rfl] at h ⊢
    rw [putDigit, if_pos rfl]
    rw [padding] at h ⊢
    by_cases homit : options.omitTrailingEquals = true
    · rw [if_pos homit, if_pos homit, List.append_nil]
    · rw [if_neg homit] at h
      rw [if_neg homit, if_neg homit]
      exact put_eq h

/-- The characters of a chunk, which has `padLength` bytes less than three. -/
def group (a b c padLength : Nat) : Bytes :=
  [options.char (a / 4), options.char (a % 4 * 16 + b / 16)] ++
    ((if padLength > 1 then options.padding 1 else [options.char (b % 16 * 4 + c / 64)]) ++
      if padLength > 0 then options.padding 1 else [options.char (c % 64)])

theorem putChunk_eq {room a b c padLength : Nat} (ha : a < 256) (hb : b < 256) (hc : c < 256)
    {out : Bytes} (h : out.length + (options.group a b c padLength).length ≤ room) :
    options.putChunk room (a <<< 16 ||| b <<< 8 ||| c) padLength out =
      some (out ++ options.group a b c padLength) := by
  obtain ⟨hj, hk, hl, hm⟩ := chunk_digits ha hb hc
  simp only [group, List.length_append, List.length_cons, List.length_nil] at h
  rw [putChunk, hj, hk, hl, hm, put_eq (by omega), Option.bind_eq_bind, Option.bind_some,
    put_eq (by rw [List.length_append, List.length_singleton]; omega), Option.bind_some,
    putDigit_eq, Option.bind_some, putDigit_eq]
  · simp only [group, char, decide_eq_true_eq, List.append_assoc, List.cons_append,
      List.nil_append]
  · simp only [decide_eq_true_eq, List.length_append, List.length_cons, List.length_nil]
    omega
  · simp only [decide_eq_true_eq, List.length_append, List.length_cons, List.length_nil]
    omega

theorem padding_two : options.padding 1 ++ options.padding 1 = options.padding 2 := by
  unfold padding
  split <;> rfl

theorem group_one (a : Nat) : options.group a 0 0 2 =
    [options.char (a / 4), options.char (a % 4 * 16)] ++ options.padding 2 := by
  rw [← padding_two]
  rfl

theorem group_two (a b : Nat) : options.group a b 0 1 =
    [options.char (a / 4), options.char (a % 4 * 16 + b / 16), options.char (b % 16 * 4)] ++
      options.padding 1 := rfl

/-- Nothing is written outside where there is room for the text. -/
theorem encodeLoop_eq (room : Nat) : ∀ (data out : Bytes),
    out.length + (options.text data).length ≤ room →
      options.encodeLoop room data out = some (out ++ options.text data)
  | [], out, _ => by rw [encodeLoop, text, List.append_nil]
  | [a], out, h => by
    rw [text, ← group_one] at h ⊢
    have hput := options.putChunk_eq a.toNat_lt (show 0 < 256 by decide) (show 0 < 256 by decide) h
    rw [Nat.zero_shiftLeft, Nat.or_zero, Nat.or_zero] at hput
    exact hput
  | [a, b], out, h => by
    rw [text, ← group_two] at h ⊢
    have hput := options.putChunk_eq a.toNat_lt b.toNat_lt (show 0 < 256 by decide) h
    rw [Nat.or_zero] at hput
    exact hput
  | a :: b :: c :: data, out, h => by
    have hgroup : options.text (a :: b :: c :: data) =
      options.group a.toNat b.toNat c.toNat 0 ++ options.text data := rfl
    rw [hgroup] at h ⊢
    rw [List.length_append] at h
    rw [encodeLoop, options.putChunk_eq a.toNat_lt b.toNat_lt c.toNat_lt (by omega),
      Option.bind_some, encodeLoop_eq room data _ (by rw [List.length_append]; omega),
      List.append_assoc]

end Base64Options

/-- The encoder writes all of the array, or truncates it to what it wrote. -/
theorem toBase64_eq {data : Bytes} {options : Base64Options}
    (h : (data.length + 2) / 3 * 4 < maxByteArraySize) :
    toBase64 data options = some (options.text data) := by
  have hmax : maxByteArraySize = 2147483623 := rfl
  have hlen := options.length_text data
  have hfits : options.length data.length ≤ (data.length + 2) / 3 * 4 := by
    unfold Base64Options.length
    split_ifs <;> omega
  rw [toBase64, intSize_eq (by omega), Option.bind_eq_bind, Option.bind_some,
    intSize_eq (by omega), Option.bind_some, uninitialized_eq h, Option.bind_some,
    options.encodeLoop_eq _ data [] (by rw [List.length_nil]; omega), List.nil_append]
  by_cases homit : options.omitTrailingEquals = true
  · exact if_pos (.inl homit)
  · refine if_pos (.inr ?_)
    rw [hlen, Base64Options.length, if_neg homit]

/-! ## Reading Base64 -/

/-- Six bits more, of which no byte can be made yet. -/
theorem Decoding.add_keep {room buf nbits d : Nat} {out : Bytes} (hd : d < 64)
    (hbuf : buf < 2 ^ nbits) (hbits : nbits < 2) :
    (⟨buf, nbits, out⟩ : Decoding).add room d = some ⟨buf * 64 + d, nbits + 6, out⟩ := by
  have hpow : 2 ^ nbits ≤ 2 ^ 1 := Nat.pow_le_pow_right (by decide) (by omega)
  have hor : buf <<< 6 ||| d = buf * 64 + d := by
    rw [← Nat.shiftLeft_add_eq_or_of_lt (show d < 2 ^ 6 from hd), Nat.shiftLeft_eq]
  have hmod : (buf * 64 + d) % 4294967296 = buf * 64 + d := Nat.mod_eq_of_lt (by omega)
  simp only [add, hor, hmod]
  exact if_neg (by omega)

/-- Six bits more, with which there are enough for a byte. -/
theorem Decoding.add_put {room buf nbits d : Nat} {out : Bytes} (hd : d < 64)
    (hbuf : buf < 2 ^ nbits) (hbits : 2 ≤ nbits) (hbits' : nbits < 8) (hroom : out.length < room) :
    (⟨buf, nbits, out⟩ : Decoding).add room d = some ⟨(buf * 64 + d) % 2 ^ (nbits - 2), nbits - 2,
      out ++ [UInt8.ofNat ((buf * 64 + d) / 2 ^ (nbits - 2))]⟩ := by
  have hpow : 2 ^ nbits ≤ 2 ^ 7 := Nat.pow_le_pow_right (by decide) (by omega)
  have hor : buf <<< 6 ||| d = buf * 64 + d := by
    rw [← Nat.shiftLeft_add_eq_or_of_lt (show d < 2 ^ 6 from hd), Nat.shiftLeft_eq]
  have hmod : (buf * 64 + d) % 4294967296 = buf * 64 + d := Nat.mod_eq_of_lt (by omega)
  have hsub : nbits + 6 - 8 = nbits - 2 := by omega
  simp only [add, hor, hmod]
  rw [if_pos (by omega), hsub, put_eq hroom, Option.bind_eq_bind, Option.bind_some,
    Nat.shiftRight_eq_div_pow, Nat.one_shiftLeft, Nat.and_two_pow_sub_one_eq_mod]

section

variable {options : Base64Options} {room : Nat}

theorem Decoding.step_char (s : Decoding) {d : Nat} (hd : d < 64) :
    s.step options room (options.char d) = s.add room d := by
  rw [step, options.digit_char hd]

/-- Characters that are no digits are ignored, wherever they are. -/
theorem Decoding.step_none (s : Decoding) {ch : UInt8} (h : options.digit ch = none) :
    s.step options room ch = some s := by
  rw [step, h]

theorem foldlM_padding (s : Decoding) (n : Nat) :
    (options.padding n).foldlM (Decoding.step options room) s = some s := by
  rw [Base64Options.padding]
  split
  · rfl
  · induction n with
    | zero => rfl
    | succ n ih =>
      rw [List.replicate_succ, List.foldlM_cons, s.step_none options.digit_padchar]
      exact ih

variable (options)

/-- The first two digits give the first byte. -/
theorem decode_two {a b : Nat} (ha : a < 256) (hb : b < 256) {out : Bytes}
    (hroom : out.length < room) :
    [options.char (a / 4), options.char (a % 4 * 16 + b / 16)].foldlM
      (Decoding.step options room) ⟨0, 0, out⟩ = some ⟨b / 16, 4, out ++ [UInt8.ofNat a]⟩ := by
  have hbyte : (a / 4 * 64 + (a % 4 * 16 + b / 16)) / 2 ^ 4 = a := by omega
  have hbuf : (a / 4 * 64 + (a % 4 * 16 + b / 16)) % 2 ^ 4 = b / 16 := by omega
  have hfirst : (⟨0, 0, out⟩ : Decoding).add room (a / 4) = some ⟨a / 4, 6, out⟩ := by
    rw [Decoding.add_keep (by omega) (by decide) (by decide), Nat.zero_mul, Nat.zero_add]
  have hsecond := Decoding.add_put (show a % 4 * 16 + b / 16 < 64 by omega)
    (show a / 4 < 2 ^ 6 by omega) (by decide) (by decide) hroom
  rw [hbyte, hbuf] at hsecond
  rw [List.foldlM_cons, Decoding.step_char _ (by omega), hfirst, Option.bind_eq_bind,
    Option.bind_some, List.foldlM_cons, Decoding.step_char _ (by omega), hsecond]
  rfl

theorem decode_three {b c : Nat} (hb : b < 256) (hc : c < 256) {out : Bytes}
    (hroom : out.length < room) :
    [options.char (b % 16 * 4 + c / 64)].foldlM (Decoding.step options room) ⟨b / 16, 4, out⟩ =
      some ⟨c / 64, 2, out ++ [UInt8.ofNat b]⟩ := by
  have hbyte : (b / 16 * 64 + (b % 16 * 4 + c / 64)) / 2 ^ 2 = b := by omega
  have hbuf : (b / 16 * 64 + (b % 16 * 4 + c / 64)) % 2 ^ 2 = c / 64 := by omega
  have hthird := Decoding.add_put (show b % 16 * 4 + c / 64 < 64 by omega)
    (show b / 16 < 2 ^ 4 by omega) (by decide) (by decide) hroom
  rw [hbyte, hbuf] at hthird
  rw [List.foldlM_cons, Decoding.step_char _ (by omega), hthird]
  rfl

theorem decode_four {c : Nat} (hc : c < 256) {out : Bytes} (hroom : out.length < room) :
    [options.char (c % 64)].foldlM (Decoding.step options room) ⟨c / 64, 2, out⟩ =
      some ⟨0, 0, out ++ [UInt8.ofNat c]⟩ := by
  have hbyte : (c / 64 * 64 + c % 64) / 2 ^ 0 = c := by omega
  have hbuf : (c / 64 * 64 + c % 64) % 2 ^ 0 = 0 := by omega
  have hfourth := Decoding.add_put (show c % 64 < 64 by omega)
    (show c / 64 < 2 ^ 2 by omega) (by decide) (by decide) hroom
  rw [hbyte, hbuf] at hfourth
  rw [List.foldlM_cons, Decoding.step_char _ (by omega), hfourth]
  rfl

omit options in
theorem length_add {out : Bytes} (a : UInt8) {n : Nat} (h : out.length + (n + 1) ≤ room) :
    out.length < room ∧ (out ++ [a]).length + n ≤ room := by
  rw [List.length_append, List.length_singleton]
  omega

/-- The text of some bytes is read as these bytes. -/
theorem decode_text : ∀ (data out : Bytes), out.length + data.length ≤ room →
    ∃ s, (options.text data).foldlM (Decoding.step options room) ⟨0, 0, out⟩ = some s ∧
      s.out = out ++ data
  | [], out, _ => ⟨_, rfl, (List.append_nil out).symm⟩
  | [a], out, h => by
    obtain ⟨hroom, -⟩ := length_add a h
    have htwo := decode_two options a.toNat_lt (show 0 < 256 by decide) hroom
    rw [UInt8.ofNat_toNat] at htwo
    refine ⟨⟨0 / 16, 4, out ++ [a]⟩, ?_, rfl⟩
    rw [Base64Options.text, List.foldlM_append]
    exact (congrArg (· >>= _) htwo).trans (foldlM_padding _ 2)
  | [a, b], out, h => by
    obtain ⟨hroom, hrest⟩ := length_add a h
    obtain ⟨hroom', -⟩ := length_add b hrest
    have htwo := decode_two options a.toNat_lt b.toNat_lt hroom
    have hthree := decode_three options b.toNat_lt (show 0 < 256 by decide) hroom'
    have htext : options.text [a, b] =
        [options.char (a.toNat / 4), options.char (a.toNat % 4 * 16 + b.toNat / 16)] ++
          ([options.char (b.toNat % 16 * 4 + 0 / 64)] ++ options.padding 1) := rfl
    rw [UInt8.ofNat_toNat] at htwo hthree
    refine ⟨⟨0 / 64, 2, out ++ [a] ++ [b]⟩, ?_, by rw [List.append_assoc]; rfl⟩
    rw [htext, List.foldlM_append, htwo, Option.bind_eq_bind, Option.bind_some,
      List.foldlM_append, hthree, Option.bind_eq_bind, Option.bind_some, foldlM_padding]
  | a :: b :: c :: data, out, h => by
    obtain ⟨hroom, hrest⟩ := length_add a h
    obtain ⟨hroom', hrest⟩ := length_add b hrest
    obtain ⟨hroom'', hrest⟩ := length_add c hrest
    have htwo := decode_two options a.toNat_lt b.toNat_lt hroom
    have hthree := decode_three options b.toNat_lt c.toNat_lt hroom'
    have hfour := decode_four options c.toNat_lt hroom''
    have htext : options.text (a :: b :: c :: data) =
        [options.char (a.toNat / 4), options.char (a.toNat % 4 * 16 + b.toNat / 16)] ++
          ([options.char (b.toNat % 16 * 4 + c.toNat / 64)] ++
            ([options.char (c.toNat % 64)] ++ options.text data)) := rfl
    rw [UInt8.ofNat_toNat] at htwo hthree hfour
    obtain ⟨s, hs, hout⟩ := decode_text data _ hrest
    refine ⟨s, ?_, by rw [hout]; simp⟩
    rw [htext, List.foldlM_append, htwo, Option.bind_eq_bind, Option.bind_some,
      List.foldlM_append, hthree, Option.bind_eq_bind, Option.bind_some,
      List.foldlM_append, hfour, Option.bind_eq_bind, Option.bind_some, hs]

/-- A character uses six bits of the text, and so no byte is written outside. -/
theorem Decoding.step_within {size : Nat} {s : Decoding} (ch : UInt8) {left : Nat}
    (hbuf : s.buf < 2 ^ s.nbits) (hbits : s.nbits < 8)
    (hleft : 8 * s.out.length + s.nbits + 6 * (left + 1) ≤ 6 * size) :
    ∃ s', s.step options (size * 3 / 4) ch = some s' ∧ s'.buf < 2 ^ s'.nbits ∧ s'.nbits < 8 ∧
      8 * s'.out.length + s'.nbits + 6 * left ≤ 6 * size := by
  cases hdigit : options.digit ch with
  | none => exact ⟨s, s.step_none hdigit, hbuf, hbits, by omega⟩
  | some d =>
    have hd := options.digit_lt hdigit
    have hstep : s.step options (size * 3 / 4) ch = s.add (size * 3 / 4) d := by
      rw [step, hdigit]
    obtain ⟨buf, nbits, out⟩ := s
    simp only at hbuf hbits hleft
    rw [hstep]
    by_cases hmore : 2 ≤ nbits
    · refine ⟨_, add_put hd hbuf hmore hbits (by omega), Nat.mod_lt _ (Nat.two_pow_pos _), ?_, ?_⟩
      · simp only
        omega
      · simp only [List.length_append, List.length_singleton]
        omega
    · have hpow : 2 ^ (nbits + 6) = 2 ^ nbits * 64 := Nat.pow_add 2 nbits 6
      refine ⟨_, add_keep hd hbuf (by omega), ?_, ?_, ?_⟩
      · simp only
        omega
      · simp only
        omega
      · simp only
        omega

theorem decode_within (size : Nat) : ∀ (text : Bytes) (s : Decoding), s.buf < 2 ^ s.nbits →
    s.nbits < 8 → 8 * s.out.length + s.nbits + 6 * text.length ≤ 6 * size →
    ∃ s', text.foldlM (Decoding.step options (size * 3 / 4)) s = some s' ∧
      8 * s'.out.length ≤ 6 * size
  | [], s, _, _, hleft => ⟨s, rfl, by omega⟩
  | ch :: text, s, hbuf, hbits, hleft => by
    obtain ⟨s₁, hs₁, hbuf₁, hbits₁, hleft₁⟩ := s.step_within options ch hbuf hbits hleft
    obtain ⟨s', hs', hlen⟩ := decode_within size text s₁ hbuf₁ hbits₁ hleft₁
    refine ⟨s', ?_, hlen⟩
    rw [List.foldlM_cons, hs₁]
    exact hs'

end

variable {options : Base64Options}

theorem fromBase64_bind {text : Bytes} (h : text.length * 3 < 2147483648) :
    fromBase64 text options = (text.foldlM (Decoding.step options (text.length * 3 / 4))
      ⟨0, 0, []⟩).bind fun s => some s.out := by
  have hmax : maxByteArraySize = 2147483623 := rfl
  rw [fromBase64, intSize_eq h, Option.bind_eq_bind, Option.bind_some,
    uninitialized_eq (by omega), Option.bind_some]
  rfl

/-- Any text is decoded inside the array that is made for it. -/
theorem fromBase64_iff (text : Bytes) :
    (∃ data, fromBase64 text options = some data ∧ data.length ≤ text.length * 3 / 4) ↔
      text.length * 3 < 2147483648 := by
  constructor
  · rintro ⟨data, h, -⟩
    by_contra hlarge
    rw [fromBase64, intSize_none hlarge] at h
    cases h
  · intro h
    obtain ⟨s, hs, hlen⟩ := decode_within options text.length text
      ⟨0, 0, []⟩ (by decide) (by decide) (by simp)
    refine ⟨s.out, ?_, by omega⟩
    rw [fromBase64_bind h, hs]
    rfl

/-- Bytes whose text can be decoded come back. -/
theorem base64_roundtrip {data : Bytes} (h : options.length data.length * 3 < 2147483648) :
    toBase64 data options = some (options.text data) ∧
      fromBase64 (options.text data) options = some data := by
  have hmax : maxByteArraySize = 2147483623 := rfl
  have hlen := options.length_text data
  have hroom : ([] : Bytes).length + data.length ≤ (options.text data).length * 3 / 4 := by
    rw [hlen, List.length_nil]
    unfold Base64Options.length
    split_ifs <;> omega
  have hfits : (data.length + 2) / 3 * 4 < maxByteArraySize := by
    unfold Base64Options.length at h
    split_ifs at h <;> omega
  refine ⟨toBase64_eq hfits, ?_⟩
  obtain ⟨s, hs, hout⟩ := decode_text options data [] hroom
  rw [fromBase64_bind (by omega), hs]
  exact congrArg some hout

/-- Without an array for the text there is none. -/
theorem toBase64_fits {data text : Bytes} (h : toBase64 data options = some text) :
    (data.length + 2) / 3 * 4 < maxByteArraySize := by
  by_contra hlarge
  have hsizes : (intSize (data.length + 2)).bind (fun size =>
      (intSize (size / 3 * 4)).bind uninitialized) = none := by
    unfold intSize
    split
    · rw [Option.bind_some]
      split
      · exact if_neg hlarge
      · rfl
    · rfl
  have hnone : toBase64 data options = ((intSize (data.length + 2)).bind fun size =>
      (intSize (size / 3 * 4)).bind uninitialized).bind fun room =>
        (options.encodeLoop room data []).bind fun out =>
          if options.omitTrailingEquals ∨ out.length = room then some out else none := by
    simp only [toBase64, Option.bind_eq_bind, Option.bind_assoc]
  rw [hsizes, h] at hnone
  cases hnone

/-- The text fills its array, or the array is truncated to the text. -/
theorem toBase64_iff {data : Bytes} :
    (∃ text, toBase64 data options = some text ∧ text.length = options.length data.length) ↔
      (data.length + 2) / 3 * 4 < maxByteArraySize := by
  constructor
  · rintro ⟨text, h, -⟩
    exact toBase64_fits h
  · intro h
    exact ⟨_, toBase64_eq h, options.length_text data⟩

theorem base64_iff {data : Bytes} :
    (∃ text, toBase64 data options = some text ∧ fromBase64 text options = some data) ↔
      options.length data.length * 3 < 2147483648 := by
  constructor
  · rintro ⟨text, henc, hdec⟩
    by_contra hlarge
    rw [toBase64_eq (toBase64_fits henc), Option.some_inj] at henc
    rw [← henc, fromBase64, intSize_none (by rw [options.length_text]; exact hlarge)] at hdec
    cases hdec
  · intro h
    exact ⟨_, base64_roundtrip h⟩

/-! ## The text of hex digits -/

def hexPair (b : UInt8) : Bytes := [toHexLower (b.toNat >>> 4), toHexLower (b.toNat &&& 0xf)]

def separators (separator : UInt8) : Bytes := if separator ≠ 0 then [separator] else []

/-- Two digits a byte, with separators between them. -/
def hexText (separator : UInt8) : Bytes → Bytes
  | [] => []
  | [b] => hexPair b
  | b :: c :: data => hexPair b ++ (separators separator ++ hexText separator (c :: data))

def hexLength (separator : UInt8) (n : Nat) : Nat := if separator ≠ 0 then n * 3 - 1 else n * 2

theorem length_hexText (separator : UInt8) : ∀ data : Bytes,
    (hexText separator data).length = hexLength separator data.length
  | [] => by
    unfold hexLength
    split <;> rfl
  | [b] => by
    unfold hexLength
    split <;> rfl
  | b :: c :: data => by
    have ih := length_hexText separator (c :: data)
    rw [hexText, List.length_append, List.length_append, ih]
    unfold hexLength separators hexPair
    by_cases hsep : separator ≠ 0
    · simp only [if_pos hsep, List.length_cons, List.length_nil]
      omega
    · simp only [if_neg hsep, List.length_cons, List.length_nil]
      omega

/-- A separator is written where there is room left, which is before all bytes but the first. -/
theorem toHexLoop_eq {separator : UInt8} {length : Nat} : ∀ (data hex : Bytes),
    hex.length + (hexText separator data).length = length →
      toHexLoop separator length data hex = some (hex ++ hexText separator data)
  | [], hex, _ => by rw [toHexLoop, hexText, List.append_nil]
  | [b], hex, h => by
    simp only [hexText, hexPair, List.length_cons, List.length_nil] at h
    have hfull : ¬(separator ≠ 0 ∧ (hex ++ hexPair b).length < length) := by
      rw [List.length_append, hexPair, List.length_cons, List.length_singleton]
      omega
    rw [toHexLoop, put_eq (by omega), Option.bind_eq_bind, Option.bind_some,
      put_eq (by rw [List.length_append, List.length_singleton]; omega), Option.bind_some,
      List.append_assoc, List.singleton_append]
    exact if_neg hfull
  | b :: c :: data, hex, h => by
    have hpair : (hexPair b).length = 2 := rfl
    rw [hexText, List.length_append, List.length_append, hpair] at h
    have hloop : toHexLoop separator length (b :: c :: data) hex =
        if separator ≠ 0 ∧ (hex ++ hexPair b).length < length then
          (put length (hex ++ hexPair b) separator).bind (toHexLoop separator length (c :: data))
        else toHexLoop separator length (c :: data) (hex ++ hexPair b) := by
      rw [toHexLoop, put_eq (by omega), Option.bind_eq_bind, Option.bind_some,
        put_eq (by rw [List.length_append, List.length_singleton]; omega), Option.bind_some,
        List.append_assoc, List.singleton_append]
      rfl
    rw [hloop, hexText]
    unfold separators at h ⊢
    by_cases hsep : separator ≠ 0
    · rw [if_pos hsep, List.length_singleton] at h
      have hroom : (hex ++ hexPair b).length < length := by
        rw [List.length_append, hpair]
        omega
      have hrest : (hex ++ hexPair b ++ [separator]).length +
          (hexText separator (c :: data)).length = length := by
        rw [List.length_append, List.length_append, hpair, List.length_singleton]
        omega
      rw [if_pos ⟨hsep, hroom⟩, put_eq hroom, Option.bind_some, if_pos hsep,
        toHexLoop_eq (c :: data) _ hrest, List.append_assoc, List.append_assoc]
    · rw [if_neg hsep, List.length_nil] at h
      have hrest : (hex ++ hexPair b).length + (hexText separator (c :: data)).length = length := by
        rw [List.length_append, hpair]
        omega
      rw [if_neg (fun hboth => hsep hboth.1), if_neg hsep, List.nil_append,
        toHexLoop_eq (c :: data) _ hrest, List.append_assoc]

/-- The array that is made for the digits. -/
def hexRoom (separator : UInt8) (n : Nat) : Option Nat :=
  (intSize (n * if separator ≠ 0 then 3 else 2)).bind fun length =>
    uninitialized (if separator ≠ 0 then length - 1 else length)

theorem hexRoom_eq (separator : UInt8) (n : Nat) : hexRoom separator n =
    if hexLength separator n < maxByteArraySize then some (hexLength separator n) else none := by
  have hmax : maxByteArraySize = 2147483623 := rfl
  unfold hexRoom hexLength intSize uninitialized
  by_cases hsep : separator ≠ 0
  · simp only [if_pos hsep]
    by_cases hsize : n * 3 < 2147483648
    · rw [if_pos hsize, Option.bind_some]
    · rw [if_neg hsize, if_neg (by omega), Option.bind_none]
  · simp only [if_neg hsep]
    by_cases hsize : n * 2 < 2147483648
    · rw [if_pos hsize, Option.bind_some]
    · rw [if_neg hsize, if_neg (by omega), Option.bind_none]

theorem toHex_bind {data : Bytes} (separator : UInt8) (h : data ≠ []) :
    toHex data separator = (hexRoom separator data.length).bind fun length =>
      (toHexLoop separator length data []).bind fun hex =>
        if hex.length = length then some hex else none := by
  simp only [toHex, if_neg h, hexRoom, Option.bind_eq_bind, Option.bind_assoc]

theorem toHex_eq {data : Bytes} {separator : UInt8}
    (h : hexLength separator data.length < maxByteArraySize) :
    toHex data separator = some (hexText separator data) := by
  by_cases hnil : data = []
  · rw [toHex, if_pos hnil, hnil, hexText]
  · have hlen := length_hexText separator data
    rw [toHex_bind separator hnil, hexRoom_eq, if_pos h, Option.bind_some,
      toHexLoop_eq data [] (by rw [hlen, List.length_nil, Nat.zero_add]), Option.bind_some]
    exact if_pos hlen

theorem toHex_fits {data text : Bytes} {separator : UInt8} (h : toHex data separator = some text) :
    hexLength separator data.length < maxByteArraySize := by
  by_contra hlarge
  have hnil : data ≠ [] := by
    rintro rfl
    refine hlarge ?_
    unfold hexLength
    split <;> decide
  rw [toHex_bind separator hnil, hexRoom_eq, if_neg hlarge] at h
  cases h

/-! ## Reading hex digits -/

/-- The two digits of a byte, of which the last one is read first. -/
theorem hexPair_step {room : Nat} (b : UInt8) {out : Bytes} (h : out.length < room) :
    (hexPair b).reverse.foldlM (fromHexStep room) (out, true) = some (b :: out, true) := by
  have hdigit : ∀ d : Fin 16, fromHexDigit (toHexLower d.val) = some d.val := by decide
  have hmod : b.toNat &&& 0xf = b.toNat % 16 := Nat.and_two_pow_sub_one_eq_mod b.toNat 4
  have hdiv : b.toNat >>> 4 = b.toNat / 16 := Nat.shiftRight_eq_div_pow b.toNat 4
  have hlt := b.toNat_lt
  have hhigh := hdigit ⟨b.toNat >>> 4, by omega⟩
  have hlow := hdigit ⟨b.toNat &&& 0xf, by omega⟩
  have hbyte : UInt8.ofNat (b.toNat &&& 0xf) ||| UInt8.ofNat (b.toNat >>> 4 <<< 4) = b := by
    rw [← UInt8.ofNat_or, Nat.or_comm,
      ← Nat.shiftLeft_add_eq_or_of_lt (show b.toNat &&& 0xf < 2 ^ 4 by omega), Nat.shiftLeft_eq,
      hmod, hdiv, show b.toNat / 16 * 2 ^ 4 + b.toNat % 16 = b.toNat by omega, UInt8.ofNat_toNat]
  have hfirst : fromHexStep room (out, true) (toHexLower (b.toNat &&& 0xf)) =
      some (UInt8.ofNat (b.toNat &&& 0xf) :: out, false) := by
    rw [fromHexStep, hlow]
    exact if_pos h
  have hsecond : fromHexStep room (UInt8.ofNat (b.toNat &&& 0xf) :: out, false)
      (toHexLower (b.toNat >>> 4)) = some (b :: out, true) := by
    rw [fromHexStep, hhigh]
    exact congrArg (fun c => some (c :: out, true)) hbyte
  show [toHexLower (b.toNat &&& 0xf), toHexLower (b.toNat >>> 4)].foldlM _ _ = _
  rw [List.foldlM_cons, hfirst, Option.bind_eq_bind, Option.bind_some, List.foldlM_cons, hsecond]
  rfl

theorem separators_step {room : Nat} {separator : UInt8} (hsep : fromHexDigit separator = none)
    (s : Bytes × Bool) : (separators separator).reverse.foldlM (fromHexStep room) s = some s := by
  unfold separators
  split
  · show [separator].foldlM (fromHexStep room) s = some s
    rw [List.foldlM_cons, fromHexStep, hsep]
    rfl
  · rfl

/-- The bytes come back from the last one to the first. -/
theorem read_hexText {room : Nat} {separator : UInt8} (hsep : fromHexDigit separator = none) :
    ∀ (data out : Bytes), data.length + out.length ≤ room →
      (hexText separator data).reverse.foldlM (fromHexStep room) (out, true) =
        some (data ++ out, true)
  | [], out, _ => rfl
  | [b], out, h => hexPair_step b (by
      rw [List.length_singleton] at h
      omega)
  | b :: c :: data, out, h => by
    rw [List.length_cons] at h
    rw [hexText, List.reverse_append, List.reverse_append, List.foldlM_append, List.foldlM_append,
      read_hexText hsep (c :: data) out (by omega), Option.bind_eq_bind, Option.bind_some,
      separators_step hsep]
    refine hexPair_step b ?_
    rw [List.length_append]
    omega

theorem hex_roundtrip {data : Bytes} {separator : UInt8} (hsep : fromHexDigit separator = none)
    (h : hexLength separator data.length < maxByteArraySize) :
    fromHex (hexText separator data) = some data := by
  have hmax : maxByteArraySize = 2147483623 := rfl
  have hlen := length_hexText separator data
  have hroom : data.length + ([] : Bytes).length ≤ ((hexText separator data).length + 1) / 2 := by
    rw [hlen, List.length_nil]
    unfold hexLength
    split_ifs <;> omega
  rw [fromHex, intSize_eq (by omega), Option.bind_eq_bind, Option.bind_some,
    uninitialized_eq (by omega), Option.bind_some, read_hexText hsep data [] hroom]
  exact congrArg some (List.append_nil data)

theorem hex_iff {data : Bytes} {separator : UInt8} (hsep : fromHexDigit separator = none) :
    (∃ text, toHex data separator = some text ∧ fromHex text = some data) ↔
      hexLength separator data.length < maxByteArraySize := by
  constructor
  · rintro ⟨text, h, -⟩
    exact toHex_fits h
  · intro h
    exact ⟨_, toHex_eq h, hex_roundtrip hsep h⟩

/-- Both texts are read back as the bytes they are made of, for all bytes of which the text is not
too long: three times the number of characters of Base64 is an `int`, and hex digits fit into an
array. -/
theorem encodings_iff (data text : Bytes) (options : Base64Options) (separator : UInt8)
    (hsep : fromHexDigit separator = none) :
    ((∃ text, toBase64 data options = some text ∧ text.length = options.length data.length) ↔
      (data.length + 2) / 3 * 4 < maxByteArraySize) ∧
    ((∃ text, toBase64 data options = some text ∧ fromBase64 text options = some data) ↔
      options.length data.length * 3 < 2147483648) ∧
    ((∃ data, fromBase64 text options = some data ∧ data.length ≤ text.length * 3 / 4) ↔
      text.length * 3 < 2147483648) ∧
    ((∃ text, toHex data separator = some text ∧ fromHex text = some data) ↔
      hexLength separator data.length < maxByteArraySize) :=
  ⟨toBase64_iff, base64_iff, fromBase64_iff text, hex_iff hsep⟩

theorem encodings_bytes :
    (∃ text, toBase64 [255, 0, 171] ⟨true, true⟩ = some text ∧
      fromBase64 text ⟨true, true⟩ = some [255, 0, 171]) ∧
    fromHexDigit (byte ':') = none ∧
    ∃ text, toHex [255, 0, 171] (byte ':') = some text ∧ fromHex text = some [255, 0, 171] := by
  obtain ⟨-, hbase64, -, hhex⟩ :=
    encodings_iff [255, 0, 171] [] ⟨true, true⟩ (byte ':') (by decide)
  exact ⟨hbase64.mpr (by decide), by decide, hhex.mpr (by decide)⟩

/-- The size of a text of 715827884 characters is no `int` when it is multiplied. -/
theorem base64_overflow : ¬∃ text,
    toBase64 (List.replicate 536870911 0) ⟨false, false⟩ = some text ∧
    fromBase64 text ⟨false, false⟩ = some (List.replicate 536870911 0) := by
  rw [base64_iff, List.length_replicate]
  decide

end Libpdk.Ds.ByteArray
