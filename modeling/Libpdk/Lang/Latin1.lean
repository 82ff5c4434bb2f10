import Libpdk.Codecs.Utf8
import Libpdk.Core.Mem

/-!
# Latin-1

Bytes are widened to units and units are narrowed to bytes in one memory, so that the source and
the destination may be the same buffer: a pointer is a position in the memory, and a read or a
write outside of it fails. Exact is what is one `Mem.poke` of the converted text. Narrowing is exact
in every build, in place too. Widening is exact only where its tail is unrolled: the loop that is
left otherwise counts down before it looks at the count, so that it leaves the last byte out, and
runs away from no bytes (`latin1_exact`).
-/
namespace Libpdk.Lang.Latin1

open Codecs.Utf8 (packus)

/-! ## Builds -/

/-- What `__SSE2__`, `__SSE4_1__`, `__SSE4_2__` and `__AVX2__` say. -/
inductive Vectors
  | fallback
  | sse2
  | sse41
  | sse42
  | avx2
  deriving DecidableEq

structure Build where
  vectors : Vectors
  /-- `__OPTIMIZE_SIZE__` -/
  optimizeSize : Bool
  deriving DecidableEq

def Build.unrolled (build : Build) : Bool := build.vectors != .fallback && !build.optimizeSize

/-! ## Registers -/

/-- Units as they lie in memory. -/
def bytes (us : Str) : Bytes := us.flatMap fun u => Mem.toLe 2 u.toNat

/-- The lanes of a register. -/
def units : Bytes → Str
  | a :: b :: rest => UInt16.ofNat (Mem.ofLe [a, b]) :: units rest
  | _ => []

/-- The pairs of `_mm_unpacklo_epi8` and `_mm_unpackhi_epi8`. -/
def interleave (a b : Bytes) : Bytes := (a.zip b).flatMap fun (x, y) => [x, y]

/-- `_mm_unpacklo_epi8` -/
def unpacklo (a b : Bytes) : Bytes := interleave (a.take 8) (b.take 8)

/-- `_mm_unpackhi_epi8` -/
def unpackhi (a b : Bytes) : Bytes := interleave (a.drop 8) (b.drop 8)

/-- `_mm_cvtepu8_epi16` -/
def cvtepu8 (chunk : Bytes) : Bytes := chunk.flatMap fun b => [b, 0]

/-- A lane of `_mm_cmpgt_epi16` -/
def cmpgt (a b : UInt16) : UInt16 := if b.toBitVec.slt a.toBitVec then 0xffff else 0

/-- A lane of `_mm_blendv_epi8`, for a mask that is all ones or all zeros -/
def blendv (a b mask : UInt16) : UInt16 := if mask = 0xffff then b else a

/-- A lane of the chunk.
mirrors lang/String.cpp:517-567 -/
def mergeQuestionMark (vectors : Vectors) (u : UInt16) : UInt16 :=
  let questionMark : UInt16 := 63
  match vectors with
  | .sse42 | .avx2 =>
    -- the range 0x0100-0xFFFF
    let offLimitMask : UInt16 := if 0x0100 ≤ u ∧ u ≤ 0xffff then 0xffff else 0
    blendv u questionMark offLimitMask
  | .sse41 =>
    let offLimitMask := cmpgt (u + 0x8000) (0xff + 0x8000)
    blendv u questionMark offLimitMask
  | _ =>
    let offLimitMask := cmpgt (u + 0x8000) (0xff + 0x8000)
    let offLimitQuestionMark := offLimitMask &&& questionMark
    let correctBytes := ~~~offLimitMask &&& u
    correctBytes ||| offLimitQuestionMark

/-! ## Loops -/

/-- `UnrollTailLoop<15>`
mirrors lang/String.cpp:112-156 -/
def unrollTailLoop (code : Nat → Bytes → Option Bytes) : Nat → Nat → Nat → Bytes → Option Bytes
  | 0, _, _, m => some m
  | maxCount + 1, count, i, m =>
    if count = 0 then some m
    else do
      let m ← code i m
      unrollTailLoop code maxCount (count - 1) (i + 1) m

/-- A loop that moves its two pointers by one element, a number of times. -/
def pointerLoop (code : Nat → Bytes → Option Bytes) : Nat → Nat → Bytes → Option Bytes
  | 0, _, m => some m
  | rounds + 1, i, m => do
    let m ← code i m
    pointerLoop code rounds (i + 1) m

/-- mirrors lang/String.cpp:619-635 and 656-668 -/
def blocks (chunk : Nat → Bytes → Option Bytes) (size offset : Nat) (m : Bytes) :
    Option (Nat × Bytes) :=
  if offset + 15 < size then do
    let m ← chunk offset m
    blocks chunk size (offset + 16) m
  else some (offset, m)
termination_by size - offset

/-- mirrors lang/String.cpp:622-634 -/
def widenChunk (vectors : Vectors) (dest str offset : Nat) (m : Bytes) : Option Bytes := do
  let chunk ← Mem.peek m (str + offset) 16
  if vectors = .avx2 then Mem.poke m (dest + 2 * offset) (cvtepu8 chunk)
  else do
    let nullMask := List.replicate 16 0
    let m ← Mem.poke m (dest + 2 * offset) (unpacklo chunk nullMask)
    Mem.poke m (dest + 2 * (offset + 8)) (unpackhi chunk nullMask)

/-- `dest[i] = static_cast<uchar>(str[i])` -/
def widen (dest str : Nat) (i : Nat) (m : Bytes) : Option Bytes := do
  let b ← Mem.le 1 m (str + i)
  Mem.poke m (dest + 2 * i) (Mem.toLe 2 b)

/-- `while (--size)` wraps around from zero.
mirrors lang/String.cpp:612-648 -/
def utf16FromLatin1 (build : Build) (dest str : Nat) (size : UInt64) (m : Bytes) :
    Option Bytes :=
  if build.vectors = .fallback then pointerLoop (widen dest str) (size - 1).toNat 0 m
  else do
    let (offset, m) ← blocks (widenChunk build.vectors dest str) size.toNat 0 m
    let size := size % 16
    let dest := dest + 2 * offset
    let str := str + offset
    if build.optimizeSize then pointerLoop (widen dest str) (size - 1).toNat 0 m
    else unrollTailLoop (widen dest str) 15 size.toNat 0 m

/-- mirrors lang/String.cpp:658-667 -/
def narrowChunk (vectors : Vectors) (dest src offset : Nat) (m : Bytes) : Option Bytes := do
  let chunk1 ← Mem.peek m (src + 2 * offset) 16
  let chunk1 := (units chunk1).map (mergeQuestionMark vectors)
  let chunk2 ← Mem.peek m (src + 2 * (offset + 8)) 16
  let chunk2 := (units chunk2).map (mergeQuestionMark vectors)
  Mem.poke m (dest + offset) ((chunk1 ++ chunk2).map packus)

/-- `dest[i] = (src[i]>0xff) ? '?' : (uchar) src[i]` -/
def narrow (dest src : Nat) (i : Nat) (m : Bytes) : Option Bytes := do
  let u := UInt16.ofNat (← Mem.le 2 m (src + 2 * i))
  Mem.poke m (dest + i) [if u > 0xff then byte '?' else u.toUInt8]

/-- mirrors lang/String.cpp:650-681 -/
def utf16ToLatin1 (build : Build) (dest src length : Nat) (m : Bytes) : Option Bytes :=
  if build.vectors = .fallback then pointerLoop (narrow dest src) length 0 m
  else do
    let (offset, m) ← blocks (narrowChunk build.vectors dest src) length 0 m
    let length := length % 16
    let dest := dest + offset
    let src := src + 2 * offset
    if build.optimizeSize then pointerLoop (narrow dest src) length 0 m
    else unrollTailLoop (narrow dest src) 15 length 0 m

/-! ## Strings -/

/-- The bytes of a new block. -/
def allocate (fresh : Nat → UInt8) (n : Nat) : Bytes := (List.range n).map fresh

/-- mirrors lang/String.cpp:2387-2407 -/
def fromLatin1Helper (build : Build) (fresh : Nat → UInt8) (str : Bytes) : Option Str :=
  if str.length = 0 then some []
  else do
    let size := 2 * (str.length + 1)
    let m ← utf16FromLatin1 build 0 size (UInt64.ofNat str.length) (allocate fresh size ++ str)
    (Mem.peek m 0 (2 * str.length)).map units

/-- mirrors lang/String.cpp:503-514 -/
def toLatin1Helper (build : Build) (fresh : Nat → UInt8) (s : Str) : Option Bytes := do
  let m ← utf16ToLatin1 build 0 s.length s.length (allocate fresh s.length ++ bytes s)
  Mem.peek m 0 s.length

/-- The buffer holds a unit more than the string.
mirrors lang/String.cpp:2343-2370 -/
def toLatin1HelperInplace (build : Build) (s : Str) : Option Bytes := do
  let m ← utf16ToLatin1 build 0 0 s.length (bytes s ++ [0, 0])
  let m ← Mem.poke m s.length [0]
  Mem.peek m 0 s.length

/-! ## What is exact -/

/-- Widening writes the bytes as units where they are wanted, and nothing else. -/
def Widens (build : Build) (size : UInt64) : Prop :=
  ∀ m dest str src, Mem.peek m str size.toNat = some src → dest + 2 * size.toNat ≤ m.length →
    (dest + 2 * size.toNat ≤ str ∨ str + size.toNat ≤ dest) →
      utf16FromLatin1 build dest str size m = Mem.poke m dest (bytes (latin1 src))

/-- Narrowing writes the low bytes and question marks, and nothing else; the destination lies
apart from the source, or it does not start behind it. -/
def Narrows (build : Build) (length : Nat) : Prop :=
  ∀ m dest src s, s.length = length → Mem.peek m src (2 * length) = some (bytes s) →
    dest + length ≤ m.length → (dest ≤ src ∨ src + 2 * length ≤ dest) →
      utf16ToLatin1 build dest src length m = Mem.poke m dest (toLatin1 s)

/-! ## Progress -/

section Progress

-- `P i m`: the memory is `m` after `i` elements of `n`
variable {P : Nat → Bytes → Prop} {n : Nat} {code : Nat → Bytes → Option Bytes}

theorem pointerLoop_spec
    (hcode : ∀ i m, P i m → i < n → ∃ m', code i m = some m' ∧ P (i + 1) m') :
    ∀ rounds i m, P i m → i + rounds ≤ n →
      ∃ m', pointerLoop code rounds i m = some m' ∧ P (i + rounds) m'
  | 0, i, m, h, _ => ⟨m, rfl, h⟩
  | rounds + 1, i, m, h, hle => by
    obtain ⟨m₁, hm₁, h₁⟩ := hcode i m h (by omega)
    obtain ⟨m₂, hm₂, h₂⟩ := pointerLoop_spec hcode rounds (i + 1) m₁ h₁ (by omega)
    refine ⟨m₂, ?_, by rwa [Nat.add_right_comm, Nat.add_assoc] at h₂⟩
    rw [pointerLoop, hm₁]
    exact hm₂

theorem unrollTailLoop_eq (code : Nat → Bytes → Option Bytes) :
    ∀ maxCount count i m, count ≤ maxCount →
      unrollTailLoop code maxCount count i m = pointerLoop code count i m
  | 0, 0, _, _, _ => rfl
  | maxCount + 1, 0, _, _, _ => rfl
  | maxCount + 1, count + 1, i, m, h => by
    rw [unrollTailLoop, pointerLoop, if_neg (Nat.succ_ne_zero count)]
    exact congrArg (code i m).bind (funext fun m =>
      unrollTailLoop_eq code maxCount count (i + 1) m (by omega))

theorem blocks_spec
    (hcode : ∀ i m, P i m → i + 16 ≤ n → ∃ m', code i m = some m' ∧ P (i + 16) m') (i : Nat)
    (m : Bytes) (h : P i m) :
    ∃ m', blocks code n i m = some (i + (n - i) / 16 * 16, m') ∧ P (i + (n - i) / 16 * 16) m' := by
  rw [blocks]
  split
  · next hlt =>
    obtain ⟨m₁, hm₁, h₁⟩ := hcode i m h (by omega)
    obtain ⟨m₂, hm₂, h₂⟩ := blocks_spec hcode (i + 16) m₁ h₁
    have hoffset : i + 16 + (n - (i + 16)) / 16 * 16 = i + (n - i) / 16 * 16 := by omega
    rw [hoffset] at hm₂ h₂
    exact ⟨m₂, by rw [hm₁]; exact hm₂, h₂⟩
  · next hlt =>
    have hoffset : i + (n - i) / 16 * 16 = i := by omega
    rw [hoffset]
    exact ⟨m, rfl, h⟩
termination_by n - i

end Progress

/-! ## Registers -/

theorem toLe_two (v : Nat) : Mem.toLe 2 v = [UInt8.ofNat v, UInt8.ofNat (v / 256)] := rfl

@[simp] theorem length_bytes (s : Str) : (bytes s).length = 2 * s.length := by
  induction s with
  | nil => rfl
  | cons u s ih =>
    rw [bytes, List.flatMap_cons, List.length_append, Mem.length_toLe, ← bytes, ih, List.length_cons]
    omega

theorem bytes_append (s t : Str) : bytes (s ++ t) = bytes s ++ bytes t := List.flatMap_append

theorem units_bytes (s : Str) : units (bytes s) = s := by
  induction s with
  | nil => rfl
  | cons u s ih =>
    have hu : Mem.ofLe (Mem.toLe 2 u.toNat) = u.toNat :=
      Mem.ofLe_toLe (by have := u.toNat_lt; omega)
    show UInt16.ofNat (Mem.ofLe (Mem.toLe 2 u.toNat)) :: units (bytes s) = _
    rw [hu, ih, UInt16.ofNat_toNat]

theorem cvtepu8_eq (chunk : Bytes) : cvtepu8 chunk = bytes (latin1 chunk) := by
  induction chunk with
  | nil => rfl
  | cons b chunk ih =>
    have hb := b.toNat_lt
    have hhigh : b.toNat / 256 = 0 := by omega
    show b :: 0 :: cvtepu8 chunk = Mem.toLe 2 b.toUInt16.toNat ++ bytes (latin1 chunk)
    rw [ih, UInt8.toNat_toUInt16, toLe_two, hhigh, UInt8.ofNat_toNat]
    rfl

/-- Between zeros a byte is a unit. -/
theorem interleave_zeros (chunk : Bytes) :
    interleave chunk (List.replicate chunk.length 0) = cvtepu8 chunk := by
  induction chunk with
  | nil => rfl
  | cons b chunk ih => exact congrArg (b :: 0 :: ·) ih

/-- The two halves make up the chunk. -/
theorem unpack_eq {chunk : Bytes} (h : chunk.length = 16) :
    unpacklo chunk (List.replicate 16 0) = bytes (latin1 (chunk.take 8)) ∧
      unpackhi chunk (List.replicate 16 0) = bytes (latin1 (chunk.drop 8)) := by
  have hlo : (chunk.take 8).length = 8 := by rw [List.length_take, h]; rfl
  have hhi : (chunk.drop 8).length = 8 := by rw [List.length_drop, h]
  have hlo' := interleave_zeros (chunk.take 8)
  have hhi' := interleave_zeros (chunk.drop 8)
  rw [hlo, cvtepu8_eq] at hlo'
  rw [hhi, cvtepu8_eq] at hhi'
  exact ⟨hlo', hhi'⟩

theorem cmpgt_eq (u : UInt16) :
    cmpgt (u + 0x8000) (0xff + 0x8000) = if 0xff < u then 0xffff else 0 := by
  have hiff : ((0xff + 0x8000 : UInt16).toBitVec.slt (u + 0x8000).toBitVec = true) ↔ 0xff < u := by
    rw [BitVec.slt_iff_toInt_lt, BitVec.toInt_eq_toNat_cond, BitVec.toInt_eq_toNat_cond,
      UInt16.lt_iff_toNat_lt]
    have hu := u.toNat_lt
    simp only [UInt16.toNat_toBitVec, UInt16.toNat_add, UInt16.reduceToNat]
    omega
  exact if_congr hiff rfl rfl

theorem mergeQuestionMark_eq (vectors : Vectors) (u : UInt16) :
    mergeQuestionMark vectors u = if 0xff < u then 63 else u := by
  have hall : u ≤ 0xffff := UInt16.le_iff_toNat_le.mpr (by have := u.toNat_lt; simp; omega)
  have hrange : (0x0100 ≤ u ∧ u ≤ 0xffff) ↔ 0xff < u := by
    rw [and_iff_left hall, UInt16.le_iff_toNat_le, UInt16.lt_iff_toNat_lt]
    exact Nat.succ_le_iff
  have hmask : ~~~(0xffff : UInt16) &&& u ||| 0xffff &&& 63 = 63 := by
    rw [show ~~~(0xffff : UInt16) = 0 from rfl, UInt16.zero_and]
    rfl
  unfold mergeQuestionMark blendv
  cases vectors
  all_goals
    simp only [hrange, cmpgt_eq]
    by_cases hu : 0xff < u
    · simp [hu, hmask]
    · simp [hu]

/-- Saturation does not happen any more. -/
theorem packus_eq (vectors : Vectors) (s : Str) :
    (s.map (mergeQuestionMark vectors)).map packus = toLatin1 s := by
  rw [List.map_map]
  refine List.map_congr_left fun u _ => ?_
  rw [Function.comp_apply, mergeQuestionMark_eq]
  by_cases hu : 0xff < u
  · rw [if_pos hu, if_pos hu]
    rfl
  · have hn : u.toNat ≤ 255 := UInt16.le_iff_toNat_le.mp (UInt16.not_lt.mp hu)
    rw [if_neg hu, if_neg hu, packus, if_neg (by omega), if_neg (by omega)]

/-! ## Widening -/

section Widening

variable {m m' src : Bytes} {dest str n : Nat}

/-- The first `i` bytes are widened. -/
def Widened (m : Bytes) (dest : Nat) (src : Bytes) (i : Nat) (m' : Bytes) : Prop :=
  Mem.poke m dest (bytes (latin1 (src.take i))) = some m'

theorem Widened.step {i : Nat} (h : Widened m dest src i m') (chunk : Bytes) (hlen : i ≤ src.length)
    (hroom : dest + 2 * (i + chunk.length) ≤ m.length)
    (hchunk : src.take (i + chunk.length) = src.take i ++ chunk) :
    ∃ m₁, Mem.poke m' (dest + 2 * i) (bytes (latin1 chunk)) = some m₁ ∧
      Widened m dest src (i + chunk.length) m₁ := by
  have hout : (bytes (latin1 (src.take i))).length = 2 * i := by
    rw [length_bytes, latin1, List.length_map, List.length_take, Nat.min_eq_left hlen]
  have hpoke := Mem.poke_poke (B := bytes (latin1 chunk)) h
  rw [hout, ← bytes_append, ← latin1_append, ← hchunk] at hpoke
  obtain ⟨m₁, hm₁⟩ := Mem.poke_isSome (m := m) (p := dest)
    (A := bytes (latin1 (src.take (i + chunk.length)))) (by
      rw [length_bytes, latin1, List.length_map, List.length_take]
      omega)
  exact ⟨m₁, hpoke.trans hm₁, hm₁⟩

/-- The source is read as it was: the destination lies apart from it. -/
theorem Widened.read {i k : Nat} (h : Widened m dest src i m') (hsrc : Mem.peek m str n = some src)
    (hik : i + k ≤ n) (hapart : dest + 2 * n ≤ str ∨ str + n ≤ dest) :
    Mem.peek m' (str + i) k = some ((src.drop i).take k) := by
  have hlen := (Mem.peek_eq_some hsrc).1
  rw [Mem.peek_poke h (by
    rw [length_bytes, latin1, List.length_map, List.length_take]
    omega)]
  exact Mem.peek_part hsrc hik

theorem Widened.one {i a j : Nat} (h : Widened m dest src i m') (hsrc : Mem.peek m str n = some src)
    (hroom : dest + 2 * n ≤ m.length) (hapart : dest + 2 * n ≤ str ∨ str + n ≤ dest) (hi : i < n)
    (hij : i = a + j) :
    ∃ m₁, widen (dest + 2 * a) (str + a) j m' = some m₁ ∧ Widened m dest src (i + 1) m₁ := by
  have hlen := (Mem.peek_eq_some hsrc).1
  have hread := h.read (k := 1) hsrc hi hapart
  have hone : (src.drop i).take 1 = [src[i]] := by
    rw [List.drop_eq_getElem_cons (by omega)]
    rfl
  have hbyte : Mem.le 1 m' (str + i) = some src[i].toNat := by
    rw [Mem.le, hread, hone]
    rfl
  obtain ⟨m₁, hm₁, h₁⟩ := h.step [src[i]] (by omega)
    (by rw [List.length_singleton]; omega) (by rw [List.take_append_getElem]; rfl)
  refine ⟨m₁, ?_, h₁⟩
  have hstored : Mem.toLe 2 src[i].toNat = bytes (latin1 [src[i]]) := by
    rw [← UInt8.toNat_toUInt16]
    exact (List.append_nil _).symm
  subst hij
  rw [widen, Nat.add_assoc, hbyte, Option.bind_eq_bind, Option.bind_some, hstored, Nat.add_assoc,
    ← Nat.mul_add]
  exact hm₁

theorem Widened.chunk (vectors : Vectors) {i : Nat} (h : Widened m dest src i m')
    (hsrc : Mem.peek m str n = some src) (hroom : dest + 2 * n ≤ m.length)
    (hapart : dest + 2 * n ≤ str ∨ str + n ≤ dest) (hi : i + 16 ≤ n) :
    ∃ m₁, widenChunk vectors dest str i m' = some m₁ ∧ Widened m dest src (i + 16) m₁ := by
  have hlen := (Mem.peek_eq_some hsrc).1
  have hread := h.read hsrc hi hapart
  have hchunk : ((src.drop i).take 16).length = 16 := by
    rw [List.length_take, List.length_drop]
    omega
  have htake (k : Nat) : src.take (i + k) = src.take i ++ (src.drop i).take k := List.take_add
  unfold widenChunk
  rw [hread, Option.bind_eq_bind, Option.bind_some]
  split
  · obtain ⟨m₁, hm₁, h₁⟩ := h.step ((src.drop i).take 16) (by omega) (by omega)
      (by rw [hchunk, htake])
    rw [hchunk] at h₁
    exact ⟨m₁, by rw [cvtepu8_eq, hm₁], h₁⟩
  · obtain ⟨hlo, hhi⟩ := unpack_eq hchunk
    rw [List.take_take] at hlo
    rw [List.drop_take, List.drop_drop] at hhi
    dsimp only
    rw [hlo, hhi]
    obtain ⟨m₁, hm₁, h₁⟩ := h.step ((src.drop i).take 8) (by omega)
      (by rw [List.length_take, List.length_drop]; omega)
      (by rw [List.length_take, List.length_drop, ← htake]; congr 1; omega)
    have h8 : ((src.drop i).take 8).length = 8 := by
      rw [List.length_take, List.length_drop]
      omega
    rw [h8] at h₁
    obtain ⟨m₂, hm₂, h₂⟩ := h₁.step ((src.drop (i + 8)).take 8) (by omega)
      (by rw [List.length_take, List.length_drop]; omega)
      (by rw [List.length_take, List.length_drop, ← List.take_add]; congr 1; omega)
    refine ⟨m₂, ?_, ?_⟩
    · simp only [Nat.reduceLeDiff, Nat.min_eq_left, hm₁, Option.bind_some]
      exact hm₂
    · have h8' : ((src.drop (i + 8)).take 8).length = 8 := by
        rw [List.length_take, List.length_drop]
        omega
      rwa [h8', Nat.add_assoc] at h₂

theorem Widened.tail {a : Nat} (rounds : Nat) (h : Widened m dest src a m')
    (hsrc : Mem.peek m str n = some src) (hroom : dest + 2 * n ≤ m.length)
    (hapart : dest + 2 * n ≤ str ∨ str + n ≤ dest) (ha : a + rounds ≤ n) :
    ∃ m₁, pointerLoop (widen (dest + 2 * a) (str + a)) rounds 0 m' = some m₁ ∧
      Widened m dest src (a + rounds) m₁ := by
  obtain ⟨m₁, hm₁, h₁⟩ := pointerLoop_spec (P := fun j m' => Widened m dest src (a + j) m')
    (n := rounds) (fun j m' h' hj => h'.one hsrc hroom hapart (by omega) rfl) rounds 0 m' h
    (by omega)
  exact ⟨m₁, hm₁, by rwa [Nat.zero_add] at h₁⟩

theorem Widened.start (hroom : dest ≤ m.length) : Widened m dest src 0 m := by
  show Mem.poke m dest [] = some m
  rw [Mem.poke, if_pos (by simpa using hroom)]
  simp

theorem Widened.blocks (vectors : Vectors) {size : UInt64}
    (hsrc : Mem.peek m str size.toNat = some src) (hroom : dest + 2 * size.toNat ≤ m.length)
    (hapart : dest + 2 * size.toNat ≤ str ∨ str + size.toNat ≤ dest) :
    ∃ a m₁, blocks (widenChunk vectors dest str) size.toNat 0 m = some (a, m₁) ∧
      Widened m dest src a m₁ ∧ a + (size % 16).toNat = size.toNat ∧ (size % 16).toNat < 16 := by
  obtain ⟨m₁, hm₁, h₁⟩ := blocks_spec (P := Widened m dest src) (n := size.toNat)
    (fun i m' h' hi => Widened.chunk vectors h' hsrc hroom hapart hi) 0 m
    (.start (by omega))
  have hmod : (size % 16).toNat = size.toNat % 16 := UInt64.toNat_mod size 16
  exact ⟨_, m₁, hm₁, h₁, by omega, by omega⟩

theorem widens_of_unrolled {build : Build} (hbuild : build.unrolled) (size : UInt64) :
    Widens build size := by
  intro m dest str src hsrc hroom hapart
  obtain ⟨hvectors, hsize⟩ : build.vectors ≠ .fallback ∧ build.optimizeSize = false := by
    simpa [Build.unrolled] using hbuild
  have hlen := (Mem.peek_eq_some hsrc).1
  obtain ⟨a, m₁, hm₁, h₁, ha, hlt⟩ := Widened.blocks build.vectors hsrc hroom hapart
  obtain ⟨m₂, hm₂, h₂⟩ := Widened.tail _ h₁ hsrc hroom hapart ha.le
  rw [ha, Widened, ← hlen, List.take_length] at h₂
  rw [h₂, utf16FromLatin1, if_neg hvectors, hm₁, hsize]
  simp only [Option.bind_eq_bind, Option.bind_some, Bool.false_eq_true, if_false]
  rw [unrollTailLoop_eq _ _ _ _ _ (by omega), hm₂]

/-- The other builds are left with the loop that counts down first. -/
theorem tail_of_not_unrolled {build : Build} (hbuild : build.unrolled = false) {size : UInt64}
    (hsrc : Mem.peek m str size.toNat = some src) (hroom : dest + 2 * size.toNat ≤ m.length)
    (hapart : dest + 2 * size.toNat ≤ str ∨ str + size.toNat ≤ dest) :
    ∃ a t m₁, a + UInt64.toNat t = size.toNat ∧ Widened m dest src a m₁ ∧
      utf16FromLatin1 build dest str size m =
        pointerLoop (widen (dest + 2 * a) (str + a)) (t - 1).toNat 0 m₁ := by
  by_cases hvectors : build.vectors = .fallback
  · exact ⟨0, size, m, Nat.zero_add _, .start (by omega), by
      rw [utf16FromLatin1, if_pos hvectors]; rfl⟩
  · have hsize : build.optimizeSize = true := by
      simpa [Build.unrolled, hvectors] using hbuild
    obtain ⟨a, m₁, hm₁, h₁, ha, -⟩ := Widened.blocks build.vectors hsrc hroom hapart
    refine ⟨a, size % 16, m₁, ha, h₁, ?_⟩
    rw [utf16FromLatin1, if_neg hvectors, hm₁, hsize]
    simp only [Option.bind_eq_bind, Option.bind_some, if_true]

/-- It leaves out the last byte, and where there is none it does not stop at the end. -/
theorem not_widens {build : Build} (hbuild : build.unrolled = false) (size : UInt64) :
    ¬ Widens build size := by
  intro hwidens
  obtain ⟨n, hn⟩ : ∃ n, size.toNat = n := ⟨_, rfl⟩
  have hsrc : Mem.peek (List.replicate (2 * n) 0 ++ List.replicate n 1) (2 * n) n =
      some (List.replicate n 1) := by
    rw [← List.append_nil (_ ++ _)]
    exact Mem.peek_of_split rfl (by simp) (by simp)
  obtain ⟨m, hm⟩ : ∃ m : Bytes, List.replicate (2 * n) 0 ++ List.replicate n 1 = m := ⟨_, rfl⟩
  have hmlen : m.length = 3 * n := by
    rw [← hm, List.length_append, List.length_replicate, List.length_replicate]
    omega
  rw [hm] at hsrc
  subst hn
  have hroom : 0 + 2 * size.toNat ≤ m.length := by omega
  have hapart : 0 + 2 * size.toNat ≤ 2 * size.toNat ∨ 2 * size.toNat + size.toNat ≤ 0 := by omega
  have hexact := hwidens m 0 _ _ hsrc hroom hapart
  obtain ⟨a, t, m₁, ha, h₁, hrun⟩ := tail_of_not_unrolled hbuild hsrc hroom hapart
  have hwhole : (bytes (latin1 (List.replicate size.toNat 1))).length = 2 * size.toNat := by
    rw [length_bytes, latin1, List.length_map, List.length_replicate]
  by_cases ht : t = 0
  · -- the count wraps around, and the first byte read lies behind the source
    obtain ⟨m₂, hm₂⟩ := Mem.poke_isSome (m := m) (p := 0)
      (A := bytes (latin1 (List.replicate size.toNat 1))) (by omega)
    have hrounds : (t - 1).toNat = 18446744073709551614 + 1 := by rw [ht]; rfl
    have hnone : Mem.peek m₁ (2 * size.toNat + a + 0) 1 = none := by
      have hlen := Mem.length_poke h₁
      have ht0 : t.toNat = 0 := by rw [ht]; rfl
      exact if_neg (by omega)
    rw [hrun, hm₂, hrounds, pointerLoop, widen, Mem.le, hnone] at hexact
    cases hexact
  · -- the last unit is as it was
    have hpos : t.toNat ≠ 0 := fun h0 => ht (UInt64.toNat_inj.mp h0)
    have hrounds : (t - 1).toNat = t.toNat - 1 :=
      UInt64.toNat_sub_of_le t 1 (UInt64.le_iff_toNat_le.mpr (by show 1 ≤ t.toNat; omega))
    obtain ⟨m₂, hm₂, h₂⟩ := Widened.tail (t.toNat - 1) h₁ hsrc hroom hapart (by omega)
    rw [hrun, hrounds, hm₂] at hexact
    have hshort : (bytes (latin1 ((List.replicate size.toNat 1).take (a + (t.toNat - 1))))).length =
        2 * (size.toNat - 1) := by
      rw [length_bytes, latin1, List.length_map, List.length_take, List.length_replicate]
      omega
    have hkept : Mem.peek m₂ (2 * (size.toNat - 1)) 1 = some [0] := by
      have hzeros : List.replicate (2 * size.toNat) (0 : UInt8) =
          List.replicate (2 * (size.toNat - 1)) 0 ++ [0] ++ [0] := by
        rw [List.append_assoc, show [(0 : UInt8)] ++ [0] = List.replicate 2 0 from rfl,
          List.replicate_append_replicate]
        congr 1
        omega
      rw [Mem.peek_poke h₂ (by omega), ← hm, hzeros, List.append_assoc _ [0] (List.replicate _ 1)]
      exact Mem.peek_of_split rfl (by simp) rfl
    have hwritten := Mem.peek_part (Mem.peek_poke_self hexact.symm) (j := 2 * (size.toNat - 1))
      (k := 1) (by omega)
    have hones : bytes (latin1 (List.replicate size.toNat 1)) =
        bytes (latin1 (List.replicate (size.toNat - 1) 1)) ++ [1, 0] := by
      conv_lhs => rw [show size.toNat = size.toNat - 1 + 1 by omega, List.replicate_succ',
        latin1_append, bytes_append]
      rfl
    have hones' : (bytes (latin1 (List.replicate (size.toNat - 1) 1))).length =
        2 * (size.toNat - 1) := by
      rw [length_bytes, latin1, List.length_map, List.length_replicate]
    rw [Nat.zero_add, hkept, hones, ← hones', List.drop_left] at hwritten
    cases hwritten

end Widening

/-! ## Narrowing -/

section Narrowing

variable {m m' : Bytes} {s : Str} {dest src : Nat}

/-- The first `i` units are narrowed. -/
def Narrowed (m : Bytes) (dest : Nat) (s : Str) (i : Nat) (m' : Bytes) : Prop :=
  Mem.poke m dest (toLatin1 (s.take i)) = some m'

theorem Narrowed.step {i k : Nat} (h : Narrowed m dest s i m') (hi : i + k ≤ s.length)
    (hroom : dest + s.length ≤ m.length) :
    ∃ m₁, Mem.poke m' (dest + i) (toLatin1 ((s.drop i).take k)) = some m₁ ∧
      Narrowed m dest s (i + k) m₁ := by
  have hout : (toLatin1 (s.take i)).length = i := by
    rw [toLatin1, List.length_map, List.length_take, Nat.min_eq_left (by omega)]
  have hpoke := Mem.poke_poke (B := toLatin1 ((s.drop i).take k)) h
  rw [hout, toLatin1, toLatin1, ← List.map_append, ← List.take_add, ← toLatin1] at hpoke
  obtain ⟨m₁, hm₁⟩ := Mem.poke_isSome (m := m) (p := dest) (A := toLatin1 (s.take (i + k))) (by
    rw [toLatin1, List.length_map, List.length_take]
    omega)
  exact ⟨m₁, hpoke.trans hm₁, hm₁⟩

/-- The source is read as it was, in place too: what is written does not reach what is read. -/
theorem Narrowed.read {i j k : Nat} (h : Narrowed m dest s i m')
    (hsrc : Mem.peek m src (2 * s.length) = some (bytes s)) (hij : i ≤ j) (hjk : j + k ≤ s.length)
    (hapart : dest ≤ src ∨ src + 2 * s.length ≤ dest) :
    Mem.peek m' (src + 2 * j) (2 * k) = some (bytes ((s.drop j).take k)) := by
  rw [Mem.peek_poke h (by
    rw [toLatin1, List.length_map, List.length_take]
    omega), Mem.peek_part hsrc (by omega)]
  have hfront : (bytes (s.take j)).length = 2 * j := by
    rw [length_bytes, List.length_take, Nat.min_eq_left (by omega)]
  have hpart : (bytes ((s.drop j).take k)).length = 2 * k := by
    rw [length_bytes, List.length_take, List.length_drop, Nat.min_eq_left (by omega)]
  conv_lhs => rw [← List.take_append_drop j s, bytes_append, ← hfront, List.drop_left,
    ← List.take_append_drop k (s.drop j), bytes_append, ← hpart, List.take_left]

theorem Narrowed.one {i a j : Nat} (h : Narrowed m dest s i m')
    (hsrc : Mem.peek m src (2 * s.length) = some (bytes s)) (hroom : dest + s.length ≤ m.length)
    (hapart : dest ≤ src ∨ src + 2 * s.length ≤ dest) (hi : i < s.length) (hij : i = a + j) :
    ∃ m₁, narrow (dest + a) (src + 2 * a) j m' = some m₁ ∧ Narrowed m dest s (i + 1) m₁ := by
  have hread := h.read (k := 1) hsrc le_rfl hi hapart
  have hone : (s.drop i).take 1 = [s[i]] := by
    rw [List.drop_eq_getElem_cons hi]
    rfl
  have hunit : Mem.le 2 m' (src + 2 * i) = some s[i].toNat := by
    have hpair : bytes [s[i]] = Mem.toLe 2 s[i].toNat := List.append_nil _
    rw [Mem.le, hread, hone, hpair, Option.map_some,
      Mem.ofLe_toLe (by have := s[i].toNat_lt; omega)]
  obtain ⟨m₁, hm₁, h₁⟩ := h.step (k := 1) hi hroom
  refine ⟨m₁, ?_, h₁⟩
  rw [hone] at hm₁
  subst hij
  rw [narrow, Nat.add_assoc, ← Nat.mul_add, hunit, Option.bind_eq_bind, Option.bind_some,
    UInt16.ofNat_toNat, Nat.add_assoc]
  exact hm₁

theorem Narrowed.chunk (vectors : Vectors) {i : Nat} (h : Narrowed m dest s i m')
    (hsrc : Mem.peek m src (2 * s.length) = some (bytes s)) (hroom : dest + s.length ≤ m.length)
    (hapart : dest ≤ src ∨ src + 2 * s.length ≤ dest) (hi : i + 16 ≤ s.length) :
    ∃ m₁, narrowChunk vectors dest src i m' = some m₁ ∧ Narrowed m dest s (i + 16) m₁ := by
  have hread₁ := h.read (k := 8) hsrc le_rfl (by omega) hapart
  have hread₂ := h.read (j := i + 8) (k := 8) hsrc (by omega) (by omega) hapart
  obtain ⟨m₁, hm₁, h₁⟩ := h.step (k := 16) hi hroom
  refine ⟨m₁, ?_, h₁⟩
  rw [narrowChunk, hread₁, hread₂]
  simp only [Option.bind_eq_bind, Option.bind_some, units_bytes]
  rw [← List.map_append, packus_eq, ← List.drop_drop, ← List.take_add]
  exact hm₁

theorem narrows (build : Build) (length : Nat) : Narrows build length := by
  intro m dest src s hlen hsrc hroom hapart
  subst hlen
  have hstart : Narrowed m dest s 0 m := by
    show Mem.poke m dest [] = some m
    rw [Mem.poke, if_pos (by simp; omega)]
    simp
  have htail {a : Nat} {m' : Bytes} (h : Narrowed m dest s a m') (ha : a ≤ s.length) :
      pointerLoop (narrow (dest + a) (src + 2 * a)) (s.length - a) 0 m' =
        Mem.poke m dest (toLatin1 s) := by
    obtain ⟨m₂, hm₂, h₂⟩ := pointerLoop_spec (P := fun j m' => Narrowed m dest s (a + j) m')
      (n := s.length - a) (fun j m' h' hj => h'.one hsrc hroom hapart (by omega) rfl)
      (s.length - a) 0 m' h (by omega)
    have hend : a + (0 + (s.length - a)) = s.length := by omega
    rw [hend, Narrowed, List.take_length] at h₂
    exact hm₂.trans h₂.symm
  by_cases hvectors : build.vectors = .fallback
  · rw [utf16ToLatin1, if_pos hvectors]
    exact htail hstart (Nat.zero_le _)
  · obtain ⟨m₁, hm₁, h₁⟩ := blocks_spec (P := Narrowed m dest s) (n := s.length)
      (fun i m' h' hi => Narrowed.chunk build.vectors h' hsrc hroom hapart hi) 0 m hstart
    rw [utf16ToLatin1, if_neg hvectors, hm₁]
    simp only [Option.bind_eq_bind, Option.bind_some]
    have hrest := htail h₁ (by omega)
    rw [show s.length - (0 + (s.length - 0) / 16 * 16) = s.length % 16 by omega] at hrest
    split
    · exact hrest
    · rw [unrollTailLoop_eq _ _ _ _ _ (by omega)]
      exact hrest

end Narrowing

/-! ## Strings there and back -/

theorem length_allocate (fresh : Nat → UInt8) (n : Nat) : (allocate fresh n).length = n := by
  rw [allocate, List.length_map, List.length_range]

theorem fromLatin1Helper_eq {build : Build} (hbuild : build.unrolled) (fresh : Nat → UInt8)
    {str : Bytes} (hstr : str.length < 2 ^ 31) :
    fromLatin1Helper build fresh str = some (latin1 str) := by
  unfold fromLatin1Helper
  split
  · next h => rw [List.length_eq_zero_iff.mp h, latin1_nil]
  · have hsize : (UInt64.ofNat str.length).toNat = str.length :=
      UInt64.toNat_ofNat_of_lt' (lt_trans hstr (by decide))
    have hfresh := length_allocate fresh (2 * (str.length + 1))
    have hwidened : (bytes (latin1 str)).length = 2 * str.length := by
      rw [length_bytes, latin1, List.length_map]
    have hsrc : Mem.peek (allocate fresh (2 * (str.length + 1)) ++ str) (2 * (str.length + 1))
        (UInt64.ofNat str.length).toNat = some str := by
      rw [hsize, ← List.append_nil (_ ++ str)]
      exact Mem.peek_of_split rfl hfresh.symm rfl
    have hrun := widens_of_unrolled hbuild _ _ 0 _ _ hsrc
      (by rw [hsize, List.length_append, hfresh]; omega) (by rw [hsize]; omega)
    obtain ⟨m, hm⟩ := Mem.poke_isSome (m := allocate fresh (2 * (str.length + 1)) ++ str) (p := 0)
      (A := bytes (latin1 str)) (by rw [List.length_append, hfresh, hwidened]; omega)
    have hback := Mem.peek_poke_self hm
    rw [hwidened] at hback
    simp only [hrun, hm, Option.bind_eq_bind, Option.bind_some, hback, Option.map_some,
      units_bytes]

theorem toLatin1Helper_eq (build : Build) (fresh : Nat → UInt8) (s : Str) :
    toLatin1Helper build fresh s = some (toLatin1 s) := by
  have hfresh := length_allocate fresh s.length
  have hnarrowed : (toLatin1 s).length = s.length := List.length_map _
  have hsrc : Mem.peek (allocate fresh s.length ++ bytes s) s.length (2 * s.length) =
      some (bytes s) := by
    rw [← List.append_nil (_ ++ bytes s)]
    exact Mem.peek_of_split rfl hfresh.symm (length_bytes s).symm
  obtain ⟨m, hm⟩ := Mem.poke_isSome (m := allocate fresh s.length ++ bytes s) (p := 0)
    (A := toLatin1 s) (by rw [List.length_append, hfresh, hnarrowed]; omega)
  have hback := Mem.peek_poke_self hm
  rw [hnarrowed] at hback
  rw [toLatin1Helper, narrows build _ _ 0 _ s rfl hsrc
    (by rw [List.length_append, hfresh]; omega) (by omega), hm]
  exact hback

theorem toLatin1HelperInplace_eq (build : Build) (s : Str) :
    toLatin1HelperInplace build s = some (toLatin1 s) := by
  have hnarrowed : (toLatin1 s).length = s.length := List.length_map _
  have hsrc : Mem.peek (bytes s ++ [0, 0]) 0 (2 * s.length) = some (bytes s) :=
    Mem.peek_of_split (A := []) rfl rfl (length_bytes s).symm
  obtain ⟨m, hm⟩ := Mem.poke_isSome (m := bytes s ++ [0, 0]) (p := 0) (A := toLatin1 s)
    (by rw [List.length_append, length_bytes, hnarrowed]; omega)
  obtain ⟨m₁, hm₁⟩ := Mem.poke_isSome (m := m) (p := s.length) (A := [0])
    (by rw [Mem.length_poke hm, List.length_append, length_bytes]; simp; omega)
  have hback := Mem.peek_poke_self hm
  rw [hnarrowed] at hback
  rw [toLatin1HelperInplace, narrows build _ _ 0 0 s rfl hsrc
    (by rw [List.length_append, length_bytes]; omega) (Or.inl le_rfl), hm]
  simp only [Option.bind_eq_bind, Option.bind_some, hm₁]
  rw [Mem.peek_poke hm₁ (by omega), hback]

/-- Narrowing is exact in every build, widening where its tail is unrolled; there a byte string
comes back from a string. -/
theorem latin1_exact (build : Build) :
    (∀ size, Widens build size ↔ build.unrolled) ∧ (∀ length, Narrows build length) ∧
      (build.unrolled → ∀ fresh fresh' str, str.length < 2 ^ 31 →
        ∃ s, fromLatin1Helper build fresh str = some s ∧
          toLatin1Helper build fresh' s = some str ∧ toLatin1HelperInplace build s = some str) := by
  refine ⟨fun size => ⟨fun h => ?_, fun h => widens_of_unrolled h size⟩, narrows build, ?_⟩
  · by_contra hbuild
    exact not_widens (Bool.eq_false_iff.mpr hbuild) size h
  · intro hbuild fresh fresh' str hstr
    exact ⟨latin1 str, fromLatin1Helper_eq hbuild fresh hstr,
      by rw [toLatin1Helper_eq, toLatin1_latin1], by rw [toLatin1HelperInplace_eq, toLatin1_latin1]⟩

/-- Without vector instructions one byte is not widened, and behind no bytes something is. -/
theorem latin1_wrong :
    utf16FromLatin1 ⟨.fallback, false⟩ 0 2 1 [7, 7, 65] = some [7, 7, 65] ∧
      utf16FromLatin1 ⟨.fallback, false⟩ 0 2 0 [7, 7] = none ∧
      ¬ Widens ⟨.fallback, false⟩ 1 ∧ ¬ Widens ⟨.fallback, false⟩ 0 :=
  ⟨by decide, by rfl, not_widens rfl 1, not_widens rfl 0⟩

end Libpdk.Lang.Latin1
