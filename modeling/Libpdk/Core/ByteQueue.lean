import Libpdk.Core.Text

/-!
# Queues of bytes

What a buffered reader needs of its buffer: bytes go in at the back, in a space
that is reserved first and of which what was not filled is given back; they are
looked at and taken from the front. An implementation may keep its bytes in blocks;
the first block can be taken as a whole, and how large it is is the implementation's
choice. The laws are about `content`, the bytes in the queue.
-/
namespace Libpdk

/-- A block is a byte array: its size and that of its header fit an `int`. -/
def maxByteArraySize : Nat := 2147483647 - 24

class ByteQueue (B : Type) where
  content : B → Bytes
  /-- An empty queue that keeps its bytes in blocks of about this size. -/
  new : Nat → B
  size : B → Nat
  clear : B → B
  free : B → Nat → B
  read : B → Nat → Bytes × B
  peek : B → Nat → Nat → Bytes
  indexOf : B → UInt8 → Nat → Nat → Option Nat
  nextDataBlockSize : B → Nat
  readBlock : B → Bytes × B
  /-- Space for `n` bytes is reserved, the given bytes are put there, the rest is chopped. -/
  fill : B → Nat → Bytes → B
  content_new : ∀ n, content (new n) = []
  size_eq : ∀ b, size b = (content b).length
  content_clear : ∀ b, content (clear b) = []
  content_free : ∀ b n, n ≤ (content b).length → content (free b n) = (content b).drop n
  read_fst : ∀ b n, (read b n).1 = (content b).take n
  content_read : ∀ b n, content (read b n).2 = (content b).drop n
  peek_eq : ∀ b n pos, peek b n pos = ((content b).drop pos).take n
  indexOf_eq : ∀ b c n pos,
    indexOf b c n pos = ((((content b).drop pos).take n).idxOf? c).map (· + pos)
  nextDataBlockSize_le : ∀ b, nextDataBlockSize b ≤ (content b).length
  nextDataBlockSize_lt : ∀ b, nextDataBlockSize b < maxByteArraySize
  readBlock_fst : ∀ b, (readBlock b).1 = (content b).take (nextDataBlockSize b)
  content_readBlock : ∀ b, content (readBlock b).2 = (content b).drop (nextDataBlockSize b)
  content_fill : ∀ b n bytes, 0 < n → n < maxByteArraySize → bytes.length ≤ n →
    content (fill b n bytes) = content b ++ bytes

namespace ByteQueue

variable {B : Type} [ByteQueue B]

attribute [simp] content_new size_eq content_clear read_fst content_read peek_eq readBlock_fst content_readBlock

def isEmpty (b : B) : Bool := size b == 0

@[simp] theorem isEmpty_eq_true (b : B) : isEmpty b = true ↔ content b = [] := by
  simp [isEmpty]

def skip (b : B) (n : Nat) : Nat × B := (min n (size b), free b (min n (size b)))

@[simp] theorem skip_fst (b : B) (n : Nat) : (skip b n).1 = min n (content b).length := by
  rw [skip, size_eq]

@[simp] theorem content_skip (b : B) (n : Nat) : content (skip b n).2 = (content b).drop n := by
  rw [skip, content_free b _ (by rw [size_eq]; omega), size_eq]
  rcases Nat.le_total n (content b).length with h | h
  · rw [Nat.min_eq_left h]
  · rw [Nat.min_eq_right h, List.drop_length, List.drop_of_length_le h]

/-- The bytes as far as the first one equal to `c`, that one included, at most `n`. -/
def upTo (c : UInt8) (n : Nat) (bytes : Bytes) : Bytes :=
  match (bytes.take n).idxOf? c with
  | some i => bytes.take (i + 1)
  | none => bytes.take n

@[simp] theorem upTo_zero (c : UInt8) (l : Bytes) : upTo c 0 l = [] := rfl

@[simp] theorem upTo_nil (c : UInt8) (n : Nat) : upTo c n [] = [] := by
  simp [upTo]

theorem upTo_cons (c x : UInt8) (n : Nat) (l : Bytes) :
    upTo c (n + 1) (x :: l) = x :: if x = c then [] else upTo c n l := by
  rw [upTo, List.take_succ_cons, List.idxOf?_cons]
  by_cases hx : x = c
  · simp [hx]
  · simp only [beq_iff_eq, hx, if_false, upTo]
    cases (l.take n).idxOf? c <;> rfl

theorem upTo_length_le (c : UInt8) : ∀ (n : Nat) (l : Bytes), (upTo c n l).length ≤ n
  | 0, _ => Nat.zero_le _
  | n + 1, [] => by simp
  | n + 1, x :: l => by
    rw [upTo_cons]
    split
    · simp
    · have := upTo_length_le c n l
      simp only [List.length_cons]
      omega

theorem upTo_isPrefix (c : UInt8) : ∀ (n : Nat) (l : Bytes), upTo c n l <+: l
  | 0, _ => List.nil_prefix
  | n + 1, [] => by simp
  | n + 1, x :: l => by
    rw [upTo_cons, List.cons_prefix_cons]
    refine ⟨rfl, ?_⟩
    split
    · exact List.nil_prefix
    · exact upTo_isPrefix c n l

theorem upTo_eq_nil {c : UInt8} {n : Nat} {l : Bytes} : upTo c n l = [] ↔ n = 0 ∨ l = [] := by
  cases n with
  | zero => simp
  | succ n =>
    cases l with
    | nil => simp
    | cons x l => simp [upTo_cons]

/-- Bytes behind the first `n` do not matter. -/
theorem upTo_append {c : UInt8} : ∀ {n : Nat} {l : Bytes}, n ≤ l.length → ∀ t : Bytes,
    upTo c n (l ++ t) = upTo c n l
  | 0, _, _, _ => rfl
  | n + 1, x :: l, h, t => by
    rw [List.cons_append, upTo_cons, upTo_cons, upTo_append (by simpa using h) t]

theorem upTo_of_length_le {c : UInt8} : ∀ {n : Nat} {l : Bytes}, l.length ≤ n →
    upTo c n l = upTo c l.length l
  | _, [], _ => by simp
  | n + 1, x :: l, h => by
    rw [List.length_cons, upTo_cons, upTo_cons, upTo_of_length_le (by simpa using h)]

theorem getLast?_cons_ne {c x : UInt8} {l : Bytes} (hx : x ≠ c) :
    (x :: l).getLast? = some c ↔ l.getLast? = some c := by
  cases l with
  | nil => simp [hx]
  | cons y l => simp

/-- A line is read in two parts: up to some length, and unless that part ends the line
what follows. -/
theorem upTo_split {c : UInt8} : ∀ {a n : Nat}, a ≤ n → ∀ l : Bytes,
    upTo c n l = upTo c a l ++
      if (upTo c a l).getLast? = some c then [] else upTo c (n - a) (l.drop a)
  | 0, n, _, l => by simp
  | a + 1, n + 1, h, [] => by simp
  | a + 1, n + 1, h, x :: l => by
    rw [upTo_cons, upTo_cons]
    by_cases hx : x = c
    · simp [hx]
    · simp only [hx, if_false, getLast?_cons_ne hx, List.cons_append, List.drop_succ_cons,
        Nat.add_sub_add_right]
      rw [← upTo_split (by omega) l]

/-- Where a line is not ended it was cut at its length or at the end of the bytes. -/
theorem upTo_length {c : UInt8} : ∀ {n : Nat} {l : Bytes}, (upTo c n l).getLast? ≠ some c →
    (upTo c n l).length = min n l.length
  | 0, _, _ => by simp
  | n + 1, [], _ => by simp
  | n + 1, x :: l, h => by
    rw [upTo_cons] at h ⊢
    by_cases hx : x = c
    · simp [hx] at h
    · simp only [hx, if_false] at h ⊢
      rw [Ne, getLast?_cons_ne hx] at h
      rw [List.length_cons, upTo_length h, List.length_cons]
      omega

/-- A line of which the first bytes are in `a`. -/
theorem upTo_of_isPrefix {c : UInt8} {n : Nat} {a l : Bytes} (h : a <+: l) :
    upTo c n l = upTo c n a ++ if (upTo c n a).getLast? = some c then []
      else upTo c (n - (upTo c n a).length) (l.drop (upTo c n a).length) := by
  obtain ⟨t, rfl⟩ := h
  generalize hk : min n a.length = k
  have ha : upTo c n a = upTo c k a := by
    rcases Nat.le_total n a.length with hn | hn
    · rw [← hk, Nat.min_eq_left hn]
    · rw [← hk, Nat.min_eq_right hn, upTo_of_length_le hn]
  rw [upTo_split (show k ≤ n by omega), upTo_append (show k ≤ a.length by omega), ← ha]
  split
  · rfl
  · rename_i hlast
    rw [upTo_length hlast, hk]

/-- A line is taken: up to and with the first `c`, at most `n` bytes. -/
def readLine (b : B) (c : UInt8) (n : Nat) : Bytes × B :=
  read b (match indexOf b c n 0 with
    | some i => i + 1
    | none => n)

theorem readLine_fst (b : B) (c : UInt8) (n : Nat) :
    (readLine b c n).1 = upTo c n (content b) := by
  rw [readLine, read_fst, indexOf_eq, upTo, List.drop_zero]
  cases ((content b).take n).idxOf? c <;> rfl

theorem content_readLine (b : B) (c : UInt8) (n : Nat) :
    content (readLine b c n).2 = (content b).drop (readLine b c n).1.length := by
  rw [readLine, content_read, read_fst]
  generalize (match indexOf b c n 0 with
    | some i => i + 1
    | none => n) = k
  rw [List.length_take]
  rcases Nat.le_total k (content b).length with h | h
  · rw [Nat.min_eq_left h]
  · rw [Nat.min_eq_right h, List.drop_length, List.drop_of_length_le h]

end ByteQueue

/-!
## Queues of bytes that are pushed back

A `ByteQueue` of which a byte that was taken can be put back in front. The queue need not be able
to take more bytes at the back afterwards: it is `Appendable` where it is, and it always is when
no bytes are left in it.
-/

class PushQueue (B : Type) where
  content : B → Bytes
  /-- An empty queue that keeps its bytes in blocks of about this size. -/
  new : Nat → B
  size : B → Nat
  clear : B → B
  free : B → Nat → B
  read : B → Nat → Bytes × B
  peek : B → Nat → Nat → Bytes
  indexOf : B → UInt8 → Nat → Nat → Option Nat
  /-- Space for `n` bytes is reserved, the given bytes are put there, the rest is chopped. -/
  fill : B → Nat → Bytes → B
  unget : B → UInt8 → B
  Appendable : B → Prop
  content_new : ∀ n, content (new n) = []
  size_eq : ∀ b, size b = (content b).length
  content_clear : ∀ b, content (clear b) = []
  content_free : ∀ b n, n ≤ (content b).length → content (free b n) = (content b).drop n
  free_zero : ∀ b, free b 0 = b
  read_fst : ∀ b n, (read b n).1 = (content b).take n
  content_read : ∀ b n, content (read b n).2 = (content b).drop n
  peek_eq : ∀ b n pos, peek b n pos = ((content b).drop pos).take n
  indexOf_eq : ∀ b c n pos,
    indexOf b c n pos = ((((content b).drop pos).take n).idxOf? c).map (· + pos)
  content_unget : ∀ b c, content (unget b c) = c :: content b
  appendable_nil : ∀ b, content b = [] → Appendable b
  appendable_fill : ∀ b n bytes, Appendable b → 0 < n → n < maxByteArraySize →
    bytes.length ≤ n → Appendable (fill b n bytes)
  content_fill : ∀ b n bytes, Appendable b → 0 < n → n < maxByteArraySize →
    bytes.length ≤ n → content (fill b n bytes) = content b ++ bytes

namespace PushQueue

variable {B : Type} [PushQueue B]

attribute [simp] content_new size_eq content_clear free_zero read_fst content_read peek_eq content_unget

def isEmpty (b : B) : Bool := size b == 0

@[simp] theorem isEmpty_eq_true (b : B) : isEmpty b = true ↔ content b = [] := by
  simp [isEmpty]

def skip (b : B) (n : Nat) : Nat × B := (min n (size b), free b (min n (size b)))

theorem content_skip (b : B) (n : Nat) : content (skip b n).2 = (content b).drop n := by
  rw [skip, content_free b _ (by rw [size_eq]; omega), size_eq]
  rcases Nat.le_total n (content b).length with h | h
  · rw [Nat.min_eq_left h]
  · rw [Nat.min_eq_right h, List.drop_length, List.drop_of_length_le h]

/-- A line is taken: up to and with the first `c`, at most `n` bytes. -/
def readLine (b : B) (c : UInt8) (n : Nat) : Bytes × B :=
  read b (match indexOf b c n 0 with
    | some i => i + 1
    | none => n)

theorem readLine_fst (b : B) (c : UInt8) (n : Nat) :
    (readLine b c n).1 = ByteQueue.upTo c n (content b) := by
  rw [readLine, read_fst, indexOf_eq, ByteQueue.upTo, List.drop_zero]
  cases ((content b).take n).idxOf? c <;> rfl

theorem content_readLine (b : B) (c : UInt8) (n : Nat) :
    content (readLine b c n).2 = (content b).drop (readLine b c n).1.length := by
  unfold readLine
  generalize (match indexOf b c n 0 with
    | some i => i + 1
    | none => n) = k
  rw [content_read, read_fst, List.length_take]
  rcases Nat.le_total k (content b).length with h | h
  · rw [Nat.min_eq_left h]
  · rw [Nat.min_eq_right h, List.drop_length, List.drop_of_length_le h]

end PushQueue

end Libpdk
