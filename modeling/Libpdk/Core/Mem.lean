import Libpdk.Core.Text

/-!
# Byte memory

A block of memory is its list of bytes. `peek` and `poke` fail outside of the
block; every access of a model goes through one of the two, so a run that
returns something has touched nothing else. Fixed-width integers are
little-endian (`le`).
-/
namespace Libpdk

namespace Mem

/-- The natural with the given little-endian bytes. -/
def ofLe : Bytes → Nat
  | [] => 0
  | b :: bs => b.toNat + 256 * ofLe bs

/-- The `n` little-endian bytes of `v`. -/
def toLe : Nat → Nat → Bytes
  | 0, _ => []
  | n + 1, v => UInt8.ofNat v :: toLe n (v / 256)

/-- `n` bytes at `i`. -/
def peek (m : Bytes) (i n : Nat) : Option Bytes :=
  if i + n ≤ m.length then some ((m.drop i).take n) else none

/-- `memcpy(m + i, bs)`. -/
def poke (m : Bytes) (i : Nat) (bs : Bytes) : Option Bytes :=
  if i + bs.length ≤ m.length then some (m.take i ++ bs ++ m.drop (i + bs.length)) else none

/-- The little-endian integer of `n` bytes at `i`. -/
def le (n : Nat) (m : Bytes) (i : Nat) : Option Nat := (peek m i n).map ofLe

/-! ## Integers -/

@[simp] theorem length_toLe (n v : Nat) : (toLe n v).length = n := by
  induction n generalizing v with
  | zero => rfl
  | succ n ih => simp [toLe, ih]

theorem ofLe_lt (bs : Bytes) : ofLe bs < 256 ^ bs.length := by
  induction bs with
  | nil => simp [ofLe]
  | cons b bs ih =>
    have hb := b.toNat_lt
    rw [ofLe, List.length_cons, Nat.pow_succ]
    omega

theorem ofLe_toLe {n v : Nat} (h : v < 256 ^ n) : ofLe (toLe n v) = v := by
  induction n generalizing v with
  | zero =>
    rw [Nat.pow_zero] at h
    rw [toLe, ofLe]
    omega
  | succ n ih =>
    rw [toLe, ofLe, ih (by rw [Nat.pow_succ] at h; omega), UInt8.toNat_ofNat']
    omega

theorem toLe_ofLe : ∀ {n : Nat} {bs : Bytes}, bs.length = n → toLe n (ofLe bs) = bs
  | 0, [], _ => rfl
  | n + 1, b :: bs, h => by
    have hb := b.toNat_lt
    have hdiv : (b.toNat + 256 * ofLe bs) / 256 = ofLe bs := by omega
    rw [ofLe, toLe, hdiv, toLe_ofLe (by simpa using h)]
    congr 1
    apply UInt8.toNat_inj.mp
    rw [UInt8.toNat_ofNat']
    omega

/-! ## Reading -/

theorem peek_eq_some {m : Bytes} {i n : Nat} {bs : Bytes} (h : peek m i n = some bs) :
    bs.length = n ∧ i + n ≤ m.length := by
  unfold peek at h
  split at h
  · next hle =>
    cases h
    rw [List.length_take, List.length_drop]
    omega
  · cases h

theorem peek_isSome {m : Bytes} {i n : Nat} (h : i + n ≤ m.length) : ∃ bs, peek m i n = some bs :=
  ⟨_, if_pos h⟩

theorem le_bound {n : Nat} {m : Bytes} {i v : Nat} (h : le n m i = some v) :
    i + n ≤ m.length := by
  unfold le at h
  rw [Option.map_eq_some_iff] at h
  obtain ⟨bs, hbs, -⟩ := h
  exact (peek_eq_some hbs).2

theorem le_isSome (n : Nat) {m : Bytes} {i : Nat} (h : i + n ≤ m.length) :
    ∃ v, le n m i = some v := by
  obtain ⟨bs, hbs⟩ := peek_isSome h
  exact ⟨ofLe bs, by rw [le, hbs]; rfl⟩

/-- Inside a block, what lies behind it does not matter. -/
theorem peek_append {m : Bytes} (junk : Bytes) {i n : Nat} (h : i + n ≤ m.length) :
    peek (m ++ junk) i n = peek m i n := by
  unfold peek
  rw [if_pos h, if_pos (by rw [List.length_append]; omega), List.drop_append_of_le_length (by omega),
    List.take_append_of_le_length (by rw [List.length_drop]; omega)]

theorem peek_of_split {m A X B : Bytes} {i n : Nat} (h : m = A ++ X ++ B) (hi : i = A.length)
    (hn : n = X.length) : peek m i n = some X := by
  subst h hi hn
  unfold peek
  rw [if_pos (by simp only [List.length_append]; omega), List.append_assoc, List.drop_left,
    List.take_left]

theorem le_of_split {m A B : Bytes} {i n v : Nat} (h : m = A ++ toLe n v ++ B) (hi : i = A.length)
    (hv : v < 256 ^ n) : le n m i = some v := by
  unfold le
  rw [peek_of_split h hi (length_toLe n v).symm, Option.map_some, ofLe_toLe hv]

theorem le_head {n v : Nat} (rest : Bytes) (hv : v < 256 ^ n) : le n (toLe n v ++ rest) 0 = some v :=
  le_of_split (A := []) rfl rfl hv

theorem poke_of_split {m A X B W : Bytes} {i : Nat} (h : m = A ++ X ++ B) (hi : i = A.length)
    (hn : W.length = X.length) : poke m i W = some (A ++ W ++ B) := by
  subst h hi
  unfold poke
  have hdrop : (A ++ X ++ B).drop (A.length + W.length) = B := by
    rw [hn, ← List.length_append, List.drop_left]
  rw [if_pos (by simp only [List.length_append]; omega), List.append_assoc A X B, List.take_left,
    ← List.append_assoc A X B, hdrop]

/-- What is read from a part of a block is read from the block. -/
theorem peek_embed {m A X B W : Bytes} {k n : Nat} (h : m = A ++ X ++ B)
    (hp : peek X k n = some W) : peek m (A.length + k) n = some W := by
  obtain ⟨hlen, hle⟩ := peek_eq_some hp
  have hbs : (X.drop k).take n = W := by
    unfold peek at hp
    rw [if_pos hle] at hp
    exact Option.some.inj hp
  have hsplit : m = (A ++ X.take k) ++ W ++ (X.drop (k + n) ++ B) := by
    rw [h, ← hbs, ← List.drop_drop]
    simp only [List.append_assoc, List.append_cancel_left_eq]
    rw [← List.append_assoc (List.take n _), List.take_append_drop, ← List.append_assoc,
      List.take_append_drop]
  exact peek_of_split hsplit (by rw [List.length_append, List.length_take]; omega) hlen.symm

theorem le_embed {m A X B : Bytes} {k n v : Nat} (h : m = A ++ X ++ B) (hp : le n X k = some v) :
    le n m (A.length + k) = some v := by
  unfold le at hp ⊢
  rw [Option.map_eq_some_iff] at hp
  obtain ⟨W, hbs, rfl⟩ := hp
  rw [peek_embed h hbs, Option.map_some]

/-- A write behind a prefix. -/
theorem poke_append {A B W : Bytes} {i k : Nat} (hi : i = A.length + k)
    (h : k + W.length ≤ B.length) :
    poke (A ++ B) i W = some (A ++ (B.take k ++ W ++ B.drop (k + W.length))) := by
  subst hi
  have hsplit : A ++ B = (A ++ B.take k) ++ (B.drop k).take W.length ++ B.drop (k + W.length) := by
    rw [List.append_assoc, List.append_assoc, ← List.drop_drop, List.take_append_drop,
      List.take_append_drop]
  rw [poke_of_split hsplit
    (by rw [List.length_append, List.length_take]; omega)
    (by rw [List.length_take, List.length_drop]; omega)]
  simp only [List.append_assoc]

/-! ## Writes -/

section Writes

variable {m m' A B W : Bytes} {p i n : Nat}

theorem length_poke (h : poke m p A = some m') : m'.length = m.length := by
  unfold poke at h
  split at h
  · cases h
    simp only [List.length_append, List.length_take, List.length_drop]
    omega
  · cases h

/-- What is read beside a write is as it was. -/
theorem peek_poke (h : poke m p A = some m') (hd : i + n ≤ p ∨ p + A.length ≤ i) :
    peek m' i n = peek m i n := by
  have hlen := length_poke h
  unfold poke at h
  split at h
  · next hle =>
    cases h
    unfold peek
    rw [hlen]
    split
    · refine congrArg some (List.ext_getElem? fun k => ?_)
      rw [List.getElem?_take, List.getElem?_take]
      split
      · rw [List.getElem?_drop, List.getElem?_drop, List.append_assoc, List.getElem?_append,
          List.getElem?_append, List.length_take, List.getElem?_take, List.getElem?_drop]
        have hmin : min p m.length = p := by omega
        rw [hmin]
        split
        · rfl
        · rw [if_neg (by omega)]
          congr 1
          omega
      · rfl
    · rfl
  · cases h

/-- A write behind a write is one write. -/
theorem poke_poke (h : poke m p A = some m') : poke m' (p + A.length) B = poke m p (A ++ B) := by
  have hlen := length_poke h
  unfold poke at h
  split at h
  · next hle =>
    cases h
    unfold poke
    rw [hlen, List.length_append, Nat.add_assoc]
    split
    · have hpre : (m.take p ++ A).length = p + A.length := by
        rw [List.length_append, List.length_take]
        omega
      rw [List.append_assoc (m.take p) A B |>.symm, ← hpre, List.take_left, hpre,
        ← Nat.add_assoc, ← List.drop_drop, ← hpre, List.drop_left, hpre, List.drop_drop]
    · rfl
  · cases h

/-- A part of what is read. -/
theorem peek_part {j k : Nat} (h : peek m i n = some W) (hk : j + k ≤ n) :
    peek m (i + j) k = some ((W.drop j).take k) := by
  unfold peek at h ⊢
  split at h
  · cases h
    rw [if_pos (by omega), List.drop_take, List.take_take, List.drop_drop, Nat.min_eq_left (by omega)]
  · cases h

/-- What is written is read back. -/
theorem peek_poke_self (h : poke m p A = some m') : peek m' p A.length = some A := by
  unfold poke at h
  split at h
  · next hle =>
    cases h
    exact peek_of_split rfl (by rw [List.length_take]; omega) rfl
  · cases h

theorem poke_isSome (h : p + A.length ≤ m.length) : ∃ m', poke m p A = some m' := ⟨_, if_pos h⟩

end Writes

end Mem

/-!
## Big-endian memory

`Lies m i X`: the bytes `X` are in the block at `i`. Where a concatenation lies, its parts lie one
after the other, and a number that lies somewhere is read from there (`be_of_lies`).
-/
namespace Mem

def toBe (n v : Nat) : Bytes := (toLe n v).reverse

/-- The big-endian integer of `n` bytes at `i`. -/
def be (n : Nat) (m : Bytes) (i : Nat) : Option Nat := (peek m i n).map fun bs => ofLe bs.reverse

@[simp] theorem length_toBe (n v : Nat) : (toBe n v).length = n := by
  rw [toBe, List.length_reverse, length_toLe]

def Lies (m : Bytes) (i : Nat) (X : Bytes) : Prop := ∃ A B, m = A ++ X ++ B ∧ A.length = i

variable {m X Y : Bytes} {i n v : Nat}

theorem Lies.left (h : Lies m i (X ++ Y)) : Lies m i X := by
  obtain ⟨A, B, rfl, hi⟩ := h
  exact ⟨A, Y ++ B, by simp only [List.append_assoc], hi⟩

theorem Lies.right (h : Lies m i (X ++ Y)) : Lies m (i + X.length) Y := by
  obtain ⟨A, B, rfl, hi⟩ := h
  exact ⟨A ++ X, B, by simp only [List.append_assoc], by rw [List.length_append, hi]⟩

theorem Lies.bound (h : Lies m i X) : i + X.length ≤ m.length := by
  obtain ⟨A, B, rfl, hi⟩ := h
  simp only [List.length_append]
  omega

theorem be_of_lies (h : Lies m i (toBe n v)) (hv : v < 256 ^ n) : be n m i = some v := by
  obtain ⟨A, B, hm, hi⟩ := h
  rw [be, peek_of_split hm hi.symm (length_toBe n v).symm, Option.map_some, toBe,
    List.reverse_reverse, ofLe_toLe hv]

end Mem

end Libpdk
