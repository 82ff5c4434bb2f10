import Libpdk.Json.Layout

/-!
# The layout of a base

A base in use is its header, a body that holds the data, the table, and a rest
that is the garbage behind the table and the free space of the block
(`BaseAt`). What is read and written through a base is said in terms of these
parts.
-/
namespace Libpdk.Json

section

open Libpdk.Mem

/-! ## Parts -/

def headBytes (obj : Bool) (size len t : Nat) : Bytes :=
  toLe 4 size ++ toLe 4 (2 * len + obj.toNat) ++ toLe 4 t

def tableBytes (words : List Nat) : Bytes := words.flatMap (toLe 4)

@[simp] theorem length_headBytes (obj : Bool) (size len t : Nat) :
    (headBytes obj size len t).length = 12 := by simp [headBytes]

@[simp] theorem length_tableBytes (words : List Nat) :
    (tableBytes words).length = 4 * words.length := by
  induction words with
  | nil => rfl
  | cons w words ih =>
    rw [tableBytes, List.flatMap_cons, List.length_append, length_toLe, ← tableBytes, ih,
      List.length_cons]
    omega

@[simp] theorem tableBytes_append (ws ws' : List Nat) :
    tableBytes (ws ++ ws') = tableBytes ws ++ tableBytes ws' := List.flatMap_append

theorem tableBytes_cons (w : Nat) (ws : List Nat) :
    tableBytes (w :: ws) = toLe 4 w ++ tableBytes ws := rfl

@[simp] theorem tableBytes_nil : tableBytes [] = [] := rfl

/-! ## The header -/

section Head

variable (pre tail : Bytes) (obj : Bool) (size len t : Nat)

theorem baseSize_head (h : size < 2 ^ 32) :
    baseSize (pre ++ headBytes obj size len t ++ tail) pre.length = some size := by
  refine le_of_split (A := pre) (B := toLe 4 (2 * len + obj.toNat) ++ toLe 4 t ++ tail) ?_ rfl h
  simp only [headBytes, List.append_assoc]

theorem dummy_head (h : len < 2 ^ 31) :
    le 4 (pre ++ headBytes obj size len t ++ tail) (pre.length + 4) =
      some (2 * len + obj.toNat) := by
  have hobj := Bool.toNat_le obj
  refine le_of_split (A := pre ++ toLe 4 size) (B := toLe 4 t ++ tail) ?_ (by simp) (by omega)
  simp only [headBytes, List.append_assoc]

theorem baseLength_head (h : len < 2 ^ 31) :
    baseLength (pre ++ headBytes obj size len t ++ tail) pre.length = some len := by
  have hobj := Bool.toNat_le obj
  unfold baseLength
  rw [dummy_head pre tail obj size len t h, Option.map_some]
  congr 1
  omega

theorem isObject_head (h : len < 2 ^ 31) :
    isObject (pre ++ headBytes obj size len t ++ tail) pre.length = some obj := by
  unfold isObject
  rw [dummy_head pre tail obj size len t h, Option.map_some]
  cases obj <;> simp

theorem tableOffset_head (h : t < 2 ^ 32) :
    tableOffset (pre ++ headBytes obj size len t ++ tail) pre.length = some t := by
  refine le_of_split (A := pre ++ toLe 4 size ++ toLe 4 (2 * len + obj.toNat)) (B := tail) ?_
    (by simp) h
  simp only [headBytes, List.append_assoc]

theorem setSize_head (v : Nat) :
    setSize (pre ++ headBytes obj size len t ++ tail) pre.length v =
      some (pre ++ headBytes obj v len t ++ tail) := by
  have h := poke_of_split (A := pre) (X := toLe 4 size) (W := toLe 4 v)
    (B := toLe 4 (2 * len + obj.toNat) ++ toLe 4 t ++ tail) rfl rfl (by simp)
  unfold setSize
  simpa only [headBytes, List.append_assoc] using h

theorem setLength_head (v : Nat) (h : len < 2 ^ 31) :
    setLength (pre ++ headBytes obj size len t ++ tail) pre.length v =
      some (pre ++ headBytes obj size v t ++ tail) := by
  have hbit : (2 * len + obj.toNat) % 2 = obj.toNat := by
    have hobj := Bool.toNat_le obj
    omega
  have hp := poke_of_split (A := pre ++ toLe 4 size) (X := toLe 4 (2 * len + obj.toNat))
    (W := toLe 4 (2 * v + obj.toNat)) (B := toLe 4 t ++ tail) rfl rfl (by simp)
  rw [List.length_append, length_toLe] at hp
  unfold setLength
  rw [dummy_head pre tail obj size len t h, Option.bind_eq_bind, Option.bind_some, hbit]
  simpa only [headBytes, List.append_assoc] using hp

theorem setTableOffset_head (v : Nat) :
    setTableOffset (pre ++ headBytes obj size len t ++ tail) pre.length v =
      some (pre ++ headBytes obj size len v ++ tail) := by
  have h := poke_of_split (A := pre ++ toLe 4 size ++ toLe 4 (2 * len + obj.toNat))
    (X := toLe 4 t) (W := toLe 4 v) (B := tail) rfl rfl (by simp)
  rw [List.length_append, List.length_append, length_toLe, length_toLe] at h
  unfold setTableOffset
  simpa only [headBytes, List.append_assoc] using h

/-- Writing a table word, which may be a hole so far. -/
theorem setTableAt_head {body X B : Bytes} (ws : List Nat) (v : Nat) (ht : t = 12 + body.length)
    (hlt : t < 2 ^ 32) (hX : X.length = 4) :
    setTableAt (pre ++ headBytes obj size len t ++ (body ++ tableBytes ws ++ X ++ B)) pre.length
      ws.length v =
      some (pre ++ headBytes obj size len t ++ (body ++ tableBytes ws ++ toLe 4 v ++ B)) := by
  unfold setTableAt
  rw [tableOffset_head _ _ _ _ _ _ hlt, Option.bind_eq_bind, Option.bind_some]
  have hp := poke_of_split (W := toLe 4 v) (X := X) (B := B)
    (A := pre ++ headBytes obj size len t ++ body ++ tableBytes ws)
    (m := pre ++ headBytes obj size len t ++ (body ++ tableBytes ws ++ X ++ B))
    (i := pre.length + t + 4 * ws.length) (by simp only [List.append_assoc])
    (by simp only [List.length_append, length_headBytes, length_tableBytes]; omega)
    (by rw [hX, length_toLe])
  rw [hp]
  simp only [List.append_assoc]

end Head

/-! ## A base in use -/

/-- The base behind `pre` in `m`. -/
structure BaseAt (m pre : Bytes) (obj : Bool) (size : Nat) (body : Bytes) (words : List Nat)
    (rest : Bytes) : Prop where
  eq : m = pre ++ headBytes obj size words.length (12 + body.length) ++
    (body ++ tableBytes words ++ rest)
  table : 12 + body.length + 4 * words.length ≤ size
  inside : size ≤ 12 + body.length + 4 * words.length + rest.length
  small : size < 2 ^ 27 + 3
  aligned : size % 4 = 0
  body_aligned : body.length % 4 = 0
  words_lt : ∀ w ∈ words, w < 2 ^ 32

namespace BaseAt

variable {m pre body rest : Bytes} {obj : Bool} {size : Nat} {words : List Nat}

theorem length_lt (h : BaseAt m pre obj size body words rest) :
    12 + body.length + 4 * words.length < 2 ^ 27 + 3 := by
  have := h.table
  have := h.small
  omega

/-! ### Reading -/

theorem baseSize (h : BaseAt m pre obj size body words rest) :
    baseSize m pre.length = some size := by
  have hs := h.small
  rw [h.eq]
  exact baseSize_head _ _ _ _ _ _ (by omega)

theorem baseLength (h : BaseAt m pre obj size body words rest) :
    baseLength m pre.length = some words.length := by
  have hlen := h.length_lt
  rw [h.eq]
  exact baseLength_head _ _ _ _ _ _ (by omega)

theorem isObject (h : BaseAt m pre obj size body words rest) :
    isObject m pre.length = some obj := by
  have hlen := h.length_lt
  rw [h.eq]
  exact isObject_head _ _ _ _ _ _ (by omega)

theorem tableOffset (h : BaseAt m pre obj size body words rest) :
    tableOffset m pre.length = some (12 + body.length) := by
  have hlen := h.length_lt
  rw [h.eq]
  exact tableOffset_head _ _ _ _ _ _ (by omega)

theorem tableAt {ws ws' : List Nat} {w : Nat}
    (h : BaseAt m pre obj size body (ws ++ w :: ws') rest) :
    tableAt m pre.length ws.length = some w := by
  unfold Json.tableAt
  rw [h.tableOffset]
  refine le_of_split (A := pre ++ headBytes obj size (ws ++ w :: ws').length (12 + body.length) ++
    body ++ tableBytes ws) (B := tableBytes ws' ++ rest) ?_ ?_ (h.words_lt w (by simp))
  · rw [h.eq, tableBytes_append, tableBytes_cons]
    simp only [List.append_assoc]
  · simp only [List.length_append, length_headBytes, length_tableBytes]
    omega

/-- Offsets count from the base, so 12 bytes before the body. -/
theorem peek_body (h : BaseAt m pre obj size body words rest) {o n : Nat} {bs : Bytes}
    (ho : 12 ≤ o) (hb : peek body (o - 12) n = some bs) : peek m (pre.length + o) n = some bs := by
  have hm : m = (pre ++ headBytes obj size words.length (12 + body.length)) ++ body ++
      (tableBytes words ++ rest) := by
    rw [h.eq]
    simp only [List.append_assoc]
  have := peek_embed hm hb
  rw [List.length_append, length_headBytes] at this
  rwa [show pre.length + 12 + (o - 12) = pre.length + o by omega] at this

theorem le_body (h : BaseAt m pre obj size body words rest) {o n v : Nat} (ho : 12 ≤ o)
    (hb : le n body (o - 12) = some v) : le n m (pre.length + o) = some v := by
  unfold le at hb ⊢
  rw [Option.map_eq_some_iff] at hb
  obtain ⟨bs, hbs, rfl⟩ := hb
  rw [h.peek_body ho hbs, Option.map_some]

/-! ### Writing -/

theorem poke_body {b₁ b₂ X W : Bytes} (h : BaseAt m pre obj size (b₁ ++ X ++ b₂) words rest)
    (hlen : W.length = X.length) :
    ∃ m', poke m (pre.length + (12 + b₁.length)) W = some m' ∧ m'.length = m.length ∧
      BaseAt m' pre obj size (b₁ ++ W ++ b₂) words rest := by
  have hb : (b₁ ++ W ++ b₂).length = (b₁ ++ X ++ b₂).length := by
    simp only [List.length_append]
    omega
  have hp := poke_of_split (m := m) (i := pre.length + (12 + b₁.length)) (X := X) (W := W)
    (A := pre ++ headBytes obj size words.length (12 + (b₁ ++ X ++ b₂).length) ++ b₁)
    (B := b₂ ++ tableBytes words ++ rest)
    (by rw [h.eq]; simp only [List.append_assoc])
    (by simp only [List.length_append, length_headBytes]; omega) hlen
  refine ⟨_, hp, ?_, ⟨?_, ?_, ?_, h.small, h.aligned, ?_, h.words_lt⟩⟩
  · rw [h.eq]
    simp only [List.length_append]
    omega
  · rw [hb]
    simp only [List.append_assoc]
  · rw [hb]
    exact h.table
  · rw [hb]
    exact h.inside
  · rw [hb]
    exact h.body_aligned

theorem setTableAt {ws ws' : List Nat} {w : Nat} (v : Nat) (hv : v < 2 ^ 32)
    (h : BaseAt m pre obj size body (ws ++ w :: ws') rest) :
    ∃ m', setTableAt m pre.length ws.length v = some m' ∧
      BaseAt m' pre obj size body (ws ++ v :: ws') rest := by
  have hlen : (ws ++ v :: ws').length = (ws ++ w :: ws').length := by simp
  refine ⟨pre ++ headBytes obj size (ws ++ w :: ws').length (12 + body.length) ++
    (body ++ tableBytes ws ++ toLe 4 v ++ (tableBytes ws' ++ rest)), ?_, ⟨?_, ?_, ?_, h.small,
    h.aligned, h.body_aligned, ?_⟩⟩
  · have hset := setTableAt_head pre obj size (ws ++ w :: ws').length (12 + body.length)
      (B := tableBytes ws' ++ rest) (X := toLe 4 w) ws v rfl
      (by have := h.length_lt; omega) (length_toLe 4 w)
    rw [← hset, h.eq, tableBytes_append, tableBytes_cons]
    simp only [List.append_assoc]
  · rw [hlen, tableBytes_append, tableBytes_cons]
    simp only [List.append_assoc]
  · rw [hlen]
    exact h.table
  · rw [hlen]
    exact h.inside
  · intro x hx
    rcases List.mem_append.mp hx with hx | hx
    · exact h.words_lt x (by simp [hx])
    · rcases List.mem_cons.mp hx with rfl | hx
      · exact hv
      · exact h.words_lt x (by simp [hx])

end BaseAt

end

/-!
## Making and closing room in a base

What `reserveSpace`, `removeItems` and `clone` do to a base, in terms of its
parts: the body only ever grows at its end, where the table has been, and what
leaves the table joins the rest.
-/

open Libpdk.Mem

/-! ## `reserveSpace` -/

/-- The table moves up by `dataSize`, and one word further from `posInTable` on. -/
theorem moveTable_insert {A tbl₁ tbl₂ rest : Bytes} {p off len dataSize pos : Nat}
    (hA : A.length = p + off) (h₁ : tbl₁.length = 4 * pos) (h₂ : tbl₂.length = 4 * (len - pos))
    (hr : dataSize + 4 ≤ rest.length) :
    ∃ gap hole rest', gap.length = dataSize ∧ hole.length = 4 ∧
      rest'.length + dataSize + 4 = rest.length ∧
      moveTable (A ++ (tbl₁ ++ tbl₂ ++ rest)) p off len dataSize pos 1 false =
        some (A ++ (gap ++ tbl₁ ++ hole ++ tbl₂ ++ rest')) := by
  -- the words behind the new one go first, so the words before it are still in place
  obtain ⟨Y, hY⟩ : ∃ Y, Y = (tbl₂ ++ rest).take (dataSize + 4) := ⟨_, rfl⟩
  obtain ⟨Z, hZ⟩ : ∃ Z, Z = (tbl₂ ++ rest).drop (dataSize + 4 + tbl₂.length) := ⟨_, rfl⟩
  have hYlen : Y.length = dataSize + 4 := by
    rw [hY, List.length_take, List.length_append]
    omega
  have hZlen : Z.length + dataSize + 4 = rest.length := by
    rw [hZ, List.length_drop, List.length_append]
    omega
  have hfirst : memmove (A ++ (tbl₁ ++ tbl₂ ++ rest)) (p + off + 4 * (pos + 1) + dataSize)
      (p + off + 4 * pos) (4 * (len - pos)) = some (A ++ (tbl₁ ++ Y ++ tbl₂ ++ Z)) := by
    unfold memmove
    rw [peek_of_split (A := A ++ tbl₁) (X := tbl₂) (B := rest)
      (by simp only [List.append_assoc]) (by rw [List.length_append]; omega) (by omega),
      Option.bind_eq_bind, Option.bind_some]
    have := poke_append (A := A ++ tbl₁) (B := tbl₂ ++ rest) (W := tbl₂)
      (i := p + off + 4 * (pos + 1) + dataSize) (k := dataSize + 4)
      (by rw [List.length_append]; omega) (by rw [List.length_append]; omega)
    rw [← hY, ← hZ] at this
    simpa only [List.append_assoc] using this
  refine ⟨(tbl₁ ++ Y).take dataSize, (tbl₁ ++ Y).drop (dataSize + tbl₁.length), Z, ?_, ?_, hZlen, ?_⟩
  · rw [List.length_take, List.length_append]
    omega
  · rw [List.length_drop, List.length_append]
    omega
  · unfold moveTable
    rw [if_neg (by simp), hfirst, Option.bind_eq_bind, Option.bind_some]
    unfold memmove
    rw [peek_of_split (A := A) (X := tbl₁) (B := Y ++ tbl₂ ++ Z)
      (by simp only [List.append_assoc]) hA.symm h₁.symm, Option.bind_eq_bind, Option.bind_some]
    have hsecond := poke_of_split (A := A ++ (tbl₁ ++ Y).take dataSize) (W := tbl₁)
      (X := ((tbl₁ ++ Y).drop dataSize).take tbl₁.length)
      (B := (tbl₁ ++ Y).drop (dataSize + tbl₁.length) ++ tbl₂ ++ Z)
      (m := A ++ (tbl₁ ++ Y ++ tbl₂ ++ Z)) (i := p + off + dataSize) ?_ ?_ ?_
    · rw [hsecond]
      simp only [List.append_assoc]
    · have hcut : tbl₁ ++ Y = (tbl₁ ++ Y).take dataSize ++
          (((tbl₁ ++ Y).drop dataSize).take tbl₁.length ++
            (tbl₁ ++ Y).drop (dataSize + tbl₁.length)) := by
        rw [← List.drop_drop, List.take_append_drop, List.take_append_drop]
      conv_lhs => rw [hcut]
      simp only [List.append_assoc]
    · rw [List.length_append, List.length_take, List.length_append]
      omega
    · rw [List.length_take, List.length_drop, List.length_append]
      omega

/-- The table moves up by `dataSize`. -/
theorem moveTable_replace {A tbl rest : Bytes} {p off len dataSize : Nat} (pos : Nat)
    (hA : A.length = p + off) (h : tbl.length = 4 * len) (hr : dataSize ≤ rest.length) :
    ∃ gap rest', gap.length = dataSize ∧ rest'.length + dataSize = rest.length ∧
      moveTable (A ++ (tbl ++ rest)) p off len dataSize pos 1 true =
        some (A ++ (gap ++ tbl ++ rest')) := by
  refine ⟨(tbl ++ rest).take dataSize, (tbl ++ rest).drop (dataSize + tbl.length), ?_, ?_, ?_⟩
  · rw [List.length_take, List.length_append]
    omega
  · rw [List.length_drop, List.length_append]
    omega
  · unfold moveTable
    rw [if_pos rfl]
    unfold memmove
    rw [peek_of_split (A := A) (X := tbl) (B := rest) (by simp only [List.append_assoc]) hA.symm
      h.symm, Option.bind_eq_bind, Option.bind_some]
    exact poke_append (by omega) (by rw [List.length_append]; omega)

namespace BaseAt

variable {m pre body rest : Bytes} {obj : Bool} {size dataSize w : Nat} {ws₁ ws₂ : List Nat}

/-- Reserving space for a new element: the body gets a gap of `dataSize` bytes at
its end, and the table a word for it. -/
theorem reserveSpace_insert (h : BaseAt m pre obj size body (ws₁ ++ ws₂) rest)
    (hds : dataSize % 4 = 0) (hmax : size + dataSize < maxSize)
    (hroom : pre.length + size + dataSize + 4 ≤ m.length) :
    ∃ gap m' rest', gap.length = dataSize ∧ m'.length = m.length ∧
      reserveSpace m pre.length dataSize ws₁.length 1 false = some (12 + body.length, m') ∧
      BaseAt m' pre obj (size + dataSize + 4) (body ++ gap)
        (ws₁ ++ (12 + body.length) :: ws₂) rest' := by
  have hM : maxSize = 0x7FFFFFF := rfl
  have hlen := h.length_lt
  have hs := h.small
  have hin := h.inside
  have htab := h.table
  have hmlen : m.length = pre.length + 12 + body.length + 4 * (ws₁ ++ ws₂).length + rest.length := by
    rw [h.eq]
    simp only [List.length_append, length_headBytes, length_tableBytes]
    omega
  rw [List.length_append] at hmlen htab hin
  have hA : (pre ++ headBytes obj size (ws₁ ++ ws₂).length (12 + body.length) ++ body).length =
      pre.length + (12 + body.length) := by
    simp only [List.length_append, length_headBytes]
    omega
  have h₂ : (tableBytes ws₂).length = 4 * ((ws₁ ++ ws₂).length - ws₁.length) := by
    rw [length_tableBytes, List.length_append]
    omega
  have hr : dataSize + 4 ≤ rest.length := by omega
  obtain ⟨gap, hole, rest', hgap, hhole, hrest, hmove⟩ :=
    moveTable_insert hA (length_tableBytes ws₁) h₂ hr
  -- the header, then the word, then the sizes
  obtain ⟨t, ht⟩ : ∃ t, t = 12 + body.length := ⟨_, rfl⟩
  obtain ⟨tail, htail⟩ : ∃ tail, tail = body ++ gap ++ tableBytes ws₁ ++ hole ++
    tableBytes ws₂ ++ rest' := ⟨_, rfl⟩
  have hmove' : moveTable m pre.length t (ws₁ ++ ws₂).length dataSize ws₁.length 1 false =
      some (pre ++ headBytes obj size (ws₁ ++ ws₂).length t ++ tail) := by
    rw [h.eq, tableBytes_append, ht, htail]
    simpa only [List.append_assoc] using hmove
  have hword : Json.setTableAt (pre ++ headBytes obj size (ws₁ ++ ws₂).length (t + dataSize) ++
      tail) pre.length ws₁.length t =
      some (pre ++ headBytes obj size (ws₁ ++ ws₂).length (t + dataSize) ++
        (body ++ gap ++ tableBytes (ws₁ ++ t :: ws₂) ++ rest')) := by
    have hset := setTableAt_head pre obj size (ws₁ ++ ws₂).length (t + dataSize)
      (B := tableBytes ws₂ ++ rest') (X := hole) ws₁ t
      (show t + dataSize = 12 + (body ++ gap).length by rw [List.length_append]; omega)
      (by omega) hhole
    rw [tableBytes_append, tableBytes_cons, htail]
    simpa only [List.append_assoc] using hset
  refine ⟨gap, pre ++ headBytes obj (size + dataSize + 4 * 1) ((ws₁ ++ ws₂).length + 1)
    (t + dataSize) ++ (body ++ gap ++ tableBytes (ws₁ ++ t :: ws₂) ++ rest'), rest', hgap, ?_, ?_, ?_⟩
  · rw [hmlen]
    simp only [List.length_append, length_headBytes, length_tableBytes, List.length_cons]
    omega
  · unfold reserveSpace growBase
    rw [h.baseSize, Option.bind_eq_bind, Option.bind_some, if_neg (by omega), h.tableOffset,
      h.baseLength, ← ht]
    simp only [Option.bind_eq_bind, Option.bind_some, hmove', setTableOffset_head, fillTable, hword,
      setSize_head, setLength_head _ _ _ _ _ _ _ (show (ws₁ ++ ws₂).length < 2 ^ 31 by omega),
      Bool.false_eq_true, if_false]
  · refine ⟨?_, ?_, ?_, by omega, ?_, ?_, ?_⟩
    · have hl : (ws₁ ++ t :: ws₂).length = (ws₁ ++ ws₂).length + 1 := by
        simp only [List.length_append, List.length_cons]
        omega
      have hT : 12 + (body ++ gap).length = t + dataSize := by
        rw [List.length_append]
        omega
      rw [← ht, hl, hT]
    · simp only [List.length_append, List.length_cons]
      omega
    · simp only [List.length_append, List.length_cons]
      omega
    · have := h.aligned
      omega
    · have := h.body_aligned
      rw [List.length_append]
      omega
    · intro x hx
      rcases List.mem_append.mp hx with hx | hx
      · exact h.words_lt x (by simp [hx])
      · rcases List.mem_cons.mp hx with rfl | hx
        · omega
        · exact h.words_lt x (by simp [hx])

/-- Reserving space for a new value of an element: the table keeps its length. -/
theorem reserveSpace_replace (h : BaseAt m pre obj size body (ws₁ ++ w :: ws₂) rest)
    (hds : dataSize % 4 = 0) (hmax : size + dataSize < maxSize)
    (hroom : pre.length + size + dataSize ≤ m.length) :
    ∃ gap m' rest', gap.length = dataSize ∧ m'.length = m.length ∧
      reserveSpace m pre.length dataSize ws₁.length 1 true = some (12 + body.length, m') ∧
      BaseAt m' pre obj (size + dataSize) (body ++ gap) (ws₁ ++ (12 + body.length) :: ws₂) rest' := by
  have hM : maxSize = 0x7FFFFFF := rfl
  have hlen := h.length_lt
  have hs := h.small
  have hin := h.inside
  have htab := h.table
  have hmlen : m.length = pre.length + 12 + body.length + 4 * (ws₁ ++ w :: ws₂).length +
      rest.length := by
    rw [h.eq]
    simp only [List.length_append, length_headBytes, length_tableBytes]
    omega
  have hA : (pre ++ headBytes obj size (ws₁ ++ w :: ws₂).length (12 + body.length) ++ body).length =
      pre.length + (12 + body.length) := by
    simp only [List.length_append, length_headBytes]
    omega
  have hr : dataSize ≤ rest.length := by omega
  obtain ⟨gap, rest', hgap, hrest, hmove⟩ :=
    moveTable_replace ws₁.length hA (length_tableBytes (ws₁ ++ w :: ws₂)) hr
  obtain ⟨t, ht⟩ : ∃ t, t = 12 + body.length := ⟨_, rfl⟩
  have hmove' : moveTable m pre.length t (ws₁ ++ w :: ws₂).length dataSize ws₁.length 1 true =
      some (pre ++ headBytes obj size (ws₁ ++ w :: ws₂).length t ++
        (body ++ gap ++ tableBytes (ws₁ ++ w :: ws₂) ++ rest')) := by
    rw [ht, h.eq]
    simpa only [List.append_assoc] using hmove
  have hword : Json.setTableAt (pre ++ headBytes obj size (ws₁ ++ w :: ws₂).length (t + dataSize) ++
      (body ++ gap ++ tableBytes (ws₁ ++ w :: ws₂) ++ rest')) pre.length ws₁.length t =
      some (pre ++ headBytes obj size (ws₁ ++ w :: ws₂).length (t + dataSize) ++
        (body ++ gap ++ tableBytes (ws₁ ++ t :: ws₂) ++ rest')) := by
    have hset := setTableAt_head pre obj size (ws₁ ++ w :: ws₂).length (t + dataSize)
      (B := tableBytes ws₂ ++ rest') (X := toLe 4 w) ws₁ t
      (show t + dataSize = 12 + (body ++ gap).length by rw [List.length_append]; omega)
      (by omega) (length_toLe 4 w)
    rw [tableBytes_append, tableBytes_cons, tableBytes_append, tableBytes_cons]
    simpa only [List.append_assoc] using hset
  refine ⟨gap, pre ++ headBytes obj (size + dataSize) (ws₁ ++ w :: ws₂).length (t + dataSize) ++
    (body ++ gap ++ tableBytes (ws₁ ++ t :: ws₂) ++ rest'), rest', hgap, ?_, ?_, ?_⟩
  · rw [hmlen]
    simp only [List.length_append, length_headBytes, length_tableBytes, List.length_cons]
    omega
  · unfold reserveSpace growBase
    rw [h.baseSize, Option.bind_eq_bind, Option.bind_some, if_neg (by omega), h.tableOffset,
      h.baseLength, ← ht]
    simp only [Option.bind_eq_bind, Option.bind_some, hmove', setTableOffset_head, fillTable, hword,
      setSize_head, if_true]
  · have hl : (ws₁ ++ t :: ws₂).length = (ws₁ ++ w :: ws₂).length := by simp
    have hT : 12 + (body ++ gap).length = t + dataSize := by
      rw [List.length_append]
      omega
    rw [← ht]
    refine ⟨by rw [hl, hT], ?_, ?_, by omega, ?_, ?_, ?_⟩
    · rw [hl, List.length_append]
      omega
    · rw [hl, List.length_append]
      omega
    · have := h.aligned
      omega
    · have := h.body_aligned
      rw [List.length_append]
      omega
    · intro x hx
      rcases List.mem_append.mp hx with hx | hx
      · exact h.words_lt x (by simp [hx])
      · rcases List.mem_cons.mp hx with rfl | hx
        · omega
        · exact h.words_lt x (by simp [hx])

end BaseAt

/-! ## `removeItems` -/

/-- What has been moved over is behind what has been moved. -/
theorem memmove_down {A x tbl rest : Bytes} {dest src n k : Nat} (hd : dest = A.length)
    (hs : src = A.length + x.length) (hn : n = tbl.length) (hx : x.length = k) :
    ∃ gone : Bytes, gone.length = k ∧
      memmove (A ++ x ++ tbl ++ rest) dest src n = some (A ++ tbl ++ gone ++ rest) := by
  refine ⟨(x ++ tbl).drop tbl.length, ?_, ?_⟩
  · rw [List.length_drop, List.length_append]
    omega
  · have hread : peek (A ++ x ++ tbl ++ rest) src n = some tbl :=
      peek_of_split (A := A ++ x) rfl (by rw [List.length_append]; omega) hn
    have hsplit : A ++ x ++ tbl ++ rest =
        A ++ (x ++ tbl).take tbl.length ++ ((x ++ tbl).drop tbl.length ++ rest) := by
      have hcut := List.take_append_drop tbl.length (x ++ tbl)
      calc A ++ x ++ tbl ++ rest = A ++ (x ++ tbl) ++ rest := by simp only [List.append_assoc]
        _ = _ := by
          conv_lhs => rw [← hcut]
          simp only [List.append_assoc]
    have hwrite := poke_of_split (W := tbl) hsplit hd
      (by rw [List.length_take, List.length_append]; omega)
    unfold memmove
    rw [hread, Option.bind_eq_bind, Option.bind_some, hwrite]
    simp only [List.append_assoc]

namespace BaseAt

variable {m pre body rest : Bytes} {obj : Bool} {size w : Nat} {ws₁ ws₂ : List Nat}

/-- An empty table moves back to the header. -/
theorem resetTable (h : BaseAt m pre obj size body [] rest) :
    ∃ m', setTableOffset m pre.length 12 = some m' ∧ m'.length = m.length ∧
      BaseAt m' pre obj size [] [] (body ++ rest) := by
  have hset := setTableOffset_head pre (body ++ tableBytes [] ++ rest) obj size 0 (12 + body.length) 12
  rw [← List.length_nil (α := Nat), ← h.eq] at hset
  refine ⟨_, hset, ?_, ⟨?_, ?_, ?_, h.small, h.aligned, rfl, h.words_lt⟩⟩
  · conv_rhs => rw [h.eq]
    simp only [List.length_append, length_headBytes]
  · simp only [tableBytes_nil, List.append_nil, List.nil_append, List.length_nil, Nat.add_zero]
  · have := h.table
    simp only [List.length_nil] at *
    omega
  · have := h.inside
    simp only [List.length_nil, List.length_append] at *
    omega

theorem removeItems (h : BaseAt m pre obj size body (ws₁ ++ w :: ws₂) rest) :
    ∃ m' rest', removeItems m pre.length ws₁.length 1 = some m' ∧ m'.length = m.length ∧
      BaseAt m' pre obj size body (ws₁ ++ ws₂) rest' := by
  have hlen := h.length_lt
  have htab := h.table
  have hin := h.inside
  have hcount : (ws₁ ++ w :: ws₂).length = (ws₁ ++ ws₂).length + 1 := by
    simp only [List.length_append, List.length_cons]
    omega
  rw [hcount] at hlen htab hin
  obtain ⟨A, hA⟩ : ∃ A, A = pre ++ headBytes obj size ((ws₁ ++ ws₂).length + 1) (12 + body.length) ++
    body ++ tableBytes ws₁ := ⟨_, rfl⟩
  have hAlen : A.length = pre.length + (12 + body.length) + 4 * ws₁.length := by
    rw [hA]
    simp only [List.length_append, length_headBytes, length_tableBytes]
    omega
  have hm : m = A ++ toLe 4 w ++ tableBytes ws₂ ++ rest := by
    rw [h.eq, hcount, tableBytes_append, tableBytes_cons, hA]
    simp only [List.append_assoc]
  -- the words behind the removed one move down, over it
  obtain ⟨gone, hgone, hmove⟩ : ∃ gone : Bytes, gone.length = 4 ∧
      closeTable m pre.length (12 + body.length) ((ws₁ ++ ws₂).length + 1) ws₁.length 1 =
        some (A ++ tableBytes ws₂ ++ gone ++ rest) := by
    unfold closeTable
    split
    · rw [hm]
      exact memmove_down (by omega) (by rw [length_toLe]; omega)
        (by rw [length_tableBytes, List.length_append]; omega) (length_toLe 4 w)
    · next hlast =>
      have hnil : ws₂ = [] := by
        rw [List.length_append] at hlast
        exact List.length_eq_zero_iff.mp (by omega)
      refine ⟨toLe 4 w, length_toLe 4 w, ?_⟩
      rw [hm, hnil]
      simp only [tableBytes_nil, List.append_nil]
  obtain ⟨tail, htail⟩ : ∃ tail, tail = body ++ tableBytes (ws₁ ++ ws₂) ++ (gone ++ rest) := ⟨_, rfl⟩
  have hm' : A ++ tableBytes ws₂ ++ gone ++ rest =
      pre ++ headBytes obj size ((ws₁ ++ ws₂).length + 1) (12 + body.length) ++ tail := by
    rw [hA, htail, tableBytes_append]
    simp only [List.append_assoc]
  refine ⟨pre ++ headBytes obj size (ws₁ ++ ws₂).length (12 + body.length) ++ tail, gone ++ rest,
    ?_, ?_, ⟨?_, ?_, ?_, h.small, h.aligned, h.body_aligned, ?_⟩⟩
  · unfold Json.removeItems
    rw [h.baseLength, h.tableOffset, hcount]
    simp only [Option.bind_eq_bind, Option.bind_some, hmove, hm']
    exact setLength_head _ _ _ _ _ _ _ (show (ws₁ ++ ws₂).length + 1 < 2 ^ 31 by omega)
  · rw [hm, htail]
    simp only [List.length_append, length_headBytes, length_tableBytes, length_toLe] at hAlen ⊢
    omega
  · rw [htail]
  · omega
  · simp only [List.length_append] at hin ⊢
    omega
  · intro x hx
    rcases List.mem_append.mp hx with hx | hx
    · exact h.words_lt x (by simp [hx])
    · exact h.words_lt x (by simp [hx])

/-- The bytes of a base, copied to another place. -/
theorem copy {words : List Nat} (h : BaseAt m pre obj size body words rest) :
    ∃ bytes rest', peek m pre.length size = some bytes ∧ bytes.length = size ∧
      ∀ pre' junk, BaseAt (pre' ++ bytes ++ junk) pre' obj size body words (rest' ++ junk) := by
  have htab := h.table
  have hin := h.inside
  obtain ⟨k, hk⟩ : ∃ k, k = size - (12 + body.length + 4 * words.length) := ⟨_, rfl⟩
  obtain ⟨bytes, hbytes⟩ : ∃ bytes, bytes = headBytes obj size words.length (12 + body.length) ++
    body ++ tableBytes words ++ rest.take k := ⟨_, rfl⟩
  have hblen : bytes.length = size := by
    rw [hbytes]
    simp only [List.length_append, length_headBytes, length_tableBytes, List.length_take]
    omega
  refine ⟨bytes, rest.take k, ?_, hblen, fun pre' junk => ⟨?_, h.table, ?_, h.small, h.aligned,
    h.body_aligned, h.words_lt⟩⟩
  · refine peek_of_split (A := pre) (B := rest.drop k) ?_ rfl hblen.symm
    rw [h.eq, hbytes]
    simp only [List.append_assoc, List.take_append_drop]
  · rw [hbytes]
    simp only [List.append_assoc]
  · rw [List.length_append, List.length_take]
    omega

end BaseAt

end Libpdk.Json
