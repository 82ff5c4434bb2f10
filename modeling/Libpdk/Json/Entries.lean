import Libpdk.Json.Content

/-!
# The entries of an object

An entry is the word of its value and, behind it, its key (`Key`). `StoredEntry` is for
the table of an object what `Stored` is for that of an array, so that what is said of a
content in general holds of objects too: `movable_storedEntry` and `readable_storedEntry`.
`compact_exact` is `compact` on a root of either kind.
-/
namespace Libpdk.Json

open Libpdk.Mem

/-! ## Keys -/

/-- `getByteSize` of the key in `data`, with the word in front of it.
mirrors utils/json/internal/JsonPrivate.h:602-611 -/
def keySize (latin : Bool) (data : Bytes) : Option Nat :=
  if latin then (le 2 data 0).map fun n => align (4 + 2 + n)
  else (le 4 data 0).map fun n => align (4 + 4 + 2 * n)

/-- `data` is the key `k` of an entry. -/
structure Key (latin : Bool) (data : Bytes) (k : Str) : Prop where
  size : keySize latin data = some (4 + data.length)
  reads : readString data latin 0 = some k

theorem Key.aligned {latin : Bool} {data : Bytes} {k : Str} (h : Key latin data k) :
    data.length % 4 = 0 := by
  have hsize := h.size
  have hmod : (4 + data.length) % 4 = 0 := by
    cases latin with
    | true =>
      obtain ⟨n, -, hn⟩ := Option.map_eq_some_iff.mp hsize
      rw [← hn]
      exact align_mod _
    | false =>
      obtain ⟨n, -, hn⟩ := Option.map_eq_some_iff.mp hsize
      rw [← hn]
      exact align_mod _
  omega

theorem entrySize_eq {m A B data : Bytes} {w q : Nat} {k : Str} (hw : le 4 m q = some w)
    (hm : m = A ++ data ++ B) (hA : A.length = q + 4) (h : Key (latinKey w) data k) :
    entrySize m q = some (4 + data.length) := by
  have hsize := h.size
  have hle {n v : Nat} (hv : le n data 0 = some v) : le n m (q + 4) = some v := by
    rw [← hA]
    exact le_embed hm hv
  rw [entrySize, hw, Option.bind_eq_bind, Option.bind_some]
  cases hlatin : latinKey w with
  | true =>
    rw [hlatin] at hsize
    obtain ⟨n, hn, heq⟩ := Option.map_eq_some_iff.mp hsize
    rw [if_pos rfl, hle hn, Option.map_some, heq]
  | false =>
    rw [hlatin] at hsize
    obtain ⟨n, hn, heq⟩ := Option.map_eq_some_iff.mp hsize
    rw [if_neg Bool.false_ne_true, hle hn, Option.map_some, heq]

theorem latinKey_congr {w w' : Nat} (h : w' % 32 = w % 32) : latinKey w' = latinKey w := by
  unfold latinKey
  rw [show w' / 16 % 2 = w / 16 % 2 by omega]

/-! ## Entries -/

/-- The entry of key and value at the offset `x`, and the storage that it uses. -/
inductive StoredEntry (body : Bytes) (x : Nat) (e : Str × Val) : Nat → Prop
  | entry {w n : Nat} (key : Bytes) : Key (latinKey w) key e.1 → w < 2 ^ 32 → 12 ≤ x →
      peek body (x - 12) (4 + key.length) = some (toLe 4 w ++ key) → Stored body w e.2 n →
      StoredEntry body x e (4 + key.length + n)

theorem StoredEntry.append {body : Bytes} {x n : Nat} {e : Str × Val} (junk : Bytes)
    (h : StoredEntry body x e n) : StoredEntry (body ++ junk) x e n := by
  obtain ⟨key, hk, hw, hx, hp, hv⟩ := h
  refine .entry key hk hw hx ?_ (hv.append junk)
  rw [peek_append junk (peek_eq_some hp).2]
  exact hp

theorem StoredEntry.aligned {body : Bytes} {x n : Nat} {e : Str × Val}
    (h : StoredEntry body x e n) : n % 4 = 0 := by
  obtain ⟨key, hk, -, -, -, hv⟩ := h
  have := hk.aligned
  have := hv.aligned
  omega

/-- What the code reads at an entry. -/
theorem BaseAt.entry {m pre body rest key : Bytes} {obj : Bool} {size x w : Nat} {words : List Nat}
    {k : Str} (h : BaseAt m pre obj size body words rest) (hx : 12 ≤ x)
    (hp : peek body (x - 12) (4 + key.length) = some (toLe 4 w ++ key)) (hw : w < 2 ^ 32)
    (hk : Key (latinKey w) key k) :
    le 4 m (pre.length + x) = some w ∧
      entrySize m (pre.length + x) = some (4 + key.length) ∧
      peek m (pre.length + x) (4 + key.length) = some (toLe 4 w ++ key) ∧
      readString m (latinKey w) (pre.length + x + 4) = some k := by
  have hlen : (toLe 4 w ++ key).length = 4 + key.length := by
    rw [List.length_append, length_toLe]
  rw [← hlen] at hp
  obtain ⟨A, B, hm, hA⟩ := h.split_data hx hp
  have hm' : m = (A ++ toLe 4 w) ++ key ++ B := by
    rw [hm]
    simp only [List.append_assoc]
  have hA' : (A ++ toLe 4 w).length = pre.length + x + 4 := by
    rw [List.length_append, length_toLe, hA]
  have hword : le 4 m (pre.length + x) = some w := by
    refine le_of_split (A := A) (B := key ++ B) ?_ hA.symm hw
    rw [hm]
    simp only [List.append_assoc]
  refine ⟨hword, entrySize_eq hword hm' hA' hk, ?_, ?_⟩
  · rw [← hlen]
    exact h.peek_body hx hp
  · rw [← hA']
    exact readString_embed hm' hk.reads

/-! ## `compact` -/

/-- A word in the data is changed. -/
theorem Building.setWord {new pre b₁ b₂ gap hole : Bytes} {obj : Bool} {size len t w : Nat}
    {words : List Nat} (h : Building new pre obj size len t (b₁ ++ toLe 4 w ++ b₂) gap words hole)
    (v : Nat) :
    ∃ new', poke new (pre.length + (12 + b₁.length)) (toLe 4 v) = some new' ∧
      Building new' pre obj size len t (b₁ ++ toLe 4 v ++ b₂) gap words hole := by
  have hp := poke_of_split (m := new) (i := pre.length + (12 + b₁.length)) (W := toLe 4 v)
    (X := toLe 4 w) (A := pre ++ headBytes obj size len t ++ b₁)
    (B := b₂ ++ gap ++ tableBytes words ++ hole)
    (by
      rw [h.eq]
      simp only [List.append_assoc])
    (by simp only [List.length_append, length_headBytes]; omega)
    (by rw [length_toLe, length_toLe])
  refine ⟨_, hp, ?_, ?_, h.small⟩
  · simp only [List.append_assoc]
  · have := h.table
    simp only [List.length_append, length_toLe] at this ⊢
    omega

theorem movable_storedEntry : Movable true StoredEntry where
  append x h := h.append x
  aligned h := h.aligned
  storage h he := by
    obtain ⟨key, hk, hw, hx, hp, hv⟩ := he
    obtain ⟨hword, hsize, -, -⟩ := h.entry hx hp hw hk
    unfold elementStorage
    rw [h.tableAt]
    simp only [Option.bind_eq_bind, Option.bind_some, if_true, hsize, hword, h.usedStorage hv]
  turn := by
    intro m pre body rest new pre' nbody gap hole size size' len t ws ws' nws x n e h he hb hpre hnws
      hgap hhole
    obtain ⟨key, hk, hw, hx, hp, hv⟩ := he
    rename_i w n
    obtain ⟨hword, hsize, hpeek, -⟩ := h.entry hx hp hw hk
    have hused := h.usedStorage hv
    have ht := hb.table
    have hsmall := hb.small
    have hlen : (toLe 4 w ++ key).length = 4 + key.length := by
      rw [List.length_append, length_toLe]
    -- the table word, and the entry with the word of the old value
    obtain ⟨new₁, hset, hb₁⟩ := hb.setTableAt (12 + nbody.length) hhole
    obtain ⟨new₂, hput, hb₂⟩ := hb₁.put (toLe 4 w ++ key) (by omega)
    rw [hpre, hnws] at hset
    rw [hpre] at hput
    have hrest : (hole.drop 4).length + 4 = hole.length := by
      rw [List.length_drop]
      omega
    have hoff : 12 + nbody.length < 2 ^ 32 := by omega
    unfold compactElement compactEntry
    rw [if_pos rfl, h.tableAt]
    simp only [Option.bind_eq_bind, Option.bind_some, hset, hsize, hpeek, hput, hword, hused]
    cases hv with
    | inline hout hv =>
      refine ⟨new₂, toLe 4 w ++ key, gap.drop (toLe 4 w ++ key).length, 12 + nbody.length,
        hole.drop 4, ?_, by rw [hlen]; rfl, ?_, hrest, hoff, ?_, hb₂⟩
      · rw [if_pos rfl, List.length_append, hlen, Nat.add_assoc]
      · rw [List.length_drop]
        omega
      · refine .entry key hk hw (by omega) ?_ (.inline hout hv)
        refine peek_of_split (A := nbody) (B := []) (by simp) (by omega) hlen.symm
    | data data hd h12 hpd =>
      have hpos := hd.pos
      obtain ⟨new₃, hput', hb₃⟩ := hb₂.put data (by rw [List.length_drop]; omega)
      obtain ⟨v, hvdef⟩ : ∃ v, v = withValue w (12 + nbody.length + (4 + key.length)) := ⟨_, rfl⟩
      have hb₃' : Building new₃ pre' true size' len t (nbody ++ toLe 4 w ++ (key ++ data))
          ((gap.drop (toLe 4 w ++ key).length).drop data.length) (nws ++ [12 + nbody.length])
          (hole.drop 4) := by
        simpa only [List.append_assoc] using hb₃
      obtain ⟨new₄, hword', hb₄⟩ := hb₃'.setWord v
      rw [hpre, List.length_append, hlen] at hput'
      rw [hpre] at hword'
      have hmod : v % 32 = w % 32 := by
        rw [hvdef]
        exact withValue_mod _ _
      refine ⟨new₄, toLe 4 v ++ key ++ data, (gap.drop (toLe 4 w ++ key).length).drop data.length,
        12 + nbody.length, hole.drop 4, ?_, ?_, ?_, hrest, hoff, ?_, ?_⟩
      · rw [if_neg (by omega), h.peek_body h12 hpd, Option.bind_some,
          show 12 + nbody.length + (4 + key.length) = 12 + (nbody.length + (4 + key.length)) by omega,
          hput', Option.bind_some,
          show 12 + (nbody.length + (4 + key.length)) = 12 + nbody.length + (4 + key.length) by omega,
          ← hvdef, hword', Option.bind_some]
        simp only [List.length_append, length_toLe]
        rw [show 12 + nbody.length + (4 + key.length) + data.length =
          12 + (nbody.length + (4 + key.length + data.length)) by omega]
      · simp only [List.length_append, length_toLe]
      · simp only [List.length_drop]
        omega
      · have hv32 : v < 2 ^ 32 := by
          rw [hvdef]
          exact withValue_lt _ _
        refine .entry key ?_ hv32 (by omega) ?_ ?_
        · rw [latinKey_congr hmod]
          exact hk
        · refine peek_of_split (A := nbody) (X := toLe 4 v ++ key) (B := data) ?_ (by omega) ?_
          · simp only [List.append_assoc]
          · rw [List.length_append, length_toLe]
        · have hgap' : wordValue v = 12 + (nbody ++ (toLe 4 v ++ key)).length := by
            rw [hvdef, wordValue_withValue (by omega), ← hvdef]
            simp only [List.length_append, length_toLe]
            omega
          have := Stored.of_gap (hd.congr hmod) hgap'
          rwa [List.append_assoc] at this
      · simpa only [List.append_assoc] using hb₄

theorem readable_storedEntry :
    ReadsElement true StoredEntry fun n m p i => readEntry (readBase n m) m p i := by
  intro m pre body rest size ws₁ ws₂ x n e hb he
  obtain ⟨key, hk, hw, hx, hp, hv⟩ := he
  obtain ⟨hword, -, -, hkey⟩ := hb.entry hx hp hw hk
  obtain ⟨n₀, hn₀⟩ := hb.readValue hv
  refine ⟨n₀, fun n hn => ?_⟩
  simp only [readEntry, entryKey, elementWord, hb.tableAt, hword, hkey, hn₀ n hn,
    Option.bind_eq_bind, Option.bind_some, if_true]

/-! ## Roots -/

/-- The value that a document has as its root. What its elements use does not overlap; there
may be any other bytes between it. -/
inductive Root (m : Bytes) : Val → Prop
  | array {size : Nat} {es : List (Val × Nat)} :
    Content Stored m header false size es → Root m (.array (es.map Prod.fst))
  | object {size : Nat} {es : List ((Str × Val) × Nat)} :
    Content StoredEntry m header true size es → Root m (.object (es.map Prod.fst))

theorem Content.isObject {E : Type} {R : Holding E} {m pre : Bytes} {obj : Bool} {size : Nat}
    {es : List (E × Nat)} (h : Content R m pre obj size es) :
    Json.isObject m pre.length = some obj := by
  obtain ⟨_, _, _, hb, -, -⟩ := h
  exact hb.isObject

/-- A root reads as its value, to the depth that it has. -/
theorem Root.reads {m : Bytes} {v : Val} (h : Root m v) :
    ∃ n₀, ∀ n ≥ n₀, readDocument n m = some v := by
  cases h with
  | array h =>
    obtain ⟨n₀, hn₀⟩ := h.collect readable_stored
    have hobj := h.isObject
    have hlen := h.baseLength
    rw [length_header] at hn₀ hobj hlen
    refine ⟨n₀ + 1, fun n hn => ?_⟩
    obtain ⟨n, rfl⟩ : ∃ n', n = n' + 1 := ⟨n - 1, by omega⟩
    simp only [readDocument, hobj, readBase, hlen, hn₀ n (by omega), Option.bind_eq_bind,
      Option.bind_some]
  | object h =>
    obtain ⟨n₀, hn₀⟩ := h.collect readable_storedEntry
    have hobj := h.isObject
    have hlen := h.baseLength
    rw [length_header] at hn₀ hobj hlen
    refine ⟨n₀ + 1, fun n hn => ?_⟩
    obtain ⟨n, rfl⟩ : ∃ n', n = n' + 1 := ⟨n - 1, by omega⟩
    simp only [readDocument, hobj, readBase, hlen, hn₀ n (by omega), Option.bind_eq_bind,
      Option.bind_some]

/-- What `compact` makes of a block: `sizes` are the sums of its first loop, and its second loop
ends at `offset`. -/
structure Compacted (fill : Nat → UInt8) (d d' : Data) (v : Val) (obj : Bool) (len : Nat)
    (sizes : List Nat) (offset : Nat) : Prop where
  isObject : isObject d.raw root = some obj
  length : baseLength d.raw root = some len
  storage : collect (elementStorage d.raw obj root) 0 len = some sizes
  loop : compactLoop d.raw obj root 0 len (compactBase fill obj sizes.sum len) 12 =
    some (d'.raw, offset)
  result : compact fill d = some d'
  counter : d'.compactionCounter = 0
  table : tableOffset d'.raw root = some offset
  size : baseSize d'.raw root = some (12 + sizes.sum + 4 * len)
  alloc : d'.raw.length = root + (12 + sizes.sum + 4 * len)
  newIsObject : Json.isObject d'.raw root = some obj
  newLength : baseLength d'.raw root = some len
  content : Root d'.raw v

theorem Content.compacted {E : Type} {R : Holding E} {m : Bytes} {obj : Bool} {size c : Nat}
    {v : Val} {es : List (E × Nat)} (fill : Nat → UInt8) (hc : c ≠ 0) (hR : Movable obj R)
    (hroot : ∀ m' size', Content R m' header obj size' es → Root m' v)
    (h : Content R m header obj size es) :
    ∃ d', Compacted fill ⟨m, c⟩ d' v obj es.length (es.map Prod.snd)
      (12 + (es.map Prod.snd).sum) := by
  obtain ⟨new, r, size', rfl, rfl, -, hsizes, hloop, heq, htable, halloc, hnew⟩ :=
    h.compact_eq fill hc hR
  have hobj := h.isObject
  have hlen := h.baseLength
  have hobj' := hnew.isObject
  have hlen' := hnew.baseLength
  have hsize' := hnew.baseSize
  rw [length_header] at hobj hlen hobj' hlen' hsize'
  exact ⟨⟨new, 0⟩, hobj, hlen, hsizes, hloop, heq, rfl, htable, hsize', halloc, hobj', hlen',
    hroot new _ hnew⟩

/-- `compact` keeps what the root holds, its second loop ends at the table, and the size is what
the first loop has found. -/
theorem compact_exact (fill : Nat → UInt8) {d : Data} {v : Val} (h : Root d.raw v)
    (hc : d.compactionCounter ≠ 0) :
    ∃ d' obj len sizes offset, Compacted fill d d' v obj len sizes offset ∧
      ∃ n₀, ∀ n ≥ n₀, readDocument n d.raw = some v ∧ readDocument n d'.raw = some v := by
  have hcompacted : ∃ d' obj len sizes offset, Compacted fill d d' v obj len sizes offset := by
    obtain ⟨m, c⟩ := d
    cases h with
    | array h =>
      obtain ⟨d', hd'⟩ := h.compacted fill hc movable_stored fun _ _ => .array
      exact ⟨d', _, _, _, _, hd'⟩
    | object h =>
      obtain ⟨d', hd'⟩ := h.compacted fill hc movable_storedEntry fun _ _ => .object
      exact ⟨d', _, _, _, _, hd'⟩
  obtain ⟨d', obj, len, sizes, offset, hd'⟩ := hcompacted
  obtain ⟨n₀, hn₀⟩ := h.reads
  obtain ⟨n₁, hn₁⟩ := hd'.content.reads
  exact ⟨d', obj, len, sizes, offset, hd', max n₀ n₁,
    fun n hn => ⟨hn₀ n (by omega), hn₁ n (by omega)⟩⟩

/-- An object with the member `"a": true` behind four bytes of garbage. -/
def withGarbage : Bytes :=
  header ++ headBytes true 28 1 24 ++ ([7, 7, 7, 7] ++ (toLe 4 49 ++ [1, 0, 97, 0])) ++ toLe 4 16

theorem content_withGarbage :
    Content StoredEntry withGarbage header true 28 [(([97], .bool true), 8)] := by
  refine ⟨[7, 7, 7, 7] ++ (toLe 4 49 ++ [1, 0, 97, 0]), [16], [], ⟨rfl, by decide, by decide,
    by decide, rfl, rfl, by decide⟩, .cons ?_ .nil, by decide⟩
  exact .entry (w := 49) (n := 0) [1, 0, 97, 0] ⟨rfl, rfl⟩ (by decide) (by decide) rfl
    (.inline rfl fun _ _ _ => rfl)

theorem root_withGarbage : Root withGarbage (.object [([97], .bool true)]) :=
  .object content_withGarbage

theorem compact_exact_withGarbage : ∃ d' obj len sizes offset,
    Compacted (fun _ => 0) ⟨withGarbage, 1⟩ d' (.object [([97], .bool true)]) obj len sizes offset ∧
      ∃ n₀, ∀ n ≥ n₀, readDocument n withGarbage = some (.object [([97], .bool true)]) ∧
        readDocument n d'.raw = some (.object [([97], .bool true)]) :=
  compact_exact (fun _ => 0) root_withGarbage (by decide)

end Libpdk.Json
