import Mathlib.Data.List.Forall2
import Libpdk.Json.Represents
import Libpdk.Json.BaseLayout

/-!
# The content of a base

`Content R` says what is in a base: for each table word the element that it leads
to, by the relation `R`, with the storage that the element uses. Elements do not
share storage, so the body is at least as long as all of it.

Arrays and objects differ in `R` alone, so what `Base` and `Data` do to a content is
said once for both.
-/
namespace Libpdk.Json

section

open Libpdk.Mem

variable {E : Type}

/-- A relation on body, table word, element and the storage it uses. -/
abbrev Holding (E : Type) := Bytes → Nat → E → Nat → Prop

/-- The elements of the table, with their storage. -/
abbrev Elements (R : Holding E) (body : Bytes) (words : List Nat) (es : List (E × Nat)) : Prop :=
  List.Forall₂ (fun w e => R body w e.1 e.2) words es

def Content (R : Holding E) (m pre : Bytes) (obj : Bool) (size : Nat) (es : List (E × Nat)) : Prop :=
  ∃ body words rest, BaseAt m pre obj size body words rest ∧ Elements R body words es ∧
    (es.map Prod.snd).sum ≤ body.length

/-! ## `Elements` -/

section Elements

variable {R : Holding E} {body : Bytes} {words : List Nat} {es₁ es₂ : List (E × Nat)}

theorem Elements.imp {R' : Holding E} {body' : Bytes} {es : List (E × Nat)}
    (h : Elements R body words es)
    (hR : ∀ {w e n}, R body w e n → R' body' w e n) : Elements R' body' words es :=
  List.Forall₂.imp (fun _ _ h => hR h) h

theorem Elements.append (h₁ : Elements R body words es₁) {words' : List Nat}
    (h₂ : Elements R body words' es₂) : Elements R body (words ++ words') (es₁ ++ es₂) :=
  List.rel_append h₁ h₂

theorem Elements.split (h : Elements R body words (es₁ ++ es₂)) :
    ∃ ws₁ ws₂, words = ws₁ ++ ws₂ ∧ ws₁.length = es₁.length ∧ Elements R body ws₁ es₁ ∧
      Elements R body ws₂ es₂ := by
  have h₁ := List.forall₂_take_append _ _ _ h
  exact ⟨words.take es₁.length, words.drop es₁.length, (List.take_append_drop _ _).symm,
    h₁.length_eq, h₁, List.forall₂_drop_append _ _ _ h⟩

theorem Elements.split_cons {e : E × Nat} (h : Elements R body words (es₁ ++ e :: es₂)) :
    ∃ ws₁ w ws₂, words = ws₁ ++ w :: ws₂ ∧ ws₁.length = es₁.length ∧ R body w e.1 e.2 ∧
      Elements R body ws₁ es₁ ∧ Elements R body ws₂ es₂ := by
  obtain ⟨ws₁, ws₂, rfl, hlen, h₁, h₂⟩ := h.split
  obtain ⟨w, ws, hw, hws, rfl⟩ := List.forall₂_cons_right_iff.mp h₂
  exact ⟨ws₁, w, ws, rfl, hlen, hw, h₁, hws⟩

end Elements

/-! ## Changes of the content -/

namespace Content

variable {R : Holding E} {m pre : Bytes} {obj : Bool} {size : Nat} {es₁ es₂ : List (E × Nat)}
  {e : E × Nat}

theorem baseSize {es : List (E × Nat)} (h : Content R m pre obj size es) :
    baseSize m pre.length = some size := by
  obtain ⟨_, _, _, hb, -, -⟩ := h
  exact hb.baseSize

theorem baseLength {es : List (E × Nat)} (h : Content R m pre obj size es) :
    baseLength m pre.length = some es.length := by
  obtain ⟨_, _, _, hb, hes, -⟩ := h
  rw [hb.baseLength, List.Forall₂.length_eq hes]

/-- The base lies in its block, and the table in the base. -/
theorem bounds {es : List (E × Nat)} (h : Content R m pre obj size es) :
    ∃ t, tableOffset m pre.length = some t ∧ 12 ≤ t ∧ t + 4 * es.length ≤ size ∧
      pre.length + size ≤ m.length := by
  obtain ⟨body, words, rest, hb, hes, -⟩ := h
  have htab := hb.table
  have hin := hb.inside
  have hm := congrArg List.length hb.eq
  simp only [List.length_append, length_headBytes, length_tableBytes] at hm
  rw [← List.Forall₂.length_eq hes]
  exact ⟨_, hb.tableOffset, by omega, htab, by omega⟩

/-- The table word of an element and what it leads to. -/
theorem element {es : List (E × Nat)} (h : Content R m pre obj size es) {i : Nat}
    (hi : i < es.length) :
    ∃ body ws₁ w ws₂ rest, BaseAt m pre obj size body (ws₁ ++ w :: ws₂) rest ∧ ws₁.length = i ∧
      R body w es[i].1 es[i].2 := by
  obtain ⟨body, words, rest, hb, hes, -⟩ := h
  have hsplit : es = es.take i ++ es[i] :: es.drop (i + 1) := by
    rw [← List.drop_eq_getElem_cons hi, List.take_append_drop]
  obtain ⟨e, he⟩ : ∃ e, e = es[i] := ⟨_, rfl⟩
  rw [← he] at hsplit ⊢
  rw [hsplit] at hes
  obtain ⟨ws₁, w, ws₂, rfl, hws, hw, -, -⟩ := hes.split_cons
  refine ⟨body, ws₁, w, ws₂, rest, hb, ?_, hw⟩
  rw [hws, List.length_take, Nat.min_eq_left (by omega)]

theorem removeItems (h : Content R m pre obj size (es₁ ++ e :: es₂)) :
    ∃ m', removeItems m pre.length es₁.length 1 = some m' ∧ m'.length = m.length ∧
      Content R m' pre obj size (es₁ ++ es₂) := by
  obtain ⟨body, words, rest, hb, hes, hsum⟩ := h
  obtain ⟨ws₁, w, ws₂, rfl, hlen, -, h₁, h₂⟩ := hes.split_cons
  obtain ⟨m', rest', hrem, hm', hb'⟩ := hb.removeItems
  rw [hlen] at hrem
  refine ⟨m', hrem, hm', body, ws₁ ++ ws₂, rest', hb', h₁.append h₂, ?_⟩
  simp only [List.map_append, List.map_cons, List.sum_append, List.sum_cons] at hsum ⊢
  omega

theorem copy {es : List (E × Nat)} (h : Content R m pre obj size es) :
    ∃ bytes, peek m pre.length size = some bytes ∧ bytes.length = size ∧
      ∀ pre' junk, Content R (pre' ++ bytes ++ junk) pre' obj size es := by
  obtain ⟨body, words, rest, hb, hes, hsum⟩ := h
  obtain ⟨bytes, rest', hp, hlen, hcopy⟩ := hb.copy
  exact ⟨bytes, hp, hlen, fun pre' junk => ⟨body, words, rest' ++ junk, hcopy pre' junk, hes, hsum⟩⟩

/-- A new block. -/
theorem empty (fill : Nat → UInt8) (reserved : Nat) :
    Content R (newData fill reserved obj).raw header obj 12 [] := by
  refine ⟨[], [], malloc fill (reserved + 4), ⟨?_, ?_, ?_, ?_, rfl, rfl, ?_⟩, .nil, Nat.le_refl 0⟩
  · unfold newData headBytes
    simp only [List.append_assoc, List.nil_append, tableBytes_nil, List.length_nil]
    rw [show 2 * 0 + obj.toNat = obj.toNat by omega]
  · simp only [List.length_nil]
    omega
  · simp only [List.length_nil]
    omega
  · omega
  · intro w hw
    cases hw

end Content

/-! ## A content as a value -/

/-- The bytes of a base on their own. -/
theorem Content.alone {R : Holding E} {m pre : Bytes} {obj : Bool} {size : Nat}
    {es : List (E × Nat)} (h : Content R m pre obj size es) :
    ∃ sub, peek m pre.length sub.length = some sub ∧ Content R sub [] obj sub.length es ∧
      sub.length % 4 = 0 ∧ 12 ≤ sub.length ∧ sub.length < 2 ^ 28 := by
  obtain ⟨sub, hp, hlen, hcopy⟩ := h.copy
  have hc := hcopy [] []
  rw [List.nil_append, List.append_nil] at hc
  obtain ⟨body, words, rest, hb, -, -⟩ := h
  have htab := hb.table
  have hsmall := hb.small
  have halign := hb.aligned
  rw [← hlen] at hp hc
  exact ⟨sub, hp, hc, by omega, by omega, by omega⟩

/-- Fuel that is enough for each element is enough for all. -/
theorem exists_fuel {P : Nat → Nat → Prop} (k : Nat) (h : ∀ i < k, ∃ n₀, ∀ n ≥ n₀, P i n) :
    ∃ n₀, ∀ n ≥ n₀, ∀ i < k, P i n := by
  induction k with
  | zero => exact ⟨0, fun _ _ i hi => absurd hi (by omega)⟩
  | succ k ih =>
    obtain ⟨n₁, h₁⟩ := ih fun i hi => h i (by omega)
    obtain ⟨n₂, h₂⟩ := h k (by omega)
    refine ⟨max n₁ n₂, fun n hn i hi => ?_⟩
    by_cases hik : i = k
    · subst hik
      exact h₂ n (by omega)
    · exact h₁ n (by omega) i (by omega)

/-- What reading a base needs of its elements. -/
def ReadsElement (obj : Bool) (R : Holding E) (read : Nat → Bytes → Nat → Nat → Option E) : Prop :=
  ∀ {m pre body rest : Bytes} {size : Nat} {ws₁ ws₂ : List Nat} {w n : Nat} {e : E},
    BaseAt m pre obj size body (ws₁ ++ w :: ws₂) rest → R body w e n →
      ∃ n₀, ∀ n ≥ n₀, read n m pre.length ws₁.length = some e

theorem Content.collect {R : Holding E} {m pre : Bytes} {obj : Bool} {size : Nat}
    {es : List (E × Nat)} {read : Nat → Bytes → Nat → Nat → Option E}
    (hR : ReadsElement obj R read) (h : Content R m pre obj size es) :
    ∃ n₀, ∀ n ≥ n₀, collect (read n m pre.length) 0 es.length = some (es.map Prod.fst) := by
  have hall : ∀ i < es.length, ∃ n₀, ∀ n ≥ n₀,
      read n m pre.length i = es[i]?.map Prod.fst := by
    intro i hi
    obtain ⟨body, ws₁, w, ws₂, rest, hb, hws, hw⟩ := h.element hi
    obtain ⟨n₀, hn₀⟩ := hR hb hw
    refine ⟨n₀, fun n hn => ?_⟩
    rw [← hws, hn₀ n hn, List.getElem?_eq_getElem (by omega)]
    simp only [hws, Option.map_some]
  obtain ⟨n₀, hn₀⟩ := exists_fuel es.length hall
  refine ⟨n₀, fun n hn => collect_eq_some.mpr ⟨List.length_map _, fun i hi => ?_⟩⟩
  rw [List.length_map] at hi
  rw [Nat.zero_add, hn₀ n hn i hi, List.getElem?_eq_getElem hi, Option.map_some, List.getElem_map]

theorem readable_stored :
    ReadsElement false Stored fun n m p i => readElement (readBase n m) m p i := by
  intro m pre body rest size ws₁ ws₂ w n e hb hw
  obtain ⟨n₀, hn₀⟩ := hb.readValue hw
  refine ⟨n₀, fun n hn => ?_⟩
  simp only [readElement, elementWord, hb.tableAt, Option.bind_eq_bind, Option.bind_some,
    Bool.false_eq_true, if_false]
  exact hn₀ n hn

/-- The base of an array reads as the list of its elements. -/
theorem Content.selfContained {sub : Bytes} {es : List (Val × Nat)}
    (h : Content Stored sub [] false sub.length es) (halign : sub.length % 4 = 0)
    (hhead : 12 ≤ sub.length) (hsmall : sub.length < 2 ^ 28) :
    SelfContained sub false (.array (es.map Prod.fst)) := by
  obtain ⟨n, hn⟩ := h.collect readable_stored
  have hlen := h.baseLength
  have hread := hn n (Nat.le_refl n)
  rw [List.length_nil] at hlen hread
  refine ⟨h.baseSize, halign, hhead, hsmall, n + 1, ?_⟩
  simp only [readBase, hlen, Option.bind_eq_bind, Option.bind_some]
  rw [hread]
  rfl

end

/-!
## Compaction

`compact` copies the elements one after the other into a base of the size that
they use (`Building`). `Movable` is what it needs of an element, and
`Content.compact` the loop over all of them, for arrays and objects alike.
-/

open Libpdk.Mem

variable {E : Type}

/-- A base that is being filled: the data so far, the room for more, the table so
far, and the room for its other words. -/
structure Building (new pre : Bytes) (obj : Bool) (size len t : Nat) (body gap : Bytes)
    (words : List Nat) (hole : Bytes) : Prop where
  eq : new = pre ++ headBytes obj size len t ++ (body ++ gap ++ tableBytes words ++ hole)
  table : t = 12 + body.length + gap.length
  small : t < 2 ^ 27

/-- What `compact` needs of an element: its storage, and that a turn of the loop
copies it. -/
structure Movable (obj : Bool) (R : Holding E) : Prop where
  append : ∀ {body : Bytes} {w : Nat} {e : E} {n : Nat} (x : Bytes),
    R body w e n → R (body ++ x) w e n
  aligned : ∀ {body : Bytes} {w : Nat} {e : E} {n : Nat}, R body w e n → n % 4 = 0
  storage : ∀ {m pre body rest : Bytes} {size : Nat} {ws ws' : List Nat} {w n : Nat} {e : E},
    BaseAt m pre obj size body (ws ++ w :: ws') rest → R body w e n →
      elementStorage m obj pre.length ws.length = some n
  turn : ∀ {m pre body rest new pre' nbody gap hole : Bytes} {size size' len t : Nat}
    {ws ws' nws : List Nat} {w n : Nat} {e : E},
    BaseAt m pre obj size body (ws ++ w :: ws') rest → R body w e n →
      Building new pre' obj size' len t nbody gap nws hole → pre'.length = pre.length →
      nws.length = ws.length → n ≤ gap.length → 4 ≤ hole.length →
      ∃ new' data gap' w' hole',
        compactElement m obj pre.length new (12 + nbody.length) ws.length =
          some (new', 12 + (nbody ++ data).length) ∧
        data.length = n ∧ gap'.length + n = gap.length ∧ hole'.length + 4 = hole.length ∧
        w' < 2 ^ 32 ∧ R (nbody ++ data) w' e n ∧
        Building new' pre' obj size' len t (nbody ++ data) gap' (nws ++ [w']) hole'

namespace Building

variable {new pre body gap hole : Bytes} {obj : Bool} {size len t : Nat} {words : List Nat}

theorem setTableAt (h : Building new pre obj size len t body gap words hole) (v : Nat)
    (hole4 : 4 ≤ hole.length) :
    ∃ new', setTableAt new pre.length words.length v = some new' ∧
      Building new' pre obj size len t body gap (words ++ [v]) (hole.drop 4) := by
  have ht := h.table
  have hset := setTableAt_head pre obj size len t (X := hole.take 4) (B := hole.drop 4) words v
    (show t = 12 + (body ++ gap).length by rw [List.length_append]; omega) (by have := h.small; omega)
    (by rw [List.length_take]; omega)
  have hsplit : body ++ gap ++ tableBytes words ++ hole.take 4 ++ hole.drop 4 =
      body ++ gap ++ tableBytes words ++ hole := by
    rw [List.append_assoc _ (hole.take 4), List.take_append_drop]
  rw [hsplit, ← h.eq] at hset
  refine ⟨_, hset, ?_, ht, h.small⟩
  rw [tableBytes_append, tableBytes_cons, tableBytes_nil, List.append_nil]
  simp only [List.append_assoc]

/-- Data goes to the front of the room. -/
theorem put (h : Building new pre obj size len t body gap words hole) (data : Bytes)
    (hlen : data.length ≤ gap.length) :
    ∃ new', poke new (pre.length + (12 + body.length)) data = some new' ∧
      Building new' pre obj size len t (body ++ data) (gap.drop data.length) words hole := by
  have ht := h.table
  have hp := poke_of_split (m := new) (i := pre.length + (12 + body.length)) (W := data)
    (A := pre ++ headBytes obj size len t ++ body) (X := gap.take data.length)
    (B := gap.drop data.length ++ tableBytes words ++ hole)
    (by
      rw [h.eq]
      conv_lhs => rw [← List.take_append_drop data.length gap]
      simp only [List.append_assoc])
    (by simp only [List.length_append, length_headBytes]; omega)
    (by rw [List.length_take]; omega)
  refine ⟨_, hp, ?_, ?_, h.small⟩
  · simp only [List.append_assoc]
  · rw [List.length_append, List.length_drop]
    omega

end Building

/-! ## `compact` -/

section Compact

variable {obj : Bool} {R : Holding E} {m pre body rest : Bytes} {size : Nat}

theorem sum_mod_four {ns : List Nat} (h : ∀ n ∈ ns, n % 4 = 0) : ns.sum % 4 = 0 := by
  induction ns with
  | nil => rfl
  | cons n ns ih =>
    have hn := h n (by simp)
    have := ih fun k hk => h k (by simp [hk])
    rw [List.sum_cons]
    omega

theorem Elements.aligned (hR : Movable obj R) {words : List Nat} {es : List (E × Nat)}
    (h : Elements R body words es) : (es.map Prod.snd).sum % 4 = 0 := by
  apply sum_mod_four
  intro n hn
  obtain ⟨e, he, rfl⟩ := List.mem_map.mp hn
  obtain ⟨es₁, es₂, rfl⟩ := List.append_of_mem he
  obtain ⟨_, _, _, _, _, hw, -, -⟩ := h.split_cons
  exact hR.aligned hw

/-- The first loop of `compact`. -/
theorem Elements.collect_storage (hR : Movable obj R) {words : List Nat} {es : List (E × Nat)}
    (h : BaseAt m pre obj size body words rest) (hes : Elements R body words es) :
    collect (elementStorage m obj pre.length) 0 words.length = some (es.map Prod.snd) := by
  have hlen := List.Forall₂.length_eq hes
  rw [collect_eq_some]
  refine ⟨by rw [List.length_map, hlen], fun j hj => ?_⟩
  rw [List.length_map] at hj
  have hsplit : es = es.take j ++ es[j] :: es.drop (j + 1) := by
    rw [← List.drop_eq_getElem_cons hj, List.take_append_drop]
  obtain ⟨e, he⟩ : ∃ e, e = es[j] := ⟨_, rfl⟩
  rw [← he] at hsplit
  rw [hsplit] at hes
  obtain ⟨ws₁, w, ws₂, rfl, hws, hw, -, -⟩ := hes.split_cons
  have := hR.storage h hw
  rw [hws, List.length_take, Nat.min_eq_left (by omega)] at this
  rw [Nat.zero_add, this, List.getElem_map, he]

/-- The second loop of `compact`: by induction on the elements that are left. -/
theorem compactLoop_spec (hR : Movable obj R) {pre' new nbody gap hole : Bytes} {size' len t : Nat}
    {ws₁ ws₂ nws : List Nat} {es₁ es₂ : List (E × Nat)}
    (h : BaseAt m pre obj size body (ws₁ ++ ws₂) rest) (hes : Elements R body ws₂ es₂)
    (hb : Building new pre' obj size' len t nbody gap nws hole)
    (hnew : Elements R nbody nws es₁) (hnws : nws.length = ws₁.length)
    (hlt : ∀ w ∈ nws, w < 2 ^ 32) (hpre : pre'.length = pre.length)
    (hgap : (es₂.map Prod.snd).sum = gap.length) (hhole : hole.length = 4 * ws₂.length) :
    ∃ new' nbody' nws', compactLoop m obj pre.length ws₁.length ws₂.length new (12 + nbody.length) =
        some (new', 12 + nbody'.length) ∧
      Building new' pre' obj size' len t nbody' [] nws' [] ∧ Elements R nbody' nws' (es₁ ++ es₂) ∧
      (∀ w ∈ nws', w < 2 ^ 32) ∧ nbody'.length = nbody.length + gap.length := by
  induction ws₂ generalizing ws₁ es₁ es₂ new nbody gap nws hole with
  | nil =>
    cases hes
    have hg : gap = [] := List.length_eq_zero_iff.mp hgap.symm
    have hh : hole = [] := List.length_eq_zero_iff.mp hhole
    subst hg hh
    refine ⟨new, nbody, nws, rfl, hb, ?_, hlt, rfl⟩
    rw [List.append_nil]
    exact hnew
  | cons w ws₂ ih =>
    obtain ⟨e, es, hw, hes', rfl⟩ := List.forall₂_cons_left_iff.mp hes
    rw [List.map_cons, List.sum_cons] at hgap
    rw [List.length_cons] at hhole
    obtain ⟨new', data, gap', w', hole', hturn, hdata, hgap', hhole', hw', hR', hb'⟩ :=
      hR.turn h hw hb hpre hnws (by omega) (by omega)
    have hsplit : ws₁ ++ w :: ws₂ = (ws₁ ++ [w]) ++ ws₂ := by simp
    rw [hsplit] at h
    have hnew' : Elements R (nbody ++ data) (nws ++ [w']) (es₁ ++ [e]) :=
      (hnew.imp (hR.append data)).append (.cons hR' .nil)
    obtain ⟨new'', nbody', nws', hloop, hb'', hall, hlt', hlen⟩ :=
      ih h hes' hb' hnew' (by rw [List.length_append, List.length_append, hnws]; rfl)
        (fun x hx => by
          rcases List.mem_append.mp hx with hx | hx
          · exact hlt x hx
          · rw [List.mem_singleton.mp hx]
            exact hw')
        (by omega) (by omega)
    refine ⟨new'', nbody', nws', ?_, hb'', ?_, hlt', ?_⟩
    · rw [List.length_append, List.length_singleton] at hloop
      rw [List.length_cons, compactLoop, hturn, Option.bind_eq_bind, Option.bind_some]
      exact hloop
    · rwa [List.append_assoc, List.singleton_append] at hall
    · rw [hlen, List.length_append]
      omega

/-- `compact` keeps the elements, in a block of the size that they use. The offset at which
the loop ends is that of the table. -/
theorem Content.compact_eq (fill : Nat → UInt8) {c : Nat} (hc : c ≠ 0) (hR : Movable obj R)
    {es : List (E × Nat)} (h : Content R m header obj size es) :
    ∃ new r size', r = (es.map Prod.snd).sum ∧ size' = 12 + r + 4 * es.length ∧ size' ≤ size ∧
      Libpdk.collect (elementStorage m obj root) 0 es.length = some (es.map Prod.snd) ∧
      compactLoop m obj root 0 es.length (compactBase fill obj r es.length) 12 =
        some (new, 12 + r) ∧
      Json.compact fill ⟨m, c⟩ = some ⟨new, 0⟩ ∧ tableOffset new root = some (12 + r) ∧
      new.length = root + size' ∧ Content R new header obj size' es := by
  obtain ⟨body, words, rest, hb, hes, hsum⟩ := h
  have hlen := List.Forall₂.length_eq hes
  have hlt := hb.length_lt
  have htab := hb.table
  obtain ⟨r, hr⟩ : ∃ r, r = (es.map Prod.snd).sum := ⟨_, rfl⟩
  have hmod : r % 4 = 0 := by
    rw [hr]
    exact hes.aligned hR
  have hsmall : r + 12 < 2 ^ 27 := by
    have := hb.small
    cases es with
    | nil =>
      rw [hr, List.map_nil, List.sum_nil]
      omega
    | cons e es =>
      rw [List.length_cons] at hlen
      omega
  have hmalloc : (malloc fill (r + 4 * words.length)).length = r + 4 * words.length := by
    rw [malloc, List.length_map, List.length_range]
  have hb₀ : Building (compactBase fill obj r words.length) header obj
      (12 + r + 4 * words.length) words.length (r + 12) []
      ((malloc fill (r + 4 * words.length)).take r) []
      ((malloc fill (r + 4 * words.length)).drop r) := by
    refine ⟨?_, ?_, by omega⟩
    · unfold compactBase headBytes
      simp only [List.append_assoc, List.nil_append, tableBytes_nil, List.append_nil,
        List.take_append_drop]
    · rw [List.length_take, hmalloc, List.length_nil]
      omega
  have hbase : BaseAt m header obj size body ([] ++ words) rest := hb
  obtain ⟨new, nbody, nws, hloop, hbuilt, hnew, hnlt, hnlen⟩ :=
    compactLoop_spec hR hbase hes hb₀ (show Elements R [] [] [] from .nil) rfl
      (fun _ h => by cases h) rfl
      (by rw [List.length_take, hmalloc]; omega) (by rw [List.length_drop, hmalloc]; omega)
  rw [List.nil_append] at hnew
  have hnws := List.Forall₂.length_eq hnew
  rw [List.length_nil, List.length_take, hmalloc, Nat.min_eq_left (Nat.le_add_right _ _),
    Nat.zero_add] at hnlen
  have hobj := hb.isObject
  have hwords := hb.baseLength
  have hsizes := Elements.collect_storage hR hb hes
  rw [length_header] at hobj hwords hsizes hloop
  rw [List.length_nil, List.length_nil, Nat.add_zero, hnlen] at hloop
  have hnb : BaseAt new header obj (12 + r + 4 * words.length) nbody nws [] := by
    refine ⟨?_, ?_, ?_, by omega, by omega, by omega, hnlt⟩
    · rw [hbuilt.eq, hbuilt.table]
      simp only [List.append_nil, List.length_nil, Nat.add_zero]
      rw [show words.length = nws.length by omega]
    · omega
    · rw [List.length_nil]
      omega
  have htable := hnb.tableOffset
  rw [length_header, hnlen] at htable
  have hlength := congrArg List.length hnb.eq
  simp only [List.length_append, length_headBytes, length_tableBytes, length_header,
    List.length_nil] at hlength
  rw [hlen] at hsizes hloop hnb
  refine ⟨new, r, _, hr, rfl, by omega, hsizes, hloop, ?_, htable, by omega, nbody, nws, [], hnb,
    hnew, by omega⟩
  rw [Json.compact, if_neg hc]
  rw [hlen] at hwords
  simp only [hobj, hwords, hsizes, ← hr, hloop, Option.bind_eq_bind, Option.bind_some]

end Compact

/-! ## The elements of an array -/

theorem withValue_lt (w v : Nat) : withValue w v < 2 ^ 32 := by
  unfold withValue
  omega

theorem withValue_mod (w v : Nat) : withValue w v % 32 = w % 32 := by
  unfold withValue
  omega

theorem wordValue_withValue {w v : Nat} (h : v < 2 ^ 27) : wordValue (withValue w v) = v := by
  unfold wordValue withValue
  omega

theorem Payload.congr {w w' : Nat} {data : Bytes} {v : Val} (h : Payload w data v)
    (hw : w' % 32 = w % 32) : Payload w' data v := by
  refine ⟨?_, h.aligned, h.pos, ?_, ?_, fun obj hobj => h.base obj ?_⟩
  · rw [← outOfLine_mod, hw, outOfLine_mod]
    exact h.out
  · rw [hw]
    exact h.used
  · rw [hw]
    exact h.reads
  · rw [← hobj, wordKind_congr hw]

theorem movable_stored : Movable false Stored where
  append x h := h.append x
  aligned h := h.aligned
  storage h hw := by
    unfold elementStorage
    rw [h.tableAt, Option.bind_eq_bind, Option.bind_some, if_neg Bool.false_ne_true]
    exact h.usedStorage hw
  turn := by
    intro m pre body rest new pre' nbody gap hole size size' len t ws ws' nws w n e h hw hb hpre hnws
      hgap hhole
    have ht := hb.table
    have hsmall := hb.small
    have hword := h.tableAt
    have hused := h.usedStorage hw
    unfold compactElement compactValue
    rw [if_neg Bool.false_ne_true, hword, Option.bind_eq_bind, Option.bind_some, hused,
      Option.bind_eq_bind, Option.bind_some]
    cases hw with
    | inline hout hv =>
      obtain ⟨new', hset, hb'⟩ := hb.setTableAt w hhole
      rw [hpre, hnws] at hset
      refine ⟨new', [], gap, w, hole.drop 4, ?_, rfl, rfl, ?_, h.words_lt w (by simp), ?_, ?_⟩
      · rw [if_pos rfl, hset, List.append_nil, Option.bind_some]
      · rw [List.length_drop]
        omega
      · exact .inline hout hv
      · rw [List.append_nil]
        exact hb'
    | data data hd h12 hp =>
      have hpos := hd.pos
      obtain ⟨new₁, hput, hb₁⟩ := hb.put data hgap
      obtain ⟨new', hset, hb'⟩ := hb₁.setTableAt (withValue w (12 + nbody.length)) hhole
      rw [hpre] at hput hset
      rw [hnws] at hset
      refine ⟨new', data, gap.drop data.length, withValue w (12 + nbody.length), hole.drop 4, ?_, rfl,
        ?_, ?_, withValue_lt _ _, ?_, hb'⟩
      · rw [if_neg (by omega), h.peek_body h12 hp, Option.bind_some, hput, Option.bind_some, hset,
          Option.bind_some, List.length_append, Nat.add_assoc]
      · rw [List.length_drop]
        omega
      · rw [List.length_drop]
        omega
      · exact .of_gap (hd.congr (withValue_mod _ _)) (wordValue_withValue (by omega))

end Libpdk.Json
