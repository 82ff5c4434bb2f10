import Libpdk.Io.Resource

/-!
# Lookup is exact

The binary search finds a node of the hash if there is one (`search_spec`), the scan from the
first of them sees all nodes of the name (`compares_spec`), and so each segment leads where the
tree does. What a mapping root is for, `findNode` does not do (`findNode_mapped`).
-/
namespace Libpdk.Io

open Mem

/-! ## Segments -/

theorem segments_nil : segments [] = [] := rfl

theorem segments_append (xs as : Str) :
    segments (xs ++ unit '/' :: as) = segments xs ++ segments as := by
  rw [segments, List.splitOn, List.splitOnP_append_cons xs as (by simp), List.filter_append]
  rfl

theorem segments_slash (rest : Str) : segments (unit '/' :: rest) = segments rest :=
  segments_append [] rest

theorem segments_word {xs : Str} (h : ∀ c ∈ xs, c ≠ unit '/') (hne : xs ≠ []) :
    segments xs = [xs] := by
  rw [segments, List.splitOn, List.splitOnP_eq_singleton (by simpa using h)]
  simp [hne]

theorem segments_dropWhile (rest : Str) :
    segments (rest.dropWhile (· = unit '/')) = segments rest := by
  induction rest with
  | nil => rfl
  | cons c rest ih =>
    by_cases hc : c = unit '/'
    · subst hc
      rw [segments_slash, ← ih, List.dropWhile_cons_of_pos (by simp)]
    · rw [List.dropWhile_cons_of_neg (by simpa using hc)]

/-- The splitter yields the segments, one after the other. -/
theorem segments_next {rest : Str} {c : UInt16} (h : rest.head? = some c) (hc : c ≠ unit '/') :
    segments rest = rest.takeWhile (· ≠ unit '/') :: segments (rest.dropWhile (· ≠ unit '/')) := by
  have hword : ∀ c ∈ rest.takeWhile (· ≠ unit '/'), c ≠ unit '/' := by
    intro c hmem
    have hall := List.all_takeWhile (p := fun c => decide (c ≠ unit '/')) (l := rest)
    simpa using List.all_eq_true.mp hall c hmem
  have hne : rest.takeWhile (· ≠ unit '/') ≠ [] := by
    cases rest with
    | nil => cases h
    | cons d rest =>
      cases h
      rw [List.takeWhile_cons_of_pos (by simpa using hc)]
      exact List.cons_ne_nil _ _
  have hsplit := List.takeWhile_append_dropWhile (p := (· ≠ unit '/')) (l := rest)
  generalize rest.takeWhile (· ≠ unit '/') = word at hword hne hsplit ⊢
  cases hrest : rest.dropWhile (· ≠ unit '/') with
  | nil =>
    rw [hrest, List.append_nil] at hsplit
    rw [← hsplit, segments_word hword hne, segments_nil]
  | cons d tail =>
    have hd : d = unit '/' := by
      have := List.head?_dropWhile_not (· ≠ unit '/') rest
      rw [hrest] at this
      simpa using this
    subst hd
    rw [hrest] at hsplit
    rw [← hsplit, segments_append, segments_word hword hne, segments_slash]
    rfl

/-! ## Reading the memory -/

section

variable {r : ResourceRoot} {hashOf : Str → UInt32} {t : ResourceTree}

theorem toInt32_of {n : Nat} (h : n < 2147483648) : toInt32 n = n := if_pos h

theorem fromBigEndian_of {m : Bytes} {i n v : Nat} (hm : m.length < 2147483648)
    (h : Lies m i (toBe n v)) (hv : v < 256 ^ n) (hn : 0 < n) :
    fromBigEndian n m i = some v := by
  have hbound := h.bound
  rw [length_toBe] at hbound
  rw [fromBigEndian, if_pos (by omega), Int.toNat_natCast, be_of_lies h hv]

/-- What is read of a node. -/
structure Read (r : ResourceRoot) (hashOf : Str → UInt32) (t : ResourceTree) (node : Nat) :
    Prop where
  hash : node ≠ 0 → r.hash node = some (hashOf (t.nameOf node)).toNat
  name : node ≠ 0 → r.getName node = some (t.nameOf node)
  flags : ∃ flags, fromBigEndian 2 r.tree (r.findOffset node + 4) = some flags ∧
    ResourceRoot.isDirectory flags = (t.kindOf node).isDirectory
  directory : ∀ childCount child, t.kindOf node = .directory childCount child →
    childCount < 2147483648 → child < 2147483648 →
      fromBigEndian 4 r.tree (r.findOffset node + 4 + 2) = some childCount ∧
        fromBigEndian 4 r.tree (r.findOffset node + 4 + 2 + 4) = some child
  file : ∀ country language, t.kindOf node = .file country language →
    fromBigEndian 2 r.tree (r.findOffset node + 4 + 2) = some country.toNat ∧
      fromBigEndian 2 r.tree (r.findOffset node + 4 + 2 + 2) = some language.toNat

theorem findOffset_nonneg (r : ResourceRoot) (node : Nat) :
    ∃ offset : Nat, r.findOffset node = offset := by
  rw [ResourceRoot.findOffset]
  split
  · exact ⟨node * 22, by omega⟩
  · exact ⟨node * 14, by omega⟩

theorem units_of_lies {m : Bytes} (hm : m.length < 2147483648) {name : Str} {i k : Nat}
    (h : Lies m (i + 2 * k) (name.flatMap fun c => toBe 2 c.toNat)) :
    collect (fun j => do
      let c ← fromBigEndian 2 m ((i : Int) + 2 * j)
      some (UInt16.ofNat c)) k name.length = some name := by
  induction name generalizing k with
  | nil => rfl
  | cons c name ih =>
    rw [List.flatMap_cons] at h
    have hright := h.right
    rw [length_toBe, show i + 2 * k + 2 = i + 2 * (k + 1) by omega] at hright
    have hc := c.toNat_lt
    have hread := fromBigEndian_of hm h.left (by omega) (by decide)
    rw [show ((i + 2 * k : Nat) : Int) = (i : Int) + 2 * (k : Nat) by omega] at hread
    have hunit : (do
        let c ← fromBigEndian 2 m ((i : Int) + 2 * (k : Nat))
        some (UInt16.ofNat c)) = some c := by
      rw [hread, Option.bind_eq_bind, Option.bind_some, UInt16.ofNat_toNat]
    rw [List.length_cons, collect, hunit, ih hright]
    rfl

theorem read_of (h : Encodes r hashOf t) {node : Nat} (hn : node < t.size) :
    Read r hashOf t node := by
  obtain ⟨nameOffset, flags, hoffset, hflags, hdir, hrecord, hnamed⟩ := h.stored node hn
  obtain ⟨offset, ho⟩ := findOffset_nonneg r node
  rw [ho, Int.toNat_natCast] at hrecord
  have hname := fromBigEndian_of h.tree_length hrecord.left (by omega) (by decide)
  have hrest := hrecord.right
  rw [length_toBe] at hrest
  have hkind := hrest.right
  rw [length_toBe] at hkind
  have hnode (hne : node ≠ 0) : (node : Int) ≠ 0 := by omega
  refine ⟨fun hne => ?_, fun hne => ?_, ⟨flags, ?_, hdir⟩, fun count child hk hc hc' => ?_,
    fun country language hk => ?_⟩
  · have hbytes := (hnamed hne).2.right
    rw [length_toBe] at hbytes
    have hhash := (hashOf (t.nameOf node)).toNat_lt
    rw [ResourceRoot.hash, if_neg (hnode hne), ho]
    simp only [hname, Option.bind_eq_bind, Option.bind_some, toInt32_of hoffset]
    exact fromBigEndian_of h.names_length hbytes.left (by omega) (by decide)
  · obtain ⟨hlength, hbytes⟩ := hnamed hne
    have hunits := hbytes.right.right
    rw [length_toBe, length_toBe] at hunits
    have hlen := fromBigEndian_of h.names_length hbytes.left (by omega) (by decide)
    rw [ResourceRoot.getName, if_neg (hnode hne), ho]
    simp only [hname, Option.bind_eq_bind, Option.bind_some, toInt32_of hoffset, hlen]
    rw [show (toInt16 (t.entry node).name.length).toNat = (t.entry node).name.length by
      rw [toInt16, if_pos hlength, Int.toNat_natCast]]
    have := units_of_lies (k := 0) h.names_length hunits
    rwa [show ((nameOffset + 2 + 4 : Nat) : Int) = (nameOffset : Int) + 2 + 4 by omega] at this
  · rw [ho]
    exact fromBigEndian_of h.tree_length hrest.left (by omega) (by decide)
  · have hk : (t.entry node).kind = .directory count child := hk
    rw [hk, Kind.bytes] at hkind
    have hchild := hkind.right
    rw [length_toBe] at hchild
    rw [ho]
    exact ⟨fromBigEndian_of h.tree_length hkind.left (by omega) (by decide),
      fromBigEndian_of h.tree_length hchild (by omega) (by decide)⟩
  · have hk : (t.entry node).kind = .file country language := hk
    rw [hk, Kind.bytes] at hkind
    have hlanguage := hkind.right
    rw [length_toBe] at hlanguage
    have hc := country.toNat_lt
    have hl := language.toNat_lt
    rw [ho]
    exact ⟨fromBigEndian_of h.tree_length hkind.left (by omega) (by decide),
      fromBigEndian_of h.tree_length hlanguage (by omega) (by decide)⟩

/-! ## The binary search -/

theorem half (l u : Nat) : ((l : Int) + u + 1).tdiv 2 = ((l + u + 1) / 2 : Nat) := by
  rw [Int.tdiv_eq_ediv_of_nonneg (by omega)]
  omega

/-- A node of the hash is found if there is one: it stays between the bounds. -/
theorem search_spec {count child h : Nat} {H : Nat → Nat}
    (hread : ∀ i < count, r.hash ((child : Int) + i) = some (H i))
    (hsorted : ∀ i j, i ≤ j → j < count → H i ≤ H j) (fuel l u : Nat) (hlu : l ≤ u)
    (hu : u < count) (hfuel : u - l < fuel) (hin : ∀ i < count, H i = h → l ≤ i ∧ i ≤ u) :
    ∃ s < count, r.search h child fuel l u ((l + u + 1) / 2 : Nat) = some (s : Int) ∧
      ((∃ i < count, H i = h) → H s = h) := by
  induction fuel generalizing l u with
  | zero => omega
  | succ fuel ih =>
    obtain ⟨s, hs⟩ : ∃ s, s = (l + u + 1) / 2 := ⟨_, rfl⟩
    rw [← hs, ResourceRoot.search]
    by_cases heq : u = l
    · subst heq
      rw [if_neg (by simp)]
      refine ⟨s, by omega, rfl, fun ⟨i, hi, hh⟩ => ?_⟩
      have := hin i hi hh
      rwa [show s = i by omega]
    · rw [if_pos (by omega), hread s (by omega)]
      simp only [Option.bind_eq_bind, Option.bind_some]
      by_cases hhit : h = H s
      · rw [if_pos hhit]
        exact ⟨s, by omega, rfl, fun _ => hhit.symm⟩
      · rw [if_neg hhit]
        by_cases hless : h < H s
        · -- all that are left are before this one
          rw [if_pos hless, show (s : Int) - 1 = ((s - 1 : Nat) : Int) by omega, half]
          refine ih l (s - 1) (by omega) (by omega) (by omega) fun i hi hh => ?_
          have := hin i hi hh
          have hbefore : i < s := by
            by_contra hge
            have := hsorted s i (by omega) hi
            omega
          omega
        · rw [if_neg hless, half]
          refine ih s u (by omega) hu (by omega) fun i hi hh => ?_
          have := hin i hi hh
          have hbehind : s ≤ i := by
            by_contra hlt
            have := hsorted i s (by omega) (by omega)
            omega
          omega

/-- Back to the first node of the hash. -/
theorem backup_spec {child h : Nat} {H : Nat → Nat} (fuel s : Nat)
    (hread : ∀ i < s, r.hash ((child : Int) + i) = some (H i)) (hfuel : s < fuel) :
    ∃ b ≤ s, r.backup h child fuel ((child : Int) + s) = some ((child : Int) + b) ∧
      (∀ i, b ≤ i → i < s → H i = h) ∧ (0 < b → H (b - 1) ≠ h) := by
  induction fuel generalizing s with
  | zero => omega
  | succ fuel ih =>
    rw [ResourceRoot.backup]
    by_cases hs : 0 < s
    · rw [if_pos (by omega), show (child : Int) + s - 1 = (child : Int) + (s - 1 : Nat) by omega,
        hread (s - 1) (by omega)]
      simp only [Option.bind_eq_bind, Option.bind_some]
      by_cases hh : H (s - 1) = h
      · rw [if_pos hh]
        obtain ⟨b, hb, hrun, hall, hfirst⟩ := ih (s - 1) (fun i hi => hread i (by omega)) (by omega)
        refine ⟨b, by omega, hrun, fun i hbi his => ?_, hfirst⟩
        by_cases hlast : i = s - 1
        · rw [hlast, hh]
        · exact hall i hbi (by omega)
      · rw [if_neg hh]
        exact ⟨s, Nat.le_refl _, rfl, fun i hbi his => by omega, fun _ => hh⟩
    · rw [if_neg (by omega)]
      exact ⟨s, Nat.le_refl _, rfl, fun i hbi his => by omega, fun h => absurd h hs⟩

/-! ## The compares -/

open ResourceRoot (Compared)

/-- A file that is better than what was found. -/
def better (locale : Locale) (kind : Kind) (node : Int) : Bool :=
  kind.isLanguage locale || (kind.isC && node == -1)

/-- How the compares end that see these variants. -/
def outcome (t : ResourceTree) (locale : Locale) (more : Bool) : List Nat → Bool → Int → Compared
  | [], found, node => .through found node
  | v :: variants, _, node =>
    if more then
      match t.kindOf v with
      | .directory childCount child => .descend childCount child
      | .file .. => .answer (-1)
    else if (t.kindOf v).isDirectory || (t.kindOf v).isExact locale then .answer v
    else outcome t locale more variants true (if better locale (t.kindOf v) node then (v : Int) else node)

/-- What the numbers of directories are. -/
def Bounded (t : ResourceTree) (node : Nat) : Prop :=
  ∀ childCount child, t.kindOf node = .directory childCount child →
    childCount < 2147483648 ∧ child < 2147483648

theorem compareLocale_eq {v : Nat} (hread : Read r hashOf t v) (locale : Locale) (node : Int)
    (hfile : (t.kindOf v).isDirectory = false) :
    r.compareLocale locale (r.findOffset v + 4 + 2) v node =
      some ((t.kindOf v).isExact locale, if (t.kindOf v).isExact locale then node
        else if better locale (t.kindOf v) node then (v : Int) else node) := by
  have hfields := hread.file
  generalize t.kindOf v = kind at hfile hfields ⊢
  cases kind with
  | directory childCount child => cases hfile
  | file country language =>
    obtain ⟨hcountry, hlanguage⟩ := hfields country language rfl
    rw [ResourceRoot.compareLocale, hcountry, hlanguage]
    simp only [Option.bind_eq_bind, Option.bind_some, Kind.isExact, better, Kind.isLanguage,
      Kind.isC, Bool.and_eq_true, Bool.or_eq_true, decide_eq_true_eq, beq_iff_eq]
    by_cases hexact : toInt16 country.toNat = locale.country ∧
        toInt16 language.toNat = locale.language
    · simp [hexact]
    · have hfalse : (decide (toInt16 country.toNat = locale.country) &&
          decide (toInt16 language.toNat = locale.language)) = false := by
        rw [Bool.and_eq_false_iff, decide_eq_false_iff_not, decide_eq_false_iff_not]
        exact not_and_or.mp hexact
      simp only [if_neg hexact, hfalse, and_assoc]
      split <;> rfl

/-- The scan over the nodes from `sub` on. -/
theorem compares_spec {segment : Str} {h last : Nat} (hh : h = (hashOf segment).toNat)
    {locale : Locale} {more : Bool} (k sub fuel : Nat) (hlast : sub + k = last) (hfuel : k < fuel)
    (hread : ∀ j, sub ≤ j → j < last → 0 < j ∧ Read r hashOf t j ∧ Bounded t j)
    (hsorted : ∀ i j, sub ≤ i → i ≤ j → j < last →
      (hashOf (t.nameOf i)).toNat ≤ (hashOf (t.nameOf j)).toNat)
    (hfrom : ∀ j, sub ≤ j → j < last → h ≤ (hashOf (t.nameOf j)).toNat) (found : Bool)
    (node : Int) :
    r.compares locale h segment more last fuel sub found node =
      some (outcome t locale more
        ((List.range' sub k).filter fun j => t.nameOf j = segment) found node) := by
  induction k generalizing sub fuel found node with
  | zero =>
    cases fuel with
    | zero => omega
    | succ fuel =>
      rw [ResourceRoot.compares, if_neg (by omega)]
      rfl
  | succ k ih =>
    cases fuel with
    | zero => omega
    | succ fuel =>
      obtain ⟨hpos, hsub, hbounds⟩ := hread sub (Nat.le_refl _) (by omega)
      have hih (found : Bool) (node : Int) := ih (sub + 1) fuel (by omega) (by omega)
        (fun j hj => hread j (by omega)) (fun i j hi => hsorted i j (by omega))
        (fun j hj => hfrom j (by omega)) found node
      rw [show ((sub + 1 : Nat) : Int) = (sub : Int) + 1 by omega] at hih
      rw [ResourceRoot.compares, if_pos (by omega), hsub.hash (by omega), List.range'_succ]
      simp only [Option.bind_eq_bind, Option.bind_some]
      by_cases hhash : (hashOf (t.nameOf sub)).toNat = h
      · rw [if_pos hhash, hsub.name (by omega)]
        simp only [Option.bind_some]
        by_cases hname : t.nameOf sub = segment
        · obtain ⟨flags, hflags, hdir⟩ := hsub.flags
          rw [if_pos hname, hflags, List.filter_cons_of_pos (by simpa using hname), outcome]
          simp only [Option.bind_some, hdir]
          cases more with
          | true =>
            have hdirectory := hsub.directory
            unfold Bounded at hbounds
            generalize t.kindOf sub = kind at hdirectory hbounds ⊢
            cases kind with
            | file country language => rfl
            | directory childCount child =>
              obtain ⟨hcount, hchild⟩ := hbounds childCount child rfl
              obtain ⟨hreadCount, hreadChild⟩ := hdirectory childCount child rfl hcount hchild
              show (do
                let childCount ← fromBigEndian 4 r.tree (r.findOffset sub + 4 + 2)
                let child ← fromBigEndian 4 r.tree (r.findOffset sub + 4 + 2 + 4)
                some (Compared.descend (toInt32 childCount) (toInt32 child))) = _
              rw [hreadCount, hreadChild]
              show some (Compared.descend (toInt32 childCount) (toInt32 child)) = _
              rw [toInt32_of hcount, toInt32_of hchild]
              rfl
          | false =>
            cases hkind : (t.kindOf sub).isDirectory with
            | true => rfl
            | false =>
              have hcompare := compareLocale_eq hsub locale node hkind
              simp only [Bool.not_false, if_true, hcompare, Option.bind_some, Bool.false_or]
              cases hexact : (t.kindOf sub).isExact locale with
              | true => rfl
              | false => exact hih ..
        · rw [if_neg hname, List.filter_cons_of_neg (by simpa using hname), hih]
      · -- all that are left have a greater hash
        rw [if_neg hhash, List.filter_eq_nil_iff.mpr]
        · rfl
        · intro j hj hname
          have hname : t.nameOf j = segment := by simpa using hname
          have hj : sub ≤ j ∧ j < last := by
            rw [← List.range'_succ, List.mem_range'_1] at hj
            omega
          have := hsorted sub j (Nat.le_refl _) hj.1 hj.2
          have := hfrom sub (Nat.le_refl _) (by omega)
          rw [hname, ← hh] at *
          omega

/-! ## One segment -/

theorem size_lt (h : Encodes r hashOf t) : t.size < 2147483648 := by
  by_contra hge
  obtain ⟨nameOffset, flags, -, -, -, hrecord, -⟩ := h.stored (t.size - 1) (by omega)
  have hbound := hrecord.left.bound
  have hlength := h.tree_length
  have hoffset : (((t.size - 1 : Nat) : Int) * 14) ≤ r.findOffset ((t.size - 1 : Nat) : Int) := by
    rw [ResourceRoot.findOffset]
    split <;> omega
  omega

/-- What is known of the children of a directory. -/
theorem child_read (h : Encodes r hashOf t) (hwf : t.WellFormed hashOf) {d : Nat} (hd : d < t.size)
    {count child : Nat} (hk : t.kindOf d = .directory count child) {j : Nat} (hj : child ≤ j)
    (hj' : j < child + count) : 0 < j ∧ Read r hashOf t j ∧ Bounded t j := by
  obtain ⟨hpos, hin⟩ := hwf.inside d hd count child hk
  have hsize := size_lt h
  refine ⟨by omega, read_of h (by omega), fun count' child' hk' => ?_⟩
  obtain ⟨-, hin'⟩ := hwf.inside j (by omega) count' child' hk'
  omega

theorem child_sorted (hwf : t.WellFormed hashOf) {d : Nat} (hd : d < t.size) {count child : Nat}
    (hk : t.kindOf d = .directory count child) {i j : Nat} (hi : child ≤ i) (hij : i ≤ j)
    (hj : j < child + count) :
    (hashOf (t.nameOf i)).toNat ≤ (hashOf (t.nameOf j)).toNat := by
  have hpairwise := hwf.sorted d hd
  rw [ResourceTree.children, hk] at hpairwise
  rcases Nat.lt_or_eq_of_le hij with hlt | rfl
  · have := List.pairwise_iff_getElem.mp hpairwise (i - child) (j - child)
      (by rw [List.length_range']; omega) (by rw [List.length_range']; omega) (by omega)
    rw [List.getElem_range', List.getElem_range', UInt32.le_iff_toNat_le] at this
    rwa [show child + 1 * (i - child) = i by omega, show child + 1 * (j - child) = j by omega]
      at this
  · exact Nat.le_refl _

/-- All variants of the segment are seen. -/
theorem findSegment_spec (h : Encodes r hashOf t) (hwf : t.WellFormed hashOf) {d : Nat}
    (hd : d < t.size) {count child : Nat} (hk : t.kindOf d = .directory count child)
    (hcount : 0 < count) (locale : Locale) (segment : Str) (more : Bool) (node : Int) :
    r.findSegment locale hashOf segment more count child node =
      some (outcome t locale more (t.named d segment) false node) := by
  obtain ⟨hash, hhash⟩ : ∃ hash, hash = (hashOf segment).toNat := ⟨_, rfl⟩
  have hread := fun j (hj : child ≤ j) => child_read h hwf hd hk hj
  have hsorted := fun i j (hi : child ≤ i) (hij : i ≤ j) => child_sorted hwf hd hk hi hij
  have hreadAt : ∀ i < count, r.hash ((child : Int) + i) =
      some (hashOf (t.nameOf (child + i))).toNat := fun i hi => by
    have hj := hread (child + i) (by omega) (by omega)
    exact hj.2.1.hash (by omega)
  obtain ⟨s, hs, hsearch, hhit⟩ := search_spec (h := hash) hreadAt
    (fun i j hij hj => hsorted (child + i) (child + j) (by omega) (by omega) (by omega))
    (count + 1) 0 (count - 1) (by omega) (by omega) (by omega) (fun i hi _ => by omega)
  have hnamed : t.named d segment =
      (List.range' child count).filter fun j => t.nameOf j = segment := by
    rw [ResourceTree.named, ResourceTree.children, hk]
  have hhalf : ((0 : Int) + ((count : Int) - 1) + 1).tdiv 2 = ((0 + (count - 1) + 1) / 2 : Nat) := by
    rw [show (0 : Int) + ((count : Int) - 1) + 1 = ((0 : Nat) : Int) + ((count - 1 : Nat) : Int) + 1
      by omega, half]
  rw [ResourceRoot.findSegment, ← hhash, hhalf, Int.toNat_natCast,
    show (count : Int) - 1 = ((count - 1 : Nat) : Int) by omega]
  have hsearch : r.search hash child (count + 1) 0 ((count - 1 : Nat) : Int)
      ((0 + (count - 1) + 1) / 2 : Nat) = some (s : Int) := hsearch
  simp only [hsearch, Option.bind_eq_bind, Option.bind_some]
  rw [show (s : Int) + child = (child : Int) + s by omega, hreadAt s hs]
  simp only [Option.bind_some]
  by_cases hfound : (hashOf (t.nameOf (child + s))).toNat = hash
  · obtain ⟨b, hb, hbackup, hrun, hfirst⟩ := backup_spec (h := hash) (count + 1) s
      (fun i hi => hreadAt i (by omega)) (by omega)
    rw [if_pos hfound, hbackup]
    simp only [Option.bind_some]
    -- nothing before the first one has the hash
    have hbefore : ∀ j, child ≤ j → j < child + b → t.nameOf j ≠ segment := by
      intro j hj hjb hname
      have hlast := hfirst (by omega)
      have hle := hsorted j (child + (b - 1)) hj (by omega) (by omega)
      have hle' := hsorted (child + (b - 1)) (child + s) (by omega) (by omega) (by omega)
      rw [hname, ← hhash] at hle
      omega
    have hsplit : List.range' child count =
        List.range' child b ++ List.range' (child + b) (count - b) := by
      rw [List.range'_append_1, show b + (count - b) = count by omega]
    rw [hnamed, hsplit, List.filter_append, List.filter_eq_nil_iff.mpr, List.nil_append]
    · have hfrom : ∀ j, child + b ≤ j → j < child + count →
          hash ≤ (hashOf (t.nameOf j)).toNat := by
        intro j hj hj'
        have hle := hsorted (child + b) j (by omega) hj hj'
        by_cases hbs : b = s
        · rw [hbs, hfound] at hle
          exact hle
        · have := hrun b (Nat.le_refl _) (by omega)
          omega
      exact compares_spec hhash (count - b) (child + b) (count + 1) (by omega) (by omega)
        (fun j hj => hread j (by omega)) (fun i j hi => hsorted i j (by omega)) hfrom false node
    · intro j hj
      rw [List.mem_range'_1] at hj
      simpa using hbefore j hj.1 hj.2
  · rw [if_neg hfound, hnamed, List.filter_eq_nil_iff.mpr]
    · rfl
    · intro j hj hname
      rw [List.mem_range'_1] at hj
      have hname : t.nameOf j = segment := by simpa using hname
      refine hfound (hhit ⟨j - child, by omega, ?_⟩)
      rw [show child + (j - child) = j by omega, hname, hhash]

/-! ## The last segment -/

/-- What files that were not the one leave. -/
def best (t : ResourceTree) (locale : Locale) (variants : List Nat) (node : Int) : Int :=
  match variants.reverse.find? fun v => (t.kindOf v).isLanguage locale with
  | some v => v
  | none => if node = -1 then asNode (variants.find? fun v => (t.kindOf v).isC) else node

theorem best_cons (locale : Locale) (v : Nat) (variants : List Nat) (node : Int) :
    best t locale variants (if better locale (t.kindOf v) node then (v : Int) else node) =
      best t locale (v :: variants) node := by
  unfold best
  rw [List.reverse_cons, List.find?_append, List.find?_cons, List.find?_nil]
  cases hrest : variants.reverse.find? fun v => (t.kindOf v).isLanguage locale with
  | some w => rfl
  | none =>
    cases hlanguage : (t.kindOf v).isLanguage locale with
    | true =>
      simp [better, hlanguage]
    | false =>
      cases hc : (t.kindOf v).isC with
      | true =>
        by_cases hnode : node = -1
        · simp [better, hlanguage, hc, hnode, asNode]
        · simp [better, hlanguage, hc, hnode]
      | false => simp [better, hlanguage, hc]

theorem outcome_files {locale : Locale} {variants : List Nat}
    (hfiles : ∀ v ∈ variants, (t.kindOf v).isDirectory = false) (found : Bool) (node : Int) :
    outcome t locale false variants found node =
      match variants.find? fun v => (t.kindOf v).isExact locale with
      | some v => .answer v
      | none => .through (found || !variants.isEmpty) (best t locale variants node) := by
  induction variants generalizing found node with
  | nil =>
    simp [outcome, best, asNode]
  | cons v variants ih =>
    rw [outcome, hfiles v List.mem_cons_self, List.find?_cons]
    cases hexact : (t.kindOf v).isExact locale with
    | true => rfl
    | false =>
      rw [Bool.or_self]
      simp only [Bool.false_eq_true, if_false]
      rw [ih (fun w hw => hfiles w (List.mem_cons_of_mem _ hw)), best_cons]
      simp

/-- A directory is the only node of its name. -/
theorem named_directory (hwf : t.WellFormed hashOf) {d : Nat} (hd : d < t.size) {segment : Str}
    {v : Nat} {variants : List Nat} (hnamed : t.named d segment = v :: variants) :
    (∀ w ∈ v :: variants, (t.kindOf w).isDirectory = false) ∨
      ((t.kindOf v).isDirectory = true ∧ variants = []) := by
  have hmem : ∀ w ∈ v :: variants, w ∈ t.children d ∧ t.nameOf w = segment := by
    intro w hw
    rw [← hnamed, ResourceTree.named, List.mem_filter] at hw
    exact ⟨hw.1, by simpa using hw.2⟩
  by_cases hdir : ∃ w ∈ v :: variants, (t.kindOf w).isDirectory = true
  · obtain ⟨w, hw, hwdir⟩ := hdir
    have hsame : ∀ u ∈ v :: variants, w = u := fun u hu =>
      hwf.alone d hd w (hmem w hw).1 u (hmem u hu).1 ((hmem w hw).2.trans (hmem u hu).2.symm) hwdir
    have hvw := hsame v List.mem_cons_self
    subst hvw
    refine .inr ⟨hwdir, ?_⟩
    have hnodup : (t.named d segment).Nodup := by
      rw [ResourceTree.named, ResourceTree.children]
      refine List.Pairwise.filter _ ?_
      split
      · exact List.nodup_range'
      · exact List.nodup_nil
    rw [hnamed, List.nodup_cons] at hnodup
    cases variants with
    | nil => rfl
    | cons u variants =>
      have := hsame u (by simp)
      subst this
      exact absurd List.mem_cons_self hnodup.1
  · refine .inl fun w hw => ?_
    rw [← Bool.not_eq_true]
    exact fun htrue => hdir ⟨w, hw, htrue⟩

theorem prefer_eq (locale : Locale) (variants : List Nat) :
    asNode (t.prefer locale variants) =
      match variants.find? fun v => (t.kindOf v).isExact locale with
      | some v => (v : Int)
      | none => best t locale variants (-1) := by
  unfold ResourceTree.prefer best asNode
  cases variants.find? fun v => (t.kindOf v).isExact locale with
  | some v => rfl
  | none =>
    cases variants.reverse.find? fun v => (t.kindOf v).isLanguage locale with
    | some v => rfl
    | none => simp

/-! ## Whole paths -/

theorem hasNext_iff (rest : Str) :
    (StringSplitter.hasNext ⟨rest⟩).1 = true ↔ segments rest ≠ [] := by
  rw [← segments_dropWhile rest]
  show (!(rest.dropWhile (· = unit '/')).isEmpty) = true ↔ _
  have hhead := List.head?_dropWhile_not (fun c => decide (c = unit '/')) rest
  cases hrest : rest.dropWhile (· = unit '/') with
  | nil => simp [segments_nil]
  | cons c tail =>
    rw [hrest] at hhead
    have hc : c ≠ unit '/' := by simpa using hhead
    rw [segments_next (c := c) rfl hc]
    simp

/-- What the splitter yields next, and what is left then. -/
theorem next_eq {rest : Str} {segment : Str} {more : List Str}
    (h : segments rest = segment :: more) :
    (StringSplitter.hasNext ⟨rest⟩).2.next.1 = segment ∧
      segments (StringSplitter.hasNext ⟨rest⟩).2.next.2.rest = more ∧
      (StringSplitter.hasNext ⟨rest⟩).2.next.2.rest.length < rest.length := by
  rw [← segments_dropWhile rest] at h
  show (rest.dropWhile (· = unit '/')).takeWhile (· ≠ unit '/') = segment ∧
    segments ((rest.dropWhile (· = unit '/')).dropWhile (· ≠ unit '/')) = more ∧
    ((rest.dropWhile (· = unit '/')).dropWhile (· ≠ unit '/')).length < rest.length
  have hhead := List.head?_dropWhile_not (fun c => decide (c = unit '/')) rest
  have hle := (List.dropWhile_sublist (fun c => decide (c = unit '/')) (l := rest)).length_le
  cases hrest : rest.dropWhile (· = unit '/') with
  | nil =>
    rw [hrest] at h
    cases h
  | cons c tail =>
    rw [hrest] at h hhead hle
    have hc : c ≠ unit '/' := by simpa using hhead
    rw [segments_next (c := c) rfl hc, List.cons.injEq] at h
    refine ⟨h.1, h.2, ?_⟩
    have hlt := (List.dropWhile_sublist (fun c => decide (c ≠ unit '/')) (l := tail)).length_le
    rw [List.dropWhile_cons_of_pos (by simpa using hc)]
    rw [List.length_cons] at hle
    omega

theorem iterate_done {locale : Locale} (fuel : Nat) (count child node : Int) {rest : Str}
    (h : segments rest = []) :
    r.iterate locale hashOf (fuel + 1) count child node ⟨rest⟩ = some node := by
  rw [ResourceRoot.iterate, if_neg]
  rintro ⟨-, hmore⟩
  exact (hasNext_iff rest).mp hmore h

/-- From a directory on, the path leads where the tree does. -/
theorem iterate_spec (h : Encodes r hashOf t) (hwf : t.WellFormed hashOf) (locale : Locale)
    (fuel : Nat) {d : Nat} (hd : d < t.size) {count child : Nat}
    (hk : t.kindOf d = .directory count child) {rest : Str} (hfuel : rest.length < fuel) :
    r.iterate locale hashOf fuel count child (-1) ⟨rest⟩ =
      some (asNode (t.resolve locale d (segments rest))) := by
  induction fuel generalizing d count child rest with
  | zero => omega
  | succ fuel ih =>
    cases hsegments : segments rest with
    | nil =>
      rw [iterate_done fuel count child (-1) hsegments]
      rfl
    | cons segment more =>
      obtain ⟨hsegment, hmore, hlt⟩ := next_eq hsegments
      by_cases hcount : count = 0
      · -- an empty directory
        subst hcount
        have hnamed : t.named d segment = [] := by
          rw [ResourceTree.named, ResourceTree.children, hk]
          rfl
        rw [ResourceRoot.iterate, if_neg (by simp)]
        cases more with
        | nil => rw [ResourceTree.resolve, hnamed]; rfl
        | cons next more => rw [ResourceTree.resolve, hnamed]; rfl
      have hhas : (StringSplitter.hasNext ⟨rest⟩).1 = true :=
        (hasNext_iff rest).mpr (by rw [hsegments]; exact List.cons_ne_nil _ _)
      have hflag : (StringSplitter.hasNext ⟨rest⟩).2.next.2.hasNext.1 = !more.isEmpty := by
        rw [Bool.eq_iff_iff, hasNext_iff, hmore]
        cases more <;> simp
      rw [ResourceRoot.iterate, if_pos ⟨by omega, hhas⟩]
      simp only [hsegment, hflag, findSegment_spec h hwf hd hk (by omega : 0 < count),
        Option.bind_eq_bind, Option.bind_some]
      cases hnamed : t.named d segment with
      | nil =>
        cases more with
        | nil => rw [ResourceTree.resolve, hnamed]; rfl
        | cons next more => rw [ResourceTree.resolve, hnamed]; rfl
      | cons v variants =>
        have hchild : v ∈ t.children d := by
          have hv : v ∈ t.named d segment := by rw [hnamed]; exact List.mem_cons_self
          exact (List.mem_filter.mp hv).1
        rcases named_directory hwf hd hnamed with hfiles | ⟨hdir, rfl⟩
        · have hno : t.directoryOf (v :: variants) = none := by
            rw [ResourceTree.directoryOf, List.find?_eq_none]
            intro w hw
            rw [hfiles w hw]
            simp
          cases more with
          | nil =>
            have hresolve : t.resolve locale d [segment] = t.prefer locale (v :: variants) := by
              rw [ResourceTree.resolve, hnamed, hno, Option.none_or]
            rw [hresolve, prefer_eq, List.isEmpty_nil, Bool.not_true, outcome_files hfiles]
            cases (v :: variants).find? fun v => (t.kindOf v).isExact locale with
            | some w => rfl
            | none =>
              obtain ⟨left, hleft⟩ : ∃ left, fuel = left + 1 := ⟨fuel - 1, by omega⟩
              rw [hleft]
              exact iterate_done left count child _ hmore
          | cons next more =>
            have hv := hfiles v List.mem_cons_self
            rw [ResourceTree.resolve, hnamed, hno, outcome]
            cases hkind : t.kindOf v with
            | directory => rw [hkind] at hv; cases hv
            | file => rfl
        · have hdirectory : t.directoryOf [v] = some v := by
            rw [ResourceTree.directoryOf, List.find?_cons, hdir]
          cases more with
          | nil =>
            rw [ResourceTree.resolve, hnamed, hdirectory, outcome, hdir]
            rfl
          | cons next more =>
            have hv : v < t.size := by
              obtain ⟨-, hin⟩ := hwf.inside d hd count child hk
              rw [ResourceTree.children, hk, List.mem_range'_1] at hchild
              omega
            rw [ResourceTree.resolve, hnamed, hdirectory, Option.bind_some, outcome]
            cases hkind : t.kindOf v with
            | file => rw [hkind] at hdir; cases hdir
            | directory count' child' =>
              have hrest := ih hv hkind
                (show (StringSplitter.hasNext ⟨rest⟩).2.next.2.rest.length < fuel by omega)
              rw [hmore] at hrest
              exact hrest

/-- The node of a path is the one the tree has there. -/
theorem findNode_lookup (h : Encodes r hashOf t) (hwf : t.WellFormed hashOf) (path : Str)
    (locale : Locale) : r.findNode hashOf path locale = some (t.lookup locale path) := by
  rw [ResourceRoot.findNode, ResourceTree.lookup]
  by_cases hslash : path = [unit '/']
  · rw [if_pos hslash, if_pos hslash]
  · rw [if_neg hslash, if_neg hslash]
    obtain ⟨hsize, hroot⟩ := hwf.root
    cases hk : t.kindOf 0 with
    | file => rw [hk] at hroot; cases hroot
    | directory count child =>
      obtain ⟨hpos, hin⟩ := hwf.inside 0 hsize count child hk
      have hlt := size_lt h
      obtain ⟨hcount, hchild⟩ := (read_of h hsize).directory count child hk (by omega) (by omega)
      have hzero : r.findOffset ((0 : Nat) : Int) = 0 := by
        rw [ResourceRoot.findOffset]
        exact Int.zero_mul _
      rw [hzero] at hcount hchild
      have hcount : fromBigEndian 4 r.tree 6 = some count := hcount
      have hchild : fromBigEndian 4 r.tree 10 = some child := hchild
      simp only [hcount, hchild, Option.bind_eq_bind, Option.bind_some,
        toInt32_of (show count < 2147483648 by omega), toInt32_of (show child < 2147483648 by omega)]
      exact iterate_spec h hwf locale (path.length + 1) hsize hk (by omega)

/-! ## Each node has one path -/

/-- The names from a node up to the root. -/
inductive Under (t : ResourceTree) : List Str → Nat → Prop
  | root : Under t [] 0
  | child {names : List Str} {d i : Nat} : Under t names d → d < t.size → i ∈ t.children d →
      Under t (t.nameOf i :: names) i

theorem child_inside (hwf : t.WellFormed hashOf) {d i : Nat} (hd : d < t.size)
    (hi : i ∈ t.children d) : 0 < i ∧ i < t.size := by
  rw [ResourceTree.children] at hi
  cases hk : t.kindOf d with
  | file => rw [hk] at hi; cases hi
  | directory count child =>
    rw [hk, List.mem_range'_1] at hi
    obtain ⟨hpos, hin⟩ := hwf.inside d hd count child hk
    omega

theorem Under.unique (hwf : t.WellFormed hashOf) {names names' : List Str} {i : Nat}
    (h : Under t names i) (h' : Under t names' i) : names = names' := by
  induction h generalizing names' with
  | root =>
    cases h' with
    | root => rfl
    | child _ hd hi => exact absurd (child_inside hwf hd hi).1 (Nat.lt_irrefl 0)
  | child _ hd hi ih =>
    cases h' with
    | root => exact absurd (child_inside hwf hd hi).1 (Nat.lt_irrefl 0)
    | child hup hd' hi' =>
      have hsame := hwf.apart _ hd _ hd' _ hi hi'
      subst hsame
      rw [ih hup]

theorem mem_of_directoryOf {variants : List Nat} {v : Nat} (h : t.directoryOf variants = some v) :
    v ∈ variants := List.mem_of_find?_eq_some h

theorem mem_of_prefer {locale : Locale} {variants : List Nat} {v : Nat}
    (h : t.prefer locale variants = some v) : v ∈ variants := by
  rw [ResourceTree.prefer, Option.or_eq_some_iff, Option.or_eq_some_iff] at h
  rcases h with h | ⟨-, h | ⟨-, h⟩⟩
  · exact List.mem_of_find?_eq_some h
  · exact List.mem_reverse.mp (List.mem_of_find?_eq_some h)
  · exact List.mem_of_find?_eq_some h

theorem Under.named {names : List Str} {d i : Nat} {segment : Str} (h : Under t names d)
    (hd : d < t.size) (hi : i ∈ t.named d segment) : Under t (segment :: names) i := by
  obtain ⟨hchild, hname⟩ := List.mem_filter.mp hi
  have hname : t.nameOf i = segment := by simpa using hname
  rw [← hname]
  exact .child h hd hchild

/-- The path of a node that is found consists of the segments. -/
theorem Under.resolve (hwf : t.WellFormed hashOf) {locale : Locale} {path names : List Str}
    {d i : Nat} (h : Under t names d) (hd : d < t.size)
    (hresolve : t.resolve locale d path = some i) : Under t (path.reverse ++ names) i := by
  induction path generalizing d names with
  | nil => cases hresolve
  | cons segment path ih =>
    cases path with
    | nil =>
      rw [ResourceTree.resolve, Option.or_eq_some_iff] at hresolve
      rcases hresolve with hfound | ⟨-, hfound⟩
      · exact h.named hd (mem_of_directoryOf hfound)
      · exact h.named hd (mem_of_prefer hfound)
    | cons next path =>
      rw [ResourceTree.resolve, Option.bind_eq_some_iff] at hresolve
      obtain ⟨v, hfound, hresolve⟩ := hresolve
      have hv := mem_of_directoryOf hfound
      have hunder := h.named hd hv
      have hsize := (child_inside hwf hd (List.mem_filter.mp hv).1).2
      rw [List.reverse_cons, List.append_assoc]
      exact ih hunder hsize hresolve

theorem resolve_ne_zero (hwf : t.WellFormed hashOf) {locale : Locale} {path : List Str} :
    t.resolve locale 0 path ≠ some 0 := by
  intro hresolve
  have hunder := Under.root.resolve hwf hwf.root.1 hresolve
  have hnil := hunder.unique hwf .root
  cases path with
  | nil => cases hresolve
  | cons segment path => simp at hnil

/-- Another path leads to another node, or there is none at both of them. -/
theorem resolve_same_iff (hwf : t.WellFormed hashOf) {locale : Locale} {path path' : List Str} :
    t.resolve locale 0 path = t.resolve locale 0 path' ↔ path = path' ∨
      (t.resolve locale 0 path = none ∧ t.resolve locale 0 path' = none) := by
  constructor
  · intro hsame
    cases hfound : t.resolve locale 0 path with
    | none => exact .inr ⟨rfl, by rw [← hsame, hfound]⟩
    | some i =>
      have hunder := Under.root.resolve hwf hwf.root.1 hfound
      have hunder' := Under.root.resolve hwf hwf.root.1 (hsame ▸ hfound)
      have heq := hunder.unique hwf hunder'
      simp only [List.append_nil, List.reverse_inj] at heq
      exact .inl heq
  · rintro (rfl | ⟨hnone, hnone'⟩)
    · rfl
    · rw [hnone, hnone']

theorem asNode_inj {n n' : Option Nat} : asNode n = asNode n' ↔ n = n' := by
  cases n <;> cases n' <;> grind [asNode]

/-! ## Mapping roots -/

/-- The node at the path behind the mapping root is found where there is no mapping root, where
it has no segments, and where neither path leads to a node. -/
theorem findNode_mapped (h : Encodes r hashOf t) (hwf : t.WellFormed hashOf) (locale : Locale)
    (p : Str) :
    r.findNode hashOf (r.mappingRoot ++ unit '/' :: p) locale =
        some (t.lookup locale (unit '/' :: p)) ↔
      r.mappingRoot = [] ∨ (p ≠ [] ∧ (segments r.mappingRoot = [] ∨
        (t.lookup locale (r.mappingRoot ++ unit '/' :: p) = -1 ∧
          t.lookup locale (unit '/' :: p) = -1))) := by
  rw [findNode_lookup h hwf, Option.some_inj]
  by_cases hroot : r.mappingRoot = []
  · simp [hroot]
  simp only [hroot, false_or]
  have hlong : r.mappingRoot ++ unit '/' :: p ≠ [unit '/'] := by
    intro heq
    have hlength := congrArg List.length heq
    have := List.length_pos_of_ne_nil hroot
    simp only [List.length_append, List.length_cons, List.length_nil] at hlength
    omega
  have hmapped : t.lookup locale (r.mappingRoot ++ unit '/' :: p) =
      asNode (t.resolve locale 0 (segments r.mappingRoot ++ segments p)) := by
    rw [ResourceTree.lookup, if_neg hlong, segments_append]
  rw [hmapped]
  by_cases hp : p = []
  · -- the root is no child of a directory
    have hzero : t.lookup locale (unit '/' :: p) = asNode (some 0) := by
      rw [ResourceTree.lookup, hp, if_pos rfl]
      rfl
    rw [hzero, asNode_inj]
    simp [resolve_ne_zero hwf, hp]
  · have hlookup : t.lookup locale (unit '/' :: p) =
        asNode (t.resolve locale 0 (segments p)) := by
      rw [ResourceTree.lookup, if_neg (by simpa using hp), segments_slash]
    have hnone (n : Option Nat) : asNode n = -1 ↔ n = none := @asNode_inj n none
    rw [hlookup, asNode_inj, resolve_same_iff hwf, hnone, hnone]
    simp [hp]

end

/-! ## A root directory with one file -/

/-- The file "a", in any language of any country. -/
def oneFile : ResourceTree where
  size := 2
  entry
    | 0 => ⟨[], .directory 1 1⟩
    | _ => ⟨[unit 'a'], .file 0 1⟩

def oneFileRoot (mappingRoot : Str) : ResourceRoot where
  tree := [0, 0, 0, 0, 0, 2, 0, 0, 0, 1, 0, 0, 0, 1, 0, 0, 0, 0, 0, 0, 0, 0, 0, 1, 0, 0, 0, 0]
  names := [0, 1, 0, 0, 0, 7, 0, 97]
  version := 1
  mappingRoot

theorem oneFile_encodes (mappingRoot : Str) :
    Encodes (oneFileRoot mappingRoot) (fun _ => 7) oneFile where
  tree_length := by show 28 < 2147483648; omega
  names_length := by show 8 < 2147483648; omega
  stored := by
    intro node hnode
    have hnode : node < 2 := hnode
    obtain rfl | rfl : node = 0 ∨ node = 1 := by omega
    · refine ⟨0, 2, by omega, by omega, rfl, ⟨[], (oneFileRoot []).tree.drop 14, rfl, rfl⟩, ?_⟩
      exact fun h => absurd rfl h
    · refine ⟨0, 0, by omega, by omega, rfl,
        ⟨(oneFileRoot []).tree.take 14, (oneFileRoot []).tree.drop 24, rfl, rfl⟩, fun _ => ?_⟩
      exact ⟨by decide, [], [], rfl, rfl⟩

theorem oneFile_wellFormed : oneFile.WellFormed fun _ => 7 where
  root := ⟨by decide, rfl⟩
  inside := by
    intro d hd count child hk
    have hd : d < 2 := hd
    obtain rfl | rfl : d = 0 ∨ d = 1 := by omega
    · cases hk
      decide
    · cases hk
  sorted := fun d _ => List.pairwise_of_forall fun _ _ => UInt32.le_refl _
  apart := by
    intro d hd d' hd' i hi hi'
    have hd : d < 2 := hd
    have hd' : d' < 2 := hd'
    obtain rfl | rfl : d = 0 ∨ d = 1 := by omega
    · obtain rfl | rfl : d' = 0 ∨ d' = 1 := by omega
      · rfl
      · cases hi'
    · cases hi
  alone := by
    intro d hd i hi j hj hname hdir
    have hd : d < 2 := hd
    obtain rfl | rfl : d = 0 ∨ d = 1 := by omega
    · obtain rfl := List.mem_singleton.mp hi
      cases hdir
    · cases hi

/-- Without a mapping root the file is found. -/
theorem findNode_mapped_oneFile :
    (oneFileRoot []).findNode (fun _ => 7) ([] ++ unit '/' :: [unit 'a']) ⟨49, 31⟩ =
      some (oneFile.lookup ⟨49, 31⟩ (unit '/' :: [unit 'a'])) :=
  (findNode_mapped (oneFile_encodes []) oneFile_wellFormed ⟨49, 31⟩ [unit 'a']).mpr (.inl rfl)

/-- The file of a resource that is registered under "/m" is not found. -/
theorem mapped_file_lost :
    ¬ ∀ (r : ResourceRoot) (hashOf : Str → UInt32) (t : ResourceTree), Encodes r hashOf t →
      t.WellFormed hashOf → ∀ (locale : Locale) (p : Str),
        r.findNode hashOf (r.mappingRoot ++ unit '/' :: p) locale =
          some (t.lookup locale (unit '/' :: p)) := by
  intro hall
  have hfound := hall (oneFileRoot [unit '/', unit 'm']) (fun _ => 7) oneFile
    (oneFile_encodes _) oneFile_wellFormed ⟨49, 31⟩ [unit 'a']
  revert hfound
  decide

end Libpdk.Io
