import Mathlib.Data.List.Forall2
import Libpdk.Settings.SettingsGroup

/-!
# Group nesting is balanced

What is open is followed without the prefix (`track`): the names, and the indices that were set. The
prefix is their text as long as indices are set where an array has a name (`inv_run`), so a block
whose calls are well nested leaves it as it was.
-/
namespace Libpdk.Settings.Groups

open Io (separator segments)

/-! ## Normalised keys -/

/-- Segments with a slash behind each. -/
def behind (segs : List Str) : Str := (segs.map (· ++ [separator])).flatten

theorem behind_concat (segs : List Str) (s : Str) :
    behind (segs ++ [s]) = behind segs ++ s ++ [separator] := by
  simp [behind]

theorem intercalate_concat (segs : List Str) (s : Str) :
    [separator].intercalate (segs ++ [s]) = behind segs ++ s := by
  induction segs with
  | nil => simp [behind]
  | cons t segs ih =>
    rw [List.cons_append, List.intercalate_cons_of_ne_nil (by simp), ih]
    simp [behind]

theorem dropLast_behind (segs : List Str) :
    (behind segs).dropLast = [separator].intercalate segs := by
  rcases List.eq_nil_or_concat' segs with rfl | ⟨segs, s, rfl⟩
  · rfl
  · rw [intercalate_concat, behind_concat, List.dropLast_concat]

theorem normalizeLoop_eq (rounds : Nat) (segs : List Str) (rest : Str)
    (hrounds : rest.length < rounds) : normalizeLoop rounds (behind segs) rest =
      [separator].intercalate (segs ++ segments rest) := by
  induction rounds generalizing segs rest with
  | zero => exact absurd hrounds (Nat.not_lt_zero _)
  | succ rounds ih =>
    have hskip : segments (rest.dropWhile (· = separator)) = segments rest :=
      Io.segments_dropWhile rest
    have hlength := (List.dropWhile_sublist (· = separator) (l := rest)).length_le
    have hhead := List.head?_dropWhile_not (· = separator) rest
    rw [normalizeLoop, ← hskip]
    generalize rest.dropWhile (· = separator) = rest' at hlength hhead ⊢
    cases hrest : rest' with
    | nil => rw [if_pos rfl, dropLast_behind, Io.segments_nil, List.append_nil]
    | cons c tail =>
      subst hrest
      have hc : c ≠ separator := by simpa using hhead
      have hnext : segments (c :: tail) = (c :: tail).takeWhile (· ≠ separator) ::
          segments ((c :: tail).dropWhile (· ≠ separator)) := Io.segments_next rfl hc
      have hbehind := (List.dropWhile_sublist (· ≠ separator) (l := c :: tail)).length_le
      have hslash := List.head?_dropWhile_not (· ≠ separator) (c :: tail)
      rw [if_neg (List.cons_ne_nil _ _), hnext]
      generalize (c :: tail).takeWhile (· ≠ separator) = word
      generalize (c :: tail).dropWhile (· ≠ separator) = rest' at hbehind hslash ⊢
      cases rest' with
      | nil => rw [if_pos rfl, Io.segments_nil, intercalate_concat]
      | cons d rest' =>
        obtain rfl : d = separator := by simpa using hslash
        have htail : segments (separator :: rest') = segments rest' := Io.segments_slash rest'
        rw [if_neg (List.cons_ne_nil _ _), ← behind_concat, List.tail_cons, htail,
          ih _ _ (by rw [List.length_cons] at hbehind; omega), List.append_assoc,
          List.singleton_append]

/-- The segments with one slash between them. -/
theorem normalizedKey_eq (key : Str) :
    normalizedKey key = [separator].intercalate (segments key) :=
  normalizeLoop_eq (key.length + 1) [] key (Nat.lt_succ_self _)

/-- The key of the size of an array. -/
theorem normalizedKey_size (p : Str) :
    normalizedKey (normalizedKey p ++ lit16 "/size") =
      (if normalizedKey p = [] then [] else normalizedKey p ++ [separator]) ++ lit16 "size" := by
  have hjoinable : Io.Joinable (segments p) := fun s hs => Io.mem_segments hs
  have hsize : segments (lit16 "size") = [lit16 "size"] := rfl
  have hsegments : segments (normalizedKey p ++ separator :: lit16 "size") =
      segments p ++ [lit16 "size"] := by
    have happend := Io.segments_append (normalizedKey p) (lit16 "size")
    rw [normalizedKey_eq p, Io.segments_intercalate hjoinable, hsize, ← normalizedKey_eq] at happend
    exact happend
  have hkey : normalizedKey p ++ lit16 "/size" = normalizedKey p ++ separator :: lit16 "size" := rfl
  rw [hkey, normalizedKey_eq (normalizedKey p ++ separator :: lit16 "size"), hsegments,
    intercalate_concat]
  congr 1
  rw [normalizedKey_eq]
  rcases List.eq_nil_or_concat' (segments p) with hnil | ⟨segs, s, hsegs⟩
  · rw [hnil]
    rfl
  · have hne : [separator].intercalate (segments p) ≠ [] := by
      rw [hsegs] at hjoinable ⊢
      exact Io.intercalate_ne_nil hjoinable (by simp)
    rw [if_neg hne, hsegs, behind_concat, intercalate_concat]

/-! ## What is open -/

/-- A group or an array that is open, with the indices that were set, the last one first. -/
structure Enclosing where
  name : Str
  array : Bool
  guess : Bool
  indices : List Nat

/-- One and the largest index. -/
def sizeOf (indices : List Nat) : Nat := indices.foldr (fun i n => max (i + 1) n) 0

def Enclosing.index (e : Enclosing) (i : Nat) : Enclosing :=
  if e.array then { e with indices := i :: e.indices } else e

/-- The name and the position, each followed by a slash. -/
def Enclosing.text (e : Enclosing) : Str :=
  (if e.name = [] then [] else e.name ++ [separator]) ++
    match e.indices with
    | [] => []
    | i :: _ => number (i + 1) ++ [separator]

/-- What a call opens and closes. -/
def track : List Enclosing → Call → List Enclosing
  | es, .beginGroup p => ⟨normalizedKey p, false, false, []⟩ :: es
  | es, .beginReadArray p => ⟨normalizedKey p, true, false, []⟩ :: es
  | es, .beginWriteArray p size => ⟨normalizedKey p, true, size < 0, []⟩ :: es
  | e :: es, .setArrayIndex i => e.index i :: es
  | [], .setArrayIndex _ => []
  | es, .endGroup => es.tail
  | es, .endArray => es.tail

/-- From the outermost to the innermost. -/
def prefixText (es : List Enclosing) : Str := (es.reverse.map Enclosing.text).flatten

theorem prefixText_cons (e : Enclosing) (es : List Enclosing) :
    prefixText (e :: es) = prefixText es ++ e.text := by
  simp [prefixText]

/-! ## Groups of the code -/

/-- The group that the code keeps for what is open. -/
structure Tracks (g : SettingsGroup) (e : Enclosing) : Prop where
  str : g.str = e.name
  num : g.num = if e.array then (match e.indices with | [] => 0 | i :: _ => (i + 1 : Int)) else -1
  maxNum : g.maxNum = if e.guess then (sizeOf e.indices : Int) else -1
  group : e.array = false → e.indices = []
  named : e.name = [] → e.indices = []

/-- The stack and the prefix are those of what is open. -/
structure Inv {S : Type} (st : State S) (es : List Enclosing) : Prop where
  stack : List.Forall₂ Tracks st.groupStack es
  text : st.groupPrefix = prefixText es

section

variable {g : SettingsGroup} {e : Enclosing}

theorem tracks_group (p : Str) :
    Tracks (.ofGroup (normalizedKey p)) ⟨normalizedKey p, false, false, []⟩ :=
  ⟨rfl, rfl, rfl, fun _ => rfl, fun _ => rfl⟩

theorem tracks_array (p : Str) (guess : Bool) :
    Tracks (.ofArray (normalizedKey p) guess) ⟨normalizedKey p, true, guess, []⟩ := by
  refine ⟨rfl, rfl, ?_, nofun, fun _ => rfl⟩
  cases guess <;> rfl

theorem Tracks.isArray (h : Tracks g e) : g.isArray = e.array := by
  rw [SettingsGroup.isArray, h.num]
  cases e.array with
  | false => rfl
  | true =>
    rw [if_pos rfl]
    cases e.indices with
    | nil => rfl
    | cons i indices =>
      have hi : (i + 1 : Int) ≠ -1 := by omega
      exact decide_eq_true hi

/-- What is on the prefix for a group. -/
theorem Tracks.text (h : Tracks g e) :
    e.text = if g.toString = [] then [] else g.toString ++ [separator] := by
  rw [Enclosing.text, SettingsGroup.toString, h.num, h.str]
  cases hindices : e.indices with
  | nil =>
    have hnum : ¬((if e.array then (0 : Int) else -1) > 0) := by
      split <;> decide
    rw [if_neg hnum, List.append_nil]
  | cons i indices =>
    have harray : e.array = true := by
      by_contra hgroup
      rw [h.group (by simpa using hgroup)] at hindices
      cases hindices
    have hname : e.name ≠ [] := by
      intro hnil
      rw [h.named hnil] at hindices
      cases hindices
    have hpos : ((i : Int) + 1) > 0 := by omega
    have hnat : ((i : Int) + 1).toNat = i + 1 := by omega
    rw [if_pos harray, if_pos hpos, hnat, if_neg hname, if_neg (by simp)]
    simp

theorem Tracks.index (h : Tracks g e) (harray : e.array = true) (hname : e.name ≠ []) (i : Nat) :
    Tracks (g.setArrayIndex i) (e.index i) := by
  have hindex : e.index i = { e with indices := i :: e.indices } := if_pos harray
  rw [hindex]
  refine ⟨h.str, ?_, ?_, fun hgroup => ?_, fun hnil => absurd hnil hname⟩
  · rw [if_pos harray]
    rfl
  · rw [SettingsGroup.setArrayIndex, h.maxNum]
    cases e.guess with
    | false => rfl
    | true =>
      simp only [if_true, sizeOf, List.foldr_cons]
      rw [← sizeOf]
      split <;> omega
  · rw [harray] at hgroup
    cases hgroup

end

/-! ## Steps -/

section

variable {S V : Type} (b : Backend S V) {st : State S} {es : List Enclosing}

theorem setValue_groups (key : Str) (value : V) :
    (setValue b st key value).groupStack = st.groupStack ∧
      (setValue b st key value).groupPrefix = st.groupPrefix := by
  rw [setValue]
  split
  · exact ⟨rfl, rfl⟩
  · exact ⟨rfl, rfl⟩

theorem Inv.setValue (h : Inv st es) (key : Str) (value : V) : Inv (setValue b st key value) es := by
  obtain ⟨hstack, hprefix⟩ := @setValue_groups _ _ b st key value
  exact ⟨hstack ▸ h.stack, hprefix.trans h.text⟩

theorem Inv.remove (h : Inv st es) (key : Str) : Inv (remove b st key) es := ⟨h.stack, h.text⟩

theorem Inv.begin {g : SettingsGroup} {e : Enclosing} (h : Inv st es) (hg : Tracks g e)
    (hindices : e.indices = []) : Inv (beginGroupOrArray st g) (e :: es) := by
  refine ⟨.cons hg h.stack, ?_⟩
  rw [prefixText_cons, ← h.text, Enclosing.text, hindices, List.append_nil, beginGroupOrArray]
  simp only [hg.str]
  split
  · rw [List.append_nil]
  · rw [List.append_assoc]

theorem truncate_append (s t : Str) (ht : t ≠ []) :
    truncate (s ++ t) ((s ++ t).length - t.length) = s := by
  have hpos := List.length_pos_iff.mpr ht
  have hlength : ((s ++ t).length : Int) - t.length = s.length := by
    rw [List.length_append]
    omega
  rw [truncate, hlength, if_pos (by rw [List.length_append]; omega), Int.toNat_natCast,
    List.take_left]

theorem Inv.pop {g : SettingsGroup} {e : Enclosing} (h : Inv st (e :: es)) (hg : Tracks g e) :
    Inv (popGroup st g) es := by
  obtain ⟨hstack, htext⟩ := h
  refine ⟨?_, ?_⟩
  · cases hstack' : st.groupStack with
    | nil =>
      rw [hstack'] at hstack
      cases hstack
    | cons top groups =>
      rw [hstack'] at hstack
      rw [popGroup, hstack', List.tail_cons]
      exact (List.forall₂_cons.mp hstack).2
  · rw [popGroup]
    simp only
    rw [htext, prefixText_cons, hg.text]
    by_cases hnil : g.toString = []
    · rw [if_pos hnil, hnil, List.append_nil, if_neg (by decide)]
    · have hpos := List.length_pos_iff.mpr hnil
      have hlength : (g.toString.length : Int) + 1 = (g.toString ++ [separator]).length := by
        rw [List.length_append]
        rfl
      rw [if_neg hnil, if_pos (by omega), hlength]
      exact truncate_append _ _ (by simp)

theorem replace_middle (s t t' u : Str) :
    replace (s ++ t ++ u) s.length t.length t' = s ++ t' ++ u := by
  have hle : ¬((s.length : Int) < 0 ∨ (s.length : Int) > (s ++ t ++ u).length) := by
    rw [List.length_append, List.length_append]
    omega
  have hmin : (min (t.length : Int) ((s ++ t ++ u).length - s.length)).toNat = t.length := by
    rw [List.length_append, List.length_append]
    omega
  have htake : (s ++ t ++ u).take s.length = s := by
    rw [List.append_assoc, List.take_left]
  have hdrop : (s ++ t ++ u).drop (s.length + t.length) = u := by
    rw [← List.length_append, List.drop_left]
  rw [replace, if_neg hle, hmin, Int.toNat_natCast, htake, hdrop]

theorem Inv.index {g : SettingsGroup} {groups : List SettingsGroup} {e : Enclosing}
    (h : Inv st (e :: es)) (hstack : st.groupStack = g :: groups) (harray : e.array = true)
    (hname : e.name ≠ []) (i : Nat) :
    Inv { st with
      groupStack := g.setArrayIndex i :: groups
      groupPrefix := replace st.groupPrefix (st.groupPrefix.length - g.toString.length - 1)
        g.toString.length (g.setArrayIndex i).toString } (e.index i :: es) := by
  obtain ⟨hgroups, htext⟩ := h
  rw [hstack] at hgroups
  obtain ⟨hg, hrest⟩ := List.forall₂_cons.mp hgroups
  have hg' := hg.index harray hname i
  have hne : ∀ {g : SettingsGroup} {e : Enclosing}, Tracks g e → e.name ≠ [] → g.toString ≠ [] := by
    intro g e hg hname
    rw [SettingsGroup.toString, hg.str]
    split
    · simp
    · exact hname
  have hname' : (e.index i).name ≠ [] := by
    have hsame : (e.index i).name = e.name := by
      rw [Enclosing.index, if_pos harray]
    rwa [hsame]
  refine ⟨.cons hg' hrest, ?_⟩
  simp only
  rw [htext, prefixText_cons, prefixText_cons, hg.text, hg'.text, if_neg (hne hg hname),
    if_neg (hne hg' hname'), ← List.append_assoc]
  have hpos : ((prefixText es ++ g.toString ++ [separator]).length : Int) - g.toString.length - 1 =
      (prefixText es).length := by
    rw [List.length_append, List.length_append, List.length_singleton]
    omega
  rw [hpos, replace_middle, List.append_assoc]

/-- Every call goes through, and keeps the stack and the prefix with what is open. -/
theorem inv_step (h : Inv st es) {c : Call} (hok : Indexable st c) :
    ∃ st', perform b st c = some st' ∧ Inv st' (track es c) := by
  have hend : ∀ {g : SettingsGroup} {groups : List SettingsGroup}, st.groupStack = g :: groups →
      Inv (popGroup st g) es.tail := by
    intro g groups hstack
    have hgroups := h.stack
    rw [hstack] at hgroups
    obtain ⟨e, es', hg, -, rfl⟩ := List.forall₂_cons_left_iff.mp hgroups
    exact h.pop hg
  have hempty : st.groupStack = [] → es = [] := by
    intro hnil
    have hgroups := h.stack
    rwa [hnil, List.forall₂_nil_left_iff] at hgroups
  cases c with
  | beginGroup p => exact ⟨_, rfl, h.begin (tracks_group p) rfl⟩
  | beginReadArray p => exact ⟨_, rfl, h.begin (tracks_array p false) rfl⟩
  | beginWriteArray p size =>
    refine ⟨_, rfl, ?_⟩
    have hbegin := h.begin (tracks_array p (size < 0)) rfl
    rw [beginWriteArray]
    split
    · exact hbegin.remove b _
    · exact hbegin.setValue b _ _
  | setArrayIndex i =>
    rw [perform, setArrayIndex]
    cases hstack : st.groupStack with
    | nil =>
      obtain rfl := hempty hstack
      exact ⟨st, rfl, h⟩
    | cons g groups =>
      have hgroups := h.stack
      rw [hstack] at hgroups
      obtain ⟨e, es', hg, -, rfl⟩ := List.forall₂_cons_left_iff.mp hgroups
      simp only [hg.isArray]
      cases harray : e.array with
      | false =>
        refine ⟨st, rfl, ?_⟩
        rw [track, Enclosing.index, harray]
        exact h
      | true =>
        rw [Indexable, hstack] at hok
        obtain ⟨hname, hfits⟩ := hok g rfl (hg.isArray.trans harray)
        rw [hg.str] at hname
        have hmax : max (i : Int) 0 = i := by omega
        rw [hmax, if_neg (by decide), if_pos (by omega)]
        exact ⟨_, rfl, h.index hstack harray hname i⟩
  | endGroup =>
    refine ⟨_, rfl, ?_⟩
    rw [endGroup]
    cases hstack : st.groupStack with
    | nil =>
      obtain rfl := hempty hstack
      exact h
    | cons g groups => exact hend hstack
  | endArray =>
    refine ⟨_, rfl, ?_⟩
    rw [endArray]
    cases hstack : st.groupStack with
    | nil =>
      obtain rfl := hempty hstack
      exact h
    | cons g groups =>
      simp only
      split
      · exact (hend hstack).setValue b _ _
      · exact hend hstack

theorem inv_run {s s' : State S} {calls : List Call}
    (hrun : ((groupSystem b).restrict Indexable).Run s calls s') (h : Inv s es) :
    Inv s' (calls.foldl track es) := by
  induction hrun generalizing es with
  | nil => exact h
  | cons hstep _ ih =>
    obtain ⟨hperform, hok⟩ := hstep
    obtain ⟨s₁, hs₁, hinv⟩ := inv_step b h hok
    obtain rfl : _ = s₁ := Option.some.inj (hperform.symm.trans hs₁)
    exact ih hinv

theorem inv_fresh (h : Fresh st) : Inv st [] := by
  refine ⟨?_, h.2⟩
  rw [h.1]
  exact .nil

end

/-! ## Well-nested calls -/

/-- Calls between a begin and its end; indices are those of the array that the calls are in. -/
inductive Nested : Bool → List Call → Prop
  | nil {array : Bool} : Nested array []
  | index (i : Nat) {rest : List Call} : Nested true rest → Nested true (.setArrayIndex i :: rest)
  | group (p : Str) {array : Bool} {body rest : List Call} : Nested false body → Nested array rest →
      Nested array (.beginGroup p :: (body ++ .endGroup :: rest))
  | readArray (p : Str) {array : Bool} {body rest : List Call} : Nested true body →
      Nested array rest → Nested array (.beginReadArray p :: (body ++ .endArray :: rest))
  | writeArray (p : Str) (size : Int) {array : Bool} {body rest : List Call} : Nested true body →
      Nested array rest → Nested array (.beginWriteArray p size :: (body ++ .endArray :: rest))

/-- What is open around calls stays open, and gets indices if it is an array. -/
def Balanced (array : Bool) (calls : List Call) : Prop :=
  (array = false → ∀ es, calls.foldl track es = es) ∧
    (array = true → ∀ e es, e.array = true →
      ∃ indices, calls.foldl track (e :: es) = { e with indices := indices } :: es)

theorem balanced_block {array : Bool} {begin' end' : Call} {body rest : List Call}
    (hblock : ∀ es, (body ++ end' :: rest).foldl track (track es begin') = rest.foldl track es)
    (hrest : Balanced array rest) : Balanced array (begin' :: (body ++ end' :: rest)) := by
  refine ⟨fun harray es => ?_, fun harray e es he => ?_⟩
  · rw [List.foldl_cons, hblock]
    exact hrest.1 harray es
  · rw [List.foldl_cons, hblock]
    exact hrest.2 harray e es he

theorem Nested.balanced {array : Bool} {calls : List Call} (h : Nested array calls) :
    Balanced array calls := by
  induction h with
  | nil => exact ⟨fun _ _ => rfl, fun _ e _ _ => ⟨e.indices, rfl⟩⟩
  | index i _ ih =>
    refine ⟨nofun, fun _ e es he => ?_⟩
    obtain ⟨indices, hfold⟩ := ih.2 rfl { e with indices := i :: e.indices } es he
    refine ⟨indices, ?_⟩
    rw [List.foldl_cons, track, Enclosing.index, if_pos he]
    exact hfold
  | group p _ _ hbody hrest =>
    refine balanced_block (fun es => ?_) hrest
    rw [List.foldl_append, hbody.1 rfl]
    rfl
  | readArray p _ _ hbody hrest =>
    refine balanced_block (fun es => ?_) hrest
    obtain ⟨indices, hfold⟩ := hbody.2 rfl ⟨normalizedKey p, true, false, []⟩ es rfl
    rw [List.foldl_append, track, hfold]
    rfl
  | writeArray p size _ _ hbody hrest =>
    refine balanced_block (fun es => ?_) hrest
    obtain ⟨indices, hfold⟩ := hbody.2 rfl ⟨normalizedKey p, true, size < 0, []⟩ es rfl
    rw [List.foldl_append, track, hfold]
    rfl

section

variable {S V : Type} (b : Backend S V)

/-- The end of an array whose size was left open. -/
theorem endArray_store {st : State S} {e : Enclosing} {es : List Enclosing} (h : Inv st (e :: es))
    {p : Str} (hname : e.name = normalizedKey p) (hguess : e.guess = true) :
    (endArray b st).store = b.set st.store (prefixText es ++
      ((if e.name = [] then [] else e.name ++ [separator]) ++ lit16 "size"))
        (b.ofInt (sizeOf e.indices)) := by
  have hgroups := h.stack
  rw [endArray]
  cases hstack : st.groupStack with
  | nil =>
    rw [hstack] at hgroups
    cases hgroups
  | cons g groups =>
    rw [hstack] at hgroups
    obtain ⟨hg, -⟩ := List.forall₂_cons.mp hgroups
    have hmax : g.maxNum = sizeOf e.indices := by
      rw [hg.maxNum, if_pos hguess]
    have hsize : (sizeOf e.indices : Int) ≠ -1 := by omega
    have hkey : normalizedKey p ++ lit16 "/size" ≠ [] := by simp [lit16]
    simp only [hmax, if_pos hsize]
    rw [setValue, hg.str, hname, if_neg hkey]
    simp only [actualKey, (h.pop hg).text, normalizedKey_size]
    rfl

/-- The prefix is the text of what is open. A block of well-nested calls leaves it as it was, and an
array whose size was left open gets one more than its largest index. -/
theorem groups_balanced {s₀ s₁ : State S} {calls : List Call} (hfresh : Fresh s₀)
    (hrun : ((groupSystem b).restrict Indexable).Run s₀ calls s₁) :
    s₁.groupPrefix = prefixText (calls.foldl track []) ∧
      (∀ c, Indexable s₁ c → ∃ s₂, perform b s₁ c = some s₂) ∧
      (∀ block s₂, Nested false block → ((groupSystem b).restrict Indexable).Run s₁ block s₂ →
        s₂.groupPrefix = s₁.groupPrefix) ∧
      ∀ p size body s₂ s₃, size < 0 → Nested true body →
        ((groupSystem b).restrict Indexable).Run s₁ (.beginWriteArray p size :: body) s₂ →
        perform b s₂ .endArray = some s₃ →
        ∃ indices, (Call.beginWriteArray p size :: body).foldl track (calls.foldl track []) =
            ⟨normalizedKey p, true, true, indices⟩ :: calls.foldl track [] ∧
          s₃.store = b.set s₂.store (s₁.groupPrefix ++
            ((if normalizedKey p = [] then [] else normalizedKey p ++ [separator]) ++ lit16 "size"))
            (b.ofInt (sizeOf indices)) := by
  have hinv := inv_run b hrun (inv_fresh hfresh)
  refine ⟨hinv.text, fun c hok => ?_, fun block s₂ hnested hblock => ?_, ?_⟩
  · obtain ⟨s₂, hs₂, -⟩ := inv_step b hinv hok
    exact ⟨s₂, hs₂⟩
  · rw [(inv_run b hblock hinv).text, hnested.balanced.1 rfl, hinv.text]
  · intro p size body s₂ s₃ hsize hnested hbody hend
    obtain ⟨indices, hfold⟩ := hnested.balanced.2 rfl ⟨normalizedKey p, true, size < 0, []⟩
      (calls.foldl track []) rfl
    have hopen : (Call.beginWriteArray p size :: body).foldl track (calls.foldl track []) =
        ⟨normalizedKey p, true, true, indices⟩ :: calls.foldl track [] := by
      rw [List.foldl_cons, track, hfold, decide_eq_true hsize]
    have hinv₂ := inv_run b hbody hinv
    rw [hopen] at hinv₂
    obtain rfl : endArray b s₂ = s₃ := Option.some.inj hend
    refine ⟨indices, hopen, ?_⟩
    rw [endArray_store b hinv₂ rfl rfl, hinv.text]

end

/-- Settings that keep the last value. -/
def lastValue : Backend (Str × Int) Int where
  set _ key value := (key, value)
  get _ _ := none
  remove s _ := s
  clear s := s
  ofInt n := n
  toInt v := v

def start : State (Str × Int) := ⟨[], [], ([], 0)⟩

theorem groups_balanced_array :
    let body : List Call := [.setArrayIndex 9, .beginGroup (lit16 "c"), .endGroup, .setArrayIndex 4]
    ∃ s₁ s₂ s₃, (Lts.exec (perform lastValue) start [.beginGroup (lit16 "/a/")] = some s₁) ∧
      Lts.exec (perform lastValue) s₁ (.beginWriteArray (lit16 "b") (-1) :: body) = some s₂ ∧
      s₂.groupPrefix = lit16 "a/b/5/" ∧ perform lastValue s₂ .endArray = some s₃ ∧
      s₁.groupPrefix = prefixText [⟨lit16 "a", false, false, []⟩] ∧
      s₃.store = (s₁.groupPrefix ++ lit16 "b/size", 10) := by
  intro body
  have hfirst : ((groupSystem lastValue).restrict Indexable).Run start [.beginGroup (lit16 "/a/")]
      ⟨[⟨lit16 "a", -1, -1⟩], lit16 "a/", ([], 0)⟩ := Lts.run_of_execOk rfl
  have hbody : ((groupSystem lastValue).restrict Indexable).Run
      ⟨[⟨lit16 "a", -1, -1⟩], lit16 "a/", ([], 0)⟩ (.beginWriteArray (lit16 "b") (-1) :: body)
      ⟨[⟨lit16 "b", 5, 10⟩, ⟨lit16 "a", -1, -1⟩], lit16 "a/b/5/", ([], 0)⟩ :=
    Lts.run_of_execOk rfl
  obtain ⟨htext, -, -, harray⟩ := groups_balanced lastValue ⟨rfl, rfl⟩ hfirst
  obtain ⟨indices, hopen, hstore⟩ := harray (lit16 "b") (-1) body _ _ (by decide)
    (.index 9 (.group (lit16 "c") .nil (.index 4 .nil))) hbody rfl
  obtain rfl : indices = [4, 9] := by
    injection hopen with hopen
    injection hopen with _ _ _ hindices
    exact hindices.symm
  exact ⟨_, _, _, rfl, rfl, rfl, rfl, htext, hstore⟩

/-- The position in an array without a name is taken off as if a slash were in front of it. -/
theorem unnamed_array :
    Nested false [.beginWriteArray [] (-1), .setArrayIndex 0, .endArray] ∧
      (Lts.exec (perform lastValue) start [.beginGroup (lit16 "g")]).map (·.groupPrefix) =
        some (lit16 "g/") ∧
      (Lts.exec (perform lastValue) start [.beginGroup (lit16 "g"), .beginWriteArray [] (-1),
        .setArrayIndex 0, .endArray]).map (·.groupPrefix) = some (lit16 "g") :=
  ⟨.writeArray [] (-1) (.index 0 .nil) .nil, rfl, rfl⟩

end Libpdk.Settings.Groups
