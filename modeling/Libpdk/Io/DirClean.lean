import Libpdk.Io.DirScan

/-!
# Cleaning is a normal form

`cleaned` is the text of where a path leads: the steps up that are left, and the names, with slashes
between them. It leads where the path does (`location_cleaned`) and is its own text.

What the buffer holds in the end is the normal form of the path, with its slash at the end if it had
one (`bufferText`); it is found in the path in the same order, so the buffer never overflows, and
where it is as long as the path it is the path. The cleaner returns the normal form, but for what
`String::fromUtf16` does to a byte order mark in front.
-/
namespace Libpdk.Io.Dir

open Location (walk ofStep)

/-! ## Names -/

/-- A segment that is kept as it is. -/
structure IsName (s : Str) : Prop where
  nonempty : s ≠ []
  free : separator ∉ s
  notHere : s ≠ [dot]
  notUp : s ≠ [dot, dot]

theorem isName_location {p s : Str} (h : s ∈ (location p).names) : IsName s := by
  obtain ⟨seg, hmem, hstep⟩ := List.mem_map.mp (Location.mem_names_walk h)
  obtain ⟨hne, hfree⟩ := mem_segments hmem
  rw [segmentStep] at hstep
  split at hstep
  · cases hstep
  split at hstep
  · cases hstep
  obtain rfl : seg = s := by injection hstep
  exact ⟨hne, hfree, ‹_›, ‹_›⟩

/-! ## The text of a location -/

/-- The segments of a location. -/
def segmentsOf (l : Location Str) : List Str := List.replicate l.ups [dot, dot] ++ l.names

/-- The segments with slashes between them. -/
def joined (l : Location Str) : Str := [separator].intercalate (segmentsOf l)

/-- The text that `p` has in normal form. -/
def cleaned (p : Str) : Str :=
  if p.head? = some separator then separator :: joined (location p)
  else if location p = 1 then [dot]
  else joined (location p)

theorem joinable_segmentsOf {l : Location Str} (hl : ∀ s ∈ l.names, IsName s) :
    Joinable (segmentsOf l) := by
  intro s hs
  rcases List.mem_append.mp hs with hup | hname
  · rw [List.eq_of_mem_replicate hup]
    decide
  · exact ⟨(hl s hname).nonempty, (hl s hname).free⟩

theorem segmentsOf_eq_nil {l : Location Str} : segmentsOf l = [] ↔ l = 1 := by
  rw [segmentsOf, List.append_eq_nil_iff, List.replicate_eq_nil_iff, Location.ext_iff]
  rfl

theorem map_segmentStep {l : Location Str} (hl : ∀ s ∈ l.names, IsName s) :
    (segmentsOf l).map segmentStep = l.path := by
  have hup : segmentStep [dot, dot] = .up := rfl
  rw [segmentsOf, List.map_append, List.map_replicate, hup, Location.path]
  congr 1
  refine List.map_congr_left fun s hs => ?_
  rw [segmentStep, if_neg (hl s hs).notHere, if_neg (hl s hs).notUp]

section Joined

variable {segs : List Str}

theorem slashed_of_head {out : Str} (hne : out ≠ []) (hhead : out.head? ≠ some separator) :
    slashed out = separator :: out := if_pos ⟨hne, hhead⟩

theorem prepend_eq (h : Joinable segs) (hne : segs ≠ []) (out : Str) :
    prepend segs out = [separator].intercalate segs ++ slashed out := by
  induction segs with
  | nil => exact absurd rfl hne
  | cons s segs ih =>
    obtain ⟨hs, hrest⟩ := joinable_cons.mp h
    by_cases hnil : segs = []
    · subst hnil
      rw [prepend_singleton, List.intercalate_singleton]
    · have hne' := intercalate_ne_nil hrest hnil
      have hhead := head_intercalate hrest
      rw [prepend_cons, ih hrest hnil, List.intercalate_cons_of_ne_nil hnil, slashed_of_head]
      · simp
      · simp [hne']
      · rwa [List.head?_append_of_ne_nil _ hne']

end Joined

theorem joinable_location (p : Str) : Joinable (segmentsOf (location p)) :=
  joinable_segmentsOf fun _ => isName_location

/-- The text leads where the location is. -/
theorem location_joined {l : Location Str} (hl : ∀ s ∈ l.names, IsName s) :
    location (joined l) = l := by
  rw [location, joined, segments_intercalate (joinable_segmentsOf hl), map_segmentStep hl,
    Location.walk_path]

theorem location_cleaned (p : Str) : location (cleaned p) = location p := by
  have hjoined : location (joined (location p)) = location p :=
    location_joined fun _ => isName_location
  rw [cleaned]
  split
  · rw [location_slash, hjoined]
  split
  · exact Eq.symm ‹_›
  · exact hjoined

theorem joined_ne_nil {p : Str} (h : location p ≠ 1) : joined (location p) ≠ [] :=
  intercalate_ne_nil (joinable_location p) fun hnil => h (segmentsOf_eq_nil.mp hnil)

theorem joined_one : joined 1 = [] := rfl

theorem cleaned_ne_nil (p : Str) : cleaned p ≠ [] := by
  rw [cleaned]
  split
  · exact List.cons_ne_nil _ _
  split
  · exact List.cons_ne_nil _ _
  · exact joined_ne_nil ‹_›

/-- The text begins with a slash if the path does. -/
theorem head_cleaned (p : Str) :
    (cleaned p).head? = some separator ↔ p.head? = some separator := by
  rw [cleaned]
  split
  · exact iff_of_true rfl ‹_›
  split
  · exact iff_of_false (by decide) ‹_›
  · exact iff_of_false (head_intercalate (joinable_location p)) ‹_›

theorem cleaned_cleaned (p : Str) : cleaned (cleaned p) = cleaned p := by
  rw [cleaned, location_cleaned]
  simp only [head_cleaned]
  rw [cleaned]

/-! ## Normal forms -/

/-- What is between the slashes; the one that an absolute path begins with is not one of them. -/
def parts (p : Str) : List Str :=
  (if p.head? = some separator then p.tail else p).splitOn separator

/-- No segments that say nothing, no step up behind a name, and no slash at the end. -/
structure Normal (p : Str) : Prop where
  segment : p = [separator] ∨ p = [dot] ∨ ∀ s ∈ parts p, s ≠ [] ∧ s ≠ [dot]
  ups : (parts p).Pairwise fun s t => t = [dot, dot] → s = [dot, dot]
  slash : p = [separator] ∨ p.getLast? ≠ some separator

theorem parts_cleaned {p : Str} (h : location p ≠ 1) :
    parts (cleaned p) = segmentsOf (location p) := by
  have hsplit := splitOn_intercalate (joinable_location p) fun hnil => h (segmentsOf_eq_nil.mp hnil)
  rw [cleaned, if_neg h]
  split
  · exact hsplit
  · rw [parts, joined, if_neg (head_intercalate (joinable_location p))]
    exact hsplit

theorem pairwise_segmentsOf {l : Location Str} (hl : ∀ s ∈ l.names, IsName s) :
    (segmentsOf l).Pairwise fun s t => t = [dot, dot] → s = [dot, dot] := by
  refine List.pairwise_append.mpr ⟨?_, ?_, fun s hs t _ _ => List.eq_of_mem_replicate hs⟩
  · exact List.pairwise_of_forall_mem_list fun s hs _ _ _ => List.eq_of_mem_replicate hs
  · exact List.pairwise_of_forall_mem_list fun _ _ t ht hup => absurd hup (hl t ht).notUp

theorem normal_cleaned (p : Str) : Normal (cleaned p) := by
  by_cases h : location p = 1
  · have hcleaned : cleaned p = [separator] ∨ cleaned p = [dot] := by
      rw [cleaned, h, if_pos rfl]
      split
      · exact .inl rfl
      · exact .inr rfl
    rcases hcleaned with hslash | hdot
    · rw [hslash]
      exact ⟨.inl rfl, by simp [parts], .inl rfl⟩
    · rw [hdot]
      have hparts : parts [dot] = [[dot]] := rfl
      exact ⟨.inr (.inl rfl), by simp [hparts], .inr (by decide)⟩
  refine ⟨.inr (.inr ?_), ?_, ?_⟩
  · rw [parts_cleaned h]
    intro s hs
    refine ⟨(joinable_location p s hs).1, ?_⟩
    rcases List.mem_append.mp hs with hup | hname
    · rw [List.eq_of_mem_replicate hup]
      decide
    · exact (isName_location hname).notHere
  · rw [parts_cleaned h]
    exact pairwise_segmentsOf fun _ => isName_location
  · have hlast : (joined (location p)).getLast? ≠ some separator :=
      last_intercalate (joinable_location p)
    rw [cleaned, if_neg h]
    split
    · exact .inr (by rwa [List.getLast?_cons_of_ne_nil (joined_ne_nil h)])
    · exact .inr hlast

/-! ## The buffer -/

theorem rootLength_pos {name : Str} (h : name.head? = some separator) (allowUncPaths : Bool) :
    rootLength name allowUncPaths ≠ 0 := by
  rw [rootLength, if_pos h]
  split
  · split
    · exact Nat.succ_ne_zero _
    · cases name with
      | nil => cases h
      | cons c name => exact Nat.succ_ne_zero _
  · exact Nat.one_ne_zero

/-- The part of a path behind its root. -/
def behindRoot (name : Str) (allowUncPaths : Bool) : Str :=
  name.drop (rootLength name allowUncPaths)

/-- The slash that is written again. -/
def lastSlash (q : Str) : Str :=
  if 1 < q.length ∧ q.getLast? = some separator then [separator] else []

/-- What is behind the root in the end. -/
def writtenText (q : Str) : Str := prepend (segmentsOf (location q)) (lastSlash q)

/-- A root in front of it; where there is none, a dot stands for no segments. -/
def rootedText (root t : Str) : Str :=
  if root ≠ [] then root ++ (if t.head? = some separator then t.tail else t)
  else if t = [] ∨ t.head? = some separator then dot :: t
  else t

/-- What is in the buffer in the end. -/
def bufferText (name : Str) (allowUncPaths : Bool) : Str :=
  rootedText (name.take (rootLength name allowUncPaths))
    (writtenText (behindRoot name allowUncPaths))

theorem trailingSlash_spec {len : Nat} {q : Str} (hq : q.length ≤ len) :
    ∃ p, trailingSlash len q.reverse = some (p, lastSlash q) ∧
      location p.reverse = location q ∧ Room q p 0 (lastSlash q) := by
  rw [trailingSlash, lastSlash, List.length_reverse, List.head?_reverse]
  by_cases hlast : 1 < q.length ∧ q.getLast? = some separator
  · obtain ⟨front, rfl⟩ : ∃ front, q = front ++ [separator] := by
      obtain ⟨front, hfront⟩ := List.getLast?_eq_some_iff.mp hlast.2
      exact ⟨front, hfront⟩
    rw [if_pos hlast, if_pos hlast, List.reverse_append, List.reverse_singleton,
      List.singleton_append, List.tail_cons, put_eq (show 0 < len by simp at hq; omega)]
    refine ⟨front.reverse, rfl, ?_, ?_⟩
    · rw [List.reverse_reverse, location_append_slash]
    · have hslashed : slashed [separator] = [separator] := rfl
      rw [Room, List.reverse_reverse, List.replicate_zero]
      simp [prepend, hslashed]
  · rw [if_neg hlast, if_neg hlast]
    refine ⟨q.reverse, rfl, by rw [List.reverse_reverse], ?_⟩
    have hslashed : slashed [] = [] := rfl
    rw [Room, List.reverse_reverse, List.replicate_zero]
    simp [prepend, hslashed]

theorem writtenText_sublist (q : Str) : (writtenText q).Sublist q := by
  obtain ⟨p, -, hloc, hroom⟩ := trailingSlash_spec (q := q) (Nat.le_refl _)
  obtain ⟨l, hl, -, hwritten⟩ :=
    scanLoop_spec p.length (Nat.le_refl _) p (Nat.le_refl _) hroom
  have hone : (⟨0, []⟩ : Location Str) = 1 := rfl
  rw [hloc, hone, mul_one] at hl
  rw [Room, if_pos (by simp [segmentStart]), List.reverse_nil, List.nil_append] at hwritten
  rw [writtenText, segmentsOf, prepend_append, hl]
  exact hwritten

section

variable {root q : Str}

/-- Without a root, what is written does not begin with a slash as the path, so there is room. -/
theorem length_writtenText_lt (hne : q ≠ []) (hroot : q.head? ≠ some separator)
    (h : writtenText q = [] ∨ (writtenText q).head? = some separator) :
    (writtenText q).length < q.length := by
  refine Nat.lt_of_le_of_ne (writtenText_sublist q).length_le fun hlength => ?_
  have hsame := (writtenText_sublist q).eq_of_length hlength
  rw [hsame] at h
  exact h.elim hne hroot

theorem length_withoutSlash (t : Str) :
    (if t.head? = some separator then t.tail else t).length ≤ t.length := by
  split
  · rw [List.length_tail]
    exact Nat.sub_le _ _
  · exact Nat.le_refl _

theorem putRoot_eq (hne : root ++ q ≠ []) (hroot : root = [] → q.head? ≠ some separator) :
    putRoot (root ++ q).length root (writtenText q) = some (rootedText root (writtenText q)) := by
  rw [putRoot, rootedText]
  by_cases hnil : root = []
  · subst hnil
    simp only [ne_eq, not_true, if_false]
    by_cases hdot : writtenText q = [] ∨ (writtenText q).head? = some separator
    · rw [if_pos hdot, if_pos hdot]
      exact put_eq (length_writtenText_lt hne (hroot rfl) hdot)
    · rw [if_neg hdot, if_neg hdot]
  · rw [if_pos hnil, if_pos hnil]
    have hle := (writtenText_sublist q).length_le
    have hskip := length_withoutSlash (writtenText q)
    exact putAll_eq (by rw [List.length_append]; omega)

end

theorem root_spec (name : Str) (allowUncPaths : Bool) :
    name.take (rootLength name allowUncPaths) = [] →
      (behindRoot name allowUncPaths).head? ≠ some separator := by
  intro hroot
  rw [List.take_eq_nil_iff] at hroot
  rcases hroot with hzero | hnil
  · rw [behindRoot, hzero, List.drop_zero]
    exact fun hhead => rootLength_pos hhead allowUncPaths hzero
  · rw [behindRoot, hnil, List.drop_nil]
    exact nofun

/-- The buffer is long enough, and what it holds in the end is known. -/
theorem normalizeBuffer_eq {name : Str} (hne : name ≠ []) (allowUncPaths : Bool) :
    normalizeBuffer name allowUncPaths = some (bufferText name allowUncPaths,
      decide (rootLength name allowUncPaths = 0 ∨
        (location (behindRoot name allowUncPaths)).ups = 0)) := by
  have hname : name.take (rootLength name allowUncPaths) ++ behindRoot name allowUncPaths = name :=
    List.take_append_drop _ _
  have hlength : (behindRoot name allowUncPaths).length ≤ name.length := by
    rw [behindRoot, List.length_drop]
    exact Nat.sub_le _ _
  obtain ⟨p, hslash, hloc, hroom⟩ := trailingSlash_spec hlength
  obtain ⟨l, hl, hscan, hwritten⟩ := scanLoop_spec p.length hlength p (Nat.le_refl _) hroom
  have hone : (⟨0, []⟩ : Location Str) = 1 := rfl
  rw [hloc, hone, mul_one] at hl
  subst hl
  rw [Room, if_pos (by simp [segmentStart]), List.reverse_nil, List.nil_append] at hwritten
  have hups := addUps_eq (hwritten.length_le.trans hlength)
  rw [← prepend_append] at hups
  have hroot := putRoot_eq (by rwa [hname]) (root_spec name allowUncPaths)
  rw [hname] at hroot
  simp only [normalizeBuffer, Option.bind_eq_bind]
  rw [← behindRoot, hslash, Option.bind_some]
  simp only [hscan, Option.bind_some]
  rw [hups, Option.bind_some]
  exact congrArg (Option.bind · _) hroot

/-! ## The buffer in normal form -/

/-- Behind names there is room for the slash at the end. -/
theorem slashed_lastSlash (q : Str) : slashed (lastSlash q) = lastSlash q := by
  rw [lastSlash]
  split <;> rfl

theorem lastSlash_cases (q : Str) : lastSlash q = [] ∨ lastSlash q = [separator] := by
  rw [lastSlash]
  split
  · exact .inr rfl
  · exact .inl rfl

theorem last_of_lastSlash {q : Str} (h : lastSlash q = [separator]) :
    q.getLast? = some separator := by
  rw [lastSlash] at h
  split at h
  · exact And.right ‹_›
  · cases h

theorem writtenText_one {q : Str} (h : location q = 1) : writtenText q = lastSlash q := by
  rw [writtenText, segmentsOf_eq_nil.mpr h]
  rfl

theorem writtenText_ne_one {q : Str} (h : location q ≠ 1) :
    writtenText q = joined (location q) ++ lastSlash q := by
  rw [writtenText, prepend_eq (joinable_location q) fun hnil => h (segmentsOf_eq_nil.mp hnil),
    slashed_lastSlash]
  rfl

theorem head_writtenText {q : Str} (h : location q ≠ 1) :
    writtenText q ≠ [] ∧ (writtenText q).head? ≠ some separator := by
  have hne := joined_ne_nil h
  rw [writtenText_ne_one h, List.head?_append_of_ne_nil _ hne]
  exact ⟨by simp [hne], head_intercalate (joinable_location q)⟩

theorem bufferText_absolute (q : Str) :
    bufferText (separator :: q) false = rootedText [separator] (writtenText q) := rfl

theorem bufferText_relative {p : Str} (h : p.head? ≠ some separator) :
    bufferText p false = rootedText [] (writtenText p) := by
  have hzero : rootLength p false = 0 := by
    rw [rootLength, if_neg (by simp), if_neg h]
  rw [bufferText, behindRoot, hzero, List.take_zero, List.drop_zero]

theorem exists_absolute {p : Str} (h : p.head? = some separator) : ∃ q, p = separator :: q := by
  cases p with
  | nil => cases h
  | cons c q =>
    cases h
    exact ⟨q, rfl⟩

/-- The normal form, and perhaps the slash behind it that the path has. -/
theorem bufferText_eq (p : Str) :
    bufferText p false = cleaned p ∨ bufferText p false = cleaned p ++ [separator] ∧
      (cleaned p).getLast? ≠ some separator ∧ p.getLast? = some separator := by
  by_cases habs : p.head? = some separator
  · obtain ⟨q, rfl⟩ := exists_absolute habs
    rw [bufferText_absolute, rootedText, if_pos (List.cons_ne_nil _ _), cleaned, if_pos habs,
      location_slash]
    by_cases hone : location q = 1
    · rw [writtenText_one hone, hone, joined_one]
      refine .inl ?_
      rcases lastSlash_cases q with hlast | hlast <;> rw [hlast] <;> rfl
    · have hlast : (joined (location q)).getLast? ≠ some separator :=
        last_intercalate (joinable_location q)
      rw [if_neg (head_writtenText hone).2, writtenText_ne_one hone]
      rcases lastSlash_cases q with hslash | hslash
      · exact .inl (by rw [hslash, List.append_nil]; rfl)
      · exact .inr ⟨by rw [hslash]; rfl,
          by rwa [List.getLast?_cons_of_ne_nil (joined_ne_nil hone)],
          by rw [List.getLast?_cons, last_of_lastSlash hslash, Option.getD_some]⟩
  · rw [bufferText_relative habs, rootedText, if_neg (not_not.mpr rfl), cleaned, if_neg habs]
    by_cases hone : location p = 1
    · rw [writtenText_one hone, if_pos hone]
      rcases lastSlash_cases p with hlast | hlast
      · exact .inl (by rw [hlast]; rfl)
      · exact .inr ⟨by rw [hlast]; rfl, by decide, last_of_lastSlash hlast⟩
    · obtain ⟨hne, hhead⟩ := head_writtenText hone
      rw [if_neg (not_or.mpr ⟨hne, hhead⟩), if_neg hone, writtenText_ne_one hone]
      rcases lastSlash_cases p with hslash | hslash
      · exact .inl (by rw [hslash, List.append_nil])
      · exact .inr ⟨by rw [hslash], last_intercalate (joinable_location p),
          last_of_lastSlash hslash⟩

theorem location_unit {c : UInt16} (hc : c ≠ separator) (h : location [c] = 1) : c = dot := by
  by_contra hdot
  have hstep : segmentStep [c] = .down [c] := by
    rw [segmentStep, if_neg (by simpa using hdot), if_neg (by simp)]
  rw [location_segment (by simpa using hc.symm) (List.cons_ne_nil _ _), hstep] at h
  exact absurd (congrArg Location.names h) (List.cons_ne_nil _ _)

/-- A relative path of no segments that is as short as its normal form. -/
theorem shortest {p : Str} (habs : p.head? ≠ some separator) (hone : location p = 1)
    (hlength : (dot :: lastSlash p).length = p.length) : dot :: lastSlash p = p := by
  rcases lastSlash_cases p with hlast | hlast
  · rw [hlast] at hlength ⊢
    obtain ⟨c, rfl⟩ := List.length_eq_one_iff.mp hlength.symm
    rw [location_unit (by simpa using habs) hone]
  · rw [hlast] at hlength ⊢
    obtain ⟨c, d, rfl⟩ := List.length_eq_two.mp hlength.symm
    obtain rfl : d = separator := by
      by_contra hd
      rw [lastSlash, if_neg (by simpa using hd)] at hlast
      cases hlast
    have hunit : location ([c] ++ [separator]) = 1 := hone
    rw [location_append_slash] at hunit
    rw [location_unit (by simpa using habs) hunit]

theorem withoutSlash_sublist (t : Str) :
    (if t.head? = some separator then t.tail else t).Sublist t := by
  split
  · exact List.tail_sublist t
  · exact List.Sublist.refl t

/-- What is as long as the path is the path. -/
theorem bufferText_eq_of_length {p : Str} (h : (bufferText p false).length = p.length) :
    bufferText p false = p := by
  by_cases habs : p.head? = some separator
  · obtain ⟨q, rfl⟩ := exists_absolute habs
    rw [bufferText_absolute, rootedText, if_pos (List.cons_ne_nil _ _)] at h ⊢
    have hsub := (withoutSlash_sublist (writtenText q)).trans (writtenText_sublist q)
    exact (hsub.cons_cons separator).eq_of_length h
  · rw [bufferText_relative habs, rootedText, if_neg (not_not.mpr rfl)] at h ⊢
    by_cases hone : location p = 1
    · have hdot : writtenText p = [] ∨ (writtenText p).head? = some separator := by
        rw [writtenText_one hone]
        rcases lastSlash_cases p with hlast | hlast
        · exact .inl hlast
        · exact .inr (by rw [hlast]; rfl)
      rw [if_pos hdot, writtenText_one hone] at h ⊢
      exact shortest habs hone h
    · rw [if_neg (not_or.mpr (head_writtenText hone))] at h ⊢
      exact (writtenText_sublist p).eq_of_length h

/-! ## The cleaner -/

/-- Neither a byte order mark nor one in the other order. -/
def Unmarked (s : Str) : Prop :=
  ∀ c ∈ s.head?, c ≠ Codecs.Character.byteOrderMark ∧ c ≠ Codecs.Character.byteOrderSwapped

/-- The normal form begins with no byte order mark, or the path is not written anew. -/
def Kept (p : Str) : Prop := Unmarked (cleaned p) ∨ bufferText p false = p

theorem unmarked_bufferText {p : Str} (h : Unmarked (cleaned p)) : Unmarked (bufferText p false) := by
  rcases bufferText_eq p with heq | ⟨heq, -⟩
  · rwa [heq]
  · rwa [heq, Unmarked, List.head?_append_of_ne_nil _ (cleaned_ne_nil p)]

theorem rootLength_eq_zero {p : Str} : rootLength p false = 0 ↔ p.head? ≠ some separator := by
  rw [rootLength, if_neg (by simp)]
  split
  · exact iff_of_false Nat.one_ne_zero (not_not.mpr ‹_›)
  · exact iff_of_true rfl ‹_›

theorem location_behindRoot (p : Str) : location (behindRoot p false) = location p := by
  by_cases habs : p.head? = some separator
  · obtain ⟨q, rfl⟩ := exists_absolute habs
    exact (location_slash q).symm
  · rw [behindRoot, rootLength_eq_zero.mpr habs, List.drop_zero]

/-- The slash at the end is taken off. -/
theorem chop_bufferText (p : Str) :
    (if (bufferText p false).length > 1 ∧ (bufferText p false).getLast? = some separator then
      (bufferText p false).dropLast else bufferText p false) = cleaned p := by
  rcases bufferText_eq p with heq | ⟨heq, -⟩
  · rw [heq, if_neg]
    rintro ⟨hlength, hlast⟩
    rcases (normal_cleaned p).slash with hroot | hslash
    · rw [hroot] at hlength
      exact absurd hlength (by decide)
    · exact hslash hlast
  · have hpos := List.length_pos_iff.mpr (cleaned_ne_nil p)
    rw [heq, if_pos (by rw [List.length_append]; simpa using hpos), List.dropLast_concat]

/-- What is in normal form is not written anew. -/
theorem kept_cleaned (p : Str) : Kept (cleaned p) := by
  refine .inr ?_
  rcases bufferText_eq (cleaned p) with heq | ⟨-, hclean, hlast⟩
  · rw [heq, cleaned_cleaned]
  · rw [cleaned_cleaned] at hclean
    exact absurd hlast hclean

theorem kept_absolute {p : Str} (h : p.head? = some separator) : Kept p := by
  refine .inl fun c hc => ?_
  rw [(head_cleaned p).mpr h, Option.mem_some_iff] at hc
  rw [← hc]
  decide

section

variable [Host]

theorem fromUtf16_eq {s : Str} (h : Unmarked s) : fromUtf16 s = s := by
  cases s with
  | nil => rfl
  | cons c s =>
    obtain ⟨hmark, hswapped⟩ := h c rfl
    rw [fromUtf16, List.flatMap_cons]
    simp only [Codecs.Utf16.convertToUnicode, Incremental.run_append,
      Codecs.Utf16.run_put_first hmark hswapped,
      Codecs.Utf16.run_flatMap_put Codecs.Utf16.hostEndianness_ne, List.singleton_append]

theorem normalizePathSegments_eq {p : Str} (hne : p ≠ []) (hkept : Kept p) :
    normalizePathSegments p false = some (bufferText p false,
      decide (p.head? ≠ some separator ∨ (location p).ups = 0)) := by
  rw [normalizePathSegments, if_neg hne, normalizeBuffer_eq hne, location_behindRoot,
    Option.bind_eq_bind, Option.bind_some]
  simp only [rootLength_eq_zero]
  by_cases hlength : (bufferText p false).length = p.length
  · rw [if_pos hlength, bufferText_eq_of_length hlength]
  · have hmarks : Unmarked (cleaned p) :=
      hkept.resolve_right fun hsame => hlength (congrArg List.length hsame)
    rw [if_neg hlength, fromUtf16_eq (unmarked_bufferText hmarks)]

theorem cleanPathOk_eq {p : Str} (hne : p ≠ []) (hkept : Kept p) (ok : Bool) :
    cleanPathOk p ok = some (cleaned p,
      decide (p.head? ≠ some separator ∨ (location p).ups = 0)) := by
  rw [cleanPathOk, if_neg hne, normalizePathSegments_eq hne hkept, Option.bind_eq_bind,
    Option.bind_some]
  simp only [chop_bufferText]

theorem cleanPath_eq {p : Str} (hne : p ≠ []) (hkept : Kept p) : cleanPath p = some (cleaned p) := by
  rw [cleanPath, cleanPathOk_eq hne hkept, Option.map_some]

theorem cleanPath_absolute {p : Str} (h : p.head? = some separator) :
    cleanPath p = some (cleaned p) := by
  refine cleanPath_eq ?_ (kept_absolute h)
  rintro rfl
  cases h

/-- Whatever becomes of a mark in front, there is a path in the end, and `ok` is known. -/
theorem exists_cleanPathOk {p : Str} (hne : p ≠ []) : ∃ c, ∀ ok, cleanPathOk p ok =
    some (c, decide (p.head? ≠ some separator ∨ (location p).ups = 0)) := by
  obtain ⟨text, htext⟩ : ∃ text, normalizePathSegments p false = some (text,
      decide (p.head? ≠ some separator ∨ (location p).ups = 0)) := by
    rw [normalizePathSegments, if_neg hne, normalizeBuffer_eq hne, location_behindRoot,
      Option.bind_eq_bind, Option.bind_some]
    simp only [rootLength_eq_zero]
    exact ⟨_, rfl⟩
  refine ⟨if text.length > 1 ∧ text.getLast? = some separator then text.dropLast else text,
    fun ok => ?_⟩
  rw [cleanPathOk, if_neg hne, htext]
  rfl

/-- The cleaner never leaves its buffer, and `ok` says whether the path stays below the root. What
it returns leads where the path does, is in normal form, and is not changed by cleaning it again. A
byte order mark in front of a path that is written anew is the exception. -/
theorem cleanPath_normal {p : Str} (hne : p ≠ []) :
    (∀ allowUncPaths, (normalizePathSegments p allowUncPaths).isSome) ∧
      ∃ c ok, (∀ before, cleanPathOk p before = some (c, ok)) ∧
        (ok = false ↔ p.head? = some separator ∧ (location p).ups ≠ 0) ∧
        (Kept p → location c = location p ∧
          (c.head? = some separator ↔ p.head? = some separator) ∧ Normal c ∧
          cleanPath c = some c) := by
  refine ⟨fun allowUncPaths => ?_, ?_⟩
  · rw [normalizePathSegments, if_neg hne, normalizeBuffer_eq hne]
    rfl
  obtain ⟨c, hclean⟩ := exists_cleanPathOk hne
  refine ⟨c, _, hclean, by simp, fun hkept => ?_⟩
  have hsame := (hclean false).symm.trans (cleanPathOk_eq hne hkept false)
  obtain rfl : c = cleaned p := congrArg Prod.fst (Option.some.inj hsame)
  refine ⟨location_cleaned p, head_cleaned p, normal_cleaned p, ?_⟩
  rw [cleanPath_eq (cleaned_ne_nil p) (kept_cleaned p), cleaned_cleaned]

end

theorem cleanPath_normal_up : (lit16 "/a/../..") ≠ [] ∧
    ∃ c ok, (∀ before, @cleanPathOk ⟨.littleEndian⟩ (lit16 "/a/../..") before = some (c, ok)) ∧
      ok = false ∧ Kept (lit16 "/a/../..") ∧ location c = location (lit16 "/a/../..") := by
  have hne : lit16 "/a/../.." ≠ [] := by decide
  have hkept : Kept (lit16 "/a/../..") := kept_absolute (by decide)
  obtain ⟨-, c, ok, hclean, hok, hsame⟩ := @cleanPath_normal ⟨.littleEndian⟩ _ hne
  exact ⟨hne, c, ok, hclean, hok.mpr (by decide), hkept, (hsame hkept).1⟩

/-- A path without segments is a dot, which is one; and a byte order mark in front is lost. -/
theorem cleanPath_dot :
    (¬∀ p : Str, p ≠ [] → ∃ c, @cleanPath ⟨.littleEndian⟩ p = some c ∧ [dot] ∉ parts c) ∧
      @cleanPath ⟨.littleEndian⟩ (0xfeff :: lit16 "a//b") = some (lit16 "a/b") := by
  refine ⟨fun h => ?_, by decide⟩
  obtain ⟨c, hclean, hfree⟩ := h (lit16 "a/..") (by decide)
  have hdot : @cleanPath ⟨.littleEndian⟩ (lit16 "a/..") = some [dot] := by decide
  obtain rfl : [dot] = c := Option.some.inj (hdot.symm.trans hclean)
  exact hfree (by decide)

end Libpdk.Io.Dir
