import Libpdk.Io.DirClean

/-!
# Clean entries

`FileSystemEntry::isClean` reads a path once from its beginning. On an absolute path without a slash
at its end it tells the normal forms from the others (`cleanLoop_eq`), so that an entry which it
accepts may be taken as it is.
-/
namespace Libpdk.Io.Dir

section

open FileSystemEntry (cleanLoop)

/-! ## Segments -/

/-- A segment that the loop rejects at its end. -/
def IsDots (r : Str) : Prop := r = [dot] ∨ r = [dot, dot]

/-- Behind some other unit a segment is read to its end. -/
theorem cleanLoop_name {r rest : Str} {dots : Nat} (hr : separator ∉ r) (hrest : segmentStart rest)
    (hone : dots ≠ 1) (htwo : dots ≠ 2) :
    cleanLoop (r ++ rest) dots false true = cleanLoop rest 0 true true := by
  induction r with
  | nil =>
    rw [List.nil_append]
    cases rest with
    | nil => simp [cleanLoop, hone, htwo]
    | cons c p =>
      obtain rfl : c = separator := by simpa [segmentStart] using hrest
      simp [cleanLoop, hone, htwo]
  | cons c r ih =>
    obtain ⟨hc, hr'⟩ := free_cons hr
    rw [List.cons_append, cleanLoop, if_neg hc, if_neg Bool.false_ne_true, ih hr']

/-- The end of a segment of one or two dots. -/
theorem cleanLoop_dots {rest : Str} {dots : Nat} (hrest : segmentStart rest)
    (hdots : dots = 1 ∨ dots = 2) : cleanLoop rest dots true true = false := by
  cases rest with
  | nil =>
    rcases hdots with rfl | rfl <;> rfl
  | cons c p =>
    obtain rfl : c = separator := by simpa [segmentStart] using hrest
    rw [cleanLoop, if_pos rfl, if_pos hdots]

/-- A segment that is not empty. -/
theorem cleanLoop_segment {r rest : Str} {slashok : Bool} (hne : r ≠ []) (hr : separator ∉ r)
    (hrest : segmentStart rest) :
    (IsDots r → cleanLoop (r ++ rest) 0 true slashok = false) ∧
      (¬IsDots r → cleanLoop (r ++ rest) 0 true slashok = cleanLoop rest 0 true true) := by
  obtain ⟨c, r, rfl⟩ := List.exists_cons_of_ne_nil hne
  obtain ⟨hc, hr₁⟩ := free_cons hr
  rw [List.cons_append, cleanLoop, if_neg hc, if_pos rfl]
  by_cases hdot : c = dot
  swap
  · rw [if_neg hdot]
    refine ⟨fun h => ?_, fun _ => cleanLoop_name hr₁ hrest (by decide) (by decide)⟩
    rcases h with h | h <;> exact absurd (List.cons.inj h).1 hdot
  rw [if_pos hdot]
  cases r with
  | nil =>
    refine ⟨fun _ => cleanLoop_dots hrest (.inl rfl), fun h => absurd (.inl ?_) h⟩
    rw [hdot]
  | cons d r =>
    obtain ⟨hd, hr₂⟩ := free_cons hr₁
    rw [List.cons_append, cleanLoop, if_neg hd, if_pos (by decide)]
    by_cases hdot' : d = dot
    swap
    · rw [if_neg hdot']
      refine ⟨fun h => ?_, fun _ => cleanLoop_name hr₂ hrest (by decide) (by decide)⟩
      rcases h with h | h
      · cases (List.cons.inj h).2
      · exact absurd (List.cons.inj (List.cons.inj h).2).1 hdot'
    rw [if_pos hdot']
    cases r with
    | nil =>
      refine ⟨fun _ => cleanLoop_dots hrest (.inr rfl), fun h => absurd (.inr ?_) h⟩
      rw [hdot, hdot']
    | cons e r =>
      obtain ⟨he, hr₃⟩ := free_cons hr₂
      refine ⟨fun h => ?_, fun _ => ?_⟩
      · rcases h with h | h <;> simp at h
      rw [List.cons_append, cleanLoop, if_neg he, if_pos (by decide)]
      -- three dots, or another unit behind two
      by_cases hdot'' : e = dot
      · rw [if_pos hdot'']
        exact cleanLoop_name hr₃ hrest (by decide) (by decide)
      · rw [if_neg hdot'']
        exact cleanLoop_name hr₃ hrest (by decide) (by decide)

/-! ## Paths -/

theorem isName_iff {s : Str} (hs : separator ∉ s) : IsName s ↔ s ≠ [] ∧ ¬IsDots s :=
  ⟨fun h => ⟨h.nonempty, not_or.mpr ⟨h.notHere, h.notUp⟩⟩,
    fun h => ⟨h.1, hs, (not_or.mp h.2).1, (not_or.mp h.2).2⟩⟩

/-- Behind a slash, a path without a slash at its end is clean if it consists of names. -/
theorem cleanLoop_eq (n : Nat) (q : Str) (hn : q.length ≤ n) (hne : q ≠ [])
    (hlast : q.getLast? ≠ some separator) :
    cleanLoop q 0 true false = true ↔ ∀ s ∈ q.splitOn separator, IsName s := by
  induction n generalizing q with
  | zero => exact absurd (List.length_eq_zero_iff.mp (Nat.le_zero.mp hn)) hne
  | succ n ih =>
    obtain ⟨r, rest, rfl, hr, hrest⟩ := exists_segment q
    by_cases hnil : r = []
    · subst hnil
      rw [List.nil_append] at *
      obtain ⟨c, p, rfl⟩ := List.exists_cons_of_ne_nil hne
      obtain rfl : c = separator := by simpa [segmentStart] using hrest
      refine iff_of_false (by simp [cleanLoop]) fun h => ?_
      have hempty : [] ∈ (separator :: p).splitOn separator := by
        rw [List.splitOn_cons_eq_if_modifyHead, if_pos (by simp)]
        exact List.mem_cons_self
      exact (h [] hempty).nonempty rfl
    obtain ⟨hdots, hname⟩ := @cleanLoop_segment r rest false hnil hr hrest
    have hsegment : IsName r ↔ ¬IsDots r :=
      (isName_iff hr).trans ⟨And.right, fun h => ⟨hnil, h⟩⟩
    have hhead : cleanLoop (r ++ rest) 0 true false = true ↔
        IsName r ∧ cleanLoop rest 0 true true = true := by
      rw [hsegment]
      by_cases h : IsDots r
      · rw [hdots h]
        exact iff_of_false Bool.false_ne_true fun hboth => hboth.1 h
      · rw [hname h]
        exact (and_iff_right h).symm
    rw [hhead]
    cases rest with
    | nil =>
      rw [List.append_nil, List.splitOn_eq_singleton hr, List.forall_mem_singleton]
      exact and_iff_left rfl
    | cons c p =>
      obtain rfl : c = separator := by simpa [segmentStart] using hrest
      have hp : p ≠ [] := by
        rintro rfl
        exact hlast (by rw [List.getLast?_concat])
      have hlast' : p.getLast? ≠ some separator := by
        rwa [List.getLast?_append_of_ne_nil _ (List.cons_ne_nil _ _),
          List.getLast?_cons_of_ne_nil hp] at hlast
      rw [List.splitOn_append_cons_self_of_not_mem hr, List.forall_mem_cons]
      refine and_congr_right fun _ => ?_
      rw [← ih p (by simp at hn; omega) hp hlast']
      rfl

/-- The normal forms of absolute paths that do not climb consist of names. -/
theorem cleaned_eq_iff {q : Str} (hne : q ≠ []) (hups : (location q).ups = 0) :
    cleaned (separator :: q) = separator :: q ↔ ∀ s ∈ q.splitOn separator, IsName s := by
  have habs : (separator :: q).head? = some separator := rfl
  have hparts : parts (separator :: q) = q.splitOn separator := rfl
  constructor
  · intro hclean
    have hone : location (separator :: q) ≠ 1 := by
      intro hone
      rw [cleaned, if_pos habs, hone, joined_one] at hclean
      exact hne (List.cons.inj hclean).2.symm
    have hsegments := parts_cleaned hone
    rw [hclean, hparts, location_slash, segmentsOf, hups, List.replicate_zero,
      List.nil_append] at hsegments
    rw [hsegments]
    exact fun s => isName_location
  · intro hnames
    have hall : segments q = q.splitOn separator :=
      List.filter_eq_self.mpr fun s hs => by simpa using (hnames s hs).nonempty
    have hloc : location q = ⟨0, q.splitOn separator⟩ := by
      have hsteps := map_segmentStep (l := ⟨0, q.splitOn separator⟩) hnames
      rw [segmentsOf, List.replicate_zero, List.nil_append] at hsteps
      rw [location, hall, hsteps, Location.walk_path]
    rw [cleaned, if_pos habs, location_slash, hloc, joined, segmentsOf, List.replicate_zero,
      List.nil_append, List.intercalate_splitOn]

/-! ## Entries -/

section

variable [Host] (fs : FileSystem)

/-- An absolute entry that the test accepts is its own absolute name. -/
theorem getAbsoluteName_clean {p : Str} (habs : p.head? = some separator)
    (hclean : (FileSystemEntry.ofPath p).isClean = true) :
    getAbsoluteName fs (.ofPath p) = some (.ofPath p) := by
  have habs' : (FileSystemEntry.ofPath p).isAbsolute = true := by
    rw [FileSystemEntry.isAbsolute, FileSystemEntry.ofPath, habs]
    exact decide_eq_true rfl
  rw [getAbsoluteName]
  split
  · rfl
  · rw [if_pos ⟨habs', hclean⟩]

/-- On absolute paths without a slash at the end that stay below the root, the test accepts those
which the cleaner leaves as they are. So it does not matter which way the absolute entry is made. -/
theorem isClean_iff {p : Str} (habs : p.head? = some separator)
    (hslash : p = [separator] ∨ p.getLast? ≠ some separator) (hups : (location p).ups = 0) :
    ((FileSystemEntry.ofPath p).isClean = true ↔ cleanPath p = some p) ∧
      ∀ absolute : FileSystemEntry, absolute.filePath = [] →
        (resolveAbsoluteEntry fs none absolute (.ofPath p)).map (·.filePath) =
          (resolveSlowly fs (.ofPath p)).map (·.filePath) ∧
        ((FileSystemEntry.ofPath p).isClean = true →
          (resolveAbsoluteEntry fs none absolute (.ofPath p)).map (·.filePath) = some p) := by
  obtain ⟨q, rfl⟩ := exists_absolute habs
  have hne : separator :: q ≠ [] := List.cons_ne_nil _ _
  have hclean : (FileSystemEntry.ofPath (separator :: q)).isClean = true ↔
      cleanPath (separator :: q) = some (separator :: q) := by
    rw [cleanPath_absolute habs, Option.some_inj]
    by_cases hq : q = []
    · subst hq
      exact iff_of_true rfl rfl
    · have hlast : q.getLast? ≠ some separator := by
        rcases hslash with hroot | hlast
        · exact absurd (List.cons.inj hroot).2 hq
        · rwa [List.getLast?_cons_of_ne_nil hq] at hlast
      rw [location_slash] at hups
      rw [cleaned_eq_iff hq hups, ← cleanLoop_eq q.length q (Nat.le_refl _) hq hlast]
      rfl
  refine ⟨hclean, fun absolute hempty => ?_⟩
  have hgo : ¬(absolute.filePath ≠ [] ∨ (FileSystemEntry.ofPath (separator :: q)).filePath = []) :=
    not_or.mpr ⟨not_not.mpr hempty, hne⟩
  have hpath : (FileSystemEntry.ofPath (separator :: q)).filePath = separator :: q := rfl
  rw [resolveAbsoluteEntry, if_neg hgo]
  by_cases htest : (FileSystemEntry.ofPath (separator :: q)).isClean = true
  · have habs' : (FileSystemEntry.ofPath (separator :: q)).isRelative = false := rfl
    simp only [habs', htest, Bool.not_false, and_self, if_true]
    rw [resolveSlowly, getAbsoluteName_clean fs habs htest, Option.bind_eq_bind, Option.bind_some,
      hpath, hclean.mp htest]
    exact ⟨rfl, fun _ => rfl⟩
  · simp only [htest]
    exact ⟨rfl, fun h => absurd h Bool.false_ne_true⟩

end

theorem isClean_iff_dots :
    let fs : FileSystem := ⟨fun s => s.map (·.toUInt8), latin1, [byte '/']⟩
    (lit16 "/a/..b/...").head? = some separator ∧
      (FileSystemEntry.ofPath (lit16 "/a/..b/...")).isClean = true ∧
      @cleanPath ⟨.littleEndian⟩ (lit16 "/a/..b/...") = some (lit16 "/a/..b/...") ∧
      (@resolveAbsoluteEntry ⟨.littleEndian⟩ fs none ⟨[], -1, -1, -1⟩
        (.ofPath (lit16 "/a/..b/..."))).map (·.filePath) =
        (@resolveSlowly ⟨.littleEndian⟩ fs (.ofPath (lit16 "/a/..b/..."))).map (·.filePath) := by
  intro fs
  obtain ⟨hiff, hresolve⟩ := @isClean_iff ⟨.littleEndian⟩ fs (lit16 "/a/..b/...") (by decide)
    (.inr (by decide)) (by decide)
  have hclean : (FileSystemEntry.ofPath (lit16 "/a/..b/...")).isClean = true := by decide
  exact ⟨by decide, hclean, hiff.mp hclean, (hresolve _ rfl).1⟩

end

/-!
## Relative paths lead back

From a directory to a file: as many steps up as the directory has segments behind those that both
share, and then the rest of the file. Behind the directory it leads to the file, and any other path
that does has no fewer steps up (`getRelativeFilePath_back`).
-/

open Location (walk)

/-! ## Splitting at slashes -/

/-! ## Shared segments -/

theorem commonSegments_spec (d f : List Str) : ∃ shared d' f', d = shared ++ d' ∧ f = shared ++ f' ∧
    commonSegments d f = shared.length := by
  induction d generalizing f with
  | nil => exact ⟨[], [], f, rfl, rfl, rfl⟩
  | cons a d ih =>
    cases f with
    | nil => exact ⟨[], a :: d, [], rfl, rfl, rfl⟩
    | cons b f =>
      rw [commonSegments]
      by_cases hab : a = b
      · subst hab
        obtain ⟨shared, d', f', rfl, rfl, hlength⟩ := ih f
        exact ⟨a :: shared, d', f', rfl, rfl, by rw [if_pos rfl, hlength, List.length_cons]⟩
      · exact ⟨[], a :: d, b :: f, rfl, rfl, by rw [if_neg hab, List.length_nil]⟩

/-- No more segments are shared. -/
theorem le_commonSegments {d f : List Str} {k : Nat} (hk : k ≤ d.length)
    (h : d.take k = f.take k) : k ≤ commonSegments d f := by
  induction k generalizing d f with
  | zero => exact Nat.zero_le _
  | succ k ih =>
    cases d with
    | nil => exact absurd hk (Nat.not_succ_le_zero k)
    | cons a d =>
      cases f with
      | nil => cases h
      | cons b f =>
        rw [List.take_succ_cons, List.take_succ_cons] at h
        obtain ⟨rfl, hrest⟩ := List.cons.inj h
        rw [commonSegments, if_pos rfl]
        exact Nat.succ_le_succ (ih (Nat.le_of_succ_le_succ hk) hrest)

/-! ## The relative path -/

/-- How many steps up a path holds. -/
def upSegments (r : Str) : Nat := (segments r).count [dot, dot]

theorem count_segmentStep (segs : List Str) :
    (segs.map segmentStep).count .up = segs.count [dot, dot] := by
  induction segs with
  | nil => rfl
  | cons s segs ih =>
    have hup : segmentStep s = .up ↔ s = [dot, dot] := by
      rw [segmentStep]
      split
      · refine iff_of_false (by simp) ?_
        rintro rfl
        exact absurd ‹_› (by decide)
      split
      · exact iff_of_true rfl ‹_›
      · exact iff_of_false (by simp) ‹_›
    rw [List.map_cons, List.count_cons, List.count_cons, ih]
    simp only [beq_iff_eq, hup]

/-- A path leads up no more often than it has steps up. -/
theorem ups_location_le (r : Str) : (location r).ups ≤ upSegments r := by
  rw [upSegments, ← count_segmentStep]
  exact Location.ups_walk_le _

theorem segments_ups (n : Nat) (t : Str) :
    segments ((List.replicate n [dot, dot, separator]).flatten ++ t) =
      List.replicate n [dot, dot] ++ segments t := by
  induction n with
  | zero => rfl
  | succ n ih =>
    have hfree : ∀ c ∈ [dot, dot], c ≠ unit '/' := by
      intro c hc
      obtain rfl : c = dot := by simpa using hc
      decide
    have hup : segments [dot, dot] = [[dot, dot]] := segments_word hfree (List.cons_ne_nil _ _)
    have hsplit := segments_append [dot, dot]
      ((List.replicate n [dot, dot, separator]).flatten ++ t)
    rw [hup, ih] at hsplit
    exact hsplit

/-- The path of a location, or a dot where it is the place itself. -/
theorem relativeElts_eq {shared d' f' : List Str} (hf : ∀ s ∈ f', IsName s)
    (hcommon : commonSegments (shared ++ d') (shared ++ f') = shared.length) :
    location (relativeElts (shared ++ d') (shared ++ f')) = ⟨d'.length, f'⟩ ∧
      upSegments (relativeElts (shared ++ d') (shared ++ f')) = d'.length ∧
      (relativeElts (shared ++ d') (shared ++ f')).head? ≠ some separator := by
  have hjoinable : Joinable f' := fun s hs => ⟨(hf s hs).nonempty, (hf s hs).free⟩
  have hlength : (shared ++ d').length - shared.length = d'.length := by
    rw [List.length_append]
    omega
  rw [relativeElts, hcommon, hlength, List.drop_left]
  by_cases hnil : (List.replicate d'.length [dot, dot, separator]).flatten ++
      [separator].intercalate f' = []
  · obtain ⟨hups, hnames⟩ := List.append_eq_nil_iff.mp hnil
    obtain rfl : f' = [] := by
      by_contra hne
      exact intercalate_ne_nil hjoinable hne hnames
    obtain rfl : d' = [] := by
      cases d' with
      | nil => rfl
      | cons d d' => cases hups
    rw [if_pos hnil]
    decide
  · have hsegments := segments_ups d'.length ([separator].intercalate f')
    rw [segments_intercalate hjoinable] at hsegments
    rw [if_neg hnil]
    refine ⟨?_, ?_, ?_⟩
    · rw [location, hsegments]
      have hpath := map_segmentStep (l := ⟨d'.length, f'⟩) hf
      rw [segmentsOf] at hpath
      rw [hpath, Location.walk_path]
    · have hfree : [dot, dot] ∉ f' := fun hup => (hf _ hup).notUp rfl
      rw [upSegments, hsegments, List.count_append, List.count_replicate_self,
        List.count_eq_zero.mpr hfree, Nat.add_zero]
    · cases hd : d'.length with
      | zero => exact head_intercalate hjoinable
      | succ n =>
        have hdot : some dot ≠ some separator := by decide
        exact hdot

/-! ## Back -/

/-- No engine of a handler calls an absolute path relative. -/
theorem isRelativePath_absolute {engines : FileEngines} {p : Str}
    (hengines : ∀ p : Str, p.head? = some separator → engines.handler p ≠ some true)
    (h : p.head? = some separator) : isRelativePath engines p = false := by
  obtain ⟨q, rfl⟩ := exists_absolute h
  have hhandler := hengines _ h
  have hfirst : firstSegment (separator :: q) = [] := List.takeWhile_cons_of_neg (by simp)
  rw [isRelativePath, if_neg (List.cons_ne_nil _ _)]
  cases hcreate : engines.handler (separator :: q) with
  | some relative =>
    rw [hcreate] at hhandler
    simpa using hhandler
  | none =>
    simp only [hfirst, List.not_mem_nil, if_false]
    rfl

theorem segments_cleaned {p : Str} (habs : p.head? = some separator) (hups : (location p).ups = 0) :
    segments (cleaned p) = (location p).names := by
  have hsegments : segments (separator :: joined (location p)) = segments (joined (location p)) :=
    segments_slash _
  rw [cleaned, if_pos habs, hsegments, joined, segments_intercalate (joinable_location p),
    segmentsOf, hups, List.replicate_zero, List.nil_append]

theorem head_append {d : Str} (habs : d.head? = some separator) (r : Str) :
    (d ++ separator :: r).head? = some separator := by
  obtain ⟨q, rfl⟩ := exists_absolute habs
  rfl

theorem cleaned_absolute {p q : Str} (hp : p.head? = some separator) (hq : q.head? = some separator) :
    cleaned p = cleaned q ↔ location p = location q := by
  constructor
  · intro h
    rw [← location_cleaned p, h, location_cleaned]
  · intro h
    rw [cleaned, cleaned, if_pos hp, if_pos hq, h]

theorem getRelativeFilePath_eq [Host] {engines : FileEngines} {d f : Str}
    (hengines : ∀ p : Str, p.head? = some separator → engines.handler p ≠ some true)
    (hd : d.head? = some separator) (hf : f.head? = some separator)
    (hdups : (location d).ups = 0) (hfups : (location f).ups = 0) :
    getRelativeFilePath engines d f =
      some (relativeElts (location d).names (location f).names) := by
  have hdir := isRelativePath_absolute hengines ((head_cleaned d).mpr hd)
  have hfile := isRelativePath_absolute hengines ((head_cleaned f).mpr hf)
  simp only [getRelativeFilePath, cleanPath_absolute hd, cleanPath_absolute hf,
    Option.bind_eq_bind, Option.bind_some, hdir, hfile, segments_cleaned hd hdups,
    segments_cleaned hf hfups]
  rfl

/-- The path from a directory to a file is relative and leads there from the directory, and no path
that does has fewer steps up. -/
theorem getRelativeFilePath_back [Host] {engines : FileEngines} {d f : Str}
    (hengines : ∀ p : Str, p.head? = some separator → engines.handler p ≠ some true)
    (hd : d.head? = some separator) (hf : f.head? = some separator)
    (hdups : (location d).ups = 0) (hfups : (location f).ups = 0) :
    ∃ r, getRelativeFilePath engines d f = some r ∧ (FileSystemEntry.ofPath r).isRelative = true ∧
      cleanPath (d ++ separator :: r) = cleanPath f ∧
      ∀ r', cleanPath (d ++ separator :: r') = cleanPath f → upSegments r ≤ upSegments r' := by
  obtain ⟨shared, d', f', hdnames, hfnames, hcommon⟩ :=
    commonSegments_spec (location d).names (location f).names
  have hdloc : location d = ⟨0, shared ++ d'⟩ := by
    ext1
    · exact hdups
    · exact hdnames
  have hfloc : location f = ⟨0, shared ++ f'⟩ := by
    ext1
    · exact hfups
    · exact hfnames
  have hf' : ∀ s ∈ f', IsName s := by
    intro s hs
    refine isName_location (p := f) ?_
    rw [hfnames]
    exact List.mem_append_right _ hs
  have hresult := getRelativeFilePath_eq hengines hd hf hdups hfups
  rw [hdnames, hfnames] at hcommon hresult
  obtain ⟨hloc, hup, hhead⟩ := relativeElts_eq hf' hcommon
  refine ⟨relativeElts (shared ++ d') (shared ++ f'), hresult, ?_, ?_, ?_⟩
  · rw [FileSystemEntry.isRelative, FileSystemEntry.isAbsolute, FileSystemEntry.ofPath,
      decide_eq_false hhead]
    rfl
  · rw [cleanPath_absolute (head_append hd _), cleanPath_absolute hf,
      (cleaned_absolute (head_append hd _) hf).mpr]
    rw [location_append, hloc, hdloc, hfloc, Location.mul_common]
  · intro r' hr'
    rw [cleanPath_absolute (head_append hd _), cleanPath_absolute hf, Option.some_inj,
      cleaned_absolute (head_append hd _) hf, location_append] at hr'
    obtain ⟨hle, htake⟩ := Location.ups_of_mul hdups hfups hr'
    have hshared := le_commonSegments (Nat.sub_le _ _) htake
    have hups := ups_location_le r'
    rw [hdnames, hfnames, hcommon, List.length_append] at hshared
    rw [hup]
    omega

theorem getRelativeFilePath_back_sibling :
    let engines : FileEngines := ⟨fun _ => none, fun _ => true⟩
    (lit16 "/a/b").head? = some separator ∧
      @getRelativeFilePath ⟨.littleEndian⟩ engines (lit16 "/a/b") (lit16 "/a//c/d/") =
        some (lit16 "../c/d") ∧
      ∀ r', @cleanPath ⟨.littleEndian⟩ (lit16 "/a/b" ++ separator :: r') =
        @cleanPath ⟨.littleEndian⟩ (lit16 "/a//c/d/") → 1 ≤ upSegments r' := by
  intro engines
  have hresult : @getRelativeFilePath ⟨.littleEndian⟩ engines (lit16 "/a/b") (lit16 "/a//c/d/") =
      some (lit16 "../c/d") := by decide
  obtain ⟨r, hr, -, -, hmin⟩ := @getRelativeFilePath_back ⟨.littleEndian⟩ engines (lit16 "/a/b")
    (lit16 "/a//c/d/") (fun _ _ => nofun) (by decide) (by decide) (by decide) (by decide)
  obtain rfl : r = lit16 "../c/d" := Option.some.inj (hr.symm.trans hresult)
  exact ⟨by decide, hresult, hmin⟩

end Libpdk.Io.Dir
