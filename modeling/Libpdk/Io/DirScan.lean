import Libpdk.Core.Locations
import Libpdk.Io.Dir
import Libpdk.Io.FileSystemEntry

/-!
# The scan of a path

The loop over a path, taken segment by segment from its end on, computes where the path leads
(`scanLoop_spec`). What is in the buffer at any time, with the steps up that are still to be written,
is found in the path in the same order behind what is left of it (`Room`); so the buffer is
long enough.
-/
namespace Libpdk.Io.Dir

open Location (walk ofStep)

/-! ## Where a path leads -/

/-- What a segment says. -/
def segmentStep (s : Str) : Step Str :=
  if s = [dot] then .here else if s = [dot, dot] then .up else .down s

/-- Where the segments lead, on a stack. -/
def location (p : Str) : Location Str := walk ((segments p).map segmentStep)

theorem location_append (p q : Str) : location (p ++ separator :: q) = location p * location q := by
  have hsegments : segments (p ++ separator :: q) = segments p ++ segments q := segments_append p q
  rw [location, hsegments, List.map_append, Location.walk_append]
  rfl

theorem free_cons {c : UInt16} {r : Str} (h : separator ∉ c :: r) :
    c ≠ separator ∧ separator ∉ r :=
  ⟨fun hc => h (hc ▸ List.mem_cons_self), fun hr => h (List.mem_cons_of_mem _ hr)⟩

theorem location_nil : location [] = 1 := rfl

theorem location_slash (p : Str) : location (separator :: p) = location p := by
  have h := location_append [] p
  rwa [location_nil, one_mul] at h

theorem location_append_slash (p : Str) : location (p ++ [separator]) = location p := by
  rw [location_append, location_nil, mul_one]

theorem location_segment {s : Str} (hs : separator ∉ s) (hne : s ≠ []) :
    location s = ofStep (segmentStep s) := by
  have hsegments : segments s = [s] :=
    segments_word (fun c hc heq => hs (by rw [separator, ← heq]; exact hc)) hne
  rw [location, hsegments, List.map_singleton, Location.walk_singleton]

/-- The last segment is a step behind the others. -/
theorem location_reverse {r rest : Str} (hrest : segmentStart rest) :
    location (r ++ rest).reverse = location rest.tail.reverse * location r.reverse := by
  rw [List.reverse_append]
  cases rest with
  | nil => rw [List.reverse_nil, List.nil_append, List.tail_nil, List.reverse_nil, location_nil,
      one_mul]
  | cons c p =>
    obtain rfl : c = separator := by simpa [segmentStart] using hrest
    rw [List.reverse_cons, List.append_assoc, List.singleton_append, location_append, List.tail_cons]

theorem location_rest {rest : Str} (hrest : segmentStart rest) :
    location rest.reverse = location rest.tail.reverse := by
  have h := location_reverse (r := []) hrest
  rwa [List.nil_append, List.reverse_nil, location_nil, mul_one] at h

/-- What is left is a segment, and in front of it a slash or nothing. -/
theorem exists_segment (p : Str) : ∃ r rest, p = r ++ rest ∧ separator ∉ r ∧ segmentStart rest := by
  refine ⟨p.takeWhile (· ≠ separator), p.dropWhile (· ≠ separator),
    List.takeWhile_append_dropWhile.symm, ?_, ?_⟩
  · intro hmem
    have hall := List.all_takeWhile (p := fun c => decide (c ≠ separator)) (l := p)
    simpa using List.all_eq_true.mp hall separator hmem
  · cases hrest : p.dropWhile (· ≠ separator) with
    | nil => simp [segmentStart]
    | cons c rest =>
      have hc := List.head?_dropWhile_not (· ≠ separator) p
      rw [hrest] at hc
      simpa [segmentStart] using hc

/-! ## What is written -/

/-- A slash in front of what is written, where it needs one. -/
def slashed (out : Str) : Str :=
  if out ≠ [] ∧ out.head? ≠ some separator then separator :: out else out

/-- Segments in front of what is written. -/
def prepend (segs : List Str) (out : Str) : Str := segs.foldr (fun s out => s ++ slashed out) out

theorem prepend_cons (s : Str) (segs : List Str) (out : Str) :
    prepend (s :: segs) out = s ++ slashed (prepend segs out) := rfl

theorem prepend_singleton (s out : Str) : prepend [s] out = s ++ slashed out := rfl

theorem prepend_append (segs segs' : List Str) (out : Str) :
    prepend (segs ++ segs') out = prepend segs (prepend segs' out) := List.foldr_append

theorem slashed_cases (out : Str) : slashed out = out ∨ slashed out = separator :: out := by
  unfold slashed
  split
  · exact .inr rfl
  · exact .inl rfl

theorem sublist_slashed (out : Str) : out.Sublist (slashed out) := by
  rcases slashed_cases out with h | h
  · rw [h]
  · rw [h]
    exact List.sublist_cons_self _ _

theorem slashed_sublist (out : Str) : (slashed out).Sublist (separator :: out) := by
  rcases slashed_cases out with h | h
  · rw [h]
    exact List.sublist_cons_self _ _
  · rw [h]

theorem length_le_prepend (segs : List Str) (out : Str) : out.length ≤ (prepend segs out).length := by
  induction segs with
  | nil => exact Nat.le_refl _
  | cons s segs ih =>
    have hle := (sublist_slashed (prepend segs out)).length_le
    rw [prepend_cons, List.length_append]
    omega

section

variable {len : Nat} {out : Str}

theorem put_eq {c : UInt16} (h : out.length < len) : put len out c = some (c :: out) := if_pos h

theorem putAll_eq {s : Str} (h : s.length + out.length ≤ len) :
    putAll len out s = some (s ++ out) := by
  induction s with
  | nil => rfl
  | cons c s ih =>
    rw [List.length_cons] at h
    rw [putAll, ih (by omega), Option.bind_some, put_eq (by rw [List.length_append]; omega)]
    rfl

theorem putSlash_eq (h : (slashed out).length ≤ len) : putSlash len out = some (slashed out) := by
  rw [slashed] at h ⊢
  rw [putSlash]
  by_cases hslash : out ≠ [] ∧ out.head? ≠ some separator
  · rw [if_pos hslash] at h ⊢
    rw [if_pos hslash, put_eq (by rw [List.length_cons] at h; omega)]
  · rw [if_neg hslash, if_neg hslash]

theorem addUps_eq {up : Nat} (h : (prepend (.replicate up [dot, dot]) out).length ≤ len) :
    addUps len up out = some (prepend (.replicate up [dot, dot]) out) := by
  induction up generalizing out with
  | zero => rfl
  | succ up ih =>
    rw [List.replicate_succ', prepend_append] at h ⊢
    have hroom := Nat.le_trans (length_le_prepend _ _) h
    rw [prepend_singleton, List.length_append] at hroom
    have hslashed := Nat.le_trans (Nat.le_add_left _ _) hroom
    rw [addUps, putSlash_eq hslashed, Option.bind_eq_bind, Option.bind_some, putAll_eq hroom]
    exact ih h

/-! ## One segment -/

theorem copySegment_copy {r rest : Str} (hr : separator ∉ r) (hrest : segmentStart rest)
    (h : r.length + out.length ≤ len) :
    copySegment len 0 (r ++ rest) out = some (rest.tail, r.reverse ++ out) := by
  induction r generalizing out with
  | nil =>
    cases rest with
    | nil => rfl
    | cons c p =>
      obtain rfl : c = separator := by simpa [segmentStart] using hrest
      rw [List.nil_append, copySegment, if_pos rfl]
      rfl
  | cons c r ih =>
    rw [List.length_cons] at h
    obtain ⟨hc, hr⟩ := free_cons hr
    rw [List.cons_append, copySegment, if_neg hc, if_pos rfl, put_eq (by omega), Option.bind_some,
      ih hr (by rw [List.length_cons]; omega), List.reverse_cons, List.append_assoc]
    rfl

theorem copySegment_skip {r rest : Str} {up : Nat} (hr : separator ∉ r) (hrest : segmentStart rest)
    (hup : up ≠ 0) : copySegment len up (r ++ rest) out = some (rest.tail, out) := by
  induction r with
  | nil =>
    cases rest with
    | nil => rfl
    | cons c p =>
      obtain rfl : c = separator := by simpa [segmentStart] using hrest
      rw [List.nil_append, copySegment, if_pos rfl]
      rfl
  | cons c r ih =>
    obtain ⟨hc, hr⟩ := free_cons hr
    rw [List.cons_append, copySegment, if_neg hc, if_neg hup, ih hr]

/-! ## One round -/

theorem segmentStart_append {r rest : Str} (hr : separator ∉ r) (h : segmentStart (r ++ rest)) :
    r = [] := by
  cases r with
  | nil => rfl
  | cons c r =>
    obtain rfl : c = separator := by simpa [segmentStart] using h
    exact absurd List.mem_cons_self hr

variable (rounds up : Nat)

theorem scanLoop_slash (p : Str) :
    scanLoop len (rounds + 1) (separator :: p) up out = scanLoop len rounds p up out := if_pos rfl

theorem scanLoop_here {rest : Str} (hrest : segmentStart rest) :
    scanLoop len (rounds + 1) (dot :: rest) up out = scanLoop len rounds rest up out := by
  rw [scanLoop, if_neg (by decide), if_pos ⟨rfl, hrest⟩]

theorem scanLoop_up {rest : Str} (hrest : segmentStart rest) :
    scanLoop len (rounds + 1) (dot :: dot :: rest) up out =
      scanLoop len rounds rest (up + 1) out := by
  have hstart : ¬segmentStart (dot :: rest) := by simp [segmentStart, dot, separator]
  rw [scanLoop, if_neg (by decide), if_neg (fun h => hstart h.2), if_pos ⟨rfl, rfl, hrest⟩,
    List.tail_cons]

theorem scanLoop_segment {r rest : Str} (hr : separator ∉ r) (hrest : segmentStart rest)
    (hne : r ≠ []) (hhere : r ≠ [dot]) (hup : r ≠ [dot, dot]) :
    scanLoop len (rounds + 1) (r ++ rest) up out = (do
      let out ← if up = 0 then putSlash len out else some out
      let (p, out) ← copySegment len up (r ++ rest) out
      scanLoop len rounds p (up - 1) out) := by
  obtain ⟨c, r, rfl⟩ := List.exists_cons_of_ne_nil hne
  obtain ⟨hc, hr'⟩ := free_cons hr
  have hdot : ¬(c = dot ∧ segmentStart (r ++ rest)) := by
    rintro ⟨rfl, hstart⟩
    exact hhere (by rw [segmentStart_append hr' hstart])
  have hdots : ¬(c = dot ∧ (r ++ rest).head? = some dot ∧ segmentStart (r ++ rest).tail) := by
    rintro ⟨rfl, hhead, hstart⟩
    cases r with
    | nil =>
      rw [List.nil_append] at hhead
      rw [segmentStart, hhead] at hrest
      cases rest with
      | nil => cases hhead
      | cons d rest => simp [dot, separator] at hrest
    | cons d r =>
      obtain rfl : d = dot := by simpa using hhead
      have hr'' : separator ∉ r := fun h => hr' (List.mem_cons_of_mem _ h)
      exact hup (by rw [segmentStart_append hr'' hstart])
  rw [List.cons_append, scanLoop, if_neg hc, if_neg hdot, if_neg hdots]

end

/-! ## All rounds -/

/-- What is left of the path, and behind it what is written with the steps up, is found in `q`. -/
def Room (q p : Str) (up : Nat) (out : Str) : Prop :=
  (p.reverse ++
    if segmentStart p then prepend (.replicate up [dot, dot]) out
    else slashed (prepend (.replicate up [dot, dot]) out)).Sublist q

section

variable {q rest : Str} {up : Nat} {out : Str}

theorem Room.slash {p : Str} (h : Room q (separator :: p) up out) : Room q p up out := by
  rw [Room, if_pos (by simp [segmentStart]), List.reverse_cons, List.append_assoc,
    List.singleton_append] at h
  refine .trans (List.Sublist.append_left ?_ _) h
  split
  · exact List.sublist_cons_self _ _
  · exact slashed_sublist _

/-- Behind a segment there is room for a slash. -/
theorem Room.tail {w : Str} (hrest : segmentStart rest)
    (h : (rest.reverse ++ prepend (.replicate up [dot, dot]) w).Sublist q) :
    Room q rest.tail up w := by
  cases rest with
  | nil =>
    rw [List.tail_nil, Room, if_pos (by simp [segmentStart])]
    exact h
  | cons c p =>
    obtain rfl : c = separator := by simpa [segmentStart] using hrest
    have hroom : Room q (separator :: p) up w := by
      rw [Room, if_pos hrest]
      exact h
    exact hroom.slash

theorem room_segment {r : Str} (hne : r ≠ []) (hr : separator ∉ r) (h : Room q (r ++ rest) up out) :
    (rest.reverse ++ (r.reverse ++ slashed (prepend (.replicate up [dot, dot]) out))).Sublist q := by
  rw [Room, if_neg fun hstart => hne (segmentStart_append hr hstart), List.reverse_append,
    List.append_assoc] at h
  exact h

theorem Room.here (hrest : segmentStart rest) (h : Room q (dot :: rest) up out) :
    Room q rest up out := by
  have h : (rest.reverse ++ ([dot] ++ slashed (prepend (.replicate up [dot, dot]) out))).Sublist q :=
    room_segment (r := [dot]) (by simp) (by decide) h
  rw [Room, if_pos hrest]
  refine .trans (List.Sublist.append_left ?_ _) h
  exact (sublist_slashed _).trans (List.sublist_cons_self _ _)

theorem Room.climb (hrest : segmentStart rest) (h : Room q (dot :: dot :: rest) up out) :
    Room q rest (up + 1) out := by
  rw [Room, if_pos hrest]
  exact room_segment (r := [dot, dot]) (by simp) (by decide) h

theorem Room.copy {r : Str} (hne : r ≠ []) (hr : separator ∉ r) (hrest : segmentStart rest)
    (h : Room q (r ++ rest) 0 out) : Room q rest.tail 0 (r.reverse ++ slashed out) :=
  Room.tail hrest (room_segment hne hr h)

theorem Room.skip {r : Str} (hne : r ≠ []) (hr : separator ∉ r) (hrest : segmentStart rest)
    (h : Room q (r ++ rest) (up + 1) out) : Room q rest.tail up out := by
  refine Room.tail hrest (.trans (List.Sublist.append_left ?_ _) (room_segment hne hr h))
  rw [List.replicate_succ, prepend_cons]
  have hup := (sublist_slashed (prepend (.replicate up [dot, dot]) out)).trans
    (List.sublist_append_right [dot, dot] _)
  exact (hup.trans (sublist_slashed _)).trans (List.sublist_append_right _ _)

end

/-- One round: a part of the path is gone, and where the rest leads goes on as before. -/
structure Round (len rounds : Nat) (q p : Str) (up : Nat) (out : Str) (p' : Str) (up' : Nat)
    (names : List Str) : Prop where
  shorter : p'.length < p.length
  scan : scanLoop len (rounds + 1) p up out = scanLoop len rounds p' up' (prepend names out)
  room : Room q p' up' (prepend names out)
  location : location p.reverse * ⟨up, []⟩ = location p'.reverse * ⟨up', names⟩

section

variable {len : Nat} (rounds : Nat) {q r rest : Str} {up : Nat} {out : Str}

theorem round_slash {p : Str} (h : Room q (separator :: p) up out) :
    Round len rounds q (separator :: p) up out p up [] where
  shorter := Nat.lt_succ_self _
  scan := scanLoop_slash rounds up p
  room := h.slash
  location := by rw [List.reverse_cons, location_append_slash]

theorem round_here (hrest : segmentStart rest) (h : Room q (dot :: rest) up out) :
    Round len rounds q (dot :: rest) up out rest up [] where
  shorter := Nat.lt_succ_self _
  scan := scanLoop_here rounds up hrest
  room := h.here hrest
  location := by
    rw [← List.singleton_append, location_reverse hrest, location_rest hrest]
    exact congrArg (· * _) (mul_one _)

theorem round_up (hrest : segmentStart rest) (h : Room q (dot :: dot :: rest) up out) :
    Round len rounds q (dot :: dot :: rest) up out rest (up + 1) [] where
  shorter := by
    rw [List.length_cons, List.length_cons]
    omega
  scan := scanLoop_up rounds up hrest
  room := h.climb hrest
  location := by
    have hup : dot :: dot :: rest = [dot, dot] ++ rest := rfl
    have hstep : location [dot, dot].reverse = ofStep .up := rfl
    rw [hup, location_reverse hrest, location_rest hrest, hstep, mul_assoc, Location.up_mul]

/-- A segment that is neither of the two is a name. -/
theorem location_name (hr : separator ∉ r) (hne : r ≠ []) (hhere : r ≠ [dot])
    (hup : r ≠ [dot, dot]) : location r.reverse = ofStep (.down r.reverse) := by
  have hhere' : r.reverse ≠ [dot] := by rwa [← List.reverse_singleton, Ne, List.reverse_inj]
  have hup' : r.reverse ≠ [dot, dot] := by
    rw [← List.reverse_reverse [dot, dot], Ne, List.reverse_inj]
    exact hup
  have hslash : separator ∉ r.reverse := by rwa [List.mem_reverse]
  rw [location_segment hslash (List.reverse_ne_nil_iff.mpr hne), segmentStep, if_neg hhere',
    if_neg hup']

theorem round_copy (hq : q.length ≤ len) (hr : separator ∉ r) (hrest : segmentStart rest)
    (hne : r ≠ []) (hhere : r ≠ [dot]) (hup : r ≠ [dot, dot]) (h : Room q (r ++ rest) 0 out) :
    Round len rounds q (r ++ rest) 0 out rest.tail 0 [r.reverse] where
  shorter := by
    have hlength := List.length_pos_iff.mpr hne
    rw [List.length_tail, List.length_append]
    omega
  scan := by
    have hfits := (room_segment hne hr h).length_le
    have hwritten : prepend (.replicate 0 [dot, dot]) out = out := rfl
    simp only [hwritten, List.length_append, List.length_reverse] at hfits
    have hslash : putSlash len out = some (slashed out) := putSlash_eq (by omega)
    have hcopy : copySegment len 0 (r ++ rest) (slashed out) =
        some (rest.tail, r.reverse ++ slashed out) := copySegment_copy hr hrest (by omega)
    rw [scanLoop_segment rounds 0 hr hrest hne hhere hup]
    simp only [if_true, hslash, Option.bind_eq_bind, Option.bind_some, hcopy, prepend_singleton]
  room := h.copy hne hr hrest
  location := by
    rw [location_reverse hrest, location_name hr hne hhere hup, mul_assoc, Location.down_mul]

theorem round_skip (hr : separator ∉ r) (hrest : segmentStart rest) (hne : r ≠ [])
    (hhere : r ≠ [dot]) (hup : r ≠ [dot, dot]) (h : Room q (r ++ rest) (up + 1) out) :
    Round len rounds q (r ++ rest) (up + 1) out rest.tail up [] where
  shorter := by
    have hlength := List.length_pos_iff.mpr hne
    rw [List.length_tail, List.length_append]
    omega
  scan := by
    have hskip : copySegment len (up + 1) (r ++ rest) out = some (rest.tail, out) :=
      copySegment_skip hr hrest (Nat.succ_ne_zero up)
    rw [scanLoop_segment rounds (up + 1) hr hrest hne hhere hup]
    simp only [if_neg (Nat.succ_ne_zero up), Option.bind_eq_bind, Option.bind_some, hskip]
    rfl
  room := h.skip hne hr hrest
  location := by
    rw [location_reverse hrest, location_name hr hne hhere hup, mul_assoc, Location.down_mul_succ]

theorem exists_round {p : Str} (hq : q.length ≤ len) (hp : p ≠ []) (h : Room q p up out) :
    ∃ p' up' names, Round len rounds q p up out p' up' names := by
  obtain ⟨r, rest, rfl, hr, hrest⟩ := exists_segment p
  by_cases hne : r = []
  · subst hne
    obtain ⟨c, p, rfl⟩ := List.exists_cons_of_ne_nil hp
    obtain rfl : c = separator := by simpa [segmentStart] using hrest
    exact ⟨_, _, _, round_slash rounds h⟩
  by_cases hhere : r = [dot]
  · subst hhere
    exact ⟨_, _, _, round_here rounds hrest h⟩
  by_cases hup : r = [dot, dot]
  · subst hup
    exact ⟨_, _, _, round_up rounds hrest h⟩
  cases up with
  | zero => exact ⟨_, _, _, round_copy rounds hq hr hrest hne hhere hup h⟩
  | succ up => exact ⟨_, _, _, round_skip rounds hr hrest hne hhere hup h⟩

/-- Names behind the steps up stay behind. -/
theorem mul_names (a : Location Str) (up : Nat) (names : List Str) :
    a * ⟨up, names⟩ = ⟨(a * ⟨up, []⟩).ups, (a * ⟨up, []⟩).names ++ names⟩ := by
  ext1 <;> simp

/-- The loop takes back names as the steps up say, and writes those that are left. -/
theorem scanLoop_spec (hq : q.length ≤ len) (p : Str) (hrounds : p.length ≤ rounds)
    (hroom : Room q p up out) :
    ∃ l, location p.reverse * ⟨up, []⟩ = l ∧
      scanLoop len rounds p up out = some (l.ups, prepend l.names out) ∧
      Room q [] l.ups (prepend l.names out) := by
  induction rounds generalizing p up out with
  | zero =>
    obtain rfl : p = [] := List.length_eq_zero_iff.mp (Nat.le_zero.mp hrounds)
    exact ⟨⟨up, []⟩, one_mul _, rfl, hroom⟩
  | succ rounds ih =>
    by_cases hp : p = []
    · subst hp
      exact ⟨⟨up, []⟩, one_mul _, rfl, hroom⟩
    obtain ⟨p', up', names, hround⟩ := exists_round rounds hq hp hroom
    have hshorter := hround.shorter
    obtain ⟨l, rfl, hscan, hroom⟩ := ih p' (by omega) hround.room
    refine ⟨_, hround.location.trans (mul_names _ _ _), ?_, ?_⟩
    · rw [hround.scan, hscan, prepend_append]
    · rw [prepend_append]
      exact hroom

end

end Libpdk.Io.Dir
