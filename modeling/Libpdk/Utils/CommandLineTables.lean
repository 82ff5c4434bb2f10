import Libpdk.Utils.CommandLineGrammar

/-!
# The loop against the grammar

Each piece of `parse` succeeds, leaves the iterator at the last argument that the
grammar gives to the item, and adds to the tables what the uses of that item say
(`Records`). `parse_records` is the whole run.
-/
namespace Libpdk.Utils.CommandLineParser

section

variable {p : CommandLineParser}

/-! ## What a use adds to the tables -/

def isKnown (p : CommandLineParser) (name : Str) : Bool := (p.nameHash.find name).isSome

/-- The value that a use pushes. A use in short option style pushes its text whether or not
its option takes a value. -/
def Use.pushes (p : CommandLineParser) (u : Use) : List (Nat × Str) :=
  match p.nameHash.find u.name, p.option? u.name, u.value with
  | some offset, some option, some value =>
    if option.withValue || u.shortStyle then [(offset, value)] else []
  | _, _, _ => []

/-- The uses that set no error: the right ones, and those in short option style. -/
def Use.accepted (p : CommandLineParser) (u : Use) : Bool :=
  u.ok p || (u.shortStyle && u.value.isSome && p.isKnown u.name)

def pushAll (hash : OrdMap Nat (List Str)) (pushes : List (Nat × Str)) : OrdMap Nat (List Str) :=
  pushes.foldl (fun hash e => pushValue hash e.1 e.2) hash

/-- An error is set exactly when there is a text to report. -/
def ParseState.Explained (s : ParseState) : Prop :=
  s.error = true ↔ s.errorText ≠ [] ∨ s.unknownOptionNames ≠ []

/-- The tables of `s'` are those of `s` with positional arguments, names and values added. -/
structure Adds (p : CommandLineParser) (s s' : ParseState) (positionals names : List Str)
    (pushes : List (Nat × Str)) (bad : Bool) : Prop where
  positional : s'.positionalArgumentList = s.positionalArgumentList ++ positionals
  optionNames : s'.optionNames = s.optionNames ++ names.filter p.isKnown
  unknown : s'.unknownOptionNames = s.unknownOptionNames ++ names.filter fun n => !p.isKnown n
  values : s'.optionValuesHash = pushAll s.optionValuesHash pushes
  error : s'.error = (s.error || bad)
  explained : s.Explained → s'.Explained

def Records (p : CommandLineParser) (s s' : ParseState) (positionals : List Str)
    (uses : List Use) : Prop :=
  Adds p s s' positionals (uses.map Use.name) (uses.flatMap (Use.pushes p))
    (!uses.all (Use.accepted p))

theorem Adds.refl (s : ParseState) : Adds p s s [] [] [] false where
  positional := by simp
  optionNames := by simp
  unknown := by simp
  values := rfl
  error := by simp
  explained := id

theorem Adds.trans {s s₁ s₂ : ParseState} {a a' n n' : List Str} {v v' : List (Nat × Str)}
    {b b' : Bool} (h : Adds p s s₁ a n v b) (h' : Adds p s₁ s₂ a' n' v' b') :
    Adds p s s₂ (a ++ a') (n ++ n') (v ++ v') (b || b') where
  positional := by rw [h'.positional, h.positional, List.append_assoc]
  optionNames := by rw [h'.optionNames, h.optionNames, List.filter_append, List.append_assoc]
  unknown := by rw [h'.unknown, h.unknown, List.filter_append, List.append_assoc]
  values := by rw [h'.values, h.values, pushAll, pushAll, pushAll, List.foldl_append]
  error := by rw [h'.error, h.error, Bool.or_assoc]
  explained := h'.explained ∘ h.explained

theorem Records.refl (s : ParseState) : Records p s s [] [] := Adds.refl s

theorem Records.trans {s s₁ s₂ : ParseState} {a a' : List Str} {us us' : List Use}
    (h : Records p s s₁ a us) (h' : Records p s₁ s₂ a' us') :
    Records p s s₂ (a ++ a') (us ++ us') := by
  have := Adds.trans h h'
  simpa only [Records, List.map_append, List.flatMap_append, List.all_append, Bool.not_and]
    using this

/-! ## Names and values -/

theorem known_adds {s : ParseState} {name : Str} (h : p.isKnown name = true) :
    Adds p s { s with optionNames := s.optionNames ++ [name] } [] [name] [] false where
  positional := by simp
  optionNames := by simp [h]
  unknown := by simp [h]
  values := rfl
  error := by simp
  explained := id

theorem unknown_adds {s : ParseState} {name : Str} (h : p.isKnown name = false) :
    Adds p s { s with unknownOptionNames := s.unknownOptionNames ++ [name], error := true }
      [] [name] [] true where
  positional := by simp
  optionNames := by simp [h]
  unknown := by simp [h]
  values := rfl
  error := by simp
  explained _ := by simp [ParseState.Explained]

theorem push_adds (s : ParseState) (offset : Nat) (value : Str) :
    Adds p s (s.push offset value) [] [] [(offset, value)] false where
  positional := by simp [ParseState.push]
  optionNames := by simp [ParseState.push]
  unknown := by simp [ParseState.push]
  values := rfl
  error := by simp [ParseState.push]
  explained := id

theorem error_adds (s : ParseState) {text : Str} (ht : text ≠ []) :
    Adds p s { s with errorText := text, error := true } [] [] [] true where
  positional := by simp
  optionNames := by simp
  unknown := by simp
  values := rfl
  error := by simp
  explained _ := by simp [ParseState.Explained, ht]

theorem positional_adds (s : ParseState) (argument : Str) (forced : Bool) :
    Adds p s { pushPositional s argument with forcePositional := forced } [argument] [] []
      false where
  positional := rfl
  optionNames := by simp [pushPositional]
  unknown := by simp [pushPositional]
  values := rfl
  error := by simp [pushPositional]
  explained := id

theorem missingValue_ne_nil (argument : Str) : missingValue argument ≠ [] := by
  simp [missingValue, lit16]

theorem unexpectedValue_ne_nil (argument : Str) : unexpectedValue argument ≠ [] := by
  simp [unexpectedValue, lit16]

/-! ## The assignment character -/

theorem afterAssign_eq : ∀ t : Str,
    afterAssign t = (t.findIdx? (· == assignChar)).map fun pos => t.drop (pos + 1)
  | [] => rfl
  | c :: t => by
    rw [List.findIdx?_cons]
    by_cases hc : c = assignChar
    · simp [afterAssign, hc]
    · have h : afterAssign (c :: t) = afterAssign t := by
        simp [afterAssign, hc]
      rw [h, afterAssign_eq t]
      simp [hc, Option.map_map, Function.comp_def]

theorem afterAssign_dash (t : Str) : afterAssign (dashChar :: t) = afterAssign t := by
  have h : (dashChar != assignChar) = true := by decide
  rw [afterAssign, afterAssign, List.dropWhile_cons_of_pos (p := fun c => c != assignChar) h]

theorem isSome_afterAssign (t : Str) : (afterAssign t).isSome = true ↔ assignChar ∈ t := by
  rw [afterAssign_eq, Option.isSome_map, List.findIdx?_isSome]
  simp [List.any_eq_true]

/-! ## Arguments read -/

/-- `r` reads an option argument: it succeeds, adds the uses, and leaves the iterator at the
following argument if one of the words takes it. -/
def Reads (p : CommandLineParser) (s : ParseState) (argument : Str) (rest : List Str)
    (ws : List Word) (r : Option (ParseState × List Str)) : Prop :=
  ∃ s', r = some (s', if ws.any Word.takesNext then rest else argument :: rest) ∧
    s'.forcePositional = s.forcePositional ∧
    Records p s s' [] (ws.map (Word.use rest.head?))

/-- The value of a known option.
The cases are those of the source: whether the option takes a value, and whether there is
an assignment character. -/
theorem parseValue_adds {s : ParseState} {name : Str} (argument : Str) (rest : List Str)
    {offset : Nat} (h : p.nameHash.find name = some offset) :
    let w : Word := ⟨name, p.attach name (afterAssign argument), false⟩
    ∃ s', p.parseValue s name argument (argument :: rest) =
        some (s', if w.takesNext then rest else argument :: rest) ∧
      s'.forcePositional = s.forcePositional ∧
      Adds p s s' [] [] ((w.use rest.head?).pushes p) (!(w.use rest.head?).accepted p) := by
  obtain ⟨o, ho, ho', -⟩ := option?_of_find h
  intro w
  simp only [parseValue, parseOptionValue, h, ho, Option.bind_some]
  have hassign := afterAssign_eq argument
  cases hv : o.withValue with
  | false =>
    cases hi : argument.findIdx? (· == assignChar) with
    | none =>
      rw [hi, Option.map_none] at hassign
      refine ⟨s, ?_, rfl, ?_⟩
      · simp [w, hassign, attach, ho', hv, Word.takesNext]
      · simpa [w, hassign, attach, ho', hv, Word.use, Use.pushes, Use.accepted, Use.ok, h]
          using Adds.refl s
    | some pos =>
      rw [hi, Option.map_some] at hassign
      refine ⟨{ s with errorText := unexpectedValue (argument.take pos), error := true }, ?_, rfl,
        ?_⟩
      · simp [w, hassign, attach, Word.takesNext]
      · simpa [w, hassign, attach, ho', hv, Word.use, Use.pushes, Use.accepted, Use.ok, h]
          using error_adds s (unexpectedValue_ne_nil _)
  | true =>
    cases hi : argument.findIdx? (· == assignChar) with
    | none =>
      rw [hi, Option.map_none] at hassign
      cases rest with
      | nil =>
        refine ⟨{ s with errorText := missingValue argument, error := true }, ?_, rfl, ?_⟩
        · simp [w, hassign, attach, ho', hv, Word.takesNext, nextValue, advance]
        · simpa [w, hassign, attach, ho', hv, Word.use, Use.pushes, Use.accepted, Use.ok, h]
            using error_adds s (missingValue_ne_nil argument)
      | cons value rest =>
        refine ⟨s.push offset value, ?_, rfl, ?_⟩
        · simp [w, hassign, attach, ho', hv, Word.takesNext, nextValue, advance]
        · simpa [w, hassign, attach, ho', hv, Word.use, Use.pushes, Use.accepted, Use.ok, h]
            using push_adds s offset value
    | some pos =>
      rw [hi, Option.map_some] at hassign
      refine ⟨s.push offset (argument.drop (pos + 1)), ?_, rfl, ?_⟩
      · simp [w, hassign, attach, Word.takesNext]
      · simpa [w, hassign, attach, ho', hv, Word.use, Use.pushes, Use.accepted, Use.ok, h]
          using push_adds s offset _

theorem Reads.of_adds {s s' : ParseState} {argument : Str} {rest : List Str} {w : Word}
    (hforce : s'.forcePositional = s.forcePositional)
    (h : Adds p s s' [] [w.name] ((w.use rest.head?).pushes p) (!(w.use rest.head?).accepted p)) :
    Reads p s argument rest [w] (some (s', if w.takesNext then rest else argument :: rest)) := by
  refine ⟨s', by simp, hforce, ?_⟩
  simpa [Records, Word.use] using h

/-- A word before the others, when it takes no argument. -/
theorem Reads.cons {s : ParseState} (s₁ : ParseState) {argument : Str} {rest : List Str} {w : Word}
    {ws : List Word} {r : Option (ParseState × List Str)} (hw : w.takesNext = false)
    (hforce : s₁.forcePositional = s.forcePositional)
    (h : Adds p s s₁ [] [w.name] ((w.use rest.head?).pushes p) (!(w.use rest.head?).accepted p))
    (hr : Reads p s₁ argument rest ws r) : Reads p s argument rest (w :: ws) r := by
  obtain ⟨s', hr, hforce', hadds⟩ := hr
  refine ⟨s', by simp [hr, hw], hforce'.trans hforce, ?_⟩
  have h' : Records p s s₁ [] [w.use rest.head?] := by simpa [Records, Word.use] using h
  exact h'.trans hadds

theorem unknown_pushes {u : Use} (h : p.nameHash.find u.name = none) :
    u.pushes p = [] ∧ u.accepted p = false := by
  simp [Use.pushes, Use.accepted, Use.ok, isKnown, h, option?_of_find_none h]

theorem known_pushes {u : Use} {offset : Nat} {o : CommandLineOption}
    (h : p.nameHash.find u.name = some offset) (ho : p.option? u.name = some o)
    (hs : u.shortStyle = false) :
    u.pushes p = (if o.withValue then u.value.toList.map fun value => (offset, value) else []) ∧
      u.accepted p = (o.withValue == u.value.isSome) := by
  constructor
  · rw [Use.pushes, h, ho, hs]
    cases u.value <;> simp
  · simp [Use.accepted, Use.ok, ho, hs]

theorem parseLong_reads (s : ParseState) (name argument : Str) (rest : List Str) :
    Reads p s argument rest [⟨name, p.attach name (afterAssign argument), false⟩]
      (p.parseLong s name argument (argument :: rest)) := by
  cases h : p.nameHash.find name with
  | none =>
    have hk : p.isKnown name = false := by rw [isKnown, h]; rfl
    have hw : (⟨name, p.attach name (afterAssign argument), false⟩ : Word).takesNext = false := by
      unfold attach
      rw [option?_of_find_none h]
      cases afterAssign argument <;> rfl
    have hu := unknown_pushes (p := p)
      (u := (⟨name, p.attach name (afterAssign argument), false⟩ : Word).use rest.head?) h
    simp only [parseLong, registerFoundOption, h, Option.isSome_none, Bool.false_eq_true, if_false]
    refine ⟨{ s with unknownOptionNames := s.unknownOptionNames ++ [name], error := true }, ?_,
      rfl, ?_⟩
    · simp [hw]
    · simpa [Records, hu.1, hu.2] using unknown_adds (s := s) hk
  | some offset =>
    have hk : p.isKnown name = true := by rw [isKnown, h]; rfl
    simp only [parseLong, registerFoundOption, h, Option.isSome_some, if_true]
    obtain ⟨s', hv, hforce, hadds⟩ := parseValue_adds argument rest
      (s := { s with optionNames := s.optionNames ++ [name] }) h
    rw [hv]
    refine Reads.of_adds (s := s) hforce ?_
    exact (known_adds hk).trans hadds

/-! ## Single dashes -/

theorem shortStyle_eq_some {argument : Str} {offset : Nat}
    (h : p.shortStyle argument = some offset) :
    ∃ (b c d : UInt16) (text : Str) (o : CommandLineOption), argument = b :: c :: d :: text ∧
      p.nameHash.find [c] = some offset ∧ p.option? [c] = some o ∧ o.shortOptionStyle = true := by
  rw [shortStyle] at h
  split at h
  · rename_i hlen
    obtain ⟨b, c, d, text, rfl⟩ : ∃ b c d text, argument = b :: c :: d :: text := by
      match argument, hlen with
      | b :: c :: d :: text, _ => exact ⟨b, c, d, text, rfl⟩
    obtain ⟨i, hi, h⟩ := Option.bind_eq_some_iff.mp h
    obtain ⟨o, ho, h⟩ := Option.bind_eq_some_iff.mp h
    split at h
    · cases h
      refine ⟨b, c, d, text, o, rfl, hi, ?_, ‹_›⟩
      have hf : p.nameHash.find [c] = some offset := hi
      rw [option?, hf]
      exact ho
    · exact absurd h (by simp)
  · exact absurd h (by simp)

theorem singleWord_of_shortStyle_none {b : UInt16} {body : Str}
    (h : p.shortStyle (b :: body) = none) : p.singleWord body = p.longWord body := by
  rw [singleWord.eq_def]
  split
  · rename_i c d text
    cases ho : p.option? [c] with
    | none => rfl
    | some o =>
      simp only
      split
      · rename_i hs
        obtain ⟨i, hi, ho⟩ := Option.bind_eq_some_iff.mp ho
        simp [shortStyle, hi, ho, hs] at h
      · rfl
  · rfl

theorem parseWord_reads (s : ParseState) (body : Str) (rest : List Str) :
    Reads p s (dashChar :: body) rest [p.singleWord body]
      (p.parseWord s (dashChar :: body) ((dashChar :: body) :: rest)) := by
  cases h : p.shortStyle (dashChar :: body) with
  | none =>
    rw [singleWord_of_shortStyle_none h, parseWord, h]
    have := parseLong_reads (p := p) s (body.takeWhile (· != assignChar)) (dashChar :: body) rest
    rwa [afterAssign_dash] at this
  | some offset =>
    obtain ⟨b, c, d, text, o, heq, hf, ho, hs⟩ := shortStyle_eq_some h
    cases heq
    have hk : p.isKnown [c] = true := by rw [isKnown, hf]; rfl
    rw [parseWord, h]
    simp only [singleWord, ho, hs, if_true, List.drop_succ_cons, List.drop_zero,
      List.take_succ_cons, List.take_zero, registerFoundOption, hf, Option.isSome_some]
    refine Reads.of_adds (w := ⟨[c], .text (d :: text), true⟩) rfl ?_
    have := (known_adds (s := s) hk).trans (push_adds _ offset (d :: text))
    simpa [Word.use, Use.pushes, Use.accepted, hf, ho, hk] using this

/-! ## Compacted short options -/

/-- The letters that are left. The loop has passed over an assignment character only if
it has set an error: as an option it is unknown. -/
theorem compactLoop_reads (argument : Str) (rest : List Str) : ∀ (cs : Str) (s : ParseState)
    (name : Str),
    (cs = [] → ∀ o, p.option? name = some o → o.withValue = false) →
    (assignChar ∈ argument → assignChar ∈ cs ∨ s.error = true) →
    (assignChar ∈ cs → assignChar ∈ argument) →
    Reads p s argument rest (p.compactWords (afterAssign argument) cs)
      ((p.compactLoop s name cs).bind fun (s, optionName, valueFound) =>
        if valueFound then some (s, argument :: rest)
        else p.parseValue s optionName argument (argument :: rest))
  | [], s, name, hname, hpassed, _ => by
    simp only [compactLoop, Option.bind_some, Bool.false_eq_true, if_false, compactWords]
    cases h : p.nameHash.find name with
    | none =>
      refine ⟨s, ?_, rfl, Records.refl s⟩
      simp [parseValue, parseOptionValue, h]
    | some offset =>
      obtain ⟨o, ho, ho', -⟩ := option?_of_find h
      have hv := hname rfl o ho'
      cases hi : argument.findIdx? (· == assignChar) with
      | none =>
        refine ⟨s, ?_, rfl, Records.refl s⟩
        simp [parseValue, parseOptionValue, h, ho, hv, hi]
      | some pos =>
        have hmem : assignChar ∈ argument := by
          rw [← isSome_afterAssign, afterAssign_eq, hi]
          rfl
        have he : s.error = true := (hpassed hmem).resolve_left (by simp)
        refine ⟨{ s with errorText := unexpectedValue (argument.take pos), error := true }, ?_,
          rfl, ?_⟩
        · simp [parseValue, parseOptionValue, h, ho, hv, hi]
        · have hadds := error_adds (p := p) s (unexpectedValue_ne_nil (argument.take pos))
          exact ⟨hadds.positional, hadds.optionNames, hadds.unknown, hadds.values, by simp [he],
            hadds.explained⟩
  | c :: cs, s, name, hname, hpassed, hleft => by
    rw [compactLoop, compactWords]
    cases h : p.nameHash.find [c] with
    | none =>
      have hk : p.isKnown [c] = false := by rw [isKnown, h]; rfl
      simp only [registerFoundOption, h, Option.isSome_none, Bool.false_eq_true, if_false,
        option?_of_find_none h]
      refine Reads.cons ({ s with
        unknownOptionNames := s.unknownOptionNames ++ [[c]], error := true }) rfl rfl ?_
        (compactLoop_reads argument rest cs _ [c] ?_ (fun _ => .inr rfl)
          fun hm => hleft (List.mem_cons_of_mem _ hm))
      · have hu := unknown_pushes (p := p)
          (u := (⟨[c], .nothing, false⟩ : Word).use rest.head?) h
        rw [hu.1, hu.2]
        exact unknown_adds hk
      · intro _ o ho
        rw [option?_of_find_none h] at ho
        exact absurd ho (by simp)
    | some offset =>
      obtain ⟨o, ho, ho', -⟩ := option?_of_find h
      have hk : p.isKnown [c] = true := by rw [isKnown, h]; rfl
      have hc : c ≠ assignChar := by
        intro hc
        rw [hc, find_assign] at h
        exact absurd h (by simp)
      simp only [registerFoundOption, h, Option.isSome_some, if_true, Option.bind_some, ho, ho']
      have hreg := known_adds (s := s) hk
      -- a letter without a value: the words go on behind it
      have hflag (hv : o.withValue = false) (hd : cs.head? ≠ some assignChar) :
          Reads p s argument rest
            (⟨[c], .nothing, false⟩ :: p.compactWords (afterAssign argument) cs)
            ((p.compactLoop { s with optionNames := s.optionNames ++ [[c]] } [c] cs).bind
              fun (s, optionName, valueFound) =>
                if valueFound then some (s, argument :: rest)
                else p.parseValue s optionName argument (argument :: rest)) := by
        have hu := known_pushes (u := (⟨[c], .nothing, false⟩ : Word).use rest.head?) h ho' rfl
        refine Reads.cons ({ s with optionNames := s.optionNames ++ [[c]] }) rfl rfl ?_
          (compactLoop_reads argument rest cs _ [c] ?_ ?_ fun hm =>
            hleft (List.mem_cons_of_mem _ hm))
        · rw [hu.1, hu.2, hv]
          exact hreg
        · intro _ o' ho''
          rw [ho'] at ho''
          cases ho''
          exact hv
        · intro hm
          refine (hpassed hm).imp_left fun hm => ?_
          exact (List.mem_cons.mp hm).resolve_left (Ne.symm hc)
      cases cs with
      | nil =>
        cases hv : o.withValue with
        | false =>
          simpa [hv, compactWords] using hflag hv (by simp)
        | true =>
          obtain ⟨s', hs', hforce, hadds⟩ := parseValue_adds argument rest
            (s := { s with optionNames := s.optionNames ++ [[c]] }) h
          simp only [if_true, Option.bind_some, Bool.false_eq_true, if_false, hs']
          refine Reads.of_adds (s := s) hforce ?_
          exact hreg.trans hadds
      | cons d value =>
        by_cases hd : d = assignChar
        · subst hd
          have hu := known_pushes
            (u := (⟨[c], .text value, false⟩ : Word).use rest.head?) h ho' rfl
          cases hv : o.withValue with
          | true =>
            simp only [if_true, Option.bind_some]
            refine Reads.of_adds (s := s) (w := ⟨[c], .text value, false⟩) rfl ?_
            rw [hu.1, hu.2, hv]
            exact hreg.trans (push_adds _ offset value)
          | false =>
            obtain ⟨s', hs', hforce, hadds⟩ := parseValue_adds argument rest
              (s := { s with optionNames := s.optionNames ++ [[c]] }) h
            obtain ⟨v, hassign⟩ := Option.isSome_iff_exists.mp
              ((isSome_afterAssign argument).mpr (hleft (by simp)))
            have hu' := known_pushes
              (u := (⟨[c], .text v, false⟩ : Word).use rest.head?) h ho' rfl
            simp only [hassign, attach] at hs' hadds
            rw [hu'.1, hu'.2, hv] at hadds
            simp only [List.head?_cons, if_true, Option.bind_some, Bool.false_eq_true, if_false,
              hs']
            refine Reads.of_adds (s := s) (w := ⟨[c], .text value, false⟩) hforce ?_
            rw [hu.1, hu.2, hv]
            exact hreg.trans hadds
        · cases hv : o.withValue with
          | true =>
            have hu := known_pushes
              (u := (⟨[c], .text (d :: value), false⟩ : Word).use rest.head?) h ho' rfl
            simp only [if_true, hd, if_false, Option.bind_some]
            refine Reads.of_adds (s := s) (w := ⟨[c], .text (d :: value), false⟩) rfl ?_
            rw [hu.1, hu.2, hv]
            exact hreg.trans (push_adds _ offset (d :: value))
          | false =>
            simpa [hv, hd] using hflag hv (by simpa using hd)

theorem parseCompact_reads (s : ParseState) (body : Str) (rest : List Str) (hne : body ≠ []) :
    Reads p s (dashChar :: body) rest (p.compactWords (afterAssign (dashChar :: body)) body)
      (p.parseCompact s (dashChar :: body) ((dashChar :: body) :: rest)) := by
  have hdash : assignChar ≠ dashChar := by decide
  apply compactLoop_reads (dashChar :: body) rest body s []
  · exact fun h => absurd h hne
  · exact fun h => .inl ((List.mem_cons.mp h).resolve_left hdash)
  · exact fun h => List.mem_cons_of_mem _ h

/-! ## The loop -/

/-- Where no word takes the argument that follows, it does not matter which one it is. -/
theorem Word.map_use {ws : List Word} (h : ws.any Word.takesNext = false)
    {following : Option Str} :
    ws.map (Word.use following) = ws.map (Word.use none) := by
  refine List.map_congr_left fun w hw => ?_
  have hw' : w.takesNext = false := by simpa using List.any_eq_false.mp h w hw
  obtain ⟨name, attached, shortStyle⟩ := w
  cases attached with
  | next => exact absurd hw' (by simp [Word.takesNext])
  | nothing => rfl
  | text value => rfl

theorem words_reads (s : ParseState) (argument : Str) (rest : List Str)
    (hf : s.forcePositional = false) (ho : isOption argument = true)
    (hs : argument ≠ [dashChar, dashChar]) :
    Reads p s argument rest (p.words argument) (p.parseArgument s argument (argument :: rest)) := by
  obtain ⟨body, rfl⟩ : ∃ body, argument = dashChar :: body := by
    cases argument with
    | nil => simp [isOption] at ho
    | cons b body =>
      simp only [isOption, List.take_succ_cons, List.take_zero, Bool.and_eq_true, decide_eq_true_eq,
        List.cons.injEq, and_true] at ho
      exact ⟨body, by rw [ho.1]⟩
  have hne : body ≠ [] := by
    rintro rfl
    simp [isOption] at ho
  rw [parseArgument, if_neg (by simp [hf]), words]
  by_cases hlong : (dashChar :: body).take 2 = [dashChar, dashChar]
  · rw [if_pos hlong, if_pos hlong]
    obtain ⟨body, rfl⟩ : ∃ body', body = dashChar :: body' := by
      cases body with
      | nil => simp at hlong
      | cons b body =>
        simp only [List.take_succ_cons, List.take_zero, List.cons.injEq, and_true, true_and] at hlong
        exact ⟨body, by rw [hlong]⟩
    have hlen : (dashChar :: dashChar :: body).length > 2 := by
      cases body with
      | nil => exact absurd rfl hs
      | cons b body => simp
    rw [if_pos hlen]
    have h := parseLong_reads (p := p) s (body.takeWhile (· != assignChar))
      (dashChar :: dashChar :: body) rest
    rwa [afterAssign_dash, afterAssign_dash] at h
  · rw [if_neg hlong, if_neg hlong, if_pos (by rfl), if_neg (by simpa using hne)]
    cases p.singleDashWordOptionMode with
    | parseAsCompactedShortOptions => exact parseCompact_reads s body rest hne
    | parseAsLongOptions => exact parseWord_reads s body rest

theorem classify_option {argument : Str} (rest : List Str) (ho : isOption argument = true)
    (hsep : argument ≠ [dashChar, dashChar]) :
    p.classify false (argument :: rest) =
      .options argument ((p.words argument).map (Word.use rest.head?))
        (if (p.words argument).any Word.takesNext then rest.head? else none) ::
      p.classify false (if (p.words argument).any Word.takesNext then rest.drop 1 else rest) := by
  rw [classify.eq_def]
  simp only [Bool.false_eq_true, if_false, hsep, ho, if_true]
  cases hnext : (p.words argument).any Word.takesNext with
  | false => simp [Word.map_use hnext]
  | true =>
    cases rest with
    | nil => simp [classify.eq_def]
    | cons value rest => simp

/-- One round of the loop reads one item. -/
theorem parseArgument_step (s : ParseState) (argument : Str) (rest : List Str) :
    ∃ s₁ it item, p.parseArgument s argument (argument :: rest) = some (s₁, it) ∧
      p.classify s.forcePositional (argument :: rest) =
        item :: p.classify s₁.forcePositional (it.drop 1) ∧
      Records p s s₁ item.positionals item.uses ∧ (it.drop 1).length ≤ rest.length := by
  have hpos (forced : Bool) := positional_adds (p := p) s argument forced
  by_cases hf : s.forcePositional = true
  · refine ⟨{ pushPositional s argument with forcePositional := true }, argument :: rest,
      .positional argument, ?_, ?_, hpos true, le_refl _⟩
    · rw [parseArgument, if_pos hf]
      simp [pushPositional, hf]
    · rw [hf, classify.eq_def]
      rfl
  have hf' : s.forcePositional = false := by simpa using hf
  by_cases hsep : argument = [dashChar, dashChar]
  · refine ⟨{ s with forcePositional := true }, argument :: rest, .separator, ?_, ?_,
      ⟨by simp [Item.positionals], by simp [Item.uses], by simp [Item.uses], rfl,
        by simp [Item.uses], id⟩, le_refl _⟩
    · rw [parseArgument, if_neg hf, hsep]
      rfl
    · rw [hf', hsep, classify.eq_def]
      rfl
  by_cases ho : isOption argument = true
  · obtain ⟨s₁, hr, hforce, hadds⟩ := words_reads (p := p) s argument rest hf' ho hsep
    refine ⟨s₁, _, .options argument ((p.words argument).map (Word.use rest.head?))
        (if (p.words argument).any Word.takesNext then rest.head? else none), hr, ?_, hadds, ?_⟩
    · rw [hforce, hf', classify_option rest ho hsep]
      cases (p.words argument).any Word.takesNext <;> rfl
    · cases (p.words argument).any Word.takesNext <;> simp
  · have hclass : p.classify s.forcePositional (argument :: rest) =
        .positional argument :: p.classify (argument ≠ [dashChar] && p.endsOptions) rest := by
      rw [hf', classify.eq_def]
      simp only [Bool.false_eq_true, if_false, hsep, ho]
    have hlong : argument.take 2 ≠ [dashChar, dashChar] := by
      intro h
      apply ho
      match argument, h with
      | b :: c :: text, h =>
        simp only [List.take_succ_cons, List.take_zero, List.cons.injEq] at h
        simp [isOption, h.1]
    by_cases hd : argument.take 1 = [dashChar]
    · have hone : argument.length = 1 := by
        by_contra hne
        exact ho (by simp [isOption, hd, hne])
      obtain rfl : argument = [dashChar] := by
        rw [← hd, List.take_of_length_le (by omega)]
      refine ⟨pushPositional s [dashChar], [dashChar] :: rest, .positional [dashChar], ?_, ?_,
        hpos s.forcePositional, le_refl _⟩
      · rw [parseArgument, if_neg hf, if_neg hlong, if_pos hd, if_pos hone]
      · rw [hclass]
        simp [pushPositional, hf']
    · have hne : argument ≠ [dashChar] := by
        rintro rfl
        exact hd rfl
      refine ⟨{ pushPositional s argument with forcePositional := p.endsOptions }, argument :: rest,
        .positional argument, ?_, ?_, hpos _, le_refl _⟩
      · rw [parseArgument, if_neg hf, if_neg hlong, if_neg hd]
        cases hm : p.optionsAfterPositionalArgumentsMode <;>
          simp [endsOptions, hm, pushPositional, hf']
      · rw [hclass]
        simp [hne]

/-- The loop reads the items of the arguments. -/
theorem parseLoop_records : ∀ (n : Nat) (s : ParseState) (args : List Str), args.length ≤ n →
    ∃ s', p.parseLoop n s args = some s' ∧
      Records p s s' ((p.classify s.forcePositional args).flatMap Item.positionals)
        ((p.classify s.forcePositional args).flatMap Item.uses)
  | n, s, [], _ => ⟨s, by cases n <;> rfl, Records.refl s⟩
  | 0, s, argument :: rest, h => by simp at h
  | n + 1, s, argument :: rest, h => by
    obtain ⟨s₁, it, item, hr, hitems, hrec, hlen⟩ := parseArgument_step (p := p) s argument rest
    obtain ⟨s', hs', hrec'⟩ := parseLoop_records n s₁ (it.drop 1) (by simp at h; omega)
    refine ⟨s', ?_, ?_⟩
    · rw [parseLoop, hr, Option.bind_some, ← hs']
      cases it with
      | nil => cases n <;> rfl
      | cons argument it => rfl
    · rw [hitems, List.flatMap_cons, List.flatMap_cons]
      exact hrec.trans hrec'

/-- `parse` never leaves the arguments, and its tables are those of the items. -/
theorem parse_records (p : CommandLineParser) (program : Str) (args : List Str) :
    ∃ s, p.parse (program :: args) = some (!s.error, s) ∧
      Records p .cleared s (p.positionalsOf args) (p.usesOf args) := by
  obtain ⟨s, hs, hrec⟩ := parseLoop_records (p := p) args.length .cleared args le_rfl
  refine ⟨s, ?_, hrec⟩
  simp [parse, advance, hs]

end

/-!
## The queries after a run of the parser

What `parse` returns and what `isSet` and `getValues` answer afterwards, for every
set of options, both modes of each kind and every command line. `isSet` is right
throughout. `getValues` reads its table with `at`, which throws for an option with
no value in it, so the defaults are never reached; and a use in short option style
is accepted with a text that its option does not take. `parse_implements_iff` says
exactly when the grammar is implemented all the same.
-/

variable {p : CommandLineParser}

theorem find_pushAll (i : Nat) : ∀ (pushes : List (Nat × Str)) (hash : OrdMap Nat (List Str)),
    (pushAll hash pushes).find i =
      if (pushes.filter fun e => e.1 == i) = [] then hash.find i
      else some ((hash.find i).getD [] ++ (pushes.filter fun e => e.1 == i).map Prod.snd)
  | [], _ => rfl
  | e :: pushes, hash => by
    have h := find_pushAll i pushes (pushValue hash e.1 e.2)
    rw [pushAll, List.foldl_cons]
    rw [pushAll] at h
    rw [h, pushValue, OrdMap.find_insert]
    by_cases he : e.1 = i
    · subst he
      by_cases hn : (pushes.filter fun e' => e'.1 == e.1) = []
      · simp [hn]
      · simp [hn]
    · have hf : (e :: pushes).filter (fun e => e.1 == i) = pushes.filter fun e => e.1 == i := by
        simp [he]
      rw [if_neg he, hf]

/-! ## Aliases -/

theorem aliases_eq {i : Nat} {o : CommandLineOption} (h : p.commandLineOptionList[i]? = some o)
    {name : Str} (hn : name ∈ o.names) : p.aliases name = o.names := by
  rw [aliases, option?, p.named i o h name hn, Option.bind_some, h]

theorem find_iff_mem_names {i : Nat} {o : CommandLineOption}
    (h : p.commandLineOptionList[i]? = some o) (name : Str) :
    p.nameHash.find name = some i ↔ name ∈ o.names := by
  refine ⟨fun hf => ?_, p.named i o h name⟩
  obtain ⟨o', ho', hn⟩ := p.offset name i hf
  rw [h] at ho'
  cases ho'
  exact hn

/-- An option is set exactly when one of its names was used. -/
theorem isSet_eq {s : ParseState} {uses : List Use}
    (hnames : s.optionNames = (uses.map Use.name).filter p.isKnown) {i : Nat}
    {o : CommandLineOption} (h : p.commandLineOptionList[i]? = some o) {name : Str}
    (hn : name ∈ o.names) : p.isSet s name = o.used uses := by
  rw [Bool.eq_iff_iff, isSet, aliases_eq h hn, CommandLineOption.used, hnames]
  simp only [Bool.or_eq_true, List.contains_iff_mem, List.any_eq_true, List.mem_filter,
    List.mem_map, decide_eq_true_eq]
  constructor
  · rintro (⟨⟨u, hu, rfl⟩, -⟩ | ⟨_, ⟨⟨u, hu, rfl⟩, -⟩, hmem⟩)
    · exact ⟨u, hu, hn⟩
    · exact ⟨u, hu, hmem⟩
  · rintro ⟨u, hu, hmem⟩
    refine .inr ⟨u.name, ⟨⟨u, hu, rfl⟩, ?_⟩, hmem⟩
    rw [isKnown, (find_iff_mem_names h u.name).mpr hmem]
    rfl

/-! ## Values -/

theorem find_of_mem_pushes {u : Use} {e : Nat × Str} (he : e ∈ u.pushes p) :
    p.nameHash.find u.name = some e.1 := by
  unfold Use.pushes at he
  split at he
  · rename_i offset option value hf _ _
    split at he
    · rw [hf, List.mem_singleton.mp he]
    · exact absurd he (by simp)
  · exact absurd he (by simp)

theorem pushes_filter {i : Nat} {o : CommandLineOption}
    (h : p.commandLineOptionList[i]? = some o) (hv : o.withValue = true) (u : Use) :
    (u.pushes p).filter (fun e => e.1 == i) =
      if u.name ∈ o.names then u.value.toList.map fun value => (i, value) else [] := by
  by_cases hn : u.name ∈ o.names
  · have hf := (find_iff_mem_names h u.name).mpr hn
    have ho : p.option? u.name = some o := by rw [option?, hf, Option.bind_some, h]
    rw [if_pos hn, Use.pushes, hf, ho]
    cases u.value with
    | none => rfl
    | some value => simp [hv]
  · rw [if_neg hn, List.filter_eq_nil_iff]
    intro e he hei
    have hf := find_of_mem_pushes he
    rw [beq_iff_eq.mp hei] at hf
    exact hn ((find_iff_mem_names h u.name).mp hf)

theorem pushed_values {i : Nat} {o : CommandLineOption}
    (h : p.commandLineOptionList[i]? = some o) (hv : o.withValue = true) : ∀ uses : List Use,
    ((uses.flatMap (Use.pushes p)).filter fun e => e.1 == i).map Prod.snd = o.valuesOf uses
  | [] => by simp [CommandLineOption.valuesOf]
  | u :: uses => by
    have ih := pushed_values h hv uses
    rw [CommandLineOption.valuesOf, if_pos hv] at ih ⊢
    rw [List.flatMap_cons, List.filter_append, List.map_append, ih, pushes_filter h hv u]
    by_cases hn : u.name ∈ o.names
    · cases hu : u.value <;> simp [hn, hu]
    · simp [hn]

theorem used_of_pushed {i : Nat} {o : CommandLineOption}
    (h : p.commandLineOptionList[i]? = some o) {uses : List Use}
    (hne : (uses.flatMap (Use.pushes p)).filter (fun e => e.1 == i) ≠ []) :
    o.used uses = true := by
  obtain ⟨e, he⟩ := List.exists_mem_of_ne_nil _ hne
  obtain ⟨hmem, hei⟩ := List.mem_filter.mp he
  obtain ⟨u, hu, heu⟩ := List.mem_flatMap.mp hmem
  rw [CommandLineOption.used, List.any_eq_true]
  refine ⟨u, hu, ?_⟩
  rw [decide_eq_true_eq, ← find_iff_mem_names h, find_of_mem_pushes heu, beq_iff_eq.mp hei]

/-- `getValues` throws exactly when the table has no value of the option. -/
theorem getValues_eq {s : ParseState} {uses : List Use}
    (hvalues : s.optionValuesHash = pushAll OrdMap.empty (uses.flatMap (Use.pushes p))) {i : Nat}
    {o : CommandLineOption} (h : p.commandLineOptionList[i]? = some o) {name : Str}
    (hn : name ∈ o.names) :
    p.getValues s name =
      if (uses.flatMap (Use.pushes p)).filter (fun e => e.1 == i) = [] then none
      else some (((uses.flatMap (Use.pushes p)).filter fun e => e.1 == i).map Prod.snd) := by
  rw [getValues, p.named i o h name hn, hvalues]
  simp only [find_pushAll, OrdMap.find_empty, Option.getD_none, List.nil_append]
  split
  · rfl
  · rename_i hne
    simp [hne]

/-! ## The grammar implemented -/

/-- What a run of `parse` and the queries after it should do: every argument belongs to one
item, the tables hold what the items say, the result tells whether every use is right, and
each name of an option asks for the option. -/
def ImplementsGrammar (p : CommandLineParser) (program : Str) (args : List Str) : Prop :=
  ∃ ok s, p.parse (program :: args) = some (ok, s) ∧
    (p.classify false args).flatMap Item.arguments = args ∧
    s.positionalArgumentList = p.positionalsOf args ∧
    s.optionNames = ((p.usesOf args).map Use.name).filter p.isKnown ∧
    s.unknownOptionNames = ((p.usesOf args).map Use.name).filter (fun n => !p.isKnown n) ∧
    (ok = true ↔ ∀ u ∈ p.usesOf args, u.ok p = true) ∧
    ∀ option ∈ p.commandLineOptionList, ∀ name ∈ option.names,
      p.isSet s name = option.used (p.usesOf args) ∧
      p.getValues s name = some (if option.used (p.usesOf args) then
        option.valuesOf (p.usesOf args) else option.defaultValues)

/-- Every option takes a value, and the command line gives it one. -/
def EveryOptionGiven (p : CommandLineParser) (args : List Str) : Prop :=
  ∀ option ∈ p.commandLineOptionList, option.withValue = true ∧
    ∃ u ∈ p.usesOf args, u.name ∈ option.names ∧ u.value.isSome = true

theorem everyOptionGiven_of_implements {program : Str} {args : List Str}
    (h : p.ImplementsGrammar program args) : p.EveryOptionGiven args := by
  obtain ⟨ok, s, hs, -, -, -, -, -, hq⟩ := h
  obtain ⟨s', hs', hrec⟩ := parse_records p program args
  obtain rfl : s' = s := by
    rw [hs'] at hs
    exact (Prod.mk.inj (Option.some.inj hs)).2
  intro o ho
  obtain ⟨i, hi⟩ := List.mem_iff_getElem?.mp ho
  obtain ⟨name, hn⟩ := List.exists_mem_of_ne_nil _ (p.nonempty o ho)
  have hget := (hq o ho name hn).2
  rw [getValues_eq hrec.values hi hn] at hget
  split at hget
  · exact absurd hget (by simp)
  rename_i hne
  rw [if_pos (used_of_pushed hi hne)] at hget
  have hvals := Option.some.inj hget
  have hgiven : o.valuesOf (p.usesOf args) ≠ [] := by
    rw [← hvals]
    simpa using hne
  rw [CommandLineOption.valuesOf] at hgiven
  split at hgiven
  · rename_i hv
    refine ⟨hv, ?_⟩
    obtain ⟨value, hvalue⟩ := List.exists_mem_of_ne_nil _ hgiven
    obtain ⟨u, hu, huv⟩ := List.mem_filterMap.mp hvalue
    obtain ⟨hu, hun⟩ := List.mem_filter.mp hu
    exact ⟨u, hu, by simpa using hun, by rw [huv]; rfl⟩
  · exact absurd rfl hgiven

theorem accepted_iff_ok (hv : ∀ o ∈ p.commandLineOptionList, o.withValue = true) (u : Use) :
    u.accepted p = u.ok p := by
  rw [Use.accepted, Use.ok]
  cases ho : p.option? u.name with
  | none =>
    cases hf : p.nameHash.find u.name with
    | none => simp [isKnown, hf]
    | some i =>
      obtain ⟨o, -, ho', -⟩ := option?_of_find hf
      rw [ho] at ho'
      exact absurd ho' (by simp)
  | some o =>
    obtain ⟨i, -, ho⟩ := Option.bind_eq_some_iff.mp ho
    have := hv o (List.mem_of_getElem? ho)
    cases hval : u.value <;> simp [this]

theorem implements_of_everyOptionGiven (program : Str) {args : List Str}
    (h : p.EveryOptionGiven args) : p.ImplementsGrammar program args := by
  obtain ⟨s, hs, hrec⟩ := parse_records p program args
  refine ⟨!s.error, s, hs, arguments_classify p false args, hrec.positional, hrec.optionNames,
    hrec.unknown, ?_, ?_⟩
  · rw [hrec.error]
    have heq : (p.usesOf args).all (Use.accepted p) = (p.usesOf args).all (Use.ok p) := by
      rw [funext (accepted_iff_ok fun o ho => (h o ho).1)]
    simp [ParseState.cleared, heq]
  · intro o ho name hn
    obtain ⟨i, hi⟩ := List.mem_iff_getElem?.mp ho
    obtain ⟨hv, u, hu, hun, huv⟩ := h o ho
    have hused : o.used (p.usesOf args) = true := by
      rw [CommandLineOption.used, List.any_eq_true]
      exact ⟨u, hu, by simpa using hun⟩
    obtain ⟨value, huv⟩ := Option.isSome_iff_exists.mp huv
    have hne : ((p.usesOf args).flatMap (Use.pushes p)).filter (fun e => e.1 == i) ≠ [] := by
      have hpushed : (i, value) ∈ (u.pushes p).filter fun e => e.1 == i := by
        rw [pushes_filter hi hv, if_pos hun, huv]
        simp
      apply List.ne_nil_of_mem (a := (i, value))
      rw [List.filter_flatMap]
      exact List.mem_flatMap.mpr ⟨u, hu, hpushed⟩
    refine ⟨isSet_eq hrec.optionNames hi hn, ?_⟩
    rw [getValues_eq hrec.values hi hn, if_neg hne, if_pos hused, pushed_values hi hv]

/-- The parser implements its grammar on a command line exactly when every option takes
a value and is given one. -/
theorem parse_implements_iff (p : CommandLineParser) (program : Str) (args : List Str) :
    p.ImplementsGrammar program args ↔ p.EveryOptionGiven args :=
  ⟨everyOptionGiven_of_implements, implements_of_everyOptionGiven program⟩

/-- One option with a value and a default, not used: its default is not returned. -/
def defaultedParser : CommandLineParser :=
  ((init .parseAsCompactedShortOptions .parseAsOptions).addOption
    (((CommandLineOption.ofNames [lit16 "o"]).setValueName (lit16 "file")).setDefaultValues
      [lit16 "a.out"])).2

theorem parse_implements_false : ¬ defaultedParser.ImplementsGrammar (lit16 "cc") [] := by
  intro h
  have hne : defaultedParser.commandLineOptionList ≠ [] := fun h =>
    absurd (congrArg List.length h) (by decide)
  obtain ⟨o, ho⟩ := List.exists_mem_of_ne_nil _ hne
  obtain ⟨-, u, hu, -⟩ := everyOptionGiven_of_implements h o ho
  exact absurd hu (by simp [usesOf, classify])

/-! ## What holds of every run -/

end Libpdk.Utils.CommandLineParser
