import Libpdk.Core.OrdMap
import Libpdk.Core.Text

/-!
# Command-line options

`CommandLineOption` and the tables of `CommandLineParser` that `addOption`
fills: the options in the order they were added, and the offset of the option
behind each name. What `addOption` keeps of the two tables is carried as fields,
so that every parser below is one that `addOption` can have built.
-/
namespace Libpdk.Utils

/-- mirrors utils/CommandLineParser.cpp:127 and 158-159 -/
def assignChar : UInt16 := unit '='

def dashChar : UInt16 := unit '-'

/-- mirrors utils/CommandLineOption.cpp:102-132 -/
def isInvalidName : Str → Bool
  | [] => true
  | c :: name => c == dashChar || c == unit '/' || (c :: name).contains assignChar

/-- mirrors utils/CommandLineOption.cpp:138-147 -/
def removeInvalidNames (nameList : List Str) : List Str := nameList.filter fun n => !isInvalidName n

structure CommandLineOption where
  names : List Str
  valueName : Str
  defaultValues : List Str
  /-- `Flag::ShortOptionStyle`, the only flag that the parser reads. -/
  shortOptionStyle : Bool
  valid : ∀ n ∈ names, isInvalidName n = false

namespace CommandLineOption

/-- mirrors utils/CommandLineOption.cpp:39-50 and 57-60 -/
def ofNames (names : List Str) : CommandLineOption where
  names := removeInvalidNames names
  valueName := []
  defaultValues := []
  shortOptionStyle := false
  valid n hn := by simpa using (List.mem_filter.mp hn).2

def setValueName (o : CommandLineOption) (valueName : Str) : CommandLineOption :=
  { o with valueName := valueName }

/-- `resize(1)` leaves an empty string before the value that `<<` adds.
mirrors utils/CommandLineOption.cpp:171-180 -/
def setDefaultValue (o : CommandLineOption) (defaultValue : Str) : CommandLineOption :=
  { o with defaultValues := if defaultValue.isEmpty then [] else [[], defaultValue] }

def setDefaultValues (o : CommandLineOption) (defaultValues : List Str) : CommandLineOption :=
  { o with defaultValues := defaultValues }

def setShortOptionStyle (o : CommandLineOption) (flag : Bool) : CommandLineOption :=
  { o with shortOptionStyle := flag }

/-- An option takes a value when its value has a name. -/
def withValue (o : CommandLineOption) : Bool := !o.valueName.isEmpty

end CommandLineOption

inductive SingleDashWordOptionMode
  | parseAsCompactedShortOptions
  | parseAsLongOptions
  deriving DecidableEq, Repr

inductive OptionsAfterPositionalArgumentsMode
  | parseAsOptions
  | parseAsPositionalArguments
  deriving DecidableEq, Repr

/-- The options and the modes of a parser.
mirrors utils/CommandLineParser.cpp:73-94 -/
structure CommandLineParser where
  commandLineOptionList : List CommandLineOption
  nameHash : OrdMap Str Nat
  singleDashWordOptionMode : SingleDashWordOptionMode
  optionsAfterPositionalArgumentsMode : OptionsAfterPositionalArgumentsMode
  /-- A name leads to an option that has it. -/
  offset : ∀ n i, nameHash.find n = some i → ∃ o, commandLineOptionList[i]? = some o ∧ n ∈ o.names
  /-- A name of an option leads to that option. -/
  named : ∀ (i : Nat) o, commandLineOptionList[i]? = some o →
    ∀ n ∈ o.names, nameHash.find n = some i
  nonempty : ∀ o ∈ commandLineOptionList, o.names ≠ []

namespace CommandLineParser

/-- mirrors utils/CommandLineParser.cpp:57-63 -/
def init (mode : SingleDashWordOptionMode) (parsingMode : OptionsAfterPositionalArgumentsMode) :
    CommandLineParser where
  commandLineOptionList := []
  nameHash := OrdMap.empty
  singleDashWordOptionMode := mode
  optionsAfterPositionalArgumentsMode := parsingMode
  offset n i h := by simp at h
  named i o h := by simp at h
  nonempty o h := by simp at h

theorem find_names (names : List Str) (hash : OrdMap Str Nat) (i : Nat) (n : Str) :
    (hash.insertAll (names.map fun n => (n, i))).find n =
      if n ∈ names then some i else hash.find n := by
  by_cases hn : n ∈ names
  · rw [if_pos hn]
    apply OrdMap.find_insertAll_of_mem
    · intro v hv
      obtain ⟨m, -, hm⟩ := List.mem_map.mp hv
      exact (congrArg Prod.snd hm).symm
    · exact List.mem_map.mpr ⟨n, hn, rfl⟩
  · rw [if_neg hn]
    apply OrdMap.find_insertAll_of_not_mem
    intro e he h
    obtain ⟨m, hm, rfl⟩ := List.mem_map.mp he
    exact hn (h ▸ hm)

/-- The tables of `addOption` after its checks: the option at the end of the
list, its names at its offset. -/
def append (p : CommandLineParser) (o : CommandLineOption) (hne : o.names ≠ [])
    (hfree : ∀ n ∈ o.names, p.nameHash.find n = none) : CommandLineParser where
  commandLineOptionList := p.commandLineOptionList ++ [o]
  nameHash := p.nameHash.insertAll (o.names.map fun n => (n, p.commandLineOptionList.length))
  singleDashWordOptionMode := p.singleDashWordOptionMode
  optionsAfterPositionalArgumentsMode := p.optionsAfterPositionalArgumentsMode
  offset n i h := by
    rw [find_names] at h
    by_cases hn : n ∈ o.names
    · rw [if_pos hn] at h
      cases h
      exact ⟨o, by simp, hn⟩
    · rw [if_neg hn] at h
      obtain ⟨o', ho', hn'⟩ := p.offset n i h
      have hi := (List.getElem?_eq_some_iff.mp ho').1
      exact ⟨o', by rw [List.getElem?_append_left hi]; exact ho', hn'⟩
  named i o' h n hn := by
    rw [find_names]
    by_cases hi : i < p.commandLineOptionList.length
    · rw [List.getElem?_append_left hi] at h
      have hf := p.named i o' h n hn
      rw [if_neg, hf]
      intro hn'
      rw [hfree n hn'] at hf
      exact absurd hf (by simp)
    · rw [List.getElem?_append_right (by omega), List.getElem?_singleton] at h
      split at h
      · cases h
        rw [if_pos hn]
        congr 1
        omega
      · exact absurd h (by simp)
  nonempty o' h := by
    rcases List.mem_append.mp h with h | h
    · exact p.nonempty o' h
    · rw [List.mem_singleton.mp h]
      exact hne

/-- mirrors utils/CommandLineParser.cpp:354-373 -/
def addOption (p : CommandLineParser) (option : CommandLineOption) : Bool × CommandLineParser :=
  if hne : option.names ≠ [] then
    if hfree : ∀ n ∈ option.names, p.nameHash.find n = none then
      (true, p.append option hne hfree)
    else (false, p)
  else (false, p)

/-- mirrors utils/CommandLineParser.cpp:375-383 -/
def addOptions (p : CommandLineParser) : List CommandLineOption → Bool × CommandLineParser
  | [] => (true, p)
  | option :: options =>
    let (ok, p) := p.addOption option
    let (oks, p) := p.addOptions options
    (ok && oks, p)

/-- The option behind a name. -/
def option? (p : CommandLineParser) (name : Str) : Option CommandLineOption :=
  (p.nameHash.find name).bind fun i => p.commandLineOptionList[i]?

theorem option?_of_find {p : CommandLineParser} {name : Str} {i : Nat}
    (h : p.nameHash.find name = some i) :
    ∃ o, p.commandLineOptionList[i]? = some o ∧ p.option? name = some o ∧ name ∈ o.names := by
  obtain ⟨o, ho, hn⟩ := p.offset name i h
  exact ⟨o, ho, by rw [option?, h]; exact ho, hn⟩

theorem option?_of_find_none {p : CommandLineParser} {name : Str}
    (h : p.nameHash.find name = none) : p.option? name = none := by
  rw [option?, h]
  rfl

/-- No name of an option has an assignment character in it. -/
theorem find_assign (p : CommandLineParser) : p.nameHash.find [assignChar] = none := by
  cases h : p.nameHash.find [assignChar] with
  | none => rfl
  | some i =>
    obtain ⟨o, -, hn⟩ := p.offset _ i h
    exact absurd (o.valid _ hn) (by decide)

end CommandLineParser

/-!
## Parsing the command line

`CommandLineParserPrivate::parse` and the queries that join its tables. The
iterator over the arguments is the list of those from its place on: `*it` is the
head, `it == end` the empty list. `none` of a function is a step past the end, a
dereference there, or an `at` that throws. The error texts are the untranslated ones.
-/
namespace CommandLineParser

/-- The tables of one run of `parse`, with its locals `error` and `forcePositional`.
mirrors utils/CommandLineParser.cpp:73-79 and 156-161 -/
structure ParseState where
  errorText : Str
  optionValuesHash : OrdMap Nat (List Str)
  optionNames : List Str
  positionalArgumentList : List Str
  unknownOptionNames : List Str
  error : Bool
  forcePositional : Bool

def ParseState.cleared : ParseState := ⟨[], OrdMap.empty, [], [], [], false, false⟩

/-- `m_optionValuesHash[optionOffset].push_back(value)` -/
def pushValue (hash : OrdMap Nat (List Str)) (offset : Nat) (value : Str) :
    OrdMap Nat (List Str) :=
  hash.insert offset ((hash.find offset).getD [] ++ [value])

def ParseState.push (s : ParseState) (offset : Nat) (value : Str) : ParseState :=
  { s with optionValuesHash := pushValue s.optionValuesHash offset value }

/-- `++it` -/
def advance : List Str → Option (List Str)
  | [] => none
  | _ :: it => some it

def missingValue (argument : Str) : Str :=
  lit16 "Missing value after '" ++ argument ++ lit16 "'."

def unexpectedValue (argument : Str) : Str :=
  lit16 "Unexpected value after '" ++ argument ++ lit16 "'."

/-- mirrors utils/CommandLineParser.cpp:112-121 -/
def registerFoundOption (p : CommandLineParser) (s : ParseState) (optionName : Str) :
    Bool × ParseState :=
  if (p.nameHash.find optionName).isSome then
    (true, { s with optionNames := s.optionNames ++ [optionName] })
  else (false, { s with unknownOptionNames := s.unknownOptionNames ++ [optionName] })

/-- An option that takes a value and has none attached takes the argument that follows.
mirrors utils/CommandLineParser.cpp:132-138 -/
def nextValue (s : ParseState) (offset : Nat) (argument : Str) (it : List Str) :
    Option (Bool × ParseState × List Str) :=
  (advance it).map fun
    | [] => (false, { s with errorText := missingValue argument }, [])
    | value :: it => (true, s.push offset value, value :: it)

/-- mirrors utils/CommandLineParser.cpp:123-151 -/
def parseOptionValue (p : CommandLineParser) (s : ParseState) (optionName argument : Str)
    (it : List Str) : Option (Bool × ParseState × List Str) :=
  match p.nameHash.find optionName with
  | none => some (true, s, it)
  | some offset =>
    (p.commandLineOptionList[offset]?).bind fun option =>
      match option.withValue, argument.findIdx? (· == assignChar) with
      | true, none => nextValue s offset argument it
      | true, some assignPos => some (true, s.push offset (argument.drop (assignPos + 1)), it)
      | false, some assignPos =>
        some (false, { s with errorText := unexpectedValue (argument.take assignPos) }, it)
      | false, none => some (true, s, it)

/-- `if (!parseOptionValue(...)) error = true;` -/
def parseValue (p : CommandLineParser) (s : ParseState) (optionName argument : Str)
    (it : List Str) : Option (ParseState × List Str) :=
  (p.parseOptionValue s optionName argument it).map fun (ok, s, it) =>
    (if ok then s else { s with error := true }, it)

/-- A name is registered; if it is known, its value is read.
mirrors utils/CommandLineParser.cpp:183-189 and 247-253 -/
def parseLong (p : CommandLineParser) (s : ParseState) (optionName argument : Str)
    (it : List Str) : Option (ParseState × List Str) :=
  match p.registerFoundOption s optionName with
  | (true, s) => p.parseValue s optionName argument it
  | (false, s) => some ({ s with error := true }, it)

/-- The loop over the characters of a compacted argument, of which the given ones are
left: the state, the last name and `valueFound`.
mirrors utils/CommandLineParser.cpp:203-226 -/
def compactLoop (p : CommandLineParser) (s : ParseState) (optionName : Str) :
    Str → Option (ParseState × Str × Bool)
  | [] => some (s, optionName, false)
  | c :: rest =>
    match p.registerFoundOption s [c] with
    | (false, s) => compactLoop p { s with error := true } [c] rest
    | (true, s) =>
      (p.nameHash.find [c]).bind fun offset =>
        (p.commandLineOptionList[offset]?).bind fun option =>
          if option.withValue then
            match rest with
            | [] => some (s, [c], false)
            | d :: value =>
              some (s.push offset (if d = assignChar then value else d :: value), [c], true)
          else if rest.head? = some assignChar then some (s, [c], false)
          else compactLoop p s [c] rest

/-- mirrors utils/CommandLineParser.cpp:199-230 -/
def parseCompact (p : CommandLineParser) (s : ParseState) (argument : Str) (it : List Str) :
    Option (ParseState × List Str) :=
  (p.compactLoop s [] (argument.drop 1)).bind fun (s, optionName, valueFound) =>
    if valueFound then some (s, it) else p.parseValue s optionName argument it

/-- The offset of the option in short option style that a word begins with. Whether that
option takes a value is not looked at.
mirrors utils/CommandLineParser.cpp:233-239 -/
def shortStyle (p : CommandLineParser) (argument : Str) : Option Nat :=
  if argument.length > 2 then
    (p.nameHash.find ((argument.drop 1).take 1)).bind fun offset =>
      (p.commandLineOptionList[offset]?).bind fun option =>
        if option.shortOptionStyle then some offset else none
  else none

/-- mirrors utils/CommandLineParser.cpp:231-255 -/
def parseWord (p : CommandLineParser) (s : ParseState) (argument : Str) (it : List Str) :
    Option (ParseState × List Str) :=
  match p.shortStyle argument with
  | some offset =>
    let (_, s) := p.registerFoundOption s ((argument.drop 1).take 1)
    some (s.push offset (argument.drop 2), it)
  | none => p.parseLong s ((argument.drop 1).takeWhile (· != assignChar)) argument it

def pushPositional (s : ParseState) (argument : Str) : ParseState :=
  { s with positionalArgumentList := s.positionalArgumentList ++ [argument] }

/-- The body of the loop over the arguments, at the argument that the iterator is at.
mirrors utils/CommandLineParser.cpp:176-261 -/
def parseArgument (p : CommandLineParser) (s : ParseState) (argument : Str) (it : List Str) :
    Option (ParseState × List Str) :=
  if s.forcePositional then some (pushPositional s argument, it)
  else if argument.take 2 = [dashChar, dashChar] then
    if argument.length > 2 then
      p.parseLong s ((argument.drop 2).takeWhile (· != assignChar)) argument it
    else some ({ s with forcePositional := true }, it)
  else if argument.take 1 = [dashChar] then
    if argument.length = 1 then some (pushPositional s argument, it)
    else match p.singleDashWordOptionMode with
      | .parseAsCompactedShortOptions => p.parseCompact s argument it
      | .parseAsLongOptions => p.parseWord s argument it
  else
    match p.optionsAfterPositionalArgumentsMode with
    | .parseAsPositionalArguments =>
      some ({ pushPositional s argument with forcePositional := true }, it)
    | .parseAsOptions => some (pushPositional s argument, it)

/-- The loop over the arguments from the iterator on; the first argument of the function
is the number of rounds allowed.
mirrors utils/CommandLineParser.cpp:173-264 -/
def parseLoop (p : CommandLineParser) : Nat → ParseState → List Str → Option ParseState
  | _, s, [] => some s
  | 0, _, _ :: _ => none
  | n + 1, s, argument :: it =>
    (p.parseArgument s argument (argument :: it)).bind fun (s, it) =>
      match it with
      | [] => some s
      | argument :: it => (advance (argument :: it)).bind (p.parseLoop n s)

/-- mirrors utils/CommandLineParser.cpp:153-266 -/
def parse (p : CommandLineParser) (args : List Str) : Option (Bool × ParseState) :=
  match args with
  | [] => some (false, .cleared)
  | program :: args =>
    (advance (program :: args)).bind fun it =>
      (p.parseLoop args.length .cleared it).map fun s => (!s.error, s)

/-! ## Queries -/

/-- mirrors utils/CommandLineParser.cpp:95-103 -/
def aliases (p : CommandLineParser) (optionName : Str) : List Str :=
  match p.option? optionName with
  | some option => option.names
  | none => []

/-- mirrors utils/CommandLineParser.cpp:570-582 -/
def isSet (p : CommandLineParser) (s : ParseState) (name : Str) : Bool :=
  s.optionNames.contains name || s.optionNames.any (p.aliases name).contains

/-- `m_optionValuesHash.at(optionOffset)` throws when no value was pushed there.
mirrors utils/CommandLineParser.cpp:594-608 -/
def getValues (p : CommandLineParser) (s : ParseState) (optionName : Str) :
    Option (List Str) :=
  match p.nameHash.find optionName with
  | none => some []
  | some offset =>
    (s.optionValuesHash.find offset).bind fun values =>
      if values.isEmpty then (p.commandLineOptionList[offset]?).map (·.defaultValues)
      else some values

/-- mirrors utils/CommandLineParser.cpp:584-592 -/
def getValue (p : CommandLineParser) (s : ParseState) (optionName : Str) : Option Str :=
  (p.getValues s optionName).map fun valueList => valueList.getLast?.getD []

/-- mirrors utils/CommandLineParser.cpp:435-447 -/
def getErrorText (s : ParseState) : Str :=
  if s.errorText ≠ [] then s.errorText
  else match s.unknownOptionNames with
    | [] => []
    | [name] => lit16 "Unknown option '" ++ name ++ lit16 "'."
    | names => lit16 "Unknown options: " ++ (lit16 ", ").intercalate names ++ lit16 "."

end CommandLineParser

end Libpdk.Utils
