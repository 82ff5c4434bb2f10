import Libpdk.Utils.CommandLineParser

/-!
# The grammar of a command line

What a command line means, said without tables or an iterator. An argument is a
positional one, the separator `--`, or an option argument: a list of uses of
options, each with its name and the text attached to it. A use of an option that
takes a value and has no text attached takes the argument that follows, which
then belongs to the same item. `classify` gives the items of a command line.
-/
namespace Libpdk.Utils

namespace CommandLineParser

/-- What stands at a use for its value. -/
inductive Attached
  | nothing
  | text (value : Str)
  | next

/-- A use of an option as written. `shortStyle`: as the first letter of a word, in short
option style. -/
structure Word where
  name : Str
  attached : Attached
  shortStyle : Bool

/-- A use of an option with the value that it carries. -/
structure Use where
  name : Str
  value : Option Str
  shortStyle : Bool
  deriving DecidableEq

def Word.use (following : Option Str) (w : Word) : Use where
  name := w.name
  value := match w.attached with
    | .nothing => none
    | .text value => some value
    | .next => following
  shortStyle := w.shortStyle

@[simp] theorem Word.use_name (following : Option Str) (w : Word) :
    (w.use following).name = w.name := rfl

def Word.takesNext (w : Word) : Bool :=
  match w.attached with
  | .next => true
  | _ => false

inductive Item
  | positional (argument : Str)
  | separator
  | options (argument : Str) (uses : List Use) (following : Option Str)
  deriving DecidableEq

namespace Item

/-- The arguments that an item is made of. -/
def arguments : Item → List Str
  | positional argument => [argument]
  | separator => [[dashChar, dashChar]]
  | options argument _ following => argument :: following.toList

def uses : Item → List Use
  | options _ uses _ => uses
  | _ => []

def positionals : Item → List Str
  | positional argument => [argument]
  | _ => []

end Item

/-! ## Option arguments -/

/-- The text after the first assignment character. -/
def afterAssign (text : Str) : Option Str :=
  match text.dropWhile (· != assignChar) with
  | [] => none
  | _ :: value => some value

def attach (p : CommandLineParser) (name : Str) (text : Option Str) : Attached :=
  match text, p.option? name with
  | some value, _ => .text value
  | none, some option => if option.withValue then .next else .nothing
  | none, none => .nothing

/-- `name` or `name=value` -/
def longWord (p : CommandLineParser) (body : Str) : Word where
  name := body.takeWhile (· != assignChar)
  attached := p.attach (body.takeWhile (· != assignChar)) (afterAssign body)
  shortStyle := false

/-- The letters of a compacted argument. A letter whose option takes a value ends the list:
what is left of the argument, less a leading `=`, is the value. The last letter has nothing
left; `assigned` is the text after the first `=` of the argument, which only an argument with
the unknown letter `=` has there. A letter whose option takes no value, with a `=` after it,
ends the list too. -/
def compactWords (p : CommandLineParser) (assigned : Option Str) : Str → List Word
  | [] => []
  | c :: rest =>
    match p.option? [c] with
    | none => ⟨[c], .nothing, false⟩ :: compactWords p assigned rest
    | some option =>
      match rest with
      | [] =>
        if option.withValue then [⟨[c], p.attach [c] assigned, false⟩]
        else [⟨[c], .nothing, false⟩]
      | d :: value =>
        if d = assignChar then [⟨[c], .text value, false⟩]
        else if option.withValue then [⟨[c], .text (d :: value), false⟩]
        else ⟨[c], .nothing, false⟩ :: compactWords p assigned (d :: value)

/-- A word after a single dash: the letter of an option in short option style with the rest
of the word as text, else a long name. -/
def singleWord (p : CommandLineParser) (body : Str) : Word :=
  match body with
  | c :: d :: text =>
    match p.option? [c] with
    | some option =>
      if option.shortOptionStyle then ⟨[c], .text (d :: text), true⟩ else p.longWord body
    | none => p.longWord body
  | _ => p.longWord body

/-- The uses of options in an argument that begins with a dash and is neither `-` nor `--`. -/
def words (p : CommandLineParser) (argument : Str) : List Word :=
  if argument.take 2 = [dashChar, dashChar] then [p.longWord (argument.drop 2)]
  else match p.singleDashWordOptionMode with
    | .parseAsCompactedShortOptions =>
      p.compactWords (afterAssign argument) (argument.drop 1)
    | .parseAsLongOptions => [p.singleWord (argument.drop 1)]

/-! ## Command lines -/

def isOption (argument : Str) : Bool :=
  argument.take 1 = [dashChar] && argument.length ≠ 1

/-- Whether the arguments behind a positional one are positional. -/
def endsOptions (p : CommandLineParser) : Bool :=
  p.optionsAfterPositionalArgumentsMode = .parseAsPositionalArguments

/-- The items of the arguments; `forced` when no more options are expected. -/
def classify (p : CommandLineParser) (forced : Bool) : List Str → List Item
  | [] => []
  | argument :: rest =>
    if forced then .positional argument :: classify p true rest
    else if argument = [dashChar, dashChar] then .separator :: classify p true rest
    else if isOption argument then
      if (p.words argument).any Word.takesNext then
        match rest with
        | [] => [.options argument ((p.words argument).map (Word.use none)) none]
        | value :: rest =>
          .options argument ((p.words argument).map (Word.use (some value))) (some value) ::
            classify p false rest
      else .options argument ((p.words argument).map (Word.use none)) none ::
        classify p false rest
    else .positional argument :: classify p (argument ≠ [dashChar] && p.endsOptions) rest

/-- The classification keeps every argument, once and in order. -/
theorem arguments_classify (p : CommandLineParser) : ∀ (forced : Bool) (args : List Str),
    (p.classify forced args).flatMap Item.arguments = args
  | _, [] => rfl
  | forced, argument :: rest => by
    rw [classify.eq_def]
    simp only
    split
    · rw [List.flatMap_cons, arguments_classify p true rest]
      rfl
    split
    · rename_i h
      rw [List.flatMap_cons, arguments_classify p true rest, h]
      rfl
    split
    · split
      · cases rest with
        | nil => rfl
        | cons value rest =>
          simp only [List.flatMap_cons, arguments_classify p false rest]
          rfl
      · rw [List.flatMap_cons, arguments_classify p false rest]
        rfl
    · rw [List.flatMap_cons, arguments_classify p _ rest]
      rfl

/-! ## What the command line says -/

/-- The uses of options on a command line. -/
def usesOf (p : CommandLineParser) (args : List Str) : List Use :=
  (p.classify false args).flatMap Item.uses

def positionalsOf (p : CommandLineParser) (args : List Str) : List Str :=
  (p.classify false args).flatMap Item.positionals

/-- The name is known, and a value is there exactly when the option takes one. -/
def Use.ok (p : CommandLineParser) (u : Use) : Bool :=
  match p.option? u.name with
  | some option => option.withValue == u.value.isSome
  | none => false

end CommandLineParser

namespace CommandLineOption

open CommandLineParser

/-- The values that the uses of an option carry, in order. An option that takes no value
has none. -/
def valuesOf (option : CommandLineOption) (uses : List Use) : List Str :=
  if option.withValue then
    (uses.filter fun u => u.name ∈ option.names).filterMap Use.value
  else []

def used (option : CommandLineOption) (uses : List Use) : Bool :=
  uses.any fun u => u.name ∈ option.names

end CommandLineOption

end Libpdk.Utils
