import TwigTemplate.Command

/-!
# Command lines

How the arguments of a command line spell an invocation.  Options that hold for all commands may
stand before the name of the command or after it, where they count more.  Whatever is not understood
makes the whole command line void.
-/

namespace TwigTemplate
namespace Arguments

/-- The options of a level of a command line. -/
structure Level where
  /-- Options without a value. -/
  flags : List String
  /-- Options with a value. -/
  valued : List String
  /-- The first word that is no option ends the level. -/
  stops : Bool

/-- Options of all commands. -/
def common : Level := ⟨["verbose"], ["config"], true⟩

/-- A level of its own for a command with some more options. -/
def Level.ofCommand (flags valued : List String) : Level :=
  ⟨common.flags ++ flags, common.valued ++ valued, false⟩

/-- What has been found on a level. -/
structure Found where
  /-- Options without a value. -/
  flags : List String
  /-- Options and their values. -/
  values : List (String × String)
  /-- All other words. -/
  words : List String

namespace Found

/-- Nothing. -/
def none : Found := ⟨[], [], []⟩

/-- An option without a value, which must not be repeated. -/
def addFlag? (found : Found) (flag : String) : Option Found :=
  if found.flags.contains flag then Option.none
  else some { found with flags := flag :: found.flags }

/-- An option with its value, which must not be repeated. -/
def addValue? (found : Found) (option value : String) : Option Found :=
  if (found.values.lookup option).isSome then Option.none
  else some { found with values := (option, value) :: found.values }

/-- A word. -/
def addWord (found : Found) (word : String) : Found := { found with words := found.words ++ [word] }

end Found

/-- An argument by its form. -/
inductive Form
  /-- `--`, after which there are only words. -/
  | separator
  /-- `--name` or `--name=value`. -/
  | option (name : String) (value : Option String)
  /-- Anything else after a hyphen. -/
  | short (letters : String)
  /-- A word. -/
  | word
  deriving DecidableEq, Repr

namespace Form

/-- The form of an argument; a single hyphen is a word. -/
def ofArgument (argument : String) : Form :=
  match argument.toList with
  | '-' :: '-' :: [] => separator
  | '-' :: '-' :: rest =>
    let name := rest.takeWhile (· != '=')
    let value := (rest.drop name.length).tail?
    option (String.ofList name) (value.map String.ofList)
  | '-' :: letter :: rest => short (String.ofList (letter :: rest))
  | _ => word

end Form

/-- Sort the arguments of a level.  The rest of the arguments is given back when the level has
ended. -/
def sort? (level : Level) (found : Found) : List String → Option (Found × List String)
  | [] => some (found, [])
  | argument :: rest =>
    match Form.ofArgument argument with
    | .separator =>
      if level.stops then none else some ({ found with words := found.words ++ rest }, [])
    | .short letters =>
      if letters == "v" then (found.addFlag? "verbose").bind (sort? level · rest) else none
    | .option name (some value) =>
      if level.valued.contains name then (found.addValue? name value).bind (sort? level · rest)
      else none
    | .option name none =>
      if level.flags.contains name then (found.addFlag? name).bind (sort? level · rest)
      else if level.valued.contains name then
        match rest with
        | [] => none
        | value :: rest =>
          if Form.ofArgument value = .word then
            (found.addValue? name value).bind (sort? level · rest)
          else none
      else none
    | .word =>
      if level.stops then some (found.addWord argument, rest)
      else sort? level (found.addWord argument) rest

/-- A number of at most 64 bits, perhaps after a plus sign. -/
def number? (text : String) : Option Nat :=
  let digits :=
    match text.toList with
    | '+' :: digits => digits
    | digits => digits
  let value := digits.foldl (fun value digit => 10 * value + (digit.toNat - '0'.toNat)) 0
  if !digits.isEmpty && digits.all Char.isDigit && value < UInt64.size then some value else none

/-- A path, which must not be empty. -/
def path? (text : String) : Option String := if text.isEmpty then none else some text

/-- A value that may be missing but not be void. -/
def optional? {α : Type} (read : String → Option α) : Option String → Option (Option α)
  | none => some none
  | some text => (read text).map some

/-- Where a template comes from; standard input counts more than a file. -/
def input? (found : Found) : Option Input := do
  let file ← match found.words with
    | [] => some none
    | [word] => (path? word).map some
    | _ => none
  if found.flags.contains "stdin" then return .standard
  else file.map .file

/-- A place, given by an offset or by a line with or without a column, but not by both. -/
def place? (found : Found) : Option CursorPlace := do
  let offset ← optional? number? (found.values.lookup "offset")
  let line ← optional? number? (found.values.lookup "line")
  let column ← optional? number? (found.values.lookup "col")
  match offset, line with
  | some offset, none => return .offset offset
  | none, some line => return .line line (column.getD 0)
  | _, _ => none

/-- The level of a command with a name. -/
def level? (name : String) : Option Level :=
  if ["pieces", "tree", "folds", "symbols"].contains name then
    some (.ofCommand ["stdin"] [])
  else if name == "scopes" then some (.ofCommand ["stdin"] ["offset", "line", "col"])
  else if name == "check" then some (.ofCommand [] [])
  else none

/-- The command with a name that has what was found on its level. -/
def command? (name : String) (found : Found) : Option Command :=
  match name with
  | "pieces" => (input? found).map .pieces
  | "tree" => (input? found).map .tree
  | "folds" => (input? found).map .folds
  | "symbols" => (input? found).map .symbols
  | "scopes" => do return .scopes (← input? found) (← place? found)
  | "check" =>
    match found.words with
    | [word] => (path? word).map .check
    | _ => none
  | _ => none

end Arguments

namespace Invocation

/-- The invocation that arguments spell. -/
def ofArguments? (arguments : List String) : Option Invocation := do
  let (outer, rest) ← Arguments.sort? Arguments.common .none arguments
  match outer.words with
  | [name] =>
    let (inner, _) ← Arguments.sort? (← Arguments.level? name) .none rest
    let outerConfig ← Arguments.optional? Arguments.path? (outer.values.lookup "config")
    let innerConfig ← Arguments.optional? Arguments.path? (inner.values.lookup "config")
    let command ← Arguments.command? name inner
    return {
      command
      config := innerConfig.or outerConfig
      verbose := (outer.flags ++ inner.flags).contains "verbose" }
  | _ => none

end Invocation
end TwigTemplate
