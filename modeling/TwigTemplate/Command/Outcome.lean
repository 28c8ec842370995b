import TwigTemplate.Command
import TwigTemplate.Diagnostic.Report
import TwigTemplate.Files
import TwigTemplate.Json.Encoding
import TwigTemplate.Options.Reading

/-!
# Outcomes of commands

What a command prints and how it ends, given the files and the standard input that it finds.
-/

namespace TwigTemplate

/-- What a command leaves behind. -/
structure Outcome where
  /-- Everything went well. -/
  success : Bool
  /-- The text for standard output. -/
  output : String
  /-- The text for standard error, up to the summary of a check. -/
  errors : String
  /-- The summary of a check, which is followed by the time that the check took. -/
  summary : Option String
  deriving DecidableEq, Repr

namespace Outcome

/-- A failure after some text has been written to standard error. -/
def ofFailure (errors : String) (failure : Failure) : Outcome :=
  ⟨false, "", s!"{errors}Error: {failure.message}\n", none⟩

/-- A printed value. -/
def ofJson (value : Json) : Outcome := ⟨true, value.pretty ++ "\n", "", none⟩

/-- A time in the unit that suits it. -/
def timeText (microseconds : Nat) : String :=
  if microseconds < 1000 then s!"{microseconds}μs"
  else if microseconds < 1000000 then
    let tenths := (microseconds + 50) / 100
    s!"{tenths / 10}.{tenths % 10}ms"
  else
    let hundredths := (microseconds + 5000) / 10000
    s!"{hundredths / 100}.{hundredths / 10 % 10}{hundredths % 10}s"

/-- The text for standard error, when a check took some time. -/
def errorText (outcome : Outcome) (microseconds : Nat) : String :=
  match outcome.summary with
  | none => outcome.errors
  | some summary => s!"{outcome.errors}{summary} in {timeText microseconds}\n"

end Outcome

/-- What a command finds when it is run. -/
structure Surroundings where
  /-- What there is at a path. -/
  entryAt? : String → Option Entry
  /-- What can be read from standard input. -/
  standardInput : ByteArray

namespace Surroundings

/-- The options in a file, or the default ones. -/
def options (surroundings : Surroundings) : Option String → Except Failure Options
  | none => .ok .default
  | some path =>
    match surroundings.entryAt? path with
    | none => .error (.unreadable path "No such file or directory")
    | some entry => do
      match Options.read (← entry.text? path) with
      | .ok options => return options
      | .error .malformed => .error (.badOptions path "not JSON")
      | .error .mismatched => .error (.badOptions path "not of the expected shape")
      | .error .truncated => .error (.badOptions path "unexpected end")

/-- The text of a template. -/
def text (surroundings : Surroundings) : Input → Except Failure String
  | .standard => (Entry.file surroundings.standardInput).text? "<stdin>"
  | .file path =>
    match surroundings.entryAt? path with
    | none => .error (.missing path)
    | some entry => entry.text? path

end Surroundings

/-- A check that goes on from file to file. -/
structure Check where
  /-- What has been written. -/
  errors : String
  /-- Number of files. -/
  count : Nat
  /-- Number of files with something wrong. -/
  failed : Nat

namespace Check

/-- Nothing has been checked. -/
def start : Check := ⟨"", 0, 0⟩

/-- The reports on a template, or a mark that there are none. -/
def reportOn (options : Options) (path text : String) : String × Bool :=
  let source := Source.ofString text
  match (Document.parse options source).diagnostics with
  | [] => (s!"  ✓ {path}\n", true)
  | diagnostics => (String.join (diagnostics.map (·.report .plain source path)), false)

/-- Check one more file. -/
def step (options : Options) (check : Check) (path : String) (content : ByteArray) :
    Except Outcome Check :=
  match (Entry.file content).text? path with
  | .error failure => .error (.ofFailure check.errors failure)
  | .ok text =>
    let (report, clean) := reportOn options path text
    .ok ⟨check.errors ++ report, check.count + 1, if clean then check.failed else check.failed + 1⟩

/-- How many files were checked and how many of them have something wrong. -/
def summary (check : Check) : String :=
  let noun := if check.count == 1 then "file" else "files"
  let problems := if check.failed == 0 then "" else s!", {check.failed} with problems"
  s!"\nChecked {check.count} {noun}{problems}"

/-- The outcome of a check that has come to its end. -/
def finish (check : Check) : Outcome :=
  ⟨check.failed == 0, "", check.errors, some check.summary⟩

/-- Check files in order; one that cannot be read ends the check. -/
def run (options : Options) (files : List (String × ByteArray)) : Outcome :=
  match files.foldlM (fun check (path, content) => step options check path content) start with
  | .error outcome => outcome
  | .ok check => check.finish

/-- The files to check at a path. -/
def files (options : Options) (surroundings : Surroundings) (path : String) :
    Except Failure (List (String × ByteArray)) :=
  match surroundings.entryAt? path with
  | none => .error (.missing path)
  | some (.file content) =>
    if options.covers path then .ok [(path, content)]
    else .error (.notTemplate path (String.intercalate ", " options.extensions))
  | some entry => .ok ((entry.files path).filter (options.covers ·.1))

end Check

namespace CursorPlace

/-- The offset of a place.  A line past the end means an offset past the end. -/
def offsetIn (source : Source) : CursorPlace → Nat
  | .offset value => value
  | .line number column =>
    ((LineTable.ofSource source).offset? ⟨number, column⟩).getD (source.size + 1)

end CursorPlace

namespace Command

/-- Print something about a template. -/
def inspect (options : Options) (surroundings : Surroundings) (input : Input)
    (view : Document → Json) : Except Failure Outcome := do
  let text ← surroundings.text input
  return .ofJson (view (Document.parse options (Source.ofString text)))

/-- Do what a command says. -/
def run (options : Options) (surroundings : Surroundings) : Command → Except Failure Outcome
  | pieces input =>
    inspect options surroundings input fun document =>
      Json.ofList Piece.toJson document.pieces.toList
  | tree input => inspect options surroundings input (·.tree.toJson)
  | folds input => inspect options surroundings input (Json.ofList Fold.toJson ·.folds)
  | symbols input => inspect options surroundings input (Json.ofList Symbol.toJson ·.symbols)
  | scopes input place =>
    inspect options surroundings input fun document =>
      Json.ofList Binding.toJson (document.bindingsAt (place.offsetIn document.source))
  | check path => do return Check.run options (← Check.files options surroundings path)

end Command

namespace Invocation

/-- The outcome of an invocation.  Options are read before anything else. -/
def outcome (invocation : Invocation) (surroundings : Surroundings) : Outcome :=
  let result := do
    let options ← surroundings.options invocation.config
    invocation.command.run options surroundings
  match result with
  | .ok outcome => outcome
  | .error failure => .ofFailure "" failure

end Invocation
end TwigTemplate
