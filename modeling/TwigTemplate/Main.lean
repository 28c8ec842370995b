import TwigTemplate.Command.Arguments
import TwigTemplate.Command.Outcome

/-!
# The program

The only part that talks to the outside: it looks up what the command line mentions, and prints the
outcome.
-/

namespace TwigTemplate
namespace Program

/-- How to run the program. -/
def usage : String :=
  "Usage: twig <pieces|tree|folds|symbols> [--stdin] [FILE]\n" ++
    "       twig scopes [--stdin] [FILE] (--offset N | --line N [--col N])\n" ++
    "       twig check PATH\n" ++
    "Options: --config FILE, -v, --verbose\n"

/-- What there is at a path of the file system. -/
partial def load (path : String) : IO (Option Entry) := do
  try
    match (← System.mkFilePath [path] |>.metadata).type with
    | .dir =>
      let found ← System.mkFilePath [path] |>.readDir
      let entries ← found.toList.filterMapM fun item => do
        return (← load (Entry.join path item.fileName)).map (item.fileName, ·)
      return some (.directory entries)
    | _ => return some (.file (← IO.FS.readBinFile path))
  catch _ => return none

/-- The paths that an invocation mentions. -/
def mentioned (invocation : Invocation) : List String :=
  let ofInput : Input → List String
    | .file path => [path]
    | .standard => []
  invocation.config.toList ++
    match invocation.command with
    | .pieces input | .tree input | .folds input | .symbols input | .scopes input _ => ofInput input
    | .check path => [path]

/-- The command reads standard input. -/
def readsInput : Command → Bool
  | .pieces input | .tree input | .folds input | .symbols input | .scopes input _ =>
    input == .standard
  | .check _ => false

/-- Everything an invocation may look at. -/
def surroundings (invocation : Invocation) : IO Surroundings := do
  let entries ← (mentioned invocation).filterMapM fun path => do
    return (← load path).map (path, ·)
  let input ←
    if readsInput invocation.command then (← IO.getStdin).readBinToEnd else pure .empty
  return ⟨(entries.lookup ·), input⟩

/-- Run the program and give its exit code. -/
def run (arguments : List String) : IO UInt32 := do
  match Invocation.ofArguments? arguments with
  | none =>
    IO.eprint usage
    return 2
  | some invocation =>
    let started ← IO.monoNanosNow
    let outcome := invocation.outcome (← surroundings invocation)
    IO.print outcome.output
    let elapsed := (← IO.monoNanosNow) - started
    IO.eprint (outcome.errorText (elapsed / 1000))
    return if outcome.success then 0 else 1

end Program
end TwigTemplate

/-- The program. -/
def main (arguments : List String) : IO UInt32 := TwigTemplate.Program.run arguments
