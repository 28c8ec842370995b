/-!
# Commands

What the command line can be asked to do.
-/

namespace TwigTemplate

/-- Where a template comes from. -/
inductive Input
  /-- From the file at a path. -/
  | file (path : String)
  /-- From standard input. -/
  | standard
  deriving DecidableEq, Repr

/-- A place of a template where a cursor stands. -/
inductive CursorPlace
  /-- At an offset. -/
  | offset (value : Nat)
  /-- On a line, at a column. -/
  | line (number column : Nat)
  deriving DecidableEq, Repr

/-- Something to do. -/
inductive Command
  /-- Print the pieces of a template. -/
  | pieces (input : Input)
  /-- Print the structure of a template. -/
  | tree (input : Input)
  /-- Print the foldable ranges of a template. -/
  | folds (input : Input)
  /-- Print the symbols of a template. -/
  | symbols (input : Input)
  /-- Print the names in scope at a place of a template. -/
  | scopes (input : Input) (place : CursorPlace)
  /-- Report what is wrong with a template, or with all templates in a directory. -/
  | check (path : String)
  deriving DecidableEq, Repr

/-- All that a command line says. -/
structure Invocation where
  /-- What to do. -/
  command : Command
  /-- The file that holds the options. -/
  config : Option String
  /-- Details are to be logged, which this program has none of. -/
  verbose : Bool
  deriving DecidableEq, Repr

end TwigTemplate
