/-!
# Failures

Why the command line cannot do what it is asked to do.
-/

namespace TwigTemplate

/-- Causes of failure, which come with the words of the system that reports them where there is
one. -/
inductive Failure
  /-- A file cannot be read as text. -/
  | unreadable (path detail : String)
  /-- A file does not hold options. -/
  | badOptions (path detail : String)
  /-- An answer cannot be written as JSON. -/
  | unwritable (detail : String)
  /-- A file is no template; `expected` lists the extensions of those. -/
  | notTemplate (path expected : String)
  /-- There is nothing at a path. -/
  | missing (path : String)
  deriving DecidableEq, Repr

namespace Failure

/-- The failure in words. -/
def message : Failure → String
  | unreadable path detail => s!"failed to read {path}: {detail}"
  | badOptions path detail => s!"invalid config {path}: {detail}"
  | unwritable detail => s!"failed to serialize output: {detail}"
  | notTemplate path expected => s!"{path} is not a template (expected one of: {expected})"
  | missing path => s!"{path} does not exist"

end Failure
end TwigTemplate
