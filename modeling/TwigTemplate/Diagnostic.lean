import TwigTemplate.Delimiter
import TwigTemplate.Excerpt

/-!
# Diagnostics

What may be wrong with a template's structure, and how it is told.  A finding is the cause; a
diagnostic is its wording and its place.
-/

namespace TwigTemplate

/-- Kinds of irregularities. -/
inductive DiagnosticKind
  /-- A region has no closing delimiter. -/
  | unclosedDelimiter
  /-- A construct has no end tag. -/
  | unclosedBlock
  /-- An end tag has no construct to end. -/
  | unexpectedEndTag
  /-- An end tag ends a construct while others inside it are open. -/
  | mismatchedEndTag
  /-- A branch has no construct that accepts it. -/
  | unexpectedBranch
  /-- A tag has no meaning. -/
  | unknownTag
  /-- A construct is nested too deeply to be kept. -/
  | nestingTooDeep
  deriving DecidableEq, Repr

namespace DiagnosticKind

/-- The kind in words. -/
def title : DiagnosticKind → String
  | unclosedDelimiter => "Unclosed delimiter"
  | unclosedBlock => "Unclosed block"
  | unexpectedEndTag => "Unexpected end tag"
  | mismatchedEndTag => "Mismatched end tag"
  | unexpectedBranch => "Unexpected branch"
  | unknownTag => "Unknown tag"
  | nestingTooDeep => "Nesting too deep"

end DiagnosticKind

/-- What a user is told about an irregularity. -/
structure Diagnostic where
  /-- Kind of irregularity. -/
  kind : DiagnosticKind
  /-- What is wrong. -/
  message : String
  /-- Where it is wrong. -/
  span : Span
  /-- Another place that has to do with it. -/
  relatedSpan : Option Span := none
  /-- What there is at the other place. -/
  relatedLabel : Option String := none
  /-- How to mend it. -/
  help : Option String := none
  deriving DecidableEq, Repr

namespace Diagnostic

/-- The diagnostic on one line, without its place. -/
def summary (diagnostic : Diagnostic) : String :=
  s!"{diagnostic.kind.title}: {diagnostic.message}"

end Diagnostic

/-- Causes of diagnostics. -/
inductive Finding
  /-- A region is not closed. -/
  | unclosedDelimiter (delimiter : Delimiter) (span : Span)
  /-- A construct opened at `span` is cut off by an end tag further out, or, when `atEnd` holds, by
  the end of the template. -/
  | unclosedBlock (keyword : String) (span : Span) (atEnd : Bool)
  /-- An end tag finds no construct with its keyword. -/
  | unexpectedEndTag (keyword : String) (span : Span)
  /-- An end tag ends a construct while others inside it are open, of which the innermost one is
  `inner`, opened at `opened`. -/
  | mismatchedEndTag (keyword : String) (span : Span) (inner : String) (opened : Span)
  /-- The innermost construct has no place for a branch. -/
  | unexpectedBranch (keyword : String) (span : Span)
  /-- A tag has no meaning. -/
  | unknownTag (keyword : Excerpt)
  /-- A construct opens inside `limit` others. -/
  | nestingTooDeep (keyword : String) (limit : Nat) (span : Span)
  deriving DecidableEq, Repr

namespace Finding

/-- The end tag of a construct. -/
def endTag (keyword : String) : String := "\x7b% end" ++ keyword ++ " %\x7d"

/-- The wording of a finding. -/
def diagnostic : Finding → Diagnostic
  | unclosedDelimiter delimiter span =>
    { kind := .unclosedDelimiter, span
      message := s!"`{delimiter.openText}` is never closed"
      help := some s!"add `{delimiter.closeText}`" }
  | unclosedBlock keyword span atEnd =>
    { kind := .unclosedBlock, span
      message := s!"`{keyword}` is never closed"
      help := if atEnd then some s!"add `{endTag keyword}`" else none }
  | unexpectedEndTag keyword span =>
    { kind := .unexpectedEndTag, span
      message := s!"`end{keyword}` has no open `{keyword}` to close" }
  | mismatchedEndTag keyword span inner opened =>
    { kind := .mismatchedEndTag, span
      message := s!"`end{keyword}` closes `{keyword}` while `{inner}` is still open"
      relatedSpan := some opened
      relatedLabel := some s!"`{inner}` opened here"
      help := some s!"add `{endTag inner}` before this tag" }
  | unexpectedBranch keyword span =>
    { kind := .unexpectedBranch, span
      message := s!"`{keyword}` outside of a construct that accepts it" }
  | unknownTag keyword =>
    { kind := .unknownTag, span := keyword.span
      message := s!"unknown tag `{keyword.text}`" }
  | nestingTooDeep keyword limit span =>
    { kind := .nestingTooDeep, span
      message := s!"`{keyword}` is nested deeper than {limit} levels"
      help := some "its contents are kept in the enclosing construct" }

end Finding
end TwigTemplate
