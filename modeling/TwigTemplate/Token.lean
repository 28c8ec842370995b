import TwigTemplate.Delimiter
import TwigTemplate.Span

/-!
# Tokens

Tokens are the smallest parts into which a template is cut.  The tokens of a template follow each
other without a gap and cover all of it.
-/

namespace TwigTemplate

/-- What a token is. -/
inductive TokenKind
  /-- An opening delimiter with the trim mark after it. -/
  | opening (delimiter : Delimiter)
  /-- A closing delimiter with the trim mark before it. -/
  | closing (delimiter : Delimiter)
  /-- A closed literal inside a tag or an expression. -/
  | quoted
  /-- Anything else: markup, code, comment bodies, literals that are never closed. -/
  | raw
  deriving DecidableEq, Repr

/-- A classified part of a template. -/
structure Token where
  /-- What the part is. -/
  kind : TokenKind
  /-- Where it lies. -/
  span : Span
  /-- It is a delimiter with a trim mark. -/
  trim : Bool
  deriving DecidableEq, Repr

end TwigTemplate
