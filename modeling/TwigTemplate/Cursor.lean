import TwigTemplate.Document

/-!
# Cursor contexts

What a user may be typing where a cursor stands.
-/

namespace TwigTemplate

/-- The kind of text around a cursor. -/
inductive Cursor
  /-- Markup. -/
  | text
  /-- A comment, its delimiters included. -/
  | comment
  /-- A delimiter of a tag or an expression. -/
  | delimiter
  /-- The keyword of a tag, of which `typed` stands before the cursor. -/
  | keyword (typed : String)
  /-- What follows the keyword of a tag. -/
  | arguments (keyword : String)
  /-- An expression. -/
  | expression
  /-- A literal in a tag or an expression. -/
  | literal
  deriving DecidableEq, Repr

namespace Document

/-- The offset lies behind the opening quote of a literal and before its end.  Raw code that starts
with a quote is a literal that is never closed. -/
def inLiteral (document : Document) (offset : Nat) : Bool :=
  let before := fun index => document.tokens[index]?.any (·.span.stop < offset)
  match document.tokens[partitionPoint before document.tokens.size]? with
  | none => false
  | some token =>
    token.span.start < offset &&
      match token.kind with
      | .quoted => offset < token.span.stop
      | .raw => (document.source.byte? token.span.start).any Byte.isQuote
      | _ => false

/-- The context inside a tag, outside all its literals. -/
def cursorInTag (document : Document) (body : Span) (offset : Nat) : Cursor :=
  let header := Header.ofBody document.source body
  match header.keyword with
  | some keyword =>
    if keyword.span.stop < offset then .arguments keyword.text
    else if keyword.span.start ≤ offset then
      .keyword (document.source.read ⟨keyword.span.start, offset⟩)
    else .keyword ""
  | none =>
    if header.words.any (·.span.start < offset) then .arguments "" else .keyword ""

/-- The context of an offset; there is none past the end. -/
def cursorAt? (document : Document) (offset : Nat) : Option Cursor := do
  let piece ← document.pieces[← document.pieceAt? offset]?
  let inside := piece.body.start ≤ offset && offset ≤ piece.body.stop
  match piece.kind with
  | .text => return .text
  | .region .comment => return .comment
  | .region delimiter =>
    if !inside then return .delimiter
    else if document.inLiteral offset then return .literal
    else if delimiter = .expression then return .expression
    else return document.cursorInTag piece.body offset

end Document
end TwigTemplate
