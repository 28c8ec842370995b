import TwigTemplate.Byte

/-!
# Delimiters

The three pairs of delimiters that mark off tags, expressions and comments from markup.
-/

namespace TwigTemplate

/-- The kinds of delimited regions. -/
inductive Delimiter
  /-- A tag, which structures the template. -/
  | tag
  /-- An expression, whose value is printed. -/
  | expression
  /-- A comment, which is opaque. -/
  | comment
  deriving DecidableEq, Repr

namespace Delimiter

/-- The text that opens a region. -/
def openText : Delimiter → String
  | tag => "\x7b%"
  | expression => "\x7b\x7b"
  | comment => "\x7b#"

/-- The text that closes a region. -/
def closeText : Delimiter → String
  | tag => "%\x7d"
  | expression => "\x7d\x7d"
  | comment => "#\x7d"

/-- The byte next to the brace in both delimiters of a pair, which for expressions is a brace
itself. -/
def closeMark : Delimiter → UInt8
  | tag => Byte.percent
  | expression => Byte.rightBrace
  | comment => Byte.hash

/-- No closing delimiter starts with a trim mark of its own. -/
theorem isTrimMark_closeMark (delimiter : Delimiter) :
    Byte.isTrimMark delimiter.closeMark = false := by
  cases delimiter <;> rfl

/-- The delimiter that a brace followed by `mark` opens. -/
def ofMark? (mark : UInt8) : Option Delimiter :=
  if mark == Byte.percent then some tag
  else if mark == Byte.leftBrace then some expression
  else if mark == Byte.hash then some comment
  else none

/-- The delimiter that opens at the head of `bytes`. -/
def opener? : List UInt8 → Option Delimiter
  | brace :: mark :: _ => if brace == Byte.leftBrace then ofMark? mark else none
  | _ => none

/-- The bare closing delimiter stands at the head of `bytes`. -/
def startsBareClose (delimiter : Delimiter) : List UInt8 → Bool
  | mark :: brace :: _ => mark == delimiter.closeMark && brace == Byte.rightBrace
  | _ => false

/-- The closing delimiter stands at the head of `bytes`, perhaps after a trim mark. -/
def startsClose (delimiter : Delimiter) : List UInt8 → Bool
  | [] => false
  | byte :: tail =>
    delimiter.startsBareClose (byte :: tail) ||
      (Byte.isTrimMark byte && delimiter.startsBareClose tail)

end Delimiter
end TwigTemplate
