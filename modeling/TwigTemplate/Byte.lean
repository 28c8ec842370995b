/-!
# Bytes with a meaning

Templates are read byte by byte.  Every byte that structures a template is an ASCII one, so no such
byte ever occurs inside the encoding of another character.
-/

namespace TwigTemplate
namespace Byte

/-- The byte of an ASCII character. -/
def ofChar (character : Char) : UInt8 := character.toUInt8

/-- Opening brace. -/
def leftBrace : UInt8 := ofChar '\x7b'

/-- Closing brace. -/
def rightBrace : UInt8 := ofChar '\x7d'

/-- Percent sign, the inner half of a tag delimiter. -/
def percent : UInt8 := ofChar '%'

/-- Number sign, the inner half of a comment delimiter. -/
def hash : UInt8 := ofChar '#'

/-- Backslash, which hides the byte after it inside a literal. -/
def backslash : UInt8 := ofChar '\\'

/-- Line feed. -/
def newline : UInt8 := ofChar '\n'

/-- Full stop. -/
def dot : UInt8 := ofChar '.'

/-- Marks that ask for the whitespace around a delimiter to be trimmed. -/
def isTrimMark (byte : UInt8) : Bool := byte == ofChar '-' || byte == ofChar '~'

/-- Double quote. -/
def doubleQuote : UInt8 := 0x22

/-- Single quote. -/
def singleQuote : UInt8 := 0x27

/-- Quotes that start and end a literal. -/
def isQuote (byte : UInt8) : Bool := byte == doubleQuote || byte == singleQuote

/-- The whitespace that separates words of a tag: space, tab, line feed, form feed and carriage
return. -/
def isSpace (byte : UInt8) : Bool :=
  byte == ofChar ' ' || byte == ofChar '\t' || byte == newline || byte == 0x0c ||
    byte == ofChar '\r'

/-- Decimal digits. -/
def isDigit (byte : UInt8) : Bool := ofChar '0' ≤ byte && byte ≤ ofChar '9'

/-- Bytes that start a name: ASCII letters, the underscore, and every byte of a character beyond
ASCII. -/
def startsName (byte : UInt8) : Bool :=
  (ofChar 'a' ≤ byte && byte ≤ ofChar 'z') || (ofChar 'A' ≤ byte && byte ≤ ofChar 'Z') ||
    byte == ofChar '_' || 0x80 ≤ byte

/-- Bytes that continue a name. -/
def continuesName (byte : UInt8) : Bool := startsName byte || isDigit byte

/-- Bytes after the first one of a character's encoding. -/
def isContinuation (byte : UInt8) : Bool := 0x80 ≤ byte && byte < 0xc0

end Byte

/-- Number of bytes before the first point of `bytes` at which `stop` holds of what remains, or the
whole length when there is no such point. -/
def distanceTo (stop : List UInt8 → Bool) (bytes : List UInt8) : Nat :=
  go bytes 0
where
  /-- Continue the count from `passed` bytes. -/
  go : List UInt8 → Nat → Nat
    | [], passed => passed
    | byte :: tail, passed => if stop (byte :: tail) then passed else go tail (passed + 1)

theorem distanceTo_go (stop : List UInt8 → Bool) (bytes : List UInt8) (passed : Nat) :
    distanceTo.go stop bytes passed = distanceTo stop bytes + passed := by
  induction bytes generalizing passed with
  | nil => simp [distanceTo, distanceTo.go]
  | cons byte tail ih =>
    simp only [distanceTo, distanceTo.go]
    split
    · simp
    · rw [ih (passed + 1), ih (0 + 1)]
      omega

theorem distanceTo_cons (stop : List UInt8 → Bool) (byte : UInt8) (tail : List UInt8) :
    distanceTo stop (byte :: tail) =
      if stop (byte :: tail) then 0 else distanceTo stop tail + 1 := by
  rw [distanceTo, distanceTo.go]
  split
  · rfl
  · exact distanceTo_go stop tail (0 + 1)

theorem distanceTo_le (stop : List UInt8 → Bool) (bytes : List UInt8) :
    distanceTo stop bytes ≤ bytes.length := by
  induction bytes with
  | nil => exact Nat.le_refl 0
  | cons byte tail ih =>
    rw [distanceTo_cons]
    split
    · exact Nat.zero_le _
    · exact Nat.succ_le_succ ih

end TwigTemplate
