import TwigTemplate.Byte

/-!
# Scanning JSON

Parts of a JSON text are taken off the bytes that remain of it.  Each function here gives the number
of bytes that belong to the part, and tells why there is no such part otherwise.
-/

namespace TwigTemplate

/-- Why a text does not hold what it should. -/
inductive JsonFault
  /-- It is not JSON. -/
  | malformed
  /-- It is JSON of another shape. -/
  | mismatched
  /-- It ends too early. -/
  | truncated
  deriving DecidableEq, Repr

namespace Json

/-- White space between the parts of a text. -/
def isBlank (byte : UInt8) : Bool :=
  byte == Byte.ofChar ' ' || byte == Byte.newline || byte == Byte.ofChar '\t' ||
    byte == Byte.ofChar '\r'

/-- The rest of a word stands at the head of the bytes. -/
def scanWord : (word bytes : List UInt8) → Except JsonFault Unit
  | [], _ => .ok ()
  | _ :: _, [] => .error .truncated
  | expected :: word, byte :: tail =>
    if byte == expected then scanWord word tail else .error .malformed

/-- The rest of the word for a constant that starts with `byte`, if there is one. -/
def constant? (byte : UInt8) : Option (List UInt8) :=
  let words := ["null", "true", "false"].map (·.toUTF8.data.toList)
  (words.find? (·.head? == some byte)).map (·.drop 1)

/-! ### Numbers -/

/-- The digits of a number. -/
structure NumberText where
  /-- Digits before the point. -/
  whole : List UInt8
  /-- Digits after the point. -/
  fraction : List UInt8
  /-- The exponent is negative. -/
  shrinks : Bool
  /-- Digits of the exponent. -/
  exponent : List UInt8

namespace NumberText

/-- Largest significand. -/
def significandLimit : Nat := UInt64.size

/-- Largest exponent. -/
def exponentLimit : Nat := UInt32.size / 2

/-- The number with one more digit, if it stays below a limit. -/
def append? (limit value : Nat) (digit : UInt8) : Option Nat :=
  let value := 10 * value + (digit - Byte.ofChar '0').toNat
  if value < limit then some value else none

/-- The significand with as many digits as fit, and how many are left. -/
def significand (value : Nat) : List UInt8 → Nat × List UInt8
  | [] => (value, [])
  | digit :: digits =>
    match append? significandLimit value digit with
    | some value => significand value digits
    | none => (value, digit :: digits)

/-- The exponent, or nothing if it is beyond all limits. -/
def exponent? (digits : List UInt8) : Option Nat :=
  digits.foldlM (append? exponentLimit) 0

/-- The number is too large for a double. -/
def overflows (number : NumberText) : Bool :=
  let (whole, excess) := significand 0 number.whole
  let (value, rest) := significand whole number.fraction
  let shift : Int := (excess.length : Int) - (number.fraction.length - rest.length : Nat)
  match exponent? number.exponent with
  | none => value != 0 && !number.shrinks
  | some exponent =>
    let power := if number.shrinks then shift - exponent else shift + exponent
    value != 0 && 0 ≤ power &&
      (308 < power ||
        (value.toUInt64.toFloat * Float.ofScientific 1 false power.toNat).isInf)

end NumberText

/-- The digits at the head of the bytes, of which there is at least one.  Bytes that end too early
have the fault `atEnd`. -/
def scanDigits (atEnd : JsonFault) (bytes : List UInt8) : Except JsonFault (List UInt8) :=
  match bytes with
  | [] => .error atEnd
  | byte :: _ =>
    if Byte.isDigit byte then .ok (bytes.takeWhile Byte.isDigit) else .error .malformed

/-- Digits of a whole number; only zero itself starts with zero. -/
def scanWhole (atEnd : JsonFault) (bytes : List UInt8) : Except JsonFault (List UInt8) := do
  let digits ← scanDigits atEnd bytes
  if digits.head? == some (Byte.ofChar '0') && digits.length != 1 then .error .malformed
  else .ok digits

/-- Digits after a point, if there is one. -/
def scanFraction (atEnd : JsonFault) (bytes : List UInt8) :
    Except JsonFault (List UInt8 × Nat) :=
  match bytes with
  | byte :: tail =>
    if byte == Byte.dot then do
      let digits ← scanDigits atEnd tail
      return (digits, digits.length + 1)
    else .ok ([], 0)
  | [] => .ok ([], 0)

/-- Sign and digits of an exponent, if there is one. -/
def scanExponent (atEnd : JsonFault) (bytes : List UInt8) :
    Except JsonFault (Bool × List UInt8 × Nat) :=
  match bytes with
  | byte :: tail =>
    if byte == Byte.ofChar 'e' || byte == Byte.ofChar 'E' then do
      let shrinks := tail.head? == some (Byte.ofChar '-')
      let signed := shrinks || tail.head? == some (Byte.ofChar '+')
      let digits ← scanDigits atEnd (tail.drop (if signed then 1 else 0))
      return (shrinks, digits, digits.length + if signed then 2 else 1)
    else .ok (false, [], 0)
  | [] => .ok (false, [], 0)

/-- A number without its sign. -/
def scanNumber (atEnd : JsonFault) (bytes : List UInt8) :
    Except JsonFault (NumberText × Nat) := do
  let whole ← scanWhole atEnd bytes
  let rest := bytes.drop whole.length
  let (fraction, fractionLength) ← scanFraction atEnd rest
  let (shrinks, exponent, exponentLength) ← scanExponent atEnd (rest.drop fractionLength)
  return (⟨whole, fraction, shrinks, exponent⟩, whole.length + fractionLength + exponentLength)

/-! ### Texts -/

/-- The value of a hexadecimal digit. -/
def hexDigit? (byte : UInt8) : Option Nat :=
  if Byte.isDigit byte then some (byte - Byte.ofChar '0').toNat
  else if Byte.ofChar 'a' ≤ byte && byte ≤ Byte.ofChar 'f' then
    some ((byte - Byte.ofChar 'a').toNat + 10)
  else if Byte.ofChar 'A' ≤ byte && byte ≤ Byte.ofChar 'F' then
    some ((byte - Byte.ofChar 'A').toNat + 10)
  else none

/-- The value of four hexadecimal digits. -/
def scanUnit : List UInt8 → Except JsonFault Nat
  | first :: second :: third :: fourth :: _ =>
    match [first, second, third, fourth].mapM hexDigit? with
    | some digits => .ok (digits.foldl (fun value digit => 16 * value + digit) 0)
    | none => .error .malformed
  | _ => .error .truncated

/-- The first half of a surrogate pair. -/
def isHighSurrogate (unit : Nat) : Bool := 0xd800 ≤ unit && unit < 0xdc00

/-- The second half of a surrogate pair. -/
def isLowSurrogate (unit : Nat) : Bool := 0xdc00 ≤ unit && unit < 0xe000

/-- The character with a number, after the escape for a code unit has been opened. -/
def scanCharacter (bytes : List UInt8) : Except JsonFault (Char × Nat) := do
  let unit ← scanUnit bytes
  if isLowSurrogate unit then .error .malformed
  else if isHighSurrogate unit then
    match bytes.drop 4 with
    | [] => .error .truncated
    | [byte] => .error (if byte == Byte.backslash then .truncated else .malformed)
    | first :: second :: rest =>
      if first == Byte.backslash && second == Byte.ofChar 'u' then
        let low ← scanUnit rest
        if isLowSurrogate low then
          return (Char.ofNat (0x10000 + (unit - 0xd800) * 0x400 + (low - 0xdc00)), 10)
        else .error .malformed
      else .error .malformed
  else return (Char.ofNat unit, 4)

/-- Characters with an escape of their own. -/
def escapes : List (Char × Char) :=
  [('\x22', '\x22'), ('\x5c', '\x5c'), ('/', '/'), ('b', '\x08'), ('f', '\x0c'), ('n', '\n'),
    ('r', '\r'), ('t', '\t')]

/-- The character that an escape without its backslash stands for. -/
def scanEscape : List UInt8 → Except JsonFault (Char × Nat)
  | [] => .error .truncated
  | byte :: tail =>
    if byte == Byte.ofChar 'u' then do
      let (character, length) ← scanCharacter tail
      return (character, length + 1)
    else
      match escapes.find? (Byte.ofChar ·.1 == byte) with
      | some (_, character) => .ok (character, 1)
      | none => .error .malformed

/-- The text up to the closing quote, when the bytes in `found` have been read after the opening
one. -/
def scanText (found : ByteArray) (passed : Nat) :
    (bytes : List UInt8) → Except JsonFault (String × Nat)
  | [] => .error .truncated
  | byte :: tail =>
    if byte == Byte.doubleQuote then .ok ((String.fromUTF8? found).getD "", passed + 1)
    else if byte == Byte.backslash then
      match scanEscape tail with
      | .error fault => .error fault
      | .ok (character, length) =>
        scanText (found ++ character.toString.toUTF8) (passed + 1 + length) (tail.drop length)
    else if byte < 0x20 then .error .malformed
    else scanText (found.push byte) (passed + 1) tail
termination_by bytes => bytes.length
decreasing_by all_goals simp only [List.length_cons, List.length_drop]; omega

/-- Length of an escape without its backslash, whether or not it stands for a character. -/
def skipEscape : List UInt8 → Except JsonFault Nat
  | [] => .error .truncated
  | byte :: tail =>
    if byte == Byte.ofChar 'u' then (scanUnit tail).map fun _ => 5
    else if escapes.any (Byte.ofChar ·.1 == byte) then .ok 1
    else .error .malformed

/-- Length of a text up to and with its closing quote. -/
def skipText (passed : Nat) : (bytes : List UInt8) → Except JsonFault Nat
  | [] => .error .truncated
  | byte :: tail =>
    if byte == Byte.doubleQuote then .ok (passed + 1)
    else if byte == Byte.backslash then
      match skipEscape tail with
      | .error fault => .error fault
      | .ok length => skipText (passed + 1 + length) (tail.drop length)
    else if byte < 0x20 then .error .malformed
    else skipText (passed + 1) tail
termination_by bytes => bytes.length
decreasing_by all_goals simp only [List.length_cons, List.length_drop]; omega

/-! ### Values of no interest -/

/-- A value that has been opened and not closed. -/
inductive Enclosure
  | array
  | object
  deriving DecidableEq, Repr

namespace Enclosure

/-- The byte that closes it. -/
def closer : Enclosure → UInt8
  | array => Byte.ofChar ']'
  | object => Byte.rightBrace

end Enclosure

/-- What comes next while a value is passed over. -/
inductive Expectation
  /-- A value. -/
  | value
  /-- The first value of an enclosure, or its end. -/
  | first
  /-- The name of a field. -/
  | name
  /-- The colon after a name. -/
  | colon
  /-- A comma, or the end of an enclosure. -/
  | more
  deriving DecidableEq, Repr

namespace Expectation

/-- What comes after a comma, or instead of the end of an empty enclosure. -/
def item : Enclosure → Expectation
  | .array => value
  | .object => name

/-- What is expected once the next byte is known: an enclosure either ends at once or has items. -/
def settle (byte : UInt8) : Expectation → List Enclosure → Expectation
  | first, enclosure :: _ => if byte == enclosure.closer then more else item enclosure
  | expected, _ => expected

end Expectation

/-- Length of a value that starts with `byte` and is not enclosed itself. -/
def skipScalar (byte : UInt8) (tail : List UInt8) : Except JsonFault Nat :=
  match constant? byte with
  | some word => (scanWord word tail).map fun _ => word.length
  | none =>
    if byte == Byte.ofChar '-' then (scanNumber .malformed tail).map (·.2)
    else if Byte.isDigit byte then (scanNumber .malformed (byte :: tail)).map (·.2 - 1)
    else if byte == Byte.doubleQuote then skipText 0 tail
    else .error .malformed

/-- The enclosure that a byte opens. -/
def enclosure? (byte : UInt8) : Option Enclosure :=
  if byte == Byte.ofChar '[' then some .array
  else if byte == Byte.leftBrace then some .object
  else none

/-- Length of what is left of a value inside enclosures, innermost first; blanks before it count. -/
def skipValue (expected : Expectation) (enclosures : List Enclosure) (passed : Nat) :
    (bytes : List UInt8) → Except JsonFault Nat
  | [] => if expected = .more ∧ enclosures = [] then .ok passed else .error .truncated
  | byte :: tail =>
    if expected = .more ∧ enclosures = [] then .ok passed
    else if isBlank byte then skipValue expected enclosures (passed + 1) tail
    else
      match expected.settle byte enclosures, enclosures with
      | .value, enclosures =>
        match enclosure? byte with
        | some enclosure => skipValue .first (enclosure :: enclosures) (passed + 1) tail
        | none =>
          match skipScalar byte tail with
          | .error fault => .error fault
          | .ok length => skipValue .more enclosures (passed + 1 + length) (tail.drop length)
      | .name, enclosures =>
        if byte == Byte.doubleQuote then
          match skipText 0 tail with
          | .error fault => .error fault
          | .ok length => skipValue .colon enclosures (passed + 1 + length) (tail.drop length)
        else .error .malformed
      | .colon, enclosures =>
        if byte == Byte.ofChar ':' then skipValue .value enclosures (passed + 1) tail
        else .error .malformed
      | .more, enclosure :: outer =>
        if byte == enclosure.closer then skipValue .more outer (passed + 1) tail
        else if byte == Byte.ofChar ',' then
          skipValue (.item enclosure) (enclosure :: outer) (passed + 1) tail
        else .error .malformed
      | _, _ => .error .malformed
termination_by bytes => bytes.length
decreasing_by all_goals simp only [List.length_cons, List.length_drop]; omega

end Json
end TwigTemplate
