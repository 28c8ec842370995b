import TwigTemplate.Json.Scan
import TwigTemplate.Options

/-!
# Reading options

Options are written as a JSON object, or as an array of the values of its fields in order.  What is
missing keeps its default, and fields of other names are passed over.  The text is read once from
its start, so of several faults the first one is told.
-/

namespace TwigTemplate
namespace Options

open Json

/-- What may come next in a list. -/
inductive Place
  /-- The first item, or the end of the list. -/
  | first
  /-- Another item, after a comma. -/
  | item
  /-- A comma, or the end of the list. -/
  | more
  deriving DecidableEq, Repr

/-- The fault of a value that starts with `byte` and has a type that is not wanted.  What is wrong
with the value itself comes first. -/
def mismatch (byte : UInt8) (tail : List UInt8) : JsonFault :=
  let checked : Except JsonFault Bool :=
    match constant? byte with
    | some word => (scanWord word tail).map fun _ => true
    | none =>
      if byte == Byte.ofChar '-' then
        (scanNumber .truncated tail).map fun (digits, _) => !digits.overflows
      else if Byte.isDigit byte then
        (scanNumber .truncated (byte :: tail)).map fun (digits, _) => !digits.overflows
      else if byte == Byte.doubleQuote then (scanText .empty 0 tail).map fun _ => true
      else .ok (enclosure? byte).isSome
  match checked with
  | .error fault => fault
  | .ok valid => if valid then .mismatched else .malformed

/-- The texts of a list that has been opened, and the length of what was left of it. -/
def scanTexts (place : Place) (found : Array String) (passed : Nat) :
    (bytes : List UInt8) → Except JsonFault (List String × Nat)
  | [] => .error .truncated
  | byte :: tail =>
    if isBlank byte then scanTexts place found (passed + 1) tail
    else if byte == Byte.ofChar ']' then
      if place = .item then .error .malformed else .ok (found.toList, passed + 1)
    else if place = .more then
      if byte == Byte.ofChar ',' then scanTexts .item found (passed + 1) tail
      else .error .malformed
    else if byte == Byte.doubleQuote then
      match scanText .empty 0 tail with
      | .error fault => .error fault
      | .ok (text, length) =>
        scanTexts .more (found.push text) (passed + 1 + length) (tail.drop length)
    else .error (mismatch byte tail)
termination_by bytes => bytes.length
decreasing_by all_goals simp only [List.length_cons, List.length_drop]; omega

/-- A list of texts, and its length with the blanks before it. -/
def scanList (passed : Nat) : List UInt8 → Except JsonFault (List String × Nat)
  | [] => .error .truncated
  | byte :: tail =>
    if isBlank byte then scanList (passed + 1) tail
    else if byte == Byte.ofChar '[' then scanTexts .first #[] (passed + 1) tail
    else .error (mismatch byte tail)

/-- Length of a colon with the blanks before it. -/
def scanColon (passed : Nat) : List UInt8 → Except JsonFault Nat
  | [] => .error .truncated
  | byte :: tail =>
    if isBlank byte then scanColon (passed + 1) tail
    else if byte == Byte.ofChar ':' then .ok (passed + 1)
    else .error .malformed

/-- A field of the options. -/
inductive Field
  | bodyTags
  | inlineTags
  | extensions
  deriving DecidableEq, Repr

namespace Field

/-- All fields in order. -/
def all : List Field := [bodyTags, inlineTags, extensions]

/-- The name of a field. -/
def name : Field → String
  | bodyTags => "body_tags"
  | inlineTags => "inline_tags"
  | extensions => "extensions"

/-- The field with a name. -/
def ofName? (name : String) : Option Field := all.find? (·.name == name)

end Field

/-- Values of the fields read so far. -/
abbrev Fields : Type := List (Field × List String)

/-- The options with these values, and defaults otherwise. -/
def ofFields (fields : Fields) : Options :=
  { bodyTags := (fields.lookup .bodyTags).getD default.bodyTags
    inlineTags := (fields.lookup .inlineTags).getD default.inlineTags
    extensions := (fields.lookup .extensions).getD default.extensions }

/-- The fields after `found` and the length of the colon and the value that belong to a name.  No
field may have a value already. -/
def scanField (found : Fields) (name : String) (bytes : List UInt8) :
    Except JsonFault (Fields × Nat) :=
  match Field.ofName? name with
  | none => do
    let colon ← scanColon 0 bytes
    let length ← skipValue .value [] 0 (bytes.drop colon)
    return (found, colon + length)
  | some field =>
    if (found.lookup field).isSome then .error .mismatched
    else do
      let colon ← scanColon 0 bytes
      let (texts, length) ← scanList 0 (bytes.drop colon)
      return ((field, texts) :: found, colon + length)

/-- The fields of an object that has been opened, and the length of what was left of it. -/
def scanObject (place : Place) (found : Fields) (passed : Nat) :
    (bytes : List UInt8) → Except JsonFault (Fields × Nat)
  | [] => .error .truncated
  | byte :: tail =>
    if isBlank byte then scanObject place found (passed + 1) tail
    else if byte == Byte.rightBrace then
      if place = .item then .error .malformed else .ok (found, passed + 1)
    else if place = .more then
      if byte == Byte.ofChar ',' then scanObject .item found (passed + 1) tail
      else .error .malformed
    else if byte == Byte.doubleQuote then
      match scanText .empty 0 tail with
      | .error fault => .error fault
      | .ok (name, nameLength) =>
        match scanField found name (tail.drop nameLength) with
        | .error fault => .error fault
        | .ok (found, length) =>
          scanObject .more found (passed + 1 + nameLength + length)
            (tail.drop (nameLength + length))
    else .error .malformed
termination_by bytes => bytes.length
decreasing_by all_goals simp only [List.length_cons, List.length_drop]; omega

/-- The values of an array that has been opened, for the fields that have none yet, and the length
of what was left of it. -/
def scanArray (place : Place) (missing : List Field) (found : Fields) (passed : Nat) :
    (bytes : List UInt8) → Except JsonFault (Fields × Nat)
  | [] => .error .truncated
  | byte :: tail =>
    if isBlank byte then scanArray place missing found (passed + 1) tail
    else if byte == Byte.ofChar ']' then
      if place = .item then .error .malformed else .ok (found, passed + 1)
    else
      match missing with
      | [] => .error .malformed
      | field :: missing =>
        if place = .more then
          if byte == Byte.ofChar ',' then
            scanArray .item (field :: missing) found (passed + 1) tail
          else .error .malformed
        else if byte == Byte.ofChar '[' then
          match scanTexts .first #[] 0 tail with
          | .error fault => .error fault
          | .ok (texts, length) =>
            scanArray .more missing ((field, texts) :: found) (passed + 1 + length)
              (tail.drop length)
        else .error (mismatch byte tail)
termination_by bytes => bytes.length
decreasing_by all_goals simp only [List.length_cons, List.length_drop]; omega

/-- The fields in a whole text. -/
def scanFields (passed : Nat) : List UInt8 → Except JsonFault (Fields × Nat)
  | [] => .error .truncated
  | byte :: tail =>
    if isBlank byte then scanFields (passed + 1) tail
    else if byte == Byte.leftBrace then scanObject .first [] (passed + 1) tail
    else if byte == Byte.ofChar '[' then scanArray .first Field.all [] (passed + 1) tail
    else .error (mismatch byte tail)

/-- The options that a text holds, with nothing but blanks after them. -/
def read (text : String) : Except JsonFault Options := do
  let bytes := text.toUTF8.data.toList
  let (fields, length) ← scanFields 0 bytes
  if (bytes.drop length).all isBlank then return ofFields fields else .error .malformed

end Options
end TwigTemplate
