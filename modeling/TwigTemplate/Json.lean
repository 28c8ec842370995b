/-!
# JSON texts

JSON values with their fields in order, and their indented text.
-/

namespace TwigTemplate

/-- A JSON value whose numbers are natural. -/
inductive Json
  | null
  | bool (value : Bool)
  | number (value : Nat)
  | string (value : String)
  | array (elements : List Json)
  | object (fields : List (String × Json))

namespace Json

/-- The value, or `null` when there is none. -/
def ofOption {α : Type} (encode : α → Json) : Option α → Json
  | none => null
  | some value => encode value

/-- The values in order. -/
def ofList {α : Type} (encode : α → Json) (values : List α) : Json := array (values.map encode)

/-- A field that is left out when there is no value. -/
def optionalField {α : Type} (name : String) (encode : α → Json) :
    Option α → List (String × Json)
  | none => []
  | some value => [(name, encode value)]

/-- A character inside a quoted text.  Quotes, backslashes and control characters are escaped. -/
def escape (character : Char) : String :=
  match character with
  | '\x22' => "\\\""
  | '\x5c' => "\\\\"
  | '\n' => "\\n"
  | '\r' => "\\r"
  | '\t' => "\\t"
  | '\x08' => "\\b"
  | '\x0c' => "\\f"
  | character =>
    if character.toNat < 0x20 then
      "\\u00" ++ String.ofList [Nat.digitChar (character.toNat / 16),
        Nat.digitChar (character.toNat % 16)]
    else character.toString

/-- Append a text in double quotes. -/
def writeString (out text : String) : String :=
  (text.toList.foldl (fun out character => out ++ escape character) (out.push '\x22')).push '\x22'

/-- Append a new line with two spaces for each level. -/
def writeBreak (out : String) (level : Nat) : String :=
  Nat.repeat (·.push ' ') (2 * level) (out.push '\n')

mutual

/-- Append a value that stands at a level of nesting. -/
def write (level : Nat) (out : String) : Json → String
  | null => out ++ "null"
  | bool true => out ++ "true"
  | bool false => out ++ "false"
  | number value => out ++ toString value
  | string value => writeString out value
  | array [] => out ++ "[]"
  | array (element :: elements) =>
    let out := write (level + 1) (writeBreak (out.push '[') (level + 1)) element
    (writeBreak (writeElements (level + 1) out elements) level).push ']'
  | object [] => out ++ "\x7b\x7d"
  | object ((name, value) :: fields) =>
    let out := writeString (writeBreak (out.push '\x7b') (level + 1)) name ++ ": "
    let out := write (level + 1) out value
    (writeBreak (writeFields (level + 1) out fields) level).push '\x7d'

/-- Append the elements after the first one. -/
def writeElements (level : Nat) (out : String) : List Json → String
  | [] => out
  | element :: elements =>
    writeElements level (write level (writeBreak (out.push ',') level) element) elements

/-- Append the fields after the first one. -/
def writeFields (level : Nat) (out : String) : List (String × Json) → String
  | [] => out
  | (name, value) :: fields =>
    let out := writeString (writeBreak (out.push ',') level) name ++ ": "
    writeFields level (write level out value) fields

end

/-- The text of a value, indented by two spaces for each level. -/
def pretty (value : Json) : String := write 0 "" value

end Json
end TwigTemplate
