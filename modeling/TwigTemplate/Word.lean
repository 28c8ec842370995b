import TwigTemplate.Literal
import TwigTemplate.Source
import TwigTemplate.Splitting

/-!
# Words of a tag

The content of a tag is split into names, numbers, literals and punctuation.  Every word knows how
many brackets enclose it, which is all that is needed to find the parts of a tag; expressions are
not analysed any further.
-/

namespace TwigTemplate

/-- What a word is. -/
inductive WordKind
  /-- A run of letters, digits, underscores and characters beyond ASCII that starts with no
  digit. -/
  | name
  /-- A quoted literal, which may be unclosed. -/
  | literal
  /-- A run of digits, underscores and single points that starts with a digit. -/
  | number
  /-- One other byte. -/
  | punctuation
  /-- One of `Word.operators`. -/
  | operator
  deriving DecidableEq, Repr

/-- A word of a tag. -/
structure Word where
  /-- What the word is. -/
  kind : WordKind
  /-- Where it lies in the source. -/
  span : Span
  /-- Number of open brackets around it; a bracket counts as outside the pair that it forms. -/
  depth : Nat
  /-- The word itself, or nothing when its bytes are no whole characters. -/
  text : String
  deriving DecidableEq, Repr

namespace Word

/-- Operators of two bytes. -/
def operators : List (Char × Char) :=
  [('=', '='), ('!', '='), ('<', '='), ('>', '='), ('=', '>'), ('.', '.'), ('?', '?'), ('?', ':'),
    ('*', '*'), ('/', '/')]

/-- The two bytes form an operator. -/
def isOperator (first second : UInt8) : Bool :=
  operators.any fun (left, right) => first == Byte.ofChar left && second == Byte.ofChar right

/-- Length of a number's remainder.  Two points in a row are an operator and end it; `following` is
the byte after the content that is being split. -/
def numberRemainder (following : Option UInt8) (bytes : List UInt8) : Nat :=
  go bytes 0
where
  /-- Continue the count from `passed` bytes. -/
  go : List UInt8 → Nat → Nat
    | [], passed => passed
    | byte :: tail, passed =>
      if Byte.isDigit byte || byte == Byte.ofChar '_' then go tail (passed + 1)
      else if byte == Byte.dot && tail.head?.or following != some Byte.dot then
        go tail (passed + 1)
      else passed

/-- Kind of the word that starts with `byte`, and how many bytes of `tail` belong to it. -/
def shape (following : Option UInt8) (byte : UInt8) (tail : List UInt8) : WordKind × Nat :=
  if Byte.startsName byte then (.name, (tail.takeWhile Byte.continuesName).length)
  else if Byte.isDigit byte then (.number, numberRemainder following tail)
  else if Byte.isQuote byte then (.literal, (Literal.remainder? byte tail).getD tail.length)
  else if tail.head?.any (isOperator byte) then (.operator, 1)
  else (.punctuation, 0)

/-- Opening brackets. -/
def isOpenBracket (byte : UInt8) : Bool :=
  byte == Byte.ofChar '(' || byte == Byte.ofChar '[' || byte == Byte.leftBrace

/-- Closing brackets. -/
def isCloseBracket (byte : UInt8) : Bool :=
  byte == Byte.ofChar ')' || byte == Byte.ofChar ']' || byte == Byte.rightBrace

/-- Append the words of `bytes`, which start at an offset inside `depth` brackets, to those already
found. -/
def collect (following : Option UInt8) (start depth : Nat) (found : Array Word) :
    (bytes : List UInt8) → Array Word
  | [] => found
  | byte :: tail =>
    if Byte.isSpace byte then collect following (start + 1) depth found tail
    else
      let (kind, extra) := shape following byte tail
      let stop := start + extra + 1
      let outer := if kind = .punctuation && isCloseBracket byte then depth - 1 else depth
      let inner := if kind = .punctuation && isOpenBracket byte then outer + 1 else outer
      let text := (String.fromUTF8? ⟨(byte :: tail.take extra).toArray⟩).getD ""
      collect following stop inner (found.push ⟨kind, ⟨start, stop⟩, outer, text⟩) (tail.drop extra)
termination_by bytes => bytes.length
decreasing_by all_goals simp only [List.length_cons, List.length_drop]; omega

/-- The words of the part of `span` that lies inside the source. -/
def split (source : Source) (span : Span) : List Word :=
  (collect (source.byte? span.stop) span.start 0 #[] (source.slice span)).toList

/-- The word is the name. -/
def isName (word : Word) (name : String) : Bool := word.kind == .name && word.text == name

/-- The word is punctuation, namely the mark. -/
def isMark (word : Word) (mark : String) : Bool := word.kind == .punctuation && word.text == mark

/-- The word stands outside all brackets. -/
def isTop (word : Word) : Bool := word.depth == 0

/-- The words before and after the first one with a property. -/
def cut? (property : Word → Bool) (words : List Word) : Option (List Word × List Word) :=
  match words.span (!property ·) with
  | (_, []) => none
  | (before, _ :: after) => some (before, after)

/-- The groups of words between commas at a depth, empty ones included. -/
def betweenCommas (depth : Nat) (words : List Word) : List (List Word) :=
  groupsBetween (fun word => word.depth == depth && word.isMark ",") words

end Word
end TwigTemplate
