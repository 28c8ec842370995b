import TwigTemplate.Word

/-!
# Excerpts

Names and expressions are copied out of the source together with their place.
-/

namespace TwigTemplate

/-- A text and where it was written. -/
structure Excerpt where
  /-- The text. -/
  text : String
  /-- Where it lies. -/
  span : Span
  deriving DecidableEq, Repr

namespace Excerpt

/-- A single word. -/
def ofWord (word : Word) : Excerpt := ⟨word.text, word.span⟩

/-- A word that is a name. -/
def ofName? (word : Word) : Option Excerpt :=
  if word.kind = .name then some (ofWord word) else none

/-- All that lies between the start of the first word and the end of the last one. -/
def covering? (source : Source) (words : List Word) : Option Excerpt :=
  match words.head?, words.getLast? with
  | some first, some last =>
    let span : Span := ⟨first.span.start, last.span.stop⟩
    some ⟨source.read span, span⟩
  | _, _ => none

/-- What stands between the quotes of an expression that is a single literal. -/
def literal? (excerpt : Excerpt) : Option String :=
  match excerpt.text.toList with
  | [] => none
  | quote :: rest =>
    let inner := rest.dropLast
    if (quote == '\x22' || quote == '\x27') && rest.getLast? == some quote &&
        !inner.contains quote then
      some (String.ofList inner)
    else none

end Excerpt
end TwigTemplate
