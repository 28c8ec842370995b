import TwigTemplate.Byte
import TwigTemplate.Span

/-!
# Template texts

A source keeps a template's text together with its UTF-8 bytes, because spans count bytes and the
bytes are read many times.
-/

namespace TwigTemplate

/-- A template's text and its bytes. -/
structure Source where
  /-- The text itself. -/
  text : String
  /-- Its UTF-8 encoding. -/
  bytes : ByteArray
  /-- The two are the same text. -/
  bytes_eq : bytes = text.toUTF8 := by rfl

namespace Source

/-- The source of a text. -/
def ofString (text : String) : Source := { text, bytes := text.toUTF8 }

/-- Length in bytes. -/
def size (source : Source) : Nat := source.bytes.size

/-- All bytes in order. -/
def toList (source : Source) : List UInt8 := source.bytes.data.toList

/-- The bytes in the part of `span` that lies inside the source. -/
def slice (source : Source) (span : Span) : List UInt8 :=
  let stop := min span.stop source.size
  if span.start < stop then (source.bytes.extract span.start stop).data.toList else []

/-- The text in `span`, which is empty unless both ends lie inside the source and between
characters. -/
def read (source : Source) (span : Span) : String :=
  if span.start < span.stop ∧ span.stop ≤ source.size then
    (String.fromUTF8? (source.bytes.extract span.start span.stop)).getD ""
  else
    ""

/-- The byte at an offset. -/
def byte? (source : Source) (offset : Nat) : Option UInt8 := source.bytes[offset]?

/-- An offset lies between two characters or at an end of the source. -/
def isBoundary (source : Source) (offset : Nat) : Bool :=
  match source.byte? offset with
  | some byte => !Byte.isContinuation byte
  | none => offset == source.size

end Source
end TwigTemplate
