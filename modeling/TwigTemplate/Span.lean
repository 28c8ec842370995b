/-!
# Byte ranges

A span is a half-open range of byte offsets.  Spans are compared with a text only when they are
read, so a span may also lie outside it or end before it starts.
-/

namespace TwigTemplate

/-- The byte offsets from `start` up to, and not including, `stop`. -/
structure Span where
  /-- First offset of the range. -/
  start : Nat
  /-- Offset after the last one. -/
  stop : Nat
  deriving DecidableEq, Repr, Inhabited

namespace Span

/-- The empty span at an offset. -/
def empty (offset : Nat) : Span := ⟨offset, offset⟩

/-- Number of bytes covered; nothing when the span ends before it starts. -/
def length (span : Span) : Nat := span.stop - span.start

/-- No byte is covered. -/
def isEmpty (span : Span) : Bool := span.length == 0

/-- The offset is one of the span's. -/
def contains (span : Span) (offset : Nat) : Bool := span.start ≤ offset && offset < span.stop

/-- The offset is one of the span's or the one right after it, where a cursor may stand. -/
def touches (span : Span) (offset : Nat) : Bool := span.start ≤ offset && offset ≤ span.stop

end Span
end TwigTemplate
