import TwigTemplate.Bisection
import TwigTemplate.Source

/-!
# Lines and columns

Conversion between byte offsets and places given by line and column.  Both count from zero, and
columns count characters.
-/

namespace TwigTemplate

namespace Source

/-- The last boundary between characters at or before an offset, or before the end of the source. -/
def floorBoundary (source : Source) (offset : Nat) : Nat :=
  go (min offset source.size)
where
  /-- Step back to a boundary. -/
  go : Nat → Nat
    | 0 => 0
    | offset + 1 => if source.isBoundary (offset + 1) then offset + 1 else go offset

/-- Number of characters that start in a span. -/
def characterCount (source : Source) (span : Span) : Nat :=
  (source.slice span).countP (!Byte.isContinuation ·)

end Source

/-- A place in a text. -/
structure Position where
  /-- Number of the line. -/
  line : Nat
  /-- Number of characters before it on the line. -/
  column : Nat
  deriving DecidableEq, Repr

/-- A source and the offsets where its lines start. -/
structure LineTable where
  /-- The source. -/
  source : Source
  /-- The start of each line in order. -/
  starts : Array Nat

namespace LineTable

/-- Append the starts of the lines after the first one in bytes that start at an offset. -/
def collectStarts (offset : Nat) (found : Array Nat) : List UInt8 → Array Nat
  | [] => found
  | byte :: tail =>
    let found := if byte == Byte.newline then found.push (offset + 1) else found
    collectStarts (offset + 1) found tail

/-- The line table of a source. -/
def ofSource (source : Source) : LineTable := ⟨source, collectStarts 0 #[0] source.toList⟩

/-- Number of lines; a line may be empty, and the last one may be as well. -/
def size (table : LineTable) : Nat := table.starts.size

/-- The line of an offset; offsets past the end belong to the last line. -/
def lineAt (table : LineTable) (offset : Nat) : Nat :=
  let clamped := min offset table.source.size
  partitionPoint (fun line => table.starts[line]?.any (· ≤ clamped)) table.starts.size - 1

/-- Where a line starts. -/
def start? (table : LineTable) (line : Nat) : Option Nat := table.starts[line]?

/-- The place of an offset; inside a character, the place of that character. -/
def positionAt (table : LineTable) (offset : Nat) : Position :=
  let offset := table.source.floorBoundary offset
  let line := table.lineAt offset
  ⟨line, table.source.characterCount ⟨(table.start? line).getD 0, offset⟩⟩

/-- Number of bytes before the character with a number, or of all bytes when there are not that many
characters. -/
def skipCharacters (column : Nat) (bytes : List UInt8) : Nat :=
  go column 0 bytes
where
  /-- Continue from `passed` bytes. -/
  go (column passed : Nat) : List UInt8 → Nat
    | [] => passed
    | byte :: tail =>
      if Byte.isContinuation byte then go column (passed + 1) tail
      else
        match column with
        | 0 => passed
        | column + 1 => go column (passed + 1) tail

/-- The offset of a place; columns past the end of the line mean its end. -/
def offset? (table : LineTable) (position : Position) : Option Nat :=
  (table.start? position.line).map fun start =>
    let stop := ((table.start? (position.line + 1)).map (· - 1)).getD table.source.size
    start + skipCharacters position.column (table.source.slice ⟨start, stop⟩)

end LineTable
end TwigTemplate
