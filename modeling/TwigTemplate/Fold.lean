import TwigTemplate.Document
import TwigTemplate.LineTable
import TwigTemplate.Statement.Walk

/-!
# Folding

Ranges of lines that an editor may fold: bodies of constructs that are ended, and closed comments.
-/

namespace TwigTemplate

/-- What a foldable range holds. -/
inductive FoldKind
  /-- A body. -/
  | region
  /-- A comment. -/
  | comment
  deriving DecidableEq, Repr

/-- A foldable range of lines. -/
structure Fold where
  /-- First line. -/
  startLine : Nat
  /-- Last line. -/
  endLine : Nat
  /-- What it holds. -/
  kind : FoldKind
  deriving DecidableEq, Repr

namespace Fold

/-- A range of more than one line. -/
def ofLines? (kind : FoldKind) (startLine endLine : Nat) : Option Fold :=
  if startLine < endLine then some ⟨startLine, endLine, kind⟩ else none

/-- The lines of a body, from the one of its opening piece to the one before its closing piece. -/
def ofSegment? (table : LineTable) (pieces : Array Piece) (segment : Segment) : Option Fold := do
  let opening ← pieces[segment.openPiece]?
  let closing ← segment.closePiece.bind (pieces[·]?)
  ofLines? .region (table.lineAt opening.span.start) (table.lineAt closing.span.start - 1)

/-- The lines of a closed comment. -/
def ofComment? (table : LineTable) (piece : Piece) : Option Fold :=
  if piece.kind = .region .comment ∧ piece.closed then
    ofLines? .comment (table.lineAt piece.span.start) (table.lineAt (piece.span.stop - 1))
  else none

/-- Ranges that start earlier come first, and of those that start together the longer ones. -/
def precedes (left right : Fold) : Bool :=
  left.startLine < right.startLine ||
    (left.startLine == right.startLine && right.endLine ≤ left.endLine)

end Fold

namespace Document

/-- The foldable ranges of a template. -/
def folds (document : Document) : List Fold :=
  let table := LineTable.ofSource document.source
  let segments := (Statement.all document.statements).flatMap Statement.segments
  let regions := segments.filterMap (Fold.ofSegment? table document.pieces)
  let comments := document.pieces.toList.filterMap (Fold.ofComment? table)
  (regions ++ comments).mergeSort Fold.precedes

end Document
end TwigTemplate
