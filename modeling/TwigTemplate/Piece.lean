import TwigTemplate.Bisection
import TwigTemplate.Token

/-!
# Pieces

Tokens are grouped into pieces: runs of markup and delimited regions.  The pieces of a template
follow each other without a gap, and everything else refers to them by their index.
-/

namespace TwigTemplate

/-- What a piece is. -/
inductive PieceKind
  /-- Markup between regions. -/
  | text
  /-- A region and its delimiters. -/
  | region (delimiter : Delimiter)
  deriving DecidableEq, Repr

/-- A part of a template that is read as a whole. -/
structure Piece where
  /-- What the piece is. -/
  kind : PieceKind
  /-- Where it lies, delimiters included. -/
  span : Span
  /-- What it holds between the delimiters and their trim marks; of markup, all of it. -/
  body : Span
  /-- Its closing delimiter is there; markup is always closed. -/
  closed : Bool
  deriving DecidableEq, Repr

namespace Piece

/-- A piece of markup. -/
def text (span : Span) : Piece := ⟨.text, span, span, true⟩

/-- What has been read of the piece that a token may still extend. -/
inductive Pending
  /-- Nothing. -/
  | nothing
  /-- Markup. -/
  | text (span : Span)
  /-- A region that starts at `start`, with a body from `body`. -/
  | region (delimiter : Delimiter) (start body : Nat)
  deriving DecidableEq, Repr

namespace Pending

/-- The pending piece, when the next one starts at `stop`; a region is not closed then. -/
def finish (stop : Nat) : Pending → Option Piece
  | nothing => none
  | text span => some (Piece.text span)
  | region delimiter start body => some ⟨.region delimiter, ⟨start, stop⟩, ⟨body, stop⟩, false⟩

/-- Markup in `span` added to pending markup; a region keeps to its own extent. -/
def extend (span : Span) : Pending → Pending
  | nothing => text span
  | text earlier => text ⟨earlier.start, span.stop⟩
  | region delimiter start body => region delimiter start body

end Pending

/-- Pieces found so far, and the one being read. -/
structure Grouping where
  /-- Finished pieces in order. -/
  pieces : Array Piece
  /-- The piece that is being read. -/
  pending : Pending

namespace Grouping

/-- Take in the next token.  A closing delimiter outside every region is markup. -/
def step (grouping : Grouping) (token : Token) : Grouping :=
  match token.kind, grouping.pending with
  | .opening delimiter, pending =>
    ⟨grouping.pieces ++ (pending.finish token.span.start).toArray,
      .region delimiter token.span.start token.span.stop⟩
  | .closing _, .region delimiter start body =>
    ⟨grouping.pieces.push
      ⟨.region delimiter, ⟨start, token.span.stop⟩, ⟨body, token.span.start⟩, true⟩, .nothing⟩
  | _, pending => ⟨grouping.pieces, pending.extend token.span⟩

end Grouping

/-- The pieces that a sequence of tokens forms. -/
def group (tokens : Array Token) : Array Piece :=
  let grouping := tokens.foldl Grouping.step ⟨#[], .nothing⟩
  let stop := (tokens.back?.map (·.span.stop)).getD 0
  grouping.pieces ++ (grouping.pending.finish stop).toArray

/-- Index of the piece under an offset; the offset after the last piece belongs to it. -/
def indexAt? (pieces : Array Piece) (offset : Nat) : Option Nat :=
  pieces.back?.bind fun last =>
    if last.span.stop < offset then none
    else
      let passed := fun index => pieces[index]?.any (·.span.stop ≤ offset)
      some (min (partitionPoint passed pieces.size) (pieces.size - 1))

end Piece
end TwigTemplate
