import TwigTemplate.Token.Lexeme
import TwigTemplate.Tree

/-!
# Documents

A template with everything that reading it yields.
-/

namespace TwigTemplate

/-- A template that has been read. -/
structure Document where
  /-- Its text. -/
  source : Source
  /-- Its tokens. -/
  tokens : Array Token
  /-- Its pieces. -/
  pieces : Array Piece
  /-- Its structure. -/
  tree : Tree

namespace Document

/-- Read a template. -/
def parse (options : Options) (source : Source) : Document :=
  let tokens := source.tokens
  let pieces := Piece.group tokens
  ⟨source, tokens, pieces, Tree.ofPieces options source pieces.toList⟩

/-- The statements outside all constructs. -/
def statements (document : Document) : List Statement := document.tree.statements

/-- What is wrong with the template. -/
def diagnostics (document : Document) : List Diagnostic := document.tree.diagnostics

/-- Index of the piece under an offset. -/
def pieceAt? (document : Document) (offset : Nat) : Option Nat :=
  Piece.indexAt? document.pieces offset

end Document
end TwigTemplate
