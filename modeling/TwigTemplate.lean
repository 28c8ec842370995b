import TwigTemplate.Main
import TwigTemplate.Proofs.Binding.Truncate
import TwigTemplate.Proofs.Tree.Told
import TwigTemplate.Proofs.Tree.Passive
import TwigTemplate.Proofs.Tree.FirstPieces
import TwigTemplate.Proofs.Token.Extent
import TwigTemplate.Proofs.Tree.Opaque
import TwigTemplate.Proofs.Tree.Repair
import TwigTemplate.Proofs.Cursor.Typed
import TwigTemplate.Proofs.Symbol.Scope
import TwigTemplate.Proofs.Piece.Literal
import TwigTemplate.Proofs.Tree.Mark
import TwigTemplate.Proofs.Piece.Group
import TwigTemplate.Proofs.Line.Number
import TwigTemplate.Proofs.Line.Place
import TwigTemplate.Proofs.Command.Scopes
import TwigTemplate.Proofs.Fold
import TwigTemplate.Proofs.Command.Check
import TwigTemplate.Proofs.Diagnostic.Underline
import TwigTemplate.Proofs.Diagnostic.Report
import TwigTemplate.Proofs.Statement.Call
import TwigTemplate.Proofs.Diagnostic.Escape
import TwigTemplate.Proofs.Tree.Wording
import TwigTemplate.Proofs.Diagnostic.Color
import TwigTemplate.Proofs.Cursor.Enclosed
import TwigTemplate.Proofs.Word.Joint
import TwigTemplate.Proofs.Word.Plain
import TwigTemplate.Proofs.Tag.Signature
import TwigTemplate.Proofs.Tree.Signature
import TwigTemplate.Proofs.Tree.Begun
import TwigTemplate.Proofs.Word.Cover
import TwigTemplate.Proofs.Word.Depth
import TwigTemplate.Proofs.Literal.Content
