import TwigTemplate.Binding
import TwigTemplate.Diagnostic
import TwigTemplate.Fold
import TwigTemplate.Json
import TwigTemplate.Symbol

/-!
# Documents as JSON

The JSON form of all that is known about a template.  A field whose value may be missing is `null`
then, except that fields of diagnostics and symbols are left out.
-/

namespace TwigTemplate

namespace Span

/-- The two ends. -/
def toJson (span : Span) : Json :=
  .object [("start", .number span.start), ("end", .number span.stop)]

end Span

namespace Excerpt

/-- The text and its place. -/
def toJson (excerpt : Excerpt) : Json :=
  .object [("text", .string excerpt.text), ("span", excerpt.span.toJson)]

end Excerpt

namespace Delimiter

/-- Name of the kind of region. -/
def name : Delimiter → String
  | tag => "tag"
  | expression => "expression"
  | comment => "comment"

end Delimiter

namespace TokenKind

/-- The kind, with its delimiter if it has one. -/
def toJson : TokenKind → Json
  | opening delimiter =>
    .object [("kind", .string "open"), ("delimiter", .string delimiter.name)]
  | closing delimiter =>
    .object [("kind", .string "close"), ("delimiter", .string delimiter.name)]
  | quoted => .object [("kind", .string "quotedString")]
  | raw => .object [("kind", .string "raw")]

end TokenKind

namespace Token

/-- The token; a trim mark is mentioned only if there is one. -/
def toJson (token : Token) : Json :=
  .object <| [("kind", token.kind.toJson), ("span", token.span.toJson)] ++
    if token.trim then [("trim", .bool true)] else []

end Token

namespace PieceKind

/-- Name of the kind of piece. -/
def name : PieceKind → String
  | text => "text"
  | region delimiter => delimiter.name

end PieceKind

namespace Piece

/-- The piece. -/
def toJson (piece : Piece) : Json :=
  .object
    [("kind", .string piece.kind.name), ("span", piece.span.toJson), ("body", piece.body.toJson),
      ("closed", .bool piece.closed)]

end Piece

namespace ImportedName

/-- The name and what it is renamed to. -/
def toJson (imported : ImportedName) : Json :=
  .object
    [("name", imported.name.toJson), ("alias", Json.ofOption Excerpt.toJson imported.renamed)]

end ImportedName

namespace Parameter

/-- The parameter and its default. -/
def toJson (parameter : Parameter) : Json :=
  .object
    [("name", parameter.name.toJson), ("default", Json.ofOption Excerpt.toJson parameter.default)]

end Parameter

namespace Leaf

/-- A statement that is the piece with an index. -/
def toJson (piece : Nat) : Leaf → Json
  | output => .object [("type", .string "output"), ("piece", .number piece)]
  | parent template =>
    .object
      [("type", .string "extends"), ("piece", .number piece),
        ("parent", Json.ofOption Excerpt.toJson template)]
  | inclusion template =>
    .object
      [("type", .string "include"), ("piece", .number piece),
        ("template", Json.ofOption Excerpt.toJson template)]
  | reuse template =>
    .object
      [("type", .string "use"), ("piece", .number piece),
        ("template", Json.ofOption Excerpt.toJson template)]
  | library template name =>
    .object
      [("type", .string "import"), ("piece", .number piece),
        ("source", Json.ofOption Excerpt.toJson template),
        ("alias", Json.ofOption Excerpt.toJson name)]
  | selection template names =>
    .object
      [("type", .string "from"), ("piece", .number piece),
        ("source", Json.ofOption Excerpt.toJson template),
        ("names", Json.ofList ImportedName.toJson names)]
  | blockValue name value =>
    .object
      [("type", .string "block"), ("startPiece", .number piece),
        ("name", Json.ofOption Excerpt.toJson name), ("value", value.toJson),
        ("stmts", .array []), ("endPiece", .null)]
  | assignment targets value =>
    .object
      [("type", .string "set"), ("startPiece", .number piece),
        ("targets", Json.ofList Excerpt.toJson targets),
        ("value", Json.ofOption Excerpt.toJson value), ("capture", .bool false),
        ("stmts", .array []), ("endPiece", .null)]

end Leaf

namespace Branch

/-- A further condition and its body; nothing for other branches. -/
def elseIfPart? (branch : Branch Json) : Option Json :=
  match branch.kind with
  | .elseIf condition =>
    some <| .object
      [("pieceIndex", .number branch.piece), ("condition", Json.ofOption Excerpt.toJson condition),
        ("stmts", .array branch.body)]
  | .otherwise => none

/-- The body for everything else; nothing for other branches. -/
def elsePart? (branch : Branch Json) : Option Json :=
  match branch.kind with
  | .elseIf _ => none
  | .otherwise =>
    some <| .object [("pieceIndex", .number branch.piece), ("stmts", .array branch.body)]

end Branch

namespace Construct

/-- A construct that starts with the piece that has an index. -/
def toJson (piece : Nat) (body : List Json) (branches : List (Branch Json)) (endPiece : Option Nat)
    (header : Construct) : Json :=
  let start := ("startPiece", .number piece)
  let stmts := ("stmts", .array body)
  let elsePart := ("elsePart", (branches.findSome? Branch.elsePart?).getD .null)
  let stop := ("endPiece", Json.ofOption Json.number endPiece)
  match header with
  | conditional condition =>
    .object
      [("type", .string "if"), start, ("condition", Json.ofOption Excerpt.toJson condition), stmts,
        ("elseIfParts", .array (branches.filterMap Branch.elseIfPart?)), elsePart, stop]
  | loop names iterable condition =>
    .object
      [("type", .string "for"), start, ("variables", Json.ofList Excerpt.toJson names),
        ("iterable", Json.ofOption Excerpt.toJson iterable),
        ("condition", Json.ofOption Excerpt.toJson condition), stmts, elsePart, stop]
  | block name =>
    .object
      [("type", .string "block"), start, ("name", Json.ofOption Excerpt.toJson name),
        ("value", .null), stmts, stop]
  | definition name parameters =>
    .object
      [("type", .string "macro"), start, ("name", Json.ofOption Excerpt.toJson name),
        ("parameters", Json.ofList Parameter.toJson parameters), stmts, stop]
  | capture targets =>
    .object
      [("type", .string "set"), start, ("targets", Json.ofList Excerpt.toJson targets),
        ("value", .null), ("capture", .bool true), stmts, stop]
  | simple keyword arguments =>
    .object
      [("type", .string "simple"), ("keyword", .string keyword), start,
        ("arguments", Json.ofOption Excerpt.toJson arguments), stmts, stop]

end Construct

namespace Statement

mutual

/-- A statement with all that it encloses. -/
def toJson : Statement → Json
  | leaf piece content => content.toJson piece
  | construct piece header body branches endPiece =>
    header.toJson piece (collectJson #[] body) (collectBranches #[] branches) endPiece

/-- Append the forms of statements to those at hand. -/
def collectJson (found : Array Json) : List Statement → List Json
  | [] => found.toList
  | statement :: rest => collectJson (found.push statement.toJson) rest

/-- Append branches with the forms of their statements to those at hand. -/
def collectBranches (found : Array (Branch Json)) : List (Branch Statement) → List (Branch Json)
  | [] => found.toList
  | ⟨kind, piece, body⟩ :: rest =>
    collectBranches (found.push ⟨kind, piece, collectJson #[] body⟩) rest

end

end Statement

namespace DiagnosticKind

/-- Name of the kind. -/
def name : DiagnosticKind → String
  | unclosedDelimiter => "unclosedDelimiter"
  | unclosedBlock => "unclosedBlock"
  | unexpectedEndTag => "unexpectedEndTag"
  | mismatchedEndTag => "mismatchedEndTag"
  | unexpectedBranch => "unexpectedBranch"
  | unknownTag => "unknownTag"
  | nestingTooDeep => "nestingTooDeep"

end DiagnosticKind

namespace Diagnostic

/-- The diagnostic. -/
def toJson (diagnostic : Diagnostic) : Json :=
  .object <|
    [("kind", .string diagnostic.kind.name), ("message", .string diagnostic.message),
      ("span", diagnostic.span.toJson)] ++
    Json.optionalField "relatedSpan" Span.toJson diagnostic.relatedSpan ++
    Json.optionalField "relatedLabel" Json.string diagnostic.relatedLabel ++
    Json.optionalField "help" Json.string diagnostic.help

end Diagnostic

namespace Tree

/-- The statements and the diagnostics. -/
def toJson (tree : Tree) : Json :=
  .object
    [("statements", Json.ofList Statement.toJson tree.statements),
      ("diagnostics", Json.ofList Diagnostic.toJson tree.diagnostics)]

end Tree

namespace Fold

/-- The lines and what they hold. -/
def toJson (fold : Fold) : Json :=
  .object
    [("startLine", .number fold.startLine), ("endLine", .number fold.endLine),
      ("kind", .string (match fold.kind with | .region => "region" | .comment => "comment"))]

end Fold

namespace BindingKind

/-- Name of the kind. -/
def name : BindingKind → String
  | loopVariable => "loopVar"
  | parameter => "macroParam"
  | library => "importedAlias"
  | importedName => "importedName"
  | assigned => "blockLocal"

end BindingKind

namespace Binding

/-- The binding. -/
def toJson (binding : Binding) : Json :=
  .object
    [("name", .string binding.name), ("kind", .string binding.kind.name),
      ("span", Json.ofOption Span.toJson binding.span),
      ("introducedAtPiece", .number binding.piece),
      ("visibleUntilPiece", Json.ofOption Json.number binding.until?)]

end Binding

namespace SymbolKind

/-- Name of the kind. -/
def name : SymbolKind → String
  | definition => "macro"
  | parameter => "macroParameter"
  | block => "block"
  | loopVariable => "loopVariable"
  | assigned => "variable"
  | libraryAlias => "importAlias"
  | importedName => "importedName"
  | template => "templateReference"

end SymbolKind

namespace Symbol

/-- The symbol. -/
def toJson (symbol : Symbol) : Json :=
  .object <|
    [("name", .string symbol.name), ("kind", .string symbol.kind.name),
      ("span", symbol.span.toJson), ("piece", .number symbol.piece)] ++
    Json.optionalField "detail" Json.string symbol.detail

end Symbol
end TwigTemplate
