import TwigTemplate.Options
import TwigTemplate.Piece
import TwigTemplate.Statement

/-!
# Tags

What a piece contributes to the structure of a template, as told by its keyword: it opens, continues
or ends a construct, or it is a statement by itself.
-/

namespace TwigTemplate

/-- The content of a tag, split into its keyword and the words after it. -/
structure Header where
  /-- The first word, if it is a name. -/
  keyword : Option Excerpt
  /-- All other words. -/
  words : List Word
  deriving DecidableEq, Repr

namespace Header

/-- The header that the words form. -/
def ofWords : List Word → Header
  | [] => ⟨none, []⟩
  | first :: rest =>
    match Excerpt.ofName? first with
    | some keyword => ⟨some keyword, rest⟩
    | none => ⟨none, first :: rest⟩

/-- The header of a tag with this body. -/
def ofBody (source : Source) (body : Span) : Header := ofWords (Word.split source body)

end Header

/-- What a piece means. -/
inductive Tag
  /-- It opens a construct. -/
  | opening (header : Construct)
  /-- It opens another body of the innermost construct. -/
  | branch (kind : BranchKind)
  /-- It ends the construct with this keyword. -/
  | closing (keyword : String)
  /-- It is a statement. -/
  | single (leaf : Leaf)
  /-- It has no part in the structure. -/
  | inert
  /-- Its keyword has no meaning. -/
  | unknown (keyword : Excerpt)
  deriving DecidableEq, Repr

namespace Tag

/-- The names among the words outside all brackets. -/
def topNames (words : List Word) : List Excerpt :=
  (words.filter Word.isTop).filterMap Excerpt.ofName?

/-- The words before the first name outside all brackets that is one of `names`.  The first word
never counts as one. -/
def beforeNames (names : List String) : List Word → List Word
  | [] => []
  | first :: rest =>
    first :: rest.takeWhile fun word => !(word.isTop && names.any word.isName)

/-- A loop, `names in iterable if condition`. -/
def loop (source : Source) (words : List Word) : Construct :=
  match Word.cut? (fun word => word.isTop && word.isName "in") words with
  | none => .loop (topNames words) none none
  | some (names, rest) =>
    match Word.cut? (fun word => word.isTop && word.isName "if") rest with
    | none => .loop (topNames names) (Excerpt.covering? source rest) none
    | some (iterable, condition) =>
      .loop (topNames names) (Excerpt.covering? source iterable)
        (Excerpt.covering? source condition)

/-- A block, `name` or `name value`. -/
def block (source : Source) (words : List Word) : Tag :=
  let name := words.head?.bind Excerpt.ofName?
  match Excerpt.covering? source (words.drop 1) with
  | some value => .single (.blockValue name value)
  | none => .opening (.block name)

/-- A parameter, `name` or `name = default`. -/
def parameter? (source : Source) : List Word → Option Parameter
  | [] => none
  | first :: rest =>
    (Excerpt.ofName? first).map fun name =>
      let assigned := rest.head?.any (·.isMark "=")
      ⟨name, if assigned then Excerpt.covering? source (rest.drop 1) else none⟩

/-- The definition of a macro, `name(parameters)`. -/
def definition (source : Source) (words : List Word) : Construct :=
  let name := words.head?.bind Excerpt.ofName?
  match words.drop 1 with
  | [] => .definition name []
  | bracket :: rest =>
    if bracket.isMark "(" then
      let inner := rest.takeWhile fun word => !(word.isTop && word.isMark ")")
      .definition name ((Word.betweenCommas 1 inner).filterMap (parameter? source))
    else .definition name []

/-- Variables that are set, `targets = value`, or `targets` to capture a body. -/
def assignment (source : Source) (words : List Word) : Tag :=
  match Word.cut? (fun word => word.isTop && word.isMark "=") words with
  | none => .opening (.capture (topNames words))
  | some (targets, value) =>
    .single (.assignment (topNames targets) (Excerpt.covering? source value))

/-- A library, `template as name`. -/
def library (source : Source) (words : List Word) : Leaf :=
  match Word.cut? (fun word => word.isTop && word.isName "as") words with
  | none => .library (Excerpt.covering? source words) none
  | some (template, rest) =>
    .library (Excerpt.covering? source template) (rest.head?.bind Excerpt.ofName?)

/-- An imported name, `name` or `name as renamed`. -/
def importedName? : List Word → Option ImportedName
  | [] => none
  | first :: rest =>
    (Excerpt.ofName? first).map fun name =>
      match rest with
      | link :: renamed :: _ =>
        ⟨name, if link.isName "as" then Excerpt.ofName? renamed else none⟩
      | _ => ⟨name, none⟩

/-- A selection of macros, `template import names`. -/
def selection (source : Source) (words : List Word) : Leaf :=
  match Word.cut? (fun word => word.isTop && word.isName "import") words with
  | none => .selection (Excerpt.covering? source words) []
  | some (template, names) =>
    .selection (Excerpt.covering? source template)
      ((Word.betweenCommas 0 names).filterMap importedName?)

/-- What a tag with this keyword and these words after it means.  Keywords with a meaning of their
own come first, then tags with a body, then tags that stand alone, then end tags. -/
def ofKeyword (options : Options) (source : Source) (keyword : Excerpt) (words : List Word) : Tag :=
  match keyword.text with
  | "if" => .opening (.conditional (Excerpt.covering? source words))
  | "elseif" => .branch (.elseIf (Excerpt.covering? source words))
  | "else" => .branch .otherwise
  | "for" => .opening (loop source words)
  | "block" => block source words
  | "macro" => .opening (definition source words)
  | "set" => assignment source words
  | "import" => .single (library source words)
  | "from" => .single (selection source words)
  | "extends" => .single (.parent (Excerpt.covering? source words))
  | "include" =>
    .single (.inclusion (Excerpt.covering? source (beforeNames ["with", "ignore", "only"] words)))
  | "use" => .single (.reuse (Excerpt.covering? source (beforeNames ["with"] words)))
  | text =>
    if options.opensBody text then
      .opening (.simple text (Excerpt.covering? source words))
    else if options.standsAlone text then .inert
    else if "end".isPrefixOf text then .closing (String.ofList (text.toList.drop 3))
    else .unknown keyword

/-- What a tag with this body means; one without a keyword means nothing. -/
def ofBody (options : Options) (source : Source) (body : Span) : Tag :=
  let header := Header.ofBody source body
  match header.keyword with
  | some keyword => ofKeyword options source keyword header.words
  | none => .inert

/-- What a piece means. -/
def ofPiece (options : Options) (source : Source) (piece : Piece) : Tag :=
  match piece.kind with
  | .text => .inert
  | .region .comment => .inert
  | .region .expression => .single .output
  | .region .tag => ofBody options source piece.body

end Tag
end TwigTemplate
