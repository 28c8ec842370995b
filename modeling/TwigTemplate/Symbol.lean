import TwigTemplate.Document
import TwigTemplate.Statement.Walk

/-!
# Symbols

The names that a template declares and the templates to which it refers.
-/

namespace TwigTemplate

/-- What a symbol stands for. -/
inductive SymbolKind
  /-- A macro. -/
  | definition
  /-- A parameter of a macro. -/
  | parameter
  /-- A block. -/
  | block
  /-- A variable of a loop. -/
  | loopVariable
  /-- A variable that is set. -/
  | assigned
  /-- The name of an imported template. -/
  | libraryAlias
  /-- The name of an imported macro. -/
  | importedName
  /-- A template that a tag refers to. -/
  | template
  deriving DecidableEq, Repr

/-- A name that is declared, or a template that is referred to. -/
structure Symbol where
  /-- The name. -/
  name : String
  /-- What it stands for. -/
  kind : SymbolKind
  /-- Where it was written. -/
  span : Span
  /-- The piece where it was written. -/
  piece : Nat
  /-- More about it. -/
  detail : Option String
  deriving DecidableEq, Repr

namespace Symbol

/-- A name as it is declared. -/
def ofName (kind : SymbolKind) (piece : Nat) (detail : Option String) (name : Excerpt) : Symbol :=
  ⟨name.text, kind, name.span, piece, detail⟩

/-- A template that the tag `keyword` refers to; a literal goes by its content. -/
def ofTemplate (keyword : String) (piece : Nat) (template : Excerpt) : Symbol :=
  ⟨template.literal?.getD template.text, .template, template.span, piece, some keyword⟩

/-- The symbols of a leaf. -/
def ofLeaf (piece : Nat) : Leaf → List Symbol
  | .output => []
  | .parent template => template.toList.map (ofTemplate "extends" piece)
  | .inclusion template => template.toList.map (ofTemplate "include" piece)
  | .reuse template => template.toList.map (ofTemplate "use" piece)
  | .library template name =>
    template.toList.map (ofTemplate "import" piece) ++
      name.toList.map (ofName .libraryAlias piece (template.map (·.text)))
  | .selection template names =>
    template.toList.map (ofTemplate "from" piece) ++
      names.map fun name => ofName .importedName piece (some name.name.text) name.bound
  | .blockValue name _ => name.toList.map (ofName .block piece none)
  | .assignment targets _ => targets.map (ofName .assigned piece none)

/-- A macro's name and the names of its parameters. -/
def signature (name : Excerpt) (parameters : List Parameter) : String :=
  let names := String.intercalate ", " (parameters.map (·.name.text))
  s!"{name.text}({names})"

/-- The symbols of the header of a construct. -/
def ofConstruct (piece : Nat) : Construct → List Symbol
  | .conditional _ => []
  | .loop names _ _ => names.map (ofName .loopVariable piece none)
  | .block name => name.toList.map (ofName .block piece none)
  | .definition name parameters =>
    (name.toList.map fun name =>
      ofName .definition piece (some (signature name parameters)) name) ++
    parameters.map fun parameter =>
      ofName .parameter piece (parameter.default.map fun value => "= " ++ value.text)
        parameter.name
  | .capture targets => targets.map (ofName .assigned piece none)
  | .simple _ _ => []

/-- The symbols of a statement, those inside its bodies aside. -/
def ofStatement : Statement → List Symbol
  | .leaf piece content => ofLeaf piece content
  | .construct piece header _ _ _ => ofConstruct piece header

end Symbol

namespace Document

/-- All symbols of a template in order. -/
def symbols (document : Document) : List Symbol :=
  (Statement.all document.statements).flatMap Symbol.ofStatement

/-- The symbol under a cursor, or right before it. -/
def symbolAt? (document : Document) (offset : Nat) : Option Symbol :=
  document.symbols.find? (·.span.touches offset)

end Document
end TwigTemplate
