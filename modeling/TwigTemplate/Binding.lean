import TwigTemplate.Document

/-!
# Names in scope

Which names a template has bound where a cursor stands.  Imports and assignments bind names for the
rest of the body that holds them, a captured assignment only once its body has ended; loops and
macros bind names in their main body.
-/

namespace TwigTemplate

/-- How a name was bound. -/
inductive BindingKind
  /-- As a variable of a loop. -/
  | loopVariable
  /-- As a parameter of a macro. -/
  | parameter
  /-- As the name of an imported template. -/
  | library
  /-- As the name of an imported macro. -/
  | importedName
  /-- As a variable that is set. -/
  | assigned
  deriving DecidableEq, Repr

/-- A name in scope. -/
structure Binding where
  /-- The name. -/
  name : String
  /-- How it was bound. -/
  kind : BindingKind
  /-- Where it was written, unless it is bound without being written. -/
  span : Option Span
  /-- The piece that binds it. -/
  piece : Nat
  /-- The piece at which it is bound no longer, unless that is the end of the template. -/
  until? : Option Nat
  deriving DecidableEq, Repr

namespace Binding

/-- A name that is bound where it is written. -/
def ofExcerpt (kind : BindingKind) (piece : Nat) (until? : Option Nat) (name : Excerpt) : Binding :=
  ⟨name.text, kind, some name.span, piece, until?⟩

/-- Bind one more name, which hides an earlier binding of it. -/
def add (bindings : List Binding) (binding : Binding) : List Binding :=
  bindings.filter (·.name != binding.name) ++ [binding]

/-- Names bound by a statement in the statements after it, as seen from the piece `cursor`. -/
def ofSibling (cursor : Nat) (until? : Option Nat) : Statement → List Binding
  | .leaf piece (.library _ name) => name.toList.map (ofExcerpt .library piece until?)
  | .leaf piece (.selection _ names) =>
    names.map (ofExcerpt .importedName piece until? ·.bound)
  | .leaf piece (.assignment targets _) => targets.map (ofExcerpt .assigned piece until?)
  | .construct piece (.capture targets) _ _ (some endPiece) =>
    if endPiece < cursor then targets.map (ofExcerpt .assigned piece until?) else []
  | _ => []

/-- Names bound by the header of a statement in its main body. -/
def ofHeader (until? : Option Nat) : Statement → List Binding
  | .construct piece (.loop names _ _) _ _ _ =>
    names.map (ofExcerpt .loopVariable piece until?) ++
      [⟨"loop", .loopVariable, none, piece, until?⟩]
  | .construct piece (.definition _ parameters) _ _ _ =>
    parameters.map (ofExcerpt .parameter piece until? ·.name)
  | _ => []

/-- The piece `cursor` lies in a segment of a body that ends at `limit`. -/
def encloses (cursor : Nat) (limit : Option Nat) (segment : Segment) : Bool :=
  segment.openPiece < cursor && (segment.closePiece.or limit).all (cursor < ·)

/-- Add the names bound at the piece `cursor` by the statements of a body that ends at `limit`. -/
def gather (cursor : Nat) (limit : Option Nat) (bindings : List Binding) :
    (body : List Statement) → List Binding
  | [] => bindings
  | statement :: rest =>
    if cursor ≤ statement.startPiece then bindings
    else
      let bindings := (ofSibling cursor limit statement).foldl add bindings
      match _found : statement.segments.find? (encloses cursor limit) with
      | none => gather cursor limit bindings rest
      | some segment =>
        let stop := segment.closePiece.or limit
        let own := if segment.kind = .main then ofHeader stop statement else []
        gather cursor stop (own.foldl add bindings) segment.body
termination_by body => sizeOf body
decreasing_by
  · simp only [List.cons.sizeOf_spec]
    omega
  · have segment_lt := Statement.sizeOf_segment_lt (List.mem_of_find?_eq_some _found)
    simp only [List.cons.sizeOf_spec]
    omega

end Binding

namespace Document

/-- The names in scope at an offset, those of outer bodies first; there are none past the end. -/
def bindingsAt (document : Document) (offset : Nat) : List Binding :=
  match document.pieceAt? offset with
  | none => []
  | some cursor => Binding.gather cursor none [] document.statements

end Document
end TwigTemplate
