import TwigTemplate.Excerpt

/-!
# Statements

The structure of a template is a list of statements.  A leaf is a single piece.  A construct owns
bodies of statements between the piece that opens it, its branches, and the piece that ends it.
Pieces are given by their index.
-/

namespace TwigTemplate

/-- A macro that is imported by name. -/
structure ImportedName where
  /-- Name of the macro in the template that defines it. -/
  name : Excerpt
  /-- Name to be used for it here. -/
  renamed : Option Excerpt
  deriving DecidableEq, Repr

namespace ImportedName

/-- The name that the import binds. -/
def bound (imported : ImportedName) : Excerpt := imported.renamed.getD imported.name

end ImportedName

/-- A parameter of a macro. -/
structure Parameter where
  /-- Name of the parameter. -/
  name : Excerpt
  /-- Expression for its value when none is given. -/
  default : Option Excerpt
  deriving DecidableEq, Repr

/-- What a statement without bodies is. -/
inductive Leaf
  /-- An expression whose value is printed. -/
  | output
  /-- The template that this one extends. -/
  | parent (template : Option Excerpt)
  /-- A template that is included. -/
  | inclusion (template : Option Excerpt)
  /-- A template whose blocks are used. -/
  | reuse (template : Option Excerpt)
  /-- A template whose macros are bound as a whole. -/
  | library (template name : Option Excerpt)
  /-- A template whose macros are bound one by one. -/
  | selection (template : Option Excerpt) (names : List ImportedName)
  /-- A block with a value for a body. -/
  | blockValue (name : Option Excerpt) (value : Excerpt)
  /-- Variables that are set to a value, which may still be missing. -/
  | assignment (targets : List Excerpt) (value : Option Excerpt)
  deriving DecidableEq, Repr

/-- What opens a statement with bodies. -/
inductive Construct
  /-- A condition. -/
  | conditional (condition : Option Excerpt)
  /-- A loop over the items of `iterable` that satisfy `condition`. -/
  | loop (names : List Excerpt) (iterable condition : Option Excerpt)
  /-- A block with a body. -/
  | block (name : Option Excerpt)
  /-- The definition of a macro. -/
  | definition (name : Option Excerpt) (parameters : List Parameter)
  /-- Variables that are set to what the body prints. -/
  | capture (targets : List Excerpt)
  /-- Another tag with a body. -/
  | simple (keyword : String) (arguments : Option Excerpt)
  deriving DecidableEq, Repr

namespace Construct

/-- The keyword that opens the construct; its end tag is this keyword after `end`. -/
def keyword : Construct → String
  | conditional _ => "if"
  | loop .. => "for"
  | block _ => "block"
  | definition .. => "macro"
  | capture _ => "set"
  | simple keyword _ => keyword

end Construct

/-- What a further body of a construct is for. -/
inductive BranchKind
  /-- Another condition. -/
  | elseIf (condition : Option Excerpt)
  /-- Everything else. -/
  | otherwise
  deriving DecidableEq, Repr

namespace BranchKind

/-- The keyword of the branch. -/
def keyword : BranchKind → String
  | elseIf _ => "elseif"
  | otherwise => "else"

/-- The branch a construct may have only once, and last. -/
def isOtherwise : BranchKind → Bool
  | elseIf _ => false
  | otherwise => true

end BranchKind

namespace Construct

/-- The construct may have such a branch. -/
def accepts : Construct → BranchKind → Bool
  | conditional _, _ => true
  | loop .., .otherwise => true
  | _, _ => false

end Construct

/-- A further body of a construct, as a list of whatever stands for its statements. -/
structure Branch (α : Type) where
  /-- What the body is for. -/
  kind : BranchKind
  /-- The piece that opens it. -/
  piece : Nat
  /-- Its statements. -/
  body : List α

/-- A node of a template's structure. -/
inductive Statement
  /-- A statement that is a single piece. -/
  | leaf (piece : Nat) (content : Leaf)
  /-- A statement with bodies; `endPiece` is missing when it is never ended. -/
  | construct (piece : Nat) (header : Construct) (body : List Statement)
      (branches : List (Branch Statement)) (endPiece : Option Nat)

/-- Which of the bodies of a construct a segment is. -/
inductive SegmentKind
  /-- The body after the opening piece. -/
  | main
  /-- The body of the branch with this number. -/
  | elseIf (number : Nat)
  /-- The body for everything else. -/
  | otherwise
  deriving DecidableEq, Repr

/-- One body of a construct and the pieces around it. -/
structure Segment where
  /-- Which body it is. -/
  kind : SegmentKind
  /-- The piece that opens it. -/
  openPiece : Nat
  /-- The piece that ends it, unless the template ends first. -/
  closePiece : Option Nat
  /-- Its statements. -/
  body : List Statement

namespace Statement

/-- Name of the kind of statement. -/
def kindName : Statement → String
  | leaf _ content =>
    match content with
    | .output => "output"
    | .parent _ => "extends"
    | .inclusion _ => "include"
    | .reuse _ => "use"
    | .library .. => "import"
    | .selection .. => "from"
    | .blockValue .. => "block"
    | .assignment .. => "set"
  | construct _ header _ _ _ =>
    match header with
    | .simple .. => "simple"
    | header => header.keyword

/-- The first piece. -/
def startPiece : Statement → Nat
  | leaf piece _ => piece
  | construct piece _ _ _ _ => piece

/-- The piece of the end tag. -/
def endPiece? : Statement → Option Nat
  | leaf _ _ => none
  | construct _ _ _ _ endPiece => endPiece

/-- The statement owns bodies. -/
def hasBody : Statement → Bool
  | leaf _ _ => false
  | construct .. => true

/-- The statements of all bodies in order. -/
def children : Statement → List Statement
  | leaf _ _ => []
  | construct _ _ body branches _ => body ++ branches.flatMap (·.body)

/-- The bodies in order; each is ended by the piece that opens the next one, and the last by the end
tag. -/
def segments : Statement → List Segment
  | leaf _ _ => []
  | construct piece _ body branches endPiece =>
    let further := branches.zipIdx.map fun (branch, number) =>
      (if branch.kind.isOtherwise then .otherwise else .elseIf number, branch.piece, branch.body)
    let closers := branches.map (some ·.piece) ++ [endPiece]
    (((.main, piece, body) :: further).zip closers).map
      fun ((kind, openPiece, body), closePiece) => ⟨kind, openPiece, closePiece, body⟩

theorem sizeOf_append (left right : List Statement) :
    sizeOf (left ++ right) + 1 = sizeOf left + sizeOf right := by
  induction left with
  | nil =>
    rw [List.nil_append, List.nil.sizeOf_spec]
    omega
  | cons head tail ih =>
    simp only [List.cons_append, List.cons.sizeOf_spec]
    omega

theorem sizeOf_branches_le (branches : List (Branch Statement)) :
    sizeOf (branches.flatMap (·.body)) ≤ sizeOf branches := by
  induction branches with
  | nil => exact Nat.le_refl _
  | cons head tail ih =>
    have joined := sizeOf_append head.body (tail.flatMap (·.body))
    cases head
    simp only [List.flatMap_cons, List.cons.sizeOf_spec, Branch.mk.sizeOf_spec] at *
    omega

theorem sizeOf_children_le (statement : Statement) :
    sizeOf statement.children ≤ sizeOf statement := by
  cases statement with
  | leaf piece content =>
    simp only [children, leaf.sizeOf_spec, List.nil.sizeOf_spec]
    omega
  | construct piece header body branches endPiece =>
    have joined := sizeOf_append body (branches.flatMap (·.body))
    have branches_le := sizeOf_branches_le branches
    simp only [children, construct.sizeOf_spec]
    omega

theorem sizeOf_branch_lt {branch : Branch Statement} {branches : List (Branch Statement)}
    (member : branch ∈ branches) : sizeOf branch.body < sizeOf branches := by
  have branch_lt := List.sizeOf_lt_of_mem member
  cases branch
  simp only [Branch.mk.sizeOf_spec] at branch_lt ⊢
  omega

theorem sizeOf_segment_lt {statement : Statement} {segment : Segment}
    (member : segment ∈ statement.segments) : sizeOf segment.body < sizeOf statement := by
  cases statement with
  | leaf piece content => simp [segments] at member
  | construct piece header body branches endPiece =>
    simp only [segments, List.mem_map] at member
    obtain ⟨⟨⟨kind, openPiece, inner⟩, closePiece⟩, member, rfl⟩ := member
    have opened := (List.of_mem_zip member).1
    simp only [construct.sizeOf_spec]
    rcases List.mem_cons.mp opened with same | further
    · cases same
      omega
    · simp only [List.mem_map, Prod.exists] at further
      obtain ⟨branch, number, numbered, same⟩ := further
      have branch_lt : sizeOf branch.body < sizeOf branches :=
        sizeOf_branch_lt (List.fst_mem_of_mem_zipIdx numbered)
      cases same
      omega

end Statement
end TwigTemplate
