import TwigTemplate.Tag

/-!
# Well-formed templates

A grammar for the meanings of pieces.  A body is a sequence of leaves, of pieces without a part in
the structure and of constructs; a construct is a body between the piece that opens it and its end
tag, with further bodies after branches that it accepts.  Each derivation has a list of statements
as its tree.
-/

namespace TwigTemplate
namespace Statement

mutual

/-- The pieces, each an index with its meaning, form a body with these statements, in which no more
than `room` constructs are nested. -/
inductive Derives : (room : Nat) → List (Nat × Tag) → List Statement → Prop
  /-- An empty body. -/
  | nil {room : Nat} : Derives room [] []
  /-- A statement that is a single piece. -/
  | leaf {room piece : Nat} {content : Leaf} {signs : List (Nat × Tag)}
      {statements : List Statement} (rest : Derives room signs statements) :
      Derives room ((piece, .single content) :: signs) (.leaf piece content :: statements)
  /-- A piece that has no part in the structure. -/
  | inert {room piece : Nat} {signs : List (Nat × Tag)} {statements : List Statement}
      (rest : Derives room signs statements) : Derives room ((piece, .inert) :: signs) statements
  /-- A construct from the piece that opens it to its end tag. -/
  | construct {room piece endPiece : Nat} {header : Construct}
      {inner further signs : List (Nat × Tag)} {body statements : List Statement}
      {branches : List (Branch Statement)} (main : Derives room inner body)
      (branched : DerivesBranches room header further branches)
      (rest : Derives (room + 1) signs statements) :
      Derives (room + 1)
        ((piece, .opening header) ::
          (inner ++ (further ++ (endPiece, .closing header.keyword) :: signs)))
        (.construct piece header body branches (some endPiece) :: statements)

/-- The pieces form the branches of a construct with this header: further conditions, and then, at
most once, what is for everything else. -/
inductive DerivesBranches : (room : Nat) → Construct → List (Nat × Tag) → List (Branch Statement) →
    Prop
  /-- No branch. -/
  | nil {room : Nat} {header : Construct} : DerivesBranches room header [] []
  /-- A further condition. -/
  | elseIf {room piece : Nat} {header : Construct} {condition : Option Excerpt}
      {inner further : List (Nat × Tag)} {body : List Statement}
      {branches : List (Branch Statement)} (accepted : header.accepts (.elseIf condition) = true)
      (main : Derives room inner body) (rest : DerivesBranches room header further branches) :
      DerivesBranches room header
        ((piece, .branch (.elseIf condition)) :: (inner ++ further))
        (⟨.elseIf condition, piece, body⟩ :: branches)
  /-- A branch for everything else. -/
  | otherwise {room piece : Nat} {header : Construct} {inner : List (Nat × Tag)}
      {body : List Statement} (accepted : header.accepts .otherwise = true)
      (main : Derives room inner body) :
      DerivesBranches room header ((piece, .branch .otherwise) :: inner)
        [⟨.otherwise, piece, body⟩]

end

/-- Bodies may be put together. -/
theorem Derives.append {right : List (Nat × Tag)} {after : List Statement} :
    ∀ {room : Nat} {left : List (Nat × Tag)} {before : List Statement},
      Derives room left before → Derives room right after →
        Derives room (left ++ right) (before ++ after)
  | _, _, _, .nil, last => last
  | _, _, _, .leaf rest, last => .leaf (rest.append last)
  | _, _, _, .inert rest, last => .inert (rest.append last)
  | _, _, _, .construct main branched rest, last => by
    simp only [List.cons_append, List.append_assoc]
    exact .construct main branched (rest.append last)

namespace DerivesBranches

variable {room : Nat} {header : Construct} {further : List (Nat × Tag)}
  {branches : List (Branch Statement)}

/-- More statements in the last branch. -/
theorem extend {signs : List (Nat × Tag)} {kind : BranchKind} {piece : Nat}
    {body statements : List Statement}
    (branched : DerivesBranches room header further (branches ++ [⟨kind, piece, body⟩]))
    (more : Derives room signs statements) :
    DerivesBranches room header (further ++ signs)
      (branches ++ [⟨kind, piece, body ++ statements⟩]) := by
  induction branches generalizing further with
  | nil =>
      cases branched with
      | elseIf accepted main rest =>
          cases rest with
          | nil =>
              rw [List.append_nil, List.cons_append, ← List.append_nil (_ ++ signs)]
              exact .elseIf accepted (main.append more) .nil
      | otherwise accepted main => exact .otherwise accepted (main.append more)
  | cons branch branches ih =>
      rw [List.cons_append] at branched
      generalize last : branches ++ [⟨kind, piece, body⟩] = later at branched
      cases branched with
      | elseIf accepted main rest =>
          rw [List.cons_append, List.cons_append, List.append_assoc]
          exact .elseIf accepted main (ih (last ▸ rest))
      | otherwise => simp at last

/-- One more branch, after branches that are not for everything else. -/
theorem snoc {kind : BranchKind} {piece : Nat}
    (branched : DerivesBranches room header further branches)
    (accepted : header.accepts kind = true)
    (earlier : ∀ branch ∈ branches, branch.kind.isOtherwise = false) :
    DerivesBranches room header (further ++ [(piece, .branch kind)])
      (branches ++ [⟨kind, piece, []⟩]) := by
  induction branches generalizing further with
  | nil =>
      cases branched
      cases kind with
      | elseIf condition => exact .elseIf accepted .nil .nil
      | otherwise => exact .otherwise accepted .nil
  | cons branch branches ih =>
      rw [List.forall_mem_cons] at earlier
      cases branched with
      | elseIf accepted main rest =>
          rw [List.cons_append, List.cons_append, List.append_assoc]
          exact .elseIf accepted main (ih rest earlier.2)
      | otherwise => cases earlier.1

end DerivesBranches
end Statement
end TwigTemplate
