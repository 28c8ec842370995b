import TwigTemplate.Statement

/-!
# Mentions of pieces

The pieces that a list of statements mentions, in the order of the template: a statement's first
piece, its main body, its branches, each after the piece that opens it, and its end piece.
-/

namespace TwigTemplate

/-- A piece that a statement mentions. -/
structure Mention where
  /-- Index of the piece. -/
  piece : Nat
  /-- The statement is an expression whose value is printed. -/
  isOutput : Bool
  deriving DecidableEq, Repr

namespace Mention

/-- A piece that opens or ends a body. -/
def mark (piece : Nat) : Mention := ⟨piece, false⟩

end Mention

namespace Statement

mutual

/-- The pieces that a statement mentions. -/
def mentions : Statement → List Mention
  | .leaf piece content => [⟨piece, content = .output⟩]
  | .construct piece _ body branches endPiece =>
    .mark piece :: (mentionsOf body ++ branchMentions branches ++ endPiece.toList.map .mark)

/-- The pieces that a list of statements mentions. -/
def mentionsOf : List Statement → List Mention
  | [] => []
  | statement :: statements => mentions statement ++ mentionsOf statements

/-- The pieces that a list of branches mentions. -/
def branchMentions : List (Branch Statement) → List Mention
  | [] => []
  | ⟨_, piece, body⟩ :: branches => .mark piece :: mentionsOf body ++ branchMentions branches

end

@[simp]
theorem mentionsOf_nil : mentionsOf [] = [] := rfl

@[simp]
theorem mentionsOf_cons (statement : Statement) (statements : List Statement) :
    mentionsOf (statement :: statements) = statement.mentions ++ mentionsOf statements := rfl

@[simp]
theorem mentionsOf_append (left right : List Statement) :
    mentionsOf (left ++ right) = mentionsOf left ++ mentionsOf right := by
  induction left with
  | nil => rfl
  | cons statement left ih => simp [ih]

@[simp]
theorem branchMentions_nil : branchMentions [] = [] := rfl

@[simp]
theorem branchMentions_cons (branch : Branch Statement) (branches : List (Branch Statement)) :
    branchMentions (branch :: branches) =
      .mark branch.piece :: mentionsOf branch.body ++ branchMentions branches := rfl

@[simp]
theorem branchMentions_append (left right : List (Branch Statement)) :
    branchMentions (left ++ right) = branchMentions left ++ branchMentions right := by
  induction left with
  | nil => rfl
  | cons branch left ih => simp [ih]

end Statement
end TwigTemplate
