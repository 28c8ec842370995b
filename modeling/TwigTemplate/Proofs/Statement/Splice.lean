import TwigTemplate.Statement

/-!
# Splicing deep constructs

A tree may be cut down to a nesting limit: a construct inside that many others is replaced by the
statements of its bodies, which are cut down in the same way.
-/

namespace TwigTemplate
namespace Statement

mutual

/-- What is left of a statement inside `depth` constructs when constructs inside `limit` or more
others give way to the contents of their bodies. -/
def splice (limit depth : Nat) : Statement → List Statement
  | .leaf piece content => [.leaf piece content]
  | .construct piece header body branches endPiece =>
    let body := spliceAll limit (depth + 1) body
    let branches := spliceBranches limit (depth + 1) branches
    if depth < limit then [.construct piece header body branches endPiece]
    else body ++ branches.flatMap (·.body)

/-- What is left of a list of statements inside `depth` constructs. -/
def spliceAll (limit depth : Nat) : List Statement → List Statement
  | [] => []
  | statement :: statements => splice limit depth statement ++ spliceAll limit depth statements

/-- Branches with what is left of their bodies, whose statements are inside `depth` constructs. -/
def spliceBranches (limit depth : Nat) : List (Branch Statement) → List (Branch Statement)
  | [] => []
  | ⟨kind, piece, body⟩ :: branches =>
    ⟨kind, piece, spliceAll limit depth body⟩ :: spliceBranches limit depth branches

end

variable (limit depth : Nat)

@[simp]
theorem spliceAll_nil : spliceAll limit depth [] = [] := rfl

@[simp]
theorem spliceAll_cons (statement : Statement) (statements : List Statement) :
    spliceAll limit depth (statement :: statements) =
      splice limit depth statement ++ spliceAll limit depth statements := rfl

@[simp]
theorem spliceAll_append (left right : List Statement) :
    spliceAll limit depth (left ++ right) =
      spliceAll limit depth left ++ spliceAll limit depth right := by
  induction left with
  | nil => rfl
  | cons statement left ih => simp [ih]

theorem spliceBranches_eq_map (branches : List (Branch Statement)) :
    spliceBranches limit depth branches =
      branches.map fun branch => { branch with body := spliceAll limit depth branch.body } := by
  induction branches with
  | nil => rfl
  | cons branch branches ih => rw [List.map_cons, ← ih]; rfl

/-- A construct that is kept. -/
theorem splice_construct_of_lt {limit depth : Nat} (kept : depth < limit) (piece : Nat)
    (header : Construct) (body : List Statement) (branches : List (Branch Statement))
    (endPiece : Option Nat) :
    splice limit depth (.construct piece header body branches endPiece) =
      [.construct piece header (spliceAll limit (depth + 1) body)
        (spliceBranches limit (depth + 1) branches) endPiece] := by
  rw [splice, if_pos kept]

/-- Of a construct that is not kept, the contents of the bodies are left. -/
theorem splice_of_le {limit depth : Nat} (deep : limit ≤ depth) {statement : Statement}
    (owner : statement.hasBody = true) :
    splice limit depth statement = spliceAll limit (depth + 1) statement.children := by
  cases statement with
  | leaf piece content => cases owner
  | construct piece header body branches endPiece =>
      have contents : ∀ further : List (Branch Statement),
          (spliceBranches limit (depth + 1) further).flatMap (·.body) =
            spliceAll limit (depth + 1) (further.flatMap (·.body)) := by
        intro further
        induction further with
        | nil => rfl
        | cons branch further ih =>
            rw [List.flatMap_cons, spliceAll_append, ← ih]
            rfl
      rw [splice, if_neg (Nat.not_lt.mpr deep), contents, children, spliceAll_append]

/-- The statements inside exactly `depth` constructs. -/
def atDepth : (depth : Nat) → List Statement → List Statement
  | 0, statements => statements
  | depth + 1, statements => atDepth depth (statements.flatMap children)

end Statement
end TwigTemplate
