import TwigTemplate.Statement

/-!
# Properties of all statements of a tree

A property may hold of a statement and of all statements inside it.  One such property is that the
branches of a construct come in an order that the construct admits, another that a construct without
an end tag is the last statement of its body.
-/

namespace TwigTemplate
namespace Statement

/-- The property holds of the statement and of all statements inside it. -/
inductive Everywhere (property : Statement → Prop) : Statement → Prop
  | intro {statement : Statement} (here : property statement)
      (inside : ∀ child ∈ statement.children, Everywhere property child) :
      Everywhere property statement

theorem everywhere_iff {property : Statement → Prop} {statement : Statement} :
    statement.Everywhere property ↔
      property statement ∧ ∀ child ∈ statement.children, child.Everywhere property := by
  constructor
  · rintro ⟨here, inside⟩
    exact ⟨here, inside⟩
  · rintro ⟨here, inside⟩
    exact .intro here inside

end Statement

namespace Construct

/-- The construct may have these branches: it accepts each of them, and only the last one may be
for everything else. -/
def Admits (header : Construct) (kinds : List BranchKind) : Prop :=
  (∀ kind ∈ kinds, header.accepts kind) ∧
    kinds.Pairwise fun earlier _ => earlier.isOtherwise = false

end Construct

namespace Statement

/-- The branches of a construct are in order. -/
def BranchesInOrder : Statement → Prop
  | .leaf _ _ => True
  | .construct _ header _ branches _ => header.Admits (branches.map (·.kind))

/-- The statement has an end tag if it needs one. -/
def IsEnded : Statement → Prop
  | .leaf _ _ => True
  | .construct _ _ _ _ endPiece => endPiece.isSome = true

/-- No statement but the last one may lack its end tag. -/
def LastOpen (statements : List Statement) : Prop :=
  ∀ statement ∈ statements.dropLast, statement.IsEnded

theorem lastOpen_of_forall {statements : List Statement}
    (ended : ∀ statement ∈ statements, statement.IsEnded) : LastOpen statements :=
  fun statement member => ended statement (List.dropLast_subset _ member)

theorem lastOpen_append_singleton {statements : List Statement}
    (ended : ∀ statement ∈ statements, statement.IsEnded) (last : Statement) :
    LastOpen (statements ++ [last]) := by
  rwa [LastOpen, List.dropLast_concat]

/-- In each body of the statement, only the last statement may lack its end tag. -/
def BodiesEnded : Statement → Prop
  | .leaf _ _ => True
  | .construct _ _ body branches _ =>
    LastOpen body ∧ ∀ branch ∈ branches, LastOpen branch.body

end Statement
end TwigTemplate
