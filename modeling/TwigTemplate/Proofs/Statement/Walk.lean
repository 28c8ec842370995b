import TwigTemplate.Proofs.Statement.Forest
import TwigTemplate.Statement.Walk

/-!
# Walks as recursion

A walk keeps the steps that remain in a list.  What it does is the recursion over the statements:
a statement is entered, then the statements of its bodies are visited unless they are passed over,
and then it is left.
-/

namespace TwigTemplate
namespace Statement

variable {σ : Type}

mutual

/-- Visit a statement and, unless they are passed over, the statements inside it. -/
def visit (visitor : Visitor σ) : Statement → σ → σ
  | .leaf piece content, state =>
    visitor.leave (.leaf piece content) (visitor.enter (.leaf piece content) state).2
  | .construct piece header body branches endPiece, state =>
    let entered := visitor.enter (.construct piece header body branches endPiece) state
    visitor.leave (.construct piece header body branches endPiece)
      (if entered.1 then visitBranches visitor branches (visitAll visitor body entered.2)
        else entered.2)

/-- Visit statements in order. -/
def visitAll (visitor : Visitor σ) : List Statement → σ → σ
  | [], state => state
  | statement :: statements, state => visitAll visitor statements (visit visitor statement state)

/-- Visit the statements of branches in order. -/
def visitBranches (visitor : Visitor σ) : List (Branch Statement) → σ → σ
  | [], state => state
  | ⟨_, _, body⟩ :: branches, state => visitBranches visitor branches (visitAll visitor body state)

end

variable (visitor : Visitor σ)

theorem visitAll_append (left right : List Statement) (state : σ) :
    visitAll visitor (left ++ right) state =
      visitAll visitor right (visitAll visitor left state) := by
  induction left generalizing state with
  | nil => rfl
  | cons statement left ih => exact ih _

theorem visitBranches_eq (branches : List (Branch Statement)) (state : σ) :
    visitBranches visitor branches state =
      visitAll visitor (branches.flatMap (·.body)) state := by
  induction branches generalizing state with
  | nil => rfl
  | cons branch branches ih =>
      rw [List.flatMap_cons, visitAll_append, ← ih]
      rfl

/-- All statements are visited alike, whether they own bodies or not. -/
theorem visit_eq (statement : Statement) (state : σ) :
    visit visitor statement state =
      visitor.leave statement
        (if (visitor.enter statement state).1 then
          visitAll visitor statement.children (visitor.enter statement state).2
        else (visitor.enter statement state).2) := by
  cases statement with
  | leaf piece content =>
      rw [visit, children, visitAll, ite_self]
  | construct piece header body branches endPiece =>
      rw [visit, children, visitAll_append, visitBranches_eq]

/-- A walk visits the statements that are to be entered first, and then takes the other steps. -/
theorem walkSteps_map_enter_append (statements : List Statement) (steps : List Step) (state : σ) :
    walkSteps visitor state (statements.map .enter ++ steps) =
      walkSteps visitor (visitAll visitor statements state) steps := by
  cases statements with
  | nil => rfl
  | cons statement statements =>
      have children_lt : sizeOf statement.children < sizeOf (statement :: statements) := by
        have children_le := sizeOf_children_le statement
        rw [List.cons.sizeOf_spec]
        omega
      have visited : walkSteps visitor state
          (.enter statement :: (statements.map .enter ++ steps)) =
          walkSteps visitor (visit visitor statement state) (statements.map .enter ++ steps) := by
        rw [walkSteps, visit_eq]
        dsimp only
        split
        · rw [walkSteps_map_enter_append statement.children, walkSteps]
        · rw [walkSteps]
      rw [List.map_cons, List.cons_append, visited, walkSteps_map_enter_append statements]
      rfl
termination_by sizeOf statements

/-- A walk visits the statements in order. -/
theorem walk_eq_visitAll (statements : List Statement) (state : σ) :
    walk visitor statements state = visitAll visitor statements state := by
  have visited := walkSteps_map_enter_append visitor statements [] state
  rwa [List.append_nil, walkSteps] at visited

/-- The collected statements are those at all depths. -/
theorem visitAll_collector (statements : List Statement) (found : Array Statement) :
    visitAll collector statements found = found ++ (forest statements).toArray := by
  cases statements with
  | nil => exact Array.append_empty.symm
  | cons statement statements =>
      have children_lt : sizeOf statement.children < sizeOf (statement :: statements) := by
        have children_le := sizeOf_children_le statement
        rw [List.cons.sizeOf_spec]
        omega
      have visited : visit collector statement found =
          found ++ (subtree statement).toArray := by
        calc
          visit collector statement found =
              visitAll collector statement.children (found.push statement) := by
            rw [visit_eq]
            rfl
          _ = _ := by
            rw [visitAll_collector statement.children, subtree_eq_cons]
            simp
      rw [visitAll, visited, visitAll_collector statements, forest_cons]
      simp
termination_by sizeOf statements

/-- All statements are those of the forest, each before those inside it. -/
theorem all_eq_forest (statements : List Statement) : all statements = forest statements := by
  rw [all, walk_eq_visitAll, visitAll_collector]
  simp

end Statement
end TwigTemplate
