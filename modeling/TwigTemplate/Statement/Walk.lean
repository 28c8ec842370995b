import TwigTemplate.Statement

/-!
# Walking statements

A walk enters every statement before the statements of its bodies and leaves it after them.  The
steps that remain are kept in a list, so nesting costs no more than length.
-/

namespace TwigTemplate
namespace Statement

/-- What to do at each statement, with a state that is handed on. -/
structure Visitor (σ : Type) where
  /-- Enter a statement, and tell whether to go on into its bodies. -/
  enter : Statement → σ → Bool × σ
  /-- Leave a statement. -/
  leave : Statement → σ → σ

/-- One step of a walk. -/
inductive Step
  /-- A statement is to be entered. -/
  | enter (statement : Statement)
  /-- A statement is to be left. -/
  | leave (statement : Statement)

namespace Step

/-- A bound for the number of steps that a step leads to. -/
noncomputable def weight : Step → Nat
  | enter statement => 2 * sizeOf statement
  | leave _ => 1

/-- A bound for the number of steps that a list of steps leads to. -/
noncomputable def weights : List Step → Nat
  | [] => 0
  | step :: steps => step.weight + weights steps

theorem weights_enter_lt (statements : List Statement) :
    weights (statements.map .enter) + 1 < 2 * sizeOf statements := by
  induction statements with
  | nil =>
    rw [List.map_nil, weights, List.nil.sizeOf_spec]
    omega
  | cons head tail ih =>
    simp only [weights, List.map_cons, List.cons.sizeOf_spec, weight] at *
    omega

theorem weights_append (left right : List Step) :
    weights (left ++ right) = weights left + weights right := by
  induction left with
  | nil => exact (Nat.zero_add _).symm
  | cons step steps ih =>
    rw [List.cons_append, weights, weights, ih, Nat.add_assoc]

end Step

/-- Take all steps that remain, and those to which they lead. -/
def walkSteps {σ : Type} (visitor : Visitor σ) (state : σ) : (steps : List Step) → σ
  | [] => state
  | .leave statement :: steps => walkSteps visitor (visitor.leave statement state) steps
  | .enter statement :: steps =>
    let (descends, state) := visitor.enter statement state
    if descends then
      walkSteps visitor state (statement.children.map .enter ++ .leave statement :: steps)
    else walkSteps visitor state (.leave statement :: steps)
termination_by steps => Step.weights steps
decreasing_by
  · simp [Step.weights, Step.weight]
  · have children_le := sizeOf_children_le statement
    have entered := Step.weights_enter_lt statement.children
    rw [Step.weights_append]
    simp only [Step.weights, Step.weight]
    omega
  · have children_le := sizeOf_children_le statement
    have entered := Step.weights_enter_lt statement.children
    simp only [Step.weights, Step.weight]
    omega

/-- Walk statements in order. -/
def walk {σ : Type} (visitor : Visitor σ) (statements : List Statement) (state : σ) : σ :=
  walkSteps visitor state (statements.map .enter)

/-- Collects the statements that a walk enters. -/
def collector : Visitor (Array Statement) where
  enter statement found := (true, found.push statement)
  leave _ found := found

/-- The statements and all statements inside them, each before the ones that it encloses. -/
def all (statements : List Statement) : List Statement := (walk collector statements #[]).toList

end Statement
end TwigTemplate
