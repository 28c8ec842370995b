import TwigTemplate.Proofs.Statement.Nesting
import TwigTemplate.Proofs.Statement.Walk

/-!
# The calls of a walk

A walk that keeps a list of steps makes the calls of a recursion over segments, with the same states
and in the same order: whatever is called inside a statement comes between its two calls.
-/

namespace TwigTemplate
namespace Statement

variable {σ : Type}

/-- Visit statements in order.  A statement is entered, then the statements of its segments are
visited in order unless they are passed over, and then it is left. -/
def visitSegments (visitor : Visitor σ) : List Statement → σ → σ
  | [], state => state
  | statement :: rest, state =>
    let (descends, entered) := visitor.enter statement state
    let inside :=
      if descends then
        statement.segments.attach.foldl
          (fun state segment => visitSegments visitor segment.1.body state) entered
      else entered
    visitSegments visitor rest (visitor.leave statement inside)
termination_by statements => sizeOf statements
decreasing_by
  · have inside := sizeOf_segment_lt segment.2
    rw [List.cons.sizeOf_spec]
    omega
  · rw [List.cons.sizeOf_spec]
    omega

/-- A call of a visitor, with the state that is handed to it. -/
inductive Call (σ : Type)
  /-- A statement is entered. -/
  | enter (statement : Statement) (state : σ)
  /-- A statement is left. -/
  | leave (statement : Statement) (state : σ)

namespace Call

/-- The statement that is entered. -/
def entered? : Call σ → Option Statement
  | enter statement _ => some statement
  | leave _ _ => none

/-- The statement that is left. -/
def left? : Call σ → Option Statement
  | enter _ _ => none
  | leave statement _ => some statement

end Call

/-- The visitor that writes down its calls, the latest one last. -/
def Visitor.recorded (visitor : Visitor σ) : Visitor (σ × List (Call σ)) where
  enter statement record :=
    let (descends, state) := visitor.enter statement record.1
    (descends, state, record.2 ++ [.enter statement record.1])
  leave statement record :=
    (visitor.leave statement record.1, record.2 ++ [.leave statement record.1])

/-- Visiting the statements makes these calls and leads from the one state to the other. -/
inductive Makes (visitor : Visitor σ) : List Statement → σ → List (Call σ) → σ → Prop
  /-- There is nothing to visit. -/
  | nil (state : σ) : Makes visitor [] state [] state
  /-- The first statement is passed over, so it is left as soon as it has been entered. -/
  | passed {statement : Statement} {rest : List Statement} {state entered final : σ}
      {calls : List (Call σ)} (enters : visitor.enter statement state = (false, entered))
      (further : Makes visitor rest (visitor.leave statement entered) calls final) :
      Makes visitor (statement :: rest) state
        (.enter statement state :: .leave statement entered :: calls) final
  /-- All calls for the segments of the first statement come before it is left. -/
  | around {statement : Statement} {rest : List Statement} {state entered left final : σ}
      {inner calls : List (Call σ)} (enters : visitor.enter statement state = (true, entered))
      (inside : Makes visitor (statement.segments.flatMap (·.body)) entered inner left)
      (further : Makes visitor rest (visitor.leave statement left) calls final) :
      Makes visitor (statement :: rest) state
        (.enter statement state :: (inner ++ .leave statement left :: calls)) final

section Visits

variable (visitor : Visitor σ)

theorem foldl_visitAll (segments : List Segment) (state : σ) :
    segments.foldl (fun state segment => visitAll visitor segment.body state) state =
      visitAll visitor (segments.flatMap (·.body)) state := by
  induction segments generalizing state with
  | nil => rfl
  | cons segment segments ih => rw [List.foldl_cons, ih, List.flatMap_cons, visitAll_append]

/-- The segments of a statement hold the statements inside it. -/
theorem visitSegments_eq_visitAll (statements : List Statement) (state : σ) :
    visitSegments visitor statements state = visitAll visitor statements state := by
  cases statements with
  | nil => rw [visitSegments, visitAll]
  | cons statement rest =>
      have inside (entered : σ) : statement.segments.attach.foldl
          (fun state segment => visitSegments visitor segment.1.body state) entered =
          visitAll visitor statement.children entered := by
        rw [children_eq_flatMap, ← foldl_visitAll]
        refine Eq.trans (List.foldl_attach (f := fun state (segment : Segment) =>
          visitSegments visitor segment.body state)) ?_
        refine List.foldl_ext _ _ _ fun state segment member => ?_
        have segment_lt := sizeOf_segment_lt member
        exact visitSegments_eq_visitAll segment.body state
      rw [visitSegments, visitAll, visit_eq]
      dsimp only
      rw [inside, visitSegments_eq_visitAll rest]
termination_by sizeOf statements
decreasing_by all_goals simp only [List.cons.sizeOf_spec]; omega

variable {visitor} {statement : Statement} {rest : List Statement} {state entered : σ}
  {descends : Bool}

theorem visitAll_cons (enters : visitor.enter statement state = (descends, entered)) :
    visitAll visitor (statement :: rest) state =
      visitAll visitor rest (visitor.leave statement
        (if descends then visitAll visitor statement.children entered else entered)) := by
  rw [visitAll, visit_eq, enters]

theorem enter_recorded (enters : visitor.enter statement state = (descends, entered))
    (earlier : List (Call σ)) :
    visitor.recorded.enter statement (state, earlier) =
      (descends, entered, earlier ++ [.enter statement state]) := by
  simp only [Visitor.recorded, enters]

theorem leave_recorded (statement : Statement) (state : σ) (earlier : List (Call σ)) :
    visitor.recorded.leave statement (state, earlier) =
      (visitor.leave statement state, earlier ++ [.leave statement state]) := rfl

variable (visitor)

/-- The calls that are written down are those of the recursion, and they do not depend on what has
been written down before. -/
theorem exists_makes_visitAll (statements : List Statement) (state : σ) :
    ∃ calls, Makes visitor statements state calls (visitAll visitor statements state) ∧
      ∀ earlier, visitAll visitor.recorded statements (state, earlier) =
        (visitAll visitor statements state, earlier ++ calls) := by
  cases statements with
  | nil => exact ⟨[], .nil state, fun earlier => by rw [List.append_nil, visitAll, visitAll]⟩
  | cons statement rest =>
      have children_le := sizeOf_children_le statement
      cases enters : visitor.enter statement state with
      | mk descends entered =>
          cases descends with
          | false =>
              obtain ⟨calls, makes, recorded⟩ :=
                exists_makes_visitAll rest (visitor.leave statement entered)
              rw [visitAll_cons enters, if_neg Bool.false_ne_true]
              refine ⟨_, .passed enters makes, fun earlier => ?_⟩
              rw [visitAll_cons (enter_recorded enters earlier), if_neg Bool.false_ne_true,
                leave_recorded, recorded]
              simp
          | true =>
              obtain ⟨inner, inside, inside_recorded⟩ :=
                exists_makes_visitAll statement.children entered
              obtain ⟨calls, makes, recorded⟩ := exists_makes_visitAll rest
                (visitor.leave statement (visitAll visitor statement.children entered))
              rw [visitAll_cons enters, if_pos rfl]
              refine ⟨_, .around enters (by rw [← children_eq_flatMap]; exact inside) makes,
                fun earlier => ?_⟩
              rw [visitAll_cons (enter_recorded enters earlier), if_pos rfl, inside_recorded,
                leave_recorded, recorded]
              simp
termination_by sizeOf statements
decreasing_by all_goals simp only [List.cons.sizeOf_spec]; omega

end Visits

section Calls

variable {visitor : Visitor σ} {statements : List Statement} {calls : List (Call σ)}
  {state final : σ}

/-- No statement is entered more often than it occurs, and all are entered in order. -/
theorem Makes.entered_sublist_forest (makes : Makes visitor statements state calls final) :
    (calls.filterMap Call.entered?).Sublist (forest statements) := by
  induction makes with
  | nil state => exact List.Sublist.refl _
  | @passed statement rest _ _ _ _ _ _ ih =>
      rw [forest_cons, subtree_eq_cons, List.cons_append]
      exact (ih.trans (List.sublist_append_right _ _)).cons_cons statement
  | @around statement rest _ _ _ _ inner calls _ _ _ inside further =>
      rw [← children_eq_flatMap] at inside
      rw [forest_cons, subtree_eq_cons, List.cons_append]
      simp only [List.filterMap_cons, List.filterMap_append, Call.entered?]
      exact (inside.append further).cons_cons statement

/-- Each statement that is entered is left as often. -/
theorem Makes.left_perm_entered (makes : Makes visitor statements state calls final) :
    (calls.filterMap Call.left?).Perm (calls.filterMap Call.entered?) := by
  induction makes with
  | nil state => exact List.Perm.refl _
  | passed _ _ ih => exact ih.cons _
  | around _ _ _ inside further =>
      simp only [List.filterMap_cons, List.filterMap_append, Call.left?, Call.entered?]
      exact List.perm_middle.trans ((inside.append further).cons _)

end Calls

/-- A walk is the recursion over segments.  Both make the same calls with the same states: what is
called inside a statement comes between its two calls, no statement is entered twice, and each one
that is entered is left once. -/
theorem walk_eq_visitSegments (visitor : Visitor σ) (statements : List Statement) (state : σ) :
    walk visitor statements state = visitSegments visitor statements state ∧
      ∃ calls, walk visitor.recorded statements (state, []) =
          (visitSegments visitor statements state, calls) ∧
        visitSegments visitor.recorded statements (state, []) =
          (visitSegments visitor statements state, calls) ∧
        Makes visitor statements state calls (visitSegments visitor statements state) ∧
        (calls.filterMap Call.entered?).Sublist (forest statements) ∧
        (calls.filterMap Call.left?).Perm (calls.filterMap Call.entered?) := by
  obtain ⟨calls, makes, recorded⟩ := exists_makes_visitAll visitor statements state
  rw [walk_eq_visitAll, walk_eq_visitAll, visitSegments_eq_visitAll, visitSegments_eq_visitAll,
    recorded []]
  exact ⟨rfl, calls, rfl, rfl, makes, makes.entered_sublist_forest, makes.left_perm_entered⟩

/-- Conditions are passed over, so that the loop inside one is not entered. -/
example :
    let statements : List Statement :=
      [.construct 0 (.conditional none) [.construct 1 (.loop [] none none) [] [] none] [] none,
        .leaf 2 .output]
    let visitor : Visitor (List String) :=
      ⟨fun statement names => (statement.kindName != "if", names ++ [statement.kindName]),
        fun _ names => names⟩
    walk visitor statements [] = ["if", "output"] := by
  decide +kernel

end Statement
end TwigTemplate
