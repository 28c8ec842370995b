import Mathlib.Data.List.Pairwise
import TwigTemplate.Proofs.Statement.Body
import TwigTemplate.Proofs.Statement.Forest

/-!
# Nesting of bodies

Where pieces ascend, bodies that are ended do not cross: of any two, either one ends before the
other begins, or one lies inside the other.  Neighbouring bodies of a construct share a piece.
-/

namespace TwigTemplate

/-- The two bodies, when both are ended, follow each other, or one of them reaches around the
other. -/
def Segment.Uncrossed (left right : Segment) : Prop :=
  ∀ left_close ∈ left.closePiece, ∀ right_close ∈ right.closePiece,
    left_close ≤ right.openPiece ∨ right_close ≤ left.openPiece ∨
      left.openPiece ≤ right.openPiece ∧ right_close ≤ left_close ∨
        right.openPiece ≤ left.openPiece ∧ left_close ≤ right_close

/-- Of the two bodies, one is ended where the other begins or before it. -/
def Segment.Apart (left right : Segment) : Prop :=
  (∃ close ∈ left.closePiece, close ≤ right.openPiece) ∨
    ∃ close ∈ right.closePiece, close ≤ left.openPiece

instance : Std.Symm Segment.Apart := ⟨fun _ _ => Or.symm⟩

instance : Std.Symm Segment.Uncrossed := by
  refine ⟨fun left right uncrossed => ?_⟩
  intro right_close right_closed left_close left_closed
  rcases uncrossed left_close left_closed right_close right_closed with
    before | after | around | inside
  · exact .inr (.inl before)
  · exact .inl after
  · exact .inr (.inr (.inr around))
  · exact .inr (.inr (.inl inside))

theorem Segment.Apart.uncrossed {left right : Segment} (apart : left.Apart right) :
    left.Uncrossed right := by
  intro left_close left_closed right_close right_closed
  rcases apart with ⟨close, closed, before⟩ | ⟨close, closed, before⟩
  · obtain rfl : left_close = close := Option.some.inj (left_closed.symm.trans closed)
    exact .inl before
  · obtain rfl : right_close = close := Option.some.inj (right_closed.symm.trans closed)
    exact .inr (.inl before)

theorem Segment.uncrossed_self (segment : Segment) : segment.Uncrossed segment := by
  intro close closed other other_closed
  obtain rfl : close = other := Option.some.inj (closed.symm.trans other_closed)
  exact .inr (.inr (.inl ⟨Nat.le_refl _, Nat.le_refl _⟩))

namespace Statement

/-- The bodies of all statements, at all depths. -/
def bodies (statements : List Statement) : List Segment := (forest statements).flatMap segments

theorem bodies_cons (statement : Statement) (statements : List Statement) :
    bodies (statement :: statements) =
      (statement.segments ++ bodies statement.children) ++ bodies statements := by
  rw [bodies, forest_cons, subtree_eq_cons, List.flatMap_append, List.flatMap_cons]
  rfl

theorem bodies_append (left right : List Statement) :
    bodies (left ++ right) = bodies left ++ bodies right := by
  rw [bodies, forest_append, List.flatMap_append]
  rfl

theorem flatMap_body_chain (kind : SegmentKind) (openPiece : Nat) (body : List Statement)
    (endPiece : Option Nat) (number : Nat) (branches : List (Branch Statement)) :
    (chain kind openPiece body endPiece number branches).flatMap (·.body) =
      body ++ branches.flatMap (·.body) := by
  induction branches generalizing kind openPiece body number with
  | nil => rfl
  | cons branch branches ih => rw [chain, List.flatMap_cons, ih, List.flatMap_cons]

/-- The statements inside a statement are those of its bodies. -/
theorem children_eq_flatMap (statement : Statement) :
    statement.children = statement.segments.flatMap (·.body) := by
  cases statement with
  | leaf piece content => rfl
  | construct piece header body branches endPiece =>
      rw [segments_construct, flatMap_body_chain, children]

theorem bodies_flatMap (segments : List Segment) :
    bodies (segments.flatMap (·.body)) = segments.flatMap fun segment => bodies segment.body := by
  induction segments with
  | nil => rfl
  | cons segment segments ih => rw [List.flatMap_cons, bodies_append, ih, List.flatMap_cons]

theorem sublist_piecesOf_of_mem_bodies {statements : List Statement} {segment : Segment}
    (member : segment ∈ bodies statements) : segment.pieces.Sublist (piecesOf statements) := by
  obtain ⟨statement, within, part⟩ := List.mem_flatMap.mp member
  exact (sublist_of_mem_segments part).trans (sublist_piecesOf_of_mem_forest within)

theorem sublist_piecesOf_branches (branches : List (Branch Statement)) :
    (piecesOf (branches.flatMap (·.body))).Sublist ((branchMentions branches).map (·.piece)) := by
  induction branches with
  | nil => exact List.Sublist.refl _
  | cons branch branches ih =>
      rw [List.flatMap_cons, piecesOf_append, branchMentions_cons, List.cons_append, List.map_cons,
        List.map_append]
      exact (ih.append_left _).cons _

theorem sublist_piecesOf_children (statement : Statement) :
    (piecesOf statement.children).Sublist statement.pieces := by
  cases statement with
  | leaf piece content => exact List.nil_sublist _
  | construct piece header body branches endPiece =>
      rw [children, piecesOf_append, pieces_construct, chainPieces]
      exact (((sublist_piecesOf_branches branches).trans
        (List.sublist_append_left _ _)).append_left _).cons _

theorem openPiece_mem_pieces (segment : Segment) : segment.openPiece ∈ segment.pieces :=
  List.mem_cons_self

theorem closePiece_mem_pieces {segment : Segment} {close : Nat}
    (closed : close ∈ segment.closePiece) : close ∈ segment.pieces := by
  rw [Option.mem_def] at closed
  simp [Segment.pieces, closed]

/-- The bodies inside a body lie between the pieces around it. -/
theorem inside_of_mem_bodies {around inner : Segment} (sorted : around.pieces.Pairwise (· < ·))
    (member : inner ∈ bodies around.body) :
    around.openPiece < inner.openPiece ∧
      ∀ inner_close ∈ inner.closePiece, ∀ close ∈ around.closePiece, inner_close < close := by
  have listed := (sublist_piecesOf_of_mem_bodies member).subset
  rw [Segment.pieces, List.pairwise_cons, List.pairwise_append] at sorted
  obtain ⟨after_open, -, -, before_close⟩ := sorted
  constructor
  · exact after_open _ (List.mem_append_left _ (listed (openPiece_mem_pieces inner)))
  · intro inner_close inner_closed close closed
    exact before_close _ (listed (closePiece_mem_pieces inner_closed)) _
      (Option.mem_toList.mpr closed)

section Sorted

variable {statement : Statement} {left right inner : Segment}

/-- Any two bodies of a statement are apart. -/
theorem apart_of_mem_segments (sorted : statement.pieces.Pairwise (· < ·))
    (left_member : left ∈ statement.segments) (right_member : right ∈ statement.segments)
    (other : left ≠ right) : left.Apart right :=
  ((pairwise_segments sorted).imp .inl).forall left_member right_member other

/-- A body of a statement and one inside it, or inside another body of the statement. -/
theorem uncrossed_of_mem_children (sorted : statement.pieces.Pairwise (· < ·))
    (member : left ∈ statement.segments) (inside : inner ∈ bodies statement.children) :
    left.Uncrossed inner := by
  rw [children_eq_flatMap, bodies_flatMap] at inside
  obtain ⟨around, part, within⟩ := List.mem_flatMap.mp inside
  obtain ⟨after_open, before_close⟩ :=
    inside_of_mem_bodies (sorted.sublist (sublist_of_mem_segments part)) within
  intro close closed inner_close inner_closed
  by_cases same : left = around
  · subst same
    exact .inr (.inr (.inl ⟨Nat.le_of_lt after_open,
      Nat.le_of_lt (before_close inner_close inner_closed close closed)⟩))
  rcases apart_of_mem_segments sorted member part same with
    ⟨left_close, left_closed, before⟩ | ⟨around_close, around_closed, before⟩
  · obtain rfl : close = left_close := Option.some.inj (closed.symm.trans left_closed)
    exact .inl (Nat.le_trans before (Nat.le_of_lt after_open))
  · have earlier := before_close inner_close inner_closed around_close around_closed
    exact .inr (.inl (Nat.le_trans (Nat.le_of_lt earlier) before))

end Sorted

/-- Where pieces ascend, no two bodies cross. -/
theorem pairwise_bodies {statements : List Statement}
    (sorted : (piecesOf statements).Pairwise (· < ·)) :
    (bodies statements).Pairwise Segment.Uncrossed := by
  cases statements with
  | nil => exact List.Pairwise.nil
  | cons statement statements =>
      have children_lt : sizeOf statement.children < sizeOf (statement :: statements) := by
        have children_le := sizeOf_children_le statement
        rw [List.cons.sizeOf_spec]
        omega
      rw [piecesOf_cons, List.pairwise_append] at sorted
      obtain ⟨sorted_first, sorted_later, ordered⟩ := sorted
      rw [bodies_cons]
      refine List.pairwise_append.mpr ⟨List.pairwise_append.mpr ⟨?segments, ?children, ?across⟩,
        pairwise_bodies sorted_later, ?later⟩
      case segments =>
        exact (pairwise_segments sorted_first).imp fun before =>
          Segment.Apart.uncrossed (.inl before)
      case children =>
        exact pairwise_bodies (sorted_first.sublist (sublist_piecesOf_children statement))
      case across =>
        exact fun _ member _ inside => uncrossed_of_mem_children sorted_first member inside
      case later =>
        intro left left_member right right_member
        have in_first : left.pieces ⊆ statement.pieces := by
          rcases List.mem_append.mp left_member with part | inside
          · exact (sublist_of_mem_segments part).subset
          · exact ((sublist_piecesOf_of_mem_bodies inside).trans
              (sublist_piecesOf_children statement)).subset
        have in_later := (sublist_piecesOf_of_mem_bodies right_member).subset
        intro close closed _ _
        exact .inl (Nat.le_of_lt (ordered close (in_first (closePiece_mem_pieces closed)) _
          (in_later (openPiece_mem_pieces right))))
termination_by sizeOf statements

/-- Any two bodies of a template do not cross. -/
theorem uncrossed_of_mem_bodies {statements : List Statement} {left right : Segment}
    (sorted : (piecesOf statements).Pairwise (· < ·)) (left_member : left ∈ bodies statements)
    (right_member : right ∈ bodies statements) : left.Uncrossed right :=
  (pairwise_bodies sorted).forall_of_forall (fun segment _ => segment.uncrossed_self)
    left_member right_member

end Statement
end TwigTemplate
