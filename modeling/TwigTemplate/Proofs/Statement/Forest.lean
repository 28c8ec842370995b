import Mathlib.Data.List.Nodup
import TwigTemplate.Proofs.Statement.Restrict

/-!
# All statements of a template

The statements of a template at all depths, each before those inside it.  Where pieces ascend, the
first piece tells a statement from all others, and what is inside an ended construct lies between
its first piece and its end tag.
-/

namespace TwigTemplate
namespace Statement

mutual

/-- A statement and all statements inside it. -/
def subtree : Statement → List Statement
  | .leaf piece content => [.leaf piece content]
  | .construct piece header body branches endPiece =>
    .construct piece header body branches endPiece :: (forest body ++ branchForest branches)

/-- All statements of a list and all statements inside them. -/
def forest : List Statement → List Statement
  | [] => []
  | statement :: statements => subtree statement ++ forest statements

/-- All statements inside branches. -/
def branchForest : List (Branch Statement) → List Statement
  | [] => []
  | ⟨_, _, body⟩ :: branches => forest body ++ branchForest branches

end

@[simp]
theorem forest_nil : forest [] = [] := rfl

@[simp]
theorem forest_cons (statement : Statement) (statements : List Statement) :
    forest (statement :: statements) = subtree statement ++ forest statements := rfl

@[simp]
theorem forest_append (left right : List Statement) :
    forest (left ++ right) = forest left ++ forest right := by
  induction left with
  | nil => rfl
  | cons statement left ih => simp [ih]

theorem branchForest_cons (branch : Branch Statement) (branches : List (Branch Statement)) :
    branchForest (branch :: branches) = forest branch.body ++ branchForest branches := rfl

theorem branchForest_eq (branches : List (Branch Statement)) :
    branchForest branches = forest (branches.flatMap (·.body)) := by
  induction branches with
  | nil => rfl
  | cons branch branches ih => rw [branchForest_cons, ih, List.flatMap_cons, forest_append]

theorem subtree_eq_cons (statement : Statement) :
    subtree statement = statement :: forest statement.children := by
  cases statement with
  | leaf piece content => rfl
  | construct piece header body branches endPiece =>
      rw [subtree, branchForest_eq, children, forest_append]

theorem mem_subtree_self (statement : Statement) : statement ∈ subtree statement := by
  rw [subtree_eq_cons]
  exact List.mem_cons_self

theorem mem_forest_iff {part : Statement} {statements : List Statement} :
    part ∈ forest statements ↔ ∃ statement ∈ statements, part ∈ subtree statement := by
  induction statements with
  | nil => simp
  | cons statement statements ih => simp [ih]

theorem subset_forest (statements : List Statement) : statements ⊆ forest statements :=
  fun statement member => mem_forest_iff.mpr ⟨statement, member, mem_subtree_self statement⟩

mutual

theorem forest_subset_of_mem_subtree {part : Statement} :
    ∀ {statement : Statement}, part ∈ subtree statement →
      forest part.children ⊆ forest statement.children
  | .leaf _ _, member => by
    obtain rfl := List.mem_singleton.mp member
    exact List.Subset.refl _
  | .construct piece header body branches endPiece, member => by
    rcases List.mem_cons.mp member with rfl | inside
    · exact List.Subset.refl _
    rw [children, forest_append, ← branchForest_eq]
    rcases List.mem_append.mp inside with inside | inside
    · exact List.subset_append_of_subset_left _ (forest_subset_of_mem_forest inside)
    · exact List.subset_append_of_subset_right _ (forest_subset_of_mem_branchForest inside)

/-- What is inside a statement of a list is in the list. -/
theorem forest_subset_of_mem_forest {part : Statement} :
    ∀ {statements : List Statement}, part ∈ forest statements →
      forest part.children ⊆ forest statements
  | [], member => by cases member
  | statement :: statements, member => by
    rcases List.mem_append.mp member with here | later
    · apply List.subset_append_of_subset_left
      rw [subtree_eq_cons]
      exact List.subset_cons_of_subset _ (forest_subset_of_mem_subtree here)
    · exact List.subset_append_of_subset_right _ (forest_subset_of_mem_forest later)

theorem forest_subset_of_mem_branchForest {part : Statement} :
    ∀ {branches : List (Branch Statement)}, part ∈ branchForest branches →
      forest part.children ⊆ branchForest branches
  | [], member => by cases member
  | ⟨_, _, body⟩ :: branches, member => by
    rcases List.mem_append.mp member with here | later
    · exact List.subset_append_of_subset_left _ (forest_subset_of_mem_forest here)
    · exact List.subset_append_of_subset_right _ (forest_subset_of_mem_branchForest later)

end

theorem subtree_subset_forest {part : Statement} {statements : List Statement}
    (member : part ∈ forest statements) : subtree part ⊆ forest statements := by
  rw [subtree_eq_cons]
  exact List.cons_subset.mpr ⟨member, forest_subset_of_mem_forest member⟩

/-! ### The pieces of a statement inside others -/

mutual

theorem sublist_pieces_of_mem_subtree {part : Statement} :
    ∀ {statement : Statement}, part ∈ subtree statement → part.pieces.Sublist statement.pieces
  | .leaf _ _, member => by
    obtain rfl := List.mem_singleton.mp member
    exact List.Sublist.refl _
  | .construct piece header body branches endPiece, member => by
    rcases List.mem_cons.mp member with rfl | inside
    · exact List.Sublist.refl _
    rw [pieces_construct, chainPieces]
    apply List.Sublist.cons
    rcases List.mem_append.mp inside with inside | inside
    · exact (sublist_piecesOf_of_mem_forest inside).trans (List.sublist_append_left _ _)
    · exact ((sublist_pieces_of_mem_branchForest inside).trans
        (List.sublist_append_left _ _)).trans (List.sublist_append_right _ _)

/-- The pieces of a statement are among those of a list that it is in. -/
theorem sublist_piecesOf_of_mem_forest {part : Statement} :
    ∀ {statements : List Statement}, part ∈ forest statements →
      part.pieces.Sublist (piecesOf statements)
  | [], member => by cases member
  | statement :: statements, member => by
    rw [piecesOf_cons]
    rcases List.mem_append.mp member with here | later
    · exact (sublist_pieces_of_mem_subtree here).trans (List.sublist_append_left _ _)
    · exact (sublist_piecesOf_of_mem_forest later).trans (List.sublist_append_right _ _)

theorem sublist_pieces_of_mem_branchForest {part : Statement} :
    ∀ {branches : List (Branch Statement)}, part ∈ branchForest branches →
      part.pieces.Sublist ((branchMentions branches).map (·.piece))
  | [], member => by cases member
  | ⟨_, piece, body⟩ :: branches, member => by
    rw [branchMentions_cons, List.cons_append, List.map_cons, List.map_append]
    apply List.Sublist.cons
    rcases List.mem_append.mp member with here | later
    · exact (sublist_piecesOf_of_mem_forest here).trans (List.sublist_append_left _ _)
    · exact (sublist_pieces_of_mem_branchForest later).trans (List.sublist_append_right _ _)

end

mutual

theorem sublist_startPieces_subtree : ∀ statement : Statement,
    ((subtree statement).map startPiece).Sublist statement.pieces
  | .leaf _ _ => List.Sublist.refl _
  | .construct piece header body branches endPiece => by
    rw [pieces_construct, chainPieces, subtree, List.map_cons, List.map_append]
    exact ((sublist_startPieces body).append ((sublist_startPieces_branchForest branches).trans
      (List.sublist_append_left _ _))).cons_cons piece

/-- The first pieces of all statements are mentioned in this order. -/
theorem sublist_startPieces : ∀ statements : List Statement,
    ((forest statements).map startPiece).Sublist (piecesOf statements)
  | [] => List.Sublist.refl _
  | statement :: statements => by
    rw [forest_cons, piecesOf_cons, List.map_append]
    exact (sublist_startPieces_subtree statement).append (sublist_startPieces statements)

theorem sublist_startPieces_branchForest : ∀ branches : List (Branch Statement),
    ((branchForest branches).map startPiece).Sublist ((branchMentions branches).map (·.piece))
  | [] => List.Sublist.refl _
  | ⟨_, piece, body⟩ :: branches => by
    rw [branchMentions_cons, List.cons_append, List.map_cons, List.map_append, branchForest,
      List.map_append]
    exact ((sublist_startPieces body).append (sublist_startPieces_branchForest branches)).cons _

end

section Sorted

variable {statements : List Statement} {left right around part : Statement}

/-- Two statements with the same first piece are the same. -/
theorem eq_of_startPiece_eq (sorted : (piecesOf statements).Pairwise (· < ·))
    (left_member : left ∈ forest statements) (right_member : right ∈ forest statements)
    (same : left.startPiece = right.startPiece) : left = right := by
  have distinct : ((forest statements).map startPiece).Nodup :=
    (sorted.sublist (sublist_startPieces statements)).imp Nat.ne_of_lt
  exact List.inj_on_of_nodup_map distinct left_member right_member same

theorem startPiece_lt_of_mem_children (sorted : around.pieces.Pairwise (· < ·))
    (inside : part ∈ forest around.children) : around.startPiece < part.startPiece := by
  have starts := sorted.sublist (sublist_startPieces_subtree around)
  rw [subtree_eq_cons, List.map_cons, List.pairwise_cons] at starts
  exact starts.1 _ (List.mem_map_of_mem inside)

theorem startPiece_le_of_mem_subtree (sorted : around.pieces.Pairwise (· < ·))
    (inside : part ∈ subtree around) : around.startPiece ≤ part.startPiece := by
  rw [subtree_eq_cons] at inside
  rcases List.mem_cons.mp inside with rfl | inside
  · exact Nat.le_refl _
  · exact Nat.le_of_lt (startPiece_lt_of_mem_children sorted inside)

theorem sorted_of_mem_forest (sorted : (piecesOf statements).Pairwise (· < ·))
    (member : part ∈ forest statements) : part.pieces.Pairwise (· < ·) :=
  sorted.sublist (sublist_piecesOf_of_mem_forest member)

/-- What is inside an ended construct comes before its end tag. -/
theorem lt_endPiece_of_mem_children {piece stop : Nat} (sorted : around.pieces.Pairwise (· < ·))
    (ended : around.endPiece? = some stop) (inside : part ∈ forest around.children)
    (mentioned : piece ∈ part.pieces) : piece < stop := by
  cases around with
  | leaf start content => cases ended
  | construct start header body branches endPiece =>
      obtain rfl : endPiece = some stop := ended
      rw [children, forest_append, ← branchForest_eq] at inside
      rw [pieces_construct, chainPieces, ← List.append_assoc, ← List.cons_append,
        List.pairwise_append] at sorted
      apply sorted.2.2 piece _ stop (by simp)
      apply List.mem_cons_of_mem
      rcases List.mem_append.mp inside with inside | inside
      · exact List.mem_append_left _ ((sublist_piecesOf_of_mem_forest inside).subset mentioned)
      · exact List.mem_append_right _
          ((sublist_pieces_of_mem_branchForest inside).subset mentioned)

end Sorted

/-! ### Statements of what is left -/

section Restrict

variable {index : Nat}

theorem filter_forest_of_forall_le {statements : List Statement}
    (late : ∀ piece ∈ piecesOf statements, index ≤ piece) :
    (forest statements).filter (·.startPiece < index) = [] := by
  rw [List.filter_eq_nil_iff]
  intro part member
  have starts := (sublist_startPieces statements).subset (List.mem_map_of_mem member)
  simpa using late _ starts

mutual

theorem subtree_restrict : ∀ {statement : Statement}, statement.pieces.Pairwise (· < ·) →
    statement.startPiece < index →
      subtree (restrict index statement) =
        ((subtree statement).filter (·.startPiece < index)).map (restrict index)
  | .leaf piece content, _, early => by
    have kept : (leaf piece content).startPiece < index := early
    simp [subtree, restrict, kept]
  | .construct piece header body branches endPiece, sorted, early => by
    have kept : (construct piece header body branches endPiece).startPiece < index := early
    rw [pieces_construct, chainPieces, List.pairwise_cons, List.pairwise_append,
      List.pairwise_append] at sorted
    rw [restrict, subtree, subtree, List.filter_cons_of_pos (by simpa using kept), List.map_cons,
      List.filter_append, List.map_append, forest_restrictAll sorted.2.1,
      branchForest_restrictBranches sorted.2.2.1.1]
    rfl

/-- The statements that begin early enough are the statements of what is left. -/
theorem forest_restrictAll : ∀ {statements : List Statement},
    (piecesOf statements).Pairwise (· < ·) →
      forest (restrictAll index statements) =
        ((forest statements).filter (·.startPiece < index)).map (restrict index)
  | [], _ => rfl
  | statement :: statements, sorted => by
    rw [piecesOf_cons, List.pairwise_append] at sorted
    rw [restrictAll, forest_cons, List.filter_append, List.map_append]
    split
    · rename_i early
      rw [forest_cons, subtree_restrict sorted.1 early, forest_restrictAll sorted.2.1]
    · rename_i late
      have left_out : (subtree statement).filter (·.startPiece < index) = [] := by
        rw [← List.append_nil (subtree statement), ← forest_nil, ← forest_cons]
        apply filter_forest_of_forall_le
        intro piece member
        rw [piecesOf_cons, piecesOf_nil, List.append_nil] at member
        exact Nat.le_trans (Nat.not_lt.mp late) (startPiece_le sorted.1 member)
      rw [left_out, forest_restrictAll sorted.2.1]
      rfl

theorem branchForest_restrictBranches : ∀ {branches : List (Branch Statement)},
    ((branchMentions branches).map (·.piece)).Pairwise (· < ·) →
      branchForest (restrictBranches index branches) =
        ((branchForest branches).filter (·.startPiece < index)).map (restrict index)
  | [], _ => rfl
  | ⟨kind, piece, body⟩ :: branches, sorted => by
    rw [branchMentions_cons, List.cons_append, List.map_cons, List.pairwise_cons, List.map_append,
      List.pairwise_append] at sorted
    rw [restrictBranches, branchForest, List.filter_append, List.map_append]
    split
    · rw [branchForest, forest_restrictAll sorted.2.1,
        branchForest_restrictBranches sorted.2.2.1]
    · rename_i late
      have left_out : (forest body).filter (·.startPiece < index) = [] := by
        apply filter_forest_of_forall_le
        intro inner member
        have after : piece < inner := sorted.1 inner (List.mem_append_left _ member)
        omega
      rw [left_out, branchForest_restrictBranches sorted.2.2.1]
      rfl

end

theorem mem_forest_restrictAll_iff {statements : List Statement} {part : Statement}
    (sorted : (piecesOf statements).Pairwise (· < ·)) :
    part ∈ forest (restrictAll index statements) ↔
      ∃ statement ∈ forest statements, statement.startPiece < index ∧
        restrict index statement = part := by
  rw [forest_restrictAll sorted]
  simp [and_assoc]

/-- Of two statements, what is left of the one is inside what is left of the other if it was. -/
theorem mem_subtree_restrict_iff {root : List Statement} {part around : Statement}
    (sorted : (piecesOf root).Pairwise (· < ·)) (part_member : part ∈ forest root)
    (around_member : around ∈ forest root) (part_early : part.startPiece < index)
    (around_early : around.startPiece < index) :
    restrict index part ∈ subtree (restrict index around) ↔ part ∈ subtree around := by
  rw [subtree_restrict (sorted_of_mem_forest sorted around_member) around_early, List.mem_map]
  constructor
  · rintro ⟨other, kept, same⟩
    have inside := (List.mem_filter.mp kept).1
    have same_start := congrArg startPiece same
    rw [startPiece_restrict, startPiece_restrict] at same_start
    obtain rfl := eq_of_startPiece_eq sorted (subtree_subset_forest around_member inside)
      part_member same_start
    exact inside
  · intro inside
    exact ⟨part, List.mem_filter.mpr ⟨inside, by simpa using part_early⟩, rfl⟩

end Restrict
end Statement
end TwigTemplate
