import TwigTemplate.Proofs.Tree.Open
import TwigTemplate.Proofs.Tree.Unclosed

/-!
# Branches mean what their pieces mean

A branch stays as it was opened, whatever becomes of the construct that it belongs to.
-/

namespace TwigTemplate

namespace Statement

/-- The piece of a branch and what it means. -/
def turn (branch : Branch Statement) : Nat × Tag := (branch.piece, .branch branch.kind)

/-- The pieces of all branches at all depths with their meanings. -/
def turns (statements : List Statement) : List (Nat × Tag) :=
  (forest statements).flatMap fun statement => statement.branches.map turn

@[simp]
theorem turns_nil : turns [] = [] := rfl

@[simp]
theorem turns_append (left right : List Statement) :
    turns (left ++ right) = turns left ++ turns right := by
  rw [turns, forest_append, List.flatMap_append, turns, turns]

theorem turns_singleton (statement : Statement) :
    turns [statement] = statement.branches.map turn ++ turns statement.children := by
  rw [turns, forest_cons, forest_nil, List.append_nil, subtree_eq_cons, List.flatMap_cons, turns]

theorem turn_mem_turns {statements : List Statement} {statement : Statement}
    {branch : Branch Statement} (member : statement ∈ forest statements)
    (among : branch ∈ statement.branches) : turn branch ∈ turns statements :=
  List.mem_flatMap.mpr ⟨statement, member, List.mem_map_of_mem among⟩

end Statement

namespace Tree

open Statement

namespace Frame

/-- The branches of an open construct and of what it holds so far. -/
def turns (frame : Frame) : List (Nat × Tag) :=
  frame.branches.reverse.map turn ++ Statement.turns frame.contents

theorem turns_finish (frame : Frame) (endPiece : Option Nat) :
    Statement.turns [frame.finish endPiece] = frame.turns := by
  rw [turns_singleton, children_finish, turns, finish, Statement.branches, List.map_map]
  rfl

theorem turns_openBranch (frame : Frame) (kind : BranchKind) (piece : Nat) :
    (frame.openBranch kind piece).turns ⊆ (piece, .branch kind) :: frame.turns := by
  rw [turns, contents_openBranch, openBranch, List.reverse_cons, List.map_append]
  refine List.append_subset.mpr ⟨List.append_subset.mpr ⟨?_, ?_⟩, ?_⟩
  · exact List.subset_cons_of_subset _ (List.subset_append_left _ _)
  · exact List.cons_subset_cons _ (List.nil_subset _)
  · exact List.subset_cons_of_subset _ (List.subset_append_right _ _)

theorem turns_push (frame : Frame) (statement : Statement) :
    (frame.push statement).turns = frame.turns ++ Statement.turns [statement] := by
  have branches : (frame.push statement).branches.map turn = frame.branches.map turn := by
    rw [push]
    split
    · rfl
    · rename_i branch branches latest
      rw [latest]
      rfl
  rw [turns, contents_push, turns_append, List.map_reverse, branches, ← List.map_reverse,
    ← List.append_assoc, turns]

theorem turns_pushAll (frame : Frame) (inner : List Statement) :
    (frame.pushAll inner).turns = frame.turns ++ Statement.turns inner := by
  induction inner generalizing frame with
  | nil => exact (List.append_nil _).symm
  | cons statement inner ih =>
      have parted := turns_append [statement] inner
      rw [List.singleton_append] at parted
      rw [parted, ← List.append_assoc, ← turns_push]
      exact ih _

end Frame

namespace Reading

theorem turns_nest (frames : List Frame) (inner : List Statement) :
    turns (nest frames inner) = frames.reverse.flatMap Frame.turns ++ turns inner := by
  induction frames generalizing inner with
  | nil => rfl
  | cons frame frames ih =>
      rw [nest, ih, Frame.turns_finish, Frame.turns_pushAll]
      simp

theorem turns_push (reading : Reading) (statement : Statement) :
    turns (reading.push statement).statements =
      turns reading.statements ++ turns [statement] := by
  rw [statements_push, statements, turns_append, turns_append, turns_nest, turns_nest]
  simp

/-- A piece adds at most the branch that it means. -/
theorem Acts.turns_subset {limit : Option Nat} {reading after : Reading} {index : Nat} {span : Span}
    {tag : Tag} (acts : Acts limit reading index span tag after) :
    turns after.statements ⊆ (index, tag) :: turns reading.statements := by
  have same : turns reading.statements ⊆ (index, tag) :: turns reading.statements :=
    List.subset_cons_self _ _
  cases acts with
  | opened =>
      rw [statements_of_stack_cons rfl, turns_push, Frame.turns_finish]
      exact List.append_subset.mpr ⟨same, List.nil_subset _⟩
  | branched _ stacked =>
      rw [statements_of_stack_cons rfl, statements_of_stack_cons stacked, turns_push, turns_push,
        Frame.turns_finish, Frame.turns_finish]
      refine List.append_subset.mpr ⟨?_, ?_⟩
      · exact List.subset_cons_of_subset _ (List.subset_append_left _ _)
      · refine List.Subset.trans (Frame.turns_openBranch _ _ _) (List.cons_subset_cons _ ?_)
        exact List.subset_append_right _ _
  | ended _ stacked =>
      rw [statements_of_stack_append stacked, turns_push, turns_push, Frame.turns_finish,
        Frame.turns_finish]
      exact List.subset_cons_self _ _
  | single =>
      rw [turns_push]
      exact List.append_subset.mpr ⟨same, List.nil_subset _⟩
  | _ => exact same

end Reading

/-- The branches that have been read mean what their pieces mean. -/
theorem exists_piece_of_mem_turns (limit : Option Nat) (options : Options) (source : Source)
    {pieces : List Piece} {index : Nat} {tag : Tag}
    (member : (index, tag) ∈ turns (read limit options source pieces).statements) :
    ∃ piece, pieces[index]? = some piece ∧ Tag.ofPiece options source piece = tag := by
  induction pieces using List.reverseRecOn with
  | nil => cases member
  | append_singleton pieces piece ih =>
      have acts := acts_read limit options source pieces piece
      rcases List.mem_cons.mp (acts.turns_subset member) with here | earlier
      · obtain ⟨rfl, rfl⟩ := Prod.mk.inj here
        exact ⟨piece, List.getElem?_concat_length, rfl⟩
      · rw [Reading.statements_of_quiet_eq (Reading.quiet_note _ piece)] at earlier
        obtain ⟨other, found, means⟩ := ih earlier
        have inside := (List.getElem?_eq_some_iff.mp found).1
        exact ⟨other, by rw [List.getElem?_append_left inside, found], means⟩

/-- A branch of a tree means what its piece means. -/
theorem exists_piece_of_mem_branches {limit : Option Nat} {options : Options} {source : Source}
    {pieces : List Piece} {statement : Statement} {branch : Branch Statement}
    (member : statement ∈ forest (build limit options source pieces).statements)
    (among : branch ∈ statement.branches) :
    ∃ piece, pieces[branch.piece]? = some piece ∧
      Tag.ofPiece options source piece = .branch branch.kind := by
  rw [statements_build] at member
  exact exists_piece_of_mem_turns limit options source (turn_mem_turns member among)

end Tree
end TwigTemplate
