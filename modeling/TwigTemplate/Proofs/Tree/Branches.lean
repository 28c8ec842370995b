import TwigTemplate.Proofs.Statement.Everywhere
import TwigTemplate.Proofs.Tree.Reading

/-!
# Branches of open constructs

Every construct of a tree has its branches in order.  The order is kept by the open constructs,
since only the innermost one is ever given a branch, and only one that it accepts at that point.
-/

namespace TwigTemplate
namespace Tree

open Statement

namespace Frame

/-- The statements of the bodies so far, in order. -/
def contents (frame : Frame) : List Statement := (frame.finish none).children

theorem children_finish (frame : Frame) (endPiece : Option Nat) :
    (frame.finish endPiece).children = frame.contents := rfl

theorem contents_push (frame : Frame) (statement : Statement) :
    (frame.push statement).contents = frame.contents ++ [statement] := by
  cases frame with
  | mk header piece span body branches =>
      cases branches <;> simp [contents, push, finish, children]

theorem contents_openBranch (frame : Frame) (kind : BranchKind) (piece : Nat) :
    (frame.openBranch kind piece).contents = frame.contents := by
  simp [contents, openBranch, finish, children]

/-- The branches so far are in order, here and in all statements inside. -/
def Ordered (frame : Frame) : Prop := (frame.finish none).Everywhere BranchesInOrder

theorem ordered_iff {frame : Frame} :
    frame.Ordered ↔
      frame.header.Admits (frame.branches.reverse.map (·.kind)) ∧
        ∀ statement ∈ frame.contents, statement.Everywhere BranchesInOrder := by
  rw [Ordered, everywhere_iff, children_finish]
  simp [finish, BranchesInOrder, Function.comp_def]

theorem everywhere_finish {frame : Frame} (ordered : frame.Ordered) (endPiece : Option Nat) :
    (frame.finish endPiece).Everywhere BranchesInOrder := by
  rw [everywhere_iff, children_finish]
  exact ⟨(everywhere_iff.mp ordered).1, (ordered_iff.mp ordered).2⟩

theorem header_push (frame : Frame) (statement : Statement) :
    (frame.push statement).header = frame.header := by
  rw [push]
  split <;> rfl

theorem kinds_push (frame : Frame) (statement : Statement) :
    (frame.push statement).branches.map (·.kind) = frame.branches.map (·.kind) := by
  cases frame with
  | mk header piece span body branches => cases branches <;> rfl

theorem ordered_push {frame : Frame} {statement : Statement} (ordered : frame.Ordered)
    (inside : statement.Everywhere BranchesInOrder) : (frame.push statement).Ordered := by
  rw [ordered_iff] at ordered ⊢
  rw [header_push, List.map_reverse, kinds_push, ← List.map_reverse, contents_push]
  refine ⟨ordered.1, ?_⟩
  intro other member
  rcases List.mem_append.mp member with member | member
  · exact ordered.2 other member
  · exact List.mem_singleton.mp member ▸ inside

/-- A construct that accepts a branch has none for everything else yet. -/
theorem isOtherwise_of_accepts {frame : Frame} {kind : BranchKind} (ordered : frame.Ordered)
    (accepted : frame.accepts kind = true) :
    ∀ branch ∈ frame.branches, branch.kind.isOtherwise = false := by
  obtain ⟨-, earlier⟩ := (ordered_iff.mp ordered).1
  rw [List.map_reverse, List.pairwise_reverse] at earlier
  simp only [Frame.accepts, Bool.and_eq_true, Bool.not_eq_true'] at accepted
  intro branch member
  cases branches : frame.branches with
  | nil => simp [branches] at member
  | cons latest rest =>
      rw [branches, List.map_cons, List.pairwise_cons] at earlier
      rw [branches] at member
      rcases List.mem_cons.mp member with rfl | member
      · simpa [branches] using accepted.2
      · exact earlier.1 _ (List.mem_map_of_mem member)

theorem ordered_openBranch {frame : Frame} {kind : BranchKind} (piece : Nat)
    (ordered : frame.Ordered) (accepted : frame.accepts kind = true) :
    (frame.openBranch kind piece).Ordered := by
  have none_otherwise := isOtherwise_of_accepts ordered accepted
  rw [ordered_iff] at ordered ⊢
  rw [contents_openBranch]
  refine ⟨?_, ordered.2⟩
  obtain ⟨accepts, earlier⟩ := ordered.1
  simp only [Frame.accepts, Bool.and_eq_true] at accepted
  simp only [openBranch, List.reverse_cons, List.map_append, List.map_cons, List.map_nil]
  constructor
  · intro other member
    rcases List.mem_append.mp member with member | member
    · exact accepts other member
    · exact List.mem_singleton.mp member ▸ accepted.1
  · refine List.pairwise_append.mpr ⟨earlier, List.pairwise_singleton _ _, ?_⟩
    intro other member _ _
    obtain ⟨branch, among, rfl⟩ := List.mem_map.mp member
    exact none_otherwise branch (List.mem_reverse.mp among)

end Frame

namespace Reading

/-- The branches of all constructs, open or finished, are in order. -/
def Ordered (reading : Reading) : Prop :=
  (∀ statement ∈ reading.root, statement.Everywhere BranchesInOrder) ∧
    ∀ frame ∈ reading.stack, frame.Ordered

theorem ordered_start : start.Ordered := by
  constructor <;> intro _ member <;> cases member

theorem ordered_push {reading : Reading} {statement : Statement} (ordered : reading.Ordered)
    (inside : statement.Everywhere BranchesInOrder) : (reading.push statement).Ordered := by
  obtain ⟨roots, frames⟩ := ordered
  rw [push]
  split
  · exact ⟨List.forall_mem_cons.mpr ⟨inside, roots⟩, frames⟩
  · rename_i frame rest stacked
    rw [stacked, List.forall_mem_cons] at frames
    exact ⟨roots, List.forall_mem_cons.mpr ⟨Frame.ordered_push frames.1 inside, frames.2⟩⟩

theorem ordered_pop {reading : Reading} (ordered : reading.Ordered) (endPiece : Option Nat) :
    (reading.pop endPiece).Ordered := by
  rw [pop]
  split
  · exact ordered
  · rename_i frame rest stacked
    obtain ⟨roots, frames⟩ := ordered
    rw [stacked, List.forall_mem_cons] at frames
    exact ordered_push ⟨roots, frames.2⟩ (Frame.everywhere_finish frames.1 endPiece)

theorem ordered_openConstruct {reading : Reading} (header : Construct) (piece : Nat) (span : Span)
    (ordered : reading.Ordered) :
    Ordered { reading with stack := ⟨header, piece, span, [], []⟩ :: reading.stack } := by
  refine ⟨ordered.1, List.forall_mem_cons.mpr ⟨?_, ordered.2⟩⟩
  rw [Frame.ordered_iff]
  simp [Construct.Admits, Frame.contents, Frame.finish, children]

theorem ordered_openBranch {reading : Reading} {frame : Frame} {frames : List Frame}
    {kind : BranchKind} (piece : Nat) (stacked : reading.stack = frame :: frames)
    (accepted : frame.accepts kind = true) (ordered : reading.Ordered) :
    Ordered { reading with stack := frame.openBranch kind piece :: frames } := by
  obtain ⟨roots, kept⟩ := ordered
  rw [stacked, List.forall_mem_cons] at kept
  exact ⟨roots, List.forall_mem_cons.mpr
    ⟨Frame.ordered_openBranch piece kept.1 accepted, kept.2⟩⟩

theorem ordered_invariant : Invariant Ordered Ordered where
  settled_congr ordered same := by rwa [Ordered, same.1, same.2]
  torn_congr ordered same := by rwa [Ordered, same.1, same.2]
  start := ordered_start
  push piece leaf ordered := by
    refine ordered_push ordered (.intro trivial ?_)
    simp [children]
  openConstruct header piece span ordered := ordered_openConstruct header piece span ordered
  openBranch piece stacked accepted ordered := ordered_openBranch piece stacked accepted ordered
  torn_of_settled ordered := ordered
  cutOff ordered := ordered_pop ordered none
  close piece _ ordered := ordered_pop ordered (some piece)

end Reading

/-- Every construct of a tree has its branches in order. -/
theorem branchesInOrder_build (limit : Option Nat) (options : Options) (source : Source)
    (pieces : List Piece) :
    ∀ statement ∈ (build limit options source pieces).statements,
      statement.Everywhere BranchesInOrder := by
  obtain ⟨reading, ordered, _, statements⟩ :=
    Reading.ordered_invariant.exists_torn limit options source pieces
  intro statement member
  rw [statements, List.mem_reverse] at member
  exact ordered.1 statement member

end Tree
end TwigTemplate
