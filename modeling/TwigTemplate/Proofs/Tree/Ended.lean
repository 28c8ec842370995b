import TwigTemplate.Proofs.Tree.Branches

/-!
# Constructs without an end tag come last

A construct is cut off only when what is around it ends or is cut off as well, so nothing ever
follows it in its body.  While constructs are being cut off, the innermost open body may end with
one of them; between two pieces, no open body does.
-/

namespace TwigTemplate
namespace Tree

open Statement

/-- The statement is ended, and so are the statements inside it that are not last. -/
def Whole (statement : Statement) : Prop :=
  statement.IsEnded ∧ statement.Everywhere BodiesEnded

namespace Frame

theorem bodiesEnded_finish_iff (frame : Frame) (endPiece : Option Nat) :
    (frame.finish endPiece).BodiesEnded ↔
      LastOpen frame.body.reverse ∧ ∀ branch ∈ frame.branches, LastOpen branch.body.reverse := by
  simp [finish, BodiesEnded]

theorem mem_contents_iff {frame : Frame} {statement : Statement} :
    statement ∈ frame.contents ↔
      statement ∈ frame.body ∨ ∃ branch ∈ frame.branches, statement ∈ branch.body := by
  simp [contents, finish, children]

theorem everywhere_finish_push {frame : Frame} {statement : Statement}
    (whole : ∀ child ∈ frame.contents, Whole child) (inside : statement.Everywhere BodiesEnded) :
    ((frame.push statement).finish none).Everywhere BodiesEnded := by
  have ended_body : ∀ child ∈ frame.body.reverse, child.IsEnded := by
    intro child member
    exact (whole child (mem_contents_iff.mpr (.inl (List.mem_reverse.mp member)))).1
  have ended_branch : ∀ branch ∈ frame.branches, ∀ child ∈ branch.body.reverse, child.IsEnded := by
    intro branch member child inside
    exact (whole child (mem_contents_iff.mpr
      (.inr ⟨branch, member, List.mem_reverse.mp inside⟩))).1
  rw [everywhere_iff, children_finish, contents_push, bodiesEnded_finish_iff]
  refine ⟨?_, ?_⟩
  · rw [push]
    cases latest : frame.branches with
    | nil =>
        refine ⟨?_, by simp⟩
        rw [List.reverse_cons]
        exact lastOpen_append_singleton ended_body statement
    | cons branch branches =>
        rw [latest, List.forall_mem_cons] at ended_branch
        refine ⟨lastOpen_of_forall ended_body, List.forall_mem_cons.mpr ⟨?_, ?_⟩⟩
        · rw [List.reverse_cons]
          exact lastOpen_append_singleton ended_branch.1 statement
        · exact fun other member => lastOpen_of_forall (ended_branch.2 other member)
  · intro child member
    rcases List.mem_append.mp member with member | member
    · exact (whole child member).2
    · exact List.mem_singleton.mp member ▸ inside

theorem everywhere_finish_of_whole {frame : Frame}
    (whole : ∀ child ∈ frame.contents, Whole child) :
    (frame.finish none).Everywhere BodiesEnded := by
  rw [everywhere_iff, children_finish, bodiesEnded_finish_iff]
  refine ⟨⟨?_, ?_⟩, fun child member => (whole child member).2⟩
  · apply lastOpen_of_forall
    intro child member
    exact (whole child (mem_contents_iff.mpr (.inl (List.mem_reverse.mp member)))).1
  · intro branch member
    apply lastOpen_of_forall
    intro child inside
    exact (whole child (mem_contents_iff.mpr
      (.inr ⟨branch, member, List.mem_reverse.mp inside⟩))).1

/-- The end piece does not matter for what is inside. -/
theorem everywhere_finish_congr {frame : Frame}
    (inside : (frame.finish none).Everywhere BodiesEnded) (endPiece : Option Nat) :
    (frame.finish endPiece).Everywhere BodiesEnded := by
  rw [everywhere_iff, bodiesEnded_finish_iff, children_finish] at inside ⊢
  exact inside

end Frame

namespace Reading

/-- No open body ends with a construct that is cut off. -/
def Settled (reading : Reading) : Prop :=
  (∀ statement ∈ reading.root, Whole statement) ∧
    ∀ frame ∈ reading.stack, ∀ statement ∈ frame.contents, Whole statement

/-- Only the innermost open body may end with a construct that is cut off. -/
def Torn (reading : Reading) : Prop :=
  match reading.stack with
  | [] => LastOpen reading.root.reverse ∧
      ∀ statement ∈ reading.root, statement.Everywhere BodiesEnded
  | frame :: frames => (frame.finish none).Everywhere BodiesEnded ∧
      Settled { reading with stack := frames }

theorem torn_of_settled {reading : Reading} (settled : reading.Settled) : reading.Torn := by
  rw [Torn]
  split
  · refine ⟨lastOpen_of_forall ?_, fun statement member => (settled.1 statement member).2⟩
    exact fun statement member => (settled.1 statement (List.mem_reverse.mp member)).1
  · rename_i frame frames stacked
    obtain ⟨roots, kept⟩ := settled
    rw [stacked, List.forall_mem_cons] at kept
    exact ⟨Frame.everywhere_finish_of_whole kept.1, roots, kept.2⟩

theorem torn_push {reading : Reading} {statement : Statement} (settled : reading.Settled)
    (inside : statement.Everywhere BodiesEnded) : (reading.push statement).Torn := by
  obtain ⟨roots, kept⟩ := settled
  cases stacked : reading.stack with
  | nil =>
      simp only [push, stacked, Torn, List.reverse_cons]
      refine ⟨lastOpen_append_singleton ?_ statement, List.forall_mem_cons.mpr ⟨inside, ?_⟩⟩
      · exact fun child member => (roots child (List.mem_reverse.mp member)).1
      · exact fun child member => (roots child member).2
  | cons frame frames =>
      rw [stacked, List.forall_mem_cons] at kept
      simp only [push, stacked, Torn]
      exact ⟨Frame.everywhere_finish_push kept.1 inside, roots, kept.2⟩

theorem settled_push {reading : Reading} {statement : Statement} (settled : reading.Settled)
    (whole : Whole statement) : (reading.push statement).Settled := by
  obtain ⟨roots, kept⟩ := settled
  cases stacked : reading.stack with
  | nil =>
      simp only [push, stacked]
      exact ⟨List.forall_mem_cons.mpr ⟨whole, roots⟩, fun _ member => by cases member⟩
  | cons frame frames =>
      rw [stacked, List.forall_mem_cons] at kept
      simp only [push, stacked]
      refine ⟨roots, List.forall_mem_cons.mpr ⟨?_, kept.2⟩⟩
      intro child member
      rw [Frame.contents_push] at member
      rcases List.mem_append.mp member with member | member
      · exact kept.1 child member
      · exact List.mem_singleton.mp member ▸ whole

theorem torn_pop {reading : Reading} (torn : reading.Torn) : (reading.pop none).Torn := by
  cases stacked : reading.stack with
  | nil => rwa [pop, stacked]
  | cons frame frames =>
      rw [Torn, stacked] at torn
      rw [pop, stacked]
      exact torn_push torn.2 torn.1

theorem settled_pop {reading : Reading} (piece : Nat) (kept : reading.stack ≠ [])
    (torn : reading.Torn) : (reading.pop (some piece)).Settled := by
  obtain ⟨frame, frames, stacked⟩ := List.exists_cons_of_ne_nil kept
  rw [Torn, stacked] at torn
  rw [pop, stacked]
  exact settled_push torn.2 ⟨rfl, Frame.everywhere_finish_congr torn.1 (some piece)⟩

theorem ended_invariant : Invariant Settled Torn where
  settled_congr settled same := by rwa [Settled, same.1, same.2]
  torn_congr torn same := by
    simp only [Torn, Settled] at torn ⊢
    rwa [same.1, same.2]
  start := by constructor <;> intro _ member <;> cases member
  push piece leaf settled := by
    refine settled_push settled ⟨trivial, .intro trivial ?_⟩
    simp [children]
  openConstruct header piece span settled := by
    refine ⟨settled.1, List.forall_mem_cons.mpr ⟨?_, settled.2⟩⟩
    simp [Frame.contents, Frame.finish, children]
  openBranch piece stacked accepted settled := by
    obtain ⟨roots, kept⟩ := settled
    rw [stacked, List.forall_mem_cons] at kept
    refine ⟨roots, List.forall_mem_cons.mpr ⟨?_, kept.2⟩⟩
    rw [Frame.contents_openBranch]
    exact kept.1
  torn_of_settled settled := torn_of_settled settled
  cutOff torn := torn_pop torn
  close piece kept torn := settled_pop piece kept torn

end Reading

/-- In every body of a tree, only the last statement may lack its end tag. -/
theorem lastOpen_build (limit : Option Nat) (options : Options) (source : Source)
    (pieces : List Piece) :
    LastOpen (build limit options source pieces).statements ∧
      ∀ statement ∈ (build limit options source pieces).statements,
        statement.Everywhere BodiesEnded := by
  obtain ⟨reading, torn, emptied, statements⟩ :=
    Reading.ended_invariant.exists_torn limit options source pieces
  rw [Reading.Torn, emptied] at torn
  rw [statements]
  exact ⟨torn.1, fun statement member => torn.2 statement (List.mem_reverse.mp member)⟩

end Tree
end TwigTemplate
