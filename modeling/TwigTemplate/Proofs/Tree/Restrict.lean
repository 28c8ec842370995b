import TwigTemplate.Proofs.Statement.Restrict
import TwigTemplate.Proofs.Tree.Order
import TwigTemplate.Proofs.Tree.Splice

/-!
# Trees of the first pieces

The tree of the first pieces of a template is the tree of all pieces, restricted to them.  Later
pieces only add statements at the end of open bodies, open branches of the innermost construct and
end constructs, all of which the restriction undoes.
-/

namespace TwigTemplate
namespace Tree

open Statement

namespace Frame

/-- What a frame becomes under a restriction depends on what is left of its last statements. -/
theorem restrict_finish_pushAll {index : Nat} {left right : List Statement} (frame : Frame)
    (same : restrictAll index left = restrictAll index right) (endPiece : Option Nat) :
    restrict index ((frame.pushAll left).finish endPiece) =
      restrict index ((frame.pushAll right).finish endPiece) := by
  cases latest : frame.branches with
  | nil =>
      rw [pushAll_of_branches_nil latest, pushAll_of_branches_nil latest]
      simp [finish, restrict, same]
  | cons branch branches =>
      rw [pushAll_of_branches_cons latest, pushAll_of_branches_cons latest]
      simp [finish, restrict, restrictBranches_cons, same]

theorem mentions_pushAll (frame : Frame) (statements : List Statement) :
    (frame.pushAll statements).mentions = frame.mentions ++ mentionsOf statements := by
  induction statements generalizing frame with
  | nil => exact (List.append_nil _).symm
  | cons statement statements ih =>
      rw [mentionsOf_cons, ← List.append_assoc, ← mentions_push, ← ih]
      rfl

theorem restrict_finish_openBranch {index piece : Nat} (late : index ≤ piece) (frame : Frame)
    (kind : BranchKind) (endPiece : Option Nat) :
    restrict index ((frame.openBranch kind piece).finish endPiece) =
      restrict index (frame.finish endPiece) := by
  simp [openBranch, finish, restrict, restrictBranches_cons, Nat.not_lt.mpr late]

theorem restrict_finish_some {index piece : Nat} (late : index ≤ piece) (frame : Frame) :
    restrict index (frame.finish (some piece)) = restrict index (frame.finish none) := by
  simp [finish, restrict, late]

end Frame

namespace Reading

/-- The open constructs, innermost first, cut off one after the other around what the innermost body
still holds. -/
def nest : List Frame → List Statement → List Statement
  | [], inner => inner
  | frame :: frames, inner => nest frames [(frame.pushAll inner).finish none]

/-- The statements of the template if it ended here. -/
def statements (reading : Reading) : List Statement :=
  reading.root.reverse ++ nest reading.stack []

@[simp]
theorem statements_quiet (reading : Reading) : reading.quiet.statements = reading.statements := rfl

theorem statements_of_quiet_eq {left right : Reading} (same : left.quiet = right.quiet) :
    left.statements = right.statements := by
  rw [← statements_quiet left, same, statements_quiet]

theorem statements_pushAll (reading : Reading) (inner : List Statement) :
    (reading.pushAll inner).statements = reading.root.reverse ++ nest reading.stack inner := by
  cases stacked : reading.stack with
  | nil => simp [pushAll_of_stack_nil stacked, statements, stacked, nest]
  | cons frame frames => simp [pushAll_of_stack_cons stacked, statements, nest, Frame.pushAll]

theorem statements_push (reading : Reading) (statement : Statement) :
    (reading.push statement).statements =
      reading.root.reverse ++ nest reading.stack [statement] :=
  statements_pushAll reading [statement]

/-- Cutting off the innermost construct is part of ending the template. -/
@[simp]
theorem statements_pop_none (reading : Reading) :
    (reading.pop none).statements = reading.statements := by
  cases stacked : reading.stack with
  | nil => rw [pop, stacked]
  | cons frame frames =>
      rw [pop, stacked]
      dsimp only
      rw [statements_push, statements, stacked]
      rfl

@[simp]
theorem statements_iterate_pop (reading : Reading) (count : Nat) :
    ((pop · none)^[count] reading).statements = reading.statements :=
  iterate_pop_of_pop statements_pop_none reading count

theorem statements_finish_eq (reading : Reading) :
    reading.finish.statements = reading.statements := by
  have emptied_eq : reading.emptied.statements = reading.statements :=
    statements_iterate_pop reading.quiet _
  rw [statements_finish, ← emptied_eq, statements, stack_emptied, nest, List.append_nil]

/-! ### Restricted readings -/

section Restrict

variable {index : Nat}

theorem restrictAll_nest {left right : List Statement}
    (same : restrictAll index left = restrictAll index right) (frames : List Frame) :
    restrictAll index (nest frames left) = restrictAll index (nest frames right) := by
  induction frames generalizing left right with
  | nil => exact same
  | cons frame frames ih =>
      have finished := frame.restrict_finish_pushAll same none
      have same_start := congrArg startPiece finished
      rw [startPiece_restrict, startPiece_restrict] at same_start
      exact ih (restrictAll_singleton_congr same_start finished)

/-- A later statement is left out. -/
theorem restrictAll_push_of_le (reading : Reading) {statement : Statement}
    (late : index ≤ statement.startPiece) :
    restrictAll index (reading.push statement).statements =
      restrictAll index reading.statements := by
  have left_out : restrictAll index [statement] = restrictAll index [] :=
    restrictAll_cons_of_le late []
  rw [statements_push, statements, restrictAll_append, restrictAll_append,
    restrictAll_nest left_out]

theorem restrictAll_push_congr (reading : Reading) {left right : Statement}
    (same_start : left.startPiece = right.startPiece)
    (same : restrict index left = restrict index right) :
    restrictAll index (reading.push left).statements =
      restrictAll index (reading.push right).statements := by
  rw [statements_push, statements_push, restrictAll_append, restrictAll_append,
    restrictAll_nest (restrictAll_singleton_congr same_start same)]

/-- The statements, seen from the body around the innermost construct. -/
theorem statements_of_stack_cons {reading : Reading} {frame : Frame} {frames : List Frame}
    (stacked : reading.stack = frame :: frames) :
    reading.statements =
      ({ reading with stack := frames }.push (frame.finish none)).statements := by
  rw [statements_push, statements, stacked]
  rfl

theorem restrictAll_pop_some {piece : Nat} (late : index ≤ piece) (reading : Reading) :
    restrictAll index (reading.pop (some piece)).statements =
      restrictAll index reading.statements := by
  cases stacked : reading.stack with
  | nil => rw [pop, stacked]
  | cons frame frames =>
      rw [statements_of_stack_cons stacked, pop, stacked]
      exact restrictAll_push_congr _ rfl (frame.restrict_finish_some late)

theorem restrictAll_openConstruct {piece : Nat} (late : index ≤ piece) (limit : Option Nat)
    (reading : Reading) (span : Span) (header : Construct) :
    restrictAll index (reading.openConstruct limit piece span header).statements =
      restrictAll index reading.statements := by
  rcases room_or_full limit reading with room | ⟨bound, rfl, full⟩
  · rw [openConstruct_of_lt reading piece span header room, statements_of_stack_cons rfl]
    exact restrictAll_push_of_le _ late
  · rw [openConstruct_of_le reading piece span header full]
    split <;> rfl

theorem restrictAll_openBranch {piece : Nat} (late : index ≤ piece) (reading : Reading)
    (span : Span) (kind : BranchKind) :
    restrictAll index (reading.openBranch piece span kind).statements =
      restrictAll index reading.statements := by
  rcases reading.openBranch_cases piece span kind with
    ⟨frame, frames, stacked, accepts, opened⟩ | same
  · rw [opened, statements_of_stack_cons rfl, statements_of_stack_cons stacked]
    exact restrictAll_push_congr _ rfl (frame.restrict_finish_openBranch late kind none)
  · rw [statements_of_quiet_eq same]

theorem restrictAll_close {piece : Nat} (late : index ≤ piece) (reading : Reading) (span : Span)
    (keyword : String) :
    restrictAll index (reading.close piece span keyword).statements =
      restrictAll index reading.statements := by
  by_cases flattened : keyword ∈ reading.flattened
  · rw [close_of_mem_flattened reading piece span flattened]
    rfl
  by_cases member : keyword ∈ reading.keywords
  · rw [← statements_quiet, quiet_close reading piece span flattened member,
      restrictAll_pop_some late, statements_iterate_pop]
    rfl
  · rw [close_of_not_mem reading piece span flattened member]
    rfl

/-- Whatever a later piece means, the restriction undoes it. -/
theorem restrictAll_apply {piece : Nat} (late : index ≤ piece) (limit : Option Nat)
    (reading : Reading) (span : Span) (tag : Tag) :
    restrictAll index (reading.apply limit piece span tag).statements =
      restrictAll index reading.statements := by
  cases tag with
  | opening header => exact restrictAll_openConstruct late limit reading span header
  | branch kind => exact restrictAll_openBranch late reading span kind
  | closing keyword => exact restrictAll_close late reading span keyword
  | single leaf => exact restrictAll_push_of_le reading late
  | inert => rfl
  | unknown keyword => rfl

end Restrict

theorem mentionsOf_nest (frames : List Frame) (inner : List Statement) :
    mentionsOf (nest frames inner) =
      frames.reverse.flatMap Frame.mentions ++ mentionsOf inner := by
  induction frames generalizing inner with
  | nil => rfl
  | cons frame frames ih =>
      have finished : mentionsOf [(frame.pushAll inner).finish none] =
          frame.mentions ++ mentionsOf inner := by
        rw [mentionsOf_cons, mentionsOf_nil, List.append_nil, ← Frame.mentions,
          Frame.mentions_pushAll]
      rw [nest, ih, finished]
      simp

theorem mentionsOf_statements (reading : Reading) :
    mentionsOf reading.statements = reading.mentions := by
  simp [statements, mentionsOf_nest, mentions]

end Reading

section Read

variable (limit : Option Nat) (options : Options) (source : Source)

theorem statements_build (pieces : List Piece) :
    (build limit options source pieces).statements =
      (read limit options source pieces).statements := by
  rw [build_eq_finish, Reading.statements_finish_eq]

theorem pairwise_piecesOf_build (pieces : List Piece) :
    (piecesOf (build limit options source pieces).statements).Pairwise (· < ·) := by
  rw [piecesOf, mentionsOf_build]
  exact (lists_read limit options source pieces).1

theorem lt_length_of_mem_piecesOf {pieces : List Piece} {piece : Nat}
    (member : piece ∈ piecesOf (read limit options source pieces).statements) :
    piece < pieces.length := by
  rw [piecesOf, Reading.mentionsOf_statements, List.mem_map] at member
  obtain ⟨mention, mentioned, rfl⟩ := member
  exact (lists_read limit options source pieces).lt_length mentioned

/-- What has been read of the first pieces is what has been read of more pieces, restricted. -/
theorem restrictAll_read_append (pieces further : List Piece) :
    restrictAll pieces.length (read limit options source (pieces ++ further)).statements =
      (read limit options source pieces).statements := by
  induction further using List.reverseRecOn with
  | nil =>
      rw [List.append_nil]
      exact restrictAll_of_forall fun _ member => lt_length_of_mem_piecesOf _ _ _ member
  | append_singleton further piece ih =>
      have late : pieces.length ≤ (pieces ++ further).length := by simp
      rw [← List.append_assoc, read_append_singleton, step_eq_apply,
        Reading.restrictAll_apply late, Reading.statements_of_quiet_eq (Reading.quiet_note _ piece),
        ih]

/-- The tree of the first pieces is the tree of all pieces, restricted to them. -/
theorem restrictAll_build (pieces : List Piece) (count : Nat) (inside : count ≤ pieces.length) :
    restrictAll count (build limit options source pieces).statements =
      (build limit options source (pieces.take count)).statements := by
  have first := restrictAll_read_append limit options source (pieces.take count)
    (pieces.drop count)
  rw [List.take_append_drop, List.length_take_of_le inside] at first
  rw [statements_build, statements_build, first]

end Read

section SameMeaning

variable (limit : Option Nat) (options : Options) {left right : Source} {pieces : List Piece}

/-- Two sources that give the same meaning to all pieces are read alike. -/
theorem read_congr
    (same : ∀ piece ∈ pieces, Tag.ofPiece options left piece = Tag.ofPiece options right piece) :
    read limit options left pieces = read limit options right pieces := by
  rw [read, read]
  apply List.foldl_ext
  rintro reading ⟨piece, index⟩ member
  have among := List.fst_mem_of_mem_zipIdx member
  simp only [step, same piece among]

/-- Two sources that give the same meaning to all pieces give the same tree. -/
theorem build_congr
    (same : ∀ piece ∈ pieces, Tag.ofPiece options left piece = Tag.ofPiece options right piece) :
    build limit options left pieces = build limit options right pieces := by
  rw [build_eq_finish, build_eq_finish, read_congr limit options same]

end SameMeaning

end Tree
end TwigTemplate
