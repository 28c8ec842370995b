import TwigTemplate.Proofs.Relocation
import TwigTemplate.Proofs.Tree.Reading

/-!
# Reading what has been moved

Pieces that are read behind a part of a template that leaves nothing open do what they do by
themselves, with their new numbers and places.
-/

namespace TwigTemplate

/-- Pieces that end a construct are numbered like all others. -/
def Relocation.Uniform (places : Relocation) : Prop :=
  ∀ opener endPiece, places.ending opener endPiece = endPiece.map places.piece

theorem Relocation.uniform_shift (count offset : Nat) : (shift count offset).Uniform :=
  fun _ _ => rfl

namespace Tree

open Statement

variable (places : Relocation)

namespace Frame

/-- The same construct with its new pieces and places. -/
def relocate (frame : Frame) : Frame where
  header := frame.header.relocate places
  piece := places.piece frame.piece
  span := places.span frame.span
  body := frame.body.map (Statement.relocate places)
  branches := frame.branches.map fun branch =>
    ⟨branch.kind.relocate places, places.piece branch.piece,
      branch.body.map (Statement.relocate places)⟩

variable (frame : Frame)

@[simp]
theorem keyword_relocate : (frame.relocate places).keyword = frame.keyword :=
  frame.header.keyword_relocate places

theorem accepts_relocate (kind : BranchKind) :
    (frame.relocate places).accepts (kind.relocate places) = frame.accepts kind := by
  have latest : (frame.relocate places).branches.head?.any (·.kind.isOtherwise) =
      frame.branches.head?.any (·.kind.isOtherwise) := by
    rw [relocate]
    cases frame.branches <;> simp
  rw [accepts, accepts, latest, relocate, Construct.accepts_relocate]

theorem relocate_push (statement : Statement) :
    (frame.push statement).relocate places =
      (frame.relocate places).push (statement.relocate places) := by
  obtain ⟨header, piece, span, body, branches⟩ := frame
  cases branches <;> rfl

theorem relocate_finish (endPiece : Option Nat) :
    (frame.finish endPiece).relocate places =
      (frame.relocate places).finish (places.ending frame.piece endPiece) := by
  rw [finish, finish, Statement.relocate, relocateAll_eq_map, relocateBranches_eq_map]
  simp [relocate, ← List.map_reverse, Function.comp_def]

theorem relocate_unclosed (atEnd : Bool) :
    (frame.relocate places).unclosed atEnd = (frame.unclosed atEnd).relocate places := by
  rw [unclosed, unclosed, keyword_relocate]
  rfl

end Frame

namespace Reading

/-- The same reading with its new pieces and places, after what has been read before. -/
def behind (before reading : Reading) : Reading where
  root := reading.root.map (Statement.relocate places) ++ before.root
  stack := reading.stack.map (·.relocate places)
  flattened := reading.flattened
  findings := before.findings ++ reading.findings.map (·.relocate places)

section Moved

variable (before reading : Reading)

theorem report_behind (finding : Finding) :
    (before.behind places reading).report (finding.relocate places) =
      before.behind places (reading.report finding) := by
  simp [behind, report]

theorem push_behind (statement : Statement) :
    (before.behind places reading).push (statement.relocate places) =
      before.behind places (reading.push statement) := by
  obtain ⟨root, stack, flattened, findings⟩ := reading
  cases stack with
  | nil => rfl
  | cons frame frames => simp [behind, push, Frame.relocate_push]

theorem openConstruct_behind (limit : Option Nat) (piece : Nat) (span : Span)
    (header : Construct) :
    (before.behind places reading).openConstruct limit (places.piece piece) (places.span span)
        (header.relocate places) =
      before.behind places (reading.openConstruct limit piece span header) := by
  have width : (before.behind places reading).stack.length = reading.stack.length :=
    List.length_map _
  rcases room_or_full limit reading with room | ⟨bound, rfl, full⟩
  · rw [openConstruct_of_lt reading piece span header room,
      openConstruct_of_lt _ _ _ _ (width ▸ room)]
    rfl
  · rw [openConstruct_of_le reading piece span header full,
      openConstruct_of_le _ _ _ _ (width ▸ full), Construct.keyword_relocate]
    have told := report_behind places before reading
      (.nestingTooDeep header.keyword bound span)
    have kept : (before.behind places reading).flattened = reading.flattened := rfl
    rw [kept]
    split
    · rw [show Finding.nestingTooDeep header.keyword bound (places.span span) =
        (Finding.nestingTooDeep header.keyword bound span).relocate places from rfl, told]
      rfl
    · rfl

theorem openBranch_behind (piece : Nat) (span : Span) (kind : BranchKind) :
    (before.behind places reading).openBranch (places.piece piece) (places.span span)
        (kind.relocate places) =
      before.behind places (reading.openBranch piece span kind) := by
  have told := report_behind places before reading
    (.unexpectedBranch kind.keyword span)
  obtain ⟨root, stack, flattened, findings⟩ := reading
  rw [openBranch, openBranch]
  cases flattened with
  | cons keyword flattened => rfl
  | nil =>
      cases stack with
      | nil =>
          simp only [behind, List.map_nil, List.isEmpty_nil, if_true, BranchKind.keyword_relocate]
          exact told
      | cons frame frames =>
          simp only [behind, List.map_cons, List.isEmpty_nil, if_true, BranchKind.keyword_relocate,
            Frame.accepts_relocate]
          split
          · rfl
          · exact told

end Moved

variable {places} (uniform : places.Uniform) (before reading : Reading)
include uniform

theorem pop_behind (endPiece : Option Nat) :
    (before.behind places reading).pop (endPiece.map places.piece) =
      before.behind places (reading.pop endPiece) := by
  obtain ⟨root, stack, flattened, findings⟩ := reading
  cases stack with
  | nil => rfl
  | cons frame frames =>
      have finished : (frame.relocate places).finish (endPiece.map places.piece) =
          (frame.finish endPiece).relocate places := by
        rw [Frame.relocate_finish, uniform]
      calc
        (before.behind places ⟨root, frame :: frames, flattened, findings⟩).pop
            (endPiece.map places.piece) =
              (before.behind places ⟨root, frames, flattened, findings⟩).push
                ((frame.relocate places).finish (endPiece.map places.piece)) := rfl
        _ = _ := by
          rw [finished, push_behind]
          rfl

theorem cutOff_behind (atEnd : Bool) (frames : List Frame) :
    cutOff atEnd (before.behind places reading) (frames.map (·.relocate places)) =
      before.behind places (cutOff atEnd reading frames) := by
  induction frames generalizing reading with
  | nil => rfl
  | cons frame frames ih =>
      have popped := pop_behind uniform before (reading.report (frame.unclosed atEnd)) none
      calc
        cutOff atEnd (before.behind places reading) ((frame :: frames).map (·.relocate places)) =
            cutOff atEnd (((before.behind places reading).report
              ((frame.relocate places).unclosed atEnd)).pop none)
                (frames.map (·.relocate places)) := rfl
        _ = cutOff atEnd (before.behind places ((reading.report (frame.unclosed atEnd)).pop none))
            (frames.map (·.relocate places)) := by
          rw [Frame.relocate_unclosed, report_behind, ← popped]
          rfl
        _ = _ := ih _

theorem close_behind (piece : Nat) (span : Span) (keyword : String) :
    (before.behind places reading).close (places.piece piece) (places.span span) keyword =
      before.behind places (reading.close piece span keyword) := by
  have parted : (before.behind places reading).stack.span (·.keyword != keyword) =
      ((reading.stack.span (·.keyword != keyword)).1.map (·.relocate places),
        (reading.stack.span (·.keyword != keyword)).2.map (·.relocate places)) := by
    have same : (fun frame : Frame => frame.keyword != keyword) ∘ (Frame.relocate places) =
        fun frame => frame.keyword != keyword := funext fun frame => by simp
    rw [behind, List.span_eq_takeWhile_dropWhile, List.span_eq_takeWhile_dropWhile,
      List.takeWhile_map, List.dropWhile_map, same]
  rw [close, close, parted]
  have kept : (before.behind places reading).flattened = reading.flattened := rfl
  rw [kept]
  split
  · rfl
  · generalize reading.stack.span (·.keyword != keyword) = parts
    rcases parts with ⟨_ | ⟨innermost, others⟩, _ | ⟨_, _⟩⟩
    · exact report_behind places before reading (.unexpectedEndTag keyword span)
    · exact pop_behind uniform before { reading with flattened := [] } (some piece)
    · exact report_behind places before reading (.unexpectedEndTag keyword span)
    · have told := report_behind places before { reading with flattened := [] }
        (.mismatchedEndTag keyword span innermost.keyword innermost.span)
      have cut := cutOff_behind uniform before
        ({ reading with flattened := [] }.report
          (.mismatchedEndTag keyword span innermost.keyword innermost.span)) false
        (innermost :: others)
      have popped := pop_behind uniform before
        (cutOff false ({ reading with flattened := [] }.report
          (.mismatchedEndTag keyword span innermost.keyword innermost.span))
            (innermost :: others)) (some piece)
      rw [← cut, ← told] at popped
      have same : (innermost.relocate places).keyword = innermost.keyword :=
        innermost.keyword_relocate places
      simp only [List.map_cons, same] at popped ⊢
      exact popped

/-- A piece that has been moved does what it does at its old place. -/
theorem apply_behind (limit : Option Nat) (piece : Nat) (span : Span) (tag : Tag) :
    (before.behind places reading).apply limit (places.piece piece) (places.span span)
        (tag.relocate places) =
      before.behind places (reading.apply limit piece span tag) := by
  cases tag with
  | opening header => exact openConstruct_behind places before reading limit piece span header
  | branch kind => exact openBranch_behind places before reading piece span kind
  | closing keyword => exact close_behind uniform before reading piece span keyword
  | single leaf => exact push_behind places before reading (.leaf piece leaf)
  | inert => rfl
  | unknown keyword => exact report_behind places before reading (.unknownTag keyword)

/-- What is left open is cut off as it is by itself. -/
theorem finish_behind :
    (before.behind places reading).finish =
      ⟨before.root.reverse ++ reading.finish.statements.map (Statement.relocate places),
        before.findings.toList ++ reading.finish.findings.map (·.relocate places)⟩ := by
  have cut := cutOff_behind uniform before reading true reading.stack
  rw [finish, finish, show (before.behind places reading).stack =
    reading.stack.map (·.relocate places) from rfl, cut]
  simp [behind]

end Reading
end Tree
end TwigTemplate
