import TwigTemplate.Document
import TwigTemplate.Proofs.Piece.Append
import TwigTemplate.Proofs.Piece.Truncate
import TwigTemplate.Proofs.Tag.Shift
import TwigTemplate.Proofs.Tree.Relocation
import TwigTemplate.Proofs.Tree.Stray

/-!
# Templates that follow each other

Pieces after a part of a template that leaves nothing open form the tree that they form by
themselves, further on.  So a template after a complete one is read as it is by itself.
-/

namespace TwigTemplate

namespace Tree

/-! ### Nothing is left open -/

/-- Constructs are forgotten only while as many are open as are kept. -/
theorem Reading.Acts.full {limit : Option Nat} {reading after : Reading} {index : Nat} {span : Span}
    {tag : Tag} (acts : Acts limit reading index span tag after)
    (full : reading.flattened ≠ [] → ∃ bound ∈ limit, bound ≤ reading.stack.length)
    (inner : after.flattened ≠ []) : ∃ bound ∈ limit, bound ≤ after.stack.length := by
  have kept_width (statement : Statement) :
      (reading.push statement).stack.length = reading.stack.length := by
    rw [← length_keywords, keywords_push, length_keywords]
  cases acts with
  | opened room =>
      obtain ⟨bound, limited, full⟩ := full inner
      exact absurd (room bound limited) (Nat.not_lt.mpr full)
  | forgotten limited full => exact ⟨_, limited, full⟩
  | tooDeep limited full => exact ⟨_, limited, full⟩
  | branched kept => exact absurd kept inner
  | recalled member => exact full (List.ne_nil_of_mem member)
  | ended => exact absurd (flattened_push _ _) inner
  | single =>
      rw [kept_width]
      exact full (by rwa [flattened_push] at inner)
  | _ => exact full inner

/-- No construct is open. -/
def Reading.IsClosed (reading : Reading) : Prop := reading.stack = [] ∧ reading.flattened = []

section Read

variable (limit : Option Nat) (options : Options) {source back whole : Source} {offset : Nat}

theorem full_read (pieces : List Piece)
    (inner : (read limit options source pieces).flattened ≠ []) :
    ∃ bound ∈ limit, bound ≤ (read limit options source pieces).stack.length := by
  induction pieces using List.reverseRecOn with
  | nil => exact absurd rfl inner
  | append_singleton pieces piece ih =>
      refine (acts_read limit options source pieces piece).full ?_ inner
      rwa [stack_note, flattened_note]

/-- If no construct is told to be cut off, none is open at the end, and none is forgotten. -/
theorem closed_read {pieces : List Piece} (positive : ∀ bound ∈ limit, 0 < bound)
    (ended : ∀ diagnostic ∈ (build limit options source pieces).diagnostics,
      diagnostic.kind ≠ .unclosedBlock) :
    (read limit options source pieces).IsClosed := by
  have bare : (read limit options source pieces).stack = [] := by
    rw [List.eq_nil_iff_forall_not_mem]
    intro frame member
    refine ended (frame.unclosed true).diagnostic ?_ rfl
    rw [diagnostics, build_eq_finish, Reading.findings_finish]
    exact List.mem_map_of_mem (List.mem_append_right _ (List.mem_map_of_mem member))
  refine ⟨bare, ?_⟩
  by_contra inner
  obtain ⟨bound, limited, full⟩ := full_read limit options pieces inner
  rw [bare] at full
  exact absurd (positive bound limited) (Nat.not_lt.mpr full)

/-! ### Two parts of a template -/

/-- The delimiter of an unclosed region moves with the region. -/
theorem unclosed?_relocate (count offset : Nat) {piece : Piece}
    (long : piece.kind ≠ .text → piece.span.start + 2 ≤ piece.span.stop) :
    unclosed? (piece.relocate (.shift count offset)) =
      (unclosed? piece).map (·.relocate (.shift count offset)) := by
  obtain ⟨kind, ⟨start, stop⟩, body, closed⟩ := piece
  cases kind with
  | text => rfl
  | region delimiter =>
      cases closed with
      | true => rfl
      | false =>
          have long : start + 2 ≤ stop := long (by simp)
          simp [unclosed?, delimiterSpan, Piece.relocate, Relocation.span, Relocation.shift,
            Finding.relocate, long, Nat.add_assoc]

theorem step_behind (ends : back.Ends whole offset) (before reading : Reading) {piece : Piece}
    (long : piece.kind ≠ .text → piece.span.start + 2 ≤ piece.span.stop) (count index : Nat) :
    step limit options whole (before.behind (.shift count offset) reading)
        (piece.relocate (.shift count offset)) (count + index) =
      before.behind (.shift count offset) (step limit options back reading piece index) := by
  have noted : (before.behind (.shift count offset) reading).note
      (piece.relocate (.shift count offset)) =
        before.behind (.shift count offset) (reading.note piece) := by
    rw [Reading.note, Reading.note, unclosed?_relocate count offset long]
    cases unclosed? piece with
    | none => rfl
    | some finding => exact Reading.report_behind _ before reading finding
  rw [step_eq_apply, step_eq_apply, noted, Tag.ofPiece_shift options ends]
  exact Reading.apply_behind (Relocation.uniform_shift count offset) before _ limit index piece.span
    (Tag.ofPiece options back piece)

/-- Behind pieces that leave nothing open, pieces are read as they are by themselves. -/
theorem read_append (ends : back.Ends whole offset) {front pieces : List Piece}
    (closed : (read limit options whole front).IsClosed)
    (long : ∀ piece ∈ pieces, piece.kind ≠ .text → piece.span.start + 2 ≤ piece.span.stop) :
    read limit options whole (front ++ pieces.map (·.relocate (.shift front.length offset))) =
      (read limit options whole front).behind (.shift front.length offset)
        (read limit options back pieces) := by
  induction pieces using List.reverseRecOn with
  | nil =>
      rw [List.map_nil, List.append_nil]
      generalize read limit options whole front = before at closed
      obtain ⟨root, stack, flattened, findings⟩ := before
      obtain ⟨rfl, rfl⟩ : stack = [] ∧ flattened = [] := closed
      simp [Reading.behind, Reading.start]
  | append_singleton pieces piece ih =>
      have earlier := ih fun other member => long other (List.mem_append_left _ member)
      have stepped := step_behind limit options ends (read limit options whole front)
        (read limit options back pieces) (long piece (by simp)) front.length pieces.length
      rw [List.map_append, List.map_singleton, ← List.append_assoc, read_append_singleton, earlier,
        List.length_append, List.length_map, stepped, read_append_singleton]

/-- Behind pieces that leave nothing open, pieces form the tree that they form by themselves. -/
theorem build_append (ends : back.Ends whole offset) {front pieces : List Piece}
    (closed : (read limit options whole front).IsClosed)
    (long : ∀ piece ∈ pieces, piece.kind ≠ .text → piece.span.start + 2 ≤ piece.span.stop) :
    let places := Relocation.shift front.length offset
    let first := build limit options whole front
    let second := build limit options back pieces
    build limit options whole (front ++ pieces.map (·.relocate places)) =
      ⟨first.statements ++ second.statements.map (·.relocate places),
        first.findings ++ second.findings.map (·.relocate places)⟩ := by
  intro places first second
  have first_eq : first = ⟨(read limit options whole front).root.reverse,
      (read limit options whole front).findings.toList⟩ := by
    rw [show first = (read limit options whole front).finish from rfl, Reading.finish, closed.1]
    rfl
  rw [build_eq_finish, read_append limit options ends closed long,
    Reading.finish_behind (Relocation.uniform_shift _ _), first_eq]
  rfl

end Read
end Tree

namespace Document

/-- A template after another one is read as it is by itself, if there is a seam between them and no
construct is left open there. -/
theorem parse_append_of_seam (options : Options) {left : Source} (right : Source)
    {lexemes : List Lexeme} (seam : left.Seam lexemes)
    (closed : (Tree.read (some Tree.nestingLimit) options left
      (parse options left).pieces.toList).IsClosed) :
    let first := parse options left
    let second := parse options right
    let whole := parse options (left ++ right)
    let places := Relocation.shift first.pieces.size left.size
    whole.pieces = first.pieces ++ second.pieces.map (·.relocate places) ∧
      whole.statements = first.statements ++ second.statements.map (·.relocate places) ∧
      whole.diagnostics = first.diagnostics ++ second.diagnostics.map (·.relocate places) := by
  intro first second whole places
  obtain ⟨further, final, reads⟩ := Reads.exists_to_end .markup right.toList
  have pieces_left : first.pieces.toList = Piece.ofLexemes lexemes := seam.pieces_eq
  have pieces_right := Piece.toList_group_tokens reads
  have reads_whole : Reads .markup (left ++ right).toList (lexemes ++ further) final [] := by
    rw [Source.toList_append]
    exact (seam.reads right.toList).append reads
  have pieces_whole := Piece.toList_group_tokens reads_whole
  rw [Piece.ofLexemes_append first.pieces.size seam.finished, seam.width_eq, ← pieces_left,
    ← pieces_right] at pieces_whole
  -- The pieces of the first template mean in the whole what they mean by themselves.
  have same : ∀ piece ∈ first.pieces.toList,
      Tag.ofPiece options (left ++ right) piece = Tag.ofPiece options left piece := by
    intro piece member
    have covers := Piece.covers_group_tokens left
    refine (Tag.ofPiece_of_begins options (Source.begins_append left right) (covers.fits member)
      (covers.bounds member).2 ?_).symm
    intro _ unclosed stop
    rw [seam.closed piece (pieces_left ▸ member) stop] at unclosed
    cases unclosed
  have long : ∀ piece ∈ second.pieces.toList, piece.kind ≠ .text →
      piece.span.start + 2 ≤ piece.span.stop := by
    intro piece member
    exact Piece.long_of_mem_ofLexemes reads.longOpenings (pieces_right ▸ member)
  have tree_whole : Tree.ofPieces options (left ++ right)
      (first.pieces.toList ++ second.pieces.toList.map (·.relocate places)) =
        ⟨first.statements ++ second.statements.map (·.relocate places),
          first.tree.findings ++ second.tree.findings.map (·.relocate places)⟩ := by
    have joined := Tree.build_append (some Tree.nestingLimit) options
      (Source.ends_append left right) (Tree.read_congr _ options same ▸ closed) long
    rw [Tree.build_congr _ options same] at joined
    exact joined
  have pieces_eq : whole.pieces.toList =
      first.pieces.toList ++ second.pieces.toList.map (·.relocate places) := pieces_whole
  have tree_eq : whole.tree = Tree.ofPieces options (left ++ right) whole.pieces.toList := rfl
  rw [pieces_eq, tree_whole] at tree_eq
  refine ⟨?_, ?_, ?_⟩
  · apply Array.toList_inj.mp
    rw [pieces_eq, Array.toList_append, Array.toList_map]
  · rw [statements, tree_eq]
  · rw [diagnostics, tree_eq, Tree.diagnostics]
    simp [diagnostics, Tree.diagnostics, Finding.diagnostic_relocate]

/-- A template after another one is read as it is by itself, if the first one is empty, or ends with
a closed region that is no verbatim tag and leaves no construct open: its pieces, its statements and
its diagnostics follow those of the first template, further on. -/
theorem parse_append (options : Options) (left right : Source)
    (complete : left.text = "" ∨ left.EndsRegion ∧
      ∀ diagnostic ∈ (parse options left).diagnostics, diagnostic.kind ≠ .unclosedBlock) :
    let first := parse options left
    let second := parse options right
    let whole := parse options (left ++ right)
    let places := Relocation.shift first.pieces.size left.size
    whole.pieces = first.pieces ++ second.pieces.map (·.relocate places) ∧
      whole.statements = first.statements ++ second.statements.map (·.relocate places) ∧
      whole.diagnostics = first.diagnostics ++ second.diagnostics.map (·.relocate places) := by
  obtain ⟨lexemes, seam⟩ := Source.exists_seam (complete.imp_right And.left)
  refine parse_append_of_seam options right seam ?_
  rcases complete with empty | ⟨-, ended⟩
  · have none : (parse options left).pieces.toList = [] := by
      have size : left.size = 0 := by
        rw [Source.size, left.bytes_eq, empty]
        rfl
      have covers := size ▸ Piece.covers_group_tokens left
      exact covers.eq_nil
    rw [none]
    exact ⟨rfl, rfl⟩
  · exact Tree.closed_read _ options (by simp [Tree.nestingLimit]) ended

/-- A stray branch after a condition that is ended. -/
theorem parse_append_after_condition :
    let left := Source.ofString "\x7b% if a %\x7db\x7b% endif %\x7d"
    let right := Source.ofString "c\x7b% else %\x7d"
    left.EndsRegion ∧
      (∀ diagnostic ∈ (parse .default left).diagnostics, diagnostic.kind ≠ .unclosedBlock) ∧
      (parse .default (left ++ right)).pieces.size = 5 ∧
      (parse .default (left ++ right)).diagnostics.map (·.span) = [⟨23, 33⟩] := by
  intro left right
  have region : left.EndsRegion := by decide +kernel
  have ended : ∀ diagnostic ∈ (parse .default left).diagnostics,
      diagnostic.kind ≠ .unclosedBlock := by decide +kernel
  obtain ⟨pieces, -, told⟩ := parse_append .default left right (.inr ⟨region, ended⟩)
  refine ⟨region, ended, ?_, ?_⟩
  · rw [pieces]
    decide +kernel
  · rw [told]
    decide +kernel

end Document
end TwigTemplate
