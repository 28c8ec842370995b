import TwigTemplate.Command.Outcome
import TwigTemplate.Proofs.Line.Place
import TwigTemplate.Proofs.Piece.Boundary
import TwigTemplate.Proofs.Piece.Group

/-!
# Names in scope at a place

A cursor may be given by an offset or by a line and a column.  Inside a character, the line and the
column are those of the character.  No piece begins or ends there, so the names in scope are the
same.
-/

namespace TwigTemplate

namespace Piece

/-- A piece that holds an offset holds the boundary before it. -/
theorem holds_floorBoundary_iff {source : Source} {piece : Piece} {after : List Piece}
    {offset : Nat} (inside : offset ≤ source.size)
    (starts : source.isBoundary piece.span.start = true)
    (stops : source.isBoundary piece.span.stop = true)
    (last : after = [] → piece.span.stop = source.size) :
    piece.Holds after (source.floorBoundary offset) ↔ piece.Holds after offset := by
  have marks_iff {boundary : Nat} (marks : source.isBoundary boundary = true) :
      boundary ≤ source.floorBoundary offset ↔ boundary ≤ offset := by
    rw [Source.le_floorBoundary_iff marks, Nat.min_eq_left inside]
  have stop_iff := marks_iff stops
  have floor_le := Nat.le_trans (source.floorBoundary_le offset) (Nat.min_le_left _ _)
  rw [Holds, Holds, marks_iff starts]
  refine and_congr_right fun _ => or_congr ?_ (and_congr_right fun at_end => ?_)
  · rw [← Nat.not_le, stop_iff, Nat.not_le]
  · have size_eq := last at_end
    omega

end Piece

namespace Document

variable {options : Options} {source : Source} {offset : Nat}

/-- The piece under an offset inside a character is the one under the character. -/
theorem pieceAt?_floorBoundary (inside : offset ≤ source.size) :
    (parse options source).pieceAt? (source.floorBoundary offset) =
      (parse options source).pieceAt? offset := by
  have covers : Piece.Covers 0 (Piece.group source.tokens).toList source.size :=
    Piece.covers_group_tokens source
  ext index
  rw [Document.pieceAt?, Document.pieceAt?]
  refine (Piece.indexAt?_eq_some_iff covers).trans (Iff.trans ?_
    (Piece.indexAt?_eq_some_iff covers).symm)
  refine exists_congr fun before => exists_congr fun piece => exists_congr fun after =>
    and_congr_right fun split => and_congr_right fun _ => ?_
  have member : piece ∈ Piece.group source.tokens := by
    rw [← Array.mem_toList_iff, split]
    exact List.mem_append_right _ List.mem_cons_self
  have marks := Piece.isBoundary_of_mem_group member
  refine Piece.holds_floorBoundary_iff inside marks.1 marks.2 ?_
  rintro rfl
  obtain ⟨_, _, _, _, ended⟩ := Piece.Covers.append_iff.mp (split ▸ covers)
  exact ended

/-- The same names are in scope everywhere in a character. -/
theorem bindingsAt_floorBoundary (inside : offset ≤ source.size) :
    (parse options source).bindingsAt (source.floorBoundary offset) =
      (parse options source).bindingsAt offset := by
  rw [bindingsAt, bindingsAt, pieceAt?_floorBoundary inside]

/-- Past the end no name is in scope. -/
theorem bindingsAt_of_size_lt (past : source.size < offset) :
    (parse options source).bindingsAt offset = [] := by
  have covers : Piece.Covers 0 (Piece.group source.tokens).toList source.size :=
    Piece.covers_group_tokens source
  have outside : (parse options source).pieceAt? offset = none :=
    Piece.indexAt?_of_stop_lt covers past
  rw [bindingsAt, outside]

end Document

namespace Command

/-- What is printed of the names in scope. -/
theorem run_scopes {options : Options} {surroundings : Surroundings} {input : Input}
    {text : String} (reads : surroundings.text input = .ok text) (place : CursorPlace) :
    run options surroundings (.scopes input place) =
      let document := Document.parse options (Source.ofString text)
      .ok (.ofJson (Json.ofList Binding.toJson
        (document.bindingsAt (place.offsetIn (Source.ofString text))))) := by
  rw [run, inspect, reads]
  rfl

/-- The names in scope are the same ones whether a cursor in a template is given by an offset or by
its line and column, and there are none on lines past the last one. -/
theorem run_scopes_at_line (options : Options) {surroundings : Surroundings} {input : Input}
    {text : String} (reads : surroundings.text input = .ok text) :
    let source := Source.ofString text
    let table := LineTable.ofSource source
    let document := Document.parse options source
    (∀ offset ≤ source.size,
      let position := table.positionAt offset
      let outcome := Outcome.ofJson (Json.ofList Binding.toJson (document.bindingsAt offset))
      run options surroundings (.scopes input (.offset offset)) = .ok outcome ∧
        run options surroundings (.scopes input (.line position.line position.column)) =
          .ok outcome) ∧
      ∀ line column, table.size ≤ line →
        run options surroundings (.scopes input (.line line column)) =
          .ok ⟨true, "[]\n", "", none⟩ := by
  intro source table document
  refine ⟨fun offset inside => ⟨run_scopes reads (.offset offset), ?_⟩,
    fun line column past => ?_⟩
  · have back := LineTable.offset?_positionAt source offset
    rw [run_scopes reads]
    dsimp only [CursorPlace.offsetIn]
    rw [back, Option.getD_some, Document.bindingsAt_floorBoundary inside]
  · have nothing : table.offset? ⟨line, column⟩ = none := LineTable.offset?_of_size_le past
    rw [run_scopes reads]
    dsimp only [CursorPlace.offsetIn]
    rw [nothing, Option.getD_none, Document.bindingsAt_of_size_lt (Nat.lt_succ_self _)]
    rfl

/-- A cursor in the middle of a character on the second line. -/
theorem run_scopes_at_line_in_character :
    let text := "\x7b% set é = 1 %\x7d\né"
    let surroundings : Surroundings := ⟨fun _ => none, text.toUTF8⟩
    let source := Source.ofString text
    let document := Document.parse .default source
    surroundings.text .standard = .ok text ∧
      (LineTable.ofSource source).positionAt 18 = ⟨1, 0⟩ ∧
      (document.bindingsAt 18).map Binding.name = ["é"] ∧
      run .default surroundings (.scopes .standard (.line 1 0)) =
        .ok (.ofJson (Json.ofList Binding.toJson (document.bindingsAt 18))) := by
  intro text surroundings source document
  have reads : surroundings.text .standard = .ok text := by decide +kernel
  have position : (LineTable.ofSource source).positionAt 18 = ⟨1, 0⟩ := by decide +kernel
  have same := ((run_scopes_at_line .default reads).1 18 (by decide +kernel)).2
  rw [position] at same
  exact ⟨reads, position, by decide +kernel, same⟩

end Command
end TwigTemplate
