import TwigTemplate.Proofs.Piece.Append
import TwigTemplate.Proofs.Piece.Boundary
import TwigTemplate.Proofs.Tag.Text
import TwigTemplate.Proofs.Tree.Meaning
import TwigTemplate.Proofs.Tree.Place
import TwigTemplate.Proofs.Tree.Turn

/-!
# What trees and diagnostics show of a text

The names and the expressions in a tree are parts of the text in the bodies of tags, and diagnostics
are at parts of the text.  None of these parts is empty.
-/

namespace TwigTemplate

namespace Tag

/-- The names and the expressions in the tag are copied out of the body of the piece, which is a
tag then. -/
structure WrittenIn (source : Source) (piece : Piece) (tag : Tag) : Prop where
  /-- The names are, and they are spelled as names. -/
  names : ∀ name ∈ tag.names,
    piece.kind = .region .tag ∧ name.CopiedFrom source piece.body ∧ name.IsName
  /-- The expressions are. -/
  expressions : ∀ expression ∈ tag.expressions,
    piece.kind = .region .tag ∧ expression.CopiedFrom source piece.body

theorem writtenIn_of_nil {source : Source} {piece : Piece} {tag : Tag} (no_names : tag.names = [])
    (no_expressions : tag.expressions = []) : tag.WrittenIn source piece :=
  ⟨by simp [no_names], by simp [no_expressions]⟩

variable (options : Options) {source : Source} {piece : Piece}

/-- What a body means is drawn from its words. -/
theorem drawnFrom_ofBody (body : Span) :
    (ofBody options source body).DrawnFrom source (Word.split source body) := by
  rw [ofBody, Header.ofBody]
  cases Word.split source body with
  | nil => exact drawnFrom_of_nil rfl rfl
  | cons first words =>
      rw [Header.ofWords]
      cases named : Excerpt.ofName? first with
      | none => exact drawnFrom_of_nil rfl rfl
      | some keyword => exact drawnFrom_ofKeyword options named

/-- What a piece means is written in it. -/
theorem writtenIn_ofPiece (member : piece ∈ Piece.group source.tokens) :
    (ofPiece options source piece).WrittenIn source piece := by
  rw [ofPiece]
  split
  · exact writtenIn_of_nil rfl rfl
  · exact writtenIn_of_nil rfl rfl
  · exact writtenIn_of_nil rfl rfl
  · rename_i kind
    have part := Piece.hasPart_body member kind
    have drawn : (ofBody options source piece.body).DrawnFrom source _ :=
      drawnFrom_ofBody options piece.body
    exact ⟨fun name among => ⟨kind, copiedFrom_of_mem_names part (drawn.names among)⟩,
      fun expression among => ⟨kind, copiedFrom_of_covers part (drawn.expressions _ among)⟩⟩

end Tag

namespace Tree

variable {options : Options} {source : Source} {piece : Piece} {span : Span}

/-- Regions that are not closed hold their opening delimiters. -/
theorem delimiterSpan_of_isUnclosed (member : piece ∈ Piece.group source.tokens)
    (unclosed : isUnclosed piece = true) :
    ∃ delimiter, piece.kind = .region delimiter ∧
      delimiterSpan piece = ⟨piece.span.start, piece.span.start + 2⟩ := by
  obtain ⟨region, -⟩ := Bool.and_eq_true_iff.mp unclosed
  cases kind : piece.kind with
  | text => simp [kind] at region
  | region delimiter =>
      obtain ⟨lexemes, final, reads⟩ := Reads.exists_to_end .markup source.toList
      have listed := Array.mem_toList_iff.mpr member
      rw [Piece.toList_group_tokens reads] at listed
      have long := Piece.long_of_mem_ofLexemes reads.longOpenings listed (by simp [kind])
      exact ⟨delimiter, rfl, delimiterSpan_of_le long⟩

/-- The opening delimiter of a region is a part of the text. -/
theorem hasPart_delimiterSpan (member : piece ∈ Piece.group source.tokens)
    (unclosed : isUnclosed piece = true) : source.HasPart (delimiterSpan piece) := by
  obtain ⟨delimiter, kind, span_eq⟩ := delimiterSpan_of_isUnclosed member unclosed
  obtain ⟨front, rest, split, front_long⟩ := Piece.exists_openBytes member kind
  have bytes : source.text.toUTF8.data.toList =
      ((front ++ [Byte.leftBrace]) ++ [delimiter.openMark]) ++ rest := by
    rw [Source.toUTF8_text, split, Delimiter.openBytes_eq]
    simp
  have valid := Source.isValid_after_ascii delimiter.isAscii_openMark bytes
  have stops : source.isBoundary (piece.span.start + 2) = true := by
    rw [← front_long]
    simpa using Source.isBoundary_of_isValid valid
  rw [span_eq]
  exact .of_isBoundary (Nat.le_add_right _ _) (Piece.isBoundary_of_mem_group member).1 stops

/-- Places of diagnostics are parts of the text. -/
theorem Spot.hasPart (spot : Spot options source piece span)
    (member : piece ∈ Piece.group source.tokens) :
    source.HasPart span ∧ span.start < span.stop := by
  cases spot with
  | tag =>
      have fits := (Piece.covers_group_tokens source).fits (Array.mem_toList_iff.mpr member)
      exact ⟨Piece.hasPart_span member, fits.start_lt⟩
  | delimiter unclosed =>
      obtain ⟨-, -, span_eq⟩ := delimiterSpan_of_isUnclosed member unclosed
      refine ⟨hasPart_delimiterSpan member unclosed, ?_⟩
      rw [span_eq]
      exact Nat.lt_add_of_pos_right (by decide)
  | @keyword keyword unknown =>
      have written := Tag.writtenIn_ofPiece options member
      rw [unknown] at written
      obtain ⟨-, copied, -⟩ := written.names keyword (List.mem_singleton_self _)
      exact ⟨copied.part, copied.filled⟩

end Tree

namespace Document

open Statement

/-- All names and expressions in a tree are copied out of the tags that they stand in, and all
diagnostics are at parts of the text that are not empty. -/
theorem parse_refers_to_source (options : Options) (source : Source) :
    let document := parse options source
    (∀ statement ∈ forest document.statements,
      (∃ piece, document.pieces[statement.startPiece]? = some piece ∧
        statement.tag.WrittenIn source piece) ∧
      ∀ branch ∈ statement.branches, ∃ piece, document.pieces[branch.piece]? = some piece ∧
        (Tag.branch branch.kind).WrittenIn source piece) ∧
    ∀ diagnostic ∈ document.diagnostics,
      ∀ span ∈ diagnostic.span :: diagnostic.relatedSpan.toList,
        source.HasPart span ∧ span.start < span.stop := by
  intro document
  have written {index : Nat} {piece : Piece} {tag : Tag}
      (found : document.pieces.toList[index]? = some piece)
      (means : Tag.ofPiece options source piece = tag) :
      ∃ piece, document.pieces[index]? = some piece ∧ tag.WrittenIn source piece := by
    have member := Array.mem_toList_iff.mp (List.mem_of_getElem? found)
    rw [Array.getElem?_toList] at found
    exact ⟨piece, found, means ▸ Tag.writtenIn_ofPiece options member⟩
  refine ⟨fun statement member => ⟨?_, fun branch among => ?_⟩, ?_⟩
  · obtain ⟨piece, found, means⟩ := Tree.exists_piece_of_mem_forest member
    exact written found means
  · obtain ⟨piece, found, means⟩ := Tree.exists_piece_of_mem_branches member among
    exact written found means
  · intro diagnostic member span among
    obtain ⟨piece, listed, spot⟩ :=
      Tree.exists_spot_of_mem_diagnostics _ options source member span among
    exact spot.hasPart (Array.mem_toList_iff.mp listed)

/-- The condition of a branch is copied out of the tag of the branch, which is not closed here. -/
theorem branch_refers_to_source :
    let source := Source.ofString "\x7b% if a %\x7d\x7b% elseif é"
    let document := parse .default source
    let condition : Excerpt := ⟨"é", ⟨20, 22⟩⟩
    let piece : Piece := ⟨.region .tag, ⟨10, 22⟩, ⟨12, 22⟩, false⟩
    ((forest document.statements).flatMap branches).map
        (fun branch => (branch.kind, branch.piece)) = [(.elseIf (some condition), 1)] ∧
      document.pieces[1]? = some piece ∧ condition.CopiedFrom source piece.body ∧
      document.diagnostics.map (·.span) = [⟨10, 12⟩, ⟨0, 10⟩] ∧ source.HasPart ⟨10, 12⟩ := by
  intro source document condition piece
  have branched : ((forest document.statements).flatMap branches).map
      (fun branch => (branch.kind, branch.piece)) = [(.elseIf (some condition), 1)] := by
    decide +kernel
  have found : document.pieces[1]? = some piece := by decide +kernel
  have places : document.diagnostics.map (·.span) = [⟨10, 12⟩, ⟨0, 10⟩] := by decide +kernel
  obtain ⟨tree, told⟩ := parse_refers_to_source .default source
  refine ⟨branched, found, ?_, places, ?_⟩
  · obtain ⟨branch, among, kept⟩ := List.mem_map.mp (branched ▸ List.mem_singleton_self _)
    obtain ⟨statement, listed, member⟩ := List.mem_flatMap.mp among
    obtain ⟨kind_eq, piece_eq⟩ := Prod.mk.inj kept
    obtain ⟨other, at_branch, written⟩ := (tree statement listed).2 branch member
    rw [piece_eq] at at_branch
    obtain rfl : piece = other := Option.some.inj (found.symm.trans at_branch)
    rw [kind_eq] at written
    exact (written.expressions condition (List.mem_singleton_self _)).2
  · obtain ⟨diagnostic, member, same⟩ := List.mem_map.mp (places ▸ List.mem_cons_self)
    rw [← same]
    exact (told diagnostic member diagnostic.span List.mem_cons_self).1

end Document
end TwigTemplate
