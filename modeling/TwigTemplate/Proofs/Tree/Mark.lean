import TwigTemplate.Proofs.Tag.Insert
import TwigTemplate.Proofs.Tree.Relocation

/-!
# Trees of templates with one more mark

Pieces that stay the same, with their bodies moved as wholes, are read in step with the old ones:
each does what it did, at its new place.  Only the end of an opening delimiter with nothing behind
it may be further on than it should be, and nothing is told of such an end.
-/

namespace TwigTemplate

theorem Relocation.uniform_insert (offset : Nat) : (insert offset).Uniform :=
  fun _ endPiece => (congrFun Option.map_id endPiece).symm

/-- A tag without words is inert. -/
theorem Tag.ofPiece_of_empty (options : Options) (source : Source) {piece : Piece}
    (empty : piece.body.start = piece.body.stop) :
    ofPiece options source piece = .inert ∨ ofPiece options source piece = .single .output := by
  have bare : source.slice piece.body = [] := by
    rw [Source.slice, if_neg]
    have bounded := Nat.min_le_left piece.body.stop source.size
    omega
  have wordless : Word.split source piece.body = [] := by
    rw [Word.split, bare, Word.collect]
  rw [ofPiece]
  split
  · exact .inl rfl
  · exact .inl rfl
  · exact .inr rfl
  · rw [ofBody, Header.ofBody, wordless]
    exact .inl rfl

namespace Tree

open Statement

section Grows

variable (limit : Option Nat) (options : Options) {left right source grown : Source}
  {offset : Nat} {piece grownPiece : Piece}

theorem unclosed?_grows (grows : piece.Grows source offset grownPiece)
    (long : piece.kind ≠ .text → piece.span.start + 2 ≤ piece.span.stop)
    (long_grown : grownPiece.kind ≠ .text →
      grownPiece.span.start + 2 ≤ grownPiece.span.stop) :
    unclosed? grownPiece = (unclosed? piece).map (·.relocate (.insert offset)) := by
  rw [unclosed?, unclosed?, grows.kind_eq, grows.closed_eq]
  split
  · rename_i delimiter is_region _
    have region : piece.kind ≠ .text := by simp [is_region]
    rw [delimiterSpan_of_le (long region),
      delimiterSpan_of_le (long_grown (grows.kind_eq ▸ region)), grows.start_eq, Option.map_some,
      Finding.relocate, Relocation.span]
    rcases grows.opener region with before | behind
    · rw [Relocation.insert_start_of_lt (by omega), Relocation.insert_stop_of_le before]
    · have further := Nat.lt_of_le_of_lt behind (Nat.lt_add_of_pos_right (k := 2) Nat.two_pos)
      rw [Relocation.insert_start_of_le behind, Relocation.insert_stop_of_lt further,
        Nat.add_right_comm]
  · rfl

/-- A piece does at its new place what it did. -/
theorem apply_grows (grows : piece.Grows source offset grownPiece) (before reading : Reading)
    (index : Nat) :
    (before.behind (.insert offset) reading).apply limit index grownPiece.span
        ((Tag.ofPiece options source piece).relocate (.insert offset)) =
      before.behind (.insert offset)
        (reading.apply limit index piece.span (Tag.ofPiece options source piece)) := by
  rw [← Reading.apply_behind (Relocation.uniform_insert offset)]
  rcases grows.stop_eq with moved | empty
  · rw [Relocation.span, ← grows.start_eq, ← moved]
    rfl
  · rcases Tag.ofPiece_of_empty options source empty with inert | single
    · rw [inert]
      rfl
    · rw [single]
      rfl

variable (inserted : Source.Insertion left right source grown)
include inserted

theorem step_grows (grows : piece.Grows source left.size grownPiece) (fits : piece.Fits)
    (long : piece.kind ≠ .text → piece.span.start + 2 ≤ piece.span.stop)
    (long_grown : grownPiece.kind ≠ .text →
      grownPiece.span.start + 2 ≤ grownPiece.span.stop)
    (before reading : Reading) (index : Nat) :
    step limit options grown (before.behind (.insert left.size) reading) grownPiece index =
      before.behind (.insert left.size) (step limit options source reading piece index) := by
  have noted : (before.behind (.insert left.size) reading).note grownPiece =
      before.behind (.insert left.size) (reading.note piece) := by
    rw [Reading.note, Reading.note, unclosed?_grows grows long long_grown]
    cases unclosed? piece with
    | none => rfl
    | some finding => exact Reading.report_behind _ before reading finding
  rw [step_eq_apply, step_eq_apply, noted, Tag.ofPiece_grows inserted grows fits,
    apply_grows limit options grows]

variable {pieces grownPieces : List Piece}
  (grows : List.Forall₂ (Piece.Grows source left.size) pieces grownPieces)
  (fits : ∀ piece ∈ pieces, piece.Fits)
  (long : ∀ piece ∈ pieces, piece.kind ≠ .text → piece.span.start + 2 ≤ piece.span.stop)
  (long_grown : ∀ piece ∈ grownPieces, piece.kind ≠ .text →
    piece.span.start + 2 ≤ piece.span.stop)
include grows fits long long_grown

/-- Pieces are read at their new places as they were, from any reading on. -/
theorem foldl_step_grows (before reading : Reading) (index : Nat) :
    (grownPieces.zipIdx index).foldl
        (fun reading (piece, index) => step limit options grown reading piece index)
        (before.behind (.insert left.size) reading) =
      before.behind (.insert left.size) ((pieces.zipIdx index).foldl
        (fun reading (piece, index) => step limit options source reading piece index) reading) := by
  induction grows generalizing reading index with
  | nil => rfl
  | cons first _ ih =>
      rw [List.forall_mem_cons] at fits long long_grown
      rw [List.zipIdx_cons, List.zipIdx_cons, List.foldl_cons, List.foldl_cons,
        ← ih fits.2 long.2 long_grown.2]
      congr 1
      exact step_grows limit options inserted first fits.1 long.1 long_grown.1 before reading index

/-- Pieces form the same tree at their new places. -/
theorem build_grows :
    build limit options grown grownPieces =
      ⟨(build limit options source pieces).statements.map (Statement.relocate (.insert left.size)),
        (build limit options source pieces).findings.map (·.relocate (.insert left.size))⟩ := by
  have all := foldl_step_grows limit options inserted grows fits long long_grown .start .start 0
  have nothing : Reading.start.behind (.insert left.size) .start = .start := by
    simp [Reading.behind, Reading.start]
  rw [nothing] at all
  have read_eq : read limit options grown grownPieces =
      Reading.start.behind (.insert left.size) (read limit options source pieces) := all
  rw [build_eq_finish, read_eq, Reading.finish_behind (Relocation.uniform_insert _)]
  rfl

end Grows
end Tree

/-! ### One more mark in a template -/

theorem Source.toList_ofString_insert (before mark after : String) :
    (ofString (before ++ mark ++ after)).toList =
      (ofString before).toList ++ (mark.toUTF8.data.toList ++ (ofString after).toList) := by
  simp [toList_ofString]

theorem Source.insertion_of_append {source : Source} {before mark after : String} {byte : UInt8}
    (split : source.toList = (ofString before).toList ++ (ofString after).toList)
    (single : mark.toUTF8.data.toList = [byte]) (no_point : byte ≠ Byte.dot) :
    Insertion (ofString before) (ofString after) source (ofString (before ++ mark ++ after)) := by
  have bytes_grown := toList_ofString_insert before mark after
  rw [single] at bytes_grown
  have size_eq := size_eq_length (ofString before)
  refine ⟨⟨_, split⟩, ⟨_, bytes_grown⟩, ⟨_, split, size_eq.symm⟩, ?_, ?_⟩
  · exact ⟨(ofString before).toList ++ [byte], by simp [bytes_grown], by simp [size_eq]⟩
  · rw [size_eq, byte?_length_of_split bytes_grown]
    exact fun point => no_point (Option.some.inj point)

namespace Document

/-- If the lexemes of two templates form the same pieces, but for a byte that has been put in, so do
their pieces. -/
theorem parse_of_grows (options : Options) {left right source grown : Source}
    (inserted : Source.Insertion left right source grown) {lexemes further : List Lexeme}
    {final last : Mode} (reads : Reads .markup source.toList lexemes final [])
    (reads_grown : Reads .markup grown.toList further last [])
    (grows : List.Forall₂ (Piece.Grows source left.size) (Piece.ofLexemes lexemes)
      (Piece.ofLexemes further)) :
    let first := parse options source
    let second := parse options grown
    let places := Relocation.insert left.size
    second.pieces.map (fun piece => (piece.kind, piece.closed, grown.slice piece.body)) =
      first.pieces.map (fun piece => (piece.kind, piece.closed, source.slice piece.body)) ∧
    second.statements = first.statements.map (·.relocate places) ∧
    second.diagnostics = first.diagnostics.map (·.relocate places) := by
  intro first second places
  have pieces_eq : first.pieces.toList = Piece.ofLexemes lexemes := Piece.toList_group_tokens reads
  have pieces_grown : second.pieces.toList = Piece.ofLexemes further :=
    Piece.toList_group_tokens reads_grown
  have fits : ∀ piece ∈ first.pieces.toList, piece.Fits := fun piece =>
    (Piece.covers_group_tokens source).fits
  rw [← pieces_eq, ← pieces_grown] at grows
  have tree_eq : second.tree = _ := Tree.build_grows (some Tree.nestingLimit) options inserted grows
    fits (pieces_eq ▸ fun piece => Piece.long_of_mem_ofLexemes reads.longOpenings)
    (pieces_grown ▸ fun piece => Piece.long_of_mem_ofLexemes reads_grown.longOpenings)
  refine ⟨?_, ?_, ?_⟩
  · apply Array.toList_inj.mp
    rw [Array.toList_map, Array.toList_map]
    exact Piece.contents_grows inserted grows fits
  · rw [statements, tree_eq]
    rfl
  · rw [diagnostics, diagnostics, tree_eq, Tree.diagnostics, Tree.diagnostics, List.map_map,
      List.map_map]
    exact List.map_congr_left fun finding _ => finding.diagnostic_relocate places

/-- A trim mark leaves the structure of a template as it is: with one more mark on any bare
delimiter, the pieces are of the same kinds, closed or not as they were, with the same bytes as
their bodies, and the statements and diagnostics are the same, except that what begins at the mark
or behind it, and what ends behind it, is one byte further on. -/
theorem parse_insert_mark (options : Options) (source : Source) {token : Token}
    (member : token ∈ source.tokens) (bare : token.trim = false) {offset : Nat}
    (place : token.markOffset? = some offset) {mark : String} (marks : mark = "-" ∨ mark = "~") :
    ∃ before after : String, source.text = before ++ after ∧ before.utf8ByteSize = offset ∧
      let first := parse options source
      let second := parse options (Source.ofString (before ++ mark ++ after))
      let places := Relocation.insert offset
      second.pieces.map (fun piece => (piece.kind, piece.closed, second.source.slice piece.body)) =
        first.pieces.map (fun piece => (piece.kind, piece.closed, source.slice piece.body)) ∧
      second.statements = first.statements.map (·.relocate places) ∧
      second.diagnostics = first.diagnostics.map (·.relocate places) := by
  obtain ⟨lexemes, final, reads⟩ := Reads.exists_to_end .markup source.toList
  obtain ⟨byte, single, marked⟩ : ∃ byte, mark.toUTF8.data.toList = [byte] ∧
      Byte.isTrimMark byte = true := by
    rcases marks with rfl | rfl
    · exact ⟨Byte.ofChar '-', rfl, rfl⟩
    · exact ⟨Byte.ofChar '~', rfl, rfl⟩
  have listed : token ∈ Lexeme.placeAll 0 lexemes := by
    rw [← Source.toList_tokens reads]
    exact Array.mem_toList_iff.mpr member
  obtain ⟨valid, front, back, further, last, bytes, rfl, reads_grown, grows⟩ :=
    reads.takes_of_mem listed bare place marked
  obtain ⟨before, after, split, rfl, rfl⟩ :=
    Source.exists_split_of_isValid (source.toUTF8_text.trans bytes) valid
  have no_point : Byte.dot ≠ byte := Byte.ne_of_isTrimMark marked rfl
  have inserted := Source.insertion_of_append bytes single no_point.symm
  have bytes_grown := Source.toList_ofString_insert before mark after
  have size_eq : (Source.ofString before).size = before.toUTF8.data.toList.length :=
    Source.size_eq_length _
  rw [single] at bytes_grown
  rw [← size_eq] at grows ⊢
  exact ⟨before, after, split, rfl,
    parse_of_grows options inserted reads (bytes_grown ▸ reads_grown) grows⟩

/-- A mark before the end of a tag that opens a construct, which is never ended. -/
theorem parse_insert_mark_in_condition :
    let source := Source.ofString "a\x7b% if b %\x7dc"
    let token : Token := ⟨.closing .tag, ⟨9, 11⟩, false⟩
    token ∈ source.tokens ∧ token.markOffset? = some 9 ∧
      ∃ before after : String, source.text = before ++ after ∧ before.utf8ByteSize = 9 ∧
        let grown := parse .default (Source.ofString (before ++ "-" ++ after))
        grown.pieces.map (·.kind) = #[.text, .region .tag, .text] ∧
        grown.diagnostics.map (·.span) = [⟨1, 12⟩] := by
  intro source token
  have member : token ∈ source.tokens := by decide +kernel
  have marks : "-" = "-" ∨ "-" = "~" := .inl rfl
  obtain ⟨before, after, split, long, pieces, -, told⟩ :=
    parse_insert_mark .default source member rfl rfl marks
  refine ⟨member, rfl, before, after, split, long, ?_, ?_⟩
  · have kinds := congrArg (Array.map Prod.fst) pieces
    rw [Array.map_map, Array.map_map] at kinds
    refine Eq.trans kinds ?_
    decide +kernel
  · rw [told]
    decide +kernel

end Document
end TwigTemplate
