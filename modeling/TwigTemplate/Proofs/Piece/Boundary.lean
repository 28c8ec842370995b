import TwigTemplate.Proofs.Character
import TwigTemplate.Proofs.Piece.Region
import TwigTemplate.Proofs.Token.Boundary

/-!
# Pieces begin and end between characters

Pieces, and the bodies of regions, begin and end between lexemes, where the text can be split.  A
region begins with its opening delimiter.
-/

namespace TwigTemplate

open Lexeme

/-- Between two lexemes, the text can be split. -/
theorem Reads.isBoundary {source : Source} {lexemes left right : List Lexeme} {final : Mode}
    {rest : List UInt8} (reads : Reads .markup source.toList lexemes final rest)
    (split : lexemes = left ++ right) : source.isBoundary (width left) = true := by
  subst split
  obtain ⟨_, _, first, -⟩ := reads.exists_of_append
  exact Source.isBoundary_of_isValid first.isValid

/-- A lexeme that opens a region begins with a delimiter. -/
theorem Reads.exists_openBytes {mode final : Mode} {bytes rest : List UInt8}
    {left right : List Lexeme} {lexeme : Lexeme} {delimiter : Delimiter}
    (reads : Reads mode bytes (left ++ lexeme :: right) final rest)
    (opens : lexeme.kind = .opening delimiter) :
    ∃ front others, bytes = front ++ (delimiter.openBytes ++ others) ∧
      front.length = width left := by
  obtain ⟨middle, between, first, further⟩ := reads.exists_of_append
  obtain ⟨front, split, long⟩ := first.exists_taken
  obtain ⟨byte, tail, rfl, taken⟩ := further.exists_first rfl
  obtain ⟨opener, -⟩ := next_of_opening (by rw [taken]; exact opens)
  obtain ⟨others, taken_bytes⟩ := Delimiter.opener?_eq_some_iff.mp opener
  exact ⟨front, others, by rw [split, taken_bytes], long⟩

/-- A lexeme that closes a region ends with a delimiter. -/
theorem Reads.exists_closeBytes {mode final : Mode} {bytes rest : List UInt8}
    {left right : List Lexeme} {lexeme : Lexeme} {delimiter : Delimiter}
    (reads : Reads mode bytes ((left ++ [lexeme]) ++ right) final rest)
    (closes : lexeme.kind = .closing delimiter) :
    ∃ front others, bytes = front ++ (delimiter.closeBytes ++ others) ∧
      front.length + 2 = width (left ++ [lexeme]) := by
  obtain ⟨middle, others, first, -⟩ := reads.exists_of_append
  obtain ⟨front, split, long⟩ := first.exists_taken
  obtain ⟨inside, earlier, byte, tail, -, -, -, taken, -, -, rfl⟩ := first.exists_last split
  have spelled := spelled_next inside byte tail
  rw [taken, Spelled, closes] at spelled
  obtain ⟨mark, -, -, spelled⟩ := spelled
  rw [spelled] at split long
  refine ⟨earlier ++ mark, others, by rw [split]; simp, ?_⟩
  rw [← long, Delimiter.closeBytes_eq]
  simp [Nat.add_assoc]

namespace Piece

variable {source : Source} {piece : Piece} {delimiter : Delimiter}

/-- Pieces begin and end between characters. -/
theorem isBoundary_of_mem_group (member : piece ∈ group source.tokens) :
    source.isBoundary piece.span.start = true ∧ source.isBoundary piece.span.stop = true := by
  obtain ⟨lexemes, final, reads⟩ := Reads.exists_to_end .markup source.toList
  have tokens_eq : source.tokens = (placeAll 0 lexemes).toArray := by
    rw [← Source.toList_tokens reads]
  have at_joint {offset : Nat} (joint : IsJoint lexemes offset) :
      source.isBoundary offset = true := by
    obtain ⟨left, right, split, rfl, -⟩ := joint
    exact reads.isBoundary split
  rw [tokens_eq] at member
  have jointed := isJointed_of_mem_group member
  exact ⟨at_joint jointed.1, at_joint jointed.2⟩

theorem hasPart_span (member : piece ∈ group source.tokens) : source.HasPart piece.span := by
  have fits := (covers_group_tokens source).fits (Array.mem_toList_iff.mpr member)
  have marks := isBoundary_of_mem_group member
  exact .of_isBoundary (Nat.le_of_lt fits.start_lt) marks.1 marks.2

/-- A region is made of lexemes of its source. -/
theorem exists_reads_of_region (member : piece ∈ group source.tokens)
    (kind : piece.kind = .region delimiter) :
    ∃ lexemes final left inner rest lexeme, Reads .markup source.toList lexemes final [] ∧
      OpensAt lexemes left inner rest lexeme delimiter piece := by
  obtain ⟨lexemes, final, reads⟩ := Reads.exists_to_end .markup source.toList
  rw [← Array.mem_toList_iff, toList_group_tokens reads] at member
  obtain ⟨before, after, split⟩ := List.append_of_mem member
  obtain ⟨left, inner, rest, lexeme, -, opens⟩ := exists_opensAt split kind
  exact ⟨lexemes, final, left, inner, rest, lexeme, reads, opens⟩

/-- The bodies of regions begin and end between characters. -/
theorem hasPart_body (member : piece ∈ group source.tokens)
    (kind : piece.kind = .region delimiter) : source.HasPart piece.body := by
  have fits := (covers_group_tokens source).fits (Array.mem_toList_iff.mpr member)
  obtain ⟨lexemes, final, left, inner, rest, lexeme, reads, opens⟩ :=
    exists_reads_of_region member kind
  refine .of_isBoundary fits.body_le ?_ ?_
  · have split : lexemes = (left ++ [lexeme]) ++ (inner ++ rest) := by
      rw [opens.split, List.append_assoc, List.singleton_append]
    have marks := reads.isBoundary split
    rwa [width_append, width_cons, width_nil, Nat.add_zero, ← opens.body_eq] at marks
  · have split : lexemes = (left ++ lexeme :: inner) ++ rest := by
      rw [opens.split, List.append_assoc, List.cons_append]
    have marks := reads.isBoundary split
    rwa [← opens.stop_eq] at marks

/-- A region begins with its opening delimiter. -/
theorem exists_openBytes (member : piece ∈ group source.tokens)
    (kind : piece.kind = .region delimiter) :
    ∃ front rest, source.toList = front ++ (delimiter.openBytes ++ rest) ∧
      front.length = piece.span.start := by
  obtain ⟨lexemes, final, left, inner, rest, lexeme, reads, opens⟩ :=
    exists_reads_of_region member kind
  rw [opens.split] at reads
  rw [opens.start_eq]
  exact reads.exists_openBytes opens.opens

/-- A piece ends behind a closing brace, before an opening one, or with the text. -/
theorem stop_of_mem_group (member : piece ∈ group source.tokens) :
    source.toList[piece.span.stop - 1]? = some Byte.rightBrace ∨
      source.toList[piece.span.stop]? = some Byte.leftBrace ∨
      source.toList[piece.span.stop]? = none := by
  have fits := (covers_group_tokens source).fits (Array.mem_toList_iff.mpr member)
  obtain ⟨lexemes, final, reads⟩ := Reads.exists_to_end .markup source.toList
  have tokens_eq : source.tokens = (placeAll 0 lexemes).toArray := by
    rw [← Source.toList_tokens reads]
  rw [tokens_eq] at member
  obtain ⟨-, left, right, rfl, stop_eq, joins⟩ := isJointed_of_mem_group member
  rcases joins with
    rfl | rfl | ⟨lexeme, last, delimiter, closes⟩ | ⟨lexeme, first, delimiter, opens⟩
  · exact absurd (stop_eq ▸ fits.start_lt) (Nat.not_lt_zero _)
  · right; right
    rw [List.append_nil] at reads
    refine List.getElem?_eq_none (Nat.le_of_eq ?_)
    rw [← stop_eq, Source.width_eq_size reads, Source.size_eq_length]
  · left
    obtain ⟨earlier, rfl⟩ := List.getLast?_eq_some_iff.mp last
    obtain ⟨front, others, split, long⟩ := reads.exists_closeBytes closes
    rw [← stop_eq, ← long, split, Delimiter.closeBytes_eq]
    simp
  · right; left
    obtain ⟨others, rfl⟩ := List.head?_eq_some_iff.mp first
    obtain ⟨front, others, split, long⟩ := reads.exists_openBytes opens
    rw [← stop_eq, ← long, split, Delimiter.openBytes_eq]
    simp

end Piece
end TwigTemplate
