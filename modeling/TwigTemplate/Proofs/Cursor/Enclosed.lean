import TwigTemplate.Proofs.Cursor.Typed
import TwigTemplate.Proofs.Literal.Enclosed
import TwigTemplate.Proofs.Piece.Literal

/-!
# Cursors enclosed by literals

A single token decides whether a cursor stands in a literal.  This is what the quotes in front of
the cursor say: runs hold no quotes, unless they begin with one and are literals that are never
closed.
-/

namespace TwigTemplate

open Lexeme

section Leads

open Literal

variable {remains front more : List UInt8} {lexeme : Lexeme} {place : Nat}
  (leads : lexeme.Leads remains front more)
include leads

/-- The first lexeme tells whether a literal encloses a place in it or at its end. -/
theorem Lexeme.Leads.encloses_iff (above : 0 < place) (below : place ≤ lexeme.length) :
    Encloses front place ↔
      lexeme.kind = .quoted ∧ place < lexeme.length ∨
        lexeme.kind = .raw ∧ front.head?.any Byte.isQuote = true := by
  cases leads with
  | quoted quotes within =>
      rw [encloses_iff_of_le quotes within above below]
      refine ⟨fun last => .inl ⟨rfl, last⟩, fun ends => ends.elim And.right ?_⟩
      rintro ⟨⟨⟩, -⟩
  | unclosed quotes missing =>
      exact iff_of_true (encloses_of_not_closed quotes missing above) (.inr ⟨rfl, quotes⟩)
  | @plain byte run more unquoted =>
      have first := unquoted byte List.mem_cons_self
      refine iff_of_false (not_encloses_of_plain unquoted below) ?_
      simp [raw, first]

/-- Behind the first lexeme, what follows it decides. -/
theorem Lexeme.Leads.encloses_add_iff (goes_on : more ≠ []) :
    Encloses front (lexeme.length + place) ↔ Encloses more place := by
  cases leads with
  | quoted quotes within => exact Literal.encloses_add_iff quotes within
  | unclosed => exact absurd rfl goes_on
  | plain unquoted => exact encloses_append_of_plain unquoted

end Leads

/-- Of the lexemes in the body of a tag or an expression, the one that a place lies in or behind
tells whether a literal encloses the place. -/
theorem Reads.encloses_iff {source : Source} {delimiter : Delimiter} {depth start : Nat}
    {content front rest : List UInt8} {lexemes : List Lexeme} {final : Mode}
    (reads : Reads (.region delimiter depth content) (front ++ rest) lexemes final rest)
    (code : delimiter ≠ .comment) (within : Interior lexemes)
    (placed : ∀ index, source.byte? (start + index) = (front ++ rest)[index]?) {place : Nat}
    (above : 0 < place) (below : place ≤ front.length) :
    ∃ left lexeme right, lexemes = left ++ lexeme :: right ∧ width left < place ∧
      place ≤ width left + lexeme.length ∧
      (Literal.Encloses front place ↔
        lexeme.kind = .quoted ∧ place < width left + lexeme.length ∨
          lexeme.kind = .raw ∧ (source.byte? (start + width left)).any Byte.isQuote = true) := by
  induction lexemes generalizing depth content front start place with
  | nil =>
      obtain rfl : front = [] := List.self_eq_append_left.mp reads.of_nil.2
      exact absurd below (Nat.not_le_of_lt above)
  | cons lexeme lexemes ih =>
      rw [Interior, List.forall_mem_cons] at within
      obtain ⟨_, _, more, leads, further⟩ := reads.exists_leads code within.1
      rcases Nat.lt_or_ge lexeme.length place with later | here
      · obtain ⟨place, rfl⟩ := Nat.exists_eq_add_of_lt later
        obtain ⟨taken, front_eq, long⟩ := leads.exists_taken
        have below_later : place + 1 ≤ more.length := by
          rw [front_eq, List.length_append] at below
          omega
        have goes_on : more ≠ [] := List.ne_nil_of_length_pos (by omega)
        obtain ⟨left, found, right, rfl, starts, stops, encloses⟩ :=
          ih further within.2 (leads.byte?_behind placed) (Nat.succ_pos place) below_later
        refine ⟨lexeme :: left, found, right, rfl, ?_, ?_, ?_⟩
        · rw [width_cons]
          omega
        · rw [width_cons]
          omega
        · rw [Nat.add_assoc lexeme.length, leads.encloses_add_iff goes_on, encloses, width_cons,
            Nat.add_assoc, Nat.add_assoc, Nat.add_lt_add_iff_left]
      · refine ⟨[], lexeme, lexemes, rfl, above, by rwa [width_nil, Nat.zero_add], ?_⟩
        rw [leads.encloses_iff above here, width_nil, Nat.zero_add, Nat.add_zero,
          leads.byte?_start placed]

namespace Document

open Piece

theorem cursorInTag_ne_literal (document : Document) (body : Span) (offset : Nat) :
    document.cursorInTag body offset ≠ .literal := by
  rw [cursorInTag]
  repeat' split
  all_goals rintro ⟨⟩

/-- The literals in the text of a body tell whether a cursor in the body stands in a literal. -/
theorem inLiteral_iff_encloses (options : Options) {source : Source} {lexemes : List Lexeme}
    {left inner rest : List Lexeme} {lexeme : Lexeme} {delimiter : Delimiter} {piece : Piece}
    {final : Mode} (reads : Reads .markup source.toList lexemes final [])
    (region : OpensAt lexemes left inner rest lexeme delimiter piece) (code : delimiter ≠ .comment)
    {offset : Nat} (above : piece.body.start ≤ offset) (below : offset ≤ piece.body.stop) :
    (parse options source).inLiteral offset = true ↔
      Literal.Encloses (source.slice piece.body) (offset - piece.body.start) := by
  obtain ⟨earlier, front, remains, after, bytes, body_eq, body, -⟩ := region.exists_body reads
  have placed (index : Nat) :
      source.byte? (earlier.length + index) = (front ++ remains)[index]? :=
    Source.byte?_of_split bytes index
  have tokens : (parse options source).tokens.toList = placeAll 0 lexemes :=
    (pieces_parse options reads).2.2.1
  have start_eq : width left + lexeme.length = earlier.length := by
    rw [← region.body_eq, body_eq]
  rw [region.split] at tokens
  obtain ⟨place, rfl⟩ := Nat.exists_eq_add_of_le above
  rw [body_eq] at below ⊢
  dsimp only at below ⊢
  rw [Source.slice_of_split bytes, Nat.add_sub_cancel_left]
  cases place with
  | zero =>
      rw [Nat.add_zero, inLiteral_iff tokens (by rw [Lexeme.length] at start_eq; omega) (by omega),
        region.opens]
      simp [Literal.not_encloses_zero]
  | succ place =>
      obtain ⟨front_left, found, front_right, rfl, starts, stops, encloses⟩ :=
        body.encloses_iff code region.within placed (Nat.succ_pos place) (by omega)
      have width_eq : width (left ++ lexeme :: front_left) = earlier.length + width front_left := by
        rw [width_append, width_cons, ← start_eq, Nat.add_assoc]
      rw [List.append_assoc, List.cons_append, ← List.cons_append, ← List.append_assoc] at tokens
      rw [inLiteral_iff tokens (by omega) (by omega), encloses, width_eq]
      rw [Nat.add_assoc, Nat.add_lt_add_iff_left]
      exact Iff.rfl

/-- A cursor in the body of a tag or an expression stands in a literal if and only if, as the body
is read from its start, the cursor is behind the opening quote of a literal that is closed and
before its end, or behind the opening quote of a literal that is never closed. -/
theorem cursorAt?_eq_literal_iff (options : Options) (source : Source) {offset index : Nat}
    {piece : Piece} {delimiter : Delimiter}
    (found : (parse options source).pieceAt? offset = some index)
    (here : (parse options source).pieces[index]? = some piece)
    (kind : piece.kind = .region delimiter) (code : delimiter ≠ .comment)
    (above : piece.body.start ≤ offset) (below : offset ≤ piece.body.stop) :
    (parse options source).cursorAt? offset = some .literal ↔
      Literal.Encloses (source.slice piece.body) (offset - piece.body.start) := by
  obtain ⟨lexemes, final, reads⟩ := Reads.exists_to_end .markup source.toList
  obtain ⟨pieces_eq, covers, -⟩ := pieces_parse options reads
  obtain ⟨before, other, after, split, rfl, holds⟩ := (indexAt?_eq_some_iff covers).mp found
  obtain ⟨-, there⟩ := pieceAt?_of_holds covers split holds
  obtain rfl : other = piece := Option.some.inj (there.symm.trans here)
  obtain ⟨left, inner, rest, lexeme, -, region⟩ := exists_opensAt (pieces_eq ▸ split) kind
  rw [cursorAt?_of_code covers split holds kind code above below, Option.some_inj,
    ← inLiteral_iff_encloses options reads region code above below]
  split_ifs with literal expression
  · exact iff_of_true rfl literal
  · exact iff_of_false nofun literal
  · exact iff_of_false (cursorInTag_ne_literal _ _ _) literal

/-- Behind a closed literal with a hidden quote, in one that is never closed. -/
theorem cursorAt?_eq_literal_of_unclosed :
    let source := Source.ofString "\x7b\x7b 'a\\'\x7d\x7d' ~ \x22b"
    let document := parse .default source
    let piece : Piece := ⟨.region .expression, ⟨0, 15⟩, ⟨2, 15⟩, false⟩
    document.pieceAt? 15 = some 0 ∧ document.pieces[0]? = some piece ∧
      document.cursorAt? 15 = some .literal ∧ Literal.Encloses (source.slice ⟨2, 15⟩) 13 ∧
      document.pieceAt? 10 = some 0 ∧ document.cursorAt? 10 ≠ some .literal ∧
      ¬ Literal.Encloses (source.slice ⟨2, 15⟩) 8 := by
  intro source document piece
  have at_end : document.pieceAt? 15 = some 0 := by decide +kernel
  have behind : document.pieceAt? 10 = some 0 := by decide +kernel
  have here : document.pieces[0]? = some piece := by decide +kernel
  have literal : document.cursorAt? 15 = some .literal := by decide +kernel
  have outside : document.cursorAt? 10 ≠ some .literal := by decide +kernel
  have enclosed := cursorAt?_eq_literal_iff .default source at_end here rfl (by simp)
    (by decide) (by decide)
  have free := cursorAt?_eq_literal_iff .default source behind here rfl (by simp)
    (by decide) (by decide)
  exact ⟨at_end, here, literal, enclosed.mp literal, behind, outside, mt free.mpr outside⟩

end Document
end TwigTemplate
