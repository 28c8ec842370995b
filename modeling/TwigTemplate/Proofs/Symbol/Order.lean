import TwigTemplate.Proofs.Piece.Append
import TwigTemplate.Proofs.Statement.Walk
import TwigTemplate.Proofs.Tag.Spaced
import TwigTemplate.Proofs.Tree.Meaning

/-!
# Symbols come in order

The symbols of a template come in the order of their places, and no two of them touch.  Therefore a
cursor is at one symbol at most, and the search for the symbol at a cursor finds it.
-/

namespace TwigTemplate

open Statement

theorem Symbol.ofStatement_eq (statement : Statement) :
    ofStatement statement = Tag.symbols statement.startPiece statement.tag := by
  cases statement <;> rfl

namespace Span

theorem touches_iff {span : Span} {offset : Nat} :
    span.touches offset = true ↔ span.start ≤ offset ∧ offset ≤ span.stop := by
  simp [touches]

theorem not_touches_both {earlier later : Span} (apart : earlier.stop < later.start)
    {offset : Nat} (touched : earlier.touches offset = true) :
    ¬ later.touches offset = true := by
  rw [touches_iff] at touched ⊢
  omega

end Span

namespace Document

variable {options : Options} {source : Source} {statement earlier later : Statement}
  {symbol : Symbol}

theorem symbols_eq (document : Document) :
    document.symbols = (forest document.statements).flatMap Symbol.ofStatement := by
  rw [symbols, all_eq_forest]

/-- A piece declares names in its body, behind its opening delimiter. -/
theorem bounds_of_mem_symbols_ofPiece {piece : Piece} {index : Nat}
    (listed : piece ∈ (Piece.group source.tokens).toList)
    (member : symbol ∈ Tag.symbols index (Tag.ofPiece options source piece)) :
    piece.span.start < symbol.span.start ∧ symbol.span.start < symbol.span.stop ∧
      symbol.span.stop ≤ piece.span.stop := by
  obtain ⟨lexemes, final, reads⟩ := Reads.exists_to_end .markup source.toList
  have fits := (Piece.covers_group_tokens source).fits listed
  have region : piece.kind ≠ .text := by
    intro text
    rw [Tag.ofPiece, text] at member
    cases member
  have opening : piece.span.start + 2 ≤ piece.body.start := by
    rw [Piece.toList_group_tokens reads] at listed
    exact Piece.holdsOpening_ofLexemes reads.longOpenings listed region
  have inside := (Tag.spaced_symbols options source fits.body_le index).inside symbol.span
    (List.mem_map_of_mem member)
  have ends := fits.stop_le
  omega

/-- The symbols of a statement lie in its first piece. -/
theorem exists_piece_of_mem_forest
    (member : statement ∈ forest (Document.parse options source).statements) :
    ∃ piece, (Piece.group source.tokens).toList[statement.startPiece]? = some piece ∧
      Symbol.ofStatement statement =
        Tag.symbols statement.startPiece (Tag.ofPiece options source piece) := by
  obtain ⟨piece, found, means⟩ := Tree.exists_piece_of_mem_forest member
  exact ⟨piece, found, by rw [Symbol.ofStatement_eq, means]⟩

/-- A symbol is not empty. -/
theorem start_lt_of_mem_symbols (member : symbol ∈ (Document.parse options source).symbols) :
    symbol.span.start < symbol.span.stop := by
  rw [symbols_eq] at member
  obtain ⟨statement, among, declared⟩ := List.mem_flatMap.mp member
  obtain ⟨piece, found, same⟩ := exists_piece_of_mem_forest among
  rw [same] at declared
  exact (bounds_of_mem_symbols_ofPiece (List.mem_of_getElem? found) declared).2.1

theorem pairwise_ofStatement
    (member : statement ∈ forest (Document.parse options source).statements) :
    (Symbol.ofStatement statement).Pairwise fun earlier later =>
      earlier.span.stop < later.span.start := by
  obtain ⟨piece, found, same⟩ := exists_piece_of_mem_forest member
  have fits := (Piece.covers_group_tokens source).fits (List.mem_of_getElem? found)
  rw [same]
  exact List.pairwise_map.mp
    (Tag.spaced_symbols options source fits.body_le statement.startPiece).apart

/-- The symbols of a statement that begins later come later. -/
theorem stop_lt_start_of_startPiece_lt
    (earlier_member : earlier ∈ forest (Document.parse options source).statements)
    (later_member : later ∈ forest (Document.parse options source).statements)
    (before : earlier.startPiece < later.startPiece) {left right : Symbol}
    (left_member : left ∈ Symbol.ofStatement earlier)
    (right_member : right ∈ Symbol.ofStatement later) : left.span.stop < right.span.start := by
  obtain ⟨first, first_found, first_same⟩ := exists_piece_of_mem_forest earlier_member
  obtain ⟨second, second_found, second_same⟩ := exists_piece_of_mem_forest later_member
  rw [first_same] at left_member
  rw [second_same] at right_member
  have left_bounds := bounds_of_mem_symbols_ofPiece (List.mem_of_getElem? first_found) left_member
  have right_bounds :=
    bounds_of_mem_symbols_ofPiece (List.mem_of_getElem? second_found) right_member
  obtain ⟨first_inside, rfl⟩ := List.getElem?_eq_some_iff.mp first_found
  obtain ⟨second_inside, rfl⟩ := List.getElem?_eq_some_iff.mp second_found
  have apart := List.pairwise_iff_getElem.mp (Piece.covers_group_tokens source).pairwise _ _
    first_inside second_inside before
  omega

/-- Symbols come in the order of their places and do not touch. -/
theorem pairwise_symbols (options : Options) (source : Source) :
    (Document.parse options source).symbols.Pairwise fun earlier later =>
      earlier.span.stop < later.span.start := by
  have starts : (forest (Document.parse options source).statements).Pairwise
      fun earlier later => earlier.startPiece < later.startPiece :=
    List.pairwise_map.mp ((Tree.pairwise_piecesOf_build _ options source _).sublist
      (sublist_startPieces _))
  rw [symbols_eq, List.pairwise_flatMap]
  refine ⟨fun statement member => pairwise_ofStatement member, starts.imp_of_mem ?_⟩
  intro earlier later earlier_member later_member before left left_member right right_member
  exact stop_lt_start_of_startPiece_lt earlier_member later_member before left_member right_member

/-- The search for the symbol at a cursor finds whichever symbol touches the cursor. -/
theorem symbolAt?_eq_some_iff {offset : Nat} :
    (Document.parse options source).symbolAt? offset = some symbol ↔
      symbol ∈ (Document.parse options source).symbols ∧ symbol.span.touches offset = true := by
  rw [symbolAt?]
  constructor
  · intro found
    have touched := List.find?_some found
    exact ⟨List.mem_of_find?_eq_some found, touched⟩
  · rintro ⟨member, touched⟩
    obtain ⟨before, after, split⟩ := List.append_of_mem member
    have apart := pairwise_symbols options source
    rw [split, List.pairwise_append] at apart
    refine List.find?_eq_some_iff_append.mpr ⟨touched, before, after, split, ?_⟩
    intro other among
    have separate := apart.2.2 other among symbol List.mem_cons_self
    rw [Bool.not_eq_true']
    by_contra other_touched
    exact Span.not_touches_both separate (by simpa using other_touched) touched

/-- Symbols come in the order of their places, with something between each and the next.  So a
cursor, which may also stand right after a symbol, is at no more than one, and the symbol under the
cursor is that one. -/
theorem symbols_apart (options : Options) (source : Source) :
    let document := Document.parse options source
    document.symbols.Pairwise (fun earlier later => earlier.span.stop < later.span.start) ∧
      ∀ offset,
        (document.symbols.filter (·.span.touches offset)).length ≤ 1 ∧
        ∀ symbol, document.symbolAt? offset = some symbol ↔
          symbol ∈ document.symbols ∧ symbol.span.touches offset = true := by
  intro document
  have apart := pairwise_symbols options source
  refine ⟨apart, fun offset => ⟨?_, fun symbol => symbolAt?_eq_some_iff⟩⟩
  have touching : ∀ symbol ∈ document.symbols.filter (·.span.touches offset),
      symbol.span.touches offset = true := fun symbol member => (List.mem_filter.mp member).2
  have touching_apart := apart.filter (·.span.touches offset)
  cases filtered : document.symbols.filter (·.span.touches offset) with
  | nil => exact Nat.zero_le 1
  | cons first others =>
      cases others with
      | nil => exact Nat.le_refl 1
      | cons second others =>
          rw [filtered] at touching
          have separate := (List.pairwise_cons.mp (filtered ▸ touching_apart)).1 second
            List.mem_cons_self
          exact absurd (touching second (by simp))
            (Span.not_touches_both separate (touching first (by simp)))

end Document
end TwigTemplate
