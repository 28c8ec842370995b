import TwigTemplate.Proofs.Piece.Cover
import TwigTemplate.Proofs.Piece.Split
import TwigTemplate.Proofs.Tag.Local

/-!
# Templates that end with a piece

A template cut off after a piece has the pieces up to that one, and they mean what they mean in the
whole template.
-/

namespace TwigTemplate

open Lexeme

namespace Tag

/-- A body means the same in the beginning of a template, unless it reaches to the cut and a point
follows it there. -/
theorem ofBody_of_begins (options : Options) {left right : Source} {body : Span}
    (begins : left.Begins right) (ordered : body.start ≤ body.stop) (inside : body.stop ≤ left.size)
    (follows : body.stop = left.size → right.byte? body.stop ≠ some Byte.dot) :
    ofBody options left body = ofBody options right body := by
  have following :
      left.byte? body.stop = some Byte.dot ↔ right.byte? body.stop = some Byte.dot := by
    rcases Nat.lt_or_eq_of_le inside with before | same
    · rw [begins.byte?_eq before]
    · have nothing : left.byte? body.stop = none := by
        rw [same]
        exact Array.getElem?_eq_none (Nat.le_refl _)
      rw [nothing]
      exact ⟨nofun, fun point => absurd point (follows same)⟩
  have words_eq : Word.split left body = Word.split right body := by
    rw [Word.split, Word.split, begins.slice_eq inside, Word.collect_congr following]
  apply ofBody_congr options words_eq
  intro part among
  rw [Excerpt.covering?, Excerpt.covering?]
  split
  · rename_i first last _ is_last
    have member := among (List.mem_of_getLast? is_last)
    have bounds := Word.bounds_of_mem_split ordered member
    have same : left.read ⟨first.span.start, last.span.stop⟩ = _ :=
      begins.read_eq (Nat.le_trans bounds.2.2 inside)
    simp only [same]
  · rfl

/-- So does a piece. -/
theorem ofPiece_of_begins (options : Options) {left right : Source} {piece : Piece}
    (begins : left.Begins right) (fits : piece.Fits) (inside : piece.span.stop ≤ left.size)
    (follows : piece.kind ≠ .text → piece.closed = false → piece.span.stop = left.size →
      right.byte? left.size ≠ some Byte.dot) :
    ofPiece options left piece = ofPiece options right piece := by
  rw [ofPiece, ofPiece]
  split
  · rfl
  · rfl
  · rfl
  · rename_i tag
    have region : piece.kind ≠ .text := by simp [tag]
    apply ofBody_of_begins options begins fits.body_le (Nat.le_trans fits.stop_le inside)
    intro reaches
    rw [reaches]
    cases closed : piece.closed with
    | true => exact absurd (fits.stop_lt region closed) (by omega)
    | false => exact follows region closed (by have := fits.stop_le; omega)

end Tag

namespace Piece

/-- Lexemes are not empty, so where the width ends tells how many there are. -/
theorem append_inj_of_width {left left' right right' : List Lexeme}
    (same : left ++ right = left' ++ right') (wide : width left = width left') :
    left = left' ∧ right = right' := by
  rcases List.append_eq_append_iff.mp same with ⟨more, rfl, rfl⟩ | ⟨more, rfl, rfl⟩
  · rw [width_append] at wide
    have none : width more = 0 := by omega
    rw [eq_nil_of_width none]
    simp
  · rw [width_append] at wide
    have none : width more = 0 := by omega
    rw [eq_nil_of_width none]
    simp

/-- After a piece that is not closed comes the end of the template or an opening delimiter. -/
theorem opens_of_not_closed {lexemes left right : List Lexeme} {before : List Piece} {piece : Piece}
    (split : lexemes = left ++ right) (joins : Joins left right)
    (taken : ofLexemes left = before ++ [piece]) (unclosed : piece.closed = false) :
    right = [] ∨ ∃ lexeme ∈ right.head?, ∃ delimiter, lexeme.kind = .opening delimiter := by
  rcases joins with rfl | rfl | ⟨lexeme, is_last, delimiter, closes⟩ | opens
  · simp [ofLexemes, Grouping.ofLexemes, placeAll, Pending.finish] at taken
  · exact .inl rfl
  · obtain ⟨others, rfl⟩ := List.getLast?_eq_some_iff.mp is_last
    obtain ⟨kept, last, extended, -, closed⟩ := exists_ofLexemes_append_singleton others lexeme
    rw [extended] at taken
    obtain rfl := List.singleton_inj.mp (List.append_inj' taken rfl).2
    rw [closed delimiter closes] at unclosed
    cases unclosed
  · exact .inr opens

/-- A template cut off after a piece has the pieces up to that one, with the same meaning. -/
theorem exists_truncated (options : Options) {source : Source} {before after : List Piece}
    {piece : Piece} (split : (group source.tokens).toList = before ++ piece :: after) :
    ∃ front back : String, source.text = front ++ back ∧ front.utf8ByteSize = piece.span.stop ∧
      (group (Source.ofString front).tokens).toList = before ++ [piece] ∧
      ∀ other ∈ before ++ [piece],
        Tag.ofPiece options (Source.ofString front) other = Tag.ofPiece options source other := by
  obtain ⟨lexemes, final, reads⟩ := Reads.exists_to_end .markup source.toList
  have tokens_eq : source.tokens = (placeAll 0 lexemes).toArray := by
    rw [← Source.toList_tokens reads]
  have member : piece ∈ group (placeAll 0 lexemes).toArray := by
    rw [← tokens_eq, ← Array.mem_toList_iff, split]
    simp
  obtain ⟨left', right', split', wide', joins⟩ := (isJointed_of_mem_group member).2
  rw [tokens_eq, toList_group_placeAll] at split
  obtain ⟨left, right, rfl, wide, taken⟩ := exists_ofLexemes_eq split
  obtain ⟨rfl, rfl⟩ := append_inj_of_width split' (wide.trans wide'.symm)
  obtain ⟨middle, back, first, last⟩ := reads.exists_of_append
  obtain ⟨front, bytes, long⟩ := first.exists_taken
  obtain ⟨front_text, back_text, text, front_eq, back_eq⟩ := first.exists_split bytes long
  rw [bytes] at first
  have cut : Reads .markup (Source.ofString front_text).toList left middle [] := by
    rw [show (Source.ofString front_text).toList = front from front_eq]
    exact first.cut trivial (Reads.edge_of_joins last joins)
  have size_eq : (Source.ofString front_text).size = piece.span.stop := by
    rw [Source.size_eq_length, show (Source.ofString front_text).toList = front from front_eq,
      long, wide]
  refine ⟨front_text, back_text, text, ?_, ?_, ?_⟩
  · rw [← size_eq]
    rfl
  · have front_tokens : (Source.ofString front_text).tokens = (placeAll 0 left).toArray := by
      rw [← Source.toList_tokens cut]
    rw [front_tokens, toList_group_placeAll, taken]
  · intro other among
    have begins : (Source.ofString front_text).Begins source :=
      ⟨back, by rw [show (Source.ofString front_text).toList = front from front_eq, bytes]⟩
    have covers := covers_ofLexemes left
    rw [taken] at covers
    have bounds := covers.bounds among
    have fits := covers.fits among
    apply Tag.ofPiece_of_begins options begins fits (by omega)
    intro region unclosed reaches
    have is_last : other = piece := by
      rcases List.mem_append.mp among with earlier | same
      · have apart := (List.pairwise_append.mp covers.pairwise).2.2 other earlier piece (by simp)
        have filled := (covers.fits (List.mem_append_right _ List.mem_cons_self)).start_lt
        omega
      · exact List.mem_singleton.mp same
    have byte_eq : source.byte? (Source.ofString front_text).size = back.head? := by
      rw [size_eq, ← wide, ← long, Source.byte?_length_of_split bytes]
    rw [byte_eq]
    rcases opens_of_not_closed rfl joins taken (is_last ▸ unclosed) with
      rfl | ⟨lexeme, is_first, delimiter, opens⟩
    · obtain ⟨_, rfl⟩ := last.of_nil
      exact nofun
    · obtain ⟨byte, tail, rfl, rfl⟩ := last.exists_first is_first
      obtain ⟨rest, brace⟩ := Delimiter.opener?_eq_some_iff.mp (next_of_opening opens).1
      rw [← brace, Delimiter.openBytes_eq]
      exact fun point => absurd (Option.some.inj point) (by decide)

end Piece
end TwigTemplate
