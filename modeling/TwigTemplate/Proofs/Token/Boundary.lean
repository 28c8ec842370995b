import TwigTemplate.Proofs.Source
import TwigTemplate.Proofs.Token.Spelling

/-!
# Tokens begin and end between characters

Delimiters and literals end with an ASCII character, and a run of raw bytes goes up to the end of
the text or up to an ASCII character.  So the text can be split between any two tokens.
-/

namespace TwigTemplate

open Lexeme

/-- An ASCII character stands at the head of the bytes. -/
def StartsAscii (bytes : List UInt8) : Prop :=
  ∃ byte tail, bytes = byte :: tail ∧ Byte.IsAscii byte

/-- An ASCII character stands at the end of the bytes. -/
def EndsAscii (bytes : List UInt8) : Prop :=
  ∃ front byte, bytes = front ++ [byte] ∧ Byte.IsAscii byte

namespace Delimiter

theorem isAscii_openMark (delimiter : Delimiter) : Byte.IsAscii delimiter.openMark := by
  cases delimiter with
  | tag => exact ⟨'%', by decide, rfl⟩
  | expression => exact Byte.isAscii_leftBrace
  | comment => exact ⟨'#', by decide, rfl⟩

theorem isAscii_closeMark (delimiter : Delimiter) : Byte.IsAscii delimiter.closeMark := by
  cases delimiter with
  | tag => exact ⟨'%', by decide, rfl⟩
  | expression => exact Byte.isAscii_rightBrace
  | comment => exact ⟨'#', by decide, rfl⟩

theorem startsAscii_of_opener {delimiter : Delimiter} {bytes : List UInt8}
    (opens : opener? bytes = some delimiter) : StartsAscii bytes := by
  obtain ⟨rest, rfl⟩ := opener?_eq_some_iff.mp opens
  rw [openBytes_eq]
  exact ⟨_, _, rfl, Byte.isAscii_leftBrace⟩

theorem startsAscii_of_startsClose {delimiter : Delimiter} {bytes : List UInt8}
    (closes : delimiter.startsClose bytes = true) : StartsAscii bytes := by
  obtain ⟨mark, rfl | ⟨byte, marked, rfl⟩, rest, rfl⟩ := startsClose_iff.mp closes
  · rw [closeBytes_eq]
    exact ⟨_, _, rfl, delimiter.isAscii_closeMark⟩
  · exact ⟨_, _, rfl, Byte.isAscii_of_isTrimMark marked⟩

end Delimiter

namespace TokenKind

/-- Delimiters and literals end with an ASCII character. -/
theorem Spells.endsAscii {kind : TokenKind} {trim : Bool} {bytes : List UInt8}
    (spells : kind.Spells trim bytes) (other : kind ≠ raw) : EndsAscii bytes := by
  cases kind with
  | opening delimiter =>
      obtain ⟨mark, rfl | ⟨byte, marked, rfl⟩, -, rfl⟩ := spells
      · rw [Delimiter.openBytes_eq]
        exact ⟨[Byte.leftBrace], _, rfl, delimiter.isAscii_openMark⟩
      · exact ⟨_, byte, rfl, Byte.isAscii_of_isTrimMark marked⟩
  | closing delimiter =>
      obtain ⟨mark, -, -, rfl⟩ := spells
      rw [Delimiter.closeBytes_eq]
      exact ⟨mark ++ [delimiter.closeMark], _, by simp, Byte.isAscii_rightBrace⟩
  | quoted =>
      obtain ⟨-, quote, inside, quotes, rfl⟩ := spells
      exact ⟨quote :: inside, quote, rfl, Byte.isAscii_of_isQuote quotes⟩
  | raw => exact absurd rfl other

end TokenKind

namespace Lexeme

theorem startsAscii_of_endsRun {delimiter : Delimiter} {depth : Nat} {bytes : List UInt8}
    (ends : endsRun delimiter depth bytes = true) : StartsAscii bytes := by
  simp only [endsRun, Bool.or_eq_true, Bool.and_eq_true, Option.any_eq_true] at ends
  rcases ends with (⟨byte, first, quotes⟩ | ⟨-, closes⟩) | ⟨other, opens, -⟩
  · obtain ⟨tail, rfl⟩ := List.head?_eq_some_iff.mp first
    exact ⟨byte, tail, rfl, Byte.isAscii_of_isQuote quotes⟩
  · exact Delimiter.startsAscii_of_startsClose closes
  · exact Delimiter.startsAscii_of_opener opens

/-- What remains after a lexeme is nothing, or starts with an ASCII character. -/
def StopsAscii (lexeme : Lexeme) (tail : List UInt8) : Prop :=
  tail.drop lexeme.extra = [] ∨ StartsAscii (tail.drop lexeme.extra)

theorem stopsAscii_distanceTo {stop : List UInt8 → Bool}
    (ascii : ∀ bytes, stop bytes = true → StartsAscii bytes) (tail : List UInt8) :
    (raw (distanceTo stop tail)).StopsAscii tail := by
  obtain ⟨run, rest, rfl, long, stops, -⟩ := exists_distanceTo stop tail
  rw [StopsAscii, raw, ← long, List.drop_left]
  exact stops.imp_right (ascii rest)

theorem stopsAscii_ofMarkup {byte : UInt8} {tail : List UInt8}
    (is_raw : (ofMarkup byte tail).1.kind = .raw) : (ofMarkup byte tail).1.StopsAscii tail := by
  rw [ofMarkup] at is_raw ⊢
  split at is_raw
  · cases is_raw
  · refine stopsAscii_distanceTo ?_ tail
    intro bytes opens
    obtain ⟨delimiter, opener⟩ := Option.isSome_iff_exists.mp opens
    exact Delimiter.startsAscii_of_opener opener

theorem stopsAscii_ofCode {delimiter : Delimiter} {depth : Nat} {content : List UInt8}
    {byte : UInt8} {tail : List UInt8}
    (is_raw : (ofCode delimiter depth content byte tail).1.kind = .raw) :
    (ofCode delimiter depth content byte tail).1.StopsAscii tail := by
  have takes := takesCode_ofCode delimiter depth content byte tail
  generalize ofCode delimiter depth content byte tail = taken at takes is_raw ⊢
  cases takes with
  | quoted => cases is_raw
  | unclosed => exact .inl (List.drop_length)
  | closes => cases is_raw
  | opens => cases is_raw
  | runs _ stops =>
      rw [StopsAscii, raw, List.drop_left]
      exact stops.imp_right startsAscii_of_endsRun

/-- A run of raw bytes is cut off by an ASCII character or by the end of the text. -/
theorem stopsAscii_next (mode : Mode) (byte : UInt8) (tail : List UInt8)
    (is_raw : (next mode byte tail).1.kind = .raw) :
    (next mode byte tail).1.StopsAscii tail := by
  match mode with
  | .markup => exact stopsAscii_ofMarkup is_raw
  | .verbatim keyword =>
    rw [next, ofVerbatim] at is_raw ⊢
    split at is_raw
    · rename_i starts
      rw [if_pos starts]
      exact stopsAscii_ofMarkup is_raw
    · rename_i starts
      rw [if_neg starts]
      exact stopsAscii_distanceTo
        (fun _ ends => Delimiter.startsAscii_of_opener (opener?_of_startsTag ends)) tail
  | .region .comment depth content =>
    rw [next, ofComment] at is_raw ⊢
    split at is_raw
    · cases is_raw
    · rename_i goes_on
      rw [if_neg goes_on]
      exact stopsAscii_distanceTo (fun _ => Delimiter.startsAscii_of_startsClose) tail
  | .region .tag depth content => exact stopsAscii_ofCode is_raw
  | .region .expression depth content => exact stopsAscii_ofCode is_raw

end Lexeme

/-- The text can be split after each lexeme. -/
theorem Reads.isValid {source : Source} {mode : Mode} {lexemes : List Lexeme} {rest : List UInt8}
    (reads : Reads .markup source.toList lexemes mode rest) :
    (⟨width lexemes⟩ : String.Pos.Raw).IsValid source.text := by
  obtain ⟨front, split, long⟩ := reads.exists_taken
  have bytes := source.toUTF8_text.trans split
  rw [← long]
  rcases List.eq_nil_or_concat lexemes with rfl | ⟨earlier, lexeme, rfl⟩
  · rw [List.eq_nil_of_length_eq_zero long]
    exact String.Pos.Raw.isValid_zero
  rw [List.concat_eq_append] at reads
  obtain ⟨middle, before, byte, tail, -, -, -, taken, -, rest_eq, rfl⟩ :=
    reads.exists_last split
  by_cases is_raw : lexeme.kind = .raw
  · have stops := stopsAscii_next middle byte tail (by rwa [taken])
    rw [taken, StopsAscii, ← rest_eq] at stops
    rcases stops with rfl | ⟨next, later, rfl, ascii⟩
    · have size : source.text.utf8ByteSize = (before ++ byte :: tail.take lexeme.extra).length := by
        have total := congrArg List.length bytes
        rw [List.append_nil] at total
        simpa using total
      rw [← size]
      exact String.Pos.Raw.isValid_rawEndPos
    · exact Source.isValid_before_ascii bytes ascii
  · have spelled := spelled_next middle byte tail
    rw [taken] at spelled
    obtain ⟨init, last, ends, ascii⟩ := TokenKind.Spells.endsAscii spelled is_raw
    rw [ends, ← List.append_assoc] at bytes ⊢
    exact Source.isValid_after_ascii ascii bytes

/-- What has been read and what remains are texts by themselves. -/
theorem Reads.exists_split {source : Source} {mode : Mode} {lexemes : List Lexeme}
    {front rest : List UInt8} (reads : Reads .markup source.toList lexemes mode rest)
    (split : source.toList = front ++ rest) (long : front.length = width lexemes) :
    ∃ before after : String, source.text = before ++ after ∧
      before.toUTF8.data.toList = front ∧ after.toUTF8.data.toList = rest :=
  Source.exists_split_of_isValid (source.toUTF8_text.trans split) (long ▸ reads.isValid)

end TwigTemplate
