import TwigTemplate.Proofs.Token.EndTag

/-!
# How tokens are spelled

Delimiters are spelled as their texts are, with a trim mark or none, and a literal is what stands
between two quotes of a kind.  A lexeme takes bytes that spell its kind.
-/

namespace TwigTemplate

open Lexeme

namespace TokenKind

/-- The bytes that a token of the kind may consist of; only a delimiter has a trim mark. -/
def Spells (trim : Bool) (bytes : List UInt8) : TokenKind → Prop
  | opening delimiter =>
    ∃ mark, TrimMark mark ∧ (trim = true ↔ mark ≠ []) ∧ bytes = delimiter.openBytes ++ mark
  | closing delimiter =>
    ∃ mark, TrimMark mark ∧ (trim = true ↔ mark ≠ []) ∧ bytes = mark ++ delimiter.closeBytes
  | quoted =>
    trim = false ∧ ∃ quote inside, Byte.isQuote quote = true ∧ bytes = quote :: (inside ++ [quote])
  | raw => trim = false

end TokenKind

namespace Lexeme

/-- The bytes of the lexeme that starts with `byte` spell its kind. -/
def Spelled (lexeme : Lexeme) (byte : UInt8) (tail : List UInt8) : Prop :=
  lexeme.kind.Spells lexeme.trim (byte :: tail.take lexeme.extra)

theorem spelled_raw (extra : Nat) (byte : UInt8) (tail : List UInt8) :
    (raw extra).Spelled byte tail := rfl

theorem spelled_opening {delimiter : Delimiter} {byte : UInt8} {tail : List UInt8}
    (opens : Delimiter.opener? (byte :: tail) = some delimiter) :
    (opening delimiter tail).1.Spelled byte tail := by
  obtain ⟨rest, split⟩ := Delimiter.opener?_eq_some_iff.mp opens
  rw [Delimiter.openBytes_eq] at split
  obtain ⟨rfl, rfl⟩ := List.cons.inj split
  cases rest with
  | nil => exact ⟨[], .inl rfl, by simp [opening], by simp [opening, Delimiter.openBytes_eq]⟩
  | cons mark rest =>
      cases marked : Byte.isTrimMark mark with
      | false =>
          refine ⟨[], .inl rfl, ?_, ?_⟩
          · simp [opening, marked]
          · simp [opening, marked, Delimiter.openBytes_eq]
      | true =>
          refine ⟨[mark], .inr ⟨mark, marked, rfl⟩, ?_, ?_⟩
          · simp [opening, marked]
          · simp [opening, marked, Delimiter.openBytes_eq]

theorem spelled_closing {delimiter : Delimiter} {byte : UInt8} {tail : List UInt8}
    (closes : delimiter.startsClose (byte :: tail) = true) (content : List UInt8) :
    (closing delimiter byte content).1.Spelled byte tail := by
  obtain ⟨mark, trim, rest, split⟩ := Delimiter.startsClose_iff.mp closes
  rw [Delimiter.closeBytes_eq] at split
  refine ⟨mark, trim, ?_⟩
  rcases trim with rfl | ⟨first, marked, rfl⟩
  · obtain ⟨rfl, rfl⟩ := List.cons.inj split
    simp [closing, Delimiter.isTrimMark_closeMark, Delimiter.closeBytes_eq]
  · obtain ⟨rfl, rfl⟩ := List.cons.inj split
    simp [closing, marked, Delimiter.closeBytes_eq]

theorem spelled_ofMarkup (byte : UInt8) (tail : List UInt8) :
    (ofMarkup byte tail).1.Spelled byte tail := by
  rw [ofMarkup]
  split
  · rename_i opens
    exact spelled_opening opens
  · exact spelled_raw _ byte tail

theorem spelled_ofCode (delimiter : Delimiter) (depth : Nat) (content : List UInt8) (byte : UInt8)
    (tail : List UInt8) : (ofCode delimiter depth content byte tail).1.Spelled byte tail := by
  have takes := takesCode_ofCode delimiter depth content byte tail
  generalize ofCode delimiter depth content byte tail = taken at takes
  cases takes with
  | @quoted inside rest quotes =>
      exact ⟨rfl, byte, inside, quotes, by simp [List.take_length_add_append]⟩
  | unclosed => exact spelled_raw _ byte _
  | closes _ closer => exact spelled_closing closer content
  | opens opener => exact spelled_opening opener
  | runs => exact spelled_raw _ byte _

/-- Every lexeme takes bytes that spell its kind. -/
theorem spelled_next (mode : Mode) (byte : UInt8) (tail : List UInt8) :
    (next mode byte tail).1.Spelled byte tail := by
  match mode with
  | .markup => exact spelled_ofMarkup byte tail
  | .verbatim keyword =>
    rw [next, ofVerbatim]
    split
    · exact spelled_ofMarkup byte tail
    · exact spelled_raw _ byte tail
  | .region .comment depth content =>
    rw [next, ofComment]
    split
    · rename_i closes
      exact spelled_closing closes []
    · exact spelled_raw _ byte tail
  | .region .tag depth content => exact spelled_ofCode .tag depth content byte tail
  | .region .expression depth content => exact spelled_ofCode .expression depth content byte tail

end Lexeme
end TwigTemplate
