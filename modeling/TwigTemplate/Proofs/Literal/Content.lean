import TwigTemplate.Proofs.Character
import TwigTemplate.Proofs.Word.Cover
import TwigTemplate.Proofs.Word.Plain

/-!
# Expressions that are a single literal

The content of an expression is read off its characters, without regard to backslashes, and its
words are read off its bytes.  Both take the same expressions for a single literal, but for the
quotes that a backslash hides: one inside of a literal leaves the expression without a content, and
one at its end leaves the literal unclosed.
-/

namespace TwigTemplate

namespace Literal

section Bytes

variable {quote : UInt8} {inside tail : List UInt8} (quotes : Byte.isQuote quote = true)
include quotes

/-- A literal with no other quote than the last byte takes in all of the bytes, whether or not that
quote is hidden. -/
theorem getD_remainder?_of_not_mem (apart : quote ∉ inside) :
    (remainder? quote (inside ++ [quote])).getD (inside ++ [quote]).length =
      (inside ++ [quote]).length := by
  cases closed : remainder? quote (inside ++ [quote]) with
  | none => rfl
  | some length =>
      obtain ⟨before, rest, split, -, rfl⟩ := (remainder?_eq_some_iff quotes).mp closed
      rcases List.eq_nil_or_concat rest with rfl | ⟨others, last, rfl⟩
      · rw [split, List.length_append]
        rfl
      · -- With more bytes behind it, the quote that was found is one of those before the last.
        rw [List.concat_eq_append, ← List.cons_append, ← List.append_assoc] at split
        have earlier : inside = before ++ quote :: others := (List.append_inj' split rfl).1
        exact absurd (by simp [earlier]) apart

/-- A literal that takes in all of the bytes is closed if and only if they are what may stand
between two quotes, and the second quote. -/
theorem getD_remainder?_and_complete_iff :
    (remainder? quote tail).getD tail.length = tail.length ∧ Complete (quote :: tail) ↔
      ∃ inside, tail = inside ++ [quote] ∧ Inside quote inside := by
  rw [complete_cons_of_isQuote quotes]
  constructor
  · rintro ⟨whole, length, closed, -⟩
    rw [Option.mem_def.mp closed, Option.getD_some] at whole
    obtain ⟨inside, rest, rfl, within, rfl⟩ := (remainder?_eq_some_iff quotes).mp closed
    rw [List.length_append, List.length_cons] at whole
    have nothing : rest = [] := List.eq_nil_of_length_eq_zero (by omega)
    exact ⟨inside, by rw [nothing], within⟩
  · rintro ⟨inside, rfl, within⟩
    have closed : remainder? quote (inside ++ [quote]) = some (inside.length + 1) :=
      (remainder?_eq_some_iff quotes).mpr ⟨inside, [], rfl, within, rfl⟩
    refine ⟨by simp [closed], inside.length + 1, closed, ?_⟩
    rw [List.drop_length_add_append]
    exact .nil

end Bytes

/-! ### Texts in quotes -/

/-- The character is a double or a single quote. -/
def IsQuoteMark (character : Char) : Prop := character = '\x22' ∨ character = '\x27'

/-- The text is a content between two quotes of one kind. -/
structure Quoted (mark : Char) (content text : String) : Prop where
  /-- The character before and behind the content is a quote. -/
  isMark : IsQuoteMark mark
  /-- The text consists of these parts. -/
  text_eq : text = String.singleton mark ++ (content ++ String.singleton mark)

section Mark

variable {mark : Char} (isMark : IsQuoteMark mark)
include isMark

theorem IsQuoteMark.ascii : mark.toNat < 128 := by
  rcases isMark with rfl | rfl <;> decide

theorem IsQuoteMark.isQuote : Byte.isQuote (Byte.ofChar mark) = true := by
  rcases isMark with rfl | rfl <;> decide

end Mark

theorem exists_quoteMark {quote : UInt8} (quotes : Byte.isQuote quote = true) :
    ∃ mark, IsQuoteMark mark ∧ Byte.ofChar mark = quote := by
  rw [Byte.isQuote, Bool.or_eq_true, beq_iff_eq, beq_iff_eq] at quotes
  rcases quotes with rfl | rfl
  · exact ⟨_, .inl rfl, rfl⟩
  · exact ⟨_, .inr rfl, rfl⟩

section Quoted

variable {mark : Char} {content text : String} (quoted : Quoted mark content text)
include quoted

theorem Quoted.toList_eq : text.toList = mark :: (content.toList ++ [mark]) := by
  simp [quoted.text_eq]

theorem Quoted.toUTF8_eq :
    text.toUTF8.data.toList =
      Byte.ofChar mark :: (content.toUTF8.data.toList ++ [Byte.ofChar mark]) := by
  rw [quoted.text_eq, Source.toUTF8_append, Source.toUTF8_append,
    Source.toUTF8_singleton quoted.isMark.ascii]
  rfl

/-- Where there are no backslashes, a literal is closed by the quote behind its content if the
content has no such quote. -/
theorem Quoted.inside_iff (unhidden : '\\' ∉ text.toList) :
    Inside (Byte.ofChar mark) content.toUTF8.data.toList ↔ mark ∉ content.toList := by
  have unhidden_content : '\\' ∉ content.toList := by
    intro member
    rw [quoted.toList_eq] at unhidden
    exact unhidden (List.mem_cons_of_mem _ (List.mem_append_left _ member))
  rw [← Source.ofChar_mem_toUTF8_iff (by decide)] at unhidden_content
  rw [inside_iff_not_mem unhidden_content, Source.ofChar_mem_toUTF8_iff quoted.isMark.ascii]

end Quoted

/-- Bytes between two quotes are a text between two quotes. -/
theorem exists_quoted {text : String} {quote : UInt8} {inside : List UInt8}
    (quotes : Byte.isQuote quote = true)
    (split : text.toUTF8.data.toList = quote :: (inside ++ [quote])) :
    ∃ mark content, Quoted mark content text ∧ Byte.ofChar mark = quote ∧
      content.toUTF8.data.toList = inside := by
  -- A quote is a character by itself, so the text can be cut behind the first and before the last.
  have ascii := Byte.isAscii_of_isQuote quotes
  obtain ⟨mark, isMark, rfl⟩ := exists_quoteMark quotes
  have bytes : text.toUTF8.data.toList =
      ([] ++ [Byte.ofChar mark]) ++ (inside ++ [Byte.ofChar mark]) := split
  obtain ⟨first, rest, rfl, first_eq, rest_eq⟩ :=
    Source.exists_split_of_isValid bytes (Source.isValid_after_ascii ascii bytes)
  obtain ⟨content, last, rfl, content_eq, last_eq⟩ :=
    Source.exists_split_of_isValid rest_eq (Source.isValid_before_ascii rest_eq ascii)
  rw [List.nil_append, ← Source.toUTF8_singleton isMark.ascii] at first_eq
  rw [← Source.toUTF8_singleton isMark.ascii] at last_eq
  refine ⟨mark, content, ⟨isMark, ?_⟩, rfl, content_eq⟩
  rw [Source.eq_of_toUTF8 first_eq, Source.eq_of_toUTF8 last_eq]

end Literal

namespace Word

open Literal

/-- The text has one word, a literal that takes in all of it. -/
def SingleLiteral (text : String) : Prop :=
  (ofText text).map (fun word => (word.kind, word.span)) = [(.literal, ⟨0, text.utf8ByteSize⟩)]

instance (text : String) : Decidable (SingleLiteral text) := inferInstanceAs (Decidable (_ = _))

/-- A content that begins with a literal begins with a quote. -/
theorem isQuote_of_mem_among {following : Option UInt8} {start depth : Nat} {byte : UInt8}
    {tail : List UInt8} {word : Word} (member : word ∈ among following start depth (byte :: tail))
    (begins : word.span.start = start) (literal : word.kind = .literal) :
    Byte.isQuote byte = true := by
  cases space : Byte.isSpace byte with
  | true =>
      rw [among_cons_of_isSpace space] at member
      have bounds := bounds_of_mem_among member
      omega
  | false =>
      rw [among_cons space, List.mem_cons] at member
      rcases member with rfl | later
      · by_contra other
        exact (plain_of_shape (Bool.eq_false_iff.mpr other)).1 literal
      · have bounds := bounds_of_mem_among later
        omega

/-- A text is a single literal if and only if it begins with a literal that goes up to its end. -/
theorem singleLiteral_iff {text : String} :
    SingleLiteral text ↔ ∃ quote tail, text.toUTF8.data.toList = quote :: tail ∧
      Byte.isQuote quote = true ∧ (remainder? quote tail).getD tail.length = tail.length := by
  rw [SingleLiteral, ofText_eq, ← Source.length_toUTF8]
  constructor
  · intro alone
    obtain ⟨word, member, same⟩ := List.mem_map.mp (alone ▸ List.mem_singleton_self _)
    obtain ⟨literal, span_eq⟩ := Prod.mk.inj same
    cases bytes : text.toUTF8.data.toList with
    | nil =>
        rw [bytes, among_nil] at member
        cases member
    | cons quote tail =>
        rw [bytes] at alone member
        have quotes := isQuote_of_mem_among member (congrArg Span.start span_eq) literal
        refine ⟨quote, tail, rfl, quotes, ?_⟩
        rw [among_cons (Byte.not_isSpace_of_isQuote quotes), first, shape_of_isQuote quotes]
          at alone
        have stop_eq := congrArg (fun word => word.2.stop) (List.cons.inj alone).1
        simpa using stop_eq
  · rintro ⟨quote, tail, bytes, quotes, whole⟩
    rw [bytes, among_cons (Byte.not_isSpace_of_isQuote quotes), first, shape_of_isQuote quotes,
      whole, List.drop_length, among_nil]
    simp

/-- A text is a single literal that is closed if and only if it is something that may stand between
two quotes, with the quotes. -/
theorem singleLiteral_and_complete_iff {text : String} :
    SingleLiteral text ∧ Complete text.toUTF8.data.toList ↔
      ∃ quote inside, Byte.isQuote quote = true ∧
        text.toUTF8.data.toList = quote :: (inside ++ [quote]) ∧ Inside quote inside := by
  rw [singleLiteral_iff]
  constructor
  · rintro ⟨⟨quote, tail, bytes, quotes, whole⟩, complete⟩
    rw [bytes] at complete
    obtain ⟨inside, rfl, within⟩ := (getD_remainder?_and_complete_iff quotes).mp ⟨whole, complete⟩
    exact ⟨quote, inside, quotes, bytes, within⟩
  · rintro ⟨quote, inside, quotes, bytes, within⟩
    obtain ⟨whole, complete⟩ := (getD_remainder?_and_complete_iff quotes).mpr ⟨inside, rfl, within⟩
    rw [bytes]
    exact ⟨⟨quote, _, rfl, quotes, whole⟩, complete⟩

end Word

namespace Excerpt

open Literal

variable {excerpt : Excerpt} {content : String}

/-- The content of an expression is what stands between two quotes, if the quote is not in it. -/
theorem literal?_eq_some_iff :
    excerpt.literal? = some content ↔
      ∃ mark, Quoted mark content excerpt.text ∧ mark ∉ content.toList := by
  rw [literal?]
  constructor
  · intro found
    split at found
    · cases found
    · rename_i mark rest characters
      dsimp only at found
      split at found
      · rename_i quoted
        obtain rfl := Option.some.inj found
        simp only [Bool.and_eq_true, Bool.or_eq_true, beq_iff_eq, Bool.not_eq_true',
          List.contains_eq_mem, decide_eq_false_iff_not] at quoted
        obtain ⟨⟨isMark, last⟩, apart⟩ := quoted
        obtain ⟨inner, rfl⟩ := List.getLast?_eq_some_iff.mp last
        rw [List.dropLast_concat] at apart ⊢
        refine ⟨mark, ⟨isMark, String.toList_inj.mp ?_⟩, by simpa using apart⟩
        simp [characters]
      · cases found
  · rintro ⟨mark, quoted, apart⟩
    have isMark : mark = '\x22' ∨ mark = '\x27' := quoted.isMark
    rw [quoted.toList_eq]
    simp [apart, isMark]

/-- An expression that has a content is the content between two quotes, and its only word is a
literal that takes in all of it.  Where there are no backslashes, the expressions that have a
content are those whose only word is such a literal, and a closed one. -/
theorem literal?_iff_singleLiteral (excerpt : Excerpt) :
    (∀ content, excerpt.literal? = some content →
      Word.SingleLiteral excerpt.text ∧ ∃ mark, Quoted mark content excerpt.text) ∧
    ('\\' ∉ excerpt.text.toList →
      (Word.SingleLiteral excerpt.text ∧ Complete excerpt.text.toUTF8.data.toList ↔
        ∃ mark content, Quoted mark content excerpt.text ∧ excerpt.literal? = some content)) := by
  constructor
  · intro content found
    obtain ⟨mark, quoted, apart⟩ := literal?_eq_some_iff.mp found
    rw [← Source.ofChar_mem_toUTF8_iff quoted.isMark.ascii] at apart
    refine ⟨?_, mark, quoted⟩
    exact Word.singleLiteral_iff.mpr ⟨_, _, quoted.toUTF8_eq, quoted.isMark.isQuote,
      getD_remainder?_of_not_mem quoted.isMark.isQuote apart⟩
  · intro unhidden
    rw [Word.singleLiteral_and_complete_iff]
    constructor
    · rintro ⟨_, _, quotes, bytes, within⟩
      obtain ⟨mark, content, quoted, rfl, rfl⟩ := exists_quoted quotes bytes
      have apart := (quoted.inside_iff unhidden).mp within
      exact ⟨mark, content, quoted, literal?_eq_some_iff.mpr ⟨mark, quoted, apart⟩⟩
    · rintro ⟨_, content, -, found⟩
      obtain ⟨mark, quoted, apart⟩ := literal?_eq_some_iff.mp found
      exact ⟨_, _, quoted.isMark.isQuote, quoted.toUTF8_eq, (quoted.inside_iff unhidden).mpr apart⟩

/-- A literal whose last quote is hidden, and one that holds a quote of the other kind. -/
theorem literal?_of_hidden_quote :
    let hidden : Excerpt := ⟨"'é\\'", ⟨0, 5⟩⟩
    let unhidden : Excerpt := ⟨"\x22d'été\x22", ⟨3, 12⟩⟩
    hidden.literal? = some "é\\" ∧ Word.SingleLiteral hidden.text ∧
      '\\' ∉ unhidden.text.toList ∧
      (Word.SingleLiteral unhidden.text ∧ Complete unhidden.text.toUTF8.data.toList) ∧
      ∃ mark content, Quoted mark content unhidden.text ∧
        unhidden.literal? = some content := by
  intro hidden unhidden
  have content : hidden.literal? = some "é\\" := by decide +kernel
  have nothing : '\\' ∉ unhidden.text.toList := by decide +kernel
  have closed : Word.SingleLiteral unhidden.text ∧
      Complete unhidden.text.toUTF8.data.toList := by decide +kernel
  exact ⟨content, ((literal?_iff_singleLiteral hidden).1 _ content).1, nothing, closed,
    ((literal?_iff_singleLiteral unhidden).2 nothing).mp closed⟩

/-- With a backslash, a literal that is single and closed may have no content. -/
example :
    let text := "'a\\'b'"
    Word.SingleLiteral text ∧ Complete text.toUTF8.data.toList ∧
      literal? ⟨text, ⟨0, 6⟩⟩ = none := by decide +kernel

end Excerpt
end TwigTemplate
