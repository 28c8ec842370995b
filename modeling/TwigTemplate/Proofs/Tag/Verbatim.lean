import TwigTemplate.Proofs.Blank
import TwigTemplate.Proofs.Piece.Closed
import TwigTemplate.Proofs.Tag.Keyword
import TwigTemplate.Proofs.Word.Alone

/-!
# Verbatim tags

What follows a closed tag is a verbatim body if and only if the tag holds a verbatim keyword, white
space aside.  The header of the tag is the keyword alone if and only if moreover all of that white
space separates words; then the tag opens the construct that owns the body.
-/

namespace TwigTemplate

open Lexeme

namespace Blank

theorem exists_separators {bytes : List UInt8}
    (spaces : ∀ byte ∈ bytes, Byte.isSpace byte = true) :
    ∃ characters, (∀ character ∈ characters, character ∈ separators) ∧
      (String.ofList characters).toUTF8.data.toList = bytes := by
  induction bytes with
  | nil => exact ⟨[], by simp, rfl⟩
  | cons byte bytes ih =>
      rw [List.forall_mem_cons] at spaces
      obtain ⟨character, separates, rfl⟩ := exists_of_isSpace spaces.1
      obtain ⟨characters, separate, rfl⟩ := ih spaces.2
      have all := List.forall_mem_cons.mpr ⟨separates, separate⟩
      refine ⟨character :: characters, all, ?_⟩
      rw [toUTF8_of_separators all, toUTF8_of_separators separate, List.map_cons]

theorem isSpace_of_separators {characters : List Char}
    (separate : ∀ character ∈ characters, character ∈ separators) :
    ∀ byte ∈ (String.ofList characters).toUTF8.data.toList, Byte.isSpace byte = true := by
  rw [toUTF8_of_separators separate]
  intro byte member
  obtain ⟨character, inside, rfl⟩ := List.mem_map.mp member
  exact isSpace_of_mem_separators (separate character inside)

/-- Bytes are a keyword between spaces if and only if their text is the keyword, white space aside,
and all white space in it separates words. -/
theorem exists_spaces_iff {bytes : List UInt8} {keyword : String} (filled : keyword ≠ "")
    (unblank : ∀ character ∈ keyword.toList, isBlank character = false) :
    (∃ before after, bytes = before ++ (keyword.toUTF8.data.toList ++ after) ∧
        (∀ byte ∈ before, Byte.isSpace byte = true) ∧
        ∀ byte ∈ after, Byte.isSpace byte = true) ↔
      trim ((String.fromUTF8? ⟨bytes.toArray⟩).getD "").toList = keyword.toList ∧
        ∀ character ∈ ((String.fromUTF8? ⟨bytes.toArray⟩).getD "").toList,
          isBlank character = true → character ∈ separators := by
  have filled_list : keyword.toList ≠ [] := by simpa using filled
  constructor
  · rintro ⟨before, after, rfl, spaces, others⟩
    obtain ⟨front, separate_front, rfl⟩ := exists_separators spaces
    obtain ⟨back, separate_back, rfl⟩ := exists_separators others
    have whole : (String.fromUTF8? ⟨((String.ofList front).toUTF8.data.toList ++
        (keyword.toUTF8.data.toList ++ (String.ofList back).toUTF8.data.toList)).toArray⟩).getD "" =
        String.ofList front ++ (keyword ++ String.ofList back) := by
      rw [Source.getD_fromUTF8?_eq_iff (by simp [filled])]
      simp
    rw [whole]
    simp only [String.toList_append, String.toList_ofList]
    refine ⟨trim_append_append filled_list unblank
      (fun character member => isBlank_of_mem_separators (separate_front character member))
      (fun character member => isBlank_of_mem_separators (separate_back character member)), ?_⟩
    intro character member blank
    simp only [List.mem_append] at member
    rcases member with member | member | member
    · exact separate_front character member
    · rw [unblank character member] at blank
      cases blank
    · exact separate_back character member
  · generalize text_eq : (String.fromUTF8? ⟨bytes.toArray⟩).getD "" = text
    rintro ⟨trimmed, separate⟩
    obtain ⟨front, back, parts, blank_front, blank_back⟩ := exists_trim text.toList
    rw [trimmed] at parts
    have whole : text = String.ofList front ++ (keyword ++ String.ofList back) := by
      rw [← String.toList_inj, parts]
      simp
    have filled_text : text ≠ "" := by
      rw [whole]
      simp [filled]
    have separate_front : ∀ character ∈ front, character ∈ separators := fun character member =>
      separate character (by simp [parts, member]) (blank_front character member)
    have separate_back : ∀ character ∈ back, character ∈ separators := fun character member =>
      separate character (by simp [parts, member]) (blank_back character member)
    refine ⟨_, _, ?_, isSpace_of_separators separate_front, isSpace_of_separators separate_back⟩
    rw [← (Source.getD_fromUTF8?_eq_iff filled_text).mp text_eq, whole]
    simp

end Blank

namespace Source

/-- What follows the offset is read as the body of a verbatim tag with the keyword. -/
def VerbatimFrom (source : Source) (keyword : String) (offset : Nat) : Prop :=
  ∃ lexemes rest, Reads .markup source.toList lexemes (.verbatim keyword) rest ∧
    width lexemes = offset

end Source

namespace Lexeme

variable {keyword : String}

theorem ne_empty_of_known (known : keyword ∈ verbatimKeywords) : keyword ≠ "" := by
  rcases eq_of_known known with rfl | rfl <;> decide

theorem not_isBlank_of_known (known : keyword ∈ verbatimKeywords) :
    ∀ character ∈ keyword.toList, Blank.isBlank character = false := by
  have unblank : keyword.toList.any Blank.isBlank = false := by
    rcases eq_of_known known with rfl | rfl <;> decide
  simpa using unblank

theorem spellsName_of_known (known : keyword ∈ verbatimKeywords) :
    Word.SpellsName keyword.toUTF8.data.toList := by
  rcases eq_of_known known with rfl | rfl
  · decide
  · decide

end Lexeme

/-- A verbatim keyword opens a construct of its own, whatever the options are. -/
theorem Tag.ofKeyword_of_known {keyword : String} (known : keyword ∈ verbatimKeywords)
    (options : Options) (source : Source) (place : Span) :
    ofKeyword options source ⟨keyword, place⟩ [] = .opening (.simple keyword none) := by
  rcases eq_of_known known with rfl | rfl
  · rfl
  · rfl

namespace Piece

variable {source : Source} {piece : Piece} {keyword : String}

/-- The body of a closed tag and the mode after the tag. -/
theorem exists_content (member : piece ∈ group source.tokens) (kind : piece.kind = .region .tag)
    (closed : piece.closed = true) :
    ∃ content, source.slice piece.body = content ∧
      source.read piece.body = (String.fromUTF8? ⟨content.toArray⟩).getD "" ∧
      ∀ keyword, source.VerbatimFrom keyword piece.span.stop ↔
        verbatimKeyword? content = some keyword := by
  obtain ⟨lexemes, final, reads⟩ := Reads.exists_to_end .markup source.toList
  have tokens_eq : source.tokens = (placeAll 0 lexemes).toArray := by
    rw [← Source.toList_tokens reads]
  rw [tokens_eq, group_placeAll] at member
  rcases Array.mem_append.mp member with finished | unfinished
  · obtain ⟨left, later, before, after, content, byte, first, long, split, body⟩ :=
      reads.exists_closing_tag finished kind closed
    refine ⟨content.reverse, ?_, ?_, ?_⟩
    · rw [body]
      exact Source.slice_of_split split
    · rw [body]
      exact Source.read_of_split split
    · intro keyword
      have mode : (closing .tag byte content).2 = .verbatim keyword ↔ _ :=
        closing_tag_eq_verbatim_iff
      rw [← mode]
      constructor
      · rintro ⟨others, rest, reads, same⟩
        exact first.mode_unique reads (long.trans same.symm)
      · intro verbatim
        rw [verbatim] at first
        exact ⟨left, later, first, long⟩
  · rw [not_closed_of_mem_finish (by simpa using unfinished) kind] at closed
    cases closed

/-- What follows a closed tag is a verbatim body if and only if the tag is a verbatim keyword, white
space aside. -/
theorem verbatimFrom_iff (member : piece ∈ group source.tokens) (kind : piece.kind = .region .tag)
    (closed : piece.closed = true) (known : keyword ∈ verbatimKeywords) :
    source.VerbatimFrom keyword piece.span.stop ↔
      Blank.trim (source.read piece.body).toList = keyword.toList := by
  obtain ⟨content, -, text, verbatim⟩ := exists_content member kind closed
  rw [verbatim, text, verbatimKeyword?_eq_some_iff known]

/-- What follows a closed tag is a verbatim body with the keyword if and only if the tag is the
keyword, white space aside.  The header of the tag is the keyword alone if and only if moreover all
of that white space separates words, and then the tag opens a construct. -/
theorem verbatim_header_iff (member : piece ∈ group source.tokens)
    (kind : piece.kind = .region .tag) (closed : piece.closed = true)
    (known : keyword ∈ verbatimKeywords) :
    (source.VerbatimFrom keyword piece.span.stop ↔
        Blank.trim (source.read piece.body).toList = keyword.toList) ∧
      ((∃ place, Header.ofBody source piece.body = ⟨some ⟨keyword, place⟩, []⟩) ↔
        source.VerbatimFrom keyword piece.span.stop ∧
          ∀ character ∈ (source.read piece.body).toList, Blank.isBlank character = true →
            character ∈ [' ', '\t', '\n', '\x0c', '\r']) ∧
      ∀ options place, Header.ofBody source piece.body = ⟨some ⟨keyword, place⟩, []⟩ →
        Tag.ofPiece options source piece = .opening (.simple keyword none) := by
  have trimmed := verbatimFrom_iff member kind closed known
  refine ⟨trimmed, ?_, ?_⟩
  · obtain ⟨content, slice, text, -⟩ := exists_content member kind closed
    rw [trimmed, Header.exists_ofBody_eq_iff (spellsName_of_known known), slice, text,
      Blank.exists_spaces_iff (ne_empty_of_known known) (not_isBlank_of_known known)]
    rfl
  · intro options place alone
    have named : (Header.ofBody source piece.body).keyword = some ⟨keyword, place⟩ := by rw [alone]
    rw [Tag.ofPiece_of_keyword kind named, alone]
    exact Tag.ofKeyword_of_known known options source place

/-- A verbatim tag with a tab and a space around its keyword. -/
theorem verbatim_header_iff_of_spaces :
    let source := Source.ofString "\x7b%\traw %\x7da"
    let piece : Piece := ⟨.region .tag, ⟨0, 9⟩, ⟨2, 7⟩, true⟩
    piece ∈ group source.tokens ∧ piece.kind = .region .tag ∧ piece.closed = true ∧
      "raw" ∈ verbatimKeywords ∧ source.VerbatimFrom "raw" 9 ∧
      (∃ place, Header.ofBody source ⟨2, 7⟩ = ⟨some ⟨"raw", place⟩, []⟩) ∧
      Tag.ofPiece .default source piece = .opening (.simple "raw" none) := by
  intro source piece
  have member : piece ∈ group source.tokens := by decide +kernel
  obtain ⟨follows, header, opens⟩ :=
    verbatim_header_iff member rfl rfl (by decide : "raw" ∈ verbatimKeywords)
  have verbatim : source.VerbatimFrom "raw" 9 := follows.mpr (by decide +kernel)
  have blanks : (source.read ⟨2, 7⟩).toList.filter Blank.isBlank = ['\t', ' '] := by
    decide +kernel
  have separate : ∀ character ∈ (source.read ⟨2, 7⟩).toList, Blank.isBlank character = true →
      character ∈ [' ', '\t', '\n', '\x0c', '\r'] := by
    intro character member blank
    have found : character ∈ ['\t', ' '] := blanks ▸ List.mem_filter.mpr ⟨member, blank⟩
    simp only [List.mem_cons, List.not_mem_nil, or_false] at found
    rcases found with rfl | rfl <;> decide
  obtain ⟨place, alone⟩ := header.mpr ⟨verbatim, separate⟩
  exact ⟨member, rfl, rfl, by decide, verbatim, ⟨place, alone⟩, opens .default place alone⟩

/-- A no-break space before the keyword does not separate words: what follows the tag is a verbatim
body, but the header of the tag is another name. -/
theorem verbatim_without_header :
    let source := Source.ofString "\x7b%\u00a0verbatim %\x7d\x7b\x7b x \x7d\x7d"
    let piece : Piece := ⟨.region .tag, ⟨0, 15⟩, ⟨2, 13⟩, true⟩
    piece ∈ group source.tokens ∧ source.VerbatimFrom "verbatim" 15 ∧
      ¬ ∃ place, Header.ofBody source piece.body = ⟨some ⟨"verbatim", place⟩, []⟩ := by
  intro source piece
  have member : piece ∈ group source.tokens := by decide +kernel
  have known : "verbatim" ∈ verbatimKeywords := by decide
  refine ⟨member, (verbatimFrom_iff member rfl rfl known).mpr (by decide +kernel), ?_⟩
  rintro ⟨place, alone⟩
  have header : Header.ofBody source piece.body = ⟨some ⟨"\u00a0verbatim", ⟨2, 12⟩⟩, []⟩ := by
    decide +kernel
  rw [header] at alone
  have same : some "\u00a0verbatim" = some "verbatim" :=
    congrArg (fun header => header.keyword.map (·.text)) alone
  exact absurd same (by decide)

end Piece
end TwigTemplate
