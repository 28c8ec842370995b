import TwigTemplate.Proofs.Piece.Opaque
import TwigTemplate.Proofs.Tree.Append
import TwigTemplate.Proofs.Tree.Derivation

/-!
# Verbatim constructs

A verbatim tag, its body and its end tag form a construct that holds nothing, whatever the body is.
What follows the end tag is read as it is by itself.
-/

namespace TwigTemplate

open Lexeme

/-! ### What the tags mean -/

namespace Piece

variable {source : Source} {front rest : List UInt8}

theorem slice_ofEndTag {word : List UInt8} (tag : EndTag word)
    (split : source.toList = front ++ (tag.bytes ++ rest)) :
    source.slice (ofEndTag front.length tag).body = tag.inside := by
  have inner : source.toList =
      (front ++ Byte.leftBrace :: Byte.percent :: tag.openMark) ++
        (tag.inside ++ (tag.close ++ rest)) := by
    simp [split, EndTag.bytes, EndTag.tail]
  have slice := Source.slice_of_split inner
  rwa [List.length_append, List.length_cons, List.length_cons] at slice

/-- The header of a tag of a single word is the word alone. -/
theorem header_ofEndTag {keyword : String} (spells : Word.SpellsName keyword.toUTF8.data.toList)
    (tag : EndTag keyword.toUTF8.data.toList)
    (split : source.toList = front ++ (tag.bytes ++ rest)) :
    ∃ place, Header.ofBody source (ofEndTag front.length tag).body = ⟨some ⟨keyword, place⟩, []⟩ :=
  (Header.exists_ofBody_eq_iff spells).mpr
    ⟨tag.before, tag.after, slice_ofEndTag tag split, tag.space_before, tag.space_after⟩

end Piece

namespace Tag

variable {source : Source} {front rest : List UInt8}

/-- A tag of a single word means what its keyword means without words after it. -/
theorem exists_ofPiece_ofEndTag (options : Options) {keyword : String}
    (spells : Word.SpellsName keyword.toUTF8.data.toList)
    (tag : EndTag keyword.toUTF8.data.toList)
    (split : source.toList = front ++ (tag.bytes ++ rest)) :
    ∃ place, ofPiece options source (Piece.ofEndTag front.length tag) =
      ofKeyword options source ⟨keyword, place⟩ [] := by
  obtain ⟨place, alone⟩ := Piece.header_ofEndTag spells tag split
  have named : (Header.ofBody source (Piece.ofEndTag front.length tag).body).keyword =
      some ⟨keyword, place⟩ := by rw [alone]
  refine ⟨place, ?_⟩
  rw [ofPiece_of_keyword rfl named, alone]

variable {keyword : String} (known : keyword ∈ verbatimKeywords)
include known

theorem ofPiece_of_known (options : Options) (tag : EndTag keyword.toUTF8.data.toList)
    (split : source.toList = front ++ (tag.bytes ++ rest)) :
    ofPiece options source (Piece.ofEndTag front.length tag) = .opening (.simple keyword none) := by
  obtain ⟨place, meaning⟩ := exists_ofPiece_ofEndTag options (spellsName_of_known known) tag split
  rw [meaning, ofKeyword_of_known known]

theorem ofPiece_of_endWord (tag : EndTag (endWord keyword))
    (split : source.toList = front ++ (tag.bytes ++ rest)) :
    ofPiece .default source (Piece.ofEndTag front.length tag) = .closing keyword := by
  have spells : Word.SpellsName ("end" ++ keyword).toUTF8.data.toList := by
    rcases eq_of_known known with rfl | rfl
    · decide
    · decide
  obtain ⟨place, meaning⟩ := exists_ofPiece_ofEndTag .default spells tag split
  exact meaning.trans (ofKeyword_end source keyword place [])

end Tag

/-! ### The construct -/

namespace Lexeme.Verbatim

variable {keyword : String} (verbatim : Verbatim keyword)

theorem ofLexemes_eq : Piece.ofLexemes verbatim.lexemes = Piece.ofVerbatim verbatim := by
  rw [Piece.ofLexemes, Piece.ofLexemes_verbatim]
  simp [Piece.Pending.finish]

theorem closed_of_mem {piece : Piece} (member : piece ∈ Piece.ofVerbatim verbatim) :
    piece.closed = true := by
  rw [Piece.ofVerbatim] at member
  split at member
  · simp only [List.nil_append, List.mem_cons, List.not_mem_nil, or_false] at member
    rcases member with rfl | rfl <;> rfl
  · simp only [List.cons_append, List.nil_append, List.mem_cons, List.not_mem_nil,
      or_false] at member
    rcases member with rfl | rfl | rfl <;> rfl

variable {source : Source} (bytes_eq : source.toList = verbatim.bytes)
include bytes_eq

/-- Behind the end tag reading starts anew. -/
theorem seam : source.Seam verbatim.lexemes where
  reads back := by
    rw [bytes_eq]
    exact verbatim.reads back
  finished := by rw [Piece.ofLexemes_verbatim]
  closed _ member _ := verbatim.closed_of_mem (verbatim.ofLexemes_eq ▸ member)

/-- The pieces are read as a construct that holds nothing. -/
theorem read_pieces :
    Tree.read (some Tree.nestingLimit) .default source (Piece.ofVerbatim verbatim) =
      ⟨[.construct 0 (.simple keyword none) [] []
        (some ((Piece.ofVerbatim verbatim).length - 1))], [], [], #[]⟩ := by
  have split_opener : source.toList =
      [] ++ (verbatim.opener.bytes ++ (verbatim.body ++ verbatim.ender.bytes)) := bytes_eq
  have split_ender : source.toList =
      (verbatim.opener.bytes ++ verbatim.body) ++ (verbatim.ender.bytes ++ []) := by
    rw [bytes_eq, bytes, List.append_nil, List.append_assoc]
  have opens := Tag.ofPiece_of_known verbatim.known .default verbatim.opener split_opener
  have ends := Tag.ofPiece_of_endWord verbatim.known verbatim.ender split_ender
  rw [List.length_nil] at opens
  rw [List.length_append] at ends
  have derives : Statement.Derives Tree.nestingLimit
      (Tree.signs .default source (Piece.ofVerbatim verbatim))
      [.construct 0 (.simple keyword none) [] []
        (some ((Piece.ofVerbatim verbatim).length - 1))] := by
    by_cases empty : verbatim.body = []
    · rw [empty, List.length_nil] at ends
      simp only [Piece.ofVerbatim, empty, if_true, List.nil_append, List.length_nil, Tree.signs,
        List.zipIdx_cons, List.zipIdx_nil, List.map_cons, List.map_nil, opens, ends]
      exact .construct .nil .nil .nil
    · simp only [Piece.ofVerbatim, empty, if_false, List.cons_append, List.nil_append, Tree.signs,
        List.zipIdx_cons, List.zipIdx_nil, List.map_cons, List.map_nil, opens, ends]
      exact .construct (.inert .nil) .nil .nil
  exact Tree.read_of_derives _ _ _ (fun _ member _ => verbatim.closed_of_mem member) derives

end Lexeme.Verbatim

/-! ### Templates -/

namespace Lexeme.EndTag

/-- The tag with a space on each side of its word and without trim marks. -/
def spaced (word : List UInt8) : EndTag word where
  openMark := []
  before := [Byte.ofChar ' ']
  after := [Byte.ofChar ' ']
  closeMark := []
  trim_open := .inl rfl
  space_before := by simp; decide
  space_after := by simp; decide
  trim_close := .inl rfl

theorem bytes_spaced (keyword : String) :
    (spaced keyword.toUTF8.data.toList).bytes =
      ("\x7b% " ++ keyword ++ " %\x7d").toUTF8.data.toList := by
  have opened : "\x7b% ".toUTF8.data.toList =
      [Byte.leftBrace, Byte.percent, Byte.ofChar ' '] := by decide +kernel
  have closed : " %\x7d".toUTF8.data.toList =
      [Byte.ofChar ' ', Byte.percent, Byte.rightBrace] := by decide +kernel
  rw [Source.toUTF8_append, Source.toUTF8_append, opened, closed]
  simp [bytes, tail, inside, close, spaced]

@[simp]
theorem length_bytes_spaced (word : List UInt8) : (spaced word).bytes.length = word.length + 6 := by
  simp [bytes, tail, inside, close, spaced]

end Lexeme.EndTag

theorem Piece.ofEndTag_spaced (start : Nat) (word : List UInt8) :
    ofEndTag start (EndTag.spaced word) =
      ⟨.region .tag, ⟨start, start + (word.length + 6)⟩, ⟨start + 2, start + (word.length + 4)⟩,
        true⟩ := by
  have inside : (EndTag.spaced word).inside.length = word.length + 2 := by
    simp only [EndTag.inside, EndTag.spaced, List.length_append, List.length_cons, List.length_nil]
    omega
  have unmarked : (EndTag.spaced word).openMark.length = 0 := rfl
  simp only [ofEndTag, EndTag.length_bytes_spaced, inside, unmarked]
  congr 2
  omega

namespace Source

/-- A verbatim tag, a body, and the end tag. -/
def verbatim (keyword body : String) : Source :=
  ofString ("\x7b% " ++ keyword ++ " %\x7d" ++
    (body ++ ("\x7b% " ++ ("end" ++ keyword) ++ " %\x7d")))

theorem toList_verbatim (keyword body : String) :
    (verbatim keyword body).toList =
      (EndTag.spaced keyword.toUTF8.data.toList).bytes ++
        (body.toUTF8.data.toList ++ (EndTag.spaced (endWord keyword)).bytes) := by
  have ender : (EndTag.spaced (endWord keyword)).bytes =
      ("\x7b% " ++ ("end" ++ keyword) ++ " %\x7d").toUTF8.data.toList :=
    EndTag.bytes_spaced ("end" ++ keyword)
  rw [EndTag.bytes_spaced, ender, verbatim, toList_ofString, toUTF8_append, toUTF8_append body]

theorem length_endWord (keyword : String) :
    (endWord keyword).length = keyword.utf8ByteSize + 3 := by
  rw [endWord, length_toUTF8, String.utf8ByteSize_append, Nat.add_comm]
  rfl

theorem size_verbatim (keyword body : String) :
    (verbatim keyword body).size =
      keyword.utf8ByteSize + 6 + body.utf8ByteSize + (keyword.utf8ByteSize + 9) := by
  rw [size_eq_length, toList_verbatim, List.length_append, List.length_append,
    EndTag.length_bytes_spaced, EndTag.length_bytes_spaced, length_endWord, length_toUTF8,
    length_toUTF8]
  omega

end Source

namespace Document

section Verbatim

variable {keyword body : String} (known : keyword ∈ verbatimKeywords)
  (unended : Unended (endWord keyword) body.toUTF8.data.toList)

/-- The body between tags with single spaces. -/
def spacedVerbatim : Verbatim keyword :=
  ⟨.spaced _, body.toUTF8.data.toList, .spaced _, known, unended⟩

theorem ofVerbatim_spaced :
    let opened := keyword.utf8ByteSize + 6
    let ended := opened + body.utf8ByteSize
    let size := (Source.verbatim keyword body).size
    Piece.ofVerbatim (spacedVerbatim known unended) =
      ⟨.region .tag, ⟨0, opened⟩, ⟨2, opened - 2⟩, true⟩ ::
        ((if body = "" then [] else [Piece.text ⟨opened, ended⟩]) ++
          [⟨.region .tag, ⟨ended, size⟩, ⟨ended + 2, size - 2⟩, true⟩]) := by
  intro opened ended size
  have empty_iff : body.toUTF8.data.toList = [] ↔ body = "" := by
    rw [← List.length_eq_zero_iff, Source.length_toUTF8, String.utf8ByteSize_eq_zero_iff]
  have opener : Piece.ofEndTag 0 (EndTag.spaced keyword.toUTF8.data.toList) =
      ⟨.region .tag, ⟨0, opened⟩, ⟨2, opened - 2⟩, true⟩ := by
    rw [Piece.ofEndTag_spaced, Source.length_toUTF8, Nat.zero_add, Nat.zero_add, Nat.zero_add]
    rfl
  have ender : Piece.ofEndTag ended (EndTag.spaced (endWord keyword)) =
      ⟨.region .tag, ⟨ended, size⟩, ⟨ended + 2, size - 2⟩, true⟩ := by
    have size_eq : size = ended + (keyword.utf8ByteSize + 9) := Source.size_verbatim keyword body
    rw [Piece.ofEndTag_spaced, Source.length_endWord, size_eq]
    rfl
  rw [Piece.ofVerbatim, spacedVerbatim]
  simp only [empty_iff, opener, EndTag.length_bytes_spaced, Source.length_toUTF8]
  rw [ender]

end Verbatim

/-- A verbatim body is opaque: with default options, a verbatim tag, a body in which its end tag
does not occur, and the end tag are two tags with the body as a single piece of markup between them,
and form a construct that holds nothing.  A template after the end tag is read as it is by
itself. -/
theorem parse_verbatim {keyword body : String} (known : keyword ∈ verbatimKeywords)
    (unended : Unended (endWord keyword) body.toUTF8.data.toList) (right : Source) :
    let source := Source.verbatim keyword body
    let opened := keyword.utf8ByteSize + 6
    let ended := opened + body.utf8ByteSize
    let inner := if body = "" then [] else [Piece.text ⟨opened, ended⟩]
    let second := parse .default right
    let whole := parse .default (source ++ right)
    let places := Relocation.shift (inner.length + 2) source.size
    whole.pieces.toList =
        ⟨.region .tag, ⟨0, opened⟩, ⟨2, opened - 2⟩, true⟩ ::
          (inner ++ ⟨.region .tag, ⟨ended, source.size⟩, ⟨ended + 2, source.size - 2⟩, true⟩ ::
            second.pieces.toList.map (·.relocate places)) ∧
      (source ++ right).read ⟨opened, ended⟩ = body ∧
      whole.statements =
        .construct 0 (.simple keyword none) [] [] (some (inner.length + 1)) ::
          second.statements.map (·.relocate places) ∧
      whole.diagnostics = second.diagnostics.map (·.relocate places) := by
  intro source opened ended inner second whole places
  have bytes_eq : source.toList = (spacedVerbatim known unended).bytes :=
    Source.toList_verbatim keyword body
  have seam := (spacedVerbatim known unended).seam bytes_eq
  have reading := (spacedVerbatim known unended).read_pieces bytes_eq
  have pieces_eq : (parse .default source).pieces.toList =
      Piece.ofVerbatim (spacedVerbatim known unended) :=
    seam.pieces_eq.trans (Verbatim.ofLexemes_eq _)
  have explicit := ofVerbatim_spaced known unended
  have tree_eq : (parse .default source).tree =
      ⟨[.construct 0 (.simple keyword none) [] [] (some (inner.length + 1))], []⟩ := by
    have built : (parse .default source).tree =
      Tree.build (some Tree.nestingLimit) .default source
        (parse .default source).pieces.toList := rfl
    have count :
        (Piece.ofVerbatim (spacedVerbatim known unended)).length - 1 = inner.length + 1 := by
      rw [explicit]
      simp [inner, ended, opened]
    rw [built, pieces_eq, Tree.build_eq_finish, reading, count]
    rfl
  have size : (parse .default source).pieces.size = inner.length + 2 := by
    rw [← Array.length_toList, pieces_eq, explicit]
    simp [inner, ended, opened]
  obtain ⟨pieces, statements, diagnostics⟩ := parse_append_of_seam .default right seam
    (by rw [pieces_eq, reading]; exact ⟨rfl, rfl⟩)
  refine ⟨?_, ?_, ?_, ?_⟩
  · rw [pieces, Array.toList_append, Array.toList_map, pieces_eq, explicit, size]
    simp only [List.cons_append, List.append_assoc, List.nil_append]
    rfl
  · have split : (source ++ right).toList =
        (EndTag.spaced keyword.toUTF8.data.toList).bytes ++
          (body.toUTF8.data.toList ++
            ((EndTag.spaced (endWord keyword)).bytes ++ right.toList)) := by
      rw [Source.toList_append, Source.toList_verbatim, List.append_assoc, List.append_assoc]
    have read := Source.read_of_split split
    rw [EndTag.length_bytes_spaced, Source.length_toUTF8, Source.length_toUTF8,
      Source.fromUTF8?_eq_some_iff.mpr rfl] at read
    exact read
  · rw [statements, Document.statements, tree_eq, size]
    rfl
  · rw [diagnostics, Document.diagnostics, tree_eq, size]
    rfl

/-- An expression and a lone quote in a verbatim body, before a stray branch. -/
theorem parse_verbatim_before_branch :
    let source := Source.verbatim "raw" "\x7b\x7b '"
    let whole := parse .default (source ++ Source.ofString "\x7b% else %\x7d")
    "raw" ∈ verbatimKeywords ∧
      Unended (endWord "raw") "\x7b\x7b '".toUTF8.data.toList ∧
      whole.pieces.size = 4 ∧
      (source ++ Source.ofString "\x7b% else %\x7d").read ⟨9, 13⟩ = "\x7b\x7b '" ∧
      whole.diagnostics.map (·.span) = [⟨25, 35⟩] := by
  intro source whole
  have known : "raw" ∈ verbatimKeywords := by decide
  have unended : Unended (endWord "raw") "\x7b\x7b '".toUTF8.data.toList :=
    (unended_iff (plainWord_endWord known)).mpr (by decide +kernel)
  obtain ⟨pieces, body, -, told⟩ :=
    parse_verbatim known unended (Source.ofString "\x7b% else %\x7d")
  refine ⟨known, unended, ?_, body, ?_⟩
  · rw [← Array.length_toList, pieces]
    decide +kernel
  · rw [told]
    decide +kernel

end Document
end TwigTemplate
