import TwigTemplate.Proofs.Piece.Joint
import TwigTemplate.Proofs.Token.Boundary
import TwigTemplate.Proofs.Token.Cut

/-!
# Tokens split at pieces

Cutting a template at the beginning or the end of a piece cuts its tokens there.  The part before
the cut always has the tokens that it has in the whole template.  The part after it has, unless the
piece before it makes it a verbatim body.
-/

namespace TwigTemplate

open Lexeme

namespace Piece

/-- The piece is a closed tag that consists of a verbatim keyword, white space aside. -/
def OpensVerbatim (source : Source) (piece : Piece) : Prop :=
  piece.kind = .region .tag ∧ piece.closed = true ∧
    ∃ keyword ∈ verbatimKeywords, Blank.trim (source.read piece.body).toList = keyword.toList

instance (source : Source) (piece : Piece) : Decidable (piece.OpensVerbatim source) :=
  inferInstanceAs (Decidable (_ ∧ _ ∧ _))

end Piece

namespace Lexeme

theorem trim_of_verbatimKeyword? {content : List UInt8} {keyword : String}
    (found : verbatimKeyword? content = some keyword) :
    keyword ∈ verbatimKeywords ∧
      Blank.trim ((String.fromUTF8? ⟨content.toArray⟩).getD "").toList = keyword.toList := by
  rw [verbatimKeyword?] at found
  have same := List.find?_some found
  exact ⟨List.mem_of_find?_eq_some found, (beq_iff_eq.mp same).symm⟩

end Lexeme

namespace Reads

open Piece

/-- What is being read and what is being grouped are the same tag, and a verbatim body begins after
a piece that opens one. -/
structure Coupled (source : Source) (taken : List Lexeme) (mode : Mode) (front : List UInt8) :
    Prop where
  /-- The inside of the tag being read ends where reading has come to. -/
  tag : ∀ depth content, mode = .region .tag depth content → ∃ before start,
    front = before ++ content.reverse ∧
      (Grouping.ofLexemes taken).pending = .region .tag start before.length
  /-- The tag before a verbatim body is a piece. -/
  verbatim : ∀ keyword, mode = .verbatim keyword → ∃ piece ∈ (Grouping.ofLexemes taken).pieces,
    piece.span.stop = width taken ∧ piece.OpensVerbatim source

variable {source : Source} {taken : List Lexeme} {mode : Mode} {front tail : List UInt8}
  {byte : UInt8}

theorem Coupled.tag_step {lexeme : Lexeme} {depth : Nat} {content : List UInt8}
    (coupled : Coupled source taken mode front) (long : front.length = width taken)
    (fits : lexeme.extra ≤ tail.length)
    (read : next mode byte tail = (lexeme, .region .tag depth content)) :
    ∃ before start, front ++ byte :: tail.take lexeme.extra = before ++ content.reverse ∧
      (Grouping.ofLexemes (taken ++ [lexeme])).pending = .region .tag start before.length := by
  have grown := content_of_tag (congrArg Prod.snd read)
  rw [read] at grown
  rw [Grouping.ofLexemes_append_singleton]
  rcases grown with ⟨opens, rfl⟩ | ⟨earlier, inside, region, inner, grown⟩
  · refine ⟨front ++ byte :: tail.take lexeme.extra, width taken, by simp, ?_⟩
    have stop : (lexeme.place (width taken)).span.stop =
        (front ++ byte :: tail.take lexeme.extra).length := by
      simp [place, length, long, fits]
    rw [Grouping.step_of_opening _ opens, stop]
    rfl
  · obtain ⟨before, start, rfl, pending⟩ := coupled.tag earlier inside region
    refine ⟨before, start, ?_, Grouping.step_of_inner inner pending⟩
    simp [grown]

theorem Coupled.verbatim_step {lexeme : Lexeme} {keyword : String}
    (coupled : Coupled source taken mode front) (long : front.length = width taken)
    (split : source.toList = front ++ byte :: tail)
    (read : next mode byte tail = (lexeme, .verbatim keyword)) :
    ∃ piece ∈ (Grouping.ofLexemes (taken ++ [lexeme])).pieces,
      piece.span.stop = width (taken ++ [lexeme]) ∧ piece.OpensVerbatim source := by
  obtain ⟨depth, content, region, closed, found⟩ := closing_of_verbatim (congrArg Prod.snd read)
  obtain ⟨before, start, rfl, pending⟩ := coupled.tag depth content region
  have closes : (lexeme.place (width taken)).kind = .closing .tag := by
    rw [read] at closed
    exact congrArg (·.1.kind) closed
  obtain ⟨known, trimmed⟩ := trim_of_verbatimKeyword? found
  have body : source.read ⟨before.length, width taken⟩ =
      (String.fromUTF8? ⟨content.reverse.toArray⟩).getD "" := by
    rw [List.append_assoc] at split
    rw [← long, List.length_append]
    exact Source.read_of_split split
  rw [Grouping.ofLexemes_append_singleton, Grouping.step_of_closing closes pending]
  refine ⟨_, Array.mem_push_self, ?_, rfl, rfl, keyword, known, ?_⟩
  · simp [place]
  · exact (congrArg (fun text : String => Blank.trim text.toList) body).trans trimmed

theorem coupled {rest : List UInt8} (reads : Reads .markup source.toList taken mode rest)
    (split : source.toList = front ++ rest) : Coupled source taken mode front := by
  induction taken using List.reverseRecOn generalizing mode rest front with
  | nil =>
      obtain ⟨rfl, rfl⟩ := reads.of_nil
      exact ⟨nofun, nofun⟩
  | append_singleton taken lexeme ih =>
      obtain ⟨middle, earlier, byte, tail, first, earlier_split, earlier_long, read, fits, -,
        rfl⟩ := reads.exists_last split
      have before := ih first earlier_split
      constructor
      · rintro depth content rfl
        exact before.tag_step earlier_long fits read
      · rintro keyword rfl
        exact before.verbatim_step earlier_long earlier_split read

/-- A run that ends with a closing delimiter leads to the mode after it. -/
theorem exists_mode_closing {back : List UInt8} {middle : Mode} {lexemes : List Lexeme}
    {lexeme : Lexeme} {delimiter : Delimiter}
    (reads : Reads .markup (front ++ back) lexemes middle back)
    (is_last : lexeme ∈ lexemes.getLast?) (closes : lexeme.kind = .closing delimiter) :
    ∃ byte inside, (closing delimiter byte inside).2 = middle := by
  obtain ⟨others, rfl⟩ := List.getLast?_eq_some_iff.mp is_last
  obtain ⟨mode, _, byte, tail, _, _, _, read, _, _, _⟩ := reads.exists_last rfl
  have kind : (next mode byte tail).1.kind = .closing delimiter := by rwa [read]
  obtain ⟨-, inside, closed⟩ := startsClose_of_kind kind
  exact ⟨byte, inside, congrArg Prod.snd (closed.symm.trans read)⟩

/-- Where lexemes join, the text may be cut. -/
theorem edge_of_joins {back : List UInt8} {middle final : Mode} {left right : List Lexeme}
    (last : Reads middle back right final []) (joins : Joins left right) :
    Edge left middle back := by
  rcases joins with none | rfl | closes | ⟨lexeme, is_first, delimiter, opens⟩
  · exact .inl none
  · exact .inr (.inl last.of_nil.2.symm)
  · exact .inr (.inr (.inl closes))
  · obtain ⟨byte, tail, rfl, rfl⟩ := last.exists_first is_first
    exact .inr (.inr (.inr ⟨byte, tail, delimiter, rfl, opens⟩))

/-- What follows is read from the beginning, unless a verbatim body begins there. -/
theorem restart_of_joins {back : List UInt8} {middle final : Mode} {left right : List Lexeme}
    (first : Reads .markup (front ++ back) left middle back)
    (last : Reads middle back right final []) (joins : Joins left right)
    (free : ∀ keyword, middle ≠ .verbatim keyword) :
    ∃ other, Reads .markup back right other [] := by
  rcases joins with rfl | rfl | ⟨lexeme, is_last, delimiter, closes⟩ |
    ⟨lexeme, is_first, delimiter, opens⟩
  · obtain ⟨rfl, _⟩ := first.of_nil
    exact ⟨final, last⟩
  · obtain ⟨_, rfl⟩ := last.of_nil
    exact ⟨.markup, .done _ _⟩
  · obtain ⟨byte, inside, after⟩ := first.exists_mode_closing is_last closes
    rcases mode_closing delimiter byte inside with markup | ⟨_, keyword, _, verbatim⟩
    · rw [← after, markup] at last
      exact ⟨final, last⟩
    · exact absurd (after.symm.trans verbatim) (free keyword)
  · exact ⟨final, last.restart is_first opens⟩

end Reads

namespace Piece

/-- A template can be cut where a piece begins or ends: the part before the cut has the tokens of
the template that end there or earlier, and the part after it has the others, moved to its
beginning.  If the piece that ends at the cut opens a verbatim body, only the first half is
promised. -/
theorem tokens_split {source : Source} {piece : Piece} {offset : Nat}
    (member : piece ∈ group source.tokens)
    (edge : offset = piece.span.start ∨ offset = piece.span.stop) :
    ∃ before after : String, source.text = before ++ after ∧ before.utf8ByteSize = offset ∧
      (Source.ofString before).tokens.toList =
        source.tokens.toList.filter (·.span.stop ≤ offset) ∧
      ((∀ other ∈ group source.tokens, other.span.stop = offset → ¬ other.OpensVerbatim source) →
        (Source.ofString after).tokens.toList.map (Token.shift offset) =
          source.tokens.toList.filter (offset < ·.span.stop)) := by
  obtain ⟨lexemes, final, reads⟩ := Reads.exists_to_end .markup source.toList
  have tokens := Source.toList_tokens reads
  have tokens_eq : source.tokens = (placeAll 0 lexemes).toArray := by rw [← tokens]
  rw [tokens_eq] at member
  have jointed := isJointed_of_mem_group member
  obtain ⟨left, right, rfl, rfl, joins⟩ : IsJoint lexemes offset := by
    rcases edge with rfl | rfl
    · exact jointed.1
    · exact jointed.2
  obtain ⟨middle, back, first, last⟩ := reads.exists_of_append
  obtain ⟨front, split, long⟩ := first.exists_taken
  have coupled := Reads.coupled first split
  obtain ⟨before, after, text, before_eq, after_eq⟩ := first.exists_split split long
  rw [split] at first
  have cut : Reads .markup (Source.ofString before).toList left middle [] := by
    rw [show (Source.ofString before).toList = front from before_eq]
    exact first.cut trivial (Reads.edge_of_joins last joins)
  refine ⟨before, after, text, ?_, ?_, ?_⟩
  · rw [← long, ← before_eq]
    simp
  · rw [Source.toList_tokens cut, tokens, filter_placeAll_le]
  · intro plain
    have free : ∀ keyword, middle ≠ .verbatim keyword := by
      intro keyword verbatim
      obtain ⟨other, opened, stop, opens⟩ := coupled.verbatim keyword verbatim
      refine plain other ?_ stop opens
      rw [tokens_eq, group_placeAll]
      exact Array.mem_append_left _ (Grouping.mem_pieces_append opened right)
    obtain ⟨other, again⟩ := Reads.restart_of_joins first last joins free
    rw [← after_eq] at again
    have after_tokens : (Source.ofString after).tokens.toList = placeAll 0 right :=
      Source.toList_tokens again
    rw [after_tokens, tokens, filter_placeAll_lt, shift_placeAll]
    rfl

/-- The cut between an expression and the markup after it. -/
theorem tokens_split_after_expression :
    let source := Source.ofString "\x7b\x7b a \x7d\x7db"
    ∃ before after : String, source.text = before ++ after ∧ before.utf8ByteSize = 7 ∧
      (Source.ofString before).tokens.toList = source.tokens.toList.filter (·.span.stop ≤ 7) ∧
      (Source.ofString after).tokens.toList.map (Token.shift 7) =
        source.tokens.toList.filter (7 < ·.span.stop) := by
  intro source
  have member : Piece.text ⟨7, 8⟩ ∈ group source.tokens := by decide +kernel
  have plain : ∀ other ∈ group source.tokens, other.span.stop = 7 →
      ¬ other.OpensVerbatim source := by decide +kernel
  obtain ⟨before, after, text, size, first, last⟩ := tokens_split member (.inl rfl)
  exact ⟨before, after, text, size, first, last plain⟩

end Piece
end TwigTemplate
