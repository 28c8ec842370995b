import TwigTemplate.Proofs.Piece.Split
import TwigTemplate.Proofs.Token.Region

/-!
# Closed tags and how reading goes on

The region that is being read is the piece that is being grouped.  So a closed tag piece ends where
a closing delimiter was read after the body of the piece, and the body alone tells how reading goes
on.
-/

namespace TwigTemplate

open Lexeme

namespace Piece

/-- The region of the pending piece. -/
def Pending.region? : Pending → Option Delimiter
  | region delimiter _ _ => some delimiter
  | _ => none

namespace Grouping

theorem region?_step {grouping : Grouping} {token : Token}
    (fits : token.kind.FitsIn grouping.pending.region?) :
    (grouping.step token).pending.region? = token.kind.regionAfter grouping.pending.region? := by
  obtain ⟨pieces, pending⟩ := grouping
  rw [step]
  cases kind : token.kind with
  | opening delimiter => rfl
  | closing delimiter =>
      rw [kind] at fits
      cases pending with
      | nothing => cases fits
      | text span => cases fits
      | region opened start body => rfl
  | quoted => cases pending <;> rfl
  | raw => cases pending <;> rfl

/-- A finished piece was finished before, or by the token: when a region opens, or as the region
that closes. -/
theorem mem_pieces_step_cases {grouping : Grouping} {token : Token} {piece : Piece}
    (member : piece ∈ (grouping.step token).pieces) :
    piece ∈ grouping.pieces ∨ piece ∈ grouping.pending.finish token.span.start ∨
      ∃ closing opened start body, token.kind = .closing closing ∧
        grouping.pending = .region opened start body ∧
        piece = ⟨.region opened, ⟨start, token.span.stop⟩, ⟨body, token.span.start⟩, true⟩ := by
  have steps := steps_step grouping token
  generalize grouping.step token = later at steps member
  cases steps with
  | opens =>
      rcases Array.mem_append.mp member with earlier | finished
      · exact .inl earlier
      · exact .inr (.inl (by simpa using finished))
  | closes kind =>
      rcases Array.mem_push.mp member with earlier | rfl
      · exact .inl earlier
      · exact .inr (.inr ⟨_, _, _, _, kind, rfl, rfl⟩)
  | goesOn => exact .inl member

end Grouping

/-- No unfinished region is closed. -/
theorem not_closed_of_mem_finish {pending : Pending} {stop : Nat} {piece : Piece}
    {delimiter : Delimiter} (member : piece ∈ pending.finish stop)
    (kind : piece.kind = .region delimiter) : piece.closed = false := by
  cases pending with
  | nothing => cases member
  | text span =>
      obtain rfl := Option.some.inj member
      cases kind
  | region opened start body =>
      obtain rfl := Option.some.inj member
      rfl

end Piece

namespace Lexeme

theorem next_of_closing_tag {depth : Nat} {content : List UInt8} {byte : UInt8} {tail : List UInt8}
    {delimiter : Delimiter}
    (closes : (next (.region .tag depth content) byte tail).1.kind = .closing delimiter) :
    next (.region .tag depth content) byte tail = closing .tag byte content := by
  have takes := takesCode_ofCode .tag depth content byte tail
  rw [← next_code (by simp)] at takes
  generalize next (.region .tag depth content) byte tail = taken at takes closes
  cases takes with
  | quoted => cases closes
  | unclosed => cases closes
  | closes => rfl
  | opens => cases closes
  | runs => cases closes

/-- A verbatim keyword is found if and only if the content is the keyword, white space aside. -/
theorem verbatimKeyword?_eq_some_iff {content : List UInt8} {keyword : String}
    (known : keyword ∈ verbatimKeywords) :
    verbatimKeyword? content = some keyword ↔
      Blank.trim ((String.fromUTF8? ⟨content.toArray⟩).getD "").toList = keyword.toList := by
  constructor
  · exact fun found => (trim_of_verbatimKeyword? found).2
  · intro trimmed
    cases found : verbatimKeyword? content with
    | none =>
        rw [verbatimKeyword?, List.find?_eq_none] at found
        exact absurd (beq_iff_eq.mpr trimmed.symm) (found keyword known)
    | some other =>
        have same := (trim_of_verbatimKeyword? found).2
        rw [trimmed] at same
        rw [String.toList_inj.mp same]

theorem closing_tag_eq_verbatim_iff {byte : UInt8} {content : List UInt8} {keyword : String} :
    (closing .tag byte content).2 = .verbatim keyword ↔
      verbatimKeyword? content.reverse = some keyword := by
  rw [closing]
  simp only [if_true]
  cases verbatimKeyword? content.reverse <;> simp

end Lexeme

namespace Reads

open Piece

variable {source : Source} {taken : List Lexeme} {mode : Mode} {rest : List UInt8}

/-- The region that is being read is the piece that is being grouped. -/
theorem region?_pending {bytes : List UInt8} (reads : Reads .markup bytes taken mode rest) :
    (Grouping.ofLexemes taken).pending.region? = mode.region? := by
  induction taken using List.reverseRecOn generalizing mode rest with
  | nil =>
      obtain ⟨rfl, -⟩ := reads.of_nil
      rfl
  | append_singleton taken lexeme ih =>
      obtain ⟨middle, between, first, last⟩ := reads.exists_of_append
      obtain ⟨byte, tail, rfl, read, -⟩ := last.of_singleton
      have same := ih first
      obtain ⟨fits, region⟩ := fits_next middle byte tail
      rw [read, ← same] at fits region
      rw [Grouping.ofLexemes_append_singleton]
      exact (Grouping.region?_step fits).trans region.symm

/-- After the same length the mode is the same. -/
theorem mode_unique {start other : Mode} {bytes later : List UInt8} {lexemes more : List Lexeme}
    (first : Reads start bytes lexemes mode rest) (second : Reads start bytes more other later)
    (same : width lexemes = width more) : mode = other := by
  rcases first.compare second with ⟨further, rfl, reads⟩ | ⟨further, rfl, filled, -⟩
  · rw [width_append] at same
    have zero : width further = 0 := by omega
    obtain rfl := eq_nil_of_width zero
    exact reads.of_nil.1.symm
  · rw [width_append] at same
    exact absurd (eq_nil_of_width (by omega)) filled

/-- A closed tag piece ends with a closing delimiter that is read after the body of the piece. -/
theorem exists_closing_tag {piece : Piece} (reads : Reads .markup source.toList taken mode rest)
    (member : piece ∈ (Grouping.ofLexemes taken).pieces) (kind : piece.kind = .region .tag)
    (closed : piece.closed = true) :
    ∃ left later before after content byte,
      Reads .markup source.toList left (closing .tag byte content).2 later ∧
      width left = piece.span.stop ∧ source.toList = before ++ (content.reverse ++ after) ∧
      piece.body = ⟨before.length, before.length + content.reverse.length⟩ := by
  induction taken using List.reverseRecOn generalizing mode rest with
  | nil => simp [Grouping.ofLexemes, placeAll] at member
  | append_singleton taken lexeme ih =>
      obtain ⟨middle, between, first, last⟩ := reads.exists_of_append
      rw [Grouping.ofLexemes_append_singleton] at member
      rcases Grouping.mem_pieces_step_cases member with earlier | unfinished | found
      · exact ih first earlier
      · rw [not_closed_of_mem_finish unfinished kind] at closed
        cases closed
      · obtain ⟨delimiter, opened, start, body, closes, pending, rfl⟩ := found
        obtain rfl : opened = .tag := PieceKind.region.inj kind
        obtain ⟨front, split, long⟩ := first.exists_taken
        obtain ⟨byte, tail, rfl, read, -⟩ := last.of_singleton
        -- The tag that is grouped is the one that is being read.
        have region := first.region?_pending
        rw [pending] at region
        cases middle with
        | markup => cases region
        | verbatim keyword => cases region
        | region other depth content =>
            obtain rfl : Delimiter.tag = other := Option.some.inj region
            obtain ⟨before, begin, rfl, same⟩ := (coupled first split).tag depth content rfl
            rw [pending] at same
            obtain ⟨-, -, rfl⟩ := Pending.region.inj same
            have closing := next_of_closing_tag (by rw [read]; exact closes)
            rw [read] at closing
            refine ⟨taken ++ [lexeme], rest, before, byte :: tail, content, byte, ?_, ?_, ?_, ?_⟩
            · rw [← congrArg Prod.snd closing]
              exact reads
            · simp [place]
            · rw [split, List.append_assoc]
            · rw [← List.length_append, long]
              rfl

end Reads
end TwigTemplate
