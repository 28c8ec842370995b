import TwigTemplate.Proofs.Token.Boundary
import TwigTemplate.Proofs.Token.Region

/-!
# The shape of a template's tokens

Tokens are not empty, follow each other without a gap and are cut between characters.  What a token
is tells how it is spelled and which tokens come before it.  A region that is cut off by another one
is not a comment, and the next region to open is of another kind.
-/

namespace TwigTemplate

open Lexeme

namespace Token

/-- The tokens follow each other from one offset to another, and none is empty. -/
def Covers : (start : Nat) → List Token → (stop : Nat) → Prop
  | start, [], stop => start = stop
  | start, token :: tokens, stop =>
    token.span.start = start ∧ start < token.span.stop ∧ Covers token.span.stop tokens stop

theorem covers_placeAll (start : Nat) (lexemes : List Lexeme) :
    Covers start (placeAll start lexemes) (start + width lexemes) := by
  induction lexemes generalizing start with
  | nil => rfl
  | cons lexeme lexemes ih =>
      refine ⟨rfl, Nat.lt_add_of_pos_right (Nat.succ_pos _), ?_⟩
      rw [width_cons, ← Nat.add_assoc]
      exact ih (start + lexeme.length)

end Token

namespace TokenKind

/-- A token of the kind may come after tokens of the kinds before it.  A closing delimiter ends the
region that it names, and a literal is inside a tag or an expression.  If a region has not been
closed when another one opens, it is no comment, and unless a third one has opened in between, the
other one is of another kind. -/
def Follows (before : List TokenKind) : TokenKind → Prop
  | opening other => ∀ earlier delimiter between,
    before = earlier ++ opening delimiter :: between → (∀ closed, closing closed ∉ between) →
      delimiter ≠ .comment ∧ ((∀ opened, opening opened ∉ between) → other ≠ delimiter)
  | closing delimiter => Inside delimiter before
  | quoted => ∃ delimiter, delimiter ≠ .comment ∧ Inside delimiter before
  | raw => True

theorem Fitting.follows {before : List TokenKind} {kind : TokenKind}
    (fitting : Fitting none (before ++ [kind])) : kind.Follows before := by
  obtain ⟨taken, fits, -⟩ := fitting_append_iff.mp fitting
  cases kind with
  | opening other =>
      rintro earlier delimiter between rfl unclosed
      rw [List.append_assoc, List.cons_append] at fitting
      obtain ⟨-, -, further⟩ := fitting_append_iff.mp fitting
      exact ⟨Fitting.ne_comment further unclosed, Fitting.ne_of_next further unclosed⟩
  | closing delimiter => exact taken.inside fits
  | quoted =>
      obtain ⟨delimiter, holds, code⟩ := fits
      exact ⟨delimiter, code, taken.inside holds⟩
  | raw => trivial

end TokenKind

/-- The bytes of a lexeme in a run are those of its token. -/
theorem Reads.spelled {source : Source} {final : Mode} {left right : List Lexeme} {lexeme : Lexeme}
    (reads : Reads .markup source.toList (left ++ lexeme :: right) final []) :
    lexeme.kind.Spells lexeme.trim (source.slice (lexeme.place (width left)).span) := by
  obtain ⟨middle, between, first, last⟩ := reads.exists_of_append
  obtain ⟨front, split, long⟩ := first.exists_taken
  cases last with
  | @step _ after _ byte tail _ _ _ taken further =>
      have fits : lexeme.extra ≤ tail.length := by
        have bound := next_extra_le middle byte tail
        rwa [taken] at bound
      have spelled := spelled_next middle byte tail
      rw [taken] at spelled
      have parts : source.toList =
          front ++ ((byte :: tail.take lexeme.extra) ++ tail.drop lexeme.extra) := by
        rw [split, List.cons_append, List.take_append_drop]
      have slice := Source.slice_of_split parts
      rw [List.length_cons, List.length_take, Nat.min_eq_left fits, long] at slice
      rw [place, length, slice]
      exact spelled

namespace Source

/-- The tokens of a template cover it, are cut between characters, are spelled as their kinds are,
and follow each other as the regions allow. -/
theorem tokens_shape (source : Source) :
    Token.Covers 0 source.tokens.toList source.size ∧
      ∀ before token after, source.tokens.toList = before ++ token :: after →
        (⟨token.span.start⟩ : String.Pos.Raw).IsValid source.text ∧
        (⟨token.span.stop⟩ : String.Pos.Raw).IsValid source.text ∧
        token.kind.Spells token.trim (source.slice token.span) ∧
        token.kind.Follows (before.map (·.kind)) := by
  obtain ⟨lexemes, final, reads⟩ := Reads.exists_to_end .markup source.toList
  rw [Source.toList_tokens reads]
  constructor
  · have size : source.size = 0 + width lexemes := by
      rw [Source.size_eq_length, reads.length_eq, List.length_nil, Nat.add_zero, Nat.zero_add]
    rw [size]
    exact Token.covers_placeAll 0 lexemes
  · intro before token after split
    obtain ⟨left, lexeme, right, rfl, rfl, rfl, -⟩ := exists_of_placeAll_eq split
    rw [Nat.zero_add, map_kind_placeAll]
    obtain ⟨_, _, first, -⟩ := reads.exists_of_append
    obtain ⟨_, _, upto, -⟩ :=
      (List.append_cons left lexeme right ▸ reads : Reads _ _ (left ++ [lexeme] ++ right) _ _)
        |>.exists_of_append
    refine ⟨first.isValid, ?_, reads.spelled, ?_⟩
    · have valid := upto.isValid
      rwa [width_append, width_cons, width_nil, Nat.add_zero] at valid
    · have fitting := upto.fitting
      rw [List.map_append] at fitting
      exact fitting.follows

/-- A closing delimiter with a trim mark after a literal with a character beyond ASCII. -/
theorem tokens_shape_after_literal :
    let source := Source.ofString "\x7b\x7b'é' -\x7d\x7d"
    let token : Token := ⟨.closing .expression, ⟨7, 10⟩, true⟩
    let before : List Token := [⟨.opening .expression, ⟨0, 2⟩, false⟩, ⟨.quoted, ⟨2, 6⟩, false⟩,
      ⟨.raw, ⟨6, 7⟩, false⟩]
    source.tokens.toList = before ++ token :: [] ∧
      (⟨7⟩ : String.Pos.Raw).IsValid source.text ∧ (⟨10⟩ : String.Pos.Raw).IsValid source.text ∧
      TokenKind.Spells true (source.slice ⟨7, 10⟩) (.closing .expression) ∧
      TokenKind.Follows (before.map (·.kind)) (.closing .expression) := by
  intro source token before
  have split : source.tokens.toList = before ++ token :: [] := by decide +kernel
  exact ⟨split, (tokens_shape source).2 before token [] split⟩

/-- A region may open again inside another one that cuts it off, so not every region that is still
open differs from the one that opens. -/
theorem reopened_region :
    let source := Source.ofString "\x7b\x7b \x7b% \x7b\x7b"
    ¬ ∀ earlier delimiter between other later,
      source.tokens.toList.map (·.kind) =
        earlier ++ .opening delimiter :: (between ++ .opening other :: later) →
      (∀ closed, .closing closed ∉ between) → delimiter ≠ .comment ∧ other ≠ delimiter := by
  intro source all
  have kinds : source.tokens.toList.map (·.kind) =
      [.opening .expression, .raw, .opening .tag, .raw, .opening .expression] := by decide +kernel
  have differ := all [] .expression [.raw, .opening .tag, .raw] .expression [] kinds (by simp)
  exact differ.2 rfl

end Source
end TwigTemplate
