import TwigTemplate.Proofs.Token.Code

/-!
# What a single lexeme can be

All that taking a lexeme can do, whatever the mode is: it opens a region, closes the one that is
open, or goes on with what is being read.
-/

namespace TwigTemplate
namespace Lexeme

/-- The ways in which a lexeme is taken, with the mode after it. -/
inductive Takes (mode : Mode) (byte : UInt8) (tail : List UInt8) : Lexeme × Mode → Prop
  /-- A region opens. -/
  | opens {delimiter : Delimiter} (opener : Delimiter.opener? (byte :: tail) = some delimiter) :
      Takes mode byte tail (opening delimiter tail)
  /-- The region closes. -/
  | closes {delimiter : Delimiter} {depth : Nat} {content inside : List UInt8}
      (region : mode = .region delimiter depth content)
      (closer : delimiter.startsClose (byte :: tail) = true)
      (code : delimiter ≠ .comment → inside = content) :
      Takes mode byte tail (closing delimiter byte inside)
  /-- Markup goes on. -/
  | markup (extra : Nat) : Takes mode byte tail (raw extra, .markup)
  /-- A comment goes on. -/
  | comment (extra : Nat) : Takes mode byte tail (raw extra, .region .comment 0 [])
  /-- A tag or an expression goes on. -/
  | code {delimiter : Delimiter} {depth : Nat} {content : List UInt8} (lexeme : Lexeme)
      (later : Nat) (region : mode = .region delimiter depth content)
      (inner : lexeme.kind = .raw ∨ lexeme.kind = .quoted) :
      Takes mode byte tail
        (lexeme, .region delimiter later ((tail.take lexeme.extra).reverseAux (byte :: content)))

theorem takes_ofMarkup (mode : Mode) (byte : UInt8) (tail : List UInt8) :
    Takes mode byte tail (ofMarkup byte tail) := by
  rw [ofMarkup]
  split
  · rename_i delimiter opener
    exact .opens opener
  · exact .markup _

theorem takes_ofCode (delimiter : Delimiter) (depth : Nat) (content : List UInt8) (byte : UInt8)
    (tail : List UInt8) :
    Takes (.region delimiter depth content) byte tail
      (ofCode delimiter depth content byte tail) := by
  -- What goes on with the region, with the bytes that it takes.
  have code (lexeme : Lexeme) (later : Nat) {taken rest : List UInt8}
      (split : tail = taken ++ rest) (long : lexeme.extra = taken.length)
      (inner : lexeme.kind = .raw ∨ lexeme.kind = .quoted) :
      Takes (.region delimiter depth content) byte tail
        (lexeme, .region delimiter later (taken.reverse ++ byte :: content)) := by
    have takes : Takes (.region delimiter depth content) byte tail _ :=
      .code lexeme later rfl inner
    rwa [long, split, List.take_left, List.reverseAux_eq, ← split] at takes
  have takes := takesCode_ofCode delimiter depth content byte tail
  generalize ofCode delimiter depth content byte tail = taken at takes
  cases takes with
  | @quoted inside rest =>
      exact code _ depth (List.append_cons inside byte rest) (by simp) (.inr rfl)
  | unclosed => exact code _ depth (List.append_nil _).symm rfl (.inl rfl)
  | closes _ closer => exact .closes rfl closer fun _ => rfl
  | opens opener => exact .opens opener
  | @runs run rest later => exact code _ later rfl rfl (.inl rfl)

theorem takes_next (mode : Mode) (byte : UInt8) (tail : List UInt8) :
    Takes mode byte tail (next mode byte tail) := by
  match mode with
  | .markup => exact takes_ofMarkup _ byte tail
  | .verbatim keyword =>
    rw [next, ofVerbatim]
    split
    · exact takes_ofMarkup _ byte tail
    · exact .markup _
  | .region .comment depth content =>
    rw [next, ofComment]
    split
    · rename_i closes
      exact .closes rfl closes (absurd rfl)
    · exact .comment _
  | .region .tag depth content => exact takes_ofCode .tag depth content byte tail
  | .region .expression depth content => exact takes_ofCode .expression depth content byte tail

section Taken

variable {mode : Mode} {byte : UInt8} {tail : List UInt8} {delimiter : Delimiter}

theorem ne_of_inner {kind : TokenKind} (inner : kind = .raw ∨ kind = .quoted)
    (delimiter : Delimiter) : kind ≠ .opening delimiter ∧ kind ≠ .closing delimiter := by
  rcases inner with rfl | rfl <;> simp

/-- A lexeme that opens a region is read as markup is. -/
theorem next_of_opening (opens : (next mode byte tail).1.kind = .opening delimiter) :
    Delimiter.opener? (byte :: tail) = some delimiter ∧
      next mode byte tail = next .markup byte tail := by
  have takes := takes_next mode byte tail
  generalize next mode byte tail = taken at opens takes ⊢
  cases takes with
  | opens opener =>
      obtain rfl := TokenKind.opening.inj opens
      refine ⟨opener, ?_⟩
      rw [next, ofMarkup, opener]
  | closes => cases opens
  | markup => cases opens
  | comment => cases opens
  | code _ _ _ inner => exact absurd opens (ne_of_inner inner delimiter).1

theorem mode_closing (delimiter : Delimiter) (byte : UInt8) (content : List UInt8) :
    (closing delimiter byte content).2 = .markup ∨
      delimiter = .tag ∧ ∃ keyword, verbatimKeyword? content.reverse = some keyword ∧
        (closing delimiter byte content).2 = .verbatim keyword := by
  rw [closing]
  dsimp only
  split
  · rename_i tag
    split
    · rename_i keyword found
      exact .inr ⟨tag, keyword, found, rfl⟩
    · exact .inl rfl
  · exact .inl rfl

/-- A lexeme that closes a region, and what follows it. -/
theorem startsClose_of_kind (closes : (next mode byte tail).1.kind = .closing delimiter) :
    delimiter.startsClose (byte :: tail) = true ∧
      ∃ inside, next mode byte tail = closing delimiter byte inside := by
  have takes := takes_next mode byte tail
  generalize next mode byte tail = taken at closes takes ⊢
  cases takes with
  | opens => cases closes
  | closes _ closer =>
      obtain rfl := TokenKind.closing.inj closes
      exact ⟨closer, _, rfl⟩
  | markup => cases closes
  | comment => cases closes
  | code _ _ _ inner => exact absurd closes (ne_of_inner inner delimiter).2

/-- A verbatim body begins after a tag with a verbatim keyword only. -/
theorem closing_of_verbatim {keyword : String}
    (after : (next mode byte tail).2 = .verbatim keyword) :
    ∃ depth content, mode = .region .tag depth content ∧
      next mode byte tail = closing .tag byte content ∧
      verbatimKeyword? content.reverse = some keyword := by
  have takes := takes_next mode byte tail
  generalize next mode byte tail = taken at after takes ⊢
  cases takes with
  | opens => cases after
  | @closes delimiter depth content inside region closer code =>
      rcases mode_closing delimiter byte inside with markup | ⟨rfl, other, found, verbatim⟩
      · rw [markup] at after
        cases after
      · obtain rfl := code (by simp)
        rw [verbatim, Mode.verbatim.injEq] at after
        exact ⟨depth, inside, region, rfl, after ▸ found⟩
  | markup => cases after
  | comment => cases after
  | code => cases after

/-- The inside of a tag begins after its opening delimiter and grows by what is read. -/
theorem content_of_tag {later : Nat} {inside : List UInt8}
    (after : (next mode byte tail).2 = .region .tag later inside) :
    ((next mode byte tail).1.kind = .opening .tag ∧ inside = []) ∨
      ∃ depth content, mode = .region .tag depth content ∧
        ((next mode byte tail).1.kind = .raw ∨ (next mode byte tail).1.kind = .quoted) ∧
        inside = (tail.take (next mode byte tail).1.extra).reverseAux (byte :: content) := by
  have takes := takes_next mode byte tail
  generalize next mode byte tail = taken at after takes ⊢
  cases takes with
  | opens =>
      cases after
      exact .inl ⟨rfl, rfl⟩
  | @closes delimiter depth content inside =>
      rcases mode_closing delimiter byte inside with markup | ⟨_, _, _, verbatim⟩
      · rw [markup] at after
        cases after
      · rw [verbatim] at after
        cases after
  | markup => cases after
  | comment => cases after
  | @code delimiter depth content lexeme later region inner =>
      cases after
      exact .inr ⟨depth, content, region, inner, rfl⟩

end Taken
end Lexeme
end TwigTemplate
