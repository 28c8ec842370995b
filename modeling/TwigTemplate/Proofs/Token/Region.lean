import Mathlib.Data.List.Induction
import TwigTemplate.Proofs.Token.Takes

/-!
# Which tokens a region holds

The kinds of the tokens alone tell which region is open after them.  In which region a token may
stand is a condition on one kind and that region; every step of the reader meets it, and so does
every token of a run.
-/

namespace TwigTemplate

open Lexeme

namespace Mode

/-- The region that is open. -/
def region? : Mode → Option Delimiter
  | region delimiter _ _ => some delimiter
  | _ => none

end Mode

namespace TokenKind

/-- The region that is open after a token of the kind. -/
def regionAfter (region : Option Delimiter) : TokenKind → Option Delimiter
  | opening delimiter => some delimiter
  | closing _ => none
  | quoted => region
  | raw => region

/-- A token of the kind may stand where the region is open. -/
def FitsIn (region : Option Delimiter) : TokenKind → Prop
  | opening other => ∀ delimiter ∈ region, delimiter ≠ .comment ∧ other ≠ delimiter
  | closing delimiter => region = some delimiter
  | quoted => ∃ delimiter ∈ region, delimiter ≠ .comment
  | raw => True

/-- Every token fits into the region that is open before it. -/
def Fitting : Option Delimiter → List TokenKind → Prop
  | _, [] => True
  | region, kind :: kinds => kind.FitsIn region ∧ Fitting (kind.regionAfter region) kinds

/-- The last of the regions that open is of the delimiter and goes on to the end. -/
def Inside (delimiter : Delimiter) (kinds : List TokenKind) : Prop :=
  ∃ earlier between, kinds = earlier ++ opening delimiter :: between ∧
    ∀ kind ∈ between, kind = raw ∨ kind = quoted ∧ delimiter ≠ .comment

section Fitting

variable {region : Option Delimiter} {delimiter other : Delimiter}
  {left right between kinds : List TokenKind} {kind : TokenKind}

theorem fitting_append_iff :
    Fitting region (left ++ right) ↔
      Fitting region left ∧ Fitting (left.foldl regionAfter region) right := by
  induction left generalizing region with
  | nil => simp [Fitting]
  | cons kind left ih => simp [Fitting, ih, and_assoc]

theorem Inside.snoc (inside : Inside delimiter kinds)
    (inner : kind = raw ∨ kind = quoted ∧ delimiter ≠ .comment) :
    Inside delimiter (kinds ++ [kind]) := by
  obtain ⟨earlier, between, rfl, all⟩ := inside
  refine ⟨earlier, between ++ [kind], by simp, ?_⟩
  intro last member
  rcases List.mem_append.mp member with member | member
  · exact all last member
  · obtain rfl := List.mem_singleton.mp member
    exact inner

/-- The region that is open has been opened, and only what it may hold has come since. -/
theorem Fitting.inside (fitting : Fitting none kinds)
    (opened : kinds.foldl regionAfter none = some delimiter) : Inside delimiter kinds := by
  induction kinds using List.reverseRecOn with
  | nil => cases opened
  | append_singleton kinds kind ih =>
      obtain ⟨before, fits, -⟩ := fitting_append_iff.mp fitting
      rw [List.foldl_append, List.foldl_cons, List.foldl_nil] at opened
      cases kind with
      | opening other =>
          obtain rfl := Option.some.inj opened
          exact ⟨kinds, [], rfl, by simp⟩
      | closing other => cases opened
      | quoted =>
          have same : kinds.foldl regionAfter none = some delimiter := opened
          obtain ⟨found, holds, code⟩ := fits
          rw [same] at holds
          obtain rfl := Option.some.inj holds
          exact (ih before same).snoc (.inr ⟨rfl, code⟩)
      | raw => exact (ih before opened).snoc (.inl rfl)

/-- Within a comment no region opens. -/
theorem Fitting.ne_comment (fitting : Fitting (some delimiter) (between ++ [opening other]))
    (unclosed : ∀ closed, closing closed ∉ between) : delimiter ≠ .comment := by
  induction between with
  | nil => exact (fitting.1 delimiter rfl).1
  | cons kind between ih =>
      obtain ⟨fits, further⟩ := fitting
      cases kind with
      | opening inner => exact (fits delimiter rfl).1
      | closing closed => exact absurd List.mem_cons_self (unclosed closed)
      | quoted =>
          obtain ⟨found, holds, code⟩ := fits
          obtain rfl := Option.some.inj holds
          exact code
      | raw => exact ih further fun closed => mt (List.mem_cons_of_mem _) (unclosed closed)

/-- The region that opens next is another one. -/
theorem Fitting.ne_of_next (fitting : Fitting (some delimiter) (between ++ [opening other]))
    (unclosed : ∀ closed, closing closed ∉ between)
    (unopened : ∀ opened, opening opened ∉ between) : other ≠ delimiter := by
  induction between with
  | nil => exact (fitting.1 delimiter rfl).2
  | cons kind between ih =>
      simp only [List.mem_cons, not_or] at unclosed unopened
      have further : Fitting (kind.regionAfter (some delimiter)) (between ++ [opening other]) :=
        fitting.2
      have rest_unclosed := fun closed => (unclosed closed).2
      have rest_unopened := fun opened => (unopened opened).2
      cases kind with
      | opening opened => exact absurd rfl (unopened opened).1
      | closing closed => exact absurd rfl (unclosed closed).1
      | quoted => exact ih further rest_unclosed rest_unopened
      | raw => exact ih further rest_unclosed rest_unopened

end Fitting
end TokenKind

namespace Lexeme

/-- The lexeme fits into the region that is open, and the mode after it knows the region that is
open then. -/
def Fits (region : Option Delimiter) (taken : Lexeme × Mode) : Prop :=
  taken.1.kind.FitsIn region ∧ taken.2.region? = taken.1.kind.regionAfter region

theorem fits_raw {region : Option Delimiter} {mode : Mode} (same : mode.region? = region)
    (extra : Nat) : Fits region (raw extra, mode) := ⟨trivial, same⟩

theorem fits_opening {region : Option Delimiter} {delimiter : Delimiter}
    (free : ∀ outer ∈ region, outer ≠ .comment ∧ delimiter ≠ outer) (tail : List UInt8) :
    Fits region (opening delimiter tail) := ⟨free, rfl⟩

theorem fits_closing (delimiter : Delimiter) (byte : UInt8) (content : List UInt8) :
    Fits (some delimiter) (closing delimiter byte content) := by
  refine ⟨rfl, ?_⟩
  rcases mode_closing delimiter byte content with markup | ⟨_, keyword, _, verbatim⟩
  · rw [markup]
    rfl
  · rw [verbatim]
    rfl

theorem fits_ofMarkup (byte : UInt8) (tail : List UInt8) : Fits none (ofMarkup byte tail) := by
  rw [ofMarkup]
  split
  · exact fits_opening (by simp) tail
  · exact fits_raw rfl _

theorem fits_ofCode {delimiter : Delimiter} (code : delimiter ≠ .comment) (depth : Nat)
    (content : List UInt8) (byte : UInt8) (tail : List UInt8) :
    Fits (some delimiter) (ofCode delimiter depth content byte tail) := by
  have takes := takesCode_ofCode delimiter depth content byte tail
  generalize ofCode delimiter depth content byte tail = taken at takes
  cases takes with
  | quoted => exact ⟨⟨delimiter, rfl, code⟩, rfl⟩
  | unclosed => exact fits_raw rfl _
  | closes => exact fits_closing delimiter byte content
  | opens _ differs =>
      refine fits_opening ?_ tail
      rintro outer ⟨⟩
      exact ⟨code, differs⟩
  | runs => exact fits_raw rfl _

/-- Every step of the reader fits into the region that is open. -/
theorem fits_next (mode : Mode) (byte : UInt8) (tail : List UInt8) :
    Fits mode.region? (next mode byte tail) := by
  match mode with
  | .markup => exact fits_ofMarkup byte tail
  | .verbatim keyword =>
    rw [next, ofVerbatim]
    split
    · exact fits_ofMarkup byte tail
    · exact fits_raw rfl _
  | .region .comment depth content =>
    rw [next, ofComment]
    split
    · exact fits_closing .comment byte []
    · exact fits_raw rfl _
  | .region .tag depth content => exact fits_ofCode (by simp) depth content byte tail
  | .region .expression depth content => exact fits_ofCode (by simp) depth content byte tail

/-- Nothing but runs and literals: what the body of a region holds. -/
def Interior (lexemes : List Lexeme) : Prop :=
  ∀ lexeme ∈ lexemes, lexeme.kind = .raw ∨ lexeme.kind = .quoted

end Lexeme

/-- Every token of a run fits into the region that is open before it. -/
theorem Reads.fitting {mode final : Mode} {bytes rest : List UInt8} {lexemes : List Lexeme}
    (reads : Reads mode bytes lexemes final rest) :
    TokenKind.Fitting mode.region? (lexemes.map (·.kind)) := by
  induction reads with
  | done => trivial
  | @step mode after final byte tail rest lexeme lexemes taken further ih =>
      obtain ⟨fits, region⟩ := fits_next mode byte tail
      rw [taken] at fits region
      exact ⟨fits, region ▸ ih⟩

end TwigTemplate
