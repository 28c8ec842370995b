import TwigTemplate.Proofs.Piece.Closed
import TwigTemplate.Proofs.Piece.Region
import TwigTemplate.Proofs.Relocation
import TwigTemplate.Proofs.Token.Exchange

/-!
# Pieces of two texts

Where no piece is pending between two parts of a text, the pieces of the first part are followed by
those of the second one, further on.
-/

namespace TwigTemplate

open Lexeme

/-- Opening delimiters are as long as their two bytes, at least. -/
def LongOpenings (lexemes : List Lexeme) : Prop :=
  ∀ lexeme ∈ lexemes, ∀ delimiter, lexeme.kind = .opening delimiter → 2 ≤ lexeme.length

theorem Reads.longOpenings {mode final : Mode} {bytes rest : List UInt8} {lexemes : List Lexeme}
    (reads : Reads mode bytes lexemes final rest) : LongOpenings lexemes := by
  induction reads with
  | done => exact fun _ member => absurd member (List.not_mem_nil)
  | @step mode after final byte tail rest lexeme lexemes taken _ ih =>
      intro other member delimiter opens
      rcases List.mem_cons.mp member with rfl | further
      · obtain ⟨opener, same⟩ := next_of_opening (by rw [taken]; exact opens)
        have read : next mode byte tail = opening delimiter tail := by
          rw [same, next, ofMarkup, opener]
        have same_lexeme : other = (opening delimiter tail).1 := by rw [← read, taken]
        rw [same_lexeme, opening, length]
        dsimp only
        split <;> omega
      · exact ih other further delimiter opens

namespace Piece

variable (count offset : Nat)

/-- The pending piece further on in the text. -/
def Pending.shift (offset : Nat) : Pending → Pending
  | nothing => nothing
  | text span => text ⟨offset + span.start, offset + span.stop⟩
  | region delimiter start body => region delimiter (offset + start) (offset + body)

namespace Pending

theorem finish_shift (stop : Nat) (pending : Pending) :
    (pending.shift offset).finish (offset + stop) =
      (pending.finish stop).map (·.relocate (.shift count offset)) := by
  cases pending <;> rfl

theorem extend_shift (pending : Pending) (token : Token) :
    (pending.shift offset).extend (token.shift offset).span =
      (pending.extend token.span).shift offset := by
  cases pending <;> rfl

end Pending

namespace Grouping

/-- The grouping further on in the text, after pieces that are finished. -/
def behind (before : Array Piece) (grouping : Grouping) : Grouping :=
  ⟨before ++ grouping.pieces.map (·.relocate (.shift count offset)), grouping.pending.shift offset⟩

theorem step_behind (before : Array Piece) (grouping : Grouping) (token : Token) :
    (grouping.behind count offset before).step (token.shift offset) =
      (grouping.step token).behind count offset before := by
  obtain ⟨pieces, pending⟩ := grouping
  have kind_eq : (token.shift offset).kind = token.kind := rfl
  have extended : Grouping.mk (before ++ pieces.map (·.relocate (.shift count offset)))
      ((pending.shift offset).extend (token.shift offset).span) =
        (Grouping.mk pieces (pending.extend token.span)).behind count offset before := by
    rw [Pending.extend_shift]
    rfl
  rw [step, step, kind_eq]
  cases token.kind with
  | opening delimiter =>
      have finished := Pending.finish_shift count offset token.span.start pending
      simp only [behind, Token.shift, finished, Array.map_append, Array.append_assoc]
      cases pending.finish token.span.start <;> simp [Pending.shift]
  | closing delimiter =>
      cases pending with
      | nothing => exact extended
      | text span => exact extended
      | region opened start body =>
          simp only [behind, Array.map_push, Array.append_push]
          rfl
  | quoted => exact extended
  | raw => exact extended

theorem foldl_behind (before : Array Piece) (grouping : Grouping) (tokens : List Token) :
    (tokens.map (Token.shift offset)).foldl step (grouping.behind count offset before) =
      (tokens.foldl step grouping).behind count offset before := by
  induction tokens generalizing grouping with
  | nil => rfl
  | cons token tokens ih => rw [List.map_cons, List.foldl_cons, step_behind, ih, List.foldl_cons]

/-- Where no piece is pending, grouping starts anew. -/
theorem ofLexemes_append {left : List Lexeme} (none : (ofLexemes left).pending = .nothing)
    (right : List Lexeme) :
    ofLexemes (left ++ right) =
      (ofLexemes right).behind count (width left) (ofLexemes left).pieces := by
  have start : (Grouping.mk #[] .nothing).behind count (width left) (ofLexemes left).pieces =
      ofLexemes left := by
    rw [behind, Array.map_empty, Array.append_empty, Pending.shift, ← none]
  have placed : placeAll (0 + width left) right =
      (placeAll 0 right).map (Token.shift (width left)) := by
    rw [shift_placeAll, Nat.add_comm]
  calc
    ofLexemes (left ++ right) =
        ((placeAll 0 right).map (Token.shift (width left))).foldl step (ofLexemes left) := by
      rw [← placed, ofLexemes, placeAll_append, List.foldl_append, ← ofLexemes]
    _ = (ofLexemes right).behind count (width left) (ofLexemes left).pieces := by
      conv =>
        lhs
        rw [← start]
      exact foldl_behind count (width left) _ _ _

end Grouping

/-- Where no piece is pending, the pieces of both parts follow each other. -/
theorem ofLexemes_append {left : List Lexeme}
    (none : (Grouping.ofLexemes left).pending = .nothing) (right : List Lexeme) :
    ofLexemes (left ++ right) =
      ofLexemes left ++ (ofLexemes right).map (·.relocate (.shift count (width left))) := by
  have finished : (Grouping.ofLexemes left).pending.finish (width left) = .none := by
    rw [none, Pending.finish]
  have unfinished := Pending.finish_shift count (width left) (width right)
    (Grouping.ofLexemes right).pending
  rw [ofLexemes, ofLexemes, ofLexemes, Grouping.ofLexemes_append count none, finished, width_append,
    Grouping.behind, unfinished]
  cases (Grouping.ofLexemes right).pending.finish (width right) <;> simp

/-! ### Regions hold their opening delimiter -/

/-- The body of the region begins behind the two bytes of the opening delimiter, at least. -/
def HoldsOpening (piece : Piece) : Prop :=
  piece.kind ≠ .text → piece.span.start + 2 ≤ piece.body.start

/-- What is known of the pending piece: it holds its opening delimiter. -/
def Pending.HoldsOpening : Pending → Prop
  | region _ start body => start + 2 ≤ body
  | _ => True

theorem Pending.HoldsOpening.finish {pending : Pending} (holds : pending.HoldsOpening)
    {stop : Nat} {piece : Piece} (member : piece ∈ pending.finish stop) : piece.HoldsOpening := by
  cases pending with
  | nothing => cases member
  | text span =>
      obtain rfl := Option.some.inj member
      exact absurd rfl
  | region delimiter start body =>
      obtain rfl := Option.some.inj member
      exact fun _ => holds

theorem Grouping.holdsOpening {lexemes : List Lexeme} (long : LongOpenings lexemes) :
    (∀ piece ∈ (ofLexemes lexemes).pieces, piece.HoldsOpening) ∧
      (ofLexemes lexemes).pending.HoldsOpening := by
  induction lexemes using List.reverseRecOn with
  | nil => exact ⟨by simp [ofLexemes, placeAll], trivial⟩
  | append_singleton lexemes lexeme ih =>
      obtain ⟨finished, unfinished⟩ := ih fun other member =>
        long other (List.mem_append_left _ member)
      rw [ofLexemes_append_singleton]
      have steps := steps_step (ofLexemes lexemes) (lexeme.place (width lexemes))
      generalize (ofLexemes lexemes).step (lexeme.place (width lexemes)) = later at steps ⊢
      generalize ofLexemes lexemes = earlier at steps finished unfinished
      cases steps with
      | opens kind =>
          have two := long lexeme (by simp) _ kind
          refine ⟨fun piece member => ?_, Nat.add_le_add_left two _⟩
          rcases Array.mem_append.mp member with before | ended
          · exact finished piece before
          · exact unfinished.finish (by simpa using ended)
      | closes =>
          refine ⟨fun piece member => ?_, trivial⟩
          rcases Array.mem_push.mp member with before | rfl
          · exact finished piece before
          · exact fun _ => unfinished
      | @goesOn _ pending => exact ⟨finished, by cases pending <;> exact unfinished⟩

/-- All regions of a text hold their opening delimiter. -/
theorem holdsOpening_ofLexemes {lexemes : List Lexeme} (long : LongOpenings lexemes) {piece : Piece}
    (member : piece ∈ ofLexemes lexemes) : piece.HoldsOpening := by
  obtain ⟨finished, unfinished⟩ := Grouping.holdsOpening long
  rcases List.mem_append.mp member with earlier | last
  · exact finished piece (Array.mem_toList_iff.mp earlier)
  · exact unfinished.finish (Option.mem_toList.mp last)

/-- A region is as long as the two bytes that open it, at least. -/
theorem long_of_mem_ofLexemes {lexemes : List Lexeme} (long : LongOpenings lexemes) {piece : Piece}
    (member : piece ∈ ofLexemes lexemes) (region : piece.kind ≠ .text) :
    piece.span.start + 2 ≤ piece.span.stop := by
  have fits := (covers_ofLexemes lexemes).fits member
  have begun := holdsOpening_ofLexemes long member region
  exact Nat.le_trans begun (Nat.le_trans fits.body_le fits.stop_le)

/-! ### Texts that end with a region -/

/-- The region that is closed last is closed by the last lexeme. -/
theorem exists_closing_of_ofLexemes {lexemes : List Lexeme} {before : List Piece} {piece : Piece}
    (split : ofLexemes lexemes = before ++ [piece]) (region : piece.kind ≠ .text)
    (closed : piece.closed = true) :
    (∃ lexeme ∈ lexemes.getLast?, ∃ delimiter, lexeme.kind = .closing delimiter) ∧
      (Grouping.ofLexemes lexemes).pending = .nothing := by
  -- Nothing but a closed region leaves a piece that is closed and no text.
  have finished : (Grouping.ofLexemes lexemes).pending = .nothing := by
    rw [ofLexemes] at split
    cases pending : (Grouping.ofLexemes lexemes).pending with
    | nothing => rfl
    | text span =>
        rw [pending, Pending.finish, Option.toList_some] at split
        obtain rfl := List.singleton_inj.mp (List.append_inj' split rfl).2
        exact absurd rfl region
    | region delimiter start body =>
        rw [pending, Pending.finish, Option.toList_some] at split
        obtain rfl := List.singleton_inj.mp (List.append_inj' split rfl).2
        cases closed
  refine ⟨?_, finished⟩
  rcases List.eq_nil_or_concat lexemes with rfl | ⟨others, lexeme, rfl⟩
  · simp [ofLexemes, Grouping.ofLexemes, placeAll, Pending.finish] at split
  · rw [List.concat_eq_append] at finished ⊢
    obtain ⟨delimiter, _, _, _, closes, -⟩ := Grouping.exists_closing_of_nothing finished
    exact ⟨lexeme, by simp, delimiter, closes⟩

end Piece

namespace Source

open Piece

/-- The text ends with a closed region that is no verbatim tag. -/
def EndsRegion (source : Source) : Prop :=
  ∃ last ∈ (group source.tokens).back?,
    last.kind ≠ .text ∧ last.closed = true ∧ ¬ last.OpensVerbatim source

instance (source : Source) : Decidable source.EndsRegion :=
  decidable_of_iff ((group source.tokens).back?.any fun last =>
      decide (last.kind ≠ .text ∧ last.closed = true ∧ ¬ last.OpensVerbatim source)) (by
    simp [EndsRegion, Option.any_eq_true])

/-- Another text after this one, which has these lexemes, is read as it is by itself, and no piece
reaches over the seam. -/
structure Seam (source : Source) (lexemes : List Lexeme) : Prop where
  /-- Whatever follows is read as markup from the beginning. -/
  reads : ∀ back, Reads .markup (source.toList ++ back) lexemes .markup back
  /-- No piece is pending. -/
  finished : (Grouping.ofLexemes lexemes).pending = .nothing
  /-- No region is cut off at the end of the text. -/
  closed : ∀ piece ∈ ofLexemes lexemes, piece.span.stop = source.size → piece.closed = true

namespace Seam

variable {source : Source} {lexemes : List Lexeme} (seam : source.Seam lexemes)
include seam

theorem reads_alone : Reads .markup source.toList lexemes .markup [] := by
  have reads := seam.reads []
  rwa [List.append_nil] at reads

theorem pieces_eq : (group source.tokens).toList = ofLexemes lexemes :=
  toList_group_tokens seam.reads_alone

theorem width_eq : width lexemes = source.size :=
  width_eq_size seam.reads_alone

end Seam

/-- There is a seam at the beginning, and after a closed region that is no verbatim tag. -/
theorem exists_seam {source : Source} (ends : source.text = "" ∨ source.EndsRegion) :
    ∃ lexemes, source.Seam lexemes := by
  obtain ⟨lexemes, final, reads⟩ := Reads.exists_to_end .markup source.toList
  have wide : width lexemes = source.size := width_eq_size reads
  refine ⟨lexemes, ?_⟩
  rcases ends with empty | ⟨last, is_last, region, closed, plain⟩
  · have nothing : source.toList = [] := by
      rw [toList, source.bytes_eq, empty]
      rfl
    rw [nothing] at reads
    cases reads
    refine ⟨fun back => ?_, rfl, by simp [ofLexemes, Grouping.ofLexemes, placeAll, Pending.finish]⟩
    rw [nothing]
    exact .done _ _
  · rw [← Array.getLast?_toList, toList_group_tokens reads] at is_last
    obtain ⟨before, split⟩ := List.getLast?_eq_some_iff.mp is_last
    obtain ⟨⟨lexeme, ends, delimiter, closes⟩, finished⟩ :=
      exists_closing_of_ofLexemes split region closed
    -- No other piece ends where the text ends.
    have only : ∀ piece ∈ ofLexemes lexemes, piece.span.stop = source.size → piece = last := by
      intro piece member stop
      have covers := covers_ofLexemes lexemes
      rw [split] at covers member
      obtain ⟨middle, first, rfl, fits, stop_eq⟩ := Covers.append_iff.mp covers
      have stop_eq : last.span.stop = width lexemes := stop_eq
      rcases List.mem_append.mp member with earlier | same
      · have bounds := first.bounds earlier
        have filled := fits.start_lt
        omega
      · exact List.mem_singleton.mp same
    have markup : final = .markup := by
      obtain ⟨byte, inside, mode⟩ := Reads.exists_mode_closing
        ((List.append_nil source.toList).symm ▸ reads) ends closes
      rcases mode_closing delimiter byte inside with markup | ⟨-, keyword, -, verbatim⟩
      · exact mode.symm.trans markup
      · have coupled := reads.coupled (List.append_nil source.toList).symm
        obtain ⟨piece, member, stop, opens⟩ := coupled.verbatim keyword (mode.symm.trans verbatim)
        have among : piece ∈ ofLexemes lexemes :=
          List.mem_append_left _ (Array.mem_toList_iff.mpr member)
        exact absurd (only piece among (stop.trans wide) ▸ opens) plain
    refine ⟨?_, finished, ?_⟩
    · intro back
      exact markup ▸ reads.append_of_closing ends closes back
    · intro piece member stop
      rw [only piece member stop, closed]

end Source
end TwigTemplate
