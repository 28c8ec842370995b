import TwigTemplate.Proofs.Piece.Cover
import TwigTemplate.Proofs.Token.Region

/-!
# Regions among lexemes

A region piece begins with the lexeme that opens it and goes on over runs and literals, up to a
closing delimiter, to the opening one of another region, or to the end of the template.
-/

namespace TwigTemplate

open Lexeme

namespace Piece

variable {taken inner : List Lexeme} {lexeme : Lexeme} {delimiter : Delimiter} {start body : Nat}

namespace Grouping

theorem ofLexemes_append_opening (left : List Lexeme) (opens : lexeme.kind = .opening delimiter) :
    ofLexemes (left ++ [lexeme]) =
      ⟨(Piece.ofLexemes left).toArray,
        .region delimiter (width left) (width left + lexeme.length)⟩ := by
  have kind_eq : (lexeme.place (width left)).kind = lexeme.kind := rfl
  rw [ofLexemes_append_singleton, step, kind_eq, opens, Piece.ofLexemes]
  simp [place]

/-- What a region holds leaves it pending. -/
theorem ofLexemes_append_inner (pending : (ofLexemes taken).pending = .region delimiter start body)
    (within : Interior inner) : ofLexemes (taken ++ inner) = ofLexemes taken := by
  induction inner using List.reverseRecOn with
  | nil => rw [List.append_nil]
  | append_singleton inner lexeme ih =>
      rw [Interior, List.forall_mem_append] at within
      have same := ih within.1
      have kind_eq : (lexeme.place (width (taken ++ inner))).kind = lexeme.kind := rfl
      rw [← List.append_assoc, ofLexemes_append_singleton, same]
      generalize ofLexemes taken = grouping at pending
      obtain ⟨pieces, waiting⟩ := grouping
      obtain rfl : waiting = .region delimiter start body := pending
      rw [step, kind_eq]
      rcases within.2 lexeme (by simp) with raw | quoted
      · rw [raw]
        rfl
      · rw [quoted]
        rfl

/-- A pending region began with an opening delimiter, behind all finished pieces. -/
theorem exists_opening (pending : (ofLexemes taken).pending = .region delimiter start body) :
    ∃ left lexeme inner, taken = left ++ lexeme :: inner ∧ lexeme.kind = .opening delimiter ∧
      Interior inner ∧ start = width left ∧ body = width left + lexeme.length ∧
      (ofLexemes taken).pieces.toList = Piece.ofLexemes left := by
  induction taken using List.reverseRecOn with
  | nil => cases pending
  | append_singleton taken lexeme ih =>
      have steps := steps_step (ofLexemes taken) (lexeme.place (width taken))
      rw [← ofLexemes_append_singleton] at steps
      generalize grouped : ofLexemes (taken ++ [lexeme]) = later at steps pending ⊢
      generalize ofLexemes taken = earlier at steps ih
      cases steps with
      | opens kind =>
          obtain ⟨rfl, rfl, rfl⟩ := Pending.region.inj pending
          refine ⟨taken, lexeme, [], rfl, kind, by simp [Interior], rfl, rfl, ?_⟩
          rw [← grouped, ofLexemes_append_opening taken kind]
      | closes => cases pending
      | @goesOn _ waiting inner outside =>
          cases waiting with
          | nothing => cases pending
          | text span => cases pending
          | region opened first second =>
              -- Only a run or a literal goes on with a region.
              have kind : lexeme.kind = .raw ∨ lexeme.kind = .quoted := by
                cases kind : lexeme.kind with
                | opening delimiter => exact absurd kind (inner delimiter)
                | closing delimiter => exact absurd rfl (outside delimiter _ _ _ kind)
                | quoted => exact .inr rfl
                | raw => exact .inl rfl
              obtain ⟨rfl, rfl, rfl⟩ := Pending.region.inj pending
              obtain ⟨left, opener, between, rfl, opens, within, rfl, rfl, finished⟩ := ih rfl
              refine ⟨left, opener, between ++ [lexeme], by simp, opens, ?_, rfl, rfl, finished⟩
              exact List.forall_mem_append.mpr ⟨within, by simpa using kind⟩

/-- Nothing is pending only where a region has just been closed. -/
theorem exists_closing_of_nothing (nothing : (ofLexemes (taken ++ [lexeme])).pending = .nothing) :
    ∃ closing opened start body, lexeme.kind = .closing closing ∧
      (ofLexemes taken).pending = .region opened start body := by
  have steps := steps_step (ofLexemes taken) (lexeme.place (width taken))
  rw [← ofLexemes_append_singleton] at steps
  generalize ofLexemes (taken ++ [lexeme]) = later at steps nothing
  generalize ofLexemes taken = earlier at steps
  cases steps with
  | opens => cases nothing
  | closes kind => exact ⟨_, _, _, _, kind, rfl⟩
  | @goesOn _ pending => cases pending <;> cases nothing

end Grouping

/-- A region that is not closed is the last piece. -/
theorem ofLexemes_opening (left : List Lexeme) (opens : lexeme.kind = .opening delimiter)
    (within : Interior inner) :
    ofLexemes (left ++ lexeme :: inner) = ofLexemes left ++
      [⟨.region delimiter, ⟨width left, width (left ++ lexeme :: inner)⟩,
        ⟨width left + lexeme.length, width (left ++ lexeme :: inner)⟩, false⟩] := by
  have opened := Grouping.ofLexemes_append_opening left opens
  have pending : (Grouping.ofLexemes (left ++ [lexeme])).pending =
      .region delimiter (width left) (width left + lexeme.length) := by rw [opened]
  rw [ofLexemes, List.append_cons, Grouping.ofLexemes_append_inner pending within, opened]
  rfl

/-- The lexemes of a region piece: first the one that opens it, then those of its body. -/
structure OpensAt (lexemes left inner rest : List Lexeme) (lexeme : Lexeme)
    (delimiter : Delimiter) (piece : Piece) : Prop where
  /-- The lexemes are those before the piece, those of the piece, and others. -/
  split : lexemes = left ++ lexeme :: (inner ++ rest)
  /-- The piece is opened. -/
  opens : lexeme.kind = .opening delimiter
  /-- The body holds runs and literals. -/
  within : Interior inner
  /-- The piece begins where it is opened. -/
  start_eq : piece.span.start = width left
  /-- The body begins behind the opening delimiter. -/
  body_eq : piece.body.start = width left + lexeme.length
  /-- The body ends with the last run or literal. -/
  stop_eq : piece.body.stop = width (left ++ lexeme :: inner)
  /-- A closed piece is closed by the next lexeme. -/
  closed : piece.closed = true → ∃ closer more closing, rest = closer :: more ∧
    closer.kind = .closing closing ∧
      piece.span.stop = width (left ++ lexeme :: inner) + closer.length
  /-- A piece that is not closed ends with its body. -/
  unclosed : piece.closed = false → piece.span.stop = piece.body.stop

/-- A region piece is opened behind the pieces before it. -/
theorem exists_opensAt {lexemes : List Lexeme} {before after : List Piece} {piece : Piece}
    (split : ofLexemes lexemes = before ++ piece :: after)
    (kind : piece.kind = .region delimiter) :
    ∃ left inner rest lexeme, ofLexemes left = before ∧
      OpensAt lexemes left inner rest lexeme delimiter piece := by
  obtain ⟨taken, rest, rfl, -, last⟩ := exists_ofLexemes_eq split
  rw [ofLexemes] at last
  cases pending : (Grouping.ofLexemes taken).pending with
  | text span =>
      rw [pending, Pending.finish, Option.toList_some] at last
      obtain rfl := List.singleton_inj.mp (List.append_inj' last rfl).2
      cases kind
  | region opened start body =>
      obtain ⟨left, lexeme, inner, rfl, opens, within, rfl, rfl, finished⟩ :=
        Grouping.exists_opening pending
      rw [pending, finished, Pending.finish, Option.toList_some] at last
      obtain ⟨rfl, same⟩ := List.append_inj' last rfl
      obtain rfl := List.singleton_inj.mp same
      obtain rfl := PieceKind.region.inj kind
      exact ⟨left, inner, rest, lexeme, rfl,
        ⟨by simp, opens, within, rfl, rfl, rfl, by simp, fun _ => rfl⟩⟩
  | nothing =>
      rw [pending, Pending.finish, Option.toList_none, List.append_nil] at last
      rcases List.eq_nil_or_concat taken with rfl | ⟨others, closer, rfl⟩
      · simp [Grouping.ofLexemes, placeAll] at last
      rw [List.concat_eq_append] at pending last ⊢
      obtain ⟨closed, opened, start, body, closes, earlier⟩ :=
        Grouping.exists_closing_of_nothing pending
      obtain ⟨left, lexeme, inner, rfl, opens, within, rfl, rfl, finished⟩ :=
        Grouping.exists_opening earlier
      have placed : (closer.place (width (left ++ lexeme :: inner))).kind = .closing closed :=
        closes
      rw [Grouping.ofLexemes_append_singleton, Grouping.step_of_closing placed earlier,
        Array.toList_push] at last
      obtain ⟨same, alone⟩ := List.append_inj' last rfl
      obtain rfl := List.singleton_inj.mp alone
      obtain rfl := PieceKind.region.inj kind
      exact ⟨left, inner, closer :: rest, lexeme, finished.symm.trans same,
        ⟨by simp, opens, within, rfl, rfl, rfl,
          fun _ => ⟨closer, rest, closed, rfl, closes, rfl⟩, by simp⟩⟩

/-- The body of a region is what its runs and literals take. -/
theorem OpensAt.exists_body {bytes : List UInt8} {lexemes left inner rest : List Lexeme}
    {lexeme : Lexeme} {delimiter : Delimiter} {piece : Piece} {final : Mode}
    (region : OpensAt lexemes left inner rest lexeme delimiter piece)
    (reads : Reads .markup bytes lexemes final []) :
    ∃ earlier front remains after, bytes = earlier ++ (front ++ remains) ∧
      piece.body = ⟨earlier.length, earlier.length + front.length⟩ ∧
      Reads (.region delimiter 0 []) (front ++ remains) inner after remains ∧
      Reads after remains rest final [] := by
  obtain ⟨rfl, opens, -, -, body_eq, stop_eq, -⟩ := region
  obtain ⟨middle, between, first, further⟩ := reads.exists_of_append
  obtain ⟨before, rfl, long⟩ := first.exists_taken
  cases further with
  | @step _ after _ byte tail _ _ _ taken further =>
      obtain ⟨opener, same⟩ := next_of_opening (by rw [taken]; exact opens)
      have opened : opening delimiter tail = (lexeme, after) := by
        rw [← taken, same, next, ofMarkup, opener]
      obtain rfl : after = .region delimiter 0 [] := (congrArg Prod.snd opened).symm
      obtain ⟨later, remains, body, others⟩ := further.exists_of_append
      obtain ⟨front, taken_bytes, front_long⟩ := body.exists_taken
      have fits : lexeme.extra ≤ tail.length := by
        have bound := next_extra_le middle byte tail
        rwa [taken] at bound
      refine ⟨before ++ byte :: tail.take lexeme.extra, front, remains, later, ?_, ?_,
        taken_bytes ▸ body, others⟩
      · rw [← taken_bytes, List.append_assoc, List.cons_append, List.take_append_drop]
      · have begins : piece.body.start = (before ++ byte :: tail.take lexeme.extra).length := by
          rw [body_eq, List.length_append, List.length_cons, List.length_take_of_le fits, long]
          rfl
        have ends : piece.body.stop = piece.body.start + front.length := by
          rw [stop_eq, body_eq, width_append, width_cons, front_long, Nat.add_assoc]
        rw [← begins, ← ends]

end Piece
end TwigTemplate
