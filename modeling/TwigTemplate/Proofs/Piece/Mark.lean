import Mathlib.Data.List.Forall2
import TwigTemplate.Proofs.Piece.Append
import TwigTemplate.Proofs.Token.Mark

/-!
# Pieces of a text with one more mark

When a trim mark becomes part of a delimiter, the pieces stay the same, and their bodies move as
wholes: the mark lies outside every body.  Nor does it part the two bytes by which a region begins.
-/

namespace TwigTemplate

open Lexeme

namespace Piece

/-- What becomes of a piece of a text when one byte is put in at the offset. -/
structure Grows (source : Source) (offset : Nat) (piece grown : Piece) : Prop where
  /-- It is a piece of the same kind. -/
  kind_eq : grown.kind = piece.kind
  /-- It is closed if it was. -/
  closed_eq : grown.closed = piece.closed
  /-- It begins where it began, or one byte further on. -/
  start_eq : grown.span.start = (Relocation.insert offset).start piece.span.start
  /-- So does it end, unless it is an opening delimiter and nothing more. -/
  stop_eq : grown.span.stop = (Relocation.insert offset).stop piece.span.stop ∨
    piece.body.start = piece.body.stop
  /-- The body stays where it is, before the offset, or all of it is further on.  What followed it
  was no point if it is followed by the new byte. -/
  body : grown.body = piece.body ∧ piece.body.stop ≤ offset ∧
      (piece.body.stop = offset → source.byte? offset ≠ some Byte.dot) ∨
    grown.body = ⟨piece.body.start + 1, piece.body.stop + 1⟩ ∧ offset ≤ piece.body.start
  /-- The new byte does not part the first two bytes of a region. -/
  opener : piece.kind ≠ .text → piece.span.start + 2 ≤ offset ∨ offset ≤ piece.span.start

variable {source : Source} {offset next : Nat}

/-- A piece that ends before the offset stays as it is. -/
theorem Grows.of_lt {piece : Piece} (fits : piece.Fits) (holds : piece.HoldsOpening)
    (before : piece.span.stop < offset) : Grows source offset piece piece where
  kind_eq := rfl
  closed_eq := rfl
  start_eq := by
    have start_lt := fits.start_lt
    rw [Relocation.insert_start_of_lt (by omega)]
  stop_eq := .inl (Relocation.insert_stop_of_le (Nat.le_of_lt before)).symm
  body := by
    have stop_le := fits.stop_le
    exact .inl ⟨rfl, by omega, by omega⟩
  opener region := by
    have begun := holds region
    have body_le := fits.body_le
    have stop_le := fits.stop_le
    exact .inl (by omega)

namespace Pending

/-- What becomes of the pending piece, behind the new byte. -/
inductive Grows (offset next : Nat) : Pending → Pending → Prop
  /-- Nothing is pending. -/
  | nothing : Grows offset next .nothing .nothing
  /-- Markup began behind the new byte. -/
  | text {start stop : Nat} (behind : offset ≤ start) (filled : start < stop)
      (reached : stop ≤ next) :
      Grows offset next (.text ⟨start, stop⟩) (.text ⟨start + 1, stop + 1⟩)
  /-- The body of a region began behind the new byte. -/
  | region {delimiter : Delimiter} {start grown body : Nat}
      (start_eq : grown = (Relocation.insert offset).start start)
      (opener : start + 2 ≤ offset ∨ offset ≤ start) (behind : offset ≤ body)
      (reached : body ≤ next) :
      Grows offset next (.region delimiter start body) (.region delimiter grown (body + 1))

theorem Grows.finish {pending grown : Pending} (grows : Grows offset next pending grown) :
    List.Forall₂ (Piece.Grows source offset) (pending.finish next).toList
      (grown.finish (next + 1)).toList := by
  cases grows with
  | nothing => exact .nil
  | text behind filled reached =>
      refine .cons ⟨rfl, rfl, ?_, .inl ?_, .inr ⟨rfl, behind⟩, absurd rfl⟩ .nil
      · exact (Relocation.insert_start_of_le behind).symm
      · exact (Relocation.insert_stop_of_lt (Nat.lt_of_le_of_lt behind filled)).symm
  | @region delimiter start grown body start_eq opener behind reached =>
      refine .cons ⟨rfl, rfl, start_eq, ?_, .inr ⟨rfl, behind⟩, fun _ => opener⟩ .nil
      rcases Nat.lt_or_eq_of_le reached with filled | same
      · exact .inl (Relocation.insert_stop_of_lt (Nat.lt_of_le_of_lt behind filled)).symm
      · exact .inr same

theorem Grows.extend {pending grown : Pending} (grows : Grows offset next pending grown)
    (behind : offset ≤ next) (lexeme : Lexeme) :
    Grows offset (next + lexeme.length) (pending.extend (lexeme.place next).span)
      (grown.extend (lexeme.place (next + 1)).span) := by
  have longer : next < next + lexeme.length := Nat.lt_add_of_pos_right (Nat.succ_pos _)
  have moved : (lexeme.place (next + 1)).span = ⟨next + 1, next + lexeme.length + 1⟩ := by
    rw [place, Nat.add_right_comm]
  rw [moved]
  cases grows with
  | nothing => exact .text behind longer (Nat.le_refl _)
  | text begun filled reached =>
      exact .text begun (by dsimp only [place]; omega) (Nat.le_refl _)
  | region start_eq opener begun reached =>
      exact .region start_eq opener begun (Nat.le_trans reached (Nat.le_of_lt longer))

end Pending

namespace Grouping

/-- What becomes of the pieces found so far, behind the new byte. -/
structure Grows (source : Source) (offset next : Nat) (grouping grown : Grouping) : Prop where
  /-- The finished pieces. -/
  finished : List.Forall₂ (Piece.Grows source offset) grouping.pieces.toList grown.pieces.toList
  /-- The pending one. -/
  pending : Pending.Grows offset next grouping.pending grown.pending

variable {grouping grown : Grouping}

theorem Grows.step (grows : grouping.Grows source offset next grown) (behind : offset ≤ next)
    (lexeme : Lexeme) :
    (grouping.step (lexeme.place next)).Grows source offset (next + lexeme.length)
      (grown.step (lexeme.place (next + 1))) := by
  obtain ⟨pieces, pending⟩ := grouping
  obtain ⟨pieces_grown, pending_grown⟩ := grown
  obtain ⟨finished, waiting⟩ := grows
  have longer : next < next + lexeme.length := Nat.lt_add_of_pos_right (Nat.succ_pos _)
  have moved : next + 1 + lexeme.length = next + lexeme.length + 1 := Nat.add_right_comm _ _ _
  have extended : Grows source offset (next + lexeme.length)
      ⟨pieces, pending.extend (lexeme.place next).span⟩
      ⟨pieces_grown, pending_grown.extend (lexeme.place (next + 1)).span⟩ :=
    ⟨finished, Pending.Grows.extend waiting behind lexeme⟩
  have kind_eq (start : Nat) : (lexeme.place start).kind = lexeme.kind := rfl
  rw [Grouping.step, Grouping.step, kind_eq, kind_eq]
  cases lexeme.kind with
  | opening delimiter =>
      constructor
      · simp only [Array.toList_append, Option.toList_toArray]
        exact List.rel_append finished waiting.finish
      · dsimp only [place]
        rw [moved]
        exact .region (Relocation.insert_start_of_le behind).symm (.inr behind)
          (Nat.le_trans behind (Nat.le_of_lt longer)) (Nat.le_refl _)
  | closing delimiter =>
      cases waiting with
      | nothing => exact extended
      | text => exact extended
      | region start_eq opener begun reached =>
          refine ⟨?_, .nothing⟩
          rw [Array.toList_push, Array.toList_push]
          refine List.rel_append finished (.cons ⟨rfl, rfl, start_eq, .inl ?_, .inr ⟨rfl, begun⟩,
            fun _ => opener⟩ .nil)
          dsimp only [place]
          rw [moved, Relocation.insert_stop_of_lt (Nat.lt_of_le_of_lt behind longer)]
  | quoted => exact extended
  | raw => exact extended

/-- What follows behind the new byte is grouped as before, one byte further on. -/
theorem Grows.foldl (grows : grouping.Grows source offset next grown) (behind : offset ≤ next)
    (lexemes : List Lexeme) :
    ((placeAll next lexemes).foldl Grouping.step grouping).Grows source offset
      (next + width lexemes) ((placeAll (next + 1) lexemes).foldl Grouping.step grown) := by
  induction lexemes generalizing next grouping grown with
  | nil => exact grows
  | cons lexeme lexemes ih =>
      have stepped := ih (grows.step behind lexeme) (Nat.le_add_right_of_le behind)
      rw [placeAll, placeAll, List.foldl_cons, List.foldl_cons, width_cons, ← Nat.add_assoc,
        Nat.add_right_comm next 1]
      exact stepped

end Grouping

variable {left right : List Lexeme} {lexeme : Lexeme} {delimiter : Delimiter}

theorem grows_append {marked : List Lexeme} (wide : width marked = width left + 1)
    (grows : (Grouping.ofLexemes left).Grows source offset (width left)
      (Grouping.ofLexemes marked))
    (behind : offset ≤ width left) (right : List Lexeme) :
    List.Forall₂ (Grows source offset) (ofLexemes (left ++ right))
      (ofLexemes (marked ++ right)) := by
  have grown := grows.foldl behind right
  have folded (lexemes : List Lexeme) : Grouping.ofLexemes (lexemes ++ right) =
      (placeAll (width lexemes) right).foldl Grouping.step (Grouping.ofLexemes lexemes) := by
    rw [Grouping.ofLexemes, placeAll_append, List.foldl_append, Nat.zero_add]
    rfl
  rw [← wide, ← folded, ← folded] at grown
  rw [ofLexemes, ofLexemes, width_append, width_append, wide, Nat.add_right_comm _ 1]
  exact List.rel_append grown.finished grown.pending.finish

/-- A mark behind a bare opening delimiter. -/
theorem grows_of_opening (long : LongOpenings (left ++ lexeme :: right))
    (opens : lexeme.kind = .opening delimiter) :
    List.Forall₂ (Grows source (width left + lexeme.length)) (ofLexemes (left ++ lexeme :: right))
      (ofLexemes (left ++ lexeme.withMark :: right)) := by
  have two := long lexeme (by simp) delimiter opens
  have wide : width (left ++ [lexeme]) = width left + lexeme.length := by simp
  have wide_marked : width (left ++ [lexeme.withMark]) = width (left ++ [lexeme]) + 1 := by
    simp [withMark, length, Nat.add_assoc]
  rw [List.append_cons left lexeme, List.append_cons left lexeme.withMark]
  refine grows_append wide_marked ?_ (Nat.le_of_eq wide.symm) right
  rw [Grouping.ofLexemes_append_opening left opens,
    Grouping.ofLexemes_append_opening left (show lexeme.withMark.kind = _ from opens)]
  constructor
  · rw [List.forall₂_same]
    intro piece member
    have covers := covers_ofLexemes left
    refine .of_lt (covers.fits member) (holdsOpening_ofLexemes ?_ member) ?_
    · exact fun other among => long other (List.mem_append_left _ among)
    · have bounds := covers.bounds member
      omega
  · exact .region (Relocation.insert_start_of_lt (by omega)).symm (.inl (by omega)) (Nat.le_refl _)
      (by simp)

/-- A mark before a bare closing delimiter. -/
theorem grows_of_closing (long : LongOpenings left) (closes : lexeme.kind = .closing delimiter)
    {opened : Delimiter} {start body : Nat}
    (pending : (Grouping.ofLexemes left).pending = .region opened start body)
    (follows : source.byte? (width left) ≠ some Byte.dot) :
    List.Forall₂ (Grows source (width left)) (ofLexemes (left ++ lexeme :: right))
      (ofLexemes (left ++ lexeme.withMark :: right)) := by
  have wide_marked : width (left ++ [lexeme.withMark]) = width (left ++ [lexeme]) + 1 := by
    simp [withMark, length, Nat.add_assoc]
  rw [List.append_cons left lexeme, List.append_cons left lexeme.withMark]
  refine grows_append wide_marked ?_ (by simp) right
  have covers := Grouping.covers_ofLexemes left
  have fits := covers.pending
  obtain ⟨holds, holds_pending⟩ := Grouping.holdsOpening long
  have finished := covers.finished
  rw [pending] at fits holds_pending finished
  obtain ⟨begun, reached⟩ := fits
  have placed (start : Nat) : (lexeme.place start).kind = .closing delimiter := closes
  have placed_grown (start : Nat) :
      (lexeme.withMark.place start).kind = .closing delimiter := closes
  rw [Grouping.ofLexemes_append_singleton, Grouping.ofLexemes_append_singleton,
    Grouping.step_of_closing (placed _) pending, Grouping.step_of_closing (placed_grown _) pending]
  refine ⟨?_, .nothing⟩
  rw [Array.toList_push, Array.toList_push]
  refine List.rel_append (List.forall₂_same.mpr ?_) (.cons ?_ .nil)
  · intro piece member
    have bounds := finished.bounds member
    refine .of_lt (finished.fits member) (holds piece (Array.mem_toList_iff.mp member)) ?_
    have stop_le : piece.span.stop ≤ start := bounds.2
    omega
  · have opener : start + 2 ≤ body := holds_pending
    refine ⟨rfl, rfl, ?_, .inl ?_, .inl ⟨rfl, Nat.le_refl _, fun _ => follows⟩,
      fun _ => .inl (Nat.le_trans opener reached)⟩
    · exact (Relocation.insert_start_of_lt (Nat.lt_of_lt_of_le begun reached)).symm
    · have longer : width left < (lexeme.place (width left)).span.stop :=
        Nat.lt_add_of_pos_right (Nat.succ_pos _)
      rw [Relocation.insert_stop_of_lt longer]
      rfl

end Piece

/-! ### Bare delimiters in a template -/

/-- With the mark put in at the offset, the template is read as other lexemes, which form the same
pieces. -/
def Source.Takes (source : Source) (mark : UInt8) (offset : Nat) (lexemes : List Lexeme) : Prop :=
  ∃ front back marked final, source.toList = front ++ back ∧ front.length = offset ∧
    Reads .markup (front ++ mark :: back) marked final [] ∧
    List.Forall₂ (Piece.Grows source offset) (Piece.ofLexemes lexemes) (Piece.ofLexemes marked)

namespace Reads

variable {source : Source} {left right : List Lexeme} {lexeme : Lexeme} {delimiter : Delimiter}
  {mark : UInt8} {final : Mode}
  (reads : Reads .markup source.toList (left ++ lexeme :: right) final [])
  (bare : lexeme.trim = false) (marked : Byte.isTrimMark mark = true)
include reads bare marked

/-- A bare opening delimiter takes a mark behind it. -/
theorem takes_of_opening (opens : lexeme.kind = .opening delimiter) :
    source.Takes mark (width left + lexeme.length) (left ++ lexeme :: right) := by
  obtain ⟨front, back, bytes, long, grown⟩ := reads.insert_mark_opening opens bare marked
  exact ⟨front, back, _, final, bytes, long, grown,
    Piece.grows_of_opening reads.longOpenings opens⟩

/-- A bare closing delimiter takes a mark before it.  If nothing stands between it and a bare
opening delimiter, it is the opening one that does. -/
theorem takes_of_closing (closes : lexeme.kind = .closing delimiter) :
    source.Takes mark (width left) (left ++ lexeme :: right) := by
  rcases reads.insert_mark_closing closes bare marked with
    ⟨before, opener, rfl, opens, bare_opener⟩ | ⟨front, back, bytes, long, stands, grown⟩
  · rw [List.append_assoc, List.singleton_append] at reads ⊢
    rw [width_append, width_cons, width_nil]
    exact reads.takes_of_opening bare_opener marked opens
  · refine ⟨front, back, _, final, bytes, long, grown, ?_⟩
    obtain ⟨before, opener, inner, rfl, opens, within⟩ := reads.exists_opening_of_closing closes
    have opened := congrArg Piece.Grouping.pending
      (Piece.Grouping.ofLexemes_append_opening before opens)
    have pending := congrArg Piece.Grouping.pending
      (Piece.Grouping.ofLexemes_append_inner opened within)
    rw [← List.append_cons, opened] at pending
    apply Piece.grows_of_closing (fun other among => ?_) closes pending
    · obtain ⟨rest, rfl⟩ := Delimiter.startsBareClose_iff.mp stands
      rw [← long, Source.byte?_length_of_split bytes, Delimiter.closeBytes_eq]
      exact fun point => by cases delimiter <;> cases point
    · exact reads.longOpenings other (List.mem_append_left _ among)

end Reads

/-- Where a mark is put in to become part of a delimiter: right behind the two bytes that open a
region, or right before the two bytes that close it. -/
def Token.markOffset? (token : Token) : Option Nat :=
  match token.kind with
  | .opening _ => some (token.span.start + 2)
  | .closing _ => some (token.span.stop - 2)
  | .quoted | .raw => none

/-- Every bare delimiter takes a mark, where the template can be split. -/
theorem Reads.takes_of_mem {source : Source} {lexemes : List Lexeme} {final : Mode}
    (reads : Reads .markup source.toList lexemes final []) {token : Token}
    (member : token ∈ placeAll 0 lexemes) (bare : token.trim = false) {offset : Nat}
    (place : token.markOffset? = some offset) {mark : UInt8}
    (marked : Byte.isTrimMark mark = true) :
    (⟨offset⟩ : String.Pos.Raw).IsValid source.text ∧ source.Takes mark offset lexemes := by
  obtain ⟨before, after, split⟩ := List.append_of_mem member
  obtain ⟨left, lexeme, right, rfl, -, rfl, -⟩ := exists_of_placeAll_eq split
  have bare : lexeme.trim = false := bare
  rw [Token.markOffset?, Lexeme.place, Nat.zero_add] at place
  cases kind : lexeme.kind with
  | opening delimiter =>
      rw [kind, ← reads.length_of_bare (.inl kind) bare] at place
      obtain rfl := Option.some.inj place
      have regrouped := List.append_cons left lexeme right ▸ reads
      obtain ⟨_, _, upto, -⟩ := regrouped.exists_of_append
      refine ⟨?_, reads.takes_of_opening bare marked kind⟩
      simpa using upto.isValid
  | closing delimiter =>
      rw [kind, ← reads.length_of_bare (.inr kind) bare] at place
      obtain rfl := Option.some.inj place
      obtain ⟨_, _, upto, -⟩ := reads.exists_of_append
      dsimp only
      rw [Nat.add_sub_cancel]
      exact ⟨upto.isValid, reads.takes_of_closing bare marked kind⟩
  | quoted => simp [kind] at place
  | raw => simp [kind] at place

end TwigTemplate
