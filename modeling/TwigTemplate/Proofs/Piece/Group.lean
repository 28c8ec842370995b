import Mathlib.Data.List.Chain
import TwigTemplate.Proofs.Piece.Cover
import TwigTemplate.Proofs.Token.Shape

/-!
# Pieces of any tokens

Grouping asks nothing of the tokens but that they follow each other without a gap.  A closing
delimiter may come where nothing is open, and a region may open where another one has not been
closed.  Whatever the tokens are, their pieces cover them, no markup stands next to markup, and each
opening delimiter has a region of its own.
-/

namespace TwigTemplate

open Lexeme

/-- A region, by the delimiter that opens it, where that delimiter lies, and whether the region is
closed. -/
structure Opening where
  /-- The delimiter. -/
  delimiter : Delimiter
  /-- Where it starts. -/
  start : Nat
  /-- The region is closed. -/
  closed : Bool
  deriving DecidableEq, Repr

namespace Token

/-- The token opens a region. -/
def isOpening (token : Token) : Bool :=
  match token.kind with
  | .opening _ => true
  | _ => false

/-- The token closes a region, if one is open. -/
def isClosing (token : Token) : Bool :=
  match token.kind with
  | .closing _ => true
  | _ => false

/-- A closing delimiter comes before the next opening one. -/
def closesFirst (tokens : List Token) : Bool :=
  (tokens.takeWhile (!·.isOpening)).any (·.isClosing)

/-- The region that the first one of the tokens opens. -/
def opening? : List Token → Option Opening
  | [] => none
  | token :: rest =>
    match token.kind with
    | .opening delimiter => some ⟨delimiter, token.span.start, closesFirst rest⟩
    | _ => none

/-- The regions that tokens open. -/
def openings (tokens : List Token) : List Opening := tokens.tails.filterMap opening?

theorem openings_cons (token : Token) (rest : List Token) :
    openings (token :: rest) = (opening? (token :: rest)).toList ++ openings rest := by
  rw [openings, List.tails, List.filterMap_cons]
  cases opening? (token :: rest) <;> rfl

/-- Tokens without gaps are lexemes at their offsets. -/
theorem Covers.exists_placeAll {start stop : Nat} {tokens : List Token}
    (covers : Covers start tokens stop) :
    ∃ lexemes, tokens = placeAll start lexemes ∧ stop = start + width lexemes := by
  induction tokens generalizing start with
  | nil =>
      obtain rfl : start = stop := covers
      exact ⟨[], rfl, rfl⟩
  | cons token tokens ih =>
      obtain ⟨kind, ⟨begin, ending⟩, trim⟩ := token
      obtain ⟨rfl, filled, further⟩ := covers
      obtain ⟨lexemes, rfl, rfl⟩ := ih further
      have long : begin + (ending - begin - 1 + 1) = ending := by
        dsimp only at filled
        omega
      refine ⟨⟨kind, trim, ending - begin - 1⟩ :: lexemes, ?_, ?_⟩
      · simp only [placeAll, place, length, long]
      · rw [width_cons, length, ← Nat.add_assoc, long]

end Token

namespace Piece

/-- The region that a piece is. -/
def opening? (piece : Piece) : Option Opening :=
  match piece.kind with
  | .text => none
  | .region delimiter => some ⟨delimiter, piece.span.start, piece.closed⟩

/-- The pending region, when `rest` is to be read. -/
def Pending.opening? (rest : List Token) : Pending → Option Opening
  | region delimiter start _ => some ⟨delimiter, start, Token.closesFirst rest⟩
  | _ => none

namespace Grouping

/-- All pieces, when the next one starts at `stop`. -/
def finish (grouping : Grouping) (stop : Nat) : List Piece :=
  grouping.pieces.toList ++ (grouping.pending.finish stop).toList

theorem exists_finish_group (tokens : Array Token) :
    ∃ stop, (group tokens).toList = (tokens.toList.foldl step ⟨#[], .nothing⟩).finish stop := by
  refine ⟨(tokens.back?.map (·.span.stop)).getD 0, ?_⟩
  rw [group, Array.toList_append, Option.toList_toArray, ← Array.foldl_toList]
  rfl

/-! ### Each opening delimiter has a region -/

/-- The regions among the pieces found so far, and those to come when `rest` is read. -/
def openings (grouping : Grouping) (rest : List Token) : List Opening :=
  grouping.pieces.toList.filterMap Piece.opening? ++
    ((grouping.pending.opening? rest).toList ++ Token.openings rest)

/-- Reading a token does not change which regions there are in the end. -/
theorem openings_step (grouping : Grouping) (token : Token) (rest : List Token) :
    (grouping.step token).openings rest = grouping.openings (token :: rest) := by
  obtain ⟨pieces, pending⟩ := grouping
  obtain ⟨kind, span, trim⟩ := token
  rw [openings, openings, Token.openings_cons]
  cases kind <;> cases pending <;>
    simp [step, Pending.finish, Pending.extend, Pending.opening?, Token.opening?, Piece.opening?,
      Piece.text, Token.closesFirst, Token.isOpening, Token.isClosing]

/-- Nothing is to come at the end. -/
theorem openings_finish (grouping : Grouping) (stop : Nat) :
    (grouping.finish stop).filterMap Piece.opening? = grouping.openings [] := by
  have none_left : Token.openings [] = [] := rfl
  rw [finish, openings, List.filterMap_append, none_left, List.append_nil]
  cases grouping.pending <;> rfl

theorem openings_foldl (grouping : Grouping) (tokens : List Token) :
    (tokens.foldl step grouping).openings [] = grouping.openings tokens := by
  induction tokens generalizing grouping with
  | nil => rfl
  | cons token tokens ih => rw [List.foldl_cons, ih, openings_step]

end Grouping

/-! ### Markup is kept together -/

/-- All of markup is its body, and no markup stands next to markup. -/
structure Alternate (pieces : List Piece) : Prop where
  /-- Markup is closed, and all of it is its body. -/
  markup : ∀ piece ∈ pieces, piece.kind = .text → piece = text piece.span
  /-- Something else comes after markup. -/
  apart : pieces.IsChain fun earlier later => earlier.kind = .text → later.kind ≠ .text

theorem Alternate.append_singleton {pieces : List Piece} {piece : Piece}
    (alternate : Alternate pieces) (markup : piece.kind = .text → piece = text piece.span)
    (apart : ∀ earlier ∈ pieces.getLast?, earlier.kind = .text → piece.kind ≠ .text) :
    Alternate (pieces ++ [piece]) := by
  constructor
  · intro other member
    rcases List.mem_append.mp member with member | member
    · exact alternate.markup other member
    · obtain rfl := List.mem_singleton.mp member
      exact markup
  · refine List.isChain_append.mpr ⟨alternate.apart, List.isChain_singleton piece, ?_⟩
    rintro earlier last _ ⟨⟩
    exact apart earlier last

namespace Grouping

/-- The finished pieces alternate, and behind markup only a region may be pending. -/
structure Alternates (grouping : Grouping) : Prop where
  /-- The finished pieces alternate. -/
  finished : Alternate grouping.pieces.toList
  /-- A region is pending behind markup. -/
  pending : ∀ piece ∈ grouping.pieces.toList.getLast?, piece.kind = .text →
    ∃ delimiter start body, grouping.pending = .region delimiter start body

theorem Alternates.finish {grouping : Grouping} (alternates : grouping.Alternates) (stop : Nat) :
    Alternate (grouping.finish stop) := by
  obtain ⟨pieces, pending⟩ := grouping
  cases pending with
  | nothing => simpa [Grouping.finish, Pending.finish] using alternates.finished
  | text span =>
      refine alternates.finished.append_singleton (fun _ => rfl) ?_
      intro earlier last is_text
      obtain ⟨_, _, _, same⟩ := alternates.pending earlier last is_text
      cases same
  | region delimiter start body =>
      exact alternates.finished.append_singleton (by simp) (by simp)

theorem Alternates.extend {pieces : Array Piece} {pending : Pending}
    (alternates : (Grouping.mk pieces pending).Alternates) (span : Span) :
    (Grouping.mk pieces (pending.extend span)).Alternates := by
  refine ⟨alternates.finished, ?_⟩
  intro piece last is_text
  obtain ⟨delimiter, start, body, rfl⟩ := alternates.pending piece last is_text
  exact ⟨delimiter, start, body, rfl⟩

theorem Alternates.step {grouping : Grouping} (alternates : grouping.Alternates) (token : Token) :
    (grouping.step token).Alternates := by
  have steps := steps_step grouping token
  generalize grouping.step token = later at steps ⊢
  cases steps with
  | opens =>
      refine ⟨?_, fun _ _ _ => ⟨_, _, _, rfl⟩⟩
      rw [Array.toList_append, Option.toList_toArray]
      exact alternates.finish token.span.start
  | closes =>
      refine ⟨?_, by simp⟩
      rw [Array.toList_push]
      exact alternates.finished.append_singleton (by simp) (by simp)
  | goesOn => exact alternates.extend token.span

theorem Alternates.foldl {grouping : Grouping} (alternates : grouping.Alternates)
    (tokens : List Token) : (tokens.foldl Grouping.step grouping).Alternates := by
  induction tokens generalizing grouping with
  | nil => exact alternates
  | cons token tokens ih => exact ih (alternates.step token)

end Grouping

/-- Whatever the tokens are, markup is kept together. -/
theorem alternate_group (tokens : Array Token) : Alternate (group tokens).toList := by
  obtain ⟨stop, pieces_eq⟩ := Grouping.exists_finish_group tokens
  have start : (Grouping.mk #[] .nothing).Alternates :=
    ⟨⟨by simp, List.IsChain.nil⟩, by simp⟩
  rw [pieces_eq]
  exact (start.foldl tokens.toList).finish stop

/-- Whatever the tokens are, each opening delimiter has a region of its own, which is closed if and
only if a closing delimiter comes before the next opening one. -/
theorem openings_group (tokens : Array Token) :
    (group tokens).toList.filterMap opening? = Token.openings tokens.toList := by
  obtain ⟨stop, pieces_eq⟩ := Grouping.exists_finish_group tokens
  rw [pieces_eq, Grouping.openings_finish, Grouping.openings_foldl]
  rfl

/-! ### Pieces of tokens without gaps -/

/-- The pieces of tokens without gaps cover them. -/
theorem covers_group {tokens : Array Token} {stop : Nat}
    (contiguous : Token.Covers 0 tokens.toList stop) : Covers 0 (group tokens).toList stop := by
  obtain ⟨lexemes, same, rfl⟩ := contiguous.exists_placeAll
  obtain rfl : tokens = (placeAll 0 lexemes).toArray := by rw [← same, Array.toArray_toList]
  rw [toList_group_placeAll, Nat.zero_add]
  exact covers_ofLexemes lexemes

section Search

variable {pieces : Array Piece} {stop offset index : Nat} {piece : Piece}

/-- The search finds the piece that has the offset. -/
theorem indexAt?_of_contains (covers : Covers 0 pieces.toList stop)
    (found : pieces[index]? = some piece) (contains : piece.span.contains offset = true) :
    indexAt? pieces offset = some index := by
  rw [← Array.getElem?_toList] at found
  obtain ⟨inside, rfl⟩ := List.getElem?_eq_some_iff.mp found
  have split : pieces.toList =
      pieces.toList.take index ++ pieces.toList[index] :: pieces.toList.drop (index + 1) := by
    rw [← List.drop_eq_getElem_cons inside, List.take_append_drop]
  rw [Span.contains, Bool.and_eq_true, decide_eq_true_iff, decide_eq_true_iff] at contains
  have searched := indexAt?_of_holds covers split ⟨contains.1, .inl contains.2⟩
  rwa [List.length_take, Nat.min_eq_left (Nat.le_of_lt inside)] at searched

/-- Before the end there is a piece that has the offset. -/
theorem exists_contains (covers : Covers 0 pieces.toList stop) (before : offset < stop) :
    ∃ (index : Nat) (piece : Piece),
      pieces[index]? = some piece ∧ piece.span.contains offset = true := by
  have filled : pieces.toList ≠ [] := by
    intro empty
    rw [empty] at covers
    obtain rfl : 0 = stop := covers
    exact Nat.not_lt_zero offset before
  obtain ⟨earlier, piece, later, split, begun, held⟩ :=
    covers.exists_holds filled (Nat.zero_le offset) (Nat.le_of_lt before)
  have inside : offset < piece.span.stop := by
    rcases held with inside | ⟨rfl, rfl⟩
    · exact inside
    · obtain ⟨_, _, _, _, ended⟩ := Covers.append_iff.mp (split ▸ covers)
      obtain rfl : piece.span.stop = stop := ended
      exact absurd before (Nat.lt_irrefl _)
  refine ⟨earlier.length, piece, ?_, by simp [Span.contains, begun, inside]⟩
  rw [← Array.getElem?_toList, split, List.getElem?_append_right (Nat.le_refl _), Nat.sub_self]
  rfl

/-- The search finds the one piece that has an offset before the end. -/
theorem indexAt?_eq_some_iff_of_lt (covers : Covers 0 pieces.toList stop) (before : offset < stop) :
    indexAt? pieces offset = some index ↔
      ∃ piece, pieces[index]? = some piece ∧ piece.span.contains offset = true := by
  constructor
  · intro searched
    obtain ⟨other, piece, found, contains⟩ := exists_contains covers before
    have same := searched.symm.trans (indexAt?_of_contains covers found contains)
    exact ⟨piece, Option.some.inj same ▸ found, contains⟩
  · rintro ⟨piece, found, contains⟩
    exact indexAt?_of_contains covers found contains

/-- The offset at the end belongs to the last piece. -/
theorem indexAt?_stop (covers : Covers 0 pieces.toList stop) (filled : pieces ≠ #[]) :
    indexAt? pieces stop = some (pieces.size - 1) := by
  have some_piece : pieces.toList ≠ [] := by simpa using filled
  obtain ⟨earlier, last, split⟩ := (List.eq_nil_or_concat pieces.toList).resolve_left some_piece
  rw [List.concat_eq_append] at split
  obtain ⟨_, _, _, fits, ended⟩ := Covers.append_iff.mp (split ▸ covers)
  obtain rfl : last.span.stop = stop := ended
  have size_eq : pieces.size - 1 = earlier.length := by
    rw [← Array.length_toList, split, List.length_append, List.length_singleton,
      Nat.add_sub_cancel]
  rw [size_eq]
  exact indexAt?_of_holds covers split ⟨Nat.le_of_lt fits.start_lt, .inr ⟨rfl, rfl⟩⟩

/-- Past the end there is no piece. -/
theorem indexAt?_of_stop_lt (covers : Covers 0 pieces.toList stop) (past : stop < offset) :
    indexAt? pieces offset = none := by
  by_cases filled : pieces.toList = []
  · obtain rfl : pieces = #[] := Array.toList_eq_nil_iff.mp filled
    rfl
  · rw [indexAt?_eq_ite covers filled, if_pos past]

end Search

/-- The pieces of tokens without gaps: they cover the tokens, none of them empty and each around its
body.  Markup is closed and never next to markup.  The regions are those that the tokens open, in
their order; a region is closed if and only if a closing delimiter comes before the next opening
one.  The search finds the one piece that has an offset before the end, the last piece at the end,
and none past it. -/
theorem group_of_covers {tokens : Array Token} {stop : Nat}
    (contiguous : Token.Covers 0 tokens.toList stop) :
    let pieces := group tokens
    Covers 0 pieces.toList stop ∧
      (pieces.toList.IsChain fun earlier later => earlier.kind = .text → later.kind ≠ .text) ∧
      (∀ piece ∈ pieces.toList, piece.kind = .text →
        piece.closed = true ∧ piece.body = piece.span) ∧
      pieces.toList.filterMap opening? = Token.openings tokens.toList ∧
      (∀ offset < stop, ∃ found, indexAt? pieces offset = some found ∧
        ∀ index, (∃ piece, pieces[index]? = some piece ∧ piece.span.contains offset = true) ↔
          index = found) ∧
      (pieces ≠ #[] → indexAt? pieces stop = some (pieces.size - 1)) ∧
      ∀ offset, stop < offset ∨ pieces = #[] → indexAt? pieces offset = none := by
  intro pieces
  have covers : Covers 0 pieces.toList stop := covers_group contiguous
  have alternate : Alternate pieces.toList := alternate_group tokens
  refine ⟨covers, alternate.apart, ?_, openings_group tokens, ?_, indexAt?_stop covers, ?_⟩
  · intro piece member is_text
    rw [alternate.markup piece member is_text]
    exact ⟨rfl, rfl⟩
  · intro offset before
    obtain ⟨found, piece, at_found, contains⟩ := exists_contains covers before
    have searched := indexAt?_of_contains covers at_found contains
    refine ⟨found, searched, fun index => ?_⟩
    rw [← indexAt?_eq_some_iff_of_lt covers before, searched, Option.some.injEq, eq_comm]
  · rintro offset (past | empty)
    · exact indexAt?_of_stop_lt covers past
    · rw [empty]
      rfl

/-- A closing delimiter where nothing is open, a region that opens again, and another one that is
closed by a delimiter of another kind. -/
theorem group_of_covers_irregular :
    let tokens : Array Token := #[⟨.closing .comment, ⟨0, 2⟩, false⟩, ⟨.raw, ⟨2, 3⟩, false⟩,
      ⟨.opening .expression, ⟨3, 5⟩, false⟩, ⟨.quoted, ⟨5, 7⟩, false⟩,
      ⟨.opening .expression, ⟨7, 9⟩, false⟩, ⟨.closing .tag, ⟨9, 12⟩, true⟩,
      ⟨.closing .tag, ⟨12, 14⟩, false⟩]
    Token.Covers 0 tokens.toList 14 ∧ Covers 0 (group tokens).toList 14 ∧
      (group tokens).toList.filterMap opening? =
        [⟨.expression, 3, false⟩, ⟨.expression, 7, true⟩] ∧
      indexAt? (group tokens) 14 = some 3 := by
  intro tokens
  have contiguous : Token.Covers 0 tokens.toList 14 := by simp [tokens, Token.Covers]
  obtain ⟨covers, -, -, openings, -, at_end, -⟩ := group_of_covers contiguous
  exact ⟨contiguous, covers, openings, at_end (by decide)⟩

end Piece
end TwigTemplate
