import Mathlib.Data.List.Induction
import TwigTemplate.Piece
import TwigTemplate.Proofs.Token.Run

/-!
# Where pieces begin and end

Pieces begin and end at the ends of the template, after closing delimiters and before opening ones.
This holds for any lexemes that follow each other; the invariant says where the pending piece
begins.
-/

namespace TwigTemplate

open Lexeme

/-- Between two parts of a text, by their lexemes, one of which may be empty, there is a closing
delimiter on the left or an opening one on the right. -/
def Joins (left right : List Lexeme) : Prop :=
  left = [] ∨ right = [] ∨
    (∃ lexeme ∈ left.getLast?, ∃ delimiter, lexeme.kind = .closing delimiter) ∨
    ∃ lexeme ∈ right.head?, ∃ delimiter, lexeme.kind = .opening delimiter

/-- Two such parts of the lexemes meet at the offset. -/
def IsJoint (lexemes : List Lexeme) (offset : Nat) : Prop :=
  ∃ left right, lexemes = left ++ right ∧ width left = offset ∧ Joins left right

namespace Piece

/-- The piece begins and ends at joints. -/
def IsJointed (lexemes : List Lexeme) (piece : Piece) : Prop :=
  IsJoint lexemes piece.span.start ∧ IsJoint lexemes piece.span.stop

/-- What is known of the pending piece after some of the lexemes. -/
def Pending.IsJointed (lexemes taken : List Lexeme) : Pending → Prop
  | nothing => ∀ rest, Joins taken rest
  | text span => IsJoint lexemes span.start ∧ span.stop = width taken
  | region _ start _ => IsJoint lexemes start

namespace Grouping

/-- The grouping of lexemes from the beginning of a template. -/
def ofLexemes (lexemes : List Lexeme) : Grouping :=
  (placeAll 0 lexemes).foldl step ⟨#[], .nothing⟩

theorem ofLexemes_append_singleton (taken : List Lexeme) (lexeme : Lexeme) :
    ofLexemes (taken ++ [lexeme]) = (ofLexemes taken).step (lexeme.place (width taken)) := by
  rw [ofLexemes, placeAll_append, List.foldl_append, Nat.zero_add]
  rfl

/-- What a token does to a grouping. -/
inductive Steps (token : Token) : Grouping → Grouping → Prop
  /-- An opening delimiter ends what is pending and begins a region. -/
  | opens {pieces : Array Piece} {pending : Pending} {delimiter : Delimiter}
      (kind : token.kind = .opening delimiter) :
      Steps token ⟨pieces, pending⟩
        ⟨pieces ++ (pending.finish token.span.start).toArray,
          .region delimiter token.span.start token.span.stop⟩
  /-- A closing delimiter ends the region that is pending. -/
  | closes {pieces : Array Piece} {closing delimiter : Delimiter} {start body : Nat}
      (kind : token.kind = .closing closing) :
      Steps token ⟨pieces, .region delimiter start body⟩
        ⟨pieces.push
          ⟨.region delimiter, ⟨start, token.span.stop⟩, ⟨body, token.span.start⟩, true⟩, .nothing⟩
  /-- Anything else goes on with what is pending. -/
  | goesOn {pieces : Array Piece} {pending : Pending}
      (inner : ∀ delimiter, token.kind ≠ .opening delimiter)
      (outside : ∀ closing delimiter start body, token.kind = .closing closing →
        pending ≠ .region delimiter start body) :
      Steps token ⟨pieces, pending⟩ ⟨pieces, pending.extend token.span⟩

theorem steps_step (grouping : Grouping) (token : Token) :
    Steps token grouping (grouping.step token) := by
  obtain ⟨pieces, pending⟩ := grouping
  rw [step]
  split
  · rename_i kind
    exact .opens kind
  · rename_i kind is_region
    obtain rfl : pending = _ := is_region
    exact .closes kind
  · rename_i no_opening no_closing
    refine .goesOn (fun delimiter kind => no_opening delimiter kind) ?_
    rintro closing delimiter start body kind rfl
    exact no_closing closing delimiter start body kind rfl

theorem step_of_opening (grouping : Grouping) {token : Token} {delimiter : Delimiter}
    (opens : token.kind = .opening delimiter) :
    (grouping.step token).pending = .region delimiter token.span.start token.span.stop := by
  rw [step, opens]

theorem step_of_inner {grouping : Grouping} {token : Token} {delimiter : Delimiter}
    {start body : Nat} (inner : token.kind = .raw ∨ token.kind = .quoted)
    (pending : grouping.pending = .region delimiter start body) :
    (grouping.step token).pending = .region delimiter start body := by
  rw [step, pending]
  rcases inner with raw | quoted
  · rw [raw]
    rfl
  · rw [quoted]
    rfl

theorem step_of_closing {grouping : Grouping} {token : Token} {delimiter opened : Delimiter}
    {start body : Nat} (closes : token.kind = .closing delimiter)
    (pending : grouping.pending = .region opened start body) :
    grouping.step token =
      ⟨grouping.pieces.push
        ⟨.region opened, ⟨start, token.span.stop⟩, ⟨body, token.span.start⟩, true⟩, .nothing⟩ := by
  rw [step, closes, pending]

theorem mem_pieces_step {grouping : Grouping} {piece : Piece} (token : Token)
    (member : piece ∈ grouping.pieces) : piece ∈ (grouping.step token).pieces := by
  rw [step]
  split
  · exact Array.mem_append_left _ member
  · exact Array.mem_push_of_mem _ member
  · exact member

/-- Finished pieces stay. -/
theorem mem_pieces_append {taken : List Lexeme} {piece : Piece}
    (member : piece ∈ (ofLexemes taken).pieces) (rest : List Lexeme) :
    piece ∈ (ofLexemes (taken ++ rest)).pieces := by
  induction rest using List.reverseRecOn with
  | nil => rwa [List.append_nil]
  | append_singleton rest lexeme ih =>
      rw [← List.append_assoc, ofLexemes_append_singleton]
      exact mem_pieces_step _ ih

/-- All finished pieces, and the pending one, begin and end at joints. -/
structure IsJointed (lexemes taken : List Lexeme) (grouping : Grouping) : Prop where
  /-- The finished pieces do. -/
  pieces : ∀ piece ∈ grouping.pieces, piece.IsJointed lexemes
  /-- The pending piece does. -/
  pending : grouping.pending.IsJointed lexemes taken

theorem isJoint_of_joins {lexemes left right : List Lexeme} (split : lexemes = left ++ right)
    (joins : Joins left right) : IsJoint lexemes (width left) :=
  ⟨left, right, split, rfl, joins⟩

theorem joins_of_closing {lexeme : Lexeme} {delimiter : Delimiter} (taken right : List Lexeme)
    (closes : lexeme.kind = .closing delimiter) : Joins (taken ++ [lexeme]) right :=
  .inr (.inr (.inl ⟨lexeme, by simp, delimiter, closes⟩))

/-- A pending piece is finished at a joint. -/
theorem isJointed_of_mem_finish {lexemes taken : List Lexeme} {pending : Pending}
    (holds : pending.IsJointed lexemes taken) (joint : IsJoint lexemes (width taken))
    {piece : Piece} (member : piece ∈ pending.finish (width taken)) : piece.IsJointed lexemes := by
  cases pending with
  | nothing => cases member
  | text span =>
      obtain rfl := Option.some.inj member
      exact ⟨holds.1, holds.2 ▸ joint⟩
  | region delimiter start body =>
      obtain rfl := Option.some.inj member
      exact ⟨holds, joint⟩

/-- Markup begins at a joint. -/
theorem isJointed_extend {lexemes taken rest : List Lexeme} {lexeme : Lexeme} {pending : Pending}
    (split : lexemes = taken ++ rest) (holds : pending.IsJointed lexemes taken) :
    (pending.extend (lexeme.place (width taken)).span).IsJointed lexemes (taken ++ [lexeme]) := by
  have stop : (lexeme.place (width taken)).span.stop = width (taken ++ [lexeme]) := by
    simp [place]
  cases pending with
  | nothing => exact ⟨isJoint_of_joins split (holds rest), stop⟩
  | text span => exact ⟨holds.1, stop⟩
  | region delimiter start body => exact holds

theorem IsJointed.step {lexemes taken rest : List Lexeme} {lexeme : Lexeme} {grouping : Grouping}
    (split : lexemes = taken ++ lexeme :: rest) (holds : grouping.IsJointed lexemes taken) :
    (grouping.step (lexeme.place (width taken))).IsJointed lexemes (taken ++ [lexeme]) := by
  have steps := steps_step grouping (lexeme.place (width taken))
  generalize grouping.step (lexeme.place (width taken)) = later at steps ⊢
  obtain ⟨finished, unfinished⟩ := holds
  cases steps with
  | @opens _ _ delimiter kind =>
      have joint : IsJoint lexemes (width taken) :=
        isJoint_of_joins split (.inr (.inr (.inr ⟨lexeme, rfl, delimiter, kind⟩)))
      refine ⟨?_, joint⟩
      intro piece member
      rcases Array.mem_append.mp member with member | member
      · exact finished piece member
      · exact isJointed_of_mem_finish unfinished joint (by simpa [place] using member)
  | closes kind =>
      refine ⟨?_, fun rest => joins_of_closing taken rest kind⟩
      intro piece member
      rcases Array.mem_push.mp member with member | rfl
      · exact finished piece member
      · refine ⟨unfinished, ?_⟩
        have joint := isJoint_of_joins (split.trans (List.append_cons taken lexeme rest))
          (joins_of_closing taken rest kind)
        simpa [place] using joint
  | goesOn => exact ⟨finished, isJointed_extend split unfinished⟩

theorem isJointed_ofLexemes {lexemes taken rest : List Lexeme} (split : lexemes = taken ++ rest) :
    (ofLexemes taken).IsJointed lexemes taken := by
  induction taken using List.reverseRecOn generalizing rest with
  | nil => exact ⟨by simp [ofLexemes, placeAll], fun _ => .inl rfl⟩
  | append_singleton taken lexeme ih =>
      rw [List.append_assoc, List.singleton_append] at split
      rw [ofLexemes_append_singleton]
      exact (ih split).step split

end Grouping

theorem stop_back?_placeAll (lexemes : List Lexeme) :
    ((placeAll 0 lexemes).toArray.back?.map (·.span.stop)).getD 0 = width lexemes := by
  induction lexemes using List.reverseRecOn with
  | nil => rfl
  | append_singleton lexemes lexeme _ => simp [placeAll_append, placeAll, place]

theorem group_placeAll (lexemes : List Lexeme) :
    group (placeAll 0 lexemes).toArray = (Grouping.ofLexemes lexemes).pieces ++
      ((Grouping.ofLexemes lexemes).pending.finish (width lexemes)).toArray := by
  rw [group, stop_back?_placeAll, List.foldl_toArray]
  rfl

/-- All pieces begin and end at joints. -/
theorem isJointed_of_mem_group {lexemes : List Lexeme} {piece : Piece}
    (member : piece ∈ group (placeAll 0 lexemes).toArray) : piece.IsJointed lexemes := by
  have split : lexemes = lexemes ++ [] := (List.append_nil lexemes).symm
  have holds := Grouping.isJointed_ofLexemes split
  rw [group_placeAll] at member
  rcases Array.mem_append.mp member with member | member
  · exact holds.pieces piece member
  · exact Grouping.isJointed_of_mem_finish holds.pending
      (Grouping.isJoint_of_joins split (.inr (.inl rfl))) (by simpa using member)

end Piece
end TwigTemplate
