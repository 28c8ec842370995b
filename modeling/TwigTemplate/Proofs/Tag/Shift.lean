import TwigTemplate.Proofs.Source
import TwigTemplate.Proofs.Tag.Relocation

/-!
# What a tag means further on in a text

A text that stands at the end of another one has the same words there, further on, and its pieces
mean the same.
-/

namespace TwigTemplate

variable {back whole : Source} {offset : Nat}

namespace Word

/-- Words that are read further on are the same. -/
theorem collect_shift (following : Option UInt8) (count offset start depth : Nat)
    (found : Array Word) (bytes : List UInt8) :
    collect following (offset + start) depth (found.map (·.relocate (.shift count offset))) bytes =
      (collect following start depth found bytes).map (·.relocate (.shift count offset)) := by
  fun_induction collect following start depth found bytes with
  | case1 start depth found => rw [collect]
  | case2 start depth found byte tail space ih => rw [collect, if_pos space, Nat.add_assoc, ih]
  | case3 start depth found byte tail other kind extra shaped stop outer inner text ih =>
      rw [collect, if_neg other, shaped, ← ih, Array.map_push]
      simp only [Nat.add_assoc]
      rfl

theorem split_shift (ends : back.Ends whole offset) (count : Nat) (place : Span) :
    split whole ((Relocation.shift count offset).span place) =
      (split back place).map (·.relocate (.shift count offset)) := by
  have shifted := collect_shift (back.byte? place.stop) count offset place.start 0 #[]
    (back.slice place)
  rw [split, split, ← Array.toList_map, ← shifted]
  simp only [Relocation.span, Relocation.shift, ends.byte?_eq, ends.slice_eq, Array.map_empty]

end Word

namespace Tag

theorem carried_shift (ends : back.Ends whole offset) (count : Nat) (words : List Word) :
    Carried (.shift count offset) back whole words := by
  intro part _
  rw [Excerpt.covering?, Excerpt.covering?, List.head?_map, List.getLast?_map]
  cases part.head? with
  | none => rfl
  | some first =>
      cases part.getLast? with
      | none => rfl
      | some last =>
          have same := ends.read_eq first.span.start last.span.stop
          simp only [Option.map_some, Word.relocate, Excerpt.relocate, Relocation.span,
            Relocation.shift, same]

/-- A piece means the same where the text stands at the end of another one. -/
theorem ofPiece_shift (options : Options) (ends : back.Ends whole offset) (count : Nat)
    (piece : Piece) :
    ofPiece options whole (piece.relocate (.shift count offset)) =
      (ofPiece options back piece).relocate (.shift count offset) := by
  have kind_eq : (piece.relocate (.shift count offset)).kind = piece.kind := rfl
  rw [ofPiece, ofPiece, kind_eq]
  split
  · rfl
  · rfl
  · rfl
  · exact ofBody_relocate options (Word.split_shift ends count piece.body)
      (carried_shift ends count _)

end Tag
end TwigTemplate
