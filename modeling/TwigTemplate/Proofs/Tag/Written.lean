import Mathlib.Data.List.TakeDrop
import TwigTemplate.Proofs.Word.Listing

/-!
# Tags as they are written

A tag means what its keyword and the words of the text behind the keyword mean, whatever spaces
stand around the text.  Where a tag is cut in two, it is cut at the first word that can separate its
parts.
-/

namespace TwigTemplate

namespace Word

variable {property : Word → Bool} {before after words : List Word} {word : Word}

/-- Words are cut at the first one with the property. -/
theorem cut?_append (without : ∀ other ∈ before, property other = false)
    (here : property word = true) :
    cut? property (before ++ word :: after) = some (before, after) := by
  have passed : ∀ other ∈ before, (!property other) = true := by
    intro other member
    rw [without other member, Bool.not_false]
  have stops : (!property word) = false := by rw [here, Bool.not_true]
  rw [cut?, List.span_eq_takeWhile_dropWhile, List.takeWhile_append_of_pos passed,
    List.dropWhile_append_of_pos passed, List.takeWhile_cons_of_neg (by simp [stops]),
    List.dropWhile_cons_of_neg (by simp [stops]), List.append_nil]

theorem cut?_eq_none (without : ∀ other ∈ words, property other = false) :
    cut? property words = none := by
  have passed : ∀ other ∈ words, (!property other) = true := by
    intro other member
    rw [without other member, Bool.not_false]
  rw [cut?, List.span_eq_takeWhile_dropWhile, List.dropWhile_eq_nil_iff.mpr passed]

/-- The part between spaces has all words of a content. -/
theorem exists_split_eq {source : Source} {body : Span} {front part back : List UInt8}
    (filled : part ≠ []) (content : source.slice body = front ++ (part ++ back))
    (spaces_front : ∀ byte ∈ front, Byte.isSpace byte = true)
    (spaces_back : ∀ byte ∈ back, Byte.isSpace byte = true) :
    ∃ following ahead behind, source.toList = ahead ++ (part ++ behind) ∧
      ∀ words, Yields following ahead part back words → split source body = words := by
  have filled_body : source.slice body ≠ [] := by
    rw [content]
    exact List.append_ne_nil_of_right_ne_nil front (List.append_ne_nil_of_left_ne_nil filled back)
  obtain ⟨earlier, later, whole, start_eq⟩ := Source.exists_split_of_slice filled_body
  refine ⟨source.byte? body.stop, earlier ++ front, back ++ later, ?_, fun words yields => ?_⟩
  · rw [whole, content]
    simp only [List.append_assoc]
  · have nothing (place : Nat) : among (source.byte? body.stop) place 0 back = [] := by
      rw [among, collect_eq_self_iff.mpr spaces_back]
    rw [Yields, nothing, List.append_nil] at yields
    rw [split, content, collect_append_of_spaces spaces_front, ← start_eq, ← List.length_append]
    exact yields

end Word

namespace Tag

open Word

/-- A tag in which something is written between spaces means what is written there. -/
theorem exists_ofPiece_eq (options : Options) {source : Source} {piece : Piece}
    (kind : piece.kind = .region .tag) {front part back : List UInt8} (filled : part ≠ [])
    (content : source.slice piece.body = front ++ (part ++ back))
    (spaces_front : ∀ byte ∈ front, Byte.isSpace byte = true)
    (spaces_back : ∀ byte ∈ back, Byte.isSpace byte = true) :
    ∃ following ahead behind, source.toList = ahead ++ (part ++ behind) ∧
      ∀ place keyword words, Yields following ahead part back (named place 0 keyword :: words) →
        ofPiece options source piece =
          ofKeyword options source (Excerpt.ofWord (named place 0 keyword)) words := by
  obtain ⟨following, ahead, behind, whole, split_eq⟩ :=
    exists_split_eq filled content spaces_front spaces_back
  refine ⟨following, ahead, behind, whole, fun place keyword words yields => ?_⟩
  have header : Header.ofBody source piece.body =
      ⟨some (Excerpt.ofWord (named place 0 keyword)), words⟩ := by
    rw [Header.ofBody, split_eq _ yields]
    rfl
  rw [ofPiece_of_keyword kind (congrArg Header.keyword header), header]

end Tag

end TwigTemplate
