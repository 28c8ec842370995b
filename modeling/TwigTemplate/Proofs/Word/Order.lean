import TwigTemplate.Proofs.Word.Alone
import TwigTemplate.Proofs.Word.Place

/-!
# The order of words

The words of a tag come one after the other.  A name takes in all bytes that could continue it, so
two names never touch each other.
-/

namespace TwigTemplate
namespace Word

/-- One word ends before another begins, with something between them if both are names. -/
structure Before (earlier later : Word) : Prop where
  /-- The words do not overlap. -/
  stop_le : earlier.span.stop ≤ later.span.start
  /-- Two names do not touch each other. -/
  apart : earlier.kind = .name → later.kind = .name → earlier.span.stop < later.span.start

section Shape

variable {following : Option UInt8} {byte : UInt8} {tail : List UInt8}

/-- Only the first byte tells whether a word is a name. -/
theorem shape_fst_eq_name_iff :
    (shape following byte tail).1 = .name ↔ Byte.startsName byte = true := by
  rw [shape]
  repeat' split
  all_goals simp [*]

/-- A name takes in all bytes that could continue it. -/
theorem not_continuesName_after_name (name : (shape following byte tail).1 = .name) :
    ∀ next ∈ (tail.drop (shape following byte tail).2).head?, Byte.continuesName next = false := by
  have taken : (shape following byte tail).2 = (tail.takeWhile Byte.continuesName).length := by
    rw [shape, if_pos (shape_fst_eq_name_iff.mp name)]
  have dropped : tail.drop (shape following byte tail).2 = tail.dropWhile Byte.continuesName := by
    have split :=
      List.prefix_iff_eq_append.mp (List.takeWhile_prefix Byte.continuesName (l := tail))
    rw [taken]
    exact List.append_cancel_left (split.trans List.takeWhile_append_dropWhile.symm)
  intro next first
  have ends := List.head?_dropWhile_not Byte.continuesName tail
  rwa [← dropped, first] at ends

/-- What comes right after a name does not start another one. -/
theorem not_startsName_after_name (name : (shape following byte tail).1 = .name) :
    ∀ next ∈ (tail.drop (shape following byte tail).2).head?, Byte.startsName next = false :=
  fun next first => (Bool.or_eq_false_iff.mp (not_continuesName_after_name name next first)).1

end Shape

section Collect

variable {following : Option UInt8} {start depth : Nat} {bytes : List UInt8} {word : Word}

theorem bounds_of_mem_collect_nil (member : word ∈ collect following start depth #[] bytes) :
    start ≤ word.span.start ∧ word.span.start < word.span.stop ∧
      word.span.stop ≤ start + bytes.length := by
  rcases bounds_of_mem_collect member with none | bounds
  · simp at none
  · exact bounds

/-- Bytes that do not start with a name have their first name later on. -/
theorem lt_start_of_name (other : ∀ next ∈ bytes.head?, Byte.startsName next = false)
    (member : word ∈ collect following start depth #[] bytes) (name : word.kind = .name) :
    start < word.span.start := by
  cases bytes with
  | nil => simp [collect] at member
  | cons byte tail =>
      have starts := other byte rfl
      rw [collect] at member
      split at member
      · exact (bounds_of_mem_collect_nil member).1
      · dsimp only at member
        rw [collect_eq_append, Array.mem_append] at member
        rcases member with first | later
        · obtain rfl : word = _ := by simpa using first
          rw [shape_fst_eq_name_iff, starts] at name
          cases name
        · have bounds := bounds_of_mem_collect_nil later
          omega

/-- Each word comes before those found after it. -/
theorem pairwise_collect (following : Option UInt8) (start depth : Nat) (bytes : List UInt8) :
    (collect following start depth #[] bytes).toList.Pairwise Before := by
  match bytes with
  | [] =>
    rw [collect]
    exact List.Pairwise.nil
  | byte :: tail =>
    rw [collect]
    split
    · exact pairwise_collect following (start + 1) depth tail
    · dsimp only
      rw [collect_eq_append, Array.toList_append]
      refine List.pairwise_cons.mpr ⟨?_, pairwise_collect following _ _ (tail.drop _)⟩
      intro later member
      rw [Array.mem_toList_iff] at member
      refine ⟨(bounds_of_mem_collect_nil member).1, ?_⟩
      intro name later_name
      exact lt_start_of_name (not_startsName_after_name name) member later_name
termination_by bytes.length
decreasing_by all_goals simp only [List.length_cons, List.length_drop]; omega

end Collect

/-- The words of a body come one after the other. -/
theorem pairwise_split (source : Source) (span : Span) : (split source span).Pairwise Before :=
  pairwise_collect _ _ _ _

end Word
end TwigTemplate
