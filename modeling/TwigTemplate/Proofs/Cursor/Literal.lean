import TwigTemplate.Cursor
import TwigTemplate.Proofs.Source
import TwigTemplate.Proofs.Token.Typed

/-!
# Cursors in literals

Of the lexemes of a template, only the one that a cursor stands in or behind tells whether the
cursor stands in a literal.  A literal that is being typed is a run that begins with a quote, so it
is known as a literal before it is complete.
-/

namespace TwigTemplate

open Lexeme

namespace Document

variable {document typed whole : Document} {left right lexemes : List Lexeme}
  {lexeme last : Lexeme} {offset : Nat}

/-- The token that an offset lies in or behind. -/
theorem exists_tokens_eq (tokens : document.tokens.toList = placeAll 0 (left ++ lexeme :: right)) :
    document.tokens.toList = placeAll 0 left ++ lexeme.place (width left) ::
        placeAll (width left + lexeme.length) right ∧
      (placeAll 0 left).length = left.length := by
  constructor
  · rw [tokens, placeAll_append, Nat.zero_add]
    rfl
  · have kinds := congrArg List.length (map_kind_placeAll 0 left)
    simpa using kinds

/-- Bisection finds the lexeme that the offset lies in or behind. -/
theorem partitionPoint_tokens
    (tokens : document.tokens.toList = placeAll 0 (left ++ lexeme :: right))
    (above : width left < offset) (below : offset ≤ width left + lexeme.length) :
    partitionPoint (fun index => document.tokens[index]?.any (·.span.stop < offset))
      document.tokens.size = left.length := by
  obtain ⟨split, count⟩ := exists_tokens_eq tokens
  -- The tokens before that lexeme end before the offset, and the others do not.
  have ends : ∀ index, document.tokens[index]?.any (·.span.stop < offset) =
      decide (index < left.length) := by
    intro index
    rw [← Array.getElem?_toList, split]
    rcases Nat.lt_or_ge index left.length with earlier | later
    · have inside : index < (placeAll 0 left).length := count ▸ earlier
      rw [List.getElem?_append_left inside, List.getElem?_eq_getElem inside, decide_eq_true earlier]
      have bounds := stop_mem_placeAll (List.getElem_mem inside)
      simp only [Option.any_some, decide_eq_true_eq]
      omega
    · rw [List.getElem?_append_right (count ▸ later), decide_eq_false (Nat.not_lt.mpr later),
        Bool.eq_false_iff, ne_eq, Option.any_eq_true]
      rintro ⟨token, found, before⟩
      rw [decide_eq_true_eq] at before
      rcases List.mem_cons.mp (List.mem_of_getElem? found) with rfl | member
      · simp only [place] at before
        omega
      · have bounds := stop_mem_placeAll member
        omega
  have filled : left.length ≤ document.tokens.size := by
    rw [← Array.length_toList, split, List.length_append, count]
    exact Nat.le_add_right _ _
  have counts : ∀ index, index < partitionPoint
      (fun index => document.tokens[index]?.any (·.span.stop < offset)) document.tokens.size ↔
        index < left.length := by
    intro index
    simp only [ends]
    rw [lt_partitionPoint_iff _ _ _ (by simp only [decide_eq_true_eq]; omega), decide_eq_true_eq]
    omega
  exact Nat.le_antisymm (Nat.not_lt.mp (mt (counts _).mp (Nat.lt_irrefl _)))
    (Nat.not_lt.mp (mt (counts _).mpr (Nat.lt_irrefl _)))

/-- Only the lexeme that the offset lies in or behind tells whether it lies in a literal. -/
theorem inLiteral_iff (tokens : document.tokens.toList = placeAll 0 (left ++ lexeme :: right))
    (above : width left < offset) (below : offset ≤ width left + lexeme.length) :
    document.inLiteral offset = true ↔
      lexeme.kind = .quoted ∧ offset < width left + lexeme.length ∨
        lexeme.kind = .raw ∧ (document.source.byte? (width left)).any Byte.isQuote = true := by
  obtain ⟨split, count⟩ := exists_tokens_eq tokens
  have found : document.tokens[left.length]? = some (lexeme.place (width left)) := by
    rw [← Array.getElem?_toList, split, ← count, List.getElem?_append_right (Nat.le_refl _),
      Nat.sub_self, List.getElem?_cons_zero]
  rw [inLiteral, partitionPoint_tokens tokens above below, found]
  cases kind : lexeme.kind <;> simp [place, above, kind]

/-- A literal begins with a quote. -/
theorem isQuote_of_quoted {source : Source} {final : Mode}
    (reads : Reads .markup source.toList (left ++ lexeme :: right) final [])
    (quoted : lexeme.kind = .quoted) : (source.byte? (width left)).any Byte.isQuote = true := by
  obtain ⟨middle, between, first, further⟩ := reads.exists_of_append
  obtain ⟨front, split, long⟩ := first.exists_taken
  obtain ⟨byte, tail, rfl, taken⟩ := further.exists_first rfl
  have spelled := spelled_next middle byte tail
  rw [taken, Spelled, quoted] at spelled
  obtain ⟨-, quote, inside, quotes, bytes⟩ := spelled
  rw [← long, Source.byte?_length_of_split split, List.head?_cons, Option.any_some,
    (List.cons.inj bytes).1, quotes]

/-- In a text that is cut off at the offset, it lies in a literal if and only if it does in the
whole. -/
theorem inLiteral_typed {final : Mode} (begins : typed.source.Begins whole.source)
    (reads : Reads .markup whole.source.toList lexemes final [])
    (whole_tokens : whole.tokens.toList = placeAll 0 lexemes)
    (typed_tokens : typed.tokens.toList = placeAll 0 (left ++ [last]))
    (size : width (left ++ [last]) = offset) (ends : typed.source.size = offset)
    (found : TypedAt lexemes left lexeme last offset) :
    typed.inLiteral offset = whole.inLiteral offset := by
  obtain ⟨⟨right, rfl⟩, above, below, complete⟩ := found
  rw [width_append, width_cons, width_nil, Nat.add_zero] at size
  rw [Bool.eq_iff_iff, inLiteral_iff typed_tokens above (Nat.le_of_eq size.symm),
    inLiteral_iff whole_tokens above below, begins.byte?_eq (by omega)]
  rcases complete with rfl | ⟨is_raw, whole_raw | whole_quoted, shorter⟩
  · rw [size]
  · simp [is_raw, whole_raw]
  · simp [is_raw, whole_quoted, shorter, isQuote_of_quoted reads whole_quoted]

end Document
end TwigTemplate
