import Mathlib.Data.List.TakeWhile
import TwigTemplate.Proofs.Literal
import TwigTemplate.Proofs.Word.Alone
import TwigTemplate.Proofs.Word.Place

/-!
# Literals among the words of a tag

Where the literals of a content lie is told from its quotes alone: names, numbers and punctuation
hold none.
-/

namespace TwigTemplate

namespace Byte

theorem not_continuesName_of_isQuote {byte : UInt8} (quotes : isQuote byte = true) :
    continuesName byte = false := by
  simp only [isQuote, Bool.or_eq_true, beq_iff_eq] at quotes
  rcases quotes with rfl | rfl <;> decide

theorem not_isDigit_of_isQuote {byte : UInt8} (quotes : isQuote byte = true) :
    isDigit byte = false :=
  (Bool.or_eq_false_iff.mp (not_continuesName_of_isQuote quotes)).2

theorem not_isSpace_of_isQuote {byte : UInt8} (quotes : isQuote byte = true) :
    isSpace byte = false := by
  simp only [isQuote, Bool.or_eq_true, beq_iff_eq] at quotes
  rcases quotes with rfl | rfl <;> decide

theorem not_isQuote_of_isSpace {byte : UInt8} (space : isSpace byte = true) :
    isQuote byte = false := by
  rw [Bool.eq_false_iff]
  intro quotes
  rw [not_isSpace_of_isQuote quotes] at space
  cases space

end Byte

namespace Literal

/-- The places of the literals among bytes that begin at an offset.  One that is never closed goes
up to the end. -/
def places (start : Nat) : List UInt8 → List Span
  | [] => []
  | byte :: tail =>
    if Byte.isQuote byte then
      let extra := (remainder? byte tail).getD tail.length
      ⟨start, start + extra + 1⟩ :: places (start + extra + 1) (tail.drop extra)
    else places (start + 1) tail
termination_by bytes => bytes.length
decreasing_by all_goals simp only [List.length_cons, List.length_drop]; omega

/-- No byte is a quote. -/
def Plain (bytes : List UInt8) : Prop := ∀ byte ∈ bytes, Byte.isQuote byte = false

@[simp]
theorem places_nil (start : Nat) : places start [] = [] := by rw [places]

theorem places_of_isQuote {quote : UInt8} (quotes : Byte.isQuote quote = true) (start : Nat)
    (tail : List UInt8) :
    places start (quote :: tail) =
      ⟨start, start + (remainder? quote tail).getD tail.length + 1⟩ ::
        places (start + (remainder? quote tail).getD tail.length + 1)
          (tail.drop ((remainder? quote tail).getD tail.length)) := by
  rw [places, if_pos quotes]

/-- Where there are no quotes, there are no literals. -/
theorem places_append_of_plain {front : List UInt8} (plain : Plain front) (start : Nat)
    (rest : List UInt8) : places start (front ++ rest) = places (start + front.length) rest := by
  induction front generalizing start with
  | nil => rfl
  | cons byte front ih =>
      rw [Plain, List.forall_mem_cons] at plain
      rw [List.cons_append, places, plain.1, if_neg Bool.false_ne_true, ih plain.2,
        List.length_cons]
      congr 1
      omega

/-- A closed literal comes before those after its closing quote. -/
theorem places_of_inside {quote : UInt8} {inside : List UInt8}
    (quotes : Byte.isQuote quote = true) (within : Inside quote inside) (start : Nat)
    (rest : List UInt8) :
    places start (quote :: (inside ++ quote :: rest)) =
      ⟨start, start + inside.length + 2⟩ :: places (start + inside.length + 2) rest := by
  have closed : remainder? quote (inside ++ quote :: rest) = some (inside.length + 1) :=
    (remainder?_eq_some_iff quotes).mpr ⟨inside, rest, rfl, within, rfl⟩
  have dropped : (inside ++ quote :: rest).drop (inside.length + 1) = rest := by
    rw [List.drop_length_add_append]
    rfl
  rw [places_of_isQuote quotes, closed, Option.getD_some, dropped]
  rfl

/-- A literal that is never closed is the last one. -/
theorem places_of_not_closed {quote : UInt8} {tail : List UInt8}
    (quotes : Byte.isQuote quote = true) (missing : ¬ Closed quote tail) (start : Nat) :
    places start (quote :: tail) = [⟨start, start + tail.length + 1⟩] := by
  rw [places_of_isQuote quotes, (remainder?_eq_none_iff quotes).mpr missing, Option.getD_none,
    List.drop_length, places_nil]

end Literal

namespace Word

open Literal

section Shape

variable {following : Option UInt8} {byte : UInt8} {tail : List UInt8}

theorem shape_of_isQuote (quotes : Byte.isQuote byte = true) :
    shape following byte tail = (.literal, (remainder? byte tail).getD tail.length) := by
  have continues := Byte.not_continuesName_of_isQuote quotes
  rw [Byte.continuesName, Bool.or_eq_false_iff] at continues
  simp [shape, continues, quotes]

/-- A number goes on with digits, underscores and points. -/
theorem exists_taken_of_numberRemainder_go (following : Option UInt8) (bytes : List UInt8)
    (passed : Nat) :
    ∃ taken, numberRemainder.go following bytes passed = passed + taken ∧
      ∀ byte ∈ bytes.take taken,
        Byte.isDigit byte = true ∨ byte = Byte.ofChar '_' ∨ byte = Byte.dot := by
  fun_induction numberRemainder.go following bytes passed with
  | case1 passed => exact ⟨0, rfl, by simp⟩
  | case2 passed byte tail digit ih =>
      obtain ⟨taken, reached, further⟩ := ih
      rw [Bool.or_eq_true, beq_iff_eq] at digit
      exact ⟨taken + 1, by omega, List.forall_mem_cons.mpr ⟨digit.imp_right .inl, further⟩⟩
  | case3 passed byte tail other point ih =>
      obtain ⟨taken, reached, further⟩ := ih
      rw [Bool.and_eq_true, beq_iff_eq] at point
      exact ⟨taken + 1, by omega, List.forall_mem_cons.mpr ⟨.inr (.inr point.1), further⟩⟩
  | case4 passed byte tail other ended => exact ⟨0, rfl, by simp⟩

/-- What holds of all operators holds of the one that two bytes form. -/
theorem exists_of_isOperator {property : Char × Char → Bool} {first second : UInt8}
    (known : operators.all property = true) (operator : isOperator first second = true) :
    ∃ pair, property pair = true ∧ first = Byte.ofChar pair.1 ∧ second = Byte.ofChar pair.2 := by
  obtain ⟨pair, listed, same⟩ := List.any_eq_true.mp operator
  rw [Bool.and_eq_true, beq_iff_eq, beq_iff_eq] at same
  exact ⟨pair, List.all_eq_true.mp known pair listed, same⟩

theorem not_isQuote_of_isOperator {first second : UInt8}
    (operator : isOperator first second = true) : Byte.isQuote second = false := by
  have known : operators.all (fun pair => !Byte.isQuote (Byte.ofChar pair.2)) = true := by decide
  obtain ⟨pair, plain, -, rfl⟩ := exists_of_isOperator known operator
  exact (Bool.not_eq_true' _).mp plain

/-- Words that begin with no quote are no literals and hold no quote. -/
theorem plain_of_shape (other : Byte.isQuote byte = false) :
    (shape following byte tail).1 ≠ .literal ∧
      Plain (byte :: tail.take (shape following byte tail).2) := by
  rw [shape]
  split
  · refine ⟨by simp, List.forall_mem_cons.mpr ⟨other, ?_⟩⟩
    intro next member
    rw [← List.prefix_iff_eq_take.mp (List.takeWhile_prefix _)] at member
    have continues := List.mem_takeWhile_imp member
    rw [Bool.eq_false_iff]
    intro quotes
    rw [Byte.not_continuesName_of_isQuote quotes] at continues
    cases continues
  split
  · obtain ⟨taken, reached, further⟩ := exists_taken_of_numberRemainder_go following tail 0
    refine ⟨by simp, List.forall_mem_cons.mpr ⟨other, ?_⟩⟩
    rw [numberRemainder, reached, Nat.zero_add]
    intro next member
    rw [Bool.eq_false_iff]
    intro quotes
    rcases further next member with digit | rfl | rfl
    · rw [Byte.not_isDigit_of_isQuote quotes] at digit
      cases digit
    · cases quotes
    · cases quotes
  rw [if_neg (by simp [other])]
  split
  · rename_i operator
    cases tail with
    | nil => cases operator
    | cons second rest =>
        have second_plain := not_isQuote_of_isOperator operator
        exact ⟨by simp, by simp [Plain, other, second_plain]⟩
  · exact ⟨by simp, List.forall_mem_cons.mpr ⟨other, by simp⟩⟩

end Shape

/-- The literals among the words are those that the quotes show. -/
theorem literals_collect (following : Option UInt8) (start depth : Nat) (bytes : List UInt8) :
    ((collect following start depth #[] bytes).toList.filter (·.kind == .literal)).map (·.span) =
      places start bytes := by
  match bytes with
  | [] =>
    rw [collect, places_nil]
    rfl
  | byte :: tail =>
    rw [collect]
    split
    · rename_i space
      rw [literals_collect following (start + 1) depth tail, places,
        Byte.not_isQuote_of_isSpace space, if_neg Bool.false_ne_true]
    · dsimp only
      rw [collect_eq_append, Array.toList_append, List.filter_append, List.map_append,
        literals_collect following _ _ (tail.drop _)]
      cases quotes : Byte.isQuote byte with
      | true =>
          rw [shape_of_isQuote quotes, places_of_isQuote quotes]
          rfl
      | false =>
          obtain ⟨no_literal, plain⟩ : (shape following byte tail).1 ≠ .literal ∧
              Plain (byte :: tail.take (shape following byte tail).2) := plain_of_shape quotes
          have passed := places_append_of_plain plain start
            (tail.drop (shape following byte tail).2)
          rw [List.cons_append, List.take_append_drop, List.length_cons,
            List.length_take_of_le (shape_le following byte tail)] at passed
          rw [passed]
          simp [no_literal, Nat.add_assoc]
termination_by bytes.length
decreasing_by all_goals simp only [List.length_cons, List.length_drop]; omega

end Word
end TwigTemplate
