import TwigTemplate.Proofs.Literal.Enclosed
import TwigTemplate.Proofs.Word.Order

/-!
# Words of contents that are put together

A content whose literals are closed has its words whatever separator follows it, so the words of a
content in parts are those of its parts.
-/

namespace TwigTemplate

namespace Byte

/-- Bytes that go on with no word: spaces, parentheses and commas. -/
def separates (byte : UInt8) : Bool :=
  isSpace byte || byte == ofChar '(' || byte == ofChar ')' || byte == ofChar ','

theorem not_continuesName_of_separates {byte : UInt8} (separates : separates byte = true) :
    continuesName byte = false := by
  simp only [Byte.separates, Bool.or_eq_true, beq_iff_eq] at separates
  rcases separates with ((space | rfl) | rfl) | rfl
  · exact not_continuesName_of_isSpace space
  · decide
  · decide
  · decide

end Byte

namespace Literal

variable {run rest : List UInt8}

theorem Complete.of_plain (plain : Plain run) : Complete run := by
  induction run with
  | nil => exact .nil
  | cons byte run ih =>
      rw [Plain, List.forall_mem_cons] at plain
      exact .plain plain.1 (ih plain.2)

theorem Complete.of_append (complete : Complete (run ++ rest)) (plain : Plain run) :
    Complete rest := by
  induction run with
  | nil => exact complete
  | cons byte run ih =>
      rw [Plain, List.forall_mem_cons] at plain
      exact ih ((complete_cons_of_plain plain.1).mp complete) plain.2

end Literal

namespace Word

open Literal

/-- The bytes begin with a separator. -/
def Separated (bytes : List UInt8) : Prop :=
  ∃ byte tail, bytes = byte :: tail ∧ Byte.separates byte = true

section Shape

variable {following : Option UInt8} {byte : UInt8} {tail right : List UInt8}

theorem separated_cons (separates : Byte.separates byte = true) : Separated (byte :: tail) :=
  ⟨byte, tail, rfl, separates⟩

/-- Operators hold no separators. -/
theorem not_separates_of_isOperator {first second : UInt8}
    (operator : isOperator first second = true) :
    Byte.separates first = false ∧ Byte.separates second = false := by
  have known : operators.all (fun pair => !Byte.separates (Byte.ofChar pair.1) &&
      !Byte.separates (Byte.ofChar pair.2)) = true := by decide
  obtain ⟨pair, others, rfl, rfl⟩ := exists_of_isOperator known operator
  simpa using others

/-- A number goes on up to a separator as it does up to the end. -/
theorem numberRemainder_go_append (separated : Separated right) (following : Option UInt8)
    (bytes : List UInt8) (passed : Nat) :
    numberRemainder.go following (bytes ++ right) passed =
      numberRemainder.go none bytes passed := by
  obtain ⟨separator, behind, rfl, separates⟩ := separated
  have no_name := Byte.not_continuesName_of_separates separates
  have no_digit : Byte.isDigit separator = false := (Bool.or_eq_false_iff.mp no_name).2
  have no_dot : separator ≠ Byte.dot := by
    rintro rfl
    cases separates
  have no_line : separator ≠ Byte.ofChar '_' := by
    rintro rfl
    cases separates
  induction bytes generalizing passed with
  | nil => simp [numberRemainder.go, no_digit, no_dot, no_line]
  | cons byte bytes ih =>
      have ends : ((bytes ++ separator :: behind).head?.or following != some Byte.dot) =
          (bytes.head?.or none != some Byte.dot) := by
        cases bytes with
        | nil =>
            have other : some separator ≠ some Byte.dot := fun same => no_dot (Option.some.inj same)
            exact (bne_iff_ne.mpr other).trans rfl
        | cons next bytes => rfl
      rw [List.cons_append, numberRemainder.go, numberRemainder.go, ends, ih]

/-- A word goes on up to a separator as it does up to the end. -/
theorem shape_append (complete : Complete (byte :: tail)) (separated : Separated right) :
    shape following byte (tail ++ right) = shape none byte tail := by
  have number := numberRemainder_go_append separated following tail 0
  obtain ⟨separator, behind, rfl, separates⟩ := separated
  have no_name := Byte.not_continuesName_of_separates separates
  by_cases quotes : Byte.isQuote byte = true
  · cases complete with
    | plain other =>
        rw [quotes] at other
        cases other
    | @closed _ inside rest _ within _ =>
        have closed (after : List UInt8) :
            remainder? byte (inside ++ byte :: after) = some (inside.length + 1) :=
          (remainder?_eq_some_iff quotes).mpr ⟨inside, after, rfl, within, rfl⟩
        rw [shape_of_isQuote quotes, shape_of_isQuote quotes, List.append_assoc, List.cons_append,
          closed, closed]
        rfl
  · have ends : (separator :: behind).takeWhile Byte.continuesName = [] :=
      List.takeWhile_cons_of_neg (by simp [no_name])
    have name : (tail ++ separator :: behind).takeWhile Byte.continuesName =
        tail.takeWhile Byte.continuesName := by
      rw [List.takeWhile_append, ends, List.append_nil]
      split
      · rename_i whole
        exact ((List.takeWhile_prefix _).eq_of_length whole).symm
      · rfl
    have operator : (tail ++ separator :: behind).head?.any (isOperator byte) =
        tail.head?.any (isOperator byte) := by
      cases tail with
      | nil =>
          rw [List.nil_append, List.head?_cons, Option.any_some, List.head?_nil, Option.any_none,
            Bool.eq_false_iff]
          intro operator
          rw [(not_separates_of_isOperator operator).2] at separates
          cases separates
      | cons next tail => rfl
    rw [shape, shape, name, operator, numberRemainder, number, numberRemainder, if_neg quotes,
      if_neg quotes]

/-- Behind the first word all literals are closed. -/
theorem complete_drop_shape (complete : Complete (byte :: tail)) :
    Complete (tail.drop (shape none byte tail).2) := by
  cases quotes : Byte.isQuote byte with
  | true =>
      obtain ⟨length, closed, further⟩ := (complete_cons_of_isQuote quotes).mp complete
      rwa [shape_of_isQuote quotes, Option.mem_def.mp closed]
  | false =>
      have plain : Plain (byte :: tail.take (shape none byte tail).2) := (plain_of_shape quotes).2
      rw [← List.take_append_drop (shape none byte tail).2 tail, ← List.cons_append] at complete
      exact complete.of_append plain

end Shape

/-! ### Brackets -/

/-- The word opens a bracket. -/
def opens (word : Word) : Bool := word.isMark "(" || word.isMark "[" || word.isMark "\x7b"

/-- The word closes a bracket. -/
def closes (word : Word) : Bool := word.isMark ")" || word.isMark "]" || word.isMark "\x7d"

/-- Number of open brackets behind the word. -/
def depthBehind (word : Word) : Nat := if word.opens then word.depth + 1 else word.depth

/-- Number of open brackets behind words that begin inside so many. -/
def depthAfter (depth : Nat) (words : List Word) : Nat :=
  (words.getLast?.map depthBehind).getD depth

/-- The words of bytes that begin at an offset. -/
def among (following : Option UInt8) (start depth : Nat) (bytes : List UInt8) : List Word :=
  (collect following start depth #[] bytes).toList

/-- The first word of bytes that begin with no space. -/
def first (following : Option UInt8) (start depth : Nat) (byte : UInt8) (tail : List UInt8) :
    Word :=
  let taken := shape following byte tail
  ⟨taken.1, ⟨start, start + taken.2 + 1⟩,
    if taken.1 = .punctuation && isCloseBracket byte then depth - 1 else depth,
    (String.fromUTF8? ⟨(byte :: tail.take taken.2).toArray⟩).getD ""⟩

section Among

variable {following : Option UInt8} {start depth : Nat} {byte : UInt8} {tail : List UInt8}

theorem shape_of_punctuation (punctuation : (shape following byte tail).1 = .punctuation) :
    (shape following byte tail).2 = 0 := by
  rw [shape] at punctuation ⊢
  split at punctuation
  · cases punctuation
  split at punctuation
  · cases punctuation
  split at punctuation
  · cases punctuation
  split at punctuation
  · cases punctuation
  · simp [*]

/-- A mark is its byte. -/
theorem isMark_first {mark : String} {other : UInt8} (written : mark.toUTF8.data.toList = [other]) :
    (first following start depth byte tail).isMark mark = true ↔
      (shape following byte tail).1 = .punctuation ∧ byte = other := by
  have filled : mark ≠ "" := by
    rintro rfl
    cases written
  rw [isMark, Bool.and_eq_true, beq_iff_eq, beq_iff_eq]
  refine and_congr_right fun punctuation => ?_
  dsimp only [first] at punctuation ⊢
  rw [shape_of_punctuation punctuation, List.take_zero, Source.getD_fromUTF8?_eq_iff filled,
    written, List.singleton_inj, eq_comm]

theorem opens_first :
    (first following start depth byte tail).opens = true ↔
      (shape following byte tail).1 = .punctuation ∧ isOpenBracket byte = true := by
  have parenthesis : "(".toUTF8.data.toList = [Byte.ofChar '('] := by decide
  have bracket : "[".toUTF8.data.toList = [Byte.ofChar '['] := by decide
  have brace : "\x7b".toUTF8.data.toList = [Byte.leftBrace] := by decide
  simp only [opens, isOpenBracket, Bool.or_eq_true, beq_iff_eq, isMark_first parenthesis,
    isMark_first bracket, isMark_first brace, and_or_left]

theorem closes_first :
    (first following start depth byte tail).closes = true ↔
      (shape following byte tail).1 = .punctuation ∧ isCloseBracket byte = true := by
  have parenthesis : ")".toUTF8.data.toList = [Byte.ofChar ')'] := by decide
  have bracket : "]".toUTF8.data.toList = [Byte.ofChar ']'] := by decide
  have brace : "\x7d".toUTF8.data.toList = [Byte.rightBrace] := by decide
  simp only [closes, isCloseBracket, Bool.or_eq_true, beq_iff_eq, isMark_first parenthesis,
    isMark_first bracket, isMark_first brace, and_or_left]

theorem depth_first :
    (first following start depth byte tail).depth =
      if (first following start depth byte tail).closes then depth - 1 else depth := by
  have same : ((shape following byte tail).1 = .punctuation && isCloseBracket byte) =
      (first following start depth byte tail).closes := by
    rw [Bool.eq_iff_iff, closes_first, Bool.and_eq_true, decide_eq_true_eq]
  rw [← same]
  rfl

@[simp]
theorem among_nil (following : Option UInt8) (start depth : Nat) :
    among following start depth [] = [] := by
  rw [among, collect]

theorem among_cons_of_isSpace (space : Byte.isSpace byte = true) :
    among following start depth (byte :: tail) = among following (start + 1) depth tail := by
  rw [among, collect, if_pos space, among]

theorem among_cons (other : Byte.isSpace byte = false) :
    among following start depth (byte :: tail) =
      first following start depth byte tail ::
        among following (start + (shape following byte tail).2 + 1)
          (first following start depth byte tail).depthBehind
          (tail.drop (shape following byte tail).2) := by
  rw [among, collect, if_neg (by simp [other])]
  dsimp only
  have behind : (first following start depth byte tail).depthBehind =
      if (shape following byte tail).1 = .punctuation && isOpenBracket byte then
        (first following start depth byte tail).depth + 1
      else (first following start depth byte tail).depth := by
    have same : (first following start depth byte tail).opens =
        ((shape following byte tail).1 = .punctuation && isOpenBracket byte) := by
      rw [Bool.eq_iff_iff, opens_first, Bool.and_eq_true, decide_eq_true_eq]
    rw [depthBehind, same]
  rw [collect_eq_append, Array.toList_append, behind]
  rfl

end Among

theorem depthAfter_cons (depth : Nat) (word : Word) (words : List Word) :
    depthAfter depth (word :: words) = depthAfter word.depthBehind words := by
  cases words with
  | nil => rfl
  | cons next words => rw [depthAfter, depthAfter, List.getLast?_cons_cons]; rfl

theorem first_append {byte : UInt8} {tail right : List UInt8} (complete : Complete (byte :: tail))
    (separated : Separated right) (following : Option UInt8) (start depth : Nat) :
    first following start depth byte (tail ++ right) = first none start depth byte tail := by
  rw [first, first, shape_append complete separated,
    List.take_append_of_le_length (shape_le none byte tail)]

/-- The words of two contents, of which the second one begins with a separator. -/
theorem among_append {left right : List UInt8} (complete : Complete left)
    (separated : Separated right) (following : Option UInt8) (start depth : Nat) :
    among following start depth (left ++ right) =
      among none start depth left ++
        among following (start + left.length) (depthAfter depth (among none start depth left))
          right := by
  match left with
  | [] => rw [among_nil]; rfl
  | byte :: tail =>
    cases space : Byte.isSpace byte with
    | true =>
        have other := Byte.not_isQuote_of_isSpace space
        rw [List.cons_append, among_cons_of_isSpace space, among_cons_of_isSpace space,
          among_append ((complete_cons_of_plain other).mp complete) separated, List.length_cons]
        congr 2
        omega
    | false =>
        have drop_complete := complete_drop_shape complete
        have fits := shape_le none byte tail
        rw [List.cons_append, among_cons space, among_cons space, first_append complete separated,
          shape_append complete separated, List.drop_append_of_le_length fits,
          among_append drop_complete separated, depthAfter_cons, List.cons_append]
        congr 3
        rw [List.length_drop, List.length_cons]
        omega
termination_by left.length
decreasing_by all_goals simp only [List.length_cons, List.length_drop]; omega

end Word
end TwigTemplate
