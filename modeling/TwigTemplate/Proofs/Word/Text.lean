import TwigTemplate.Proofs.Character
import TwigTemplate.Proofs.Token.Boundary
import TwigTemplate.Proofs.Word.Literal
import TwigTemplate.Proofs.Word.Order

/-!
# The texts of words

A word ends with an ASCII character or before one, or else with the content in which it stands.  So
words begin and end between characters whenever their content does, and each is read as it is
written.
-/

namespace TwigTemplate

namespace Byte

theorem isAscii_of_lt {byte : UInt8} (small : byte < 0x80) : IsAscii byte := by
  have known : ∀ value : Fin 128, (Char.ofNat value.val).utf8Size = 1 ∧
      UInt8.ofNat value.val = ofChar (Char.ofNat value.val) := by decide +kernel
  have bound : byte.toNat < 128 := UInt8.lt_iff_toNat_lt.mp small
  obtain ⟨single, same⟩ := known ⟨byte.toNat, bound⟩
  rw [UInt8.ofNat_toNat] at same
  exact ⟨_, single, same⟩

/-- What starts no name is ASCII. -/
theorem isAscii_of_not_startsName {byte : UInt8} (other : startsName byte = false) :
    IsAscii byte := by
  rw [startsName, Bool.or_eq_false_iff, decide_eq_false_iff_not, UInt8.not_le] at other
  exact isAscii_of_lt other.2

theorem isAscii_of_isDigit {byte : UInt8} (digit : isDigit byte = true) : IsAscii byte := by
  rw [isDigit, Bool.and_eq_true, decide_eq_true_iff, decide_eq_true_iff] at digit
  exact isAscii_of_lt (UInt8.lt_of_le_of_lt digit.2 (by decide))

theorem isAscii_of_isSpace {byte : UInt8} (space : isSpace byte = true) : IsAscii byte := by
  apply isAscii_of_not_startsName
  exact (Bool.or_eq_false_iff.mp (not_continuesName_of_isSpace space)).1

end Byte

namespace Word

section Shape

variable {following : Option UInt8} {byte : UInt8} {tail : List UInt8}

theorem endsAscii_of_forall {bytes : List UInt8} (filled : bytes ≠ [])
    (ascii : ∀ byte ∈ bytes, Byte.IsAscii byte) : EndsAscii bytes :=
  ⟨bytes.dropLast, bytes.getLast filled, (List.dropLast_concat_getLast filled).symm,
    ascii _ (List.getLast_mem filled)⟩

theorem isAscii_of_isOperator {first second : UInt8} (operator : isOperator first second = true) :
    Byte.IsAscii second := by
  have known : operators.all (fun pair => pair.2.utf8Size == 1) = true := by decide
  obtain ⟨pair, single, -, same⟩ := exists_of_isOperator known operator
  exact ⟨pair.2, beq_iff_eq.mp single, same⟩

/-- A word ends with an ASCII character, or before one, or with the content. -/
theorem shape_stops (following : Option UInt8) (byte : UInt8) (tail : List UInt8) :
    EndsAscii (byte :: tail.take (shape following byte tail).2) ∨
      StartsAscii (tail.drop (shape following byte tail).2) ∨
      tail.drop (shape following byte tail).2 = [] := by
  by_cases name : (shape following byte tail).1 = .name
  · have ends := not_startsName_after_name name
    cases rest : tail.drop (shape following byte tail).2 with
    | nil => exact .inr (.inr rfl)
    | cons next others =>
        rw [rest] at ends
        exact .inr (.inl ⟨next, others, rfl, Byte.isAscii_of_not_startsName (ends next rfl)⟩)
  rw [shape_fst_eq_name_iff] at name
  rw [shape, if_neg name]
  split
  · rename_i digit
    obtain ⟨taken, reached, further⟩ := exists_taken_of_numberRemainder_go following tail 0
    left
    rw [numberRemainder, reached, Nat.zero_add]
    refine endsAscii_of_forall (List.cons_ne_nil _ _)
      (List.forall_mem_cons.mpr ⟨Byte.isAscii_of_isDigit digit, ?_⟩)
    intro next member
    rcases further next member with digit | rfl | rfl
    · exact Byte.isAscii_of_isDigit digit
    · exact ⟨'_', by decide, rfl⟩
    · exact ⟨'.', by decide, rfl⟩
  split
  · rename_i quotes
    cases closed : Literal.remainder? byte tail with
    | none => exact .inr (.inr (by simp))
    | some length =>
        obtain ⟨inside, rest, rfl, -, rfl⟩ := (Literal.remainder?_eq_some_iff quotes).mp closed
        left
        refine ⟨byte :: inside, byte, ?_, Byte.isAscii_of_isQuote quotes⟩
        rw [Option.getD_some, List.take_length_add_append]
        rfl
  have ascii := Byte.isAscii_of_not_startsName (Bool.eq_false_iff.mpr name)
  split
  · rename_i operator
    left
    cases tail with
    | nil => cases operator
    | cons second rest => exact ⟨[byte], second, rfl, isAscii_of_isOperator operator⟩
  · exact .inl ⟨[], byte, rfl, ascii⟩

theorem spellsName_of_shape (name : (shape following byte tail).1 = .name) :
    SpellsName (byte :: tail.take (shape following byte tail).2) := by
  have starts := shape_fst_eq_name_iff.mp name
  refine ⟨byte, _, rfl, starts, ?_⟩
  rw [shape, if_pos starts, ← List.prefix_iff_eq_take.mp (List.takeWhile_prefix _)]
  exact fun other member => List.mem_takeWhile_imp member

end Shape

/-- Two parts of a content meet beside an ASCII character, unless one of them is empty. -/
def MeetAscii (left right : List UInt8) : Prop :=
  left = [] ∨ right = [] ∨ EndsAscii left ∨ StartsAscii right

theorem MeetAscii.append {front left right : List UInt8} (first : MeetAscii front (left ++ right))
    (last : MeetAscii left right) : MeetAscii (front ++ left) right := by
  rcases last with rfl | rfl | ⟨others, byte, rfl, ascii⟩ | starts
  · rwa [List.append_nil]
  · exact .inr (.inl rfl)
  · exact .inr (.inr (.inl ⟨front ++ others, byte, (List.append_assoc _ _ _).symm, ascii⟩))
  · exact .inr (.inr (.inr starts))

/-- The word is a part of the content that is cut out beside ASCII characters. -/
structure CutFrom (word : Word) (start : Nat) (bytes before inside after : List UInt8) : Prop where
  /-- The content consists of the word and what stands around it. -/
  split : bytes = before ++ (inside ++ after)
  /-- The word begins beside an ASCII character. -/
  starts : MeetAscii before (inside ++ after)
  /-- The word ends beside an ASCII character. -/
  stops : MeetAscii (before ++ inside) after
  /-- The word lies where it was cut out. -/
  span_eq : word.span = ⟨start + before.length, start + before.length + inside.length⟩
  /-- The word is read as what was cut out. -/
  text_eq : word.text = (String.fromUTF8? ⟨inside.toArray⟩).getD ""
  /-- A name is spelled like one. -/
  spells : word.kind = .name → SpellsName inside

theorem CutFrom.behind {word : Word} {start : Nat} {front bytes before inside after : List UInt8}
    (cut : word.CutFrom (start + front.length) bytes before inside after)
    (meet : MeetAscii front bytes) :
    word.CutFrom start (front ++ bytes) (front ++ before) inside after := by
  have meet_inside := meet
  rw [cut.split] at meet
  rw [cut.split, ← List.append_assoc] at meet_inside
  refine ⟨by rw [cut.split, List.append_assoc], meet.append cut.starts, ?_, ?_, cut.text_eq,
    cut.spells⟩
  · rw [List.append_assoc]
    exact meet_inside.append cut.stops
  · rw [cut.span_eq, List.length_append, Nat.add_assoc start]

/-- Words are cut out of the content beside ASCII characters. -/
theorem exists_cutFrom_of_mem_collect {following : Option UInt8} {start depth : Nat}
    {bytes : List UInt8} {word : Word} (member : word ∈ collect following start depth #[] bytes) :
    ∃ before inside after, word.CutFrom start bytes before inside after := by
  match bytes with
  | [] => simp [collect] at member
  | byte :: tail =>
    rw [collect] at member
    split at member
    · rename_i space
      obtain ⟨before, inside, after, cut⟩ := exists_cutFrom_of_mem_collect member
      change word.CutFrom (start + [byte].length) tail before inside after at cut
      have meet : MeetAscii [byte] tail :=
        .inr (.inr (.inl ⟨[], byte, rfl, Byte.isAscii_of_isSpace space⟩))
      exact ⟨_, _, _, cut.behind meet⟩
    · dsimp only at member
      have parted : byte :: tail = (byte :: tail.take (shape following byte tail).2) ++
          tail.drop (shape following byte tail).2 := by
        rw [List.cons_append, List.take_append_drop]
      have long : (byte :: tail.take (shape following byte tail).2).length =
          (shape following byte tail).2 + 1 := by
        rw [List.length_cons, List.length_take_of_le (shape_le following byte tail)]
      have meet : MeetAscii (byte :: tail.take (shape following byte tail).2)
          (tail.drop (shape following byte tail).2) := by
        rcases shape_stops following byte tail with ends | starts | nothing
        · exact .inr (.inr (.inl ends))
        · exact .inr (.inr (.inr starts))
        · exact .inr (.inl nothing)
      rw [collect_eq_append, Array.mem_append] at member
      rcases member with first | later
      · obtain rfl : word = _ := by simpa using first
        exact ⟨[], _, _, parted, .inl rfl, meet, by simp [long, Nat.add_assoc], rfl,
          spellsName_of_shape⟩
      · rw [Nat.add_assoc, ← long] at later
        obtain ⟨before, inside, after, cut⟩ := exists_cutFrom_of_mem_collect later
        have further := cut.behind meet
        rw [← parted] at further
        exact ⟨_, _, _, further⟩
termination_by bytes.length
decreasing_by all_goals simp only [List.length_cons, List.length_drop]; omega

/-- The text can be split where two parts of a content meet beside an ASCII character. -/
theorem MeetAscii.isValid {source : Source} {front left right back : List UInt8}
    (meet : MeetAscii left right) (split : source.toList = front ++ ((left ++ right) ++ back))
    (starts : (⟨front.length⟩ : String.Pos.Raw).IsValid source.text)
    (ends : (⟨(front ++ (left ++ right)).length⟩ : String.Pos.Raw).IsValid source.text) :
    (⟨(front ++ left).length⟩ : String.Pos.Raw).IsValid source.text := by
  have written := source.toUTF8_text.trans split
  rcases meet with rfl | rfl | ⟨others, byte, rfl, ascii⟩ | ⟨byte, tail, rfl, ascii⟩
  · rwa [List.append_nil]
  · rwa [List.append_nil] at ends
  · have after : source.text.toUTF8.data.toList =
        ((front ++ others) ++ [byte]) ++ (right ++ back) := by
      rw [written]
      simp only [List.append_assoc]
    rw [← List.append_assoc]
    exact Source.isValid_after_ascii ascii after
  · have before : source.text.toUTF8.data.toList = (front ++ left) ++ byte :: (tail ++ back) := by
      rw [written]
      simp only [List.append_assoc, List.cons_append]
    exact Source.isValid_before_ascii before ascii

/-- The word stands in a source as it is read. -/
structure StandsIn (source : Source) (word : Word) : Prop where
  /-- It is a part of the text. -/
  part : source.HasPart word.span
  /-- It is read as it is written. -/
  copied : word.text.toUTF8.data.toList = source.slice word.span
  /-- A name is spelled like one. -/
  spells : word.kind = .name → SpellsName (source.slice word.span)

/-- What is cut out of a part of a text stands in the text. -/
theorem CutFrom.standsIn {source : Source} {word : Word} {front back bytes before inside after :
    List UInt8} (cut : word.CutFrom front.length bytes before inside after)
    (split : source.toList = front ++ (bytes ++ back))
    (starts : (⟨front.length⟩ : String.Pos.Raw).IsValid source.text)
    (ends : (⟨(front ++ bytes).length⟩ : String.Pos.Raw).IsValid source.text) :
    word.StandsIn source := by
  obtain ⟨rfl, begins, stops, span_eq, text_eq, spells⟩ := cut
  have first := begins.isValid split starts ends
  rw [← List.append_assoc before] at split ends
  have last := stops.isValid split starts ends
  have parted : source.toList = (front ++ before) ++ (inside ++ (after ++ back)) := by
    rw [split]
    simp only [List.append_assoc]
  rw [← List.length_append] at span_eq
  rw [← List.append_assoc, List.length_append] at last
  have sliced := Source.slice_of_split parted
  rw [← span_eq] at sliced
  have part : source.HasPart word.span := by
    rw [span_eq]
    exact .of_isBoundary (Nat.le_add_right _ _) (Source.isBoundary_of_isValid first)
      (Source.isBoundary_of_isValid last)
  obtain ⟨-, text, -, -, -, -, copied⟩ := part.exists_texts
  rw [sliced] at copied
  refine ⟨part, ?_, fun name => sliced ▸ spells name⟩
  rw [text_eq, Source.fromUTF8?_eq_some_iff.mpr copied, Option.getD_some, copied, sliced]

/-- The words of a part of a text stand in the text. -/
theorem standsIn_of_mem_split {source : Source} {body : Span} {word : Word}
    (part : source.HasPart body) (member : word ∈ split source body) : word.StandsIn source := by
  obtain ⟨before, inner, after, text_eq, start_eq, stop_eq, copied⟩ := part.exists_texts
  obtain ⟨left, inside, right, cut⟩ :=
    exists_cutFrom_of_mem_collect (Array.mem_toList_iff.mp member)
  have written : source.toList = before.toUTF8.data.toList ++
      (source.slice body ++ after.toUTF8.data.toList) := by
    rw [← Source.toUTF8_text, text_eq, ← copied]
    simp
  rw [← start_eq, ← Source.length_toUTF8] at cut
  refine cut.standsIn written ?_ ?_
  · rw [Source.length_toUTF8, start_eq]
    exact Source.isBoundary_iff.mp part.starts
  · rw [List.length_append, ← copied, Source.length_toUTF8, Source.length_toUTF8, stop_eq]
    exact Source.isBoundary_iff.mp part.stops

end Word
end TwigTemplate
