import Mathlib.Data.List.Induction
import TwigTemplate.Proofs.Character
import TwigTemplate.Proofs.Line.Number
import TwigTemplate.Proofs.Splitting

/-!
# Lines as texts

A line is a text without line feeds between two line feeds, or between one of them and an end of
the text.  The table of line starts, which is about bytes, tells where these texts begin and end.
-/

namespace TwigTemplate

/-- A list can be split so that its first part has as many copies of an item as one likes. -/
theorem exists_split_of_le_count {α : Type} [BEq α] {item : α} {items : List α} {number : Nat}
    (few : number ≤ items.count item) :
    ∃ front rest, items = front ++ rest ∧ front.count item = number := by
  induction items generalizing number with
  | nil => exact ⟨[], [], rfl, (Nat.eq_zero_of_le_zero few).symm⟩
  | cons first items ih =>
      rw [List.count_cons] at few
      cases number with
      | zero => exact ⟨[], first :: items, rfl, rfl⟩
      | succ number =>
          cases same : first == item with
          | true =>
              rw [same, if_pos rfl, Nat.add_le_add_iff_right] at few
              obtain ⟨front, rest, rfl, counted⟩ := ih few
              exact ⟨first :: front, rest, rfl, by simp [List.count_cons, counted, same]⟩
          | false =>
              rw [same, if_neg Bool.false_ne_true] at few
              obtain ⟨front, rest, rfl, counted⟩ := ih few
              exact ⟨first :: front, rest, rfl, by simp [List.count_cons, counted, same]⟩

/-- What stands behind the last copy of an item. -/
theorem exists_behind_last {α : Type} [DecidableEq α] (item : α) (items : List α) :
    ∃ front back, items = front ++ back ∧ (front = [] ∨ front.getLast? = some item) ∧
      item ∉ back := by
  induction items using List.reverseRecOn with
  | nil => exact ⟨[], [], rfl, .inl rfl, List.not_mem_nil⟩
  | append_singleton items last ih =>
      by_cases same : item = last
      · subst same
        exact ⟨items ++ [item], [], by simp, .inr (by simp), List.not_mem_nil⟩
      · obtain ⟨front, back, rfl, ends, absent⟩ := ih
        exact ⟨front, back ++ [last], by simp, ends, by simp [absent, same]⟩

/-- What stands before the first copy of an item. -/
theorem exists_before_first {α : Type} [DecidableEq α] (item : α) (items : List α) :
    ∃ front back, items = front ++ back ∧ item ∉ front ∧
      (back = [] ∨ back.head? = some item) := by
  induction items with
  | nil => exact ⟨[], [], rfl, List.not_mem_nil, .inl rfl⟩
  | cons first items ih =>
      by_cases same : item = first
      · subst same
        exact ⟨[], item :: items, rfl, List.not_mem_nil, .inr rfl⟩
      · obtain ⟨front, back, rfl, absent, begins⟩ := ih
        exact ⟨first :: front, back, rfl, by simp [absent, same], begins⟩

/-- A text consists of two texts if its characters do. -/
theorem eq_append_of_toList {text : String} {left right : List Char}
    (split : text.toList = left ++ right) : text = String.ofList left ++ String.ofList right := by
  rw [← String.ofList_append, ← split, String.ofList_toList]

namespace Source

/-- The text consists of what stands before the line with this number, of the line, and of what
follows it. -/
structure HasLine (source : Source) (number : Nat) (before line after : String) : Prop where
  /-- The text consists of these parts. -/
  split : source.text = before ++ (line ++ after)
  /-- There are so many line feeds before the line. -/
  number_eq : before.toList.count '\n' = number
  /-- The line begins behind a line feed, or with the text. -/
  starts : before = "" ∨ before.toList.getLast? = some '\n'
  /-- There is none in the line. -/
  single : '\n' ∉ line.toList
  /-- The line ends before a line feed, or with the text. -/
  stops : after = "" ∨ after.toList.head? = some '\n'

variable {source : Source} {number : Nat} {before line after : String}

/-- The line around any place of a text. -/
theorem exists_hasLine_of_split {front rest : String} (split : source.text = front ++ rest) :
    ∃ before left right after, front = before ++ left ∧ rest = right ++ after ∧
      source.HasLine (front.toList.count '\n') before (left ++ right) after := by
  obtain ⟨before, left, front_eq, starts, left_single⟩ := exists_behind_last '\n' front.toList
  obtain ⟨right, after, rest_eq, right_single, stops⟩ := exists_before_first '\n' rest.toList
  obtain rfl := eq_append_of_toList front_eq
  obtain rfl := eq_append_of_toList rest_eq
  refine ⟨_, _, _, _, rfl, rfl, ?_⟩
  constructor
  · rw [split]
    simp only [String.append_assoc]
  · simp [List.count_eq_zero.mpr left_single]
  · simpa using starts
  · simp [left_single, right_single]
  · simpa using stops

/-- The bytes around a line feed. -/
theorem toList_of_newline {front back : List Char}
    (split : source.text.toList = front ++ '\n' :: back) :
    source.toList = (String.ofList front).toUTF8.data.toList ++
      Byte.newline :: (String.ofList back).toUTF8.data.toList := by
  rw [← toUTF8_text, toList_toUTF8, toList_toUTF8, toList_toUTF8, split, List.flatMap_append,
    List.flatMap_cons, String.toList_ofList, String.toList_ofList]
  rfl

/-- The line of an offset is the number of line feeds before it. -/
theorem lineOf_of_texts {front rest : String} (split : source.text = front ++ rest) :
    source.lineOf front.utf8ByteSize = front.toList.count '\n' := by
  rw [lineOf, toList_of_texts split, ← length_toUTF8, List.take_left, count_toUTF8]

/-- There are as many lines as the number of lines says. -/
theorem exists_hasLine (inside : number < source.lineCount) :
    ∃ before line after, source.HasLine number before line after := by
  have few : number ≤ source.text.toList.count '\n' := by
    rw [← count_toUTF8, toUTF8_text]
    exact Nat.le_of_lt_succ inside
  obtain ⟨front, rest, split, rfl⟩ := exists_split_of_le_count few
  obtain ⟨before, left, right, after, -, -, hasLine⟩ :=
    exists_hasLine_of_split (eq_append_of_toList split)
  rw [String.toList_ofList] at hasLine
  exact ⟨_, _, _, hasLine⟩

/-- The line of a boundary of characters. -/
theorem exists_hasLine_of_isBoundary {place : Nat} (marks : source.isBoundary place = true) :
    ∃ before left right after, place = before.utf8ByteSize + left.utf8ByteSize ∧
      source.HasLine (source.lineOf place) before (left ++ right) after := by
  obtain ⟨front, rest, split, rfl⟩ := exists_texts_of_isBoundary marks
  rw [lineOf_of_texts split]
  obtain ⟨before, left, right, after, rfl, -, hasLine⟩ := exists_hasLine_of_split split
  exact ⟨before, left, right, after, String.utf8ByteSize_append .., hasLine⟩

namespace HasLine

variable (hasLine : source.HasLine number before line after)
include hasLine

/-- The line is one of the groups of characters between line feeds. -/
theorem getElem?_groupsBetween :
    (groupsBetween (· == '\n') source.text.toList)[number]? = some line.toList := by
  have single : ∀ character ∈ line.toList, (character == '\n') = false := by
    intro character member
    rw [beq_eq_false_iff_ne]
    rintro rfl
    exact hasLine.single member
  have first : (groupsBetween (· == '\n') (line.toList ++ after.toList))[0]? =
      some line.toList := by
    rcases hasLine.stops with rfl | begins
    · rw [String.toList_empty, List.append_nil, groupsBetween_of_forall single]
      rfl
    · obtain ⟨rest, after_eq⟩ := List.head?_eq_some_iff.mp begins
      rw [after_eq, groupsBetween_append (by rfl), groupsBetween_of_forall single]
      rfl
  rw [hasLine.split, String.toList_append, String.toList_append]
  rcases hasLine.starts with rfl | ends
  · rw [← hasLine.number_eq]
    exact first
  · obtain ⟨front, before_eq⟩ := List.getLast?_eq_some_iff.mp ends
    have counted := hasLine.number_eq
    rw [before_eq, List.count_append, List.count_singleton_self] at counted
    rw [before_eq, List.append_assoc, List.singleton_append,
      groupsBetween_append (by rfl), List.getElem?_append_right, length_groupsBetween,
      ← counted]
    · simpa [List.count] using first
    · rw [length_groupsBetween, ← counted]
      exact Nat.le_refl _

/-- The bytes before the line tell where it starts. -/
theorem start?_eq : (LineTable.ofSource source).start? number = some before.utf8ByteSize := by
  rcases hasLine.starts with rfl | ends
  · rw [← hasLine.number_eq]
    exact LineTable.start?_zero source
  · obtain ⟨front, before_eq⟩ := List.getLast?_eq_some_iff.mp ends
    have split : source.text.toList = front ++ '\n' :: (line ++ after).toList := by
      rw [hasLine.split, String.toList_append, before_eq, List.append_assoc, List.singleton_append]
    have found := LineTable.start?_of_split (toList_of_newline split)
    have counted := hasLine.number_eq
    rw [before_eq, List.count_append, List.count_singleton_self] at counted
    rw [count_toUTF8, length_toUTF8, String.toList_ofList, counted] at found
    rw [found, eq_append_of_toList before_eq, String.utf8ByteSize_append]
    rfl

/-- The line stops before the next one starts, or with the text. -/
theorem stop_eq :
    (((LineTable.ofSource source).start? (number + 1)).map (· - 1)).getD source.size =
      before.utf8ByteSize + line.utf8ByteSize := by
  have counted : (before ++ line).toList.count '\n' = number := by
    rw [String.toList_append, List.count_append, hasLine.number_eq,
      List.count_eq_zero.mpr hasLine.single, Nat.add_zero]
  rcases hasLine.stops with rfl | begins
  · have whole : source.text = before ++ line := by
      rw [hasLine.split, String.append_empty]
    have last : (LineTable.ofSource source).size = number + 1 := by
      rw [LineTable.size_ofSource, lineCount, ← toUTF8_text, count_toUTF8, whole, counted]
    have no_start : (LineTable.ofSource source).start? (number + 1) = none :=
      Array.getElem?_eq_none (Nat.le_of_eq last)
    rw [no_start, Option.map_none, Option.getD_none, size_eq_length, ← toUTF8_text, length_toUTF8,
      whole, String.utf8ByteSize_append]
  · obtain ⟨rest, after_eq⟩ := List.head?_eq_some_iff.mp begins
    have split : source.text.toList = (before ++ line).toList ++ '\n' :: rest := by
      rw [hasLine.split, ← String.append_assoc, String.toList_append, after_eq]
    have found := LineTable.start?_of_split (toList_of_newline split)
    rw [String.ofList_toList, count_toUTF8, counted, length_toUTF8] at found
    rw [found, Option.map_some, Option.getD_some, Nat.add_sub_cancel, String.utf8ByteSize_append]

theorem split_at {left right : String} (cut : line = left ++ right) :
    source.text = before ++ (left ++ (right ++ after)) := by
  rw [hasLine.split, cut, String.append_assoc]

end HasLine

end Source
end TwigTemplate
