import TwigTemplate.Proofs.Line.Text

/-!
# Places by line and column

An offset and its place tell the same: the offset of the place is the offset that was asked for, or
the start of the character around it.  A place and its offset tell the same, too, unless the line is
too short.
-/

namespace TwigTemplate

namespace LineTable

/-- Passing over as many characters as there are in the first part leads to its end, and so does
passing over more when nothing follows. -/
theorem skipCharacters_go_append {front back : List UInt8} {column : Nat} (passed : Nat)
    (few : front.countP (!Byte.isContinuation ·) ≤ column)
    (stops : ∀ byte ∈ back.head?, Byte.isContinuation byte = false ∧
      front.countP (!Byte.isContinuation ·) = column) :
    skipCharacters.go column passed (front ++ back) = passed + front.length := by
  induction front generalizing column passed with
  | nil =>
      cases back with
      | nil => rfl
      | cons byte back =>
          obtain ⟨starts, rfl⟩ := stops byte rfl
          simp [skipCharacters.go, starts]
  | cons byte front ih =>
      rw [List.countP_cons] at few stops
      have long : passed + (byte :: front).length = passed + 1 + front.length := by
        rw [List.length_cons]
        omega
      rw [List.cons_append, long, skipCharacters.go.eq_def]
      cases continues : Byte.isContinuation byte with
      | true =>
          simp only [continues, if_true]
          exact ih (passed + 1) (by simpa [continues] using few) (by simpa [continues] using stops)
      | false =>
          simp only [continues, Bool.not_false, if_true] at few stops
          cases column with
          | zero => cases few
          | succ column =>
              simp only [continues, Bool.false_eq_true, if_false]
              exact ih (passed + 1) (Nat.le_of_succ_le_succ few) (by simpa using stops)

theorem skipCharacters_append {front back : List UInt8} {column : Nat}
    (few : front.countP (!Byte.isContinuation ·) ≤ column)
    (stops : ∀ byte ∈ back.head?, Byte.isContinuation byte = false ∧
      front.countP (!Byte.isContinuation ·) = column) :
    skipCharacters column (front ++ back) = front.length :=
  (skipCharacters_go_append 0 few stops).trans (Nat.zero_add _)

end LineTable

namespace Source.HasLine

variable {source : Source} {number : Nat} {before line after : String}
  (hasLine : source.HasLine number before line after)
include hasLine

section Cut

variable {left right : String} (cut : line = left ++ right)
include cut

/-- The place of a boundary on the line. -/
theorem positionAt_eq :
    (LineTable.ofSource source).positionAt (before.utf8ByteSize + left.utf8ByteSize) =
      ⟨number, left.length⟩ := by
  have split := hasLine.split_at cut
  have part := hasPart_of_texts split
  have counted : source.lineOf (before.utf8ByteSize + left.utf8ByteSize) = number := by
    have single := hasLine.single
    rw [cut, String.toList_append, List.mem_append, not_or] at single
    rw [← String.append_assoc] at split
    rw [← String.utf8ByteSize_append, lineOf_of_texts split, String.toList_append,
      List.count_append, hasLine.number_eq, List.count_eq_zero.mpr single.1, Nat.add_zero]
  rw [LineTable.positionAt, show (LineTable.ofSource source).source = source from rfl,
    floorBoundary_of_isBoundary part.stops, LineTable.lineAt_ofSource, counted,
    hasLine.start?_eq, Option.getD_some, characterCount, slice_of_texts split, countP_toUTF8]

/-- The offset of a place on the line, or past its end. -/
theorem offset?_eq {column : Nat} (few : left.length ≤ column)
    (stops : right = "" ∨ left.length = column) :
    (LineTable.ofSource source).offset? ⟨number, column⟩ =
      some (before.utf8ByteSize + left.utf8ByteSize) := by
  have sliced := slice_of_texts hasLine.split
  have passed : LineTable.skipCharacters column line.toUTF8.data.toList = left.utf8ByteSize := by
    rw [cut, toList_toUTF8, String.toList_append, List.flatMap_append, ← toList_toUTF8,
      LineTable.skipCharacters_append, length_toUTF8]
    · rwa [countP_toUTF8]
    · intro byte first
      rw [← toList_toUTF8] at first
      refine ⟨isContinuation_of_mem_head?_toUTF8 first, ?_⟩
      rw [countP_toUTF8]
      refine stops.resolve_left ?_
      rintro rfl
      cases first
  rw [LineTable.offset?, hasLine.start?_eq, Option.map_some]
  dsimp only
  rw [show (LineTable.ofSource source).source = source from rfl, hasLine.stop_eq, sliced, passed]

end Cut

/-- A column leads to a boundary on the line, and from there back to it or to the end of the
line. -/
theorem exists_offset? (column : Nat) :
    ∃ offset, (LineTable.ofSource source).offset? ⟨number, column⟩ = some offset ∧
      (⟨offset⟩ : String.Pos.Raw).IsValid source.text ∧
      (LineTable.ofSource source).positionAt offset = ⟨number, min column line.toList.length⟩ := by
  have cut := eq_append_of_toList (List.take_append_drop column line.toList).symm
  have long : (String.ofList (line.toList.take column)).length = min column line.toList.length := by
    rw [String.length_ofList, List.length_take]
  have stops : String.ofList (line.toList.drop column) = "" ∨
      (String.ofList (line.toList.take column)).length = column := by
    rcases Nat.le_total column line.toList.length with within | past
    · exact .inr (long.trans (Nat.min_eq_left within))
    · exact .inl (by rw [List.drop_eq_nil_of_le past])
  have part := hasPart_of_texts (hasLine.split_at cut)
  rw [← long]
  exact ⟨_, hasLine.offset?_eq cut (long ▸ Nat.min_le_left _ _) stops,
    isBoundary_iff.mp part.stops, hasLine.positionAt_eq cut⟩

end Source.HasLine

namespace LineTable

open Source

/-- An offset inside a character has the place of the character. -/
theorem positionAt_floorBoundary (source : Source) (offset : Nat) :
    (ofSource source).positionAt (source.floorBoundary offset) =
      (ofSource source).positionAt offset := by
  rw [positionAt, positionAt, show (ofSource source).source = source from rfl,
    floorBoundary_of_isBoundary (source.isBoundary_floorBoundary offset)]

theorem line_positionAt {source : Source} {place : Nat} (marks : source.isBoundary place = true) :
    ((ofSource source).positionAt place).line = source.lineOf place := by
  rw [positionAt, show (ofSource source).source = source from rfl,
    floorBoundary_of_isBoundary marks, lineAt_ofSource]

/-- The place of an offset leads back to the offset, or to the start of the character around it. -/
theorem offset?_positionAt (source : Source) (offset : Nat) :
    (ofSource source).offset? ((ofSource source).positionAt offset) =
      some (source.floorBoundary offset) := by
  obtain ⟨before, left, right, after, place_eq, hasLine⟩ :=
    exists_hasLine_of_isBoundary (source.isBoundary_floorBoundary offset)
  have place := hasLine.positionAt_eq rfl
  rw [← place_eq, positionAt_floorBoundary] at place
  rw [place, hasLine.offset?_eq rfl (Nat.le_refl _) (.inr rfl), place_eq]

/-- There is nothing on lines past the last one. -/
theorem offset?_of_size_le {table : LineTable} {position : Position}
    (past : table.size ≤ position.line) : table.offset? position = none := by
  have no_start : table.start? position.line = none := Array.getElem?_eq_none past
  rw [offset?, no_start]
  rfl

/-- Offsets lead to places and back to the same characters, places lead to offsets and back to the
same lines, and all bytes that are looked at on the way are parts of the text. -/
theorem places_round_trip (source : Source) :
    let table := ofSource source
    (∀ offset,
      table.lineAt offset = (source.toList.take (min offset source.size)).count Byte.newline ∧
      (∃ boundary, table.offset? (table.positionAt offset) = some boundary ∧
        (⟨boundary⟩ : String.Pos.Raw).IsValid source.text ∧
        ∀ other, (⟨other⟩ : String.Pos.Raw).IsValid source.text →
          (other ≤ boundary ↔ other ≤ min offset source.size)) ∧
      ∃ start, table.start? (table.lineAt (source.floorBoundary offset)) = some start ∧
        source.HasPart ⟨start, source.floorBoundary offset⟩) ∧
    (∀ line < table.size, ∃ content start,
      (groupsBetween (· == '\n') source.text.toList)[line]? = some content ∧
      table.start? line = some start ∧
      source.HasPart ⟨start, ((table.start? (line + 1)).map (· - 1)).getD source.size⟩ ∧
      ∀ column, ∃ offset, table.offset? ⟨line, column⟩ = some offset ∧
        (⟨offset⟩ : String.Pos.Raw).IsValid source.text ∧
        table.positionAt offset = ⟨line, min column content.length⟩) ∧
    ∀ line, table.size ≤ line → ∀ column, table.offset? ⟨line, column⟩ = none := by
  intro table
  refine ⟨fun offset => ⟨?_, ?_, ?_⟩, ?_, fun line past column => offset?_of_size_le past⟩
  · rw [lineAt_ofSource, lineOf, size_eq_length, ← List.take_eq_take_min]
  · exact ⟨_, offset?_positionAt source offset,
      isBoundary_iff.mp (source.isBoundary_floorBoundary offset),
      fun _ valid => le_floorBoundary_iff (isBoundary_of_isValid valid)⟩
  · obtain ⟨before, left, right, after, place_eq, hasLine⟩ :=
      exists_hasLine_of_isBoundary (source.isBoundary_floorBoundary offset)
    rw [lineAt_ofSource, place_eq]
    exact ⟨_, place_eq ▸ hasLine.start?_eq, hasPart_of_texts (hasLine.split_at rfl)⟩
  · intro line inside
    rw [size_ofSource] at inside
    obtain ⟨before, content, after, hasLine⟩ := exists_hasLine inside
    refine ⟨content.toList, _, hasLine.getElem?_groupsBetween, hasLine.start?_eq, ?_, ?_⟩
    · rw [hasLine.stop_eq]
      exact hasPart_of_texts hasLine.split
    · exact hasLine.exists_offset?

/-- A column inside a line of characters of two and three bytes, and one past its end. -/
theorem places_round_trip_beyond_ascii :
    let table := ofSource (Source.ofString "a\nçà\n")
    1 < table.size ∧ table.offset? (table.positionAt 5) = some 4 ∧
      (∃ offset, table.offset? ⟨1, 9⟩ = some offset ∧ table.positionAt offset = ⟨1, 2⟩) ∧
      table.offset? ⟨3, 0⟩ = none := by
  intro table
  have inside : 1 < table.size := by decide +kernel
  have lines : (groupsBetween (· == '\n') "a\nçà\n".toList)[1]? = some ['ç', 'à'] := by
    decide +kernel
  obtain ⟨-, on_line, past⟩ := places_round_trip (Source.ofString "a\nçà\n")
  refine ⟨inside, by decide +kernel, ?_, past 3 (by decide +kernel) 0⟩
  obtain ⟨content, start, grouped, -, -, columns⟩ := on_line 1 inside
  obtain rfl : ['ç', 'à'] = content := Option.some.inj (lines.symm.trans grouped)
  obtain ⟨offset, found, -, place⟩ := columns 9
  exact ⟨offset, found, place⟩

end LineTable
end TwigTemplate
