import Mathlib.Data.List.Basic
import TwigTemplate.Diagnostic.Report
import TwigTemplate.Proofs.Line.Place

/-!
# Underlined lines

A report shows the line on which a span starts, without its ending, and underlines the part of the
span on this line.  What is shown and what the line table tells are the same line whenever there is
something to be underlined.
-/

namespace TwigTemplate

/-! ### Lines without their endings -/

namespace Source.HasLine

variable {source : Source} {number : Nat} {before line after : String}
  (hasLine : source.HasLine number before line after)
include hasLine

theorem length_groupsBetween :
    (groupsBetween (· == '\n') source.text.toList).length =
      number + after.toList.count '\n' + 1 := by
  rw [TwigTemplate.length_groupsBetween, hasLine.split, String.toList_append, String.toList_append]
  have before_eq := hasLine.number_eq
  have line_eq := List.count_eq_zero.mpr hasLine.single
  rw [List.count] at before_eq line_eq
  rw [List.countP_append, List.countP_append, before_eq, line_eq, Nat.zero_add, List.count]

/-- A line before a line feed is shown without the carriage return before it. -/
theorem getElem?_linesOf_of_ne (further : after ≠ "") :
    (linesOf source.text)[number]? = some (String.ofList
      (if line.toList.getLast? == some '\r' then line.toList.dropLast else line.toList)) := by
  have long := hasLine.length_groupsBetween
  have inside : number < (groupsBetween (· == '\n') source.text.toList).length - 1 := by
    obtain ⟨rest, after_eq⟩ := List.head?_eq_some_iff.mp (hasLine.stops.resolve_left further)
    rw [long, after_eq, List.count_cons_self]
    omega
  rw [linesOf, List.getElem?_map, List.getElem?_append_left, List.getElem?_map,
    List.getElem?_dropLast, if_pos inside, hasLine.getElem?_groupsBetween]
  · rfl
  · rwa [List.length_map, List.length_dropLast]

/-- The last line is shown as it is, unless it is empty. -/
theorem getElem?_linesOf_of_eq (last : after = "") (filled : line ≠ "") :
    (linesOf source.text)[number]? = some line := by
  have long := hasLine.length_groupsBetween
  rw [last, String.toList_empty, List.count_nil, Nat.add_zero] at long
  have last_eq : (groupsBetween (· == '\n') source.text.toList).getLast? = some line.toList := by
    rw [List.getLast?_eq_getElem?, long, Nat.add_sub_cancel, hasLine.getElem?_groupsBetween]
  have kept : ([line.toList].filter fun line => !line.isEmpty) = [line.toList] := by
    simp [filled]
  rw [linesOf, List.getElem?_map, List.getElem?_append_right, List.length_map, List.length_dropLast,
    long, Nat.add_sub_cancel, Nat.sub_self, last_eq, Option.toList_some, kept]
  · exact congrArg some String.ofList_toList
  · rw [List.length_map, List.length_dropLast, long]
    exact Nat.le_refl _

end Source.HasLine

/-! ### What is underlined -/

/-- A line, as it is shown, taken apart around the part of a span on it. -/
structure Underlining where
  /-- Number of the line. -/
  number : Nat
  /-- What stands before the span. -/
  left : String
  /-- The part of the span on the line. -/
  covered : String
  /-- What stands behind it. -/
  right : String

namespace Underlining

/-- The line without its ending. -/
def shown (underlining : Underlining) : String :=
  underlining.left ++ (underlining.covered ++ underlining.right)

/-- The ending of a line is the carriage return before a line feed, if there is one.  It is not
shown. -/
def Ends (shown ending after : String) : Prop :=
  (after = "" ∧ ending = "") ∨
    (after ≠ "" ∧ (ending = "\r" ∨ (ending = "" ∧ shown.toList.getLast? ≠ some '\r')))

/-- The line is the one on which the span starts, between other parts of the text and without its
ending.  What is covered is the part of the span on the line, and it is not empty. -/
structure Marks (source : Source) (span : Span) (before ending after : String)
    (underlining : Underlining) : Prop where
  /-- It is a line of the text. -/
  line : source.HasLine underlining.number before (underlining.shown ++ ending) after
  /-- It is shown without its ending. -/
  ends : Ends underlining.shown ending after
  /-- The span starts on the line. -/
  start_eq : before.utf8ByteSize + underlining.left.utf8ByteSize = span.start
  /-- There is a part of the span on it. -/
  filled : underlining.covered ≠ ""
  /-- The part ends with the span, or the span goes on behind the whole line. -/
  stop_eq : before.utf8ByteSize +
        (underlining.left ++ underlining.covered).utf8ByteSize = span.stop ∨
    (underlining.right = "" ∧
      before.utf8ByteSize + (underlining.shown ++ ending).utf8ByteSize < span.stop)

/-- The underlining is one of the span. -/
def Underlines (source : Source) (span : Span) (underlining : Underlining) : Prop :=
  ∃ before ending after, underlining.Marks source span before ending after

/-- The margin of a line of a report. -/
def gutter (width : Nat) (label : String) : String :=
  String.ofList (List.replicate (width - label.length) ' ') ++ label ++ " |"

/-- The line and the underline, with a label perhaps. -/
def lines (width : Nat) (label : Option String) (underlining : Underlining) : String :=
  gutter width (toString (underlining.number + 1)) ++ " " ++ underlining.shown ++ "\n" ++
    gutter width "" ++ " " ++ String.ofList (List.replicate underlining.left.length ' ') ++
      String.ofList (List.replicate underlining.covered.length '^') ++
        label.elim "" (" " ++ ·) ++ "\n"

end Underlining

theorem Diagnostic.margin_plain (width : Nat) (label : String) :
    margin .plain width label = Underlining.gutter width label := by
  simp [margin, Palette.plain, Underlining.gutter, alignRight, copies, toString]

namespace Underlining

variable {source : Source} {span : Span} {before ending after : String} {underlining : Underlining}

section Marks

variable (marks : underlining.Marks source span before ending after)
include marks

/-- The line is among those that are shown. -/
theorem Marks.getElem?_linesOf :
    (linesOf source.text)[underlining.number]? = some underlining.shown := by
  have filled : underlining.shown ++ ending ≠ "" := by
    simp [shown, marks.filled]
  rcases marks.ends with ⟨last, none_left⟩ | ⟨further, returns | ⟨none_left, other⟩⟩
  · have found := marks.line.getElem?_linesOf_of_eq last filled
    rwa [none_left, String.append_empty] at found
  · rw [marks.line.getElem?_linesOf_of_ne further, returns]
    simp
  · rw [marks.line.getElem?_linesOf_of_ne further, none_left, String.append_empty,
      if_neg (by simpa using other), String.ofList_toList]

/-- The place of the start of the span. -/
theorem Marks.positionAt_start :
    (LineTable.ofSource source).positionAt span.start =
      ⟨underlining.number, underlining.left.length⟩ := by
  rw [← marks.start_eq]
  exact marks.line.positionAt_eq (by rw [shown, String.append_assoc])

/-- A span that goes on behind the line ends on another one. -/
theorem Marks.lt_line_stop (part : source.HasPart span) (goes_on : before.utf8ByteSize +
      (underlining.shown ++ ending).utf8ByteSize < span.stop) :
    underlining.number < ((LineTable.ofSource source).positionAt span.stop).line := by
  rw [LineTable.line_positionAt part.stops]
  have stop_eq := marks.line.stop_eq
  refine LineTable.le_lineOf_iff.mpr ?_
  rw [Nat.min_eq_left part.inside]
  cases starts : (LineTable.ofSource source).start? (underlining.number + 1) with
  | none =>
      rw [starts, Option.map_none, Option.getD_none] at stop_eq
      exact absurd part.inside (by omega)
  | some next =>
      rw [starts, Option.map_some, Option.getD_some] at stop_eq
      exact ⟨next, rfl, by omega⟩

/-- So many characters of the span are on the line. -/
theorem Marks.lastColumn_eq (part : source.HasPart span) :
    let stop := (LineTable.ofSource source).positionAt span.stop
    (if stop.line == underlining.number then stop.column else underlining.shown.length) =
      underlining.left.length + underlining.covered.length := by
  intro stop
  rcases marks.stop_eq with ends | ⟨no_right, goes_on⟩
  · have cut : underlining.shown ++ ending =
        (underlining.left ++ underlining.covered) ++ (underlining.right ++ ending) := by
      simp only [shown, String.append_assoc]
    have place := marks.line.positionAt_eq cut
    rw [ends] at place
    rw [show stop = _ from place, if_pos (beq_self_eq_true _), String.length_append]
  · have other : (stop.line == underlining.number) = false :=
      beq_eq_false_iff_ne.mpr (Nat.ne_of_gt (marks.lt_line_stop part goes_on))
    rw [other, if_neg Bool.false_ne_true, shown, no_right, String.append_empty,
      String.length_append]

/-- The line is shown, and the part of the span on it is underlined. -/
theorem Marks.underlinedLine_eq (part : source.HasPart span) (width : Nat)
    (label : Option String) :
    Diagnostic.underlinedLine .plain (LineTable.ofSource source) width span label =
      underlining.lines width label := by
  have covered := marks.lastColumn_eq part
  have some_carets : 0 < underlining.covered.length :=
    Nat.pos_of_ne_zero (by simpa using marks.filled)
  have count : max (underlining.left.length + underlining.covered.length -
      underlining.left.length) 1 = underlining.covered.length := by
    omega
  rw [Diagnostic.underlinedLine]
  simp only [marks.positionAt_start, show (LineTable.ofSource source).source = source from rfl,
    marks.getElem?_linesOf]
  dsimp only at covered
  rw [covered, count, Diagnostic.margin_plain, Diagnostic.margin_plain]
  cases label <;>
    simp [lines, Diagnostic.copies, Palette.plain, Diagnostic.blank, String.append_assoc, toString]

/-- The number of the line is that of the start of the span. -/
theorem Marks.number_eq (part : source.HasPart span) :
    underlining.number = source.lineOf span.start := by
  rw [← LineTable.line_positionAt part.starts, marks.positionAt_start]

end Marks

/-! ### Margins -/

theorem length_gutter {width : Nat} {label : String} (fits : label.length ≤ width) :
    (gutter width label).length = width + 2 := by
  have long : (width - label.length) + label.length = width := Nat.sub_add_cancel fits
  rw [gutter, String.length_append, String.length_append, String.length_ofList,
    List.length_replicate, long]
  rfl

/-- Larger numbers take more digits, if anything. -/
theorem length_toString_le {small large : Nat} (ordered : small ≤ large) :
    (toString small).length ≤ (toString large).length := by
  have positive : 0 < (toString large).length := Nat.length_repr_pos
  have bounded := (Nat.length_repr_le_iff positive).mp (Nat.le_refl _)
  exact (Nat.length_repr_le_iff positive).mpr (Nat.lt_of_le_of_lt ordered bounded)

/-! ### Spans that can be underlined -/

theorem exists_ends (line after : String) :
    ∃ shown ending, line = shown ++ ending ∧ Ends shown ending after := by
  by_cases last : after = ""
  · exact ⟨line, "", String.append_empty.symm, .inl ⟨last, rfl⟩⟩
  by_cases returns : line.toList.getLast? = some '\r'
  · obtain ⟨front, line_eq⟩ := List.getLast?_eq_some_iff.mp returns
    exact ⟨_, _, eq_append_of_toList line_eq, .inr ⟨last, .inl rfl⟩⟩
  · exact ⟨line, "", String.append_empty.symm, .inr ⟨last, .inr ⟨rfl, returns⟩⟩⟩

/-- Behind what is shown of a line, there is a line feed or a carriage return. -/
theorem Ends.head? {shown : String} (ends : Ends shown ending after)
    (stops : after = "" ∨ after.toList.head? = some '\n') :
    ∀ character ∈ (ending ++ after).toList.head?, character = '\n' ∨ character = '\r' := by
  intro character first
  rcases ends with ⟨rfl, rfl⟩ | ⟨further, rfl | ⟨rfl, -⟩⟩
  · cases first
  · rw [String.toList_append] at first
    exact .inr (Option.some.inj first).symm
  · rw [String.empty_append, stops.resolve_left further] at first
    exact .inl (Option.some.inj first).symm

theorem getLast?_toList_append (front : String) {back : String} (filled : back ≠ "") :
    (front ++ back).toList.getLast? = back.toList.getLast? := by
  rw [String.toList_append, List.getLast?_append_of_ne_nil]
  simpa using filled

/-- What reaches behind what is shown of a line reaches behind its ending, unless it ends between a
carriage return and a line feed. -/
theorem Ends.size_lt {shown more rest : String} (ends : Ends shown ending after)
    (stops : after = "" ∨ after.toList.head? = some '\n') (same : ending ++ after = more ++ rest)
    (reaches : more ≠ "")
    (last : more.toList.getLast? = some '\r' → rest.toList.head? ≠ some '\n') :
    ending.utf8ByteSize < more.utf8ByteSize := by
  have positive : 0 < more.utf8ByteSize :=
    Nat.pos_of_ne_zero (mt String.utf8ByteSize_eq_zero_iff.mp reaches)
  rcases ends with ⟨-, rfl⟩ | ⟨further, rfl | ⟨rfl, -⟩⟩
  · exact positive
  -- Behind a carriage return there is something of the line feed as well.
  · rcases Source.exists_of_append_eq same with
      ⟨extra, rfl, after_eq⟩ | ⟨extra, ending_eq, rest_eq⟩
    · have more_extra : extra ≠ "" := by
        rintro rfl
        rw [String.empty_append] at after_eq
        exact last rfl (after_eq ▸ stops.resolve_left further)
      have extra_size : 0 < extra.utf8ByteSize :=
        Nat.pos_of_ne_zero (mt String.utf8ByteSize_eq_zero_iff.mp more_extra)
      rw [String.utf8ByteSize_append]
      omega
    · have sizes := congrArg String.utf8ByteSize ending_eq
      rw [String.utf8ByteSize_append, show "\r".utf8ByteSize = 1 from rfl] at sizes
      obtain rfl : extra = "" := String.utf8ByteSize_eq_zero_iff.mp (by omega)
      rw [String.append_empty] at ending_eq
      rw [String.empty_append] at rest_eq
      exact absurd (rest_eq ▸ stops.resolve_left further) (last (ending_eq ▸ rfl))
  · exact positive

/-- A span that begins neither with a line feed nor with a carriage return, and that does not end
between the two, is underlined. -/
theorem exists_underlines_of_texts {front inner rest : String}
    (split : source.text = front ++ (inner ++ rest)) (start_eq : front.utf8ByteSize = span.start)
    (stop_eq : front.utf8ByteSize + inner.utf8ByteSize = span.stop)
    (first : ∃ character ∈ inner.toList.head?, character ≠ '\n' ∧ character ≠ '\r')
    (last : inner.toList.getLast? = some '\r' → rest.toList.head? ≠ some '\n') :
    ∃ underlining, Underlines source span underlining := by
  obtain ⟨before, left, line, after, rfl, joined, hasLine⟩ := Source.exists_hasLine_of_split split
  generalize (before ++ left).toList.count '\n' = number at hasLine
  obtain ⟨shown, ending, rfl, ends⟩ := exists_ends line after
  obtain ⟨character, begins, no_feed, no_return⟩ := first
  obtain ⟨others, inner_eq⟩ := List.head?_eq_some_iff.mp begins
  rw [String.append_assoc] at joined
  have filled : shown ≠ "" := by
    rintro rfl
    rw [String.empty_append] at joined
    have known := ends.head? hasLine.stops character (by
      rw [← joined, String.toList_append, inner_eq]
      rfl)
    exact known.elim no_feed no_return
  have ends_whole : Ends (left ++ shown) ending after := by
    rwa [Ends, getLast?_toList_append left filled]
  rw [← String.append_assoc] at hasLine
  rw [String.utf8ByteSize_append] at start_eq stop_eq
  rcases Source.exists_of_append_eq joined with ⟨right, rfl, -⟩ | ⟨more, rfl, behind⟩
  -- The span ends in what is shown of the line.
  · refine ⟨⟨number, left, inner, right⟩, before, ending, after, hasLine, ends_whole, start_eq,
      ?_, ?_⟩
    · rintro rfl
      cases begins
    · left
      rw [String.utf8ByteSize_append]
      dsimp only
      omega
  -- The span covers the rest of what is shown, and it may go on behind the line.
  · refine ⟨⟨number, left, shown, ""⟩, before, ending, after, ?_, ?_, start_eq, filled, ?_⟩
    · rwa [Underlining.shown, String.append_empty]
    · rwa [Underlining.shown, String.append_empty]
    · rw [String.utf8ByteSize_append] at stop_eq
      by_cases reaches : more = ""
      · left
        rw [reaches, String.utf8ByteSize_empty] at stop_eq
        rw [String.utf8ByteSize_append]
        dsimp only
        omega
      · right
        rw [getLast?_toList_append shown reaches] at last
        have further := ends.size_lt hasLine.stops behind reaches last
        refine ⟨rfl, ?_⟩
        rw [Underlining.shown, String.append_empty, String.utf8ByteSize_append,
          String.utf8ByteSize_append]
        dsimp only
        omega

end Underlining

end TwigTemplate
