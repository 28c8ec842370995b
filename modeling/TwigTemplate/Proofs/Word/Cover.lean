import TwigTemplate.Proofs.Literal.Enclosed
import TwigTemplate.Proofs.Word.Joint
import TwigTemplate.Proofs.Word.Text

/-!
# What words leave out

Words lie in their content one after the other, and they begin and end between characters.  Together
they take in all of it but the spaces outside of literals, and a name takes in whatever could
continue it.
-/

namespace TwigTemplate
namespace Word

open Literal

section Shape

variable {following : Option UInt8} {byte : UInt8} {tail : List UInt8} {place : Nat}

/-- Words that begin with no quote go on with bytes of names, with points, or with the second byte
of an operator. -/
theorem mem_take_shape (other : Byte.isQuote byte = false) {next : UInt8}
    (member : next ∈ tail.take (shape following byte tail).2) :
    Byte.continuesName next = true ∨ next = Byte.dot ∨ isOperator byte next = true := by
  rw [shape] at member
  split at member
  · rw [← List.prefix_iff_eq_take.mp (List.takeWhile_prefix _)] at member
    exact .inl (List.mem_takeWhile_imp member)
  split at member
  · obtain ⟨taken, reached, further⟩ := exists_taken_of_numberRemainder_go following tail 0
    rw [numberRemainder, reached, Nat.zero_add] at member
    rcases further next member with digit | rfl | point
    · exact .inl (by rw [Byte.continuesName, digit, Bool.or_true])
    · exact .inl (by decide)
    · exact .inr (.inl point)
  rw [if_neg (by simp [other])] at member
  split at member
  · rename_i operator
    cases tail with
    | nil => cases operator
    | cons second rest =>
        obtain rfl : next = second := by simpa using member
        exact .inr (.inr operator)
  · simp at member

/-- A space within a word is enclosed by a literal. -/
theorem encloses_of_isSpace (visible : Byte.isSpace byte = false) {space : UInt8}
    (found : (byte :: tail)[place]? = some space) (spaces : Byte.isSpace space = true)
    (below : place ≤ (shape following byte tail).2) : Encloses (byte :: tail) place := by
  cases place with
  | zero =>
      obtain rfl : byte = space := by simpa using found
      rw [visible] at spaces
      cases spaces
  | succ place =>
      cases quotes : Byte.isQuote byte with
      | true =>
          rw [shape_of_isQuote quotes] at below
          cases closed : remainder? byte tail with
          | none =>
              exact encloses_of_not_closed quotes ((remainder?_eq_none_iff quotes).mp closed)
                (Nat.succ_pos place)
          | some length =>
              obtain ⟨inside, rest, rfl, within, rfl⟩ := (remainder?_eq_some_iff quotes).mp closed
              rw [closed, Option.getD_some] at below
              refine (encloses_iff_of_le quotes within (Nat.succ_pos place) ?_).mpr ?_
              all_goals omega
      | false =>
          rw [List.getElem?_cons_succ] at found
          have member : space ∈ tail.take (shape following byte tail).2 := by
            refine List.mem_of_getElem? (i := place) ?_
            rw [List.getElem?_take_of_lt below, found]
          rcases mem_take_shape quotes member with continues | rfl | operator
          · rw [Byte.not_continuesName_of_isSpace spaces] at continues
            cases continues
          · cases spaces
          · have separates : Byte.separates space = true := by simp [Byte.separates, spaces]
            rw [(not_separates_of_isOperator operator).2] at separates
            cases separates

/-- Behind a word, what follows it decides. -/
theorem encloses_add_shape_iff (goes_on : tail.drop (shape following byte tail).2 ≠ []) :
    Encloses (byte :: tail) ((shape following byte tail).2 + 1 + place) ↔
      Encloses (tail.drop (shape following byte tail).2) place := by
  cases quotes : Byte.isQuote byte with
  | true =>
      rw [shape_of_isQuote quotes] at goes_on ⊢
      cases closed : remainder? byte tail with
      | none =>
          rw [closed, Option.getD_none, List.drop_length] at goes_on
          exact absurd rfl goes_on
      | some length =>
          obtain ⟨inside, rest, rfl, within, rfl⟩ := (remainder?_eq_some_iff quotes).mp closed
          rw [Option.getD_some, List.drop_length_add_append]
          exact encloses_add_iff quotes within
  | false =>
      have plain : Plain (byte :: tail.take (shape following byte tail).2) :=
        (plain_of_shape quotes).2
      refine Iff.trans ?_ (encloses_append_of_plain plain)
      rw [List.cons_append, List.take_append_drop, List.length_cons,
        List.length_take_of_le (shape_le following byte tail)]

end Shape

section Among

variable {following : Option UInt8}

theorem bounds_of_mem_among {start depth : Nat} {bytes : List UInt8} {word : Word}
    (member : word ∈ among following start depth bytes) :
    start ≤ word.span.start ∧ word.span.start < word.span.stop ∧
      word.span.stop ≤ start + bytes.length :=
  bounds_of_mem_collect_nil (Array.mem_toList_iff.mp member)

theorem not_contains_of_lt {span : Span} {offset : Nat} (before : offset < span.start) :
    span.contains offset = false := by
  rw [Span.contains, decide_eq_false (Nat.not_le_of_lt before), Bool.false_and]

/-- A byte is part of no word if and only if it is a space outside of literals. -/
theorem forall_not_contains_iff {start depth place : Nat} {bytes : List UInt8} {byte : UInt8}
    (found : bytes[place]? = some byte) :
    (∀ word ∈ among following start depth bytes, word.span.contains (start + place) = false) ↔
      Byte.isSpace byte = true ∧ ¬ Encloses bytes place := by
  match bytes with
  | [] => cases found
  | head :: tail =>
    cases space : Byte.isSpace head with
    | true =>
        rw [among_cons_of_isSpace space]
        cases place with
        | zero =>
            obtain rfl : head = byte := by simpa using found
            refine iff_of_true (fun word member => ?_) ⟨space, not_encloses_zero⟩
            exact not_contains_of_lt (bounds_of_mem_among member).1
        | succ place =>
            rw [List.getElem?_cons_succ] at found
            rw [encloses_cons_of_plain (Byte.not_isQuote_of_isSpace space), Nat.add_comm place 1,
              ← Nat.add_assoc]
            exact forall_not_contains_iff found
    | false =>
        -- The first word decides for the bytes that it holds, and what follows it for all others.
        rw [among_cons space, List.forall_mem_cons]
        rcases Nat.lt_or_ge (shape following head tail).2 place with behind | here
        · obtain ⟨further, rfl⟩ := Nat.exists_eq_add_of_lt behind
          rw [List.getElem?_cons_succ, ← List.getElem?_drop] at found
          have goes_on : tail.drop (shape following head tail).2 ≠ [] := by
            intro nothing
            rw [nothing] at found
            cases found
          have passed : (first following start depth head tail).span.contains
              (start + ((shape following head tail).2 + 1 + further)) = false := by
            simp [first, Span.contains]
            omega
          rw [Nat.add_right_comm, passed, encloses_add_shape_iff goes_on, and_iff_right rfl,
            ← Nat.add_assoc, ← Nat.add_assoc]
          exact forall_not_contains_iff found
        · refine iff_of_false ?_ ?_
          · simp [first, Span.contains]
            omega
          · rintro ⟨spaces, outside⟩
            exact outside (encloses_of_isSpace space found spaces here)
termination_by bytes.length
decreasing_by all_goals simp only [List.length_cons, List.length_drop]; omega

/-- A name is followed by no byte that could continue it. -/
theorem not_continuesName_behind {start depth place : Nat} {bytes : List UInt8} {word : Word}
    (member : word ∈ among following start depth bytes) (name : word.kind = .name)
    (stop : word.span.stop = start + place) :
    ∀ next ∈ bytes[place]?, Byte.continuesName next = false := by
  match bytes with
  | [] => exact fun next found => by cases found
  | head :: tail =>
    cases space : Byte.isSpace head with
    | true =>
        rw [among_cons_of_isSpace space] at member
        have bounds := bounds_of_mem_among member
        obtain ⟨place, rfl⟩ : ∃ before, place = before + 1 := ⟨place - 1, by omega⟩
        rw [List.getElem?_cons_succ]
        exact not_continuesName_behind member name (by omega)
    | false =>
        rw [among_cons space] at member
        rcases List.mem_cons.mp member with rfl | later
        · have first_stop : (first following start depth head tail).span.stop =
              start + (shape following head tail).2 + 1 := rfl
          obtain rfl : place = (shape following head tail).2 + 1 := by omega
          have ends := not_continuesName_after_name name
          rwa [List.head?_drop, ← List.getElem?_cons_succ (a := head)] at ends
        · have bounds := bounds_of_mem_among later
          obtain ⟨further, rfl⟩ : ∃ further, place = (shape following head tail).2 + further + 1 :=
            ⟨place - (shape following head tail).2 - 1, by omega⟩
          rw [List.getElem?_cons_succ, ← List.getElem?_drop]
          exact not_continuesName_behind later name (by omega)
termination_by bytes.length
decreasing_by all_goals simp only [List.length_cons, List.length_drop]; omega

end Among

section Split

variable {source : Source} {span : Span}

theorem getElem?_slice {place : Nat} (below : span.start + place < span.stop) :
    (source.slice span)[place]? = source.byte? (span.start + place) := by
  rw [Source.slice_eq_drop, List.getElem?_drop, List.getElem?_take_of_lt below,
    Source.byte?_eq_getElem?]

/-- The words of a part of a text are not empty, lie in it between characters, and come one after
the other.  The bytes outside of all words are the spaces outside of literals, and a name is
followed by none that could continue it. -/
theorem split_covers (part : source.HasPart span) :
    let words := split source span
    (∀ word ∈ words,
      word.span.start < word.span.stop ∧
        (span.start ≤ word.span.start ∧ word.span.stop ≤ span.stop) ∧
        source.isBoundary word.span.start = true ∧ source.isBoundary word.span.stop = true) ∧
    words.Pairwise (fun earlier later => earlier.span.stop ≤ later.span.start) ∧
    (∀ offset, span.contains offset = true →
      ∃ byte, source.byte? offset = some byte ∧
        ((∀ word ∈ words, word.span.contains offset = false) ↔
          Byte.isSpace byte = true ∧
            ¬ Literal.Encloses (source.slice span) (offset - span.start))) ∧
    ∀ word ∈ words, word.kind = .name → word.span.stop < span.stop →
      ∀ byte ∈ source.byte? word.span.stop, Byte.continuesName byte = false := by
  intro words
  have bounds (word : Word) (member : word ∈ words) := bounds_of_mem_split part.ordered member
  refine ⟨fun word member => ?_, (pairwise_split source span).imp Before.stop_le,
    fun offset inside => ?_, fun word member name goes_on => ?_⟩
  · obtain ⟨above, filled, below⟩ := bounds word member
    have stands := (standsIn_of_mem_split part member).part
    exact ⟨filled, ⟨above, below⟩, stands.starts, stands.stops⟩
  · rw [Span.contains, Bool.and_eq_true, decide_eq_true_iff, decide_eq_true_iff] at inside
    obtain ⟨place, rfl⟩ := Nat.exists_eq_add_of_le inside.1
    have within : span.start + place < source.toList.length :=
      Source.size_eq_length source ▸ Nat.lt_of_lt_of_le inside.2 part.inside
    have found := (source.byte?_eq_getElem? _).trans (List.getElem?_eq_getElem within)
    rw [Nat.add_sub_cancel_left]
    exact ⟨_, found, forall_not_contains_iff ((getElem?_slice inside.2).trans found)⟩
  · obtain ⟨above, filled, -⟩ := bounds word member
    obtain ⟨place, stop⟩ := Nat.exists_eq_add_of_le (Nat.le_trans above (Nat.le_of_lt filled))
    rw [stop] at goes_on ⊢
    rw [← getElem?_slice goes_on]
    exact not_continuesName_behind member name stop

/-- A name beyond ASCII, and spaces inside of a literal that is closed and one that is not. -/
theorem split_covers_with_literals :
    let source := Source.ofString "\x7b\x7b é1 ~ 'a b' \x22c d"
    let span : Span := ⟨2, 19⟩
    source.HasPart span ∧
      (split source span).map (·.span) = [⟨3, 6⟩, ⟨7, 8⟩, ⟨9, 14⟩, ⟨15, 19⟩] ∧
      ¬ Literal.Encloses (source.slice span) 4 ∧ Literal.Encloses (source.slice span) 9 ∧
      Literal.Encloses (source.slice span) 15 := by
  intro source span
  have part : source.HasPart span :=
    ⟨by decide, by decide +kernel, by decide +kernel, by decide +kernel⟩
  obtain ⟨-, -, covers, -⟩ := split_covers part
  have encloses_iff (offset : Nat) (inside : span.contains offset = true)
      (spaces : (source.byte? offset).any Byte.isSpace = true) :
      Literal.Encloses (source.slice span) (offset - span.start) ↔
        (split source span).any (·.span.contains offset) = true := by
    obtain ⟨byte, found, outside⟩ := covers offset inside
    rw [found, Option.any_some] at spaces
    rw [and_iff_right spaces] at outside
    rw [← not_iff_not, ← outside]
    simp
  exact ⟨part, by decide +kernel,
    mt (encloses_iff 6 (by decide) (by decide +kernel)).mp (by decide +kernel),
    (encloses_iff 11 (by decide) (by decide +kernel)).mpr (by decide +kernel),
    (encloses_iff 17 (by decide) (by decide +kernel)).mpr (by decide +kernel)⟩

end Split

end Word
end TwigTemplate
