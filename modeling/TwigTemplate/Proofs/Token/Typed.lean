import TwigTemplate.Proofs.Token.Region
import TwigTemplate.Proofs.Token.Spelling

/-!
# Reading code that is still being typed

Where a text ends inside a tag or an expression, the code there is read as in any text that goes on
from it, up to the lexeme that is being typed.  That one is a run unless it is complete.
-/

namespace TwigTemplate

open Lexeme

namespace Lexeme

variable {delimiter : Delimiter} {depth : Nat} {content front back : List UInt8} {byte : UInt8}
  {lexeme : Lexeme} {after : Mode}

/-- A region opens with its delimiter in every mode in which regions open, except that only the end
tag counts in a verbatim body. -/
theorem next_of_opener {mode : Mode} {tail other : List UInt8}
    (free : ∀ keyword, mode ≠ .verbatim keyword)
    (opens : (next mode byte tail).1.kind = .opening delimiter)
    (opener : Delimiter.opener? (byte :: other) = some delimiter) :
    next mode byte other = opening delimiter other := by
  have code (opened : Delimiter) (depth : Nat) (content : List UInt8)
      (opens : (ofCode opened depth content byte tail).1.kind = .opening delimiter) :
      ofCode opened depth content byte other = opening delimiter other := by
    have takes := takesCode_ofCode opened depth content byte tail
    generalize ofCode opened depth content byte tail = taken at takes opens
    cases takes with
    | quoted => cases opens
    | unclosed => cases opens
    | closes => cases opens
    | opens _ differs =>
        obtain rfl := TokenKind.opening.inj opens
        exact (TakesCode.opens opener differs).eq_ofCode
    | runs => cases opens
  match mode with
  | .markup => rw [next, ofMarkup, opener]
  | .verbatim keyword => exact absurd rfl (free keyword)
  | .region .comment _ _ =>
    rw [next, ofComment] at opens
    split at opens <;> cases opens
  | .region .tag depth content => exact code .tag depth content opens
  | .region .expression depth content => exact code .expression depth content opens

/-- The beginning of a run is a run. -/
theorem Runs.of_append {rest more run : List UInt8} {later : Nat}
    (runs : Runs delimiter rest depth (run ++ more) later) :
    ∃ middle, Runs delimiter [] depth run middle := by
  induction run generalizing depth with
  | nil => exact ⟨depth, .nil depth⟩
  | cons byte run ih =>
      rw [List.cons_append] at runs
      cases runs with
      | cons plain further =>
          obtain ⟨middle, runs⟩ := ih further
          refine ⟨middle, .cons ?_ runs⟩
          rw [List.append_nil, Bool.eq_false_iff]
          intro ends
          have lasting := lasting_endsRun delimiter depth (byte :: run) (more ++ rest) ends
          rw [List.cons_append, ← List.append_assoc, plain] at lasting
          cases lasting

/-- The beginning of a literal is not closed. -/
theorem not_closed_of_inside {inside rest : List UInt8} (quotes : Byte.isQuote byte = true)
    (within : Literal.Inside byte inside) (split : inside ++ byte :: rest = front ++ back)
    (before : front.length ≤ inside.length) : ¬ Literal.Closed byte front := by
  rintro ⟨other, later, rfl, others⟩
  rw [List.append_assoc, List.cons_append] at split
  obtain ⟨rfl, -⟩ := within.unique others quotes split
  rw [List.length_append, List.length_cons] at before
  omega

/-- Where the text ends inside a run or a literal, there is a run up to the end. -/
theorem ofCode_of_inside
    (taken : ofCode delimiter depth content byte (front ++ back) = (lexeme, after))
    (inner : lexeme.kind = .raw ∨ lexeme.kind = .quoted) (inside : front.length < lexeme.extra) :
    ∃ other, ofCode delimiter depth content byte front = (raw front.length, other) := by
  have takes := takesCode_ofCode delimiter depth content byte (front ++ back)
  rw [taken] at takes
  generalize whole : front ++ back = tail at takes
  cases takes with
  | @quoted part rest quotes within =>
      have missing := not_closed_of_inside quotes within whole.symm (Nat.le_of_lt_succ inside)
      exact ⟨_, (TakesCode.unclosed quotes missing).eq_ofCode⟩
  | unclosed quotes missing =>
      refine ⟨_, (TakesCode.unclosed quotes ?_).eq_ofCode⟩
      rintro ⟨part, rest, rfl, within⟩
      exact missing ⟨part, rest ++ back, by simp [← whole], within⟩
  | closes => simp at inner
  | opens => simp at inner
  | @runs run rest later plain =>
      obtain ⟨more, rfl, -⟩ := exists_more_of_append_eq whole.symm (Nat.le_of_lt inside)
      rw [← List.cons_append] at plain
      obtain ⟨middle, runs⟩ := plain.of_append
      have cut : TakesCode delimiter depth content byte (front ++ [])
          (raw front.length, .region delimiter middle (front.reverse ++ byte :: content)) :=
        .runs runs (.inl rfl)
      rw [List.append_nil] at cut
      exact ⟨_, cut.eq_ofCode⟩

/-- Between two runs or literals begins a literal. -/
theorem endsRun_of_inner (taken : ofCode delimiter depth content byte back = (lexeme, after))
    (inner : lexeme.kind = .raw ∨ lexeme.kind = .quoted)
    (ends : endsRun delimiter depth (byte :: back) = true) : Byte.isQuote byte = true := by
  rw [endsRun_iff delimiter depth content] at ends
  rcases ends with quotes | other
  · exact quotes
  · have spelled := spelled_ofCode delimiter depth content byte back
    rw [taken] at other spelled
    rw [Spelled, inner.resolve_left other] at spelled
    obtain ⟨-, quote, inside, quotes, split⟩ := spelled
    rwa [(List.cons.inj split).1]

/-- A run or a literal leaves the region open. -/
theorem exists_region_of_inner (taken : ofCode delimiter depth content byte back = (lexeme, after))
    (inner : lexeme.kind = .raw ∨ lexeme.kind = .quoted) :
    ∃ later inside, after = .region delimiter later inside := by
  have takes := takesCode_ofCode delimiter depth content byte back
  rw [taken] at takes
  cases takes with
  | quoted => exact ⟨_, _, rfl⟩
  | unclosed => exact ⟨_, _, rfl⟩
  | closes => simp at inner
  | opens => simp at inner
  | runs => exact ⟨_, _, rfl⟩

/-- A complete lexeme of code is taken in the same way as in a text that goes on from there, if only
runs and literals follow it up to the end. -/
theorem ofCode_of_fits (code : delimiter ≠ .comment) {lexemes : List Lexeme} {final : Mode}
    {rest : List UInt8}
    (taken : ofCode delimiter depth content byte (front ++ back) = (lexeme, after))
    (fits : lexeme.extra ≤ front.length)
    (further : Reads after (front.drop lexeme.extra ++ back) lexemes final rest)
    (within : Interior lexemes) (reaches : rest.length ≤ back.length) :
    ofCode delimiter depth content byte front = (lexeme, after) := by
  by_cases more : back = []
  · rwa [more, List.append_nil] at taken
  rw [← taken]
  apply ofCode_append more (by rwa [taken])
  rw [taken]
  rintro later inside rfl filled ends
  obtain ⟨next, others, split⟩ := List.exists_cons_of_ne_nil filled
  rw [split, List.cons_append] at further ends
  have quotes : Byte.isQuote next = true := by
    cases further with
    | done =>
        rw [List.length_cons, List.length_append] at reaches
        omega
    | step read _ =>
        rw [next_code code] at read
        exact endsRun_of_inner read (within _ List.mem_cons_self) ends
  rw [split, endsRun, List.head?_cons, Option.any_some, quotes]
  rfl

end Lexeme

/-- The lexeme in which the first part of a text ends, and what that part makes of it. -/
structure TypedAt (lexemes left : List Lexeme) (lexeme last : Lexeme) (offset : Nat) : Prop where
  /-- The lexeme is one of them. -/
  split : ∃ right, lexemes = left ++ lexeme :: right
  /-- It begins before the end of the part. -/
  above : width left < offset
  /-- It does not end before it. -/
  below : offset ≤ width left + lexeme.length
  /-- It is complete, or a run has been typed of a longer run or literal. -/
  last : last = lexeme ∨ last.kind = .raw ∧ (lexeme.kind = .raw ∨ lexeme.kind = .quoted) ∧
    offset < width left + lexeme.length

/-- Lexemes before and behind leave it as it is. -/
theorem TypedAt.within {lexemes left : List Lexeme} {lexeme last : Lexeme} {offset : Nat}
    (found : TypedAt lexemes left lexeme last offset) (before behind : List Lexeme) :
    TypedAt (before ++ (lexemes ++ behind)) (before ++ left) lexeme last
      (width before + offset) := by
  obtain ⟨⟨right, rfl⟩, above, below, complete⟩ := found
  refine ⟨⟨right ++ behind, by simp⟩, ?_, ?_, ?_⟩
  · rw [width_append]
    omega
  · rw [width_append]
    omega
  · rw [width_append, Nat.add_assoc, Nat.add_lt_add_iff_left]
    exact complete

theorem TypedAt.inner {lexemes left : List Lexeme} {lexeme last : Lexeme} {offset : Nat}
    (found : TypedAt lexemes left lexeme last offset) (within : Interior lexemes) :
    Interior (left ++ [last]) := by
  obtain ⟨⟨right, rfl⟩, -, -, complete⟩ := found
  rw [Interior, List.forall_mem_append, List.forall_mem_cons] at within
  refine List.forall_mem_append.mpr ⟨within.1, List.forall_mem_singleton.mpr ?_⟩
  rcases complete with rfl | ⟨is_raw, -⟩
  · exact within.2.1
  · exact .inl is_raw

/-- Code that is being typed is read as in a text that goes on from it, up to the last lexeme. -/
theorem Reads.exists_typed {delimiter : Delimiter} (code : delimiter ≠ .comment) {depth : Nat}
    {content typed back rest : List UInt8} {lexemes : List Lexeme} {final : Mode}
    (reads : Reads (.region delimiter depth content) (typed ++ back) lexemes final rest)
    (inner : Interior lexemes) (reaches : rest.length ≤ back.length) (filled : typed ≠ []) :
    ∃ left lexeme last after, TypedAt lexemes left lexeme last typed.length ∧
      Reads (.region delimiter depth content) typed (left ++ [last]) after [] := by
  induction lexemes generalizing depth content typed with
  | nil =>
      obtain ⟨-, rfl⟩ := reads.of_nil
      rw [List.length_append] at reaches
      exact absurd (List.eq_nil_of_length_eq_zero (by omega)) filled
  | cons lexeme lexemes ih =>
      obtain ⟨byte, front, rfl⟩ := List.exists_cons_of_ne_nil filled
      rw [Interior, List.forall_mem_cons] at inner
      obtain ⟨here, others⟩ := inner
      rw [List.cons_append] at reads
      cases reads with
      | @step _ after _ _ _ _ _ _ taken further =>
          rw [next_code code] at taken
          obtain ⟨later, inside, rfl⟩ := exists_region_of_inner taken here
          rcases Nat.lt_or_ge front.length lexeme.extra with longer | fits
          · obtain ⟨cut, run⟩ := ofCode_of_inside taken here longer
            refine ⟨[], lexeme, raw front.length, cut,
              ⟨⟨lexemes, rfl⟩, ?_, ?_, .inr ⟨rfl, here, ?_⟩⟩, ?_⟩
            · simp
            · simp only [width_nil, Lexeme.length, List.length_cons]
              omega
            · simp only [width_nil, Lexeme.length, List.length_cons]
              omega
            · refine .step ((next_code code depth content byte front).trans run) ?_
              rw [raw, List.drop_length]
              exact .done _ _
          · rw [List.drop_append_of_le_length fits] at further
            have first : next (.region delimiter depth content) byte front =
                (lexeme, .region delimiter later inside) :=
              (next_code code depth content byte front).trans
                (ofCode_of_fits code taken fits further others reaches)
            by_cases ended : front.drop lexeme.extra = []
            · refine ⟨[], lexeme, lexeme, .region delimiter later inside,
                ⟨⟨lexemes, rfl⟩, ?_, ?_, .inl rfl⟩, .step first ?_⟩
              · simp
              · rw [List.drop_eq_nil_iff] at ended
                simp only [width_nil, Lexeme.length, List.length_cons]
                omega
              · rw [ended]
                exact .done _ _
            · obtain ⟨left, other, last, after, found, reads⟩ := ih further others ended
              have shifted := found.within [lexeme] []
              have long : width [lexeme] + (front.drop lexeme.extra).length =
                  (byte :: front).length := by
                simp only [width_cons, width_nil, Lexeme.length, List.length_drop, List.length_cons]
                omega
              rw [long, List.append_nil] at shifted
              exact ⟨_, other, last, after, shifted, .step first reads⟩

end TwigTemplate
