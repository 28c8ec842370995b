import TwigTemplate.Proofs.Tag.Signature

/-!
# Texts at the end of a content

A text is read at the end of a content as it is before a separator, except that a point behind the
content may cut one off from its last number.  The names in it are the same.
-/

namespace TwigTemplate
namespace Word

/-- No word goes on in the bytes: they begin with a separator, or there are none. -/
def Ended (bytes : List UInt8) : Prop := bytes = [] ∨ Separated bytes

theorem ended_cons {byte : UInt8} {tail : List UInt8} (separates : Byte.separates byte = true) :
    Ended (byte :: tail) := .inr (separated_cons separates)

theorem ended_of_spaces {bytes : List UInt8} (spaces : ∀ byte ∈ bytes, Byte.isSpace byte = true) :
    Ended bytes := by
  cases bytes with
  | nil => exact .inl rfl
  | cons byte tail =>
      exact ended_cons (by simp [Byte.separates, spaces byte List.mem_cons_self])

section Shape

variable {following : Option UInt8} {byte : UInt8} {tail : List UInt8}

/-- What follows a content matters only to a number with a point at its end. -/
theorem numberRemainder_go_cases (following : Option UInt8) (bytes : List UInt8) (passed : Nat) :
    numberRemainder.go following bytes passed = numberRemainder.go none bytes passed ∨
      ∃ taken, numberRemainder.go following bytes passed = passed + taken ∧
        bytes.drop taken = [Byte.dot] := by
  induction bytes generalizing passed with
  | nil => exact .inl rfl
  | cons byte bytes ih =>
      have further : numberRemainder.go following bytes (passed + 1) =
          numberRemainder.go none bytes (passed + 1) ∨
          ∃ taken, numberRemainder.go following bytes (passed + 1) = passed + taken ∧
            (byte :: bytes).drop taken = [Byte.dot] := by
        refine (ih (passed + 1)).imp_right ?_
        rintro ⟨taken, reached, rest⟩
        exact ⟨taken + 1, by omega, rest⟩
      rw [numberRemainder.go, numberRemainder.go]
      cases digit : Byte.isDigit byte || byte == Byte.ofChar '_' with
      | true => exact further
      | false =>
          cases bytes with
          | cons next bytes =>
              rw [List.head?_cons, Option.some_or, Option.some_or]
              cases byte == Byte.dot && some next != some Byte.dot with
              | true => exact further
              | false => exact .inl rfl
          | nil =>
              by_cases point : byte = Byte.dot
              · subst point
                rw [if_neg Bool.false_ne_true, if_neg Bool.false_ne_true]
                split
                · exact .inl rfl
                · exact .inr ⟨0, rfl, rfl⟩
              · simp [point]

/-- The first word of a content is the same whatever follows, or it is a number before a point that
ends the content. -/
theorem shape_cases (following : Option UInt8) (byte : UInt8) (tail : List UInt8) :
    shape following byte tail = shape none byte tail ∨
      (shape following byte tail).1 = .number ∧
        tail.drop (shape following byte tail).2 = [Byte.dot] := by
  rcases numberRemainder_go_cases following tail 0 with same | ⟨taken, reached, rest⟩
  · exact .inl (by rw [shape, shape, numberRemainder, same, numberRemainder])
  · rw [Nat.zero_add] at reached
    by_cases name : Byte.startsName byte = true
    · exact .inl (by rw [shape, shape, if_pos name, if_pos name])
    by_cases digit : Byte.isDigit byte = true
    · rw [shape, if_neg name, if_pos digit, numberRemainder, reached]
      exact .inr ⟨rfl, rest⟩
    · exact .inl (by rw [shape, shape, if_neg name, if_neg name, if_neg digit, if_neg digit])

end Shape

/-- A name in a content is one whatever follows the content. -/
theorem mem_among_of_name {following : Option UInt8} {start depth : Nat} {bytes : List UInt8}
    {word : Word} (member : word ∈ among following start depth bytes) (name : word.kind = .name) :
    word ∈ among none start depth bytes := by
  match bytes with
  | [] =>
    rw [among_nil] at member
    cases member
  | byte :: tail =>
    cases space : Byte.isSpace byte with
    | true =>
        rw [among_cons_of_isSpace space] at member ⊢
        exact mem_among_of_name member name
    | false =>
        rw [among_cons space] at member
        rcases shape_cases following byte tail with same | ⟨number, point⟩
        · have same_first : first following start depth byte tail =
              first none start depth byte tail := by rw [first, first, same]
          rw [same, same_first] at member
          rw [among_cons space]
          rcases List.mem_cons.mp member with rfl | later
          · exact List.mem_cons_self
          · exact List.mem_cons_of_mem _ (mem_among_of_name later name)
        -- A number that is cut off leaves a point behind it, so there is no name from here on.
        · rw [point] at member
          rcases List.mem_cons.mp member with rfl | later
          · cases number.symm.trans name
          · rw [among_cons (by decide), List.drop_nil, among_nil, List.mem_singleton] at later
            subst later
            exact absurd (shape_fst_eq_name_iff.mp name) (by decide)
termination_by bytes.length
decreasing_by all_goals simp only [List.length_cons, List.length_drop]; omega

/-- A name at the end of a content or before a separator. -/
theorem among_name_of_ended {following : Option UInt8} {start depth : Nat} {name : String}
    {right : List UInt8} (spells : SpellsName name.toUTF8.data.toList) (ended : Ended right) :
    among following start depth (name.toUTF8.data.toList ++ right) =
      named start depth name ::
        among following (start + name.toUTF8.data.toList.length) depth right := by
  rcases ended with rfl | separated
  · have word := collect_name following start depth spells (List.forall_mem_nil _)
      (List.forall_mem_nil _)
    rw [List.nil_append, getD_fromUTF8?_of_spellsName spells, List.length_nil, Nat.add_zero]
      at word
    rw [among_nil, among, word]
    rfl
  · exact among_name spells separated

/-- Wherever the name stands in the text, it is inside of brackets. -/
def OnlyEnclosed (name text : String) : Prop :=
  ∀ word ∈ ofText text, word.isName name = true → word.depth ≠ 0

instance (name text : String) : Decidable (OnlyEnclosed name text) :=
  inferInstanceAs (Decidable (∀ word ∈ ofText text, word.isName name = true → word.depth ≠ 0))

end Word

namespace PlainText

open Word

variable {text : String} (plain : PlainText text)
include plain

/-- The words of a plain text at the end of a content or before a separator. -/
theorem exists_among {right : List UInt8} (ended : Ended right) (following : Option UInt8)
    (start depth : Nat) :
    ∃ other, among following start depth (text.toUTF8.data.toList ++ right) =
      among other start depth text.toUTF8.data.toList ++
        among following (start + text.toUTF8.data.toList.length) depth right := by
  rcases ended with rfl | separated
  · exact ⟨following, by rw [among_nil, List.append_nil, List.append_nil]⟩
  · exact ⟨none, by rw [plain.among_append separated, plain.among_eq_map]⟩

/-- A name that stands only inside the brackets of a text stands nowhere else, whatever follows the
text. -/
theorem not_isName_of_isTop {name : String} (inner : OnlyEnclosed name text)
    {following : Option UInt8} {start : Nat} :
    ∀ word ∈ among following start 0 text.toUTF8.data.toList,
      (word.isTop && word.isName name) = false := by
  intro word member
  rw [Bool.and_eq_false_iff, or_iff_not_imp_right, Bool.not_eq_false]
  intro named
  have kind : word.kind = .name := by
    rw [isName, Bool.and_eq_true, beq_iff_eq] at named
    exact named.1
  have listed := mem_among_of_name member kind
  rw [plain.among_eq_map] at listed
  obtain ⟨other, found, rfl⟩ := List.mem_map.mp listed
  have deeper := inner other found named
  simpa [isTop, within] using deeper

end PlainText

end TwigTemplate
