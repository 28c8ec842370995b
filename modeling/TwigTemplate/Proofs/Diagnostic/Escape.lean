import Mathlib.Data.List.TakeWhile
import TwigTemplate.Diagnostic.Report
import TwigTemplate.Proofs.Splitting

/-!
# Escape sequences

Terminals take the color of a text from escape sequences in it.  What sets off the code in prose and
the delimiters in a line only adds such sequences, so deleting them gives the text back.
-/

namespace TwigTemplate

/-! ### Deleting escape sequences -/

namespace Escape

/-- The character that begins an escape sequence. -/
def lead : Char := '\x1b'

/-- Digits and semicolons, the parameters of an escape sequence. -/
def isParameter (character : Char) : Bool := character.isDigit || character == ';'

/-- What follows the escape sequence at the head of the characters.  It consists of its lead, a
bracket, parameters and the letter `m`. -/
def after? : List Char → Option (List Char)
  | first :: bracket :: rest =>
    if first == lead && bracket == '[' then
      match rest.dropWhile isParameter with
      | last :: after => if last == 'm' then some after else none
      | [] => none
    else none
  | _ => none

theorem after?_eq_some_iff {characters after : List Char} :
    after? characters = some after ↔ ∃ parameters,
      characters = lead :: '[' :: (parameters ++ 'm' :: after) ∧
        ∀ parameter ∈ parameters, isParameter parameter = true := by
  constructor
  · intro found
    match characters with
    | first :: bracket :: rest =>
      rw [after?] at found
      split at found
      · rename_i begins
        rw [Bool.and_eq_true, beq_iff_eq, beq_iff_eq] at begins
        obtain ⟨rfl, rfl⟩ := begins
        split at found
        · rename_i last behind dropped
          split at found
          · rename_i ends
            obtain rfl := beq_iff_eq.mp ends
            obtain rfl := Option.some.inj found
            refine ⟨rest.takeWhile isParameter, ?_, fun _ => List.mem_takeWhile_imp⟩
            rw [← dropped, List.takeWhile_append_dropWhile]
          · cases found
        · cases found
      · cases found
  · rintro ⟨parameters, rfl, allowed⟩
    have dropped : (parameters ++ 'm' :: after).dropWhile isParameter = 'm' :: after := by
      rw [List.dropWhile_append_of_pos allowed]
      rfl
    simp [after?, dropped]

theorem length_after? {characters after : List Char} (found : after? characters = some after) :
    after.length < characters.length := by
  obtain ⟨parameters, rfl, -⟩ := after?_eq_some_iff.mp found
  simp only [List.length_cons, List.length_append]
  omega

/-- The characters without the escape sequences among them. -/
def delete : List Char → List Char
  | [] => []
  | character :: rest =>
    match found : after? (character :: rest) with
    | some after =>
      have := length_after? found
      delete after
    | none => character :: delete rest
termination_by characters => characters.length
decreasing_by
  · exact this
  · exact Nat.lt_succ_self rest.length

/-- The colored characters are the plain ones with escape sequences added to them. -/
inductive Added : List Char → List Char → Prop
  /-- Nothing has been added to nothing. -/
  | nil : Added [] []
  /-- A character is kept, and it does not begin an escape sequence. -/
  | kept {character : Char} {plain colored : List Char} (other : character ≠ lead)
      (further : Added plain colored) : Added (character :: plain) (character :: colored)
  /-- An escape sequence is added. -/
  | sequence {characters plain colored : List Char} (found : after? characters = some colored)
      (further : Added plain colored) : Added plain characters

theorem Added.delete_eq {plain colored : List Char} (added : Added plain colored) :
    delete colored = plain := by
  induction added with
  | nil => rw [delete]
  | @kept character _ colored other _ ih =>
      have nothing : after? (character :: colored) = none := by
        rw [Option.eq_none_iff_forall_ne_some]
        intro after found
        obtain ⟨_, same, -⟩ := after?_eq_some_iff.mp found
        exact other (List.cons.inj same).1
      rw [delete]
      split
      · rename_i found
        rw [nothing] at found
        cases found
      · rw [ih]
  | @sequence characters _ _ found _ ih =>
      cases characters with
      | nil => cases found
      | cons character rest =>
          rw [delete]
          split
          · rename_i same
            obtain rfl := Option.some.inj (found.symm.trans same)
            exact ih
          · rename_i nothing
            rw [nothing] at found
            cases found

theorem Added.append {plain colored later shown : List Char} (added : Added plain colored)
    (further : Added later shown) : Added (plain ++ later) (colored ++ shown) := by
  induction added with
  | nil => exact further
  | kept other _ ih => exact .kept other ih
  | sequence found _ ih =>
      obtain ⟨parameters, rfl, allowed⟩ := after?_eq_some_iff.mp found
      exact .sequence (after?_eq_some_iff.mpr ⟨parameters, by simp, allowed⟩) ih

/-- Nothing needs to be added. -/
theorem Added.refl {characters : List Char} (uncolored : lead ∉ characters) :
    Added characters characters := by
  induction characters with
  | nil => exact .nil
  | cons character rest ih =>
      rw [List.mem_cons, not_or] at uncolored
      exact .kept (Ne.symm uncolored.1) (ih uncolored.2)

end Escape

/-- The text without the escape sequences in it. -/
def withoutEscapes (text : String) : String := String.ofList (Escape.delete text.toList)

/-- The colored text is the plain one with escape sequences added to it. -/
def Colors (plain colored : String) : Prop := Escape.Added plain.toList colored.toList

/-- No character of the text begins an escape sequence. -/
def Uncolored (text : String) : Prop := Escape.lead ∉ text.toList

instance (text : String) : Decidable (Uncolored text) :=
  inferInstanceAs (Decidable (Escape.lead ∉ text.toList))

theorem uncolored_append {left right : String} :
    Uncolored (left ++ right) ↔ Uncolored left ∧ Uncolored right := by
  simp [Uncolored, String.toList_append, not_or]

namespace Colors

variable {plain colored later shown : String}

theorem withoutEscapes_eq (colors : Colors plain colored) : withoutEscapes colored = plain := by
  rw [withoutEscapes, colors.delete_eq, String.ofList_toList]

theorem append (colors : Colors plain colored) (further : Colors later shown) :
    Colors (plain ++ later) (colored ++ shown) := by
  rw [Colors, String.toList_append, String.toList_append]
  exact Escape.Added.append colors further

/-- A text to which nothing is added. -/
theorem refl (uncolored : Uncolored plain) : Colors plain plain := Escape.Added.refl uncolored

/-- A single escape sequence. -/
theorem code (found : Escape.after? colored.toList = some []) : Colors "" colored :=
  .sequence found .nil

theorem join {plains coloreds : List String} (colors : List.Forall₂ Colors plains coloreds) :
    Colors (String.join plains) (String.join coloreds) := by
  induction colors with
  | nil => exact .nil
  | cons first _ ih =>
      rw [String.join_cons, String.join_cons]
      exact first.append ih

end Colors

namespace Palette

/-! ### Delimiters in a line -/

theorem after?_resetCode : Escape.after? resetCode.toList = some [] := by decide

/-- Delimiters are set off by escape sequences. -/
theorem after?_delimiterCode {first second : Char} {code : String}
    (sets_off : delimiterCode? first second = some code) :
    Escape.after? code.toList = some [] := by
  rw [delimiterCode?] at sets_off
  split at sets_off
  · obtain rfl := Option.some.inj sets_off
    decide
  split at sets_off
  · obtain rfl := Option.some.inj sets_off
    decide
  · cases sets_off

theorem added_setOffDelimiters_go {plain characters : List Char} {out : String}
    (added : Escape.Added plain out.toList) (uncolored : Escape.lead ∉ characters) :
    Escape.Added (plain ++ characters) (setOffDelimiters.go out characters).toList := by
  fun_induction setOffDelimiters.go out characters generalizing plain with
  | case1 out => rwa [List.append_nil]
  | case2 out character =>
      rw [String.toList_push]
      exact added.append (.refl uncolored)
  | case3 out first second rest code sets_off ih =>
      simp only [List.mem_cons, not_or] at uncolored
      have pair : Escape.lead ∉ [first, second] := by simp [uncolored]
      have colored := (added.append (.sequence (after?_delimiterCode sets_off) .nil)).append
        ((Escape.Added.refl pair).append (.sequence after?_resetCode .nil))
      have shown := @ih (plain ++ [first, second])
        (by simpa [String.toList_append] using colored) uncolored.2.2
      rwa [List.append_assoc] at shown
  | case4 out first second rest other ih =>
      rw [List.mem_cons, not_or] at uncolored
      have kept : Escape.lead ∉ [first] := by simp [uncolored.1]
      have shown := @ih (plain ++ [first])
        (by rw [String.toList_push]; exact added.append (.refl kept)) uncolored.2
      rwa [List.append_assoc] at shown

/-- Setting off delimiters loses and adds no character of a line. -/
theorem colors_setOffDelimiters {line : String} (uncolored : Uncolored line) :
    Colors line (setOffDelimiters line) := by
  have nothing : Escape.Added [] "".toList := .nil
  have shown := added_setOffDelimiters_go nothing uncolored
  rwa [List.nil_append] at shown

/-! ### Code in prose -/

/-- A part between backticks, set off if its number is odd. -/
def setOffPart (numbered : String × Nat) : String :=
  if numbered.2 % 2 == 1 then s!"\x1b[38;5;173m`{numbered.1}`{resetCode}" else numbered.1

theorem setOffCode_eq (text : String) :
    setOffCode text = String.join (((groupsBetween (· == '\x60') text.toList).map
      String.ofList).zipIdx.map setOffPart) := rfl

/-- If there is a part on both sides of each part with an odd number, the backticks around parts are
those between them. -/
theorem added_setOffParts {groups : List (List Char)}
    (uncolored : ∀ group ∈ groups, Escape.lead ∉ group) (odd : groups.length % 2 = 1)
    {number : Nat} (even : number % 2 = 0) :
    Escape.Added (['\x60'].intercalate groups)
      (String.join (((groups.map String.ofList).zipIdx number).map setOffPart)).toList := by
  have outside (part : String) : setOffPart (part, number) = part := by
    simp [setOffPart, even]
  have inside (part : List Char) : (setOffPart (String.ofList part, number + 1)).toList =
      "\x1b[38;5;173m".toList ++ (['\x60'] ++ part ++ ['\x60'] ++ resetCode.toList) := by
    have one : (number + 1) % 2 = 1 := by omega
    simp [setOffPart, one, toString]
  match groups with
  | [] => cases odd
  | [first] => simpa [outside] using Escape.Added.refl (uncolored first List.mem_cons_self)
  | [_, _] => simp at odd
  | first :: second :: third :: rest =>
    simp only [List.forall_mem_cons] at uncolored
    obtain ⟨first_plain, second_plain, others⟩ := uncolored
    have odd_rest : (third :: rest).length % 2 = 1 := by
      simp only [List.length_cons] at odd ⊢
      omega
    have even_next : (number + 1 + 1) % 2 = 0 := by omega
    have later := added_setOffParts (List.forall_mem_cons.mpr others) odd_rest even_next
    have backtick : Escape.lead ∉ ['\x60'] := by decide
    have code : Escape.after? "\x1b[38;5;173m".toList = some [] := by decide
    have quoted := ((Escape.Added.refl backtick).append (.refl second_plain)).append
      (.refl backtick)
    have set_off := ((Escape.Added.sequence code .nil).append quoted).append
      (.sequence after?_resetCode .nil)
    have colored := ((Escape.Added.refl first_plain).append set_off).append later
    simp only [List.map_cons, List.zipIdx_cons, String.join_cons, String.toList_append, outside,
      inside, List.intercalate_cons_cons]
    simpa using colored

/-- Setting off the code in prose loses and adds no character if the backticks come in pairs. -/
theorem colors_setOffCode {text : String} (uncolored : Uncolored text)
    (paired : text.toList.count '\x60' % 2 = 0) : Colors text (setOffCode text) := by
  have odd : (groupsBetween (· == '\x60') text.toList).length % 2 = 1 := by
    rw [List.count] at paired
    rw [length_groupsBetween]
    omega
  have colored := added_setOffParts
    (fun group member among => uncolored (subset_of_mem_groupsBetween member among)) odd
    (Nat.zero_mod 2)
  rwa [intercalate_groupsBetween, ← setOffCode_eq] at colored

end Palette
end TwigTemplate
