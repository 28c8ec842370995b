import TwigTemplate.Blank
import TwigTemplate.Byte

/-!
# White space around a text

Trimming takes a text apart into white space, what is left, and white space.  The five characters
that separate words are white space, and only these are a byte each that separates words.
-/

namespace TwigTemplate
namespace Blank

variable {before middle after characters : List Char}

/-- What is trimmed off is white space. -/
theorem exists_trim (characters : List Char) :
    ∃ before after, characters = before ++ (trim characters ++ after) ∧
      (∀ character ∈ before, isBlank character = true) ∧
      ∀ character ∈ after, isBlank character = true := by
  have all_blank {text : List Char} : ∀ character ∈ text.takeWhile isBlank,
      isBlank character = true := List.all_eq_true.mp List.all_takeWhile
  have rest_eq : characters.dropWhile isBlank = trim characters ++
      ((characters.dropWhile isBlank).reverse.takeWhile isBlank).reverse := by
    rw [trim, ← List.reverse_append, List.takeWhile_append_dropWhile, List.reverse_reverse]
  refine ⟨characters.takeWhile isBlank,
    ((characters.dropWhile isBlank).reverse.takeWhile isBlank).reverse, ?_, all_blank, ?_⟩
  · rw [← rest_eq, List.takeWhile_append_dropWhile]
  · intro character member
    exact all_blank character (List.mem_reverse.mp member)

/-- A text without white space is what is left of it between white space. -/
theorem trim_append_append (filled : middle ≠ [])
    (unblank : ∀ character ∈ middle, isBlank character = false)
    (blank_before : ∀ character ∈ before, isBlank character = true)
    (blank_after : ∀ character ∈ after, isBlank character = true) :
    trim (before ++ (middle ++ after)) = middle := by
  have keeps {text : List Char} (filled : text ≠ [])
      (unblank : ∀ character ∈ text, isBlank character = false) (rest : List Char) :
      (text ++ rest).dropWhile isBlank = text ++ rest := by
    obtain ⟨character, others, rfl⟩ := List.exists_cons_of_ne_nil filled
    exact List.dropWhile_cons_of_neg (by simp [unblank character List.mem_cons_self])
  have filled_reverse : middle.reverse ≠ [] := mt List.reverse_eq_nil_iff.mp filled
  have unblank_reverse : ∀ character ∈ middle.reverse, isBlank character = false :=
    fun character member => unblank character (List.mem_reverse.mp member)
  have blank_reverse : ∀ character ∈ after.reverse, isBlank character = true :=
    fun character member => blank_after character (List.mem_reverse.mp member)
  rw [trim, List.dropWhile_append_of_pos blank_before, keeps filled unblank, List.reverse_append,
    List.dropWhile_append_of_pos blank_reverse, ← List.append_nil middle.reverse,
    keeps filled_reverse unblank_reverse, List.append_nil, List.reverse_reverse]

/-- The characters that separate words. -/
def separators : List Char := [' ', '\t', '\n', '\x0c', '\r']

theorem isBlank_of_mem_separators {character : Char} (separates : character ∈ separators) :
    isBlank character = true := by
  simp only [separators, List.mem_cons, List.not_mem_nil, or_false] at separates
  rcases separates with rfl | rfl | rfl | rfl | rfl <;> decide

theorem isSpace_of_mem_separators {character : Char} (separates : character ∈ separators) :
    Byte.isSpace (Byte.ofChar character) = true := by
  simp only [separators, List.mem_cons, List.not_mem_nil, or_false] at separates
  rcases separates with rfl | rfl | rfl | rfl | rfl <;> decide

theorem exists_of_isSpace {byte : UInt8} (space : Byte.isSpace byte = true) :
    ∃ character ∈ separators, byte = Byte.ofChar character := by
  simp only [Byte.isSpace, Bool.or_eq_true, beq_iff_eq] at space
  rcases space with (((rfl | rfl) | rfl) | rfl) | rfl
  · exact ⟨' ', by simp [separators], rfl⟩
  · exact ⟨'\t', by simp [separators], rfl⟩
  · exact ⟨'\n', by simp [separators], rfl⟩
  · exact ⟨'\x0c', by simp [separators], rfl⟩
  · exact ⟨'\r', by simp [separators], rfl⟩

/-- The bytes of separators are one for each. -/
theorem toUTF8_of_separators (separate : ∀ character ∈ characters, character ∈ separators) :
    (String.ofList characters).toUTF8.data.toList = characters.map Byte.ofChar := by
  rw [String.toUTF8_eq_toByteArray, String.toByteArray_ofList]
  induction characters with
  | nil => rfl
  | cons character characters ih =>
      rw [List.forall_mem_cons] at separate
      have single : character.utf8Size = 1 := by
        have separates := separate.1
        simp only [separators, List.mem_cons, List.not_mem_nil, or_false] at separates
        rcases separates with rfl | rfl | rfl | rfl | rfl <;> decide
      rw [List.utf8Encode_cons, List.utf8Encode_singleton,
        String.utf8EncodeChar_eq_singleton single, ByteArray.data_append, Array.toList_append,
        ih separate.2]
      rfl

end Blank
end TwigTemplate
