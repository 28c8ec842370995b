import TwigTemplate.Word

/-!
# Where words lie

The words of a tag lie in its body, and they depend on the bytes of the body and on whether a point
follows it.
-/

namespace TwigTemplate

namespace Word

theorem numberRemainder_go_le (following : Option UInt8) (bytes : List UInt8) (passed : Nat) :
    numberRemainder.go following bytes passed ≤ passed + bytes.length := by
  fun_induction numberRemainder.go following bytes passed with
  | case1 passed => exact Nat.le_refl _
  | case2 passed byte tail digit ih => exact Nat.le_trans ih (by simp; omega)
  | case3 passed byte tail other point ih => exact Nat.le_trans ih (by simp; omega)
  | case4 passed byte tail other ended => exact Nat.le_add_right _ _

/-- A word never reaches past the bytes that remain. -/
theorem shape_le (following : Option UInt8) (byte : UInt8) (tail : List UInt8) :
    (shape following byte tail).2 ≤ tail.length := by
  rw [shape]
  split
  · exact (List.takeWhile_prefix _).length_le
  split
  · exact Nat.le_trans (numberRemainder_go_le following tail 0) (by omega)
  split
  · cases closed : Literal.remainder? byte tail with
    | none => exact Nat.le_refl _
    | some length => exact (Literal.remainder?_bounds closed).2
  split
  · rename_i operator
    cases tail with
    | nil => cases operator
    | cons second tail => exact Nat.succ_le_succ (Nat.zero_le _)
  · exact Nat.zero_le _

/-- The words found last lie among the bytes. -/
theorem bounds_of_mem_collect {following : Option UInt8} {start depth : Nat} {found : Array Word}
    {bytes : List UInt8} {word : Word} (member : word ∈ collect following start depth found bytes) :
    word ∈ found ∨ start ≤ word.span.start ∧ word.span.start < word.span.stop ∧
      word.span.stop ≤ start + bytes.length := by
  fun_induction collect following start depth found bytes with
  | case1 start depth found => exact .inl member
  | case2 start depth found byte tail space ih =>
      rcases ih member with before | bounds
      · exact .inl before
      · simp only [List.length_cons]
        omega
  | case3 start depth found byte tail other kind extra shaped stop outer inner text ih =>
      have extra_le : extra ≤ tail.length := by
        have bound := shape_le following byte tail
        rwa [shaped] at bound
      simp only [List.length_cons, List.length_drop] at *
      rcases ih member with before | bounds
      · rcases Array.mem_push.mp before with before | rfl
        · exact .inl before
        · right
          dsimp only [stop]
          omega
      · right
        omega

/-- What follows the content counts only if it is a point. -/
theorem collect_congr {left right : Option UInt8}
    (same : left = some Byte.dot ↔ right = some Byte.dot) (start depth : Nat) (found : Array Word)
    (bytes : List UInt8) :
    collect left start depth found bytes = collect right start depth found bytes := by
  have number : ∀ bytes passed,
      numberRemainder.go left bytes passed = numberRemainder.go right bytes passed := by
    intro bytes
    induction bytes with
    | nil => exact fun _ => rfl
    | cons byte tail ih =>
        intro passed
        have ends : (tail.head?.or left != some Byte.dot) =
            (tail.head?.or right != some Byte.dot) := by
          cases tail with
          | nil =>
              simp only [List.head?_nil, Option.none_or]
              rw [Bool.eq_iff_iff, bne_iff_ne, bne_iff_ne, ne_eq, ne_eq, same]
          | cons next tail => rfl
        rw [numberRemainder.go, numberRemainder.go, ends, ih]
  have shape_eq : ∀ byte tail, shape left byte tail = shape right byte tail := by
    intro byte tail
    rw [shape, shape, numberRemainder, numberRemainder, number]
  fun_induction collect left start depth found bytes with
  | case1 start depth found => rw [collect]
  | case2 start depth found byte tail space ih => rw [collect, if_pos space, ih]
  | case3 start depth found byte tail other kind extra shaped stop outer inner text ih =>
      rw [shape_eq] at shaped
      rw [collect, if_neg other, shaped]
      exact ih

theorem length_slice_le (source : Source) {span : Span} (ordered : span.start ≤ span.stop) :
    span.start + (source.slice span).length ≤ span.stop := by
  rw [Source.slice]
  split
  · simp only [ByteArray.data_extract, Array.toList_extract, List.extract_eq_take_drop,
      List.length_take, List.length_drop]
    omega
  · exact ordered

/-- The words of a body lie in it. -/
theorem bounds_of_mem_split {source : Source} {span : Span} {word : Word}
    (ordered : span.start ≤ span.stop) (member : word ∈ split source span) :
    span.start ≤ word.span.start ∧ word.span.start < word.span.stop ∧
      word.span.stop ≤ span.stop := by
  have inside := length_slice_le source ordered
  rcases bounds_of_mem_collect (Array.mem_toList_iff.mp member) with none | bounds
  · simp at none
  · omega

end Word
end TwigTemplate
