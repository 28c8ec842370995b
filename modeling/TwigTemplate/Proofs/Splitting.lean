import Mathlib.Data.List.Basic
import TwigTemplate.Splitting

/-!
# Groups between separators

The groups of a list hold its items without the separators, in order, and are one more than these.
Lines are such groups of characters, up to line endings.
-/

namespace TwigTemplate

/-- There is one group more than there are separators. -/
theorem length_groupsBetween {α : Type} (separates : α → Bool) (items : List α) :
    (groupsBetween separates items).length = items.countP separates + 1 := by
  induction items with
  | nil => rfl
  | cons item items ih =>
      rw [groupsBetween_cons, List.countP_cons]
      split
      · rw [List.length_cons, ih]
      · rw [List.length_modifyHead, ih, Nat.add_zero]

/-- The groups leave out the separators. -/
theorem flatten_groupsBetween_sublist {α : Type} (separates : α → Bool) (items : List α) :
    (groupsBetween separates items).flatten.Sublist items := by
  induction items with
  | nil => exact List.Sublist.refl _
  | cons item items ih =>
      rw [groupsBetween_cons]
      split
      · exact ih.cons item
      · obtain ⟨first, rest, split⟩ :=
          List.exists_cons_of_ne_nil (groupsBetween_ne_nil separates items)
        rw [split] at ih ⊢
        exact ih.cons_cons item

theorem subset_of_mem_groupsBetween {α : Type} {separates : α → Bool} {items group : List α}
    (member : group ∈ groupsBetween separates items) : group ⊆ items :=
  List.Subset.trans (List.sublist_flatten_of_mem member).subset
    (flatten_groupsBetween_sublist separates items).subset

/-- A map that keeps the separators keeps the groups. -/
theorem groupsBetween_map {α β : Type} {separates : β → Bool} (move : α → β) (items : List α) :
    groupsBetween separates (items.map move) =
      (groupsBetween (fun item => separates (move item)) items).map (List.map move) := by
  induction items with
  | nil => rfl
  | cons item items ih =>
      rw [List.map_cons, groupsBetween_cons, groupsBetween_cons, ih]
      split
      · rfl
      · cases groupsBetween (fun item => separates (move item)) items <;> rfl

/-- The groups between separators with the separators between them. -/
theorem intercalate_groupsBetween {α : Type} [BEq α] [LawfulBEq α] (separator : α)
    (items : List α) : [separator].intercalate (groupsBetween (· == separator) items) = items := by
  induction items with
  | nil => rfl
  | cons item items ih =>
      rw [groupsBetween_cons]
      cases grouped : groupsBetween (· == separator) items with
      | nil => exact absurd grouped (groupsBetween_ne_nil _ items)
      | cons group groups =>
          rw [grouped] at ih
          split
          · rename_i same
            rw [List.intercalate_cons_cons, ih, beq_iff_eq.mp same]
            rfl
          · rw [List.modifyHead_cons, ← ih]
            cases groups <;> simp

/-! ### Lines -/

/-- Lines consist of characters of the text. -/
theorem subset_of_mem_linesOf {text line : String} (member : line ∈ linesOf text) :
    line.toList ⊆ text.toList := by
  obtain ⟨characters, among, rfl⟩ := List.mem_map.mp member
  rw [String.toList_ofList]
  rcases List.mem_append.mp among with ended | last
  · obtain ⟨group, grouped, rfl⟩ := List.mem_map.mp ended
    have inside := subset_of_mem_groupsBetween (List.dropLast_subset _ grouped)
    split
    · exact List.Subset.trans (List.dropLast_subset group) inside
    · exact inside
  · have grouped := Option.mem_toList.mp (List.mem_filter.mp last).1
    exact subset_of_mem_groupsBetween (List.mem_of_getLast? grouped)

/-- A text without line feeds is a single line, or none. -/
theorem eq_of_mem_linesOf {text line : String} (single : '\n' ∉ text.toList)
    (member : line ∈ linesOf text) : line = text := by
  have whole : groupsBetween (· == '\n') text.toList = [text.toList] := by
    refine groupsBetween_of_forall fun character among => ?_
    rw [beq_eq_false_iff_ne]
    rintro rfl
    exact single among
  obtain ⟨characters, among, rfl⟩ := List.mem_map.mp member
  rw [whole] at among
  obtain rfl := List.mem_singleton.mp (List.mem_filter.mp among).1
  exact String.ofList_toList

end TwigTemplate
