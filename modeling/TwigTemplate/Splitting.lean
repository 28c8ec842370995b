/-!
# Splitting lists

A list is cut at the items that separate its groups.
-/

namespace TwigTemplate

/-- The groups of items between separators, empty ones included; there is always at least one. -/
def groupsBetween {α : Type} (separates : α → Bool) (items : List α) : List (List α) :=
  items.foldr step [[]]
where
  /-- Put an item in front of the groups that follow it. -/
  step (item : α) (groups : List (List α)) : List (List α) :=
    if separates item then [] :: groups else groups.modifyHead (item :: ·)

theorem groupsBetween_cons {α : Type} (separates : α → Bool) (item : α) (items : List α) :
    groupsBetween separates (item :: items) =
      if separates item then [] :: groupsBetween separates items
      else (groupsBetween separates items).modifyHead (item :: ·) := rfl

theorem groupsBetween_ne_nil {α : Type} (separates : α → Bool) (items : List α) :
    groupsBetween separates items ≠ [] := by
  induction items with
  | nil => exact List.cons_ne_nil _ _
  | cons item items ih =>
    rw [groupsBetween_cons]
    split
    · exact List.cons_ne_nil _ _
    · intro empty
      exact ih (List.modifyHead_eq_nil_iff.mp empty)

/-- Items without a separator are a single group. -/
theorem groupsBetween_of_forall {α : Type} {separates : α → Bool} {items : List α}
    (whole : ∀ item ∈ items, separates item = false) :
    groupsBetween separates items = [items] := by
  induction items with
  | nil => rfl
  | cons item items ih =>
    rw [groupsBetween_cons, whole item List.mem_cons_self,
      ih fun other member => whole other (List.mem_cons_of_mem item member)]
    rfl

/-- A separator has groups before it and groups after it. -/
theorem groupsBetween_append {α : Type} {separates : α → Bool} {separator : α}
    (ends : separates separator = true) (before after : List α) :
    groupsBetween separates (before ++ separator :: after) =
      groupsBetween separates before ++ groupsBetween separates after := by
  induction before with
  | nil =>
    rw [List.nil_append, groupsBetween_cons, if_pos ends]
    rfl
  | cons item before ih =>
    rw [List.cons_append, groupsBetween_cons, groupsBetween_cons, ih]
    cases grouped : groupsBetween separates before with
    | nil => exact absurd grouped (groupsBetween_ne_nil separates before)
    | cons group groups => split <;> rfl

/-- The lines of a text.  A line feed ends a line, together with a carriage return before it, and
there is no line after the last line feed when nothing follows. -/
def linesOf (text : String) : List String :=
  let groups := groupsBetween (· == '\n') text.toList
  let ended := groups.dropLast.map fun line =>
    if line.getLast? == some '\r' then line.dropLast else line
  let last := (groups.getLast?.toList).filter (!·.isEmpty)
  (ended ++ last).map String.ofList

end TwigTemplate
