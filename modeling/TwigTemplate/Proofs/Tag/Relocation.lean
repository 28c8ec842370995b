import Mathlib.Data.List.Basic
import Mathlib.Data.List.TakeDrop
import TwigTemplate.Proofs.Relocation
import TwigTemplate.Proofs.Splitting

/-!
# What a tag means at another place

Words that are moved mean the same as before, with the new places of their texts, if the text
wherever some of them lie is moved with them.
-/

namespace TwigTemplate

namespace Word

/-- Words are cut at a single word, which is left out. -/
theorem exists_of_cut? {property : Word → Bool} {words before after : List Word}
    (cut : cut? property words = some (before, after)) :
    ∃ middle, words = before ++ middle :: after := by
  rw [cut?, List.span_eq_takeWhile_dropWhile] at cut
  split at cut
  · cases cut
  · rename_i middle rest split
    obtain ⟨rfl, rfl⟩ := Prod.mk.inj (Option.some.inj cut)
    obtain ⟨rfl, dropped⟩ := Prod.mk.inj split
    refine ⟨middle, ?_⟩
    rw [← dropped, List.takeWhile_append_dropWhile]

theorem subset_of_cut? {property : Word → Bool} {words before after : List Word}
    (cut : cut? property words = some (before, after)) : before ⊆ words ∧ after ⊆ words := by
  obtain ⟨middle, rfl⟩ := exists_of_cut? cut
  exact ⟨List.subset_append_left _ _,
    List.subset_append_of_subset_right _ (List.subset_cons_self _ _)⟩

variable (places : Relocation)

@[simp]
theorem isName_relocate (word : Word) (name : String) :
    (word.relocate places).isName name = word.isName name := rfl

/-- Words are cut where they were cut. -/
theorem cut?_map {property : Word → Bool}
    (kept : ∀ word : Word, property (word.relocate places) = property word) (words : List Word) :
    cut? property (words.map (·.relocate places)) =
      (cut? property words).map fun parts =>
        (parts.1.map (·.relocate places), parts.2.map (·.relocate places)) := by
  have same : (!property ·) ∘ (fun word : Word => word.relocate places) = (!property ·) :=
    funext fun word => congrArg (!·) (kept word)
  rw [cut?, cut?, List.span_eq_takeWhile_dropWhile, List.span_eq_takeWhile_dropWhile,
    List.takeWhile_map, List.dropWhile_map, same]
  cases words.dropWhile (!property ·) <;> rfl

theorem betweenCommas_map (depth : Nat) (words : List Word) :
    betweenCommas depth (words.map (·.relocate places)) =
      (betweenCommas depth words).map (List.map (·.relocate places)) :=
  groupsBetween_map _ words

end Word

theorem Excerpt.ofName?_relocate (places : Relocation) (word : Word) :
    ofName? (word.relocate places) = (ofName? word).map (·.relocate places) := by
  rw [ofName?, ofName?]
  change (if word.kind = .name then _ else _) = _
  split <;> rfl

namespace Tag

/-- The text wherever some of the words lie in the first source is moved to the second one with
them. -/
def Carried (places : Relocation) (left right : Source) (words : List Word) : Prop :=
  ∀ part, part ⊆ words → Excerpt.covering? right (part.map (·.relocate places)) =
    (Excerpt.covering? left part).map (·.relocate places)

theorem beforeNames_subset (names : List String) (words : List Word) :
    beforeNames names words ⊆ words := by
  cases words with
  | nil => exact List.Subset.refl _
  | cons first rest => exact List.cons_subset_cons _ (List.takeWhile_prefix _).subset

section Names

variable (places : Relocation) (words : List Word)

theorem topNames_relocate :
    topNames (words.map (·.relocate places)) = (topNames words).map (·.relocate places) := by
  rw [topNames, topNames, List.filter_map, List.filterMap_map, List.map_filterMap]
  congr 1
  funext word
  exact Excerpt.ofName?_relocate places word

theorem beforeNames_relocate (names : List String) :
    beforeNames names (words.map (·.relocate places)) =
      (beforeNames names words).map (·.relocate places) := by
  cases words with
  | nil => rfl
  | cons first rest =>
      rw [List.map_cons, beforeNames, beforeNames, List.map_cons, List.takeWhile_map]
      rfl

theorem headName_relocate :
    (words.map (·.relocate places)).head?.bind Excerpt.ofName? =
      (words.head?.bind Excerpt.ofName?).map (·.relocate places) := by
  cases words with
  | nil => rfl
  | cons first rest => exact Excerpt.ofName?_relocate places first

theorem importedName?_relocate :
    importedName? (words.map (·.relocate places)) =
      (importedName? words).map (·.relocate places) := by
  match words with
  | [] => rfl
  | [first] =>
    simp only [List.map_cons, List.map_nil, importedName?, Excerpt.ofName?_relocate]
    cases Excerpt.ofName? first <;> rfl
  | [first, link] =>
    simp only [List.map_cons, List.map_nil, importedName?, Excerpt.ofName?_relocate]
    cases Excerpt.ofName? first <;> rfl
  | first :: link :: renamed :: rest =>
    simp only [List.map_cons, importedName?, Excerpt.ofName?_relocate, Word.isName_relocate]
    cases Excerpt.ofName? first with
    | none => rfl
    | some name =>
        simp only [Option.map_some, ImportedName.relocate]
        split <;> rfl

end Names

section Carried

variable {places : Relocation} {left right : Source} {words part : List Word}

theorem Carried.subset (carried : Carried places left right words) (among : part ⊆ words) :
    Carried places left right part :=
  fun _ inner => carried _ (List.Subset.trans inner among)

theorem Carried.whole (carried : Carried places left right words) :
    Excerpt.covering? right (words.map (·.relocate places)) =
      (Excerpt.covering? left words).map (·.relocate places) :=
  carried words (List.Subset.refl _)

variable (carried : Carried places left right words)
include carried

theorem loop_relocate :
    loop right (words.map (·.relocate places)) = (loop left words).relocate places := by
  rw [loop, loop, Word.cut?_map places fun _ => rfl]
  cases cut : Word.cut? (fun word => word.isTop && word.isName "in") words with
  | none =>
      simp only [Option.map_none, topNames_relocate]
      rfl
  | some parts =>
      have carried_rest := carried.subset (Word.subset_of_cut? cut).2
      simp only [Option.map_some, topNames_relocate]
      rw [Word.cut?_map places fun _ => rfl]
      cases cut_rest : Word.cut? (fun word => word.isTop && word.isName "if") parts.2 with
      | none =>
          simp only [Option.map_none, carried_rest.whole]
          rfl
      | some further =>
          have inner := Word.subset_of_cut? cut_rest
          simp only [Option.map_some, carried_rest _ inner.1, carried_rest _ inner.2]
          rfl

theorem block_relocate :
    block right (words.map (·.relocate places)) = (block left words).relocate places := by
  rw [block, block, headName_relocate, ← List.map_drop, carried _ (List.drop_subset 1 words)]
  cases Excerpt.covering? left (words.drop 1) <;> rfl

theorem parameter?_relocate :
    parameter? right (words.map (·.relocate places)) =
      (parameter? left words).map (·.relocate places) := by
  cases words with
  | nil => rfl
  | cons first rest =>
      have value := carried (rest.drop 1)
        (List.subset_cons_of_subset _ (List.drop_subset 1 rest))
      rw [List.map_drop] at value
      have assigned : (rest.map (·.relocate places)).head?.any (·.isMark "=") =
          rest.head?.any (·.isMark "=") := by cases rest <;> rfl
      rw [List.map_cons, parameter?, parameter?, Excerpt.ofName?_relocate]
      cases Excerpt.ofName? first with
      | none => rfl
      | some name =>
          simp only [Option.map_some, assigned, value, Parameter.relocate]
          split <;> rfl

theorem definition_relocate :
    definition right (words.map (·.relocate places)) =
      (definition left words).relocate places := by
  rw [definition, definition, headName_relocate, ← List.map_drop]
  cases dropped : words.drop 1 with
  | nil => rfl
  | cons bracket rest =>
      rw [List.map_cons]
      dsimp only
      by_cases opens : bracket.isMark "(" = true
      · have opens_moved : (bracket.relocate places).isMark "(" = true := opens
        rw [if_pos opens, if_pos opens_moved]
        simp only [Construct.relocate, List.takeWhile_map, Word.betweenCommas_map,
          List.filterMap_map, List.map_filterMap]
        congr 1
        apply List.filterMap_congr
        intro group member
        apply parameter?_relocate
        apply carried.subset
        intro word inside
        have taken := (List.takeWhile_prefix _).subset (subset_of_mem_groupsBetween member inside)
        exact List.drop_subset 1 words (dropped ▸ List.mem_cons_of_mem _ taken)
      · have other_moved : ¬ (bracket.relocate places).isMark "(" = true := opens
        rw [if_neg opens, if_neg other_moved]
        rfl

theorem assignment_relocate :
    assignment right (words.map (·.relocate places)) = (assignment left words).relocate places := by
  rw [assignment, assignment, Word.cut?_map places fun _ => rfl]
  cases cut : Word.cut? (fun word => word.isTop && word.isMark "=") words with
  | none =>
      simp only [Option.map_none, topNames_relocate]
      rfl
  | some parts =>
      simp only [Option.map_some, topNames_relocate, carried _ (Word.subset_of_cut? cut).2]
      rfl

theorem library_relocate :
    library right (words.map (·.relocate places)) = (library left words).relocate places := by
  rw [library, library, Word.cut?_map places fun _ => rfl]
  cases cut : Word.cut? (fun word => word.isTop && word.isName "as") words with
  | none =>
      simp only [Option.map_none, carried.whole]
      rfl
  | some parts =>
      simp only [Option.map_some, headName_relocate, carried _ (Word.subset_of_cut? cut).1]
      rfl

theorem selection_relocate :
    selection right (words.map (·.relocate places)) = (selection left words).relocate places := by
  rw [selection, selection, Word.cut?_map places fun _ => rfl]
  cases cut : Word.cut? (fun word => word.isTop && word.isName "import") words with
  | none =>
      simp only [Option.map_none, carried.whole]
      rfl
  | some parts =>
      simp only [Option.map_some, Word.betweenCommas_map, List.filterMap_map,
        carried _ (Word.subset_of_cut? cut).1, Leaf.relocate, List.map_filterMap]
      congr 2
      funext group
      exact importedName?_relocate places group

theorem ofKeyword_relocate (options : Options) (keyword : Excerpt) :
    ofKeyword options right (keyword.relocate places) (words.map (·.relocate places)) =
      (ofKeyword options left keyword words).relocate places := by
  simp only [ofKeyword, carried.whole, loop_relocate carried, block_relocate carried,
    definition_relocate carried, assignment_relocate carried, library_relocate carried,
    selection_relocate carried, beforeNames_relocate, carried _ (beforeNames_subset _ words)]
  have text_eq : (keyword.relocate places).text = keyword.text := rfl
  rw [text_eq]
  split
  case h_13 =>
    by_cases opens : options.opensBody keyword.text = true
    · rw [if_pos opens, if_pos opens]
      rfl
    rw [if_neg opens, if_neg opens]
    by_cases alone : options.standsAlone keyword.text = true
    · rw [if_pos alone, if_pos alone]
      rfl
    rw [if_neg alone, if_neg alone]
    split <;> rfl
  all_goals rfl

omit carried in
/-- A tag whose words are moved means the same as before. -/
theorem ofBody_relocate (options : Options) {body moved : Span}
    (same : Word.split right moved = (Word.split left body).map (·.relocate places))
    (carried : Carried places left right (Word.split left body)) :
    ofBody options right moved = (ofBody options left body).relocate places := by
  rw [ofBody, ofBody, Header.ofBody, Header.ofBody, same]
  cases words_eq : Word.split left body with
  | nil => rfl
  | cons first rest =>
      rw [words_eq] at carried
      rw [List.map_cons, Header.ofWords, Header.ofWords, Excerpt.ofName?_relocate]
      cases Excerpt.ofName? first with
      | none => rfl
      | some keyword =>
          exact ofKeyword_relocate (carried.subset (List.subset_cons_self _ _)) options keyword

end Carried

end Tag
end TwigTemplate
