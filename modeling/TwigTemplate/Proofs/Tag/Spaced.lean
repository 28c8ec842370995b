import TwigTemplate.Proofs.Tag.Relocation
import TwigTemplate.Proofs.Word.Order
import TwigTemplate.Symbol

/-!
# What a tag declares

The names that a tag declares, and the templates to which it refers, come in the order of their
places.  They lie in the body of the tag, and something stands between each of them and the next.
-/

namespace TwigTemplate

/-- The spans lie in a range one after the other, none is empty, and no two of them touch. -/
structure Spaced (range : Span) (spans : List Span) : Prop where
  /-- Each lies in the range and is not empty. -/
  inside : ∀ span ∈ spans,
    range.start ≤ span.start ∧ span.start < span.stop ∧ span.stop ≤ range.stop
  /-- Each ends before the next one begins, and not right before it. -/
  apart : spans.Pairwise fun earlier later => earlier.stop < later.start

namespace Spaced

variable {range : Span} {spans part : List Span}

theorem nil (range : Span) : Spaced range [] := ⟨by simp, List.Pairwise.nil⟩

theorem sublist (spaced : Spaced range spans) (sublist : part.Sublist spans) : Spaced range part :=
  ⟨fun span member => spaced.inside span (sublist.subset member), spaced.apart.sublist sublist⟩

end Spaced

namespace Word

/-- The words lie in a range and come one after the other. -/
structure Ascend (range : Span) (words : List Word) : Prop where
  /-- Each lies in the range and is not empty. -/
  inside : ∀ word ∈ words,
    range.start ≤ word.span.start ∧ word.span.start < word.span.stop ∧ word.span.stop ≤ range.stop
  /-- Each comes before the next. -/
  ordered : words.Pairwise Before

theorem ascend_split (source : Source) {body : Span} (ordered : body.start ≤ body.stop) :
    Ascend body (split source body) :=
  ⟨fun _ member => bounds_of_mem_split ordered member, pairwise_split source body⟩

theorem Ascend.sublist {range : Span} {words part : List Word} (ascend : Ascend range words)
    (sublist : part.Sublist words) : Ascend range part :=
  ⟨fun word member => ascend.inside word (sublist.subset member), ascend.ordered.sublist sublist⟩

/-- The names among the words. -/
def names (words : List Word) : List Excerpt := words.filterMap Excerpt.ofName?

end Word

namespace Excerpt

theorem ofName?_eq_some_iff {word : Word} {name : Excerpt} :
    ofName? word = some name ↔ word.kind = .name ∧ ofWord word = name := by
  rw [ofName?]
  split <;> simp [*]

theorem headName_sublist (words : List Word) :
    (words.head?.bind ofName?).toList.Sublist (Word.names words) := by
  cases words with
  | nil => exact List.Sublist.refl _
  | cons first rest =>
      rw [List.head?_cons, Option.bind_some, Word.names, List.filterMap_cons]
      cases ofName? first with
      | none => exact List.nil_sublist _
      | some name => exact (List.nil_sublist _).cons_cons name

end Excerpt

namespace Word.Ascend

variable {range : Span} {words before after : List Word} {middle : Word} {source : Source}

/-- The names among words do not touch. -/
theorem spaced_names (ascend : Ascend range words) :
    Spaced range ((names words).map Excerpt.span) := by
  constructor
  · intro span member
    obtain ⟨name, listed, rfl⟩ := List.mem_map.mp member
    obtain ⟨word, among, named⟩ := List.mem_filterMap.mp listed
    obtain ⟨_, rfl⟩ := Excerpt.ofName?_eq_some_iff.mp named
    exact ascend.inside word among
  · rw [List.pairwise_map]
    refine ascend.ordered.filterMap _ ?_
    intro earlier later before left left_named right right_named
    obtain ⟨left_name, rfl⟩ := Excerpt.ofName?_eq_some_iff.mp left_named
    obtain ⟨right_name, rfl⟩ := Excerpt.ofName?_eq_some_iff.mp right_named
    exact before.apart left_name right_name

/-- What words cover lies between the first and the last of them. -/
theorem bounds_of_covering? (ascend : Ascend range words) {excerpt : Excerpt}
    (covering : Excerpt.covering? source words = some excerpt) :
    range.start ≤ excerpt.span.start ∧ excerpt.span.start < excerpt.span.stop ∧
      ∃ last ∈ words, excerpt.span.stop = last.span.stop := by
  rw [Excerpt.covering?] at covering
  split at covering
  · rename_i first last begins ends
    obtain rfl := Option.some.inj covering
    have first_member := List.mem_of_head? begins
    have last_member := List.mem_of_getLast? ends
    have first_bounds := ascend.inside first first_member
    have last_bounds := ascend.inside last last_member
    refine ⟨first_bounds.1, ?_, last, last_member, rfl⟩
    obtain ⟨rest, rfl⟩ := List.head?_eq_some_iff.mp begins
    rcases List.mem_cons.mp last_member with rfl | later
    · exact last_bounds.2.1
    · have ordered := ((List.pairwise_cons.mp ascend.ordered).1 last later).stop_le
      dsimp only
      omega
  · cases covering

/-- What words cover does not touch the names after the next word. -/
theorem spaced_covering_append (ascend : Ascend range (before ++ middle :: after)) :
    Spaced range (((Excerpt.covering? source before).toList ++ names after).map Excerpt.span) := by
  have first := ascend.sublist (List.sublist_append_left _ _)
  have further := ascend.sublist
    ((List.sublist_cons_self middle after).trans (List.sublist_append_right before _))
  have separate := (List.pairwise_append.mp ascend.ordered).2
  have bounds_middle := ascend.inside middle (by simp)
  have names_spaced := further.spaced_names
  cases covering : Excerpt.covering? source before with
  | none => simpa using names_spaced
  | some excerpt =>
      obtain ⟨above, filled, last, last_member, stop⟩ := first.bounds_of_covering? covering
      have last_before := (separate.2 last last_member middle List.mem_cons_self).stop_le
      rw [Option.toList_some, List.singleton_append, List.map_cons]
      refine ⟨List.forall_mem_cons.mpr ⟨⟨above, filled, by omega⟩, names_spaced.inside⟩,
        List.pairwise_cons.mpr ⟨?_, names_spaced.apart⟩⟩
      intro span member
      obtain ⟨name, listed, rfl⟩ := List.mem_map.mp member
      obtain ⟨word, among, named⟩ := List.mem_filterMap.mp listed
      obtain ⟨_, rfl⟩ := Excerpt.ofName?_eq_some_iff.mp named
      have middle_before := ((List.pairwise_cons.mp separate.1).1 word among).stop_le
      change excerpt.span.stop < word.span.start
      omega

/-- What words cover is a place of its own. -/
theorem spaced_covering (ascend : Ascend range words) :
    Spaced range ((Excerpt.covering? source words).toList.map Excerpt.span) := by
  cases covering : Excerpt.covering? source words with
  | none => exact Spaced.nil range
  | some excerpt =>
      obtain ⟨above, filled, last, last_member, stop⟩ := ascend.bounds_of_covering? covering
      have last_bounds := ascend.inside last last_member
      exact ⟨by simp; omega, List.pairwise_singleton _ _⟩

end Word.Ascend

namespace Tag

section Names

variable {source : Source}

theorem topNames_sublist (words : List Word) : (topNames words).Sublist (Word.names words) :=
  List.filter_sublist.filterMap _

theorem beforeNames_sublist (limits : List String) (words : List Word) :
    (beforeNames limits words).Sublist words := by
  cases words with
  | nil => exact List.Sublist.refl _
  | cons first rest => exact (List.takeWhile_sublist _).cons_cons first

/-- What is read of each group of words names words of the group, so all of them are in order. -/
theorem sublist_names_of_groups {α : Type} {view : List Word → Option α} {name : α → Excerpt}
    (named : ∀ group item, view group = some item → [name item].Sublist (Word.names group))
    (depth : Nat) (words : List Word) :
    (((Word.betweenCommas depth words).filterMap view).map name).Sublist (Word.names words) := by
  have grouped : ∀ groups : List (List Word),
      ((groups.filterMap view).map name).Sublist (Word.names groups.flatten) := by
    intro groups
    induction groups with
    | nil => exact List.Sublist.refl _
    | cons group groups ih =>
        rw [List.flatten_cons, Word.names, List.filterMap_append, List.filterMap_cons]
        cases viewed : view group with
        | none => exact ih.trans (List.sublist_append_right _ _)
        | some item => exact (named group item viewed).append ih
  exact (grouped _).trans ((flatten_groupsBetween_sublist _ words).filterMap _)

theorem name_of_parameter? {group : List Word} {parameter : Parameter}
    (read : parameter? source group = some parameter) :
    [parameter.name].Sublist (Word.names group) := by
  cases group with
  | nil => cases read
  | cons first rest =>
      obtain ⟨name, named, rfl⟩ := Option.map_eq_some_iff.mp read
      rw [Word.names, List.filterMap_cons, named]
      exact (List.nil_sublist _).cons_cons name

theorem bound_of_importedName? {group : List Word} {imported : ImportedName}
    (read : importedName? group = some imported) :
    [imported.bound].Sublist (Word.names group) := by
  cases group with
  | nil => cases read
  | cons first rest =>
      obtain ⟨name, named, rfl⟩ := Option.map_eq_some_iff.mp read
      rw [Word.names, List.filterMap_cons, named, List.singleton_sublist]
      match rest with
      | [] => exact List.mem_cons_self
      | [_] => exact List.mem_cons_self
      | link :: renamed :: others =>
        by_cases linked : link.isName "as" = true
        · cases new : Excerpt.ofName? renamed with
          | none => simp [ImportedName.bound, linked, new]
          | some other => simp [ImportedName.bound, linked, new]
        · simp [ImportedName.bound, linked]

end Names

/-! ### The texts of symbols -/

/-- The texts for the symbols of a construct. -/
def constructExcerpts : Construct → List Excerpt
  | .conditional _ => []
  | .loop names _ _ => names
  | .block name => name.toList
  | .definition name parameters => name.toList ++ parameters.map (·.name)
  | .capture targets => targets
  | .simple _ _ => []

/-- The texts for the symbols of a leaf. -/
def leafExcerpts : Leaf → List Excerpt
  | .output => []
  | .parent template => template.toList
  | .inclusion template => template.toList
  | .reuse template => template.toList
  | .library template name => template.toList ++ name.toList
  | .selection template names => template.toList ++ names.map (·.bound)
  | .blockValue name _ => name.toList
  | .assignment targets _ => targets

/-- The texts for the symbols of a tag. -/
def excerpts : Tag → List Excerpt
  | opening header => constructExcerpts header
  | single leaf => leafExcerpts leaf
  | _ => []

/-- The symbols of a tag that is the piece with this index. -/
def symbols (piece : Nat) : Tag → List Symbol
  | opening header => Symbol.ofConstruct piece header
  | single leaf => Symbol.ofLeaf piece leaf
  | _ => []

/-- Symbols lie where their texts lie. -/
theorem map_span_symbols (piece : Nat) (tag : Tag) :
    (symbols piece tag).map Symbol.span = (excerpts tag).map Excerpt.span := by
  cases tag with
  | opening header =>
      cases header <;>
        simp [symbols, excerpts, constructExcerpts, Symbol.ofConstruct, Symbol.ofName,
          Function.comp_def]
  | single leaf =>
      cases leaf <;>
        simp [symbols, excerpts, leafExcerpts, Symbol.ofLeaf, Symbol.ofName, Symbol.ofTemplate,
          Function.comp_def]
  | _ => rfl

section Spaced

variable {range : Span} {words : List Word} {source : Source}

/-- The texts for the symbols of the tag lie in the range and do not touch. -/
def SpacedIn (range : Span) (tag : Tag) : Prop := Spaced range ((excerpts tag).map Excerpt.span)

theorem spaced_of_sublist {names : List Excerpt} (ascend : Word.Ascend range words)
    (sublist : names.Sublist (Word.names words)) : Spaced range (names.map Excerpt.span) :=
  ascend.spaced_names.sublist (sublist.map _)

theorem spacedIn_loop (ascend : Word.Ascend range words) :
    SpacedIn range (.opening (loop source words)) := by
  rw [loop]
  split
  · exact spaced_of_sublist ascend (topNames_sublist words)
  · rename_i cut
    obtain ⟨middle, rfl⟩ := Word.exists_of_cut? cut
    have spaced := spaced_of_sublist (ascend.sublist (List.sublist_append_left _ _))
      (topNames_sublist _)
    split <;> exact spaced

theorem spacedIn_block (ascend : Word.Ascend range words) :
    SpacedIn range (block source words) := by
  rw [block]
  split <;> exact spaced_of_sublist ascend (Excerpt.headName_sublist words)

theorem spacedIn_definition (ascend : Word.Ascend range words) :
    SpacedIn range (.opening (definition source words)) := by
  have named : Spaced range (((words.head?.bind Excerpt.ofName?).toList ++ []).map Excerpt.span) :=
    spaced_of_sublist ascend (by simpa using Excerpt.headName_sublist words)
  rw [definition]
  split
  · exact named
  · rename_i bracket rest dropped
    split
    · obtain ⟨first, rfl⟩ : ∃ first, words = first :: bracket :: rest := by
        cases words with
        | nil => cases dropped
        | cons first others => exact ⟨first, congrArg (first :: ·) dropped⟩
      let inner := rest.takeWhile fun word => !(word.isTop && word.isMark ")")
      have inside : inner.Sublist (bracket :: rest) :=
        (List.takeWhile_sublist _).trans (List.sublist_cons_self bracket rest)
      have parameters : (((Word.betweenCommas 1 inner).filterMap (parameter? source)).map
          (·.name)).Sublist (Word.names inner) :=
        sublist_names_of_groups (fun _ _ => name_of_parameter?) 1 inner
      refine spaced_of_sublist ascend ?_
      rw [← List.singleton_append, Word.names, List.filterMap_append]
      exact (Excerpt.headName_sublist [first]).append (parameters.trans (inside.filterMap _))
    · exact named

theorem spacedIn_assignment (ascend : Word.Ascend range words) :
    SpacedIn range (assignment source words) := by
  rw [assignment]
  split
  · exact spaced_of_sublist ascend (topNames_sublist words)
  · rename_i cut
    obtain ⟨middle, rfl⟩ := Word.exists_of_cut? cut
    exact spaced_of_sublist (ascend.sublist (List.sublist_append_left _ _)) (topNames_sublist _)

theorem spacedIn_library (ascend : Word.Ascend range words) :
    SpacedIn range (.single (library source words)) := by
  rw [library]
  split
  · simpa [SpacedIn, excerpts, leafExcerpts] using ascend.spaced_covering
  · rename_i cut
    obtain ⟨middle, rfl⟩ := Word.exists_of_cut? cut
    exact ascend.spaced_covering_append.sublist
      (((List.Sublist.refl _).append (Excerpt.headName_sublist _)).map _)

theorem spacedIn_selection (ascend : Word.Ascend range words) :
    SpacedIn range (.single (selection source words)) := by
  rw [selection]
  split
  · simpa [SpacedIn, excerpts, leafExcerpts] using ascend.spaced_covering
  · rename_i cut
    obtain ⟨middle, rfl⟩ := Word.exists_of_cut? cut
    exact ascend.spaced_covering_append.sublist (((List.Sublist.refl _).append
      (sublist_names_of_groups (fun _ _ => bound_of_importedName?) 0 _)).map _)

theorem spacedIn_ofKeyword (options : Options) (keyword : Excerpt)
    (ascend : Word.Ascend range words) :
    SpacedIn range (ofKeyword options source keyword words) := by
  have nothing : Spaced range (([] : List Excerpt).map Excerpt.span) := Spaced.nil range
  rw [ofKeyword]
  split
  · exact nothing
  · exact nothing
  · exact nothing
  · exact spacedIn_loop ascend
  · exact spacedIn_block ascend
  · exact spacedIn_definition ascend
  · exact spacedIn_assignment ascend
  · exact spacedIn_library ascend
  · exact spacedIn_selection ascend
  · exact ascend.spaced_covering
  · exact (ascend.sublist (beforeNames_sublist _ words)).spaced_covering
  · exact (ascend.sublist (beforeNames_sublist _ words)).spaced_covering
  · repeat' split
    all_goals exact nothing

end Spaced

theorem sublist_ofWords (words : List Word) : (Header.ofWords words).words.Sublist words := by
  cases words with
  | nil => exact List.Sublist.refl _
  | cons first rest =>
      rw [Header.ofWords]
      split
      · exact List.sublist_cons_self first rest
      · exact List.Sublist.refl _

/-- The symbols of a tag lie in its body and do not touch. -/
theorem spaced_symbols (options : Options) (source : Source) {piece : Piece}
    (ordered : piece.body.start ≤ piece.body.stop) (index : Nat) :
    Spaced piece.body ((symbols index (ofPiece options source piece)).map Symbol.span) := by
  have nothing : Spaced piece.body (([] : List Excerpt).map Excerpt.span) := Spaced.nil _
  rw [map_span_symbols, ofPiece]
  split
  · exact nothing
  · exact nothing
  · exact nothing
  · rw [ofBody]
    split
    · exact spacedIn_ofKeyword options _
        ((Word.ascend_split source ordered).sublist (sublist_ofWords _))
    · exact nothing

end Tag
end TwigTemplate
