import TwigTemplate.Proofs.Tag.Spaced
import TwigTemplate.Proofs.Word.Text

/-!
# The texts of names and expressions

The names and the expressions of a tag are copied out of its body: each is a part of the text in
that body, and it is read as it is written there.
-/

namespace TwigTemplate

namespace Excerpt

/-- The excerpt is a part of the text, in the range and not empty, and it is read as it is
written. -/
structure CopiedFrom (source : Source) (range : Span) (excerpt : Excerpt) : Prop where
  /-- It begins and ends between characters of the text. -/
  part : source.HasPart excerpt.span
  /-- It is not empty. -/
  filled : excerpt.span.start < excerpt.span.stop
  /-- It begins in the range. -/
  start_le : range.start ≤ excerpt.span.start
  /-- It ends in the range. -/
  stop_le : excerpt.span.stop ≤ range.stop
  /-- It is read as it is written. -/
  copied : excerpt.text.toUTF8.data.toList = source.slice excerpt.span

/-- The excerpt consists of ASCII letters and digits, underscores and characters beyond ASCII, and
does not start with a digit. -/
structure IsName (excerpt : Excerpt) : Prop where
  /-- Its characters may stand in a name. -/
  characters : ∀ character ∈ excerpt.text.toList,
    character.isAlphanum = true ∨ character = '_' ∨ 0x80 ≤ character.toNat
  /-- Its first character is no digit. -/
  first : ∀ character ∈ excerpt.text.toList.head?, character.isDigit = false

/-- The excerpt covers some of the words. -/
def Covers (source : Source) (words : List Word) (excerpt : Excerpt) : Prop :=
  ∃ part, part.Sublist words ∧ covering? source part = some excerpt

/-- A text is a name if its bytes spell one. -/
theorem isName_of_spellsName {excerpt : Excerpt}
    (spells : Word.SpellsName excerpt.text.toUTF8.data.toList) : excerpt.IsName := by
  have allowed : ∀ value : Fin 128, Byte.continuesName (Byte.ofChar (Char.ofNat value.val)) = true →
      (Char.ofNat value.val).isAlphanum = true ∨ Char.ofNat value.val = '_' := by decide +kernel
  have no_digit : ∀ value : Fin 128, Byte.startsName (Byte.ofChar (Char.ofNat value.val)) = true →
      (Char.ofNat value.val).isDigit = false := by decide +kernel
  obtain ⟨byte, others, bytes, starts, continues⟩ := spells
  rw [Source.toList_toUTF8] at bytes
  have continues_all : ∀ other ∈ byte :: others, Byte.continuesName other = true :=
    List.forall_mem_cons.mpr ⟨by rw [Byte.continuesName, starts, Bool.true_or], continues⟩
  constructor
  · intro character member
    rcases Nat.lt_or_ge character.toNat 128 with small | large
    · have listed : Byte.ofChar character ∈ byte :: others := by
        rw [← bytes]
        refine List.mem_flatMap.mpr ⟨character, member, ?_⟩
        rw [Byte.utf8EncodeChar_of_lt small]
        exact List.mem_singleton_self _
      have known := allowed ⟨character.toNat, small⟩
      rw [Char.ofNat_toNat] at known
      exact (known (continues_all _ listed)).imp_right .inl
    · exact .inr (.inr large)
  · intro character first
    rcases Nat.lt_or_ge character.toNat 128 with small | large
    · obtain ⟨rest, split⟩ := List.head?_eq_some_iff.mp first
      rw [split, List.flatMap_cons, Byte.utf8EncodeChar_of_lt small] at bytes
      obtain ⟨rfl, -⟩ := List.cons.inj bytes
      have known := no_digit ⟨character.toNat, small⟩
      rw [Char.ofNat_toNat] at known
      exact known starts
    · have beyond : ¬ character.val ≤ '9'.val := by
        rw [UInt32.not_le, UInt32.lt_iff_toNat_lt]
        exact Nat.lt_of_lt_of_le (by decide) large
      rw [Char.isDigit, decide_eq_false beyond, Bool.and_false]

/-- What words cover goes from the first to the last of them. -/
theorem exists_of_covering? {source : Source} {words : List Word} {excerpt : Excerpt}
    (covering : covering? source words = some excerpt) :
    ∃ first ∈ words.head?, ∃ last ∈ words.getLast?,
      excerpt = ⟨source.read ⟨first.span.start, last.span.stop⟩,
        ⟨first.span.start, last.span.stop⟩⟩ := by
  rw [covering?] at covering
  split at covering
  · rename_i first last begins ends
    exact ⟨first, begins, last, ends, (Option.some.inj covering).symm⟩
  · cases covering

theorem covers_of_sublist {source : Source} {words part : List Word}
    (sublist : part.Sublist words) :
    ∀ excerpt ∈ (covering? source part).toList, excerpt.Covers source words :=
  fun _ member => ⟨part, sublist, Option.mem_toList.mp member⟩

end Excerpt

namespace Leaf

/-- The names in a leaf. -/
def names : Leaf → List Excerpt
  | library _ name => name.toList
  | selection _ names => names.flatMap fun imported => imported.name :: imported.renamed.toList
  | blockValue name _ => name.toList
  | assignment targets _ => targets
  | _ => []

/-- The expressions in a leaf. -/
def expressions : Leaf → List Excerpt
  | output => []
  | parent template => template.toList
  | inclusion template => template.toList
  | reuse template => template.toList
  | library template _ => template.toList
  | selection template _ => template.toList
  | blockValue _ value => [value]
  | assignment _ value => value.toList

end Leaf

namespace Construct

/-- The names in the header of a construct. -/
def names : Construct → List Excerpt
  | conditional _ => []
  | loop names _ _ => names
  | block name => name.toList
  | definition name parameters => name.toList ++ parameters.map (·.name)
  | capture targets => targets
  | simple _ _ => []

/-- The expressions in the header of a construct. -/
def expressions : Construct → List Excerpt
  | conditional condition => condition.toList
  | loop _ iterable condition => iterable.toList ++ condition.toList
  | block _ => []
  | definition _ parameters => parameters.filterMap (·.default)
  | capture _ => []
  | simple _ arguments => arguments.toList

end Construct

namespace Tag

/-- The names in a tag, and the keyword of a tag without a meaning. -/
def names : Tag → List Excerpt
  | opening header => header.names
  | single leaf => leaf.names
  | unknown keyword => [keyword]
  | _ => []

/-- The expressions in a tag. -/
def expressions : Tag → List Excerpt
  | opening header => header.expressions
  | branch (.elseIf condition) => condition.toList
  | single leaf => leaf.expressions
  | _ => []

/-- The names in the tag are among the words, and its expressions cover some of them. -/
structure DrawnFrom (source : Source) (words : List Word) (tag : Tag) : Prop where
  /-- The names are words. -/
  names : tag.names ⊆ Word.names words
  /-- The expressions cover words. -/
  expressions : ∀ expression ∈ tag.expressions, expression.Covers source words

section Drawn

variable {source : Source} {words part : List Word}

theorem names_subset (sublist : part.Sublist words) : Word.names part ⊆ Word.names words :=
  (sublist.filterMap _).subset

theorem DrawnFrom.mono {tag : Tag} (drawn : tag.DrawnFrom source part)
    (sublist : part.Sublist words) : tag.DrawnFrom source words := by
  refine ⟨List.Subset.trans drawn.names (names_subset sublist), ?_⟩
  intro expression member
  obtain ⟨inner, among, covering⟩ := drawn.expressions expression member
  exact ⟨inner, among.trans sublist, covering⟩

theorem topNames_subset (sublist : part.Sublist words) : topNames part ⊆ Word.names words :=
  List.Subset.trans (topNames_sublist part).subset (names_subset sublist)

theorem headName_subset (sublist : part.Sublist words) :
    (part.head?.bind Excerpt.ofName?).toList ⊆ Word.names words :=
  List.Subset.trans (Excerpt.headName_sublist part).subset (names_subset sublist)

/-- The words before and after a cut are some of the words. -/
theorem sublist_of_cut? {property : Word → Bool} {before after : List Word}
    (cut : Word.cut? property words = some (before, after)) :
    before.Sublist words ∧ after.Sublist words := by
  obtain ⟨middle, rfl⟩ := Word.exists_of_cut? cut
  exact ⟨List.sublist_append_left _ _,
    (List.sublist_cons_self middle after).trans (List.sublist_append_right _ _)⟩

theorem drawnFrom_loop : DrawnFrom source words (.opening (loop source words)) := by
  rw [loop]
  split
  · exact ⟨topNames_subset (List.Sublist.refl _), List.forall_mem_nil _⟩
  · rename_i cut
    obtain ⟨before, behind⟩ := sublist_of_cut? cut
    split
    · refine ⟨topNames_subset before, ?_⟩
      rw [expressions, Construct.expressions, Option.toList_none, List.append_nil]
      exact Excerpt.covers_of_sublist behind
    · rename_i inner
      obtain ⟨iterable, condition⟩ := sublist_of_cut? inner
      exact ⟨topNames_subset before, List.forall_mem_append.mpr
        ⟨Excerpt.covers_of_sublist (iterable.trans behind),
          Excerpt.covers_of_sublist (condition.trans behind)⟩⟩

theorem drawnFrom_block : DrawnFrom source words (block source words) := by
  have named : (words.head?.bind Excerpt.ofName?).toList ⊆ Word.names words :=
    headName_subset (List.Sublist.refl _)
  rw [block]
  split
  · rename_i value covering
    refine ⟨named, List.forall_mem_singleton.mpr ?_⟩
    exact ⟨_, List.drop_sublist 1 words, covering⟩
  · exact ⟨named, List.forall_mem_nil _⟩

theorem drawnFrom_assignment : DrawnFrom source words (assignment source words) := by
  rw [assignment]
  split
  · exact ⟨topNames_subset (List.Sublist.refl _), List.forall_mem_nil _⟩
  · rename_i cut
    obtain ⟨before, behind⟩ := sublist_of_cut? cut
    exact ⟨topNames_subset before, Excerpt.covers_of_sublist behind⟩

theorem drawnFrom_library : DrawnFrom source words (.single (library source words)) := by
  rw [library]
  split
  · exact ⟨List.nil_subset _, Excerpt.covers_of_sublist (List.Sublist.refl _)⟩
  · rename_i cut
    obtain ⟨before, behind⟩ := sublist_of_cut? cut
    exact ⟨headName_subset behind, Excerpt.covers_of_sublist before⟩

/-- The words of a group are some of the words. -/
theorem sublist_of_mem_betweenCommas {depth : Nat} {group : List Word}
    (member : group ∈ Word.betweenCommas depth words) : group.Sublist words :=
  (List.sublist_flatten_of_mem member).trans (flatten_groupsBetween_sublist _ words)

theorem names_of_importedName? {imported : ImportedName}
    (read : importedName? part = some imported) :
    imported.name :: imported.renamed.toList ⊆ Word.names part := by
  cases part with
  | nil => cases read
  | cons first rest =>
      obtain ⟨name, named, rfl⟩ := Option.map_eq_some_iff.mp read
      rw [Word.names, List.filterMap_cons, named]
      rcases rest with _ | ⟨link, _ | ⟨renamed, others⟩⟩
      · exact List.cons_subset_cons name (List.nil_subset _)
      · exact List.cons_subset_cons name (List.nil_subset _)
      · refine List.cons_subset_cons name ?_
        dsimp only
        by_cases linked : link.isName "as" = true
        · intro other member
          rw [if_pos linked, Option.mem_toList] at member
          exact List.mem_filterMap.mpr ⟨renamed, by simp, member⟩
        · rw [if_neg linked]
          exact List.nil_subset _

theorem drawnFrom_selection : DrawnFrom source words (.single (selection source words)) := by
  rw [selection]
  split
  · exact ⟨List.nil_subset _, Excerpt.covers_of_sublist (List.Sublist.refl _)⟩
  · rename_i cut
    obtain ⟨before, behind⟩ := sublist_of_cut? cut
    refine ⟨?_, Excerpt.covers_of_sublist before⟩
    intro name member
    obtain ⟨imported, listed, among⟩ := List.mem_flatMap.mp member
    obtain ⟨group, grouped, read⟩ := List.mem_filterMap.mp listed
    exact names_subset ((sublist_of_mem_betweenCommas grouped).trans behind)
      (names_of_importedName? read among)

theorem default_of_parameter? {parameter : Parameter}
    (read : parameter? source part = some parameter) :
    ∀ value ∈ parameter.default, value.Covers source part := by
  cases part with
  | nil => cases read
  | cons first rest =>
      obtain ⟨name, named, rfl⟩ := Option.map_eq_some_iff.mp read
      intro value given
      dsimp only at given
      split at given
      · exact ⟨rest.drop 1, (List.drop_sublist 1 rest).cons first, given⟩
      · cases given

theorem drawnFrom_definition : DrawnFrom source words (.opening (definition source words)) := by
  have named : (words.head?.bind Excerpt.ofName?).toList ⊆ Word.names words :=
    headName_subset (List.Sublist.refl _)
  have bare : DrawnFrom source words
      (.opening (.definition (words.head?.bind Excerpt.ofName?) [])) := by
    refine ⟨?_, List.forall_mem_nil _⟩
    rw [names, Construct.names, List.map_nil, List.append_nil]
    exact named
  rw [definition]
  split
  · exact bare
  · rename_i bracket rest dropped
    split
    · have behind : rest.Sublist words :=
        (List.sublist_cons_self bracket rest).trans (dropped ▸ List.drop_sublist 1 words)
      have inside {group : List Word} (grouped : group ∈ Word.betweenCommas 1
          (rest.takeWhile fun word => !(word.isTop && word.isMark ")"))) : group.Sublist words :=
        (sublist_of_mem_betweenCommas grouped).trans ((List.takeWhile_sublist _).trans behind)
      constructor
      · refine List.append_subset.mpr ⟨named, ?_⟩
        intro name member
        obtain ⟨parameter, listed, rfl⟩ := List.mem_map.mp member
        obtain ⟨group, grouped, read⟩ := List.mem_filterMap.mp listed
        exact names_subset (inside grouped)
          ((name_of_parameter? read).subset List.mem_cons_self)
      · intro value member
        obtain ⟨parameter, listed, given⟩ := List.mem_filterMap.mp member
        obtain ⟨group, grouped, read⟩ := List.mem_filterMap.mp listed
        obtain ⟨inner, among, covering⟩ := default_of_parameter? read value given
        exact ⟨inner, among.trans (inside grouped), covering⟩
    · exact bare

/-- A tag without names and expressions. -/
theorem drawnFrom_of_nil {tag : Tag} (no_names : tag.names = [])
    (no_expressions : tag.expressions = []) : tag.DrawnFrom source words :=
  ⟨by simp [no_names], by simp [no_expressions]⟩

/-- What a tag means is drawn from its words. -/
theorem drawnFrom_ofKeyword (options : Options) {first : Word} {keyword : Excerpt}
    (named : Excerpt.ofName? first = some keyword) :
    (ofKeyword options source keyword words).DrawnFrom source (first :: words) := by
  have known : ∀ {tag : Tag}, tag.DrawnFrom source words → tag.DrawnFrom source (first :: words) :=
    fun drawn => drawn.mono (List.sublist_cons_self first words)
  have covering : ∀ excerpt ∈ (Excerpt.covering? source words).toList,
      excerpt.Covers source words := Excerpt.covers_of_sublist (List.Sublist.refl words)
  rw [ofKeyword]
  split
  · exact known ⟨List.nil_subset _, covering⟩
  · exact known ⟨List.nil_subset _, covering⟩
  · exact drawnFrom_of_nil rfl rfl
  · exact known drawnFrom_loop
  · exact known drawnFrom_block
  · exact known drawnFrom_definition
  · exact known drawnFrom_assignment
  · exact known drawnFrom_library
  · exact known drawnFrom_selection
  · exact known ⟨List.nil_subset _, covering⟩
  · exact known ⟨List.nil_subset _, Excerpt.covers_of_sublist (beforeNames_sublist _ words)⟩
  · exact known ⟨List.nil_subset _, Excerpt.covers_of_sublist (beforeNames_sublist _ words)⟩
  · split
    · exact known ⟨List.nil_subset _, covering⟩
    split
    · exact drawnFrom_of_nil rfl rfl
    split
    · exact drawnFrom_of_nil rfl rfl
    · refine ⟨?_, List.forall_mem_nil _⟩
      rw [names, Word.names, List.filterMap_cons, named]
      exact List.cons_subset_cons _ (List.nil_subset _)

end Drawn

section Copied

variable {source : Source} {body : Span} (part : source.HasPart body)
include part

/-- The names of a body are copied out of it. -/
theorem copiedFrom_of_mem_names {name : Excerpt}
    (member : name ∈ Word.names (Word.split source body)) :
    name.CopiedFrom source body ∧ name.IsName := by
  obtain ⟨word, among, named⟩ := List.mem_filterMap.mp member
  obtain ⟨kind, rfl⟩ := Excerpt.ofName?_eq_some_iff.mp named
  have stands := Word.standsIn_of_mem_split part among
  have bounds := Word.bounds_of_mem_split part.ordered among
  refine ⟨⟨stands.part, bounds.2.1, bounds.1, bounds.2.2, stands.copied⟩, ?_⟩
  apply Excerpt.isName_of_spellsName
  rw [Excerpt.ofWord, stands.copied]
  exact stands.spells kind

/-- What covers words of a body is copied out of it. -/
theorem copiedFrom_of_covers {excerpt : Excerpt}
    (covers : excerpt.Covers source (Word.split source body)) : excerpt.CopiedFrom source body := by
  obtain ⟨words, sublist, covering⟩ := covers
  have ascend := (Word.ascend_split source part.ordered).sublist sublist
  obtain ⟨above, filled, final, among, stop_eq⟩ := ascend.bounds_of_covering? covering
  have below := (ascend.inside final among).2.2
  have stands : ∀ word ∈ words, word.StandsIn source := fun word member =>
    Word.standsIn_of_mem_split part (sublist.subset member)
  obtain ⟨first, begins, last, ends, rfl⟩ := Excerpt.exists_of_covering? covering
  have covered : source.HasPart ⟨first.span.start, last.span.stop⟩ :=
    .of_isBoundary (Nat.le_of_lt filled) (stands first (List.mem_of_head? begins)).part.starts
      (stands last (List.mem_of_getLast? ends)).part.stops
  exact ⟨covered, filled, above, by rwa [stop_eq], covered.toUTF8_read filled⟩

end Copied

end Tag
end TwigTemplate
