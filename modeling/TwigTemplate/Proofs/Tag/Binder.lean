import TwigTemplate.Proofs.Tag.Written

/-!
# Tags that bind names

Macros are imported as a library or one by one, and variables are set to a value or to what a body
prints.  A tag in which such a binder is written is read with just its parts, since a plain
expression is cut neither at the separators inside of its brackets nor at those of its literals.
-/

namespace TwigTemplate

/-- A name that is imported, as it is written. -/
structure ImportText where
  /-- Name of the macro. -/
  name : String
  /-- Name to be used for it. -/
  renamed : Option String
  deriving DecidableEq, Repr

/-- The texts of an imported name. -/
def ImportedName.text (imported : ImportedName) : ImportText :=
  ⟨imported.name.text, imported.renamed.map (·.text)⟩

/-- What binds names in a tag. -/
inductive BinderText
  /-- A template whose macros are bound as a whole. -/
  | library (template name : String)
  /-- A template whose macros are bound one by one. -/
  | selection (template : String) (imports : List ImportText)
  /-- Variables that are set to a value. -/
  | assignment (targets : List String) (value : String)
  /-- Variables that are set to what a body prints. -/
  | capture (targets : List String)
  deriving DecidableEq, Repr

namespace ImportText

/-- The name in a list. -/
def written (imported : ImportText) : String :=
  match imported.renamed with
  | none => imported.name
  | some renamed => imported.name ++ " as " ++ renamed

/-- All names are spelled as names. -/
def WellFormed (imported : ImportText) : Prop :=
  Word.SpellsName imported.name.toUTF8.data.toList ∧
    ∀ renamed ∈ imported.renamed, Word.SpellsName renamed.toUTF8.data.toList

instance (imported : ImportText) : Decidable imported.WellFormed :=
  inferInstanceAs (Decidable (_ ∧ _))

end ImportText

namespace BinderText

/-- The content of a tag with the binder. -/
def written : BinderText → String
  | library template name => "import " ++ template ++ " as " ++ name
  | selection template imports =>
    "from " ++ template ++ " import " ++ ", ".intercalate (imports.map ImportText.written)
  | assignment targets value => "set " ++ ", ".intercalate targets ++ " = " ++ value
  | capture targets => "set " ++ ", ".intercalate targets

/-- Names are spelled as names, expressions are plain, and the word that ends the expression for a
template stands in it only inside of brackets. -/
def WellFormed : BinderText → Prop
  | library template name =>
    PlainText template ∧ Word.OnlyEnclosed "as" template ∧
      Word.SpellsName name.toUTF8.data.toList
  | selection template imports =>
    PlainText template ∧ Word.OnlyEnclosed "import" template ∧
      ∀ imported ∈ imports, imported.WellFormed
  | assignment targets value =>
    (∀ target ∈ targets, Word.SpellsName target.toUTF8.data.toList) ∧ PlainText value
  | capture targets => ∀ target ∈ targets, Word.SpellsName target.toUTF8.data.toList

instance : (binder : BinderText) → Decidable binder.WellFormed
  | library .. => inferInstanceAs (Decidable (_ ∧ _))
  | selection .. => inferInstanceAs (Decidable (_ ∧ _))
  | assignment .. => inferInstanceAs (Decidable (_ ∧ _))
  | capture targets =>
    inferInstanceAs (Decidable (∀ target ∈ targets, Word.SpellsName target.toUTF8.data.toList))

end BinderText

/-- The texts of a binder of which no part is missing; only the one that captures a body opens a
construct. -/
def Tag.binderText? : Tag → Option BinderText
  | .single (.library (some template) (some name)) => some (.library template.text name.text)
  | .single (.selection (some template) names) =>
    some (.selection template.text (names.map ImportedName.text))
  | .single (.assignment targets (some value)) =>
    some (.assignment (targets.map (·.text)) value.text)
  | .opening (.capture targets) => some (.capture (targets.map (·.text)))
  | _ => none

open Word

/-! ### Imported names -/

namespace ImportText

/-- The words of an imported name. -/
def words (start : Nat) (imported : ImportText) : List Word :=
  let stop := start + imported.name.toUTF8.data.toList.length
  named start 0 imported.name ::
    match imported.renamed with
    | none => []
    | some renamed => [named (stop + 1) 0 "as", named (stop + 4) 0 renamed]

/-- Imported names in a list. -/
def listing : Listing ImportText := ⟨written, words⟩

theorem yields {imported : ImportText} (formed : imported.WellFormed) {right : List UInt8}
    (ended : Ended right) (following : Option UInt8) (front : List UInt8) :
    Yields following front imported.written.toUTF8.data.toList right
      (imported.words front.length) := by
  obtain ⟨name, renamed⟩ := imported
  cases renamed with
  | none => exact .name formed.1 ended
  | some renamed =>
      have bytes : (ImportText.mk name (some renamed)).written.toUTF8.data.toList =
          name.toUTF8.data.toList ++ (" as ".toUTF8.data.toList ++ renamed.toUTF8.data.toList) := by
        rw [written, Source.toUTF8_append, Source.toUTF8_append, List.append_assoc]
      let linked := front ++ name.toUTF8.data.toList ++ " as ".toUTF8.data.toList
      have last : Yields following linked renamed.toUTF8.data.toList right
          [named linked.length 0 renamed] := .name (formed.2 renamed rfl) ended
      have link : Yields following (front ++ name.toUTF8.data.toList) " as ".toUTF8.data.toList
          (renamed.toUTF8.data.toList ++ right)
          [named ((front ++ name.toUTF8.data.toList).length + 1) 0 "as"] :=
        .link (by decide) (by decide)
      have first : Yields following front name.toUTF8.data.toList
          (" as ".toUTF8.data.toList ++ renamed.toUTF8.data.toList ++ right)
          [named front.length 0 name] := .name formed.1 (ended_cons (by decide))
      have offset : linked.length = front.length + name.toUTF8.data.toList.length + 4 := by
        rw [List.length_append, List.length_append]
        rfl
      rw [offset] at last
      rw [List.length_append] at link
      rw [bytes]
      exact first.append (link.append last)

/-- Imported names in a list are found again. -/
theorem map_text_listing (start : Nat) (imports : List ImportText) :
    ((betweenCommas 0 (listing.wordsFrom start imports)).filterMap Tag.importedName?).map
      ImportedName.text = imports := by
  refine Listing.map_read_wordsFrom (fun imported offset => ?_) rfl (fun imported offset => ?_)
    start imports
  · obtain ⟨name, renamed⟩ := imported
    cases renamed with
    | none => simp [listing, words, named, isMark]
    | some renamed => simp [listing, words, named, isMark]
  · obtain ⟨name, renamed⟩ := imported
    cases renamed <;> rfl

end ImportText

/-! ### Binders -/

namespace Tag

variable {source : Source} {before after : List Word} {place : Nat}

theorem library_eq (others : ∀ word ∈ before, (word.isTop && word.isName "as") = false) :
    library source (before ++ named place 0 "as" :: after) =
      .library (Excerpt.covering? source before) (after.head?.bind Excerpt.ofName?) := by
  rw [library, cut?_append others rfl]

theorem selection_eq (others : ∀ word ∈ before, (word.isTop && word.isName "import") = false) :
    selection source (before ++ named place 0 "import" :: after) =
      .selection (Excerpt.covering? source before)
        ((betweenCommas 0 after).filterMap importedName?) := by
  rw [selection, cut?_append others rfl]

theorem assignment_eq (others : ∀ word ∈ before, (word.isTop && word.isMark "=") = false) :
    assignment source (before ++ mark place 0 "=" :: after) =
      .single (.assignment (topNames before) (Excerpt.covering? source after)) := by
  rw [assignment, cut?_append others rfl]

theorem assignment_eq_capture
    (others : ∀ word ∈ before, (word.isTop && word.isMark "=") = false) :
    assignment source before = .opening (.capture (topNames before)) := by
  rw [assignment, cut?_eq_none others]

end Tag

namespace BinderText

section Words

variable {source : Source} {front behind right : List UInt8} (ended : Ended right)
  (following : Option UInt8) {template value : String} {targets : List String}
include ended

/-- The words of a library make it. -/
theorem exists_yields_library {name : String} (formed : (library template name).WellFormed)
    (split : source.toList =
      front ++ ((library template name).written.toUTF8.data.toList ++ behind)) :
    ∃ words, Yields following front (library template name).written.toUTF8.data.toList right
        (named front.length 0 "import" :: words) ∧
      (Tag.single (Tag.library source words)).binderText? = some (library template name) := by
  obtain ⟨plain, inner, spells⟩ := formed
  have bytes : (library template name).written.toUTF8.data.toList =
      "import ".toUTF8.data.toList ++ (template.toUTF8.data.toList ++
        (" as ".toUTF8.data.toList ++ name.toUTF8.data.toList)) := by
    simp only [written, Source.toUTF8_append, List.append_assoc]
  let opened := front ++ "import ".toUTF8.data.toList
  let linked := opened ++ template.toUTF8.data.toList ++ " as ".toUTF8.data.toList
  have last : Yields following linked name.toUTF8.data.toList right
      [named linked.length 0 name] := .name spells ended
  obtain ⟨words, place, yields, covers, others⟩ :=
    Yields.exists_plain_link plain inner (by decide) (by decide) last
  rw [bytes, List.append_assoc, List.append_assoc, ← List.append_assoc] at split
  obtain ⟨span, covered⟩ := covers split
  refine ⟨words ++ named place 0 "as" :: [named linked.length 0 name], ?_, ?_⟩
  · rw [bytes]
    exact (Yields.keyword (by decide) (by decide)).append yields
  · rw [Tag.library_eq others, covered]
    rfl

/-- The words of a selection make it. -/
theorem exists_yields_selection {imports : List ImportText}
    (formed : (selection template imports).WellFormed)
    (split : source.toList =
      front ++ ((selection template imports).written.toUTF8.data.toList ++ behind)) :
    ∃ words, Yields following front (selection template imports).written.toUTF8.data.toList right
        (named front.length 0 "from" :: words) ∧
      (Tag.single (Tag.selection source words)).binderText? =
        some (selection template imports) := by
  obtain ⟨plain, inner, formed_imports⟩ := formed
  have bytes : (selection template imports).written.toUTF8.data.toList =
      "from ".toUTF8.data.toList ++ (template.toUTF8.data.toList ++
        (" import ".toUTF8.data.toList ++
          (ImportText.listing.text imports).toUTF8.data.toList)) := by
    simp only [written, Source.toUTF8_append, List.append_assoc]
    rfl
  let opened := front ++ "from ".toUTF8.data.toList
  let linked := opened ++ template.toUTF8.data.toList ++ " import ".toUTF8.data.toList
  have holds : ImportText.listing.Holds imports :=
    fun imported member following front right ended =>
      ImportText.yields (formed_imports imported member) ended following front
  obtain ⟨words, place, yields, covers, others⟩ := Yields.exists_plain_link plain inner
    (by decide) (by decide) (holds.yields following linked ended)
  rw [bytes, List.append_assoc, List.append_assoc, ← List.append_assoc] at split
  obtain ⟨span, covered⟩ := covers split
  refine ⟨words ++ named place 0 "import" :: ImportText.listing.wordsFrom linked.length imports,
    ?_, ?_⟩
  · rw [bytes]
    exact (Yields.keyword (by decide) (by decide)).append yields
  · rw [Tag.selection_eq others, covered, Tag.binderText?, ImportText.map_text_listing]

/-- The words of an assignment make it. -/
theorem exists_yields_assignment (formed : (assignment targets value).WellFormed)
    (split : source.toList =
      front ++ ((assignment targets value).written.toUTF8.data.toList ++ behind)) :
    ∃ words, Yields following front (assignment targets value).written.toUTF8.data.toList right
        (named front.length 0 "set" :: words) ∧
      (Tag.assignment source words).binderText? = some (assignment targets value) := by
  obtain ⟨spell, plain⟩ := formed
  have bytes : (assignment targets value).written.toUTF8.data.toList =
      "set ".toUTF8.data.toList ++ ((Listing.names.text targets).toUTF8.data.toList ++
        (" = ".toUTF8.data.toList ++ value.toUTF8.data.toList)) := by
    simp only [written, Listing.text_names, Source.toUTF8_append, List.append_assoc]
  let opened := front ++ "set ".toUTF8.data.toList
  let listed := opened ++ (Listing.names.text targets).toUTF8.data.toList
  let linked := listed ++ " = ".toUTF8.data.toList
  have listing : Yields following opened (Listing.names.text targets).toUTF8.data.toList
      (" = ".toUTF8.data.toList ++ value.toUTF8.data.toList ++ right)
      (Listing.names.wordsFrom opened.length targets) :=
    (Listing.holds_names spell).yields following opened (ended_cons (by decide))
  obtain ⟨words, yields, covers, -⟩ := Yields.exists_plain plain ended following linked
  have before : source.toList = linked ++ (value.toUTF8.data.toList ++ behind) := by
    rw [split, bytes]
    simp only [linked, listed, opened, List.append_assoc]
  obtain ⟨span, covered⟩ := covers before
  refine ⟨Listing.names.wordsFrom opened.length targets ++
    mark (listed.length + 1) 0 "=" :: words, ?_, ?_⟩
  · rw [bytes]
    exact (Yields.keyword (by decide) (by decide)).append
      (listing.append (Yields.assign.append yields))
  · rw [Tag.assignment_eq (Listing.not_isMark_of_mem_names (by decide) opened.length targets),
      covered, Tag.binderText?, Listing.map_text_topNames]

/-- The words of a capture make it. -/
theorem exists_yields_capture (formed : (capture targets).WellFormed) :
    ∃ words, Yields following front (capture targets).written.toUTF8.data.toList right
        (named front.length 0 "set" :: words) ∧
      (Tag.assignment source words).binderText? = some (capture targets) := by
  have bytes : (capture targets).written.toUTF8.data.toList =
      "set ".toUTF8.data.toList ++ (Listing.names.text targets).toUTF8.data.toList := by
    simp only [written, Listing.text_names, Source.toUTF8_append]
  let opened := front ++ "set ".toUTF8.data.toList
  refine ⟨Listing.names.wordsFrom opened.length targets, ?_, ?_⟩
  · rw [bytes]
    exact (Yields.keyword (by decide) (by decide)).append
      ((Listing.holds_names formed).yields following opened ended)
  · rw [Tag.assignment_eq_capture
      (Listing.not_isMark_of_mem_names (by decide) opened.length targets), Tag.binderText?,
      Listing.map_text_topNames]

/-- The words of a binder make it. -/
theorem exists_yields {binder : BinderText} (formed : binder.WellFormed)
    (split : source.toList = front ++ (binder.written.toUTF8.data.toList ++ behind)) :
    ∃ keyword words, Yields following front binder.written.toUTF8.data.toList right
        (named front.length 0 keyword :: words) ∧
      ∀ options, (Tag.ofKeyword options source (Excerpt.ofWord (named front.length 0 keyword))
        words).binderText? = some binder := by
  cases binder with
  | library template name =>
      obtain ⟨words, yields, makes⟩ := exists_yields_library ended following formed split
      exact ⟨"import", words, yields, fun _ => makes⟩
  | selection template imports =>
      obtain ⟨words, yields, makes⟩ := exists_yields_selection ended following formed split
      exact ⟨"from", words, yields, fun _ => makes⟩
  | assignment targets value =>
      obtain ⟨words, yields, makes⟩ := exists_yields_assignment ended following formed split
      exact ⟨"set", words, yields, fun _ => makes⟩
  | capture targets =>
      obtain ⟨words, yields, makes⟩ := exists_yields_capture ended following formed
      exact ⟨"set", words, yields, fun _ => makes⟩

end Words

variable {binder : BinderText}

theorem bytes_written_ne_nil (binder : BinderText) : binder.written.toUTF8.data.toList ≠ [] := by
  cases binder <;> rw [written] <;> simp only [Source.toUTF8_append, List.append_assoc] <;>
    exact List.cons_ne_nil _ _

/-- A tag with a binder between spaces means the binder. -/
theorem binderText?_of_written (formed : binder.WellFormed) (options : Options) {source : Source}
    {piece : Piece} (kind : piece.kind = .region .tag) {front back : List UInt8}
    (content : source.slice piece.body = front ++ (binder.written.toUTF8.data.toList ++ back))
    (spaces_front : ∀ byte ∈ front, Byte.isSpace byte = true)
    (spaces_back : ∀ byte ∈ back, Byte.isSpace byte = true) :
    (Tag.ofPiece options source piece).binderText? = some binder := by
  obtain ⟨following, ahead, behind, split, means⟩ := Tag.exists_ofPiece_eq options kind
    binder.bytes_written_ne_nil content spaces_front spaces_back
  obtain ⟨keyword, words, yields, makes⟩ :=
    exists_yields (ended_of_spaces spaces_back) following formed split
  rw [means ahead.length keyword words yields]
  exact makes options

end BinderText

end TwigTemplate
