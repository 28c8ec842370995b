import TwigTemplate.Proofs.Tree.Text

/-!
# What diagnostics say

The keywords that diagnostics quote are keywords of tags.  Open constructs remember theirs, so this
is also true of what is told of them later.  Hence the prose of a diagnostic fits on one line, and
its backticks come in pairs.
-/

namespace TwigTemplate

/-- The keywords that the diagnostic on the finding quotes. -/
def Finding.keywords : Finding → List String
  | unclosedDelimiter _ _ => []
  | unclosedBlock keyword _ _ => [keyword]
  | unexpectedEndTag keyword _ => [keyword]
  | mismatchedEndTag keyword _ inner _ => [keyword, inner]
  | unexpectedBranch keyword _ => [keyword]
  | unknownTag keyword => [keyword.text]
  | nestingTooDeep keyword _ _ => [keyword]

/-- The keyword by which a tag has a part in the structure, or would have one. -/
def Tag.keyword? : Tag → Option String
  | opening header => some header.keyword
  | branch kind => some kind.keyword
  | closing keyword => some keyword
  | unknown keyword => some keyword.text
  | single _ => none
  | inert => none

theorem Header.keyword_mem_names {source : Source} {body : Span} {keyword : Excerpt}
    (named : (Header.ofBody source body).keyword = some keyword) :
    keyword ∈ Word.names (Word.split source body) := by
  rw [ofBody] at named
  cases words : Word.split source body with
  | nil =>
      rw [words] at named
      cases named
  | cons first rest =>
      rw [words, ofWords] at named
      split at named
      · rename_i found
        obtain rfl := Option.some.inj named
        rw [Word.names, List.filterMap_cons, found]
        exact List.mem_cons_self
      · cases named

namespace Tag

theorem keyword_loop (source : Source) (words : List Word) :
    (loop source words).keyword = "for" := by
  rw [loop]
  split
  · rfl
  · split <;> rfl

theorem keyword_definition (source : Source) (words : List Word) :
    (definition source words).keyword = "macro" := by
  rw [definition]
  split
  · rfl
  · split <;> rfl

/-- A tag has its part in the structure by the characters of the keyword that is written in it, of
which an end tag leaves some out. -/
theorem keyword?_ofKeyword (options : Options) (source : Source) (written : Excerpt)
    (words : List Word) :
    ∀ keyword ∈ (ofKeyword options source written words).keyword?,
      keyword.toList ⊆ written.text.toList := by
  have same {keyword : String} (text : written.text = keyword) :
      keyword.toList ⊆ written.text.toList := by
    rw [text]
    exact List.Subset.refl _
  rw [ofKeyword]
  split
  · rintro _ ⟨⟩
    exact same ‹_›
  · rintro _ ⟨⟩
    exact same ‹_›
  · rintro _ ⟨⟩
    exact same ‹_›
  · rename_i text
    rintro _ ⟨⟩
    rw [keyword_loop]
    exact same text
  · rename_i text
    rw [block]
    split
    · rintro _ ⟨⟩
    · rintro _ ⟨⟩
      exact same text
  · rename_i text
    rintro _ ⟨⟩
    rw [keyword_definition]
    exact same text
  · rename_i text
    rw [assignment]
    split
    · rintro _ ⟨⟩
      exact same text
    · rintro _ ⟨⟩
  · rintro _ ⟨⟩
  · rintro _ ⟨⟩
  · rintro _ ⟨⟩
  · rintro _ ⟨⟩
  · rintro _ ⟨⟩
  · split
    · rintro _ ⟨⟩
      exact List.Subset.refl _
    split
    · rintro _ ⟨⟩
    split
    · rintro _ ⟨⟩
      rw [String.toList_ofList]
      exact List.drop_subset 3 _
    · rintro _ ⟨⟩
      exact List.Subset.refl _

/-- The keyword of a tag is spelled as a name. -/
theorem keyword?_ofPiece (options : Options) {source : Source} {piece : Piece}
    (member : piece ∈ Piece.group source.tokens) :
    ∀ keyword ∈ (ofPiece options source piece).keyword?, ∀ character ∈ keyword.toList,
      character.isAlphanum = true ∨ character = '_' ∨ 0x80 ≤ character.toNat := by
  rw [ofPiece]
  split
  · rintro _ ⟨⟩
  · rintro _ ⟨⟩
  · rintro _ ⟨⟩
  · rename_i kind
    rw [ofBody]
    split
    · rename_i written named
      have spelled := (copiedFrom_of_mem_names (Piece.hasPart_body member kind)
        (Header.keyword_mem_names named)).2
      intro keyword quoted character among
      exact spelled.characters character
        (keyword?_ofKeyword options source written _ keyword quoted among)
    · rintro _ ⟨⟩

end Tag

namespace Tree

namespace Reading

/-- The keywords of all open constructs, and of all that has been told so far, are such
keywords. -/
structure WordedBy (allowed : String → Prop) (reading : Reading) : Prop where
  /-- Those of open constructs are. -/
  keywords : ∀ keyword ∈ reading.keywords, allowed keyword
  /-- Those of findings are. -/
  findings : ∀ finding ∈ reading.findings.toList, ∀ keyword ∈ finding.keywords, allowed keyword

variable {allowed : String → Prop} {reading after : Reading}

theorem WordedBy.congr (worded : reading.WordedBy allowed) (told : List Finding)
    (keywords : after.keywords = reading.keywords)
    (findings : after.findings.toList = reading.findings.toList ++ told)
    (told_worded : ∀ finding ∈ told, ∀ keyword ∈ finding.keywords, allowed keyword) :
    after.WordedBy allowed := by
  constructor
  · rw [keywords]
    exact worded.keywords
  · rw [findings]
    exact List.forall_mem_append.mpr ⟨worded.findings, told_worded⟩

theorem WordedBy.report (worded : reading.WordedBy allowed) {finding : Finding}
    (told : ∀ keyword ∈ finding.keywords, allowed keyword) :
    (reading.report finding).WordedBy allowed :=
  worded.congr [finding] rfl (Array.toList_push ..) (List.forall_mem_singleton.mpr told)

theorem worded_unclosed {frames : List Frame} (worded : ∀ frame ∈ frames, allowed frame.keyword)
    (atEnd : Bool) :
    ∀ finding ∈ frames.map (·.unclosed atEnd), ∀ keyword ∈ finding.keywords, allowed keyword := by
  rw [List.forall_mem_map]
  exact fun frame listed => List.forall_mem_singleton.mpr (worded frame listed)

theorem worded_toldOnEnding {frames : List Frame}
    (worded : ∀ frame ∈ frames, allowed frame.keyword) {keyword : String}
    (here : allowed keyword) (span : Span) :
    ∀ finding ∈ toldOnEnding keyword span frames, ∀ keyword ∈ finding.keywords,
      allowed keyword := by
  cases frames with
  | nil => rintro _ ⟨⟩
  | cons innermost others =>
      refine List.forall_mem_cons.mpr ⟨?_, worded_unclosed worded false⟩
      exact List.forall_mem_cons.mpr
        ⟨here, List.forall_mem_singleton.mpr (worded innermost List.mem_cons_self)⟩

/-- What is told of a piece quotes its keyword and those of open constructs. -/
theorem Acts.worded {limit : Option Nat} {index : Nat} {span : Span} {tag : Tag}
    (acts : Acts limit reading index span tag after)
    (here : ∀ keyword ∈ tag.keyword?, allowed keyword) (worded : reading.WordedBy allowed) :
    after.WordedBy allowed := by
  have same : reading.findings.toList = reading.findings.toList ++ [] := (List.append_nil _).symm
  have nothing : ∀ finding ∈ ([] : List Finding), ∀ keyword ∈ finding.keywords,
      allowed keyword := by simp
  cases acts with
  | opened => exact ⟨List.forall_mem_cons.mpr ⟨here _ rfl, worded.keywords⟩, worded.findings⟩
  | tooDeep =>
      refine worded.congr [_] rfl (Array.toList_push ..) (List.forall_mem_singleton.mpr ?_)
      exact List.forall_mem_singleton.mpr (here _ rfl)
  | branched _ stacked =>
      refine worded.congr [] ?_ same nothing
      rw [keywords, keywords, stacked]
      rfl
  | strayBranch => exact worded.report (List.forall_mem_singleton.mpr (here _ rfl))
  | ended _ stacked =>
      have frames := List.forall_mem_map.mp worded.keywords
      rw [stacked, List.forall_mem_append, List.forall_mem_cons] at frames
      constructor
      · rw [keywords_push]
        exact List.forall_mem_map.mpr frames.2.2
      · rw [findings_push, Array.toList_append]
        exact List.forall_mem_append.mpr
          ⟨worded.findings, worded_toldOnEnding frames.1 (here _ rfl) span⟩
  | strayEnd => exact worded.report (List.forall_mem_singleton.mpr (here _ rfl))
  | single => exact worded.congr [] (keywords_push _ _) (by rw [findings_push]; exact same) nothing
  | unknown => exact worded.report (List.forall_mem_singleton.mpr (here _ rfl))
  | _ => exact worded.congr [] rfl same nothing

end Reading

section Read

variable {limit : Option Nat} {options : Options} {source : Source} {pieces : List Piece}
  {allowed : String → Prop}
  (tags : ∀ piece ∈ pieces, ∀ keyword ∈ (Tag.ofPiece options source piece).keyword?,
    allowed keyword)
include tags

/-- All that is told of pieces quotes their keywords. -/
theorem wordedBy_read : (read limit options source pieces).WordedBy allowed := by
  induction pieces using List.reverseRecOn with
  | nil => exact ⟨by simp [Reading.start, Reading.keywords], by simp [Reading.start]⟩
  | append_singleton pieces piece ih =>
      rw [List.forall_mem_append, List.forall_mem_singleton] at tags
      refine (acts_read limit options source pieces piece).worded tags.2 ?_
      refine (ih tags.1).congr (unclosed? piece).toList ?_ (by simp [findings_note]) ?_
      · rw [Reading.keywords, stack_note, Reading.keywords]
      · intro finding told
        rw [Option.mem_toList, unclosed?] at told
        split at told
        · obtain rfl := Option.some.inj told
          rintro _ ⟨⟩
        · cases told

theorem worded_build {finding : Finding}
    (member : finding ∈ (build limit options source pieces).findings) :
    ∀ keyword ∈ finding.keywords, allowed keyword := by
  have worded : (read limit options source pieces).WordedBy allowed := wordedBy_read tags
  rw [build_eq_finish, Reading.findings_finish] at member
  rcases List.mem_append.mp member with earlier | last
  · exact worded.findings finding earlier
  · exact Reading.worded_unclosed (List.forall_mem_map.mp worded.keywords) true finding last

end Read

end Tree
end TwigTemplate
