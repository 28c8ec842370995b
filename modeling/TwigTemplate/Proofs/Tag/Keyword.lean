import TwigTemplate.Proofs.Word.Place
import TwigTemplate.Tag

/-!
# Keywords of tags

The keyword of a tag lies in its body.  Of the tags with a keyword, only those that stand alone have
no part in the structure, and a tag without a meaning is known by its keyword.
-/

namespace TwigTemplate

/-- The keyword of a tag lies in its body. -/
theorem Header.bounds_of_keyword {source : Source} {body : Span} {keyword : Excerpt}
    (ordered : body.start ≤ body.stop)
    (named : (Header.ofBody source body).keyword = some keyword) :
    body.start ≤ keyword.span.start ∧ keyword.span.start < keyword.span.stop ∧
      keyword.span.stop ≤ body.stop := by
  rw [ofBody] at named
  cases words : Word.split source body with
  | nil =>
      rw [words] at named
      cases named
  | cons first rest =>
      have bounds := Word.bounds_of_mem_split ordered (words ▸ List.mem_cons_self)
      rw [words, ofWords, Excerpt.ofName?] at named
      split at named
      · rename_i other found
        split at found
        · cases named
          cases found
          exact bounds
        · cases found
      · cases named

namespace Tag

variable {options : Options} {source : Source} {keyword : Excerpt}

/-- Of the tags with a keyword, only one that stands alone has no part in the structure. -/
theorem standsAlone_of_ofKeyword {words : List Word}
    (inert : ofKeyword options source keyword words = .inert) :
    options.standsAlone keyword.text = true := by
  simp only [ofKeyword, block, assignment] at inert
  repeat' split at inert
  all_goals first | assumption | cases inert

/-- The keyword without a meaning is that of the tag. -/
theorem eq_of_ofKeyword_eq_unknown {words : List Word} {other : Excerpt}
    (unknown : ofKeyword options source keyword words = .unknown other) : keyword = other := by
  simp only [ofKeyword, block, assignment] at unknown
  repeat' split at unknown
  all_goals cases unknown
  rfl

/-- No keyword with another meaning starts as an end tag does. -/
theorem ofKeyword_end (source : Source) (keyword : String) (place : Span) (words : List Word) :
    ofKeyword .default source ⟨"end" ++ keyword, place⟩ words = .closing keyword := by
  have differs {word : String} (starts : word.toList.take 3 ≠ "end".toList) :
      "end" ++ keyword ≠ word := by
    rintro rfl
    exact starts (by simp)
  have no_body : ∀ word ∈ Options.builtInBodyTags, word.toList.take 3 ≠ "end".toList := by decide
  have not_alone : ∀ word ∈ Options.builtInInlineTags, word.toList.take 3 ≠ "end".toList := by
    decide
  have opens : Options.default.opensBody ("end" ++ keyword) = false := by
    rw [Options.opensBody, Bool.or_eq_false_iff, List.contains_eq_mem, decide_eq_false_iff_not]
    exact ⟨fun member => differs (no_body _ member) rfl, rfl⟩
  have stands : Options.default.standsAlone ("end" ++ keyword) = false := by
    rw [Options.standsAlone, Bool.or_eq_false_iff, List.contains_eq_mem, decide_eq_false_iff_not]
    exact ⟨fun member => differs (not_alone _ member) rfl, rfl⟩
  have starts : "end".isPrefixOf ("end" ++ keyword) = true := by
    simp [String.isPrefixOf]
  have keyword_eq : String.ofList (("end" ++ keyword).toList.drop 3) = keyword := by simp
  rw [ofKeyword]
  split
  case h_13 => simp only [opens, stands, starts, keyword_eq, if_true, Bool.false_eq_true, if_false]
  all_goals exact absurd ‹_› (differs (by decide))

variable {piece : Piece}

theorem ofPiece_of_keyword (kind : piece.kind = .region .tag)
    (named : (Header.ofBody source piece.body).keyword = some keyword) :
    ofPiece options source piece =
      ofKeyword options source keyword (Header.ofBody source piece.body).words := by
  simp [ofPiece, kind, ofBody, named]

/-- A keyword without a meaning is that of the tag. -/
theorem keyword_of_unknown (unknown : ofPiece options source piece = .unknown keyword) :
    (Header.ofBody source piece.body).keyword = some keyword := by
  rw [ofPiece] at unknown
  split at unknown
  case h_4 =>
    rw [ofBody] at unknown
    split at unknown
    · rename_i other named
      rw [named, eq_of_ofKeyword_eq_unknown unknown]
    · cases unknown
  all_goals cases unknown

end Tag
end TwigTemplate
