import TwigTemplate.Document
import TwigTemplate.Proofs.Piece.Cover
import TwigTemplate.Proofs.Tag.Keyword
import TwigTemplate.Proofs.Tree.Attach
import TwigTemplate.Proofs.Tree.Unclosed

/-!
# What is told of a template

Pieces of a template are apart from each other, so the place of a diagnostic shows which tag it is
on.  Unless constructs are nested too deeply, a tag with a keyword has one part in the tree, or it
stands alone, or one diagnostic is on it.
-/

namespace TwigTemplate

namespace Tag

/-- An unknown tag is told of at its keyword, and all else at the whole piece. -/
theorem span_of_stray? {tag : Tag} {span : Span} {finding : Finding}
    (stray : tag.stray? span = some finding) :
    (finding.diagnostic.kind = .unexpectedEndTag ∨ finding.diagnostic.kind = .unexpectedBranch) ∧
        finding.diagnostic.span = span ∨
      ∃ keyword, tag = .unknown keyword ∧ finding = .unknownTag keyword := by
  cases tag with
  | branch kind =>
      cases stray
      exact .inl ⟨.inr rfl, rfl⟩
  | closing keyword =>
      cases stray
      exact .inl ⟨.inl rfl, rfl⟩
  | unknown keyword =>
      cases stray
      exact .inr ⟨keyword, rfl, rfl⟩
  | _ => cases stray

/-- What is told of a piece without a place is told at a place inside it. -/
theorem bounds_of_stray? {options : Options} {source : Source} {piece : Piece} {finding : Finding}
    (fits : piece.Fits)
    (stray : (ofPiece options source piece).stray? piece.span = some finding) :
    piece.span.start ≤ finding.diagnostic.span.start ∧
      finding.diagnostic.span.start < finding.diagnostic.span.stop ∧
      finding.diagnostic.span.stop ≤ piece.span.stop := by
  rcases span_of_stray? stray with ⟨-, place⟩ | ⟨keyword, unknown, rfl⟩
  · rw [place]
    exact ⟨Nat.le_refl _, fits.start_lt, Nat.le_refl _⟩
  · have bounds := Header.bounds_of_keyword fits.body_le (keyword_of_unknown unknown)
    exact ⟨Nat.le_trans fits.start_le bounds.1, bounds.2.1, Nat.le_trans bounds.2.2 fits.stop_le⟩

end Tag

/-- The diagnostic tells that the tag with this keyword has no place. -/
def Diagnostic.isOn (piece : Piece) (keyword : Excerpt) (diagnostic : Diagnostic) : Bool :=
  match diagnostic.kind with
  | .unknownTag => diagnostic.span = keyword.span
  | .unexpectedEndTag | .unexpectedBranch => diagnostic.span = piece.span
  | _ => false

namespace Tree

open Statement Finding
open scoped List

section On

variable {options : Options} {source : Source} {piece : Piece} {keyword : Excerpt}
  (named : (Header.ofBody source piece.body).keyword = some keyword)
include named

theorem bounds_of_isOn {diagnostic : Diagnostic} (fits : piece.Fits)
    (about : diagnostic.isOn piece keyword = true) :
    piece.span.start ≤ diagnostic.span.start ∧ diagnostic.span.stop ≤ piece.span.stop := by
  have bounds := Header.bounds_of_keyword fits.body_le named
  rw [Diagnostic.isOn] at about
  split at about
  · rw [of_decide_eq_true about]
    exact ⟨Nat.le_trans fits.start_le bounds.1, Nat.le_trans bounds.2.2 fits.stop_le⟩
  · rw [of_decide_eq_true about]
    exact ⟨Nat.le_refl _, Nat.le_refl _⟩
  · rw [of_decide_eq_true about]
    exact ⟨Nat.le_refl _, Nat.le_refl _⟩
  · cases about

/-- What is told of a tag is on it. -/
theorem isOn_of_stray? {finding : Finding}
    (stray : (Tag.ofPiece options source piece).stray? piece.span = some finding) :
    finding.diagnostic.isOn piece keyword = true := by
  rcases Tag.span_of_stray? stray with ⟨kind | kind, place⟩ | ⟨other, unknown, rfl⟩
  · rw [Diagnostic.isOn, kind]
    exact decide_eq_true place
  · rw [Diagnostic.isOn, kind]
    exact decide_eq_true place
  · obtain rfl := Option.some.inj (named.symm.trans (Tag.keyword_of_unknown unknown))
    exact decide_eq_true rfl

/-- What is told of pieces apart from a tag is not on it. -/
theorem not_isOn_of_apart {other : Piece} {finding : Finding} (fits : piece.Fits)
    (apart : piece.Apart other)
    (stray : (Tag.ofPiece options source other).stray? other.span = some finding) :
    ¬ finding.diagnostic.isOn piece keyword = true := by
  intro about
  have inside := bounds_of_isOn named fits about
  have outside := Tag.bounds_of_stray? apart.fits stray
  have separate := apart.separate
  omega

/-- Nothing that is told of pieces apart from a tag is on it. -/
theorem filter_isOn_of_apart {others : List (Piece × Nat)} (mentioned : List Nat)
    (fits : piece.Fits) (apart : ∀ other ∈ others, piece.Apart other.1) :
    ((others.filterMap (strayFinding? options source mentioned)).map Finding.diagnostic).filter
      (·.isOn piece keyword) = [] := by
  rw [List.filter_eq_nil_iff, List.forall_mem_map]
  intro finding member
  obtain ⟨⟨other, index⟩, among, stray⟩ := List.mem_filterMap.mp member
  rw [strayFinding?] at stray
  split at stray
  · cases stray
  · exact not_isOn_of_apart named fits (apart _ among) stray

/-- Of all that is told of pieces without a place, only what is told of a tag is on it. -/
theorem filter_isOn_strayFindings {pieces : List Piece} {index start stop : Nat}
    (covers : Piece.Covers start pieces stop) (found : pieces[index]? = some piece)
    (mentioned : List Nat) :
    ((strayFindings options source pieces mentioned).map Finding.diagnostic).filter
        (·.isOn piece keyword) =
      (strayFinding? options source mentioned (piece, index)).toList.map Finding.diagnostic := by
  obtain ⟨before, after, rfl, rfl⟩ := exists_around found
  have fits := covers.fits (List.mem_append_right _ List.mem_cons_self)
  obtain ⟨before_apart, after_apart⟩ := covers.apart
  have split : strayFindings options source (before ++ piece :: after) mentioned =
      before.zipIdx.filterMap (strayFinding? options source mentioned) ++
        ((strayFinding? options source mentioned (piece, before.length)).toList ++
          (after.zipIdx (before.length + 1)).filterMap
            (strayFinding? options source mentioned)) := by
    rw [strayFindings, List.zipIdx_append, List.zipIdx_cons, List.filterMap_append, Nat.zero_add]
    cases stray : strayFinding? options source mentioned (piece, before.length) <;> simp [stray]
  rw [split, List.map_append, List.map_append, List.filter_append, List.filter_append,
    filter_isOn_of_apart named mentioned fits fun _ member =>
      before_apart _ (List.fst_mem_of_mem_zipIdx member),
    filter_isOn_of_apart named mentioned fits fun _ member =>
      after_apart _ (List.fst_mem_of_mem_zipIdx member),
    List.nil_append, List.append_nil,
    List.filter_eq_self, List.forall_mem_map]
  intro finding told
  rw [Option.mem_toList, strayFinding?] at told
  split at told
  · cases told
  · exact isOn_of_stray? named told

/-- What is told of a tag in a template. -/
theorem filter_isOn_diagnostics {limit : Option Nat} {pieces : List Piece} {index start stop : Nat}
    (shallow : (build limit options source pieces).Shallow)
    (covers : Piece.Covers start pieces stop) (found : pieces[index]? = some piece) :
    (build limit options source pieces).diagnostics.filter (·.isOn piece keyword) =
      (strayFinding? options source (piecesOf (build limit options source pieces).statements)
        (piece, index)).toList.map Finding.diagnostic := by
  rw [← filter_isOn_strayFindings named covers found, ← strayDiagnostics_build shallow,
    List.filter_filter]
  apply List.filter_congr
  intro diagnostic _
  rw [Diagnostic.isOn]
  cases diagnostic.kind <;> simp [strayKinds]

/-- A tag with a keyword has one part in the tree, or stands alone, or one diagnostic is on it. -/
theorem accounts_build {limit : Option Nat} {pieces : List Piece} {index start stop : Nat}
    (shallow : (build limit options source pieces).Shallow)
    (covers : Piece.Covers start pieces stop) (found : pieces[index]? = some piece)
    (kind : piece.kind = .region .tag) :
    let tree := build limit options source pieces
    let told := tree.diagnostics.filter (·.isOn piece keyword)
    ((piecesOf tree.statements).count index = 1 ∧ told = []) ∨
      ((piecesOf tree.statements).count index = 0 ∧ told = [] ∧
        options.standsAlone keyword.text = true ∧ Tag.ofPiece options source piece = .inert) ∨
      ((piecesOf tree.statements).count index = 0 ∧ told.length = 1) := by
  intro tree told
  have told_eq := filter_isOn_diagnostics named shallow covers found
  rw [strayFinding?] at told_eq
  by_cases member : index ∈ piecesOf tree.statements
  · have apart := (pairwise_piecesOf_build limit options source pieces).imp Nat.ne_of_lt
    rw [if_pos member] at told_eq
    exact .inl ⟨List.count_eq_one_of_mem apart member, told_eq⟩
  right
  rw [List.count_eq_zero_of_not_mem member]
  rw [if_neg member] at told_eq
  obtain ⟨before, after, rfl, rfl⟩ := exists_around found
  have passed := member
  rw [piecesOf, mentionsOf_build] at passed
  rcases inert_or_stray_read limit options source (shallow_read_of_build shallow) passed with
    inert | ⟨finding, stray⟩
  · rw [inert] at told_eq
    refine .inl ⟨rfl, told_eq, ?_, inert⟩
    rw [Tag.ofPiece_of_keyword kind named] at inert
    exact Tag.standsAlone_of_ofKeyword inert
  · rw [stray] at told_eq
    exact .inr ⟨rfl, congrArg List.length told_eq⟩

end On

/-- No place is told of twice as that of a construct without an end tag. -/
theorem nodup_unclosedBlock_build {limit : Option Nat} {options : Options} {source : Source}
    {pieces : List Piece} {start stop : Nat} (covers : Piece.Covers start pieces stop) :
    (spansOf .unclosedBlock (build limit options source pieces).findings).Nodup := by
  have balance := perm_unendedStarts_build limit options source pieces
  apply List.Nodup.of_map some
  apply balance.nodup_iff.mp
  have starts := nodup_unendedStarts (pairwise_piecesOf_build limit options source pieces)
  refine List.Nodup.map_on ?_ starts
  intro left left_member right right_member same
  obtain ⟨span, -, found⟩ := List.mem_map.mp (balance.subset (List.mem_map_of_mem left_member))
  exact covers.index_eq_of_span_eq found.symm (same ▸ found.symm)

end Tree

namespace Document

open Statement TwigTemplate.Tree

/-- No tag of a template that is not nested too deeply is passed over in silence: it has one part in
the tree, or it stands alone, or one diagnostic is on it.  Of all templates, the constructs without
an end tag and the regions without a closing delimiter are told of, each once. -/
theorem accounts_for_all (options : Options) (source : Source) :
    let document := parse options source
    let cutOff := (document.diagnostics.filter (·.kind = .unclosedBlock)).map (·.span)
    (document.tree.Shallow → ∀ index piece keyword, document.pieces[index]? = some piece →
      piece.kind = .region .tag →
      (Header.ofBody source piece.body).keyword = some keyword →
      let count := (piecesOf document.statements).count index
      let told := document.diagnostics.filter (·.isOn piece keyword)
      (count = 1 ∧ told = []) ∨
        (count = 0 ∧ told = [] ∧ options.standsAlone keyword.text = true ∧
          Tag.ofPiece options source piece = .inert) ∨
        (count = 0 ∧ told.length = 1)) ∧
    cutOff.Nodup ∧
    (cutOff.map some).Perm ((unended document.statements).map fun statement =>
      document.pieces[statement.startPiece]?.map (·.span)) ∧
    (document.diagnostics.filter (·.kind = .unclosedDelimiter)).map (·.span) =
      (document.pieces.toList.filter isUnclosed).map delimiterSpan := by
  intro document cutOff
  have covers := Piece.covers_group_tokens source
  refine ⟨?_, nodup_unclosedBlock_build covers, ?_,
    spansOf_unclosedDelimiter_build _ options source _⟩
  · intro shallow index piece keyword found kind named
    rw [← Array.getElem?_toList] at found
    exact accounts_build named shallow covers found kind
  · have balance := (perm_unendedStarts_build (some nestingLimit) options source
      (Piece.group source.tokens).toList).symm
    rw [unendedStarts, List.map_map] at balance
    simp only [Array.getElem?_toList] at balance
    exact balance

/-- The end tag of a loop inside a condition is in no statement, and one diagnostic is on it. -/
theorem accounts_for_stray_end_tag :
    let document := parse .default (Source.ofString "\x7b% if a %\x7d\x7b% endfor %\x7d\x7b\x7b b")
    let piece : Piece := ⟨.region .tag, ⟨10, 22⟩, ⟨12, 20⟩, true⟩
    let keyword : Excerpt := ⟨"endfor", ⟨13, 19⟩⟩
    document.pieces[1]? = some piece ∧
      (Header.ofBody document.source piece.body).keyword = some keyword ∧
      document.tree.Shallow ∧
      (document.diagnostics.filter (·.isOn piece keyword)).length = 1 := by
  intro document piece keyword
  have found : document.pieces[1]? = some piece := by decide +kernel
  have named : (Header.ofBody document.source piece.body).keyword = some keyword := by
    decide +kernel
  have shallow : document.tree.Shallow := by decide +kernel
  have passed : (piecesOf document.statements).count 1 = 0 := by decide +kernel
  obtain ⟨accounts, -⟩ := accounts_for_all .default document.source
  refine ⟨found, named, shallow, ?_⟩
  rcases accounts shallow 1 piece keyword found rfl named with
    mentioned | ⟨-, -, alone, -⟩ | ⟨-, told⟩
  · exact absurd (passed.symm.trans mentioned.1) Nat.zero_ne_one
  · exact absurd alone (by decide +kernel)
  · exact told

end Document
end TwigTemplate
