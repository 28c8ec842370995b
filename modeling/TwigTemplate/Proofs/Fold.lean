import TwigTemplate.Fold
import TwigTemplate.Proofs.Line.Number
import TwigTemplate.Proofs.Piece.Cover
import TwigTemplate.Proofs.Statement.Nesting
import TwigTemplate.Proofs.Statement.Walk
import TwigTemplate.Proofs.Tree.Restrict

/-!
# Ranges of lines that may be folded

Bodies do not cross, pieces ascend, and so do the lines on which they begin.  The range of a body
ends on the line before the one of its closing piece, so that the ranges of two bodies share a line
only if one of the bodies lies inside the other.
-/

namespace TwigTemplate
namespace Fold

/-- The line is in the range. -/
def Holds (fold : Fold) (line : Nat) : Prop := fold.startLine ≤ line ∧ line ≤ fold.endLine

theorem precedes_iff {left right : Fold} :
    left.precedes right = true ↔ left.startLine < right.startLine ∨
      left.startLine = right.startLine ∧ right.endLine ≤ left.endLine := by
  simp [precedes]

theorem precedes_trans (left middle right : Fold) (first : left.precedes middle = true)
    (second : middle.precedes right = true) : left.precedes right = true := by
  rw [precedes_iff] at *
  omega

theorem precedes_total (left right : Fold) :
    (left.precedes right || right.precedes left) = true := by
  rw [Bool.or_eq_true, precedes_iff, precedes_iff]
  omega

theorem filter_kind_eq_self {folds : List Fold} {kind : FoldKind}
    (alike : ∀ fold ∈ folds, fold.kind = kind) : folds.filter (·.kind = kind) = folds :=
  List.filter_eq_self.mpr fun fold member => decide_eq_true (alike fold member)

theorem filter_kind_eq_nil {folds : List Fold} {kind other : FoldKind}
    (alike : ∀ fold ∈ folds, fold.kind = other) (differs : other ≠ kind) :
    folds.filter (·.kind = kind) = [] := by
  rw [List.filter_eq_nil_iff]
  intro fold member
  rw [alike fold member, decide_eq_true_iff]
  exact differs

end Fold

namespace Document

/-- The lines on which the pieces around a body begin, if the body is ended. -/
def linesAround? (document : Document) (segment : Segment) : Option (Nat × Nat) := do
  let opening ← document.pieces[segment.openPiece]?
  let closing ← segment.closePiece.bind (document.pieces[·]?)
  return (document.source.lineOf opening.span.start, document.source.lineOf closing.span.start)

/-- The ranges of the bodies that are ended two lines below the one on which they are opened, or
later. -/
def regions (document : Document) : List Fold :=
  let around := (Statement.bodies document.statements).filterMap document.linesAround?
  (around.filter fun (first, beyond) => first + 2 ≤ beyond).map fun (first, beyond) =>
    ⟨first, beyond - 1, .region⟩

/-- The lines of the first and of the last byte of a piece. -/
def outerLines (document : Document) (piece : Piece) : Nat × Nat :=
  (document.source.lineOf piece.span.start, document.source.lineOf (piece.span.stop - 1))

/-- The ranges of the closed comments whose first and last byte are on different lines. -/
def comments (document : Document) : List Fold :=
  let reaching := document.pieces.toList.filter fun piece => piece.kind = .region .comment ∧
    piece.closed ∧ (document.outerLines piece).1 ≠ (document.outerLines piece).2
  reaching.map fun piece => ⟨(document.outerLines piece).1, (document.outerLines piece).2, .comment⟩

section Lines

variable {document : Document} {segment : Segment}

theorem outerLines_le (document : Document) {piece : Piece} (fits : piece.Fits) :
    (document.outerLines piece).1 ≤ (document.outerLines piece).2 :=
  Source.lineOf_le (Nat.le_sub_one_of_lt fits.start_lt)

theorem linesAround?_eq_some_iff {first beyond : Nat} :
    document.linesAround? segment = some (first, beyond) ↔
      ∃ opening close closing, document.pieces[segment.openPiece]? = some opening ∧
        segment.closePiece = some close ∧ document.pieces[close]? = some closing ∧
        document.source.lineOf opening.span.start = first ∧
        document.source.lineOf closing.span.start = beyond := by
  cases closed : segment.closePiece <;> simp [linesAround?, closed, Option.bind_eq_some_iff]

theorem ofSegment?_eq_bind :
    Fold.ofSegment? (LineTable.ofSource document.source) document.pieces segment =
      (document.linesAround? segment).bind fun (first, beyond) =>
        Fold.ofLines? .region first (beyond - 1) := by
  simp [Fold.ofSegment?, linesAround?, LineTable.lineAt_ofSource, Option.bind_assoc]

theorem filterMap_ofSegment? :
    (Statement.bodies document.statements).filterMap
        (Fold.ofSegment? (LineTable.ofSource document.source) document.pieces) =
      document.regions := by
  rw [regions, ← List.filterMap_eq_map, List.filterMap_filter, List.filterMap_filterMap]
  refine congrArg (List.filterMap · _) (funext fun segment => ?_)
  rw [ofSegment?_eq_bind]
  refine congrArg (Option.bind _) (funext fun (first, beyond) => ?_)
  have far : first < beyond - 1 ↔ first + 2 ≤ beyond := by omega
  simp [Fold.ofLines?, far]

theorem filterMap_ofComment? {stop : Nat} (covers : Piece.Covers 0 document.pieces.toList stop) :
    document.pieces.toList.filterMap (Fold.ofComment? (LineTable.ofSource document.source)) =
      document.comments := by
  rw [comments, ← List.filterMap_eq_map, List.filterMap_filter]
  apply List.filterMap_congr
  intro piece member
  have ordered := document.outerLines_le (covers.fits member)
  have proper : (document.outerLines piece).1 < (document.outerLines piece).2 ↔
      (document.outerLines piece).1 ≠ (document.outerLines piece).2 := by omega
  by_cases comment : piece.kind = .region .comment ∧ piece.closed = true
  · rw [outerLines] at proper
    simp [Fold.ofComment?, LineTable.lineAt_ofSource, Fold.ofLines?, outerLines, comment, proper]
  · have left_out : ¬(piece.kind = .region .comment ∧ piece.closed = true ∧
        (document.outerLines piece).1 ≠ (document.outerLines piece).2) := by
      rw [← and_assoc]
      exact fun reaching => comment reaching.1
    rw [Fold.ofComment?, if_neg comment, if_neg (by simpa using left_out)]

/-- Ranges are those of bodies and those of comments. -/
theorem folds_perm {stop : Nat} (covers : Piece.Covers 0 document.pieces.toList stop) :
    document.folds.Perm (document.regions ++ document.comments) := by
  rw [folds, ← filterMap_ofSegment?, ← filterMap_ofComment? covers, Statement.bodies,
    ← Statement.all_eq_forest]
  exact List.mergeSort_perm _ _

theorem kind_of_mem_regions {fold : Fold} (member : fold ∈ document.regions) :
    fold.kind = .region := by
  obtain ⟨_, _, rfl⟩ := List.mem_map.mp member
  rfl

theorem kind_of_mem_comments {fold : Fold} (member : fold ∈ document.comments) :
    fold.kind = .comment := by
  obtain ⟨_, _, rfl⟩ := List.mem_map.mp member
  rfl

theorem pairwise_folds : document.folds.Pairwise fun earlier later =>
    earlier.startLine < later.startLine ∨
      earlier.startLine = later.startLine ∧ later.endLine ≤ earlier.endLine :=
  (List.pairwise_mergeSort Fold.precedes_trans Fold.precedes_total _).imp Fold.precedes_iff.mp

/-- Pieces that come later begin on the same line or on a later one. -/
theorem lineOf_start_le {stop left right : Nat} {first second : Piece}
    (covers : Piece.Covers 0 document.pieces.toList stop) (ordered : left ≤ right)
    (left_found : document.pieces[left]? = some first)
    (right_found : document.pieces[right]? = some second) :
    document.source.lineOf first.span.start ≤ document.source.lineOf second.span.start := by
  rcases Nat.eq_or_lt_of_le ordered with rfl | earlier
  · obtain rfl : first = second := Option.some.inj (left_found.symm.trans right_found)
    exact Nat.le_refl _
  · rw [← Array.getElem?_toList] at left_found right_found
    obtain ⟨left_inside, rfl⟩ := List.getElem?_eq_some_iff.mp left_found
    obtain ⟨right_inside, rfl⟩ := List.getElem?_eq_some_iff.mp right_found
    have apart := List.pairwise_iff_getElem.mp covers.pairwise _ _ left_inside right_inside earlier
    have filled := (covers.fits (List.getElem_mem left_inside)).start_lt
    exact Source.lineOf_le (Nat.le_trans (Nat.le_of_lt filled) apart)

theorem exists_lines_of_mem_regions {fold : Fold} (member : fold ∈ document.regions) :
    ∃ segment ∈ Statement.bodies document.statements, ∃ first beyond,
      document.linesAround? segment = some (first, beyond) ∧ first + 2 ≤ beyond ∧
        fold = ⟨first, beyond - 1, .region⟩ := by
  obtain ⟨⟨first, beyond⟩, kept, rfl⟩ := List.mem_map.mp member
  obtain ⟨listed, far⟩ := List.mem_filter.mp kept
  obtain ⟨segment, within, lines⟩ := List.mem_filterMap.mp listed
  exact ⟨segment, within, first, beyond, lines, of_decide_eq_true far, rfl⟩

/-- Of the ranges of two bodies that do not cross, one holds the other, or one ends before the other
begins. -/
theorem nested_or_apart_of_uncrossed {stop : Nat} {left right : Segment}
    {left_first left_beyond right_first right_beyond : Nat}
    (covers : Piece.Covers 0 document.pieces.toList stop) (uncrossed : left.Uncrossed right)
    (left_lines : document.linesAround? left = some (left_first, left_beyond))
    (right_lines : document.linesAround? right = some (right_first, right_beyond)) :
    left_beyond ≤ right_first ∨ right_beyond ≤ left_first ∨
      left_first ≤ right_first ∧ right_beyond ≤ left_beyond ∨
        right_first ≤ left_first ∧ left_beyond ≤ right_beyond := by
  obtain ⟨left_opening, left_close, left_closing, left_opens, left_closed, left_closes, rfl, rfl⟩ :=
    linesAround?_eq_some_iff.mp left_lines
  obtain ⟨right_opening, right_close, right_closing, right_opens, right_closed, right_closes, rfl,
    rfl⟩ := linesAround?_eq_some_iff.mp right_lines
  rcases uncrossed left_close left_closed right_close right_closed with
    before | after | ⟨opens, closes⟩ | ⟨opens, closes⟩
  · exact .inl (lineOf_start_le covers before left_closes right_opens)
  · exact .inr (.inl (lineOf_start_le covers after right_closes left_opens))
  · exact .inr (.inr (.inl ⟨lineOf_start_le covers opens left_opens right_opens,
      lineOf_start_le covers closes right_closes left_closes⟩))
  · exact .inr (.inr (.inr ⟨lineOf_start_le covers opens right_opens left_opens,
      lineOf_start_le covers closes left_closes right_closes⟩))

/-- Where pieces ascend, the ranges of two bodies are nested or share no line. -/
theorem nested_or_apart_of_mem_regions {stop : Nat} {left right : Fold}
    (covers : Piece.Covers 0 document.pieces.toList stop)
    (sorted : (Statement.piecesOf document.statements).Pairwise (· < ·))
    (left_member : left ∈ document.regions) (right_member : right ∈ document.regions) :
    (∀ line, left.Holds line → right.Holds line) ∨ (∀ line, right.Holds line → left.Holds line) ∨
      ∀ line, ¬(left.Holds line ∧ right.Holds line) := by
  obtain ⟨left_body, left_within, left_first, left_beyond, left_lines, left_far, rfl⟩ :=
    exists_lines_of_mem_regions left_member
  obtain ⟨right_body, right_within, right_first, right_beyond, right_lines, right_far, rfl⟩ :=
    exists_lines_of_mem_regions right_member
  have uncrossed := Statement.uncrossed_of_mem_bodies sorted left_within right_within
  simp only [Fold.Holds]
  rcases nested_or_apart_of_uncrossed covers uncrossed left_lines right_lines with
    before | after | around | inside
  · exact .inr (.inr fun line shared => by omega)
  · exact .inr (.inr fun line shared => by omega)
  · exact .inr (.inl fun line held => by omega)
  · exact .inl fun line held => by omega

/-- Ranges have more than one line, and all their lines are there. -/
theorem bounds_of_mem_folds {stop : Nat} {fold : Fold}
    (covers : Piece.Covers 0 document.pieces.toList stop) (member : fold ∈ document.folds) :
    fold.startLine < fold.endLine ∧ fold.endLine < document.source.lineCount := by
  rcases List.mem_append.mp ((folds_perm covers).mem_iff.mp member) with region | comment
  · obtain ⟨segment, -, first, beyond, lines, far, rfl⟩ := exists_lines_of_mem_regions region
    obtain ⟨-, -, closing, -, -, -, -, rfl⟩ := linesAround?_eq_some_iff.mp lines
    have inside := document.source.lineOf_lt_lineCount closing.span.start
    dsimp only
    omega
  · obtain ⟨piece, kept, rfl⟩ := List.mem_map.mp comment
    have among := List.mem_of_mem_filter kept
    have reaching : (document.outerLines piece).1 ≠ (document.outerLines piece).2 :=
      (of_decide_eq_true (List.mem_filter.mp kept).2).2.2
    exact ⟨Nat.lt_of_le_of_ne (document.outerLines_le (covers.fits among)) reaching,
      document.source.lineOf_lt_lineCount _⟩

theorem perm_regions {stop : Nat} (covers : Piece.Covers 0 document.pieces.toList stop) :
    (document.folds.filter (·.kind = .region)).Perm document.regions := by
  have kept := (folds_perm covers).filter (·.kind = .region)
  rwa [List.filter_append, Fold.filter_kind_eq_self fun _ => kind_of_mem_regions,
    Fold.filter_kind_eq_nil (fun _ => kind_of_mem_comments)
      (by decide : FoldKind.comment ≠ .region), List.append_nil] at kept

theorem perm_comments {stop : Nat} (covers : Piece.Covers 0 document.pieces.toList stop) :
    (document.folds.filter (·.kind = .comment)).Perm document.comments := by
  have kept := (folds_perm covers).filter (·.kind = .comment)
  rwa [List.filter_append, Fold.filter_kind_eq_nil (fun _ => kind_of_mem_regions)
      (by decide : FoldKind.region ≠ .comment),
    Fold.filter_kind_eq_self fun _ => kind_of_mem_comments, List.nil_append] at kept

end Lines

/-- The pieces around a body that is ended are there. -/
theorem isSome_linesAround? {options : Options} {source : Source} {segment : Segment}
    (member : segment ∈ Statement.bodies (parse options source).statements) :
    ((parse options source).linesAround? segment).isSome = segment.closePiece.isSome := by
  have inside : ∀ index ∈ segment.pieces,
      ∃ piece, (parse options source).pieces[index]? = some piece := by
    intro index listed
    have mentioned := (Statement.sublist_piecesOf_of_mem_bodies member).subset listed
    have bounded : index < (parse options source).pieces.toList.length := by
      apply Tree.lt_length_of_mem_piecesOf (some Tree.nestingLimit) options source
      rw [← Tree.statements_build]
      exact mentioned
    exact ⟨_, Array.getElem?_eq_getElem (by simpa using bounded)⟩
  obtain ⟨opening, opens⟩ := inside _ (Statement.openPiece_mem_pieces segment)
  cases closed : segment.closePiece with
  | none => simp [linesAround?, closed]
  | some close =>
      obtain ⟨closing, closes⟩ := inside close (Statement.closePiece_mem_pieces closed)
      simp [linesAround?, closed, opens, closes]

/-- The foldable ranges of a template.  Each has more than one line and ends within the template;
they come in the order of their first lines, and of those that begin together the longer ones come
first.  There is one for each body that is ended two lines or more below the line on which it is
opened, and one for each closed comment on several lines.  The ranges of any two bodies are nested
or share no line. -/
theorem folds_of_bodies_and_comments (options : Options) (source : Source) :
    let document := parse options source
    (∀ fold ∈ document.folds,
      fold.startLine < fold.endLine ∧ fold.endLine < source.lineCount) ∧
    (document.folds.Pairwise fun earlier later => earlier.startLine < later.startLine ∨
      earlier.startLine = later.startLine ∧ later.endLine ≤ earlier.endLine) ∧
    (∀ segment ∈ Statement.bodies document.statements,
      (document.linesAround? segment).isSome = segment.closePiece.isSome) ∧
    (document.folds.filter (·.kind = .region)).Perm document.regions ∧
    (document.folds.filter (·.kind = .comment)).Perm document.comments ∧
    ∀ left ∈ document.folds, ∀ right ∈ document.folds,
      left.kind = .region → right.kind = .region →
        (∀ line, left.Holds line → right.Holds line) ∨
        (∀ line, right.Holds line → left.Holds line) ∨
        ∀ line, ¬(left.Holds line ∧ right.Holds line) := by
  intro document
  have covers : Piece.Covers 0 document.pieces.toList source.size :=
    Piece.covers_group_tokens source
  have sorted : (Statement.piecesOf document.statements).Pairwise (· < ·) :=
    Tree.pairwise_piecesOf_build _ options source _
  refine ⟨fun fold member => bounds_of_mem_folds covers member, pairwise_folds,
    fun segment member => isSome_linesAround? member, perm_regions covers, perm_comments covers, ?_⟩
  intro left left_member right right_member left_kind right_kind
  have region {fold : Fold} (member : fold ∈ document.folds) (kind : fold.kind = .region) :
      fold ∈ document.regions :=
    (perm_regions covers).mem_iff.mp (List.mem_filter.mpr ⟨member, decide_eq_true kind⟩)
  exact nested_or_apart_of_mem_regions covers sorted (region left_member left_kind)
    (region right_member right_kind)

example :
    let document := parse .default (Source.ofString
      "\x7b% if a %\x7d\n\x7b# b\nc #\x7d\n\x7b% else %\x7d\n\n\x7b% endif %\x7d")
    document.regions = [⟨0, 2, .region⟩, ⟨3, 4, .region⟩] ∧
      document.comments = [⟨1, 2, .comment⟩] := by
  decide +kernel

end Document
end TwigTemplate
