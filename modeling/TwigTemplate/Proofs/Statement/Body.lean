import TwigTemplate.Proofs.Statement.Everywhere
import TwigTemplate.Proofs.Statement.Segment

/-!
# Bodies of a template

Every body lies between two pieces.  A body that is not ended reaches as far as the body around it,
and so does everything inside it that is not ended either.
-/

namespace TwigTemplate

open Statement

/-- The piece lies after the one and before the other, where these are given. -/
def Between (opener limit : Option Nat) (piece : Nat) : Prop :=
  (∀ first ∈ opener, first < piece) ∧ ∀ last ∈ limit, piece < last

/-- The bodies of a template, each with the pieces between which it lies.  The template as a whole
lies between no pieces; a body without a closing piece ends where the body around it does. -/
inductive BodyOf (root : List Statement) : (opener limit : Option Nat) → List Statement → Prop
  /-- The template as a whole. -/
  | root : BodyOf root none none root
  /-- A body of a statement in a body. -/
  | segment {opener limit : Option Nat} {body : List Statement} {statement : Statement}
      {segment : Segment} (around : BodyOf root opener limit body) (member : statement ∈ body)
      (part : segment ∈ statement.segments) :
      BodyOf root (some segment.openPiece) (segment.closePiece.or limit) segment.body

namespace Statement

theorem body_of_mem_chain {kind : SegmentKind} {openPiece : Nat} {body : List Statement}
    {endPiece : Option Nat} {number : Nat} {branches : List (Branch Statement)} {segment : Segment}
    (member : segment ∈ chain kind openPiece body endPiece number branches) :
    segment.body = body ∨ ∃ branch ∈ branches, segment.body = branch.body := by
  induction branches generalizing kind openPiece body number with
  | nil =>
      obtain rfl := List.mem_singleton.mp member
      exact .inl rfl
  | cons branch branches ih =>
      rcases List.mem_cons.mp member with rfl | later
      · exact .inl rfl
      · rcases ih later with same | ⟨other, among, same⟩
        · exact .inr ⟨branch, List.mem_cons_self, same⟩
        · exact .inr ⟨other, List.mem_cons_of_mem _ among, same⟩

theorem body_subset_children {statement : Statement} {segment : Segment}
    (member : segment ∈ statement.segments) : segment.body ⊆ statement.children := by
  obtain ⟨piece, header, body, branches, endPiece, rfl⟩ := exists_construct_of_mem_segments member
  rw [segments_construct] at member
  rcases body_of_mem_chain member with same | ⟨branch, among, same⟩
  · rw [same]
    exact List.subset_append_left _ _
  · rw [same]
    intro child inside
    exact List.mem_append_right _ (List.mem_flatMap.mpr ⟨branch, among, inside⟩)

theorem lastOpen_of_mem_segments {statement : Statement} {segment : Segment}
    (member : segment ∈ statement.segments) (ended : statement.BodiesEnded) :
    LastOpen segment.body := by
  obtain ⟨piece, header, body, branches, endPiece, rfl⟩ := exists_construct_of_mem_segments member
  rw [segments_construct] at member
  rcases body_of_mem_chain member with same | ⟨branch, among, same⟩
  · exact same ▸ ended.1
  · exact same ▸ ended.2 branch among

end Statement

/-- What is known of every body of a tree: its pieces ascend between those around it, and only its
last statement may lack an end tag. -/
structure Orderly (opener limit : Option Nat) (body : List Statement) : Prop where
  /-- Pieces ascend. -/
  sorted : (piecesOf body).Pairwise (· < ·)
  /-- All pieces lie between those around the body. -/
  between : ∀ piece ∈ piecesOf body, Between opener limit piece
  /-- Only the last statement may lack an end tag. -/
  lastOpen : LastOpen body
  /-- So it is in all bodies inside. -/
  inside : ∀ statement ∈ body, statement.Everywhere BodiesEnded

namespace Orderly

variable {opener limit : Option Nat} {body : List Statement} {statement : Statement}
  {segment : Segment}

theorem tail (orderly : Orderly opener limit (statement :: body)) : Orderly opener limit body := by
  obtain ⟨sorted, between, lastOpen, inside⟩ := orderly
  rw [piecesOf_cons] at sorted between
  refine ⟨(List.pairwise_append.mp sorted).2.1, ?_, ?_, ?_⟩
  · exact fun piece member => between piece (List.mem_append_right _ member)
  · intro other member
    cases body with
    | nil => cases member
    | cons next rest => exact lastOpen other (List.mem_cons_of_mem _ member)
  · exact fun other member => inside other (List.mem_cons_of_mem _ member)

theorem sorted_statement (orderly : Orderly opener limit body) (member : statement ∈ body) :
    statement.pieces.Pairwise (· < ·) := by
  obtain ⟨before, after, rfl⟩ := List.append_of_mem member
  have sorted := orderly.sorted
  rw [piecesOf_append, piecesOf_cons] at sorted
  exact (List.pairwise_append.mp (List.pairwise_append.mp sorted).2.1).1

/-- A body inside an orderly one is orderly. -/
theorem of_segment (orderly : Orderly opener limit body) (member : statement ∈ body)
    (part : segment ∈ statement.segments) :
    Orderly (some segment.openPiece) (segment.closePiece.or limit) segment.body := by
  have everywhere := everywhere_iff.mp (orderly.inside statement member)
  have lastOpen := lastOpen_of_mem_segments part everywhere.1
  have children := body_subset_children part
  have listed := sublist_of_mem_segments part
  have sorted := (orderly.sorted_statement member).sublist listed
  rw [Segment.pieces, List.pairwise_cons, List.pairwise_append] at sorted
  refine ⟨sorted.2.1, ?_, lastOpen, fun child inside => everywhere.2 child (children inside)⟩
  intro piece inside
  constructor
  · rintro first ⟨⟩
    exact sorted.1 piece (List.mem_append_left _ inside)
  · cases closed : segment.closePiece with
    | some close =>
        rintro _ ⟨⟩
        exact sorted.2.2.2 piece inside close (by simp [closed])
    | none =>
        have mentioned : piece ∈ piecesOf body := pieces_subset_piecesOf member
          (listed.subset (List.mem_cons_of_mem _ (List.mem_append_left _ inside)))
        exact (orderly.between piece mentioned).2

/-- All bodies of an orderly template are orderly. -/
theorem of_bodyOf {root : List Statement} (orderly : Orderly none none root)
    (within : BodyOf root opener limit body) : Orderly opener limit body := by
  induction within with
  | root => exact orderly
  | segment around member part ih => exact ih.of_segment member part

theorem mentions_segment (member : statement ∈ body) (part : segment ∈ statement.segments) :
    segment.pieces ⊆ piecesOf body :=
  fun _ listed => pieces_subset_piecesOf member ((sublist_of_mem_segments part).subset listed)

/-- What lies in a body lies in the body around it. -/
theorem between_of_segment (orderly : Orderly opener limit body) (member : statement ∈ body)
    (part : segment ∈ statement.segments) {piece : Nat}
    (lies : Between (some segment.openPiece) (segment.closePiece.or limit) piece) :
    Between opener limit piece := by
  have mentioned := mentions_segment member part
  constructor
  · intro first opens
    have after_first := (orderly.between _ (mentioned List.mem_cons_self)).1 first opens
    exact Nat.lt_trans after_first (lies.1 _ rfl)
  · intro last ends
    cases closed : segment.closePiece with
    | none =>
        rw [closed] at lies
        exact lies.2 last ends
    | some close =>
        rw [closed] at lies
        have listed : close ∈ segment.pieces := by simp [Segment.pieces, closed]
        exact Nat.lt_trans (lies.2 close rfl) ((orderly.between _ (mentioned listed)).2 last ends)

theorem startPiece_lt {before after : List Statement} {other : Statement} {piece : Nat}
    (orderly : Orderly opener limit (before ++ statement :: after)) (member : other ∈ before)
    (mentioned : piece ∈ other.pieces) : piece < statement.startPiece := by
  have sorted := orderly.sorted
  rw [piecesOf_append, List.pairwise_append] at sorted
  refine sorted.2.2 piece (pieces_subset_piecesOf member mentioned) _ ?_
  rw [piecesOf_cons]
  exact List.mem_append_left _ (startPiece_mem_pieces statement)

/-- The bodies of a statement end before the next statement begins. -/
theorem exists_close_lt {before after : List Statement} {other : Statement}
    (orderly : Orderly opener limit (before ++ statement :: after)) (member : other ∈ before)
    (part : segment ∈ other.segments) :
    ∃ close, segment.closePiece = some close ∧ close < statement.startPiece := by
  have inner : other ∈ (before ++ statement :: after).dropLast := by
    rw [List.dropLast_append_of_ne_nil (List.cons_ne_nil _ _)]
    exact List.mem_append_left _ member
  have ended := orderly.lastOpen other inner
  have sorted := orderly.sorted_statement (List.mem_append_left _ member)
  obtain ⟨piece, header, body, branches, endPiece, rfl⟩ := exists_construct_of_mem_segments part
  obtain ⟨stop, rfl⟩ := Option.isSome_iff_exists.mp ended
  obtain ⟨close, closed, bound⟩ := exists_close_of_mem_segments sorted rfl part
  exact ⟨close, closed,
    Nat.lt_of_le_of_lt bound (orderly.startPiece_lt member (endPiece_mem_pieces rfl))⟩

end Orderly
end TwigTemplate
