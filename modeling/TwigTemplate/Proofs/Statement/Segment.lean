import TwigTemplate.Proofs.Statement.Mention

/-!
# Segments of statements

The bodies of a construct lie between the pieces that the construct mentions: each after the piece
that opens it, and before the piece that opens the next one or that ends the construct.
-/

namespace TwigTemplate
namespace Statement

/-- Indices of the pieces that a statement mentions. -/
def pieces (statement : Statement) : List Nat := statement.mentions.map (·.piece)

/-- Indices of the pieces that a list of statements mentions. -/
def piecesOf (statements : List Statement) : List Nat := (mentionsOf statements).map (·.piece)

@[simp]
theorem piecesOf_nil : piecesOf [] = [] := rfl

@[simp]
theorem piecesOf_cons (statement : Statement) (statements : List Statement) :
    piecesOf (statement :: statements) = statement.pieces ++ piecesOf statements := by
  simp [piecesOf, pieces]

@[simp]
theorem piecesOf_append (left right : List Statement) :
    piecesOf (left ++ right) = piecesOf left ++ piecesOf right := by
  simp [piecesOf]

theorem pieces_subset_piecesOf {statement : Statement} {statements : List Statement}
    (member : statement ∈ statements) : statement.pieces ⊆ piecesOf statements := by
  obtain ⟨before, after, rfl⟩ := List.append_of_mem member
  simp

theorem startPiece_mem_pieces (statement : Statement) :
    statement.startPiece ∈ statement.pieces := by
  cases statement with
  | leaf piece content => exact List.mem_singleton_self piece
  | construct piece header body branches endPiece => exact List.mem_cons_self

theorem startPiece_le {statement : Statement} (sorted : statement.pieces.Pairwise (· < ·))
    {piece : Nat} (member : piece ∈ statement.pieces) : statement.startPiece ≤ piece := by
  cases statement with
  | leaf start content => exact Nat.le_of_eq (List.mem_singleton.mp member).symm
  | construct start header body branches endPiece =>
      rcases List.mem_cons.mp member with rfl | later
      · exact Nat.le_refl _
      · exact Nat.le_of_lt ((List.pairwise_cons.mp sorted).1 piece later)

/-! ## Segments as a chain -/

/-- The segments from the one that `openPiece` opens on; the next branch has a number. -/
def chain (kind : SegmentKind) (openPiece : Nat) (body : List Statement) (endPiece : Option Nat) :
    (number : Nat) → List (Branch Statement) → List Segment
  | _, [] => [⟨kind, openPiece, endPiece, body⟩]
  | number, branch :: branches =>
    ⟨kind, openPiece, some branch.piece, body⟩ ::
      chain (if branch.kind.isOtherwise then .otherwise else .elseIf number) branch.piece
        branch.body endPiece (number + 1) branches

theorem chain_eq_zip (kind : SegmentKind) (openPiece : Nat) (body : List Statement)
    (endPiece : Option Nat) (number : Nat) (branches : List (Branch Statement)) :
    chain kind openPiece body endPiece number branches =
      ((((kind, openPiece, body) :: (branches.zipIdx number).map fun (branch, number) =>
        (if branch.kind.isOtherwise then .otherwise else .elseIf number, branch.piece,
          branch.body)).zip (branches.map (some ·.piece) ++ [endPiece])).map
        fun ((kind, openPiece, body), closePiece) =>
          (⟨kind, openPiece, closePiece, body⟩ : Segment)) := by
  induction branches generalizing kind openPiece body number with
  | nil => rfl
  | cons branch branches ih => simp [chain, ih]

theorem segments_construct (piece : Nat) (header : Construct) (body : List Statement)
    (branches : List (Branch Statement)) (endPiece : Option Nat) :
    (construct piece header body branches endPiece).segments =
      chain .main piece body endPiece 0 branches := by
  rw [chain_eq_zip]
  rfl

/-- The pieces of a chain of segments. -/
def chainPieces (openPiece : Nat) (body : List Statement) (endPiece : Option Nat)
    (branches : List (Branch Statement)) : List Nat :=
  openPiece :: (piecesOf body ++ ((branchMentions branches).map (·.piece) ++ endPiece.toList))

theorem pieces_construct (piece : Nat) (header : Construct) (body : List Statement)
    (branches : List (Branch Statement)) (endPiece : Option Nat) :
    (construct piece header body branches endPiece).pieces =
      chainPieces piece body endPiece branches := by
  cases endPiece <;> simp [pieces, mentions, chainPieces, piecesOf, Mention.mark]

theorem chainPieces_cons (openPiece : Nat) (body : List Statement) (endPiece : Option Nat)
    (branch : Branch Statement) (branches : List (Branch Statement)) :
    chainPieces openPiece body endPiece (branch :: branches) =
      openPiece :: (piecesOf body ++ chainPieces branch.piece branch.body endPiece branches) := by
  simp [chainPieces, piecesOf, Mention.mark]

end Statement

/-- A body and the pieces around it, in order. -/
def Segment.pieces (segment : Segment) : List Nat :=
  segment.openPiece :: (Statement.piecesOf segment.body ++ segment.closePiece.toList)

namespace Statement

section Chain

variable {kind : SegmentKind} {openPiece : Nat} {body : List Statement} {endPiece : Option Nat}
  {number : Nat} {branches : List (Branch Statement)}

theorem sublist_of_mem_chain {segment : Segment}
    (member : segment ∈ chain kind openPiece body endPiece number branches) :
    segment.pieces.Sublist (chainPieces openPiece body endPiece branches) := by
  induction branches generalizing kind openPiece body number with
  | nil =>
      obtain rfl := List.mem_singleton.mp member
      simp [Segment.pieces, chainPieces]
  | cons branch branches ih =>
      rw [chainPieces_cons]
      rcases List.mem_cons.mp member with rfl | later
      · apply List.Sublist.cons_cons
        apply List.Sublist.append_left
        simp [chainPieces]
      · apply List.Sublist.cons
        exact (ih later).trans (List.sublist_append_right _ _)

/-- The bodies of an ended construct are ended, at the latest by its end tag. -/
theorem exists_close_of_mem_chain {segment : Segment} {stop : Nat}
    (sorted : (chainPieces openPiece body (some stop) branches).Pairwise (· < ·))
    (member : segment ∈ chain kind openPiece body (some stop) number branches) :
    ∃ close, segment.closePiece = some close ∧ close ≤ stop := by
  induction branches generalizing kind openPiece body number with
  | nil =>
      obtain rfl := List.mem_singleton.mp member
      exact ⟨stop, rfl, Nat.le_refl _⟩
  | cons branch branches ih =>
      rw [chainPieces_cons] at sorted
      have sorted_rest := (List.pairwise_append.mp (List.pairwise_cons.mp sorted).2).2.1
      rcases List.mem_cons.mp member with rfl | later
      · refine ⟨branch.piece, rfl, ?_⟩
        rw [chainPieces, List.pairwise_cons] at sorted_rest
        exact Nat.le_of_lt (sorted_rest.1 stop (by simp))
      · exact ih sorted_rest later

/-- A segment ends before the next one begins, or where it does. -/
theorem pairwise_chain
    (sorted : (chainPieces openPiece body endPiece branches).Pairwise (· < ·)) :
    (chain kind openPiece body endPiece number branches).Pairwise fun earlier later =>
      ∃ close, earlier.closePiece = some close ∧ close ≤ later.openPiece := by
  induction branches generalizing kind openPiece body number with
  | nil => exact List.pairwise_singleton _ _
  | cons branch branches ih =>
      rw [chainPieces_cons] at sorted
      have sorted_rest := (List.pairwise_append.mp (List.pairwise_cons.mp sorted).2).2.1
      refine List.pairwise_cons.mpr ⟨?_, ih sorted_rest⟩
      intro later member
      refine ⟨branch.piece, rfl, ?_⟩
      have listed : later.openPiece ∈
          chainPieces branch.piece branch.body endPiece branches :=
        (sublist_of_mem_chain member).subset List.mem_cons_self
      rcases List.mem_cons.mp listed with same | inside
      · exact Nat.le_of_eq same.symm
      · exact Nat.le_of_lt ((List.pairwise_cons.mp sorted_rest).1 _ inside)

end Chain

section Segments

variable {statement : Statement} {segment : Segment}

theorem exists_construct_of_mem_segments (member : segment ∈ statement.segments) :
    ∃ piece header body branches endPiece,
      statement = construct piece header body branches endPiece := by
  cases statement with
  | leaf piece content => cases member
  | construct piece header body branches endPiece => exact ⟨_, _, _, _, _, rfl⟩

/-- A body and the pieces around it are mentioned in order. -/
theorem sublist_of_mem_segments (member : segment ∈ statement.segments) :
    segment.pieces.Sublist statement.pieces := by
  obtain ⟨piece, header, body, branches, endPiece, rfl⟩ := exists_construct_of_mem_segments member
  rw [segments_construct] at member
  rw [pieces_construct]
  exact sublist_of_mem_chain member

theorem exists_close_of_mem_segments {stop : Nat} (sorted : statement.pieces.Pairwise (· < ·))
    (ended : statement.endPiece? = some stop) (member : segment ∈ statement.segments) :
    ∃ close, segment.closePiece = some close ∧ close ≤ stop := by
  obtain ⟨piece, header, body, branches, endPiece, rfl⟩ := exists_construct_of_mem_segments member
  obtain rfl : endPiece = some stop := ended
  rw [segments_construct] at member
  rw [pieces_construct] at sorted
  exact exists_close_of_mem_chain sorted member

theorem pairwise_segments (sorted : statement.pieces.Pairwise (· < ·)) :
    statement.segments.Pairwise fun earlier later =>
      ∃ close, earlier.closePiece = some close ∧ close ≤ later.openPiece := by
  cases statement with
  | leaf piece content => exact List.Pairwise.nil
  | construct piece header body branches endPiece =>
      rw [segments_construct]
      rw [pieces_construct] at sorted
      exact pairwise_chain sorted

/-- The end tag is the last piece of a construct. -/
theorem endPiece_mem_pieces {stop : Nat} (ended : statement.endPiece? = some stop) :
    stop ∈ statement.pieces := by
  cases statement with
  | leaf piece content => cases ended
  | construct piece header body branches endPiece =>
      obtain rfl : endPiece = some stop := ended
      rw [pieces_construct]
      simp [chainPieces]

end Segments
end Statement
end TwigTemplate
