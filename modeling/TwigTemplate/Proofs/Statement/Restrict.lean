import TwigTemplate.Proofs.Statement.Segment

/-!
# Restricting a tree to the pieces before a point

What statements would be if the template ended before a piece: later statements and branches are
left out, and constructs that are ended later have no end piece.
-/

namespace TwigTemplate
namespace Statement

mutual

/-- What is left of a statement that begins before the piece `index`. -/
def restrict (index : Nat) : Statement → Statement
  | .leaf piece content => .leaf piece content
  | .construct piece header body branches endPiece =>
    .construct piece header (restrictAll index body) (restrictBranches index branches)
      (endPiece.filter (· < index))

/-- What is left of a list of statements before the piece `index`. -/
def restrictAll (index : Nat) : List Statement → List Statement
  | [] => []
  | statement :: statements =>
    if statement.startPiece < index then
      restrict index statement :: restrictAll index statements
    else restrictAll index statements

/-- What is left of a list of branches before the piece `index`. -/
def restrictBranches (index : Nat) : List (Branch Statement) → List (Branch Statement)
  | [] => []
  | ⟨kind, piece, body⟩ :: branches =>
    if piece < index then
      ⟨kind, piece, restrictAll index body⟩ :: restrictBranches index branches
    else restrictBranches index branches

end

section Restrict

variable {index : Nat} {statement : Statement} {statements : List Statement}

@[simp]
theorem startPiece_restrict (index : Nat) (statement : Statement) :
    (restrict index statement).startPiece = statement.startPiece := by
  cases statement <;> rfl

@[simp]
theorem hasBody_restrict (index : Nat) (statement : Statement) :
    (restrict index statement).hasBody = statement.hasBody := by
  cases statement <;> rfl

theorem endPiece?_restrict (index : Nat) (statement : Statement) :
    (restrict index statement).endPiece? = statement.endPiece?.filter (· < index) := by
  cases statement <;> rfl

@[simp]
theorem restrictAll_nil (index : Nat) : restrictAll index [] = [] := rfl

theorem restrictAll_cons_of_lt (early : statement.startPiece < index)
    (statements : List Statement) :
    restrictAll index (statement :: statements) =
      restrict index statement :: restrictAll index statements := by
  rw [restrictAll, if_pos early]

theorem restrictAll_cons_of_le (late : index ≤ statement.startPiece)
    (statements : List Statement) :
    restrictAll index (statement :: statements) = restrictAll index statements := by
  rw [restrictAll, if_neg (Nat.not_lt.mpr late)]

theorem restrictAll_singleton_congr {left right : Statement}
    (same_start : left.startPiece = right.startPiece)
    (same : restrict index left = restrict index right) :
    restrictAll index [left] = restrictAll index [right] := by
  simp [restrictAll, same_start, same]

@[simp]
theorem restrictAll_append (index : Nat) (left right : List Statement) :
    restrictAll index (left ++ right) = restrictAll index left ++ restrictAll index right := by
  induction left with
  | nil => rfl
  | cons statement left ih =>
      rw [List.cons_append, restrictAll, restrictAll, ih]
      split <;> rfl

@[simp]
theorem restrictBranches_nil (index : Nat) : restrictBranches index [] = [] := rfl

theorem restrictBranches_cons (index : Nat) (branch : Branch Statement)
    (branches : List (Branch Statement)) :
    restrictBranches index (branch :: branches) =
      (if branch.piece < index then [{ branch with body := restrictAll index branch.body }]
        else []) ++ restrictBranches index branches := by
  rw [restrictBranches.eq_def]
  dsimp only
  split <;> rfl

@[simp]
theorem restrictBranches_append (index : Nat) (left right : List (Branch Statement)) :
    restrictBranches index (left ++ right) =
      restrictBranches index left ++ restrictBranches index right := by
  induction left with
  | nil => rfl
  | cons branch left ih =>
      rw [List.cons_append, restrictBranches_cons, restrictBranches_cons, ih, List.append_assoc]

theorem mem_restrictAll_iff {part : Statement} :
    part ∈ restrictAll index statements ↔
      ∃ statement ∈ statements, statement.startPiece < index ∧
        restrict index statement = part := by
  induction statements with
  | nil => simp
  | cons statement statements ih =>
      rw [restrictAll]
      split
      · rename_i early
        simp [ih, early, eq_comm]
      · rename_i late
        simp [ih, late]

theorem mem_restrictBranches_iff {part : Branch Statement} {branches : List (Branch Statement)} :
    part ∈ restrictBranches index branches ↔
      ∃ branch ∈ branches, branch.piece < index ∧
        { branch with body := restrictAll index branch.body } = part := by
  induction branches with
  | nil => simp
  | cons branch branches ih =>
      rw [restrictBranches_cons, List.mem_append, ih]
      split
      · rename_i early
        simp [early, eq_comm]
      · rename_i late
        simp [late]

end Restrict

/-! ### Pieces of what is left -/

mutual

theorem sublist_pieces_restrict (index : Nat) : ∀ statement : Statement,
    (restrict index statement).pieces.Sublist statement.pieces
  | .leaf _ _ => List.Sublist.refl _
  | .construct piece header body branches endPiece => by
    have ends : (endPiece.filter (· < index)).toList.Sublist endPiece.toList := by
      cases endPiece with
      | none => exact List.Sublist.refl _
      | some stop =>
          rw [Option.filter_some]
          split
          · exact List.Sublist.refl _
          · exact List.nil_sublist _
    rw [restrict, pieces_construct, pieces_construct, chainPieces, chainPieces]
    exact ((sublist_piecesOf_restrictAll index body).append
      ((sublist_pieces_restrictBranches index branches).append ends)).cons_cons piece

/-- What is left mentions its pieces in the same order. -/
theorem sublist_piecesOf_restrictAll (index : Nat) : ∀ statements : List Statement,
    (piecesOf (restrictAll index statements)).Sublist (piecesOf statements)
  | [] => List.Sublist.refl _
  | statement :: statements => by
    rw [restrictAll, piecesOf_cons]
    split
    · rw [piecesOf_cons]
      exact (sublist_pieces_restrict index statement).append
        (sublist_piecesOf_restrictAll index statements)
    · exact (sublist_piecesOf_restrictAll index statements).trans (List.sublist_append_right _ _)

theorem sublist_pieces_restrictBranches (index : Nat) : ∀ branches : List (Branch Statement),
    ((branchMentions (restrictBranches index branches)).map (·.piece)).Sublist
      ((branchMentions branches).map (·.piece))
  | [] => List.Sublist.refl _
  | ⟨kind, piece, body⟩ :: branches => by
    have rest := sublist_pieces_restrictBranches index branches
    rw [restrictBranches, branchMentions_cons, List.cons_append, List.map_cons, List.map_append]
    split
    · rw [branchMentions_cons, List.cons_append, List.map_cons, List.map_append]
      exact ((sublist_piecesOf_restrictAll index body).append rest).cons_cons piece
    · exact (rest.trans (List.sublist_append_right _ _)).cons piece

end

/-! ### Segments of what is left -/

section Segments

variable {index : Nat}

/-- What is left of a segment that begins before the piece `index`. -/
def restrictSegment (index : Nat) (segment : Segment) : Segment :=
  { segment with
    closePiece := segment.closePiece.filter (· < index)
    body := restrictAll index segment.body }

/-- Nothing is left of branches that come later. -/
theorem restrictBranches_of_forall_le {branches : List (Branch Statement)}
    (late : ∀ branch ∈ branches, index ≤ branch.piece) : restrictBranches index branches = [] := by
  induction branches with
  | nil => rfl
  | cons branch branches ih =>
      rw [List.forall_mem_cons] at late
      rw [restrictBranches_cons, if_neg (Nat.not_lt.mpr late.1), ih late.2, List.append_nil]

theorem piece_mem_chainPieces {openPiece : Nat} {body : List Statement} {endPiece : Option Nat}
    {branch : Branch Statement} {branches : List (Branch Statement)} (member : branch ∈ branches) :
    branch.piece ∈ chainPieces openPiece body endPiece branches := by
  obtain ⟨before, after, rfl⟩ := List.append_of_mem member
  simp [chainPieces, Mention.mark]

/-- The segments that begin early enough are the segments of what is left. -/
theorem chain_restrict {kind : SegmentKind} {openPiece number : Nat} {body : List Statement}
    {endPiece : Option Nat} {branches : List (Branch Statement)}
    (sorted : (chainPieces openPiece body endPiece branches).Pairwise (· < ·))
    (early : openPiece < index) :
    chain kind openPiece (restrictAll index body) (endPiece.filter (· < index)) number
        (restrictBranches index branches) =
      ((chain kind openPiece body endPiece number branches).filter (·.openPiece < index)).map
        (restrictSegment index) := by
  induction branches generalizing kind openPiece number body with
  | nil => simp [chain, early, restrictSegment]
  | cons branch branches ih =>
      rw [chainPieces_cons] at sorted
      have sorted_rest := (List.pairwise_append.mp (List.pairwise_cons.mp sorted).2).2.1
      rw [restrictBranches_cons, chain, List.filter_cons_of_pos (by simpa using early),
        List.map_cons]
      split
      · rename_i early_branch
        rw [List.singleton_append, chain, ih sorted_rest early_branch]
        simp [restrictSegment, Option.filter_some, early_branch]
      · rename_i late_branch
        rw [Nat.not_lt] at late_branch
        have later : ∀ piece ∈ chainPieces branch.piece branch.body endPiece branches,
            index ≤ piece := by
          intro piece member
          rcases List.mem_cons.mp member with rfl | member
          · exact late_branch
          · exact Nat.le_trans late_branch
              (Nat.le_of_lt ((List.pairwise_cons.mp sorted_rest).1 piece member))
        have left_out : ∀ (kind : SegmentKind) (number : Nat),
            (chain kind branch.piece branch.body endPiece number branches).filter
              (·.openPiece < index) = [] := by
          intro kind number
          rw [List.filter_eq_nil_iff]
          intro segment member
          have listed := (sublist_of_mem_chain member).subset List.mem_cons_self
          simpa using later _ listed
        have unended : endPiece.filter (· < index) = none := by
          rw [Option.filter_eq_none_iff]
          intro stop ended
          simpa using later stop (by simp [chainPieces, ended])
        have branches_left_out := restrictBranches_of_forall_le fun other member =>
          later _ (piece_mem_chainPieces member)
        rw [branches_left_out, left_out, unended]
        simp [chain, restrictSegment, Option.filter_some, Nat.not_lt.mpr late_branch]

theorem segments_restrict {statement : Statement} (sorted : statement.pieces.Pairwise (· < ·))
    (early : statement.startPiece < index) :
    (restrict index statement).segments =
      (statement.segments.filter (·.openPiece < index)).map (restrictSegment index) := by
  cases statement with
  | leaf piece content => rfl
  | construct piece header body branches endPiece =>
      rw [pieces_construct] at sorted
      rw [restrict, segments_construct, segments_construct]
      exact chain_restrict sorted early

end Segments

/-! ### Nothing is left out when all pieces are earlier -/

mutual

theorem restrict_of_forall {index : Nat} : ∀ {statement : Statement},
    (∀ piece ∈ statement.pieces, piece < index) → restrict index statement = statement
  | .leaf _ _, _ => rfl
  | .construct piece header body branches endPiece, early => by
    rw [pieces_construct] at early
    have early_body : ∀ piece ∈ piecesOf body, piece < index := by
      intro piece member
      exact early piece (by simp [chainPieces, member])
    have early_branches : ∀ piece ∈ (branchMentions branches).map (·.piece), piece < index := by
      intro piece member
      exact early piece (List.mem_cons_of_mem _
        (List.mem_append_right _ (List.mem_append_left _ member)))
    have early_end : endPiece.filter (· < index) = endPiece := by
      cases endPiece with
      | none => rfl
      | some stop => simp [early stop (by simp [chainPieces])]
    rw [restrict, restrictAll_of_forall early_body, restrictBranches_of_forall early_branches,
      early_end]

theorem restrictAll_of_forall {index : Nat} : ∀ {statements : List Statement},
    (∀ piece ∈ piecesOf statements, piece < index) → restrictAll index statements = statements
  | [], _ => rfl
  | statement :: statements, early => by
    rw [piecesOf_cons] at early
    rw [restrictAll_cons_of_lt
        (early _ (List.mem_append_left _ (startPiece_mem_pieces statement))),
      restrict_of_forall fun piece member => early piece (List.mem_append_left _ member),
      restrictAll_of_forall fun piece member => early piece (List.mem_append_right _ member)]

theorem restrictBranches_of_forall {index : Nat} : ∀ {branches : List (Branch Statement)},
    (∀ piece ∈ (branchMentions branches).map (·.piece), piece < index) →
      restrictBranches index branches = branches
  | [], _ => rfl
  | ⟨kind, piece, body⟩ :: branches, early => by
    simp only [branchMentions_cons, Mention.mark, List.map_cons, List.map_append,
      List.cons_append, List.forall_mem_cons, List.forall_mem_append] at early
    obtain ⟨early_piece, early_body, early_rest⟩ := early
    rw [restrictBranches_cons, if_pos early_piece, restrictAll_of_forall early_body,
      restrictBranches_of_forall early_rest]
    rfl

end

end Statement
end TwigTemplate
