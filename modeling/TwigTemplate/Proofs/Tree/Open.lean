import TwigTemplate.Proofs.Statement.Forest
import TwigTemplate.Proofs.Tree.Ended
import TwigTemplate.Proofs.Tree.Stray

/-!
# What is open at a piece

Which constructs are open before a piece can be told from the finished tree: those that begin before
it, of which neither they nor any construct around them end before it.  They are the open constructs
of the reading at that point, so end tags and branches go to the innermost one of them that admits
them.
-/

namespace TwigTemplate

namespace Statement

/-- What opens the statement, if it is a construct. -/
def header? : Statement → Option Construct
  | leaf _ _ => none
  | construct _ header _ _ _ => some header

/-- The keyword of a construct. -/
def keyword? (statement : Statement) : Option String := statement.header?.map Construct.keyword

/-- The branches of a construct. -/
def branches : Statement → List (Branch Statement)
  | leaf _ _ => []
  | construct _ _ _ branches _ => branches

/-- The construct begins before a piece, and neither it nor any statement around it ends before the
piece. -/
structure OpenBefore (index : Nat) (root : List Statement) (statement : Statement) : Prop where
  /-- It is a statement of the template. -/
  member : statement ∈ forest root
  /-- It owns bodies. -/
  owner : statement.hasBody = true
  /-- It begins before the piece. -/
  starts : statement.startPiece < index
  /-- Nothing ends it before the piece. -/
  unended : ∀ around ∈ forest root, statement ∈ subtree around →
    ∀ stop ∈ around.endPiece?, index ≤ stop

/-- Of the open constructs with a property, the one that begins last. -/
def InnermostOpen (index : Nat) (root : List Statement) (property : Statement → Prop)
    (statement : Statement) : Prop :=
  OpenBefore index root statement ∧ property statement ∧
    ∀ other, OpenBefore index root other → property other →
      other = statement ∨ other.startPiece < statement.startPiece

/-- The construct may have such a branch at a piece: it is one that accepts it, and it has no branch
for everything else before. -/
def AdmitsAt (index : Nat) (kind : BranchKind) (statement : Statement) : Prop :=
  (∃ header ∈ statement.header?, header.accepts kind = true) ∧
    ∀ branch ∈ statement.branches, branch.piece < index → branch.kind.isOtherwise = false

@[simp]
theorem header?_restrict (index : Nat) (statement : Statement) :
    (restrict index statement).header? = statement.header? := by
  cases statement <;> rfl

@[simp]
theorem keyword?_restrict (index : Nat) (statement : Statement) :
    (restrict index statement).keyword? = statement.keyword? := by
  rw [keyword?, header?_restrict, keyword?]

theorem branches_restrict (index : Nat) (statement : Statement) :
    (restrict index statement).branches = restrictBranches index statement.branches := by
  cases statement <;> rfl

/-- An ended statement holds no construct around which nothing ends. -/
theorem IsEnded.isSome_endPiece? {statement part : Statement} (ended : statement.IsEnded)
    (inside : part ∈ subtree statement) (owner : part.hasBody = true) :
    statement.endPiece?.isSome = true := by
  cases statement with
  | leaf piece content =>
      obtain rfl := List.mem_singleton.mp inside
      cases owner
  | construct piece header body branches endPiece => exact ended

end Statement

namespace Tree

open Statement

namespace Reading

/-- The open constructs as statements, innermost first, cut off around what the innermost body still
holds. -/
def nested : List Frame → List Statement → List Statement
  | [], _ => []
  | frame :: frames, inner =>
    (frame.pushAll inner).finish none :: nested frames [(frame.pushAll inner).finish none]

section Nested

variable {frames : List Frame} {inner : List Statement} {part : Statement}

theorem nested_append (left right : List Frame) (inner : List Statement) :
    nested (left ++ right) inner = nested left inner ++ nested right (nest left inner) := by
  induction left generalizing inner with
  | nil => rfl
  | cons frame left ih => rw [List.cons_append, nested, ih, nested, nest, List.cons_append]

theorem forest_subset_nest (frames : List Frame) (inner : List Statement) :
    forest inner ⊆ forest (nest frames inner) := by
  induction frames generalizing inner with
  | nil => exact List.Subset.refl _
  | cons frame frames ih =>
      refine List.Subset.trans ?_ (ih _)
      rw [forest_cons, forest_nil, List.append_nil, subtree_eq_cons, Frame.children_finish,
        Frame.contents_pushAll, forest_append]
      exact List.subset_cons_of_subset _ (List.subset_append_right _ _)

theorem nested_subset_forest (frames : List Frame) (inner : List Statement) :
    nested frames inner ⊆ forest (nest frames inner) := by
  induction frames generalizing inner with
  | nil => exact List.nil_subset _
  | cons frame frames ih =>
      refine List.cons_subset.mpr ⟨?_, ih _⟩
      exact forest_subset_nest frames _ (by simp [mem_subtree_self])

/-- Each open construct holds what is in the innermost body. -/
theorem mem_children_of_mem_nested (member : part ∈ nested frames inner) :
    forest inner ⊆ forest part.children := by
  induction frames generalizing inner with
  | nil => cases member
  | cons frame frames ih =>
      have here : forest inner ⊆ forest ((frame.pushAll inner).finish none).children := by
        rw [Frame.children_finish, Frame.contents_pushAll, forest_append]
        exact List.subset_append_right _ _
      rcases List.mem_cons.mp member with rfl | outer
      · exact here
      · refine List.Subset.trans here (List.Subset.trans ?_ (ih outer))
        rw [forest_cons, forest_nil, List.append_nil, subtree_eq_cons]
        exact List.subset_cons_self _ _

/-- What an open construct mentions comes last. -/
theorem exists_pieces_nest (frames : List Frame) (inner : List Statement) :
    ∃ before, piecesOf (nest frames inner) = before ++ piecesOf inner := by
  rw [piecesOf, mentionsOf_nest, List.map_append]
  exact ⟨_, rfl⟩

theorem exists_pieces_of_mem_nested (member : part ∈ nested frames inner) :
    ∃ before, piecesOf (nest frames inner) = before ++ part.pieces := by
  induction frames generalizing inner with
  | nil => cases member
  | cons frame frames ih =>
      rcases List.mem_cons.mp member with rfl | outer
      · obtain ⟨before, split⟩ := exists_pieces_nest frames [(frame.pushAll inner).finish none]
        exact ⟨before, by rw [nest, split, piecesOf_cons, piecesOf_nil, List.append_nil]⟩
      · exact ih outer

theorem exists_frame_of_mem_nested (member : part ∈ nested frames inner) :
    part.endPiece? = none ∧ part.hasBody = true ∧
      ∃ frame ∈ frames, part.header? = some frame.header ∧ part.startPiece = frame.piece := by
  induction frames generalizing inner with
  | nil => cases member
  | cons frame frames ih =>
      rcases List.mem_cons.mp member with rfl | outer
      · refine ⟨rfl, rfl, frame, List.mem_cons_self, ?_⟩
        simp [Frame.finish, header?, startPiece]
      · obtain ⟨unended, owner, other, among, same⟩ := ih outer
        exact ⟨unended, owner, other, List.mem_cons_of_mem _ among, same⟩

/-- A construct around which nothing ends is one of the open ones. -/
theorem mem_nested_of_unended
    (whole : ∀ frame ∈ frames, ∀ statement ∈ frame.contents, Whole statement)
    (owner : part.hasBody = true) (member : part ∈ forest (nest frames inner))
    (unended : ∀ around ∈ forest (nest frames inner), part ∈ subtree around →
      around.endPiece? = none) : part ∈ forest inner ∨ part ∈ nested frames inner := by
  induction frames generalizing inner with
  | nil => exact .inl member
  | cons frame frames ih =>
      rw [List.forall_mem_cons] at whole
      rcases ih whole.2 member unended with here | outer
      · rw [forest_cons, forest_nil, List.append_nil, subtree_eq_cons] at here
        rcases List.mem_cons.mp here with rfl | inside
        · exact .inr List.mem_cons_self
        rw [Frame.children_finish, Frame.contents_pushAll, forest_append] at inside
        rcases List.mem_append.mp inside with finished | further
        · -- what was finished before in this body holds no open construct
          obtain ⟨statement, among, within⟩ := mem_forest_iff.mp finished
          have ended := (whole.1 statement among).1.isSome_endPiece? within owner
          have listed : statement ∈ forest (nest (frame :: frames) inner) := by
            apply forest_subset_nest frames
            rw [forest_cons, forest_nil, List.append_nil, subtree_eq_cons, Frame.children_finish,
              Frame.contents_pushAll, forest_append]
            exact List.mem_cons_of_mem _ (List.mem_append_left _ (subset_forest _ among))
          rw [unended statement listed within] at ended
          cases ended
        · exact .inl further
      · exact .inr (List.mem_cons_of_mem _ outer)

end Nested

/-! ### The tree and the reading at a piece -/

/-- The tree is what has been read before the piece `index`, with more read after it. -/
structure ContinuedBy (reading : Reading) (index : Nat) (root : List Statement) : Prop where
  /-- The tree mentions pieces in order. -/
  sorted : (piecesOf root).Pairwise (· < ·)
  /-- What has been read is what is left of the tree before the piece. -/
  restricted : restrictAll index root = reading.statements
  /-- No open body ends with a construct that is cut off. -/
  settled : reading.Settled

theorem continuedBy_build (limit : Option Nat) (options : Options) (source : Source)
    (pieces further : List Piece) :
    (read limit options source pieces).ContinuedBy pieces.length
      (build limit options source (pieces ++ further)).statements where
  sorted := pairwise_piecesOf_build limit options source _
  restricted := by
    rw [statements_build]
    exact restrictAll_read_append limit options source pieces further
  settled := ended_invariant.settled_read limit options source pieces

namespace ContinuedBy

variable {index : Nat} {root : List Statement} {reading : Reading}
  (continued : reading.ContinuedBy index root) {statement other part : Statement}
include continued

theorem mem_forest_iff :
    part ∈ forest reading.statements ↔
      ∃ statement ∈ forest root, statement.startPiece < index ∧
        restrict index statement = part := by
  rw [← continued.restricted, mem_forest_restrictAll_iff continued.sorted]

theorem sorted_statements : (piecesOf reading.statements).Pairwise (· < ·) := by
  rw [← continued.restricted]
  exact continued.sorted.sublist (sublist_piecesOf_restrictAll index root)

theorem eq_of_startPiece_eq (member : statement ∈ forest root) (other_member : other ∈ forest root)
    (same : statement.startPiece = other.startPiece) : statement = other :=
  Statement.eq_of_startPiece_eq continued.sorted member other_member same

/-- What is open before a piece is what is open in the reading at that point. -/
theorem openBefore_iff :
    OpenBefore index root statement ↔
      statement ∈ forest root ∧ statement.startPiece < index ∧
        restrict index statement ∈ nested reading.stack [] := by
  have listed : ∀ {part : Statement}, part ∈ forest root → part.startPiece < index →
      restrict index part ∈ forest reading.statements := by
    exact fun member early => continued.mem_forest_iff.mpr ⟨_, member, early, rfl⟩
  constructor
  · rintro ⟨member, owner, starts, unended⟩
    have owner_left : (restrict index statement).hasBody = true := by
      rwa [hasBody_restrict]
    have unended_left : ∀ around ∈ forest reading.statements,
        restrict index statement ∈ subtree around → around.endPiece? = none := by
      intro around among inside
      obtain ⟨whole, whole_member, early, rfl⟩ := continued.mem_forest_iff.mp among
      rw [mem_subtree_restrict_iff continued.sorted member whole_member starts early] at inside
      rw [endPiece?_restrict, Option.filter_eq_none_iff]
      intro stop ends
      simpa using unended whole whole_member inside stop ends
    refine ⟨member, starts, ?_⟩
    have member_left := listed member starts
    rw [statements, forest_append] at member_left unended_left
    rcases List.mem_append.mp member_left with finished | inside
    · obtain ⟨around, among, within⟩ := Statement.mem_forest_iff.mp finished
      have whole := continued.settled.1 around (List.mem_reverse.mp among)
      have ended := whole.1.isSome_endPiece? within owner_left
      rw [unended_left around (List.mem_append_left _ (subset_forest _ among)) within] at ended
      cases ended
    · have unended_inside := fun around among =>
        unended_left around (List.mem_append_right _ among)
      have placed := mem_nested_of_unended continued.settled.2 owner_left inside unended_inside
      exact placed.resolve_left List.not_mem_nil
  · rintro ⟨member, starts, open_left⟩
    obtain ⟨unended_left, owner_left, -⟩ := exists_frame_of_mem_nested open_left
    refine ⟨member, by rwa [hasBody_restrict] at owner_left, starts, ?_⟩
    intro around among inside stop ends
    by_contra early_stop
    rw [Nat.not_le] at early_stop
    have starts_around := Nat.lt_of_le_of_lt
      (startPiece_le_of_mem_subtree (sorted_of_mem_forest continued.sorted among) inside) starts
    have inside_left :=
      (mem_subtree_restrict_iff continued.sorted member among starts starts_around).mpr inside
    have ends_left : (restrict index around).endPiece? = some stop := by
      rw [endPiece?_restrict, Option.mem_def.mp ends, Option.filter_some,
        if_pos (by simpa using early_stop)]
    have among_left := listed among starts_around
    have sorted_left := continued.sorted_statements
    rw [subtree_eq_cons] at inside_left
    rcases List.mem_cons.mp inside_left with same | within
    · rw [← same, unended_left] at ends_left
      cases ends_left
    -- what is open is mentioned last, so the end tag would have to be inside it
    have before_stop : ∀ piece ∈ (restrict index statement).pieces, piece < stop := fun _ =>
      lt_endPiece_of_mem_children (sorted_of_mem_forest sorted_left among_left) ends_left within
    have mentioned : stop ∈ piecesOf reading.statements :=
      (sublist_piecesOf_of_mem_forest among_left).subset (endPiece_mem_pieces ends_left)
    obtain ⟨before, last⟩ := exists_pieces_of_mem_nested open_left
    rw [statements, piecesOf_append, last, ← List.append_assoc] at mentioned sorted_left
    rcases List.mem_append.mp mentioned with earlier | later
    · have start_mentioned := startPiece_mem_pieces (restrict index statement)
      have passed := (List.pairwise_append.mp sorted_left).2.2 stop earlier _ start_mentioned
      exact Nat.lt_asymm passed (before_stop _ start_mentioned)
    · exact Nat.lt_irrefl _ (before_stop stop later)

end ContinuedBy

end Reading
end Tree
end TwigTemplate
