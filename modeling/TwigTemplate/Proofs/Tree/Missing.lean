import TwigTemplate.Proofs.Tree.Ended
import TwigTemplate.Proofs.Tree.Unclosed

/-!
# End tags that are missing

A construct that no end tag ends is cut off by the end of the next construct around that is ended,
or by the end of the template, and its end tag is missing there.  Listed with those inside a
construct before its own, the missing end tags are in the order in which reading cuts off the
constructs.
-/

namespace TwigTemplate

/-- An end tag that a construct lacks. -/
structure MissingEnd where
  /-- The piece that the end tag belongs before, or the number of pieces. -/
  before : Nat
  /-- The piece that opens the construct. -/
  opener : Nat
  /-- The keyword of the construct. -/
  keyword : String
  deriving DecidableEq, Repr

namespace Statement

mutual

/-- The end tags that a statement and the statements inside it lack, the innermost first, when the
piece `stop` ends what is around it. -/
def missing (stop : Nat) : Statement → List MissingEnd
  | .leaf _ _ => []
  | .construct piece header body branches endPiece =>
    missingAll (endPiece.getD stop) body ++ missingBranches (endPiece.getD stop) branches ++
      if endPiece.isNone then [⟨stop, piece, header.keyword⟩] else []

/-- The end tags that statements and the statements inside them lack. -/
def missingAll (stop : Nat) : List Statement → List MissingEnd
  | [] => []
  | statement :: statements => missing stop statement ++ missingAll stop statements

/-- The end tags that the statements in branches lack. -/
def missingBranches (stop : Nat) : List (Branch Statement) → List MissingEnd
  | [] => []
  | ⟨_, _, body⟩ :: branches => missingAll stop body ++ missingBranches stop branches

end

variable (stop : Nat)

@[simp]
theorem missingAll_nil : missingAll stop [] = [] := rfl

@[simp]
theorem missingAll_cons (statement : Statement) (statements : List Statement) :
    missingAll stop (statement :: statements) =
      missing stop statement ++ missingAll stop statements := rfl

@[simp]
theorem missingAll_append (left right : List Statement) :
    missingAll stop (left ++ right) = missingAll stop left ++ missingAll stop right := by
  induction left with
  | nil => rfl
  | cons statement left ih => simp [ih]

theorem missingBranches_eq (branches : List (Branch Statement)) :
    missingBranches stop branches = missingAll stop (branches.flatMap (·.body)) := by
  induction branches with
  | nil => rfl
  | cons branch branches ih =>
      rw [List.flatMap_cons, missingAll_append, ← ih]
      rfl

theorem missing_construct (piece : Nat) (header : Construct) (body : List Statement)
    (branches : List (Branch Statement)) (endPiece : Option Nat) :
    missing stop (.construct piece header body branches endPiece) =
      missingAll (endPiece.getD stop)
        (children (.construct piece header body branches endPiece)) ++
          if endPiece.isNone then [⟨stop, piece, header.keyword⟩] else [] := by
  rw [missing, missingBranches_eq, children, missingAll_append]

/-- An ended statement does not look for what ends the construct around it. -/
theorem missing_of_isEnded {statement : Statement} (ended : statement.IsEnded)
    (left right : Nat) : missing left statement = missing right statement := by
  cases statement with
  | leaf piece content => rfl
  | construct piece header body branches endPiece =>
      obtain ⟨last, rfl⟩ := Option.isSome_iff_exists.mp ended
      rfl

theorem missingAll_of_isEnded {statements : List Statement}
    (ended : ∀ statement ∈ statements, statement.IsEnded) (left right : Nat) :
    missingAll left statements = missingAll right statements := by
  induction statements with
  | nil => rfl
  | cons statement statements ih =>
      rw [List.forall_mem_cons] at ended
      rw [missingAll_cons, missingAll_cons, missing_of_isEnded ended.1 left right, ih ended.2]

open scoped List

mutual

theorem perm_missing : ∀ (stop : Nat) (statement : Statement),
    (missing stop statement).map (·.opener) ~ unendedStarts [statement]
  | _, .leaf _ _ => List.Perm.refl _
  | stop, .construct piece header body branches endPiece => by
    have inside := (perm_missingAll (endPiece.getD stop) body).append
      (perm_missingBranches (endPiece.getD stop) branches)
    rw [unendedStarts_singleton, children, unendedStarts_append, missing, List.map_append,
      List.map_append]
    cases endPiece with
    | some last =>
        rw [Option.isNone_some, if_neg Bool.false_ne_true, List.map_nil, List.append_nil]
        exact inside
    | none => exact List.perm_append_comm.trans (inside.append_left [piece])

/-- The constructs that lack an end tag are those that no end tag ends. -/
theorem perm_missingAll : ∀ (stop : Nat) (statements : List Statement),
    (missingAll stop statements).map (·.opener) ~ unendedStarts statements
  | _, [] => List.Perm.refl _
  | stop, statement :: statements => by
    have split := unendedStarts_append [statement] statements
    rw [List.singleton_append] at split
    rw [missingAll_cons, List.map_append, split]
    exact (perm_missing stop statement).append (perm_missingAll stop statements)

theorem perm_missingBranches : ∀ (stop : Nat) (branches : List (Branch Statement)),
    (missingBranches stop branches).map (·.opener) ~ unendedStarts (branches.flatMap (·.body))
  | _, [] => List.Perm.refl _
  | stop, ⟨_, _, body⟩ :: branches => by
    rw [missingBranches, List.map_append, List.flatMap_cons, unendedStarts_append]
    exact (perm_missingAll stop body).append (perm_missingBranches stop branches)

end

/-- No construct lacks two end tags. -/
theorem nodup_openers {statements : List Statement}
    (sorted : (piecesOf statements).Pairwise (· < ·)) :
    ((missingAll stop statements).map (·.opener)).Nodup :=
  (perm_missingAll stop statements).nodup_iff.mpr (nodup_unendedStarts sorted)

end Statement

namespace Tree

open Statement

namespace Frame

/-- The end tag that the construct lacks when a piece cuts it off. -/
def lacking (before : Nat) (frame : Frame) : MissingEnd := ⟨before, frame.piece, frame.keyword⟩

variable (stop : Nat) (frame : Frame)

theorem missingAll_finish_none :
    missingAll stop [frame.finish none] =
      missingAll stop frame.contents ++ [frame.lacking stop] := by
  rw [missingAll_cons, missingAll_nil, List.append_nil, finish, missing_construct]
  rfl

theorem missingAll_finish_some (piece : Nat) :
    missingAll stop [frame.finish (some piece)] = missingAll piece frame.contents := by
  rw [missingAll_cons, missingAll_nil, List.append_nil, finish, missing_construct]
  exact List.append_nil _

theorem filter_map_lacking (index : Nat) (frames : List Frame) :
    (frames.map (·.lacking stop)).filter (·.before = index) =
      if stop = index then frames.map (·.lacking stop) else [] := by
  split
  · rename_i same
    rw [List.filter_eq_self, List.forall_mem_map]
    exact fun frame _ => decide_eq_true same
  · rename_i other
    rw [List.filter_eq_nil_iff, List.forall_mem_map]
    exact fun frame _ same => other (of_decide_eq_true same)

end Frame

namespace Reading

/-- The end tags that have been found missing so far.  What is finished in an open body is ended, so
it does not look for what ends the body. -/
def missing (reading : Reading) : List MissingEnd :=
  missingAll 0 reading.root.reverse ++
    reading.stack.reverse.flatMap fun frame => missingAll 0 frame.contents

/-- The open constructs that a piece cuts off, innermost first. -/
def cutBy (reading : Reading) : Tag → List Frame
  | .closing keyword =>
    if keyword ∉ reading.flattened ∧ keyword ∈ reading.keywords then
      reading.stack.takeWhile (·.keyword ≠ keyword)
    else []
  | _ => []

section Nest

variable (stop : Nat)

/-- Constructs that are cut off lack their end tags, innermost first. -/
theorem missingAll_nest (frames : List Frame) (inner : List Statement) :
    missingAll stop (nest frames inner) =
      (frames.reverse.flatMap fun frame => missingAll stop frame.contents) ++
        missingAll stop inner ++ frames.map (·.lacking stop) := by
  induction frames generalizing inner with
  | nil => simp [nest]
  | cons frame frames ih =>
      have keyword_eq : (frame.pushAll inner).lacking stop = frame.lacking stop := by
        simp [Frame.lacking, Frame.keyword]
      rw [nest, ih, Frame.missingAll_finish_none, Frame.contents_pushAll, missingAll_append,
        keyword_eq]
      simp

theorem missing_push (reading : Reading) (statement : Statement) :
    (reading.push statement).missing = reading.missing ++ Statement.missing 0 statement := by
  obtain ⟨root, stack, flattened, findings⟩ := reading
  cases stack with
  | nil => simp [push, missing]
  | cons frame frames => simp [push, missing, Frame.contents_push]

end Nest

section Settled

variable {reading after : Reading} (settled : reading.Settled)
include settled

theorem Settled.missingAll_contents (stop : Nat) {frame : Frame} (member : frame ∈ reading.stack) :
    missingAll stop frame.contents = missingAll 0 frame.contents :=
  missingAll_of_isEnded (fun statement inside => (settled.2 frame member statement inside).1) _ _

/-- At the end of the template the open constructs lack their end tags as well. -/
theorem Settled.missingAll_statements (stop : Nat) :
    missingAll stop reading.statements =
      reading.missing ++ reading.stack.map (·.lacking stop) := by
  have root : missingAll stop reading.root.reverse = missingAll 0 reading.root.reverse :=
    missingAll_of_isEnded
      (fun statement member => (settled.1 statement (List.mem_reverse.mp member)).1) _ _
  have contents : (reading.stack.reverse.flatMap fun frame => missingAll stop frame.contents) =
      reading.stack.reverse.flatMap fun frame => missingAll 0 frame.contents :=
    List.flatMap_congr fun frame member =>
      settled.missingAll_contents stop (List.mem_reverse.mp member)
  rw [statements, missingAll_append, missingAll_nest, root, contents, missingAll_nil,
    List.append_nil, missing, List.append_assoc]

omit settled in
theorem cutBy_of_stack {keyword : String} {inner outer : List Frame} {frame : Frame}
    (kept : keyword ∉ reading.flattened) (stacked : reading.stack = inner ++ frame :: outer)
    (same : frame.keyword = keyword) (others : ∀ other ∈ inner, other.keyword ≠ keyword) :
    reading.cutBy (.closing keyword) = inner := by
  have member : keyword ∈ reading.keywords := by
    rw [keywords, stacked]
    exact List.mem_map.mpr ⟨frame, by simp, same⟩
  rw [cutBy, if_pos ⟨kept, member⟩, stacked, List.takeWhile_append_of_pos (by simpa using others)]
  simp [same]

/-- The end tags of the constructs that a piece cuts off are missing before it. -/
theorem Acts.missing_eq {limit : Option Nat} {index : Nat} {span : Span} {tag : Tag}
    (acts : Acts limit reading index span tag after) :
    after.missing = reading.missing ++ (reading.cutBy tag).map (·.lacking index) := by
  cases acts with
  | opened => simp [missing, cutBy, Frame.contents, Frame.finish, children]
  | branched _ stacked => simp [missing, cutBy, stacked, Frame.contents_openBranch]
  | @ended keyword inner outer frame kept stacked same others =>
      have inside : missingAll index frame.contents = missingAll 0 frame.contents :=
        settled.missingAll_contents index (by simp [stacked])
      have nested : (inner.reverse.flatMap fun other => missingAll index other.contents) =
          inner.reverse.flatMap fun other => missingAll 0 other.contents :=
        List.flatMap_congr fun other member => settled.missingAll_contents index (by
          rw [stacked]
          exact List.mem_append_left _ (List.mem_reverse.mp member))
      have ended := (frame.pushAll (nest inner [])).missingAll_finish_some 0 index
      rw [missingAll_cons, missingAll_nil, List.append_nil, Frame.contents_pushAll,
        missingAll_append, missingAll_nest, inside, nested, missingAll_nil,
        List.append_nil] at ended
      rw [missing_push, ended, cutBy_of_stack kept stacked same others, missing, missing, stacked]
      simp
  | recalled member => simp [missing, cutBy, member]
  | strayEnd _ absent => simp [missing, cutBy, absent, report]
  | single =>
      rw [missing_push]
      simp [cutBy, Statement.missing]
  | tooDeep => simp [missing, cutBy, report]
  | _ => simp [missing, cutBy, report]

end Settled

@[simp]
theorem missing_note (reading : Reading) (piece : Piece) :
    (reading.note piece).missing = reading.missing := by
  rw [note]
  cases unclosed? piece <;> rfl

@[simp]
theorem cutBy_note (reading : Reading) (piece : Piece) (tag : Tag) :
    (reading.note piece).cutBy tag = reading.cutBy tag := by
  rw [note]
  cases unclosed? piece <;> rfl

end Reading

section Read

variable (limit : Option Nat) (options : Options) (source : Source)

theorem missing_read_append_singleton (pieces : List Piece) (piece : Piece) :
    (read limit options source (pieces ++ [piece])).missing =
      (read limit options source pieces).missing ++
        ((read limit options source pieces).cutBy (Tag.ofPiece options source piece)).map
          (·.lacking pieces.length) := by
  have settled := Reading.ended_invariant.settled_read limit options source pieces
  have noted : ((read limit options source pieces).note piece).Settled :=
    Reading.ended_invariant.settled_congr settled
      ⟨(Reading.quiet_eq_iff.mp (Reading.quiet_note _ piece)).1, stack_note _ piece⟩
  rw [(acts_read limit options source pieces piece).missing_eq noted]
  simp

/-- What further pieces cut off lacks end tags among them. -/
theorem exists_missing_read_append (pieces further : List Piece) :
    ∃ later, (read limit options source (pieces ++ further)).missing =
        (read limit options source pieces).missing ++ later ∧
      ∀ ending ∈ later, pieces.length ≤ ending.before ∧
        ending.before < (pieces ++ further).length := by
  induction further using List.reverseRecOn with
  | nil => exact ⟨[], by simp, by simp⟩
  | append_singleton further piece ih =>
      obtain ⟨later, added, bounds⟩ := ih
      rw [← List.append_assoc, missing_read_append_singleton, added, List.append_assoc]
      refine ⟨_, rfl, ?_⟩
      intro ending member
      rcases List.mem_append.mp member with earlier | cut
      · have bound := bounds ending earlier
        simp only [List.length_append, List.length_singleton] at bound ⊢
        omega
      · obtain ⟨frame, -, rfl⟩ := List.mem_map.mp cut
        simp [Frame.lacking]

theorem missingAll_build (pieces : List Piece) (stop : Nat) :
    missingAll stop (build limit options source pieces).statements =
      (read limit options source pieces).missing ++
        (read limit options source pieces).stack.map (·.lacking stop) := by
  rw [statements_build]
  have settled := Reading.ended_invariant.settled_read limit options source pieces
  exact settled.missingAll_statements stop

theorem before_lt_of_mem_missing_read {pieces : List Piece} {ending : MissingEnd}
    (member : ending ∈ (read limit options source pieces).missing) :
    ending.before < pieces.length := by
  obtain ⟨later, added, bounds⟩ := exists_missing_read_append limit options source [] pieces
  rw [List.nil_append, read_nil] at added
  exact (bounds ending (by rwa [added] at member)).2

theorem filter_missing_read (pieces : List Piece) :
    (read limit options source pieces).missing.filter (·.before = pieces.length) = [] := by
  rw [List.filter_eq_nil_iff]
  intro ending member same
  have bound := before_lt_of_mem_missing_read limit options source member
  exact absurd (of_decide_eq_true same) (Nat.ne_of_lt bound)

/-- The end tags that are missing before a piece are those of the constructs that it cuts off. -/
theorem filter_missingAll_build (before after : List Piece) (piece : Piece) :
    let pieces := before ++ piece :: after
    (missingAll pieces.length (build limit options source pieces).statements).filter
        (·.before = before.length) =
      ((read limit options source before).cutBy (Tag.ofPiece options source piece)).map
        (·.lacking before.length) := by
  intro pieces
  have split : pieces = (before ++ [piece]) ++ after := by simp [pieces]
  have inside : pieces.length ≠ before.length := by simp [pieces]
  obtain ⟨later, added, bounds⟩ :=
    exists_missing_read_append limit options source (before ++ [piece]) after
  have later_on : later.filter (·.before = before.length) = [] := by
    rw [List.filter_eq_nil_iff]
    intro ending member same
    have bound := (bounds ending member).1
    rw [List.length_append, List.length_singleton] at bound
    exact absurd (of_decide_eq_true same) (Nat.ne_of_gt bound)
  rw [missingAll_build, List.filter_append, Frame.filter_map_lacking, if_neg inside, split, added,
    missing_read_append_singleton, List.filter_append, List.filter_append, filter_missing_read,
    Frame.filter_map_lacking, if_pos rfl, later_on, List.nil_append, List.append_nil,
    List.append_nil]

/-- The end tags that are missing at the end are those of the constructs left open. -/
theorem filter_missingAll_build_end (pieces : List Piece) :
    (missingAll pieces.length (build limit options source pieces).statements).filter
        (·.before = pieces.length) =
      (read limit options source pieces).stack.map (·.lacking pieces.length) := by
  rw [missingAll_build, List.filter_append, filter_missing_read, Frame.filter_map_lacking,
    if_pos rfl, List.nil_append]

end Read
end Tree
end TwigTemplate
