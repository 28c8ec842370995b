import TwigTemplate.Proofs.Statement.Mention
import TwigTemplate.Proofs.Tree.Branches

/-!
# Trees list pieces in order

A reading mentions pieces in the order in which they were read.  No operation takes a mention back
or moves it: a piece adds its own mention at the end or none, whatever is popped because of it.
-/

namespace TwigTemplate
namespace Tree

open Statement

/-- The pieces that an open construct mentions so far. -/
def Frame.mentions (frame : Frame) : List Mention := (frame.finish none).mentions

namespace Frame

theorem mentions_finish (frame : Frame) (endPiece : Option Nat) :
    (frame.finish endPiece).mentions = frame.mentions ++ endPiece.toList.map .mark := by
  simp [mentions, finish, Statement.mentions]

theorem mentions_push (frame : Frame) (statement : Statement) :
    (frame.push statement).mentions = frame.mentions ++ statement.mentions := by
  cases frame with
  | mk header piece span body branches =>
      cases branches <;> simp [mentions, push, finish, Statement.mentions]

theorem mentions_openBranch (frame : Frame) (kind : BranchKind) (piece : Nat) :
    (frame.openBranch kind piece).mentions = frame.mentions ++ [.mark piece] := by
  simp [mentions, openBranch, finish, Statement.mentions]

end Frame

namespace Reading

/-- The pieces that are mentioned so far. -/
def mentions (reading : Reading) : List Mention :=
  mentionsOf reading.root.reverse ++ reading.stack.reverse.flatMap Frame.mentions

@[simp]
theorem mentions_quiet (reading : Reading) : reading.quiet.mentions = reading.mentions := rfl

theorem mentions_of_quiet_eq {left right : Reading} (same : left.quiet = right.quiet) :
    left.mentions = right.mentions := by
  rw [← mentions_quiet left, same, mentions_quiet]

theorem mentions_push (reading : Reading) (statement : Statement) :
    (reading.push statement).mentions = reading.mentions ++ statement.mentions := by
  cases stacked : reading.stack with
  | nil => simp [push, mentions, stacked]
  | cons frame frames => simp [push, mentions, stacked, Frame.mentions_push]

@[simp]
theorem mentions_pop_none (reading : Reading) : (reading.pop none).mentions = reading.mentions := by
  cases stacked : reading.stack with
  | nil => simp [pop, stacked]
  | cons frame frames =>
      simp only [pop, stacked]
      rw [mentions_push, Frame.mentions_finish]
      simp [mentions, stacked]

theorem mentions_pop_some {reading : Reading} (piece : Nat) (kept : reading.stack ≠ []) :
    (reading.pop (some piece)).mentions = reading.mentions ++ [.mark piece] := by
  cases stacked : reading.stack with
  | nil => exact absurd stacked kept
  | cons frame frames =>
      simp only [pop, stacked]
      rw [mentions_push, Frame.mentions_finish]
      simp [mentions, stacked]

@[simp]
theorem mentions_iterate_pop (reading : Reading) (count : Nat) :
    ((pop · none)^[count] reading).mentions = reading.mentions := by
  exact iterate_pop_of_pop mentions_pop_none reading count

/-- A piece is mentioned at the end or not at all; a statement of a single piece always is. -/
def Extends (before : List Mention) (index : Nat) (tag : Tag) (after : List Mention) : Prop :=
  (after = before ++ [⟨index, tag = .single .output⟩] ∧ tag ≠ .inert) ∨
    (after = before ∧ ∀ leaf, tag ≠ .single leaf)

theorem extends_openConstruct (limit : Option Nat) (reading : Reading) (index : Nat) (span : Span)
    (header : Construct) :
    Extends reading.mentions index (.opening header)
      (reading.openConstruct limit index span header).mentions := by
  rcases room_or_full limit reading with room | ⟨bound, rfl, full⟩
  · refine .inl ⟨?_, by simp⟩
    rw [openConstruct_of_lt reading index span header room]
    simp [mentions, Frame.mentions, Frame.finish, Statement.mentions, Mention.mark]
  · refine .inr ⟨?_, by simp⟩
    rw [openConstruct_of_le reading index span header full]
    split <;> rfl

theorem extends_openBranch (reading : Reading) (index : Nat) (span : Span) (kind : BranchKind) :
    Extends reading.mentions index (.branch kind)
      (reading.openBranch index span kind).mentions := by
  rcases reading.openBranch_cases index span kind with
    ⟨frame, frames, stacked, accepts, opened⟩ | same
  · refine .inl ⟨?_, by simp⟩
    rw [opened]
    simp [mentions, stacked, Frame.mentions_openBranch, Mention.mark]
  · exact .inr ⟨mentions_of_quiet_eq same, by simp⟩

theorem extends_close (reading : Reading) (index : Nat) (span : Span) (keyword : String) :
    Extends reading.mentions index (.closing keyword)
      (reading.close index span keyword).mentions := by
  by_cases flattened : keyword ∈ reading.flattened
  · rw [close_of_mem_flattened reading index span flattened]
    exact .inr ⟨rfl, by simp⟩
  by_cases member : keyword ∈ reading.keywords
  · refine .inl ⟨?_, by simp⟩
    rw [← mentions_quiet, quiet_close reading index span flattened member, mentions_pop_some,
      mentions_iterate_pop]
    · rfl
    · exact stack_iterate_pop_ne_nil member rfl
  · rw [close_of_not_mem reading index span flattened member]
    exact .inr ⟨rfl, by simp⟩

/-- A piece adds at most its own mention, whatever it opens, branches or ends. -/
theorem extends_apply (limit : Option Nat) (reading : Reading) (index : Nat) (span : Span)
    (tag : Tag) :
    Extends reading.mentions index tag (reading.apply limit index span tag).mentions := by
  cases tag with
  | opening header => exact extends_openConstruct limit reading index span header
  | branch kind => exact extends_openBranch reading index span kind
  | closing keyword => exact extends_close reading index span keyword
  | single leaf =>
      refine .inl ⟨?_, by simp⟩
      rw [apply, mentions_push]
      simp [Statement.mentions]
  | inert => exact .inr ⟨rfl, by simp⟩
  | unknown keyword => exact .inr ⟨rfl, by simp⟩

end Reading

/-- Only expressions are output. -/
theorem ofKeyword_ne_output (options : Options) (source : Source) (keyword : Excerpt)
    (words : List Word) : Tag.ofKeyword options source keyword words ≠ .single .output := by
  simp only [Tag.ofKeyword, Tag.block, Tag.assignment, Tag.library, Tag.selection]
  repeat' split
  all_goals simp

/-- A piece that has a part in the structure is a tag or an expression, and it is output exactly
when it is an expression. -/
theorem kind_of_ofPiece_ne_inert {options : Options} {source : Source} {piece : Piece}
    (matters : Tag.ofPiece options source piece ≠ .inert) :
    piece.kind = .region
      (if Tag.ofPiece options source piece = .single .output then .expression else .tag) := by
  cases kind : piece.kind with
  | text => simp [Tag.ofPiece, kind] at matters
  | region delimiter =>
      cases delimiter with
      | comment => simp [Tag.ofPiece, kind] at matters
      | expression => simp [Tag.ofPiece, kind]
      | tag =>
          have other : Tag.ofBody options source piece.body ≠ .single .output := by
            rw [Tag.ofBody]
            split
            · exact ofKeyword_ne_output _ _ _ _
            · simp
          simp [Tag.ofPiece, kind, other]

/-- Indices of the pieces that are expressions. -/
def expressionIndices (pieces : List Piece) : List Nat :=
  pieces.zipIdx.filterMap fun (piece, index) =>
    if piece.kind = .region .expression then some index else none

theorem expressionIndices_append_singleton (pieces : List Piece) (piece : Piece) :
    expressionIndices (pieces ++ [piece]) = expressionIndices pieces ++
      if piece.kind = .region .expression then [pieces.length] else [] := by
  simp only [expressionIndices, List.zipIdx_append, List.filterMap_append]
  split <;> simp [*]

/-- The mentions list pieces in order, expressions as output and tags otherwise, and leave out no
expression. -/
def Lists (pieces : List Piece) (mentions : List Mention) : Prop :=
  (mentions.map (·.piece)).Pairwise (· < ·) ∧
    (∀ mention ∈ mentions, ∃ piece, pieces[mention.piece]? = some piece ∧
      piece.kind = .region (if mention.isOutput then .expression else .tag)) ∧
    (mentions.filter (·.isOutput)).map (·.piece) = expressionIndices pieces

theorem Lists.lt_length {pieces : List Piece} {mentions : List Mention}
    (lists : Lists pieces mentions) {mention : Mention} (member : mention ∈ mentions) :
    mention.piece < pieces.length := by
  obtain ⟨piece, found, _⟩ := lists.2.1 mention member
  exact (List.getElem?_eq_some_iff.mp found).1

theorem Lists.append_singleton {options : Options} {source : Source} {pieces : List Piece}
    {before after : List Mention} (lists : Lists pieces before) (piece : Piece)
    (extended : Reading.Extends before pieces.length (Tag.ofPiece options source piece) after) :
    Lists (pieces ++ [piece]) after := by
  obtain ⟨ordered, kinds, outputs⟩ := lists
  have earlier : ∀ mention ∈ before, ∃ other, (pieces ++ [piece])[mention.piece]? = some other ∧
      other.kind = .region (if mention.isOutput then .expression else .tag) := by
    intro mention member
    obtain ⟨other, found, kind⟩ := kinds mention member
    exact ⟨other, List.getElem?_append_left (List.getElem?_eq_some_iff.mp found).1 ▸ found, kind⟩
  rcases extended with ⟨rfl, matters⟩ | ⟨rfl, other⟩
  · have kind := kind_of_ofPiece_ne_inert matters
    refine ⟨?_, ?_, ?_⟩
    · rw [List.map_append, List.pairwise_append]
      refine ⟨ordered, List.pairwise_singleton _ _, ?_⟩
      intro index member last is_last
      obtain ⟨mention, mentioned, rfl⟩ := List.mem_map.mp member
      rw [List.mem_singleton.mp is_last]
      exact Lists.lt_length ⟨ordered, kinds, outputs⟩ mentioned
    · intro mention member
      rcases List.mem_append.mp member with member | member
      · exact earlier mention member
      · rw [List.mem_singleton.mp member]
        exact ⟨piece, List.getElem?_concat_length, by simpa using kind⟩
    · rw [List.filter_append, List.map_append, outputs, expressionIndices_append_singleton, kind]
      by_cases output : Tag.ofPiece options source piece = .single .output <;> simp [output]
  · refine ⟨ordered, earlier, ?_⟩
    have silent : piece.kind ≠ .region .expression := by
      intro expression
      exact other .output (by simp [Tag.ofPiece, expression])
    rw [outputs, expressionIndices_append_singleton, if_neg silent, List.append_nil]

theorem lists_read (limit : Option Nat) (options : Options) (source : Source)
    (pieces : List Piece) : Lists pieces (read limit options source pieces).mentions := by
  induction pieces using List.reverseRecOn with
  | nil => exact ⟨List.Pairwise.nil, by simp [Reading.start, Reading.mentions], rfl⟩
  | append_singleton pieces piece ih =>
      rw [← Reading.mentions_of_quiet_eq (Reading.quiet_note _ piece)] at ih
      rw [read_append_singleton, step_eq_apply]
      exact ih.append_singleton piece
        (Reading.extends_apply limit _ pieces.length piece.span _)

/-- More pieces only add mentions of their own, at the end. -/
theorem exists_mentions_read_append (limit : Option Nat) (options : Options) (source : Source)
    (pieces further : List Piece) :
    ∃ later : List Mention,
      (read limit options source (pieces ++ further)).mentions =
        (read limit options source pieces).mentions ++ later ∧
      ∀ mention ∈ later, pieces.length ≤ mention.piece := by
  induction further using List.reverseRecOn with
  | nil => exact ⟨[], by simp⟩
  | append_singleton further piece ih =>
      obtain ⟨later, same, late⟩ := ih
      have extended := Reading.extends_apply limit
        ((read limit options source (pieces ++ further)).note piece) (pieces ++ further).length
        piece.span (Tag.ofPiece options source piece)
      rw [Reading.mentions_of_quiet_eq (Reading.quiet_note _ piece), same] at extended
      rw [← List.append_assoc, read_append_singleton, step_eq_apply]
      rcases extended with ⟨added, -⟩ | ⟨added, -⟩
      · rw [added, List.append_assoc]
        refine ⟨_, rfl, List.forall_mem_append.mpr ⟨late, ?_⟩⟩
        simp
      · exact ⟨later, added, late⟩

theorem mentionsOf_build (limit : Option Nat) (options : Options) (source : Source)
    (pieces : List Piece) :
    mentionsOf (build limit options source pieces).statements =
      (read limit options source pieces).mentions := by
  have kept : (read limit options source pieces).emptied.mentions =
      (read limit options source pieces).mentions := Reading.mentions_iterate_pop _ _
  rw [build_eq_finish, Reading.statements_finish, ← kept, Reading.mentions, Reading.stack_emptied]
  exact (List.append_nil _).symm

/-- A tree lists pieces in order: its mentions ascend, each is a tag or, as output, an expression,
and all expressions are there.  Its branches come in order as well, so that the mentions are those
of the main body, of further conditions and of the branch for everything else. -/
theorem pieces_in_order (options : Options) (source : Source) (pieces : List Piece) :
    Lists pieces (mentionsOf (ofPieces options source pieces).statements) ∧
      ∀ statement ∈ (ofPieces options source pieces).statements,
        statement.Everywhere BranchesInOrder := by
  refine ⟨?_, branchesInOrder_build _ options source pieces⟩
  rw [ofPieces, mentionsOf_build]
  exact lists_read _ options source pieces

end Tree
end TwigTemplate
