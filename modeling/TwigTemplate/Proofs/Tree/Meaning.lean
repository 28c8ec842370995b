import TwigTemplate.Proofs.Statement.Forest
import TwigTemplate.Proofs.Tree.Act

/-!
# Statements mean what their first pieces mean

Whatever is done to a statement after it has been begun, its content or its header is what its first
piece means.
-/

namespace TwigTemplate

namespace Statement

/-- What the first piece of the statement means. -/
def tag : Statement → Tag
  | leaf _ content => .single content
  | construct _ header _ _ _ => .opening header

/-- The first pieces of all statements at all depths with their meanings. -/
def origins (statements : List Statement) : List (Nat × Tag) :=
  (forest statements).map fun statement => (statement.startPiece, statement.tag)

@[simp]
theorem origins_nil : origins [] = [] := rfl

@[simp]
theorem origins_append (left right : List Statement) :
    origins (left ++ right) = origins left ++ origins right := by
  rw [origins, forest_append, List.map_append, origins, origins]

theorem origins_singleton (statement : Statement) :
    origins [statement] = (statement.startPiece, statement.tag) :: origins statement.children := by
  rw [origins, forest_cons, forest_nil, List.append_nil, subtree_eq_cons]
  rfl

end Statement

namespace Tree

open Statement

/-- The first pieces of an open construct and of what it holds so far. -/
def Frame.origins (frame : Frame) : List (Nat × Tag) :=
  (frame.piece, .opening frame.header) :: Statement.origins frame.contents

theorem Frame.origins_finish (frame : Frame) (endPiece : Option Nat) :
    Statement.origins [frame.finish endPiece] = frame.origins :=
  origins_singleton _

namespace Reading

theorem origins_nest (frames : List Frame) (inner : List Statement) :
    origins (nest frames inner) = frames.reverse.flatMap Frame.origins ++ origins inner := by
  induction frames generalizing inner with
  | nil => rfl
  | cons frame frames ih =>
      have finished : origins [(frame.pushAll inner).finish none] =
          frame.origins ++ origins inner := by
        rw [Frame.origins_finish, Frame.origins, Frame.contents_pushAll, Frame.piece_pushAll,
          Frame.header_pushAll, origins_append]
        rfl
      rw [nest, ih, finished]
      simp

theorem origins_push (reading : Reading) (statement : Statement) :
    origins (reading.push statement).statements =
      origins reading.statements ++ origins [statement] := by
  rw [statements_push, statements, origins_append, origins_append, origins_nest, origins_nest]
  simp

/-- An end tag leaves the header of its construct as it is. -/
theorem origins_pop_some (reading : Reading) (piece : Nat) :
    origins (reading.pop (some piece)).statements = origins reading.statements := by
  cases stacked : reading.stack with
  | nil => rw [pop, stacked]
  | cons frame frames =>
      rw [statements_of_stack_cons stacked, pop, stacked]
      dsimp only
      rw [origins_push, origins_push, Frame.origins_finish, Frame.origins_finish]

variable (limit : Option Nat) (reading : Reading) (index : Nat) (span : Span)

theorem origins_openConstruct_of_lt {reading : Reading} (header : Construct)
    (room : ∀ bound, limit = some bound → reading.stack.length < bound) :
    origins (reading.openConstruct limit index span header).statements =
      origins reading.statements ++ [(index, .opening header)] := by
  rw [openConstruct_of_lt reading index span header room, statements_of_stack_cons rfl,
    origins_push]
  rfl

theorem origins_openConstruct (header : Construct) :
    origins (reading.openConstruct limit index span header).statements =
        origins reading.statements ++ [(index, .opening header)] ∨
      origins (reading.openConstruct limit index span header).statements =
        origins reading.statements := by
  rcases room_or_full limit reading with room | ⟨bound, rfl, full⟩
  · exact .inl (origins_openConstruct_of_lt limit index span header room)
  · right
    rw [openConstruct_of_le reading index span header full]
    split <;> rfl

theorem origins_openBranch (kind : BranchKind) :
    origins (reading.openBranch index span kind).statements = origins reading.statements := by
  rcases reading.openBranch_cases index span kind with
    ⟨frame, frames, stacked, accepts, opened⟩ | same
  · rw [opened, statements_of_stack_cons rfl, statements_of_stack_cons stacked, origins_push,
      origins_push, Frame.origins_finish, Frame.origins_finish, Frame.origins,
      Frame.contents_openBranch]
    rfl
  · rw [statements_of_quiet_eq same]

theorem origins_close (keyword : String) :
    origins (reading.close index span keyword).statements = origins reading.statements := by
  by_cases flattened : keyword ∈ reading.flattened
  · rw [close_of_mem_flattened reading index span flattened]
    rfl
  by_cases member : keyword ∈ reading.keywords
  · rw [← statements_quiet, quiet_close reading index span flattened member, origins_pop_some,
      statements_iterate_pop]
    rfl
  · rw [close_of_not_mem reading index span flattened member]
    rfl

/-- A piece adds at most a statement that means what the piece means. -/
theorem origins_apply (tag : Tag) :
    origins (reading.apply limit index span tag).statements =
        origins reading.statements ++ [(index, tag)] ∨
      origins (reading.apply limit index span tag).statements = origins reading.statements := by
  cases tag with
  | opening header => exact origins_openConstruct limit reading index span header
  | branch kind => exact .inr (origins_openBranch reading index span kind)
  | closing keyword => exact .inr (origins_close reading index span keyword)
  | single leaf => exact .inl (origins_push reading (.leaf index leaf))
  | inert => exact .inr rfl
  | unknown keyword => exact .inr rfl

end Reading

section Read

variable {limit : Option Nat} {options : Options} {source : Source}

theorem origins_read_note (pieces : List Piece) (piece : Piece) :
    origins ((read limit options source pieces).note piece).statements =
      origins (read limit options source pieces).statements :=
  congrArg origins (Reading.statements_of_quiet_eq
    ((read limit options source pieces).quiet_note piece))

/-- A piece adds at most one first piece. -/
theorem origins_read_append_singleton (pieces : List Piece) (piece : Piece) :
    origins (read limit options source (pieces ++ [piece])).statements =
        origins (read limit options source pieces).statements ++
          [(pieces.length, Tag.ofPiece options source piece)] ∨
      origins (read limit options source (pieces ++ [piece])).statements =
        origins (read limit options source pieces).statements := by
  rw [read_append_singleton, step_eq_apply, ← origins_read_note pieces piece]
  exact Reading.origins_apply limit _ pieces.length piece.span (Tag.ofPiece options source piece)

/-- Pieces that follow take no first pieces away. -/
theorem origins_read_prefix (before after : List Piece) :
    origins (read limit options source before).statements <+:
      origins (read limit options source (before ++ after)).statements := by
  induction after using List.reverseRecOn with
  | nil => exact (List.append_nil before).symm ▸ List.prefix_refl _
  | append_singleton after piece ih =>
      rw [← List.append_assoc]
      rcases origins_read_append_singleton (before ++ after) piece with added | same
      · rw [added]
        exact ih.trans (List.prefix_append _ _)
      · rwa [same]

/-- A first piece stays one, whatever follows it. -/
theorem mem_origins_of_added {before : List Piece} {piece : Piece} {tag : Tag}
    (added : origins (read limit options source (before ++ [piece])).statements =
      origins (read limit options source before).statements ++ [(before.length, tag)])
    (after : List Piece) :
    (before.length, tag) ∈
      origins (read limit options source (before ++ piece :: after)).statements := by
  have later : origins (read limit options source (before ++ [piece])).statements <+:
      origins (read limit options source (before ++ piece :: after)).statements := by
    rw [List.append_cons before piece after]
    exact origins_read_prefix (before ++ [piece]) after
  rw [added] at later
  exact later.subset (List.mem_append_right _ (List.mem_singleton_self _))

/-- A piece that opens a construct begins a statement, if the construct is kept. -/
theorem mem_origins_of_opening {before : List Piece} {piece : Piece} {header : Construct}
    (means : Tag.ofPiece options source piece = .opening header)
    (room : ∀ bound, limit = some bound →
      (read limit options source before).stack.length < bound) (after : List Piece) :
    (before.length, .opening header) ∈
      origins (read limit options source (before ++ piece :: after)).statements := by
  refine mem_origins_of_added ?_ after
  rw [read_append_singleton, step_eq_apply, means, ← origins_read_note before piece]
  exact Reading.origins_openConstruct_of_lt limit before.length piece.span header
    (by rwa [stack_note])

/-- A piece that is a statement by itself begins this statement. -/
theorem mem_origins_of_single {before : List Piece} {piece : Piece} {leaf : Leaf}
    (means : Tag.ofPiece options source piece = .single leaf) (after : List Piece) :
    (before.length, .single leaf) ∈
      origins (read limit options source (before ++ piece :: after)).statements := by
  refine mem_origins_of_added ?_ after
  rw [read_append_singleton, step_eq_apply, means, ← origins_read_note before piece]
  exact Reading.origins_push _ (.leaf before.length leaf)

/-- What has been read means what its pieces mean. -/
theorem exists_piece_of_mem_origins {pieces : List Piece} {index : Nat} {tag : Tag}
    (member : (index, tag) ∈ origins (read limit options source pieces).statements) :
    ∃ piece, pieces[index]? = some piece ∧ Tag.ofPiece options source piece = tag := by
  induction pieces using List.reverseRecOn with
  | nil => cases member
  | append_singleton pieces piece ih =>
      have earlier (before : (index, tag) ∈
          origins (read limit options source pieces).statements) :
          ∃ other, (pieces ++ [piece])[index]? = some other ∧
            Tag.ofPiece options source other = tag := by
        obtain ⟨other, found, means⟩ := ih before
        have inside := (List.getElem?_eq_some_iff.mp found).1
        exact ⟨other, by rw [List.getElem?_append_left inside, found], means⟩
      rcases origins_read_append_singleton pieces piece with added | same
      · rw [added] at member
        rcases List.mem_append.mp member with before | last
        · exact earlier before
        · obtain ⟨rfl, rfl⟩ := Prod.mk.inj (List.mem_singleton.mp last)
          exact ⟨piece, List.getElem?_concat_length, rfl⟩
      · exact earlier (same ▸ member)

/-- A statement of a tree means what its first piece means. -/
theorem exists_piece_of_mem_forest {pieces : List Piece} {statement : Statement}
    (member : statement ∈ forest (build limit options source pieces).statements) :
    ∃ piece, pieces[statement.startPiece]? = some piece ∧
      Tag.ofPiece options source piece = statement.tag := by
  rw [statements_build] at member
  exact exists_piece_of_mem_origins (List.mem_map_of_mem member)

end Read

end Tree
end TwigTemplate
