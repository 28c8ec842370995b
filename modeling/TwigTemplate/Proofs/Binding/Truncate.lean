import TwigTemplate.Proofs.Binding.Visible
import TwigTemplate.Proofs.Piece.Truncate
import TwigTemplate.Proofs.Tree.Restrict

/-!
# Later text does not change what is in scope

The names in scope at a piece are bound by what comes before it.  When the template is cut off after
the piece, bodies lose their ends and constructs that come later are gone, but the path to the piece
and what is bound along it stay the same.
-/

namespace TwigTemplate
namespace Binding

open Statement

/-- The binding without the piece at which it ends. -/
def withoutEnd (binding : Binding) : Binding := { binding with until? := none }

@[simp]
theorem name_withoutEnd (binding : Binding) : binding.withoutEnd.name = binding.name := rfl

@[simp]
theorem withoutEnd_ofExcerpt (kind : BindingKind) (piece : Nat) (until? : Option Nat)
    (name : Excerpt) :
    (ofExcerpt kind piece until? name).withoutEnd = ofExcerpt kind piece none name := rfl

/-- Which bindings are hidden does not depend on where they end. -/
theorem withoutEnd_foldl_add (bindings more : List Binding) :
    (more.foldl add bindings).map withoutEnd =
      (more.map withoutEnd).foldl add (bindings.map withoutEnd) := by
  induction more generalizing bindings with
  | nil => rfl
  | cons binding more ih =>
      rw [List.map_cons, List.foldl_cons, List.foldl_cons, ih]
      congr 1
      simp [add, List.filter_map, Function.comp_def]

/-- An entry without the piece at which its binding ends. -/
def entryWithoutEnd : Binding × Nat → Binding × Nat := Prod.map withoutEnd id

theorem withoutEnd_zipIdx (bindings : List Binding) :
    bindings.zipIdx.map entryWithoutEnd = (bindings.map withoutEnd).zipIdx :=
  (List.zipIdx_map ..).symm

section Restrict

variable {cursor : Nat} {limit : Option Nat}

/-- A captured value is bound by an end tag before the cursor, which is never left out. -/
theorem ofSibling_restrict (cursor : Nat) (limit : Option Nat) (statement : Statement) :
    ofSibling cursor none (restrict (cursor + 1) statement) =
      (ofSibling cursor limit statement).map withoutEnd := by
  cases statement with
  | leaf piece content =>
      rw [restrict]
      cases content with
      | library template name => cases name <;> rfl
      | selection template names => simp [ofSibling, Function.comp_def]
      | assignment targets value => simp [ofSibling, Function.comp_def]
      | _ => rfl
  | construct piece header body branches endPiece =>
      rw [restrict]
      cases header with
      | capture targets =>
          cases endPiece with
          | none => rfl
          | some stop =>
              by_cases left_out : cursor < stop
              · have kept : ¬ stop < cursor := Nat.lt_asymm left_out
                rw [Option.filter_some, if_neg (by rw [decide_eq_true_eq]; omega)]
                simp [ofSibling, kept]
              · rw [Option.filter_some, if_pos (by rw [decide_eq_true_eq]; omega)]
                by_cases before : stop < cursor
                · simp [ofSibling, before, Function.comp_def]
                · simp [ofSibling, before]
      | _ => rfl

theorem ofHeader_restrict (index : Nat) (stop : Option Nat) (statement : Statement) :
    ofHeader none (restrict index statement) = (ofHeader stop statement).map withoutEnd := by
  cases statement with
  | leaf piece content => rfl
  | construct piece header body branches endPiece =>
      rw [restrict]
      cases header with
      | loop names iterable condition =>
          simp only [ofHeader, List.map_append, List.map_map, List.map_singleton]
          rfl
      | definition name parameters => simp [ofHeader, Function.comp_def]
      | _ => rfl

theorem onEntry_restrict (index : Nat) (stop : Option Nat) (statement : Statement)
    (segment : Segment) :
    onEntry none (restrict index statement) (restrictSegment index segment) =
      (onEntry stop statement segment).map entryWithoutEnd := by
  rw [onEntry, onEntry, ofHeader_restrict index stop]
  split
  · rw [if_pos (by assumption), withoutEnd_zipIdx]
  · rw [if_neg (by assumption), List.map_nil]

/-- What is left of a segment holds the cursor exactly if the segment does. -/
theorem encloses_restrictSegment (within : limit.all (cursor < ·)) (segment : Segment) :
    encloses cursor none (restrictSegment (cursor + 1) segment) =
      encloses cursor limit segment := by
  have ends : ((segment.closePiece.filter (· < cursor + 1)).or none).all (cursor < ·) =
      (segment.closePiece.or limit).all (cursor < ·) := by
    cases segment.closePiece with
    | none => exact within.symm
    | some close =>
        by_cases after : cursor < close
        · rw [Option.filter_some, if_neg (by rw [decide_eq_true_eq]; omega)]
          simp [after]
        · rw [Option.filter_some, if_pos (by rw [decide_eq_true_eq]; omega)]
          simp [after]
  exact congrArg (decide (segment.openPiece < cursor) && ·) ends

/-- A segment that holds the cursor has no end left. -/
theorem closePiece_restrictSegment {segment : Segment} (holds : encloses cursor limit segment) :
    (restrictSegment (cursor + 1) segment).closePiece = none := by
  rw [restrictSegment, Option.filter_eq_none_iff]
  intro close closes
  have after := (encloses_iff.mp holds).2 close (by rw [closes]; rfl)
  rw [decide_eq_true_eq]
  omega

/-- The path enters what is left of the segments that it enters in the whole template. -/
theorem find?_segments_restrict {statement : Statement} (within : limit.all (cursor < ·))
    (sorted : statement.pieces.Pairwise (· < ·)) (early : statement.startPiece < cursor) :
    (restrict (cursor + 1) statement).segments.find? (encloses cursor none) =
      (statement.segments.find? (encloses cursor limit)).map (restrictSegment (cursor + 1)) := by
  rw [segments_restrict sorted (Nat.lt_succ_of_lt early), List.find?_map, List.find?_filter]
  congr 2
  funext segment
  have begins : encloses cursor limit segment → segment.openPiece < cursor + 1 :=
    fun holds => Nat.lt_succ_of_lt ((encloses_iff.mp holds).1 _ rfl)
  rw [Function.comp_apply, encloses_restrictSegment within]
  cases holds : encloses cursor limit segment with
  | false => simp
  | true => simp [begins holds]

theorem declared_of_forall_le {body : List Statement}
    (late : ∀ statement ∈ body, cursor ≤ statement.startPiece) :
    declared cursor limit body = [] := by
  cases body with
  | nil => exact declared_nil cursor limit
  | cons statement rest => exact declared_of_le (late statement List.mem_cons_self)

/-- The path binds the same names when only what comes up to the cursor is left. -/
theorem declared_restrictAll {opener : Option Nat} {body : List Statement}
    (orderly : Orderly opener limit body) (within : limit.all (cursor < ·)) :
    declared cursor none (restrictAll (cursor + 1) body) =
      (declared cursor limit body).map entryWithoutEnd := by
  fun_induction declared cursor limit body generalizing opener with
  | case1 limit => rw [restrictAll_nil, declared_nil, List.map_nil]
  | case2 limit statement rest late =>
      rw [List.map_nil]
      apply declared_of_forall_le
      intro other member
      obtain ⟨whole, among, -, rfl⟩ := mem_restrictAll_iff.mp member
      rw [startPiece_restrict]
      rcases List.mem_cons.mp among with rfl | later
      · exact late
      · have sorted := orderly.sorted
        rw [piecesOf_cons, List.pairwise_append] at sorted
        have starts := sorted.2.2 _ (startPiece_mem_pieces statement) _
          (pieces_subset_piecesOf later (startPiece_mem_pieces whole))
        exact Nat.le_trans late (Nat.le_of_lt starts)
  | case3 limit statement rest early passed ih =>
      rw [Nat.not_le] at early
      have sorted := orderly.sorted_statement List.mem_cons_self
      have passed_left := find?_segments_restrict within sorted early
      rw [passed, Option.map_none] at passed_left
      rw [restrictAll_cons_of_lt (Nat.lt_succ_of_lt early),
        declared_of_passed (by rwa [startPiece_restrict]) passed_left,
        ofSibling_restrict cursor limit, ih orderly.tail within, List.map_append, withoutEnd_zipIdx]
  | case4 limit statement rest early segment entered ih =>
      rw [Nat.not_le] at early
      have sorted := orderly.sorted_statement List.mem_cons_self
      have holds := List.find?_some entered
      have part := List.mem_of_find?_eq_some entered
      have within_inner : (segment.closePiece.or limit).all (cursor < ·) := by
        rw [encloses, Bool.and_eq_true] at holds
        exact holds.2
      have entered_left := find?_segments_restrict within sorted early
      rw [entered, Option.map_some] at entered_left
      rw [restrictAll_cons_of_lt (Nat.lt_succ_of_lt early),
        declared_of_entered (by rwa [startPiece_restrict]) entered_left,
        closePiece_restrictSegment holds, Option.none_or, ofSibling_restrict cursor limit,
        onEntry_restrict _ (segment.closePiece.or limit), restrictSegment,
        ih (orderly.of_segment List.mem_cons_self part) within_inner, List.map_append,
        List.map_append, withoutEnd_zipIdx]

/-- The names in scope are the same when only what comes up to the cursor is left. -/
theorem gather_restrictAll {root : List Statement} (orderly : Orderly none none root) :
    (gather cursor none [] (restrictAll (cursor + 1) root)).map withoutEnd =
      (gather cursor none [] root).map withoutEnd := by
  have entries : _ = (declared cursor none root).map entryWithoutEnd :=
    declared_restrictAll orderly rfl
  rw [gather_eq_foldl, gather_eq_foldl, entries, withoutEnd_foldl_add, withoutEnd_foldl_add]
  congr 1
  rw [List.map_map, List.map_map, List.map_map]
  rfl

end Restrict
end Binding

/-- Text after the piece under the cursor does not change what is in scope, nor the order of it: the
template cut off after that piece has the same bindings, except for where they end. -/
theorem Document.bindingsAt_truncated {options : Options} {source : Source} {offset cursor : Nat}
    (stands : (Document.parse options source).pieceAt? offset = some cursor) :
    ∃ (piece : Piece) (front back : String),
      (Document.parse options source).pieces[cursor]? = some piece ∧
      source.text = front ++ back ∧ front.utf8ByteSize = piece.span.stop ∧
      (Document.parse options (Source.ofString front)).pieceAt? offset = some cursor ∧
      ((Document.parse options (Source.ofString front)).bindingsAt offset).map
          Binding.withoutEnd =
        ((Document.parse options source).bindingsAt offset).map Binding.withoutEnd := by
  have covers := Piece.covers_group_tokens source
  obtain ⟨before, piece, after, split, rfl, holds⟩ :=
    (Piece.indexAt?_eq_some_iff covers).mp stands
  obtain ⟨front, back, text, size, front_pieces, same_tags⟩ :=
    Piece.exists_truncated options split
  have holds_front : piece.Holds [] offset := ⟨holds.1, holds.2.imp id fun last => ⟨rfl, last.2⟩⟩
  have stands_front :
      (Document.parse options (Source.ofString front)).pieceAt? offset = some before.length :=
    Piece.indexAt?_of_holds (Piece.covers_group_tokens _) front_pieces holds_front
  have statements_eq : (Document.parse options (Source.ofString front)).statements =
      Statement.restrictAll (before.length + 1) (Document.parse options source).statements := by
    have taken :
        (Piece.group source.tokens).toList.take (before.length + 1) = before ++ [piece] := by
      rw [split, List.take_append, List.take_of_length_le (Nat.le_succ _), Nat.add_sub_cancel_left]
      rfl
    have inside : before.length + 1 ≤ (Piece.group source.tokens).toList.length := by simp [split]
    have restricted :=
      Tree.restrictAll_build (some Tree.nestingLimit) options source _ _ inside
    rw [taken, ← Tree.build_congr _ options same_tags] at restricted
    rw [statements, statements, parse, parse, Tree.ofPieces, Tree.ofPieces, front_pieces]
    exact restricted.symm
  refine ⟨piece, front, back, ?_, text, size, stands_front, ?_⟩
  · rw [← Array.getElem?_toList, parse, split]
    simp
  · rw [bindingsAt, bindingsAt, stands, stands_front, statements_eq]
    exact Binding.gather_restrictAll (Tree.orderly_build _ options source _)

/-- The names of a loop, seen from the expression in it, without what comes after the expression. -/
theorem Document.bindingsAt_truncated_in_loop :
    let source := Source.ofString "\x7b% for a in b %\x7d\x7b\x7b a \x7d\x7d\x7b% endfor %\x7d"
    ∃ front back : String, source.text = front ++ back ∧ front.utf8ByteSize = 23 ∧
      ((Document.parse .default (Source.ofString front)).bindingsAt 18).map
          Binding.withoutEnd =
        ((Document.parse .default source).bindingsAt 18).map Binding.withoutEnd ∧
      ((Document.parse .default source).bindingsAt 18).map Binding.name = ["a", "loop"] := by
  intro source
  have stands : (Document.parse .default source).pieceAt? 18 = some 1 := by decide +kernel
  obtain ⟨piece, front, back, found, text, size, -, same⟩ := bindingsAt_truncated stands
  have place : (Document.parse .default source).pieces[1]?.map (·.span.stop) = some 23 := by
    decide +kernel
  rw [found] at place
  refine ⟨front, back, text, size.trans (Option.some.inj place), same, ?_⟩
  decide +kernel

end TwigTemplate
