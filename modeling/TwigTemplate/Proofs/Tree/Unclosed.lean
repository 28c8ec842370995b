import TwigTemplate.Proofs.Statement.Forest
import TwigTemplate.Proofs.Tree.Stray

/-!
# What is told of constructs and regions that are not closed

A construct without an end tag is told of when it is cut off, by an end tag further out or by the
end of the template.  While a template is read, the constructs without an end tag are those that
were told of and those that are still open.
-/

namespace TwigTemplate

namespace Statement

/-- The statement is a construct that no end tag ends. -/
def isUnended (statement : Statement) : Bool := statement.hasBody && statement.endPiece?.isNone

/-- All constructs at all depths that no end tag ends. -/
def unended (statements : List Statement) : List Statement := (forest statements).filter isUnended

/-- The pieces that open the constructs that no end tag ends. -/
def unendedStarts (statements : List Statement) : List Nat := (unended statements).map startPiece

@[simp]
theorem unendedStarts_append (left right : List Statement) :
    unendedStarts (left ++ right) = unendedStarts left ++ unendedStarts right := by
  simp [unendedStarts, unended]

theorem unendedStarts_singleton (statement : Statement) :
    unendedStarts [statement] =
      (if statement.isUnended then [statement.startPiece] else []) ++
        unendedStarts statement.children := by
  rw [unendedStarts, unended, forest_cons, forest_nil, List.append_nil, subtree_eq_cons,
    List.filter_cons]
  split <;> rfl

/-- No two statements begin with the same piece. -/
theorem nodup_unendedStarts {statements : List Statement}
    (sorted : (piecesOf statements).Pairwise (· < ·)) : (unendedStarts statements).Nodup := by
  have listed : (unendedStarts statements).Sublist (piecesOf statements) :=
    (List.filter_sublist.map startPiece).trans (sublist_startPieces statements)
  exact (sorted.sublist listed).imp Nat.ne_of_lt

end Statement

namespace Finding

/-- The places of the diagnostics of a kind, in order. -/
def spansOf (kind : DiagnosticKind) (findings : List Finding) : List Span :=
  ((findings.map diagnostic).filter (·.kind = kind)).map (·.span)

@[simp]
theorem spansOf_append (kind : DiagnosticKind) (left right : List Finding) :
    spansOf kind (left ++ right) = spansOf kind left ++ spansOf kind right := by
  simp [spansOf]

end Finding

namespace Tree

open Statement Finding
open scoped List

namespace Frame

/-- What is told of open constructs when they are cut off. -/
theorem spansOf_unclosed (frames : List Frame) (atEnd : Bool) :
    spansOf .unclosedBlock (frames.map (·.unclosed atEnd)) = frames.map Frame.span := by
  induction frames with
  | nil => rfl
  | cons frame frames ih => exact congrArg (frame.span :: ·) ih

theorem spansOf_unclosedDelimiter_unclosed (frames : List Frame) (atEnd : Bool) :
    spansOf .unclosedDelimiter (frames.map (·.unclosed atEnd)) = [] := by
  simp [spansOf, unclosed, diagnostic]

theorem unendedStarts_finish_none (frame : Frame) :
    unendedStarts [frame.finish none] = frame.piece :: unendedStarts frame.contents :=
  unendedStarts_singleton _

theorem unendedStarts_finish_some (frame : Frame) (piece : Nat) :
    unendedStarts [frame.finish (some piece)] = unendedStarts frame.contents :=
  unendedStarts_singleton _

end Frame

namespace Reading

theorem spansOf_toldOnEnding (keyword : String) (span : Span) (frames : List Frame) :
    spansOf .unclosedBlock (toldOnEnding keyword span frames) = frames.map Frame.span := by
  cases frames with
  | nil => rfl
  | cons innermost others => exact Frame.spansOf_unclosed (innermost :: others) false

theorem unendedStarts_nest (frames : List Frame) (inner : List Statement) :
    unendedStarts (nest frames inner) =
      unendedStarts (nest frames []) ++ unendedStarts inner := by
  induction frames generalizing inner with
  | nil => rfl
  | cons frame frames ih =>
      have finished : unendedStarts [(frame.pushAll inner).finish none] =
          unendedStarts [(frame.pushAll []).finish none] ++ unendedStarts inner := by
        simp [Frame.unendedStarts_finish_none, Frame.contents_pushAll]
      rw [nest, nest, ih, ih [(frame.pushAll []).finish none], finished, List.append_assoc]

theorem unendedStarts_push (reading : Reading) (statement : Statement) :
    unendedStarts (reading.push statement).statements =
      unendedStarts reading.statements ++ unendedStarts [statement] := by
  rw [statements_push, statements, unendedStarts_append, unendedStarts_nest, unendedStarts_append,
    List.append_assoc]

theorem nest_append (left right : List Frame) (inner : List Statement) :
    nest (left ++ right) inner = nest right (nest left inner) := by
  induction left generalizing inner with
  | nil => rfl
  | cons frame left ih => exact ih _

/-- The statements, seen from the body around some of the open constructs. -/
theorem statements_of_stack_append {reading : Reading} {inner outer : List Frame} {frame : Frame}
    (stacked : reading.stack = inner ++ frame :: outer) :
    reading.statements = ({ reading with stack := outer }.push
      ((frame.pushAll (nest inner [])).finish none)).statements := by
  rw [statements_push, statements, stacked, nest_append]
  rfl

theorem spansOf_report {kind : DiagnosticKind} (reading : Reading) {finding : Finding}
    (other : finding.diagnostic.kind ≠ kind) :
    spansOf kind (reading.report finding).findings.toList =
      spansOf kind reading.findings.toList := by
  simp [report, spansOf, other]

/-- Where the open constructs begin: by piece, and in the template. -/
def places (reading : Reading) : List (Nat × Span) :=
  reading.stack.map fun frame => (frame.piece, frame.span)

theorem map_snd_places (reading : Reading) :
    reading.places.map Prod.snd = reading.stack.map Frame.span := by
  rw [places, List.map_map]
  rfl

theorem places_push (reading : Reading) (statement : Statement) :
    (reading.push statement).places = reading.places := by
  rw [push]
  split
  · rfl
  · rename_i frame frames stacked
    rw [places, places, stacked, List.map_cons, List.map_cons, Frame.piece_push]
    rw [Frame.push]
    split <;> rfl

/-- The constructs without an end tag are those told of so far and the open ones. -/
structure Balanced (pieces : List Piece) (reading : Reading) : Prop where
  /-- The open constructs begin where the pieces lie that open them. -/
  placed : ∀ place ∈ reading.places, pieces[place.1]?.map Piece.span = some place.2
  /-- Each construct without an end tag has one counterpart. -/
  balance : ((unendedStarts reading.statements).map fun start => pieces[start]?.map Piece.span).Perm
    ((spansOf .unclosedBlock reading.findings.toList ++ reading.places.map Prod.snd).map some)

section Balance

variable {pieces : List Piece} {reading after : Reading}

theorem Balanced.congr (balanced : reading.Balanced pieces)
    (starts : unendedStarts after.statements = unendedStarts reading.statements)
    (told : spansOf .unclosedBlock after.findings.toList =
      spansOf .unclosedBlock reading.findings.toList)
    (places_eq : after.places = reading.places) : after.Balanced pieces where
  placed := places_eq ▸ balanced.placed
  balance := by
    rw [starts, told, places_eq]
    exact balanced.balance

/-- A new open construct has no end tag yet. -/
theorem Balanced.opened (balanced : reading.Balanced pieces) {index : Nat} {span : Span}
    (found : pieces[index]?.map Piece.span = some span) (header : Construct) :
    ({ reading with stack := ⟨header, index, span, [], []⟩ :: reading.stack } : Reading).Balanced
      pieces where
  placed := List.forall_mem_cons.mpr ⟨found, balanced.placed⟩
  balance := by
    rw [statements_of_stack_cons rfl, unendedStarts_push, Frame.unendedStarts_finish_none]
    calc
      (unendedStarts reading.statements ++ [index]).map (fun start => pieces[start]?.map Piece.span)
      _ ~ (index :: unendedStarts reading.statements).map _ :=
          (List.perm_append_singleton _ _).map _
      _ = some span :: (unendedStarts reading.statements).map _ := by rw [List.map_cons, found]
      _ ~ some span :: (spansOf .unclosedBlock reading.findings.toList ++
            reading.places.map Prod.snd).map some := balanced.balance.cons _
      _ ~ (spansOf .unclosedBlock reading.findings.toList ++
            span :: reading.places.map Prod.snd).map some := List.perm_middle.symm.map some

/-- When a construct is ended, those inside it are told of. -/
theorem Balanced.ended (balanced : reading.Balanced pieces) {inner outer : List Frame}
    {frame : Frame} (stacked : reading.stack = inner ++ frame :: outer) (keyword : String)
    (index : Nat) (span : Span) :
    (({ reading with
      stack := outer
      flattened := []
      findings := reading.findings ++ (toldOnEnding keyword span inner).toArray } : Reading).push
        ((frame.pushAll (nest inner [])).finish (some index))).Balanced pieces := by
  have starts_eq : unendedStarts reading.statements =
      unendedStarts ({ reading with stack := outer } : Reading).statements ++
        frame.piece :: unendedStarts (frame.pushAll (nest inner [])).contents := by
    rw [statements_of_stack_append stacked, unendedStarts_push, Frame.unendedStarts_finish_none,
      Frame.piece_pushAll]
  have places_eq : reading.places.map Prod.snd =
      inner.map Frame.span ++ frame.span :: outer.map Frame.span := by
    rw [map_snd_places, stacked, List.map_append, List.map_cons]
  have told : spansOf .unclosedBlock
        (reading.findings ++ (toldOnEnding keyword span inner).toArray).toList =
      spansOf .unclosedBlock reading.findings.toList ++ inner.map Frame.span := by
    rw [Array.toList_append, spansOf_append, spansOf_toldOnEnding]
  have placed : ∀ other ∈ frame :: outer,
      pieces[other.piece]?.map Piece.span = some other.span := by
    intro other member
    apply balanced.placed (other.piece, other.span)
    rw [places, stacked]
    exact List.mem_map.mpr ⟨other, List.mem_append_right _ member, rfl⟩
  rw [List.forall_mem_cons] at placed
  refine ⟨?_, List.Perm.cons_inv (a := some frame.span) ?_⟩
  · rw [places_push, places, List.forall_mem_map]
    exact placed.2
  rw [unendedStarts_push, Frame.unendedStarts_finish_some, findings_push, places_push, told,
    map_snd_places]
  -- the ended construct leaves both sides: it has an end tag, and it is no longer open
  calc
    some frame.span :: (unendedStarts ({ reading with stack := outer } : Reading).statements ++
        unendedStarts (frame.pushAll (nest inner [])).contents).map _ =
        (frame.piece :: _).map fun start => pieces[start]?.map Piece.span := by
      rw [List.map_cons, placed.1]
    _ ~ (unendedStarts reading.statements).map _ := by
      rw [starts_eq]
      exact List.perm_middle.symm.map _
    _ ~ ((spansOf .unclosedBlock reading.findings.toList ++ inner.map Frame.span) ++
          frame.span :: outer.map Frame.span).map some := by
      rw [List.append_assoc, ← places_eq]
      exact balanced.balance
    _ ~ some frame.span :: (_ ++ outer.map Frame.span).map some := List.perm_middle.map some

/-- Each piece keeps the balance. -/
theorem Acts.balanced {limit : Option Nat} {index : Nat} {span : Span} {tag : Tag}
    (acts : Acts limit reading index span tag after)
    (found : pieces[index]?.map Piece.span = some span) (balanced : reading.Balanced pieces) :
    after.Balanced pieces := by
  cases acts with
  | opened => exact balanced.opened found _
  | branched _ stacked =>
      refine balanced.congr ?_ rfl (by rw [places, places, stacked]; rfl)
      rw [statements_of_stack_cons rfl, statements_of_stack_cons stacked, unendedStarts_push,
        unendedStarts_push, Frame.unendedStarts_finish_none, Frame.unendedStarts_finish_none,
        Frame.contents_openBranch]
      rfl
  | ended _ stacked => exact balanced.ended stacked _ _ _
  | single =>
      refine balanced.congr ?_ (by rw [findings_push]) (places_push _ _)
      rw [unendedStarts_push, unendedStarts_singleton]
      exact List.append_nil _
  | tooDeep => exact balanced.congr rfl (spansOf_report _ nofun) rfl
  | strayBranch => exact balanced.congr rfl (spansOf_report _ nofun) rfl
  | strayEnd => exact balanced.congr rfl (spansOf_report _ nofun) rfl
  | unknown => exact balanced.congr rfl (spansOf_report _ nofun) rfl
  | _ => exact balanced.congr rfl rfl rfl

end Balance

end Reading

section Read

variable (limit : Option Nat) (options : Options) (source : Source)

theorem spansOf_note {kind : DiagnosticKind} (other : kind ≠ .unclosedDelimiter) (reading : Reading)
    (piece : Piece) :
    spansOf kind (reading.note piece).findings.toList = spansOf kind reading.findings.toList := by
  have none_told : spansOf kind (unclosed? piece).toList = [] := by
    rw [unclosed?]
    split
    · simpa [spansOf, diagnostic] using other.symm
    · rfl
  simp [findings_note, none_told]

/-- All pieces keep the balance. -/
theorem balanced_read (before after : List Piece) :
    (read limit options source before).Balanced (before ++ after) := by
  induction before using List.reverseRecOn generalizing after with
  | nil => exact ⟨nofun, List.Perm.refl _⟩
  | append_singleton before piece ih =>
      rw [List.append_assoc]
      apply (acts_read limit options source before piece).balanced
      · simp
      · refine (ih _).congr ?_ (spansOf_note (by decide) _ piece) ?_
        · rw [Reading.statements_of_quiet_eq (Reading.quiet_note _ piece)]
        · rw [Reading.places, stack_note, Reading.places]

/-- The constructs without an end tag are those that are told of. -/
theorem perm_unendedStarts_build (pieces : List Piece) :
    ((unendedStarts (build limit options source pieces).statements).map
        fun start => pieces[start]?.map Piece.span) ~
      (spansOf .unclosedBlock (build limit options source pieces).findings).map some := by
  have balance := (balanced_read limit options source pieces []).balance
  rw [List.append_nil, Reading.map_snd_places] at balance
  rwa [statements_build, build_eq_finish, Reading.findings_finish, spansOf_append,
    Frame.spansOf_unclosed]

/-! ### Regions -/

/-- The piece is a region that no closing delimiter closes. -/
def isUnclosed (piece : Piece) : Bool := piece.kind ≠ .text && !piece.closed

theorem spansOf_unclosed? (piece : Piece) :
    spansOf .unclosedDelimiter (unclosed? piece).toList =
      ([piece].filter isUnclosed).map delimiterSpan := by
  obtain ⟨kind, span, body, closed⟩ := piece
  cases kind <;> cases closed <;> rfl

/-- Only a region is told of as one that is not closed. -/
theorem Reading.Acts.spansOf_unclosedDelimiter {reading after : Reading} {index : Nat} {span : Span}
    {tag : Tag} (acts : Acts limit reading index span tag after) :
    spansOf .unclosedDelimiter after.findings.toList =
      spansOf .unclosedDelimiter reading.findings.toList := by
  cases acts with
  | @ended keyword inner =>
      have told : spansOf .unclosedDelimiter (toldOnEnding keyword span inner) = [] := by
        cases inner with
        | nil => rfl
        | cons innermost others =>
            exact Frame.spansOf_unclosedDelimiter_unclosed (innermost :: others) false
      rw [findings_push, Array.toList_append, spansOf_append, told, List.append_nil]
  | single => rw [findings_push]
  | tooDeep => exact spansOf_report _ nofun
  | strayBranch => exact spansOf_report _ nofun
  | strayEnd => exact spansOf_report _ nofun
  | unknown => exact spansOf_report _ nofun
  | _ => rfl

/-- The regions that are not closed are those that are told of, in order. -/
theorem spansOf_unclosedDelimiter_build (pieces : List Piece) :
    spansOf .unclosedDelimiter (build limit options source pieces).findings =
      (pieces.filter isUnclosed).map delimiterSpan := by
  rw [build_eq_finish, Reading.findings_finish, spansOf_append,
    Frame.spansOf_unclosedDelimiter_unclosed, List.append_nil]
  induction pieces using List.reverseRecOn with
  | nil => rfl
  | append_singleton pieces piece ih =>
      rw [(acts_read limit options source pieces piece).spansOf_unclosedDelimiter, findings_note,
        Array.toList_append, spansOf_append, ih, List.filter_append, List.map_append,
        spansOf_unclosed?]

end Read

end Tree
end TwigTemplate
