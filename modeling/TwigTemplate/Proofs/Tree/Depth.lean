import TwigTemplate.Proofs.Tree.Splice

/-!
# Findings on deep nesting

A reading with a nesting limit tells of exactly those constructs that a reading without one has
inside exactly `limit` others: it tells of a construct that it does not keep when it keeps the
construct around it.
-/

namespace TwigTemplate

namespace Finding

/-- Where a construct that is nested too deeply is opened. -/
def deepSpan? : Finding → Option Span
  | nestingTooDeep _ _ span => some span
  | _ => none

end Finding

namespace Statement

theorem atDepth_append (depth : Nat) (left right : List Statement) :
    atDepth depth (left ++ right) = atDepth depth left ++ atDepth depth right := by
  induction depth generalizing left right with
  | zero => rfl
  | succ depth ih => rw [atDepth, atDepth, atDepth, List.flatMap_append, ih]

/-- First pieces of the constructs inside exactly `depth` others. -/
def constructsAt (depth : Nat) (statements : List Statement) : List Nat :=
  ((atDepth depth statements).filter (·.hasBody)).map (·.startPiece)

theorem constructsAt_append (depth : Nat) (left right : List Statement) :
    constructsAt depth (left ++ right) = constructsAt depth left ++ constructsAt depth right := by
  simp [constructsAt, atDepth_append]

/-- First pieces of the constructs inside exactly `depth` others that a statement contributes when
it is itself inside `outer` constructs. -/
def constructsInside (depth outer : Nat) (statement : Statement) : List Nat :=
  if outer ≤ depth then constructsAt (depth - outer) [statement] else []

theorem constructsInside_zero (depth : Nat) (statement : Statement) :
    constructsInside depth 0 statement = constructsAt depth [statement] :=
  if_pos (Nat.zero_le depth)

theorem atDepth_nil (depth : Nat) : atDepth depth [] = [] := by
  induction depth with
  | zero => rfl
  | succ depth ih => rw [atDepth, List.flatMap_nil, ih]

theorem constructsAt_nil (depth : Nat) : constructsAt depth [] = [] := by
  rw [constructsAt, atDepth_nil]
  rfl

theorem constructsInside_leaf (depth outer piece : Nat) (content : Leaf) :
    constructsInside depth outer (.leaf piece content) = [] := by
  rw [constructsInside]
  split
  · cases depth - outer with
    | zero => rfl
    | succ depth => simp [constructsAt, atDepth, children, atDepth_nil]
  · rfl

/-- Only the construct itself counts, or what is inside it. -/
theorem constructsInside_of_hasBody {depth outer : Nat} {statement : Statement}
    (owner : statement.hasBody = true) :
    constructsInside depth outer statement =
      if outer = depth then [statement.startPiece]
      else if outer < depth then constructsAt (depth - outer - 1) statement.children else [] := by
  rw [constructsInside]
  rcases Nat.lt_trichotomy outer depth with below | rfl | above
  · rw [if_pos (Nat.le_of_lt below), if_neg (Nat.ne_of_lt below), if_pos below]
    obtain ⟨further, inside⟩ : ∃ further, depth - outer = further + 1 :=
      ⟨depth - outer - 1, by omega⟩
    rw [inside]
    simp [constructsAt, atDepth]
  · simp [constructsAt, atDepth, owner]
  · rw [if_neg (Nat.not_le.mpr above), if_neg (by omega), if_neg (by omega)]

/-- The end piece of a construct does not matter, only its contents do. -/
theorem constructsInside_congr {depth outer : Nat} {left right : Statement}
    (left_owner : left.hasBody = true) (right_owner : right.hasBody = true)
    (same_start : left.startPiece = right.startPiece)
    (same_children : left.children = right.children) :
    constructsInside depth outer left = constructsInside depth outer right := by
  rw [constructsInside_of_hasBody left_owner, constructsInside_of_hasBody right_owner, same_start,
    same_children]

end Statement

namespace Tree

open Statement

namespace Frame

@[simp]
theorem piece_push (frame : Frame) (statement : Statement) :
    (frame.push statement).piece = frame.piece := by
  rw [push]
  split <;> rfl

theorem constructsInside_push (depth outer : Nat) (frame : Frame) (statement : Statement) :
    constructsInside depth outer ((frame.push statement).finish none) =
      constructsInside depth outer (frame.finish none) ++
        constructsInside depth (outer + 1) statement := by
  have same_start : ((frame.push statement).finish none).startPiece =
      (frame.finish none).startPiece := frame.piece_push statement
  rw [constructsInside_of_hasBody rfl, constructsInside_of_hasBody rfl, same_start,
    children_finish, children_finish, contents_push, constructsAt_append, constructsInside]
  rcases Nat.lt_trichotomy outer depth with below | same | above
  · rw [if_neg (Nat.ne_of_lt below), if_neg (Nat.ne_of_lt below), if_pos below, if_pos below,
      if_pos (Nat.succ_le_of_lt below), Nat.sub_sub]
  · rw [if_pos same, if_pos same, if_neg (by omega), List.append_nil]
  · rw [if_neg (Nat.ne_of_gt above), if_neg (Nat.ne_of_gt above), if_neg (by omega),
      if_neg (by omega), if_neg (by omega), List.append_nil]

end Frame

namespace Reading

/-- First pieces of the open constructs, and of those inside them, inside exactly `depth` others. -/
def framesAt (depth : Nat) : List Frame → List Nat
  | [] => []
  | frame :: frames =>
    framesAt depth frames ++ constructsInside depth frames.length (frame.finish none)

/-- First pieces of the constructs inside exactly `depth` others, open or finished. -/
def constructsAt (depth : Nat) (reading : Reading) : List Nat :=
  Statement.constructsAt depth reading.root.reverse ++ framesAt depth reading.stack

theorem constructsAt_of_quiet_eq {left right : Reading} (same : left.quiet = right.quiet)
    (depth : Nat) : left.constructsAt depth = right.constructsAt depth := by
  obtain ⟨roots, frames, _⟩ := quiet_eq_iff.mp same
  rw [constructsAt, constructsAt, roots, frames]

theorem constructsAt_push (depth : Nat) (reading : Reading) (statement : Statement) :
    (reading.push statement).constructsAt depth =
      reading.constructsAt depth ++ constructsInside depth reading.stack.length statement := by
  cases stacked : reading.stack with
  | nil => simp [push, constructsAt, stacked, framesAt, constructsAt_append, constructsInside_zero]
  | cons frame frames =>
      simp [push, constructsAt, stacked, framesAt, Frame.constructsInside_push]

theorem constructsAt_pop (depth : Nat) (reading : Reading) (endPiece : Option Nat) :
    (reading.pop endPiece).constructsAt depth = reading.constructsAt depth := by
  cases stacked : reading.stack with
  | nil => rw [pop, stacked]
  | cons frame frames =>
      have finished : constructsInside depth frames.length (frame.finish endPiece) =
          constructsInside depth frames.length (frame.finish none) :=
        constructsInside_congr rfl rfl rfl rfl
      simp only [pop, stacked, constructsAt_push, finished]
      simp [constructsAt, stacked, framesAt]

theorem constructsAt_iterate_pop (depth : Nat) (reading : Reading) (count : Nat) :
    ((pop · none)^[count] reading).constructsAt depth = reading.constructsAt depth := by
  exact iterate_pop_of_pop (constructsAt_pop depth · none) reading count

/-- Only a construct that is opened inside exactly `depth` others is a new one there. -/
theorem constructsAt_openConstruct (depth : Nat) (reading : Reading) (piece : Nat) (span : Span)
    (header : Construct) :
    (reading.openConstruct none piece span header).constructsAt depth =
      reading.constructsAt depth ++ if reading.stack.length = depth then [piece] else [] := by
  have opened : constructsInside depth reading.stack.length
      ((⟨header, piece, span, [], []⟩ : Frame).finish none) =
        if reading.stack.length = depth then [piece] else [] := by
    rw [constructsInside_of_hasBody rfl]
    simp [Frame.finish, children, startPiece, Statement.constructsAt, atDepth_nil]
  rw [openConstruct_of_lt reading piece span header (by simp)]
  simp [constructsAt, framesAt, opened]

theorem constructsAt_openBranch (depth : Nat) (reading : Reading) (piece : Nat) (span : Span)
    (kind : BranchKind) :
    (reading.openBranch piece span kind).constructsAt depth = reading.constructsAt depth := by
  rcases reading.openBranch_cases piece span kind with
    ⟨frame, frames, stacked, accepts, opened⟩ | same
  · have branched : constructsInside depth frames.length
        ((frame.openBranch kind piece).finish none) =
          constructsInside depth frames.length (frame.finish none) :=
      constructsInside_congr rfl rfl rfl (frame.contents_openBranch kind piece)
    rw [opened]
    simp [constructsAt, stacked, framesAt, branched]
  · exact constructsAt_of_quiet_eq same depth

theorem constructsAt_close (depth : Nat) (reading : Reading) (piece : Nat) (span : Span)
    (keyword : String) :
    (reading.close piece span keyword).constructsAt depth = reading.constructsAt depth := by
  by_cases flattened : keyword ∈ reading.flattened
  · rw [close_of_mem_flattened reading piece span flattened]
    rfl
  by_cases member : keyword ∈ reading.keywords
  · have closed := quiet_close reading piece span flattened member
    calc
      (reading.close piece span keyword).constructsAt depth =
          (reading.close piece span keyword).quiet.constructsAt depth := rfl
      _ = reading.constructsAt depth := by
        rw [closed, constructsAt_pop, constructsAt_iterate_pop]
        rfl
  · rw [close_of_not_mem reading piece span flattened member]
    rfl

/-! ### What is told -/

/-- Where the constructs that are nested too deeply were opened, as told so far. -/
def deepSpans (reading : Reading) : List Span := reading.findings.toList.filterMap Finding.deepSpan?

theorem deepSpans_report (reading : Reading) (finding : Finding) :
    (reading.report finding).deepSpans = reading.deepSpans ++ finding.deepSpan?.toList := by
  cases deep : finding.deepSpan? <;> simp [deepSpans, report, deep]

theorem deepSpans_report_of_none {finding : Finding} (other : finding.deepSpan? = none)
    (reading : Reading) : (reading.report finding).deepSpans = reading.deepSpans := by
  rw [deepSpans_report, other]
  exact List.append_nil _

@[simp]
theorem deepSpans_push (reading : Reading) (statement : Statement) :
    (reading.push statement).deepSpans = reading.deepSpans := by
  rw [push]
  split <;> rfl

@[simp]
theorem deepSpans_pop (reading : Reading) (endPiece : Option Nat) :
    (reading.pop endPiece).deepSpans = reading.deepSpans := by
  rw [pop]
  split
  · rfl
  · exact deepSpans_push _ _

theorem deepSpans_cutOff (atEnd : Bool) (reading : Reading) (frames : List Frame) :
    (cutOff atEnd reading frames).deepSpans = reading.deepSpans := by
  induction frames generalizing reading with
  | nil => rfl
  | cons frame frames ih =>
      calc
        (cutOff atEnd reading (frame :: frames)).deepSpans =
            ((reading.report (frame.unclosed atEnd)).pop none).deepSpans := ih _
        _ = reading.deepSpans := by
          rw [deepSpans_pop]
          exact deepSpans_report_of_none rfl reading

theorem deepSpans_openBranch (reading : Reading) (piece : Nat) (span : Span) (kind : BranchKind) :
    (reading.openBranch piece span kind).deepSpans = reading.deepSpans := by
  have refused : (reading.report (.unexpectedBranch kind.keyword span)).deepSpans =
      reading.deepSpans := deepSpans_report_of_none rfl reading
  rw [openBranch]
  split
  · split
    · split
      · rfl
      · exact refused
    · exact refused
  · rfl

theorem deepSpans_close (reading : Reading) (piece : Nat) (span : Span) (keyword : String) :
    (reading.close piece span keyword).deepSpans = reading.deepSpans := by
  rw [close]
  split
  · rfl
  · split
    · exact deepSpans_report_of_none rfl reading
    · rw [deepSpans_pop]
      rfl
    · rw [deepSpans_pop, deepSpans_cutOff]
      exact deepSpans_report_of_none rfl reading

theorem deepSpans_openConstruct_of_lt {limit : Nat} {reading : Reading} (piece : Nat) (span : Span)
    (header : Construct) (room : reading.stack.length < limit) :
    (reading.openConstruct (some limit) piece span header).deepSpans = reading.deepSpans := by
  rw [openConstruct_of_lt reading piece span header (by rintro _ ⟨⟩; exact room)]
  rfl

/-- Of nested constructs that are not kept, only the outermost one is told of. -/
theorem deepSpans_openConstruct_of_le {limit : Nat} {reading : Reading} (piece : Nat) (span : Span)
    (header : Construct) (full : limit ≤ reading.stack.length) :
    (reading.openConstruct (some limit) piece span header).deepSpans =
      reading.deepSpans ++ if reading.flattened = [] then [span] else [] := by
  rw [openConstruct_of_le reading piece span header full]
  by_cases outermost : reading.flattened = []
  · rw [if_pos (List.isEmpty_iff.mpr outermost), if_pos outermost]
    exact deepSpans_report reading (.nestingTooDeep header.keyword limit span)
  · rw [if_neg (by rwa [List.isEmpty_iff]), if_neg outermost, List.append_nil]
    rfl

namespace Follows

variable {limit : Nat} {follower reading : Reading} (follows : Follows limit follower reading)
include follows

/-- A construct is told of when exactly `limit` others are open around it. -/
theorem deepSpans_openConstruct (piece : Nat) (span : Span) (header : Construct) :
    (follower.openConstruct (some limit) piece span header).deepSpans =
      follower.deepSpans ++ if reading.stack.length = limit then [span] else [] := by
  have width := follows.length_stack
  have forgotten := follows.length_flattened
  rcases Nat.lt_or_ge reading.stack.length limit with room | full
  · rw [deepSpans_openConstruct_of_lt piece span header (by omega), if_neg (Nat.ne_of_lt room),
      List.append_nil]
  · have outermost : follower.flattened = [] ↔ reading.stack.length = limit := by
      rw [← List.length_eq_zero_iff, forgotten]
      omega
    rw [deepSpans_openConstruct_of_le piece span header (by omega), if_congr outermost rfl rfl]

/-- A piece that is told of is a construct of its own at the limit, and no other piece is either. -/
theorem exists_new (index : Nat) (span : Span) (tag : Tag) :
    ∃ new : List Nat, (∀ piece ∈ new, piece = index) ∧
      (reading.apply none index span tag).constructsAt limit =
        reading.constructsAt limit ++ new ∧
      (follower.apply (some limit) index span tag).deepSpans =
        follower.deepSpans ++ new.map fun _ => span := by
  have nothing : ∀ {reading' follower' : Reading},
      reading'.constructsAt limit = reading.constructsAt limit →
      follower'.deepSpans = follower.deepSpans →
      ∃ new : List Nat, (∀ piece ∈ new, piece = index) ∧
        reading'.constructsAt limit = reading.constructsAt limit ++ new ∧
        follower'.deepSpans = follower.deepSpans ++ new.map fun _ => span := by
    intro reading' follower' same_constructs same_spans
    exact ⟨[], by simp, by simpa using same_constructs, by simpa using same_spans⟩
  cases tag with
  | opening header =>
      refine ⟨if reading.stack.length = limit then [index] else [], ?_,
        constructsAt_openConstruct limit reading index span header, ?_⟩
      · split <;> simp
      · rw [Reading.apply, follows.deepSpans_openConstruct index span header]
        split <;> rfl
  | branch kind =>
      exact nothing (constructsAt_openBranch limit reading index span kind)
        (deepSpans_openBranch follower index span kind)
  | closing keyword =>
      exact nothing (constructsAt_close limit reading index span keyword)
        (deepSpans_close follower index span keyword)
  | single leaf =>
      refine nothing ?_ (deepSpans_push follower _)
      rw [Reading.apply, constructsAt_push, constructsInside_leaf, List.append_nil]
  | inert => exact nothing rfl rfl
  | unknown keyword =>
      exact nothing rfl (deepSpans_report_of_none rfl follower)

end Follows
end Reading

theorem deepSpans_note (reading : Reading) (piece : Piece) :
    (reading.note piece).deepSpans = reading.deepSpans := by
  rw [Reading.note, unclosed?]
  split
  · exact Reading.deepSpans_report_of_none rfl reading
  · rfl

/-- What a reading with a limit tells of are the constructs of a reading without one. -/
theorem deepSpans_read (limit : Nat) (options : Options) (source : Source) (pieces : List Piece) :
    (∀ index ∈ (read none options source pieces).constructsAt limit, index < pieces.length) ∧
      (read (some limit) options source pieces).deepSpans.map some =
        ((read none options source pieces).constructsAt limit).map
          fun index => pieces[index]?.map (·.span) := by
  induction pieces using List.reverseRecOn with
  | nil =>
      have bare : Reading.start.constructsAt limit = [] :=
        (List.append_nil _).trans (constructsAt_nil limit)
      rw [read_nil, read_nil, bare]
      exact ⟨by simp, rfl⟩
  | append_singleton pieces piece ih =>
      obtain ⟨bound, told⟩ := ih
      obtain ⟨new, own, constructs, spans⟩ :=
        ((follows_read limit options source pieces).note piece).exists_new pieces.length piece.span
          (Tag.ofPiece options source piece)
      rw [Reading.constructsAt_of_quiet_eq (Reading.quiet_note _ piece)] at constructs
      rw [deepSpans_note] at spans
      rw [read_append_singleton, read_append_singleton, step_eq_apply, step_eq_apply, constructs,
        spans]
      constructor
      · intro index member
        rw [List.length_append, List.length_singleton]
        rcases List.mem_append.mp member with member | member
        · exact Nat.lt_succ_of_lt (bound index member)
        · exact own index member ▸ Nat.lt_succ_self _
      · rw [List.map_append, List.map_append, told, List.map_map]
        congr 1
        · apply List.map_congr_left
          intro index member
          rw [List.getElem?_append_left (bound index member)]
        · apply List.map_congr_left
          intro index member
          rw [own index member, List.getElem?_concat_length]
          rfl

theorem constructsAt_build (depth : Nat) (options : Options) (source : Source)
    (pieces : List Piece) :
    constructsAt depth (build none options source pieces).statements =
      (read none options source pieces).constructsAt depth := by
  let reading := read none options source pieces
  calc
    constructsAt depth (build none options source pieces).statements =
        reading.emptied.constructsAt depth := by
      rw [build_eq_finish, Reading.statements_finish, Reading.constructsAt, Reading.stack_emptied]
      exact (List.append_nil _).symm
    _ = reading.constructsAt depth := Reading.constructsAt_iterate_pop depth reading.quiet _

theorem deepSpans_diagnostics (tree : Tree) :
    (tree.diagnostics.filter (·.kind = .nestingTooDeep)).map (·.span) =
      tree.findings.filterMap Finding.deepSpan? := by
  rw [diagnostics]
  induction tree.findings with
  | nil => rfl
  | cons finding findings ih =>
      cases finding <;> simpa [Finding.diagnostic, Finding.deepSpan?, List.filterMap_cons] using ih

theorem deepSpans_build (limit : Option Nat) (options : Options) (source : Source)
    (pieces : List Piece) :
    (build limit options source pieces).findings.filterMap Finding.deepSpan? =
      (read limit options source pieces).deepSpans := by
  rw [build_eq_finish, Reading.finish]
  exact Reading.deepSpans_cutOff true _ _

/-- The nesting limit is splicing: the tree is the one that would be formed without a limit, with
all constructs inside so many others spliced away.  Of the constructs that are spliced away, those
inside exactly as many others as the limit allows are told of, each once and at the piece that opens
it. -/
theorem limit_is_splicing (options : Options) (source : Source) (pieces : List Piece) :
    (ofPieces options source pieces).statements =
        spliceAll nestingLimit 0 (build none options source pieces).statements ∧
      (((ofPieces options source pieces).diagnostics.filter (·.kind = .nestingTooDeep)).map
          fun diagnostic => some diagnostic.span) =
        ((atDepth nestingLimit (build none options source pieces).statements).filter
          (·.hasBody)).map fun statement => pieces[statement.startPiece]?.map (·.span) := by
  constructor
  · exact (follows_read nestingLimit options source pieces).statements_finish
  · have told := (deepSpans_read nestingLimit options source pieces).2
    rw [← deepSpans_build, ← constructsAt_build, ← deepSpans_diagnostics, List.map_map,
      constructsAt, List.map_map] at told
    exact told

end Tree
end TwigTemplate
