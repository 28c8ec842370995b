import Mathlib.Data.List.Basic
import Mathlib.Data.List.Induction
import Mathlib.Data.List.TakeDrop
import Mathlib.Logic.Function.Iterate
import TwigTemplate.Tree

/-!
# Readings as states of a machine

How the operations on a reading act on its structure.  End tags and the end of the template are
reduced to single pops, so a property of readings has to be followed through pushes, pops, opened
constructs and opened branches only.
-/

namespace TwigTemplate
namespace Tree

namespace Frame

@[simp]
theorem keyword_push (frame : Frame) (statement : Statement) :
    (frame.push statement).keyword = frame.keyword := by
  rw [push]
  split <;> rfl

@[simp]
theorem keyword_openBranch (frame : Frame) (kind : BranchKind) (piece : Nat) :
    (frame.openBranch kind piece).keyword = frame.keyword := rfl

end Frame

namespace Reading

/-- The keywords of the open constructs that are kept, innermost first. -/
def keywords (reading : Reading) : List String := reading.stack.map Frame.keyword

@[simp]
theorem length_keywords (reading : Reading) : reading.keywords.length = reading.stack.length :=
  List.length_map _

@[simp]
theorem keywords_push (reading : Reading) (statement : Statement) :
    (reading.push statement).keywords = reading.keywords := by
  rw [push]
  split
  · rfl
  · rename_i frame frames stacked
    simp [keywords, stacked]

@[simp]
theorem keywords_pop (reading : Reading) (endPiece : Option Nat) :
    (reading.pop endPiece).keywords = reading.keywords.tail := by
  rw [pop]
  split
  · rename_i stacked
    simp [keywords, stacked]
  · rename_i frame frames stacked
    rw [keywords_push]
    simp [keywords, stacked]

@[simp]
theorem flattened_push (reading : Reading) (statement : Statement) :
    (reading.push statement).flattened = reading.flattened := by
  rw [push]
  split <;> rfl

@[simp]
theorem flattened_pop (reading : Reading) (endPiece : Option Nat) :
    (reading.pop endPiece).flattened = reading.flattened := by
  rw [pop]
  split
  · rfl
  · exact flattened_push _ _

/-! ## Findings do not steer a reading -/

/-- The reading without its findings. -/
def quiet (reading : Reading) : Reading := { reading with findings := #[] }

@[simp]
theorem quiet_report (reading : Reading) (finding : Finding) :
    (reading.report finding).quiet = reading.quiet := rfl

theorem quiet_eq_iff {left right : Reading} :
    left.quiet = right.quiet ↔
      left.root = right.root ∧ left.stack = right.stack ∧ left.flattened = right.flattened := by
  simp [quiet]

theorem quiet_push (reading : Reading) (statement : Statement) :
    (reading.push statement).quiet = reading.quiet.push statement := by
  cases reading with
  | mk root stack flattened findings => cases stack <;> rfl

theorem quiet_pop (reading : Reading) (endPiece : Option Nat) :
    (reading.pop endPiece).quiet = reading.quiet.pop endPiece := by
  cases reading with
  | mk root stack flattened findings =>
      cases stack with
      | nil => rfl
      | cons frame frames => exact quiet_push _ _

/-- A construct inside fewer than `limit` others is kept. -/
theorem openConstruct_of_lt {limit : Option Nat} (reading : Reading) (piece : Nat) (span : Span)
    (header : Construct) (room : ∀ bound, limit = some bound → reading.stack.length < bound) :
    reading.openConstruct limit piece span header =
      { reading with stack := ⟨header, piece, span, [], []⟩ :: reading.stack } := by
  have kept : limit.filter (· ≤ reading.stack.length) = none := by
    rw [Option.filter_eq_none_iff]
    intro bound limited
    simpa using room bound limited
  rw [openConstruct, kept]

/-- Of a construct inside `limit` others only the keyword is kept. -/
theorem openConstruct_of_le {limit : Nat} (reading : Reading) (piece : Nat) (span : Span)
    (header : Construct) (full : limit ≤ reading.stack.length) :
    reading.openConstruct (some limit) piece span header =
      { (if reading.flattened.isEmpty then
            reading.report (.nestingTooDeep header.keyword limit span)
          else reading) with flattened := header.keyword :: reading.flattened } := by
  have forgotten : (some limit).filter (· ≤ reading.stack.length) = some limit := by
    simpa using full
  rw [openConstruct, forgotten]
  dsimp only
  split <;> rfl

theorem room_or_full (limit : Option Nat) (reading : Reading) :
    (∀ bound, limit = some bound → reading.stack.length < bound) ∨
      ∃ bound, limit = some bound ∧ bound ≤ reading.stack.length := by
  cases limit with
  | none => exact .inl fun bound limited => by cases limited
  | some bound =>
      rcases Nat.lt_or_ge reading.stack.length bound with room | full
      · exact .inl fun other same => Option.some.inj same ▸ room
      · exact .inr ⟨bound, rfl, full⟩

theorem openBranch_of_accepts {reading : Reading} {frame : Frame} {frames : List Frame}
    (piece : Nat) (span : Span) {kind : BranchKind} (kept : reading.flattened = [])
    (stacked : reading.stack = frame :: frames) (accepted : frame.accepts kind = true) :
    reading.openBranch piece span kind =
      { reading with stack := frame.openBranch kind piece :: frames } := by
  simp [openBranch, kept, stacked, accepted]

/-- A branch that the innermost construct does not accept leaves the structure as it is. -/
theorem quiet_openBranch_of_forall (reading : Reading) (piece : Nat) (span : Span)
    {kind : BranchKind}
    (refused : reading.flattened = [] →
      ∀ frame ∈ reading.stack.head?, frame.accepts kind = false) :
    (reading.openBranch piece span kind).quiet = reading.quiet := by
  rw [openBranch]
  split
  · rename_i kept
    rw [List.isEmpty_iff] at kept
    split
    · rename_i frame frames stacked
      rw [if_neg (by simp [refused kept frame (by simp [stacked])])]
      rfl
    · rfl
  · rfl

/-- A branch is opened where the innermost construct accepts it, and nowhere else. -/
theorem openBranch_cases (reading : Reading) (piece : Nat) (span : Span) (kind : BranchKind) :
    (∃ frame frames, reading.stack = frame :: frames ∧ frame.accepts kind = true ∧
        reading.openBranch piece span kind =
          { reading with stack := frame.openBranch kind piece :: frames }) ∨
      (reading.openBranch piece span kind).quiet = reading.quiet := by
  by_cases accepted : reading.flattened = [] ∧ ∃ frame ∈ reading.stack.head?, frame.accepts kind
  · obtain ⟨kept, frame, first, accepts⟩ := accepted
    obtain ⟨frames, stacked⟩ := List.head?_eq_some_iff.mp first
    exact .inl ⟨frame, frames, stacked, accepts,
      openBranch_of_accepts piece span kept stacked accepts⟩
  · refine .inr (quiet_openBranch_of_forall reading piece span ?_)
    intro kept frame first
    by_contra accepts
    exact accepted ⟨kept, frame, first, by simpa using accepts⟩

/-! ## Cutting off constructs -/

/-- What every pop keeps is kept when constructs are popped one after the other. -/
theorem iterate_pop_of_pop {α : Type} {view : Reading → α}
    (kept : ∀ reading : Reading, view (reading.pop none) = view reading) (reading : Reading)
    (count : Nat) : view ((pop · none)^[count] reading) = view reading := by
  induction count generalizing reading with
  | zero => rfl
  | succ count ih => rw [Function.iterate_succ_apply, ih, kept]

theorem length_stack_iterate_pop (reading : Reading) (count : Nat) :
    ((pop · none)^[count] reading).stack.length = reading.stack.length - count := by
  induction count generalizing reading with
  | zero => rfl
  | succ count ih =>
      rw [Function.iterate_succ_apply, ih, ← length_keywords, keywords_pop, List.length_tail,
        length_keywords]
      omega

/-- The reading with all its open constructs popped. -/
def emptied (reading : Reading) : Reading := (pop · none)^[reading.stack.length] reading.quiet

theorem stack_emptied (reading : Reading) : reading.emptied.stack = [] := by
  apply List.eq_nil_of_length_eq_zero
  rw [emptied, length_stack_iterate_pop]
  exact Nat.sub_self _

/-- The constructs that are cut off are told of, and otherwise only their number counts. -/
theorem quiet_cutOff (atEnd : Bool) (reading : Reading) (frames : List Frame) :
    (cutOff atEnd reading frames).quiet = (pop · none)^[frames.length] reading.quiet := by
  induction frames generalizing reading with
  | nil => rfl
  | cons frame frames ih =>
      calc
        (cutOff atEnd reading (frame :: frames)).quiet =
            (cutOff atEnd ((reading.report (frame.unclosed atEnd)).pop none) frames).quiet := rfl
        _ = (pop · none)^[frames.length] (reading.quiet.pop none) := by
          rw [ih, quiet_pop, quiet_report]

/-- The statements of the tree are what is left at the root when all constructs are popped. -/
theorem statements_finish (reading : Reading) :
    reading.finish.statements = reading.emptied.root.reverse := by
  rw [emptied, ← quiet_cutOff true]
  rfl

theorem close_of_mem_flattened (reading : Reading) (piece : Nat) (span : Span) {keyword : String}
    (member : keyword ∈ reading.flattened) :
    reading.close piece span keyword =
      { reading with flattened := (reading.flattened.dropWhile (· != keyword)).drop 1 } := by
  rw [close, if_pos (List.contains_iff_mem.mpr member)]

theorem span_keyword_ne (keyword : String) (frames : List Frame) :
    frames.span (·.keyword != keyword) =
      (frames.take ((frames.map Frame.keyword).idxOf keyword),
        frames.drop ((frames.map Frame.keyword).idxOf keyword)) := by
  induction frames with
  | nil => rfl
  | cons frame frames ih =>
      rw [List.span_eq_takeWhile_dropWhile] at ih ⊢
      rw [Prod.mk.injEq] at ih
      by_cases same : frame.keyword = keyword
      · simp [same]
      · simp [same, List.idxOf_cons_ne _ same, ih]

theorem close_of_not_mem (reading : Reading) (piece : Nat) (span : Span) {keyword : String}
    (forgotten : keyword ∉ reading.flattened) (missing : keyword ∉ reading.keywords) :
    reading.close piece span keyword = reading.report (.unexpectedEndTag keyword span) := by
  have past : reading.stack.length ≤ reading.keywords.idxOf keyword := by
    have whole := List.idxOf_of_notMem missing
    rw [length_keywords] at whole
    exact Nat.le_of_eq whole.symm
  rw [close, if_neg (by simpa using forgotten), span_keyword_ne, ← keywords,
    List.drop_of_length_le past]

/-- An end tag pops the constructs inside the one that it ends, and then that one. -/
theorem quiet_close (reading : Reading) (piece : Nat) (span : Span) {keyword : String}
    (forgotten : keyword ∉ reading.flattened) (member : keyword ∈ reading.keywords) :
    (reading.close piece span keyword).quiet =
      ((pop · none)^[reading.keywords.idxOf keyword] { reading.quiet with flattened := [] }).pop
        (some piece) := by
  have inside : reading.keywords.idxOf keyword < reading.stack.length := by
    rw [← length_keywords]
    exact List.idxOf_lt_length_iff.mpr member
  rw [close, if_neg (by simpa using forgotten), span_keyword_ne, ← keywords,
    List.drop_eq_getElem_cons inside]
  cases inner : reading.stack.take (reading.keywords.idxOf keyword) with
  | nil =>
      have width : reading.keywords.idxOf keyword = 0 := by
        have lengths := congrArg List.length inner
        rw [List.length_take, List.length_nil] at lengths
        omega
      dsimp only
      rw [quiet_pop, width]
      rfl
  | cons innermost others =>
      have width : (innermost :: others).length = reading.keywords.idxOf keyword := by
        rw [← inner, List.length_take]
        omega
      dsimp only
      rw [quiet_pop, quiet_cutOff, quiet_report, width]
      rfl

/-- The construct that an end tag ends is still open once those inside it are popped. -/
theorem stack_iterate_pop_ne_nil {reading reading' : Reading} {keyword : String}
    (member : keyword ∈ reading.keywords) (same_stack : reading'.stack = reading.stack) :
    ((pop · none)^[reading.keywords.idxOf keyword] reading').stack ≠ [] := by
  apply List.ne_nil_of_length_pos
  have inside := List.idxOf_lt_length_iff.mpr member
  rw [length_keywords] at inside
  rw [length_stack_iterate_pop, same_stack]
  exact Nat.sub_pos_of_lt inside

end Reading

/-! ## Runs -/

/-- What has been read after all pieces. -/
def read (limit : Option Nat) (options : Options) (source : Source) (pieces : List Piece) :
    Reading :=
  pieces.zipIdx.foldl (fun reading (piece, index) => step limit options source reading piece index)
    Reading.start

theorem build_eq_finish (limit : Option Nat) (options : Options) (source : Source)
    (pieces : List Piece) :
    build limit options source pieces = (read limit options source pieces).finish := rfl

@[simp]
theorem read_nil (limit : Option Nat) (options : Options) (source : Source) :
    read limit options source [] = Reading.start := rfl

theorem read_append_singleton (limit : Option Nat) (options : Options) (source : Source)
    (pieces : List Piece) (piece : Piece) :
    read limit options source (pieces ++ [piece]) =
      step limit options source (read limit options source pieces) piece pieces.length := by
  simp [read, List.zipIdx_append]

/-- The delimiter of a region that holds it is not cut off. -/
theorem delimiterSpan_of_le {piece : Piece} (long : piece.span.start + 2 ≤ piece.span.stop) :
    delimiterSpan piece = ⟨piece.span.start, piece.span.start + 2⟩ :=
  if_pos long

/-- The reading with the finding on a region that is not closed, if the piece is one. -/
def Reading.note (reading : Reading) (piece : Piece) : Reading :=
  (unclosed? piece).elim reading reading.report

@[simp]
theorem Reading.quiet_note (reading : Reading) (piece : Piece) :
    (reading.note piece).quiet = reading.quiet := by
  rw [note]
  cases unclosed? piece <;> rfl

theorem stack_note (reading : Reading) (piece : Piece) :
    (reading.note piece).stack = reading.stack :=
  (Reading.quiet_eq_iff.mp (reading.quiet_note piece)).2.1

theorem flattened_note (reading : Reading) (piece : Piece) :
    (reading.note piece).flattened = reading.flattened :=
  (Reading.quiet_eq_iff.mp (reading.quiet_note piece)).2.2

theorem step_eq_apply (limit : Option Nat) (options : Options) (source : Source)
    (reading : Reading) (piece : Piece) (index : Nat) :
    step limit options source reading piece index =
      (reading.note piece).apply limit index piece.span (Tag.ofPiece options source piece) := rfl

/-! ## Invariants -/

/-- The two readings have the same statements and open constructs. -/
def Reading.SameShape (left right : Reading) : Prop :=
  left.root = right.root ∧ left.stack = right.stack

theorem Reading.sameShape_of_quiet_eq {left right : Reading} (same : left.quiet = right.quiet) :
    left.SameShape right :=
  ⟨(quiet_eq_iff.mp same).1, (quiet_eq_iff.mp same).2.1⟩

/-- A property that single operations keep.  Between two pieces a reading is `settled`; while
constructs are being cut off it need only be `torn`. -/
structure Invariant (settled torn : Reading → Prop) : Prop where
  /-- Only statements and open constructs matter. -/
  settled_congr : ∀ {left right : Reading}, settled right → left.SameShape right → settled left
  /-- Only statements and open constructs matter, also of a torn reading. -/
  torn_congr : ∀ {left right : Reading}, torn right → left.SameShape right → torn left
  /-- Nothing has been read. -/
  start : settled Reading.start
  /-- A statement of a single piece is added. -/
  push : ∀ {reading : Reading} (piece : Nat) (leaf : Leaf), settled reading →
    settled (reading.push (.leaf piece leaf))
  /-- A construct is opened. -/
  openConstruct : ∀ {reading : Reading} (header : Construct) (piece : Nat) (span : Span),
    settled reading →
      settled { reading with stack := ⟨header, piece, span, [], []⟩ :: reading.stack }
  /-- A branch is opened. -/
  openBranch : ∀ {reading : Reading} {frame : Frame} {frames : List Frame} {kind : BranchKind}
    (piece : Nat), reading.stack = frame :: frames → frame.accepts kind = true → settled reading →
      settled { reading with stack := frame.openBranch kind piece :: frames }
  /-- Cutting off may begin at any time. -/
  torn_of_settled : ∀ {reading : Reading}, settled reading → torn reading
  /-- A construct is cut off. -/
  cutOff : ∀ {reading : Reading}, torn reading → torn (reading.pop none)
  /-- A construct is ended. -/
  close : ∀ {reading : Reading} (piece : Nat), reading.stack ≠ [] → torn reading →
    settled (reading.pop (some piece))

namespace Invariant

variable {settled torn : Reading → Prop} (invariant : Invariant settled torn)
include invariant

theorem iterate_pop {reading : Reading} (count : Nat) (holds : torn reading) :
    torn ((Reading.pop · none)^[count] reading) := by
  induction count generalizing reading with
  | zero => exact holds
  | succ count ih => exact ih (invariant.cutOff holds)

theorem settled_close {reading : Reading} (piece : Nat) (span : Span) (keyword : String)
    (holds : settled reading) : settled (reading.close piece span keyword) := by
  by_cases flattened : keyword ∈ reading.flattened
  · rw [Reading.close_of_mem_flattened reading piece span flattened]
    exact invariant.settled_congr holds ⟨rfl, rfl⟩
  by_cases member : keyword ∈ reading.keywords
  · have closed := Reading.quiet_close reading piece span flattened member
    suffices settled (reading.close piece span keyword).quiet from
      invariant.settled_congr this ⟨rfl, rfl⟩
    rw [closed]
    apply invariant.close piece
    · exact Reading.stack_iterate_pop_ne_nil member rfl
    · apply invariant.iterate_pop
      exact invariant.torn_congr (invariant.torn_of_settled holds) ⟨rfl, rfl⟩
  · rw [Reading.close_of_not_mem reading piece span flattened member]
    exact invariant.settled_congr holds ⟨rfl, rfl⟩

theorem settled_openConstruct (limit : Option Nat) {reading : Reading} (piece : Nat) (span : Span)
    (header : Construct) (holds : settled reading) :
    settled (reading.openConstruct limit piece span header) := by
  rcases Reading.room_or_full limit reading with room | ⟨bound, rfl, full⟩
  · rw [Reading.openConstruct_of_lt reading piece span header room]
    exact invariant.openConstruct header piece span holds
  · rw [Reading.openConstruct_of_le reading piece span header full]
    split <;> exact invariant.settled_congr holds ⟨rfl, rfl⟩

theorem settled_openBranch {reading : Reading} (piece : Nat) (span : Span) (kind : BranchKind)
    (holds : settled reading) : settled (reading.openBranch piece span kind) := by
  rcases reading.openBranch_cases piece span kind with
    ⟨frame, frames, stacked, accepts, opened⟩ | same
  · rw [opened]
    exact invariant.openBranch piece stacked accepts holds
  · exact invariant.settled_congr holds (Reading.sameShape_of_quiet_eq same)

theorem settled_step (limit : Option Nat) (options : Options) (source : Source) {reading : Reading}
    (piece : Piece) (index : Nat) (holds : settled reading) :
    settled (step limit options source reading piece index) := by
  have told_holds := invariant.settled_congr holds
    (Reading.sameShape_of_quiet_eq (reading.quiet_note piece))
  rw [step_eq_apply]
  cases Tag.ofPiece options source piece with
  | opening header => exact invariant.settled_openConstruct limit index piece.span header told_holds
  | branch kind => exact invariant.settled_openBranch index piece.span kind told_holds
  | closing keyword => exact invariant.settled_close index piece.span keyword told_holds
  | single leaf => exact invariant.push index leaf told_holds
  | inert => exact told_holds
  | unknown keyword => exact invariant.settled_congr told_holds ⟨rfl, rfl⟩

/-- What has been read is settled, whatever the pieces are. -/
theorem settled_read (limit : Option Nat) (options : Options) (source : Source)
    (pieces : List Piece) : settled (read limit options source pieces) := by
  induction pieces using List.reverseRecOn with
  | nil => exact invariant.start
  | append_singleton pieces piece ih =>
      rw [read_append_singleton]
      exact invariant.settled_step limit options source piece pieces.length ih

/-- The statements of a tree are those of a torn reading without open constructs. -/
theorem exists_torn (limit : Option Nat) (options : Options) (source : Source)
    (pieces : List Piece) :
    ∃ reading : Reading, torn reading ∧ reading.stack = [] ∧
      (build limit options source pieces).statements = reading.root.reverse := by
  have holds := invariant.torn_of_settled (invariant.settled_read limit options source pieces)
  refine ⟨(read limit options source pieces).emptied, ?_, Reading.stack_emptied _,
    Reading.statements_finish _⟩
  exact invariant.iterate_pop _ (invariant.torn_congr holds ⟨rfl, rfl⟩)

end Invariant
end Tree
end TwigTemplate
