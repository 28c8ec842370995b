import TwigTemplate.Proofs.Tree.Depth
import TwigTemplate.Proofs.Tree.Restrict

/-!
# What reading a piece does

All that a piece can do to a reading, findings included, with one case for each outcome.  An end tag
ends a construct in one go here: the constructs inside it, cut off one after the other, are a single
nest of statements in its last body.
-/

namespace TwigTemplate
namespace Tree

namespace Frame

@[simp]
theorem header_pushAll (frame : Frame) (statements : List Statement) :
    (frame.pushAll statements).header = frame.header := by
  induction statements generalizing frame with
  | nil => rfl
  | cons statement statements ih => exact (ih _).trans (header_push frame statement)

@[simp]
theorem piece_pushAll (frame : Frame) (statements : List Statement) :
    (frame.pushAll statements).piece = frame.piece := by
  induction statements generalizing frame with
  | nil => rfl
  | cons statement statements ih => exact (ih _).trans (piece_push frame statement)

theorem contents_pushAll (frame : Frame) (statements : List Statement) :
    (frame.pushAll statements).contents = frame.contents ++ statements := by
  induction statements generalizing frame with
  | nil => exact (List.append_nil _).symm
  | cons statement statements ih =>
      rw [List.append_cons, ← contents_push, ← ih]
      rfl

end Frame

namespace Reading

/-! ### Cutting off at once -/

/-- Cutting off the innermost constructs leaves a nest of them in the body around. -/
theorem cutOff_pushAll {base : Reading} {frames outer : List Frame}
    (stacked : base.stack = frames ++ outer) (atEnd : Bool) (inner : List Statement) :
    cutOff atEnd (base.pushAll inner) frames =
      { base with
        stack := outer
        findings := base.findings ++ (frames.map (Frame.unclosed · atEnd)).toArray }.pushAll
          (nest frames inner) := by
  induction frames generalizing base inner with
  | nil =>
      obtain ⟨root, stack, flattened, findings⟩ := base
      obtain rfl : stack = outer := stacked
      simp [cutOff, nest]
  | cons frame frames ih =>
      let outside : Reading :=
        { base with
          stack := frames ++ outer
          findings := base.findings.push (frame.unclosed atEnd) }
      have popped : ((base.pushAll inner).report (frame.unclosed atEnd)).pop none =
          outside.pushAll [(frame.pushAll inner).finish none] := by
        rw [pushAll_of_stack_cons stacked]
        rfl
      calc
        cutOff atEnd (base.pushAll inner) (frame :: frames) =
            cutOff atEnd (outside.pushAll [(frame.pushAll inner).finish none]) frames := by
          rw [← popped]
          rfl
        _ = _ := by
          rw [ih rfl]
          simp [outside, nest]

theorem cutOff_eq {reading : Reading} {frames outer : List Frame}
    (stacked : reading.stack = frames ++ outer) (atEnd : Bool) :
    cutOff atEnd reading frames =
      { reading with
        stack := outer
        findings := reading.findings ++ (frames.map (Frame.unclosed · atEnd)).toArray }.pushAll
          (nest frames []) :=
  cutOff_pushAll stacked atEnd []

/-- At the end of the template, all open constructs are told of. -/
theorem findings_finish (reading : Reading) :
    reading.finish.findings = reading.findings.toList ++ reading.stack.map (·.unclosed true) := by
  rw [finish, cutOff_eq (List.append_nil _).symm, pushAll_of_stack_nil rfl]
  simp

/-! ### One case for each outcome -/

/-- The findings on an end tag that ends the construct around these open ones. -/
def toldOnEnding (keyword : String) (span : Span) : List Frame → List Finding
  | [] => []
  | innermost :: others =>
    .mismatchedEndTag keyword span innermost.keyword innermost.span ::
      (innermost :: others).map (·.unclosed false)

/-- What a reading may become when a piece is read. -/
inductive Acts (limit : Option Nat) (reading : Reading) (piece : Nat) (span : Span) :
    Tag → Reading → Prop
  /-- A construct is opened. -/
  | opened {header : Construct} (room : ∀ bound ∈ limit, reading.stack.length < bound) :
      Acts limit reading piece span (.opening header)
        { reading with stack := ⟨header, piece, span, [], []⟩ :: reading.stack }
  /-- A construct is not kept, like the one around it. -/
  | forgotten {header : Construct} {bound : Nat} (limited : limit = some bound)
      (full : bound ≤ reading.stack.length) (inner : reading.flattened ≠ []) :
      Acts limit reading piece span (.opening header)
        { reading with flattened := header.keyword :: reading.flattened }
  /-- A construct is not kept, but the one around it is. -/
  | tooDeep {header : Construct} {bound : Nat} (limited : limit = some bound)
      (full : bound ≤ reading.stack.length) (kept : reading.flattened = []) :
      Acts limit reading piece span (.opening header)
        ({ reading with flattened := [header.keyword] }.report
          (.nestingTooDeep header.keyword bound span))
  /-- The innermost construct gets a branch. -/
  | branched {kind : BranchKind} {frame : Frame} {frames : List Frame}
      (kept : reading.flattened = []) (stacked : reading.stack = frame :: frames)
      (accepted : frame.accepts kind = true) :
      Acts limit reading piece span (.branch kind)
        { reading with stack := frame.openBranch kind piece :: frames }
  /-- A branch of a construct that is not kept is ignored. -/
  | ignored {kind : BranchKind} (inner : reading.flattened ≠ []) :
      Acts limit reading piece span (.branch kind) reading
  /-- The innermost construct accepts no such branch. -/
  | strayBranch {kind : BranchKind} (kept : reading.flattened = [])
      (refused : ∀ frame ∈ reading.stack.head?, frame.accepts kind = false) :
      Acts limit reading piece span (.branch kind)
        (reading.report (.unexpectedBranch kind.keyword span))
  /-- A construct that is not kept is ended. -/
  | recalled {keyword : String} (member : keyword ∈ reading.flattened) :
      Acts limit reading piece span (.closing keyword)
        { reading with flattened := (reading.flattened.dropWhile (· != keyword)).drop 1 }
  /-- A construct is ended, and those inside it are cut off. -/
  | ended {keyword : String} {inner outer : List Frame} {frame : Frame}
      (kept : keyword ∉ reading.flattened) (stacked : reading.stack = inner ++ frame :: outer)
      (same : frame.keyword = keyword) (others : ∀ other ∈ inner, other.keyword ≠ keyword) :
      Acts limit reading piece span (.closing keyword)
        ({ reading with
          stack := outer
          flattened := []
          findings := reading.findings ++ (toldOnEnding keyword span inner).toArray }.push
            ((frame.pushAll (nest inner [])).finish (some piece)))
  /-- An end tag has nothing to end. -/
  | strayEnd {keyword : String} (kept : keyword ∉ reading.flattened)
      (missing : keyword ∉ reading.keywords) :
      Acts limit reading piece span (.closing keyword)
        (reading.report (.unexpectedEndTag keyword span))
  /-- A statement of a single piece is added. -/
  | single {leaf : Leaf} :
      Acts limit reading piece span (.single leaf) (reading.push (.leaf piece leaf))
  /-- Nothing happens. -/
  | inert : Acts limit reading piece span .inert reading
  /-- A keyword is not known. -/
  | unknown {keyword : Excerpt} :
      Acts limit reading piece span (.unknown keyword) (reading.report (.unknownTag keyword))

section Cases

variable (limit : Option Nat) (reading : Reading) (piece : Nat) (span : Span)

theorem acts_openConstruct (header : Construct) :
    Acts limit reading piece span (.opening header)
      (reading.openConstruct limit piece span header) := by
  rcases room_or_full limit reading with room | ⟨bound, limited, full⟩
  · rw [openConstruct_of_lt reading piece span header room]
    exact .opened room
  · rw [limited, openConstruct_of_le reading piece span header full, ← limited]
    by_cases kept : reading.flattened = []
    · rw [if_pos (List.isEmpty_iff.mpr kept), kept]
      exact .tooDeep limited full kept
    · rw [if_neg (by rwa [List.isEmpty_iff])]
      exact .forgotten limited full kept

theorem acts_openBranch (kind : BranchKind) :
    Acts limit reading piece span (.branch kind) (reading.openBranch piece span kind) := by
  rw [openBranch]
  split
  · rename_i kept
    rw [List.isEmpty_iff] at kept
    split
    · rename_i frame frames stacked
      split
      · rename_i accepted
        exact .branched kept stacked accepted
      · rename_i refused
        refine .strayBranch kept ?_
        rw [stacked]
        rintro _ ⟨⟩
        simpa using refused
    · rename_i bare
      exact .strayBranch kept (by simp [bare])
  · rename_i inner
    exact .ignored (by rwa [List.isEmpty_iff] at inner)

/-- An end tag that finds its construct on the stack. -/
theorem close_of_stack {keyword : String} {inner outer : List Frame} {frame : Frame}
    (kept : keyword ∉ reading.flattened) (stacked : reading.stack = inner ++ frame :: outer)
    (same : frame.keyword = keyword) (others : ∀ other ∈ inner, other.keyword ≠ keyword) :
    reading.close piece span keyword =
      { reading with
        stack := outer
        flattened := []
        findings := reading.findings ++ (toldOnEnding keyword span inner).toArray }.push
          ((frame.pushAll (nest inner [])).finish (some piece)) := by
  have parted : reading.stack.span (·.keyword != keyword) = (inner, frame :: outer) := by
    rw [stacked, List.span_eq_takeWhile_dropWhile,
      List.takeWhile_append_of_pos (by simpa using others),
      List.dropWhile_append_of_pos (by simpa using others)]
    simp [same]
  rw [close, if_neg (by simpa using kept), parted]
  cases inner with
  | nil =>
      dsimp only
      rw [pop, stacked]
      simp [toldOnEnding, nest, Frame.pushAll]
  | cons innermost others =>
      dsimp only
      rw [cutOff_eq (by rw [report]; exact stacked), pushAll_of_stack_cons rfl, pop]
      simp [toldOnEnding, report]

theorem acts_close (keyword : String) :
    Acts limit reading piece span (.closing keyword) (reading.close piece span keyword) := by
  by_cases flattened : keyword ∈ reading.flattened
  · rw [close_of_mem_flattened reading piece span flattened]
    exact .recalled flattened
  by_cases member : keyword ∈ reading.keywords
  · obtain ⟨before, after, split, fresh⟩ := List.eq_append_cons_of_mem member
    obtain ⟨inner, rest, stacked, rfl, tail⟩ := List.map_eq_append_iff.mp split
    obtain ⟨frame, outer, rfl, same, -⟩ := List.map_eq_cons_iff.mp tail
    have others : ∀ other ∈ inner, other.keyword ≠ keyword := by
      rintro other among rfl
      exact fresh (List.mem_map_of_mem among)
    rw [close_of_stack reading piece span flattened stacked same others]
    exact .ended flattened stacked same others
  · rw [close_of_not_mem reading piece span flattened member]
    exact .strayEnd flattened member

/-- Reading a piece does one of these. -/
theorem acts_apply (tag : Tag) :
    Acts limit reading piece span tag (reading.apply limit piece span tag) := by
  cases tag with
  | opening header => exact acts_openConstruct limit reading piece span header
  | branch kind => exact acts_openBranch limit reading piece span kind
  | closing keyword => exact acts_close limit reading piece span keyword
  | single leaf => exact .single
  | inert => exact .inert
  | unknown keyword => exact .unknown

/-- Findings so far do not steer what a piece does to the structure. -/
theorem quiet_apply (tag : Tag) :
    (reading.apply limit piece span tag).quiet =
      (reading.quiet.apply limit piece span tag).quiet := by
  cases tag with
  | opening header =>
      rcases room_or_full limit reading with room | ⟨bound, rfl, full⟩
      · rw [apply, apply, openConstruct_of_lt reading piece span header room,
          openConstruct_of_lt reading.quiet piece span header room]
        rfl
      · rw [apply, apply, openConstruct_of_le reading piece span header full,
          openConstruct_of_le reading.quiet piece span header full]
        split <;> split <;> rfl
  | branch kind =>
      rw [apply, apply]
      by_cases accepted : reading.flattened = [] ∧ ∃ frame ∈ reading.stack.head?, frame.accepts kind
      · obtain ⟨kept, frame, first, accepts⟩ := accepted
        obtain ⟨frames, stacked⟩ := List.head?_eq_some_iff.mp first
        have quiet_kept : reading.quiet.flattened = [] := kept
        rw [openBranch_of_accepts piece span kept stacked accepts,
          openBranch_of_accepts piece span quiet_kept stacked accepts]
        rfl
      · have refused : reading.flattened = [] →
            ∀ frame ∈ reading.stack.head?, frame.accepts kind = false := by
          intro kept frame first
          by_contra accepts
          exact accepted ⟨kept, frame, first, by simpa using accepts⟩
        rw [quiet_openBranch_of_forall reading piece span refused,
          quiet_openBranch_of_forall reading.quiet piece span refused]
        rfl
  | closing keyword =>
      rw [apply, apply]
      by_cases flattened : keyword ∈ reading.flattened
      · rw [close_of_mem_flattened reading piece span flattened,
          close_of_mem_flattened reading.quiet piece span flattened]
        rfl
      by_cases member : keyword ∈ reading.keywords
      · rw [quiet_close reading piece span flattened member,
          quiet_close reading.quiet piece span flattened member]
        rfl
      · rw [close_of_not_mem reading piece span flattened member,
          close_of_not_mem reading.quiet piece span flattened member]
        rfl
  | single leaf =>
      rw [apply, apply, quiet_push, quiet_push]
      rfl
  | inert => rfl
  | unknown keyword => rfl

end Cases

/-! ### Findings are only added -/

@[simp]
theorem findings_push (reading : Reading) (statement : Statement) :
    (reading.push statement).findings = reading.findings := by
  rw [push]
  split <;> rfl

/-- A piece takes no finding back. -/
theorem Acts.exists_told {limit : Option Nat} {reading after : Reading} {piece : Nat} {span : Span}
    {tag : Tag} (acts : Acts limit reading piece span tag after) :
    ∃ told : List Finding, after.findings = reading.findings ++ told.toArray := by
  cases acts with
  | tooDeep => exact ⟨[_], rfl⟩
  | strayBranch => exact ⟨[_], rfl⟩
  | strayEnd => exact ⟨[_], rfl⟩
  | unknown => exact ⟨[_], rfl⟩
  | ended => exact ⟨_, findings_push _ _⟩
  | single => exact ⟨[], by simp⟩
  | _ => exact ⟨[], by simp⟩

end Reading
end Tree
end TwigTemplate
