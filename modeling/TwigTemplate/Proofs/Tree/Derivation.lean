import TwigTemplate.Proofs.Statement.Derivation
import TwigTemplate.Proofs.Tree.Act

/-!
# Well-formed templates are those without findings

Reading a well-formed body adds its statements to the body at hand and tells of nothing, as long as
the nesting limit leaves room for it.  Conversely, as long as nothing is told, the pieces read so
far derive the finished statements and the beginnings of the open constructs.
-/

namespace TwigTemplate
namespace Tree

open Statement

/-- The pieces with their meanings. -/
def signs (options : Options) (source : Source) (pieces : List Piece) : List (Nat × Tag) :=
  pieces.zipIdx.map fun (piece, index) => (index, Tag.ofPiece options source piece)

theorem signs_append_singleton (options : Options) (source : Source) (pieces : List Piece)
    (piece : Piece) :
    signs options source (pieces ++ [piece]) =
      signs options source pieces ++ [(pieces.length, Tag.ofPiece options source piece)] := by
  simp [signs, List.zipIdx_append]

/-! ### Reading what is derived -/

namespace Frame

/-- The construct with further branches. -/
def addBranches (frame : Frame) (branches : List (Branch Statement)) : Frame :=
  { frame with
    branches := (branches.map fun branch => { branch with body := branch.body.reverse }).reverse ++
      frame.branches }

theorem finish_addBranches (header : Construct) (piece : Nat) (span : Span) (body : List Statement)
    (branches : List (Branch Statement)) (endPiece : Option Nat) :
    ((Frame.mk header piece span body.reverse []).addBranches branches).finish endPiece =
      .construct piece header body branches endPiece := by
  simp [addBranches, finish, Function.comp_def]

/-- A branch with its statements comes before further ones. -/
theorem addBranches_openBranch (frame : Frame) (kind : BranchKind) (piece : Nat)
    (body : List Statement) (branches : List (Branch Statement)) :
    ((frame.openBranch kind piece).pushAll body).addBranches branches =
      frame.addBranches (⟨kind, piece, body⟩ :: branches) := by
  rw [pushAll_of_branches_cons rfl]
  simp [addBranches, openBranch]

end Frame

namespace Reading

/-- Read pieces by their meanings; where they lie is given by their index. -/
def run (limit : Option Nat) (spanOf : Nat → Span) (reading : Reading) (signs : List (Nat × Tag)) :
    Reading :=
  signs.foldl (fun reading (index, tag) => reading.apply limit index (spanOf index) tag) reading

section Run

variable {limit : Nat} {spanOf : Nat → Span}

theorem run_append (reading : Reading) (left right : List (Nat × Tag)) :
    reading.run (some limit) spanOf (left ++ right) =
      (reading.run (some limit) spanOf left).run (some limit) spanOf right :=
  List.foldl_append

theorem run_cons (reading : Reading) (index : Nat) (tag : Tag) (signs : List (Nat × Tag)) :
    reading.run (some limit) spanOf ((index, tag) :: signs) =
      (reading.apply (some limit) index (spanOf index) tag).run (some limit) spanOf signs := rfl

theorem length_stack_pushAll (reading : Reading) (statements : List Statement) :
    (reading.pushAll statements).stack.length = reading.stack.length := by
  rw [← length_keywords, keywords_pushAll, length_keywords]

/-- Ending the innermost construct, when nothing inside it is open. -/
theorem close_of_stack_cons (reading : Reading) {frame : Frame} {frames : List Frame} (piece : Nat)
    (span : Span) (kept : reading.flattened = []) (stacked : reading.stack = frame :: frames) :
    reading.close piece span frame.keyword =
      { reading with stack := frames }.push (frame.finish (some piece)) := by
  have forgotten : frame.keyword ∉ reading.flattened := by simp [kept]
  have split : reading.stack = [] ++ frame :: frames := stacked
  rw [close_of_stack reading piece span forgotten split rfl (by simp), ← kept]
  simp [toldOnEnding, nest, Frame.pushAll]

/-- Opening a branch that the innermost construct accepts. -/
theorem apply_branch {reading : Reading} {frame : Frame} {frames : List Frame} {kind : BranchKind}
    {piece : Nat} {span : Span} (kept : reading.flattened = [])
    (stacked : reading.stack = frame :: frames) (accepted : frame.header.accepts kind = true)
    (latest : frame.branches.head?.any (·.kind.isOtherwise) = false) :
    reading.apply (some limit) piece span (.branch kind) =
      { reading with stack := frame.openBranch kind piece :: frames } :=
  openBranch_of_accepts piece span kept stacked (by simp [Frame.accepts, accepted, latest])

mutual

/-- Reading a well-formed body adds its statements to the body being read. -/
theorem run_of_derives : ∀ {room : Nat} {signs : List (Nat × Tag)} {statements : List Statement},
    Derives room signs statements → ∀ {reading : Reading}, reading.flattened = [] →
      reading.stack.length + room ≤ limit →
        reading.run (some limit) spanOf signs = reading.pushAll statements
  | _, _, _, .nil, _, _, _ => rfl
  | _, _, _, @Derives.leaf room piece content signs statements rest, reading, kept, fits => by
    have pushed := length_stack_pushAll reading [.leaf piece content]
    exact run_of_derives rest ((flattened_push _ _).trans kept) (pushed ▸ fits)
  | _, _, _, .inert rest, reading, kept, fits => run_of_derives rest kept fits
  | _, _, _, @Derives.construct room piece endPiece header inner further signs body statements
      branches main branched rest, reading, kept, fits => by
    let frame : Frame := ⟨header, piece, spanOf piece, [], []⟩
    have opened : reading.apply (some limit) piece (spanOf piece) (.opening header) =
        { reading with stack := frame :: reading.stack } := by
      apply openConstruct_of_lt
      rintro _ ⟨⟩
      omega
    have fits_inside : reading.stack.length + 1 + room ≤ limit := by omega
    have filled : frame.pushAll body = ⟨header, piece, spanOf piece, body.reverse, []⟩ := by
      rw [Frame.pushAll_of_branches_nil rfl, List.append_nil]
    have main_read : ({ reading with stack := frame :: reading.stack } : Reading).run (some limit)
        spanOf inner = _ := run_of_derives main kept fits_inside
    rw [pushAll_of_stack_cons rfl, filled] at main_read
    have branches_read : ({ reading with
        stack := ⟨header, piece, spanOf piece, body.reverse, []⟩ :: reading.stack } : Reading).run
          (some limit) spanOf further = _ :=
      run_of_derivesBranches branched kept rfl rfl rfl fits_inside
    let statement : Statement := .construct piece header body branches (some endPiece)
    have ended : ∀ span, close { reading with
        stack := (Frame.mk header piece (spanOf piece) body.reverse []).addBranches branches ::
          reading.stack } endPiece span header.keyword = reading.push statement := by
      intro span
      have closed := close_of_stack_cons { reading with
          stack := (Frame.mk header piece (spanOf piece) body.reverse []).addBranches branches ::
            reading.stack } endPiece span kept rfl
      rwa [Frame.finish_addBranches] at closed
    have pushed := length_stack_pushAll reading [statement]
    rw [run_cons, run_append, run_append, run_cons, opened, main_read, branches_read]
    calc
      _ = (reading.push statement).run (some limit) spanOf signs := by rw [apply, ended]
      _ = reading.pushAll (statement :: statements) :=
        run_of_derives rest ((flattened_push _ _).trans kept) (pushed ▸ fits)

/-- Reading well-formed branches adds them to the innermost construct. -/
theorem run_of_derivesBranches : ∀ {room : Nat} {header : Construct} {signs : List (Nat × Tag)}
    {branches : List (Branch Statement)}, DerivesBranches room header signs branches →
      ∀ {reading : Reading} {frame : Frame} {frames : List Frame}, reading.flattened = [] →
        reading.stack = frame :: frames → frame.header = header →
          frame.branches.head?.any (·.kind.isOtherwise) = false →
            reading.stack.length + room ≤ limit →
              reading.run (some limit) spanOf signs =
                { reading with stack := frame.addBranches branches :: frames }
  | _, _, _, _, .nil, ⟨_, _, _, _⟩, _, _, _, rfl, _, _, _ => rfl
  | _, _, _, _, @DerivesBranches.elseIf room piece header condition inner further body branches
      accepted main rest, reading, frame, frames, kept, stacked, same, latest, fits => by
    have fits_inside : (frame.openBranch (.elseIf condition) piece :: frames).length + room ≤
        limit := by simpa [stacked] using fits
    have main_read : ({ reading with
        stack := frame.openBranch (.elseIf condition) piece :: frames } : Reading).run (some limit)
          spanOf inner = _ := run_of_derives main kept fits_inside
    rw [pushAll_of_stack_cons rfl] at main_read
    have latest_inside :
        ((frame.openBranch (.elseIf condition) piece).pushAll body).branches.head?.any
          (·.kind.isOtherwise) = false := by
      rw [Frame.pushAll_of_branches_cons rfl]
      rfl
    have rest_read : ({ reading with
        stack := (frame.openBranch (.elseIf condition) piece).pushAll body :: frames } :
          Reading).run (some limit) spanOf further = _ :=
      run_of_derivesBranches rest kept rfl ((Frame.header_pushAll _ _).trans same) latest_inside
        fits_inside
    rw [run_cons, run_append, apply_branch kept stacked (same ▸ accepted) latest, main_read,
      rest_read, Frame.addBranches_openBranch]
  | _, _, _, _, @DerivesBranches.otherwise room piece header inner body accepted main, reading,
      frame, frames, kept, stacked, same, latest, fits => by
    have fits_inside : (frame.openBranch .otherwise piece :: frames).length + room ≤ limit := by
      simpa [stacked] using fits
    have main_read : ({ reading with
        stack := frame.openBranch .otherwise piece :: frames } : Reading).run (some limit)
          spanOf inner = _ := run_of_derives main kept fits_inside
    rw [pushAll_of_stack_cons rfl] at main_read
    rw [run_cons, apply_branch kept stacked (same ▸ accepted) latest, main_read,
      ← Frame.addBranches_openBranch]
    rfl

end

end Run

end Reading

/-! ### Deriving what has been read -/

namespace Frame

/-- The pieces derive the bodies of an open construct so far. -/
def Derives (room : Nat) (frame : Frame) (signs : List (Nat × Tag)) : Prop :=
  ∃ main further, signs = main ++ further ∧ Statement.Derives room main frame.body.reverse ∧
    DerivesBranches room frame.header further
      (frame.branches.reverse.map fun branch => { branch with body := branch.body.reverse })

variable {room : Nat} {frame : Frame} {signs more : List (Nat × Tag)}

theorem Derives.start (header : Construct) (piece : Nat) (span : Span) :
    Frame.Derives room ⟨header, piece, span, [], []⟩ [] :=
  ⟨[], [], rfl, .nil, .nil⟩

theorem Derives.pushAll {statements : List Statement} (derives : frame.Derives room signs)
    (added : Statement.Derives room more statements) :
    (frame.pushAll statements).Derives room (signs ++ more) := by
  obtain ⟨main, further, rfl, body, branched⟩ := derives
  cases latest : frame.branches with
  | nil =>
      rw [latest] at branched
      cases branched
      rw [pushAll_of_branches_nil latest]
      refine ⟨main ++ more, [], by simp, ?_, by simpa [latest] using .nil⟩
      simpa using body.append added
  | cons branch branches =>
      rw [latest] at branched
      rw [pushAll_of_branches_cons latest]
      refine ⟨main, further ++ more, List.append_assoc _ _ _, body, ?_⟩
      rw [List.reverse_cons, List.map_append] at branched ⊢
      simpa using branched.extend added

theorem Derives.openBranch {kind : BranchKind} {piece : Nat} (derives : frame.Derives room signs)
    (accepted : frame.header.accepts kind = true)
    (earlier : ∀ branch ∈ frame.branches, branch.kind.isOtherwise = false) :
    (frame.openBranch kind piece).Derives room (signs ++ [(piece, .branch kind)]) := by
  obtain ⟨main, further, rfl, body, branched⟩ := derives
  refine ⟨main, further ++ [(piece, .branch kind)], List.append_assoc _ _ _, body, ?_⟩
  rw [Frame.openBranch, List.reverse_cons, List.map_append]
  refine branched.snoc accepted ?_
  simpa using earlier

/-- An open construct that is ended. -/
theorem Derives.finish {piece : Nat} (derives : frame.Derives room signs) :
    Statement.Derives (room + 1)
      ((frame.piece, .opening frame.header) :: (signs ++ [(piece, .closing frame.keyword)]))
      [frame.finish (some piece)] := by
  obtain ⟨main, further, rfl, body, branched⟩ := derives
  rw [List.append_assoc]
  exact .construct body branched .nil

end Frame

/-- The pieces derive the statements at the root and the open constructs, inside which there is room
for so many others. -/
inductive Unfinished (limit : Nat) (root : List Statement) :
    (room : Nat) → List Frame → List (Nat × Tag) → Prop
  /-- No construct is open. -/
  | root {signs : List (Nat × Tag)} (body : Derives limit signs root.reverse) :
      Unfinished limit root limit [] signs
  /-- A construct is open inside others. -/
  | frame {room : Nat} {frame : Frame} {frames : List Frame} {before after : List (Nat × Tag)}
      (around : Unfinished limit root (room + 1) frames before)
      (inner : frame.Derives room after) :
      Unfinished limit root room (frame :: frames)
        (before ++ (frame.piece, .opening frame.header) :: after)

namespace Reading

/-- What has been read derives what is kept of it, and all of it is kept. -/
def Explains (limit : Nat) (signs : List (Nat × Tag)) (reading : Reading) : Prop :=
  reading.flattened = [] ∧ ∃ room, Unfinished limit reading.root room reading.stack signs

section Explains

variable {limit : Nat} {signs : List (Nat × Tag)} {reading : Reading}

theorem room_add_length {root : List Statement} {room : Nat} {stack : List Frame}
    (unfinished : Unfinished limit root room stack signs) : room + stack.length = limit := by
  induction unfinished with
  | root => rfl
  | frame around inner ih =>
      rw [List.length_cons]
      omega

theorem unfinished_pushAll {room : Nat} {more : List (Nat × Tag)} {statements : List Statement}
    (unfinished : Unfinished limit reading.root room reading.stack signs)
    (added : Derives room more statements) :
    Unfinished limit (reading.pushAll statements).root room (reading.pushAll statements).stack
      (signs ++ more) := by
  obtain ⟨root, stack, flattened, findings⟩ := reading
  cases unfinished with
  | root body =>
      rw [pushAll_of_stack_nil rfl]
      refine .root ?_
      simpa using body.append added
  | frame around inner =>
      rw [pushAll_of_stack_cons rfl, List.append_assoc]
      have longer := Unfinished.frame around (inner.pushAll added)
      simpa using longer

/-- A piece that is read without a finding continues the derivation. -/
theorem Explains.step {index : Nat} {span : Span} {tag : Tag} {after : Reading}
    (explains : reading.Explains limit signs) (ordered : reading.Ordered)
    (acts : Acts (some limit) reading index span tag after) (quiet : after.findings = #[]) :
    after.Explains limit (signs ++ [(index, tag)]) := by
  obtain ⟨kept, room, unfinished⟩ := explains
  have room_eq := room_add_length unfinished
  cases acts with
  | opened room_left =>
      have bound := room_left limit rfl
      obtain ⟨less, rfl⟩ := Nat.exists_eq_add_one_of_ne_zero (n := room) (by omega)
      exact ⟨kept, less, .frame unfinished (Frame.Derives.start _ index span)⟩
  | forgotten _ _ inner => exact absurd kept inner
  | tooDeep => simp [report] at quiet
  | branched _ stacked accepted =>
      rw [stacked] at unfinished
      have earlier := Frame.isOtherwise_of_accepts (ordered.2 _ (by simp [stacked])) accepted
      rw [Frame.accepts, Bool.and_eq_true] at accepted
      cases unfinished with
      | frame around inner =>
          refine ⟨kept, room, ?_⟩
          rw [List.append_assoc, List.cons_append]
          exact .frame around (inner.openBranch accepted.1 earlier)
  | ignored inner => exact absurd kept inner
  | strayBranch => simp [report] at quiet
  | recalled member => simp [kept] at member
  | @ended keyword inner outer frame _ stacked same others =>
      -- an end tag without a finding ends the innermost construct
      have innermost : inner = [] := by
        rw [findings_push] at quiet
        cases inner with
        | nil => rfl
        | cons => simp [toldOnEnding] at quiet
      subst innermost same
      rw [stacked] at unfinished
      cases unfinished with
      | frame around inside =>
          rw [List.append_assoc]
          refine ⟨flattened_push _ _, room + 1, ?_⟩
          apply unfinished_pushAll ?_ inside.finish
          exact around
  | strayEnd => simp [report] at quiet
  | single =>
      exact ⟨(flattened_push _ _).trans kept, room, unfinished_pushAll unfinished (.leaf .nil)⟩
  | inert => exact ⟨kept, room, unfinished_pushAll unfinished (.inert .nil)⟩
  | unknown => simp [report] at quiet

end Explains

end Reading

/-! ### Templates without findings -/

section Read

variable (limit : Nat) (options : Options) (source : Source)

theorem unclosed?_eq_none_iff {piece : Piece} :
    unclosed? piece = none ↔ (piece.kind ≠ .text → piece.closed = true) := by
  rw [unclosed?]
  cases piece.kind <;> cases piece.closed <;> simp

/-- When nothing has been told, the pieces derive what has been read, and each of them is closed and
has a meaning. -/
theorem explains_read {pieces : List Piece}
    (quiet : (read (some limit) options source pieces).findings = #[]) :
    (read (some limit) options source pieces).Explains limit (signs options source pieces) ∧
      ∀ piece ∈ pieces, unclosed? piece = none ∧
        ∀ keyword, Tag.ofPiece options source piece ≠ .unknown keyword := by
  induction pieces using List.reverseRecOn with
  | nil => exact ⟨⟨rfl, limit, .root .nil⟩, by simp⟩
  | append_singleton pieces piece ih =>
      rw [read_append_singleton, step_eq_apply] at quiet ⊢
      have acts := Reading.acts_apply (some limit)
        ((read (some limit) options source pieces).note piece) pieces.length piece.span
        (Tag.ofPiece options source piece)
      have quiet_note : ((read (some limit) options source pieces).note piece).findings = #[] := by
        obtain ⟨told, added⟩ := acts.exists_told
        rw [quiet] at added
        exact (Array.append_eq_empty_iff.mp added.symm).1
      have closed : unclosed? piece = none := by
        cases found : unclosed? piece with
        | none => rfl
        | some finding => simp [Reading.note, found, Reading.report] at quiet_note
      have note_eq : (read (some limit) options source pieces).note piece =
          read (some limit) options source pieces := by
        simp [Reading.note, closed]
      rw [note_eq] at acts quiet quiet_note ⊢
      obtain ⟨explains, earlier⟩ := ih quiet_note
      have ordered := Reading.ordered_invariant.settled_read (some limit) options source pieces
      have known : ∀ keyword, Tag.ofPiece options source piece ≠ .unknown keyword := by
        intro keyword unknown
        rw [unknown] at quiet
        simp [Reading.apply, Reading.report] at quiet
      rw [signs_append_singleton]
      refine ⟨explains.step ordered acts quiet, ?_⟩
      intro other member
      rcases List.mem_append.mp member with member | member
      · exact earlier other member
      · exact List.mem_singleton.mp member ▸ ⟨closed, known⟩

/-- Where the piece with an index lies. -/
def spanAt (pieces : List Piece) (index : Nat) : Span :=
  (pieces[index]?.map Piece.span).getD default

theorem spanAt_of_mem {pieces : List Piece} {piece : Piece} {index : Nat}
    (member : (piece, index) ∈ pieces.zipIdx) : spanAt pieces index = piece.span := by
  rw [List.mem_zipIdx_iff_getElem?] at member
  simp [spanAt, member]

/-- The structure that is read depends only on the meanings of the pieces. -/
theorem quiet_read_eq_run (pieces : List Piece) :
    (read (some limit) options source pieces).quiet =
      (Reading.start.run (some limit) (spanAt pieces) (signs options source pieces)).quiet := by
  rw [read, Reading.run, signs, List.foldl_map]
  apply List.foldl_rel (r := fun left right : Reading => left.quiet = right.quiet) rfl
  rintro ⟨piece, index⟩ member left right same
  dsimp only
  rw [step_eq_apply, Reading.quiet_apply, Reading.quiet_note, same, spanAt_of_mem member,
    ← Reading.quiet_apply]

theorem read_eq_run {pieces : List Piece} (closed : ∀ piece ∈ pieces, unclosed? piece = none) :
    read (some limit) options source pieces =
      Reading.start.run (some limit) (spanAt pieces) (signs options source pieces) := by
  rw [read, Reading.run, signs, List.foldl_map]
  apply List.foldl_rel (r := Eq) rfl
  rintro ⟨piece, index⟩ member left right same
  dsimp only
  rw [same, step_eq_apply, Reading.note, closed piece (List.fst_mem_of_mem_zipIdx member),
    spanAt_of_mem member]
  rfl

/-- Closed pieces that are well-formed are read as the statements that they derive, and nothing is
told. -/
theorem read_of_derives {pieces : List Piece} {statements : List Statement}
    (closed : ∀ piece ∈ pieces, piece.kind ≠ .text → piece.closed = true)
    (derives : Derives limit (signs options source pieces) statements) :
    read (some limit) options source pieces = ⟨statements.reverse, [], [], #[]⟩ := by
  rw [read_eq_run limit options source
    fun piece member => unclosed?_eq_none_iff.mpr (closed piece member),
    Reading.run_of_derives derives rfl (by simp [Reading.start]), Reading.pushAll_of_stack_nil rfl]
  simp [Reading.start]

end Read

/-- A template is well-formed exactly if there are no diagnostics: all its regions are closed, all
its tags are known and its pieces derive statements, with no more constructs inside each other than
the nesting limit allows.  Its tree is what they derive. -/
theorem diagnostics_eq_nil_iff (options : Options) (source : Source) (pieces : List Piece) :
    ((ofPieces options source pieces).diagnostics = [] ↔
      (∀ piece ∈ pieces, piece.kind ≠ .text → piece.closed = true) ∧
        (∀ piece ∈ pieces, ∀ keyword, Tag.ofPiece options source piece ≠ .unknown keyword) ∧
        ∃ statements, Derives nestingLimit (signs options source pieces) statements) ∧
      ∀ statements, Derives nestingLimit (signs options source pieces) statements →
        (ofPieces options source pieces).statements = statements := by
  have run_eq : ∀ statements, Derives nestingLimit (signs options source pieces) statements →
      Reading.start.run (some nestingLimit) (spanAt pieces) (signs options source pieces) =
        ⟨statements.reverse, [], [], #[]⟩ := by
    intro statements derives
    rw [Reading.run_of_derives derives rfl (by simp [Reading.start]),
      Reading.pushAll_of_stack_nil rfl]
    simp [Reading.start]
  refine ⟨?_, ?_⟩
  · rw [diagnostics, List.map_eq_nil_iff, ofPieces, build_eq_finish, Reading.findings_finish,
      List.append_eq_nil_iff, Array.toList_eq_nil_iff, List.map_eq_nil_iff]
    constructor
    · rintro ⟨quiet, ended⟩
      obtain ⟨⟨-, room, unfinished⟩, fine⟩ := explains_read nestingLimit options source quiet
      rw [ended] at unfinished
      refine ⟨fun piece member => unclosed?_eq_none_iff.mp (fine piece member).1,
        fun piece member => (fine piece member).2, ?_⟩
      cases unfinished with
      | root body => exact ⟨_, body⟩
    · rintro ⟨closed, -, statements, derives⟩
      rw [read_eq_run nestingLimit options source
        fun piece member => unclosed?_eq_none_iff.mpr (closed piece member), run_eq _ derives]
      exact ⟨rfl, rfl⟩
  · intro statements derives
    rw [ofPieces, statements_build,
      Reading.statements_of_quiet_eq (quiet_read_eq_run nestingLimit options source pieces),
      run_eq _ derives]
    simp [Reading.statements, Reading.nest]

end Tree
end TwigTemplate
