import TwigTemplate.Proofs.Statement.Splice
import TwigTemplate.Proofs.Tree.Branches

/-!
# Flattening is splicing

Reading with a nesting limit gives the tree that reading without one gives, with all constructs
inside `limit` others spliced away.  A reading without a limit is taken to one with a limit by
splicing what it holds and pushing the contents of the frames that lie too deep; every step of the
first then becomes a step of the second.
-/

namespace TwigTemplate
namespace Tree

open Statement

namespace Frame

/-- Add statements to the body that was opened last. -/
def pushAll (frame : Frame) (statements : List Statement) : Frame := statements.foldl push frame

/-- An open construct inside `depth` others, with what is left of its statements. -/
def splice (limit depth : Nat) (frame : Frame) : Frame :=
  { frame with
    body := (spliceAll limit (depth + 1) frame.body.reverse).reverse
    branches := frame.branches.map fun branch =>
      { branch with body := (spliceAll limit (depth + 1) branch.body.reverse).reverse } }

variable (limit depth : Nat) (frame : Frame)

theorem pushAll_of_branches_nil {frame : Frame} (single : frame.branches = [])
    (statements : List Statement) :
    frame.pushAll statements = { frame with body := statements.reverse ++ frame.body } := by
  induction statements generalizing frame with
  | nil => rfl
  | cons statement statements ih =>
      have pushed : frame.push statement = { frame with body := statement :: frame.body } := by
        rw [push, single]
      have single_push : (frame.push statement).branches = [] := by
        rw [pushed]
        exact single
      calc
        frame.pushAll (statement :: statements) =
            (frame.push statement).pushAll statements := rfl
        _ = { frame with body := (statement :: statements).reverse ++ frame.body } := by
          rw [ih single_push, pushed]
          simp

theorem pushAll_of_branches_cons {frame : Frame} {branch : Branch Statement}
    {branches : List (Branch Statement)} (latest : frame.branches = branch :: branches)
    (statements : List Statement) :
    frame.pushAll statements =
      { frame with branches := { branch with body := statements.reverse ++ branch.body } ::
          branches } := by
  induction statements generalizing frame branch with
  | nil => cases frame; cases latest; rfl
  | cons statement statements ih =>
      have pushed : frame.push statement =
          { frame with branches := { branch with body := statement :: branch.body } ::
              branches } := by
        rw [push, latest]
      have latest_push : (frame.push statement).branches =
          { branch with body := statement :: branch.body } :: branches := by
        rw [pushed]
      calc
        frame.pushAll (statement :: statements) =
            (frame.push statement).pushAll statements := rfl
        _ = { frame with branches :=
              { branch with body := (statement :: statements).reverse ++ branch.body } ::
                branches } := by
          rw [ih latest_push, pushed]
          simp

theorem splice_push (statement : Statement) :
    (frame.push statement).splice limit depth =
      (frame.splice limit depth).pushAll (statement.splice limit (depth + 1)) := by
  cases latest : frame.branches with
  | nil =>
      rw [pushAll_of_branches_nil (by simp [splice, latest])]
      simp [push, splice, latest]
  | cons branch branches =>
      rw [pushAll_of_branches_cons (by rw [splice, latest, List.map_cons])]
      simp [push, splice, latest]

theorem finish_splice (endPiece : Option Nat) (kept : depth < limit) :
    [(frame.splice limit depth).finish endPiece] =
      (frame.finish endPiece).splice limit depth := by
  rw [finish, finish, splice_construct_of_lt kept, spliceBranches_eq_map]
  simp [splice, ← List.map_reverse, Function.comp_def]

end Frame

namespace Reading

/-- Add statements to the body being read. -/
def pushAll (reading : Reading) (statements : List Statement) : Reading :=
  statements.foldl push reading

/-- Leave the innermost construct, whether it is kept or only its keyword is. -/
def leave (reading : Reading) (endPiece : Option Nat) : Reading :=
  match reading.flattened with
  | [] => reading.pop endPiece
  | _ :: flattened => { reading with flattened }

/-- The keywords of all open constructs, innermost first. -/
def names (reading : Reading) : List String := reading.flattened ++ reading.keywords

/-- What statements at the root and open constructs become under a nesting limit. -/
def spliceFrames (limit : Nat) (root : List Statement) : List Frame → Reading
  | [] => ⟨(spliceAll limit 0 root.reverse).reverse, [], [], #[]⟩
  | frame :: frames =>
    let outer := spliceFrames limit root frames
    if frames.length < limit then
      { outer with stack := frame.splice limit frames.length :: outer.stack }
    else
      let contents := spliceAll limit (frames.length + 1) frame.contents
      { outer.pushAll contents with flattened := frame.keyword :: outer.flattened }

/-- What a reading without a nesting limit becomes under one. -/
def splice (limit : Nat) (reading : Reading) : Reading :=
  spliceFrames limit reading.root reading.stack

theorem pushAll_of_stack_nil {reading : Reading} (bare : reading.stack = [])
    (statements : List Statement) :
    reading.pushAll statements = { reading with root := statements.reverse ++ reading.root } := by
  induction statements generalizing reading with
  | nil => rfl
  | cons statement statements ih =>
      have pushed : reading.push statement =
          { reading with root := statement :: reading.root } := by
        rw [push, bare]
      have bare_push : (reading.push statement).stack = [] := by
        rw [pushed]
        exact bare
      calc
        reading.pushAll (statement :: statements) =
            (reading.push statement).pushAll statements := rfl
        _ = { reading with root := (statement :: statements).reverse ++ reading.root } := by
          rw [ih bare_push, pushed]
          simp

theorem pushAll_of_stack_cons {reading : Reading} {frame : Frame} {frames : List Frame}
    (stacked : reading.stack = frame :: frames) (statements : List Statement) :
    reading.pushAll statements = { reading with stack := frame.pushAll statements :: frames } := by
  induction statements generalizing reading frame with
  | nil => cases reading; cases stacked; rfl
  | cons statement statements ih =>
      have pushed : reading.push statement =
          { reading with stack := frame.push statement :: frames } := by
        rw [push, stacked]
      have stacked_push : (reading.push statement).stack = frame.push statement :: frames := by
        rw [pushed]
      calc
        reading.pushAll (statement :: statements) =
            (reading.push statement).pushAll statements := rfl
        _ = { reading with stack := frame.pushAll (statement :: statements) :: frames } := by
          rw [ih stacked_push, pushed]
          rfl

theorem pushAll_append (reading : Reading) (left right : List Statement) :
    reading.pushAll (left ++ right) = (reading.pushAll left).pushAll right :=
  List.foldl_append

theorem pushAll_flattened (reading : Reading) (flattened : List String)
    (statements : List Statement) :
    { reading with flattened }.pushAll statements =
      { reading.pushAll statements with flattened } := by
  cases reading with
  | mk root stack other findings =>
      cases stack with
      | nil => rw [pushAll_of_stack_nil rfl, pushAll_of_stack_nil rfl]
      | cons frame frames => rw [pushAll_of_stack_cons rfl, pushAll_of_stack_cons rfl]

@[simp]
theorem flattened_pushAll (reading : Reading) (statements : List Statement) :
    (reading.pushAll statements).flattened = reading.flattened := by
  induction statements generalizing reading with
  | nil => rfl
  | cons statement statements ih => exact (ih _).trans (flattened_push _ _)

@[simp]
theorem keywords_pushAll (reading : Reading) (statements : List Statement) :
    (reading.pushAll statements).keywords = reading.keywords := by
  induction statements generalizing reading with
  | nil => rfl
  | cons statement statements ih => exact (ih _).trans (keywords_push _ _)

section Spliced

variable {limit : Nat} (root : List Statement) (frame : Frame) {frames : List Frame}

/-- A frame inside fewer than `limit` others is kept. -/
theorem spliceFrames_of_lt (kept : frames.length < limit) :
    spliceFrames limit root (frame :: frames) =
      { spliceFrames limit root frames with
        stack := frame.splice limit frames.length :: (spliceFrames limit root frames).stack } := by
  rw [spliceFrames, if_pos kept]

/-- A frame inside `limit` others or more leaves its keyword and its contents. -/
theorem spliceFrames_of_le (deep : limit ≤ frames.length) :
    spliceFrames limit root (frame :: frames) =
      { (spliceFrames limit root frames).pushAll
          (spliceAll limit (frames.length + 1) frame.contents) with
        flattened := frame.keyword :: (spliceFrames limit root frames).flattened } := by
  rw [spliceFrames, if_neg (Nat.not_lt.mpr deep)]

variable (limit) (frames)

theorem length_spliceFrames :
    (spliceFrames limit root frames).keywords.length = min limit frames.length ∧
      (spliceFrames limit root frames).flattened.length = frames.length - limit := by
  induction frames with
  | nil => simp [spliceFrames, keywords]
  | cons frame frames ih =>
      rcases Nat.lt_or_ge frames.length limit with kept | deep
      · rw [spliceFrames_of_lt root frame kept]
        simp only [keywords, List.map_cons, List.length_cons]
        rw [← keywords]
        omega
      · rw [spliceFrames_of_le root frame deep]
        have kept := keywords_pushAll (spliceFrames limit root frames)
          (spliceAll limit (frames.length + 1) frame.contents)
        rw [keywords] at kept
        simp only [keywords, kept, List.length_cons]
        rw [← keywords]
        omega

theorem flattened_spliceFrames (room : frames.length ≤ limit) :
    (spliceFrames limit root frames).flattened = [] := by
  apply List.eq_nil_of_length_eq_zero
  rw [(length_spliceFrames limit root frames).2]
  omega

theorem names_spliceFrames :
    (spliceFrames limit root frames).names = frames.map Frame.keyword := by
  induction frames with
  | nil => rfl
  | cons frame frames ih =>
      rcases Nat.lt_or_ge frames.length limit with kept | deep
      · rw [names, flattened_spliceFrames limit root frames (Nat.le_of_lt kept)] at ih
        rw [names, flattened_spliceFrames limit root (frame :: frames) kept,
          spliceFrames_of_lt root frame kept, List.map_cons, ← ih]
        rfl
      · rw [List.map_cons, ← ih, spliceFrames_of_le root frame deep, names, names]
        have kept := keywords_pushAll (spliceFrames limit root frames)
          (spliceAll limit (frames.length + 1) frame.contents)
        rw [keywords] at kept
        rw [keywords, kept]
        rfl

end Spliced

/-! ### Operations on spliced readings -/

theorem splice_push (limit : Nat) (reading : Reading) (statement : Statement) :
    (reading.push statement).splice limit =
      (reading.splice limit).pushAll (statement.splice limit reading.stack.length) := by
  cases stacked : reading.stack with
  | nil =>
      rw [push, stacked, splice, splice, stacked, pushAll_of_stack_nil rfl]
      simp [spliceFrames]
  | cons frame frames =>
      rw [push, stacked, splice, splice, stacked, List.length_cons]
      dsimp only
      rcases Nat.lt_or_ge frames.length limit with kept | deep
      · rw [spliceFrames_of_lt _ _ kept, spliceFrames_of_lt _ _ kept, pushAll_of_stack_cons rfl,
          Frame.splice_push]
      · rw [spliceFrames_of_le _ _ deep, spliceFrames_of_le _ _ deep, Frame.contents_push,
          spliceAll_append, pushAll_append, Frame.keyword_push, spliceAll_cons, spliceAll_nil,
          List.append_nil]
        exact (pushAll_flattened _ _ _).symm

/-- Popping a construct is leaving it under the limit, where it may not have been kept. -/
theorem splice_pop (limit : Nat) (reading : Reading) (endPiece : Option Nat) :
    (reading.pop endPiece).splice limit = (reading.splice limit).leave endPiece := by
  cases stacked : reading.stack with
  | nil =>
      rw [pop, stacked, splice, stacked]
      rfl
  | cons frame frames =>
      have popped : reading.pop endPiece =
          { reading with stack := frames }.push (frame.finish endPiece) := by
        rw [pop, stacked]
      rw [popped, splice_push, splice, splice, stacked]
      dsimp only
      rcases Nat.lt_or_ge frames.length limit with kept | deep
      · rw [← Frame.finish_splice limit frames.length frame endPiece kept, leave,
          flattened_spliceFrames limit _ (frame :: frames) kept, spliceFrames_of_lt _ _ kept]
        rfl
      · rw [splice_of_le deep rfl, Frame.children_finish, leave, spliceFrames_of_le _ _ deep]
        dsimp only
        rw [← flattened_pushAll (spliceFrames limit reading.root frames)]

theorem splice_iterate_pop (limit : Nat) (reading : Reading) (count : Nat) :
    ((pop · none)^[count] reading).splice limit =
      (leave · none)^[count] (reading.splice limit) := by
  have single : Function.Semiconj (splice limit) (pop · none) (leave · none) :=
    fun reading => splice_pop limit reading none
  exact (single.iterate_right count).eq reading

/-! ### Leaving constructs -/

theorem leave_of_flattened_nil {reading : Reading} (kept : reading.flattened = [])
    (endPiece : Option Nat) : reading.leave endPiece = reading.pop endPiece := by
  rw [leave, kept]

theorem leave_of_flattened_cons {reading : Reading} {keyword : String} {flattened : List String}
    (deep : reading.flattened = keyword :: flattened) (endPiece : Option Nat) :
    reading.leave endPiece = { reading with flattened } := by
  rw [leave, deep]

theorem quiet_leave (reading : Reading) (endPiece : Option Nat) :
    (reading.leave endPiece).quiet = reading.quiet.leave endPiece := by
  cases flattened : reading.flattened with
  | nil =>
      have kept : reading.quiet.flattened = [] := flattened
      rw [leave_of_flattened_nil flattened, leave_of_flattened_nil kept, quiet_pop]
  | cons keyword keywords =>
      have deep : reading.quiet.flattened = keyword :: keywords := flattened
      rw [leave_of_flattened_cons flattened, leave_of_flattened_cons deep]
      rfl

theorem quiet_iterate_leave (reading : Reading) (count : Nat) :
    ((leave · none)^[count] reading).quiet = (leave · none)^[count] reading.quiet := by
  have single : Function.Semiconj quiet (leave · none) (leave · none) := (quiet_leave · none)
  exact (single.iterate_right count).eq reading

/-- Leaving constructs first drops the keywords of those that are not kept. -/
theorem iterate_leave_append (dropped kept : List String) (reading : Reading)
    (flattened : reading.flattened = dropped ++ kept) :
    (leave · none)^[dropped.length] reading = { reading with flattened := kept } := by
  induction dropped generalizing reading with
  | nil => cases reading; cases flattened; rfl
  | cons keyword dropped ih =>
      rw [List.length_cons, Function.iterate_succ_apply, leave_of_flattened_cons flattened,
        ih _ rfl]

theorem iterate_leave_of_flattened_nil {reading : Reading} (kept : reading.flattened = [])
    (count : Nat) : (leave · none)^[count] reading = (pop · none)^[count] reading := by
  induction count generalizing reading with
  | zero => rfl
  | succ count ih =>
      rw [Function.iterate_succ_apply, Function.iterate_succ_apply, leave_of_flattened_nil kept,
        ih (by rw [flattened_pop, kept])]

theorem flattened_iterate_pop (reading : Reading) (count : Nat) :
    ((pop · none)^[count] reading).flattened = reading.flattened := by
  exact iterate_pop_of_pop (flattened_pop · none) reading count

theorem iterate_pop_with_flattened (reading : Reading) (flattened : List String) (count : Nat) :
    (pop · none)^[count] { reading with flattened } =
      { (pop · none)^[count] reading with flattened } := by
  induction count generalizing reading with
  | zero => rfl
  | succ count ih =>
      have popped : { reading with flattened }.pop none = { reading.pop none with flattened } := by
        cases reading with
        | mk root stack other findings =>
            cases stack with
            | nil => rfl
            | cons frame frames =>
                exact pushAll_flattened ⟨root, frames, other, findings⟩ flattened
                  [frame.finish none]
      rw [Function.iterate_succ_apply, Function.iterate_succ_apply, popped, ih]

/-- An end tag leaves the constructs inside the one that it ends, and then that one, whether they
are kept or not. -/
theorem quiet_close_eq_leave (reading : Reading) (piece : Nat) (span : Span) {keyword : String}
    (member : keyword ∈ reading.names) :
    (reading.close piece span keyword).quiet =
      ((leave · none)^[reading.names.idxOf keyword] reading.quiet).leave (some piece) := by
  by_cases flattened : keyword ∈ reading.flattened
  · obtain ⟨inner, outer, split, fresh⟩ := List.eq_append_cons_of_mem flattened
    have position : reading.names.idxOf keyword = inner.length := by
      rw [names, List.idxOf_append_of_mem flattened, split, List.idxOf_append_of_notMem fresh,
        List.idxOf_cons_self, Nat.add_zero]
    have remaining : (reading.flattened.dropWhile (· != keyword)).drop 1 = outer := by
      rw [split, List.dropWhile_append_of_pos]
      · simp
      · intro other member
        simpa using ne_of_mem_of_not_mem member fresh
    rw [close_of_mem_flattened reading piece span flattened, position,
      iterate_leave_append inner (keyword :: outer) reading.quiet split,
      leave_of_flattened_cons rfl, remaining]
    rfl
  · have kept : keyword ∈ reading.keywords := (List.mem_append.mp member).resolve_left flattened
    have position : reading.names.idxOf keyword =
        reading.keywords.idxOf keyword + reading.flattened.length := by
      rw [names, List.idxOf_append_of_notMem flattened, Nat.add_comm]
    rw [quiet_close reading piece span flattened kept, position, Function.iterate_add_apply,
      iterate_leave_append reading.flattened [] reading.quiet (List.append_nil _).symm,
      iterate_leave_of_flattened_nil rfl,
      leave_of_flattened_nil (flattened_iterate_pop _ _)]

/-! ### Single steps -/

/-- A reading with a nesting limit that agrees with a spliced reading without one. -/
structure Follows (limit : Nat) (follower reading : Reading) : Prop where
  /-- The reading with a limit is the spliced one. -/
  quiet_eq : follower.quiet = (reading.splice limit).quiet
  /-- The reading without a limit keeps all constructs. -/
  kept : reading.flattened = []

namespace Follows

variable {limit : Nat} {follower reading : Reading} (follows : Follows limit follower reading)
include follows

theorem root_eq : follower.root = (reading.splice limit).root :=
  (quiet_eq_iff.mp follows.quiet_eq).1

theorem stack_eq : follower.stack = (reading.splice limit).stack :=
  (quiet_eq_iff.mp follows.quiet_eq).2.1

theorem flattened_eq : follower.flattened = (reading.splice limit).flattened :=
  (quiet_eq_iff.mp follows.quiet_eq).2.2

theorem names_eq : follower.names = reading.keywords := by
  rw [names, keywords, follows.stack_eq, follows.flattened_eq]
  exact names_spliceFrames limit reading.root reading.stack

theorem length_stack : follower.stack.length = min limit reading.stack.length := by
  rw [follows.stack_eq, ← length_keywords]
  exact (length_spliceFrames limit reading.root reading.stack).1

theorem length_flattened : follower.flattened.length = reading.stack.length - limit := by
  rw [follows.flattened_eq]
  exact (length_spliceFrames limit reading.root reading.stack).2

theorem congr {follower' reading' : Reading} (same : follower'.quiet = follower.quiet)
    (same' : reading'.quiet = reading.quiet) : Follows limit follower' reading' := by
  obtain ⟨roots, frames, kept⟩ := quiet_eq_iff.mp same'
  refine ⟨?_, kept.trans follows.kept⟩
  rw [same, follows.quiet_eq, splice, splice, roots, frames]

theorem note (piece : Piece) : Follows limit (follower.note piece) (reading.note piece) :=
  follows.congr (quiet_note follower piece) (quiet_note reading piece)

theorem push (piece : Nat) (leaf : Leaf) :
    Follows limit (follower.push (.leaf piece leaf)) (reading.push (.leaf piece leaf)) := by
  refine ⟨?_, (flattened_push _ _).trans follows.kept⟩
  rw [quiet_push, follows.quiet_eq, ← quiet_push, splice_push]
  rfl

theorem openConstruct (piece : Nat) (span : Span) (header : Construct) :
    Follows limit (follower.openConstruct (some limit) piece span header)
      (reading.openConstruct none piece span header) := by
  rw [openConstruct_of_lt reading piece span header (by simp)]
  refine ⟨?_, follows.kept⟩
  have width := follows.length_stack
  rw [quiet_eq_iff, splice]
  rcases Nat.lt_or_ge reading.stack.length limit with room | full
  · rw [openConstruct_of_lt follower piece span header (by rintro _ ⟨⟩; omega),
      spliceFrames_of_lt _ _ room]
    refine ⟨follows.root_eq, ?_, follows.flattened_eq⟩
    rw [follows.stack_eq]
    rfl
  · have empty : (⟨header, piece, span, [], []⟩ : Frame).contents = [] := by
      simp [Frame.contents, Frame.finish, children]
    rw [openConstruct_of_le follower piece span header (by omega), spliceFrames_of_le _ _ full,
      empty, follows.flattened_eq]
    split <;> exact ⟨follows.root_eq, follows.stack_eq, rfl⟩

/-- A branch of a construct that is kept is opened in both readings or in neither. -/
theorem openBranch_of_lt {frame : Frame} {frames : List Frame} (piece : Nat) (span : Span)
    (kind : BranchKind) (stacked : reading.stack = frame :: frames)
    (kept : frames.length < limit) :
    Follows limit (follower.openBranch piece span kind)
      (reading.openBranch piece span kind) := by
  have spliced : reading.splice limit = spliceFrames limit reading.root (frame :: frames) := by
    rw [splice, stacked]
  have stacked' : follower.stack = frame.splice limit frames.length ::
      (spliceFrames limit reading.root frames).stack := by
    rw [follows.stack_eq, spliced, spliceFrames_of_lt _ _ kept]
  have kept' : follower.flattened = [] := by
    rw [follows.flattened_eq, spliced]
    exact flattened_spliceFrames limit _ _ kept
  have accepts_splice : (frame.splice limit frames.length).accepts kind = frame.accepts kind := by
    simp [Frame.accepts, Frame.splice, Option.any_map]
  cases accepted : frame.accepts kind with
  | false =>
      apply follows.congr <;> apply quiet_openBranch_of_forall <;>
        simp [stacked, stacked', accepts_splice, accepted]
  | true =>
      rw [openBranch_of_accepts piece span follows.kept stacked accepted,
        openBranch_of_accepts piece span kept' stacked' (accepts_splice.trans accepted)]
      refine ⟨?_, follows.kept⟩
      rw [quiet_eq_iff, splice, spliceFrames_of_lt _ _ kept]
      refine ⟨?_, ?_, ?_⟩
      · rw [follows.root_eq, spliced, spliceFrames_of_lt _ _ kept]
      · rfl
      · rw [follows.flattened_eq, spliced, spliceFrames_of_lt _ _ kept]

/-- A branch of a construct that is not kept changes nothing under the limit, and without one
nothing but where the contents go on. -/
theorem openBranch_of_le {frame : Frame} {frames : List Frame} (piece : Nat) (span : Span)
    (kind : BranchKind) (stacked : reading.stack = frame :: frames)
    (deep : limit ≤ frames.length) :
    Follows limit (follower.openBranch piece span kind)
      (reading.openBranch piece span kind) := by
  have deep' : follower.flattened ≠ [] := by
    apply List.ne_nil_of_length_pos
    rw [follows.length_flattened, stacked, List.length_cons]
    omega
  have ignored : (follower.openBranch piece span kind).quiet = follower.quiet :=
    quiet_openBranch_of_forall _ _ _ fun kept => absurd kept deep'
  cases accepted : frame.accepts kind with
  | false =>
      apply follows.congr ignored
      apply quiet_openBranch_of_forall
      simp [stacked, accepted]
  | true =>
      rw [openBranch_of_accepts piece span follows.kept stacked accepted]
      refine ⟨?_, follows.kept⟩
      rw [ignored, follows.quiet_eq, splice, stacked, splice, spliceFrames_of_le _ _ deep,
        spliceFrames_of_le _ _ deep, Frame.contents_openBranch, Frame.keyword_openBranch]

theorem openBranch (piece : Nat) (span : Span) (kind : BranchKind) :
    Follows limit (follower.openBranch piece span kind)
      (reading.openBranch piece span kind) := by
  cases stacked : reading.stack with
  | nil =>
      have bare : follower.stack = [] := by
        apply List.eq_nil_of_length_eq_zero
        simp [follows.length_stack, stacked]
      apply follows.congr <;> apply quiet_openBranch_of_forall <;> simp [bare, stacked]
  | cons frame frames =>
      rcases Nat.lt_or_ge frames.length limit with kept | deep
      · exact follows.openBranch_of_lt piece span kind stacked kept
      · exact follows.openBranch_of_le piece span kind stacked deep

theorem close (piece : Nat) (span : Span) (keyword : String) :
    Follows limit (follower.close piece span keyword) (reading.close piece span keyword) := by
  have forgotten : keyword ∉ reading.flattened := by
    rw [follows.kept]
    exact List.not_mem_nil
  by_cases member : keyword ∈ reading.keywords
  · have closed := quiet_close reading piece span forgotten member
    have spliced : (reading.close piece span keyword).splice limit =
        ((leave · none)^[reading.keywords.idxOf keyword] (reading.splice limit)).leave
          (some piece) := by
      calc
        (reading.close piece span keyword).splice limit =
            (reading.close piece span keyword).quiet.splice limit := rfl
        _ = ((leave · none)^[reading.keywords.idxOf keyword] (reading.splice limit)).leave
              (some piece) := by
          rw [closed, splice_pop, splice_iterate_pop]
          rfl
    refine ⟨?_, ?_⟩
    · rw [quiet_close_eq_leave follower piece span (follows.names_eq ▸ member), follows.names_eq,
        follows.quiet_eq, spliced, quiet_leave, quiet_iterate_leave]
    · change (reading.close piece span keyword).quiet.flattened = []
      rw [closed, flattened_pop, flattened_iterate_pop]
  · have missing : keyword ∉ follower.names := follows.names_eq ▸ member
    rw [names, List.mem_append, not_or] at missing
    apply follows.congr
    · rw [close_of_not_mem follower piece span missing.1 missing.2, quiet_report]
    · rw [close_of_not_mem reading piece span forgotten member, quiet_report]

theorem apply (index : Nat) (span : Span) (tag : Tag) :
    Follows limit (follower.apply (some limit) index span tag)
      (reading.apply none index span tag) := by
  cases tag with
  | opening header => exact follows.openConstruct index span header
  | branch kind => exact follows.openBranch index span kind
  | closing keyword => exact follows.close index span keyword
  | single leaf => exact follows.push index leaf
  | inert => exact follows
  | unknown keyword => exact follows.congr (quiet_report _ _) (quiet_report _ _)

/-- At the end, the statements under the limit are what splicing leaves of the others. -/
theorem statements_finish :
    follower.finish.statements = spliceAll limit 0 reading.finish.statements := by
  have spliced : (reading.emptied.splice limit).root =
      (spliceAll limit 0 reading.emptied.root.reverse).reverse := by
    rw [splice, stack_emptied]
    rfl
  have left : (reading.emptied.splice limit).quiet =
      (leave · none)^[reading.stack.length] follower.quiet := by
    rw [follows.quiet_eq, ← quiet_iterate_leave, emptied, splice_iterate_pop]
    rfl
  have width : reading.stack.length = follower.stack.length + follower.flattened.length := by
    rw [follows.length_stack, follows.length_flattened]
    omega
  rw [width, Function.iterate_add_apply,
    iterate_leave_append follower.flattened [] follower.quiet (List.append_nil _).symm,
    iterate_leave_of_flattened_nil rfl, iterate_pop_with_flattened] at left
  have same_root : (reading.emptied.splice limit).root = follower.emptied.root :=
    (congrArg Reading.root left : (reading.emptied.splice limit).quiet.root = _)
  rw [Reading.statements_finish, Reading.statements_finish, ← same_root, spliced,
    List.reverse_reverse]

end Follows

end Reading

/-- Reading with a limit follows reading without one, piece by piece. -/
theorem follows_read (limit : Nat) (options : Options) (source : Source) (pieces : List Piece) :
    Reading.Follows limit (read (some limit) options source pieces)
      (read none options source pieces) := by
  induction pieces using List.reverseRecOn with
  | nil => exact ⟨rfl, rfl⟩
  | append_singleton pieces piece ih =>
      rw [read_append_singleton, read_append_singleton, step_eq_apply, step_eq_apply]
      exact (ih.note piece).apply _ _ _

end Tree
end TwigTemplate
