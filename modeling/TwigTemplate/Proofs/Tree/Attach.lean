import TwigTemplate.Document
import TwigTemplate.Proofs.Tree.Open

/-!
# Where end tags and branches go

An end tag ends the innermost of the open constructs with its keyword, and cuts off those inside it.
A branch goes to the innermost open construct, if that admits it.  What goes nowhere is told of.
-/

namespace TwigTemplate
namespace Tree

open Statement

namespace Reading

section Nested

variable {frames : List Frame} {inner : List Statement}

/-- Of the open constructs, an inner one begins later. -/
theorem pairwise_nested (sorted : (piecesOf (nest frames inner)).Pairwise (· < ·)) :
    (nested frames inner).Pairwise fun part around => around.startPiece < part.startPiece := by
  induction frames generalizing inner with
  | nil => exact List.Pairwise.nil
  | cons frame frames ih =>
      refine List.pairwise_cons.mpr ⟨?_, ih sorted⟩
      intro around outer
      have listed := nested_subset_forest frames _ outer
      apply startPiece_lt_of_mem_children (sorted_of_mem_forest sorted listed)
      exact mem_children_of_mem_nested outer (by simp [mem_subtree_self])

end Nested

namespace ContinuedBy

variable {index : Nat} {root : List Statement} {reading : Reading}
  (continued : reading.ContinuedBy index root) {statement other part : Statement}
include continued

/-- Every open construct of the reading is there in the tree. -/
theorem exists_openBefore (member : part ∈ nested reading.stack []) :
    ∃ statement, OpenBefore index root statement ∧ restrict index statement = part := by
  have listed : part ∈ forest reading.statements := by
    rw [statements, forest_append]
    exact List.mem_append_right _ (nested_subset_forest _ _ member)
  obtain ⟨statement, among, starts, rfl⟩ := continued.mem_forest_iff.mp listed
  exact ⟨statement, continued.openBefore_iff.mpr ⟨among, starts, member⟩, rfl⟩

/-- Where an open construct stands among the others: it is one of those inside a given one, or that
one, or it begins before it. -/
theorem openBefore_cases {left right : List Statement}
    (split : nested reading.stack [] = left ++ restrict index statement :: right)
    (opened : OpenBefore index root statement) (other_opened : OpenBefore index root other) :
    restrict index other ∈ left ∨ other = statement ∨
      other.startPiece < statement.startPiece := by
  have member := (continued.openBefore_iff.mp other_opened).2.2
  have descending : (nested reading.stack []).Pairwise fun part around =>
      around.startPiece < part.startPiece := by
    have sorted := continued.sorted_statements
    rw [statements, piecesOf_append] at sorted
    exact pairwise_nested (List.pairwise_append.mp sorted).2.1
  rw [split] at member descending
  rcases List.mem_append.mp member with inside | member
  · exact .inl inside
  rcases List.mem_cons.mp member with same | outer
  · have same_start := congrArg startPiece same
    rw [startPiece_restrict, startPiece_restrict] at same_start
    exact .inr (.inl (continued.eq_of_startPiece_eq other_opened.member opened.member same_start))
  · have earlier := (List.pairwise_cons.mp (List.pairwise_append.mp descending).2.1).1 _ outer
    rw [startPiece_restrict, startPiece_restrict] at earlier
    exact .inr (.inr earlier)

/-- A statement is inside another one if what is left of that one holds its first piece. -/
theorem mem_subtree_of_startPiece_eq (member : statement ∈ forest root)
    (starts : statement.startPiece < index) (other_member : other ∈ forest root)
    (listed : part ∈ subtree (restrict index statement))
    (same : part.startPiece = other.startPiece) : other ∈ subtree statement := by
  rw [subtree_restrict (sorted_of_mem_forest continued.sorted member) starts] at listed
  obtain ⟨whole, kept, rfl⟩ := List.mem_map.mp listed
  have inside := (List.mem_filter.mp kept).1
  rw [startPiece_restrict] at same
  obtain rfl := continued.eq_of_startPiece_eq (subtree_subset_forest member inside) other_member
    same
  exact inside

end ContinuedBy

/-! ### End tags -/

theorem nested_of_append {reading : Reading} {inner outer : List Frame} {frame : Frame}
    (stacked : reading.stack = inner ++ frame :: outer) :
    nested reading.stack [] = nested inner [] ++
      (frame.pushAll (nest inner [])).finish none ::
        nested outer [(frame.pushAll (nest inner [])).finish none] := by
  rw [stacked, nested_append]
  rfl

section Closing

variable {index : Nat} {root : List Statement} {reading after : Reading}
  (continued : reading.ContinuedBy index root)
  (continued_after : after.ContinuedBy (index + 1) root)
  {inner outer : List Frame} {frame : Frame}
  (stacked : reading.stack = inner ++ frame :: outer)
  (ended : (frame.pushAll (nest inner [])).finish (some index) ∈ forest after.statements)
include continued continued_after stacked ended

/-- The construct that an end tag ends, in the finished tree. -/
theorem exists_ended :
    ∃ target, OpenBefore index root target ∧
      restrict index target = (frame.pushAll (nest inner [])).finish none ∧
      restrict (index + 1) target = (frame.pushAll (nest inner [])).finish (some index) := by
  have member : (frame.pushAll (nest inner [])).finish none ∈ nested reading.stack [] := by
    simp [nested_of_append stacked]
  obtain ⟨target, opened, left_open⟩ := continued.exists_openBefore member
  obtain ⟨whole, among, -, left_ended⟩ := continued_after.mem_forest_iff.mp ended
  have same_start : whole.startPiece = target.startPiece := by
    rw [← startPiece_restrict index target, left_open, ← startPiece_restrict _ whole, left_ended]
    rfl
  obtain rfl := continued.eq_of_startPiece_eq among opened.member same_start
  exact ⟨whole, opened, left_open, left_ended⟩

/-- An end tag ends the innermost open construct with its keyword, and the constructs inside that
one have no end tag. -/
theorem innermostOpen_of_ended (others : ∀ other ∈ inner, other.keyword ≠ frame.keyword) :
    ∃ target, InnermostOpen index root (·.keyword? = some frame.keyword) target ∧
      target.endPiece? = some index ∧
      ∀ other, OpenBefore index root other → target.startPiece < other.startPiece →
        other.endPiece? = none := by
  obtain ⟨target, opened, left_open, left_ended⟩ :=
    exists_ended continued continued_after stacked ended
  have split := nested_of_append stacked
  rw [← left_open] at split
  have ends : target.endPiece? = some index := by
    have kept := endPiece?_restrict (index + 1) target
    rw [left_ended] at kept
    exact (Option.filter_eq_some_iff.mp kept.symm).1
  refine ⟨target, ⟨opened, ?_, ?_⟩, ends, ?_⟩
  · change target.keyword? = some frame.keyword
    rw [← keyword?_restrict index, left_open]
    simp [keyword?, header?, Frame.finish, Frame.keyword]
  · intro other other_opened other_keyword
    apply (continued.openBefore_cases split opened other_opened).resolve_left
    intro inside
    obtain ⟨-, -, between, listed, header, -⟩ := exists_frame_of_mem_nested inside
    rw [header?_restrict] at header
    rw [keyword?, header] at other_keyword
    exact others between listed (Option.some.inj other_keyword)
  · intro other other_opened later
    -- a construct that begins later is one of those that are cut off
    have cut_off : restrict index other ∈ nested inner [] := by
      rcases continued.openBefore_cases split opened other_opened with inside | rfl | earlier
      · exact inside
      · exact absurd later (Nat.lt_irrefl _)
      · exact absurd later (Nat.lt_asymm earlier)
    have listed : restrict index other ∈ subtree (restrict (index + 1) target) := by
      rw [left_ended, subtree_eq_cons, Frame.children_finish, Frame.contents_pushAll, forest_append]
      exact List.mem_cons_of_mem _
        (List.mem_append_right _ (nested_subset_forest _ _ cut_off))
    have inside := continued_after.mem_subtree_of_startPiece_eq opened.member
      (Nat.lt_succ_of_lt opened.starts) other_opened.member listed (startPiece_restrict _ _)
    rw [subtree_eq_cons] at inside
    rcases List.mem_cons.mp inside with rfl | within
    · exact absurd later (Nat.lt_irrefl _)
    cases other_ends : other.endPiece? with
    | none => rfl
    | some stop =>
        have late := other_opened.unended other other_opened.member (mem_subtree_self other) stop
          other_ends
        have early := lt_endPiece_of_mem_children
          (sorted_of_mem_forest continued.sorted opened.member) ends within
          (endPiece_mem_pieces other_ends)
        omega

end Closing

/-- No open construct has a keyword that is not among those of the reading. -/
theorem keyword?_ne_of_missing {index : Nat} {root : List Statement} {reading : Reading}
    {keyword : String} (continued : reading.ContinuedBy index root)
    (missing : keyword ∉ reading.keywords) {other : Statement}
    (opened : OpenBefore index root other) : other.keyword? ≠ some keyword := by
  intro same
  have member := (continued.openBefore_iff.mp opened).2.2
  obtain ⟨-, -, frame, listed, header, -⟩ := exists_frame_of_mem_nested member
  rw [header?_restrict] at header
  rw [keyword?, header] at same
  exact missing (List.mem_map.mpr ⟨frame, listed, Option.some.inj same⟩)

/-! ### Branches -/

section Branching

variable {index : Nat} {root : List Statement} {reading after : Reading} {kind : BranchKind}
  {frame : Frame} {frames : List Frame} (continued : reading.ContinuedBy index root)
  (stacked : reading.stack = frame :: frames)
include continued stacked

/-- The innermost open construct, in the finished tree. -/
theorem exists_innermost :
    ∃ target, InnermostOpen index root (fun _ => True) target ∧
      restrict index target = frame.finish none := by
  have split : nested reading.stack [] =
      [] ++ frame.finish none :: nested frames [frame.finish none] := by
    rw [stacked]
    rfl
  have member : frame.finish none ∈ nested reading.stack [] := by simp [split]
  obtain ⟨target, opened, left_open⟩ := continued.exists_openBefore member
  rw [← left_open] at split
  refine ⟨target, ⟨opened, trivial, ?_⟩, left_open⟩
  intro other other_opened _
  exact (continued.openBefore_cases split opened other_opened).resolve_left List.not_mem_nil

omit continued stacked in
/-- An open construct admits a branch if its frame accepts it. -/
theorem admitsAt_iff {target : Statement} (ordered : frame.Ordered)
    (left_open : restrict index target = frame.finish none) :
    target.AdmitsAt index kind ↔ frame.accepts kind = true := by
  have header : target.header? = some frame.header := by
    rw [← header?_restrict index, left_open]
    rfl
  have same : restrictBranches index target.branches =
      frame.branches.reverse.map fun branch => { branch with body := branch.body.reverse } := by
    rw [← branches_restrict, left_open]
    rfl
  constructor
  · rintro ⟨⟨_, found, accepts⟩, earlier⟩
    obtain rfl := Option.some.inj (header.symm.trans found)
    have latest : frame.branches.head?.any (·.kind.isOtherwise) = false := by
      cases branches : frame.branches with
      | nil => rfl
      | cons branch rest =>
          have member : { branch with body := branch.body.reverse } ∈
              restrictBranches index target.branches := by
            rw [same, branches]
            simp
          obtain ⟨whole, among, early, left⟩ := mem_restrictBranches_iff.mp member
          have kind_eq : whole.kind = branch.kind := (Branch.mk.inj left).1
          simpa [kind_eq] using earlier whole among early
    simp [Frame.accepts, accepts, latest]
  · intro accepted
    have none_otherwise := Frame.isOtherwise_of_accepts ordered accepted
    rw [Frame.accepts, Bool.and_eq_true] at accepted
    refine ⟨⟨frame.header, header, accepted.1⟩, ?_⟩
    intro branch among early
    have member := mem_restrictBranches_iff.mpr ⟨branch, among, early, rfl⟩
    rw [same, List.mem_map] at member
    obtain ⟨other, listed, left⟩ := member
    have kind_eq : other.kind = branch.kind := (Branch.mk.inj left).1
    exact kind_eq ▸ none_otherwise other (List.mem_reverse.mp listed)

/-- A branch is recorded in the innermost open construct. -/
theorem innermostOpen_of_branched (continued_after : after.ContinuedBy (index + 1) root)
    (ordered : frame.Ordered) (accepted : frame.accepts kind = true)
    (branched : (frame.openBranch kind index).finish none ∈ forest after.statements) :
    ∃ target, InnermostOpen index root (fun _ => True) target ∧ target.AdmitsAt index kind ∧
      ∃ branch ∈ target.branches, branch.piece = index ∧ branch.kind = kind := by
  obtain ⟨target, innermost, left_open⟩ := exists_innermost continued stacked
  refine ⟨target, innermost, (admitsAt_iff ordered left_open).mpr accepted, ?_⟩
  obtain ⟨whole, among, -, left_branched⟩ := continued_after.mem_forest_iff.mp branched
  have same_start : whole.startPiece = target.startPiece := by
    rw [← startPiece_restrict index target, left_open, ← startPiece_restrict _ whole,
      left_branched]
    rfl
  obtain rfl := continued.eq_of_startPiece_eq among innermost.1.member same_start
  have member : (⟨kind, index, []⟩ : Branch Statement) ∈
      restrictBranches (index + 1) whole.branches := by
    rw [← branches_restrict, left_branched]
    simp [Frame.openBranch, Frame.finish, branches]
  obtain ⟨branch, listed, -, left⟩ := mem_restrictBranches_iff.mp member
  exact ⟨branch, listed, (Branch.mk.inj left).2.1, (Branch.mk.inj left).1⟩

/-- The innermost open construct does not admit a branch that is refused. -/
theorem not_admitsAt_of_refused (ordered : frame.Ordered) (refused : frame.accepts kind = false)
    {target : Statement} (innermost : InnermostOpen index root (fun _ => True) target) :
    ¬ target.AdmitsAt index kind := by
  obtain ⟨first, first_innermost, left_open⟩ := exists_innermost continued stacked
  have same : target = first := by
    rcases first_innermost.2.2 target innermost.1 trivial with same | before
    · exact same
    · rcases innermost.2.2 first first_innermost.1 trivial with same | after
      · exact same.symm
      · exact absurd before (Nat.lt_asymm after)
  rw [same, admitsAt_iff ordered left_open, refused]
  exact Bool.false_ne_true

end Branching

end Reading

/-! ### The tree around a piece -/

section Around

variable {limit : Option Nat} {options : Options} {source : Source} {before after : List Piece}
  {piece : Piece}

/-- A piece that adds no mention is mentioned nowhere. -/
theorem not_mem_piecesOf_build
    (passed : (read limit options source (before ++ [piece])).mentions =
      (read limit options source before).mentions) :
    before.length ∉
      piecesOf (build limit options source (before ++ piece :: after)).statements := by
  intro member
  obtain ⟨later, same, late⟩ :=
    exists_mentions_read_append limit options source (before ++ [piece]) after
  rw [piecesOf, mentionsOf_build, List.append_cons, same, passed, List.map_append] at member
  rcases List.mem_append.mp member with member | member
  · obtain ⟨mention, mentioned, here⟩ := List.mem_map.mp member
    have inside := (lists_read limit options source before).lt_length mentioned
    omega
  · obtain ⟨mention, mentioned, here⟩ := List.mem_map.mp member
    have past := late mention mentioned
    rw [List.length_append, List.length_singleton] at past
    omega

/-- A construct that has been added to the body around is in what has been read. -/
theorem mem_forest_push (reading : Reading) (statement : Statement) :
    statement ∈ forest (reading.push statement).statements := by
  rw [Reading.statements_push, forest_append]
  apply List.mem_append_right
  apply Reading.forest_subset_nest
  simp [mem_subtree_self]

theorem mem_forest_stack_cons (reading : Reading) {frame : Frame} {frames : List Frame}
    (stacked : reading.stack = frame :: frames) :
    frame.finish none ∈ forest reading.statements := by
  rw [Reading.statements_of_stack_cons stacked]
  exact mem_forest_push _ _

variable (shallow : (build limit options source (before ++ piece :: after)).Shallow)
include shallow

/-- The reading after a piece, and what it has to do with the finished tree. -/
theorem exists_acts_build :
    let root := (build limit options source (before ++ piece :: after)).statements
    let reading := (read limit options source before).note piece
    ∃ result, Reading.Acts limit reading before.length piece.span (Tag.ofPiece options source piece)
        result ∧
      reading.flattened = [] ∧ result.ContinuedBy (before.length + 1) root ∧
      (result.quiet = reading.quiet → before.length ∉ piecesOf root) := by
  intro root reading
  refine ⟨_, acts_read limit options source before piece, ?_, ?_, ?_⟩
  · rw [flattened_note]
    exact flattened_read limit options source
      (shallow_read_of_append limit options source (shallow_read_of_build shallow))
  · have continued := Reading.continuedBy_build limit options source (before ++ [piece]) after
    rwa [List.length_append, List.length_singleton, ← List.append_cons] at continued
  · intro passed
    apply not_mem_piecesOf_build
    exact (Reading.mentions_of_quiet_eq passed).trans
      (Reading.mentions_of_quiet_eq ((read limit options source before).quiet_note piece))

/-- What an end tag does to the finished tree. -/
theorem closing_build {keyword : String}
    (tag : Tag.ofPiece options source piece = .closing keyword) :
    let root := (build limit options source (before ++ piece :: after)).statements
    (∃ target, InnermostOpen before.length root (·.keyword? = some keyword) target ∧
        target.endPiece? = some before.length ∧
        ∀ other, OpenBefore before.length root other → target.startPiece < other.startPiece →
          other.endPiece? = none) ∨
      (∀ other, OpenBefore before.length root other → other.keyword? ≠ some keyword) ∧
        before.length ∉ piecesOf root := by
  intro root
  have continued := Reading.continuedBy_build limit options source before (piece :: after)
  obtain ⟨result, acts, kept, continued_after, passed⟩ := exists_acts_build shallow
  rw [tag] at acts
  cases acts with
  | recalled member => simp [kept] at member
  | ended _ stacked same others =>
      rw [stack_note] at stacked
      subst same
      exact .inl (Reading.innermostOpen_of_ended continued continued_after stacked
        (mem_forest_push _ _) others)
  | strayEnd _ missing =>
      rw [Reading.keywords, stack_note] at missing
      exact .inr ⟨fun other => Reading.keyword?_ne_of_missing continued missing, passed rfl⟩

/-- What a branch does to the finished tree. -/
theorem branch_build {kind : BranchKind}
    (tag : Tag.ofPiece options source piece = .branch kind) :
    let root := (build limit options source (before ++ piece :: after)).statements
    (∃ target, InnermostOpen before.length root (fun _ => True) target ∧
        target.AdmitsAt before.length kind ∧
        ∃ branch ∈ target.branches, branch.piece = before.length ∧ branch.kind = kind) ∨
      (∀ target, InnermostOpen before.length root (fun _ => True) target →
          ¬ target.AdmitsAt before.length kind) ∧
        before.length ∉ piecesOf root := by
  intro root
  have continued := Reading.continuedBy_build limit options source before (piece :: after)
  have ordered := Reading.ordered_invariant.settled_read limit options source before
  obtain ⟨result, acts, kept, continued_after, passed⟩ := exists_acts_build shallow
  rw [tag] at acts
  cases acts with
  | branched _ stacked accepted =>
      rw [stack_note] at stacked
      have ordered_frame := ordered.2 _ (stacked ▸ List.mem_cons_self)
      exact .inl (Reading.innermostOpen_of_branched continued stacked continued_after
        ordered_frame accepted (mem_forest_stack_cons _ rfl))
  | ignored inner => exact absurd kept inner
  | strayBranch _ refused =>
      rw [stack_note] at refused
      refine .inr ⟨fun target innermost => ?_, passed rfl⟩
      obtain ⟨-, -, frame, listed, -⟩ :=
        Reading.exists_frame_of_mem_nested (continued.openBefore_iff.mp innermost.1).2.2
      obtain ⟨first, frames, stacked⟩ := List.exists_cons_of_ne_nil (List.ne_nil_of_mem listed)
      have ordered_frame := ordered.2 first (stacked ▸ List.mem_cons_self)
      exact Reading.not_admitsAt_of_refused continued stacked ordered_frame
        (refused first (by rw [stacked]; rfl)) innermost

end Around

/-! ### The finished tree -/

/-- The kinds of diagnostics on pieces that have no place in the structure. -/
def strayKinds : List DiagnosticKind := [.unexpectedEndTag, .unexpectedBranch, .unknownTag]

theorem kind_mem_strayKinds_iff (finding : Finding) :
    finding.diagnostic.kind ∈ strayKinds ↔ finding.isStray = true := by
  cases finding <;> simp [strayKinds, Finding.diagnostic, Finding.isStray]

/-- What is told of pieces without a place, as diagnostics. -/
theorem strayDiagnostics_build {limit : Option Nat} {options : Options} {source : Source}
    {pieces : List Piece} (shallow : (build limit options source pieces).Shallow) :
    (build limit options source pieces).diagnostics.filter (·.kind ∈ strayKinds) =
      (strayFindings options source pieces
        (piecesOf (build limit options source pieces).statements)).map Finding.diagnostic := by
  rw [← strays_build shallow, diagnostics, List.filter_map]
  congr 1
  apply List.filter_congr
  intro finding _
  simp [kind_mem_strayKinds_iff]

/-- An end tag ends the innermost open construct with its keyword, and a branch goes to the
innermost open construct if that admits it.  End tags and branches that find no such construct are
in no statement, and of each of these, and of the unknown tags, one diagnostic tells. -/
theorem attaches_innermost {options : Options} {source : Source} {pieces : List Piece}
    (shallow : (ofPieces options source pieces).Shallow) :
    let tree := ofPieces options source pieces
    (∀ index piece keyword, pieces[index]? = some piece →
      Tag.ofPiece options source piece = .closing keyword →
      (∃ target, InnermostOpen index tree.statements (·.keyword? = some keyword) target ∧
          target.endPiece? = some index ∧
          ∀ other, OpenBefore index tree.statements other →
            target.startPiece < other.startPiece → other.endPiece? = none) ∨
        (∀ other, OpenBefore index tree.statements other → other.keyword? ≠ some keyword) ∧
          index ∉ piecesOf tree.statements) ∧
    (∀ index piece kind, pieces[index]? = some piece →
      Tag.ofPiece options source piece = .branch kind →
      (∃ target, InnermostOpen index tree.statements (fun _ => True) target ∧
          target.AdmitsAt index kind ∧
          ∃ branch ∈ target.branches, branch.piece = index ∧ branch.kind = kind) ∨
        (∀ target, InnermostOpen index tree.statements (fun _ => True) target →
            ¬ target.AdmitsAt index kind) ∧
          index ∉ piecesOf tree.statements) ∧
    tree.diagnostics.filter (·.kind ∈ strayKinds) =
      (strayFindings options source pieces (piecesOf tree.statements)).map
        Finding.diagnostic := by
  refine ⟨?_, ?_, strayDiagnostics_build shallow⟩
  · intro index piece keyword found tag
    obtain ⟨before, after, rfl, rfl⟩ := exists_around found
    exact closing_build shallow tag
  · intro index piece kind found tag
    obtain ⟨before, after, rfl, rfl⟩ := exists_around found
    exact branch_build shallow tag

/-- The end tag of a condition cuts off the loop inside it, whose own end tag then goes nowhere. -/
theorem attaches_innermost_around_loop :
    let source := Source.ofString
      "\x7b% if a %\x7d\x7b% for b in c %\x7d\x7b% else %\x7d\x7b% endif %\x7d\x7b% endfor %\x7d"
    let tree := ofPieces .default source (Piece.group source.tokens).toList
    tree.Shallow ∧
      (∃ target, InnermostOpen 3 tree.statements (·.keyword? = some "if") target ∧
        target.endPiece? = some 3 ∧
        ∀ other, OpenBefore 3 tree.statements other → target.startPiece < other.startPiece →
          other.endPiece? = none) ∧
      ∀ other, OpenBefore 4 tree.statements other → other.keyword? ≠ some "for" := by
  intro source tree
  have shallow : tree.Shallow := by decide +kernel
  have tags : (Piece.group source.tokens).toList[3]?.map (Tag.ofPiece .default source) =
        some (.closing "if") ∧
      (Piece.group source.tokens).toList[4]?.map (Tag.ofPiece .default source) =
        some (.closing "for") := by decide +kernel
  have mentioned : 3 ∈ piecesOf tree.statements ∧ 4 ∉ piecesOf tree.statements := by
    decide +kernel
  obtain ⟨third, third_found, third_tag⟩ := Option.map_eq_some_iff.mp tags.1
  obtain ⟨fourth, fourth_found, fourth_tag⟩ := Option.map_eq_some_iff.mp tags.2
  obtain ⟨closing, -, -⟩ := attaches_innermost shallow
  refine ⟨shallow, ?_, ?_⟩
  · apply (closing 3 third "if" third_found third_tag).resolve_right
    rintro ⟨-, passed⟩
    exact passed mentioned.1
  · refine ((closing 4 fourth "for" fourth_found fourth_tag).resolve_left ?_).1
    rintro ⟨target, ⟨opened, -, -⟩, ends, -⟩
    exact mentioned.2
      ((sublist_piecesOf_of_mem_forest opened.member).subset (endPiece_mem_pieces ends))

end Tree
end TwigTemplate
