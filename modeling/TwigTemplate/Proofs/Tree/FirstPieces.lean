import Mathlib.Data.List.Forall2
import Mathlib.Data.Set.List
import TwigTemplate.Proofs.Tree.Attach
import TwigTemplate.Proofs.Tree.Unclosed

/-!
# What is told of the first pieces

A template that ends after some of its pieces has the tree of all pieces, restricted to the first
ones.  Of what is told of all pieces, a first part is told of the first ones too, and then of each
construct that is still open.
-/

namespace TwigTemplate

namespace Statement

/-- The diagnostic tells that the template ends inside the construct. -/
def ToldAtEnd (pieces : List Piece) (statement : Statement) (diagnostic : Diagnostic) : Prop :=
  ∃ keyword span, statement.keyword? = some keyword ∧
    pieces[statement.startPiece]?.map Piece.span = some span ∧
    diagnostic = (Finding.unclosedBlock keyword span true).diagnostic

end Statement

namespace Tree

open Statement

namespace Reading

/-- The open constructs as statements have the keywords and the first pieces of their frames. -/
theorem forall₂_nested (frames : List Frame) (inner : List Statement) :
    List.Forall₂ (fun frame part => part.keyword? = some frame.keyword ∧
      part.startPiece = frame.piece) frames (nested frames inner) := by
  induction frames generalizing inner with
  | nil => exact .nil
  | cons frame frames ih =>
      refine .cons ⟨?_, ?_⟩ (ih _)
      · simp [keyword?, header?, Frame.finish, Frame.keyword]
      · simp [Frame.finish, startPiece]

/-- An inner open construct lies inside those around it. -/
theorem pairwise_mem_nested (frames : List Frame) (inner : List Statement) :
    (nested frames inner).Pairwise fun part around => part ∈ forest around.children := by
  induction frames generalizing inner with
  | nil => exact .nil
  | cons frame frames ih =>
      refine .cons ?_ (ih _)
      intro around outer
      exact mem_children_of_mem_nested outer (by simp [mem_subtree_self])

namespace ContinuedBy

variable {index : Nat} {root : List Statement} {reading : Reading}
  (continued : reading.ContinuedBy index root)
include continued

/-- What is open before a piece, innermost first. -/
theorem exists_opened :
    ∃ opened : List Statement, opened.map (restrict index) = nested reading.stack [] ∧
      ∀ statement, statement ∈ opened ↔ OpenBefore index root statement := by
  let part (statement : { statement // OpenBefore index root statement }) : Statement :=
    restrict index statement.1
  have listed : nested reading.stack [] ∈ Set.range (List.map part) := by
    rw [Set.range_list_map]
    intro left_open member
    obtain ⟨statement, opened, same⟩ := continued.exists_openBefore member
    exact ⟨⟨statement, opened⟩, same⟩
  obtain ⟨opened, same⟩ := listed
  refine ⟨opened.map Subtype.val, by rw [List.map_map, ← same]; rfl, ?_⟩
  intro statement
  constructor
  · intro member
    obtain ⟨whole, -, rfl⟩ := List.mem_map.mp member
    exact whole.2
  · intro is_open
    have member := (continued.openBefore_iff.mp is_open).2.2
    rw [← same] at member
    obtain ⟨whole, among, left_open⟩ := List.mem_map.mp member
    have same_start := congrArg startPiece left_open
    rw [startPiece_restrict, startPiece_restrict] at same_start
    obtain rfl := continued.eq_of_startPiece_eq whole.2.member is_open.member same_start
    exact List.mem_map_of_mem among

/-- What is left of an open construct lies inside another one exactly if it does itself. -/
theorem mem_children_of_restrict {inner outer : Statement}
    (inner_open : OpenBefore index root inner) (outer_open : OpenBefore index root outer)
    (inside : restrict index inner ∈ forest (restrict index outer).children) :
    inner ∈ forest outer.children := by
  have within : inner ∈ subtree outer := by
    apply continued.mem_subtree_of_startPiece_eq outer_open.member outer_open.starts
      inner_open.member _ (startPiece_restrict index inner)
    rw [subtree_eq_cons]
    exact List.mem_cons_of_mem _ inside
  rw [subtree_eq_cons] at within
  refine (List.mem_cons.mp within).resolve_left ?_
  rintro rfl
  have among := continued.mem_forest_iff.mpr ⟨_, outer_open.member, outer_open.starts, rfl⟩
  exact Nat.lt_irrefl _ (startPiece_lt_of_mem_children
    (sorted_of_mem_forest continued.sorted_statements among) inside)

end ContinuedBy

end Reading

section Read

variable (limit : Option Nat) (options : Options) (source : Source)

/-- What has been told of the first pieces is told of all pieces first. -/
theorem findings_read_isPrefix (first further : List Piece) :
    (read limit options source first).findings.toList <+:
      (build limit options source (first ++ further)).findings := by
  obtain ⟨told, added⟩ := exists_findings_read_append limit options source first further
  rw [build_eq_finish, Reading.findings_finish, added, Array.toList_append, List.append_assoc]
  exact List.prefix_append _ _

end Read

/-- The tree of the first pieces is the tree of all pieces without all that comes later: statements,
branches and the end pieces of constructs.  What is told of the first pieces is a first part of what
is told of all, and then each construct that is open after them is told of, innermost first. -/
theorem first_pieces_restrict (options : Options) (source : Source) (first further : List Piece) :
    let whole := ofPieces options source (first ++ further)
    let tree := ofPieces options source first
    tree.statements = restrictAll first.length whole.statements ∧
      ∃ told opened cutOff, tree.diagnostics = told ++ cutOff ∧ told <+: whole.diagnostics ∧
        List.Forall₂ (ToldAtEnd first) opened cutOff ∧
        (∀ statement, statement ∈ opened ↔
          OpenBefore first.length whole.statements statement) ∧
        opened.Pairwise fun inner outer => inner ∈ forest outer.children := by
  intro whole tree
  let reading := read (some nestingLimit) options source first
  have continued : reading.ContinuedBy first.length whole.statements :=
    Reading.continuedBy_build _ options source first further
  have balanced := balanced_read (some nestingLimit) options source first []
  rw [List.append_nil] at balanced
  obtain ⟨opened, left_open, is_open⟩ := continued.exists_opened
  have tree_findings : tree.findings =
      reading.findings.toList ++ reading.stack.map (·.unclosed true) :=
    reading.findings_finish
  refine ⟨(continued.restricted.trans (statements_build _ options source first).symm).symm,
    reading.findings.toList.map Finding.diagnostic, opened,
    reading.stack.map fun frame => (frame.unclosed true).diagnostic, ?_, ?_, ?_, is_open, ?_⟩
  · rw [diagnostics, tree_findings, List.map_append, List.map_map]
    rfl
  · exact (findings_read_isPrefix _ options source first further).map _
  · have placed : ∀ frame ∈ reading.stack,
        first[frame.piece]?.map Piece.span = some frame.span :=
      fun frame member => balanced.placed _ (List.mem_map_of_mem member)
    have named := (List.forall₂_and_left _ _).mpr
      ⟨placed, Reading.forall₂_nested reading.stack []⟩
    rw [← left_open, List.forall₂_map_right_iff] at named
    rw [List.forall₂_map_right_iff]
    refine named.flip.imp ?_
    rintro statement frame ⟨found, keyword, start⟩
    rw [keyword?_restrict] at keyword
    rw [startPiece_restrict] at start
    exact ⟨frame.keyword, frame.span, keyword, start ▸ found, rfl⟩
  · have inside := Reading.pairwise_mem_nested reading.stack []
    rw [← left_open, List.pairwise_map] at inside
    refine inside.imp_of_mem ?_
    intro inner outer inner_member outer_member within
    exact continued.mem_children_of_restrict ((is_open inner).mp inner_member)
      ((is_open outer).mp outer_member) within

end Tree
end TwigTemplate
