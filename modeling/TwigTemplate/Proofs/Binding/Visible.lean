import TwigTemplate.Proofs.Binding.Declared
import TwigTemplate.Proofs.Tree.Ended
import TwigTemplate.Proofs.Tree.Order

/-!
# Names in scope are lexically visible

The path to the cursor meets live bindings in the order of the template, and of each name it keeps
the last one.  Trees are orderly, so this holds of every template.
-/

namespace TwigTemplate
namespace Binding

open Statement

/-- A binding with its position comes before another in the template. -/
def Precedes (earlier later : Binding × Nat) : Prop :=
  earlier.1.piece < later.1.piece ∨ earlier.1.piece = later.1.piece ∧ earlier.2 < later.2

theorem pairwise_zipIdx {bindings : List Binding} {piece : Nat}
    (same : ∀ entry ∈ bindings.zipIdx, entry.1.piece = piece) :
    bindings.zipIdx.Pairwise Precedes := by
  have positions : (bindings.zipIdx.map Prod.snd).Pairwise (· < ·) := by
    rw [List.zipIdx_map_snd]
    exact List.pairwise_lt_range'
  rw [List.pairwise_map] at positions
  refine positions.imp_of_mem ?_
  intro earlier later earlier_member later_member before
  exact .inr ⟨(same earlier earlier_member).trans (same later later_member).symm, before⟩

theorem piece_of_exports {cursor : Nat} {until? : Option Nat} {statement : Statement}
    {binding : Binding} {position : Nat}
    (exports : Exports cursor until? statement binding position) :
    binding.piece = statement.startPiece := by
  cases exports <;> rfl

theorem piece_of_introduces {until? : Option Nat} {statement : Statement} {binding : Binding}
    {position : Nat} (introduces : Introduces until? statement binding position) :
    binding.piece = statement.startPiece := by
  cases introduces <;> rfl

/-- No statement binds names both after itself and in its main body. -/
theorem not_introduces_of_exports {cursor : Nat} {until? stop : Option Nat} {statement : Statement}
    {exported introduced : Binding} {first second : Nat}
    (exports : Exports cursor until? statement exported first) :
    ¬ Introduces stop statement introduced second := by
  intro introduces
  cases exports <;> cases introduces

section Order

variable {cursor : Nat} {limit stop : Option Nat} {statement : Statement} {segment : Segment}
  {entry : Binding × Nat}

theorem piece_of_mem_ofSibling (early : statement.startPiece < cursor)
    (member : entry ∈ (ofSibling cursor limit statement).zipIdx) :
    entry.1.piece = statement.startPiece :=
  piece_of_exports ((mem_ofSibling_iff early).mp member)

theorem piece_of_mem_onEntry (member : entry ∈ onEntry stop statement segment) :
    entry.1.piece = statement.startPiece :=
  piece_of_introduces (mem_onEntry_iff.mp member).2

theorem pairwise_ofSibling (early : statement.startPiece < cursor) :
    (ofSibling cursor limit statement).zipIdx.Pairwise Precedes :=
  pairwise_zipIdx fun _ member => piece_of_mem_ofSibling early member

theorem pairwise_onEntry : (onEntry stop statement segment).Pairwise Precedes := by
  rw [onEntry]
  split
  · exact pairwise_zipIdx fun _ member => piece_of_introduces (mem_ofHeader_iff.mp member)
  · exact List.Pairwise.nil

/-- Only names of the body at hand are bound. -/
theorem piece_mem_of_mem_declared {body : List Statement}
    (member : entry ∈ declared cursor limit body) : entry.1.piece ∈ piecesOf body := by
  fun_induction declared cursor limit body with
  | case1 => cases member
  | case2 => cases member
  | case3 limit statement rest early passed ih =>
      rw [piecesOf_cons]
      rcases List.mem_append.mp member with exported | later
      · rw [piece_of_mem_ofSibling (Nat.not_le.mp early) exported]
        exact List.mem_append_left _ (startPiece_mem_pieces statement)
      · exact List.mem_append_right _ (ih later)
  | case4 limit statement rest early segment entered ih =>
      rw [piecesOf_cons]
      apply List.mem_append_left
      rcases List.mem_append.mp member with exported | inner
      · rw [piece_of_mem_ofSibling (Nat.not_le.mp early) exported]
        exact startPiece_mem_pieces statement
      rcases List.mem_append.mp inner with introduced | inner
      · rw [piece_of_mem_onEntry introduced]
        exact startPiece_mem_pieces statement
      · have listed := sublist_of_mem_segments (List.mem_of_find?_eq_some entered)
        exact listed.subset (List.mem_cons_of_mem _ (List.mem_append_left _ (ih inner)))

/-- The path meets bindings in the order of the template. -/
theorem pairwise_declared {opener : Option Nat} {body : List Statement}
    (orderly : Orderly opener limit body) : (declared cursor limit body).Pairwise Precedes := by
  fun_induction declared cursor limit body generalizing opener with
  | case1 => exact List.Pairwise.nil
  | case2 => exact List.Pairwise.nil
  | case3 limit statement rest early passed ih =>
      rw [Nat.not_le] at early
      refine List.pairwise_append.mpr ⟨pairwise_ofSibling early, ih orderly.tail, ?_⟩
      intro earlier exported later member
      left
      rw [piece_of_mem_ofSibling early exported]
      have sorted := orderly.sorted
      rw [piecesOf_cons, List.pairwise_append] at sorted
      exact sorted.2.2 _ (startPiece_mem_pieces statement) _ (piece_mem_of_mem_declared member)
  | case4 limit statement rest early segment entered ih =>
      rw [Nat.not_le] at early
      have part := List.mem_of_find?_eq_some entered
      have orderly_inner := orderly.of_segment List.mem_cons_self part
      have below : ∀ entry ∈ declared cursor (segment.closePiece.or limit) segment.body,
          statement.startPiece < entry.1.piece := by
        intro entry member
        have opens := (sublist_of_mem_segments part).subset List.mem_cons_self
        have starts := startPiece_le (orderly.sorted_statement List.mem_cons_self) opens
        exact Nat.lt_of_le_of_lt starts
          ((orderly_inner.between _ (piece_mem_of_mem_declared member)).1 _ rfl)
      refine List.pairwise_append.mpr ⟨pairwise_ofSibling early,
        List.pairwise_append.mpr ⟨pairwise_onEntry, ih orderly_inner, ?_⟩, ?_⟩
      · intro earlier introduced later member
        left
        rw [piece_of_mem_onEntry introduced]
        exact below later member
      · intro earlier exported later member
        rcases List.mem_append.mp member with introduced | inner
        · exact absurd (mem_onEntry_iff.mp introduced).2
            (not_introduces_of_exports ((mem_ofSibling_iff early).mp exported))
        · left
          rw [piece_of_mem_ofSibling early exported]
          exact below later inner

end Order

/-! ### Hidden bindings -/

/-- The entries whose names are not bound again. -/
def unhidden : List (Binding × Nat) → List (Binding × Nat)
  | [] => []
  | entry :: later =>
    if later.any (·.1.name == entry.1.name) then unhidden later else entry :: unhidden later

theorem unhidden_sublist (entries : List (Binding × Nat)) : (unhidden entries).Sublist entries := by
  induction entries with
  | nil => exact List.Sublist.slnil
  | cons entry later ih =>
      rw [unhidden]
      split
      · exact ih.cons entry
      · exact ih.cons_cons entry

/-- Binding names one after the other keeps what is not hidden, and of what was bound before, what
is not hidden either. -/
theorem foldl_add_eq (bindings : List Binding) (entries : List (Binding × Nat)) :
    (entries.map Prod.fst).foldl add bindings =
      bindings.filter (fun binding => !entries.any (·.1.name == binding.name)) ++
        (unhidden entries).map Prod.fst := by
  induction entries generalizing bindings with
  | nil => simp [unhidden]
  | cons entry later ih =>
      have both : ∀ binding : Binding,
          (!later.any (·.1.name == binding.name) && binding.name != entry.1.name) =
            !(entry :: later).any (·.1.name == binding.name) := by
        intro binding
        rw [List.any_cons, Bool.not_or, Bool.and_comm, Bool.beq_comm]
        rfl
      rw [List.map_cons, List.foldl_cons, ih, add, List.filter_append, List.filter_filter,
        List.append_assoc]
      simp only [both]
      congr 1
      rw [unhidden, List.filter_singleton]
      cases later.any (·.1.name == entry.1.name) <;> rfl

/-- Each name has an entry that is not hidden. -/
theorem exists_mem_unhidden {entries : List (Binding × Nat)} {entry : Binding × Nat}
    (member : entry ∈ entries) : ∃ last ∈ unhidden entries, last.1.name = entry.1.name := by
  induction entries generalizing entry with
  | nil => cases member
  | cons first later ih =>
      rw [unhidden]
      split
      · rename_i hidden
        rcases List.mem_cons.mp member with rfl | member
        · obtain ⟨other, among, same⟩ := List.any_eq_true.mp hidden
          obtain ⟨last, kept, name⟩ := ih among
          exact ⟨last, kept, name.trans (beq_iff_eq.mp same)⟩
        · exact ih member
      · rcases List.mem_cons.mp member with rfl | member
        · exact ⟨entry, List.mem_cons_self, rfl⟩
        · obtain ⟨last, kept, name⟩ := ih member
          exact ⟨last, List.mem_cons_of_mem _ kept, name⟩

theorem pairwise_name_unhidden (entries : List (Binding × Nat)) :
    (unhidden entries).Pairwise fun earlier later => earlier.1.name ≠ later.1.name := by
  induction entries with
  | nil => exact List.Pairwise.nil
  | cons entry later ih =>
      rw [unhidden]
      split
      · exact ih
      · rename_i shown
        refine List.pairwise_cons.mpr ⟨?_, ih⟩
        intro other member same
        exact shown (List.any_eq_true.mpr
          ⟨other, (unhidden_sublist later).subset member, beq_iff_eq.mpr same.symm⟩)

/-- An entry that is not hidden is the last one of its name. -/
theorem eq_or_precedes_of_mem_unhidden {entries : List (Binding × Nat)}
    (sorted : entries.Pairwise Precedes) {last other : Binding × Nat}
    (kept : last ∈ unhidden entries) (member : other ∈ entries)
    (same_name : other.1.name = last.1.name) : other = last ∨ Precedes other last := by
  induction entries with
  | nil => cases member
  | cons entry later ih =>
      rw [List.pairwise_cons] at sorted
      rw [unhidden] at kept
      split at kept
      · rcases List.mem_cons.mp member with rfl | member
        · exact .inr (sorted.1 last ((unhidden_sublist later).subset kept))
        · exact ih sorted.2 kept member
      · rename_i shown
        rcases List.mem_cons.mp kept with rfl | kept_later
        · rcases List.mem_cons.mp member with rfl | bound_again
          · exact .inl rfl
          · have hidden : later.any (·.1.name == last.1.name) = true :=
              List.any_eq_true.mpr ⟨other, bound_again, beq_iff_eq.mpr same_name⟩
            exact absurd hidden shown
        · rcases List.mem_cons.mp member with rfl | member
          · exact .inr (sorted.1 last ((unhidden_sublist later).subset kept_later))
          · exact ih sorted.2 kept_later member

theorem Precedes.asymm {earlier later : Binding × Nat} (before : Precedes earlier later) :
    ¬ Precedes later earlier := by
  unfold Precedes at *
  omega

/-- The binding is live, and no live binding of its name comes after it. -/
def Visible (root : List Statement) (cursor : Nat) (entry : Binding × Nat) : Prop :=
  Live root cursor entry.1 entry.2 ∧
    ∀ binding position, Live root cursor binding position → binding.name = entry.1.name →
      (binding, position) = entry ∨ Precedes (binding, position) entry

theorem mem_unhidden_iff {root : List Statement} (orderly : Orderly none none root) {cursor : Nat}
    {entry : Binding × Nat} :
    entry ∈ unhidden (declared cursor none root) ↔ Visible root cursor entry := by
  have sorted : (declared cursor none root).Pairwise Precedes := pairwise_declared orderly
  constructor
  · intro kept
    refine ⟨(mem_declared_iff orderly).mp ((unhidden_sublist _).subset kept), ?_⟩
    intro binding position live same_name
    exact eq_or_precedes_of_mem_unhidden sorted kept ((mem_declared_iff orderly).mpr live) same_name
  · rintro ⟨live, latest⟩
    have member := (mem_declared_iff orderly).mpr live
    obtain ⟨last, kept, same_name⟩ := exists_mem_unhidden member
    have last_live := (mem_declared_iff orderly).mp ((unhidden_sublist _).subset kept)
    rcases latest last.1 last.2 last_live same_name with same | before
    · obtain rfl : last = entry := same
      exact kept
    · rcases eq_or_precedes_of_mem_unhidden sorted kept member same_name.symm with same | after
      · obtain rfl : entry = last := same
        exact kept
      · exact absurd before after.asymm

end Binding

/-- The statements of a tree are orderly. -/
theorem Tree.orderly_build (limit : Option Nat) (options : Options) (source : Source)
    (pieces : List Piece) : Orderly none none (build limit options source pieces).statements := by
  have lists := lists_read limit options source pieces
  have ended := lastOpen_build limit options source pieces
  rw [← mentionsOf_build] at lists
  exact ⟨lists.1, fun _ _ => ⟨nofun, nofun⟩, ended.1, ended.2⟩

/-- The names in scope are the visible ones, in the order of the template: a name has a single entry
if any live binding bears it, and none otherwise. -/
theorem Document.bindingsAt_visible {options : Options} {source : Source} {offset cursor : Nat}
    (stands : (Document.parse options source).pieceAt? offset = some cursor) :
    let root := (Document.parse options source).statements
    ∃ entries : List (Binding × Nat),
      (Document.parse options source).bindingsAt offset = entries.map Prod.fst ∧
      (∀ entry, entry ∈ entries ↔ Binding.Visible root cursor entry) ∧
      entries.Pairwise Binding.Precedes ∧
      (entries.map (·.1.name)).Nodup ∧
      ∀ name, name ∈ entries.map (·.1.name) ↔
        ∃ binding position, Binding.Live root cursor binding position ∧ binding.name = name := by
  intro root
  have orderly : Orderly none none root := Tree.orderly_build _ options source _
  have sorted : (Binding.declared cursor none root).Pairwise Binding.Precedes :=
    Binding.pairwise_declared orderly
  refine ⟨Binding.unhidden (Binding.declared cursor none root), ?_,
    fun _ => Binding.mem_unhidden_iff orderly, sorted.sublist (Binding.unhidden_sublist _),
    List.pairwise_map.mpr (Binding.pairwise_name_unhidden _), ?_⟩
  · rw [bindingsAt, stands]
    exact (Binding.gather_eq_foldl cursor none [] root).trans (Binding.foldl_add_eq [] _)
  · intro name
    rw [List.mem_map]
    constructor
    · rintro ⟨entry, kept, rfl⟩
      exact ⟨entry.1, entry.2, ((Binding.mem_unhidden_iff orderly).mp kept).1, rfl⟩
    · rintro ⟨binding, position, live, rfl⟩
      exact Binding.exists_mem_unhidden ((Binding.mem_declared_iff orderly).mpr live)

/-- The name set before the markup in which the cursor stands. -/
theorem Document.bindingsAt_visible_after_assignment :
    let document := Document.parse .default (Source.ofString "\x7b% set a = 1 %\x7db")
    ∃ entries : List (Binding × Nat),
      document.bindingsAt 15 = entries.map Prod.fst ∧
      (∀ entry, entry ∈ entries ↔ Binding.Visible document.statements 1 entry) ∧
      entries.map (·.1.name) = ["a"] := by
  intro document
  have stands : document.pieceAt? 15 = some 1 := by decide +kernel
  obtain ⟨entries, shown, visible, -⟩ := bindingsAt_visible stands
  refine ⟨entries, shown, visible, ?_⟩
  have names : (document.bindingsAt 15).map Binding.name = ["a"] := by decide +kernel
  rw [shown, List.map_map] at names
  exact names

end TwigTemplate
