import TwigTemplate.Proofs.Binding.Live

/-!
# Bindings along a path

The search for the names in scope goes down a single path of bodies.  In an orderly template the
path enters every body in which the cursor lies, so that what is bound along it is all that is live.
-/

namespace TwigTemplate
namespace Binding

open Statement

/-- What the header of a statement binds on the way into a segment of it, up to `stop`, with
positions. -/
def onEntry (stop : Option Nat) (statement : Statement) (segment : Segment) :
    List (Binding × Nat) :=
  if segment.kind = .main then (ofHeader stop statement).zipIdx else []

/-- The bindings along the path to the cursor, in order and with their positions. -/
def declared (cursor : Nat) (limit : Option Nat) : (body : List Statement) → List (Binding × Nat)
  | [] => []
  | statement :: rest =>
    if cursor ≤ statement.startPiece then []
    else
      match _found : statement.segments.find? (encloses cursor limit) with
      | none => (ofSibling cursor limit statement).zipIdx ++ declared cursor limit rest
      | some segment =>
        (ofSibling cursor limit statement).zipIdx ++
          (onEntry (segment.closePiece.or limit) statement segment ++
            declared cursor (segment.closePiece.or limit) segment.body)
termination_by body => sizeOf body
decreasing_by
  · simp only [List.cons.sizeOf_spec]
    omega
  · have segment_lt := Statement.sizeOf_segment_lt (List.mem_of_find?_eq_some _found)
    simp only [List.cons.sizeOf_spec]
    omega

section Steps

variable {cursor : Nat} {limit : Option Nat} {statement : Statement} {rest : List Statement}

theorem declared_nil (cursor : Nat) (limit : Option Nat) : declared cursor limit [] = [] := by
  rw [declared]

theorem declared_of_le (late : cursor ≤ statement.startPiece) :
    declared cursor limit (statement :: rest) = [] := by
  rw [declared, if_pos late]

theorem declared_of_passed (early : statement.startPiece < cursor)
    (passed : statement.segments.find? (encloses cursor limit) = none) :
    declared cursor limit (statement :: rest) =
      (ofSibling cursor limit statement).zipIdx ++ declared cursor limit rest := by
  rw [declared, if_neg (Nat.not_le.mpr early)]
  split
  · rfl
  · rename_i segment found
    rw [passed] at found
    cases found

theorem declared_of_entered {segment : Segment} (early : statement.startPiece < cursor)
    (entered : statement.segments.find? (encloses cursor limit) = some segment) :
    declared cursor limit (statement :: rest) =
      (ofSibling cursor limit statement).zipIdx ++
        (onEntry (segment.closePiece.or limit) statement segment ++
          declared cursor (segment.closePiece.or limit) segment.body) := by
  rw [declared, if_neg (Nat.not_le.mpr early)]
  split
  · rename_i found
    rw [entered] at found
    cases found
  · rename_i other found
    rw [entered] at found
    cases found
    rfl

end Steps

/-- Gathering binds what is declared along the path, one name after the other. -/
theorem gather_eq_foldl (cursor : Nat) (limit : Option Nat) (bindings : List Binding)
    (body : List Statement) :
    gather cursor limit bindings body =
      ((declared cursor limit body).map Prod.fst).foldl add bindings := by
  fun_induction gather cursor limit bindings body with
  | case1 limit bindings => rw [declared_nil]; rfl
  | case2 limit bindings statement rest late => rw [declared_of_le late]; rfl
  | case3 limit bindings statement rest early updated passed ih =>
      rw [ih, declared_of_passed (Nat.not_le.mp early) passed, List.map_append, List.foldl_append,
        List.zipIdx_map_fst]
  | case4 limit bindings statement rest early updated segment entered stop own ih =>
      have own_eq : own = (onEntry stop statement segment).map Prod.fst := by
        by_cases main : segment.kind = .main <;> simp [own, onEntry, main]
      rw [ih, declared_of_entered (Nat.not_le.mp early) entered, List.map_append, List.map_append,
        List.foldl_append, List.foldl_append, List.zipIdx_map_fst, ← own_eq]

/-! ### Soundness -/

theorem encloses_iff {cursor : Nat} {limit : Option Nat} {segment : Segment} :
    encloses cursor limit segment = true ↔
      Between (some segment.openPiece) (segment.closePiece.or limit) cursor := by
  simp [encloses, Between, Option.all_eq_true]

theorem mem_onEntry_iff {stop : Option Nat} {statement : Statement} {segment : Segment}
    {binding : Binding} {position : Nat} :
    (binding, position) ∈ onEntry stop statement segment ↔
      segment.kind = .main ∧ Introduces stop statement binding position := by
  rw [← mem_ofHeader_iff, onEntry]
  split <;> simp [*]

/-- Whatever is declared along the path is live. -/
theorem live_of_mem_declared {root : List Statement} {cursor : Nat} {opener limit : Option Nat}
    {body part : List Statement} {binding : Binding} {position : Nat}
    (within : BodyOf root opener limit body) (lies : Between opener limit cursor)
    (contained : part ⊆ body) (member : (binding, position) ∈ declared cursor limit part) :
    Live root cursor binding position := by
  fun_induction declared cursor limit part generalizing opener body with
  | case1 => cases member
  | case2 => cases member
  | case3 limit statement rest early passed ih =>
      rw [List.cons_subset] at contained
      rcases List.mem_append.mp member with exported | later
      · have exports := (mem_ofSibling_iff (Nat.not_le.mp early)).mp exported
        exact .exported within lies contained.1 exports
      · exact ih within lies contained.2 later
  | case4 limit statement rest early segment entered ih =>
      rw [List.cons_subset] at contained
      have part := List.mem_of_find?_eq_some entered
      have enclosed := encloses_iff.mp (List.find?_some entered)
      rcases List.mem_append.mp member with exported | inner
      · have exports := (mem_ofSibling_iff (Nat.not_le.mp early)).mp exported
        exact .exported within lies contained.1 exports
      rcases List.mem_append.mp inner with introduced | inner
      · obtain ⟨main, introduces⟩ := mem_onEntry_iff.mp introduced
        exact .introduced within contained.1 part main enclosed introduces
      · exact ih (.segment within contained.1 part) enclosed (List.Subset.refl _) inner

/-! ### Completeness -/

theorem not_encloses_of_le {cursor close : Nat} {limit : Option Nat} {segment : Segment}
    (closes : segment.closePiece = some close) (passed : close ≤ cursor) :
    ¬ encloses cursor limit segment = true := by
  intro enclosed
  have inside := (encloses_iff.mp enclosed).2 close (by rw [closes]; rfl)
  exact absurd inside (Nat.not_lt.mpr passed)

section Path

variable {cursor : Nat} {opener limit : Option Nat} {body before after : List Statement}
  {statement : Statement} {segment : Segment} {entry : Binding × Nat}

/-- The path passes what comes before a statement that begins before the cursor. -/
theorem declared_append (orderly : Orderly opener limit (before ++ statement :: after))
    (early : statement.startPiece < cursor) :
    ∃ passed, declared cursor limit (before ++ statement :: after) =
      passed ++ declared cursor limit (statement :: after) := by
  induction before with
  | nil => exact ⟨[], rfl⟩
  | cons first before ih =>
      have starts : first.startPiece < cursor := Nat.lt_trans
        (orderly.startPiece_lt List.mem_cons_self (startPiece_mem_pieces first)) early
      have closed : first.segments.find? (encloses cursor limit) = none := by
        rw [List.find?_eq_none]
        intro segment part
        obtain ⟨close, closes, bound⟩ := orderly.exists_close_lt List.mem_cons_self part
        exact not_encloses_of_le closes (Nat.le_of_lt (Nat.lt_trans bound early))
      obtain ⟨passed, followed⟩ := ih orderly.tail
      rw [List.cons_append, declared_of_passed starts closed, followed, ← List.append_assoc]
      exact ⟨_, rfl⟩

/-- Of the bodies of a statement, at most one holds the cursor. -/
theorem find?_encloses (sorted : statement.pieces.Pairwise (· < ·))
    (part : segment ∈ statement.segments)
    (lies : Between (some segment.openPiece) (segment.closePiece.or limit) cursor) :
    statement.segments.find? (encloses cursor limit) = some segment := by
  obtain ⟨before, after, split⟩ := List.append_of_mem part
  have apart := pairwise_segments sorted
  rw [split, List.pairwise_append] at apart
  rw [split, List.find?_append, List.find?_eq_none.mpr, Option.none_or,
    List.find?_cons_of_pos (encloses_iff.mpr lies)]
  intro earlier member
  obtain ⟨close, closes, bound⟩ := apart.2.2 earlier member segment List.mem_cons_self
  exact not_encloses_of_le closes (Nat.le_trans bound (Nat.le_of_lt (lies.1 _ rfl)))

theorem startPiece_lt_of_between (orderly : Orderly opener limit body) (member : statement ∈ body)
    (part : segment ∈ statement.segments)
    (lies : Between (some segment.openPiece) (segment.closePiece.or limit) cursor) :
    statement.startPiece < cursor := by
  have listed := (sublist_of_mem_segments part).subset List.mem_cons_self
  exact Nat.lt_of_le_of_lt (startPiece_le (orderly.sorted_statement member) listed) (lies.1 _ rfl)

/-- The path enters every body that holds the cursor. -/
theorem declared_of_mem_segments (orderly : Orderly opener limit body) (member : statement ∈ body)
    (part : segment ∈ statement.segments)
    (lies : Between (some segment.openPiece) (segment.closePiece.or limit) cursor) :
    ∃ passed, declared cursor limit body = passed ++
      (onEntry (segment.closePiece.or limit) statement segment ++
        declared cursor (segment.closePiece.or limit) segment.body) := by
  have early := startPiece_lt_of_between orderly member part lies
  have entered := find?_encloses (orderly.sorted_statement member) part lies
  obtain ⟨before, after, rfl⟩ := List.append_of_mem member
  obtain ⟨passed, followed⟩ := declared_append orderly early
  rw [followed, declared_of_entered early entered, ← List.append_assoc]
  exact ⟨_, rfl⟩

theorem mem_declared_of_mem_ofSibling (orderly : Orderly opener limit body)
    (member : statement ∈ body) (early : statement.startPiece < cursor)
    (exported : entry ∈ (ofSibling cursor limit statement).zipIdx) :
    entry ∈ declared cursor limit body := by
  obtain ⟨before, after, rfl⟩ := List.append_of_mem member
  obtain ⟨passed, followed⟩ := declared_append orderly early
  rw [followed]
  apply List.mem_append_right
  cases found : statement.segments.find? (encloses cursor limit) with
  | none =>
      rw [declared_of_passed early found]
      exact List.mem_append_left _ exported
  | some segment =>
      rw [declared_of_entered early found]
      exact List.mem_append_left _ exported

variable {root : List Statement}

theorem exists_declared_of_bodyOf (orderly : Orderly none none root)
    (within : BodyOf root opener limit body) (lies : Between opener limit cursor) :
    ∃ passed, declared cursor none root = passed ++ declared cursor limit body := by
  induction within with
  | root => exact ⟨[], rfl⟩
  | segment around member part ih =>
      have orderly_around := orderly.of_bodyOf around
      obtain ⟨passed, followed⟩ := ih (orderly_around.between_of_segment member part lies)
      obtain ⟨entered, inner⟩ := declared_of_mem_segments orderly_around member part lies
      rw [followed, inner, ← List.append_assoc, ← List.append_assoc]
      exact ⟨_, rfl⟩

theorem startPiece_lt_of_exports {binding : Binding} {position : Nat}
    (sorted : statement.pieces.Pairwise (· < ·))
    (exports : Exports cursor limit statement binding position) :
    statement.startPiece < cursor := by
  cases exports with
  | library earlier => exact earlier
  | importedName earlier _ => exact earlier
  | assigned earlier _ => exact earlier
  | captured ended _ =>
      exact Nat.lt_of_le_of_lt (startPiece_le sorted (endPiece_mem_pieces rfl)) ended

/-- What is live is declared along the path, and nothing else is. -/
theorem mem_declared_iff (orderly : Orderly none none root) {binding : Binding} {position : Nat} :
    (binding, position) ∈ declared cursor none root ↔ Live root cursor binding position := by
  constructor
  · intro member
    exact live_of_mem_declared .root ⟨nofun, nofun⟩ (List.Subset.refl _) member
  · intro live
    cases live with
    | exported within lies member exports =>
        have orderly_body := orderly.of_bodyOf within
        have early := startPiece_lt_of_exports (orderly_body.sorted_statement member) exports
        obtain ⟨passed, followed⟩ := exists_declared_of_bodyOf orderly within lies
        rw [followed]
        exact List.mem_append_right _ (mem_declared_of_mem_ofSibling orderly_body member early
          ((mem_ofSibling_iff early).mpr exports))
    | introduced within member part main lies introduces =>
        have orderly_body := orderly.of_bodyOf within
        have around := orderly_body.between_of_segment member part lies
        obtain ⟨passed, followed⟩ := exists_declared_of_bodyOf orderly within around
        obtain ⟨entered, inner⟩ := declared_of_mem_segments orderly_body member part lies
        rw [followed, inner]
        apply List.mem_append_right
        apply List.mem_append_right
        exact List.mem_append_left _ (mem_onEntry_iff.mpr ⟨main, introduces⟩)

end Path

end Binding
end TwigTemplate
