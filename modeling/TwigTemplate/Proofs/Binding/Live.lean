import TwigTemplate.Binding
import TwigTemplate.Proofs.Statement.Body

/-!
# Live bindings

Which bindings a template has where a cursor stands, said of all statements of the template at once.
Each binding has a position among those of its tag.
-/

namespace TwigTemplate
namespace Binding

/-- A statement binds a name for the rest of the body that holds it, which lies up to `until?`.  A
captured value is bound only once its body has ended. -/
inductive Exports (cursor : Nat) (until? : Option Nat) : Statement → Binding → Nat → Prop
  /-- The name of an imported template. -/
  | library {piece : Nat} {template : Option Excerpt} {name : Excerpt} (earlier : piece < cursor) :
      Exports cursor until? (.leaf piece (.library template (some name)))
        (ofExcerpt .library piece until? name) 0
  /-- The local name of an imported macro. -/
  | importedName {piece position : Nat} {template : Option Excerpt} {names : List ImportedName}
      {imported : ImportedName} (earlier : piece < cursor)
      (listed : names[position]? = some imported) :
      Exports cursor until? (.leaf piece (.selection template names))
        (ofExcerpt .importedName piece until? imported.bound) position
  /-- A variable that is set to a value. -/
  | assigned {piece position : Nat} {targets : List Excerpt} {value : Option Excerpt}
      {target : Excerpt} (earlier : piece < cursor) (listed : targets[position]? = some target) :
      Exports cursor until? (.leaf piece (.assignment targets value))
        (ofExcerpt .assigned piece until? target) position
  /-- A variable that is set to what a body prints. -/
  | captured {piece position endPiece : Nat} {targets : List Excerpt} {body : List Statement}
      {branches : List (Branch Statement)} {target : Excerpt} (ended : endPiece < cursor)
      (listed : targets[position]? = some target) :
      Exports cursor until? (.construct piece (.capture targets) body branches (some endPiece))
        (ofExcerpt .assigned piece until? target) position

/-- The header of a statement binds a name in its main body, which lies up to `until?`. -/
inductive Introduces (until? : Option Nat) : Statement → Binding → Nat → Prop
  /-- A variable of a loop. -/
  | loopVariable {piece position : Nat} {names : List Excerpt}
      {iterable condition : Option Excerpt} {body : List Statement}
      {branches : List (Branch Statement)} {endPiece : Option Nat} {name : Excerpt}
      (listed : names[position]? = some name) :
      Introduces until? (.construct piece (.loop names iterable condition) body branches endPiece)
        (ofExcerpt .loopVariable piece until? name) position
  /-- The loop itself, after its variables. -/
  | loop {piece : Nat} {names : List Excerpt} {iterable condition : Option Excerpt}
      {body : List Statement} {branches : List (Branch Statement)} {endPiece : Option Nat} :
      Introduces until? (.construct piece (.loop names iterable condition) body branches endPiece)
        ⟨"loop", .loopVariable, none, piece, until?⟩ names.length
  /-- A parameter of a macro. -/
  | parameter {piece position : Nat} {name : Option Excerpt} {parameters : List Parameter}
      {body : List Statement} {branches : List (Branch Statement)} {endPiece : Option Nat}
      {parameter : Parameter} (listed : parameters[position]? = some parameter) :
      Introduces until? (.construct piece (.definition name parameters) body branches endPiece)
        (ofExcerpt .parameter piece until? parameter.name) position

/-- A binding with its position is live at the piece `cursor` of a template. -/
inductive Live (root : List Statement) (cursor : Nat) : Binding → Nat → Prop
  /-- A statement of a body in which the cursor lies binds it. -/
  | exported {opener limit : Option Nat} {body : List Statement} {statement : Statement}
      {binding : Binding} {position : Nat} (within : BodyOf root opener limit body)
      (lies : Between opener limit cursor) (member : statement ∈ body)
      (exports : Exports cursor limit statement binding position) :
      Live root cursor binding position
  /-- The header of a statement in whose main body the cursor lies binds it. -/
  | introduced {opener limit : Option Nat} {body : List Statement} {statement : Statement}
      {segment : Segment} {binding : Binding} {position : Nat}
      (within : BodyOf root opener limit body) (member : statement ∈ body)
      (part : segment ∈ statement.segments) (main : segment.kind = .main)
      (lies : Between (some segment.openPiece) (segment.closePiece.or limit) cursor)
      (introduces : Introduces (segment.closePiece.or limit) statement binding position) :
      Live root cursor binding position

theorem mem_zipIdx_map_iff {α β : Type} {f : α → β} {list : List α} {value : β} {position : Nat} :
    (value, position) ∈ (list.map f).zipIdx ↔
      ∃ item, list[position]? = some item ∧ f item = value := by
  rw [List.mem_zipIdx_iff_getElem?, List.getElem?_map, Option.map_eq_some_iff]

/-- What a statement that begins before the cursor binds after itself. -/
theorem mem_ofSibling_iff {cursor : Nat} {until? : Option Nat} {statement : Statement}
    {binding : Binding} {position : Nat} (earlier : statement.startPiece < cursor) :
    (binding, position) ∈ (ofSibling cursor until? statement).zipIdx ↔
      Exports cursor until? statement binding position := by
  constructor
  · intro member
    rw [ofSibling.eq_def] at member
    split at member
    · rename_i bound
      cases bound with
      | none => cases member
      | some name =>
          cases List.mem_singleton.mp member
          exact .library earlier
    · obtain ⟨imported, listed, rfl⟩ := mem_zipIdx_map_iff.mp member
      exact .importedName earlier listed
    · obtain ⟨target, listed, rfl⟩ := mem_zipIdx_map_iff.mp member
      exact .assigned earlier listed
    · split at member
      · rename_i ended
        obtain ⟨target, listed, rfl⟩ := mem_zipIdx_map_iff.mp member
        exact .captured ended listed
      · cases member
    · cases member
  · intro exports
    cases exports with
    | library _ => exact List.mem_singleton_self _
    | importedName _ listed => exact mem_zipIdx_map_iff.mpr ⟨_, listed, rfl⟩
    | assigned _ listed => exact mem_zipIdx_map_iff.mpr ⟨_, listed, rfl⟩
    | captured ended listed =>
        rw [ofSibling, if_pos ended]
        exact mem_zipIdx_map_iff.mpr ⟨_, listed, rfl⟩

/-- What the header of a statement binds in its main body. -/
theorem mem_ofHeader_iff {until? : Option Nat} {statement : Statement} {binding : Binding}
    {position : Nat} :
    (binding, position) ∈ (ofHeader until? statement).zipIdx ↔
      Introduces until? statement binding position := by
  constructor
  · intro member
    rw [ofHeader.eq_def] at member
    split at member
    · rw [List.zipIdx_append, List.mem_append] at member
      rcases member with member | member
      · obtain ⟨name, listed, rfl⟩ := mem_zipIdx_map_iff.mp member
        exact .loopVariable listed
      · obtain ⟨rfl, rfl⟩ := Prod.mk.inj (List.mem_singleton.mp member)
        rw [Nat.zero_add, List.length_map]
        exact .loop
    · obtain ⟨parameter, listed, rfl⟩ := mem_zipIdx_map_iff.mp member
      exact .parameter listed
    · cases member
  · intro introduces
    cases introduces with
    | loopVariable listed =>
        rw [ofHeader, List.zipIdx_append]
        exact List.mem_append_left _ (mem_zipIdx_map_iff.mpr ⟨_, listed, rfl⟩)
    | loop =>
        rw [ofHeader, List.zipIdx_append, Nat.zero_add, List.length_map]
        exact List.mem_append_right _ (List.mem_singleton_self _)
    | parameter listed => exact mem_zipIdx_map_iff.mpr ⟨_, listed, rfl⟩

end Binding
end TwigTemplate
