import TwigTemplate.Proofs.Tag.Binder
import TwigTemplate.Proofs.Tag.Loop
import TwigTemplate.Proofs.Tree.Signature

/-!
# Tags that begin statements

A tag that opens a construct or is a statement by itself is what its statement means, whether it is
a template of its own or stands anywhere in one.  Loops, imports and assignments are thus read back
as they are written.
-/

namespace TwigTemplate

namespace Tag

variable {tag : Tag}

/-- A loop opens a construct. -/
theorem exists_opening_of_loopText? {loop : LoopText} (means : tag.loopText? = some loop) :
    ∃ header, tag = .opening header := by
  cases tag with
  | opening header => exact ⟨header, rfl⟩
  | _ => cases means

/-- A binder opens a construct or is a statement by itself. -/
theorem exists_opening_or_single_of_binderText? {binder : BinderText}
    (means : tag.binderText? = some binder) :
    (∃ header, tag = .opening header) ∨ ∃ leaf, tag = .single leaf := by
  cases tag with
  | opening header => exact .inl ⟨header, rfl⟩
  | single leaf => exact .inr ⟨leaf, rfl⟩
  | _ => cases means

end Tag

namespace Tree

open Statement

/-- The piece begins statements with a property. -/
structure Begins (options : Options) (source : Source) (piece : Piece) (property : Tag → Prop) :
    Prop where
  /-- By itself, it is one such statement. -/
  alone : ∃ statement, (ofPieces options source [piece]).statements = [statement] ∧
    property statement.tag
  /-- Anywhere in a template, it begins a statement; if it opens a construct, fewer have to be open
  than are kept. -/
  begins : ∀ before after,
    (∀ header, Tag.ofPiece options source piece = .opening header →
      (read (some nestingLimit) options source before).stack.length < nestingLimit) →
    ∃ statement ∈ forest (ofPieces options source (before ++ piece :: after)).statements,
      statement.startPiece = before.length
  /-- All statements that it begins are such ones. -/
  means : ∀ before after,
    ∀ statement ∈ forest (ofPieces options source (before ++ piece :: after)).statements,
      statement.startPiece = before.length → property statement.tag

section Begins

variable {options : Options} {source : Source} {piece : Piece} {property : Tag → Prop}

/-- A statement that the piece begins means what the piece means. -/
theorem tag_of_startPiece {before after : List Piece} {statement : Statement}
    (member : statement ∈ forest (ofPieces options source (before ++ piece :: after)).statements)
    (starts : statement.startPiece = before.length) :
    statement.tag = Tag.ofPiece options source piece := by
  obtain ⟨other, found, same⟩ := exists_piece_of_mem_forest member
  rw [starts, List.getElem?_append_right (Nat.le_refl _), Nat.sub_self] at found
  cases found
  exact same.symm

theorem exists_of_mem_origins {before after : List Piece} {tag : Tag}
    (member : (before.length, tag) ∈ origins
      (read (some nestingLimit) options source (before ++ piece :: after)).statements) :
    ∃ statement ∈ forest (ofPieces options source (before ++ piece :: after)).statements,
      statement.startPiece = before.length := by
  rw [← statements_build] at member
  obtain ⟨statement, listed, same⟩ := List.mem_map.mp member
  exact ⟨statement, listed, congrArg Prod.fst same⟩

theorem Begins.of_opening {header : Construct}
    (means : Tag.ofPiece options source piece = .opening header)
    (holds : property (.opening header)) : Begins options source piece property := by
  refine ⟨⟨_, statements_of_opening means, holds⟩, fun before after room => ?_,
    fun before after statement member starts => ?_⟩
  · refine exists_of_mem_origins (mem_origins_of_opening means (fun bound same => ?_) after)
    exact Option.some.inj same ▸ room header means
  · rw [tag_of_startPiece member starts, means]
    exact holds

theorem Begins.of_single {leaf : Leaf} (means : Tag.ofPiece options source piece = .single leaf)
    (holds : property (.single leaf)) : Begins options source piece property := by
  have alone : (ofPieces options source [piece]).statements = [.leaf 0 leaf] := by
    rw [statements_singleton, means]
    rfl
  refine ⟨⟨_, alone, holds⟩, fun before after _ => ?_,
    fun before after statement member starts => ?_⟩
  · exact exists_of_mem_origins (mem_origins_of_single means after)
  · rw [tag_of_startPiece member starts, means]
    exact holds

end Begins

/-- A loop in a tag, with spaces around it or without, is read back: the tag begins a loop over just
these variables, with this expression for its items and with this condition or none. -/
theorem begins_loop_of_written (options : Options) (source : Source) {loop : LoopText}
    (formed : loop.WellFormed) {piece : Piece} (kind : piece.kind = .region .tag)
    {front back : List UInt8}
    (content : source.slice piece.body = front ++ (loop.written.toUTF8.data.toList ++ back))
    (spaces_front : ∀ byte ∈ front, Byte.isSpace byte = true)
    (spaces_back : ∀ byte ∈ back, Byte.isSpace byte = true) :
    Begins options source piece fun tag => tag.loopText? = some loop := by
  have means := LoopText.loopText?_of_written formed options kind content spaces_front spaces_back
  obtain ⟨header, opens⟩ := Tag.exists_opening_of_loopText? means
  exact .of_opening opens (opens ▸ means)

/-- Inside of a condition, a loop with a variable `if`, over an expression that holds a further `in`
and, in brackets, an `if`, with a condition that holds both. -/
theorem begins_loop_of_written_words :
    let source := Source.ofString
      "\x7b% if x %\x7d\x7b% for if, é in x in f('in', [a if b])|sort if c in [1..5] if d %\x7d"
    let loop : LoopText := ⟨["if", "é"], "x in f('in', [a if b])|sort", some "c in [1..5] if d"⟩
    let condition : Piece := ⟨.region .tag, ⟨0, 10⟩, ⟨2, 8⟩, true⟩
    let piece : Piece := ⟨.region .tag, ⟨10, 77⟩, ⟨12, 75⟩, true⟩
    let spaces := [Byte.ofChar ' ']
    (Document.parse .default source).pieces = #[condition, piece] ∧ loop.WellFormed ∧
      source.slice piece.body = spaces ++ (loop.written.toUTF8.data.toList ++ spaces) ∧
      (∀ byte ∈ spaces, Byte.isSpace byte = true) ∧
      Begins .default source piece (fun tag => tag.loopText? = some loop) ∧
      ∃ statement ∈ forest (ofPieces .default source [condition, piece]).statements,
        statement.startPiece = 1 ∧ statement.tag.loopText? = some loop := by
  intro source loop condition piece spaces
  have pieces : (Document.parse .default source).pieces = #[condition, piece] := by
    decide +kernel
  have formed : loop.WellFormed := by decide +kernel
  have content : source.slice piece.body =
      spaces ++ (loop.written.toUTF8.data.toList ++ spaces) := by decide +kernel
  have blank : ∀ byte ∈ spaces, Byte.isSpace byte = true :=
    List.forall_mem_singleton.mpr (by decide)
  have begun : Begins .default source piece fun tag => tag.loopText? = some loop :=
    begins_loop_of_written .default source formed rfl content blank blank
  obtain ⟨statement, member, starts⟩ := begun.begins [condition] [] fun _ _ => by decide +kernel
  exact ⟨pieces, formed, content, blank, begun, statement, member, starts,
    begun.means [condition] [] statement member starts⟩

/-- Imports and variables that are set in a tag, with spaces around them or without, are read back:
the tag begins a statement with just these templates, values and names, and it opens a body only
where variables are set without a value. -/
theorem begins_binder_of_written (options : Options) (source : Source) {binder : BinderText}
    (formed : binder.WellFormed) {piece : Piece} (kind : piece.kind = .region .tag)
    {front back : List UInt8}
    (content : source.slice piece.body = front ++ (binder.written.toUTF8.data.toList ++ back))
    (spaces_front : ∀ byte ∈ front, Byte.isSpace byte = true)
    (spaces_back : ∀ byte ∈ back, Byte.isSpace byte = true) :
    Begins options source piece fun tag => tag.binderText? = some binder := by
  have means :=
    BinderText.binderText?_of_written formed options kind content spaces_front spaces_back
  rcases Tag.exists_opening_or_single_of_binderText? means with ⟨header, opens⟩ | ⟨leaf, single⟩
  · exact .of_opening opens (opens ▸ means)
  · exact .of_single single (single ▸ means)

/-- Inside of a condition, macros `as` and `b` of a template whose expression holds the word `as`
and, in brackets, the word `import`, which is also the name to be used for the first macro. -/
theorem begins_binder_of_written_words :
    let source := Source.ofString
      "\x7b% if x %\x7d\x7b% from f('import', [import]) ~ as import as as import, b %\x7d"
    let binder : BinderText :=
      .selection "f('import', [import]) ~ as" [⟨"as", some "import"⟩, ⟨"b", none⟩]
    let condition : Piece := ⟨.region .tag, ⟨0, 10⟩, ⟨2, 8⟩, true⟩
    let piece : Piece := ⟨.region .tag, ⟨10, 70⟩, ⟨12, 68⟩, true⟩
    let spaces := [Byte.ofChar ' ']
    (Document.parse .default source).pieces = #[condition, piece] ∧ binder.WellFormed ∧
      source.slice piece.body = spaces ++ (binder.written.toUTF8.data.toList ++ spaces) ∧
      (∀ byte ∈ spaces, Byte.isSpace byte = true) ∧
      Begins .default source piece (fun tag => tag.binderText? = some binder) ∧
      ∃ statement ∈ forest (ofPieces .default source [condition, piece]).statements,
        statement.startPiece = 1 ∧ statement.tag.binderText? = some binder := by
  intro source binder condition piece spaces
  have pieces : (Document.parse .default source).pieces = #[condition, piece] := by
    decide +kernel
  have formed : binder.WellFormed := by decide +kernel
  have content : source.slice piece.body =
      spaces ++ (binder.written.toUTF8.data.toList ++ spaces) := by decide +kernel
  have blank : ∀ byte ∈ spaces, Byte.isSpace byte = true :=
    List.forall_mem_singleton.mpr (by decide)
  have begun : Begins .default source piece fun tag => tag.binderText? = some binder :=
    begins_binder_of_written .default source formed rfl content blank blank
  obtain ⟨statement, member, starts⟩ := begun.begins [condition] [] fun _ _ => by decide +kernel
  exact ⟨pieces, formed, content, blank, begun, statement, member, starts,
    begun.means [condition] [] statement member starts⟩

end Tree
end TwigTemplate
