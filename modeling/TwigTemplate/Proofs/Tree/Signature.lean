import TwigTemplate.Document
import TwigTemplate.Proofs.Tag.Signature
import TwigTemplate.Proofs.Tree.Meaning

/-!
# Signatures in a template

The statement that a tag with a signature begins has this signature, wherever the tag stands.
-/

namespace TwigTemplate

namespace Statement

/-- The signature of a statement that defines a macro. -/
def signature? : Statement → Option Signature
  | leaf _ _ => none
  | construct _ header _ _ _ => header.signature?

theorem signature?_of_tag_eq {statement : Statement} {header : Construct}
    (means : statement.tag = .opening header) : statement.signature? = header.signature? := by
  cases statement with
  | leaf piece content => cases means
  | construct piece other body branches endPiece =>
      cases means
      rfl

end Statement

namespace Tree

open Statement

/-- A template of a single piece. -/
theorem statements_singleton (options : Options) (source : Source) (piece : Piece) :
    (ofPieces options source [piece]).statements =
      (Reading.start.apply (some nestingLimit) 0 piece.span
        (Tag.ofPiece options source piece)).statements := by
  have same (tag : Tag) :
      ((Reading.start.note piece).apply (some nestingLimit) 0 piece.span tag).quiet =
        (Reading.start.apply (some nestingLimit) 0 piece.span tag).quiet := by
    rw [Reading.quiet_apply, Reading.quiet_note, ← Reading.quiet_apply]
  rw [ofPieces, statements_build, ← List.nil_append [piece], read_append_singleton, step_eq_apply]
  exact Reading.statements_of_quiet_eq (same _)

/-- A template that is only the beginning of a construct. -/
theorem statements_of_opening {options : Options} {source : Source} {piece : Piece}
    {header : Construct} (means : Tag.ofPiece options source piece = .opening header) :
    (ofPieces options source [piece]).statements = [.construct 0 header [] [] none] := by
  rw [statements_singleton, means]
  rfl

/-- A signature in a tag, with spaces around it or without, is read back: by itself, the tag is a
macro with this signature, and anywhere in a template where fewer constructs are open than are
kept, it begins a statement, which has the signature. -/
theorem signature?_of_written (options : Options) (source : Source) {signature : Signature}
    (formed : signature.WellFormed) {piece : Piece} (kind : piece.kind = .region .tag)
    {front back : List UInt8}
    (content : source.slice piece.body = front ++ (signature.written.toUTF8.data.toList ++ back))
    (spaces_front : ∀ byte ∈ front, Byte.isSpace byte = true)
    (spaces_back : ∀ byte ∈ back, Byte.isSpace byte = true) :
    (∃ statement, (ofPieces options source [piece]).statements = [statement] ∧
      statement.signature? = some signature) ∧
    ∀ before after,
      let statements := (ofPieces options source (before ++ piece :: after)).statements
      ((read (some nestingLimit) options source before).stack.length < nestingLimit →
        ∃ statement ∈ forest statements, statement.startPiece = before.length) ∧
      ∀ statement ∈ forest statements, statement.startPiece = before.length →
        statement.signature? = some signature := by
  obtain ⟨header, means, same_signature⟩ :=
    formed.exists_opening options kind content spaces_front spaces_back
  refine ⟨⟨_, statements_of_opening means, same_signature⟩, fun before after =>
    ⟨fun room => ?_, fun statement member starts => ?_⟩⟩
  · have limited : ∀ bound, some nestingLimit = some bound →
        (read (some nestingLimit) options source before).stack.length < bound := by
      intro bound same
      exact Option.some.inj same ▸ room
    have begun := mem_origins_of_opening means limited after
    rw [← statements_build] at begun
    obtain ⟨statement, member, same⟩ := List.mem_map.mp begun
    exact ⟨statement, member, congrArg Prod.fst same⟩
  · obtain ⟨other, found, same⟩ := exists_piece_of_mem_forest member
    rw [starts, List.getElem?_append_right (Nat.le_refl _), Nat.sub_self] at found
    cases found
    rw [means] at same
    rw [signature?_of_tag_eq same.symm, same_signature]

/-- A macro inside of a condition, with a default whose brackets and literals hold a comma, a
closing parenthesis and an assignment. -/
theorem signature?_of_written_brackets :
    let source := Source.ofString
      "\x7b% if x %\x7d\x7b% macro f(a, b = [1, \x7b'k': ',)='\x7d]) %\x7d"
    let signature : Signature := ⟨"f", [⟨"a", none⟩, ⟨"b", some "[1, \x7b'k': ',)='\x7d]"⟩]⟩
    let condition : Piece := ⟨.region .tag, ⟨0, 10⟩, ⟨2, 8⟩, true⟩
    let piece : Piece := ⟨.region .tag, ⟨10, 49⟩, ⟨12, 47⟩, true⟩
    let spaces := [Byte.ofChar ' ']
    (Document.parse .default source).pieces = #[condition, piece] ∧ signature.WellFormed ∧
      source.slice piece.body = spaces ++ (signature.written.toUTF8.data.toList ++ spaces) ∧
      (∀ byte ∈ spaces, Byte.isSpace byte = true) ∧
      (∃ statement, (ofPieces .default source [piece]).statements = [statement] ∧
        statement.signature? = some signature) ∧
      ∃ statement ∈ forest (ofPieces .default source [condition, piece]).statements,
        statement.startPiece = 1 ∧ statement.signature? = some signature := by
  intro source signature condition piece spaces
  have pieces : (Document.parse .default source).pieces = #[condition, piece] := by
    decide +kernel
  have formed : signature.WellFormed := by decide +kernel
  have content : source.slice piece.body =
      spaces ++ (signature.written.toUTF8.data.toList ++ spaces) := by decide +kernel
  have blank : ∀ byte ∈ spaces, Byte.isSpace byte = true :=
    List.forall_mem_singleton.mpr (by decide)
  obtain ⟨alone, anywhere⟩ :=
    signature?_of_written .default source formed rfl content blank blank
  obtain ⟨begun, same⟩ := anywhere [condition] []
  obtain ⟨statement, member, starts⟩ := begun (by decide +kernel)
  exact ⟨pieces, formed, content, blank, alone, statement, member, starts,
    same statement member starts⟩

end Tree
end TwigTemplate
