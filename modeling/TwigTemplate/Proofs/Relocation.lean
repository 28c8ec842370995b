import TwigTemplate.Document

/-!
# Relocations

A relocation moves what is known of one template to another one: offsets, numbers of pieces, and
what ends a construct.  Texts, kinds and keywords stay as they are.
-/

namespace TwigTemplate

/-- Where the things of one template are in another. -/
structure Relocation where
  /-- Where a span starts that starts at an offset. -/
  start : Nat → Nat
  /-- Where a span stops that stops at an offset. -/
  stop : Nat → Nat
  /-- Number of a piece. -/
  piece : Nat → Nat
  /-- What ends the construct that a piece opens, if that piece, or nothing, ended it. -/
  ending : (opener : Nat) → (endPiece : Option Nat) → Option Nat

namespace Relocation

/-- Everything is further on by so many pieces and by so many bytes. -/
def shift (count offset : Nat) : Relocation where
  start := (offset + ·)
  stop := (offset + ·)
  piece := (count + ·)
  ending _ endPiece := endPiece.map (count + ·)

/-- One byte is put in at the offset. -/
def insert (offset : Nat) : Relocation where
  start place := if offset ≤ place then place + 1 else place
  stop place := if offset < place then place + 1 else place
  piece := id
  ending _ endPiece := endPiece

section Insert

variable {offset place : Nat}

theorem insert_start_of_lt (before : place < offset) : (insert offset).start place = place :=
  if_neg (Nat.not_le.mpr before)

theorem insert_start_of_le (behind : offset ≤ place) : (insert offset).start place = place + 1 :=
  if_pos behind

theorem insert_stop_of_le (before : place ≤ offset) : (insert offset).stop place = place :=
  if_neg (Nat.not_lt.mpr before)

theorem insert_stop_of_lt (behind : offset < place) : (insert offset).stop place = place + 1 :=
  if_pos behind

end Insert

/-- The place of a span. -/
def span (places : Relocation) (place : Span) : Span :=
  ⟨places.start place.start, places.stop place.stop⟩

/-- No offset changes. -/
structure KeepsOffsets (places : Relocation) : Prop where
  /-- Spans start where they started. -/
  start : ∀ offset, places.start offset = offset
  /-- Spans stop where they stopped. -/
  stop : ∀ offset, places.stop offset = offset

end Relocation

variable (places : Relocation)

/-! ### Texts and words -/

/-- The same text at its new place. -/
def Excerpt.relocate (excerpt : Excerpt) : Excerpt :=
  { excerpt with span := places.span excerpt.span }

/-- The same word at its new place. -/
def Word.relocate (word : Word) : Word := { word with span := places.span word.span }

/-- The same macro at its new place. -/
def ImportedName.relocate (imported : ImportedName) : ImportedName :=
  ⟨imported.name.relocate places, imported.renamed.map (·.relocate places)⟩

/-- The same parameter at its new place. -/
def Parameter.relocate (parameter : Parameter) : Parameter :=
  ⟨parameter.name.relocate places, parameter.default.map (·.relocate places)⟩

/-! ### What pieces mean -/

/-- The same leaf with the new places of its texts. -/
def Leaf.relocate : Leaf → Leaf
  | output => output
  | parent template => parent (template.map (·.relocate places))
  | inclusion template => inclusion (template.map (·.relocate places))
  | reuse template => reuse (template.map (·.relocate places))
  | library template name =>
    library (template.map (·.relocate places)) (name.map (·.relocate places))
  | selection template names =>
    selection (template.map (·.relocate places)) (names.map (·.relocate places))
  | blockValue name value => blockValue (name.map (·.relocate places)) (value.relocate places)
  | assignment targets value =>
    assignment (targets.map (·.relocate places)) (value.map (·.relocate places))

/-- The same construct with the new places of its texts. -/
def Construct.relocate : Construct → Construct
  | conditional condition => conditional (condition.map (·.relocate places))
  | loop names iterable condition =>
    loop (names.map (·.relocate places)) (iterable.map (·.relocate places))
      (condition.map (·.relocate places))
  | block name => block (name.map (·.relocate places))
  | definition name parameters =>
    definition (name.map (·.relocate places)) (parameters.map (·.relocate places))
  | capture targets => capture (targets.map (·.relocate places))
  | simple keyword arguments => simple keyword (arguments.map (·.relocate places))

/-- The same kind of branch with the new place of its condition. -/
def BranchKind.relocate : BranchKind → BranchKind
  | elseIf condition => elseIf (condition.map (·.relocate places))
  | otherwise => otherwise

/-- The same meaning with the new places of its texts. -/
def Tag.relocate : Tag → Tag
  | opening header => opening (header.relocate places)
  | branch kind => branch (kind.relocate places)
  | closing keyword => closing keyword
  | single leaf => single (leaf.relocate places)
  | inert => inert
  | unknown keyword => unknown (keyword.relocate places)

@[simp]
theorem Construct.keyword_relocate (header : Construct) :
    (header.relocate places).keyword = header.keyword := by
  cases header <;> rfl

@[simp]
theorem BranchKind.keyword_relocate (kind : BranchKind) :
    (kind.relocate places).keyword = kind.keyword := by
  cases kind <;> rfl

@[simp]
theorem BranchKind.isOtherwise_relocate (kind : BranchKind) :
    (kind.relocate places).isOtherwise = kind.isOtherwise := by
  cases kind <;> rfl

@[simp]
theorem Construct.accepts_relocate (header : Construct) (kind : BranchKind) :
    (header.relocate places).accepts (kind.relocate places) = header.accepts kind := by
  cases header <;> cases kind <;> rfl

/-! ### Pieces and what is told -/

/-- The same piece at its new place. -/
def Piece.relocate (piece : Piece) : Piece :=
  { piece with span := places.span piece.span, body := places.span piece.body }

/-- The same finding with the new places of what it tells of. -/
def Finding.relocate : Finding → Finding
  | unclosedDelimiter delimiter span => unclosedDelimiter delimiter (places.span span)
  | unclosedBlock keyword span atEnd => unclosedBlock keyword (places.span span) atEnd
  | unexpectedEndTag keyword span => unexpectedEndTag keyword (places.span span)
  | mismatchedEndTag keyword span inner opened =>
    mismatchedEndTag keyword (places.span span) inner (places.span opened)
  | unexpectedBranch keyword span => unexpectedBranch keyword (places.span span)
  | unknownTag keyword => unknownTag (keyword.relocate places)
  | nestingTooDeep keyword limit span => nestingTooDeep keyword limit (places.span span)

/-- The same diagnostic at its new places. -/
def Diagnostic.relocate (diagnostic : Diagnostic) : Diagnostic :=
  { diagnostic with
    span := places.span diagnostic.span
    relatedSpan := diagnostic.relatedSpan.map places.span }

/-- The wording does not depend on places. -/
theorem Finding.diagnostic_relocate (finding : Finding) :
    (finding.relocate places).diagnostic = finding.diagnostic.relocate places := by
  cases finding <;> rfl

/-! ### Statements -/

namespace Statement

mutual

/-- The same statement with its new pieces and places. -/
def relocate (places : Relocation) : Statement → Statement
  | .leaf piece content => .leaf (places.piece piece) (content.relocate places)
  | .construct piece header body branches endPiece =>
    .construct (places.piece piece) (header.relocate places) (relocateAll places body)
      (relocateBranches places branches) (places.ending piece endPiece)

/-- The same statements with their new pieces and places. -/
def relocateAll (places : Relocation) : List Statement → List Statement
  | [] => []
  | statement :: statements => relocate places statement :: relocateAll places statements

/-- The same branches with their new pieces and places. -/
def relocateBranches (places : Relocation) : List (Branch Statement) → List (Branch Statement)
  | [] => []
  | ⟨kind, piece, body⟩ :: branches =>
    ⟨kind.relocate places, places.piece piece, relocateAll places body⟩ ::
      relocateBranches places branches

end

theorem relocateAll_eq_map (statements : List Statement) :
    relocateAll places statements = statements.map (relocate places) := by
  induction statements with
  | nil => rfl
  | cons statement statements ih => rw [List.map_cons, ← ih]; rfl

theorem relocateBranches_eq_map (branches : List (Branch Statement)) :
    relocateBranches places branches = branches.map fun branch =>
      ⟨branch.kind.relocate places, places.piece branch.piece,
        branch.body.map (relocate places)⟩ := by
  induction branches with
  | nil => rfl
  | cons branch branches ih =>
      rw [List.map_cons, ← ih, ← relocateAll_eq_map]
      rfl

end Statement

/-! ### Relocations that keep offsets -/

section KeepsOffsets

variable {places : Relocation} (keeps : places.KeepsOffsets)
include keeps

namespace Relocation.KeepsOffsets

theorem span_eq (place : Span) : places.span place = place := by
  rw [Relocation.span, keeps.start, keeps.stop]

theorem excerpt_eq (excerpt : Excerpt) : excerpt.relocate places = excerpt := by
  rw [Excerpt.relocate, keeps.span_eq]

theorem word_eq (word : Word) : word.relocate places = word := by
  rw [Word.relocate, keeps.span_eq]

theorem map_excerpt_eq (excerpt : Option Excerpt) :
    excerpt.map (·.relocate places) = excerpt := by
  cases excerpt <;> simp [keeps.excerpt_eq]

theorem imported_eq (imported : ImportedName) : imported.relocate places = imported := by
  rw [ImportedName.relocate, keeps.excerpt_eq, keeps.map_excerpt_eq]

theorem parameter_eq (parameter : Parameter) : parameter.relocate places = parameter := by
  rw [Parameter.relocate, keeps.excerpt_eq, keeps.map_excerpt_eq]

theorem leaf_eq (leaf : Leaf) : leaf.relocate places = leaf := by
  cases leaf <;>
    simp [Leaf.relocate, keeps.excerpt_eq, keeps.imported_eq]

theorem construct_eq (header : Construct) : header.relocate places = header := by
  cases header <;>
    simp [Construct.relocate, keeps.excerpt_eq, keeps.parameter_eq]

theorem branchKind_eq (kind : BranchKind) : kind.relocate places = kind := by
  cases kind <;> simp [BranchKind.relocate, keeps.map_excerpt_eq]

theorem tag_eq (tag : Tag) : tag.relocate places = tag := by
  cases tag <;>
    simp [Tag.relocate, keeps.excerpt_eq, keeps.leaf_eq, keeps.construct_eq, keeps.branchKind_eq]

theorem finding_eq (finding : Finding) : finding.relocate places = finding := by
  cases finding <;> simp [Finding.relocate, keeps.span_eq, keeps.excerpt_eq]

end Relocation.KeepsOffsets

end KeepsOffsets

/-- Moving things no further leaves offsets as they are. -/
theorem Relocation.keepsOffsets_shift_zero : (shift 0 0).KeepsOffsets :=
  ⟨Nat.zero_add, Nat.zero_add⟩

end TwigTemplate
