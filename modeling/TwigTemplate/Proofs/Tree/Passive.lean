import TwigTemplate.Proofs.Tag.Keyword
import TwigTemplate.Proofs.Tree.Relocation
import TwigTemplate.Proofs.Tree.Stray

/-!
# Pieces without a part in the structure

Markup, comments, and tags without a keyword, with one that stands alone or with one that is not
known neither open, continue nor end anything, whatever is open around them.  With one more of them
the later pieces do what they did, one index further on.
-/

namespace TwigTemplate

/-- Pieces from an index on have moved one further on. -/
def Relocation.skip (index : Nat) : Relocation where
  start offset := offset
  stop offset := offset
  piece number := if index ≤ number then number + 1 else number
  ending _ endPiece := endPiece.map fun number => if index ≤ number then number + 1 else number

theorem Relocation.keepsOffsets_skip (index : Nat) : (skip index).KeepsOffsets :=
  ⟨fun _ => rfl, fun _ => rfl⟩

theorem Relocation.uniform_skip (index : Nat) : (skip index).Uniform := fun _ _ => rfl

/-! ### Passive pieces -/

/-- Keywords with a meaning of their own. -/
def Tag.ownKeywords : List String :=
  ["if", "elseif", "else", "for", "block", "macro", "set", "import", "from", "extends", "include",
    "use"]

/-- The keyword has a meaning of its own or opens a body, which counts before all else. -/
def Options.isStructural (options : Options) (keyword : String) : Bool :=
  Tag.ownKeywords.contains keyword || options.opensBody keyword

/-- A piece without a part in the structure, and its keyword if that is not known. -/
inductive Piece.Passive (options : Options) (source : Source) (piece : Piece) :
    Option Excerpt → Prop
  /-- Markup. -/
  | text (kind : piece.kind = .text) : Passive options source piece none
  /-- A comment. -/
  | comment (kind : piece.kind = .region .comment) : Passive options source piece none
  /-- A tag without a keyword. -/
  | nameless (kind : piece.kind = .region .tag)
      (bare : (Header.ofBody source piece.body).keyword = none) : Passive options source piece none
  /-- A tag that stands alone. -/
  | alone {keyword : Excerpt} (kind : piece.kind = .region .tag)
      (named : (Header.ofBody source piece.body).keyword = some keyword)
      (idle : options.isStructural keyword.text = false)
      (stands : options.standsAlone keyword.text = true) : Passive options source piece none
  /-- A tag that is not known. -/
  | unknown {keyword : Excerpt} (kind : piece.kind = .region .tag)
      (named : (Header.ofBody source piece.body).keyword = some keyword)
      (idle : options.isStructural keyword.text = false)
      (depends : options.standsAlone keyword.text = false)
      (goes_on : "end".isPrefixOf keyword.text = false) :
      Passive options source piece (some keyword)

namespace Tag

variable {options : Options} {source : Source} {keyword : Excerpt}

theorem ofKeyword_of_not_isStructural (words : List Word)
    (idle : options.isStructural keyword.text = false) :
    ofKeyword options source keyword words =
      if options.standsAlone keyword.text then .inert
      else if "end".isPrefixOf keyword.text then
        .closing (String.ofList (keyword.text.toList.drop 3))
      else .unknown keyword := by
  rw [Options.isStructural, Bool.or_eq_false_iff, List.contains_eq_mem, decide_eq_false_iff_not]
    at idle
  rw [ofKeyword]
  split
  case h_13 => rw [idle.2, if_neg Bool.false_ne_true]
  all_goals exact absurd (by simp [ownKeywords, *]) idle.1

/-- A passive piece means nothing, or what it means is not known. -/
theorem ofPiece_of_passive {piece : Piece} {unknown : Option Excerpt}
    (passive : piece.Passive options source unknown) :
    ofPiece options source piece = unknown.elim .inert .unknown := by
  cases passive with
  | text kind => rw [ofPiece, kind]; rfl
  | comment kind => rw [ofPiece, kind]; rfl
  | nameless kind bare => rw [ofPiece, kind, ofBody, bare]; rfl
  | alone kind named idle stands =>
      rw [ofPiece_of_keyword kind named, ofKeyword_of_not_isStructural _ idle, if_pos stands]
      rfl
  | unknown kind named idle depends goes_on =>
      rw [ofPiece_of_keyword kind named, ofKeyword_of_not_isStructural _ idle, depends, goes_on]
      rfl

end Tag

namespace Tree

open Statement

section Keeps

variable {places : Relocation} (keeps : places.KeepsOffsets)
include keeps

theorem note_behind (before reading : Reading) (piece : Piece) :
    (before.behind places reading).note piece = before.behind places (reading.note piece) := by
  rw [Reading.note, Reading.note]
  cases unclosed? piece with
  | none => rfl
  | some finding =>
      rw [Option.elim_some, Option.elim_some, ← Reading.report_behind, keeps.finding_eq]

/-- A piece with another index does what it does with its old one. -/
theorem step_renumbered (uniform : places.Uniform) (limit : Option Nat) (options : Options)
    (source : Source) (before reading : Reading) (piece : Piece) (index : Nat) :
    step limit options source (before.behind places reading) piece (places.piece index) =
      before.behind places (step limit options source reading piece index) := by
  have moved := Reading.apply_behind uniform before (reading.note piece) limit index piece.span
    (Tag.ofPiece options source piece)
  rw [keeps.tag_eq, keeps.span_eq] at moved
  rw [step_eq_apply, step_eq_apply, note_behind keeps, moved]

end Keeps

section Read

variable (limit : Option Nat) (options : Options) (source : Source)

theorem step_skip (index : Nat) (before reading : Reading) (piece : Piece) (number : Nat) :
    step limit options source (before.behind (.skip index) reading) piece
        ((Relocation.skip index).piece number) =
      before.behind (.skip index) (step limit options source reading piece number) :=
  step_renumbered (Relocation.keepsOffsets_skip index) (Relocation.uniform_skip index) limit options
    source before reading piece number

/-- Pieces before the index do not move. -/
theorem behind_skip_read {index : Nat} {front : List Piece} (early : front.length ≤ index) :
    Reading.start.behind (.skip index) (read limit options source front) =
      read limit options source front := by
  induction front using List.reverseRecOn with
  | nil => simp [Reading.behind, Reading.start]
  | append_singleton front piece ih =>
      rw [List.length_append, List.length_singleton] at early
      have stays : (Relocation.skip index).piece front.length = front.length :=
        if_neg (Nat.not_le.mpr early)
      have stepped := step_skip limit options source index .start
        (read limit options source front) piece front.length
      rw [stays, ih (Nat.le_of_succ_le early)] at stepped
      rw [read_append_singleton, ← stepped]

/-- What is told of a passive piece. -/
def toldOfPassive (piece : Piece) (unknown : Option Excerpt) : List Finding :=
  (unclosed? piece).toList ++ (unknown.map Finding.unknownTag).toList

/-- Nothing has been read, but something has been told. -/
def Reading.told (findings : List Finding) : Reading := ⟨[], [], [], findings.toArray⟩

omit limit options source in
/-- What has been read and does not move, with other findings. -/
theorem Reading.told_behind_quiet {places : Relocation} {reading : Reading}
    (unmoved : start.behind places reading = reading) (findings : List Finding) :
    (told findings).behind places reading.quiet =
      { reading with findings := findings.toArray } := by
  obtain ⟨root, stack, flattened, told_before⟩ := reading
  obtain ⟨root_eq, stack_eq, -⟩ := Reading.mk.inj unmoved
  rw [start, List.append_nil] at root_eq
  simp [told, behind, quiet, root_eq, stack_eq]

variable {options source} {piece : Piece} {unknown : Option Excerpt}
  (passive : piece.Passive options source unknown)
include passive

/-- A passive piece is told of, if at all, and does nothing else. -/
theorem step_passive (reading : Reading) (index : Nat) :
    step limit options source reading piece index =
      { reading with
        findings := reading.findings ++ (toldOfPassive piece unknown).toArray } := by
  rw [step_eq_apply, Tag.ofPiece_of_passive passive, Reading.note, toldOfPassive]
  cases unclosed? piece <;> cases unknown <;> simp [Reading.apply, Reading.report]
  rfl

/-- With a passive piece among the others, all others do what they did. -/
theorem exists_read_passive (before after : List Piece) :
    let places := Relocation.skip before.length
    let earlier := (read limit options source before).findings.toList
    ∃ rest : Reading,
      Reading.start.behind places (read limit options source (before ++ after)) =
        (Reading.told earlier).behind places rest ∧
      read limit options source (before ++ piece :: after) =
        (Reading.told (earlier ++ toldOfPassive piece unknown)).behind places rest := by
  intro places earlier
  induction after using List.reverseRecOn with
  | nil =>
      have unmoved := behind_skip_read limit options source (Nat.le_refl before.length)
      refine ⟨(read limit options source before).quiet, ?_, ?_⟩
      · rw [Reading.told_behind_quiet unmoved, List.append_nil, unmoved]
      · rw [Reading.told_behind_quiet unmoved, read_append_singleton, step_passive limit passive]
        simp [earlier]
  | append_singleton after next ih =>
      obtain ⟨rest, shorter, longer⟩ := ih
      have moves : places.piece (before ++ after).length = (before ++ piece :: after).length := by
        rw [List.length_append, List.length_append, List.length_cons]
        exact if_pos (Nat.le_add_right _ _)
      refine ⟨step limit options source rest next (before ++ after).length, ?_, ?_⟩
      · rw [← List.append_assoc, read_append_singleton, ← step_skip, shorter, step_skip]
      · rw [List.append_cons, ← List.append_assoc, ← List.append_cons, read_append_singleton,
          longer, ← moves, step_skip]

/-- With a passive piece among the others, all else is as it was, and what is told of the piece
stands between what is told of those before it and what is told afterwards. -/
theorem build_insert_passive (before after : List Piece) :
    let tree := build limit options source (before ++ after)
    let longer := build limit options source (before ++ piece :: after)
    longer.statements = tree.statements.map (·.relocate (.skip before.length)) ∧
      ∃ earlier later, tree.findings = earlier ++ later ∧
        longer.findings = earlier ++ toldOfPassive piece unknown ++ later := by
  intro tree longer
  have uniform := Relocation.uniform_skip before.length
  have keeps := Relocation.keepsOffsets_skip before.length
  have same (findings : List Finding) :
      findings.map (·.relocate (.skip before.length)) = findings :=
    List.map_id'' keeps.finding_eq findings
  obtain ⟨rest, shorter_read, longer_read⟩ := exists_read_passive limit passive before after
  have shorter_finish := congrArg Reading.finish shorter_read
  have longer_finish := congrArg Reading.finish longer_read
  rw [Reading.finish_behind uniform, Reading.finish_behind uniform, ← build_eq_finish, same, same]
    at shorter_finish
  rw [Reading.finish_behind uniform, ← build_eq_finish, same] at longer_finish
  obtain ⟨statements, findings⟩ := Tree.mk.inj shorter_finish
  refine ⟨?_, _, rest.finish.findings, findings, ?_⟩
  · exact (congrArg Tree.statements longer_finish).trans statements.symm
  · exact congrArg Tree.findings longer_finish

end Read

theorem kinds_toldOfPassive (piece : Piece) (unknown : Option Excerpt) :
    (toldOfPassive piece unknown).map (·.diagnostic.kind) =
      (if piece.kind ≠ .text ∧ piece.closed = false then [.unclosedDelimiter] else []) ++
        (unknown.map fun _ => .unknownTag).toList := by
  obtain ⟨kind, span, body, closed⟩ := piece
  rw [toldOfPassive, List.map_append]
  congr 1
  · cases kind <;> cases closed <;> rfl
  · cases unknown <;> rfl

/-- Pieces without a part in the structure are inert: with one more of them anywhere among the
others, all statements are as they were, except that later pieces have indices one further on, and
so is what is told, except that one diagnostic is on the piece if its closing delimiter is missing,
and one more if its keyword is not known. -/
theorem ofPieces_insert_passive {options : Options} {source : Source} {piece : Piece}
    {unknown : Option Excerpt} (passive : piece.Passive options source unknown)
    (before after : List Piece) :
    let tree := ofPieces options source (before ++ after)
    let longer := ofPieces options source (before ++ piece :: after)
    let told := (toldOfPassive piece unknown).map Finding.diagnostic
    longer.statements = tree.statements.map (·.relocate (.skip before.length)) ∧
      (∃ earlier later, tree.diagnostics = earlier ++ later ∧
        longer.diagnostics = earlier ++ told ++ later) ∧
      told.map (·.kind) =
        (if piece.kind ≠ .text ∧ piece.closed = false then [.unclosedDelimiter] else []) ++
          (unknown.map fun _ => .unknownTag).toList := by
  intro tree longer told
  obtain ⟨statements, earlier, later, findings, findings_longer⟩ :=
    build_insert_passive (some nestingLimit) passive before after
  refine ⟨statements, ⟨earlier.map (·.diagnostic), later.map (·.diagnostic), ?_, ?_⟩, ?_⟩
  · exact (congrArg (List.map Finding.diagnostic) findings).trans List.map_append
  · refine (congrArg (List.map Finding.diagnostic) findings_longer).trans ?_
    rw [List.map_append, List.map_append]
  · exact List.map_map.trans (kinds_toldOfPassive piece unknown)

/-- An unknown tag that is never closed, inside a condition. -/
theorem ofPieces_insert_passive_in_condition :
    let source := Source.ofString "\x7b% if a %\x7d\x7b% foo\x7b\x7b b \x7d\x7d\x7b% endif %\x7d"
    let condition : Piece := ⟨.region .tag, ⟨0, 10⟩, ⟨2, 8⟩, true⟩
    let piece : Piece := ⟨.region .tag, ⟨10, 16⟩, ⟨12, 16⟩, false⟩
    let output : Piece := ⟨.region .expression, ⟨16, 23⟩, ⟨18, 21⟩, true⟩
    let ending : Piece := ⟨.region .tag, ⟨23, 34⟩, ⟨25, 32⟩, true⟩
    let longer := ofPieces .default source [condition, piece, output, ending]
    piece.Passive .default source (some ⟨"foo", ⟨13, 16⟩⟩) ∧
      longer.statements.map Statement.endPiece? = [some 3] ∧
      longer.diagnostics.map (·.kind) = [.unclosedDelimiter, .unknownTag] := by
  intro source condition piece output ending longer
  have named : (Header.ofBody source piece.body).keyword = some ⟨"foo", ⟨13, 16⟩⟩ := by
    decide +kernel
  have passive : piece.Passive .default source (some ⟨"foo", ⟨13, 16⟩⟩) :=
    .unknown rfl named (by decide) (by decide) (by decide +kernel)
  obtain ⟨statements, ⟨earlier, later, told, told_longer⟩, kinds⟩ :=
    ofPieces_insert_passive passive [condition] [output, ending]
  have silent : (ofPieces .default source ([condition] ++ [output, ending])).diagnostics = [] := by
    decide +kernel
  obtain ⟨rfl, rfl⟩ := List.append_eq_nil_iff.mp (told.symm.trans silent)
  refine ⟨passive, ?_, ?_⟩
  · rw [show longer.statements = _ from statements, List.map_map]
    decide +kernel
  · rw [show longer.diagnostics = _ from told_longer, List.append_nil, List.nil_append, kinds]
    rfl

end Tree
end TwigTemplate
