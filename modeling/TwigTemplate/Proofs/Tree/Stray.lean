import TwigTemplate.Proofs.Tree.Act

/-!
# No piece is passed over in silence

Unless constructs are nested too deeply, a piece with a part in the structure is mentioned in the
tree or told of by a finding of its own, and never both.
-/

namespace TwigTemplate

namespace Finding

/-- The finding is on a piece that has no place in the structure. -/
def isStray : Finding → Bool
  | unexpectedEndTag .. => true
  | unexpectedBranch .. => true
  | unknownTag _ => true
  | _ => false

end Finding

namespace Tag

/-- What is told of a piece in `span` that has no place in the structure. -/
def stray? (span : Span) : Tag → Option Finding
  | branch kind => some (.unexpectedBranch kind.keyword span)
  | closing keyword => some (.unexpectedEndTag keyword span)
  | unknown keyword => some (.unknownTag keyword)
  | _ => none

end Tag

namespace Tree

open Statement

namespace Reading

/-- The findings on pieces without a place so far. -/
def strays (reading : Reading) : List Finding := reading.findings.toList.filter Finding.isStray

theorem strays_of_findings_eq {reading after : Reading} {told : List Finding}
    (added : after.findings = reading.findings ++ told.toArray) :
    after.strays = reading.strays ++ told.filter Finding.isStray := by
  simp [strays, added]

theorem strays_report (reading : Reading) {finding : Finding} (stray : finding.isStray = true) :
    (reading.report finding).strays = reading.strays ++ [finding] := by
  have added : (reading.report finding).findings = reading.findings ++ [finding].toArray := rfl
  rw [strays_of_findings_eq added, List.filter_cons_of_pos stray, List.filter_nil]

/-- The piece is mentioned, or it is told of if it has a part in the structure. -/
inductive Accounts (index : Nat) (span : Span) (tag : Tag) (reading after : Reading) : Prop
  /-- It is mentioned. -/
  | mentioned (mentions : after.mentions = reading.mentions ++ [⟨index, tag = .single .output⟩])
      (strays : after.strays = reading.strays)
  /-- It is told of. -/
  | told {finding : Finding} (mentions : after.mentions = reading.mentions)
      (strays : after.strays = reading.strays ++ [finding])
      (stray : tag.stray? span = some finding)
  /-- It has no part in the structure. -/
  | inert (mentions : after.mentions = reading.mentions) (strays : after.strays = reading.strays)
      (inert : tag = .inert)

theorem strays_toldOnEnding (keyword : String) (span : Span) (frames : List Frame) :
    (toldOnEnding keyword span frames).filter Finding.isStray = [] := by
  cases frames with
  | nil => rfl
  | cons innermost others =>
      rw [toldOnEnding, List.filter_cons_of_neg (by simp [Finding.isStray]),
        List.filter_eq_nil_iff]
      intro finding member
      obtain ⟨frame, _, rfl⟩ := List.mem_map.mp member
      simp [Frame.unclosed, Finding.isStray]

theorem mentions_ended {reading : Reading} {inner outer : List Frame} {frame : Frame}
    (stacked : reading.stack = inner ++ frame :: outer) (flattened : List String)
    (findings : Array Finding) (piece : Nat) :
    (({ reading with stack := outer, flattened, findings } : Reading).push
      ((frame.pushAll (nest inner [])).finish (some piece))).mentions =
        reading.mentions ++ [.mark piece] := by
  rw [mentions_push, Frame.mentions_finish, Frame.mentions_pushAll, mentionsOf_nest]
  simp [mentions, stacked]

/-- A piece that does not open a construct too deep inside others is accounted for. -/
theorem Acts.accounts {limit : Option Nat} {reading after : Reading} {index : Nat} {span : Span}
    {tag : Tag} (acts : Acts limit reading index span tag after) (kept : reading.flattened = [])
    (kept_after : after.flattened = []) : Accounts index span tag reading after := by
  cases acts with
  | opened =>
      refine .mentioned ?_ rfl
      simp [mentions, Frame.mentions, Frame.finish, Statement.mentions, Mention.mark]
  | forgotten => cases kept_after
  | tooDeep => cases kept_after
  | branched _ stacked =>
      refine .mentioned ?_ rfl
      simp [mentions, stacked, Frame.mentions_openBranch, Mention.mark]
  | ignored inner => exact absurd kept inner
  | strayBranch => exact .told rfl (strays_report reading rfl) rfl
  | recalled member => simp [kept] at member
  | ended _ stacked =>
      refine .mentioned (mentions_ended stacked _ _ index) ?_
      rw [strays_of_findings_eq (findings_push _ _), strays_toldOnEnding, List.append_nil]
  | strayEnd => exact .told rfl (strays_report reading rfl) rfl
  | single =>
      refine .mentioned ?_ (congrArg (·.toList.filter Finding.isStray) (findings_push _ _))
      rw [mentions_push]
      simp [Statement.mentions]
  | inert => exact .inert rfl rfl rfl
  | unknown => exact .told rfl (strays_report reading rfl) rfl

/-! ### Shallow templates -/

/-- Nothing has been told of deep nesting. -/
def Shallow (reading : Reading) : Prop :=
  ∀ finding ∈ reading.findings.toList, finding.deepSpan? = none

theorem Shallow.of_added {reading after : Reading} {told : List Finding} (shallow : after.Shallow)
    (added : after.findings = reading.findings ++ told.toArray) : reading.Shallow := by
  intro finding member
  apply shallow
  rw [added]
  simp [member]

/-- Nothing is forgotten before deep nesting is told of. -/
theorem Acts.flattened_eq_nil {limit : Option Nat} {reading after : Reading} {index : Nat}
    {span : Span} {tag : Tag} (acts : Acts limit reading index span tag after)
    (kept : reading.flattened = []) (shallow : after.Shallow) : after.flattened = [] := by
  cases acts with
  | forgotten _ _ inner => exact absurd kept inner
  | tooDeep =>
      have told := shallow (.nestingTooDeep _ _ _) (by simp [report]; exact .inr ⟨rfl, rfl, rfl⟩)
      cases told
  | recalled member => simp [kept] at member
  | ended => exact flattened_push _ _
  | single => exact (flattened_push _ _).trans kept
  | _ => exact kept

end Reading

section Read

variable (limit : Option Nat) (options : Options) (source : Source)

theorem findings_note (reading : Reading) (piece : Piece) :
    (reading.note piece).findings = reading.findings ++ (unclosed? piece).toList.toArray := by
  rw [Reading.note]
  cases unclosed? piece with
  | none => simp
  | some finding => simp [Reading.report]

theorem strays_note (reading : Reading) (piece : Piece) :
    (reading.note piece).strays = reading.strays := by
  have other : (unclosed? piece).toList.filter Finding.isStray = [] := by
    rw [unclosed?]
    cases piece.kind <;> cases piece.closed <;> rfl
  rw [Reading.strays_of_findings_eq (findings_note reading piece), other, List.append_nil]

/-- What reading one more piece does. -/
theorem acts_read (pieces : List Piece) (piece : Piece) :
    Reading.Acts limit ((read limit options source pieces).note piece) pieces.length piece.span
      (Tag.ofPiece options source piece) (read limit options source (pieces ++ [piece])) := by
  rw [read_append_singleton, step_eq_apply]
  exact Reading.acts_apply _ _ _ _ _

/-- Further pieces take no finding back. -/
theorem exists_findings_read_append (pieces further : List Piece) :
    ∃ told : List Finding, (read limit options source (pieces ++ further)).findings =
      (read limit options source pieces).findings ++ told.toArray := by
  induction further using List.reverseRecOn with
  | nil => exact ⟨[], by simp⟩
  | append_singleton further piece ih =>
      obtain ⟨earlier, told_earlier⟩ := ih
      obtain ⟨told, added⟩ :=
        (acts_read limit options source (pieces ++ further) piece).exists_told
      refine ⟨earlier ++ ((unclosed? piece).toList ++ told), ?_⟩
      rw [← List.append_assoc, added, findings_note, told_earlier]
      simp only [List.append_toArray, Array.append_assoc, List.append_assoc]

theorem shallow_read_of_append {pieces further : List Piece}
    (shallow : (read limit options source (pieces ++ further)).Shallow) :
    (read limit options source pieces).Shallow := by
  obtain ⟨told, added⟩ := exists_findings_read_append limit options source pieces further
  exact shallow.of_added added

/-- In a shallow template all open constructs are kept. -/
theorem flattened_read {pieces : List Piece}
    (shallow : (read limit options source pieces).Shallow) :
    (read limit options source pieces).flattened = [] := by
  induction pieces using List.reverseRecOn with
  | nil => rfl
  | append_singleton pieces piece ih =>
      have kept := ih (shallow_read_of_append limit options source shallow)
      exact (acts_read limit options source pieces piece).flattened_eq_nil
        ((flattened_note _ piece).trans kept) shallow

/-- Each piece of a shallow template is accounted for when it is read. -/
theorem accounts_read {pieces : List Piece} {piece : Piece}
    (shallow : (read limit options source (pieces ++ [piece])).Shallow) :
    Reading.Accounts pieces.length piece.span (Tag.ofPiece options source piece)
      (read limit options source pieces) (read limit options source (pieces ++ [piece])) := by
  have kept := flattened_read limit options source
    (shallow_read_of_append limit options source shallow)
  have accounts := (acts_read limit options source pieces piece).accounts
    ((flattened_note _ piece).trans kept) (flattened_read limit options source shallow)
  have mentions_eq := Reading.mentions_of_quiet_eq
    ((read limit options source pieces).quiet_note piece)
  have strays_eq := strays_note (read limit options source pieces) piece
  rcases accounts with ⟨mentions, strays⟩ | ⟨mentions, strays, stray⟩ | ⟨mentions, strays, inert⟩
  · exact .mentioned (mentions_eq ▸ mentions) (strays_eq ▸ strays)
  · exact .told (mentions_eq ▸ mentions) (strays_eq ▸ strays) stray
  · exact .inert (mentions_eq ▸ mentions) (strays_eq ▸ strays) inert

/-- What is told of a piece without a place, unless its index is mentioned. -/
def strayFinding? (mentioned : List Nat) : Piece × Nat → Option Finding
  | (piece, index) =>
    if index ∈ mentioned then none else (Tag.ofPiece options source piece).stray? piece.span

/-- All that is told of pieces without a place, of those that are not mentioned. -/
def strayFindings (pieces : List Piece) (mentioned : List Nat) : List Finding :=
  pieces.zipIdx.filterMap (strayFinding? options source mentioned)

theorem strayFindings_append_singleton (pieces : List Piece) (piece : Piece)
    (mentioned : List Nat) :
    strayFindings options source (pieces ++ [piece]) mentioned =
      strayFindings options source pieces mentioned ++
        (strayFinding? options source mentioned (piece, pieces.length)).toList := by
  rw [strayFindings, List.zipIdx_append, List.filterMap_append, ← strayFindings, Nat.zero_add]
  cases stray : strayFinding? options source mentioned (piece, pieces.length) <;> simp [stray]

/-- Only the pieces at hand matter. -/
theorem strayFindings_congr {pieces : List Piece} {left right : List Nat}
    (same : ∀ index < pieces.length, index ∈ left ↔ index ∈ right) :
    strayFindings options source pieces left = strayFindings options source pieces right := by
  apply List.filterMap_congr
  intro (piece, index) member
  simp only [strayFinding?, same index (List.snd_lt_of_mem_zipIdx member)]

/-- What is told of pieces without a place is told of those that are not mentioned, in order. -/
theorem strays_read {pieces : List Piece} (shallow : (read limit options source pieces).Shallow) :
    (read limit options source pieces).strays =
      strayFindings options source pieces
        ((read limit options source pieces).mentions.map (·.piece)) := by
  induction pieces using List.reverseRecOn with
  | nil => rfl
  | append_singleton pieces piece ih =>
      have earlier := ih (shallow_read_of_append limit options source shallow)
      have fresh : pieces.length ∉ (read limit options source pieces).mentions.map (·.piece) := by
        intro member
        obtain ⟨mention, mentioned, same⟩ := List.mem_map.mp member
        exact absurd ((lists_read limit options source pieces).lt_length mentioned) (by omega)
      rw [strayFindings_append_singleton]
      rcases accounts_read limit options source shallow with
        ⟨mentions, strays⟩ | ⟨mentions, strays, stray⟩ | ⟨mentions, strays, inert⟩
      · rw [strays, earlier, mentions, List.map_append, strayFinding?, if_pos (by simp),
          Option.toList_none, List.append_nil]
        apply strayFindings_congr
        intro index inside
        simp [Nat.ne_of_lt inside]
      · rw [strays, earlier, mentions, strayFinding?, if_neg fresh, stray]
        rfl
      · rw [strays, earlier, mentions, strayFinding?, if_neg fresh, inert]
        simp [Tag.stray?]

omit limit options source in
/-- The pieces before and after the one with an index. -/
theorem exists_around {pieces : List Piece} {index : Nat} {piece : Piece}
    (found : pieces[index]? = some piece) :
    ∃ before after, pieces = before ++ piece :: after ∧ before.length = index := by
  obtain ⟨inside, rfl⟩ := List.getElem?_eq_some_iff.mp found
  have width := List.length_take_of_le (Nat.le_of_lt inside)
  refine ⟨pieces.take index, pieces.drop (index + 1), ?_, width⟩
  rw [List.getElem_cons_drop, List.take_append_drop]

/-- A piece that is not mentioned is told of or has no part in the structure. -/
theorem inert_or_stray_read {before after : List Piece} {piece : Piece}
    (shallow : (read limit options source (before ++ piece :: after)).Shallow)
    (passed : before.length ∉
      (read limit options source (before ++ piece :: after)).mentions.map (·.piece)) :
    Tag.ofPiece options source piece = .inert ∨
      ∃ finding, (Tag.ofPiece options source piece).stray? piece.span = some finding := by
  rw [List.append_cons] at shallow passed
  have shallow_here := shallow_read_of_append limit options source shallow
  obtain ⟨later, same, -⟩ :=
    exists_mentions_read_append limit options source (before ++ [piece]) after
  rcases accounts_read limit options source shallow_here with
    ⟨mentions, -⟩ | ⟨-, -, stray⟩ | ⟨-, -, inert⟩
  · rw [same, mentions] at passed
    simp at passed
  · exact .inr ⟨_, stray⟩
  · exact .inl inert

end Read

/-! ### Trees -/

/-- Nothing is told of deep nesting. -/
def Shallow (tree : Tree) : Prop :=
  ∀ diagnostic ∈ tree.diagnostics, diagnostic.kind ≠ .nestingTooDeep

instance (tree : Tree) : Decidable tree.Shallow := inferInstanceAs (Decidable (∀ _ ∈ _, _))

theorem shallow_read_of_build {limit : Option Nat} {options : Options} {source : Source}
    {pieces : List Piece} (shallow : (build limit options source pieces).Shallow) :
    (read limit options source pieces).Shallow := by
  intro finding member
  have told : finding ∈ (build limit options source pieces).findings := by
    rw [build_eq_finish, Reading.findings_finish]
    exact List.mem_append_left _ member
  have kind := shallow finding.diagnostic (List.mem_map_of_mem told)
  cases finding with
  | nestingTooDeep => exact absurd rfl kind
  | _ => rfl

/-- The findings on pieces without a place are those on pieces that the tree does not mention. -/
theorem strays_build {limit : Option Nat} {options : Options} {source : Source}
    {pieces : List Piece} (shallow : (build limit options source pieces).Shallow) :
    (build limit options source pieces).findings.filter Finding.isStray =
      strayFindings options source pieces
        (piecesOf (build limit options source pieces).statements) := by
  have cutOff : ∀ frames : List Frame,
      (frames.map (·.unclosed true)).filter Finding.isStray = [] := by
    intro frames
    rw [List.filter_eq_nil_iff]
    intro finding member
    obtain ⟨frame, -, rfl⟩ := List.mem_map.mp member
    exact Bool.false_ne_true
  rw [build_eq_finish, Reading.findings_finish, List.filter_append, cutOff, List.append_nil,
    ← build_eq_finish, piecesOf, mentionsOf_build]
  exact strays_read limit options source (shallow_read_of_build shallow)

end Tree
end TwigTemplate
