import TwigTemplate.Proofs.Tree.Unclosed

/-!
# Where diagnostics are

A diagnostic is at a tag, at the opening delimiter of a region that is not closed, or at a keyword
without a meaning.  Open constructs remember where their tags are, so this is also true of what is
told of them later.
-/

namespace TwigTemplate

namespace Finding

/-- The places that the diagnostic on the finding shows. -/
def spans (finding : Finding) : List Span :=
  finding.diagnostic.span :: finding.diagnostic.relatedSpan.toList

end Finding

namespace Tree

/-- A diagnostic on a piece may be at this place. -/
inductive Spot (options : Options) (source : Source) (piece : Piece) : Span → Prop
  /-- At a tag as a whole. -/
  | tag (kind : piece.kind = .region .tag) : Spot options source piece piece.span
  /-- At the opening delimiter of a region that is not closed. -/
  | delimiter (unclosed : isUnclosed piece = true) :
      Spot options source piece (delimiterSpan piece)
  /-- At the keyword of a tag that has no meaning. -/
  | keyword {keyword : Excerpt} (unknown : Tag.ofPiece options source piece = .unknown keyword) :
      Spot options source piece keyword.span

namespace Reading

/-- All open constructs and all that has been told so far are at such places. -/
structure PlacedAt (place : Span → Prop) (reading : Reading) : Prop where
  /-- Open constructs are. -/
  frames : ∀ frame ∈ reading.stack, place frame.span
  /-- Findings are. -/
  findings : ∀ finding ∈ reading.findings.toList, ∀ span ∈ finding.spans, place span

variable {place : Span → Prop} {reading after : Reading}

theorem PlacedAt.congr (placed : reading.PlacedAt place) (told : List Finding)
    (spans : after.stack.map Frame.span = reading.stack.map Frame.span)
    (findings : after.findings.toList = reading.findings.toList ++ told)
    (told_placed : ∀ finding ∈ told, ∀ span ∈ finding.spans, place span) :
    after.PlacedAt place := by
  constructor
  · have places := List.forall_mem_map.mpr placed.frames
    rw [← spans] at places
    exact List.forall_mem_map.mp places
  · rw [findings]
    exact List.forall_mem_append.mpr ⟨placed.findings, told_placed⟩

theorem PlacedAt.report (placed : reading.PlacedAt place) {finding : Finding}
    (told : ∀ span ∈ finding.spans, place span) : (reading.report finding).PlacedAt place :=
  placed.congr [finding] rfl (Array.toList_push ..) (List.forall_mem_singleton.mpr told)

theorem map_span_push (reading : Reading) (statement : Statement) :
    (reading.push statement).stack.map Frame.span = reading.stack.map Frame.span := by
  rw [← map_snd_places, ← map_snd_places, places_push]

theorem placed_unclosed {frames : List Frame} (placed : ∀ frame ∈ frames, place frame.span)
    (atEnd : Bool) :
    ∀ finding ∈ frames.map (·.unclosed atEnd), ∀ span ∈ finding.spans, place span := by
  intro finding member span among
  obtain ⟨frame, listed, rfl⟩ := List.mem_map.mp member
  obtain rfl := List.mem_singleton.mp among
  exact placed frame listed

theorem placed_toldOnEnding {frames : List Frame} (placed : ∀ frame ∈ frames, place frame.span)
    {span : Span} (here : place span) (keyword : String) :
    ∀ finding ∈ toldOnEnding keyword span frames, ∀ span ∈ finding.spans, place span := by
  cases frames with
  | nil => exact nofun
  | cons innermost others =>
      refine List.forall_mem_cons.mpr ⟨?_, placed_unclosed placed false⟩
      exact List.forall_mem_cons.mpr
        ⟨here, List.forall_mem_singleton.mpr (placed innermost List.mem_cons_self)⟩

/-- What is told of a piece is told at the piece, at the keyword, or at open constructs. -/
theorem Acts.placed {limit : Option Nat} {index : Nat} {span : Span} {tag : Tag}
    (acts : Acts limit reading index span tag after)
    (here : tag ≠ .inert → tag ≠ .single .output → place span)
    (unknown : ∀ keyword, tag = .unknown keyword → place keyword.span)
    (placed : reading.PlacedAt place) : after.PlacedAt place := by
  have same : reading.findings.toList = reading.findings.toList ++ [] := (List.append_nil _).symm
  have nothing : ∀ finding ∈ ([] : List Finding), ∀ span ∈ finding.spans, place span := by simp
  cases acts with
  | opened => exact ⟨List.forall_mem_cons.mpr ⟨here nofun nofun, placed.frames⟩, placed.findings⟩
  | tooDeep =>
      refine placed.congr [_] rfl (Array.toList_push ..) (List.forall_mem_singleton.mpr ?_)
      exact List.forall_mem_singleton.mpr (here nofun nofun)
  | branched _ stacked =>
      refine placed.congr [] ?_ same nothing
      rw [stacked]
      rfl
  | strayBranch => exact placed.report (List.forall_mem_singleton.mpr (here nofun nofun))
  | ended _ stacked =>
      have frames := placed.frames
      rw [stacked, List.forall_mem_append, List.forall_mem_cons] at frames
      constructor
      · have places := List.forall_mem_map.mpr frames.2.2
        refine List.forall_mem_map.mp ?_
        rwa [map_span_push]
      · rw [findings_push, Array.toList_append]
        exact List.forall_mem_append.mpr
          ⟨placed.findings, placed_toldOnEnding frames.1 (here nofun nofun) _⟩
  | strayEnd => exact placed.report (List.forall_mem_singleton.mpr (here nofun nofun))
  | single => exact placed.congr [] (map_span_push _ _) (by rw [findings_push]; exact same) nothing
  | unknown => exact placed.report (List.forall_mem_singleton.mpr (unknown _ rfl))
  | _ => exact placed.congr [] rfl same nothing

end Reading

section Read

variable (limit : Option Nat) (options : Options) (source : Source)

/-- What a piece means, unless it is a tag. -/
theorem ofPiece_of_kind_ne {piece : Piece} (other : piece.kind ≠ .region .tag) :
    Tag.ofPiece options source piece = .inert ∨
      Tag.ofPiece options source piece = .single .output := by
  rw [Tag.ofPiece]
  split
  · exact .inl rfl
  · exact .inl rfl
  · exact .inr rfl
  · exact absurd ‹_› other

theorem exists_spot_of_mem_unclosed? {piece : Piece} {finding : Finding}
    (told : finding ∈ unclosed? piece) :
    ∀ span ∈ finding.spans, Spot options source piece span := by
  rw [unclosed?] at told
  split at told
  · rename_i delimiter kind unclosed
    obtain rfl := Option.some.inj told
    refine List.forall_mem_singleton.mpr (.delimiter ?_)
    simp [isUnclosed, kind, unclosed]
  · cases told

/-- All that is told of pieces is told at one of them. -/
theorem placedAt_read (before after : List Piece) :
    (read limit options source before).PlacedAt
      fun span => ∃ piece ∈ before ++ after, Spot options source piece span := by
  induction before using List.reverseRecOn generalizing after with
  | nil => exact ⟨by simp [Reading.start], by simp [Reading.start]⟩
  | append_singleton before piece ih =>
      rw [List.append_assoc, List.singleton_append]
      have listed : piece ∈ before ++ piece :: after := by simp
      refine (acts_read limit options source before piece).placed ?_ ?_ ?_
      · intro no_inert no_output
        by_contra nowhere
        rcases ofPiece_of_kind_ne options source
          fun kind => nowhere ⟨piece, listed, .tag kind⟩ with inert | output
        · exact no_inert inert
        · exact no_output output
      · exact fun keyword unknown => ⟨piece, listed, .keyword unknown⟩
      · refine (ih (piece :: after)).congr (unclosed? piece).toList (by rw [stack_note]) ?_ ?_
        · simp [findings_note]
        · intro finding told span among
          exact ⟨piece, listed, exists_spot_of_mem_unclosed? options source
            (Option.mem_toList.mp told) span among⟩

/-- All diagnostics on a template are at such places of its pieces. -/
theorem exists_spot_of_mem_diagnostics {pieces : List Piece} {diagnostic : Diagnostic}
    (member : diagnostic ∈ (build limit options source pieces).diagnostics) :
    ∀ span ∈ diagnostic.span :: diagnostic.relatedSpan.toList,
      ∃ piece ∈ pieces, Spot options source piece span := by
  have placed := placedAt_read limit options source pieces []
  rw [List.append_nil] at placed
  obtain ⟨finding, told, rfl⟩ := List.mem_map.mp member
  rw [build_eq_finish, Reading.findings_finish] at told
  rcases List.mem_append.mp told with earlier | last
  · exact placed.findings finding earlier
  · exact Reading.placed_unclosed placed.frames true finding last

end Read

end Tree
end TwigTemplate
