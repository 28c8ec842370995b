import TwigTemplate.Proofs.Token.EndTag

/-!
# Cutting a text between lexemes

A text may be cut after a closing delimiter and before an opening one: the part before the cut is
read as it is read in the whole text.  The part after the cut is read in the same way as well,
unless a verbatim body begins there.
-/

namespace TwigTemplate

open Lexeme

namespace Mode

/-- Only bodies of verbatim tags are verbatim. -/
def Sound : Mode → Prop
  | verbatim keyword => keyword ∈ verbatimKeywords
  | _ => True

end Mode

namespace Lexeme

theorem sound_next (mode : Mode) (byte : UInt8) (tail : List UInt8) :
    (next mode byte tail).2.Sound := by
  cases after : (next mode byte tail).2 with
  | markup => trivial
  | verbatim keyword =>
      obtain ⟨_, content, _, _, found⟩ := closing_of_verbatim after
      rw [verbatimKeyword?] at found
      exact List.mem_of_find?_eq_some found
  | region delimiter depth content => trivial

end Lexeme

namespace Reads

variable {mode final other : Mode} {bytes rest later : List UInt8} {lexemes more : List Lexeme}

/-- Of two runs from one point, one continues the other. -/
theorem compare (first : Reads mode bytes lexemes final rest)
    (second : Reads mode bytes more other later) :
    (∃ further, more = lexemes ++ further ∧ Reads final rest further other later) ∨
      ∃ further, lexemes = more ++ further ∧ further ≠ [] ∧
        Reads other later further final rest := by
  induction first generalizing more with
  | done mode bytes => exact .inl ⟨more, rfl, second⟩
  | step taken further ih =>
      cases second with
      | done => exact .inr ⟨_, rfl, List.cons_ne_nil _ _, .step taken further⟩
      | step taken' further' =>
          rw [taken] at taken'
          cases taken'
          rcases ih further' with ⟨extra, rfl, reads⟩ | ⟨extra, rfl, filled, reads⟩
          · exact .inl ⟨extra, rfl, reads⟩
          · exact .inr ⟨extra, rfl, filled, reads⟩

end Reads

/-- A point at which a text may be cut, by the lexemes before it, the mode and what follows: an end
of the text, or after a closing delimiter, or before an opening one. -/
def Edge (lexemes : List Lexeme) (mode : Mode) (back : List UInt8) : Prop :=
  lexemes = [] ∨ back = [] ∨
    (∃ lexeme ∈ lexemes.getLast?, ∃ delimiter, lexeme.kind = .closing delimiter) ∨
    ∃ byte tail delimiter, back = byte :: tail ∧
      (next mode byte tail).1.kind = .opening delimiter

theorem Edge.of_cons {lexeme : Lexeme} {lexemes : List Lexeme} {mode : Mode} {back : List UInt8}
    (edge : Edge (lexeme :: lexemes) mode back) : Edge lexemes mode back := by
  cases lexemes with
  | nil => exact .inl rfl
  | cons first rest =>
      rcases edge with none | rest | ⟨last, is_last, closes⟩ | opens
      · cases none
      · exact .inr (.inl rest)
      · exact .inr (.inr (.inl ⟨last, by simpa using is_last, closes⟩))
      · exact .inr (.inr (.inr opens))

theorem Edge.kind_of_reads {lexemes further : List Lexeme} {mode final : Mode}
    {back rest : List UInt8} (edge : Edge lexemes mode back) (filled : lexemes ≠ [])
    (reads : Reads mode back further final rest) (pending : further ≠ []) :
    (∃ lexeme ∈ lexemes.getLast?, ∃ delimiter, lexeme.kind = .closing delimiter) ∨
      ∃ lexeme ∈ further.head?, ∃ delimiter, lexeme.kind = .opening delimiter := by
  rcases edge with none | ended | closes | ⟨byte, tail, delimiter, rfl, opens⟩
  · exact absurd none filled
  · subst ended
    cases reads
    exact absurd rfl pending
  · exact .inl closes
  · cases reads with
    | done => exact absurd rfl pending
    | step taken continued =>
        rw [taken] at opens
        exact .inr ⟨_, rfl, delimiter, opens⟩

namespace Reads

/-- No text is cut inside an end tag. -/
theorem startsTag_of_edge {word : List UInt8} (plainWord : PlainWord word)
    {front back : List UInt8} {lexemes : List Lexeme} {final : Mode}
    (starts : startsTag word (front ++ back) = true) (filled : front ≠ [])
    (reads : Reads .markup (front ++ back) lexemes final back) (edge : Edge lexemes final back) :
    startsTag word front = true := by
  obtain ⟨tag, rest, split⟩ := exists_endTag starts
  have tagged := tag.reads plainWord rest
  have total := congrArg List.length split
  rw [List.length_append, List.length_append] at total
  have front_long : front.length = width lexemes := by
    have lengths := reads.length_eq
    rw [List.length_append] at lengths
    omega
  rw [← split] at tagged
  rcases tagged.compare reads with ⟨further, rfl, _⟩ | ⟨further, listed, pending, continued⟩
  · have lengths := tagged.length_eq
    rw [List.length_append] at lengths
    rw [width_append] at front_long
    rcases List.append_eq_append_iff.mp split with ⟨cut, tag_eq, _⟩ | ⟨behind, front_eq, _⟩
    · have whole : cut = [] := by
        apply List.eq_nil_of_length_eq_zero
        have tag_long := congrArg List.length tag_eq
        rw [List.length_append] at tag_long
        omega
      rw [whole, List.append_nil] at tag_eq
      rw [← tag_eq, ← List.append_nil tag.bytes]
      exact tag.starts plainWord []
    · rw [front_eq]
      exact tag.starts plainWord behind
  · have taken : lexemes ≠ [] := by
      rintro rfl
      exact filled (List.eq_nil_of_length_eq_zero front_long)
    -- The cut would be after the opening delimiter or after the word.
    have misplaced := edge.kind_of_reads taken continued pending
    rw [EndTag.lexemes] at listed
    rcases lexemes with _ | ⟨first, _ | ⟨second, _ | ⟨third, lexemes⟩⟩⟩
    · exact absurd rfl taken
    · simp only [List.cons_append, List.nil_append, List.cons.injEq] at listed
      obtain ⟨rfl, rfl⟩ := listed
      simp [raw] at misplaced
    · simp only [List.cons_append, List.nil_append, List.cons.injEq] at listed
      obtain ⟨rfl, rfl, rfl⟩ := listed
      simp [raw] at misplaced
    · simp only [List.cons_append, List.cons.injEq, List.nil_eq, List.append_eq_nil_iff] at listed
      exact absurd listed.2.2.2.2 pending

/-- Two runs over the bytes at hand, one of them with more bytes behind, start with the same
lexeme. -/
theorem agree {mode final : Mode} {front back : List UInt8} {lexemes : List Lexeme}
    (short : Reads mode front lexemes final [])
    (long : Reads mode (front ++ back) lexemes final back)
    (filled : front ≠ []) :
    ∃ byte tail, front = byte :: tail ∧
      (next mode byte tail).1 = (next mode byte (tail ++ back)).1 := by
  cases short with
  | done => exact absurd rfl filled
  | @step _ _ _ byte tail _ _ _ taken _ =>
      refine ⟨byte, tail, rfl, ?_⟩
      cases long with
      | step taken' _ =>
          rw [List.append_eq] at taken'
          rw [taken, taken']

section Next

variable {final : Mode} {byte : UInt8} {front back : List UInt8} {lexemes : List Lexeme}

theorem decided_opener (short : Reads .markup front lexemes final [])
    (long : Reads .markup (front ++ back) lexemes final back) :
    Decided (Delimiter.opener? · |>.isSome) front back := by
  intro filled stops
  obtain ⟨byte, tail, rfl, same⟩ := short.agree long filled
  dsimp only at stops ⊢
  rw [List.cons_append, opener?_isSome_iff] at stops
  rw [opener?_isSome_iff]
  exact (congrArg Lexeme.kind same).symm ▸ stops

theorem decided_startsClose {content : List UInt8} {depth : Nat}
    (short : Reads (.region .comment depth content) front lexemes final [])
    (long : Reads (.region .comment depth content) (front ++ back) lexemes final back) :
    Decided Delimiter.comment.startsClose front back := by
  intro filled stops
  obtain ⟨byte, tail, rfl, same⟩ := short.agree long filled
  rw [List.cons_append, startsClose_iff] at stops
  rw [startsClose_iff]
  exact (congrArg Lexeme.kind same).symm ▸ stops

theorem decided_endsRun {delimiter : Delimiter} {depth : Nat} {content : List UInt8}
    (code : delimiter ≠ .comment)
    (short : Reads (.region delimiter depth content) front lexemes final [])
    (long : Reads (.region delimiter depth content) (front ++ back) lexemes final back) :
    Decided (endsRun delimiter depth) front back := by
  intro filled stops
  obtain ⟨byte, tail, rfl, same⟩ := short.agree long filled
  have same_kind := congrArg Lexeme.kind same
  rw [next_code code, next_code code] at same_kind
  rw [List.cons_append, endsRun_iff delimiter depth content] at stops
  rw [endsRun_iff delimiter depth content, same_kind]
  exact stops

/-- A lexeme before a cut does not depend on what follows the cut. -/
theorem next_append {mode : Mode} (more : back ≠ []) (sound : mode.Sound)
    (fits : (next mode byte (front ++ back)).1.extra ≤ front.length)
    (short : Reads (next mode byte (front ++ back)).2
      (front.drop (next mode byte (front ++ back)).1.extra) lexemes final [])
    (long : Reads (next mode byte (front ++ back)).2
      (front.drop (next mode byte (front ++ back)).1.extra ++ back) lexemes final back)
    (edge : Edge ((next mode byte (front ++ back)).1 :: lexemes) final back) :
    next mode byte front = next mode byte (front ++ back) := by
  have code : ∀ {delimiter depth content}, mode = .region delimiter depth content →
      delimiter ≠ .comment → next mode byte front = next mode byte (front ++ back) := by
    rintro delimiter depth content rfl other
    rw [next_code other] at fits short long ⊢
    rw [next_code other]
    refine ofCode_append more fits ?_
    intro later inside after
    rw [after] at short long
    exact decided_endsRun other short long
  match mode with
  | .markup =>
    refine ofMarkup_append fits ?_
    intro after
    rw [next, after] at short long
    exact decided_opener short long
  | .verbatim keyword =>
    have plainWord : PlainWord (endWord keyword) := plainWord_endWord sound
    refine ofVerbatim_append (lasting_startsTag plainWord) fits ?_ ?_
    · intro filled starts
      have ended : next (.verbatim keyword) byte (front ++ back) =
          next .markup byte (front ++ back) := ofVerbatim_of_startsTag starts
      rw [ended] at fits long edge
      rw [← List.drop_append_of_le_length fits] at long
      exact startsTag_of_edge plainWord starts filled (.step rfl long) edge
    · intro after filled starts
      rw [next, after] at long
      exact startsTag_of_edge plainWord starts filled long edge.of_cons
  | .region .comment depth content =>
    refine ofComment_append fits ?_
    intro after
    rw [next, after] at short long
    exact decided_startsClose short long
  | .region .tag depth content => exact code rfl (by simp)
  | .region .expression depth content => exact code rfl (by simp)

end Next

/-- The part of a text before a point at which it may be cut is read as in the whole text. -/
theorem cut {mode final : Mode} {front back : List UInt8} {lexemes : List Lexeme}
    (reads : Reads mode (front ++ back) lexemes final back) (sound : mode.Sound)
    (edge : Edge lexemes final back) : Reads mode front lexemes final [] := by
  by_cases more : back = []
  · subst more
    rwa [List.append_nil] at reads
  generalize whole : front ++ back = bytes at reads
  induction reads generalizing front with
  | done mode bytes =>
      rw [List.append_left_eq_self] at whole
      rw [whole]
      exact .done mode []
  | @step mode after final byte tail rest lexeme lexemes taken further ih =>
      obtain ⟨front, rfl, rfl, fits⟩ := further.exists_front more whole
      obtain rfl : (next mode byte (front ++ rest)).1 = lexeme := by rw [taken]
      obtain rfl : (next mode byte (front ++ rest)).2 = after := by rw [taken]
      rw [List.drop_append_of_le_length fits] at further ih
      have shorter := ih (sound_next mode byte (front ++ rest)) edge.of_cons more rfl
      exact .step (next_append more sound fits shorter further edge) shorter

/-- Before an opening delimiter it does not matter what has been read. -/
theorem restart {mode final : Mode} {back : List UInt8} {lexemes : List Lexeme} {lexeme : Lexeme}
    {delimiter : Delimiter} (reads : Reads mode back lexemes final [])
    (first : lexeme ∈ lexemes.head?) (opens : lexeme.kind = .opening delimiter) :
    Reads .markup back lexemes final [] := by
  cases reads with
  | done => cases first
  | @step _ after _ byte tail _ head _ taken further =>
      obtain rfl := Option.some.inj first
      have same := next_of_opening (by rw [taken]; exact opens)
      exact .step (same.2.symm.trans taken) further

end Reads
end TwigTemplate
